import PingPong.CommFutexWake
import PingPong.Fairness

namespace PingPong.CommFutexLive

open MonitorState (Worker)
open CommFutex CommFutexWake TransitionSystem TokenRing Fairness

variable {s s' : State} {t : Token Worker} {i : Worker} {e : Event}

/-- No wait is interrupted, and a `FUTEX_WAKE` wakes a waiter if there is one. -/
def Smooth (e : Event) (s : State) : Prop :=
  match e with
  | .step i none => s.pc i = .send .wake → s.world.waiters = ∅
  | .step _ (some _) | .stop => True
  | .interrupt _ => False

instance : ∀ e s, Decidable (Smooth e s) := fun e s => by
  unfold Smooth
  split <;> infer_instance

/-- The other worker has to sleep before it can be woken. -/
def who (s : State) : Token Worker → Worker
  | .held i => if Stored (s.pc i) ∧ i.other ∉ s.world.waiters then i.other else i
  | .passed i => i.other

def rank (s : State) : Token Worker → Nat
  | .held i =>
    if Stored (s.pc i) then
      if i.other ∈ s.world.waiters then if s.pc i = .send .testStop then 1 else 0
      else if s.pc i.other = .recv .testStop then 3 else 2
    else if s.pc i = .send .store then 4 else 5
  | .passed _ => 0

theorem rank_le_of_stored (h : Stored (s.pc i)) : rank s (.held i) ≤ 3 := by
  rw [rank, if_pos h]
  split <;> split <;> omega

def Idle (e : Event) (s s' : State) (t : Token Worker) : Prop :=
  rank s' t = rank s t ∧ who s' t = who s t ∧ ∀ pick, e ≠ .step (who s t) pick

theorem idle_recv {pick : Option Worker} {pc : RecvPc} {w : World} (hs : ¬ Stored (s.pc i)) :
    Idle (.step i.other pick) s (s.move i.other (.recv pc) w) (.held i) := by
  refine ⟨by simp [rank, hs], by simp [who, hs], fun pick' he => ?_⟩
  rw [who, if_neg fun hn => hs hn.1] at he
  exact i.other_ne (Event.step.inj he).1

theorem idle_send {pick : Option Worker} {pc : SendPc} (hs : Stored (s.pc i))
    (hs' : Stored (.send pc)) (hn : i.other ∉ s.world.waiters) :
    Idle (.step i pick) s (s.move i (.send pc) s.world) (.held i) := by
  refine ⟨by simp [rank, hs, hs', hn], by simp [who, hs, hs', hn], fun pick' he => ?_⟩
  rw [who, if_pos ⟨hs, hn⟩] at he
  exact i.ne_other (Event.step.inj he).1

theorem held_step (h : Rel s (.held i)) (he : e ≠ .stop) (hsmooth : Smooth e s)
    (hn : Step e s s') : (moves s.world.history).length < (moves s'.world.history).length ∨
      rank s' (.held i) < rank s (.held i) ∨ Idle e s s' (.held i) := by
  have hp : Turn i s := h.phase
  cases hn with
  | count hpc =>
    obtain rfl := hp.eq_of_send hpc (by simp)
    exact .inr (.inl (by simp [rank, hpc, Stored]))
  | @store _ j _ hpc =>
    obtain rfl := hp.eq_of_send hpc (by simp)
    have hs : Stored ((s.move j (.send .wake) ({ s.world with
        word := value j }.record (.stored j (value j)))).pc j) := by simp [Stored]
    refine .inr (.inl ((rank_le_of_stored hs).trans_lt ?_))
    simp [rank, hpc, Stored]
  | wakeNone hpc =>
    obtain rfl := hp.eq_of_send hpc (by simp)
    have hw : s.world.waiters = ∅ := hsmooth hpc
    exact .inr (.inr (idle_send (by simp [hpc, Stored]) trivial (by simp [hw])))
  | wake hpc hj => exact .inl (by simp [move])
  | @sendRetry _ j _ hpc _ =>
    obtain rfl := hp.eq_of_send hpc (by simp)
    have hs : Stored (s.pc j) := by simp [hpc, Stored]
    by_cases hw : j.other ∈ s.world.waiters
    · exact .inr (.inl (by simp [rank, hpc, Stored, hw]))
    · exact .inr (.inr (idle_send hs trivial hw))
  | sendStop _ hs => simp [h.stop] at hs
  | waitFail hpc hw =>
    obtain rfl := hp.eq_of_recv hpc
    refine .inr (.inr (idle_recv fun hs => hw ?_))
    simpa [hs] using hp.word
  | sleep hpc hw =>
    obtain rfl := hp.eq_of_recv hpc
    have hs : Stored (s.pc i) := by
      by_contra hs
      have hword := hp.word
      rw [if_neg hs, hw, Worker.other_other] at hword
      exact i.ne_other (value_injective hword)
    have hn : i.other ∉ s.world.waiters := fun hi => by simp [hp.asleep.mp hi] at hpc
    refine .inr (.inl ?_)
    simp [rank, hs, hn, hpc]
    split <;> omega
  | woken hpc hj => exact .inl (by simp [move])
  | recvRetry hpc _ =>
    obtain rfl := hp.eq_of_recv hpc
    by_cases hs : Stored (s.pc i)
    · have hn : i.other ∉ s.world.waiters := fun hi => by simp [hp.asleep.mp hi] at hpc
      exact .inr (.inl (by simp [rank, hs, hn, hpc]))
    · exact .inr (.inr (idle_recv hs))
  | recvStop _ hs => simp [h.stop] at hs
  | interrupt => exact hsmooth.elim
  | stop => exact absurd rfl he

theorem passed_step (h : Rel s (.passed i)) (he : e ≠ .stop) (hsmooth : Smooth e s)
    (hn : Step e s s') : (moves s.world.history).length < (moves s'.world.history).length ∨
      rank s' (.passed i) < rank s (.passed i) ∨ Idle e s s' (.passed i) := by
  have hp : Handed i s := h.phase
  have hidle : ∀ pick s', Idle (.step i pick) s s' (.passed i) := fun pick s' =>
    ⟨rfl, rfl, fun pick' he => i.ne_other (Event.step.inj he).1⟩
  cases hn with
  | count hpc | store hpc | wakeNone hpc | sendRetry hpc _ | sendStop hpc _ =>
    obtain ⟨pc, hr⟩ := hp.exists_recv _
    exact absurd (hpc.symm.trans hr) (by simp)
  | wake | woken => exact .inl (by simp [move])
  | waitFail hpc _ | sleep hpc _ | recvRetry hpc _ =>
    obtain rfl := hp.eq_of_recv hpc (by simp)
    exact .inr (.inr (hidle _ _))
  | recvStop _ hs => simp [h.stop] at hs
  | interrupt => exact hsmooth.elim
  | stop => exact absurd rfl he

theorem pong_ne_count (h : Reachable running s) : s.pc .pong ≠ .count := by
  refine h.invariant (I := fun s => s.pc .pong ≠ .count) ?_ fun s e t hI hn => ?_
  · rintro _ rfl
    nofun
  · cases next_cases (restrict_next.mp hn).2 with
    | count | stop => exact hI
    | @store _ i | @wakeNone _ i | @wake _ i | @sendRetry _ i | @sendStop _ i | @waitFail _ i
    | @sleep _ i | @woken _ i | @recvRetry _ i | @recvStop _ i | @interrupt _ i =>
      cases i <;> simp [received, hI]

theorem isSome_recv {pc : RecvPc} {fd : Fin 2} {w : World} (h : pc = .asleep → i ∉ w.waiters) :
    (do_recv_futex i fd pc w).isSome := by
  cases pc with
  | wait =>
    rw [do_recv_futex]
    split <;> rfl
  | asleep => simp [do_recv_futex, h rfl]
  | testStop => rfl

theorem isSome_next (hs : Reachable running s) (hi : s.pc i = .recv .asleep → i ∉ s.world.waiters) :
    (CommFutex.next (.step i none) s).isSome := by
  have hc := pong_ne_count hs
  cases hpc : s.pc i with
  | count =>
    cases i with
    | ping => simp [CommFutex.next, do_thread_work, comm_ping_generic, hpc]
    | pong => exact absurd hpc hc
  | send pc =>
    cases i <;> cases pc <;> simp [CommFutex.next, do_thread_work, comm_ping_generic,
      comm_pong_generic, sendLoop, do_send_futex, futex_wake, hpc]
  | recv pc =>
    have hr : (do_recv_futex i (config.ear i) pc s.world).isSome :=
      isSome_recv fun hp => hi (by rw [hpc, hp])
    cases i <;> simpa [CommFutex.next, do_thread_work, comm_ping_generic, comm_pong_generic,
      recvLoop, hpc] using hr

theorem isSome_wake {j : Worker} (hpc : s.pc i = .send .wake) (hj : j ∈ s.world.waiters) :
    (CommFutex.next (.step i (some j)) s).isSome := by
  cases i <;> simp [CommFutex.next, do_thread_work, comm_ping_generic, comm_pong_generic, sendLoop,
    do_send_futex, futex_wake, hpc, hj]

theorem isSome_later (hsmooth : Smooth e s) (he : e ≠ .stop) (hn : (CommFutex.next e s).isSome) :
    ((later running Smooth).next e s).isSome := by
  obtain ⟨s', hn⟩ := Option.isSome_iff_exists.mp hn
  exact Option.isSome_iff_exists.mpr
    ⟨s', restrict_next.mpr ⟨hsmooth, restrict_next.mpr ⟨he, hn⟩⟩⟩

theorem awake (h : Rel s t) (hi : s.pc (who s t) = .recv .asleep) :
    who s t ∉ s.world.waiters := by
  cases t with
  | held i =>
    have hp : Turn i s := h.phase
    by_cases hs : Stored (s.pc i) ∧ i.other ∉ s.world.waiters
    · simp [who, hs]
    · simpa [who, hs] using hp.awake
  | passed i =>
    have hp : Handed i s := h.phase
    simp [hp.waiters]

theorem possible_step (hs : Reachable running s) (h : Rel s t) :
    Possible (later running Smooth) (fun _ e => ∃ pick, e = .step (who s t) pick) s := by
  by_cases hw : s.pc (who s t) = .send .wake ∧ s.world.waiters ≠ ∅
  · obtain ⟨j, hj⟩ := Finset.nonempty_iff_ne_empty.mpr hw.2
    exact ⟨_, ⟨some j, rfl⟩, isSome_later trivial nofun (isSome_wake hw.1 hj)⟩
  · refine ⟨_, ⟨none, rfl⟩, isSome_later (fun hpc => ?_) nofun (isSome_next hs (awake h))⟩
    by_contra hne
    exact hw ⟨hpc, hne⟩

theorem step_rank (h : Rel s t) (hn : (later running Smooth).next e s = some s') :
    moves s'.world.history ≠ moves s.world.history ∨ rank s' t < rank s t ∨ Idle e s s' t := by
  obtain ⟨hsmooth, hn⟩ := restrict_next.mp hn
  obtain ⟨he, hn⟩ := restrict_next.mp hn
  have hne : ∀ {a b : List (Move Worker)}, a.length < b.length → b ≠ a := fun hlt heq =>
    absurd hlt (by rw [heq]; exact lt_irrefl _)
  cases t with
  | held i => exact (held_step h he hsmooth (next_cases hn)).imp_left hne
  | passed i => exact (passed_step h he hsmooth (next_cases hn)).imp_left hne

def driven : Driven (later running Smooth) (ring Worker.other (.held .ping))
    (fun s => moves s.world.history) Rel fun i _ e => ∃ pick, e = .step i pick where
  run h := CommFutexWake.simulation.reachable (reachable_of_later h)
  matched hR hn := CommFutexWake.simulation.step hR (restrict_next.mp hn).2
  who t s := who s t
  rank t s := rank s t
  possible h hR := possible_step (reachable_of_later h) hR
  helped := by
    rintro s s' t _ - hR ⟨pick, rfl⟩ hn
    obtain hne | hlt | ⟨-, -, hidle⟩ := step_rank hR hn
    · exact .inl hne
    · exact .inr hlt
    · exact absurd rfl (hidle pick)
  others _ hR _ hn := by
    obtain hne | hlt | ⟨hrank, hwho, -⟩ := step_rank hR hn
    · exact .inl hne
    · exact .inr (.inl hlt)
    · exact .inr (.inr ⟨hrank, hwho⟩)

/-- While nobody stops the workers, with a scheduler that forgets neither of them, and with
waits and wakes that fail only finitely often, the workers wake each other for ever. -/
theorem wakes_forever (e : Execution running) (k₀ : Nat)
    (hsmooth : ∀ k a, k₀ ≤ k → e.event k = some a → Smooth a (e.state k))
    (hfair : ∀ i, e.Fair fun _ a => ∃ pick, a = .step i pick) (n : Nat) :
    ∃ k, ∀ i, n ≤ (e.state k).world.history.count (.woke i i.other) := by
  obtain ⟨k, hk⟩ := driven.passes_forever Worker.other_involutive Worker.eq_or_other
    (e.after k₀ Smooth hsmooth) (fun i => (hfair i).after hsmooth) n
  obtain ⟨t, -, hR⟩ := CommFutexWake.simulation.reachable (e.reachable (k₀ + k))
  exact ⟨k₀ + k, fun i => by rw [← count_passes_moves _ _ hR.ordered.wakes]; exact hk i⟩

def waiter (s : State) : Option Worker :=
  if .ping ∈ s.world.waiters then some .ping
  else if .pong ∈ s.world.waiters then some .pong
  else none

theorem waiter_cases (s : State) :
    (∃ j, waiter s = some j ∧ j ∈ s.world.waiters) ∨ waiter s = none ∧ s.world.waiters = ∅ := by
  by_cases hi : .ping ∈ s.world.waiters
  · exact .inl ⟨.ping, by simp [waiter, hi], hi⟩
  · by_cases hj : .pong ∈ s.world.waiters
    · exact .inl ⟨.pong, by simp [waiter, hi, hj], hj⟩
    · refine .inr ⟨by simp [waiter, hi, hj], ?_⟩
      ext i
      cases i <;> simp [hi, hj]

theorem smooth_waiter (s : State) (i : Worker) : Smooth (.step i (waiter s)) s := by
  obtain ⟨j, hw, -⟩ | ⟨hw, hempty⟩ := waiter_cases s
  · rw [hw]
    trivial
  · rw [hw]
    exact fun _ => hempty

theorem isSome_waiter {pick : Option Worker} (h : (CommFutex.next (.step i pick) s).isSome) :
    (CommFutex.next (.step i (waiter s)) s).isSome := by
  by_cases hpc : s.pc i = .send .wake
  · obtain ⟨j, hw, hj⟩ | ⟨hw, -⟩ := waiter_cases s
    · exact hw ▸ isSome_wake hpc hj
    · rw [hw]
      cases i <;> simp [CommFutex.next, do_thread_work, comm_ping_generic, comm_pong_generic,
        sendLoop, do_send_futex, futex_wake, hpc]
  · have hsame : CommFutex.next (.step i (waiter s)) s = CommFutex.next (.step i pick) s := by
      cases hp : s.pc i with
      | count | recv =>
        cases i <;> simp [CommFutex.next, do_thread_work, comm_ping_generic, comm_pong_generic, hp]
      | send pc =>
        cases pc with
        | wake => exact absurd hp hpc
        | store | testStop =>
          cases i <;> simp [CommFutex.next, do_thread_work, comm_ping_generic, comm_pong_generic,
            sendLoop, do_send_futex, hp]
    rwa [hsame]

/-- Every wake finds the other worker, once that sleeps. -/
theorem wakes_forever_smooth : ∃ e : Execution running, ∃ k, ∀ i,
    1000 ≤ (e.state k).world.history.count (.woke i i.other) := by
  let choose (n : Nat) (s : State) : Event := .step (if n % 2 = 0 then .ping else .pong) (waiter s)
  let e : Execution running := schedule running rfl choose
  refine ⟨e, wakes_forever e 0 (fun k a _ ha => ?_) (fun i => ?_) 1000⟩
  · obtain rfl := Option.some.inj (Option.ite_none_right_eq_some.mp ha).2
    exact smooth_waiter _ _
  · refine schedule_fair rfl fun n => ⟨if i = .ping then 2 * n else 2 * n + 1, ?_, fun s => ?_⟩
    · split <;> omega
    · rintro ⟨_, ⟨pick, rfl⟩, hs⟩
      have hturn : choose (if i = .ping then 2 * n else 2 * n + 1) s = .step i (waiter s) := by
        cases i <;> simp [choose]
      obtain ⟨t, ht⟩ := Option.isSome_iff_exists.mp hs
      obtain ⟨t', ht'⟩ := Option.isSome_iff_exists.mp
        (isSome_waiter (Option.isSome_iff_exists.mpr ⟨t, (restrict_next.mp ht).2⟩))
      rw [hturn]
      exact ⟨⟨_, rfl⟩, Option.isSome_iff_exists.mpr ⟨t', restrict_next.mpr ⟨nofun, ht'⟩⟩⟩

end PingPong.CommFutexLive
