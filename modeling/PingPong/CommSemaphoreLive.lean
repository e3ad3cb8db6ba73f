import PingPong.CommSemaphoreReuse
import PingPong.Fairness

namespace PingPong.CommSemaphoreLive

open MonitorState (Worker)
open CommSemaphore CommSemaphoreToken CommSemaphoreReuse TransitionSystem Fairness

variable {m : SemMode} {left : Fin 2 → Nat} {s t : State} {i : Worker} {o : Option Worker}

def helper : Option Worker → Event
  | none => .monitor
  | some i => .step i true

/-- The monitor has to begin, and then a worker whose unit finds room has to post, or one that
finds a unit to take it. -/
def Busy (s : State) : Option Worker → Prop
  | none => s.world.monitor ≠ .done
  | some i => s.world.monitor = .done ∧
      (s.pc i = .post ∧ s.world.sems (num i.other) < SEM_VALUE_MAX ∨
        s.pc i ≠ .post ∧ s.world.sems (num i) ≠ 0)

def distance : Pc → Nat
  | .post => 0
  | .wait => 1
  | .count => 2
  | .await => 3

theorem distance_lt (pc : Pc) : distance pc < 4 := by cases pc <;> decide

/-- What is left to do before somebody posts. A worker that takes a unit may find no room for
it as long as the other one has not taken a unit, too. -/
def rank (s : State) : Option Worker → Nat
  | none => if s.world.monitor = .setStart then 9 else 8
  | some i => distance (s.pc i) + if s.pc i ≠ .post ∧ s.pc i.other ≠ .post then 4 else 0

theorem rank_post (h : s.pc i = .post) : rank s (some i) = 0 := by simp [rank, h, distance]

theorem rank_pos (h : s.pc i ≠ .post) : 0 < rank s (some i) := by
  refine Nat.add_pos_left ?_ _
  cases hpc : s.pc i <;> simp_all [distance]

theorem rank_some_lt (s : State) (i : Worker) : rank s (some i) < 8 := by
  have hd := distance_lt (s.pc i)
  rw [rank]
  split <;> omega

def Less (s t : State) (o : Option Worker) : Prop := ∃ o', Busy t o' ∧ rank t o' < rank s o

/-- Not everything can be full: there are at most as many units as the semaphores take, and
the monitor's. -/
theorem exists_busy (hleft : ∀ n, left n ≤ SEM_VALUE_MAX) (h : Reachable (runs m left) s) :
    ∃ o, Busy s o := by
  by_cases hm : s.world.monitor = .done
  · obtain ⟨b, hb⟩ := exists_balanced h
    have ht := hb.total
    have hbegun := hb.begun
    rw [begun, if_pos hm] at hbegun
    have hpos : 0 < SEM_VALUE_MAX := by decide
    have h0 := hleft 0
    have h1 := hleft 1
    rw [units] at ht
    by_contra hnone
    push Not at hnone
    have hping := hnone (some .ping)
    have hpong := hnone (some .pong)
    simp only [Busy, hm, true_and, not_or, not_and, not_lt, not_not, num, Worker.other]
      at hping hpong
    by_cases hi : s.pc .ping = .post <;> by_cases hj : s.pc .pong = .post <;>
      simp [hi, hj] at ht hping hpong <;> omega
  · exact ⟨none, hm⟩

theorem less_move {pc : Pc} {w : World} (h : Busy s (some i)) (hi : s.pc i ≠ .post)
    (hpc : pc ≠ .post) (hmonitor : w.monitor = s.world.monitor) (hsems : w.sems = s.world.sems)
    (hlt : distance pc < distance (s.pc i)) : Less s (s.move i pc w) (some i) := by
  refine ⟨some i, ⟨hmonitor.trans h.1, .inr ?_⟩, ?_⟩
  · have hunit := (h.2.resolve_left fun hp => hi hp.1).2
    simpa [hsems, hpc] using hunit
  · simpa [rank, hi, hpc] using hlt

theorem less_enter (h : Busy s (some i)) (hi : s.pc i = .await) :
    Less s (s.move i (top i) s.world) (some i) := by
  refine less_move h (by simp [hi]) ?_ rfl rfl ?_ <;> cases i <;> simp [top, hi, distance]

theorem less_count (h : Busy s (some .ping)) (hc : s.pc .ping = .count) :
    Less s (s.move .ping .wait { s.world with ping_count := s.world.ping_count + 1 })
      (some .ping) :=
  less_move h (by simp [hc]) (by simp) rfl rfl (by simp [hc, distance])

theorem less_wait (hleft : ∀ n, left n ≤ SEM_VALUE_MAX) (h : s.world.monitor = .done)
    (hi : s.pc i = .wait)
    (ht : Reachable (runs m left) (s.move i .post (s.world.down i (num i)))) :
    Less s (s.move i .post (s.world.down i (num i))) (some i) := by
  obtain ⟨o, ho⟩ := exists_busy hleft ht
  refine ⟨o, ho, ?_⟩
  cases o with
  | none => exact absurd h ho
  | some j =>
    have hpos : 0 < rank s (some i) := rank_pos (by simp [hi])
    obtain rfl | rfl := i.eq_or_other j
    · rwa [rank_post (by simp)]
    · by_cases hp : s.pc i.other = .post
      · rwa [rank_post (by simpa using hp)]
      · have hd := distance_lt (s.pc i.other)
        simp [rank, hi, hp]
        omega

theorem busy_other {pc : Pc} {w : World} (h : Busy s (some i)) (hj : s.pc i.other ≠ .post)
    (hpc : pc ≠ .post) (hmonitor : w.monitor = s.world.monitor) (hsems : w.sems = s.world.sems) :
    Busy (s.move i.other pc w) (some i) ∧
      rank (s.move i.other pc w) (some i) = rank s (some i) := by
  refine ⟨⟨hmonitor.trans h.1, ?_⟩, by simp [rank, hj, hpc]⟩
  simpa [hsems] using h.2

theorem less_or_busy_wait (h : Busy s (some i)) (hj : s.pc i.other = .wait) :
    Less s (s.move i.other .post (s.world.down i.other (num i.other))) (some i) ∨
      Busy (s.move i.other .post (s.world.down i.other (num i.other))) (some i) ∧
        rank (s.move i.other .post (s.world.down i.other (num i.other))) (some i) =
          rank s (some i) := by
  obtain ⟨hm, ⟨hi, hroom⟩ | ⟨hi, hunit⟩⟩ := h
  · refine .inr ⟨⟨hm, .inl ⟨by simpa using hi, ?_⟩⟩, ?_⟩
    · simp only [Workers.move_world, World.down_sems, Function.update_self]
      omega
    · rw [rank_post hi, rank_post (by simpa using hi)]
  · exact .inl ⟨some i, ⟨hm, .inr (by simpa [hi] using hunit)⟩, by simp [rank, hi, hj]⟩

theorem busy_monitor {pc : Pc} {w : World} (h : Busy s none)
    (hmonitor : w.monitor = s.world.monitor) :
    Busy (s.move i pc w) none ∧ rank (s.move i pc w) none = rank s none := by
  refine ⟨fun hd => h (hmonitor.symm.trans hd), ?_⟩
  simp [rank, hmonitor]

theorem less_setStart (h : s.world.monitor = .setStart) :
    Less s { s with world.monitor := .comm_begin, world.start := true } none :=
  ⟨none, nofun, by simp [rank, h]⟩

theorem less_comm_begin (hleft : ∀ n, left n ≤ SEM_VALUE_MAX) (h : s.world.monitor = .comm_begin)
    (ht : Reachable (runs m left)
      { s with world := { do_begin_sem s.world with monitor := .done } }) :
    Less s { s with world := { do_begin_sem s.world with monitor := .done } } none := by
  obtain ⟨o, ho⟩ := exists_busy hleft ht
  cases o with
  | none => exact absurd rfl ho
  | some i => exact ⟨some i, ho, by simpa [rank, h] using rank_some_lt _ i⟩

theorem step_work (hleft : ∀ n, left n ≤ SEM_VALUE_MAX) (h : Busy s o) (hn : Step s t)
    (ht : Reachable (runs m left) t) :
    (posts s.world.history).length < (posts t.world.history).length ∨
      (posts s.world.history).length = (posts t.world.history).length ∧
        (Less s t o ∨ Busy t o ∧ rank t o = rank s o) := by
  cases hn with
  | post hi _ => exact .inl (by simp)
  | setStart hm =>
    cases o with
    | none => exact .inr ⟨rfl, .inl (less_setStart hm)⟩
    | some i => simp [Busy, hm] at h
  | comm_begin hm =>
    cases o with
    | none => exact .inr ⟨rfl, .inl (less_comm_begin hleft hm ht)⟩
    | some i => simp [Busy, hm] at h
  | stay => exact .inr ⟨rfl, .inr (by rw [Workers.move_self]; exact ⟨h, rfl⟩)⟩
  | @enter j hj =>
    refine .inr ⟨rfl, ?_⟩
    cases o with
    | none => exact .inr (busy_monitor h rfl)
    | some i =>
      obtain rfl | rfl := i.eq_or_other j
      · exact .inl (less_enter h hj)
      · exact .inr (busy_other h (by simp [hj]) (top_ne_post _) rfl rfl)
  | count hc =>
    refine .inr ⟨rfl, ?_⟩
    cases o with
    | none => exact .inr (busy_monitor h rfl)
    | some i =>
      cases i with
      | ping => exact .inl (less_count h hc)
      | pong => exact .inr (busy_other h (by simp [Worker.other, hc]) nofun rfl rfl)
  | @wait j hj hz =>
    refine .inr ⟨by simp, ?_⟩
    cases o with
    | none => exact .inr (busy_monitor h rfl)
    | some i =>
      obtain rfl | rfl := i.eq_or_other j
      · exact .inl (less_wait hleft h.1 hj ht)
      · exact less_or_busy_wait h hj

theorem ready (h : Reachable (runs m left) s) :
    (s.world.monitor ≠ .setStart → s.world.start = true) ∧ s.pc .pong ≠ .count := by
  apply h.invariant (I := fun s => (s.world.monitor ≠ .setStart → s.world.start = true) ∧
    s.pc .pong ≠ .count)
  · rintro _ rfl
    exact ⟨fun hm => absurd rfl hm, nofun⟩
  · rintro s e t ⟨hs, hc⟩ hn
    cases next_cases hn with
    | setStart hm => exact ⟨fun _ => rfl, hc⟩
    | comm_begin hm => exact ⟨fun _ => hs (by simp [hm]), hc⟩
    | @stay i | @enter i hi | @wait i hi hz | @post i hi _ =>
      refine ⟨hs, ?_⟩
      cases i <;> simp_all [top]
    | count => exact ⟨hs, hc⟩

theorem exists_next (hleft : ∀ n, left n ≤ SEM_VALUE_MAX) (hs : Reachable (runs m left) s)
    (h : Busy s o) : ∃ t,
    (runs m left).next (helper o) s = some t ∧
      ((posts s.world.history).length < (posts t.world.history).length ∨ Less s t o) := by
  obtain ⟨hstart, hpong⟩ := ready hs
  cases o with
  | none =>
    cases hm : s.world.monitor with
    | setStart => exact ⟨_, by simp [runs, next, helper, hm], .inr (less_setStart hm)⟩
    | comm_begin =>
      have hn : (runs m left).next (helper none) s =
          some { s with world := { do_begin_sem s.world with monitor := .done } } := by
        simp [runs, next, helper, hm]
      exact ⟨_, hn, .inr (less_comm_begin hleft hm (hs.next hn))⟩
    | done => exact absurd hm h
  | some i =>
    cases hi : s.pc i with
    | await =>
      exact ⟨_, next_enter hi (hstart (by simp [h.1])), .inr (less_enter h hi)⟩
    | count =>
      cases i with
      | ping => exact ⟨_, next_count hi, .inr (less_count h hi)⟩
      | pong => exact absurd hi hpong
    | wait =>
      have hn : (runs m left).next (.step i true) s =
          some (s.move i .post (s.world.down i (num i))) :=
        next_wait hi (h.2.resolve_left (by simp [hi])).2
      exact ⟨_, hn, .inr (less_wait hleft h.1 hi (hs.next hn))⟩
    | post => exact ⟨_, next_post hi (h.2.resolve_right (by simp [hi])).2, .inl (by simp)⟩

def progress (m : SemMode) (left : Fin 2 → Nat) (hleft : ∀ n, left n ≤ SEM_VALUE_MAX) :
    Progress (runs m left) (fun o _ e => e = helper o)
      fun s => (posts s.world.history).length where
  work o n s := Busy s o ∧ rank s o = n
  exists_work hs := by
    obtain ⟨o, h⟩ := exists_busy hleft hs
    exact ⟨o, _, h, rfl⟩
  possible hs hw := by
    obtain ⟨t, ht, -⟩ := exists_next hleft hs hw.1
    exact ⟨_, rfl, Option.isSome_iff_exists.mpr ⟨t, ht⟩⟩
  step := by
    rintro s t e o _ hs ⟨h, rfl⟩ hn
    obtain hlt | ⟨heq, hw⟩ := step_work hleft h (next_cases hn) (hs.next hn)
    · exact .inl hlt
    · refine .inr ⟨heq, ?_⟩
      have hless : Less s t o → ∃ o' k, k < rank s o ∧ Busy t o' ∧ rank t o' = k :=
        fun ⟨o', hb, hlt⟩ => ⟨o', _, hlt, hb, rfl⟩
      obtain hl | hb := hw
      · exact .inl (hless hl)
      · by_cases he : e = helper o
        · subst he
          obtain ⟨t', ht', hlt | hl⟩ := exists_next hleft hs h
          · obtain rfl := Option.some.inj (hn.symm.trans ht')
            omega
          · obtain rfl := Option.some.inj (hn.symm.trans ht')
            exact .inl (hless hl)
        · exact .inr ⟨hb, he⟩

theorem length_eq_count (is : List Worker) : is.length = is.count .ping + is.count .pong := by
  induction is with
  | nil => rfl
  | cons i is ih => cases i <;> simp [ih] <;> omega

/-- With a scheduler that forgets neither the monitor nor the workers, and calls that do not
fail for ever, every semaphore is posted again and again, also with units of an earlier run,
and even if these leave no room for the monitor's. -/
theorem posts_forever (m : SemMode) (left : Fin 2 → Nat) (hleft : ∀ n, left n ≤ SEM_VALUE_MAX)
    (e : Execution (runs m left)) (hfair : ∀ o, e.Fair fun _ a => a = helper o) (n : Nat) :
    ∃ k, ∀ i, n ≤ posted (e.state k) i := by
  obtain ⟨k, hk⟩ := (progress m left hleft).unbounded e hfair (2 * n + left 0 + left 1 + 1)
  refine ⟨k, fun i => ?_⟩
  have hlen : (posts (e.state k).world.history).length =
      posted (e.state k) .ping + posted (e.state k) .pong := length_eq_count _
  obtain ⟨b, hb⟩ := exists_balanced (e.reachable k)
  have h0 := hb.ahead (i := .ping)
  have h1 := hb.ahead (i := .pong)
  have hle : b ≤ 1 := by
    have hbegun := hb.begun
    rw [begun] at hbegun
    split at hbegun <;> omega
  simp only [num, Worker.other, granted] at h0 h1
  cases i <;> omega

/-- Both semaphores are full, and the monitor's unit is lost. -/
theorem posts_forever_busysem : ∃ e : Execution (runs .busysem fun _ => SEM_VALUE_MAX), ∃ k, ∀ i,
    1000 ≤ posted (e.state k) i :=
  ⟨_, posts_forever .busysem _ (fun _ => le_rfl)
    (schedule (runs .busysem fun _ => SEM_VALUE_MAX) rfl
      (turns .monitor [.step .ping true, .step .pong true]))
    (fun o => turns_fair rfl (by obtain _ | _ | _ := o <;> simp [helper])) 1000⟩

end PingPong.CommSemaphoreLive
