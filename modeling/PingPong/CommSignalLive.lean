import PingPong.CommSignalToken
import PingPong.Fairness

namespace PingPong.CommSignalLive

open MonitorState (Worker)
open CommSignal CommSignalToken TransitionSystem TokenRing Fairness

variable {p : Peers} {s s' : State} {t : Token Worker} {i : Worker}

theorem next_count (h : s.pc .ping = .count) : (system p).next (.step .ping) s =
    some (s.move .ping .send { s.world with ping_count := s.world.ping_count + 1 }) := by
  simp [system, CommSignal.next, do_thread_work, comm_ping_signal, h]

theorem next_send (h : s.pc i = .send) : ∃ w, (system p).next (.step i) s =
    some (s.move i .test w) ∧ w.history = s.world.history ++ [.sent i] := by
  refine ⟨(send_sig (p.pid i.other) (sigs (num i + 1)) s.world).record (.sent i), ?_, ?_⟩
  · cases i <;> simp [system, CommSignal.next, do_thread_work, comm_ping_signal, comm_pong_signal,
      loop, h]
  · simp [send_sig, p.pid_pos]

theorem next_leave (h : s.pc i = .test) (hf : s.world.signal_received (p.pid i) (num i) ≠ 0) :
    (system p).next (.step i) s = some (s.move i .clear s.world) := by
  cases i <;> simp [system, CommSignal.next, do_thread_work, comm_ping_signal, comm_pong_signal,
    loop, h, hf]

theorem next_clear (h : s.pc i = .clear) : (system p).next (.step i) s =
    some (s.move i (top i) ((s.world.reset (p.pid i) (num i)).record (.cleared i))) := by
  cases i <;> simp [system, CommSignal.next, do_thread_work, comm_ping_signal, comm_pong_signal,
    loop, h, top]

theorem pong_ne_count (h : Reachable (system p) s) : s.pc .pong ≠ .count := by
  apply h.invariant (I := fun s => s.pc .pong ≠ .count)
  · rintro _ rfl
    nofun
  · intro s e t hI hn
    cases next_cases hn with
    | count | deliver | caught => exact hI
    | @send i | @spin i | @leave i | @clear i => cases i <;> simp [top, hI]

/-- A step of a worker, the delivery of the signal that is for it, and the store of its
handler. -/
inductive Due
  | step (who : Worker)
  | deliver (who : Worker)
  | caught (who : Worker)

def helper (p : Peers) : Due → Event
  | .step i => .step i
  | .deliver i => .deliver (p.signal i)
  | .caught i => .caught (p.signal i)

def due (s : State) : Token Worker → Due
  | .held i => .step i
  | .passed i =>
    if s.world.pending ≠ [] then .deliver i.other
    else if s.world.catching ≠ [] then .caught i.other
    else .step i.other

def rank (s : State) : Token Worker → Nat
  | .held i => if s.pc i = .count then 1 else 0
  | .passed i =>
    if s.world.pending ≠ [] then 3
    else if s.world.catching ≠ [] then 2
    else if s.pc i.other = .test then 1
    else 0

theorem next_due (hs : Reachable (system p) s) (h : Rel p s t) : ∃ s',
    (system p).next (helper p (due s t)) s = some s' ∧
      (s.world.history.length < s'.world.history.length ∨ rank s' t < rank s t) := by
  cases t with
  | held i =>
    have hp : Holds i s := h.phase
    obtain hc | hsend := hp.sends
    · cases i with
      | ping => exact ⟨_, next_count hc, .inr (by simp [rank, hc])⟩
      | pong => exact absurd hc (pong_ne_count hs)
    · obtain ⟨w, hn, hw⟩ := next_send (p := p) hsend
      exact ⟨_, hn, .inl (by simp [hw])⟩
  | passed i =>
    obtain ⟨ha, hi⟩ : Arrives p i.other s ∧ s.pc i = .test := h.phase
    obtain ⟨hp, hc, hr, ht⟩ | ⟨hp, hc, hr, ht⟩ | ⟨hp, hc, hr, ht⟩ := ha
    · refine ⟨{ s with world := deliver (p.signal i.other) s.world }, ?_, .inr ?_⟩
      · simp [due, helper, hp, system, CommSignal.next]
      · simp [rank, hp, hc, deliver]
    · refine ⟨{ s with world := caught (p.signal i.other) s.world }, ?_, .inr ?_⟩
      · simp [due, helper, hp, hc, system, CommSignal.next]
      · simp [rank, hp, hc, caught, ht]
    · have hw : due s (.passed i) = .step i.other := by simp [due, hp, hc]
      rw [hw, helper]
      obtain ht | ht := ht
      · exact ⟨_, next_leave ht (by simp [hr]), .inr (by simp [rank, hp, hc, ht])⟩
      · exact ⟨_, next_clear ht, .inl (by simp)⟩

theorem step_rank (h : Rel p s t) (hn : Step p s s') :
    s.world.history.length < s'.world.history.length ∨ rank s' t < rank s t ∨ s' = s := by
  cases t with
  | held i =>
    have hp : Holds i s := h.phase
    cases hn with
    | send | clear => exact .inl (by simp)
    | count hc =>
      obtain ⟨rfl, -⟩ | ht := hp.test_or .ping
      · exact .inr (.inl (by simp [rank, hc]))
      · simp [hc] at ht
    | spin ht => exact .inr (.inr (by rw [← ht, Workers.move_self]))
    | leave _ hf => exact absurd (by rw [hp.received]) hf
    | deliver hx => simp [hp.pending] at hx
    | caught hx => simp [hp.catching] at hx
  | passed i =>
    obtain ⟨ha, hi⟩ : Arrives p i.other s ∧ s.pc i = .test := h.phase
    cases hn with
    | send | clear => exact .inl (by simp)
    | count hc =>
      have hall : s.pc .ping = .test ∨ s.pc .ping = .clear := by
        cases i with
        | ping => exact .inl hi
        | pong => exact ha.receives
      simp [hc] at hall
    | spin ht => exact .inr (.inr (by rw [← ht, Workers.move_self]))
    | @leave j ht hf =>
      obtain rfl | rfl := i.eq_or_other j
      · exact absurd ha.flag_other hf
      · obtain ⟨_, _, hr, _⟩ | ⟨_, _, hr, _⟩ | ⟨hp, hc, _, _⟩ := ha
        · exact absurd (by rw [hr]) hf
        · exact absurd (by rw [hr]) hf
        · exact .inr (.inl (by simp [rank, hp, hc, ht]))
    | deliver hx =>
      obtain ⟨hp, hc, _, _⟩ | ⟨hp, _, _, _⟩ | ⟨hp, _, _, _⟩ := ha
      · obtain rfl := by simpa [hp] using hx
        exact .inr (.inl (by simp [rank, hp, hc, deliver]))
      · simp [hp] at hx
      · simp [hp] at hx
    | caught hx =>
      obtain ⟨_, hc, _, _⟩ | ⟨hp, hc, _, ht⟩ | ⟨_, hc, _, _⟩ := ha
      · simp [hc] at hx
      · obtain rfl := by simpa [hc] using hx
        exact .inr (.inl (by simp [rank, hp, hc, caught, ht]))
      · simp [hc] at hx

def driven (p : Peers) : Driven (system p) (ring Worker.other (.held .ping))
    (fun s => s.world.history.map move) (Rel p) fun i _ a => a = helper p i :=
  .ofHelper (CommSignalToken.simulation p) (fun t s => due s t) (fun t s => rank s t)
    (fun hs hR => by simpa using next_due hs hR) <| by
    intro s s' t a _ hR _ hn
    obtain hlt | hlt | rfl := step_rank hR (next_cases hn)
    · exact .inl fun heq => absurd hlt (by simpa using (congrArg List.length heq).le)
    · exact .inr (.inl hlt)
    · exact .inr (.inr ⟨rfl, rfl⟩)

/-- With a scheduler that forgets neither of the workers, and signals that are delivered some
day, the workers signal each other for ever, as long as they read their flags again. -/
theorem sends_forever (p : Peers) (e : Execution (system p))
    (hfair : ∀ i, e.Fair fun _ a => a = helper p i) (n : Nat) :
    ∃ k, ∀ i, n ≤ (e.state k).world.history.count (.sent i) := by
  obtain ⟨k, hk⟩ :=
    (driven p).passes_forever Worker.other_involutive Worker.eq_or_other e hfair n
  exact ⟨k, fun i => by simpa [count_passes_move] using hk i⟩

theorem sent_in_turn (h : Reachable (system p) s) (i : Worker) :
    s.world.history.count (.sent i.other) + (if i = .ping then 1 else 0) ≤
        s.world.history.count (.sent i) + 1 ∧
      s.world.history.count (.sent i) ≤
        s.world.history.count (.sent i.other) + if i = .ping then 1 else 0 := by
  obtain ⟨t, ht, -⟩ := (CommSignalToken.simulation p).reachable h
  have htakes := count_takes ht i
  have hpasses := count_passes Worker.other_involutive.injective ht i.other
  rw [count_passes_move, count_takes_move] at htakes hpasses
  rw [Worker.other_other] at hpasses
  have hping : (if Token.held Worker.ping = .held i then 1 else 0) =
      if i = .ping then 1 else 0 := by cases i <;> rfl
  have hone : (if t = .held i then 1 else 0) + (if t = .passed i.other then 1 else 0) ≤ 1 := by
    cases t <;> simp only [reduceCtorEq, if_false] <;> split <;> omega
  rw [hping] at htakes
  constructor <;> omega

end PingPong.CommSignalLive
