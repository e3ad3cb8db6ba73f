import PingPong.CommSignal

namespace PingPong.CommSignalToken

open MonitorState (Worker)
open CommSignal TransitionSystem TokenRing

variable {p : Peers} {s s' : State} {t : Token Worker} {i j : Worker} {pc : Pc} {w : World}

def flagged (p : Peers) (i : Worker) : Int → Fin 2 → Int :=
  Function.update (fun _ _ => 0) (p.pid i) (Function.update (fun _ => 0) (num i) 1)

@[simp] theorem flagged_self (p : Peers) (i : Worker) : flagged p i (p.pid i) (num i) = 1 := by
  simp [flagged]

@[simp] theorem flagged_other (p : Peers) (i : Worker) :
    flagged p i.other (p.pid i) (num i) = 0 := by
  have hn : num i ≠ num i.other := by cases i <;> decide
  by_cases hp : p.pid i = p.pid i.other <;> simp [flagged, hp, hn]

theorem flagged_of_ne {pid : Int} {n : Fin 2} (h : flagged p i pid n ≠ 0) :
    pid = p.pid i ∧ n = num i := by
  by_contra hn
  refine h ?_
  by_cases hp : pid = p.pid i <;> simp_all [flagged, Function.update_apply]

theorem catcher_eq_flagged (p : Peers) (i : Worker) :
    Function.update (fun _ _ => 0) (p.pid i) (signal_catcher (sigs (num i)) fun _ => 0) =
      flagged p i := by
  cases i <;> rfl

theorem reset_flagged (p : Peers) (i : Worker) :
    Function.update (flagged p i) (p.pid i)
      (Function.update (flagged p i (p.pid i)) (num i) 0) = fun _ _ => 0 := by
  simp only [flagged, Function.update_self, Function.update_idem]
  rw [show Function.update (fun _ => 0) (num i) 0 = fun _ => (0 : Int) from
    Function.update_eq_self _ _]
  exact Function.update_eq_self _ _

structure Holds (i : Worker) (s : State) : Prop where
  pending : s.world.pending = []
  catching : s.world.catching = []
  received : s.world.signal_received = fun _ _ => 0
  sends : s.pc i = .count ∨ s.pc i = .send
  waits : s.pc i.other = .test

inductive Arrives (p : Peers) (i : Worker) (s : State) : Prop
  | pending (hp : s.world.pending = [p.signal i]) (hc : s.world.catching = [])
      (hr : s.world.signal_received = fun _ _ => 0) (h : s.pc i = .test)
  | catching (hp : s.world.pending = []) (hc : s.world.catching = [p.signal i])
      (hr : s.world.signal_received = fun _ _ => 0) (h : s.pc i = .test)
  | received (hp : s.world.pending = []) (hc : s.world.catching = [])
      (hr : s.world.signal_received = flagged p i) (h : s.pc i = .test ∨ s.pc i = .clear)

def Phase (p : Peers) (s : State) : Token Worker → Prop
  | .held i => Holds i s
  | .passed i => Arrives p i.other s ∧ s.pc i = .test

def Counted (s : State) : Prop :=
  s.world.ping_count = .ofNat 64 (s.world.history.count (.cleared .ping) +
    if s.pc .ping = .count then 0 else 1)

structure Rel (p : Peers) (s : State) (t : Token Worker) : Prop where
  phase : Phase p s t
  counted : Counted s

def move : Act → Move Worker
  | .sent i => .pass i
  | .cleared i => .take i

theorem Holds.count (h : Holds .ping s) (hw : w.signal_received = s.world.signal_received)
    (hp : w.pending = s.world.pending) (hc : w.catching = s.world.catching) :
    Holds .ping (s.move .ping .send w) where
  pending := hp.trans h.pending
  catching := hc.trans h.catching
  received := hw.trans h.received
  sends := by simp
  waits := by simpa using h.waits

theorem Holds.send (h : Holds i s) :
    Phase p (s.move i .test ((kill (p.pid i.other) (sigs (num i.other)) s.world).record (.sent i)))
      (.passed i) :=
  ⟨.pending (by simp [h.pending, Peers.signal]) h.catching h.received (by simpa using h.waits),
    by simp⟩

theorem Arrives.leave (h : Arrives p i s) (hf : s.world.signal_received (p.pid i) (num i) ≠ 0)
    (hpc : pc = .test ∨ pc = .clear) : Arrives p i (s.move i pc s.world) := by
  obtain ⟨_, _, hr, _⟩ | ⟨_, _, hr, _⟩ | ⟨hp, hc, hr, _⟩ := h
  · exact absurd (by rw [hr]) hf
  · exact absurd (by rw [hr]) hf
  · exact .received hp hc hr (by simpa using hpc)

theorem Arrives.clear (h : Arrives p i.other s) (hi : s.pc i = .test) (ho : s.pc i.other = .clear) :
    Holds i.other (s.move i.other (top i.other)
      ((s.world.reset (p.pid i.other) (num i.other)).record (.cleared i.other))) := by
  obtain ⟨_, _, _, h⟩ | ⟨_, _, _, h⟩ | ⟨hp, hc, hr, _⟩ := h
  · simp [ho] at h
  · simp [ho] at h
  · refine ⟨hp, hc, ?_, ?_, by simpa using hi⟩
    · simp only [Workers.move_world, World.record_signal_received, World.reset_signal_received, hr,
        reset_flagged]
    · cases i <;> simp [top, Worker.other]

theorem Arrives.deliver {x : Int × Int} (h : Arrives p i s) (hx : x ∈ s.world.pending) :
    Arrives p i { s with world := deliver x s.world } := by
  obtain ⟨hp, hc, hr, h⟩ | ⟨hp, _, _, _⟩ | ⟨hp, _, _, _⟩ := h
  · obtain rfl := by simpa [hp] using hx
    exact .catching (by simp [CommSignal.deliver, hp]) (by simp [CommSignal.deliver, hc]) hr h
  · simp [hp] at hx
  · simp [hp] at hx

theorem Arrives.caught {x : Int × Int} (h : Arrives p i s) (hx : x ∈ s.world.catching) :
    Arrives p i { s with world := caught x s.world } := by
  obtain ⟨_, hc, _, _⟩ | ⟨hp, hc, hr, h⟩ | ⟨_, hc, _, _⟩ := h
  · simp [hc] at hx
  · obtain rfl := by simpa [hc] using hx
    refine .received hp (by simp [CommSignal.caught, hc]) ?_ (.inl h)
    simp only [CommSignal.caught, hr]
    exact catcher_eq_flagged p i
  · simp [hc] at hx

theorem Arrives.receives (h : Arrives p i s) : s.pc i = .test ∨ s.pc i = .clear := by
  obtain ⟨_, _, _, h⟩ | ⟨_, _, _, h⟩ | ⟨_, _, _, h⟩ := h
  · exact .inl h
  · exact .inl h
  · exact h

theorem Arrives.flag_other (h : Arrives p i.other s) :
    s.world.signal_received (p.pid i) (num i) = 0 := by
  obtain ⟨_, _, hr, _⟩ | ⟨_, _, hr, _⟩ | ⟨_, _, hr, _⟩ := h <;> simp [hr]

theorem Counted.move (h : Counted s) (hw : w.ping_count = s.world.ping_count)
    (hh : w.history.count (.cleared .ping) = s.world.history.count (.cleared .ping))
    (hp : i = .ping → s.pc .ping ≠ .count ∧ pc ≠ .count) : Counted (s.move i pc w) := by
  rw [Counted, Workers.move_world, hw, hh, h]
  cases i with
  | ping => simp [hp rfl]
  | pong => rfl

theorem Counted.count (h : Counted s) (hp : s.pc .ping = .count) :
    Counted (s.move .ping .send { s.world with ping_count := s.world.ping_count + 1 }) := by
  rw [Counted, hp] at h
  simp [Counted, h, BitVec.ofNat_add]

theorem Counted.clear (h : Counted s) (hp : s.pc i = .clear) :
    Counted (s.move i (top i) ((s.world.reset (p.pid i) (num i)).record (.cleared i))) := by
  cases i with
  | ping =>
    rw [Counted, hp] at h
    simpa [Counted, top, List.count_append] using h
  | pong => exact h.move rfl (by simp [List.count_append]) nofun

abbrev Simulated (p : Peers) (s s' : State) (t : Token Worker) : Prop :=
  Matched (ring Worker.other (.held .ping)) (fun s => s.world.history.map move) (Rel p) s s' t

theorem Holds.test_or (h : Holds i s) (j : Worker) :
    j = i ∧ (s.pc j = .count ∨ s.pc j = .send) ∨ s.pc j = .test := by
  obtain rfl | rfl := i.eq_or_other j
  · exact .inl ⟨rfl, h.sends⟩
  · exact .inr h.waits

theorem Rel.held_step (h : Rel p s (.held i)) (hn : Step p s s') : Simulated p s s' (.held i) := by
  have hp : Holds i s := h.phase
  cases hn with
  | count hc =>
    obtain ⟨rfl, _⟩ | ht := hp.test_or .ping
    · exact .inl ⟨rfl, hp.count rfl rfl rfl, h.counted.count hc⟩
    · simp [hc] at ht
  | @send j hs =>
    obtain ⟨rfl, _⟩ | ht := hp.test_or j
    · refine .inr ⟨.pass j, .passed j, ring_pass j, by simp [move], hp.send, ?_⟩
      exact h.counted.move rfl (by simp [List.count_append]) (by rintro rfl; simp [hs])
    · simp [hs] at ht
  | spin ht _ => exact .inl ⟨rfl, by rwa [← ht, Workers.move_self]⟩
  | leave _ hf => exact absurd (by rw [hp.received]) hf
  | @clear j hc => obtain ⟨_, ht | ht⟩ | ht := hp.test_or j <;> simp [hc] at ht
  | deliver hx => simp [hp.pending] at hx
  | caught hx => simp [hp.catching] at hx

theorem Rel.passed_step (h : Rel p s (.passed i)) (hn : Step p s s') :
    Simulated p s s' (.passed i) := by
  obtain ⟨ha, hi⟩ : Arrives p i.other s ∧ s.pc i = .test := h.phase
  have hall : ∀ j, s.pc j = .test ∨ s.pc j = .clear := fun j => by
    obtain rfl | rfl := i.eq_or_other j
    · exact .inl hi
    · exact ha.receives
  cases hn with
  | count hc => obtain ht | ht := hall .ping <;> simp [hc] at ht
  | @send j hs => obtain ht | ht := hall j <;> simp [hs] at ht
  | spin ht _ => exact .inl ⟨rfl, by rwa [← ht, Workers.move_self]⟩
  | @leave j ht hf =>
    obtain rfl | rfl := i.eq_or_other j
    · exact absurd ha.flag_other hf
    · exact .inl ⟨rfl, ⟨ha.leave hf (.inr rfl), by simpa using hi⟩,
        h.counted.move rfl rfl (by rintro hj; simp [← hj, ht])⟩
  | @clear j hc =>
    obtain rfl | rfl := i.eq_or_other j
    · simp [hc] at hi
    · exact .inr ⟨.take i.other, .held i.other, ring_take rfl, by simp [move], ha.clear hi hc,
        h.counted.clear hc⟩
  | deliver hx => exact .inl ⟨rfl, ⟨ha.deliver hx, hi⟩, h.counted⟩
  | caught hx => exact .inl ⟨rfl, ⟨ha.caught hx, hi⟩, h.counted⟩

theorem simulation (p : Peers) : Simulation (system p) (ring Worker.other (.held .ping))
    (fun s => s.world.history.map move) (Rel p) where
  init := by
    rintro _ rfl
    exact ⟨rfl, .held .ping, rfl, ⟨rfl, rfl, rfl, .inl rfl, rfl⟩, rfl⟩
  step := by
    intro s s' e t h hn
    cases t with
    | held i => exact h.held_step (next_cases hn)
    | passed i => exact h.passed_step (next_cases hn)

theorem count_passes_move (h : List Act) (i : Worker) :
    (passes (h.map move)).count i = h.count (.sent i) := by
  induction h using List.reverseRecOn with
  | nil => rfl
  | append_singleton h a ih => cases a <;> simp [move, List.count_append, List.count_singleton, ih]

theorem count_takes_move (h : List Act) (i : Worker) :
    (takes (h.map move)).count i = h.count (.cleared i) := by
  induction h using List.reverseRecOn with
  | nil => rfl
  | append_singleton h a ih => cases a <;> simp [move, List.count_append, List.count_singleton, ih]

def Flag (p : Peers) (s : State) (i : Worker) : Prop :=
  s.world.signal_received (p.pid i) (num i) ≠ 0

def Cleared (s : State) (i : Worker) : Prop :=
  .cleared i ∈ s.world.history ∧ (s.pc i = .count ∨ s.pc i = .send)

instance : DecidablePred (Flag p s) := fun _ => inferInstanceAs (Decidable (_ ≠ _))

instance : DecidablePred (Cleared s) := fun _ => inferInstanceAs (Decidable (_ ∧ _))

def inFlight (s : State) : List (Int × Int) := s.world.pending ++ s.world.catching

def workers (q : Worker → Prop) [DecidablePred q] : Nat :=
  (if q .ping then 1 else 0) + if q .pong then 1 else 0

theorem workers_eq_one {q : Worker → Prop} [DecidablePred q] (i : Worker) (hi : q i)
    (ho : ¬ q i.other) : workers q = 1 := by
  cases i <;> simp_all [workers, Worker.other]

theorem workers_eq_zero {q : Worker → Prop} [DecidablePred q] (i : Worker) (hi : ¬ q i)
    (ho : ¬ q i.other) : workers q = 0 := by
  cases i <;> simp_all [workers, Worker.other]

theorem Holds.not_flag (h : Holds i s) (j : Worker) : ¬ Flag p s j := by
  simp [Flag, h.received]

theorem Holds.inFlight (h : Holds i s) : CommSignalToken.inFlight s = [] := by
  simp [CommSignalToken.inFlight, h.pending, h.catching]

theorem Arrives.inFlight_or (h : Arrives p i s) :
    inFlight s = [p.signal i] ∧ (∀ j, ¬ Flag p s j) ∧ s.pc i = .test ∨
      inFlight s = [] ∧ s.world.signal_received = flagged p i := by
  obtain ⟨hp, hc, hr, h⟩ | ⟨hp, hc, hr, h⟩ | ⟨hp, hc, hr, _⟩ := h
  · exact .inl ⟨by simp [inFlight, hp, hc], by simp [Flag, hr], h⟩
  · exact .inl ⟨by simp [inFlight, hp, hc], by simp [Flag, hr], h⟩
  · exact .inr ⟨by simp [inFlight, hp, hc], hr⟩

theorem signal_other_ne (p : Peers) (i : Worker) : p.signal i.other ≠ p.signal i := by
  cases i <;> simp [Peers.signal, Worker.other, num, sigs]

theorem Rel.count_signal (h : Rel p s t) (i : Worker) :
    (inFlight s).count (p.signal i) + (if Flag p s i then 1 else 0) =
      if t = .passed i.other then 1 else 0 := by
  cases t with
  | held j =>
    have hp : Holds j s := h.phase
    simp [hp.inFlight, hp.not_flag]
  | passed j =>
    obtain ⟨ha, -⟩ : Arrives p j.other s ∧ s.pc j = .test := h.phase
    obtain rfl | rfl := i.eq_or_other j
    · obtain ⟨hf, hn, -⟩ | ⟨hf, hr⟩ := ha.inFlight_or
      · simp [hf, hn, signal_other_ne]
      · simp [hf, Flag, hr]
    · rw [Worker.other_other] at ha
      obtain ⟨hf, hn, -⟩ | ⟨hf, hr⟩ := ha.inFlight_or
      · simp [hf, hn]
      · simp [hf, Flag, hr]

theorem sent_ping_iff {h : List Act} (hr : Run (ring Worker.other (.held .ping)) (h.map move) t) :
    .sent .ping ∈ h ↔ t = .held .ping → .cleared .ping ∈ h := by
  have hc := count_takes hr .ping
  rw [count_takes_move, count_passes_move, if_pos rfl] at hc
  rw [← List.count_pos_iff, ← List.count_pos_iff]
  by_cases ht : t = .held .ping
  · rw [if_pos ht] at hc
    simp only [ht, true_imp_iff]
    omega
  · rw [if_neg ht] at hc
    simp only [ht, false_imp_iff, iff_true]
    omega

theorem Rel.sum (h : Rel p s t)
    (hr : Run (ring Worker.other (.held .ping)) (s.world.history.map move) t) :
    (inFlight s).length + workers (Flag p s) + workers (Cleared s) =
      if .sent .ping ∈ s.world.history then 1 else 0 := by
  simp only [sent_ping_iff hr]
  cases t with
  | held i =>
    have hp : Holds i s := h.phase
    have ho : ¬ Cleared s i.other := by simp [Cleared, hp.waits]
    rw [hp.inFlight, workers_eq_zero i (hp.not_flag i) (hp.not_flag _), List.length_nil]
    cases i with
    | ping =>
      by_cases hc : .cleared .ping ∈ s.world.history
      · rw [workers_eq_one .ping ⟨hc, hp.sends⟩ ho, if_pos fun _ => hc]
      · rw [workers_eq_zero .ping (fun h => hc h.1) ho, if_neg fun h => hc (h rfl)]
    | pong =>
      have hc := count_takes hr .pong
      rw [count_takes_move, if_neg nofun, if_pos rfl] at hc
      have hm : .cleared .pong ∈ s.world.history := List.count_pos_iff.mp (by omega)
      rw [workers_eq_one .pong ⟨hm, hp.sends⟩ ho, if_pos nofun]
  | passed i =>
    obtain ⟨ha, hi⟩ : Arrives p i.other s ∧ s.pc i = .test := h.phase
    have hc : ¬ Cleared s i := by simp [Cleared, hi]
    have ho : ¬ Cleared s i.other := by obtain h | h := ha.receives <;> simp [Cleared, h]
    rw [workers_eq_zero i hc ho, if_pos nofun]
    obtain ⟨hf, hn, -⟩ | ⟨hf, hr⟩ := ha.inFlight_or
    · rw [hf, workers_eq_zero i (hn _) (hn _), List.length_singleton]
    · rw [hf, workers_eq_one i.other (by simp [Flag, hr]) (by simp [Flag, hr]), List.length_nil]

theorem Rel.clear (h : Rel p s t) (hi : s.pc i = .clear) :
    Flag p s i ∧ p.signal i ∉ inFlight s := by
  cases t with
  | held j =>
    have hp : Holds j s := h.phase
    obtain ⟨_, hj | hj⟩ | hj := hp.test_or i <;> simp [hi] at hj
  | passed j =>
    obtain ⟨ha, hj⟩ : Arrives p j.other s ∧ s.pc j = .test := h.phase
    obtain rfl | rfl := j.eq_or_other i
    · simp [hi] at hj
    · obtain ⟨_, _, hj⟩ | ⟨hf, hr⟩ := ha.inFlight_or
      · simp [hi] at hj
      · simp [hf, Flag, hr]

theorem Rel.mem_inFlight (h : Rel p s t) {x : Int × Int} (hx : x ∈ inFlight s) :
    ∃ i, x = p.signal i := by
  cases t with
  | held j =>
    have hp : Holds j s := h.phase
    simp [hp.inFlight] at hx
  | passed j =>
    obtain ⟨hf, -⟩ | ⟨hf, -⟩ := h.phase.1.inFlight_or
    · exact ⟨_, by simpa [hf] using hx⟩
    · simp [hf] at hx

theorem Rel.received_ne (h : Rel p s t) {pid : Int} {n : Fin 2}
    (hn : s.world.signal_received pid n ≠ 0) : ∃ i, pid = p.pid i ∧ n = num i := by
  cases t with
  | held j =>
    have hp : Holds j s := h.phase
    exact absurd (by rw [hp.received]) hn
  | passed j =>
    obtain ⟨_, _, hr, _⟩ | ⟨_, _, hr, _⟩ | ⟨_, _, hr, _⟩ := h.phase.1
    · exact absurd (by rw [hr]) hn
    · exact absurd (by rw [hr]) hn
    · exact ⟨_, flagged_of_ne (hr ▸ hn)⟩

/-- For every delay of the signals: in flight, as a flag or with a worker that has
reset its flag there is one signal from the first ping on, the handler finds the
flag that it sets clear, a reset consumes one signal and erases none, and ping
counts one more than it has completed at most. -/
theorem one_signal (p : Peers) {s : State} (h : Reachable (system p) s) :
    (inFlight s).length + workers (Flag p s) + workers (Cleared s) =
      (if .sent .ping ∈ s.world.history then 1 else 0) ∧
    (∀ x ∈ inFlight s, ∃ i, x = p.signal i) ∧
    (∀ pid n, s.world.signal_received pid n ≠ 0 → ∃ i, pid = p.pid i ∧ n = num i) ∧
    (∀ i, p.signal i ∈ inFlight s → ¬ Flag p s i) ∧
    (∀ i, s.pc i = .clear → Flag p s i ∧ p.signal i ∉ inFlight s) ∧
    (∀ i, s.world.history.count (.sent i.other) = s.world.history.count (.cleared i) +
      (inFlight s).count (p.signal i) + if Flag p s i then 1 else 0) ∧
    s.world.ping_count.toNat ≤ s.world.history.count (.cleared .ping) + 1 := by
  obtain ⟨t, ht, hR⟩ := (simulation p).reachable h
  refine ⟨hR.sum ht, fun _ => hR.mem_inFlight, fun _ _ => hR.received_ne, fun i hi hf => ?_,
    fun i => hR.clear, fun i => ?_, ?_⟩
  · have hc := hR.count_signal i
    have := List.count_pos_iff.mpr hi
    rw [if_pos hf] at hc
    split at hc <;> omega
  · have hc := count_passes Worker.other_involutive.injective ht i.other
    rw [count_passes_move, count_takes_move, Worker.other_other, ← hR.count_signal i] at hc
    omega
  · rw [hR.counted, BitVec.toNat_ofNat]
    refine (Nat.mod_le _ _).trans (Nat.add_le_add_left ?_ _)
    split <;> omega

/-- Two processes. The answer comes when ping has tested its flag in vain. -/
theorem one_signal_fork : ∃ p s, Reachable (system p) s ∧
    s.world.history = [.sent .ping, .cleared .pong, .sent .pong, .cleared .ping] ∧
    (inFlight s).length + workers (Flag p s) + workers (Cleared s) = 1 := by
  let p : Peers := ⟨fun i => if i = .ping then 101 else 102, by decide⟩
  obtain ⟨s, hs, hh⟩ := exists_reachable_of_exec (S := system p)
    (p := fun s => s.world.history = [.sent .ping, .cleared .pong, .sent .pong, .cleared .ping]) rfl
    [.step .ping, .step .ping, .step .pong, .deliver (102, 62), .step .pong, .caught (102, 62),
      .step .pong, .step .pong, .step .ping, .step .pong, .step .ping, .deliver (101, 63),
      .caught (101, 63), .step .ping, .step .ping] (by decide)
  exact ⟨p, s, hs, hh, (one_signal p hs).1.trans (if_pos (by simp [hh]))⟩

end PingPong.CommSignalToken
