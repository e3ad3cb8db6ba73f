import PingPong.CommFutex

namespace PingPong.CommFutexWake

open MonitorState (Worker)
open CommFutex TransitionSystem TokenRing

variable {s : State} {i j : Worker} {pc : Pc} {w : World}

abbrev running : System State Event := restrict system fun e _ => e ≠ .stop

def Stored : Pc → Prop
  | .send .wake | .send .testStop => True
  | _ => False

instance : DecidablePred Stored := fun pc => by
  unfold Stored
  split <;> infer_instance

theorem received_ne (i : Worker) (pc : RecvPc) : received i ≠ .recv pc := by cases i <;> nofun

@[simp] theorem not_stored_received (i : Worker) : ¬ Stored (received i) := by cases i <;> nofun

structure Turn (i : Worker) (s : State) : Prop where
  sends : ∀ pc, s.pc i ≠ .recv pc
  waits : ∃ pc, s.pc i.other = .recv pc
  awake : i ∉ s.world.waiters
  asleep : i.other ∈ s.world.waiters ↔ s.pc i.other = .recv .asleep
  word : s.world.word = value (if Stored (s.pc i) then i else i.other)
  stored : i.other ∈ s.world.waiters → Stored (s.pc i)

/-- The other worker has been woken and has not returned yet. -/
structure Handed (i : Worker) (s : State) : Prop where
  waits : s.pc i = .recv .wait ∨ s.pc i = .recv .testStop
  woken : s.pc i.other = .recv .asleep
  waiters : s.world.waiters = ∅
  word : s.world.word = value i

def Phase (s : State) : Token Worker → Prop
  | .held i => Turn i s
  | .passed i => Handed i s

theorem value_injective : Function.Injective value := by
  intro i j h
  cases i <;> cases j <;> first | rfl | exact absurd h (by decide)

theorem Turn.send {pc' : SendPc} (h : Turn i s) (hp : Stored (.send pc') ↔ Stored (s.pc i))
    (hw : w.word = s.world.word) (hq : w.waiters = s.world.waiters) :
    Turn i (s.move i (.send pc') w) where
  sends := by simp
  waits := by simpa using h.waits
  awake := by simpa [hq] using h.awake
  asleep := by simpa [hq] using h.asleep
  word := by simpa [hw, hp] using h.word
  stored hj := by simpa [hp] using h.stored (by simpa [hq] using hj)

theorem Turn.store (h : Turn i s) (hw : w.word = value i)
    (hq : w.waiters = s.world.waiters) : Turn i (s.move i (.send .wake) w) where
  sends := by simp
  waits := by simpa using h.waits
  awake := by simpa [hq] using h.awake
  asleep := by simpa [hq] using h.asleep
  word := by simp [hw, Stored]
  stored _ := by simp [Stored]

theorem Turn.wake (h : Turn i s) (hp : s.pc i = .send .wake) (hj : j ∈ s.world.waiters)
    (hw : w.word = s.world.word) (hq : w.waiters = s.world.waiters.erase j) :
    j = i.other ∧ Handed i (s.move i (.recv .wait) w) := by
  obtain rfl | rfl := i.eq_or_other j
  · exact absurd hj h.awake
  refine ⟨rfl, by simp, by simpa using h.asleep.mp hj, ?_, ?_⟩
  · ext k
    obtain rfl | rfl := i.eq_or_other k <;> simp [hq, h.awake]
  · simpa [hw, hp, Stored] using h.word

theorem Turn.recv {pc' : RecvPc} (h : Turn i s) (hp : pc' ≠ .asleep)
    (hw : w.word = s.world.word) (hq : w.waiters = s.world.waiters.erase i.other) :
    Turn i (s.move i.other (.recv pc') w) where
  sends := by simpa using h.sends
  waits := by simp
  awake := by simp [hq, h.awake]
  asleep := by simp [hq, hp]
  word := by simpa [hw] using h.word
  stored := by simp [hq]

theorem Turn.sleep (h : Turn i s) (hv : s.world.word = value i) (hw : w.word = s.world.word)
    (hq : w.waiters = insert i.other s.world.waiters) :
    Turn i (s.move i.other (.recv .asleep) w) where
  sends := by simpa using h.sends
  waits := by simp
  awake := by simp [hq, h.awake]
  asleep := by simp [hq]
  word := by simpa [hw] using h.word
  stored _ := by
    by_contra hn
    have := h.word
    rw [Workers.move_other_pc] at hn
    rw [if_neg hn, hv] at this
    exact i.ne_other (value_injective this)

theorem Handed.recv {pc' : RecvPc} (h : Handed i s) (hp : pc' = .wait ∨ pc' = .testStop)
    (hw : w.word = s.world.word) (hq : w.waiters = s.world.waiters) :
    Handed i (s.move i (.recv pc') w) where
  waits := by simpa using hp
  woken := by simpa using h.woken
  waiters := by simp [hq, h.waiters]
  word := by simpa [hw] using h.word

theorem Handed.received (h : Handed i s) (hw : w.word = s.world.word)
    (hq : w.waiters = s.world.waiters) : Turn i.other (s.move i.other (received i.other) w) where
  sends := by simpa using received_ne i.other
  waits := by
    obtain h | h := h.waits <;> simp [h]
  awake := by simp [hq, h.waiters]
  asleep := by
    obtain h' | h' := h.waits <;> simp [hq, h.waiters, h']
  word := by simp [hw, h.word]
  stored := by simp [hq, h.waiters]

def move : Act → Option (Move Worker)
  | .woke i _ => some (.pass i)
  | .received i => some (.take i)
  | .stored _ _ | .sent _ => none

def store : Act → Option (Worker × Int)
  | .stored i val => some (i, val)
  | .woke _ _ | .sent _ | .received _ => none

def moves (history : List Act) : List (Move Worker) := history.filterMap move

def stores (history : List Act) : List (Worker × Int) := history.filterMap store

@[simp] theorem moves_append (h h' : List Act) : moves (h ++ h') = moves h ++ moves h' :=
  List.filterMap_append

@[simp] theorem moves_cons (a : Act) (h : List Act) : moves (a :: h) = (move a).toList ++ moves h := by
  cases a <;> rfl

@[simp] theorem moves_nil : moves [] = [] := rfl

@[simp] theorem stores_append (h h' : List Act) : stores (h ++ h') = stores h ++ stores h' :=
  List.filterMap_append

@[simp] theorem stores_cons (a : Act) (h : List Act) :
    stores (a :: h) = (store a).toList ++ stores h := by
  cases a <;> rfl

@[simp] theorem stores_nil : stores [] = [] := rfl

theorem count_takes_moves (h : List Act) (i : Worker) :
    (takes (moves h)).count i = h.count (.received i) := by
  induction h using List.reverseRecOn with
  | nil => rfl
  | append_singleton h a ih => cases a <;> simp [move, List.count_append, List.count_singleton, ih]

theorem count_passes_moves (h : List Act) (i : Worker) (hw : ∀ i j, .woke i j ∈ h → j = i.other) :
    (passes (moves h)).count i = h.count (.woke i i.other) := by
  induction h using List.reverseRecOn with
  | nil => rfl
  | append_singleton h a ih =>
    have ih := ih fun i j hm => hw i j (List.mem_append_left _ hm)
    cases a with
    | woke j k =>
      obtain rfl := hw j k (by simp)
      by_cases hj : j = i <;> simp [move, List.count_append, ih, hj]
    | stored _ _ | sent _ | received _ =>
      simp [move, List.count_append, ih]

def pending (s : State) : Token Worker → List Worker
  | .held i => if Stored (s.pc i) then [i] else []
  | .passed _ => []

structure Ordered (history : List Act) : Prop where
  wakes : ∀ i j, .woke i j ∈ history → j = i.other
  returns : ∀ n i, history[n]? = some (.sent i) →
    0 < n ∧ history[n - 1]? = some (.woke i i.other)

structure Rel (s : State) (t : Token Worker) : Prop where
  stop : s.world.stop = false
  phase : Phase s t
  ordered : Ordered s.world.history
  stores : stores s.world.history =
    (passes (moves s.world.history) ++ pending s t).map fun i => (i, value i)

theorem Ordered.record {history : List Act} {a : Act} (h : Ordered history)
    (hw : ∀ i j, a = .woke i j → j = i.other)
    (hs : ∀ i, a = .sent i → ∃ front, history = front ++ [.woke i i.other]) :
    Ordered (history ++ [a]) where
  wakes i j hm := by
    obtain hm | hm := List.mem_append.mp hm
    · exact h.wakes i j hm
    · exact hw i j (List.mem_singleton.mp hm).symm
  returns n i hn := by
    obtain hlt | rfl | hgt := lt_trichotomy n history.length
    · rw [List.getElem?_append_left hlt] at hn
      obtain ⟨hpos, hn⟩ := h.returns n i hn
      exact ⟨hpos, by rwa [List.getElem?_append_left (by omega)]⟩
    · obtain ⟨front, rfl⟩ := hs i (by simpa using hn)
      simp
    · rw [List.getElem?_eq_none (by simp; omega)] at hn
      cases hn

theorem Turn.eq_of_send {q : Pc} (h : Turn i s) (hj : s.pc j = q) (hq : ∀ pc, q ≠ .recv pc) :
    j = i := by
  obtain rfl | rfl := i.eq_or_other j
  · rfl
  · obtain ⟨pc, hp⟩ := h.waits
    exact absurd (hj.symm.trans hp) (hq pc)

theorem Turn.eq_of_recv {pc : RecvPc} (h : Turn i s) (hj : s.pc j = .recv pc) : j = i.other := by
  obtain rfl | rfl := i.eq_or_other j
  · exact absurd hj (h.sends pc)
  · rfl

theorem Turn.erase (h : Turn i s) (hp : s.pc i.other ≠ .recv .asleep) :
    s.world.waiters = s.world.waiters.erase i.other :=
  (Finset.erase_eq_of_notMem (mt h.asleep.mp hp)).symm

theorem Handed.eq_of_recv {pc : RecvPc} (h : Handed i s) (hj : s.pc j = .recv pc)
    (hp : pc ≠ .asleep) : j = i := by
  obtain rfl | rfl := i.eq_or_other j
  · rfl
  · rw [h.woken] at hj
    cases hj
    exact absurd rfl hp

theorem Handed.eq_of_asleep (h : Handed i s) (hj : s.pc j = .recv .asleep) : j = i.other := by
  obtain rfl | rfl := i.eq_or_other j
  · obtain h | h := h.waits <;> simp [hj] at h
  · rfl

theorem Handed.exists_recv (h : Handed i s) (j : Worker) : ∃ pc, s.pc j = .recv pc := by
  obtain rfl | rfl := i.eq_or_other j
  · obtain h | h := h.waits <;> exact ⟨_, h⟩
  · exact ⟨_, h.woken⟩

abbrev Simulated (s s' : State) (t : Token Worker) : Prop :=
  Matched (ring Worker.other (.held .ping)) (fun s => moves s.world.history) Rel s s' t

theorem Rel.stutter {t : Token Worker} (h : Rel s t) (hs : w.stop = s.world.stop)
    (hh : w.history = s.world.history) (hp : Phase (s.move j pc w) t)
    (hq : pending (s.move j pc w) t = pending s t) : Simulated s (s.move j pc w) t := by
  refine .inl ⟨congrArg moves hh, hs.trans h.stop, hp, ?_, ?_⟩
  · rw [Workers.move_world, hh]
    exact h.ordered
  · rw [Workers.move_world, hh, hq]
    exact h.stores

theorem pending_other : pending (s.move i.other pc w) (.held i) = pending s (.held i) := by
  simp [pending]

theorem Rel.send {q : Pc} {pc' : SendPc} (h : Rel s (.held i)) (hj : s.pc j = q)
    (hq : ∀ pc, q ≠ .recv pc) (hp : Stored (.send pc') ↔ Stored q) (hs : w.stop = s.world.stop)
    (hh : w.history = s.world.history) (hw : w.word = s.world.word)
    (hws : w.waiters = s.world.waiters) : Simulated s (s.move j (.send pc') w) (.held i) := by
  have ht : Turn i s := h.phase
  obtain rfl := ht.eq_of_send hj hq
  rw [← hj] at hp
  exact h.stutter hs hh (ht.send hp hw hws) (by simp [pending, hp])

theorem Rel.store (h : Rel s (.held i)) (hp : s.pc i = .send .store) :
    Simulated s
      (s.move i (.send .wake) ({ s.world with word := value i }.record (.stored i (value i))))
      (.held i) := by
  refine .inl ⟨by simp [move], h.stop, h.phase.store rfl rfl, h.ordered.record nofun nofun, ?_⟩
  have := h.stores
  simp only [pending, hp, Stored, if_false, List.append_nil] at this
  simp [pending, Stored, this, move, CommFutexWake.store]

theorem Rel.wake (h : Rel s (.held i)) (hp : s.pc i = .send .wake) (hj : j ∈ s.world.waiters) :
    Simulated s
      (s.move i (.recv .wait) (({ s.world with waiters := s.world.waiters.erase j }.record
        (.woke i j)).record (.sent i))) (.held i) := by
  obtain ⟨rfl, hh⟩ := h.phase.wake (w := (({ s.world with waiters := s.world.waiters.erase j }.record
    (.woke i j)).record (.sent i))) hp hj rfl rfl
  refine .inr ⟨.pass i, .passed i, ring_pass i, by simp [move], h.stop, hh, ?_, ?_⟩
  · have ho : Ordered (s.world.history ++ [.woke i i.other]) :=
      h.ordered.record (by rintro _ _ ⟨⟩; rfl) nofun
    exact ho.record nofun (by rintro _ ⟨⟩; exact ⟨_, rfl⟩)
  · have := h.stores
    simp only [pending, hp, Stored, if_true] at this
    simp [pending, this, move, CommFutexWake.store]

theorem Rel.received (h : Rel s (.passed i)) :
    Simulated s (s.move i.other (received i.other) (s.world.record (.received i.other)))
      (.passed i) := by
  refine .inr ⟨.take i.other, .held i.other, ring_take rfl, by simp [move], h.stop,
    h.phase.received rfl rfl, h.ordered.record nofun nofun, ?_⟩
  have := h.stores
  simp only [pending, List.append_nil] at this
  simp [pending, this, move, CommFutexWake.store]

theorem Rel.held_step {e : Event} {s' : State} (h : Rel s (.held i)) (he : e ≠ .stop)
    (hn : Step e s s') : Simulated s s' (.held i) := by
  have hp : Turn i s := h.phase
  cases hn with
  | count hpc => exact h.send hpc nofun Iff.rfl rfl rfl rfl rfl
  | store hpc =>
    obtain rfl := hp.eq_of_send hpc nofun
    exact h.store hpc
  | wakeNone hpc => exact h.send hpc nofun Iff.rfl rfl rfl rfl rfl
  | wake hpc hj =>
    obtain rfl := hp.eq_of_send hpc nofun
    exact h.wake hpc hj
  | sendRetry hpc _ => exact h.send hpc nofun Iff.rfl rfl rfl rfl rfl
  | sendStop _ hs => simp [h.stop] at hs
  | waitFail hpc _ =>
    obtain rfl := hp.eq_of_recv hpc
    exact h.stutter rfl rfl (hp.recv nofun rfl (hp.erase (by simp [hpc]))) pending_other
  | sleep hpc hw =>
    obtain rfl := hp.eq_of_recv hpc
    exact h.stutter rfl rfl (hp.sleep (by simpa using hw) rfl rfl) pending_other
  | woken hpc hj =>
    obtain rfl := hp.eq_of_recv hpc
    exact absurd (hp.asleep.mpr hpc) hj
  | recvRetry hpc _ =>
    obtain rfl := hp.eq_of_recv hpc
    exact h.stutter rfl rfl (hp.recv nofun rfl (hp.erase (by simp [hpc]))) pending_other
  | recvStop _ hs => simp [h.stop] at hs
  | interrupt hpc _ =>
    obtain rfl := hp.eq_of_recv hpc
    exact h.stutter rfl rfl (hp.recv nofun rfl rfl) pending_other
  | stop => exact absurd rfl he

theorem Rel.passed_step {e : Event} {s' : State} (h : Rel s (.passed i)) (he : e ≠ .stop)
    (hn : Step e s s') : Simulated s s' (.passed i) := by
  have hp : Handed i s := h.phase
  cases hn with
  | count hpc | store hpc | wakeNone hpc | wake hpc _ | sendRetry hpc _ | sendStop hpc _ =>
    obtain ⟨pc, hr⟩ := hp.exists_recv _
    exact absurd (hpc.symm.trans hr) nofun
  | waitFail hpc _ =>
    obtain rfl := hp.eq_of_recv hpc nofun
    exact h.stutter rfl rfl (hp.recv (.inr rfl) rfl rfl) rfl
  | sleep hpc hw =>
    obtain rfl := hp.eq_of_recv hpc nofun
    exact absurd (value_injective (hp.word.symm.trans hw)) (Worker.ne_other _)
  | woken hpc _ =>
    obtain rfl := hp.eq_of_asleep hpc
    exact h.received
  | recvRetry hpc _ =>
    obtain rfl := hp.eq_of_recv hpc nofun
    exact h.stutter rfl rfl (hp.recv (.inl rfl) rfl rfl) rfl
  | recvStop _ hs => simp [h.stop] at hs
  | interrupt _ hj => simp [hp.waiters] at hj
  | stop => exact absurd rfl he

/-- The wakes and the returns of `do_recv_futex` refine one token. -/
theorem simulation : Simulation running (ring Worker.other (.held .ping))
    (fun s => moves s.world.history) Rel where
  init := by
    rintro _ rfl
    refine ⟨rfl, .held .ping, rfl, rfl, ?_, ⟨nofun, nofun⟩, rfl⟩
    exact ⟨nofun, ⟨_, rfl⟩, nofun, by decide, by decide, nofun⟩
  step := by
    intro s s' e t h hn
    obtain ⟨he, hn⟩ := restrict_next.mp hn
    cases t with
    | held i => exact h.held_step he (next_cases hn)
    | passed i => exact h.passed_step he (next_cases hn)

theorem Rel.exists_passes {t : Token Worker} (h : Rel s t)
    (hr : Run (ring Worker.other (.held .ping)) (moves s.world.history) t) :
    ∃ tr t', Run (ring Worker.other (.held .ping)) tr t' ∧
      CommFutexWake.stores s.world.history = (passes tr).map fun i => (i, value i) := by
  rw [h.stores]
  cases t with
  | held i =>
    by_cases hi : Stored (s.pc i)
    · exact ⟨_, _, hr.snoc (ring_pass i), by simp [pending, hi]⟩
    · exact ⟨_, _, hr, by simp [pending, hi]⟩
  | passed i => exact ⟨_, _, hr, by simp [pending]⟩

theorem Rel.passed_iff {t : Token Worker} (h : Rel s t) (i : Worker) :
    t = .passed i.other ↔ s.pc i = .recv .asleep ∧ i ∉ s.world.waiters := by
  constructor
  · rintro rfl
    have hp : Handed i.other s := h.phase
    exact ⟨by simpa using hp.woken, by simp [hp.waiters]⟩
  · rintro ⟨hi, hn⟩
    cases t with
    | held j =>
      have hp : Turn j s := h.phase
      obtain rfl := hp.eq_of_recv hi
      exact absurd (hp.asleep.mpr hi) hn
    | passed j =>
      have hp : Handed j s := h.phase
      rw [hp.eq_of_asleep hi, Worker.other_other]

/-- While nobody stops the workers: one of them is awake, `do_send_futex` returns
right after it has woken the other worker, a worker woken returns once from
`do_recv_futex`, and the stores alternate. -/
theorem no_lost_wake (h : Reachable running s) :
    (∃ i, s.pc i ≠ .recv .asleep ∧ i ∉ s.world.waiters) ∧
    (∀ n i, s.world.history[n]? = some (.sent i) →
      0 < n ∧ s.world.history[n - 1]? = some (.woke i i.other)) ∧
    (∀ i j, .woke i j ∈ s.world.history → j = i.other) ∧
    (∀ i, s.world.history.count (.woke i.other i) = s.world.history.count (.received i) +
      if s.pc i = .recv .asleep ∧ i ∉ s.world.waiters then 1 else 0) ∧
    (∀ n x, (stores s.world.history)[n]? = some x →
      x = if n % 2 = 0 then (.ping, 11) else (.pong, 10)) := by
  obtain ⟨t, ht, hR⟩ := simulation.reachable h
  refine ⟨?_, hR.ordered.returns, hR.ordered.wakes, fun i => ?_, fun n x hx => ?_⟩
  · cases t with
    | held i =>
      have hp : Turn i s := hR.phase
      exact ⟨i, hp.sends _, hp.awake⟩
    | passed i =>
      have hp : Handed i s := hR.phase
      exact ⟨i, by obtain h | h := hp.waits <;> simp [h], by simp [hp.waiters]⟩
  · have hc := count_passes Worker.other_involutive.injective ht i.other
    rw [count_passes_moves _ _ hR.ordered.wakes, count_takes_moves, Worker.other_other] at hc
    simp only [hc, hR.passed_iff i]
  · obtain ⟨tr, t', hr, he⟩ := hR.exists_passes ht
    rw [he, List.getElem?_map, Option.map_eq_some_iff] at hx
    obtain ⟨i, hi, rfl⟩ := hx
    have := passes_alternate Worker.other_involutive hr hi
    by_cases hn : n % 2 = 0
    · rw [if_pos hn] at this ⊢
      rw [this]
      rfl
    · rw [if_neg hn] at this ⊢
      rw [this]
      rfl

/-- Pong's wait is interrupted once, and a wake of ping's comes too early. -/
theorem no_lost_wake_interrupted : ∃ s, Reachable running s ∧
    stores s.world.history = [(.ping, 11), (.pong, 10)] ∧
    ∃ i, s.pc i ≠ .recv .asleep ∧ i ∉ s.world.waiters := by
  obtain ⟨s, hs, hp⟩ := exists_reachable_of_exec (S := running)
    (p := fun s => stores s.world.history = [(.ping, 11), (.pong, 10)]) rfl
    [.step .ping none, .step .ping none, .step .pong none, .interrupt .pong, .step .ping none,
      .step .pong none, .step .ping none, .step .pong none, .step .ping (some .pong),
      .step .pong none, .step .pong none] (by decide)
  exact ⟨s, hs, hp, (no_lost_wake hs).1⟩

end PingPong.CommFutexWake
