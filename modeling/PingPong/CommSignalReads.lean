import PingPong.CommSignalLive

namespace PingPong.CommSignalReads

open MonitorState (Worker)
open CommSignal CommSignalLive TransitionSystem Fairness

/-- As `signal_received` is not volatile, a test may also take over what the test before it has
read. -/
inductive Access
  | memory (event : Event)
  | register (who : Worker)
deriving DecidableEq, Repr

/-- `kept` are the workers whose last test has found the flag clear, in a wait that goes on. -/
structure State where
  signal : CommSignal.State
  kept : Worker → Bool

/-- A clear flag that is in a register makes the wait go on. -/
def next (p : Peers) : Access → State → Option State
  | .memory event, s => (CommSignal.next p event s.signal).map fun signal =>
    { signal
      kept := match event with
        | .step i => Function.update s.kept i (s.signal.pc i = .test ∧ signal.pc i = .test)
        | .deliver _ | .caught _ => s.kept }
  | .register i, s => if s.kept i = true then some s else none

def system (p : Peers) : System State Access := ⟨(· = ⟨start, fun _ => false⟩), next p⟩

def readsOnce : Access → State → Bool
  | .memory (.step i), s => ! s.kept i
  | .memory (.deliver _), _ | .memory (.caught _), _ | .register _, _ => true

/-- As an optimizing compiler has the loops. -/
def once (p : Peers) : System State Access := restrict (system p) fun a s => readsOnce a s = true

def sent (s : State) (i : Worker) : Nat := s.signal.world.history.count (.sent i)

variable {p : Peers} {s t : State} {a : Access} {i j : Worker} {n k : Nat}

def Access.event : Access → Option Event
  | .memory event => some event
  | .register _ => none

theorem next_signal (hn : (system p).next a s = some t) :
    (∀ event, a.event = some event →
      (CommSignal.system p).next event s.signal = some t.signal) ∧
    (a.event = none → t.signal = s.signal) := by
  cases a with
  | memory event =>
    obtain ⟨signal, hs, rfl⟩ := Option.map_eq_some_iff.mp hn
    exact ⟨fun _ he => Option.some.inj he ▸ hs, nofun⟩
  | register i =>
    obtain ⟨-, hs⟩ := Option.ite_none_right_eq_some.mp hn
    exact ⟨nofun, fun _ => congrArg State.signal (Option.some.inj hs).symm⟩

/-- What is kept in registers only leaves out some of the runs. -/
theorem reachable_signal (h : Reachable (system p) s) :
    Reachable (CommSignal.system p) s.signal := by
  apply h.invariant (I := fun s => Reachable (CommSignal.system p) s.signal)
  · rintro _ rfl
    exact .init rfl
  · intro s a t hs hn
    obtain ⟨hsome, hnone⟩ := next_signal hn
    cases a with
    | memory event => exact hs.next (hsome event rfl)
    | register i => exact hnone rfl ▸ hs

theorem loop_sent {top pc : Pc} {w : World} {r : World × Pc} (hij : j ≠ i)
    (h : loop p j top w pc = some r) :
    r.1.history.count (.sent i) = w.history.count (.sent i) := by
  cases pc with
  | count => cases h
  | send =>
    obtain rfl := Option.some.inj h
    simp [send_sig, p.pid_pos, List.count_append, hij]
  | test =>
    obtain rfl := Option.some.inj h
    rfl
  | clear =>
    obtain rfl := Option.some.inj h
    simp [List.count_append]

theorem do_thread_work_sent {pc : Pc} {w : World} {r : World × Pc} (hij : j ≠ i)
    (h : do_thread_work p j w pc = some r) :
    r.1.history.count (.sent i) = w.history.count (.sent i) := by
  cases j with
  | ping =>
    by_cases hpc : pc = .count
    · subst hpc
      obtain rfl := Option.some.inj h
      rfl
    · rw [do_thread_work, comm_ping_signal_eq hpc] at h
      exact loop_sent hij h
  | pong => exact loop_sent hij h

theorem next_others (hn : (system p).next a s = some t) (ha : a ≠ .memory (.step i)) :
    t.kept i = s.kept i ∧ sent t i = sent s i := by
  cases a with
  | register j =>
    obtain ⟨-, hs⟩ := Option.ite_none_right_eq_some.mp hn
    obtain rfl := Option.some.inj hs
    exact ⟨rfl, rfl⟩
  | memory event =>
    obtain ⟨signal, hs, rfl⟩ := Option.map_eq_some_iff.mp hn
    cases event with
    | deliver x | caught x =>
      obtain ⟨-, hs⟩ := Option.ite_none_right_eq_some.mp hs
      obtain rfl := Option.some.inj hs
      exact ⟨rfl, rfl⟩
    | step j =>
      have hij : j ≠ i := fun h => ha (by rw [h])
      obtain ⟨r, hr, rfl⟩ := Option.map_eq_some_iff.mp hs
      exact ⟨Function.update_of_ne hij.symm .., do_thread_work_sent hij hr⟩

theorem sent_le (hn : (system p).next a s = some t) : sent s i ≤ sent t i := by
  obtain ⟨hsome, hnone⟩ := next_signal hn
  rw [sent, sent]
  cases a with
  | register j => rw [hnone rfl]
  | memory event =>
    generalize s.signal = u, t.signal = v at hsome
    cases next_cases (hsome event rfl) with
    | count | spin | leave | deliver | caught => exact le_rfl
    | send | clear => simp [List.count_append]

theorem sent_monotone (e : Execution (system p)) (i : Worker) :
    Monotone fun n => sent (e.state n) i := by
  apply monotone_nat_of_le_succ
  intro n
  obtain ⟨-, hs⟩ | ⟨a, -, hs⟩ := e.cases n
  · rw [hs]
  · exact sent_le hs

/-- A worker that goes to the memory no more sends no more. -/
theorem sent_eq (e : Execution (system p))
    (hnone : ∀ k, n ≤ k → e.event k ≠ some (.memory (.step i))) (hk : n ≤ k) :
    sent (e.state k) i = sent (e.state n) i := by
  induction k, hk using Nat.le_induction with
  | base => rfl
  | succ k hk ih =>
    obtain ⟨-, hs⟩ | ⟨a, ha, hs⟩ := e.cases k
    · rw [hs, ih]
    · have hne : a ≠ .memory (.step i) := fun h => hnone k hk (ha.trans (congrArg some h))
      rw [(next_others hs hne).2, ih]

theorem kept_forever (e : Execution (once p)) (hkept : (e.state n).kept i = true) (hk : n ≤ k) :
    (e.state k).kept i = true ∧ e.event k ≠ some (.memory (.step i)) := by
  have hevent : ∀ k, (e.state k).kept i = true → e.event k ≠ some (.memory (.step i)) := by
    intro k hkept he
    obtain ⟨ha, -⟩ | ⟨a, ha, hs⟩ := e.cases k
    · exact absurd (ha.symm.trans he) nofun
    · obtain rfl := Option.some.inj (ha.symm.trans he)
      simpa [readsOnce, hkept] using (restrict_next.mp hs).1
  have hall : (e.state k).kept i = true := by
    induction k, hk using Nat.le_induction with
    | base => exact hkept
    | succ k hk ih =>
      obtain ⟨-, hs⟩ | ⟨a, ha, hs⟩ := e.cases k
      · rwa [hs]
      · have hne : a ≠ .memory (.step i) := fun h => hevent k ih (ha.trans (congrArg some h))
        rwa [(next_others (restrict_next.mp hs).2 hne).1]
  exact ⟨hall, hevent k hall⟩

theorem sends_forever_iff (e : Execution (system p))
    (hdeliver : ∀ i, e.Fair fun _ a => a = .memory (.deliver (p.signal i)))
    (hcaught : ∀ i, e.Fair fun _ a => a = .memory (.caught (p.signal i))) :
    (∀ n, ∃ k, ∀ i, n ≤ sent (e.state k) i) ↔
      ∀ i, e.Fair fun _ a => a = .memory (.step i) := by
  constructor
  · intro h i n _
    by_contra hnone
    push Not at hnone
    have heq : ∀ k, n ≤ k → sent (e.state k) i = sent (e.state n) i := fun k hk =>
      sent_eq e (fun k hk he => hnone k _ hk he rfl) hk
    obtain ⟨k, hk⟩ := h (sent (e.state n) i + 1)
    have hlt : sent (e.state n) i < sent (e.state k) i := hk i
    obtain hle | hle := le_total n k
    · exact hlt.ne' (heq k hle)
    · exact hlt.not_ge (sent_monotone e i hle)
  · intro h n
    have hfair : ∀ d, e.Fair fun _ a => a = .memory (helper p d) := by
      rintro (i | i | i)
      · exact h i
      · exact hdeliver i
      · exact hcaught i
    exact sends_forever p (e.project (CommSignal.system p) State.signal Access.event
      (fun s hs => congrArg State.signal hs) fun _ _ _ => next_signal)
      (fun d => (hfair d).project rfl fun s hs => by
        simpa [system, CommSignal.system, next] using hs) n

theorem once_stops (e : Execution (once p)) (hkept : (e.state n).kept i = true) (hk : n ≤ k) :
    sent (e.state k) i = sent (e.state n) i ∧
      sent (e.state k) i.other ≤ sent (e.state n) i.other + 1 := by
  have heq : sent (e.state k) i = sent (e.state n) i :=
    sent_eq e.unrestrict (fun k hk he =>
      (kept_forever e hkept hk).2 ((e.unrestrict_event k).symm.trans he)) hk
  have hn := (sent_in_turn (reachable_signal (e.unrestrict.reachable n)) i).2
  have hk := (sent_in_turn (reachable_signal (e.unrestrict.reachable k)) i).1
  refine ⟨heq, ?_⟩
  change sent (e.state n) i ≤ sent (e.state n) i.other + _ at hn
  change sent (e.state k) i.other + _ ≤ sent (e.state k) i + 1 at hk
  omega

/-- The workers signal each other for ever if and only if each of them reads its flag again
and again, given that signals are delivered some day. Once a worker that reads it once in
a wait has found it clear, nothing more comes of it, and of the other one a signal at most. -/
theorem signals_forever (p : Peers) :
    (∀ e : Execution (system p),
      (∀ i, e.Fair fun _ a => a = .memory (.deliver (p.signal i))) →
      (∀ i, e.Fair fun _ a => a = .memory (.caught (p.signal i))) →
        ((∀ n, ∃ k, ∀ i, n ≤ sent (e.state k) i) ↔
          ∀ i, e.Fair fun _ a => a = .memory (.step i))) ∧
    ∀ (e : Execution (once p)) (i : Worker) (n k : Nat), (e.state n).kept i = true → n ≤ k →
      sent (e.state k) i = sent (e.state n) i ∧
        sent (e.state k) i.other ≤ sent (e.state n) i.other + 1 :=
  ⟨sends_forever_iff, fun e _ _ _ hkept hk => once_stops e hkept hk⟩

/-- Two processes. In the optimized program pong's first test is before ping's first signal. -/
theorem signals_forever_fork : ∃ p,
    (∃ e : Execution (system p), ∃ k, ∀ i, 1000 ≤ sent (e.state k) i) ∧
    ∃ e : Execution (once p), ∀ k, 1 ≤ k →
      sent (e.state k) .pong = 0 ∧ sent (e.state k) .ping ≤ 1 := by
  let p : Peers := ⟨fun i => if i = .ping then 101 else 102, by decide⟩
  let accesses : List Access := [.register .pong, .memory (.step .ping),
    .memory (.deliver (p.signal .ping)), .memory (.deliver (p.signal .pong)),
    .memory (.caught (p.signal .ping)), .memory (.caught (p.signal .pong))]
  refine ⟨p, ⟨schedule (system p) rfl (turns (.memory (.step .pong)) accesses), ?_⟩,
    schedule (once p) rfl (turns (.memory (.step .pong)) accesses),
    fun k hk => (signals_forever p).2 _ .pong 1 k rfl hk⟩
  refine ((signals_forever p).1 _ (fun i => turns_fair rfl ?_) fun i => turns_fair rfl ?_).mpr
    (fun i => turns_fair rfl ?_) 1000 <;> cases i <;> simp [accesses]

end PingPong.CommSignalReads
