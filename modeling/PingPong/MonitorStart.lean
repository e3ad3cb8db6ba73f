import PingPong.MonitorBarrier

namespace PingPong.MonitorStart

open MonitorState MonitorProgram MonitorBarrier Activation TransitionSystem

variable {k : Setting} {s : State} {w w' : World} {i : Worker}

/-- `run_data->ping_count`, and the steps of `do_thread_work` taken so far. -/
structure Record where
  ping_count : BitVec 64
  steps : List (Worker × WorkerPc)

def Record.work (r : Record) (i : Worker) (pc : WorkerPc) (counts : Bool) : Record where
  ping_count :=
    if i = .ping ∧ pc = .comm_loop ∧ counts = true then r.ping_count + 1 else r.ping_count
  steps := r.steps ++ [(i, pc)]

/-- `init_threads` clears `run_data` as a whole. -/
def see (e : MonitorEvent) (counts : Bool) (s : State) (r : Record) : Record :=
  match e with
  | .env (.work i) =>
    match s.world.worker i with
    | .alive pc => r.work i pc counts
    | _ => r
  | .step _ =>
    if s.stack.head? = some (.do_monitor_work .init_threads) then { r with ping_count := 0 } else r
  | _ => r

def startup (k : Setting) : System (State × Record) (MonitorEvent × Bool) :=
  observe (wholeRun k) ⟨0, []⟩ see

structure Recorded (w : World) (r : Record) : Prop where
  trail : ∀ i pc p, w.worker i = .alive pc → rank p < rank pc → p ≠ .writePid → (i, p) ∈ r.steps
  ready : ∀ i, w.run_data.ready i = true →
    (i, .setup_interrupt_signal) ∈ r.steps ∧ (i, .comm_pre) ∈ r.steps
  born : ∀ i p, (i, p) ∈ r.steps → w.worker i ≠ .unborn
  comm : ∀ i, (i, .comm_loop) ∈ r.steps → w.run_data.start = true
  count : w.run_data.start = false → r.ping_count = 0

theorem recorded_boot : Recorded boot.world ⟨0, []⟩ where
  trail i pc p hi := by cases hi
  ready i hi := by cases hi
  born i p hp := by cases hp
  comm i hi := by cases hi
  count _ := rfl

variable {r : Record}

theorem Recorded.quiet (h : Recorded w r) (hq : Quiet w w') : Recorded w' r where
  trail i pc p hi := h.trail i pc p (hq.alive i pc hi)
  ready i hi := h.ready i (hq.ready ▸ hi)
  born i p hp hu := h.born i p hp ((hq.unborn i).mp hu)
  comm i hi := hq.start.trans (h.comm i hi)
  count hs := h.count (hq.start ▸ hs)

theorem Recorded.init_threads {c : Choice} (h : Recorded w r) (hu : ∀ i, w.worker i = .unborn) :
    Recorded (do_monitor_work k c w .init_threads).1 { r with ping_count := 0 } where
  trail i pc p hi := by simp [do_monitor_work, hu] at hi
  ready i hi := by simp [do_monitor_work] at hi
  born i p hp := absurd (hu i) (h.born i p hp)
  comm i hi := absurd (hu i) (h.born i _ hi)
  count _ := rfl

theorem Recorded.create (h : Recorded w r) : Recorded (w.setWorker i (.alive .testPid)) r where
  trail j pc p hj hr := by
    by_cases hji : j = i
    · subst j
      simp only [World.setWorker_worker, Function.update_self, WorkerState.alive.injEq] at hj
      subst hj
      exact absurd hr (Nat.not_lt_zero _)
    · exact h.trail j pc p (by simpa [hji] using hj) hr
  ready := h.ready
  born j p hp := by
    by_cases hji : j = i
    · subst j
      simp
    · simpa [hji] using h.born j p hp
  comm := h.comm
  count := h.count

theorem Recorded.setStart (h : Recorded w r) :
    Recorded { w with run_data.start := true } r where
  trail := h.trail
  ready := h.ready
  born := h.born
  comm _ _ := rfl
  count hs := by cases hs

theorem Recorded.main {c : Choice} {pc : MonitorPc} {n : MonitorNext} (h : Recorded w r)
    (hf : SeenTo w (.do_monitor_work pc)) (he : do_monitor_work k c w pc = (w', n)) :
    Recorded w' (if pc = .init_threads then { r with ping_count := 0 } else r) := by
  by_cases hpc : Acts pc
  · cases pc with
    | init_threads =>
      cases he
      exact h.init_threads (k := k) (c := c) hf
    | create i =>
      obtain rfl | hq := (create_cases he).1
      · exact h.create
      · exact h.quiet hq
    | setStart =>
      cases he
      exact h.setStart
    | _ => exact hpc.elim
  · rw [if_neg (by rintro rfl; exact hpc trivial)]
    exact h.quiet (do_monitor_work_still hpc he).toQuiet

theorem do_thread_work_worker (k : Setting) (i : Worker) (w : World) (pc : WorkerPc)
    (hi : w.worker i = .alive pc) :
    ∃ pc', (do_thread_work k i w pc).worker = Function.update w.worker i (.alive pc') ∧
      ∀ p, rank p < rank pc' → p ≠ .writePid → rank p < rank pc ∨ p = pc := by
  cases pc with
  | testPid =>
    refine ⟨_, rfl, fun p hp hne => ?_⟩
    by_cases h0 : w.run_data.pid i = 0 <;> cases p <;> simp_all [rank]
  | waitStart =>
    refine ⟨_, rfl, fun p hp _ => ?_⟩
    by_cases hs : w.run_data.start = true <;> cases p <;> simp_all [rank]
  | comm_loop =>
    refine ⟨.comm_loop, ?_, fun p hp _ => .inl hp⟩
    simp only [do_thread_work]
    rw [← hi, Function.update_eq_self]
  | _ =>
    refine ⟨_, rfl, fun p hp _ => ?_⟩
    cases p <;> simp_all [rank]

theorem do_thread_work_start (k : Setting) (i : Worker) (w : World) (pc : WorkerPc) :
    (do_thread_work k i w pc).run_data.start = w.run_data.start := by cases pc <;> rfl

theorem do_thread_work_ready {pc : WorkerPc} {j : Worker}
    (h : (do_thread_work k i w pc).run_data.ready j = true) :
    w.run_data.ready j = true ∨ j = i ∧ pc = .setReady := by
  cases pc <;> try exact .inl h
  case setReady =>
    by_cases hji : j = i
    · exact .inr ⟨hji, rfl⟩
    · exact .inl (by simpa [do_thread_work, hji] using h)

theorem Recorded.work {pc : WorkerPc} {counts : Bool} (h : Recorded w r) (hb : Barred w)
    (hi : w.worker i = .alive pc) :
    Recorded (do_thread_work k i w pc) (r.work i pc counts) := by
  obtain ⟨pc', hw, hpc'⟩ := do_thread_work_worker k i w pc hi
  have hmem : ∀ j p, (j, p) ∈ (r.work i pc counts).steps ↔ (j, p) ∈ r.steps ∨ j = i ∧ p = pc := by
    simp [Record.work]
  have hs := do_thread_work_start k i w pc
  refine ⟨fun j q p hj hr hne => ?_, fun j hj => ?_, fun j p hp => ?_, fun j hj => ?_, fun hn => ?_⟩
  · rw [hmem]
    rw [hw] at hj
    by_cases hji : j = i
    · subst j
      simp only [Function.update_self, WorkerState.alive.injEq] at hj
      subst hj
      obtain hlt | rfl := hpc' p hr hne
      · exact .inl (h.trail i pc p hi hlt hne)
      · exact .inr ⟨rfl, rfl⟩
    · rw [Function.update_of_ne hji] at hj
      exact .inl (h.trail j q p hj hr hne)
  · rw [hmem, hmem]
    obtain hj | ⟨rfl, rfl⟩ := do_thread_work_ready hj
    · exact ⟨.inl (h.ready j hj).1, .inl (h.ready j hj).2⟩
    · exact ⟨.inl (h.trail j _ _ hi (by decide) (by decide)),
        .inl (h.trail j _ _ hi (by decide) (by decide))⟩
  · rw [hw]
    by_cases hji : j = i
    · subst j
      simp
    · rw [Function.update_of_ne hji]
      obtain hp | ⟨hp, -⟩ := (hmem j p).mp hp
      · exact h.born j p hp
      · exact absurd hp hji
  · rw [hs]
    obtain hj | ⟨rfl, rfl⟩ := (hmem j _).mp hj
    · exact h.comm j hj
    · exact hb.loop j hi
  · rw [hs] at hn
    have hne : ¬ (i = .ping ∧ pc = .comm_loop ∧ counts = true) := by
      rintro ⟨-, rfl, -⟩
      exact absurd (hn.symm.trans (hb.loop i hi)) (by decide)
    rw [Record.work, if_neg hne]
    exact h.count hn

theorem Recorded.frame {c : Choice} {f : Frame} {o : Option Frame} (h : Recorded w r)
    (hf : SeenTo w f) (he : execFrame k f c w = some (w', o)) :
    Recorded w' (if f = .do_monitor_work .init_threads then { r with ping_count := 0 } else r) := by
  cases (execFrame_cases he).2 with
  | main hm | mainStop hm => simpa using h.main hf hm
  | interrupt hm | interruptStop hm | interruptRet hm =>
    simpa using h.quiet (monitor_interrupt_still hm).toQuiet
  | child hm | childRet hm => simpa using h.quiet (child_handler_still hm).toQuiet
  | stop hm | stopRet hm _ | stopMainRet hm => simpa using h.quiet (stop_handler_quiet hm)

theorem Recorded.step {t : State} {e : MonitorEvent} {counts : Bool} (h : Recorded s.world r)
    (hb : Holds (program k) Barred SeenTo s) (hn : Step (program k) e s t) :
    Recorded t.world (see e counts s r) := by
  have hframe (f : Frame) (hf : f ∈ s.stack) : SeenTo s.world f := hb.frame f hf
  cases hn with
  | @goto c f f' rest w w' he | @ret c f rest w w' he =>
    simpa only [see, List.head?_cons, Option.some.injEq] using h.frame (hframe f (by simp)) he
  | handle _ he | ignore _ he => exact h.quiet (accept_still he).toQuiet
  | @env e stack w w' he =>
    by_cases hwork : ∀ i, e ≠ .work i
    · have hsee : see (.env e) counts ⟨stack, w⟩ r = r := by
        cases e <;> first | rfl | exact absurd rfl (hwork _)
      rw [hsee]
      exact h.quiet (env_quiet hwork he)
    · obtain ⟨i, rfl⟩ := not_forall_not.mp hwork
      have he' : env k w (.work i) = some w' := he
      cases env_cases he' with
      | work hi =>
        simp only [see, hi]
        exact h.work hb.world hi

theorem holds_boot (k : Setting) : Holds (program k) Barred SeenTo boot where
  distinct := List.nodup_singleton _
  world := ⟨by simp [boot], by simp [boot], by simp [boot], by simp [boot]⟩
  frame := by simp [boot, SeenTo]

theorem reachable_barrier {s : State} (h : Reachable (wholeRun k) s) :
    Holds (program k) Barred SeenTo s :=
  (barrier_invariant k).reachable (fun t ht => by subst ht; exact holds_boot k) h

/-- Before the start neither worker is in its loop and nothing is counted; the start
comes after both are ready, and who is ready has its handler, has been through
`comm_pre` and has its pid recorded. So has everybody, as seen by a worker in its
loop. -/
theorem start_after_ready {p : State × Record} (h : Reachable (startup k) p) :
    (p.1.world.run_data.start = true → ∀ i, p.1.world.run_data.ready i = true) ∧
    (∀ i, p.1.world.run_data.ready i = true → (i, .setup_interrupt_signal) ∈ p.2.steps ∧
      (i, .comm_pre) ∈ p.2.steps ∧ p.1.world.run_data.pid i ≠ 0) ∧
    (p.1.world.run_data.start = false →
      p.2.ping_count = 0 ∧ ∀ i, (i, .comm_loop) ∉ p.2.steps) ∧
    ∀ i, p.1.world.worker i = .alive .comm_loop → ∀ j, (j, .setup_interrupt_signal) ∈ p.2.steps ∧
      p.1.world.run_data.pid j ≠ 0 := by
  have hb := (reachable_barrier h.of_observe).world
  have hr : Recorded p.1.world p.2 := by
    refine h.induct (I := fun p => Recorded p.1.world p.2) ?_ fun p a q hp hr hn => ?_
    · rintro ⟨s, r⟩ ⟨rfl, rfl⟩
      exact recorded_boot
    · obtain ⟨hn, hq⟩ := observe_next.mp hn
      rw [hq]
      exact hr.step (reachable_barrier hp.of_observe) (next_cases hn)
  refine ⟨hb.start, fun i hi => ?_, fun hs => ⟨hr.count hs, fun i hi => ?_⟩, fun i hi j => ?_⟩
  · exact ⟨(hr.ready i hi).1, (hr.ready i hi).2, hb.ready i hi⟩
  · exact absurd (hs.symm.trans (hr.comm i hi)) (by decide)
  · have hj := hb.start (hb.loop i hi) j
    exact ⟨(hr.ready j hj).1, hb.ready j hj⟩

/-- Ping waits for the start, and counts once. -/
theorem start_after_ready_clone : ∃ p, Reachable (startup (.ofModes .thread .tcp)) p ∧
    p.2.ping_count = 1 ∧ p.1.world.run_data.start = true ∧
    ∀ i, p.1.world.run_data.ready i = true := by
  obtain ⟨p, hp, hc, hs⟩ := exists_reachable_of_exec (S := startup (.ofModes .thread .tcp))
    (p := fun p => p.2.ping_count = 1 ∧ p.1.world.run_data.start = true)
    (s := (boot, ⟨0, []⟩)) ⟨rfl, rfl⟩
    ((.replicate 7 (.step {}) ++ .replicate 6 (.env (.work .ping)) ++
      .replicate 5 (.env (.work .pong)) ++ .replicate 5 (.step {}) ++
      .replicate 2 (.env (.work .ping)) : List MonitorEvent).map (·, true)) (by decide)
  exact ⟨p, hp, hc, hs, (start_after_ready hp).1 hs⟩

end PingPong.MonitorStart
