import Mathlib.Data.BitVec
import PingPong.MonitorFrame

namespace PingPong.MonitorBarrier

open MonitorState MonitorProgram MonitorFrame Activation TransitionSystem

variable {k : Setting} {w w' : World} {i : Worker}

/-- A step that neither moves a worker on nor touches the flags of the barrier.
A worker may die. -/
structure Quiet (w w' : World) : Prop where
  ready : w'.run_data.ready = w.run_data.ready
  start : w'.run_data.start = w.run_data.start
  pid : ∀ i, w.run_data.pid i ≠ 0 → w'.run_data.pid i ≠ 0
  alive : ∀ i pc, w'.worker i = .alive pc → w.worker i = .alive pc
  unborn : ∀ i, w'.worker i = .unborn ↔ w.worker i = .unborn
  output : ∀ e ∈ w.output, e ∈ w'.output

structure Still (w w' : World) : Prop extends Quiet w w' where
  live : ∀ i pc, w.worker i = .alive pc → w'.worker i = .alive pc
  interrupt : w'.interrupt = w.interrupt

theorem Quiet.of_eq (hr : w'.run_data = w.run_data) (hw : w'.worker = w.worker)
    (ho : ∀ e ∈ w.output, e ∈ w'.output) : Quiet w w' where
  ready := by rw [hr]
  start := by rw [hr]
  pid i hi := by rwa [hr]
  alive i pc h := by rwa [← hw]
  unborn i := by rw [hw]
  output := ho

theorem Quiet.trans {w'' : World} (h : Quiet w w') (h' : Quiet w' w'') : Quiet w w'' where
  ready := h'.ready.trans h.ready
  start := h'.start.trans h.start
  pid i hi := h'.pid i (h.pid i hi)
  alive i pc hi := h.alive i pc (h'.alive i pc hi)
  unborn i := (h'.unborn i).trans (h.unborn i)
  output e he := h'.output e (h.output e he)

theorem Still.of_eq (hr : w'.run_data = w.run_data) (hw : w'.worker = w.worker)
    (hi : w'.interrupt = w.interrupt) (ho : ∀ e ∈ w.output, e ∈ w'.output) : Still w w' where
  toQuiet := .of_eq hr hw ho
  live i pc h := by rwa [hw]
  interrupt := hi

theorem still_run_data {r : RunData} (hr : r.ready = w.run_data.ready)
    (hs : r.start = w.run_data.start) (hp : ∀ i, w.run_data.pid i ≠ 0 → r.pid i ≠ 0) :
    Still w { w with run_data := r } where
  ready := hr
  start := hs
  pid := hp
  alive _ _ := id
  unborn _ := Iff.rfl
  output _ := id
  live _ _ := id
  interrupt := rfl

theorem Still.refl (w : World) : Still w w := .of_eq rfl rfl rfl fun _ => id

theorem mem_finish {e : Effect} {effects : List Effect} (h : e ∈ w.output) :
    e ∈ (w.finish effects).output := List.mem_append_left _ h

theorem still_finish (effects : List Effect) (w : World) : Still w (w.finish effects) :=
  .of_eq rfl rfl rfl fun _ => mem_finish

theorem still_setStop {b : Bool} : Still w (w.setStop b) :=
  still_run_data rfl rfl fun _ => id

theorem still_times {start last timeout : Rat} : Still w { w with
    run_data.start_time := start
    run_data.last_stats_time := last
    run_data.timeout_time := timeout } :=
  still_run_data rfl rfl fun _ => id

theorem still_setPid {pid : Int} (h : pid ≠ 0) : Still w (w.setPid i pid) := by
  refine still_run_data rfl rfl fun j hj => ?_
  by_cases hji : j = i
  · subst j
    simpa using h
  · simpa [hji] using hj

theorem quiet_setWorker {s : WorkerState} (hs : s.Terminated) (hi : w.worker i ≠ .unborn) :
    Quiet w (w.setWorker i s) where
  ready := rfl
  start := rfl
  pid _ := id
  alive j pc hj := by
    by_cases hji : j = i
    · subst j
      simp only [World.setWorker_worker, Function.update_self] at hj
      subst s
      exact hs.elim
    · simpa [hji] using hj
  unborn j := by
    by_cases hji : j = i
    · subst j
      simp only [World.setWorker_worker, Function.update_self, hi, iff_false]
      rintro rfl
      exact hs
    · simp [hji]
  output _ := id

theorem still_reap {who : Reaper} (hz : w.worker i = .zombie) :
    Still w (w.setWorker i (.reaped who)) := by
  refine ⟨quiet_setWorker trivial (by simp [hz]), fun j pc hj => ?_, rfl⟩
  have hji : j ≠ i := by
    rintro rfl
    exact absurd (hz.symm.trans hj) (by rintro ⟨⟩)
  simpa [hji] using hj

theorem still_wait (who : Reaper) (first : Worker) (arg : Int) (w : World) :
    Still w (w.wait k who first arg).1 := by
  rcases w.wait_cases k who first arg with ⟨i, -, hz, h⟩ | ⟨-, h | h⟩ <;> rw [h]
  · exact still_reap hz
  · exact .refl w
  · exact .refl w

theorem quiet_die {pc : WorkerPc} (h : w.worker i = .alive pc) : Quiet w (w.die i) := by
  have hq : Quiet w (w.setWorker i .zombie) := quiet_setWorker trivial (by simp [h])
  exact hq.trans (.of_eq rfl rfl fun _ => id)

theorem stop_handler_quiet {pc : StopPc} {o : Option StopPc}
    (h : stop_handler k w pc = (w', o)) : Quiet w w' := by
  obtain ⟨_, _, _, _, _, _, _, _, rfl, -, -, ho⟩ := stop_handler_frame h
  exact ⟨rfl, rfl, fun _ => id, fun _ _ => id, fun _ => Iff.rfl, ho⟩

theorem child_handler_still {c : Choice} {pc : ChildPc} {o : Option ChildPc}
    (h : child_handler k c w pc = (w', o)) : Still w w' := by
  cases child_handler_cases h with
  | reaps _ hz => exact still_reap hz
  | recordDeath => exact still_setPid (by decide)
  | setStop => exact still_setStop
  | _ => exact .of_eq rfl rfl rfl fun _ => id

theorem monitor_interrupt_still {c : Choice} {pc : InterruptPc} {n : InterruptNext}
    (h : monitor_interrupt k c w pc = (w', n)) : Still w w' := by
  obtain rfl : (monitor_interrupt k c w pc).1 = w' := by rw [h]
  cases pc <;> simp only [monitor_interrupt]
  case wait4 j pid => exact still_wait _ _ _ w
  case storeTime => exact still_times
  all_goals exact .of_eq rfl rfl rfl fun _ => id

def Acts : MonitorPc → Prop
  | .init_threads | .create _ | .setStart => True
  | _ => False

theorem do_monitor_work_still {c : Choice} {pc : MonitorPc} {n : MonitorNext} (hpc : ¬ Acts pc)
    (h : do_monitor_work k c w pc = (w', n)) : Still w w' := by
  cases do_monitor_work_cases h with
  | init_threads | created _ | notCreated _ | createFails | setStart => exact absurd trivial hpc
  | storePing | storePong => exact still_setPid (k.child_ne_zero _)
  | clearStop => exact still_setStop
  | cloneFailed | ret => exact still_finish _ w
  | get_time | setStartTime | setTimeoutTime => exact still_times
  | _ => exact .of_eq rfl rfl rfl fun _ => id

theorem accept_still {s : Signal} {o : Option Frame} (h : accept s w = some (w', o)) :
    Still w w' := by
  cases (accept_cases h).2.2 with
  | killed _ _ => exact still_finish _ w
  | handled _ | ignored _ => exact .of_eq rfl rfl rfl fun _ => id

theorem interrupt_thread_quiet {pc : WorkerPc} (hw : w.worker i = .alive pc) :
    Quiet w (interrupt_thread k i pc w) := by
  have h (rusage_req : Worker → Bool) : Quiet w (signalled w i rusage_req) :=
    ⟨rfl, rfl, fun _ => id, fun _ _ => id, fun _ => Iff.rfl, fun _ => id⟩
  generalize hv : interrupt_thread k i pc w = v
  cases interrupt_thread_cases hv with
  | ret rusage_req => exact h rusage_req
  | die rusage_req _ => exact (h rusage_req).trans (quiet_die hw)
  | finish rusage_req effects _ => exact (h rusage_req).trans (still_finish effects _).toQuiet

inductive Around (k : Setting) (w : World) : EnvEvent → World → Prop
  | still {e w'} : Still w w' → Around k w e w'
  | die {i pc w'} : w.worker i = .alive pc → Quiet w w' → (∀ j, j ≠ i → w'.worker j = w.worker j) →
      w'.interrupt = w.interrupt → (k.thread_mode = .pthread → .exit_fail ∈ w'.output) →
      Around k w (.die i) w'
  | interrupt {i pc w'} : w.interrupt i = true → w.worker i = .alive pc → Quiet w w' →
      Around k w (.interrupt i) w'

theorem env_around {e : EnvEvent} (hwork : ∀ i, e ≠ .work i) (h : env k w e = some w') :
    Around k w e w' := by
  have hraise (s : Signal) : Still w (w.raise s) := .of_eq rfl rfl rfl fun _ => id
  cases env_cases h with
  | tick _ | sigint | stopOrContinue _ => exact .still (hraise _)
  | work _ => exact absurd rfl (hwork _)
  | exit hw _ =>
    exact .die hw (still_finish _ w).toQuiet (fun _ _ => rfl) rfl fun _ => by simp
  | die hw hk =>
    exact .die hw (quiet_die hw) (fun j hj => by simp [World.die, hj]) rfl fun hk' => absurd hk' hk
  | untold _ => exact .still (.refl w)
  | interrupt hw hi => exact .interrupt hi hw (interrupt_thread_quiet hw)
  | pass _ => exact .still (.of_eq rfl rfl rfl fun _ => id)

theorem env_quiet {e : EnvEvent} (hwork : ∀ i, e ≠ .work i) (h : env k w e = some w') :
    Quiet w w' := by
  cases env_around hwork h with
  | still h => exact h.toQuiet
  | die _ h _ _ _ | interrupt _ _ h => exact h

def rank : WorkerPc → Nat
  | .testPid => 0
  | .writePid => 1
  | .setup_interrupt_signal => 2
  | .comm_pre => 3
  | .setReady => 4
  | .waitStart => 5
  | .comm_loop => 6

structure Barred (w : World) : Prop where
  start : w.run_data.start = true → ∀ i, w.run_data.ready i = true
  ready : ∀ i, w.run_data.ready i = true → w.run_data.pid i ≠ 0
  pid : ∀ i pc, w.worker i = .alive pc → 1 < rank pc → w.run_data.pid i ≠ 0
  loop : ∀ i, w.worker i = .alive .comm_loop → w.run_data.start = true

def SeenTo (w : World) : Frame → Prop
  | .do_monitor_work .init_threads => ∀ i, w.worker i = .unborn
  | .do_monitor_work (.testReady .pong) => w.run_data.ready .ping = true
  | .do_monitor_work .setAlarmHandler | .do_monitor_work .setTimer
  | .do_monitor_work .setStart => ∀ i, w.run_data.ready i = true
  | _ => True

theorem Barred.quiet (h : Barred w) (hq : Quiet w w') : Barred w' where
  start hs i := by
    rw [hq.start] at hs
    rw [hq.ready]
    exact h.start hs i
  ready i hi := by
    rw [hq.ready] at hi
    exact hq.pid i (h.ready i hi)
  pid i pc hi hr := hq.pid i (h.pid i pc (hq.alive i pc hi) hr)
  loop i hi := hq.start.trans (h.loop i (hq.alive i _ hi))

theorem SeenTo.quiet {f : Frame} (h : SeenTo w f) (hq : Quiet w w') : SeenTo w' f := by
  unfold SeenTo at h ⊢
  rw [hq.ready]
  split at h
  · exact fun i => (hq.unborn i).mpr (h i)
  all_goals exact h

theorem SeenTo.of_ne {f : Frame} (h : f.signal ≠ none) : SeenTo w f := by
  cases f with
  | do_monitor_work pc => exact absurd rfl h
  | _ => trivial

theorem Barred.init_threads {c : Choice} (hu : ∀ i, w.worker i = .unborn) :
    Barred (do_monitor_work k c w .init_threads).1 where
  start hs := by simp [do_monitor_work] at hs
  ready i hi := by simp [do_monitor_work] at hi
  pid i pc hi := by simp [do_monitor_work, hu] at hi
  loop i hi := by simp [do_monitor_work, hu] at hi

theorem Barred.setWorker {pc : WorkerPc} (h : Barred w)
    (hp : 1 < rank pc → w.run_data.pid i ≠ 0)
    (hl : pc = .comm_loop → w.run_data.start = true) :
    Barred (w.setWorker i (.alive pc)) where
  start := h.start
  ready := h.ready
  pid j pc' hj hr := by
    by_cases hji : j = i
    · subst j
      simp only [World.setWorker_worker, Function.update_self, WorkerState.alive.injEq] at hj
      exact hp (hj ▸ hr)
    · exact h.pid j pc' (by simpa [hji] using hj) hr
  loop j hj := by
    by_cases hji : j = i
    · subst j
      simp only [World.setWorker_worker, Function.update_self, WorkerState.alive.injEq] at hj
      exact hl hj
    · exact h.loop j (by simpa [hji] using hj)

theorem create_cases {c : Choice} {n : MonitorNext}
    (h : do_monitor_work k c w (.create i) = (w', n)) :
    (w' = w.setWorker i (.alive .testPid) ∨ Quiet w w') ∧
      ∀ pc', n = .goto pc' → SeenTo w' (.do_monitor_work pc') := by
  cases do_monitor_work_cases h with
  | created ha =>
    refine ⟨.inl rfl, ?_⟩
    rintro _ ⟨⟩
    cases ha <;> trivial
  | notCreated ha =>
    refine ⟨.inr (Still.refl w).toQuiet, ?_⟩
    rintro _ ⟨⟩
    cases ha <;> trivial
  | createFails => exact ⟨.inr (still_finish _ w).toQuiet, by rintro _ ⟨⟩; trivial⟩

theorem do_monitor_work_goto {c : Choice} {pc pc' : MonitorPc} (hpc : ¬ Acts pc)
    (hf : SeenTo w (.do_monitor_work pc)) (h : do_monitor_work k c w pc = (w', .goto pc')) :
    SeenTo w (.do_monitor_work pc') := by
  cases do_monitor_work_cases h with
  | init_threads | created _ | notCreated _ | createFails | setStart => exact absurd trivial hpc
  | readyPing hr => exact hr
  | readyPong hr =>
    intro j
    cases j with
    | ping => exact hf
    | pong => exact hr
  | noUpdates _ | setAlarmHandler _ | setTimer => exact hf
  | _ => trivial

theorem do_monitor_work_barred {c : Choice} {pc : MonitorPc} {n : MonitorNext} (hb : Barred w)
    (hf : SeenTo w (.do_monitor_work pc)) (h : do_monitor_work k c w pc = (w', n)) :
    Barred w' ∧ ∀ pc', n = .goto pc' → SeenTo w' (.do_monitor_work pc') := by
  by_cases hpc : Acts pc
  · cases pc with
    | init_threads =>
      cases h
      exact ⟨.init_threads (k := k) (c := c) hf, by rintro _ ⟨⟩; trivial⟩
    | create i =>
      obtain ⟨hw, hn⟩ := create_cases h
      obtain rfl | hq := hw
      · exact ⟨hb.setWorker (by simp [rank]) (by rintro ⟨⟩), hn⟩
      · exact ⟨hb.quiet hq, hn⟩
    | setStart =>
      cases h
      exact ⟨⟨fun _ => hf, hb.ready, hb.pid, fun _ _ => rfl⟩, by rintro _ ⟨⟩; trivial⟩
    | _ => exact hpc.elim
  · have hq := (do_monitor_work_still hpc h).toQuiet
    refine ⟨hb.quiet hq, fun pc' hn => ?_⟩
    subst hn
    exact (do_monitor_work_goto hpc hf h).quiet hq

theorem do_thread_work_barred {pc : WorkerPc} (h : Barred w) (hi : w.worker i = .alive pc) :
    Barred (do_thread_work k i w pc) := by
  cases pc with
  | testPid =>
    refine h.setWorker (fun hr => ?_) fun hl => ?_
    · split at hr
      · simp [rank] at hr
      · assumption
    · split at hl <;> cases hl
  | writePid =>
    have hp : (if k.thread_mode = .pthread then k.getpid else k.child i) ≠ 0 := by
      have h1 := k.getpid_pos
      have h2 := k.child_ne_zero i
      split <;> omega
    exact (h.quiet ((still_setPid (i := i) hp).toQuiet)).setWorker (fun _ => by simpa using hp)
      (by rintro ⟨⟩)
  | setup_interrupt_signal | comm_pre =>
    exact h.setWorker (fun _ => h.pid i _ hi (by simp [rank])) (by rintro ⟨⟩)
  | setReady =>
    have hp := h.pid i _ hi (by simp [rank])
    have hw : Barred (w.setWorker i (.alive .waitStart)) := h.setWorker (fun _ => hp) (by rintro ⟨⟩)
    refine ⟨fun hs j => ?_, fun j hj => ?_, hw.pid, hw.loop⟩
    · by_cases hji : j = i
      · subst j
        simp [do_thread_work]
      · simpa [do_thread_work, hji] using hw.start hs j
    · by_cases hji : j = i
      · subst j
        exact hp
      · exact hw.ready j (by simpa [do_thread_work, hji] using hj)
  | waitStart =>
    refine h.setWorker (fun _ => h.pid i _ hi (by simp [rank])) fun hl => ?_
    split at hl
    · assumption
    · cases hl
  | comm_loop => exact h

theorem SeenTo.work {f : Frame} {pc : WorkerPc} (h : SeenTo w f) (hi : w.worker i = .alive pc) :
    SeenTo (do_thread_work k i w pc) f := by
  have hr : ∀ j, w.run_data.ready j = true → (do_thread_work k i w pc).run_data.ready j = true := by
    intro j hj
    cases pc <;> try exact hj
    case setReady =>
      by_cases hji : j = i
      · subst j
        simp [do_thread_work]
      · simpa [do_thread_work, hji] using hj
  unfold SeenTo at h ⊢
  split at h
  · exact absurd (hi.symm.trans (h i)) (by rintro ⟨⟩)
  · exact hr _ h
  · exact fun j => hr j (h j)
  · exact fun j => hr j (h j)
  · exact fun j => hr j (h j)
  · trivial

theorem barrier_invariant (k : Setting) :
    LocalInvariant (program k) (fun _ _ => True) Barred SeenTo where
  exec {f c w w' o} _ hb hf he := by
    have hquiet (hq : Quiet w w') (hn : ∀ f', o = some f' → SeenTo w f') : Barred w' ∧
        (∀ f', o = some f' → SeenTo w' f') ∧
        ∀ g : Frame, g.signal ≠ f.signal → SeenTo w g → SeenTo w' g :=
      ⟨hb.quiet hq, fun f' hf' => (hn f' hf').quiet hq, fun g _ hg => hg.quiet hq⟩
    rw [program_exec] at he
    cases (execFrame_cases he).2 with
    | main h =>
      obtain ⟨hb', hn⟩ := do_monitor_work_barred hb hf h
      exact ⟨hb', fun f' hf' => by cases hf'; exact hn _ rfl, fun g hg _ => .of_ne hg⟩
    | mainStop h =>
      have hb' := (do_monitor_work_barred hb hf h).1
      exact ⟨hb', fun f' hf' => by cases hf'; trivial, fun g hg _ => .of_ne hg⟩
    | interrupt h | interruptStop h | interruptRet h =>
      exact hquiet (monitor_interrupt_still h).toQuiet fun f' hf' => by cases hf' <;> trivial
    | child h | childRet h =>
      exact hquiet (child_handler_still h).toQuiet fun f' hf' => by cases hf' <;> trivial
    | stop h | stopRet h _ | stopMainRet h =>
      exact hquiet (stop_handler_quiet h) fun f' hf' => by cases hf' <;> trivial
  accept {s _ _ _} hb he := by
    have hq := (accept_still he).toQuiet
    refine ⟨hb.quiet hq, fun f hf => .of_ne ?_, fun g hg => hg.quiet hq⟩
    subst hf
    rw [accept_signal _ _ _ _ he]
    rintro ⟨⟩
  resume {w f} hf := by
    rw [program_resume]
    unfold resume
    split
    · trivial
    · exact hf
  env {e w w'} hb he := by
    by_cases hwork : ∀ i, e ≠ .work i
    · have hq := env_quiet hwork he
      exact ⟨hb.quiet hq, fun g hg => hg.quiet hq⟩
    · obtain ⟨i, rfl⟩ := not_forall_not.mp hwork
      have he' : env k w (.work i) = some w' := he
      cases env_cases he' with
      | work hi => exact ⟨do_thread_work_barred hb hi, fun g hg => hg.work hi⟩

end PingPong.MonitorBarrier
