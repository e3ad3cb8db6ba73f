import Mathlib.Data.Rat.Defs
import Mathlib.Algebra.Order.Ring.Unbundled.Rat
import PingPong.MonitorFrame

namespace PingPong.MonitorClock

open MonitorState MonitorProgram MonitorFrame Activation TransitionSystem

variable {k : Setting} {s t : State} {w w' : World} {f : Frame}

/-- A step that leaves alone what `do_monitor_work` writes before its main loop;
the clock may go on. -/
structure KeepsBaseline (w w' : World) : Prop where
  start : w'.run_data.start = w.run_data.start
  start_time : w'.run_data.start_time = w.run_data.start_time
  timeout_time : w'.run_data.timeout_time = w.run_data.timeout_time
  clock : w.clock ≤ w'.clock

structure Elapses (w w' : World) : Prop extends KeepsBaseline w w' where
  progress : w'.run_data.rusage_req_in_progress = w.run_data.rusage_req_in_progress
  last_stats_time : w'.run_data.last_stats_time = w.run_data.last_stats_time
  i_stats_time : w'.i_stats_time = w.i_stats_time


theorem stop_handler_elapses {pc : StopPc} {o : Option StopPc}
    (h : stop_handler k w pc = (w', o)) : Elapses w w' := by
  obtain ⟨_, _, _, _, _, _, _, _, rfl, -⟩ := stop_handler_frame h
  exact ⟨⟨rfl, rfl, rfl, le_rfl⟩, rfl, rfl, rfl⟩

theorem child_handler_elapses {c : Choice} {pc : ChildPc} {o : Option ChildPc}
    (h : child_handler k c w pc = (w', o)) : Elapses w w' := by
  obtain ⟨_, _, _, _, _, _, rfl, -⟩ := child_handler_frame h
  exact ⟨⟨rfl, rfl, rfl, le_rfl⟩, rfl, rfl, rfl⟩

theorem accept_elapses {sig : Signal} {o : Option Frame} (h : accept sig w = some (w', o)) :
    Elapses w w' := by
  cases (accept_cases h).2.2 <;> exact ⟨⟨rfl, rfl, rfl, le_rfl⟩, rfl, rfl, rfl⟩

theorem interrupt_thread_elapses (i : Worker) (pc : WorkerPc) (w : World) :
    Elapses w (interrupt_thread k i pc w) := by
  generalize hv : interrupt_thread k i pc w = v
  cases interrupt_thread_cases hv <;> exact ⟨⟨rfl, rfl, rfl, le_rfl⟩, rfl, rfl, rfl⟩

theorem env_elapses {e : EnvEvent} (h : env k w e = some w') : Elapses w w' := by
  cases env_cases h with
  | interrupt _ _ => exact interrupt_thread_elapses _ _ w
  | pass hle => exact ⟨⟨rfl, rfl, rfl, hle⟩, rfl, rfl, rfl⟩
  | @work _ pc _ => cases pc <;> exact ⟨⟨rfl, rfl, rfl, le_rfl⟩, rfl, rfl, rfl⟩
  | _ => exact ⟨⟨rfl, rfl, rfl, le_rfl⟩, rfl, rfl, rfl⟩

def Writes : MonitorPc → Prop
  | .init_threads | .setStart | .get_time | .setStartTime _ | .setTimeoutTime => True
  | _ => False

theorem do_monitor_work_elapses {c : Choice} {pc : MonitorPc} {n : MonitorNext} (hpc : ¬ Writes pc)
    (h : do_monitor_work k c w pc = (w', n)) : Elapses w w' := by
  cases do_monitor_work_cases h with
  | init_threads | setStart | get_time | setStartTime | setTimeoutTime => exact absurd trivial hpc
  | _ => exact ⟨⟨rfl, rfl, rfl, le_rfl⟩, rfl, rfl, rfl⟩

theorem monitor_interrupt_elapses {c : Choice} {pc : InterruptPc} {n : InterruptNext}
    (hg : pc ≠ .gatherTime) (hs : pc ≠ .storeTime) (h : monitor_interrupt k c w pc = (w', n)) :
    Elapses w w' := by
  obtain ⟨_, _, _, _, rfl, hlast, -, hi⟩ := monitor_interrupt_frame h
  exact ⟨⟨rfl, rfl, rfl, le_rfl⟩, rfl, hlast hs, hi hg⟩

/-- Every time on record has been read from the clock, and nobody asks the workers
for their usage. -/
structure Clocked (w : World) : Prop where
  progress : w.run_data.rusage_req_in_progress = false
  clock : 0 ≤ w.clock
  last_stats_time : w.run_data.last_stats_time ≤ w.clock
  i_stats_time : w.i_stats_time ≤ w.clock

/-- What `do_monitor_work` has written before its main loop. -/
structure Baseline (k : Setting) (w : World) : Prop where
  start : w.run_data.start = true
  start_time : w.run_data.start_time ≤ w.clock
  timeout_time : w.run_data.timeout_time = w.run_data.start_time + k.runtime

def InLoop : Frame → Prop
  | .do_monitor_work .testStop | .do_monitor_work .sigsuspend | .do_monitor_work .suspended
  | .stop_handler .main _ => True
  | _ => False

instance : DecidablePred InLoop := fun f => by
  unfold InLoop
  split <;> infer_instance

theorem InLoop.signal (h : InLoop f) : f.signal = none := by
  cases f with
  | do_monitor_work pc => rfl
  | stop_handler caller pc =>
    cases caller with
    | main => rfl
    | sigint | sigalrm => exact h.elim
  | monitor_interrupt _ | child_handler _ => exact h.elim

def TimesOk (k : Setting) (w : World) : Frame → Prop
  | .do_monitor_work .comm_begin | .do_monitor_work .get_time => w.run_data.start = true
  | .do_monitor_work (.setStartTime time) => w.run_data.start = true ∧ time ≤ w.clock
  | .do_monitor_work .setTimeoutTime =>
    w.run_data.start = true ∧ w.run_data.start_time ≤ w.clock
  | f => InLoop f → Baseline k w

theorem Clocked.elapses (h : Clocked w) (he : Elapses w w') : Clocked w' where
  progress := he.progress.trans h.progress
  clock := h.clock.trans he.clock
  last_stats_time := he.last_stats_time ▸ h.last_stats_time.trans he.clock
  i_stats_time := he.i_stats_time ▸ h.i_stats_time.trans he.clock

theorem Baseline.keeps (h : Baseline k w) (he : KeepsBaseline w w') : Baseline k w' where
  start := he.start.trans h.start
  start_time := he.start_time ▸ h.start_time.trans he.clock
  timeout_time := by rw [he.timeout_time, he.start_time, h.timeout_time]

theorem TimesOk.keeps (h : TimesOk k w f) (he : KeepsBaseline w w') : TimesOk k w' f := by
  unfold TimesOk at h ⊢
  split at h
  · exact he.start.trans h
  · exact he.start.trans h
  · exact ⟨he.start.trans h.1, h.2.trans he.clock⟩
  · exact ⟨he.start.trans h.1, he.start_time ▸ h.2.trans he.clock⟩
  · exact fun hf => (h hf).keeps he

theorem TimesOk.baseline (h : TimesOk k w f) (hf : InLoop f) : Baseline k w := by
  cases f with
  | do_monitor_work pc =>
    cases pc with
    | testStop | sigsuspend | suspended => exact h hf
    | _ => exact hf.elim
  | stop_handler _ _ => exact h hf
  | monitor_interrupt _ | child_handler _ => exact hf.elim

theorem TimesOk.of_ne (h : f.signal ≠ none) : TimesOk k w f := by
  cases f with
  | do_monitor_work pc => exact absurd rfl h
  | stop_handler caller pc =>
    cases caller with
    | main => exact absurd rfl h
    | sigint | sigalrm => exact fun hf => hf.elim
  | monitor_interrupt _ | child_handler _ => exact fun hf => hf.elim

theorem do_monitor_work_stop_handler {c : Choice} {pc : MonitorPc}
    (h : do_monitor_work k c w pc = (w', .stop_handler)) : pc = .testStop ∧ w' = w := by
  cases do_monitor_work_cases h
  exact ⟨rfl, rfl⟩

theorem timesOk_of_goto {c : Choice} {pc pc' : MonitorPc} (hpc : ¬ Writes pc)
    (hf : TimesOk k w (.do_monitor_work pc)) (h : do_monitor_work k c w pc = (w', .goto pc')) :
    TimesOk k w (.do_monitor_work pc') := by
  cases do_monitor_work_cases h with
  | init_threads | setStart | get_time | setStartTime | setTimeoutTime => exact absurd trivial hpc
  | created ha | notCreated ha => cases ha <;> exact fun hl => hl.elim
  | comm_begin => exact hf
  | goesOn _ | sigsuspend => exact fun _ => hf trivial
  | _ => exact fun hl => hl.elim

theorem do_monitor_work_times {c : Choice} {pc : MonitorPc} {n : MonitorNext} (hw : Clocked w)
    (hf : TimesOk k w (.do_monitor_work pc)) (h : do_monitor_work k c w pc = (w', n)) :
    Clocked w' ∧ ∀ pc', n = .goto pc' → TimesOk k w' (.do_monitor_work pc') := by
  by_cases hpc : Writes pc
  · cases pc with
    | init_threads =>
      cases h
      exact ⟨⟨rfl, hw.clock, hw.clock, hw.i_stats_time⟩, by rintro _ ⟨⟩; exact fun hl => hl.elim⟩
    | setStart =>
      cases h
      exact ⟨⟨hw.progress, hw.clock, hw.last_stats_time, hw.i_stats_time⟩, by rintro _ ⟨⟩; rfl⟩
    | get_time =>
      cases h
      exact ⟨⟨hw.progress, hw.clock, le_rfl, hw.i_stats_time⟩, by rintro _ ⟨⟩; exact ⟨hf, le_rfl⟩⟩
    | setStartTime time =>
      cases h
      exact ⟨⟨hw.progress, hw.clock, hw.last_stats_time, hw.i_stats_time⟩, by rintro _ ⟨⟩; exact hf⟩
    | setTimeoutTime =>
      cases h
      refine ⟨⟨hw.progress, hw.clock, hw.last_stats_time, hw.i_stats_time⟩, ?_⟩
      rintro _ ⟨⟩
      exact fun _ => ⟨hf.1, hf.2, rfl⟩
    | _ => exact hpc.elim
  · have he := do_monitor_work_elapses hpc h
    refine ⟨hw.elapses he, fun pc' hn => ?_⟩
    subst hn
    exact (timesOk_of_goto hpc hf h).keeps he.toKeepsBaseline

theorem monitor_interrupt_keeps {c : Choice} {pc : InterruptPc} {n : InterruptNext}
    (hw : Clocked w) (h : monitor_interrupt k c w pc = (w', n)) :
    Clocked w' ∧ KeepsBaseline w w' := by
  by_cases hpc : pc = .gatherTime ∨ pc = .storeTime
  · obtain rfl | rfl := hpc
    · cases h
      exact ⟨⟨hw.progress, hw.clock, hw.last_stats_time, le_rfl⟩, rfl, rfl, rfl, le_rfl⟩
    · cases h
      exact ⟨⟨hw.progress, hw.clock, hw.i_stats_time, hw.i_stats_time⟩, rfl, rfl, rfl, le_rfl⟩
  · obtain ⟨hg, hs⟩ := not_or.mp hpc
    have he := monitor_interrupt_elapses hg hs h
    exact ⟨hw.elapses he, he.toKeepsBaseline⟩

theorem clock_invariant (k : Setting) :
    LocalInvariant (program k) (fun _ _ => True) Clocked (TimesOk k) where
  exec {f c w w' o} _ hw hf he := by
    have hkeep (hw' : Clocked w') (hk : KeepsBaseline w w')
        (hn : ∀ f', o = some f' → TimesOk k w f') : Clocked w' ∧
        (∀ f', o = some f' → TimesOk k w' f') ∧
        ∀ g : Frame, g.signal ≠ f.signal → TimesOk k w g → TimesOk k w' g :=
      ⟨hw', fun f' hf' => (hn f' hf').keeps hk, fun g _ hg => hg.keeps hk⟩
    rw [program_exec] at he
    cases (execFrame_cases he).2 with
    | main h =>
      obtain ⟨hw', hn⟩ := do_monitor_work_times hw hf h
      exact ⟨hw', fun f' hf' => by cases hf'; exact hn _ rfl, fun g hg _ => .of_ne hg⟩
    | @mainStop pc _ h =>
      obtain ⟨hw', -⟩ := do_monitor_work_times hw hf h
      refine ⟨hw', fun f' hf' => ?_, fun g hg _ => .of_ne hg⟩
      cases hf'
      obtain ⟨rfl, rfl⟩ := do_monitor_work_stop_handler h
      exact fun _ => hf trivial
    | interrupt h | interruptStop h | interruptRet h =>
      obtain ⟨hw', hk⟩ := monitor_interrupt_keeps hw h
      exact hkeep hw' hk fun f' hf' => by cases hf' <;> exact fun hl => hl.elim
    | child h | childRet h =>
      have he := child_handler_elapses h
      exact hkeep (hw.elapses he) he.toKeepsBaseline fun f' hf' => by
        cases hf' <;> exact fun hl => hl.elim
    | @stop caller pc pc' _ h =>
      have he := stop_handler_elapses h
      refine hkeep (hw.elapses he) he.toKeepsBaseline fun f' hf' => ?_
      cases hf'
      cases caller <;> exact hf
    | stopRet h _ =>
      have he := stop_handler_elapses h
      exact hkeep (hw.elapses he) he.toKeepsBaseline fun f' hf' => by cases hf'
    | stopMainRet h =>
      have he := stop_handler_elapses h
      exact hkeep (hw.elapses he) he.toKeepsBaseline fun f' hf' => by
        cases hf'
        exact fun hl => hl.elim
  accept {s w w' o} hw he := by
    have hk := accept_elapses he
    refine ⟨hw.elapses hk, fun f hf => .of_ne ?_, fun g hg => hg.keeps hk.toKeepsBaseline⟩
    subst hf
    rw [accept_signal _ _ _ _ he]
    rintro ⟨⟩
  resume {w f} hf := by
    rw [program_resume]
    unfold resume
    split
    · exact fun _ => hf trivial
    · exact hf
  env {e w w'} hw he := by
    have hk := env_elapses he
    exact ⟨hw.elapses hk, fun g hg => hg.keeps hk.toKeepsBaseline⟩

theorem reachable_clock (h : Reachable (wholeRun k) s) : Holds (program k) Clocked (TimesOk k) s :=
  (clock_invariant k).reachable (fun t ht => by
    subst ht
    exact ⟨List.nodup_singleton _, ⟨rfl, le_rfl, le_rfl, le_rfl⟩,
      by simp [boot, TimesOk, InLoop]⟩) h

end PingPong.MonitorClock
