import Mathlib.Algebra.Order.Ring.Rat
import Mathlib.Tactic.Linarith
import PingPong.MonitorStopFlag
import PingPong.MonitorTimeout
import PingPong.StatsPeriodic

namespace PingPong.MonitorTimer

open MonitorState MonitorProgram MonitorFrame MonitorNesting MonitorReport MonitorReady
open MonitorClock MonitorInterrupt MonitorTimeout Activation TransitionSystem

variable {k : Setting} {s s' : State} {w w' : World}

structure Itimer where
  set : Rat
  expiries : Nat
deriving DecidableEq, Repr

def period (k : Setting) : Rat := StatsPeriodic.micros k.stats_interval / 1000000

/-- The time of the next expiry: `it_value` and `it_interval` are the same. -/
def Itimer.due (k : Setting) (t : Itimer) : Rat := t.set + (t.expiries + 1) * period k

def Itimer.see (e : MonitorEvent) (s : State) (t : Itimer) : Itimer :=
  match e with
  | .step _ =>
    if s.stack.head? = some (.do_monitor_work .setTimer) then ⟨s.world.clock, 0⟩ else t
  | .env .tick => { t with expiries := t.expiries + 1 }
  | _ => t

/-- The timer expires when it is due, and time does not pass that by. -/
def OnTime (k : Setting) : MonitorEvent × Unit → State × Itimer → Prop
  | (.env .tick, _), (s, t) => s.world.clock = t.due k
  | (.env (.pass time), _), (s, t) => s.world.timer = true → time ≤ t.due k
  | _, _ => True

instance (k : Setting) (e : MonitorEvent × Unit) (p : State × Itimer) :
    Decidable (OnTime k e p) := by
  unfold OnTime
  split <;> infer_instance

def timed (k : Setting) : System (State × Itimer) (MonitorEvent × Unit) :=
  restrict (observe (wholeRun k) ⟨0, 0⟩ fun e _ s t => t.see e s) (OnTime k)

variable {t t' : Itimer} {e : MonitorEvent}

theorem reachable_of_timed (h : Reachable (timed k) (s, t)) : Reachable (wholeRun k) s :=
  h.of_restrict.of_observe

theorem timed_next {a : MonitorEvent × Unit} {p q : State × Itimer}
    (h : (timed k).next a p = some q) :
    OnTime k a p ∧ Step (program k) a.1 p.1 q.1 ∧ q.2 = p.2.see a.1 p.1 := by
  obtain ⟨hok, h⟩ := restrict_next.mp h
  obtain ⟨hn, hs⟩ := observe_next.mp h
  exact ⟨hok, next_cases hn, hs⟩

theorem execFrame_stop_mono {f : Frame} {c : Choice} {o : Option Frame} (hf : f.signal ≠ none)
    (he : execFrame k f c w = some (w', o)) (hs : w.run_data.stop = true) :
    w'.run_data.stop = true := by
  obtain ht | ⟨pc, rfl, -⟩ := MonitorStopFlag.execFrame_keeps_stop hs he
  · exact ht
  · exact absurd rfl hf

def Silences : Frame → Prop
  | .child_handler .ignoreAlarm | .child_handler .stopTimer => True
  | _ => False

@[simp] theorem silences_resume (f : Frame) : Silences (resume f) ↔ Silences f := by
  unfold resume
  split <;> rfl

theorem Silences.signal {f : Frame} (h : Silences f) : f.signal = some .sigchld := by
  cases f with
  | child_handler _ => rfl
  | do_monitor_work _ | monitor_interrupt _ | stop_handler _ _ => exact h.elim

theorem silences_step {f f' : Frame} {c : Choice} (he : execFrame k f c w = some (w', some f'))
    (hf : Silences f') : Silences f ∨ w'.run_data.stop = true := by
  cases (execFrame_cases he).2 with
  | @child pc _ _ h =>
    cases child_handler_cases h with
    | setStop => exact .inr rfl
    | ignoreAlarm => exact .inl trivial
    | _ => exact hf.elim
  | main _ | mainStop _ | interrupt _ | interruptStop _ | stop _ | stopMainRet _ => exact hf.elim

theorem stop_of_silences (h : Reachable (wholeRun k) s) :
    ∀ f ∈ s.stack, Silences f → s.world.run_data.stop = true := by
  refine h.induct (I := fun s => ∀ f ∈ s.stack, Silences f → s.world.run_data.stop = true)
    (fun s hs => ?_) fun s e s' hr ih hn => ?_
  · subst hs
    simp [boot, Silences]
  have hns := reachable_nested hr
  cases next_cases hn with
  | @goto c f f' rest w w' he =>
    rw [program_exec] at he
    obtain ⟨hf, hrest⟩ := List.forall_mem_cons.mp ih
    by_cases hmain : f.signal = none
    · obtain rfl := hns.below hmain
      rintro g hg hgs
      obtain rfl := List.mem_singleton.mp hg
      rw [← execFrame_signal _ _ _ _ _ _ he, hgs.signal] at hmain
      cases hmain
    · refine List.forall_mem_cons.mpr ⟨fun hf' => ?_, fun g hg hgs =>
        execFrame_stop_mono hmain he (hrest g hg hgs)⟩
      obtain hfs | hstop := silences_step he hf'
      · exact execFrame_stop_mono hmain he (hf hfs)
      · exact hstop
  | @ret c f rest w w' he =>
    rw [program_exec] at he
    obtain ⟨-, hrest⟩ := List.forall_mem_cons.mp ih
    have hmain : f.signal ≠ none := by
      cases (execFrame_cases he).2 with
      | interruptRet _ | childRet _ => rintro ⟨⟩
      | @stopRet caller _ _ _ hc => cases caller <;> first | exact absurd rfl hc | rintro ⟨⟩
    intro g hg hgs
    cases rest with
    | nil => cases hg
    | cons g' rest =>
      refine execFrame_stop_mono hmain he ?_
      obtain rfl | hg := List.mem_cons.mp hg
      · exact hrest g' List.mem_cons_self ((silences_resume g').mp hgs)
      · exact hrest g (List.mem_cons_of_mem _ hg) hgs
  | @handle sig f stack w w' _ he =>
    rw [MonitorSuspend.accept_run_data he]
    refine List.forall_mem_cons.mpr ⟨fun hf => ?_, ih⟩
    cases (accept_cases he).2.2
    cases sig <;> exact hf.elim
  | ignore _ he =>
    rw [MonitorSuspend.accept_run_data he]
    exact ih
  | env he =>
    rw [(env_outside he).stop]
    exact ih

def StartOk (w : World) (t : Itimer) : MonitorPc → Prop
  | .setStartTime time => w.run_data.timeout_time = 0 ∧ t.set ≤ time
  | .setTimeoutTime => w.run_data.timeout_time = 0 ∧ t.set ≤ w.run_data.start_time
  | .testStop | .sigsuspend | .suspended => t.set ≤ w.run_data.start_time
  | .ret => True
  | _ => w.run_data.timeout_time = 0

structure Started (s : State) (t : Itimer) : Prop where
  nonneg : 0 ≤ t.set
  clock : t.set ≤ s.world.clock
  main : ∀ pc, .do_monitor_work pc ∈ s.stack → StartOk s.world t pc

theorem StartOk.keeps {pc : MonitorPc} (h : StartOk w t pc) (hw : KeepsBaseline w w')
    (ht : t'.set = t.set) : StartOk w' t' pc := by
  unfold StartOk at h ⊢
  rw [hw.timeout_time, hw.start_time, ht]
  exact h

theorem execFrame_keeps {f : Frame} {c : Choice} {o : Option Frame} (hw : Clocked w)
    (hf : ∀ pc, f ≠ .do_monitor_work pc) (he : execFrame k f c w = some (w', o)) :
    KeepsBaseline w w' ∧ ∀ pc, o = some (.do_monitor_work pc) → pc = .ret := by
  cases (execFrame_cases he).2 with
  | main _ | mainStop _ => exact absurd rfl (hf _)
  | interrupt h | interruptStop h | interruptRet h =>
    exact ⟨(monitor_interrupt_keeps hw h).2, by rintro _ ⟨⟩⟩
  | child h | childRet h => exact ⟨(child_handler_elapses h).toKeepsBaseline, by rintro _ ⟨⟩⟩
  | stop h | stopRet h _ => exact ⟨(stop_handler_elapses h).toKeepsBaseline, by rintro _ ⟨⟩⟩
  | stopMainRet h =>
    refine ⟨(stop_handler_elapses h).toKeepsBaseline, ?_⟩
    rintro _ ⟨⟩
    rfl

theorem see_set_of_ne (h : ∀ c, e = .step c → s.stack.head? ≠ some (.do_monitor_work .setTimer)) :
    (t.see e s).set = t.set := by
  unfold Itimer.see
  split
  · rw [if_neg (h _ rfl)]
  · rfl
  · rfl

theorem startOk_of_goto {c : Choice} {pc pc' : MonitorPc} (h : StartOk w t pc)
    (hc : t.set ≤ w.clock) (he : do_monitor_work k c w pc = (w', .goto pc')) :
    StartOk w' (if pc = .setTimer then ⟨w.clock, 0⟩ else t) pc' := by
  cases do_monitor_work_cases he with
  | created ha | notCreated ha => cases ha <;> exact h
  | get_time => exact ⟨h, hc⟩
  | init_threads => rfl
  | setTimeoutTime => exact h.2
  | createFails | cloneFailed | ret => trivial
  | _ => exact h

theorem do_monitor_work_clock {c : Choice} {pc : MonitorPc} {n : MonitorNext}
    (he : do_monitor_work k c w pc = (w', n)) : w'.clock = w.clock := by
  cases do_monitor_work_cases he <;> rfl

theorem Started.keeps (h : Started s t) (hw : KeepsBaseline s.world s'.world)
    (ht : t'.set = t.set)
    (hm : ∀ pc, .do_monitor_work pc ∈ s'.stack → pc = .ret ∨ StartOk s.world t pc) :
    Started s' t' := by
  refine ⟨ht ▸ h.nonneg, ht ▸ h.clock.trans hw.clock, fun pc hpc => ?_⟩
  obtain rfl | hpc := hm pc hpc
  · trivial
  · exact hpc.keeps hw ht

theorem Started.main_step {c : Choice} {pc : MonitorPc} {f : Frame}
    (h : Started ⟨[.do_monitor_work pc], w⟩ t)
    (he : execFrame k (.do_monitor_work pc) c w = some (w', some f)) :
    Started ⟨[f], w'⟩ (if pc = .setTimer then ⟨w.clock, 0⟩ else t) := by
  have hset : 0 ≤ (if pc = .setTimer then ⟨w.clock, 0⟩ else t : Itimer).set ∧
      (if pc = .setTimer then ⟨w.clock, 0⟩ else t : Itimer).set ≤ w.clock := by
    split
    · exact ⟨h.nonneg.trans h.clock, le_rfl⟩
    · exact ⟨h.nonneg, h.clock⟩
  cases (execFrame_cases he).2 with
  | main hmain =>
    refine ⟨hset.1, (do_monitor_work_clock hmain).symm ▸ hset.2, fun pc' hpc' => ?_⟩
    cases List.mem_singleton.mp hpc'
    exact startOk_of_goto (h.main pc List.mem_cons_self) h.clock hmain
  | mainStop hmain =>
    refine ⟨hset.1, (do_monitor_work_clock hmain).symm ▸ hset.2, fun pc' hpc' => ?_⟩
    cases List.mem_singleton.mp hpc'

theorem Started.step {a : MonitorEvent × Unit} (h : Started s t) (hr : Reachable (wholeRun k) s)
    (hn : (timed k).next a (s, t) = some (s', t')) : Started s' t' := by
  obtain ⟨-, hstep, hsee⟩ := timed_next hn
  have hns := reachable_nested hr
  have hclock := (reachable_clock hr).world
  obtain ⟨e, u⟩ := a
  obtain rfl : t' = t.see e s := hsee
  have hresume {stack : List Frame} {pc : MonitorPc} (hs : ∀ pc, .do_monitor_work pc ∈ stack →
      StartOk s.world t pc) (hm : .do_monitor_work pc ∈ resumeTop (program k) stack) :
      StartOk s.world t pc := by
    obtain hm | ⟨⟨⟩, hsuspended⟩ := mem_or_suspended hm
    · exact hs pc hm
    · exact hs .suspended hsuspended
  cases hstep with
  | @goto c f f' rest w w' he =>
    rw [program_exec] at he
    by_cases hf : ∃ pc, f = .do_monitor_work pc
    · obtain ⟨pc, rfl⟩ := hf
      obtain rfl := hns.below rfl
      have ht : t.see (.step c) ⟨[.do_monitor_work pc], w⟩ =
          if pc = .setTimer then ⟨w.clock, 0⟩ else t := by simp [Itimer.see]
      rw [ht]
      exact h.main_step he
    · obtain ⟨hk, ho⟩ := execFrame_keeps hclock (not_exists.mp hf) he
      refine h.keeps hk (see_set_of_ne fun _ _ heq => hf ⟨_, Option.some.inj heq⟩) fun pc hpc => ?_
      obtain rfl | hpc := List.mem_cons.mp hpc
      · exact .inl (ho pc rfl)
      · exact .inr (h.main pc (List.mem_cons_of_mem _ hpc))
  | @ret c f rest w w' he =>
    rw [program_exec] at he
    have hf : ¬ ∃ pc, f = .do_monitor_work pc := by
      rintro ⟨pc, rfl⟩
      cases (execFrame_cases he).2
    obtain ⟨hk, -⟩ := execFrame_keeps hclock (not_exists.mp hf) he
    refine h.keeps hk (see_set_of_ne fun _ _ heq => hf ⟨_, Option.some.inj heq⟩) fun pc hpc => ?_
    exact .inr (hresume (fun pc hm => h.main pc (List.mem_cons_of_mem _ hm)) hpc)
  | @handle sig f stack w w' _ he =>
    refine h.keeps (accept_elapses he).toKeepsBaseline (see_set_of_ne (by rintro _ ⟨⟩))
      fun pc hpc => ?_
    obtain rfl | hpc := List.mem_cons.mp hpc
    · cases accept_signal _ _ _ _ he
    · exact .inr (h.main pc hpc)
  | ignore _ he =>
    exact h.keeps (accept_elapses he).toKeepsBaseline (see_set_of_ne (by rintro _ ⟨⟩))
      fun pc hpc => .inr (h.main pc hpc)
  | env he =>
    exact h.keeps (env_elapses he).toKeepsBaseline (see_set_of_ne (by rintro _ ⟨⟩))
      fun pc hpc => .inr (h.main pc hpc)

theorem reachable_started (h : Reachable (timed k) (s, t)) : Started s t := by
  refine h.induct (I := fun p => Started p.1 p.2) (fun p hp => ?_) fun p a q hr hs hn => ?_
  · have hp : p.1 = boot ∧ p.2 = ⟨0, 0⟩ := hp
    obtain ⟨h1, h2⟩ := hp
    rw [h1, h2]
    exact ⟨le_rfl, le_rfl, by simp [boot, StartOk]⟩
  · exact hs.step (reachable_of_timed hr) hn

theorem do_monitor_work_timer {c : Choice} {pc : MonitorPc} {n : MonitorNext} (hk : NoUpdates k)
    (hpc : pc ≠ .setTimer) (he : do_monitor_work k c w pc = (w', n)) :
    w'.timer = w.timer ∧ n ≠ .goto .setTimer := by
  cases do_monitor_work_cases he with
  | setAlarmHandler hno => exact absurd hk hno
  | setTimer => exact absurd rfl hpc
  | created ha | notCreated ha => cases ha <;> exact ⟨rfl, by rintro ⟨⟩⟩
  | _ => exact ⟨rfl, by rintro ⟨⟩⟩

theorem timer_invariant (hk : NoUpdates k) : LocalInvariant (program k) (fun _ _ => True)
    (fun w => w.timer = false) (fun _ f => f ≠ .do_monitor_work .setTimer) where
  exec {f c w w' o} _ hw hf he := by
    have hcalm (hc : Calm w w') : w'.timer = false := by
      rw [← Bool.not_eq_true] at hw ⊢
      exact fun ht => hw (hc.timer ht)
    rw [program_exec] at he
    cases (execFrame_cases he).2 with
    | @main pc _ _ h =>
      obtain ⟨ht, hn⟩ := do_monitor_work_timer hk (fun hpc => hf (hpc ▸ rfl)) h
      exact ⟨ht.trans hw, by rintro _ ⟨⟩ heq; exact hn (congrArg _ (Frame.do_monitor_work.inj heq)),
        fun _ _ => id⟩
    | @mainStop pc _ h =>
      obtain ⟨ht, -⟩ := do_monitor_work_timer hk (fun hpc => hf (hpc ▸ rfl)) h
      exact ⟨ht.trans hw, by rintro _ ⟨⟩ ⟨⟩, fun _ _ => id⟩
    | interrupt h | interruptStop h | interruptRet h =>
      exact ⟨hcalm (monitor_interrupt_calm h), by rintro _ ⟨⟩ ⟨⟩, fun _ _ => id⟩
    | child h | childRet h =>
      exact ⟨hcalm (child_handler_calm h), by rintro _ ⟨⟩ ⟨⟩, fun _ _ => id⟩
    | stop h | stopRet h _ | stopMainRet h =>
      exact ⟨hcalm (stop_handler_calm h), by rintro _ ⟨⟩ ⟨⟩, fun _ _ => id⟩
  accept {sig w w' o} hw he := by
    refine ⟨?_, fun f hf => ?_, fun _ => id⟩
    · cases (accept_cases he).2.2 <;> exact hw
    · subst hf
      rintro rfl
      cases accept_signal _ _ _ _ he
  resume {w f} hf := by
    rw [program_resume]
    unfold resume
    split
    · rintro ⟨⟩
    · exact hf
  env hw he := ⟨(env_outside he).timer.trans hw, fun _ => id⟩

theorem timer_off (hk : NoUpdates k) (h : Reachable (wholeRun k) s) : s.world.timer = false :=
  ((timer_invariant hk).reachable (fun s hs => by
    subst hs
    exact ⟨List.nodup_singleton _, rfl, by simp [boot]⟩) h).world

end PingPong.MonitorTimer
