import Mathlib.Algebra.Order.Ring.Rat
import PingPong.MonitorClock
import PingPong.MonitorInterrupt
import PingPong.MonitorStart
import PingPong.MonitorSuspend

namespace PingPong.MonitorTimeout

open MonitorState MonitorProgram MonitorFrame MonitorBarrier MonitorNesting MonitorReport
open MonitorReady MonitorClock MonitorInterrupt Activation TransitionSystem

variable {k : Setting} {s t : State} {w w' : World} {i : Worker}

theorem do_monitor_work_interrupt {c : Choice} {pc : MonitorPc} {n : MonitorNext}
    (h : do_monitor_work k c w pc = (w', n)) : w'.interrupt = w.interrupt := by
  cases do_monitor_work_cases h <;> rfl

theorem execFrame_interrupt {f : Frame} {c : Choice} {o : Option Frame}
    (he : execFrame k f c w = some (w', o)) (hi : w'.interrupt i = true) :
    w.interrupt i = true ∨ Entered f := by
  cases (execFrame_cases he).2 with
  | main h | mainStop h => exact .inl (do_monitor_work_interrupt h ▸ hi)
  | interrupt h | interruptStop h | interruptRet h =>
    exact .inl ((monitor_interrupt_still h).interrupt ▸ hi)
  | child h | childRet h => exact .inl ((child_handler_still h).interrupt ▸ hi)
  | @stop caller pc _ _ h | @stopRet caller pc _ h _ | @stopMainRet pc _ h =>
    by_cases hpc : pc = .testVisited ∨ pc = .visit
    · obtain ⟨rfl, -⟩ := Prod.mk.inj h
      obtain rfl | rfl := hpc <;> exact .inl hi
    · obtain ⟨h1, h2⟩ := not_or.mp hpc
      exact .inr ⟨h1, h2⟩

theorem env_interrupt {e : EnvEvent} (h : env k w e = some w') (hi : w'.interrupt i = true) :
    w.interrupt i = true := by
  cases env_cases h with
  | @work _ pc _ => cases pc <;> exact hi
  | @interrupt j pc _ hj =>
    have hint : (interrupt_thread k j pc w).interrupt = Function.update w.interrupt j false := by
      generalize hv : interrupt_thread k j pc w = v
      cases interrupt_thread_cases hv <;> rfl
    by_cases hij : i = j
    · exact hij ▸ hj
    · rw [hint, Function.update_of_ne hij] at hi
      exact hi
  | tick _ | sigint | exit _ _ | die _ _ | untold _ | stopOrContinue _ | pass _ => exact hi

theorem reachable_nested (h : Reachable (wholeRun k) s) : Nested s := by
  refine h.invariant (I := Nested) (fun t ht => ?_) fun s e t hs hn => hs.step hn
  subst ht
  exact nested_boot

/-- A worker is interrupted by a `stop_handler` only, which does not return. -/
theorem interrupted_visited (h : Reachable (wholeRun k) s) (hi : s.world.interrupt i = true) :
    s.world.visited ≠ 0 := by
  refine h.induct (I := fun s => s.world.interrupt i = true → s.world.visited ≠ 0)
    (fun t ht => ?_) (fun s e t hr hs hn hi => ?_) hi
  · subst ht
    rintro ⟨⟩
  · cases next_cases hn with
    | goto he | ret he =>
      refine (execFrame_progress he).visited ?_
      obtain hi | hf := execFrame_interrupt he hi
      · exact hs hi
      · exact (reachable_nested hr).entered.mpr ⟨_, List.mem_cons_self, hf⟩
    | handle _ he | ignore _ he =>
      rw [accept_visited he]
      exact hs ((accept_still he).interrupt ▸ hi)
    | env he =>
      rw [(env_outside he).visited]
      exact hs (env_interrupt he hi)

theorem reachable_counted (h : Reachable (wholeRun k) s) : Counted s := by
  refine h.induct (fun t ht => ?_) fun s e t hr hs hn => ?_
  · subst ht
    exact fun _ => .inl ⟨rfl, by simp [boot, Ticking]⟩
  · exact hs.step (reachable_clock hr).distinct (next_cases hn)

/-- The main program is in its main loop with no handler above it, nobody has asked
it to stop, and no worker has terminated. -/
structure Looping (k : Setting) (s : State) : Prop where
  reachable : Reachable (wholeRun k) s
  stack : ∃ pc, s.stack = [.do_monitor_work pc] ∧ InLoop (.do_monitor_work pc)
  stop : s.world.run_data.stop = false
  worker : ∀ i, ¬ (s.world.worker i).Terminated

def Undisturbed : MonitorEvent → State → Prop
  | .deliver sig, _ => sig ≠ .sigint
  | .env e, _ => ∀ i, e ≠ .die i
  | .step _, _ => True

instance : ∀ (e : MonitorEvent) (s : State), Decidable (Undisturbed e s)
  | .deliver _, _ => inferInstanceAs (Decidable (_ ≠ _))
  | .env _, _ => inferInstanceAs (Decidable (∀ _, _ ≠ _))
  | .step _, _ => .isTrue trivial

/-- The runs of the monitor from there that nothing but the timer disturbs. -/
def ticks (k : Setting) : System State MonitorEvent :=
  restrict (system (program k) (Looping k)) Undisturbed

theorem reachable_of_ticks (h : Reachable (ticks k) s) : Reachable (wholeRun k) s := by
  refine h.invariant (I := Reachable (wholeRun k)) (fun s hs => ?_) fun s e t hs hn => ?_
  · have hl : Looping k s := hs
    exact hl.reachable
  · exact hs.next (restrict_next.mp hn).2

def TickOk (w : World) : Frame → Prop
  | .monitor_interrupt (.loadPid _) | .monitor_interrupt (.wait4 _ _)
  | .monitor_interrupt .testStop | .monitor_interrupt .storeTime =>
    w.run_data.start_time ≤ w.i_stats_time
  | .monitor_interrupt .testTimeout =>
    w.run_data.start_time ≤ w.i_stats_time ∧ w.run_data.last_stats_time = w.i_stats_time
  | .monitor_interrupt .leave =>
    w.run_data.start_time ≤ w.i_stats_time ∧ w.i_stats_time < w.run_data.timeout_time
  | .child_handler pc =>
    pc = .waitpid ∨ pc = .comparePing 0 ∨ pc = .comparePong 0 ∨ pc = .compareZero 0
  | _ => True

/-- The main loop runs, and every handler above it finds nothing to stop for. -/
structure Running (s : State) : Prop where
  loop : ∃ pc, .do_monitor_work pc ∈ s.stack ∧ InLoop (.do_monitor_work pc)
  stop : s.world.run_data.stop = false
  worker : ∀ i, s.world.worker i ≠ .zombie
  frame : ∀ f ∈ s.stack, TickOk s.world f

/-- Only `monitor_interrupt` has called `stop_handler`, and until it does the monitor
runs. -/
structure Timed (s : State) : Prop where
  caller : ∀ caller pc, .stop_handler caller pc ∈ s.stack → caller = .sigalrm
  running : ¬ Stopping s → Running s

theorem TickOk.elapses {f : Frame} (h : TickOk w f) (he : Elapses w w') : TickOk w' f := by
  unfold TickOk at h ⊢
  rw [he.start_time, he.i_stats_time, he.last_stats_time, he.timeout_time]
  exact h

theorem wait_of_no_zombie (k : Setting) (who : Reaper) (first : Worker) (arg : Int)
    (h : ∀ i, w.worker i ≠ .zombie) :
    w.wait k who first arg = (w, 0) ∨ w.wait k who first arg = (w, -1) := by
  obtain ⟨i, -, hz, -⟩ | ⟨-, hw⟩ := w.wait_cases k who first arg
  · exact absurd hz (h i)
  · exact hw

theorem child_handler_idle {c : Choice} {pc : ChildPc} {o : Option ChildPc}
    (hz : ∀ i, w.worker i ≠ .zombie) (hp : ∀ i, w.run_data.pid i ≠ 0)
    (hf : TickOk w (.child_handler pc)) (h : child_handler k c w pc = (w', o)) :
    w' = w ∧ ∀ pc', o = some pc' → TickOk w (.child_handler pc') := by
  obtain rfl | rfl | rfl | rfl := hf
  · cases child_handler_cases h with
    | reaps _ hzombie => exact absurd hzombie (hz _)
    | nobody _ =>
      refine ⟨rfl, ?_⟩
      rintro _ ⟨⟩
      exact .inr (.inl rfl)
    | childless _ => exact ⟨rfl, by rintro _ ⟨⟩⟩
  · cases child_handler_cases h with
    | isPing hpid => exact absurd hpid.symm (hp .ping)
    | notPing _ =>
      refine ⟨rfl, ?_⟩
      rintro _ ⟨⟩
      exact .inr (.inr (.inl rfl))
  · cases child_handler_cases h with
    | isPong hpid => exact absurd hpid.symm (hp .pong)
    | notPong _ =>
      refine ⟨rfl, ?_⟩
      rintro _ ⟨⟩
      exact .inr (.inr (.inr rfl))
  · cases child_handler_cases h with
    | finished => exact ⟨rfl, by rintro _ ⟨⟩⟩
    | again hne => exact absurd rfl hne

theorem monitor_interrupt_tick {c : Choice} {pc pc' : InterruptPc} (hw : Clocked w)
    (hb : Baseline k w) (hs : w.run_data.stop = false) (hf : TickOk w (.monitor_interrupt pc))
    (h : monitor_interrupt k c w pc = (w', .goto pc')) : TickOk w' (.monitor_interrupt pc') := by
  cases monitor_interrupt_cases h with
  | free _ | enter | notRequested _ => trivial
  | requested hrequested => exact absurd (hrequested.symm.trans hw.progress) (by decide)
  | gatherTime => exact hb.start_time
  | loadPid | waitPing _ | waitPong _ | goesOn _ => exact hf
  | stops hstop => exact absurd (hstop.symm.trans hs) (by decide)
  | storeTime => exact ⟨hf, rfl⟩
  | notReached hlt => exact ⟨hf.1, hf.2 ▸ not_le.mp hlt⟩

theorem monitor_interrupt_worker {c : Choice} {pc : InterruptPc} {n : InterruptNext}
    (hz : ∀ i, w.worker i ≠ .zombie) (h : monitor_interrupt k c w pc = (w', n)) :
    w'.worker = w.worker := by
  obtain rfl : (monitor_interrupt k c w pc).1 = w' := by rw [h]
  cases pc with
  | wait4 i pid =>
    obtain hw | hw := wait_of_no_zombie k .gather_periodic_stats c.first pid hz <;>
      simp only [monitor_interrupt, hw]
  | _ => rfl

theorem do_monitor_work_loop {c : Choice} {pc : MonitorPc} {n : MonitorNext}
    (hl : InLoop (.do_monitor_work pc)) (hs : w.run_data.stop = false)
    (h : do_monitor_work k c w pc = (w', n)) :
    w' = w ∧ n ≠ .stop_handler ∧ ∀ pc', n = .goto pc' → InLoop (.do_monitor_work pc') := by
  cases do_monitor_work_cases h with
  | stops hs' => exact absurd (hs'.symm.trans hs) (by decide)
  | goesOn _ | sigsuspend => exact ⟨rfl, by rintro ⟨⟩, by rintro _ ⟨⟩; trivial⟩
  | suspended => exact ⟨rfl, by rintro ⟨⟩, by rintro _ ⟨⟩⟩
  | _ => exact hl.elim

theorem env_zombie {e : EnvEvent} (hd : ∀ i, e ≠ .die i) (hi : ∀ i, w.interrupt i = false)
    (hz : ∀ i, w.worker i ≠ .zombie) (h : env k w e = some w') : ∀ i, w'.worker i ≠ .zombie := by
  cases env_cases h with
  | @work i pc hpc =>
    intro j
    obtain ⟨pc', hw, -⟩ := MonitorStart.do_thread_work_worker k i w pc hpc
    rw [hw]
    by_cases hji : j = i
    · subst j
      simp
    · rw [Function.update_of_ne hji]
      exact hz j
  | exit _ _ | die _ _ => exact absurd rfl (hd _)
  | interrupt _ hint => exact absurd ((hi _).symm.trans hint) (by decide)
  | tick _ | sigint | untold _ | stopOrContinue _ | pass _ => exact hz

theorem inLoop_resumeTop {stack : List Frame}
    (h : ∃ pc, .do_monitor_work pc ∈ stack ∧ InLoop (.do_monitor_work pc)) :
    ∃ pc, .do_monitor_work pc ∈ resumeTop (program k) stack ∧ InLoop (.do_monitor_work pc) := by
  obtain ⟨pc, hm, hl⟩ := h
  cases stack with
  | nil => cases hm
  | cons f rest =>
    obtain rfl | hm := List.mem_cons.mp hm
    · cases pc with
      | suspended => exact ⟨.testStop, List.mem_cons_self, trivial⟩
      | testStop | sigsuspend => exact ⟨_, List.mem_cons_self, hl⟩
      | _ => exact hl.elim
    · exact ⟨pc, List.mem_cons_of_mem _ hm, hl⟩

theorem tickOk_resumeTop {stack : List Frame} (h : ∀ f ∈ stack, TickOk w f) :
    ∀ f ∈ resumeTop (program k) stack, TickOk w f := by
  refine forall_mem_resumeTop (fun f hf => ?_) h
  rw [program_resume]
  unfold resume
  split
  · trivial
  · exact hf

theorem TickOk.of_ne {f : Frame} (h : TickOk w f) (hf : f.signal ≠ some .sigalrm) :
    TickOk w' f := by
  cases f with
  | monitor_interrupt _ => exact absurd rfl hf
  | child_handler _ => exact h
  | do_monitor_work _ | stop_handler _ _ => trivial

structure Kept (w w' : World) (rest : List Frame) (o : Option Frame) : Prop where
  stop : w'.run_data.stop = false
  worker : ∀ i, w'.worker i ≠ .zombie
  top : ∀ f, o = some f → TickOk w' f
  rest : ∀ f ∈ rest, TickOk w' f

theorem Running.handler {f : Frame} {rest : List Frame} {c : Choice} {o : Option Frame}
    (h : Running ⟨f :: rest, w⟩) (hw : Clocked w) (hb : Baseline k w)
    (hp : ∀ i, w.run_data.pid i ≠ 0) (hd : Distinct (program k) (f :: rest))
    (hf : f.signal ≠ none) (hs : ¬ Stopping ⟨f :: rest, w⟩)
    (he : execFrame k f c w = some (w', o)) (ho : ∀ caller pc, o ≠ some (.stop_handler caller pc)) :
    Kept w w' rest o := by
  obtain ⟨hf0, hrest⟩ := List.forall_mem_cons.mp h.frame
  have hbelow (hsig : f.signal = some .sigalrm) : ∀ g ∈ rest, TickOk w' g := fun g hg =>
    (hrest g hg).of_ne fun hg' => hd.tail_ne hg (hg'.trans hsig.symm)
  have hinterrupt {pc : InterruptPc} {n : InterruptNext}
      (hm : monitor_interrupt k c w pc = (w', n)) :
      w'.run_data.stop = false ∧ ∀ i, w'.worker i ≠ .zombie := by
    refine ⟨(MonitorSuspend.monitor_interrupt_stop hm).trans h.stop, fun i => ?_⟩
    rw [monitor_interrupt_worker h.worker hm]
    exact h.worker i
  cases (execFrame_cases he).2 with
  | main _ | mainStop _ => exact absurd rfl hf
  | stop _ | interruptStop _ => exact absurd rfl (ho _ _)
  | stopRet _ _ | stopMainRet _ => exact absurd ⟨_, _, List.mem_cons_self⟩ hs
  | interrupt hm =>
    obtain ⟨hstop, hz⟩ := hinterrupt hm
    refine ⟨hstop, hz, ?_, hbelow rfl⟩
    rintro _ ⟨⟩
    exact monitor_interrupt_tick hw hb h.stop hf0 hm
  | interruptRet hm =>
    obtain ⟨hstop, hz⟩ := hinterrupt hm
    exact ⟨hstop, hz, by rintro _ ⟨⟩, hbelow rfl⟩
  | child hm =>
    obtain ⟨rfl, hn⟩ := child_handler_idle h.worker hp hf0 hm
    refine ⟨h.stop, h.worker, ?_, hrest⟩
    rintro _ ⟨⟩
    exact hn _ rfl
  | childRet hm =>
    obtain ⟨rfl, -⟩ := child_handler_idle h.worker hp hf0 hm
    exact ⟨h.stop, h.worker, by rintro _ ⟨⟩, hrest⟩

theorem Running.baseline (h : Running s) (hr : Reachable (wholeRun k) s) : Baseline k s.world := by
  obtain ⟨pc, hm, hl⟩ := h.loop
  exact ((reachable_clock hr).frame _ hm).baseline hl

theorem Running.pid (h : Running s) (hr : Reachable (wholeRun k) s) (i : Worker) :
    s.world.run_data.pid i ≠ 0 := by
  have hb := (MonitorStart.reachable_barrier hr).world
  exact hb.ready i (hb.start (h.baseline hr).start i)

theorem not_entered_of_not_stopping (h : ¬ Stopping s) : ∀ f ∈ s.stack, ¬ Entered f := by
  intro f hf he
  cases f with
  | stop_handler caller pc => exact h ⟨caller, pc, hf⟩
  | _ => exact he

theorem visited_of_not_stopping (hn : Nested s) (h : ¬ Stopping s) : s.world.visited = 0 := by
  by_contra hv
  obtain ⟨f, hf, he⟩ := hn.entered.mp hv
  exact not_entered_of_not_stopping h f hf he

theorem Timed.main {c : Choice} {pc : MonitorPc} {n : MonitorNext}
    (h : Timed ⟨[.do_monitor_work pc], w⟩) (he : do_monitor_work k c w pc = (w', n)) :
    w' = w ∧ n ≠ .stop_handler ∧ ∀ pc', n = .goto pc' → InLoop (.do_monitor_work pc') := by
  have hs : ¬ Stopping ⟨[.do_monitor_work pc], w⟩ := by
    rintro ⟨caller, p, hm⟩
    cases List.mem_singleton.mp hm
  have hr := h.running hs
  obtain ⟨p, hm, hl⟩ := hr.loop
  cases List.mem_singleton.mp hm
  exact do_monitor_work_loop hl hr.stop he

theorem Timed.caller_step {e : MonitorEvent} (h : Timed s) (hns : Nested s) (hok : Undisturbed e s)
    (hn : Step (program k) e s t) (caller : Caller) (pc : StopPc)
    (hm : .stop_handler caller pc ∈ t.stack) : caller = .sigalrm := by
  cases hn with
  | @goto c f f' rest w w' he =>
    obtain rfl | hm := List.mem_cons.mp hm
    · cases (execFrame_cases he).2 with
      | mainStop hmain =>
        obtain rfl := hns.below rfl
        exact absurd rfl (h.main hmain).2.1
      | interruptStop _ => rfl
      | stop _ => exact h.caller _ _ List.mem_cons_self
    · exact h.caller _ _ (List.mem_cons_of_mem _ hm)
  | ret _ => exact h.caller _ _ (List.mem_cons_of_mem _ ((mem_or_suspended hm).resolve_right nofun))
  | @handle sig f stack w w' _ he =>
    obtain rfl | hm := List.mem_cons.mp hm
    · obtain ⟨-, -, hdel⟩ := accept_cases he
      cases sig with
      | sigint => exact absurd rfl hok
      | sigalrm | sigchld => cases hdel
    · exact h.caller _ _ hm
  | ignore _ _ | env _ => exact h.caller _ _ hm

theorem Running.of_kept {f' : Frame} {f : Frame} {rest : List Frame} (h : Running ⟨f :: rest, w⟩)
    (hf : f.signal ≠ none) (hk : Kept w w' rest (some f')) : Running ⟨f' :: rest, w'⟩ := by
  obtain ⟨pc, hm, hl⟩ := h.loop
  refine ⟨⟨pc, ?_, hl⟩, hk.stop, hk.worker, List.forall_mem_cons.mpr ⟨hk.top _ rfl, hk.rest⟩⟩
  obtain rfl | hm := List.mem_cons.mp hm
  · exact absurd rfl hf
  · exact List.mem_cons_of_mem _ hm

theorem Running.of_kept_ret {f : Frame} {rest : List Frame} (h : Running ⟨f :: rest, w⟩)
    (hf : f.signal ≠ none) (hk : Kept w w' rest none) :
    Running ⟨resumeTop (program k) rest, w'⟩ := by
  obtain ⟨pc, hm, hl⟩ := h.loop
  refine ⟨inLoop_resumeTop ⟨pc, ?_, hl⟩, hk.stop, hk.worker, tickOk_resumeTop hk.rest⟩
  obtain rfl | hm := List.mem_cons.mp hm
  · exact absurd rfl hf
  · exact hm

theorem Timed.running_step {e : MonitorEvent} (h : Timed s) (hr : Reachable (wholeRun k) s)
    (hok : Undisturbed e s) (hn : Step (program k) e s t) (hst : ¬ Stopping t) : Running t := by
  have hns := reachable_nested hr
  have hclock := reachable_clock hr
  have hss : ¬ Stopping s := fun hs => hst (stopping_step hs hns hn)
  have hrun := h.running hss
  have hb := hrun.baseline hr
  have hp := hrun.pid hr
  cases hn with
  | @goto c f f' rest w w' he =>
    rw [program_exec] at he
    by_cases hf : f.signal = none
    · obtain rfl := hns.below hf
      cases (execFrame_cases he).2 with
      | main hmain =>
        obtain ⟨rfl, -, hl⟩ := h.main hmain
        exact ⟨⟨_, List.mem_cons_self, hl _ rfl⟩, hrun.stop, hrun.worker, by simp [TickOk]⟩
      | mainStop _ => exact absurd ⟨_, _, List.mem_cons_self⟩ hst
      | stop _ | stopMainRet _ => exact absurd ⟨_, _, List.mem_cons_self⟩ hss
      | interrupt _ | interruptStop _ | child _ => cases hf
    · refine hrun.of_kept hf (hrun.handler hclock.world hb hp hclock.distinct hf hss he ?_)
      rintro caller pc ⟨⟩
      exact hst ⟨caller, pc, List.mem_cons_self⟩
  | @ret c f rest w w' he =>
    rw [program_exec] at he
    have hf : f.signal ≠ none := by
      cases (execFrame_cases he).2 with
      | interruptRet _ | childRet _ => rintro ⟨⟩
      | stopRet _ _ => exact absurd ⟨_, _, List.mem_cons_self⟩ hss
    exact hrun.of_kept_ret hf (hrun.handler hclock.world hb hp hclock.distinct hf hss he
      (by rintro _ _ ⟨⟩))
  | @handle sig f stack w w' _ he =>
    have hel := accept_elapses he
    have hw : w'.worker = w.worker := by
      cases (accept_cases he).2.2
      rfl
    have hf : TickOk w' f := by
      obtain ⟨-, -, hdel⟩ := accept_cases he
      cases hdel
      cases sig with
      | sigint | sigalrm => trivial
      | sigchld => exact .inl rfl
    obtain ⟨pc, hm, hl⟩ := hrun.loop
    refine ⟨⟨pc, List.mem_cons_of_mem _ hm, hl⟩, ?_, fun i => hw ▸ hrun.worker i, ?_⟩
    · rw [MonitorSuspend.accept_run_data he]
      exact hrun.stop
    · exact List.forall_mem_cons.mpr ⟨hf, fun g hg => (hrun.frame g hg).elapses hel⟩
  | @ignore sig stack w w' _ he =>
    have hel := accept_elapses he
    have hw : w'.worker = w.worker := by cases (accept_cases he).2.2 <;> rfl
    refine ⟨hrun.loop, ?_, fun i => hw ▸ hrun.worker i, fun g hg => (hrun.frame g hg).elapses hel⟩
    rw [MonitorSuspend.accept_run_data he]
    exact hrun.stop
  | @env e stack w w' he =>
    have he : MonitorProgram.env k w e = some w' := he
    have hi : ∀ i, w.interrupt i = false := fun i => by
      by_contra hi
      exact interrupted_visited hr (by simpa using hi) (visited_of_not_stopping hns hss)
    refine ⟨hrun.loop, (env_outside he).stop.trans hrun.stop, env_zombie hok hi hrun.worker he, ?_⟩
    exact fun g hg => (hrun.frame g hg).elapses (env_elapses he)

theorem Looping.timed (h : Looping k s) : Timed s := by
  obtain ⟨pc, hst, hl⟩ := h.stack
  refine ⟨fun caller p hm => ?_, fun _ => ⟨⟨pc, by simp [hst], hl⟩, h.stop, fun i hz => ?_, ?_⟩⟩
  · rw [hst] at hm
    cases List.mem_singleton.mp hm
  · exact h.worker i (by rw [hz]; trivial)
  · simp [hst, TickOk]

theorem reachable_timed (h : Reachable (ticks k) s) : Timed s := by
  refine h.induct (fun s hs => ?_) fun s e t hr hs hn => ?_
  · have hl : Looping k s := hs
    exact hl.timed
  · obtain ⟨hok, hn⟩ := restrict_next.mp hn
    have hw := reachable_of_ticks hr
    have hstep := next_cases hn
    exact ⟨hs.caller_step (reachable_nested hw) hok hstep, hs.running_step hw hok hstep⟩

def Enters (s : State) : Prop :=
  s.stack = [.do_monitor_work .testStop] ∧ s.world.run_data.stop = false ∧
    ∀ i, ¬ (s.world.worker i).Terminated

instance : DecidablePred Enters := fun _ => inferInstanceAs (Decidable (_ ∧ _ ∧ _))

theorem exists_tick {p : State → Prop} [DecidablePred p] (start tr : List MonitorEvent)
    (h : (exec (wholeRun k).next start boot).any (fun s => decide (Enters s ∧
      (exec (ticks k).next tr s).any (p ·) = true)) = true) : ∃ s, Reachable (ticks k) s ∧ p s := by
  obtain ⟨s, hs, ⟨hst, hstop, hw⟩, ht⟩ := exists_reachable_of_exec (S := wholeRun k)
    (p := fun s => Enters s ∧ (exec (ticks k).next tr s).any (p ·) = true) rfl start h
  have hl : Looping k s := ⟨hs, ⟨.testStop, hst, trivial⟩, hstop, hw⟩
  obtain ⟨t, ht, hp⟩ := (Option.any_eq_true _ _).mp ht
  exact ⟨t, reachable_of_exec hl ht, of_decide_eq_true hp⟩

def tickAtTen : List MonitorEvent :=
  [.env (.pass 10), .env .tick, .deliver .sigalrm] ++ .replicate 10 (.step {})

def indefinitely : Setting := { Setting.ofModes .fork .tcp with runtime := 0 }

end PingPong.MonitorTimeout
