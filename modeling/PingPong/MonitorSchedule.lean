import PingPong.MonitorTimer

namespace PingPong.MonitorSchedule

open MonitorState MonitorProgram MonitorFrame MonitorNesting MonitorReport MonitorReady
open MonitorClock MonitorInterrupt MonitorTimeout MonitorTimer Activation TransitionSystem

variable {k : Setting} {s s' : State} {t t' : Itimer} {w w' : World}

def Told (s : State) : Prop :=
  s.world.run_data.stop = true ∨ Stopping s ∨ s.world.exited = true

def Armed : MonitorPc → Prop
  | .setStart | .comm_begin | .get_time | .setStartTime _ | .setTimeoutTime
  | .testStop | .sigsuspend | .suspended => True
  | _ => False

/-- An activation of `monitor_interrupt` that has to find the deadline reached. -/
def Due (w : World) : InterruptPc → Prop
  | .loadPid _ | .wait4 _ _ | .testStop | .storeTime => w.run_data.timeout_time ≤ w.i_stats_time
  | .testTimeout => w.run_data.timeout_time ≤ w.run_data.last_stats_time
  | .leave => False
  | _ => True

def Checking (s : State) : Prop := ∃ pc, .monitor_interrupt pc ∈ s.stack ∧ Due s.world pc

/-- The timer runs, has expired whenever it was due, and once it has expired after the
deadline this is going to be noticed. -/
structure OnSchedule (k : Setting) (s : State) (t : Itimer) : Prop where
  timer : s.world.timer = true
  handler : s.world.disposition .sigalrm = .handler
  begun : t.set + t.expiries * period k ≤ s.world.clock
  due : s.world.clock ≤ t.due k
  check : t.expiries ≠ 0 → s.world.run_data.timeout_time ≤ t.set + t.expiries * period k →
    s.world.pending .sigalrm = true ∨ Checking s

structure Untimed (w w' : World) : Prop where
  timer : w'.timer = w.timer
  handler : w'.disposition .sigalrm = w.disposition .sigalrm
  pending : w.pending .sigalrm = true → w'.pending .sigalrm = true
  clock : w'.clock = w.clock
  timeout_time : w'.run_data.timeout_time = w.run_data.timeout_time

theorem Due.elapses {pc : InterruptPc} (h : Due w pc) (hw : Elapses w w') : Due w' pc := by
  unfold Due at h ⊢
  rw [hw.i_stats_time, hw.last_stats_time, hw.timeout_time]
  exact h

theorem Checking.elapses (h : Checking s) (hw : Elapses s.world s'.world)
    (hm : ∀ pc, .monitor_interrupt pc ∈ s.stack → .monitor_interrupt pc ∈ s'.stack) :
    Checking s' := by
  obtain ⟨pc, hpc, hd⟩ := h
  exact ⟨pc, hm pc hpc, hd.elapses hw⟩

theorem OnSchedule.untimed (h : OnSchedule k s t) (hw : Untimed s.world s'.world)
    (hc : Checking s → s'.world.pending .sigalrm = true ∨ Checking s') : OnSchedule k s' t where
  timer := hw.timer.trans h.timer
  handler := hw.handler.trans h.handler
  begun := hw.clock ▸ h.begun
  due := hw.clock ▸ h.due
  check hne hle := by
    obtain hp | hch := h.check hne (hw.timeout_time ▸ hle)
    · exact .inl (hw.pending hp)
    · exact hc hch

theorem raise_pending {sig : Signal} (h : w.pending .sigalrm = true) :
    (w.raise sig).pending .sigalrm = true := by
  simp only [World.raise_pending]
  split
  · exact h
  · by_cases hs : sig = .sigalrm
    · simp [hs]
    · rw [Function.update_of_ne (Ne.symm hs)]
      exact h

theorem env_untimed {e : EnvEvent} (he : env k w e = some w') (ht : ∀ time, e ≠ .pass time) :
    Untimed w w' := by
  have ho := env_outside he
  have hk := env_elapses he
  refine ⟨ho.timer, congrFun ho.disposition _, ?_, ?_, hk.timeout_time⟩
  · intro hp
    cases env_cases he with
    | tick _ | sigint | stopOrContinue _ | die _ _ => exact raise_pending hp
    | @work _ pc _ => cases pc <;> exact hp
    | @interrupt i pc _ _ =>
      generalize hv : interrupt_thread k i pc w = v
      cases interrupt_thread_cases hv with
      | ret _ | finish _ _ _ => exact hp
      | die _ _ => exact raise_pending hp
    | exit _ _ | untold _ | pass _ => exact hp
  · cases env_cases he with
    | @work _ pc _ => cases pc <;> rfl
    | @interrupt i pc _ _ =>
      generalize hv : interrupt_thread k i pc w = v
      cases interrupt_thread_cases hv <;> rfl
    | pass _ => exact absurd rfl (ht _)
    | _ => rfl

theorem accept_untimed {sig : Signal} {o : Option Frame} (hs : sig ≠ .sigalrm)
    (he : accept sig w = some (w', o)) : Untimed w w' := by
  have hp (hp : w.pending .sigalrm = true) : (w.setPending sig false).pending .sigalrm = true := by
    rw [World.setPending_pending, Function.update_of_ne (Ne.symm hs)]
    exact hp
  cases (accept_cases he).2.2 with
  | handled _ | ignored _ => exact ⟨rfl, rfl, hp, rfl, rfl⟩
  | killed _ _ => exact ⟨rfl, rfl, id, rfl, rfl⟩

theorem monitor_interrupt_untimed {c : Choice} {pc : InterruptPc} {n : InterruptNext}
    (he : monitor_interrupt k c w pc = (w', n)) : Untimed w w' := by
  obtain ⟨_, _, _, _, rfl, -⟩ := monitor_interrupt_frame he
  exact ⟨rfl, rfl, id, rfl, rfl⟩

theorem child_handler_untimed {c : Choice} {pc : ChildPc} {o : Option ChildPc}
    (hpc : ¬ Silences (.child_handler pc)) (he : child_handler k c w pc = (w', o)) :
    Untimed w w' := by
  cases child_handler_cases he with
  | ignoreAlarm | stopTimer => exact absurd trivial hpc
  | _ => exact ⟨rfl, rfl, id, rfl, rfl⟩

theorem due_step {c : Choice} {pc pc' : InterruptPc} (h : Due w pc)
    (hprogress : w.run_data.rusage_req_in_progress = false) (hstop : w.run_data.stop = false)
    (hclock : w.run_data.timeout_time ≤ w.clock)
    (he : monitor_interrupt k c w pc = (w', .goto pc')) : Due w' pc' := by
  cases monitor_interrupt_cases he with
  | free _ | enter | notRequested _ => trivial
  | requested hrequested => exact absurd (hrequested.symm.trans hprogress) (by decide)
  | gatherTime => exact hclock
  | loadPid | waitPing _ | waitPong _ | goesOn _ | storeTime => exact h
  | stops hs => exact absurd (hs.symm.trans hstop) (by decide)
  | notReached hlt => exact absurd h hlt

theorem in_interrupt_eq_zero {rest : List Frame}
    (hr : Reachable (wholeRun k) ⟨.monitor_interrupt .testInterrupt :: rest, w⟩)
    (hs : ¬ Stopping ⟨.monitor_interrupt .testInterrupt :: rest, w⟩) : w.in_interrupt = 0 := by
  have hd := (reachable_clock hr).distinct
  obtain ⟨hz, -⟩ | ⟨-, g, hg, ht⟩ := reachable_counted hr
    (visited_of_not_stopping (reachable_nested hr) hs)
  · exact hz
  · obtain rfl | hg := List.mem_cons.mp hg
    · exact absurd rfl ht.1
    · exact absurd ht (Ticking.not_below hd rfl hg)

theorem due_ends {c : Choice} {pc : InterruptPc} {rest : List Frame} {n : InterruptNext}
    (hr : Reachable (wholeRun k) ⟨.monitor_interrupt pc :: rest, w⟩)
    (hs : ¬ Stopping ⟨.monitor_interrupt pc :: rest, w⟩) (h : Due w pc)
    (he : monitor_interrupt k c w pc = (w', n)) (hn : ∀ pc', n ≠ .goto pc') :
    n = .stop_handler := by
  obtain ⟨rfl, -, hin⟩ | ⟨-, rfl, -⟩ | ⟨rfl, -⟩ := monitor_interrupt_ends he hn
  · exact absurd (in_interrupt_eq_zero hr hs) hin
  · rfl
  · exact h.elim

theorem due_of_checking {pc : InterruptPc} {rest : List Frame}
    (hd : Distinct (program k) (.monitor_interrupt pc :: rest))
    (h : Checking ⟨.monitor_interrupt pc :: rest, w⟩) : Due w pc := by
  obtain ⟨pc', hm, hdue⟩ := h
  obtain hm | hm := List.mem_cons.mp hm
  · cases hm
    exact hdue
  · exact (hd.tail_ne hm rfl).elim

/-- What is kept for the main program while nobody stops. -/
structure Scheduled (k : Setting) (s : State) (t : Itimer) : Prop where
  handler : .do_monitor_work .setTimer ∈ s.stack → ¬ Told s →
    s.world.disposition .sigalrm = .handler
  schedule : ∀ pc, .do_monitor_work pc ∈ s.stack → Armed pc → ¬ Told s → OnSchedule k s t

theorem OnSchedule.interrupt {c : Choice} {pc pc' : InterruptPc} {rest : List Frame}
    (h : OnSchedule k ⟨.monitor_interrupt pc :: rest, w⟩ t)
    (hr : Reachable (wholeRun k) ⟨.monitor_interrupt pc :: rest, w⟩)
    (hs : ¬ Told ⟨.monitor_interrupt pc :: rest, w⟩)
    (he : monitor_interrupt k c w pc = (w', .goto pc')) :
    OnSchedule k ⟨.monitor_interrupt pc' :: rest, w'⟩ t := by
  have hclock := reachable_clock hr
  have hw := monitor_interrupt_untimed he
  refine ⟨hw.timer.trans h.timer, hw.handler.trans h.handler, hw.clock ▸ h.begun, hw.clock ▸ h.due,
    fun hne hle => ?_⟩
  obtain hp | hch := h.check hne (hw.timeout_time ▸ hle)
  · exact .inl (hw.pending hp)
  · have hstop : w.run_data.stop = false := by
      rw [← Bool.not_eq_true]
      exact fun hstop => hs (.inl hstop)
    have hdue := due_step (due_of_checking hclock.distinct hch) hclock.world.progress hstop
      ((hw.timeout_time ▸ hle).trans h.begun) he
    exact .inr ⟨pc', List.mem_cons_self, hdue⟩

theorem told_main {pc : MonitorPc} : Told ⟨[.do_monitor_work pc], w⟩ ↔
    w.run_data.stop = true ∨ w.exited = true := by
  simp [Told, Stopping]

theorem armed_of_goto {c : Choice} {pc pc' : MonitorPc} (ha : Armed pc')
    (he : do_monitor_work k c w pc = (w', .goto pc')) :
    w'.run_data.stop = w.run_data.stop ∧ w'.exited = w.exited ∧
    (pc = .setAlarmHandler ∧ NoUpdates k ∨ pc = .setTimer ∧ w' = { w with timer := true } ∨
      pc = .setTimeoutTime ∧ w' =
        { w with run_data.timeout_time := w.run_data.start_time + k.runtime } ∨
      Armed pc ∧ Untimed w w') := by
  cases do_monitor_work_cases he with
  | created hc | notCreated hc => cases hc <;> exact ha.elim
  | noUpdates h => exact ⟨rfl, rfl, .inl ⟨rfl, h⟩⟩
  | setTimer => exact ⟨rfl, rfl, .inr (.inl ⟨rfl, rfl⟩)⟩
  | setTimeoutTime => exact ⟨rfl, rfl, .inr (.inr (.inl ⟨rfl, rfl⟩))⟩
  | setStart | comm_begin | get_time | setStartTime | goesOn _ | sigsuspend =>
    exact ⟨rfl, rfl, .inr (.inr (.inr ⟨trivial, rfl, rfl, id, rfl, rfl⟩))⟩
  | _ => exact ha.elim

theorem not_noUpdates (hp : 0 < period k) : ¬ NoUpdates k := by
  rintro ⟨hsec, husec⟩
  rw [period, StatsPeriodic.micros, hsec, husec] at hp
  simp at hp

theorem not_checking_main {pc : MonitorPc} : ¬ Checking ⟨[.do_monitor_work pc], w⟩ := by
  simp [Checking]

theorem Scheduled.main {c : Choice} {pc pc' : MonitorPc}
    (h : Scheduled k ⟨[.do_monitor_work pc], w⟩ t) (hst : Started ⟨[.do_monitor_work pc], w⟩ t)
    (hp : 0 < period k) (he : do_monitor_work k c w pc = (w', .goto pc')) :
    Scheduled k ⟨[.do_monitor_work pc'], w'⟩ (if pc = .setTimer then ⟨w.clock, 0⟩ else t) := by
  refine ⟨fun hm _ => ?_, fun pc'' hm ha hold => ?_⟩
  · cases List.mem_singleton.mp hm
    cases do_monitor_work_cases he with
    | setAlarmHandler _ => simp
    | created hc | notCreated hc => cases hc
  · cases List.mem_singleton.mp hm
    obtain ⟨hstop, hexited, hcases⟩ := armed_of_goto ha he
    have hbefore : ¬ Told ⟨[.do_monitor_work pc], w⟩ := by
      rw [told_main, hstop, hexited] at hold
      rw [told_main]
      exact hold
    obtain ⟨-, hno⟩ | ⟨rfl, rfl⟩ | ⟨rfl, rfl⟩ | ⟨harmed, hw⟩ := hcases
    · exact absurd hno (not_noUpdates hp)
    · have hhandler := h.handler List.mem_cons_self hbefore
      rw [if_pos rfl]
      refine ⟨rfl, hhandler, by simp, ?_, by simp⟩
      simp only [Itimer.due, Nat.cast_zero, zero_add, one_mul]
      linarith
    · have hs := h.schedule _ List.mem_cons_self trivial hbefore
      obtain ⟨hzero, -⟩ := hst.main .setTimeoutTime List.mem_cons_self
      refine ⟨hs.timer, hs.handler, hs.begun, hs.due, fun hne _ => ?_⟩
      have hle : (0 : Rat) ≤ t.set + t.expiries * period k :=
        add_nonneg hst.nonneg (mul_nonneg (Nat.cast_nonneg _) hp.le)
      exact (hs.check hne (hzero.trans_le hle)).imp_right fun hch => absurd hch not_checking_main
    · have hs := h.schedule pc List.mem_cons_self harmed hbefore
      have hne : pc ≠ .setTimer := by
        rintro rfl
        exact harmed
      rw [if_neg hne]
      exact hs.untimed hw fun hch => absurd hch not_checking_main

theorem env_exited {e : EnvEvent} (he : env k w e = some w') (hx : w.exited = true) :
    w'.exited = true := by
  cases env_cases he with
  | @work _ pc _ => cases pc <;> exact hx
  | @interrupt i pc _ _ =>
    generalize hv : interrupt_thread k i pc w = v
    cases interrupt_thread_cases hv with
    | ret _ | die _ _ => exact hx
    | finish _ _ _ => rfl
  | exit _ _ => rfl
  | _ => exact hx

def OfMain (e : MonitorEvent) (s : State) : Prop :=
  ∃ c pc, e = .step c ∧ s.stack.head? = some (.do_monitor_work pc)

/-- Only the main program can take back that the monitor was asked to stop. -/
theorem told_step {e : MonitorEvent} (hn : Nested s) (h : Step (program k) e s s')
    (hmain : ¬ OfMain e s) (ht : Told s) : Told s' := by
  by_cases hs : Stopping s
  · exact .inr (.inl (stopping_step hs hn h))
  have hstop {f : Frame} {rest : List Frame} {c : Choice} (he : e = .step c)
      (hst : s.stack = f :: rest) : f.signal ≠ none := by
    intro hf
    cases f with
    | do_monitor_work pc => exact hmain ⟨c, pc, he, by rw [hst]; rfl⟩
    | stop_handler caller pc => exact hs ⟨caller, pc, by rw [hst]; exact List.mem_cons_self⟩
    | monitor_interrupt _ | child_handler _ => cases hf
  obtain ht | ht | ht := ht
  · cases h with
    | goto he | ret he => exact .inl (execFrame_stop_mono (hstop rfl rfl) he ht)
    | handle _ he | ignore _ he =>
      refine .inl ?_
      rw [MonitorSuspend.accept_run_data he]
      exact ht
    | env he => exact .inl ((env_outside he).stop.trans ht)
  · exact absurd ht hs
  · cases h with
    | goto he | ret he => exact absurd ((execFrame_cases he).1.symm.trans ht) (by decide)
    | handle _ he | ignore _ he => exact absurd ((accept_cases he).1.symm.trans ht) (by decide)
    | env he => exact .inr (.inr (env_exited he ht))

theorem Scheduled.other {e : MonitorEvent} (h : Scheduled k s t) (t' : Itimer) (hn : Nested s)
    (hs : Step (program k) e s s') (hmain : ¬ OfMain e s)
    (hm : ∀ pc, .do_monitor_work pc ∈ s'.stack → pc = .ret ∨ .do_monitor_work pc ∈ s.stack ∨
      pc = .testStop ∧ .do_monitor_work .suspended ∈ s.stack)
    (hkeep : ¬ Told s' → s'.world.disposition .sigalrm = s.world.disposition .sigalrm ∧
      (OnSchedule k s t → OnSchedule k s' t')) : Scheduled k s' t' := by
  refine ⟨fun hpc hold => ?_, fun pc hpc ha hold => ?_⟩
  · have hbefore : ¬ Told s := fun ht => hold (told_step hn hs hmain ht)
    obtain hret | hpc | ⟨htest, -⟩ := hm _ hpc
    · cases hret
    · exact (hkeep hold).1.trans (h.handler hpc hbefore)
    · cases htest
  · have hbefore : ¬ Told s := fun ht => hold (told_step hn hs hmain ht)
    refine (hkeep hold).2 ?_
    obtain rfl | hpc | ⟨rfl, hsuspended⟩ := hm pc hpc
    · exact ha.elim
    · exact h.schedule pc hpc ha hbefore
    · exact h.schedule .suspended hsuspended trivial hbefore

theorem OnSchedule.child {c : Choice} {pc : ChildPc} {o : Option ChildPc} {rest stack : List Frame}
    (hr : Reachable (wholeRun k) ⟨.child_handler pc :: rest, w⟩)
    (hbefore : ¬ Told ⟨.child_handler pc :: rest, w⟩) (h : child_handler k c w pc = (w', o))
    (hm : ∀ pc', .monitor_interrupt pc' ∈ rest → .monitor_interrupt pc' ∈ stack) :
    w'.disposition .sigalrm = w.disposition .sigalrm ∧
      (OnSchedule k ⟨.child_handler pc :: rest, w⟩ t → OnSchedule k ⟨stack, w'⟩ t) := by
  have hpc : ¬ Silences (.child_handler pc) := fun hpc =>
    hbefore (.inl (stop_of_silences hr _ List.mem_cons_self hpc))
  have hw := child_handler_untimed hpc h
  refine ⟨hw.handler, fun hs => hs.untimed hw fun hch => .inr ?_⟩
  refine hch.elapses (child_handler_elapses h) fun pc' hin => ?_
  obtain hin | hin := List.mem_cons.mp hin
  · cases hin
  · exact hm pc' hin

theorem OnSchedule.goto {f f' : Frame} {rest : List Frame} {c : Choice}
    (hr : Reachable (wholeRun k) ⟨f :: rest, w⟩) (hf : ∀ pc, f ≠ .do_monitor_work pc)
    (he : execFrame k f c w = some (w', some f')) (hbefore : ¬ Told ⟨f :: rest, w⟩)
    (hold : ¬ Told ⟨f' :: rest, w'⟩) :
    w'.disposition .sigalrm = w.disposition .sigalrm ∧
      (OnSchedule k ⟨f :: rest, w⟩ t → OnSchedule k ⟨f' :: rest, w'⟩ t) := by
  cases (execFrame_cases he).2 with
  | main _ | mainStop _ => exact absurd rfl (hf _)
  | interrupt h =>
    exact ⟨(monitor_interrupt_untimed h).handler, fun hs => hs.interrupt hr hbefore h⟩
  | interruptStop _ | stop _ => exact absurd (.inr (.inl ⟨_, _, List.mem_cons_self⟩)) hold
  | stopMainRet _ => exact absurd (.inr (.inl ⟨_, _, List.mem_cons_self⟩)) hbefore
  | child h => exact OnSchedule.child hr hbefore h fun _ => List.mem_cons_of_mem _

theorem OnSchedule.ret {f : Frame} {rest : List Frame} {c : Choice}
    (hr : Reachable (wholeRun k) ⟨f :: rest, w⟩) (he : execFrame k f c w = some (w', none))
    (hbefore : ¬ Told ⟨f :: rest, w⟩) :
    w'.disposition .sigalrm = w.disposition .sigalrm ∧
      (OnSchedule k ⟨f :: rest, w⟩ t → OnSchedule k ⟨resumeTop (program k) rest, w'⟩ t) := by
  cases (execFrame_cases he).2 with
  | interruptRet h =>
    have hw := monitor_interrupt_untimed h
    refine ⟨hw.handler, fun hs => hs.untimed hw fun hch => ?_⟩
    have hdue := due_of_checking (reachable_clock hr).distinct hch
    cases due_ends hr (fun hs => hbefore (.inr (.inl hs))) hdue h (by rintro _ ⟨⟩)
  | childRet h => exact OnSchedule.child hr hbefore h fun _ hm => mem_resumeTop_of_mem hm rfl
  | stopRet _ _ => exact absurd (.inr (.inl ⟨_, _, List.mem_cons_self⟩)) hbefore

theorem OnSchedule.handle {sig : Signal} {f : Frame} {stack : List Frame}
    (he : accept sig w = some (w', some f)) (hold : ¬ Told ⟨f :: stack, w'⟩) :
    w'.disposition .sigalrm = w.disposition .sigalrm ∧
      (OnSchedule k ⟨stack, w⟩ t → OnSchedule k ⟨f :: stack, w'⟩ t) := by
  have hel := accept_elapses he
  cases sig with
  | sigint =>
    cases (accept_cases he).2.2
    exact absurd (.inr (.inl ⟨_, _, List.mem_cons_self⟩)) hold
  | sigalrm =>
    cases (accept_cases he).2.2 with
    | handled _ =>
      refine ⟨rfl, fun hs => ⟨hs.timer, hs.handler, hs.begun, hs.due, fun _ _ => .inr ?_⟩⟩
      exact ⟨.testInterrupt, List.mem_cons_self, trivial⟩
  | sigchld =>
    have hw := accept_untimed (by decide) he
    refine ⟨hw.handler, fun hs => hs.untimed hw fun hch => .inr ?_⟩
    exact hch.elapses hel fun _ => List.mem_cons_of_mem _

theorem OnSchedule.ignore {sig : Signal} {stack : List Frame}
    (he : accept sig w = some (w', none)) (hold : ¬ Told ⟨stack, w'⟩) :
    w'.disposition .sigalrm = w.disposition .sigalrm ∧
      (OnSchedule k ⟨stack, w⟩ t → OnSchedule k ⟨stack, w'⟩ t) := by
  have hd : w'.disposition = w.disposition := by cases (accept_cases he).2.2 <;> rfl
  refine ⟨congrFun hd _, fun hs => ?_⟩
  by_cases hsig : sig = .sigalrm
  · subst hsig
    cases (accept_cases he).2.2 with
    | ignored hi =>
      obtain hi | ⟨-, hi⟩ := hi
      · exact absurd (hs.handler.symm.trans hi) (by decide)
      · cases hi
    | killed _ _ => exact absurd (.inr (.inr rfl)) hold
  · exact hs.untimed (accept_untimed hsig he) fun hch =>
      .inr (hch.elapses (accept_elapses he) fun _ => id)

theorem OnSchedule.tick {stack : List Frame} (h : OnSchedule k ⟨stack, w⟩ t) (hp : 0 < period k)
    (hdue : w.clock = t.due k) :
    OnSchedule k ⟨stack, w.raise .sigalrm⟩ { t with expiries := t.expiries + 1 } := by
  have hignored : ¬ w.Ignored .sigalrm := by
    rintro (hd | ⟨-, hd⟩)
    · exact absurd (h.handler.symm.trans hd) (by decide)
    · cases hd
  refine ⟨h.timer, h.handler, ?_, ?_, fun _ _ => .inl (by simp [hignored])⟩
  · simp only [World.raise_clock, Nat.cast_add, Nat.cast_one]
    exact hdue.ge
  · simp only [Itimer.due, World.raise_clock, Nat.cast_add, Nat.cast_one] at hdue ⊢
    linarith

theorem OnSchedule.pass {stack : List Frame} {time : Rat} (h : OnSchedule k ⟨stack, w⟩ t)
    (hle : w.clock ≤ time) (hdue : w.timer = true → time ≤ t.due k) :
    OnSchedule k ⟨stack, { w with clock := time }⟩ t :=
  ⟨h.timer, h.handler, h.begun.trans hle, hdue h.timer, h.check⟩

theorem see_of_not_ofMain {e : MonitorEvent} (hmain : ¬ OfMain e s) (ht : e ≠ .env .tick) :
    t.see e s = t := by
  unfold Itimer.see
  split
  · exact if_neg fun heq => hmain ⟨_, _, rfl, heq⟩
  · exact absurd rfl ht
  · rfl

theorem OnSchedule.env {e : EnvEvent} {stack : List Frame} (h : OnSchedule k ⟨stack, w⟩ t)
    (hp : 0 < period k) (he : env k w e = some w')
    (hok : OnTime k (.env e, ()) (⟨stack, w⟩, t)) :
    OnSchedule k ⟨stack, w'⟩ (t.see (.env e) ⟨stack, w⟩) := by
  have hother (ht : e ≠ .tick) (hpass : ∀ time, e ≠ .pass time) :
      OnSchedule k ⟨stack, w'⟩ (t.see (.env e) ⟨stack, w⟩) := by
    have hsee : t.see (.env e) ⟨stack, w⟩ = t :=
      see_of_not_ofMain (by rintro ⟨_, _, ⟨⟩, _⟩) fun heq => ht (Event.env.inj heq)
    rw [hsee]
    exact h.untimed (env_untimed he hpass) fun hch =>
      .inr (hch.elapses (env_elapses he) fun _ => id)
  cases e with
  | tick =>
    cases env_cases he
    exact h.tick hp hok
  | pass time =>
    cases env_cases he with
    | pass hle => exact h.pass hle hok
  | _ => exact hother (by rintro ⟨⟩) (by rintro _ ⟨⟩)

theorem Scheduled.ofMain {c : Choice} {pc : MonitorPc} {f : Frame}
    (h : Scheduled k ⟨[.do_monitor_work pc], w⟩ t) (hst : Started ⟨[.do_monitor_work pc], w⟩ t)
    (hp : 0 < period k) (he : execFrame k (.do_monitor_work pc) c w = some (w', some f)) :
    Scheduled k ⟨[f], w'⟩ (t.see (.step c) ⟨[.do_monitor_work pc], w⟩) := by
  have ht : t.see (.step c) ⟨[.do_monitor_work pc], w⟩ =
      if pc = .setTimer then ⟨w.clock, 0⟩ else t := by simp [Itimer.see]
  rw [ht]
  cases (execFrame_cases he).2 with
  | main hmain => exact h.main hst hp hmain
  | mainStop hmain => exact ⟨by simp, by simp⟩

theorem Scheduled.step {a : MonitorEvent × Unit} (h : Scheduled k s t) (hst : Started s t)
    (hr : Reachable (wholeRun k) s) (hp : 0 < period k)
    (hn : (timed k).next a (s, t) = some (s', t')) : Scheduled k s' t' := by
  obtain ⟨hok, hstep, hsee⟩ := timed_next hn
  obtain ⟨e, u⟩ := a
  obtain rfl : t' = t.see e s := hsee
  have hstep : Step (program k) e s s' := hstep
  have hns := reachable_nested hr
  by_cases hmain : OfMain e s
  · obtain ⟨c, pc, rfl, hhead⟩ := hmain
    cases hstep with
    | @goto _ f f' rest w w' he =>
      obtain rfl : f = .do_monitor_work pc := Option.some.inj hhead
      obtain rfl := hns.below rfl
      exact h.ofMain hst hp he
    | @ret _ f rest w w' he =>
      obtain rfl : f = .do_monitor_work pc := Option.some.inj hhead
      rw [program_exec] at he
      cases (execFrame_cases he).2
  have hbefore (hold : ¬ Told s') : ¬ Told s := fun ht => hold (told_step hns hstep hmain ht)
  have hother := h.other (t.see e s) hns hstep hmain
  cases hstep with
  | @goto c f f' rest w w' he =>
    rw [program_exec] at he
    have hf (pc : MonitorPc) : f ≠ .do_monitor_work pc := by
      rintro rfl
      exact hmain ⟨c, pc, rfl, rfl⟩
    rw [see_of_not_ofMain hmain (by rintro ⟨⟩)] at hother ⊢
    refine hother (fun pc hpc => ?_) fun hold => OnSchedule.goto hr hf he (hbefore hold) hold
    obtain rfl | hpc := List.mem_cons.mp hpc
    · exact .inl ((execFrame_keeps (reachable_clock hr).world hf he).2 pc rfl)
    · exact .inr (.inl (List.mem_cons_of_mem _ hpc))
  | @ret c f rest w w' he =>
    rw [program_exec] at he
    rw [see_of_not_ofMain hmain (by rintro ⟨⟩)] at hother ⊢
    refine hother (fun pc hpc => ?_) fun hold => OnSchedule.ret hr he (hbefore hold)
    obtain hpc | ⟨⟨⟩, hsuspended⟩ := mem_or_suspended hpc
    · exact .inr (.inl (List.mem_cons_of_mem _ hpc))
    · exact .inr (.inr ⟨rfl, List.mem_cons_of_mem _ hsuspended⟩)
  | @handle sig f stack w w' _ he =>
    rw [see_of_not_ofMain hmain (by rintro ⟨⟩)] at hother ⊢
    refine hother (fun pc hpc => ?_) fun hold => OnSchedule.handle he hold
    obtain rfl | hpc := List.mem_cons.mp hpc
    · cases accept_signal _ _ _ _ he
    · exact .inr (.inl hpc)
  | @ignore sig stack w w' _ he =>
    rw [see_of_not_ofMain hmain (by rintro ⟨⟩)] at hother ⊢
    exact hother (fun pc hpc => .inr (.inl hpc)) fun hold => OnSchedule.ignore he hold
  | @env e stack w w' he =>
    have hd := congrFun (env_outside he).disposition .sigalrm
    refine hother (fun pc hpc => .inr (.inl hpc)) fun hold => ⟨hd, fun hs => hs.env hp he hok⟩

theorem reachable_scheduled (hp : 0 < period k) (h : Reachable (timed k) (s, t)) :
    Scheduled k s t := by
  refine h.induct (I := fun p => Scheduled k p.1 p.2) (fun p hi => ?_) fun p a q hr hs hn => ?_
  · have hi : p.1 = boot ∧ p.2 = ⟨0, 0⟩ := hi
    obtain ⟨h1, h2⟩ := hi
    rw [h1]
    exact ⟨by simp [boot], by simp [boot, Armed]⟩
  · exact hs.step (reachable_started hr) (reachable_of_timed hr) hp hn

end PingPong.MonitorSchedule
