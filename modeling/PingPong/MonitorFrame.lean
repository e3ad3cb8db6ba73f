import PingPong.MonitorProgram

namespace PingPong.MonitorFrame

open MonitorState MonitorProgram

variable {k : Setting} {w w' : World}

inductive AfterCreate (k : Setting) (i : Worker) : MonitorPc → Prop
  | storePid : k.thread_mode = .fork → AfterCreate k i (.storePid i)
  | createPong : k.thread_mode ≠ .fork → i = .ping → AfterCreate k i (.create .pong)
  | checkClone : k.thread_mode = .thread → i = .pong → AfterCreate k i .checkClone
  | setup_child_signals : k.thread_mode = .pthread → i = .pong →
      AfterCreate k i .setup_child_signals

inductive MainStep (k : Setting) (w : World) : MonitorPc → World → MonitorNext → Prop
  | init_threads : MainStep k w .init_threads
      { w with
        run_data := ⟨fun _ => false, false, false, false, fun _ => false, 0, 0, 0, fun _ => 0⟩ }
      (.goto (.create .ping))
  | created {i : Worker} {pc : MonitorPc} : AfterCreate k i pc →
      MainStep k w (.create i) (w.setWorker i (.alive .testPid)) (.goto pc)
  | notCreated {i : Worker} {pc : MonitorPc} : AfterCreate k i pc →
      MainStep k w (.create i) w (.goto pc)
  | createFails {i : Worker} : MainStep k w (.create i) (w.finish [.exit_fail]) (.goto .ret)
  | storePing : MainStep k w (.storePid .ping) (w.setPid .ping (k.child .ping))
      (.goto (.create .pong))
  | storePong : MainStep k w (.storePid .pong) (w.setPid .pong (k.child .pong))
      (.goto .setup_child_signals)
  | cloneFailed : MainStep k w .checkClone (w.finish [.exit_fail]) (.goto .ret)
  | checkClone : MainStep k w .checkClone w (.goto .setup_child_signals)
  | setup_child_signals :
      MainStep k w .setup_child_signals (w.sigaction .sigchld .handler) (.goto .clearStop)
  | clearStop : MainStep k w .clearStop (w.setStop false) (.goto .setup_stop_handler)
  | setup_stop_handler : MainStep k w .setup_stop_handler (w.sigaction .sigint .handler)
      (.goto (.testReady .ping))
  | notReady {i : Worker} : w.run_data.ready i = false →
      MainStep k w (.testReady i) w (.goto (.testReady .ping))
  | readyPing : w.run_data.ready .ping = true →
      MainStep k w (.testReady .ping) w (.goto (.testReady .pong))
  | readyPong : w.run_data.ready .pong = true →
      MainStep k w (.testReady .pong) w (.goto .setAlarmHandler)
  | noUpdates : NoUpdates k → MainStep k w .setAlarmHandler w (.goto .setStart)
  | setAlarmHandler : ¬ NoUpdates k →
      MainStep k w .setAlarmHandler (w.sigaction .sigalrm .handler) (.goto .setTimer)
  | setTimer : MainStep k w .setTimer { w with timer := true } (.goto .setStart)
  | setStart : MainStep k w .setStart { w with run_data.start := true } (.goto .comm_begin)
  | comm_begin : MainStep k w .comm_begin w (.goto .get_time)
  | get_time : MainStep k w .get_time { w with run_data.last_stats_time := w.clock }
      (.goto (.setStartTime w.clock))
  | setStartTime {time : Rat} : MainStep k w (.setStartTime time)
      { w with run_data.start_time := time } (.goto .setTimeoutTime)
  | setTimeoutTime : MainStep k w .setTimeoutTime
      { w with run_data.timeout_time := w.run_data.start_time + k.runtime } (.goto .testStop)
  | stops : w.run_data.stop = true → MainStep k w .testStop w .stop_handler
  | goesOn : w.run_data.stop = false → MainStep k w .testStop w (.goto .sigsuspend)
  | sigsuspend : MainStep k w .sigsuspend w (.goto .suspended)
  | suspended : MainStep k w .suspended w .wait
  | ret : MainStep k w .ret (w.finish [.exit]) (.goto .ret)

theorem do_monitor_work_cases {c : Choice} {pc : MonitorPc} {n : MonitorNext}
    (h : do_monitor_work k c w pc = (w', n)) : MainStep k w pc w' n := by
  cases pc with
  | init_threads =>
    cases h
    exact .init_threads
  | create i =>
    cases i <;> cases hk : k.thread_mode <;> cases hc : c.created <;>
      simp only [do_monitor_work, hk, hc] at h <;> cases h
    all_goals first
      | exact .createFails
      | exact .created (.storePid hk)
      | exact .created (.createPong (by simp [hk]) rfl)
      | exact .created (.checkClone hk rfl)
      | exact .created (.setup_child_signals hk rfl)
      | exact .notCreated (.createPong (by simp [hk]) rfl)
      | exact .notCreated (.checkClone hk rfl)
      | exact .notCreated (.setup_child_signals hk rfl)
  | storePid i =>
    cases i <;> cases h
    · exact .storePing
    · exact .storePong
  | checkClone =>
    simp only [do_monitor_work] at h
    split at h <;> cases h
    · exact .cloneFailed
    · exact .checkClone
  | testReady i =>
    cases hr : w.run_data.ready i with
    | false =>
      simp only [do_monitor_work, hr, Bool.false_eq_true, not_false_eq_true, if_true] at h
      cases h
      exact .notReady hr
    | true =>
      simp only [do_monitor_work, hr, not_true_eq_false, if_false] at h
      cases i <;> cases h
      · exact .readyPing hr
      · exact .readyPong hr
  | setAlarmHandler =>
    simp only [do_monitor_work] at h
    split at h <;> cases h
    · exact .noUpdates ‹_›
    · exact .setAlarmHandler ‹_›
  | testStop =>
    simp only [do_monitor_work] at h
    split at h <;> cases h
    · exact .stops ‹_›
    · exact .goesOn (Bool.eq_false_iff.mpr ‹_›)
  | _ =>
    cases h
    constructor

inductive InterruptStep (k : Setting) (c : Choice) (w : World) :
    InterruptPc → World → InterruptNext → Prop
  | busy : w.in_interrupt ≠ 0 → InterruptStep k c w .testInterrupt w .ret
  | free : w.in_interrupt = 0 → InterruptStep k c w .testInterrupt w (.goto .enter)
  | enter : InterruptStep k c w .enter { w with in_interrupt := w.in_interrupt + 1 }
      (.goto .testRequest)
  | requested : w.run_data.rusage_req_in_progress = true →
      InterruptStep k c w .testRequest w (.goto .testTimeout)
  | notRequested : w.run_data.rusage_req_in_progress = false →
      InterruptStep k c w .testRequest w (.goto .gatherTime)
  | gatherTime : InterruptStep k c w .gatherTime { w with i_stats_time := w.clock }
      (.goto (.loadPid .ping))
  | loadPid {i : Worker} :
      InterruptStep k c w (.loadPid i) w (.goto (.wait4 i (w.run_data.pid i)))
  | waitPing {pid : Int} {worker : Worker → WorkerState} :
      (w.wait k .gather_periodic_stats c.first pid).1 = { w with worker := worker } →
      InterruptStep k c w (.wait4 .ping pid) { w with worker := worker } (.goto (.loadPid .pong))
  | waitPong {pid : Int} {worker : Worker → WorkerState} :
      (w.wait k .gather_periodic_stats c.first pid).1 = { w with worker := worker } →
      InterruptStep k c w (.wait4 .pong pid) { w with worker := worker } (.goto .testStop)
  | stops : w.run_data.stop = true → InterruptStep k c w .testStop w (.goto .testTimeout)
  | goesOn : w.run_data.stop = false → InterruptStep k c w .testStop w (.goto .storeTime)
  | storeTime : InterruptStep k c w .storeTime
      { w with run_data.last_stats_time := w.i_stats_time } (.goto .testTimeout)
  | reached : w.run_data.timeout_time ≤ w.run_data.last_stats_time →
      InterruptStep k c w .testTimeout w .stop_handler
  | notReached : ¬ w.run_data.timeout_time ≤ w.run_data.last_stats_time →
      InterruptStep k c w .testTimeout w (.goto .leave)
  | leave : InterruptStep k c w .leave { w with in_interrupt := w.in_interrupt - 1 } .ret

theorem monitor_interrupt_cases {c : Choice} {pc : InterruptPc} {n : InterruptNext}
    (h : monitor_interrupt k c w pc = (w', n)) : InterruptStep k c w pc w' n := by
  cases pc with
  | testInterrupt =>
    simp only [monitor_interrupt] at h
    split at h <;> cases h
    · exact .busy ‹_›
    · exact .free (not_not.mp ‹_›)
  | testRequest =>
    simp only [monitor_interrupt] at h
    split at h <;> cases h
    · exact .requested ‹_›
    · exact .notRequested (Bool.eq_false_iff.mpr ‹_›)
  | wait4 i pid =>
    obtain ⟨worker, he⟩ := w.wait_frame k .gather_periodic_stats c.first pid
    simp only [monitor_interrupt, he] at h
    cases i <;> cases h
    · exact .waitPing he
    · exact .waitPong he
  | testStop =>
    simp only [monitor_interrupt] at h
    split at h <;> cases h
    · exact .stops ‹_›
    · exact .goesOn (Bool.eq_false_iff.mpr ‹_›)
  | testTimeout =>
    simp only [monitor_interrupt] at h
    split at h <;> cases h
    · exact .reached ‹_›
    · exact .notReached ‹_›
  | _ =>
    cases h
    constructor

/-- `monitor_interrupt` writes its own counter and the times of the statistics, and
reaps workers. -/
theorem monitor_interrupt_frame {c : Choice} {pc : InterruptPc} {n : InterruptNext}
    (h : monitor_interrupt k c w pc = (w', n)) :
    ∃ last_stats_time in_interrupt i_stats_time worker,
      w' = { w with
        run_data.last_stats_time := last_stats_time
        in_interrupt := in_interrupt
        i_stats_time := i_stats_time
        worker := worker } ∧
      (pc ≠ .storeTime → last_stats_time = w.run_data.last_stats_time) ∧
      (pc ≠ .enter → pc ≠ .leave → in_interrupt = w.in_interrupt) ∧
      (pc ≠ .gatherTime → i_stats_time = w.i_stats_time) := by
  cases monitor_interrupt_cases h with
  | enter | leave => exact ⟨_, _, _, _, rfl, fun _ => rfl, by simp, fun _ => rfl⟩
  | gatherTime => exact ⟨_, _, _, _, rfl, fun _ => rfl, fun _ _ => rfl, by simp⟩
  | storeTime => exact ⟨_, _, _, _, rfl, by simp, fun _ _ => rfl, fun _ => rfl⟩
  | _ => exact ⟨_, _, _, _, rfl, fun _ => rfl, fun _ _ => rfl, fun _ => rfl⟩

inductive ChildStep (k : Setting) (w : World) : ChildPc → World → Option ChildPc → Prop
  | reaps {i : Worker} : k.thread_mode ≠ .pthread → w.worker i = .zombie →
      ChildStep k w .waitpid (w.setWorker i (.reaped .child_handler))
        (some (.comparePing (k.child i)))
  | nobody : (k.thread_mode ≠ .pthread → ∀ i, w.worker i ≠ .zombie) →
      ChildStep k w .waitpid w (some (.comparePing 0))
  | childless : (k.thread_mode ≠ .pthread → ∀ i, w.worker i ≠ .zombie) →
      ChildStep k w .waitpid w none
  | isPing {pid : Int} : pid = w.run_data.pid .ping →
      ChildStep k w (.comparePing pid) w (some (.recordDeath .ping))
  | notPing {pid : Int} : pid ≠ w.run_data.pid .ping →
      ChildStep k w (.comparePing pid) w (some (.comparePong pid))
  | isPong {pid : Int} : pid = w.run_data.pid .pong →
      ChildStep k w (.comparePong pid) w (some (.recordDeath .pong))
  | notPong {pid : Int} : pid ≠ w.run_data.pid .pong →
      ChildStep k w (.comparePong pid) w (some (.compareZero pid))
  | finished : ChildStep k w (.compareZero 0) w none
  | again {pid : Int} : pid ≠ 0 → ChildStep k w (.compareZero pid) w (some .waitpid)
  | recordDeath {i : Worker} : ChildStep k w (.recordDeath i) (w.setPid i (-1)) (some .setStop)
  | setStop : ChildStep k w .setStop (w.setStop true) (some .ignoreAlarm)
  | ignoreAlarm : ChildStep k w .ignoreAlarm (w.sigaction .sigalrm .ignore) (some .stopTimer)
  | stopTimer : ChildStep k w .stopTimer { w with timer := false } (some .waitpid)

theorem child_handler_cases {c : Choice} {pc : ChildPc} {o : Option ChildPc}
    (h : child_handler k c w pc = (w', o)) : ChildStep k w pc w' o := by
  cases pc with
  | waitpid =>
    simp only [child_handler] at h
    obtain ⟨i, ha, hz, he⟩ | ⟨hz, he⟩ := w.wait_cases k .child_handler c.first (-1)
    · rw [he, if_neg (k.child_ne_neg_one i)] at h
      cases h
      exact .reaps ha.1 hz
    · have hzombie : k.thread_mode ≠ .pthread → ∀ i, w.worker i ≠ .zombie :=
        fun hk i => hz i ⟨hk, .inl rfl⟩
      obtain he | he := he <;> rw [he] at h <;> cases h
      · exact .nobody hzombie
      · exact .childless hzombie
  | comparePing pid =>
    simp only [child_handler] at h
    split at h <;> cases h
    · exact .isPing ‹_›
    · exact .notPing ‹_›
  | comparePong pid =>
    simp only [child_handler] at h
    split at h <;> cases h
    · exact .isPong ‹_›
    · exact .notPong ‹_›
  | compareZero pid =>
    simp only [child_handler] at h
    split at h <;> cases h
    · subst pid
      exact .finished
    · exact .again ‹_›
  | _ =>
    cases h
    constructor

theorem child_handler_frame {c : Choice} {pc : ChildPc} {o : Option ChildPc}
    (h : child_handler k c w pc = (w', o)) :
    ∃ pid stop disposition pending timer worker,
      w' = { w with
        run_data.pid := pid
        run_data.stop := stop
        disposition := disposition
        pending := pending
        timer := timer
        worker := worker } ∧
      (pc ≠ .setStop → stop = w.run_data.stop) ∧
      (∀ sig, sig ≠ .sigalrm → disposition sig = w.disposition sig) := by
  cases child_handler_cases h with
  | setStop => exact ⟨_, _, _, _, _, _, rfl, by simp, fun _ _ => rfl⟩
  | ignoreAlarm =>
    exact ⟨_, _, _, _, _, _, rfl, fun _ => rfl, fun _ hs => Function.update_of_ne hs _ _⟩
  | _ => exact ⟨_, _, _, _, _, _, rfl, fun _ => rfl, fun _ _ => rfl⟩

inductive StopStep (k : Setting) (w : World) : StopPc → World → Option StopPc → Prop
  | passes : w.visited ≠ 0 → StopStep k w .testVisited w none
  | first : w.visited = 0 → StopStep k w .testVisited w (some .visit)
  | visit : StopStep k w .visit { w with visited := w.visited + 1 } (some .ignoreAlarm)
  | ignoreAlarm : StopStep k w .ignoreAlarm (w.sigaction .sigalrm .ignore) (some .stopTimer)
  | stopTimer : StopStep k w .stopTimer { w with timer := false } (some .setStop)
  | setStop : StopStep k w .setStop (w.setStop true) (some (.send_sig .ping))
  | sendPing : StopStep k w (.send_sig .ping)
      { w with
        interrupt :=
          if 0 < w.run_data.pid .ping then Function.update w.interrupt .ping true else w.interrupt }
      (some (.send_sig .pong))
  | sendPong : StopStep k w (.send_sig .pong)
      { w with
        interrupt :=
          if 0 < w.run_data.pid .pong then Function.update w.interrupt .pong true else w.interrupt }
      (some (.testPid .ping))
  | lives {i : Worker} : w.run_data.pid i ≠ -1 → StopStep k w (.testPid i) w (some .do_sleep)
  | pingDead : w.run_data.pid .ping = -1 →
      StopStep k w (.testPid .ping) w (some (.testPid .pong))
  | pongDead : w.run_data.pid .pong = -1 → StopStep k w (.testPid .pong) w (some .comm_cleanup)
  | do_sleep : StopStep k w .do_sleep w (some (.testPid .ping))
  | cleanupExits : k.comm_mode.comm_cleanup.exits = true →
      StopStep k w .comm_cleanup (w.finish [.comm_cleanup, .exit]) (some .comm_cleanup)
  | comm_cleanup : k.comm_mode.comm_cleanup.exits = false →
      StopStep k w .comm_cleanup (w.emit .comm_cleanup) (some .output_final_stats)
  | output_final_stats : StopStep k w .output_final_stats (w.emit .output_final_stats)
      (some .monitor_cleanup)
  | monitor_cleanup : StopStep k w .monitor_cleanup (w.emit .monitor_cleanup) (some .exit)
  | exit : StopStep k w .exit (w.finish [.exit]) (some .exit)

theorem stop_handler_cases {pc : StopPc} {o : Option StopPc} (h : stop_handler k w pc = (w', o)) :
    StopStep k w pc w' o := by
  cases pc with
  | testVisited =>
    simp only [stop_handler] at h
    split at h <;> cases h
    · exact .passes ‹_›
    · exact .first (not_not.mp ‹_›)
  | send_sig i =>
    cases i <;> cases h
    · exact .sendPing
    · exact .sendPong
  | testPid i =>
    simp only [stop_handler] at h
    split at h
    · cases h
      exact .lives ‹_›
    · cases i <;> cases h
      · exact .pingDead (not_not.mp ‹_›)
      · exact .pongDead (not_not.mp ‹_›)
  | comm_cleanup =>
    simp only [stop_handler] at h
    split at h <;> cases h
    · exact .cleanupExits ‹_›
    · exact .comm_cleanup (Bool.eq_false_iff.mpr ‹_›)
  | _ =>
    cases h
    constructor

theorem stop_handler_frame {pc : StopPc} {o : Option StopPc} (h : stop_handler k w pc = (w', o)) :
    ∃ visited stop disposition pending timer interrupt exited output,
      w' = { w with
        visited := visited
        run_data.stop := stop
        disposition := disposition
        pending := pending
        timer := timer
        interrupt := interrupt
        exited := exited
        output := output } ∧
      (pc ≠ .setStop → stop = w.run_data.stop) ∧
      (∀ sig, sig ≠ .sigalrm → disposition sig = w.disposition sig) ∧
      ∀ e ∈ w.output, e ∈ output := by
  cases stop_handler_cases h with
  | setStop => exact ⟨_, _, _, _, _, _, _, _, rfl, by simp, fun _ _ => rfl, fun _ => id⟩
  | ignoreAlarm =>
    exact ⟨_, _, _, _, _, _, _, _, rfl, fun _ => rfl, fun _ hs => Function.update_of_ne hs _ _,
      fun _ => id⟩
  | cleanupExits _ | comm_cleanup _ | output_final_stats | monitor_cleanup | exit =>
    exact ⟨_, _, _, _, _, _, _, _, rfl, fun _ => rfl, fun _ _ => rfl,
      fun _ => List.mem_append_left _⟩
  | _ => exact ⟨_, _, _, _, _, _, _, _, rfl, fun _ => rfl, fun _ _ => rfl, fun _ => id⟩

variable {sig : Signal}

theorem monitor_interrupt_disposition {c : Choice} {pc : InterruptPc} {n : InterruptNext}
    (h : monitor_interrupt k c w pc = (w', n)) : w'.disposition = w.disposition := by
  obtain ⟨_, _, _, _, rfl, -⟩ := monitor_interrupt_frame h
  rfl

theorem child_handler_disposition {c : Choice} {pc : ChildPc} {o : Option ChildPc}
    (hs : sig ≠ .sigalrm) (h : child_handler k c w pc = (w', o)) :
    w'.disposition sig = w.disposition sig := by
  obtain ⟨_, _, _, _, _, _, rfl, -, hd⟩ := child_handler_frame h
  exact hd sig hs

theorem stop_handler_disposition {pc : StopPc} {o : Option StopPc}
    (hs : sig ≠ .sigalrm) (h : stop_handler k w pc = (w', o)) :
    w'.disposition sig = w.disposition sig := by
  obtain ⟨_, _, _, _, _, _, _, _, rfl, -, hd, -⟩ := stop_handler_frame h
  exact hd sig hs

end PingPong.MonitorFrame
