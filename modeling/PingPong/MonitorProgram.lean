import PingPong.Activation
import PingPong.MonitorState

namespace PingPong.MonitorProgram

open MonitorState Activation TransitionSystem

/-- The outcome of a call that has more than one: the child `waitpid` looks at
first, and whether a worker could be created. -/
structure Choice where
  first : Worker := .ping
  created : Bool := true
deriving DecidableEq, Repr

inductive ChildPc
  | waitpid
  | comparePing (pid : Int)
  | comparePong (pid : Int)
  | compareZero (pid : Int)
  | recordDeath (i : Worker)
  | setStop
  | ignoreAlarm
  | stopTimer
deriving DecidableEq, Repr

/-- `child_handler`. The parameter of a point is the local `pid`. -/
def child_handler (k : Setting) (c : Choice) (w : World) : ChildPc → World × Option ChildPc
  | .waitpid =>
    let r := w.wait k .child_handler c.first (-1)
    (r.1, if r.2 = -1 then none else some (.comparePing r.2))
  | .comparePing pid =>
    (w, some (if pid = w.run_data.pid .ping then .recordDeath .ping else .comparePong pid))
  | .comparePong pid =>
    (w, some (if pid = w.run_data.pid .pong then .recordDeath .pong else .compareZero pid))
  | .compareZero pid => (w, if pid = 0 then none else some .waitpid)
  | .recordDeath i => (w.setPid i (-1), some .setStop)
  | .setStop => (w.setStop true, some .ignoreAlarm)
  | .ignoreAlarm => (w.sigaction .sigalrm .ignore, some .stopTimer)
  | .stopTimer => ({ w with timer := false }, some .waitpid)

inductive StopPc
  | testVisited | visit | ignoreAlarm | stopTimer | setStop
  | send_sig (i : Worker)
  | testPid (i : Worker)
  | do_sleep
  | comm_cleanup | output_final_stats | monitor_cleanup | exit
deriving DecidableEq, Repr

/-- `stop_handler`, with `stop_timer` and `stop_threads` in place. The signal
`send_sig` raises goes to a real pid only. -/
def stop_handler (k : Setting) (w : World) : StopPc → World × Option StopPc
  | .testVisited => (w, if w.visited ≠ 0 then none else some .visit)
  | .visit => ({ w with visited := w.visited + 1 }, some .ignoreAlarm)
  | .ignoreAlarm => (w.sigaction .sigalrm .ignore, some .stopTimer)
  | .stopTimer => ({ w with timer := false }, some .setStop)
  | .setStop => (w.setStop true, some (.send_sig .ping))
  | .send_sig i =>
    ({ w with
        interrupt :=
          if 0 < w.run_data.pid i then Function.update w.interrupt i true else w.interrupt },
      some (if i = .ping then .send_sig .pong else .testPid .ping))
  | .testPid i =>
    (w, some (if w.run_data.pid i ≠ -1 then .do_sleep
      else if i = .ping then .testPid .pong else .comm_cleanup))
  | .do_sleep => (w, some (.testPid .ping))
  | .comm_cleanup =>
    if k.comm_mode.comm_cleanup.exits then (w.finish [.comm_cleanup, .exit], some .comm_cleanup)
    else (w.emit .comm_cleanup, some .output_final_stats)
  | .output_final_stats => (w.emit .output_final_stats, some .monitor_cleanup)
  | .monitor_cleanup => (w.emit .monitor_cleanup, some .exit)
  | .exit => (w.finish [.exit], some .exit)

inductive InterruptPc
  | testInterrupt | enter | testRequest | gatherTime
  | loadPid (i : Worker)
  | wait4 (i : Worker) (pid : Int)
  | testStop | storeTime | testTimeout | leave
deriving DecidableEq, Repr

inductive InterruptNext
  | goto (pc : InterruptPc)
  | stop_handler
  | ret
deriving DecidableEq, Repr

/-- `monitor_interrupt`, with `show_periodic_stats`, `gather_periodic_stats` and
`store_last_stats` in place. Of the statistics only the time decides anything. -/
def monitor_interrupt (k : Setting) (c : Choice) (w : World) : InterruptPc → World × InterruptNext
  | .testInterrupt => (w, if w.in_interrupt ≠ 0 then .ret else .goto .enter)
  | .enter => ({ w with in_interrupt := w.in_interrupt + 1 }, .goto .testRequest)
  | .testRequest =>
    (w, .goto (if w.run_data.rusage_req_in_progress then .testTimeout else .gatherTime))
  | .gatherTime => ({ w with i_stats_time := w.clock }, .goto (.loadPid .ping))
  | .loadPid i => (w, .goto (.wait4 i (w.run_data.pid i)))
  | .wait4 i pid =>
    ((w.wait k .gather_periodic_stats c.first pid).1,
      .goto (if i = .ping then .loadPid .pong else .testStop))
  | .testStop => (w, .goto (if w.run_data.stop then .testTimeout else .storeTime))
  | .storeTime => ({ w with run_data.last_stats_time := w.i_stats_time }, .goto .testTimeout)
  | .testTimeout =>
    (w, if w.run_data.timeout_time ≤ w.run_data.last_stats_time then .stop_handler
      else .goto .leave)
  | .leave => ({ w with in_interrupt := w.in_interrupt - 1 }, .ret)

inductive MonitorPc
  | init_threads
  | create (i : Worker)
  | storePid (i : Worker)
  | checkClone
  | setup_child_signals | clearStop | setup_stop_handler
  | testReady (i : Worker)
  | setAlarmHandler | setTimer
  | setStart | comm_begin | get_time
  | setStartTime (time : Rat)
  | setTimeoutTime
  | testStop | sigsuspend | suspended
  | ret
deriving DecidableEq, Repr

inductive MonitorNext
  | goto (pc : MonitorPc)
  | wait
  | stop_handler
deriving DecidableEq, Repr

/-- The interval for which `setup_monitor_timer` sets no timer. -/
def NoUpdates (k : Setting) : Prop :=
  k.stats_interval.tv_sec = 0 ∧ k.stats_interval.tv_usec = 0

instance (k : Setting) : Decidable (NoUpdates k) := inferInstanceAs (Decidable (_ ∧ _))

/-- `start_threads` and `do_monitor_work`. Creating a worker is a step of its
own, after which the worker runs; `do_fork` then stores the pid it got. -/
def do_monitor_work (k : Setting) (c : Choice) (w : World) : MonitorPc → World × MonitorNext
  | .init_threads =>
    ({ w with run_data := ⟨fun _ => false, false, false, false, fun _ => false, 0, 0, 0, fun _ => 0⟩ },
      .goto (.create .ping))
  | .create i =>
    match k.thread_mode, c.created with
    | .fork, true => (w.setWorker i (.alive .testPid), .goto (.storePid i))
    | .fork, false => (w.finish [.exit_fail], .goto .ret)
    | .thread, b =>
      (if b then w.setWorker i (.alive .testPid) else w,
        .goto (if i = .ping then .create .pong else .checkClone))
    | .pthread, true =>
      (w.setWorker i (.alive .testPid),
        .goto (if i = .ping then .create .pong else .setup_child_signals))
    | .pthread, false =>
      -- the result of the second `pthread_create` is not looked at
      if i = .ping then (w.finish [.exit_fail], .goto .ret) else (w, .goto .setup_child_signals)
  | .storePid i =>
    (w.setPid i (k.child i), .goto (if i = .ping then .create .pong else .setup_child_signals))
  | .checkClone =>
    if w.run_data.pid .ping = -1 ∨ w.run_data.pid .pong = -1 then (w.finish [.exit_fail], .goto .ret)
    else (w, .goto .setup_child_signals)
  | .setup_child_signals => (w.sigaction .sigchld .handler, .goto .clearStop)
  | .clearStop => (w.setStop false, .goto .setup_stop_handler)
  | .setup_stop_handler => (w.sigaction .sigint .handler, .goto (.testReady .ping))
  | .testReady i =>
    (w, .goto (if ¬ w.run_data.ready i then .testReady .ping
      else if i = .ping then .testReady .pong else .setAlarmHandler))
  | .setAlarmHandler =>
    if NoUpdates k then (w, .goto .setStart)
    else (w.sigaction .sigalrm .handler, .goto .setTimer)
  | .setTimer => ({ w with timer := true }, .goto .setStart)
  | .setStart => ({ w with run_data.start := true }, .goto .comm_begin)
  | .comm_begin => (w, .goto .get_time)
  | .get_time => ({ w with run_data.last_stats_time := w.clock }, .goto (.setStartTime w.clock))
  | .setStartTime time => ({ w with run_data.start_time := time }, .goto .setTimeoutTime)
  | .setTimeoutTime =>
    ({ w with run_data.timeout_time := w.run_data.start_time + k.runtime }, .goto .testStop)
  | .testStop => (w, if w.run_data.stop then .stop_handler else .goto .sigsuspend)
  | .sigsuspend => (w, .goto .suspended)
  | .suspended => (w, .wait)
  | .ret => (w.finish [.exit], .goto .ret)

/-- `interrupt_thread` in worker `i`, or the default action when the worker has
not installed it yet. A worker of `pthread` mode shares the monitor's process,
so that its `exit` is the monitor's. -/
def interrupt_thread (k : Setting) (i : Worker) (pc : WorkerPc) (w : World) : World :=
  let w := { w with interrupt := Function.update w.interrupt i false }
  if pc.interruptible then
    let w := { w with run_data.rusage_req := Function.update w.run_data.rusage_req i false }
    if w.run_data.stop then
      if k.thread_mode = .pthread then w.finish [.comm_cleanup, .exit] else w.die i
    else w
  else if k.thread_mode = .pthread then w.finish [.killed] else w.die i

def do_thread_work (k : Setting) (i : Worker) (w : World) : WorkerPc → World
  | .testPid =>
    w.setWorker i (.alive (if w.run_data.pid i = 0 then .writePid else .setup_interrupt_signal))
  | .writePid =>
    (w.setPid i (if k.thread_mode = .pthread then k.getpid else k.child i)).setWorker i
      (.alive .setup_interrupt_signal)
  | .setup_interrupt_signal => w.setWorker i (.alive .comm_pre)
  | .comm_pre => w.setWorker i (.alive .setReady)
  | .setReady =>
    { w.setWorker i (.alive .waitStart) with
      run_data.ready := Function.update w.run_data.ready i true }
  | .waitStart => w.setWorker i (.alive (if w.run_data.start then .comm_loop else .waitStart))
  | .comm_loop => w

/-- What happens around the monitor: the timer expires, `SIGINT` is sent, a
worker takes a step, dies, is stopped or continued, or gets its interrupt
signal, and time passes. -/
inductive EnvEvent
  | tick | sigint
  | work (i : Worker)
  | die (i : Worker)
  | stopOrContinue (i : Worker)
  | interrupt (i : Worker)
  | pass (time : Rat)
deriving DecidableEq

def env (k : Setting) (w : World) : EnvEvent → Option World
  | .tick => if w.timer then some (w.raise .sigalrm) else none
  | .sigint => some (w.raise .sigint)
  | .work i =>
    match w.worker i with
    | .alive pc => some (do_thread_work k i w pc)
    | _ => none
  | .die i =>
    if (w.worker i).Alive then
      some (if k.thread_mode = .pthread then w.finish [.exit_fail] else w.die i)
    else none
  | .stopOrContinue i =>
    if (w.worker i).Alive then
      some (if k.thread_mode = .pthread then w else w.raise .sigchld)
    else none
  | .interrupt i =>
    match w.worker i with
    | .alive pc => if w.interrupt i then some (interrupt_thread k i pc w) else none
    | _ => none
  | .pass time => if w.clock ≤ time then some { w with clock := time } else none

inductive Caller | main | sigint | sigalrm
deriving DecidableEq, Repr

def Caller.signal : Caller → Option Signal
  | .main => none
  | .sigint => some .sigint
  | .sigalrm => some .sigalrm

/-- An activation. Both calls of `stop_handler` are the last thing their caller
does, so the call takes the place of the caller. -/
inductive Frame
  | do_monitor_work (pc : MonitorPc)
  | monitor_interrupt (pc : InterruptPc)
  | child_handler (pc : ChildPc)
  | stop_handler (caller : Caller) (pc : StopPc)
deriving DecidableEq, Repr

def Frame.signal : Frame → Option Signal
  | .do_monitor_work _ => none
  | .monitor_interrupt _ => some .sigalrm
  | .child_handler _ => some .sigchld
  | .stop_handler caller _ => caller.signal

def execFrame (k : Setting) (f : Frame) (c : Choice) (w : World) : Option (World × Option Frame) :=
  if w.exited then none else
  match f with
  | .do_monitor_work pc =>
    match do_monitor_work k c w pc with
    | (w', .goto pc') => some (w', some (.do_monitor_work pc'))
    | (_, .wait) => none
    | (w', .stop_handler) => some (w', some (.stop_handler .main .testVisited))
  | .monitor_interrupt pc =>
    match monitor_interrupt k c w pc with
    | (w', .goto pc') => some (w', some (.monitor_interrupt pc'))
    | (w', .stop_handler) => some (w', some (.stop_handler .sigalrm .testVisited))
    | (w', .ret) => some (w', none)
  | .child_handler pc =>
    match child_handler k c w pc with
    | (w', some pc') => some (w', some (.child_handler pc'))
    | (w', none) => some (w', none)
  | .stop_handler caller pc =>
    match stop_handler k w pc with
    | (w', some pc') => some (w', some (.stop_handler caller pc'))
    | (w', none) => some (w', if caller = .main then some (.do_monitor_work .ret) else none)

def handlerOf : Signal → Frame
  | .sigint => .stop_handler .sigint .testVisited
  | .sigalrm => .monitor_interrupt .testInterrupt
  | .sigchld => .child_handler .waitpid

/-- Delivery of a pending signal; `SIGINT` and `SIGALRM` kill by default. -/
def accept (s : Signal) (w : World) : Option (World × Option Frame) :=
  if w.exited ∨ w.pending s = false then none
  else match w.disposition s with
    | .handler => some (w.setPending s false, some (handlerOf s))
    | .ignore => some (w.setPending s false, none)
    | .dfl => some (if s = .sigchld then w.setPending s false else w.finish [.killed], none)

/-- `sigsuspend` returns once a handler has run. -/
def resume : Frame → Frame
  | .do_monitor_work .suspended => .do_monitor_work .testStop
  | f => f

inductive FrameStep (k : Setting) (c : Choice) (w : World) : Frame → World → Option Frame → Prop
  | main {pc pc' : MonitorPc} {w' : World} : do_monitor_work k c w pc = (w', .goto pc') →
      FrameStep k c w (.do_monitor_work pc) w' (some (.do_monitor_work pc'))
  | mainStop {pc : MonitorPc} {w' : World} : do_monitor_work k c w pc = (w', .stop_handler) →
      FrameStep k c w (.do_monitor_work pc) w' (some (.stop_handler .main .testVisited))
  | interrupt {pc pc' : InterruptPc} {w' : World} : monitor_interrupt k c w pc = (w', .goto pc') →
      FrameStep k c w (.monitor_interrupt pc) w' (some (.monitor_interrupt pc'))
  | interruptStop {pc : InterruptPc} {w' : World} :
      monitor_interrupt k c w pc = (w', .stop_handler) →
      FrameStep k c w (.monitor_interrupt pc) w' (some (.stop_handler .sigalrm .testVisited))
  | interruptRet {pc : InterruptPc} {w' : World} : monitor_interrupt k c w pc = (w', .ret) →
      FrameStep k c w (.monitor_interrupt pc) w' none
  | child {pc pc' : ChildPc} {w' : World} : child_handler k c w pc = (w', some pc') →
      FrameStep k c w (.child_handler pc) w' (some (.child_handler pc'))
  | childRet {pc : ChildPc} {w' : World} : child_handler k c w pc = (w', none) →
      FrameStep k c w (.child_handler pc) w' none
  | stop {caller : Caller} {pc pc' : StopPc} {w' : World} : stop_handler k w pc = (w', some pc') →
      FrameStep k c w (.stop_handler caller pc) w' (some (.stop_handler caller pc'))
  | stopRet {caller : Caller} {pc : StopPc} {w' : World} : stop_handler k w pc = (w', none) →
      caller ≠ .main → FrameStep k c w (.stop_handler caller pc) w' none
  | stopMainRet {pc : StopPc} {w' : World} : stop_handler k w pc = (w', none) →
      FrameStep k c w (.stop_handler .main pc) w' (some (.do_monitor_work .ret))

theorem execFrame_cases {k : Setting} {f : Frame} {c : Choice} {w w' : World} {o : Option Frame}
    (h : execFrame k f c w = some (w', o)) : w.exited = false ∧ FrameStep k c w f w' o := by
  unfold execFrame at h
  split at h
  · cases h
  rename_i hx
  refine ⟨by simpa using hx, ?_⟩
  cases f with
  | do_monitor_work pc =>
    rcases he : do_monitor_work k c w pc with ⟨v, pc' | _ | _⟩ <;> simp only [he] at h <;> cases h
    · exact .main he
    · exact .mainStop he
  | monitor_interrupt pc =>
    rcases he : monitor_interrupt k c w pc with ⟨v, pc' | _ | _⟩ <;> simp only [he] at h <;> cases h
    · exact .interrupt he
    · exact .interruptStop he
    · exact .interruptRet he
  | child_handler pc =>
    rcases he : child_handler k c w pc with ⟨v, _ | pc'⟩ <;> simp only [he] at h <;> cases h
    · exact .childRet he
    · exact .child he
  | stop_handler caller pc =>
    rcases he : stop_handler k w pc with ⟨v, _ | pc'⟩ <;> simp only [he] at h
    · split at h <;> cases h
      · rename_i hc
        exact hc ▸ .stopMainRet he
      · rename_i hc
        exact .stopRet he hc
    · cases h
      exact .stop he

theorem execFrame_signal (k : Setting) (f : Frame) (c : Choice) (w w' : World) (f' : Frame)
    (h : execFrame k f c w = some (w', some f')) : f'.signal = f.signal := by
  cases (execFrame_cases h).2 <;> rfl

inductive Delivery (s : Signal) (w : World) : World → Option Frame → Prop
  | handled : w.disposition s = .handler → Delivery s w (w.setPending s false) (some (handlerOf s))
  | ignored : w.Ignored s → Delivery s w (w.setPending s false) none
  | killed : w.disposition s = .dfl → s ≠ .sigchld → Delivery s w (w.finish [.killed]) none

theorem accept_cases {s : Signal} {w w' : World} {o : Option Frame}
    (h : accept s w = some (w', o)) :
    w.exited = false ∧ w.pending s = true ∧ Delivery s w w' o := by
  simp only [accept, Option.ite_none_left_eq_some, not_or, Bool.not_eq_true,
    Bool.not_eq_false] at h
  obtain ⟨⟨hx, hp⟩, h⟩ := h
  refine ⟨hx, hp, ?_⟩
  split at h
  · cases h
    exact .handled ‹_›
  · cases h
    exact .ignored (.inl ‹_›)
  · split at h <;> cases h
    · exact .ignored (.inr ⟨‹_›, ‹_›⟩)
    · exact .killed ‹_› ‹_›

theorem accept_signal (s : Signal) (w w' : World) (f : Frame)
    (h : accept s w = some (w', some f)) : f.signal = some s := by
  cases (accept_cases h).2.2
  cases s <;> rfl

def signalled (w : World) (i : Worker) (rusage_req : Worker → Bool) : World :=
  { w with interrupt := Function.update w.interrupt i false, run_data.rusage_req := rusage_req }

inductive InterruptStep (k : Setting) (w : World) (i : Worker) : World → Prop
  | ret (rusage_req : Worker → Bool) : InterruptStep k w i (signalled w i rusage_req)
  | die (rusage_req : Worker → Bool) : k.thread_mode ≠ .pthread →
      InterruptStep k w i ((signalled w i rusage_req).die i)
  | finish (rusage_req : Worker → Bool) (effects : List Effect) : k.thread_mode = .pthread →
      InterruptStep k w i ((signalled w i rusage_req).finish effects)

theorem interrupt_thread_cases {k : Setting} {i : Worker} {pc : WorkerPc} {w w' : World}
    (h : interrupt_thread k i pc w = w') : InterruptStep k w i w' := by
  subst h
  simp only [interrupt_thread]
  split
  · split
    · split
      · exact .finish _ _ ‹_›
      · exact .die _ ‹_›
    · exact .ret _
  · split
    · exact .finish w.run_data.rusage_req _ ‹_›
    · exact .die w.run_data.rusage_req ‹_›

inductive EnvStep (k : Setting) (w : World) : EnvEvent → World → Prop
  | tick : w.timer = true → EnvStep k w .tick (w.raise .sigalrm)
  | sigint : EnvStep k w .sigint (w.raise .sigint)
  | work {i : Worker} {pc : WorkerPc} : w.worker i = .alive pc →
      EnvStep k w (.work i) (do_thread_work k i w pc)
  | exit {i : Worker} {pc : WorkerPc} : w.worker i = .alive pc → k.thread_mode = .pthread →
      EnvStep k w (.die i) (w.finish [.exit_fail])
  | die {i : Worker} {pc : WorkerPc} : w.worker i = .alive pc → k.thread_mode ≠ .pthread →
      EnvStep k w (.die i) (w.die i)
  | untold {i : Worker} : k.thread_mode = .pthread → EnvStep k w (.stopOrContinue i) w
  | stopOrContinue {i : Worker} : k.thread_mode ≠ .pthread →
      EnvStep k w (.stopOrContinue i) (w.raise .sigchld)
  | interrupt {i : Worker} {pc : WorkerPc} : w.worker i = .alive pc → w.interrupt i = true →
      EnvStep k w (.interrupt i) (interrupt_thread k i pc w)
  | pass {time : Rat} : w.clock ≤ time → EnvStep k w (.pass time) { w with clock := time }

theorem env_cases {k : Setting} {e : EnvEvent} {w w' : World} (h : env k w e = some w') :
    EnvStep k w e w' := by
  cases e with
  | tick =>
    simp only [env, Option.ite_none_right_eq_some, Option.some.injEq] at h
    exact h.2 ▸ .tick h.1
  | sigint =>
    simp only [env, Option.some.injEq] at h
    exact h ▸ .sigint
  | work i =>
    cases hw : w.worker i <;> simp only [env, hw] at h <;> cases h
    exact .work hw
  | die i =>
    cases hw : w.worker i <;> simp [env, hw, WorkerState.Alive] at h
    split at h <;> subst h
    · exact .exit hw ‹_›
    · exact .die hw ‹_›
  | stopOrContinue i =>
    simp only [env, Option.ite_none_right_eq_some, Option.some.injEq] at h
    obtain ⟨-, rfl⟩ := h
    split
    · exact .untold ‹_›
    · exact .stopOrContinue ‹_›
  | interrupt i =>
    cases hw : w.worker i <;> simp [env, hw] at h
    exact h.2 ▸ .interrupt hw h.1
  | pass time =>
    simp only [env, Option.ite_none_right_eq_some, Option.some.injEq] at h
    exact h.2 ▸ .pass h.1

theorem eq_child_handler {f : Frame} (hf : f.signal = some .sigchld) :
    ∃ pc, f = .child_handler pc := by
  cases f with
  | child_handler pc => exact ⟨pc, rfl⟩
  | stop_handler caller _ => cases caller <;> cases hf
  | do_monitor_work _ | monitor_interrupt _ => cases hf

theorem resume_signal (f : Frame) : (resume f).signal = f.signal := by
  unfold resume
  split <;> rfl

def program (k : Setting) : Program Signal Frame World Choice EnvEvent where
  signal := Frame.signal
  exec := execFrame k
  accept := accept
  resume := resume
  env e w := env k w e
  exec_signal := execFrame_signal k
  accept_signal := accept_signal
  resume_signal := resume_signal

@[simp] theorem program_exec (k : Setting) : (program k).exec = execFrame k := rfl

@[simp] theorem program_resume (k : Setting) : (program k).resume = resume := rfl

theorem mem_or_suspended {k : Setting} {stack : List Frame} {f : Frame}
    (h : f ∈ resumeTop (program k) stack) :
    f ∈ stack ∨ f = .do_monitor_work .testStop ∧ .do_monitor_work .suspended ∈ stack := by
  obtain h | ⟨g, hg, rfl⟩ := mem_resumeTop h
  · exact .inl h
  · rw [program_resume]
    unfold resume
    split
    · exact .inr ⟨rfl, hg⟩
    · exact .inl hg

abbrev State := Thread Frame World

abbrev MonitorEvent := Event Signal Choice EnvEvent

/-- The process as `main` calls `start_threads`. -/
def boot : State where
  stack := [.do_monitor_work .init_threads]
  world :=
    { run_data := ⟨fun _ => false, false, false, false, fun _ => false, 0, 0, 0, fun _ => 0⟩
      visited := 0
      in_interrupt := 0
      i_stats_time := 0
      disposition := fun _ => .dfl
      pending := fun _ => false
      timer := false
      clock := 0
      worker := fun _ => .unborn
      interrupt := fun _ => false
      exited := false
      output := [] }

def wholeRun (k : Setting) : System State MonitorEvent := system (program k) (· = boot)

def toSigsuspend : List MonitorEvent :=
  .replicate 8 (.step {}) ++ .replicate 4 (.env (.work .ping)) ++
    .replicate 4 (.env (.work .pong)) ++ .replicate 10 (.step {})

/-- The monitor once `setup_child_signals`, `setup_stop_handler` and
`setup_monitor_timer` have run: both workers live, in processes of their own,
and their pids are recorded. -/
structure SetUp (k : Setting) (s : State) : Prop where
  processes : k.thread_mode ≠ .pthread
  stack : s.stack = [.do_monitor_work .setStart]
  worker : ∀ i, s.world.worker i = .alive .waitStart
  pid : ∀ i, s.world.run_data.pid i = k.child i
  stop : s.world.run_data.stop = false
  visited : s.world.visited = 0
  in_interrupt : s.world.in_interrupt = 0
  sigchld : s.world.disposition .sigchld = .handler
  sigint : s.world.disposition .sigint = .handler
  sigalrm : s.world.disposition .sigalrm = if NoUpdates k then .dfl else .handler
  timer : s.world.timer = decide (¬ NoUpdates k)
  pending : ∀ sig, s.world.pending sig = false
  exited : s.world.exited = false

def setUpState (k : Setting) : State where
  stack := [.do_monitor_work .setStart]
  world :=
    { run_data := ⟨fun _ => true, false, false, false, fun _ => false, 0, 0, 0, k.child⟩
      visited := 0
      in_interrupt := 0
      i_stats_time := 0
      disposition
        | .sigalrm => if NoUpdates k then .dfl else .handler
        | _ => .handler
      pending := fun _ => false
      timer := decide (¬ NoUpdates k)
      clock := 0
      worker := fun _ => .alive .waitStart
      interrupt := fun _ => false
      exited := false
      output := [] }

theorem setUp_setUpState {k : Setting} (hk : k.thread_mode ≠ .pthread) : SetUp k (setUpState k) :=
  ⟨hk, rfl, fun _ => rfl, fun _ => rfl, rfl, rfl, rfl, rfl, rfl, rfl, rfl, fun _ => rfl, rfl⟩

def monitor (k : Setting) : System State MonitorEvent := system (program k) (SetUp k)

end PingPong.MonitorProgram
