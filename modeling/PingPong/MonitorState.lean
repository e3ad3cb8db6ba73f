import Mathlib.Logic.Function.Basic
import Mathlib.Tactic.Simps.Basic

namespace PingPong.MonitorState

instance instNeZeroTwo : @NeZero Nat Zero.ofOfNat0 2 := ⟨Nat.succ_ne_zero 1⟩

inductive Worker | ping | pong
deriving DecidableEq, Repr

/-- `thread_num ^ 1` -/
def Worker.other : Worker → Worker
  | .ping => .pong
  | .pong => .ping

@[simp] theorem Worker.other_other (i : Worker) : i.other.other = i := by cases i <;> rfl

@[simp] theorem Worker.other_ne (i : Worker) : i.other ≠ i := by cases i <;> nofun

@[simp] theorem Worker.ne_other (i : Worker) : i ≠ i.other := i.other_ne.symm

theorem Worker.other_involutive : Function.Involutive Worker.other := other_other

theorem Worker.eq_or_other (i j : Worker) : j = i ∨ j = i.other := by
  cases i <;> cases j <;> simp [other]

instance {p : Worker → Prop} [DecidablePred p] : Decidable (∀ i, p i) :=
  decidable_of_iff (p .ping ∧ p .pong)
    ⟨fun h i => by cases i; exacts [h.1, h.2], fun h => ⟨h _, h _⟩⟩

/-- `thread_mode_thread` is the mode that calls `clone`. -/
inductive ThreadMode | fork | thread | pthread
deriving DecidableEq, Repr

inductive CommMode
  | tcp | udp | pipe | socketpair | sem | busysem | futex | futex_test | mq | inotify | signal
  | eventfd | spin | yield | yield_nop | race1 | race2 | nop | namedpipe
deriving DecidableEq, Repr

inductive CommCleanup
  | comm_no_cleanup | comm_cleanup_pipe | comm_cleanup_namedpipe | cleanup_sem | cleanup_futex
  | cleanup_mq | cleanup_inotify | cleanup_signal | cleanup_spin | cleanup_race | cleanup_nop
deriving DecidableEq, Repr

def CommMode.comm_cleanup : CommMode → CommCleanup
  | .pipe => .comm_cleanup_pipe
  | .namedpipe => .comm_cleanup_namedpipe
  | .sem | .busysem => .cleanup_sem
  | .futex => .cleanup_futex
  | .mq => .cleanup_mq
  | .inotify => .cleanup_inotify
  | .signal => .cleanup_signal
  | .spin => .cleanup_spin
  | .race1 | .race2 => .cleanup_race
  | .nop => .cleanup_nop
  | .tcp | .udp | .socketpair | .futex_test | .eventfd | .yield | .yield_nop => .comm_no_cleanup

/-- Whether the operation ends in `exit(EXIT_SUCCESS)` and does not return. -/
def CommCleanup.exits : CommCleanup → Bool
  | .comm_cleanup_pipe | .comm_cleanup_namedpipe => true
  | _ => false

structure Timeval where
  tv_sec : Int
  tv_usec : Int
deriving DecidableEq, Repr

/-- What a run is started with: the options it reads, and the process ids the
kernel gives to the monitor and to the two workers it creates. -/
structure Setting where
  thread_mode : ThreadMode
  comm_mode : CommMode
  runtime : Nat
  stats_interval : Timeval
  getpid : Int
  child : Worker → Int
  getpid_pos : 0 < getpid
  child_pos : ∀ i, 0 < child i
  child_ne : child .ping ≠ child .pong

theorem Setting.child_injective (k : Setting) : Function.Injective k.child := by
  intro i j h
  cases i <;> cases j <;> first | rfl | exact absurd h k.child_ne | exact absurd h.symm k.child_ne

theorem Setting.child_ne_zero (k : Setting) (i : Worker) : k.child i ≠ 0 :=
  Int.ne_of_gt (k.child_pos i)

theorem Setting.child_ne_neg_one (k : Setting) (i : Worker) : k.child i ≠ -1 := by
  have h := k.child_pos i
  omega

def Setting.ofModes (thread_mode : ThreadMode) (comm_mode : CommMode) : Setting where
  thread_mode := thread_mode
  comm_mode := comm_mode
  runtime := 10
  stats_interval := ⟨1, 0⟩
  getpid := 100
  child
    | .ping => 101
    | .pong => 102
  getpid_pos := by decide
  child_pos i := by cases i <;> decide
  child_ne := by decide

inductive Signal | sigint | sigalrm | sigchld
deriving DecidableEq, Repr

instance {p : Signal → Prop} [DecidablePred p] : Decidable (∀ s, p s) :=
  decidable_of_iff (p .sigint ∧ p .sigalrm ∧ p .sigchld)
    ⟨fun h s => by cases s; exacts [h.1, h.2.1, h.2.2], fun h => ⟨h _, h _, h _⟩⟩

inductive Disposition | dfl | ignore | handler
deriving DecidableEq, Repr

/-- The shared `run_data`. `pid i` is `thread_info[i].pid`. -/
structure RunData where
  ready : Worker → Bool
  start : Bool
  stop : Bool
  rusage_req_in_progress : Bool
  rusage_req : Worker → Bool
  start_time : Rat
  timeout_time : Rat
  last_stats_time : Rat
  pid : Worker → Int

namespace RunData

def setStop (r : RunData) (b : Bool) : RunData := { r with stop := b }

def setPid (r : RunData) (i : Worker) (pid : Int) : RunData :=
  { r with pid := Function.update r.pid i pid }

@[simp] theorem setStop_stop (r : RunData) (b : Bool) : (r.setStop b).stop = b := rfl

@[simp] theorem setStop_pid (r : RunData) (b : Bool) : (r.setStop b).pid = r.pid := rfl

@[simp] theorem setPid_pid (r : RunData) (i : Worker) (pid : Int) :
    (r.setPid i pid).pid = Function.update r.pid i pid := rfl

end RunData

/-- The points of `do_thread_work` before each access to what it shares. -/
inductive WorkerPc
  | testPid | writePid | setup_interrupt_signal | comm_pre | setReady | waitStart | comm_loop
deriving DecidableEq, Repr

/-- `setup_interrupt_signal` has run. -/
def WorkerPc.interruptible : WorkerPc → Bool
  | .testPid | .writePid | .setup_interrupt_signal => false
  | .comm_pre | .setReady | .waitStart | .comm_loop => true

inductive Reaper | child_handler | gather_periodic_stats
deriving DecidableEq, Repr

inductive WorkerState
  | unborn
  | alive (pc : WorkerPc)
  | zombie
  | reaped (who : Reaper)
deriving DecidableEq, Repr

def WorkerState.Terminated : WorkerState → Prop
  | .zombie | .reaped _ => True
  | .unborn | .alive _ => False

instance : DecidablePred WorkerState.Terminated := fun s => by
  cases s <;> simp only [WorkerState.Terminated] <;> infer_instance

def WorkerState.Alive : WorkerState → Prop
  | .alive _ => True
  | .unborn | .zombie | .reaped _ => False

instance : DecidablePred WorkerState.Alive := fun s => by
  cases s <;> simp only [WorkerState.Alive] <;> infer_instance

/-- What the monitor's process does that can be told from outside. -/
inductive Effect
  | comm_cleanup | output_final_stats | monitor_cleanup | exit | exit_fail | killed
deriving DecidableEq, Repr

/-- Everything but the monitor's activations: the shared memory, the static
variables of the handlers, and what the kernel keeps for the processes. -/
structure World where
  run_data : RunData
  visited : Nat
  in_interrupt : Nat
  i_stats_time : Rat
  disposition : Signal → Disposition
  pending : Signal → Bool
  timer : Bool
  clock : Rat
  worker : Worker → WorkerState
  interrupt : Worker → Bool
  exited : Bool
  output : List Effect

namespace World

@[simps -fullyApplied] def setStop (w : World) (b : Bool) : World := { w with run_data := w.run_data.setStop b }

@[simps -fullyApplied] def setPid (w : World) (i : Worker) (pid : Int) : World :=
  { w with run_data := w.run_data.setPid i pid }

@[simps -fullyApplied] def setWorker (w : World) (i : Worker) (s : WorkerState) : World :=
  { w with worker := Function.update w.worker i s }

@[simps -fullyApplied] def setPending (w : World) (s : Signal) (b : Bool) : World :=
  { w with pending := Function.update w.pending s b }

/-- `sigaction`; a pending signal is discarded when it becomes ignored. -/
@[simps -fullyApplied] def sigaction (w : World) (s : Signal) (d : Disposition) : World :=
  { w with
    disposition := Function.update w.disposition s d
    pending := if d = .ignore then Function.update w.pending s false else w.pending }

/-- An ignored signal is discarded when it is raised; by default that is so of
`SIGCHLD` only. -/
def Ignored (w : World) (s : Signal) : Prop :=
  w.disposition s = .ignore ∨ w.disposition s = .dfl ∧ s = .sigchld

instance (w : World) (s : Signal) : Decidable (w.Ignored s) :=
  inferInstanceAs (Decidable (_ ∨ _))

/-- However often a signal is raised, it pends as one bit. -/
@[simps -fullyApplied] def raise (w : World) (s : Signal) : World :=
  { w with pending := if w.Ignored s then w.pending else Function.update w.pending s true }

theorem pending_of_raise {w : World} {s s' : Signal} (h : (w.raise s).pending s' = true) :
    w.pending s' = true ∨ s' = s := by
  by_cases hs : s' = s
  · exact .inr hs
  · simp only [raise_pending] at h
    split at h
    · exact .inl h
    · exact .inl (by simpa [hs] using h)

@[simps -fullyApplied] def finish (w : World) (effects : List Effect) : World :=
  { w with exited := true, output := w.output ++ effects }

@[simps -fullyApplied] def emit (w : World) (e : Effect) : World := { w with output := w.output ++ [e] }

def die (w : World) (i : Worker) : World := (w.setWorker i .zombie).raise .sigchld

/-- The children `waitpid(arg, ..)` and `wait4(arg, ..)` look at: all of them for
-1, and for 0 those of the caller's process group, which no worker leaves. -/
def Awaited (k : Setting) (arg : Int) (i : Worker) : Prop :=
  k.thread_mode ≠ .pthread ∧ (arg = -1 ∨ arg = 0 ∨ arg = k.child i)

instance (k : Setting) (arg : Int) (i : Worker) : Decidable (Awaited k arg i) :=
  inferInstanceAs (Decidable (_ ∧ _))

/-- `waitpid` and `wait4` with `WNOHANG`: the pid of the child that was reaped, 0
when none that it looks at has exited, -1 when there is none. `first` is the
child the kernel looks at first. -/
def wait (k : Setting) (who : Reaper) (first : Worker) (arg : Int) (w : World) : World × Int :=
  if Awaited k arg first ∧ w.worker first = .zombie then
    (w.setWorker first (.reaped who), k.child first)
  else if Awaited k arg first.other ∧ w.worker first.other = .zombie then
    (w.setWorker first.other (.reaped who), k.child first.other)
  else if Awaited k arg first ∧ (w.worker first).Alive then (w, 0)
  else if Awaited k arg first.other ∧ (w.worker first.other).Alive then (w, 0)
  else (w, -1)

theorem wait_cases (k : Setting) (who : Reaper) (first : Worker) (arg : Int) (w : World) :
    (∃ i, Awaited k arg i ∧ w.worker i = .zombie ∧
      w.wait k who first arg = (w.setWorker i (.reaped who), k.child i)) ∨
    (∀ i, Awaited k arg i → w.worker i ≠ .zombie) ∧
      (w.wait k who first arg = (w, 0) ∨ w.wait k who first arg = (w, -1)) := by
  by_cases h1 : Awaited k arg first ∧ w.worker first = .zombie
  · exact .inl ⟨first, h1.1, h1.2, by simp only [wait, if_pos h1]⟩
  by_cases h2 : Awaited k arg first.other ∧ w.worker first.other = .zombie
  · exact .inl ⟨first.other, h2.1, h2.2, by simp only [wait, if_neg h1, if_pos h2]⟩
  right
  constructor
  · intro i ha hz
    rcases first.eq_or_other i with rfl | rfl
    · exact h1 ⟨ha, hz⟩
    · exact h2 ⟨ha, hz⟩
  · simp only [wait, if_neg h1, if_neg h2]
    split
    · exact .inl rfl
    · split
      · exact .inl rfl
      · exact .inr rfl

theorem wait_frame (k : Setting) (who : Reaper) (first : Worker) (arg : Int) (w : World) :
    ∃ worker, (w.wait k who first arg).1 = { w with worker := worker } := by
  rcases w.wait_cases k who first arg with ⟨i, -, -, h⟩ | ⟨-, h | h⟩ <;> rw [h] <;> exact ⟨_, rfl⟩

end World

end PingPong.MonitorState
