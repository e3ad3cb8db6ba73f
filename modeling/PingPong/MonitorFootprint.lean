import PingPong.MonitorFrame

namespace PingPong.MonitorFootprint

open MonitorState MonitorProgram MonitorFrame Activation

def afterSetup : MonitorPc → Prop
  | .setStart | .comm_begin | .get_time | .setStartTime _ | .setTimeoutTime | .testStop
  | .sigsuspend | .suspended | .ret => True
  | _ => False

def AfterSetup : Frame → Prop
  | .do_monitor_work pc => afterSetup pc
  | _ => True

/-- The worker has stored its pid, and does not look at the field again. -/
def pastPid : WorkerPc → Prop
  | .waitStart | .comm_loop => True
  | _ => False

/-- The activation is at a `wait4` of `gather_periodic_stats` that looks at
worker `i`. -/
def Gathers (k : Setting) (i : Worker) : Frame → Prop
  | .monitor_interrupt (.wait4 _ pid) => World.Awaited k pid i
  | _ => False

instance (k : Setting) (i : Worker) : DecidablePred (Gathers k i) := fun f => by
  unfold Gathers
  split <;> infer_instance

inductive WorkerMove (k : Setting) (i : Worker) (gathers told : Prop) :
    Int → WorkerState → Int → WorkerState → Prop
  | same (pid : Int) (s : WorkerState) : WorkerMove k i gathers told pid s pid s
  | run (pid : Int) {pc pc' : WorkerPc} : (pastPid pc → pastPid pc') →
      WorkerMove k i gathers told pid (.alive pc) pid (.alive pc')
  | writePid (pid : Int) {pc : WorkerPc} :
      WorkerMove k i gathers told pid (.alive .writePid) (k.child i) (.alive pc)
  | die (pid : Int) (pc : WorkerPc) : told → WorkerMove k i gathers told pid (.alive pc) pid .zombie
  | gather (pid : Int) : gathers →
      WorkerMove k i gathers told pid .zombie pid (.reaped .gather_periodic_stats)

theorem WorkerMove.of_eq {k : Setting} {i : Worker} {gathers told : Prop} {pid pid' : Int}
    {s s' : WorkerState} (hp : pid' = pid) (hs : s' = s) :
    WorkerMove k i gathers told pid s pid' s' := by
  rw [hp, hs]
  exact .same pid s

/-- Everything such a step can do to what `child_handler` keeps the books of. -/
structure Around (k : Setting) (gathers : Worker → Prop) (w w' : World) : Prop where
  sigchld : w'.disposition .sigchld = w.disposition .sigchld
  pending : w.pending .sigchld = true → w'.pending .sigchld = true
  stop : w.run_data.stop = true → w'.run_data.stop = true
  worker : ∀ i, WorkerMove k i (gathers i)
    (w.disposition .sigchld = .handler → w'.pending .sigchld = true)
    (w.run_data.pid i) (w.worker i) (w'.run_data.pid i) (w'.worker i)

variable {k : Setting} {g : Worker → Prop}

theorem Around.of_eq {w w' : World} (hp : w'.run_data.pid = w.run_data.pid)
    (hd : w'.disposition .sigchld = w.disposition .sigchld)
    (hn : w'.pending .sigchld = w.pending .sigchld)
    (hs : w.run_data.stop = true → w'.run_data.stop = true) (hw : w'.worker = w.worker) :
    Around k g w w' :=
  ⟨hd, fun h => hn.trans h, hs, fun i => .of_eq (congrFun hp i) (congrFun hw i)⟩

theorem Around.refl (w : World) : Around k g w w := .of_eq rfl rfl rfl id rfl

theorem Around.setWorker {w w' : World} {i : Worker} {s : WorkerState}
    (hw : w'.worker = Function.update w.worker i s)
    (hp : ∀ j, j ≠ i → w'.run_data.pid j = w.run_data.pid j)
    (hd : w'.disposition .sigchld = w.disposition .sigchld)
    (hn : w.pending .sigchld = true → w'.pending .sigchld = true)
    (hs : w'.run_data.stop = w.run_data.stop)
    (hm : WorkerMove k i (g i) (w.disposition .sigchld = .handler → w'.pending .sigchld = true)
      (w.run_data.pid i) (w.worker i) (w'.run_data.pid i) s) : Around k g w w' := by
  refine ⟨hd, hn, fun h => hs.trans h, fun j => ?_⟩
  by_cases hj : j = i
  · subst j
    rw [hw, Function.update_self]
    exact hm
  · exact .of_eq (hp j hj) (by rw [hw, Function.update_of_ne hj])

theorem Around.dead {w w' : World} {i : Worker} (h : Around k g w w')
    (hr : w.worker i = .reaped .child_handler) : w'.run_data.pid i = w.run_data.pid i := by
  have hm := h.worker i
  rw [hr] at hm
  generalize w'.run_data.pid i = pid at hm
  generalize w'.worker i = s at hm
  cases hm
  rfl

theorem stop_handler_around {w w' : World} {pc : StopPc} {o : Option StopPc}
    (h : stop_handler k w pc = (w', o)) : Around k g w w' := by
  cases stop_handler_cases h <;> exact .of_eq rfl rfl rfl (by simp) rfl

theorem wait_around (first : Worker) (arg : Int) (w : World) :
    Around k (World.Awaited k arg) w (w.wait k .gather_periodic_stats first arg).1 := by
  rcases w.wait_cases k .gather_periodic_stats first arg with ⟨i, hi, hz, h⟩ | ⟨-, h | h⟩ <;> rw [h]
  · exact .setWorker rfl (fun _ _ => rfl) rfl id rfl (hz ▸ .gather _ hi)
  · exact .refl w
  · exact .refl w

theorem monitor_interrupt_around {c : Choice} {w w' : World} {pc : InterruptPc}
    {n : InterruptNext} (h : monitor_interrupt k c w pc = (w', n)) :
    Around k (fun i => Gathers k i (.monitor_interrupt pc)) w w' := by
  obtain rfl : (monitor_interrupt k c w pc).1 = w' := by rw [h]
  cases pc <;> simp only [monitor_interrupt]
  case wait4 i pid => exact wait_around c.first pid w
  all_goals exact .of_eq rfl rfl rfl id rfl

theorem do_monitor_work_around {c : Choice} {w w' : World} {pc : MonitorPc}
    {n : MonitorNext} (ha : afterSetup pc) (h : do_monitor_work k c w pc = (w', n)) :
    Around k g w w' ∧ ∀ pc', n = .goto pc' → afterSetup pc' := by
  cases do_monitor_work_cases h <;> first
    | exact absurd ha id
    | exact ⟨.of_eq rfl rfl rfl id rfl, by rintro _ ⟨⟩; trivial⟩
    | exact ⟨.of_eq rfl rfl rfl id rfl, by rintro _ ⟨⟩⟩

theorem execFrame_around {f : Frame} {c : Choice} {w w' : World} {o : Option Frame}
    (hf : f.signal ≠ some .sigchld) (ha : AfterSetup f) (h : execFrame k f c w = some (w', o)) :
    Around k (fun i => Gathers k i f) w w' ∧ ∀ f', o = some f' → AfterSetup f' := by
  cases (execFrame_cases h).2 with
  | main he =>
    obtain ⟨hw, hn⟩ := do_monitor_work_around ha he
    exact ⟨hw, fun _ h => by cases h; exact hn _ rfl⟩
  | mainStop he => exact ⟨(do_monitor_work_around ha he).1, fun _ h => by cases h; trivial⟩
  | interrupt he | interruptStop he | interruptRet he =>
    exact ⟨monitor_interrupt_around he, fun _ h => by cases h <;> trivial⟩
  | child _ | childRet _ => exact absurd rfl hf
  | stop he | stopRet he _ | stopMainRet he =>
    exact ⟨stop_handler_around he, fun _ h => by cases h <;> trivial⟩

theorem raise_around (w : World) (s : Signal) : Around k g w (w.raise s) := by
  refine ⟨rfl, fun h => ?_, id, fun _ => .same _ _⟩
  simp only [World.raise_pending]
  split
  · exact h
  · by_cases hs : Signal.sigchld = s <;> simp [hs, h]

theorem die_around {w : World} {i : Worker} {pc : WorkerPc} (hw : w.worker i = .alive pc) :
    Around k g w (w.die i) := by
  have hp : w.disposition .sigchld = .handler → (w.die i).pending .sigchld = true := fun hs => by
    have hr : ¬ (w.setWorker i .zombie).Ignored .sigchld := by simp [World.Ignored, hs]
    simp [World.die, hr]
  have hn := (raise_around (k := k) (g := g) (w.setWorker i .zombie) .sigchld).pending
  exact .setWorker rfl (fun _ _ => rfl) rfl hn rfl (hw ▸ .die _ pc hp)

theorem do_thread_work_around {i : Worker} {w : World} {pc : WorkerPc}
    (hk : k.thread_mode ≠ .pthread) (hw : w.worker i = .alive pc) : Around k g w (do_thread_work k i w pc) := by
  cases pc
  case writePid =>
    refine .setWorker rfl (fun j hj => ?_) rfl id rfl (hw ▸ ?_)
    · simp [do_thread_work, hj]
    · simpa [do_thread_work, hk] using WorkerMove.writePid _
  case comm_loop => exact .refl w
  all_goals
    refine .setWorker rfl (fun _ _ => rfl) rfl id rfl (hw ▸ .run _ fun h => ?_)
  case waitStart => split <;> trivial
  all_goals exact absurd h id

theorem interrupt_thread_around {i : Worker} {w : World} {pc : WorkerPc}
    (hk : k.thread_mode ≠ .pthread) (hw : w.worker i = .alive pc) :
    Around k g w (interrupt_thread k i pc w) := by
  generalize hv : interrupt_thread k i pc w = v
  cases interrupt_thread_cases hv with
  | ret _ => exact .of_eq rfl rfl rfl id rfl
  | die rusage_req _ =>
    have h := die_around (k := k) (g := g) (w := signalled w i rusage_req) hw
    exact ⟨h.sigchld, h.pending, h.stop, h.worker⟩
  | finish _ _ hk' => exact absurd hk' hk

theorem env_around {w w' : World} {e : EnvEvent} (hk : k.thread_mode ≠ .pthread)
    (h : env k w e = some w') : Around k (fun _ => False) w w' := by
  cases env_cases h with
  | tick _ => exact raise_around w .sigalrm
  | sigint => exact raise_around w .sigint
  | work hw => exact do_thread_work_around hk hw
  | exit _ hk' | untold hk' => exact absurd hk' hk
  | die hw _ => exact die_around hw
  | stopOrContinue _ => exact raise_around w .sigchld
  | interrupt hw _ => exact interrupt_thread_around hk hw
  | pass _ => exact .of_eq rfl rfl rfl id rfl

theorem accept_around {s : Signal} {w w' : World} {o : Option Frame} (hs : s ≠ .sigchld)
    (h : accept s w = some (w', o)) : Around k (fun _ => False) w w' := by
  have hn : (w.setPending s false).pending .sigchld = w.pending .sigchld := by simp [hs.symm]
  cases (accept_cases h).2.2 with
  | handled _ | ignored _ => exact .of_eq rfl rfl hn id rfl
  | killed _ _ => exact .of_eq rfl rfl rfl id rfl

theorem accept_worker {s : Signal} {w w' : World} {o : Option Frame}
    (h : accept s w = some (w', o)) :
    w'.worker = w.worker ∧ w'.run_data = w.run_data := by
  cases (accept_cases h).2.2 <;> exact ⟨rfl, rfl⟩

theorem child_handler_pid {c : Choice} {w w' : World} {pc : ChildPc} {o : Option ChildPc}
    (h : child_handler k c w pc = (w', o)) (i : Worker) :
    w'.run_data.pid i = w.run_data.pid i ∨ w'.run_data.pid i = -1 := by
  cases child_handler_cases h with
  | @recordDeath j =>
    by_cases hij : i = j
    · subst i
      exact .inr (by simp)
    · exact .inl (by simp [hij])
  | _ => exact .inl rfl

inductive Fate (gathers : Prop) : WorkerState → WorkerState → Prop
  | same (s : WorkerState) : Fate gathers s s
  | run (pc pc' : WorkerPc) : Fate gathers (.alive pc) (.alive pc')
  | die (pc : WorkerPc) : Fate gathers (.alive pc) .zombie
  | reap : Fate gathers .zombie (.reaped .child_handler)
  | gather : gathers → Fate gathers .zombie (.reaped .gather_periodic_stats)

theorem Fate.of_eq {gathers : Prop} {s s' : WorkerState} (h : s' = s) : Fate gathers s s' := by
  rw [h]
  exact .same s

theorem Fate.reaped {gathers : Prop} {who : Reaper} {s s' : WorkerState} (h : Fate gathers s s')
    (hs : s = .reaped who) : s' = .reaped who := by
  cases h <;> cases hs
  rfl

theorem Fate.gathered {gathers : Prop} {s s' : WorkerState} (h : Fate gathers s s')
    (hs : s' = .reaped .gather_periodic_stats) :
    s = .reaped .gather_periodic_stats ∨ gathers ∧ s = .zombie := by
  cases h with
  | same => exact .inl hs
  | gather hg => exact .inr ⟨hg, rfl⟩
  | _ => cases hs

theorem WorkerMove.fate {i : Worker} {gathers told : Prop} {pid pid' : Int} {s s' : WorkerState}
    (h : WorkerMove k i gathers told pid s pid' s') : Fate gathers s s' := by
  cases h with
  | same => exact .same s
  | run _ | writePid => exact .run _ _
  | die _ _ => exact .die _
  | gather hg => exact .gather hg

theorem child_handler_fate {c : Choice} {w w' : World} {pc : ChildPc} {o : Option ChildPc}
    {g : Prop} (h : child_handler k c w pc = (w', o)) (i : Worker) :
    Fate g (w.worker i) (w'.worker i) := by
  cases child_handler_cases h with
  | @reaps j _ hz =>
    by_cases hi : i = j
    · subst i
      simpa [hz] using Fate.reap
    · exact .of_eq (by simp [hi])
  | _ => exact .same _

theorem accept_afterSetup {s : Signal} {w w' : World} {f : Frame}
    (h : accept s w = some (w', some f)) : AfterSetup f := by
  cases (accept_cases h).2.2
  cases s <;> trivial

theorem afterSetup_resume {f : Frame} (h : AfterSetup f) : AfterSetup (resume f) := by
  unfold resume
  split
  · trivial
  · exact h

def childPc (stack : List Frame) : Option ChildPc :=
  stack.findSome? fun
    | .child_handler pc => some pc
    | _ => none

theorem childPc_cons {f : Frame} (hf : f.signal ≠ some .sigchld) (rest : List Frame) :
    childPc (f :: rest) = childPc rest := by
  cases f with
  | child_handler pc => exact absurd rfl hf
  | _ => rfl

theorem childPc_eq_none {stack : List Frame} (h : ∀ f ∈ stack, f.signal ≠ some .sigchld) :
    childPc stack = none := by
  induction stack with
  | nil => rfl
  | cons f rest ih =>
    rw [childPc_cons (h f (by simp))]
    exact ih fun g hg => h g (by simp [hg])

theorem not_mem_of_childPc {stack : List Frame} (h : childPc stack = none) (pc : ChildPc) :
    .child_handler pc ∉ stack := fun hm => by
  have hn := List.findSome?_eq_none_iff.mp h _ hm
  cases hn

theorem childPc_resumeTop (stack : List Frame) :
    childPc (resumeTop (program k) stack) = childPc stack := by
  cases stack with
  | nil => rfl
  | cons f rest =>
    cases f with
    | do_monitor_work pc => cases pc <;> rfl
    | _ => rfl

theorem mem_of_childPc {stack : List Frame} {pc : ChildPc} (h : childPc stack = some pc) :
    .child_handler pc ∈ stack := by
  obtain ⟨f, hf, hpc⟩ := List.exists_of_findSome?_eq_some h
  cases f <;> cases hpc
  exact hf

end PingPong.MonitorFootprint
