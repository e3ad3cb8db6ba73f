import PingPong.MonitorFootprint

namespace PingPong.MonitorPids

open MonitorState MonitorProgram MonitorFrame MonitorFootprint Activation TransitionSystem

variable {k : Setting} {g : Worker → Prop}

structure PidsOk (k : Setting) (w : World) : Prop where
  pid_eq : ∀ i, w.run_data.pid i = 0 ∨ w.run_data.pid i = k.child i ∨ w.run_data.pid i = -1
  reaped : ∀ i, w.run_data.pid i = -1 → w.worker i = .reaped .child_handler

def FrameOk (k : Setting) (w : World) : Frame → Prop
  | .do_monitor_work .init_threads | .do_monitor_work (.create .ping) => ∀ i, w.worker i = .unborn
  | .do_monitor_work (.storePid .ping) | .do_monitor_work (.create .pong) =>
    w.worker .pong = .unborn
  | .child_handler (.comparePing pid) | .child_handler (.comparePong pid) =>
    pid = 0 ∨ ∃ i, pid = k.child i ∧ w.worker i = .reaped .child_handler
  | .child_handler (.recordDeath i) => w.worker i = .reaped .child_handler
  | .stop_handler _ (.testPid .pong) => w.worker .ping = .reaped .child_handler
  | .stop_handler _ .comm_cleanup | .stop_handler _ .output_final_stats
  | .stop_handler _ .monitor_cleanup | .stop_handler _ .exit =>
    ∀ i, w.worker i = .reaped .child_handler
  | _ => True

theorem PidsOk.around {w w' : World} (h : PidsOk k w) (ha : Around k g w w') : PidsOk k w' := by
  refine ⟨fun i => ?_, fun i => ?_⟩
  · have hp := h.pid_eq i
    have hm := ha.worker i
    generalize w'.run_data.pid i = pid' at hm
    generalize w.worker i = s at hm
    generalize w'.worker i = s' at hm
    cases hm with
    | writePid => exact .inr (.inl rfl)
    | _ => exact hp
  · have hr := h.reaped i
    have hm := ha.worker i
    generalize w'.run_data.pid i = pid' at hm
    generalize w.worker i = s at hm hr
    generalize w'.worker i = s' at hm
    intro hp
    cases hm with
    | same => exact hr hp
    | writePid => exact absurd hp (k.child_ne_neg_one i)
    | _ => cases hr hp

/-- An activation's knowledge of the workers survives, as long as the reaped
stay reaped and, for the main program's setup, the unborn stay unborn. -/
theorem FrameOk.mono {w w' : World} {f : Frame} (h : FrameOk k w f)
    (hr : ∀ i, w.worker i = .reaped .child_handler → w'.worker i = .reaped .child_handler)
    (hu : f.signal = none → ∀ i, w.worker i = .unborn → w'.worker i = .unborn) : FrameOk k w' f := by
  unfold FrameOk at h ⊢
  split at h <;> try trivial
  · exact fun i => hu rfl i (h i)
  · exact fun i => hu rfl i (h i)
  · exact hu rfl _ h
  · exact hu rfl _ h
  · exact h.imp_right fun ⟨i, hi, hw⟩ => ⟨i, hi, hr i hw⟩
  · exact h.imp_right fun ⟨i, hi, hw⟩ => ⟨i, hi, hr i hw⟩
  · exact hr _ h
  · exact hr _ h
  all_goals exact fun i => hr i (h i)

theorem FrameOk.fate {w w' : World} {f : Frame} {g : Worker → Prop} (h : FrameOk k w f)
    (hf : ∀ i, Fate (g i) (w.worker i) (w'.worker i)) : FrameOk k w' f := by
  refine h.mono (fun i => (hf i).reaped) fun _ i hi => ?_
  have hi' := hf i
  rw [hi] at hi'
  generalize w'.worker i = s at hi'
  cases hi'
  rfl

theorem frameOk_handlerOf {w : World} (s : Signal) : FrameOk k w (handlerOf s) := by
  cases s <;> trivial

theorem frameOk_resume {w : World} {f : Frame} (h : FrameOk k w f) : FrameOk k w (resume f) := by
  unfold resume
  split
  · trivial
  · exact h

theorem PidsOk.of_eq {w w' : World} (h : PidsOk k w) (hp : w'.run_data.pid = w.run_data.pid)
    (hw : w'.worker = w.worker) : PidsOk k w' :=
  ⟨fun i => hp ▸ h.pid_eq i, fun i => hp ▸ hw ▸ h.reaped i⟩

theorem reaped_create {w : World} {i j : Worker} {s : WorkerState} {who : Reaper}
    (hu : w.worker i = .unborn) (hr : w.worker j = .reaped who) :
    (w.setWorker i s).worker j = .reaped who := by
  by_cases hji : j = i
  · subst j
    rw [hu] at hr
    cases hr
  · simpa [hji] using hr

theorem PidsOk.create {w : World} {i : Worker} {pc : WorkerPc} (h : PidsOk k w)
    (hu : w.worker i = .unborn) : PidsOk k (w.setWorker i (.alive pc)) :=
  ⟨h.pid_eq, fun j hj => reaped_create hu (h.reaped j hj)⟩

theorem PidsOk.storePid {w : World} {i : Worker} (h : PidsOk k w) :
    PidsOk k (w.setPid i (k.child i)) := by
  refine ⟨fun j => ?_, fun j => ?_⟩ <;> by_cases hji : j = i
  · subst j
    simp
  · simpa [hji] using h.pid_eq j
  · subst j
    simpa using fun hp => absurd hp (k.child_ne_neg_one _)
  · simpa [hji] using h.reaped j

theorem FrameOk.afterCreate {w : World} {i : Worker} {pc : MonitorPc} (h : AfterCreate k i pc)
    (hu : i = .ping → w.worker .pong = .unborn) : FrameOk k w (.do_monitor_work pc) := by
  cases h with
  | storePid _ =>
    cases i with
    | ping => exact hu rfl
    | pong => trivial
  | createPong _ hi => exact hu hi
  | checkClone _ _ | setup_child_signals _ _ => trivial

theorem do_monitor_work_ok {c : Choice} {w w' : World} {pc : MonitorPc} {n : MonitorNext}
    (hp : PidsOk k w) (hf : FrameOk k w (.do_monitor_work pc))
    (h : do_monitor_work k c w pc = (w', n)) :
    PidsOk k w' ∧ (∀ pc', n = .goto pc' → FrameOk k w' (.do_monitor_work pc')) ∧
      ∀ i, w.worker i = .reaped .child_handler → w'.worker i = .reaped .child_handler := by
  have hstay (hn : ∀ pc', n = .goto pc' → FrameOk k w (.do_monitor_work pc'))
      (hw : w'.worker = w.worker) (hpid : w'.run_data.pid = w.run_data.pid) :
      PidsOk k w' ∧ (∀ pc', n = .goto pc' → FrameOk k w' (.do_monitor_work pc')) ∧
        ∀ i, w.worker i = .reaped .child_handler → w'.worker i = .reaped .child_handler :=
    ⟨hp.of_eq hpid hw, fun pc' hpc => (hn pc' hpc).mono (by simp [hw]) (by simp [hw]), by simp [hw]⟩
  have hunborn {i : Worker} (hf : FrameOk k w (.do_monitor_work (.create i))) :
      w.worker i = .unborn ∧ (i = .ping → w.worker .pong = .unborn) := by
    cases i with
    | ping => exact ⟨hf .ping, fun _ => hf .pong⟩
    | pong => exact ⟨hf, by rintro ⟨⟩⟩
  cases do_monitor_work_cases h with
  | init_threads => exact ⟨⟨fun i => .inl rfl, nofun⟩, by rintro _ ⟨⟩; exact hf, fun _ => id⟩
  | @created i _ ha =>
    obtain ⟨hu, hpong⟩ := hunborn hf
    refine ⟨hp.create hu, ?_, fun j => reaped_create hu⟩
    rintro _ ⟨⟩
    refine .afterCreate ha fun hi => ?_
    subst i
    simpa using hpong rfl
  | notCreated ha => exact hstay (by rintro _ ⟨⟩; exact .afterCreate ha (hunborn hf).2) rfl rfl
  | storePing => exact ⟨hp.storePid, by rintro _ ⟨⟩; exact hf, fun _ => id⟩
  | storePong => exact ⟨hp.storePid, by rintro _ ⟨⟩; trivial, fun _ => id⟩
  | stops _ | suspended => exact hstay (by rintro _ ⟨⟩) rfl rfl
  | _ => exact hstay (by rintro _ ⟨⟩; trivial) rfl rfl

theorem PidsOk.reap {w : World} (i : Worker) (h : PidsOk k w) :
    PidsOk k (w.setWorker i (.reaped .child_handler)) := by
  refine ⟨h.pid_eq, fun j hj => ?_⟩
  by_cases hji : j = i
  · subst j
    simp
  · simpa [hji] using h.reaped j hj

theorem PidsOk.recordDeath {w : World} {i : Worker} (h : PidsOk k w)
    (hi : w.worker i = .reaped .child_handler) : PidsOk k (w.setPid i (-1)) := by
  refine ⟨fun j => ?_, fun j => ?_⟩ <;> by_cases hji : j = i
  · subst j
    simp
  · simpa [hji] using h.pid_eq j
  · subst j
    exact fun _ => hi
  · simpa [hji] using h.reaped j

/-- `child_handler` is not about to compare a `waitpid` that found nobody with a
pid field that is still 0. -/
def NoZeroMatch (f : Frame) (w : World) : Prop :=
  match f with
  | .child_handler (.comparePing pid) => pid = 0 → w.run_data.pid .ping ≠ 0
  | .child_handler (.comparePong pid) => pid = 0 → w.run_data.pid .pong ≠ 0
  | _ => True

instance (f : Frame) (w : World) : Decidable (NoZeroMatch f w) := by
  unfold NoZeroMatch
  split <;> infer_instance

theorem PidsOk.eq_of_pid {w : World} {i : Worker} {pid : Int} (h : PidsOk k w)
    (hz : pid = 0 → w.run_data.pid i ≠ 0)
    (hr : pid = 0 ∨ ∃ j, pid = k.child j ∧ w.worker j = .reaped .child_handler)
    (hp : pid = w.run_data.pid i) : w.worker i = .reaped .child_handler := by
  obtain h0 | ⟨j, rfl, hj⟩ := hr
  · exact absurd (hp.symm.trans h0) (hz h0)
  · obtain hi | hi | hi := h.pid_eq i <;> rw [hi] at hp
    · exact absurd hp (k.child_ne_zero j)
    · exact k.child_injective hp ▸ hj
    · exact absurd hp (k.child_ne_neg_one j)

theorem child_handler_pids {c : Choice} {w w' : World} {pc : ChildPc} {o : Option ChildPc}
    (hz : NoZeroMatch (.child_handler pc) w) (hp : PidsOk k w) (hf : FrameOk k w (.child_handler pc))
    (h : child_handler k c w pc = (w', o)) :
    PidsOk k w' ∧ ∀ pc', o = some pc' → FrameOk k w' (.child_handler pc') := by
  cases child_handler_cases h with
  | @reaps i _ _ =>
    refine ⟨hp.reap i, fun pc' hpc => ?_⟩
    cases hpc
    exact .inr ⟨i, rfl, by simp⟩
  | nobody _ => exact ⟨hp, fun pc' hpc => by cases hpc; exact .inl rfl⟩
  | childless _ | finished => exact ⟨hp, by rintro _ ⟨⟩⟩
  | isPing hpid | isPong hpid =>
    refine ⟨hp, fun pc' hpc => ?_⟩
    cases hpc
    exact hp.eq_of_pid hz hf hpid
  | notPing _ => exact ⟨hp, fun pc' hpc => by cases hpc; exact hf⟩
  | notPong _ | again _ => exact ⟨hp, fun pc' hpc => by cases hpc; trivial⟩
  | recordDeath => exact ⟨hp.recordDeath hf, fun pc' hpc => by cases hpc; trivial⟩
  | setStop | ignoreAlarm | stopTimer =>
    exact ⟨hp.of_eq rfl rfl, fun pc' hpc => by cases hpc; trivial⟩

theorem stop_handler_pids {caller : Caller} {w w' : World} {pc : StopPc} {o : Option StopPc}
    (hp : PidsOk k w) (hf : FrameOk k w (.stop_handler caller pc))
    (h : stop_handler k w pc = (w', o)) :
    PidsOk k w' ∧ (∀ i, Fate False (w.worker i) (w'.worker i)) ∧
      ∀ pc', o = some pc' → FrameOk k w' (.stop_handler caller pc') := by
  have ha := stop_handler_around (g := fun _ => False) h
  have hfate : ∀ i, Fate False (w.worker i) (w'.worker i) := fun i => (ha.worker i).fate
  refine ⟨hp.around ha, hfate, fun pc' hpc => ?_⟩
  suffices hw : FrameOk k w (.stop_handler caller pc') from hw.fate hfate
  subst hpc
  cases stop_handler_cases h with
  | pingDead hdead => exact hp.reaped .ping hdead
  | pongDead hdead =>
    intro j
    cases j with
    | ping => exact hf
    | pong => exact hp.reaped .pong hdead
  | cleanupExits _ | comm_cleanup _ | output_final_stats | monitor_cleanup | exit => exact hf
  | _ => trivial

theorem pids_invariant (hk : k.thread_mode ≠ .pthread) :
    LocalInvariant (program k) NoZeroMatch (PidsOk k) (FrameOk k) where
  exec {f c w w' o} hg hp hf he := by
    have hmono {gathers : Worker → Prop} (h : ∀ i, Fate (gathers i) (w.worker i) (w'.worker i)) :
        ∀ g : Frame, g.signal ≠ f.signal → FrameOk k w g → FrameOk k w' g :=
      fun g _ hg => hg.fate h
    rw [program_exec] at he
    cases (execFrame_cases he).2 with
    | main h =>
      obtain ⟨hp', hn, hr⟩ := do_monitor_work_ok hp hf h
      refine ⟨hp', fun f' hf' => by cases hf'; exact hn _ rfl, fun g hne hg => ?_⟩
      exact hg.mono hr fun hs => absurd hs hne
    | mainStop h =>
      obtain ⟨hp', -, hr⟩ := do_monitor_work_ok hp hf h
      refine ⟨hp', fun f' hf' => by cases hf'; trivial, fun g hne hg => ?_⟩
      exact hg.mono hr fun hs => absurd hs hne
    | interrupt h | interruptStop h | interruptRet h =>
      have ha := monitor_interrupt_around h
      exact ⟨hp.around ha, fun f' hf' => by cases hf' <;> trivial,
        hmono fun i => (ha.worker i).fate⟩
    | child h =>
      obtain ⟨hp', hn⟩ := child_handler_pids hg hp hf h
      exact ⟨hp', fun f' hf' => by cases hf'; exact hn _ rfl,
        hmono (child_handler_fate (g := False) h)⟩
    | childRet h =>
      exact ⟨(child_handler_pids hg hp hf h).1, nofun,
        hmono (child_handler_fate (g := False) h)⟩
    | stop h =>
      obtain ⟨hp', hfate, hn⟩ := stop_handler_pids hp hf h
      exact ⟨hp', fun f' hf' => by cases hf'; exact hn _ rfl, hmono hfate⟩
    | stopRet h _ | stopMainRet h =>
      obtain ⟨hp', hfate, -⟩ := stop_handler_pids hp hf h
      exact ⟨hp', fun f' hf' => by cases hf' <;> trivial, hmono hfate⟩
  accept hp he := by
    obtain ⟨hw, hr⟩ := accept_worker he
    refine ⟨hp.of_eq (congrArg RunData.pid hr) hw, fun f hf => ?_, fun g hg => ?_⟩
    · subst hf
      cases (accept_cases he).2.2
      exact frameOk_handlerOf _
    · exact hg.fate (g := fun _ => False) fun i => .of_eq (congrFun hw i)
  resume := frameOk_resume
  env hp he := by
    have ha := env_around hk he
    exact ⟨hp.around ha, fun g hg => hg.fate fun i => (ha.worker i).fate⟩

/-- `do_fork` records both pids before `setup_child_signals`. -/
def ForkOk (w : World) : Frame → Prop
  | .do_monitor_work .init_threads | .do_monitor_work (.create .ping)
  | .do_monitor_work (.storePid .ping) => w.disposition .sigchld ≠ .handler
  | .do_monitor_work (.create .pong) | .do_monitor_work (.storePid .pong) =>
    w.disposition .sigchld ≠ .handler ∧ w.run_data.pid .ping ≠ 0
  | .do_monitor_work .checkClone | .do_monitor_work .setup_child_signals =>
    ∀ i, w.run_data.pid i ≠ 0
  | .child_handler _ => w.disposition .sigchld = .handler
  | _ => True

structure Keeps (w w' : World) : Prop where
  sigchld : w'.disposition .sigchld = w.disposition .sigchld
  pid : ∀ i, w.run_data.pid i ≠ 0 → w'.run_data.pid i ≠ 0

def ForkPids (w : World) : Prop := w.disposition .sigchld = .handler → ∀ i, w.run_data.pid i ≠ 0

theorem Keeps.forkPids {w w' : World} (h : Keeps w w') (hp : ForkPids w) : ForkPids w' :=
  fun hd i => h.pid i (hp (h.sigchld ▸ hd) i)

theorem Keeps.forkOk {w w' : World} {f : Frame} (h : Keeps w w') (hf : ForkOk w f) :
    ForkOk w' f := by
  unfold ForkOk at hf ⊢
  rw [h.sigchld]
  split at hf <;> try exact hf
  · exact ⟨hf.1, h.pid _ hf.2⟩
  · exact ⟨hf.1, h.pid _ hf.2⟩
  · exact fun i => h.pid i (hf i)
  · exact fun i => h.pid i (hf i)

theorem keeps_of_around {w w' : World} (h : Around k g w w') : Keeps w w' := by
  refine ⟨h.sigchld, fun i hi => ?_⟩
  have hm := h.worker i
  generalize w'.run_data.pid i = pid' at hm
  generalize w.worker i = s at hm
  generalize w'.worker i = s' at hm
  cases hm with
  | writePid => exact k.child_ne_zero i
  | _ => exact hi

theorem child_handler_keeps {c : Choice} {w w' : World} {pc : ChildPc} {o : Option ChildPc}
    (h : child_handler k c w pc = (w', o)) : Keeps w w' := by
  refine ⟨child_handler_disposition (by decide) h, fun i hi => ?_⟩
  obtain hp | hp := child_handler_pid h i <;> rw [hp]
  · exact hi
  · decide

theorem accept_keeps {s : Signal} {w w' : World} {o : Option Frame}
    (h : accept s w = some (w', o)) : Keeps w w' := by
  cases (accept_cases h).2.2 <;> exact ⟨rfl, fun _ => id⟩

theorem ForkOk.main {w w' : World} {f : Frame} (h : ForkOk w f) (hf : f.signal ≠ none)
    (hd : w.disposition .sigchld = .handler → w'.disposition .sigchld = .handler) :
    ForkOk w' f := by
  cases f with
  | do_monitor_work pc => exact absurd rfl hf
  | child_handler pc => exact hd h
  | monitor_interrupt pc | stop_handler caller pc => trivial

theorem do_monitor_work_fork {c : Choice} {w w' : World} {pc : MonitorPc} {n : MonitorNext}
    (hk : k.thread_mode = .fork) (hp : ForkPids w) (hf : ForkOk w (.do_monitor_work pc))
    (h : do_monitor_work k c w pc = (w', n)) :
    ForkPids w' ∧ (∀ pc', n = .goto pc' → ForkOk w' (.do_monitor_work pc')) ∧
      (w.disposition .sigchld = .handler → w'.disposition .sigchld = .handler) := by
  have hkeeps (h : Keeps w w') (hn : ∀ pc', n = .goto pc' → ForkOk w (.do_monitor_work pc')) :
      ForkPids w' ∧ (∀ pc', n = .goto pc' → ForkOk w' (.do_monitor_work pc')) ∧
        (w.disposition .sigchld = .handler → w'.disposition .sigchld = .handler) :=
    ⟨h.forkPids hp, fun pc' hpc => h.forkOk (hn pc' hpc), fun hd => h.sigchld.trans hd⟩
  have hcreate {i : Worker} {pc : MonitorPc} (hf : ForkOk w (.do_monitor_work (.create i)))
      (ha : AfterCreate k i pc) : ForkOk w (.do_monitor_work pc) := by
    cases ha with
    | storePid _ => cases i <;> exact hf
    | createPong hne _ => exact absurd hk hne
    | checkClone hm _ | setup_child_signals hm _ => cases hk.symm.trans hm
  cases do_monitor_work_cases h with
  | init_threads => exact ⟨fun hd => absurd hd hf, by rintro _ ⟨⟩; exact hf, id⟩
  | created ha | notCreated ha =>
    exact hkeeps ⟨rfl, fun _ => id⟩ (by rintro _ ⟨⟩; exact hcreate hf ha)
  | storePing =>
    refine ⟨fun hd => absurd hd hf, ?_, id⟩
    rintro _ ⟨⟩
    exact ⟨hf, by simpa using k.child_ne_zero .ping⟩
  | storePong =>
    refine ⟨fun hd => absurd hd hf.1, ?_, id⟩
    rintro _ ⟨⟩ j
    cases j with
    | ping => simpa using hf.2
    | pong => simpa using k.child_ne_zero .pong
  | checkClone => exact hkeeps ⟨rfl, fun _ => id⟩ (by rintro _ ⟨⟩; exact hf)
  | setup_child_signals => exact ⟨fun _ => hf, by rintro _ ⟨⟩; trivial, fun _ => rfl⟩
  | stops _ | suspended => exact hkeeps ⟨rfl, fun _ => id⟩ (by rintro _ ⟨⟩)
  | _ => exact hkeeps ⟨rfl, fun _ => id⟩ (by rintro _ ⟨⟩; trivial)

theorem fork_invariant (hk : k.thread_mode = .fork) :
    LocalInvariant (program k) (fun _ _ => True) ForkPids ForkOk where
  exec {f c w w' o} _ hp hf he := by
    have hkeeps (h : Keeps w w') (hn : ∀ f', o = some f' → ForkOk w f') : ForkPids w' ∧
        (∀ f', o = some f' → ForkOk w' f') ∧
        ∀ g : Frame, g.signal ≠ f.signal → ForkOk w g → ForkOk w' g :=
      ⟨h.forkPids hp, fun f' hf' => h.forkOk (hn f' hf'), fun g _ hg => h.forkOk hg⟩
    rw [program_exec] at he
    cases (execFrame_cases he).2 with
    | main h =>
      obtain ⟨hp', hn, hd⟩ := do_monitor_work_fork hk hp hf h
      exact ⟨hp', fun f' hf' => by cases hf'; exact hn _ rfl, fun g hne hg => hg.main hne hd⟩
    | mainStop h =>
      obtain ⟨hp', -, hd⟩ := do_monitor_work_fork hk hp hf h
      exact ⟨hp', fun f' hf' => by cases hf'; trivial, fun g hne hg => hg.main hne hd⟩
    | interrupt h | interruptStop h | interruptRet h =>
      exact hkeeps (keeps_of_around (monitor_interrupt_around h)) fun f' hf' => by
        cases hf' <;> trivial
    | child h => exact hkeeps (child_handler_keeps h) fun f' hf' => by cases hf'; exact hf
    | childRet h => exact hkeeps (child_handler_keeps h) nofun
    | stop h | stopRet h _ | stopMainRet h =>
      exact hkeeps (keeps_of_around (stop_handler_around (g := fun _ => False) h)) fun f' hf' => by
        cases hf' <;> trivial
  accept {s _ _ _} hp he := by
    have h := accept_keeps he
    refine ⟨h.forkPids hp, fun f hf => ?_, fun g hg => h.forkOk hg⟩
    subst hf
    cases (accept_cases he).2.2 with
    | handled hs => cases s <;> trivial
  resume {w f} hf := by
    rw [program_resume]
    unfold resume
    split
    · trivial
    · exact hf
  env hp he := by
    have h := keeps_of_around (env_around (by rw [hk]; decide) he)
    exact ⟨h.forkPids hp, fun g hg => h.forkOk hg⟩

theorem noZeroMatch_of_fork (hk : k.thread_mode = .fork) {s : State} {e : MonitorEvent}
    (h : Reachable (wholeRun k) s) : Guarded NoZeroMatch e s := by
  obtain ⟨-, hp, hf⟩ := (fork_invariant hk).reachable (fun t ht => by
    subst ht
    exact ⟨List.nodup_singleton _, nofun, by simp [boot, ForkOk]⟩) h
  unfold Guarded
  split
  · rename_i f stack w
    have hw := hf f (by simp)
    cases f with
    | child_handler pc => cases pc <;> first | trivial | exact fun _ => hp hw _
    | _ => trivial
  · trivial

/-- In clone mode a worker's pid field is 0 until the worker fills it in. -/
def ComparesRecorded (k : Setting) (f : Frame) (w : World) : Prop :=
  k.thread_mode = .thread → NoZeroMatch f w

instance (k : Setting) (f : Frame) (w : World) : Decidable (ComparesRecorded k f w) :=
  inferInstanceAs (Decidable (_ → _))

theorem reachable_noZeroMatch {s : State} (hk : k.thread_mode ≠ .pthread)
    (h : Reachable (restrict (wholeRun k) (Guarded (ComparesRecorded k))) s) :
    Reachable (restrict (wholeRun k) (Guarded NoZeroMatch)) s := by
  refine h.restrict_mono fun e t ht hok => ?_
  cases hm : k.thread_mode with
  | fork => exact noZeroMatch_of_fork hm ht.of_restrict
  | thread => exact hok.mono fun _ _ h => h hm
  | pthread => exact absurd hm hk

/-- As long as no result 0 of `waitpid` is taken for the pid of a worker that has
not recorded its own, only the dead are declared dead, and `stop_handler` calls
`output_final_stats` only after both workers have terminated. -/
theorem declared_dead_is_reaped {s : State} (hk : k.thread_mode ≠ .pthread)
    (h : Reachable (restrict (wholeRun k) (Guarded (ComparesRecorded k))) s) :
    (∀ i, s.world.run_data.pid i = -1 → s.world.worker i = .reaped .child_handler) ∧
    ∀ caller, .stop_handler caller .output_final_stats ∈ s.stack →
      ∀ i, (s.world.worker i).Terminated := by
  obtain ⟨-, hp, hf⟩ := (pids_invariant hk).reachable_guarded (fun t ht => by
    subst ht
    exact ⟨List.nodup_singleton _, ⟨fun _ => .inl rfl, nofun⟩, by simp [boot, FrameOk]⟩)
    (reachable_noZeroMatch hk h)
  refine ⟨hp.reaped, fun caller hm i => ?_⟩
  rw [hf _ hm i]
  trivial

/-- Ping dies after both workers have recorded their pids. -/
theorem declared_dead_is_reaped_ping : ∃ s, Reachable (wholeRun (.ofModes .thread .tcp)) s ∧
    s.world.run_data.pid .ping = -1 ∧ s.world.worker .ping = .reaped .child_handler := by
  obtain ⟨s, hs, hp⟩ := exists_reachable_of_exec
    (S := restrict (wholeRun (.ofModes .thread .tcp))
      (Guarded (ComparesRecorded (.ofModes .thread .tcp))))
    (p := fun s => s.world.run_data.pid .ping = -1) rfl
    (.replicate 4 (.step {}) ++ .replicate 2 (.env (.work .ping)) ++
      .replicate 2 (.env (.work .pong)) ++ [.step {}, .env (.die .ping), .deliver .sigchld] ++
      .replicate 3 (.step {}))
    (by decide)
  exact ⟨s, hs.of_restrict, hp, (declared_dead_is_reaped (by decide) hs).1 .ping hp⟩

/-- Ping is stopped or continued before it has looked at its pid field. -/
theorem live_worker_declared_dead : ¬ ∀ k s, k.thread_mode ≠ .pthread → Reachable (wholeRun k) s →
    ∀ i, s.world.run_data.pid i = -1 → s.world.worker i = .reaped .child_handler := by
  intro h
  obtain ⟨s, hs, hp, hw⟩ := exists_reachable_of_exec (S := wholeRun (.ofModes .thread .tcp))
    (p := fun s => s.world.run_data.pid .ping = -1 ∧ s.world.worker .ping = .alive .testPid) rfl
    (.replicate 5 (.step {}) ++ [.env (.stopOrContinue .ping), .deliver .sigchld] ++
      .replicate 3 (.step {}))
    (by decide)
  have hr := h _ s (by decide) hs .ping hp
  rw [hw] at hr
  cases hr

end PingPong.MonitorPids
