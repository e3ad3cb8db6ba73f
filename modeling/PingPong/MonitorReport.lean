import PingPong.MonitorNesting

namespace PingPong.MonitorReport

open MonitorState MonitorProgram MonitorFrame MonitorNesting Activation TransitionSystem

variable {k : Setting}

/-- No signal that can still arrive has its default action while the monitor
could be stopping. -/
structure SignalsOk (w : World) : Prop where
  sigint : w.disposition .sigalrm = .handler → w.disposition .sigint = .handler
  timer : w.timer = true → w.disposition .sigalrm ≠ .dfl
  pending : w.pending .sigalrm = true → w.disposition .sigalrm ≠ .dfl

def HandlersOk (w : World) : Frame → Prop
  | .stop_handler _ _ | .monitor_interrupt _ => w.disposition .sigint = .handler
  | .do_monitor_work .setTimer =>
    w.disposition .sigint = .handler ∧ w.disposition .sigalrm ≠ .dfl
  | .do_monitor_work (.testReady _) | .do_monitor_work .setAlarmHandler
  | .do_monitor_work .setStart | .do_monitor_work .comm_begin | .do_monitor_work .get_time
  | .do_monitor_work (.setStartTime _) | .do_monitor_work .setTimeoutTime
  | .do_monitor_work .testStop | .do_monitor_work .sigsuspend | .do_monitor_work .suspended =>
    w.disposition .sigint = .handler
  | _ => True

structure Installs (w w' : World) : Prop where
  sigint : w.disposition .sigint = .handler → w'.disposition .sigint = .handler
  sigalrm : w.disposition .sigalrm ≠ .dfl → w'.disposition .sigalrm ≠ .dfl

theorem HandlersOk.mono {w w' : World} {f : Frame} (h : HandlersOk w f) (hi : Installs w w') :
    HandlersOk w' f := by
  unfold HandlersOk at h ⊢
  split at h <;> first | exact hi.sigint h | exact ⟨hi.sigint h.1, hi.sigalrm h.2⟩ | trivial

structure Calm (w w' : World) : Prop where
  sigint : w'.disposition .sigint = w.disposition .sigint
  sigalrm : w'.disposition .sigalrm = w.disposition .sigalrm ∨ w'.disposition .sigalrm = .ignore
  timer : w'.timer = true → w.timer = true
  pending : w'.pending .sigalrm = true → w.pending .sigalrm = true

theorem Calm.installs {w w' : World} (h : Calm w w') : Installs w w' := by
  refine ⟨h.sigint.trans, fun hs => ?_⟩
  obtain he | he := h.sigalrm <;> rw [he]
  · exact hs
  · nofun

theorem SignalsOk.calm {w w' : World} (h : SignalsOk w) (hc : Calm w w') : SignalsOk w' := by
  refine ⟨fun ha => ?_, fun ht => hc.installs.sigalrm (h.timer (hc.timer ht)),
    fun hp => hc.installs.sigalrm (h.pending (hc.pending hp))⟩
  obtain he | he := hc.sigalrm <;> rw [he] at ha
  · exact hc.sigint.trans (h.sigint ha)
  · cases ha

theorem stop_handler_calm {w w' : World} {pc : StopPc} {o : Option StopPc}
    (h : stop_handler k w pc = (w', o)) : Calm w w' := by
  cases stop_handler_cases h with
  | ignoreAlarm => exact ⟨by simp, .inr (by simp), id, by simp⟩
  | stopTimer => exact ⟨rfl, .inl rfl, by rintro ⟨⟩, id⟩
  | _ => exact ⟨rfl, .inl rfl, id, id⟩

theorem monitor_interrupt_calm {c : Choice} {w w' : World} {pc : InterruptPc} {n : InterruptNext}
    (h : monitor_interrupt k c w pc = (w', n)) : Calm w w' := by
  obtain ⟨_, _, _, _, rfl, -⟩ := monitor_interrupt_frame h
  exact ⟨rfl, .inl rfl, id, id⟩

theorem child_handler_calm {c : Choice} {w w' : World} {pc : ChildPc} {o : Option ChildPc}
    (h : child_handler k c w pc = (w', o)) : Calm w w' := by
  cases child_handler_cases h with
  | ignoreAlarm => exact ⟨by simp, .inr (by simp), id, by simp⟩
  | stopTimer => exact ⟨rfl, .inl rfl, by rintro ⟨⟩, id⟩
  | _ => exact ⟨rfl, .inl rfl, id, id⟩

theorem do_monitor_work_signals {c : Choice} {w w' : World} {pc : MonitorPc} {n : MonitorNext}
    (hs : SignalsOk w) (hf : HandlersOk w (.do_monitor_work pc))
    (h : do_monitor_work k c w pc = (w', n)) :
    SignalsOk w' ∧ Installs w w' ∧ (∀ pc', n = .goto pc' → HandlersOk w' (.do_monitor_work pc')) ∧
      (n = .stop_handler → w'.disposition .sigint = .handler) := by
  have hcalm (hc : Calm w w') (hn : ∀ pc', n = .goto pc' → HandlersOk w (.do_monitor_work pc'))
      (hst : n = .stop_handler → w.disposition .sigint = .handler) :
      SignalsOk w' ∧ Installs w w' ∧
        (∀ pc', n = .goto pc' → HandlersOk w' (.do_monitor_work pc')) ∧
        (n = .stop_handler → w'.disposition .sigint = .handler) :=
    ⟨hs.calm hc, hc.installs, fun pc' hpc => (hn pc' hpc).mono hc.installs,
      fun hn => hc.sigint.trans (hst hn)⟩
  have hrefl : Calm w w := ⟨rfl, .inl rfl, id, id⟩
  cases do_monitor_work_cases h with
  | created ha | notCreated ha =>
    exact hcalm ⟨rfl, .inl rfl, id, id⟩ (by rintro _ ⟨⟩; cases ha <;> trivial) (by rintro ⟨⟩)
  | setup_child_signals =>
    exact hcalm ⟨by simp, .inl (by simp), id, id⟩ (by rintro _ ⟨⟩; trivial) (by rintro ⟨⟩)
  | setup_stop_handler =>
    refine ⟨⟨fun _ => by simp, ?_, ?_⟩, ⟨fun _ => by simp, ?_⟩, ?_, by rintro ⟨⟩⟩
    · simpa using hs.timer
    · simpa using hs.pending
    · simp
    · rintro _ ⟨⟩
      simp [HandlersOk]
  | setAlarmHandler _ =>
    have hf : w.disposition .sigint = .handler := hf
    refine ⟨⟨fun _ => by simpa using hf, by simp, by simp⟩, ⟨by simp, by simp⟩, ?_,
      by rintro ⟨⟩⟩
    rintro _ ⟨⟩
    exact ⟨by simpa using hf, by simp⟩
  | setTimer =>
    exact ⟨⟨hs.sigint, fun _ => hf.2, hs.pending⟩, ⟨id, id⟩, by rintro _ ⟨⟩; exact hf.1,
      by rintro ⟨⟩⟩
  | stops _ => exact hcalm hrefl (by rintro _ ⟨⟩) fun _ => hf
  | suspended => exact hcalm hrefl (by rintro _ ⟨⟩) (by rintro ⟨⟩)
  | notReady _ | readyPing _ | readyPong _ | noUpdates _ | goesOn _ =>
    exact hcalm hrefl (by rintro _ ⟨⟩; exact hf) (by rintro ⟨⟩)
  | _ => exact hcalm ⟨rfl, .inl rfl, id, id⟩ (by rintro _ ⟨⟩; trivial) (by rintro ⟨⟩)

theorem SignalsOk.outside {w w' : World} (h : SignalsOk w) (ho : Outside w w') :
    SignalsOk w' ∧ Installs w w' := by
  refine ⟨⟨?_, ?_, fun hp => ?_⟩, ?_⟩
  · rw [ho.disposition]
    exact h.sigint
  · rw [ho.disposition, ho.timer]
    exact h.timer
  · rw [ho.disposition]
    exact (ho.sigalrm hp).elim h.pending h.timer
  · constructor <;> (rw [ho.disposition]; exact id)

theorem signals_invariant : LocalInvariant (program k) (fun _ _ => True) SignalsOk HandlersOk where
  exec {f c w w' o} _ hs hf he := by
    have hcalm (hc : Calm w w') (hn : ∀ f', o = some f' → HandlersOk w f') : SignalsOk w' ∧
        (∀ f', o = some f' → HandlersOk w' f') ∧
        ∀ g : Frame, g.signal ≠ f.signal → HandlersOk w g → HandlersOk w' g :=
      ⟨hs.calm hc, fun f' hf' => (hn f' hf').mono hc.installs, fun g _ hg => hg.mono hc.installs⟩
    rw [program_exec] at he
    cases (execFrame_cases he).2 with
    | main h =>
      obtain ⟨hs', hi, hn, -⟩ := do_monitor_work_signals hs hf h
      exact ⟨hs', fun f' hf' => by cases hf'; exact hn _ rfl, fun g _ hg => hg.mono hi⟩
    | mainStop h =>
      obtain ⟨hs', hi, -, hst⟩ := do_monitor_work_signals hs hf h
      exact ⟨hs', fun f' hf' => by cases hf'; exact hst rfl, fun g _ hg => hg.mono hi⟩
    | interrupt h | interruptStop h =>
      exact hcalm (monitor_interrupt_calm h) fun f' hf' => by cases hf'; exact hf
    | interruptRet h => exact hcalm (monitor_interrupt_calm h) nofun
    | child h => exact hcalm (child_handler_calm h) fun f' hf' => by cases hf'; trivial
    | childRet h => exact hcalm (child_handler_calm h) nofun
    | stop h => exact hcalm (stop_handler_calm h) fun f' hf' => by cases hf'; exact hf
    | stopRet h _ => exact hcalm (stop_handler_calm h) nofun
    | stopMainRet h => exact hcalm (stop_handler_calm h) fun f' hf' => by cases hf'; trivial
  accept {s w w' o} hs he := by
    have hc : Calm w w' := by
      have hp : (w.setPending s false).pending .sigalrm = true → w.pending .sigalrm = true := by
        by_cases hs : Signal.sigalrm = s <;> simp [hs]
      cases (accept_cases he).2.2
      · exact ⟨rfl, .inl rfl, id, hp⟩
      · exact ⟨rfl, .inl rfl, id, hp⟩
      · exact ⟨rfl, .inl rfl, id, id⟩
    refine ⟨hs.calm hc, fun f hf => HandlersOk.mono ?_ hc.installs, fun g hg => hg.mono hc.installs⟩
    subst hf
    cases (accept_cases he).2.2 with
    | handled hd =>
      cases s with
      | sigint => exact hd
      | sigalrm => exact hs.sigint hd
      | sigchld => trivial
  resume {w f} hf := by
    rw [program_resume]
    unfold resume
    split
    · exact hf
    · exact hf
  env hs he := by
    obtain ⟨hs', hi⟩ := hs.outside (env_outside he)
    exact ⟨hs', fun g hg => hg.mono hi⟩

def doneBefore : StopPc → List Effect
  | .output_final_stats => [.comm_cleanup]
  | .monitor_cleanup => [.comm_cleanup, .output_final_stats]
  | .exit => [.comm_cleanup, .output_final_stats, .monitor_cleanup]
  | _ => []

def fullReport : List Effect := [.comm_cleanup, .output_final_stats, .monitor_cleanup, .exit]

def Stopping (s : State) : Prop := ∃ caller pc, .stop_handler caller pc ∈ s.stack

/-- Everything a step of an activation does that can be told from outside, when
the cleanup of the mode returns. -/
inductive Emits (w w' : World) : Frame → Option Frame → Prop
  | silent {f : Frame} {o : Option Frame} : ¬ Passed f → (∀ f', o = some f' → ¬ Entered f') →
      w'.exited = false → w'.output = w.output → Emits w w' f o
  | fail {pc pc' : MonitorPc} {x : Effect} : w'.exited = true → x ≠ .output_final_stats →
      w'.output = w.output ++ [x] → Emits w w' (.do_monitor_work pc) (some (.do_monitor_work pc'))
  | stop (caller : Caller) {pc pc' : StopPc} : w'.exited = false → pc' ≠ .testVisited →
      (w.output = doneBefore pc → w'.output = doneBefore pc') →
      Emits w w' (.stop_handler caller pc) (some (.stop_handler caller pc'))
  | exit (caller : Caller) : w'.exited = true →
      (w.output = doneBefore .exit → w'.output = fullReport) →
      Emits w w' (.stop_handler caller .exit) (some (.stop_handler caller .exit))

theorem do_monitor_work_output {c : Choice} {w w' : World} {pc : MonitorPc} {n : MonitorNext}
    (h : do_monitor_work k c w pc = (w', n)) :
    w'.exited = w.exited ∧ w'.output = w.output ∨
      (∃ pc', n = .goto pc') ∧ w'.exited = true ∧
        ∃ x, x ≠ .output_final_stats ∧ w'.output = w.output ++ [x] := by
  cases do_monitor_work_cases h with
  | createFails | cloneFailed =>
    exact .inr ⟨⟨_, rfl⟩, rfl, .exit_fail, by rintro ⟨⟩, rfl⟩
  | ret => exact .inr ⟨⟨_, rfl⟩, rfl, .exit, by rintro ⟨⟩, rfl⟩
  | _ => exact .inl ⟨rfl, rfl⟩

theorem monitor_interrupt_output {c : Choice} {w w' : World} {pc : InterruptPc} {n : InterruptNext}
    (h : monitor_interrupt k c w pc = (w', n)) : w'.exited = w.exited ∧ w'.output = w.output := by
  obtain ⟨_, _, _, _, rfl, -⟩ := monitor_interrupt_frame h
  exact ⟨rfl, rfl⟩

theorem child_handler_output {c : Choice} {w w' : World} {pc : ChildPc} {o : Option ChildPc}
    (h : child_handler k c w pc = (w', o)) : w'.exited = w.exited ∧ w'.output = w.output := by
  obtain ⟨_, _, _, _, _, _, rfl, -⟩ := child_handler_frame h
  exact ⟨rfl, rfl⟩

theorem stop_handler_emits {c : Caller} {w w' : World} {pc : StopPc} {o : Option StopPc}
    (hk : k.comm_mode.comm_cleanup.exits = false) (hx : w.exited = false)
    (h : stop_handler k w pc = (w', o)) :
    Emits w w' (.stop_handler c pc) (o.map (.stop_handler c)) := by
  cases stop_handler_cases h with
  | passes _ => exact .silent (fun h => h rfl) (by rintro _ ⟨⟩) hx rfl
  | cleanupExits hexits => exact absurd (hexits.symm.trans hk) (by decide)
  | comm_cleanup _ | output_final_stats | monitor_cleanup =>
    exact .stop c hx (by rintro ⟨⟩) fun ho => by simp [ho, doneBefore]
  | exit => exact .exit c rfl fun ho => by simp [ho, doneBefore, fullReport]
  | _ => exact .stop c hx (by rintro ⟨⟩) id

theorem execFrame_emits {f : Frame} {c : Choice} {w w' : World} {o : Option Frame}
    (hk : k.comm_mode.comm_cleanup.exits = false) (he : execFrame k f c w = some (w', o)) :
    Emits w w' f o := by
  obtain ⟨hx, he⟩ := execFrame_cases he
  cases he with
  | main h =>
    obtain ⟨hx', ho⟩ | ⟨-, hx', x, hne, ho⟩ := do_monitor_work_output h
    · exact .silent id (by rintro _ ⟨⟩; exact id) (hx'.trans hx) ho
    · exact .fail hx' hne ho
  | mainStop h =>
    obtain ⟨hx', ho⟩ | ⟨⟨_, hn⟩, -⟩ := do_monitor_work_output h
    · exact .silent id (by rintro _ ⟨⟩; exact fun h => h.1 rfl) (hx'.trans hx) ho
    · cases hn
  | interrupt h =>
    obtain ⟨hx', ho⟩ := monitor_interrupt_output h
    exact .silent id (by rintro _ ⟨⟩; exact id) (hx'.trans hx) ho
  | interruptStop h =>
    obtain ⟨hx', ho⟩ := monitor_interrupt_output h
    exact .silent id (by rintro _ ⟨⟩; exact fun h => h.1 rfl) (hx'.trans hx) ho
  | interruptRet h =>
    obtain ⟨hx', ho⟩ := monitor_interrupt_output h
    exact .silent id nofun (hx'.trans hx) ho
  | child h =>
    obtain ⟨hx', ho⟩ := child_handler_output h
    exact .silent id (by rintro _ ⟨⟩; exact id) (hx'.trans hx) ho
  | childRet h =>
    obtain ⟨hx', ho⟩ := child_handler_output h
    exact .silent id nofun (hx'.trans hx) ho
  | stop h | stopRet h _ => exact stop_handler_emits hk hx h
  | stopMainRet h =>
    cases stop_handler_emits (c := .main) hk hx h with
    | silent hp _ hx' ho => exact .silent hp (by rintro _ ⟨⟩; exact id) hx' ho

structure Reporting (s : State) : Prop where
  nested : Nested s
  idle : s.world.exited = false → s.world.visited = 0 → s.world.output = []
  stopping : s.world.exited = false → ∀ caller pc, .stop_handler caller pc ∈ s.stack →
    Entered (.stop_handler caller pc) → s.world.output = doneBefore pc
  exited : s.world.exited = true → s.world.output = fullReport ∨
    ¬ Stopping s ∧ .output_final_stats ∉ s.world.output

theorem Reporting.silent {s t : State} (h : Reporting s) (ht : Nested t)
    (hx : s.world.exited = false) (hx' : t.world.exited = false)
    (ho : t.world.output = s.world.output) (hv : t.world.visited = s.world.visited)
    (hm : ∀ f ∈ t.stack, Entered f → f ∈ s.stack) : Reporting t where
  nested := ht
  idle _ hz := ho.trans (h.idle hx (hv ▸ hz))
  stopping _ caller pc hf he := ho.trans (h.stopping hx caller pc (hm _ hf he) he)
  exited hx'' := absurd (hx'.symm.trans hx'') nofun

theorem doneBefore_of_not_entered {caller : Caller} {pc : StopPc}
    (h : ¬ Entered (.stop_handler caller pc)) : doneBefore pc = [] := by
  cases pc <;> first | rfl | exact absurd ⟨nofun, nofun⟩ h

theorem Reporting.passed {caller : Caller} {pc : StopPc} {below : List Frame} {w : World}
    (h : Reporting ⟨.stop_handler caller pc :: below, w⟩) (hx : w.exited = false)
    (hp : Passed (.stop_handler caller pc)) : w.output = doneBefore pc := by
  by_cases he : Entered (.stop_handler caller pc)
  · exact h.stopping hx caller pc List.mem_cons_self he
  · rw [doneBefore_of_not_entered he]
    refine h.idle hx (not_not.mp fun hv => ?_)
    obtain ⟨g, hg, hge⟩ := h.nested.entered.mp hv
    obtain rfl | hg := List.mem_cons.mp hg
    · exact he hge
    · exact h.nested.not_entered hp g hg hge

theorem Reporting.goto {f f' : Frame} {below : List Frame} {w w' : World}
    (h : Reporting ⟨f :: below, w⟩) (ht : Nested ⟨f' :: below, w'⟩) (hx : w.exited = false)
    (hp : Progress w w' f (some f')) (he : Emits w w' f (some f')) :
    Reporting ⟨f' :: below, w'⟩ := by
  cases he with
  | silent hf hf' hx' ho =>
    have hv : w'.visited = w.visited := by
      cases hp with
      | outside _ _ hv => exact hv
      | pass _ _ hw => rw [hw]
      | visit _ _ => exact absurd nofun hf
      | inside hef _ _ => exact absurd hef.passed hf
    refine h.silent ht hx hx' ho hv fun g hg hge => ?_
    obtain rfl | hg := List.mem_cons.mp hg
    · exact absurd hge (hf' _ rfl)
    · exact List.mem_cons_of_mem _ hg
  | fail hx' hne ho =>
    obtain rfl := h.nested.below rfl
    have hv : w.visited = 0 := not_not.mp fun hv => by
      obtain ⟨g, hg, hge⟩ := h.nested.entered.mp hv
      rw [List.mem_singleton.mp hg] at hge
      exact hge
    rw [h.idle hx hv] at ho
    refine ⟨ht, fun hn => absurd (hx'.symm.trans hn) nofun,
      fun hn => absurd (hx'.symm.trans hn) nofun, fun _ => .inr ⟨?_, ?_⟩⟩
    · rintro ⟨caller, pc, hm⟩
      cases List.mem_singleton.mp hm
    · simpa [ho] using hne.symm
  | @stop caller pc pc' hx' hne ho =>
    have hout : w'.output = doneBefore pc' := by
      cases hp with
      | outside _ hn _ => exact absurd hne (hn _ rfl)
      | pass _ hv _ => exact ho (h.idle hx hv)
      | visit _ _ => exact ho (h.passed hx nofun)
      | inside he _ _ => exact ho (h.passed hx he.passed)
    refine ⟨ht, fun _ hv => ?_, fun _ caller₂ pc₂ hm he => ?_,
      fun hn => absurd (hx'.symm.trans hn) nofun⟩
    · rw [hout]
      exact doneBefore_of_not_entered fun he => ht.entered.mpr ⟨_, List.mem_cons_self, he⟩ hv
    · obtain heq | hm := List.mem_cons.mp hm
      · cases heq
        exact hout
      · exact absurd he (ht.not_entered hne _ hm)
  | exit caller hx' ho =>
    refine ⟨ht, fun hn => absurd (hx'.symm.trans hn) nofun,
      fun hn => absurd (hx'.symm.trans hn) nofun, fun _ => .inl (ho ?_)⟩
    exact h.passed hx nofun

theorem interrupt_thread_output (hk : k.thread_mode ≠ .pthread) (i : Worker) (w : World)
    (pc : WorkerPc) : (interrupt_thread k i pc w).exited = w.exited ∧
      (interrupt_thread k i pc w).output = w.output := by
  generalize hv : interrupt_thread k i pc w = v
  cases interrupt_thread_cases hv with
  | ret _ | die _ _ => exact ⟨rfl, rfl⟩
  | finish _ _ hk' => exact absurd hk' hk

theorem env_output {w w' : World} {e : EnvEvent} (hk : k.thread_mode ≠ .pthread)
    (h : env k w e = some w') : w'.exited = w.exited ∧ w'.output = w.output := by
  cases env_cases h with
  | @work _ pc _ => cases pc <;> exact ⟨rfl, rfl⟩
  | exit _ hk' | untold hk' => exact absurd hk' hk
  | interrupt _ _ => exact interrupt_thread_output hk _ w _
  | tick _ | sigint | die _ _ | stopOrContinue _ | pass _ => exact ⟨rfl, rfl⟩

theorem mem_of_mem_resumeTop {stack : List Frame} {g : Frame}
    (h : g ∈ resumeTop (program k) stack) (hg : Entered g) : g ∈ stack := by
  obtain h | ⟨rfl, -⟩ := mem_or_suspended h
  · exact h
  · exact hg.elim

theorem Reporting.killed {stack : List Frame} {w : World} {sig : Signal}
    (h : Reporting ⟨stack, w⟩) (ht : Nested ⟨stack, w.finish [.killed]⟩) (hx : w.exited = false)
    (hf : ∀ f ∈ stack, HandlersOk w f) (hs : SignalsOk w) (hp : w.pending sig = true)
    (hd : w.disposition sig = .dfl) (hne : sig ≠ .sigchld) :
    Reporting ⟨stack, w.finish [.killed]⟩ := by
  have hstop : ¬ Stopping ⟨stack, w⟩ := by
    rintro ⟨caller, pc, hm⟩
    have hi : w.disposition .sigint = .handler := hf _ hm
    cases sig with
    | sigint => exact absurd (hi.symm.trans hd) nofun
    | sigalrm => exact hs.pending hp hd
    | sigchld => exact hne rfl
  have hv : w.visited = 0 := not_not.mp fun hv => by
    obtain ⟨g, hg, hge⟩ := h.nested.entered.mp hv
    cases g with
    | stop_handler caller pc => exact hstop ⟨caller, pc, hg⟩
    | _ => exact hge
  have ho : w.output = [] := h.idle hx hv
  exact ⟨ht, nofun, nofun, fun _ => .inr ⟨hstop, by simp [ho]⟩⟩

theorem Reporting.step {s t : State} {e : MonitorEvent} (hp : k.thread_mode ≠ .pthread)
    (hk : k.comm_mode.comm_cleanup.exits = false) (hs : SignalsOk s.world)
    (hf : ∀ f ∈ s.stack, HandlersOk s.world f) (h : Reporting s)
    (hn : next (program k) e s = some t) : Reporting t := by
  have ht := h.nested.step hn
  cases next_cases hn with
  | goto he =>
    exact h.goto ht (execFrame_cases he).1 (execFrame_progress he) (execFrame_emits hk he)
  | ret he =>
    have hx := (execFrame_cases he).1
    cases execFrame_progress he with
    | outside _ _ hv =>
      cases execFrame_emits hk he with
      | silent _ _ hx' ho =>
        exact h.silent ht hx hx' ho hv fun g hg hge =>
          List.mem_cons_of_mem _ (mem_of_mem_resumeTop hg hge)
  | @handle sig f stack w w' hb he =>
    obtain ⟨hx, -, hd⟩ := accept_cases he
    cases hd
    refine h.silent ht hx hx rfl rfl fun g hg hge => ?_
    obtain rfl | hg := List.mem_cons.mp hg
    · exact absurd hge.passed (not_passed_handlerOf sig)
    · exact hg
  | @ignore sig stack w w' hb he =>
    obtain ⟨hx, hpend, hd⟩ := accept_cases he
    cases hd with
    | ignored _ => exact h.silent ht hx hx rfl rfl fun g hg _ => hg
    | killed hd hne => exact h.killed ht hx hf hs hpend hd hne
  | env he =>
    obtain ⟨hx, ho⟩ := env_output hp he
    have hv := (env_outside he).visited
    refine ⟨ht, ?_, ?_, ?_⟩
    · rw [hx, ho, hv]
      exact h.idle
    · rw [hx, ho]
      exact h.stopping
    · rw [hx, ho]
      exact h.exited

/-- The process exits while stopping only after the final report, which is made
once, and the cleanup of the monitor. -/
def Reports (s : State) : Prop :=
  (Stopping s → s.world.exited = true → s.world.output = fullReport) ∧
    s.world.output.count .output_final_stats ≤ 1

theorem count_doneBefore (pc : StopPc) : (doneBefore pc).count .output_final_stats ≤ 1 := by
  unfold doneBefore
  split <;> decide

theorem Reporting.reports {s : State} (h : Reporting s) : Reports s := by
  refine ⟨fun hst hx => (h.exited hx).resolve_right fun hn => hn.1 hst, ?_⟩
  cases hx : s.world.exited with
  | true =>
    obtain ho | ⟨-, ho⟩ := h.exited hx
    · rw [ho]
      decide
    · rw [List.count_eq_zero_of_not_mem ho]
      exact Nat.zero_le 1
  | false =>
    by_cases hv : s.world.visited = 0
    · rw [h.idle hx hv]
      exact Nat.zero_le 1
    · obtain ⟨f, hf, he⟩ := h.nested.entered.mp hv
      cases f with
      | stop_handler caller pc =>
        rw [h.stopping hx caller pc hf he]
        exact count_doneBefore pc
      | _ => exact absurd he id

/-- Worker processes, and a cleanup that returns, make every stopped run report. -/
theorem stopped_run_reports {s : State} (hp : k.thread_mode ≠ .pthread)
    (hk : k.comm_mode.comm_cleanup.exits = false) (h : Reachable (wholeRun k) s) : Reports s := by
  have hr : Reporting s := by
    refine h.induct (fun t ht => ?_) fun t e u hreach hrep hn => ?_
    · subst ht
      exact ⟨nested_boot, fun _ _ => rfl, by simp [boot], by rintro ⟨⟩⟩
    · obtain ⟨-, hs, hf⟩ := signals_invariant.reachable (fun v hv => by
        subst hv
        exact ⟨List.nodup_singleton _, ⟨by rintro ⟨⟩, by rintro ⟨⟩, by rintro ⟨⟩⟩,
          by simp [boot, HandlersOk]⟩) hreach
      exact hrep.step hp hk hs hf hn
  exact hr.reports

def stopBySigint : List MonitorEvent :=
  toSigsuspend ++ [.step {}, .env .sigint, .deliver .sigint] ++ .replicate 7 (.step {}) ++
    [.env (.interrupt .ping), .env (.interrupt .pong), .deliver .sigchld] ++
    .replicate 17 (.step {})

theorem stopped_run_reports_sigint : ∃ s, Reachable (wholeRun (.ofModes .fork .tcp)) s ∧
    s.world.exited = true ∧ s.world.output = fullReport := by
  obtain ⟨s, hs, hst, hx⟩ := exists_reachable_of_exec (S := wholeRun (.ofModes .fork .tcp))
    (p := fun s => s.stack.head? = some (.stop_handler .sigint .exit) ∧ s.world.exited = true) rfl
    (stopBySigint ++ .replicate 3 (.step {})) (by decide +kernel)
  have hr := stopped_run_reports (by decide) rfl hs
  exact ⟨s, hs, hx, hr.1 ⟨_, _, List.mem_of_mem_head? hst⟩ hx⟩

/-- The process has ended inside `stop_handler`, after the cleanup of the mode only. -/
def EndsSilently (pc : StopPc) (s : State) : Prop :=
  s.stack.head? = some (.stop_handler .sigint pc) ∧ s.world.exited = true ∧
    s.world.output = [.comm_cleanup, .exit]

instance (pc : StopPc) : DecidablePred (EndsSilently pc) := fun _ =>
  inferInstanceAs (Decidable (_ ∧ _))

theorem EndsSilently.not_reports {pc : StopPc} {s : State} (h : EndsSilently pc s) :
    ¬ Reports s := by
  obtain ⟨hst, hx, ho⟩ := h
  intro hr
  have hf := hr.1 ⟨_, _, List.mem_of_mem_head? hst⟩ hx
  rw [ho] at hf
  cases hf

/-- A worker thread's `exit` is the monitor's, and so is that of a cleanup that
does not return. -/
theorem stopped_run_silent :
    (¬ ∀ s, Reachable (wholeRun (.ofModes .pthread .tcp)) s → Reports s) ∧
      ¬ ∀ s, Reachable (wholeRun (.ofModes .fork .pipe)) s → Reports s := by
  constructor
  · intro h
    obtain ⟨s, hs, he⟩ := exists_reachable_of_exec (S := wholeRun (.ofModes .pthread .tcp))
      (p := EndsSilently (.send_sig .pong)) rfl
      (.replicate 6 (.step {}) ++ .replicate 3 (.env (.work .ping)) ++
        [.env .sigint, .deliver .sigint] ++ .replicate 6 (.step {}) ++ [.env (.interrupt .ping)])
      (by decide +kernel)
    exact he.not_reports (h s hs)
  · intro h
    obtain ⟨s, hs, he⟩ := exists_reachable_of_exec (S := wholeRun (.ofModes .fork .pipe))
      (p := EndsSilently .comm_cleanup) rfl stopBySigint (by decide +kernel)
    exact he.not_reports (h s hs)

end PingPong.MonitorReport
