import PingPong.MonitorReport
import PingPong.MonitorSuspend

namespace PingPong.MonitorStopFlag

open MonitorState MonitorProgram MonitorFrame MonitorNesting MonitorReport MonitorSuspend Activation
open TransitionSystem

variable {k : Setting} {s t : State} {w w' : World}

/-- `child_handler` sets `stop` only when the main program is not about to clear
it in `setup_stop_handler`. -/
def StopsAfterClear (e : MonitorEvent) (s : State) : Prop :=
  match e with
  | .step _ => s.stack.head? = some (.child_handler .setStop) →
      .do_monitor_work .clearStop ∉ s.stack
  | _ => True

instance : ∀ (e : MonitorEvent) (s : State), Decidable (StopsAfterClear e s)
  | .step _, _ => inferInstanceAs (Decidable (_ → _))
  | .deliver _, _ | .env _, _ => .isTrue trivial

/-- The main program has not cleared `stop` for the last time. -/
def Early : MonitorPc → Prop
  | .init_threads | .create _ | .storePid _ | .checkClone | .setup_child_signals | .clearStop =>
    True
  | _ => False

def installer : Signal → MonitorPc
  | .sigchld => .setup_child_signals
  | .sigint => .setup_stop_handler
  | .sigalrm => .setAlarmHandler

def Installed (w : World) : Frame → Prop
  | .child_handler _ => w.disposition .sigchld = .handler
  | .do_monitor_work pc => Early pc → w.disposition .sigint ≠ .handler ∧
      (pc ≠ .clearStop → w.disposition .sigchld ≠ .handler)
  | _ => True

theorem do_monitor_work_disposition {c : Choice} {pc : MonitorPc} {n : MonitorNext} {sig : Signal}
    (hs : sig ≠ .sigalrm) (h : do_monitor_work k c w pc = (w', n)) :
    w'.disposition sig = w.disposition sig ∨
      pc = installer sig ∧ w'.disposition sig = .handler := by
  cases do_monitor_work_cases h with
  | setup_child_signals | setup_stop_handler => cases sig <;> simp [installer]
  | setAlarmHandler _ => exact .inl (Function.update_of_ne hs _ _)
  | _ => exact .inl rfl

theorem execFrame_disposition {f : Frame} {c : Choice} {o : Option Frame} {sig : Signal}
    (hs : sig ≠ .sigalrm) (he : execFrame k f c w = some (w', o)) :
    w'.disposition sig = w.disposition sig ∨
      f = .do_monitor_work (installer sig) ∧ w'.disposition sig = .handler := by
  cases (execFrame_cases he).2 with
  | main h | mainStop h =>
    obtain hd | ⟨rfl, hd⟩ := do_monitor_work_disposition hs h
    · exact .inl hd
    · exact .inr ⟨rfl, hd⟩
  | interrupt h | interruptStop h | interruptRet h =>
    exact .inl (congrFun (monitor_interrupt_disposition h) sig)
  | child h | childRet h => exact .inl (child_handler_disposition hs h)
  | stop h | stopRet h _ | stopMainRet h => exact .inl (stop_handler_disposition hs h)

theorem Installed.mono {f : Frame} (h : Installed w f)
    (hkeep : ∀ sig, sig ≠ .sigalrm → w.disposition sig = .handler → w'.disposition sig = .handler)
    (hmain : f.signal = none →
      ∀ sig, sig ≠ .sigalrm → w'.disposition sig = w.disposition sig) : Installed w' f := by
  cases f with
  | child_handler pc => exact hkeep .sigchld (by decide) h
  | do_monitor_work pc =>
    intro hpc
    have hint := hmain rfl .sigint (by decide)
    have hchld := hmain rfl .sigchld (by decide)
    rw [hint, hchld]
    exact h hpc
  | _ => trivial

theorem early_of_goto {c : Choice} {pc pc' : MonitorPc}
    (h : do_monitor_work k c w pc = (w', .goto pc')) (hpc : Early pc') :
    Early pc ∧ pc ≠ .clearStop ∧ (pc' ≠ .clearStop → pc ≠ .setup_child_signals) := by
  cases do_monitor_work_cases h with
  | init_threads | created _ | notCreated _ | createFails | storePing | storePong | cloneFailed
  | checkClone => exact ⟨trivial, by rintro ⟨⟩, by rintro - ⟨⟩⟩
  | setup_child_signals => exact ⟨trivial, by rintro ⟨⟩, fun hne => absurd rfl hne⟩
  | _ => exact hpc.elim

theorem installed_main {c : Choice} {pc pc' : MonitorPc} (hf : Installed w (.do_monitor_work pc))
    (h : do_monitor_work k c w pc = (w', .goto pc')) : Installed w' (.do_monitor_work pc') := by
  intro hpc
  obtain ⟨hearly, hclear, hchild⟩ := early_of_goto h hpc
  obtain ⟨hint, hchld⟩ := hf hearly
  constructor
  · obtain he | ⟨rfl, -⟩ := do_monitor_work_disposition (show Signal.sigint ≠ .sigalrm by decide) h
    · rwa [he]
    · exact hearly.elim
  · intro hne
    obtain he | ⟨rfl, -⟩ := do_monitor_work_disposition (show Signal.sigchld ≠ .sigalrm by decide) h
    · rw [he]
      exact hchld hclear
    · exact absurd rfl (hchild hne)

theorem installed_invariant (k : Setting) :
    LocalInvariant (program k) (fun _ _ => True) (fun _ => True) Installed where
  exec {f c w w' o} _ _ hf he := by
    rw [program_exec] at he
    have hd {sig : Signal} (hs : sig ≠ .sigalrm) := execFrame_disposition hs he
    have hkeep (sig : Signal) (hs : sig ≠ .sigalrm) (h : w.disposition sig = .handler) :
        w'.disposition sig = .handler := (hd hs).elim (·.trans h) And.right
    have hmain (hne : f.signal ≠ none) (sig : Signal) (hs : sig ≠ .sigalrm) :
        w'.disposition sig = w.disposition sig :=
      (hd hs).resolve_right fun h => hne (h.1 ▸ rfl)
    refine ⟨trivial, fun f' hf' => ?_, fun g hg h => h.mono hkeep fun hn => hmain (hn ▸ hg.symm)⟩
    subst hf'
    cases (execFrame_cases he).2 with
    | main h => exact installed_main hf h
    | child h => exact hkeep .sigchld (by decide) hf
    | stopMainRet h => exact fun hpc => hpc.elim
    | mainStop _ | interrupt _ | interruptStop _ | stop _ => trivial
  accept {s w w' o} _ he := by
    have hd : w'.disposition = w.disposition := by cases (accept_cases he).2.2 <;> rfl
    refine ⟨trivial, fun f hf => ?_, fun g h => h.mono (fun _ _ => hd ▸ id) fun _ _ _ => by rw [hd]⟩
    subst hf
    cases (accept_cases he).2.2 with
    | handled h =>
      cases s with
      | sigchld => exact h
      | sigint | sigalrm => trivial
  resume {w f} hf := by
    rw [program_resume]
    unfold resume
    split
    · exact fun hpc => hpc.elim
    · exact hf
  env {e w w'} _ he := by
    have hd := (env_outside he).disposition
    exact ⟨trivial, fun g h => h.mono (fun _ _ => hd ▸ id) fun _ _ _ => by rw [hd]⟩

theorem reachable_installed (h : Reachable (wholeRun k) s) :
    ∀ f ∈ s.stack, Installed s.world f :=
  ((installed_invariant k).reachable (fun t ht => by
    subst ht
    exact ⟨List.nodup_singleton _, trivial, by simp [boot, Installed]⟩) h).frame

def Unset (s : State) : Prop :=
  ∀ pc, .do_monitor_work pc ∈ s.stack → Early pc → s.world.run_data.stop = false

theorem main_early_resumeTop {stack : List Frame} {pc : MonitorPc} (hpc : Early pc)
    (h : .do_monitor_work pc ∈ resumeTop (program k) stack) : .do_monitor_work pc ∈ stack := by
  obtain h | ⟨⟨⟩, -⟩ := mem_or_suspended h
  · exact h
  · exact hpc.elim

theorem Unset.above {f : Frame} {rest : List Frame} {c : Choice} {o : Option Frame} {pc : MonitorPc}
    (h : Unset ⟨f :: rest, w⟩) (hi : ∀ g ∈ f :: rest, Installed w g)
    (hh : ∀ g ∈ f :: rest, HandlersOk w g) (hok : StopsAfterClear (.step c) ⟨f :: rest, w⟩)
    (hm : .do_monitor_work pc ∈ rest) (hpc : Early pc) (he : execFrame k f c w = some (w', o)) :
    w'.run_data.stop = false := by
  have hm' : .do_monitor_work pc ∈ f :: rest := List.mem_cons_of_mem f hm
  obtain ⟨hint, hchld⟩ := hi _ hm' hpc
  by_contra hs
  obtain hs | rfl | hf := execFrame_stop he (by simpa using hs)
  · exact absurd ((h pc hm' hpc).symm.trans hs) (by decide)
  · have hclear : pc ≠ .clearStop := by
      rintro rfl
      exact hok rfl hm'
    exact hchld hclear (hi _ List.mem_cons_self)
  · cases f with
    | stop_handler caller p => exact hint (hh _ List.mem_cons_self)
    | _ => exact hf

theorem Unset.step {e : MonitorEvent} (h : Unset s) (hi : ∀ f ∈ s.stack, Installed s.world f)
    (hh : ∀ f ∈ s.stack, HandlersOk s.world f) (hok : StopsAfterClear e s)
    (hn : next (program k) e s = some t) : Unset t := by
  intro pc hm hpc
  cases next_cases hn with
  | @goto c f f' rest w w' he =>
    obtain rfl | hm := List.mem_cons.mp hm
    · rw [program_exec] at he
      cases (execFrame_cases he).2 with
      | main hmain =>
        by_contra hs
        have hs' := do_monitor_work_stop hmain (by simpa using hs)
        have hw := h _ List.mem_cons_self (early_of_goto hmain hpc).1
        exact absurd (hw.symm.trans hs') (by decide)
      | stopMainRet _ => exact hpc.elim
    · exact h.above hi hh hok hm hpc he
  | ret he => exact h.above hi hh hok (main_early_resumeTop hpc hm) hpc he
  | handle _ he =>
    rw [accept_run_data he]
    obtain rfl | hm := List.mem_cons.mp hm
    · cases accept_signal _ _ _ _ he
    · exact h pc hm hpc
  | ignore _ he =>
    rw [accept_run_data he]
    exact h pc hm hpc
  | env he =>
    rw [(env_outside he).stop]
    exact h pc hm hpc

/-- Only the two initialisers clear `stop`. -/
theorem do_monitor_work_keeps_stop {c : Choice} {pc : MonitorPc} {n : MonitorNext}
    (hs : w.run_data.stop = true) (h : do_monitor_work k c w pc = (w', n)) :
    w'.run_data.stop = true ∨ Early pc := by
  cases do_monitor_work_cases h with
  | init_threads | created _ | notCreated _ | createFails | storePing | storePong | cloneFailed
  | checkClone | setup_child_signals | clearStop => exact .inr trivial
  | _ => exact .inl hs

theorem child_handler_keeps_stop {c : Choice} {pc : ChildPc} {o : Option ChildPc}
    (hs : w.run_data.stop = true) (h : child_handler k c w pc = (w', o)) :
    w'.run_data.stop = true := by
  by_cases hpc : pc = .setStop
  · subst pc
    obtain ⟨rfl, -⟩ := Prod.mk.inj h
    rfl
  · exact (child_handler_stop h hpc).trans hs

theorem stop_handler_keeps_stop {pc : StopPc} {o : Option StopPc}
    (hs : w.run_data.stop = true) (h : stop_handler k w pc = (w', o)) :
    w'.run_data.stop = true := by
  by_cases hpc : pc = .setStop
  · subst pc
    obtain ⟨rfl, -⟩ := Prod.mk.inj h
    rfl
  · exact (stop_handler_stop h hpc).trans hs

theorem execFrame_keeps_stop {f : Frame} {c : Choice} {o : Option Frame}
    (hs : w.run_data.stop = true) (he : execFrame k f c w = some (w', o)) :
    w'.run_data.stop = true ∨ ∃ pc, f = .do_monitor_work pc ∧ Early pc := by
  cases (execFrame_cases he).2 with
  | main h | mainStop h => exact (do_monitor_work_keeps_stop hs h).imp_right fun hp => ⟨_, rfl, hp⟩
  | interrupt h | interruptStop h | interruptRet h =>
    exact .inl ((monitor_interrupt_stop h).trans hs)
  | child h | childRet h => exact .inl (child_handler_keeps_stop hs h)
  | stop h | stopRet h _ | stopMainRet h => exact .inl (stop_handler_keeps_stop hs h)

theorem Unset.keeps_stop {e : MonitorEvent} (h : Unset s) (hs : s.world.run_data.stop = true)
    (hn : next (program k) e s = some t) : t.world.run_data.stop = true := by
  cases next_cases hn with
  | goto he | ret he =>
    obtain ht | ⟨pc, rfl, hpc⟩ := execFrame_keeps_stop hs he
    · exact ht
    · exact absurd ((h pc List.mem_cons_self hpc).symm.trans hs) (by decide)
  | handle _ he | ignore _ he =>
    rw [accept_run_data he]
    exact hs
  | env he =>
    rw [(env_outside he).stop]
    exact hs

theorem reachable_handlers (h : Reachable (wholeRun k) s) :
    ∀ f ∈ s.stack, HandlersOk s.world f :=
  (signals_invariant.reachable (fun t ht => by
    subst ht
    exact ⟨List.nodup_singleton _, ⟨by rintro ⟨⟩, by rintro ⟨⟩, by rintro ⟨⟩⟩,
      by simp [boot, HandlersOk]⟩) h).frame

theorem reachable_unset (h : Reachable (restrict (wholeRun k) StopsAfterClear) s) : Unset s := by
  refine h.induct (fun t ht => ?_) fun t e u hr hu hn => ?_
  · subst ht
    exact fun _ _ _ => rfl
  · obtain ⟨hok, hn⟩ := restrict_next.mp hn
    exact hu.step (reachable_installed hr.of_restrict) (reachable_handlers hr.of_restrict) hok hn

/-- As long as `child_handler` does not set `stop` when the main program is about
to clear it, `stop` is true in every state after one where it was. -/
theorem stop_stays {tr : List MonitorEvent}
    (h : Reachable (restrict (wholeRun k) StopsAfterClear) s) (hs : s.world.run_data.stop = true)
    (ht : exec (restrict (wholeRun k) StopsAfterClear).next tr s = some t) :
    t.world.run_data.stop = true := by
  induction tr generalizing s with
  | nil =>
    cases ht
    exact hs
  | cons e tr ih =>
    obtain ⟨u, hu, ht⟩ := Option.bind_eq_some_iff.mp ht
    exact ih (h.next hu) ((reachable_unset h).keeps_stop hs (restrict_next.mp hu).2) ht

/-- Ping's death, after `stop` has been cleared. -/
theorem stop_stays_fork : ∃ s t : State, Reachable (wholeRun (.ofModes .fork .tcp)) s ∧
    s.world.run_data.stop = true ∧ t.stack = [.do_monitor_work (.testReady .ping)] ∧
    t.world.run_data.stop = true := by
  obtain ⟨s, hs, hstop, ht⟩ := exists_reachable_of_exec
    (S := restrict (wholeRun (.ofModes .fork .tcp)) StopsAfterClear)
    (p := fun s => s.world.run_data.stop = true ∧
      (exec (restrict (wholeRun (.ofModes .fork .tcp)) StopsAfterClear).next
        (.replicate 6 (.step {})) s).any
          (fun t => t.stack = [.do_monitor_work (.testReady .ping)]) = true) rfl
    (.replicate 8 (.step {}) ++ [.env (.die .ping), .deliver .sigchld] ++ .replicate 4 (.step {}))
    (by decide +kernel)
  obtain ⟨t, ht, hst⟩ := (Option.any_eq_true _ _).mp ht
  exact ⟨s, t, hs.of_restrict, hstop, of_decide_eq_true hst, stop_stays hs hstop ht⟩

/-- Ping dies between `setup_child_signals` and `setup_stop_handler`. -/
theorem stop_cleared : ¬ ∀ k (s t : State) tr,
    Reachable (wholeRun k) s → s.world.worker .ping ≠ .unborn →
    s.world.run_data.stop = true → exec (wholeRun k).next tr s = some t →
    t.world.run_data.stop = true := by
  intro h
  obtain ⟨s, hs, ⟨hborn, hstop⟩, ht⟩ := exists_reachable_of_exec
    (S := wholeRun (.ofModes .fork .tcp))
    (p := fun s => (s.world.worker .ping ≠ .unborn ∧ s.world.run_data.stop = true) ∧
      (exec (wholeRun (.ofModes .fork .tcp)).next (.replicate 7 (.step {})) s).any
        (fun t => t.world.run_data.stop = false) = true) rfl
    (.replicate 6 (.step {}) ++ [.env (.die .ping), .deliver .sigchld] ++ .replicate 4 (.step {}))
    (by decide +kernel)
  obtain ⟨t, ht, hf⟩ := (Option.any_eq_true _ _).mp ht
  exact absurd ((of_decide_eq_true hf).symm.trans (h _ s t _ hs hborn hstop ht)) (by decide)

end PingPong.MonitorStopFlag
