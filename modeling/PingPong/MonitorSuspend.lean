import PingPong.MonitorNesting

namespace PingPong.MonitorSuspend

open MonitorState MonitorProgram MonitorFrame MonitorNesting Activation TransitionSystem

variable {k : Setting}

/-- `child_handler` sets `stop` only when the main loop is not between its test
of `stop` and `sigsuspend`. -/
def StopsInTime (e : MonitorEvent) (s : State) : Prop :=
  match e, s.stack with
  | .step _, .child_handler .setStop :: rest => .do_monitor_work .sigsuspend ∉ rest
  | _, _ => True

instance : ∀ (e : MonitorEvent) (s : State), Decidable (StopsInTime e s)
  | .step _, s =>
    decidable_of_iff (s.stack.head? = some (.child_handler .setStop) →
      .do_monitor_work .sigsuspend ∉ s.stack.tail) <| by
      unfold StopsInTime
      split
      · rename_i hs
        simp [hs]
      · rename_i hne
        refine iff_of_true (fun hs => ?_) trivial
        obtain ⟨rest, hr⟩ := List.head?_eq_some_iff.mp hs
        exact absurd hr (hne _ rest rfl)
  | .deliver _, _ | .env _, _ => .isTrue trivial

/-- The monitor is blocked in `sigsuspend` and no signal that it would be
delivered pends. -/
def Asleep (s : State) : Prop :=
  s.stack = [.do_monitor_work .suspended] ∧ s.world.exited = false ∧
    ∀ sig, s.world.pending sig = true → s.world.Ignored sig

instance : DecidablePred Asleep := fun _ => inferInstanceAs (Decidable (_ ∧ _))

/-- Either `stop` is not set, or a `stop_handler` that never returns has set it. -/
structure Awake (s : State) : Prop where
  nested : Nested s
  sigsuspend : .do_monitor_work .sigsuspend ∈ s.stack →
    s.world.run_data.stop = true → s.world.visited ≠ 0
  suspended : s.stack = [.do_monitor_work .suspended] → s.world.run_data.stop = false

theorem do_monitor_work_stop {c : Choice} {w w' : World} {pc : MonitorPc} {n : MonitorNext}
    (h : do_monitor_work k c w pc = (w', n)) (hs : w'.run_data.stop = true) :
    w.run_data.stop = true := by
  cases do_monitor_work_cases h with
  | init_threads | clearStop => cases hs
  | _ => exact hs

theorem monitor_interrupt_stop {c : Choice} {w w' : World} {pc : InterruptPc}
    {n : InterruptNext} (h : monitor_interrupt k c w pc = (w', n)) :
    w'.run_data.stop = w.run_data.stop := by
  obtain ⟨_, _, _, _, rfl, -⟩ := monitor_interrupt_frame h
  rfl

theorem child_handler_stop {c : Choice} {w w' : World} {pc : ChildPc} {o : Option ChildPc}
    (h : child_handler k c w pc = (w', o)) (hpc : pc ≠ .setStop) :
    w'.run_data.stop = w.run_data.stop := by
  obtain ⟨_, _, _, _, _, _, rfl, hs, -⟩ := child_handler_frame h
  exact hs hpc

theorem stop_handler_stop {w w' : World} {pc : StopPc} {o : Option StopPc}
    (h : stop_handler k w pc = (w', o)) (hpc : pc ≠ .setStop) :
    w'.run_data.stop = w.run_data.stop := by
  obtain ⟨_, _, _, _, _, _, _, _, rfl, hs, -⟩ := stop_handler_frame h
  exact hs hpc

theorem execFrame_stop {f : Frame} {c : Choice} {w w' : World} {o : Option Frame}
    (he : execFrame k f c w = some (w', o)) (hs : w'.run_data.stop = true) :
    w.run_data.stop = true ∨ f = .child_handler .setStop ∨ Entered f := by
  cases (execFrame_cases he).2 with
  | main h | mainStop h => exact .inl (do_monitor_work_stop h hs)
  | interrupt h | interruptStop h | interruptRet h =>
    exact .inl ((monitor_interrupt_stop h).symm.trans hs)
  | @child pc _ _ h | @childRet pc _ h =>
    by_cases hpc : pc = .setStop
    · exact .inr (.inl (by rw [hpc]))
    · exact .inl ((child_handler_stop h hpc).symm.trans hs)
  | @stop _ pc _ _ h | @stopRet _ pc _ h _ | @stopMainRet pc _ h =>
    by_cases hpc : pc = .setStop
    · subst pc
      exact .inr (.inr ⟨nofun, nofun⟩)
    · exact .inl ((stop_handler_stop h hpc).symm.trans hs)

theorem accept_run_data {s : Signal} {w w' : World} {o : Option Frame}
    (h : accept s w = some (w', o)) : w'.run_data = w.run_data := by
  cases (accept_cases h).2.2 <;> rfl

theorem do_monitor_work_goto {c : Choice} {w w' : World} {pc pc' : MonitorPc}
    (h : do_monitor_work k c w pc = (w', .goto pc')) :
    (pc' = .sigsuspend → w' = w ∧ w.run_data.stop = false) ∧
      (pc' = .suspended → pc = .sigsuspend ∧ w' = w) := by
  cases do_monitor_work_cases h with
  | goesOn hs => exact ⟨fun _ => ⟨rfl, hs⟩, by rintro ⟨⟩⟩
  | sigsuspend => exact ⟨by rintro ⟨⟩, fun _ => ⟨rfl, rfl⟩⟩
  | created ha | notCreated ha => cases ha <;> exact ⟨by rintro ⟨⟩, by rintro ⟨⟩⟩
  | _ => exact ⟨by rintro ⟨⟩, by rintro ⟨⟩⟩

theorem resumeTop_ne_suspended (stack : List Frame) :
    resumeTop (program k) stack ≠ [.do_monitor_work .suspended] := by
  intro h
  cases stack with
  | nil => cases h
  | cons f rest =>
    obtain ⟨h, -⟩ := List.cons.inj h
    rw [program_resume] at h
    unfold resume at h
    split at h
    · cases h
    · rename_i hne
      exact hne h

theorem Awake.visited {f : Frame} {rest : List Frame} {c : Choice} {w w' : World}
    {o : Option Frame} (h : Awake ⟨f :: rest, w⟩) (hok : StopsInTime (.step c) ⟨f :: rest, w⟩)
    (he : execFrame k f c w = some (w', o)) (hm : .do_monitor_work .sigsuspend ∈ rest)
    (hs : w'.run_data.stop = true) : w'.visited ≠ 0 := by
  refine (execFrame_progress he).visited ?_
  obtain hs | rfl | hf := execFrame_stop he hs
  · exact h.sigsuspend (List.mem_cons_of_mem _ hm) hs
  · exact absurd hm hok
  · exact h.nested.entered.mpr ⟨f, List.mem_cons_self, hf⟩

theorem Awake.step {s t : State} {e : MonitorEvent} (h : Awake s) (hok : StopsInTime e s)
    (hn : next (program k) e s = some t) : Awake t := by
  have ht := h.nested.step hn
  cases next_cases hn with
  | @goto c f f' rest w w' he =>
    rw [program_exec] at he
    refine ⟨ht, fun hm hs => ?_, fun hst => ?_⟩
    · obtain rfl | hm := List.mem_cons.mp hm
      · cases (execFrame_cases he).2 with
        | main hmain =>
          obtain ⟨rfl, hstop⟩ := (do_monitor_work_goto hmain).1 rfl
          exact absurd (hstop.symm.trans hs) nofun
      · exact h.visited hok he hm hs
    · obtain ⟨rfl, rfl⟩ := List.cons.inj hst
      cases (execFrame_cases he).2 with
      | main hmain =>
        obtain ⟨rfl, rfl⟩ := (do_monitor_work_goto hmain).2 rfl
        by_contra hs
        have hv := h.sigsuspend List.mem_cons_self (by simpa using hs)
        obtain ⟨f, hf, hef⟩ := h.nested.entered.mp hv
        rw [List.mem_singleton.mp hf] at hef
        exact hef
  | ret he =>
    exact ⟨ht, fun hm hs => h.visited hok he ((mem_or_suspended hm).resolve_right nofun) hs,
      fun hst => absurd hst (resumeTop_ne_suspended _)⟩
  | @handle sig f stack w w' _ he =>
    have hf : f ≠ .do_monitor_work .sigsuspend ∧ f ≠ .do_monitor_work .suspended := by
      have hs := accept_signal sig w w' f he
      constructor <;> (rintro rfl; cases hs)
    refine ⟨ht, fun hm => ?_, fun hst => absurd (List.cons.inj hst).1 hf.2⟩
    rw [accept_run_data he, accept_visited he]
    exact h.sigsuspend ((List.mem_cons.mp hm).resolve_left hf.1.symm)
  | ignore _ he =>
    refine ⟨ht, ?_, ?_⟩
    · rw [accept_run_data he, accept_visited he]
      exact h.sigsuspend
    · rw [accept_run_data he]
      exact h.suspended
  | env he =>
    have ho := env_outside he
    refine ⟨ht, ?_, ?_⟩
    · rw [ho.stop, ho.visited]
      exact h.sigsuspend
    · rw [ho.stop]
      exact h.suspended

end PingPong.MonitorSuspend
