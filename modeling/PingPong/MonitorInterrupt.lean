import PingPong.MonitorReady

namespace PingPong.MonitorInterrupt

open MonitorState MonitorProgram MonitorFrame MonitorBarrier MonitorNesting MonitorReport
open MonitorReady Activation TransitionSystem

variable {k : Setting} {s t : State} {w w' : World} {i : Worker}

def stepsLeft : InterruptPc → Nat
  | .testInterrupt => 12
  | .enter => 11
  | .testRequest => 10
  | .gatherTime => 9
  | .loadPid .ping => 8
  | .wait4 .ping _ => 7
  | .loadPid .pong => 6
  | .wait4 .pong _ => 5
  | .testStop => 4
  | .storeTime => 3
  | .testTimeout => 2
  | .leave => 1

theorem monitor_interrupt_advances {c : Choice} {pc pc' : InterruptPc}
    (h : monitor_interrupt k c w pc = (w', .goto pc')) : stepsLeft pc' < stepsLeft pc := by
  cases monitor_interrupt_cases h with
  | @loadPid i => cases i <;> simp [stepsLeft]
  | _ => simp [stepsLeft]

/-- An activation that has raised `in_interrupt` and not lowered it again. -/
def Ticking : Frame → Prop
  | .monitor_interrupt pc => pc ≠ .testInterrupt ∧ pc ≠ .enter
  | .stop_handler .sigalrm _ => True
  | _ => False

theorem Ticking.signal {f : Frame} (h : Ticking f) : f.signal = some .sigalrm := by
  cases f with
  | monitor_interrupt pc => rfl
  | stop_handler caller pc =>
    cases caller with
    | sigalrm => rfl
    | main | sigint => exact h.elim
  | do_monitor_work _ | child_handler _ => exact h.elim

@[simp] theorem ticking_resume (f : Frame) : Ticking (resume f) ↔ Ticking f := by
  unfold resume
  split <;> rfl

/-- Before anyone stops, `in_interrupt` counts the activation that has raised it. -/
def Counted (s : State) : Prop :=
  s.world.visited = 0 →
    s.world.in_interrupt = 0 ∧ (∀ f ∈ s.stack, ¬ Ticking f) ∨
    s.world.in_interrupt = 1 ∧ ∃ f ∈ s.stack, Ticking f

inductive Counts (w w' : World) : Frame → Option Frame → Prop
  | keep {f : Frame} {o : Option Frame} : w'.in_interrupt = w.in_interrupt →
      (∀ f', o = some f' → (Ticking f' ↔ Ticking f)) →
      (o = none → Ticking f → w.visited ≠ 0) → Counts w w' f o
  | enter : w'.in_interrupt = w.in_interrupt + 1 →
      Counts w w' (.monitor_interrupt .enter) (some (.monitor_interrupt .testRequest))
  | leave : w'.in_interrupt = w.in_interrupt - 1 → Counts w w' (.monitor_interrupt .leave) none

theorem do_monitor_work_in_interrupt {c : Choice} {pc : MonitorPc} {n : MonitorNext}
    (h : do_monitor_work k c w pc = (w', n)) : w'.in_interrupt = w.in_interrupt := by
  cases do_monitor_work_cases h <;> rfl

theorem child_handler_in_interrupt {c : Choice} {pc : ChildPc} {o : Option ChildPc}
    (h : child_handler k c w pc = (w', o)) : w'.in_interrupt = w.in_interrupt := by
  obtain ⟨_, _, _, _, _, _, rfl, -⟩ := child_handler_frame h
  rfl

theorem stop_handler_in_interrupt {pc : StopPc} {o : Option StopPc}
    (h : stop_handler k w pc = (w', o)) : w'.in_interrupt = w.in_interrupt := by
  obtain ⟨_, _, _, _, _, _, _, _, rfl, -⟩ := stop_handler_frame h
  rfl

theorem monitor_interrupt_in_interrupt {c : Choice} {pc : InterruptPc} {n : InterruptNext}
    (he : pc ≠ .enter) (hl : pc ≠ .leave) (h : monitor_interrupt k c w pc = (w', n)) :
    w'.in_interrupt = w.in_interrupt := by
  obtain ⟨_, _, _, _, rfl, -, hi, -⟩ := monitor_interrupt_frame h
  exact hi he hl

theorem ticking_of_goto {c : Choice} {pc pc' : InterruptPc} (he : pc ≠ .enter)
    (h : monitor_interrupt k c w pc = (w', .goto pc')) :
    Ticking (.monitor_interrupt pc') ↔ Ticking (.monitor_interrupt pc) := by
  cases monitor_interrupt_cases h with
  | enter => exact absurd rfl he
  | _ => simp [Ticking]

theorem env_in_interrupt {e : EnvEvent} (h : env k w e = some w') :
    w'.in_interrupt = w.in_interrupt := by
  cases env_cases h with
  | @work _ pc _ => cases pc <;> rfl
  | @interrupt i pc _ _ =>
    generalize hv : interrupt_thread k i pc w = v
    cases interrupt_thread_cases hv <;> rfl
  | _ => rfl

theorem monitor_interrupt_ends {c : Choice} {pc : InterruptPc} {n : InterruptNext}
    (h : monitor_interrupt k c w pc = (w', n)) (hn : ∀ pc', n ≠ .goto pc') :
    pc = .testInterrupt ∧ n = .ret ∧ w.in_interrupt ≠ 0 ∨
    pc = .testTimeout ∧ n = .stop_handler ∧ w.run_data.timeout_time ≤ w.run_data.last_stats_time ∨
    pc = .leave ∧ n = .ret := by
  cases monitor_interrupt_cases h with
  | busy hbusy => exact .inl ⟨rfl, rfl, hbusy⟩
  | reached hreached => exact .inr (.inl ⟨rfl, rfl, hreached⟩)
  | leave => exact .inr (.inr ⟨rfl, rfl⟩)
  | _ => exact absurd rfl (hn _)

theorem execFrame_counts {f : Frame} {c : Choice} {o : Option Frame}
    (he : execFrame k f c w = some (w', o)) : Counts w w' f o := by
  cases (execFrame_cases he).2 with
  | main h | mainStop h =>
    refine .keep (do_monitor_work_in_interrupt h) ?_ (by rintro ⟨⟩)
    rintro _ ⟨⟩
    exact Iff.rfl
  | @interrupt pc pc' _ h =>
    by_cases hpc : pc = .enter
    · subst pc
      cases h
      exact .enter rfl
    · have hl : pc ≠ .leave := by
        rintro rfl
        cases h
      refine .keep (monitor_interrupt_in_interrupt hpc hl h) ?_ (by rintro ⟨⟩)
      rintro _ ⟨⟩
      exact ticking_of_goto hpc h
  | interruptStop h =>
    obtain ⟨rfl, hn, -⟩ | ⟨rfl, -, -⟩ | ⟨rfl, hn⟩ := monitor_interrupt_ends h (by rintro _ ⟨⟩)
    · cases hn
    · refine .keep (monitor_interrupt_in_interrupt (by decide) (by decide) h) ?_ (by rintro ⟨⟩)
      rintro _ ⟨⟩
      simp [Ticking]
    · cases hn
  | interruptRet h =>
    obtain ⟨rfl, -, -⟩ | ⟨rfl, hn, -⟩ | ⟨rfl, -⟩ := monitor_interrupt_ends h (by rintro _ ⟨⟩)
    · exact .keep (monitor_interrupt_in_interrupt (by decide) (by decide) h) (by rintro _ ⟨⟩)
        fun _ ht => absurd rfl ht.1
    · cases hn
    · cases h
      exact .leave rfl
  | child h =>
    refine .keep (child_handler_in_interrupt h) ?_ (by rintro ⟨⟩)
    rintro _ ⟨⟩
    exact Iff.rfl
  | childRet h => exact .keep (child_handler_in_interrupt h) (by rintro _ ⟨⟩) fun _ ht => ht.elim
  | @stop caller _ _ _ h =>
    refine .keep (stop_handler_in_interrupt h) ?_ (by rintro ⟨⟩)
    rintro _ ⟨⟩
    cases caller <;> exact Iff.rfl
  | stopRet h _ =>
    exact .keep (stop_handler_in_interrupt h) (by rintro _ ⟨⟩) fun _ _ => (stop_handler_returns h).2
  | stopMainRet h =>
    refine .keep (stop_handler_in_interrupt h) ?_ (by rintro ⟨⟩)
    rintro _ ⟨⟩
    exact Iff.rfl

theorem Ticking.not_below {f g : Frame} {rest : List Frame} (hd : Distinct (program k) (f :: rest))
    (hf : f.signal = some .sigalrm) (hg : g ∈ rest) : ¬ Ticking g :=
  fun ht => hd.tail_ne hg (ht.signal.trans hf.symm)

theorem exists_ticking_resumeTop (stack : List Frame) :
    (∃ f ∈ resumeTop (program k) stack, Ticking f) ↔ ∃ f ∈ stack, Ticking f := by
  cases stack with
  | nil => rfl
  | cons f rest => simp [resumeTop]

theorem counted_iff : Counted s ↔ (s.world.visited = 0 →
    s.world.in_interrupt = 0 ∧ (¬ ∃ f ∈ s.stack, Ticking f) ∨
    s.world.in_interrupt = 1 ∧ ∃ f ∈ s.stack, Ticking f) := by
  simp only [Counted, not_exists, not_and]

theorem Counted.keep (h : Counted s) (hv : t.world.visited = 0 → s.world.visited = 0)
    (hi : t.world.in_interrupt = s.world.in_interrupt)
    (hf : s.world.visited = 0 → ((∃ f ∈ t.stack, Ticking f) ↔ ∃ f ∈ s.stack, Ticking f)) :
    Counted t := by
  rw [counted_iff] at h ⊢
  intro h0
  rw [hi, hf (hv h0)]
  exact h (hv h0)

theorem Counted.step {e : MonitorEvent} (h : Counted s) (hd : Distinct (program k) s.stack)
    (hn : Step (program k) e s t) : Counted t := by
  cases hn with
  | @goto c f f' rest w w' he =>
    have hv : w'.visited = 0 → w.visited = 0 := fun h0 => not_not.mp fun hv =>
      (execFrame_progress he).visited hv h0
    cases execFrame_counts he with
    | keep hi hf _ => exact h.keep hv hi fun _ => by simp [hf f' rfl]
    | enter hi =>
      intro h0
      obtain ⟨hz, -⟩ | ⟨-, g, hg, ht⟩ := h (hv h0)
      · exact .inr ⟨by rw [hi, hz], _, List.mem_cons_self, by simp [Ticking]⟩
      · obtain rfl | hg := List.mem_cons.mp hg
        · exact absurd rfl ht.2
        · exact absurd ht (Ticking.not_below hd rfl hg)
  | @ret c f rest w w' he =>
    have hv : w'.visited = 0 → w.visited = 0 := fun h0 => not_not.mp fun hv =>
      (execFrame_progress he).visited hv h0
    cases execFrame_counts he with
    | keep hi _ hr =>
      refine h.keep hv hi fun h0 => ?_
      rw [exists_ticking_resumeTop, List.exists_mem_cons_iff]
      exact (or_iff_right fun ht => hr rfl ht h0).symm
    | leave hi =>
      rw [counted_iff]
      intro h0
      rw [exists_ticking_resumeTop]
      left
      constructor
      · obtain ⟨hz, -⟩ | ⟨h1, -⟩ := h (hv h0)
        · rw [hi, hz]
        · rw [hi, h1]
      · rintro ⟨g, hg, ht⟩
        exact Ticking.not_below hd rfl hg ht
  | @handle sig f stack w w' hb he =>
    obtain ⟨-, -, hdel⟩ := accept_cases he
    cases hdel
    refine h.keep (by simp) rfl fun _ => ?_
    rw [List.exists_mem_cons_iff]
    refine or_iff_right ?_
    cases sig
    · exact id
    · exact fun ht => ht.1 rfl
    · exact id
  | ignore _ he =>
    refine h.keep (by simp [accept_visited he]) ?_ fun _ => Iff.rfl
    cases (accept_cases he).2.2 <;> rfl
  | env he =>
    exact h.keep (by simp [(env_outside he).visited]) (env_in_interrupt he) fun _ => Iff.rfl

end PingPong.MonitorInterrupt
