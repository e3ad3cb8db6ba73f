import PingPong.MonitorFrame

namespace PingPong.MonitorNesting

open MonitorState MonitorProgram MonitorFrame Activation TransitionSystem

variable {k : Setting}

/-- An activation of `stop_handler` that has found `visited` to be 0. -/
def Passed : Frame → Prop
  | .stop_handler _ pc => pc ≠ .testVisited
  | _ => False

/-- An activation of `stop_handler` that has raised `visited` and never returns. -/
def Entered : Frame → Prop
  | .stop_handler _ pc => pc ≠ .testVisited ∧ pc ≠ .visit
  | _ => False

theorem Entered.passed {f : Frame} (h : Entered f) : Passed f := by
  cases f with
  | stop_handler _ _ => exact h.1
  | _ => exact h

inductive Progress (w w' : World) : Frame → Option Frame → Prop
  | outside {f : Frame} {o : Option Frame} : ¬ Passed f → (∀ f', o = some f' → ¬ Passed f') →
      w'.visited = w.visited → Progress w w' f o
  | pass (caller : Caller) : w.visited = 0 → w' = w →
      Progress w w' (.stop_handler caller .testVisited) (some (.stop_handler caller .visit))
  | visit (caller : Caller) : w'.visited = w.visited + 1 →
      Progress w w' (.stop_handler caller .visit) (some (.stop_handler caller .ignoreAlarm))
  | inside {f f' : Frame} : Entered f → Entered f' → w'.visited = w.visited →
      Progress w w' f (some f')

theorem do_monitor_work_visited {c : Choice} {w w' : World} {pc : MonitorPc} {n : MonitorNext}
    (h : do_monitor_work k c w pc = (w', n)) : w'.visited = w.visited := by
  cases do_monitor_work_cases h <;> rfl

theorem monitor_interrupt_visited {c : Choice} {w w' : World} {pc : InterruptPc}
    {n : InterruptNext} (h : monitor_interrupt k c w pc = (w', n)) : w'.visited = w.visited := by
  obtain ⟨_, _, _, _, rfl, -⟩ := monitor_interrupt_frame h
  rfl

theorem child_handler_visited {c : Choice} {w w' : World} {pc : ChildPc} {o : Option ChildPc}
    (h : child_handler k c w pc = (w', o)) : w'.visited = w.visited := by
  obtain ⟨_, _, _, _, _, _, rfl, -⟩ := child_handler_frame h
  rfl

theorem stop_handler_progress {c : Caller} {w w' : World} {pc : StopPc} {o : Option StopPc}
    (h : stop_handler k w pc = (w', o)) :
    Progress w w' (.stop_handler c pc) (o.map (.stop_handler c)) := by
  cases stop_handler_cases h with
  | passes _ => exact .outside (fun h => h rfl) (by rintro _ ⟨⟩) rfl
  | first hv => exact .pass c hv rfl
  | visit => exact .visit c rfl
  | _ => exact .inside (by constructor <;> rintro ⟨⟩) (by constructor <;> rintro ⟨⟩) rfl

theorem execFrame_progress {f : Frame} {c : Choice} {w w' : World} {o : Option Frame}
    (he : execFrame k f c w = some (w', o)) : Progress w w' f o := by
  cases (execFrame_cases he).2 with
  | main h => exact .outside id (by rintro _ ⟨⟩; exact id) (do_monitor_work_visited h)
  | mainStop h =>
    exact .outside id (by rintro _ ⟨⟩; exact fun h => h rfl) (do_monitor_work_visited h)
  | interrupt h => exact .outside id (by rintro _ ⟨⟩; exact id) (monitor_interrupt_visited h)
  | interruptStop h =>
    exact .outside id (by rintro _ ⟨⟩; exact fun h => h rfl) (monitor_interrupt_visited h)
  | interruptRet h => exact .outside id nofun (monitor_interrupt_visited h)
  | child h => exact .outside id (by rintro _ ⟨⟩; exact id) (child_handler_visited h)
  | childRet h => exact .outside id nofun (child_handler_visited h)
  | stop h => exact stop_handler_progress h
  | stopRet h _ => exact stop_handler_progress h
  | stopMainRet h =>
    cases stop_handler_progress (c := .main) h with
    | outside hp _ hv => exact .outside hp (by rintro _ ⟨⟩; exact id) hv

theorem Progress.visited {f : Frame} {w w' : World} {o : Option Frame} (h : Progress w w' f o)
    (hv : w.visited ≠ 0) : w'.visited ≠ 0 := by
  cases h with
  | outside _ _ hw | inside _ _ hw => exact hw ▸ hv
  | pass _ _ hw => exact hw ▸ hv
  | visit _ hw => exact hw ▸ Nat.succ_ne_zero _

theorem accept_visited {s : Signal} {w w' : World} {o : Option Frame}
    (h : accept s w = some (w', o)) : w'.visited = w.visited := by
  cases (accept_cases h).2.2 <;> rfl

/-- What happens around the monitor leaves its own variables alone, and the
timer is all that raises `SIGALRM`. -/
structure Outside (w w' : World) : Prop where
  visited : w'.visited = w.visited
  stop : w'.run_data.stop = w.run_data.stop
  disposition : w'.disposition = w.disposition
  timer : w'.timer = w.timer
  sigalrm : w'.pending .sigalrm = true → w.pending .sigalrm = true ∨ w.timer = true

theorem Outside.of_eq {w w' : World} (hv : w'.visited = w.visited)
    (hs : w'.run_data.stop = w.run_data.stop) (hd : w'.disposition = w.disposition)
    (ht : w'.timer = w.timer) (hp : w'.pending .sigalrm = w.pending .sigalrm) : Outside w w' :=
  ⟨hv, hs, hd, ht, fun h => .inl (hp.symm.trans h)⟩

theorem raise_outside {s : Signal} (w : World) (hs : s = .sigalrm → w.timer = true) :
    Outside w (w.raise s) :=
  ⟨rfl, rfl, rfl, rfl, fun h => (World.pending_of_raise h).imp_right fun h => hs h.symm⟩

theorem die_outside (w : World) (i : Worker) : Outside w (w.die i) := by
  have h := raise_outside (s := .sigchld) (w.setWorker i .zombie) nofun
  exact ⟨h.visited, h.stop, h.disposition, h.timer, h.sigalrm⟩

theorem do_thread_work_outside (i : Worker) (w : World) (pc : WorkerPc) :
    Outside w (do_thread_work k i w pc) := by
  cases pc <;> exact .of_eq rfl rfl rfl rfl rfl

theorem interrupt_thread_outside (i : Worker) (w : World) (pc : WorkerPc) :
    Outside w (interrupt_thread k i pc w) := by
  generalize hv : interrupt_thread k i pc w = v
  cases interrupt_thread_cases hv with
  | ret _ | finish _ _ _ => exact .of_eq rfl rfl rfl rfl rfl
  | die rusage_req _ =>
    have h := die_outside (signalled w i rusage_req) i
    exact ⟨h.visited, h.stop, h.disposition, h.timer, h.sigalrm⟩

theorem env_outside {w w' : World} {e : EnvEvent} (h : env k w e = some w') : Outside w w' := by
  cases env_cases h with
  | tick ht => exact raise_outside w fun _ => ht
  | sigint | stopOrContinue _ => exact raise_outside w nofun
  | work _ => exact do_thread_work_outside _ w _
  | die _ _ => exact die_outside w _
  | interrupt _ _ => exact interrupt_thread_outside _ w _
  | exit _ _ | untold _ | pass _ => exact .of_eq rfl rfl rfl rfl rfl

theorem not_passed_handlerOf (s : Signal) : ¬ Passed (handlerOf s) := by
  cases s
  · exact fun h => h rfl
  · exact id
  · exact id

@[simp] theorem passed_resume (f : Frame) : Passed (resume f) ↔ Passed f := by
  unfold resume
  split <;> rfl

@[simp] theorem entered_resume (f : Frame) : Entered (resume f) ↔ Entered f := by
  unfold resume
  split <;> rfl

/-- What holds of two activations, the first above the second: the main program
lies at the bottom, and nothing gets past the guard above a `stop_handler` that
has entered. -/
def Above (u l : Frame) : Prop := u.signal ≠ none ∧ (Passed u → ¬ Entered l)

structure Nested (s : State) : Prop where
  above : s.stack.Pairwise Above
  entered : s.world.visited ≠ 0 ↔ ∃ f ∈ s.stack, Entered f

theorem above_resume {u l : Frame} (h : Above u l) : Above (resume u) l := by
  simpa [Above, resume_signal] using h

theorem exists_entered_resumeTop (stack : List Frame) :
    (∃ f ∈ resumeTop (program k) stack, Entered f) ↔ ∃ f ∈ stack, Entered f := by
  cases stack with
  | nil => rfl
  | cons f rest => simp [resumeTop]

theorem Nested.goto {f f' : Frame} {rest : List Frame} {w w' : World}
    (h : Nested ⟨f :: rest, w⟩) (hs : f'.signal = f.signal) (hp : Progress w w' f (some f')) :
    Nested ⟨f' :: rest, w'⟩ := by
  obtain ⟨hf, hrest⟩ := List.pairwise_cons.mp h.above
  have he := h.entered
  simp only [List.exists_mem_cons_iff] at he
  have habove (hpass : Passed f' → ∀ l ∈ rest, ¬ Entered l) : (f' :: rest).Pairwise Above :=
    List.pairwise_cons.mpr
      ⟨fun l hl => ⟨hs ▸ (hf l hl).1, fun hp => hpass hp l hl⟩, hrest⟩
  cases hp with
  | outside hnf hnf' hv =>
    refine ⟨habove fun hp => absurd hp (hnf' f' rfl), ?_⟩
    rw [hv, he, List.exists_mem_cons_iff]
    exact or_congr_left ⟨fun h => absurd h.passed hnf, fun h => absurd h.passed (hnf' f' rfl)⟩
  | pass caller hv hw =>
    have hnone : ∀ l ∈ rest, ¬ Entered l := fun l hl hel => he.mpr (.inr ⟨l, hl, hel⟩) hv
    refine ⟨habove fun _ => hnone, ?_⟩
    rw [hw, he, List.exists_mem_cons_iff]
    exact or_congr_left ⟨fun h => absurd rfl h.1, fun h => absurd rfl h.2⟩
  | visit caller hv =>
    refine ⟨habove fun _ l hl => (hf l hl).2 nofun, ?_⟩
    rw [hv]
    exact ⟨fun _ => ⟨_, List.mem_cons_self, nofun, nofun⟩, fun _ => Nat.succ_ne_zero _⟩
  | inside hef hef' hv =>
    refine ⟨habove fun _ l hl => (hf l hl).2 hef.passed, ?_⟩
    rw [hv, he, List.exists_mem_cons_iff]
    exact or_congr_left ⟨fun _ => hef', fun _ => hef⟩

theorem Nested.step {s t : State} {e : MonitorEvent} (h : Nested s)
    (hn : next (program k) e s = some t) : Nested t := by
  cases next_cases hn with
  | goto he => exact h.goto (execFrame_signal _ _ _ _ _ _ he) (execFrame_progress he)
  | @ret c f rest w w' he =>
    obtain ⟨-, hrest⟩ := List.pairwise_cons.mp h.above
    cases execFrame_progress he with
    | outside hf _ hv =>
      refine ⟨pairwise_resumeTop (fun _ _ => above_resume) hrest, ?_⟩
      rw [exists_entered_resumeTop, hv, h.entered, List.exists_mem_cons_iff]
      exact or_iff_right fun he => hf he.passed
  | @handle sig f stack w w' hb he =>
    have hs := accept_signal _ _ _ _ he
    have hf : ¬ Passed f := by
      cases (accept_cases he).2.2
      exact not_passed_handlerOf sig
    refine ⟨List.pairwise_cons.mpr
      ⟨fun l _ => ⟨by rw [hs]; nofun, fun hp => absurd hp hf⟩, h.above⟩, ?_⟩
    rw [accept_visited he, h.entered, List.exists_mem_cons_iff]
    exact (or_iff_right fun he => hf he.passed).symm
  | ignore _ he =>
    refine ⟨h.above, ?_⟩
    rw [accept_visited he]
    exact h.entered
  | env he =>
    refine ⟨h.above, ?_⟩
    rw [(env_outside he).visited]
    exact h.entered

theorem Nested.below {f : Frame} {below : List Frame} {w : World} (h : Nested ⟨f :: below, w⟩)
    (hf : f.signal = none) : below = [] := by
  cases below with
  | nil => rfl
  | cons g rest =>
    exact absurd hf ((List.pairwise_cons.mp h.above).1 g List.mem_cons_self).1

theorem Nested.not_entered {f : Frame} {below : List Frame} {w : World}
    (h : Nested ⟨f :: below, w⟩) (hf : Passed f) : ∀ g ∈ below, ¬ Entered g :=
  fun g hg => ((List.pairwise_cons.mp h.above).1 g hg).2 hf

theorem nested_boot : Nested boot :=
  ⟨List.pairwise_singleton _ _, by simp [boot, Entered]⟩

theorem nested_of_setUp {s : State} (h : SetUp k s) : Nested s := by
  refine ⟨?_, ?_⟩
  · rw [h.stack]
    exact List.pairwise_singleton _ _
  · simp [h.stack, h.visited, Entered]

end PingPong.MonitorNesting
