import PingPong.MonitorReaping
import PingPong.MonitorNesting

namespace PingPong.MonitorStopWait

open MonitorState MonitorProgram MonitorFrame MonitorFootprint MonitorReaping MonitorNesting
open Activation TransitionSystem

variable {k : Setting}

def waiting : StopPc → Prop
  | .testPid _ | .do_sleep => True
  | _ => False

/-- The monitor waits for its workers to die while an activation of
`child_handler` below blocks `SIGCHLD`. -/
def WaitsBlocked (s : State) : Prop :=
  ∃ above caller pc below, s.stack = above ++ .stop_handler caller pc :: below ∧ waiting pc ∧
    ∃ pc', .child_handler pc' ∈ below

/-- A `stop_handler` that starts above these activations returns at once, or
does not suspend `child_handler`, or has no death to wait for. -/
def MayStop (w : World) (below : List Frame) : Prop :=
  w.visited ≠ 0 ∨ childPc below = none ∨ ∀ i, w.run_data.pid i = -1

instance (w : World) (below : List Frame) : Decidable (MayStop w below) :=
  inferInstanceAs (Decidable (_ ∨ _))

/-- `SIGINT` is delivered, and a periodic update finds the time to be up, only
when a `stop_handler` may start there. -/
def StopsBetweenDeaths (e : MonitorEvent) (s : State) : Prop :=
  match e, s.stack with
  | .deliver .sigint, below => MayStop s.world below
  | .step _, .monitor_interrupt .testTimeout :: below =>
    s.world.run_data.timeout_time ≤ s.world.run_data.last_stats_time → MayStop s.world below
  | _, _ => True

instance (e : MonitorEvent) (s : State) : Decidable (StopsBetweenDeaths e s) := by
  unfold StopsBetweenDeaths
  split <;> infer_instance

def Clear (w : World) (u l : Frame) : Prop :=
  ∀ caller pc pc', u = .stop_handler caller pc → l = .child_handler pc' →
    (∀ i, w.run_data.pid i = -1) ∨ pc = .testVisited ∧ w.visited ≠ 0

theorem Clear.mono {w w' : World} {u l : Frame} (h : Clear w u l)
    (hp : (∀ i, w.run_data.pid i = -1) → ∀ i, w'.run_data.pid i = -1)
    (hv : w.visited ≠ 0 → w'.visited ≠ 0) : Clear w' u l :=
  fun caller pc pc' hu hl => (h caller pc pc' hu hl).imp hp (And.imp_right hv)

theorem MayStop.clear {w : World} {below : List Frame} (h : MayStop w below) (caller : Caller)
    {l : Frame} (hl : l ∈ below) : Clear w (.stop_handler caller .testVisited) l := by
  rintro _ _ pc' ⟨⟩ rfl
  obtain hv | hc | hp := h
  · exact .inr ⟨rfl, hv⟩
  · exact absurd hl (not_mem_of_childPc hc pc')
  · exact .inl hp

structure Waits (k : Setting) (s : State) : Prop where
  books : Books k s
  nested : Nested s
  clear : s.stack.Pairwise (Clear s.world)

theorem clear_of_ne {w : World} {u l : Frame} (h : ∀ caller pc, u ≠ .stop_handler caller pc) :
    Clear w u l := fun caller pc _ hu => absurd hu (h caller pc)

theorem monitor_interrupt_stop_handler {c : Choice} {w w' : World} {pc : InterruptPc}
    (h : monitor_interrupt k c w pc = (w', .stop_handler)) :
    pc = .testTimeout ∧ w.run_data.timeout_time ≤ w.run_data.last_stats_time := by
  cases monitor_interrupt_cases h with
  | reached hreached => exact ⟨rfl, hreached⟩

theorem clear_resume {w : World} {f l : Frame} (h : Clear w f l) : Clear w (resume f) l := by
  unfold resume
  split
  · exact clear_of_ne nofun
  · exact h

theorem Clear.goto {f f' l : Frame} {below : List Frame} {c : Choice} {w w' : World}
    (hl : l ∈ below) (ha : f.signal ≠ none) (h : Clear w f l)
    (hok : StopsBetweenDeaths (.step c) ⟨f :: below, w⟩)
    (he : execFrame k f c w = some (w', some f')) : Clear w f' l := by
  cases (execFrame_cases he).2 with
  | main _ | mainStop _ => exact absurd rfl ha
  | interrupt _ | child _ | stopMainRet _ => exact clear_of_ne nofun
  | @interruptStop pc _ hi =>
    obtain ⟨rfl, ht⟩ := monitor_interrupt_stop_handler hi
    exact (hok ht).clear _ hl
  | @stop caller pc pc' _ hs =>
    rintro _ _ pc'' ⟨⟩ rfl
    obtain hp | ⟨rfl, hv⟩ := h caller pc pc'' rfl rfl
    · exact .inl hp
    · simp [stop_handler, hv] at hs

theorem Waits.step {s t : State} {e : MonitorEvent} (h : Waits k s)
    (hok : StopsBetweenDeaths e s) (hn : next (program k) e s = some t) : Waits k t := by
  have hdead : (∀ i, s.world.run_data.pid i = -1) → ∀ i, t.world.run_data.pid i = -1 :=
    fun hp i => h.books.dead hn (hp i)
  refine ⟨h.books.step hn, h.nested.step hn, ?_⟩
  cases next_cases hn with
  | @goto c f f' below w w' he =>
    obtain ⟨hf, hbelow⟩ := List.pairwise_cons.mp h.clear
    obtain ⟨hab, -⟩ := List.pairwise_cons.mp h.nested.above
    have hv := (execFrame_progress he).visited
    refine List.pairwise_cons.mpr ⟨fun l hl => ?_, hbelow.imp fun hc => hc.mono hdead hv⟩
    exact ((hf l hl).goto hl (hab l hl).1 hok he).mono hdead hv
  | ret he =>
    obtain ⟨-, hbelow⟩ := List.pairwise_cons.mp h.clear
    have hv := (execFrame_progress he).visited
    exact pairwise_resumeTop (fun _ _ => clear_resume) (hbelow.imp fun hc => hc.mono hdead hv)
  | @handle sig f below w w' _ he =>
    have hv := accept_visited he
    refine List.pairwise_cons.mpr ⟨fun l hl => ?_, h.clear.imp fun hc => hc.mono hdead (hv ▸ id)⟩
    cases (accept_cases he).2.2
    cases sig with
    | sigint => exact (MayStop.clear hok .sigint hl).mono hdead id
    | sigalrm | sigchld => exact clear_of_ne nofun
  | ignore _ he =>
    have hv := accept_visited he
    exact h.clear.imp fun hc => hc.mono hdead (hv ▸ id)
  | env he =>
    have hv := (env_outside he).visited
    exact h.clear.imp fun hc => hc.mono hdead (hv ▸ id)

/-- As long as `stop_handler` does not start above a `child_handler` that it
would suspend, the monitor waits only for deaths it can be told about. -/
theorem blocked_wait_is_over {s : State}
    (h : Reachable (restrict (monitor k) StopsBetweenDeaths) s) (hw : WaitsBlocked s) (i : Worker) :
    s.world.run_data.pid i = -1 := by
  have hinv : Waits k s := by
    refine h.invariant (fun t ht => ?_) fun _ _ _ hi hn => ?_
    · refine ⟨books_of_setUp ht, nested_of_setUp ht, ?_⟩
      rw [ht.stack]
      exact List.pairwise_singleton _ _
    · obtain ⟨hok, hn⟩ := restrict_next.mp hn
      exact hi.step hok hn
  obtain ⟨above, caller, pc, below, hs, hpc, pc', hm⟩ := hw
  have hc := hinv.clear
  rw [hs] at hc
  have hc' := (List.pairwise_cons.mp (List.pairwise_append.mp hc).2.1).1 _ hm
  obtain hp | ⟨rfl, -⟩ := hc' caller pc pc' rfl rfl
  · exact hp i
  · exact absurd hpc id

/-- `SIGINT` arrives after `child_handler` has recorded both deaths. -/
theorem blocked_wait_is_over_both : ∃ s, Reachable (monitor (.ofModes .fork .tcp)) s ∧
    WaitsBlocked s ∧ s.world.run_data.pid .ping = -1 := by
  obtain ⟨s, hs, hst⟩ := exists_reachable_of_exec
    (S := restrict (monitor (.ofModes .fork .tcp)) StopsBetweenDeaths)
    (p := fun s => s.stack = [.stop_handler .sigint (.testPid .ping), .child_handler .setStop,
      .do_monitor_work .suspended])
    (setUp_setUpState (by decide))
    (.replicate 7 (.step {}) ++ [.env (.die .ping), .env (.die .pong), .deliver .sigchld] ++
      .replicate 10 (.step {}) ++ [.env .sigint, .deliver .sigint] ++ .replicate 7 (.step {}))
    (by decide +kernel)
  have hw : WaitsBlocked s := ⟨[], _, _, _, hst, trivial, _, List.mem_cons_self⟩
  exact ⟨s, hs.of_restrict, hw, blocked_wait_is_over hs hw .ping⟩

/-- `SIGINT` arrives when `child_handler` has reaped ping and not recorded it. -/
theorem blocked_wait : ¬ ∀ k s, Reachable (monitor k) s → WaitsBlocked s →
    ∀ i, s.world.run_data.pid i = -1 := by
  intro h
  obtain ⟨s, hs, hst, hp⟩ := exists_reachable_of_exec (S := monitor (.ofModes .fork .tcp))
    (p := fun s => s.stack = [.stop_handler .sigint (.testPid .ping),
      .child_handler (.comparePing 101), .do_monitor_work .suspended] ∧
      s.world.run_data.pid .ping = 101)
    (setUp_setUpState (by decide))
    (.replicate 7 (.step {}) ++ [.env (.die .ping), .deliver .sigchld, .step {}, .env .sigint,
      .deliver .sigint] ++ .replicate 7 (.step {}))
    (by decide +kernel)
  have hn := h _ s hs ⟨[], _, _, _, hst, trivial, _, List.mem_cons_self⟩ .ping
  rw [hp] at hn
  cases hn

end PingPong.MonitorStopWait
