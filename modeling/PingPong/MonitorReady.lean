import PingPong.MonitorBarrier
import PingPong.MonitorReport

namespace PingPong.MonitorReady

open MonitorState MonitorProgram MonitorFrame MonitorBarrier MonitorNesting MonitorReport Activation
open TransitionSystem

variable {k : Setting} {s t : State} {w w' : World} {i : Worker}

/-- `start_threads` looks at the result of the call that creates worker `i`.
`do_clone` stores it in `tid` and looks at `pid`, and of the two calls of
`pthread_create` the second one's is dropped. -/
def Checked (k : Setting) : Worker → Prop
  | .ping => k.thread_mode ≠ .thread
  | .pong => k.thread_mode = .fork

instance (k : Setting) : DecidablePred (Checked k)
  | .ping => inferInstanceAs (Decidable (_ ≠ _))
  | .pong => inferInstanceAs (Decidable (_ = _))

def isStopHandler : Frame → Bool
  | .stop_handler _ _ => true
  | _ => false

theorem stopping_iff : Stopping s ↔ s.stack.any isStopHandler = true := by
  rw [List.any_eq_true]
  constructor
  · rintro ⟨caller, pc, hm⟩
    exact ⟨_, hm, rfl⟩
  · rintro ⟨f, hm, hf⟩
    cases f with
    | stop_handler caller pc => exact ⟨caller, pc, hm⟩
    | _ => cases hf

instance (s : State) : Decidable (Stopping s) := decidable_of_iff _ stopping_iff.symm

/-- A creation that fails is looked at, and a worker in a process of its own dies
only when it is ready, or when `stop_handler` is running. -/
def Joins (k : Setting) : MonitorEvent → State → Prop
  | .step c, s => c.created = true ∨
    ∀ i, s.stack.head? = some (.do_monitor_work (.create i)) → Checked k i
  | .env (.die i), s =>
    k.thread_mode = .pthread ∨ s.world.run_data.ready i = true ∨ Stopping s
  | _, _ => True

instance (k : Setting) : ∀ (e : MonitorEvent) (s : State), Decidable (Joins k e s)
  | .step _, _ => inferInstanceAs (Decidable (_ ∨ _))
  | .env (.die _), _ => inferInstanceAs (Decidable (_ ∨ _ ∨ _))
  | .deliver _, _ | .env .tick, _ | .env .sigint, _ | .env (.work _), _
  | .env (.stopOrContinue _), _ | .env (.interrupt _), _ | .env (.pass _), _ => .isTrue trivial

def Created : MonitorPc → Worker → Prop
  | .init_threads, _ | .create .ping, _ => False
  | .storePid .ping, i | .create .pong, i => i = .ping
  | _, _ => True

/-- Whoever is not ready can still become so, as far as the main program has got. -/
def Joinable (s : State) : Prop :=
  ∀ pc i, .do_monitor_work pc ∈ s.stack → Created pc i → s.world.run_data.ready i = false →
    (s.world.worker i).Alive

structure Joined (s : State) : Prop where
  nested : Nested s
  interrupt : ∀ i, s.world.interrupt i = true → Stopping s
  joinable : .exit_fail ∈ s.world.output ∨ Stopping s ∨ Joinable s

theorem alive_iff {x : WorkerState} : x.Alive ↔ ∃ pc, x = .alive pc := by
  cases x <;> simp [WorkerState.Alive]

theorem stop_handler_returns {pc : StopPc} (h : stop_handler k w pc = (w', none)) :
    pc = .testVisited ∧ w.visited ≠ 0 := by
  cases stop_handler_cases h with
  | passes hv => exact ⟨rfl, hv⟩

/-- A `stop_handler` that returns has found another one, which does not. -/
theorem stopping_rest {caller : Caller} {pc : StopPc} {rest : List Frame}
    (hn : Nested ⟨.stop_handler caller pc :: rest, w⟩)
    (h : stop_handler k w pc = (w', none)) : Stopping ⟨rest, w⟩ := by
  obtain ⟨rfl, hv⟩ := stop_handler_returns h
  obtain ⟨f, hf, he⟩ := hn.entered.mp hv
  obtain rfl | hf := List.mem_cons.mp hf
  · exact absurd rfl he.1
  · cases f with
    | stop_handler caller' pc' => exact ⟨caller', pc', hf⟩
    | _ => exact he.elim

theorem stopping_cons {f : Frame} {rest : List Frame} (h : Stopping ⟨rest, w⟩) :
    Stopping ⟨f :: rest, w'⟩ := by
  obtain ⟨caller, pc, hm⟩ := h
  exact ⟨caller, pc, List.mem_cons_of_mem f hm⟩

theorem stopping_resumeTop {rest : List Frame} (h : Stopping ⟨rest, w⟩) :
    Stopping ⟨resumeTop (program k) rest, w'⟩ := by
  obtain ⟨caller, pc, hm⟩ := h
  exact ⟨caller, pc, mem_resumeTop_of_mem hm rfl⟩

theorem stopping_step {e : MonitorEvent} (hs : Stopping s) (hn : Nested s)
    (h : Step (program k) e s t) : Stopping t := by
  obtain ⟨caller, pc, hm⟩ := hs
  cases h with
  | @goto c f f' rest w w' he =>
    obtain rfl | hm := List.mem_cons.mp hm
    · rw [program_exec] at he
      cases (execFrame_cases he).2 with
      | stop _ => exact ⟨caller, _, List.mem_cons_self⟩
      | stopMainRet h => exact stopping_cons (stopping_rest hn h)
    · exact ⟨caller, pc, List.mem_cons_of_mem _ hm⟩
  | @ret c f rest w w' he =>
    obtain rfl | hm := List.mem_cons.mp hm
    · rw [program_exec] at he
      cases (execFrame_cases he).2 with
      | stopRet h _ => exact stopping_resumeTop (stopping_rest hn h)
    · exact stopping_resumeTop (w := w) ⟨caller, pc, hm⟩
  | handle _ _ => exact ⟨caller, pc, List.mem_cons_of_mem _ hm⟩
  | ignore _ _ | env _ => exact ⟨caller, pc, hm⟩

theorem Joinable.still (h : Joinable s) (hw : Still s.world t.world)
    (hm : ∀ pc i, .do_monitor_work pc ∈ t.stack → Created pc i →
      ∃ pc', .do_monitor_work pc' ∈ s.stack ∧ Created pc' i) : Joinable t := by
  intro pc i hpc hc hr
  obtain ⟨pc', hpc', hc'⟩ := hm pc i hpc hc
  have ha := h pc' i hpc' hc' (hw.ready ▸ hr)
  obtain ⟨p, hp⟩ := alive_iff.mp ha
  exact alive_iff.mpr ⟨p, hw.live i p hp⟩

theorem Joined.still (h : Joined s) (hn : Nested t) (hs : Stopping s → Stopping t)
    (hw : Still s.world t.world)
    (hm : ∀ pc i, .do_monitor_work pc ∈ t.stack → Created pc i →
      ∃ pc', .do_monitor_work pc' ∈ s.stack ∧ Created pc' i) : Joined t where
  nested := hn
  interrupt i hi := hs (h.interrupt i (hw.interrupt ▸ hi))
  joinable := h.joinable.imp (hw.output _) (Or.imp hs fun hj => hj.still hw hm)

theorem Joined.stop (hn : Nested t) (hs : Stopping t) : Joined t :=
  ⟨hn, fun _ _ => hs, .inr (.inl hs)⟩

theorem create_joins {c : Choice} {n : MonitorNext}
    (h : do_monitor_work k c w (.create i) = (w', n)) (hok : c.created = true ∨ Checked k i) :
    w' = w.finish [.exit_fail] ∨ w' = w.setWorker i (.alive .testPid) ∧
      ∀ pc j, n = .goto pc → Created pc j → j = i ∨ Created (.create i) j := by
  cases hc : c.created with
  | true =>
    refine .inr ?_
    cases i <;> cases hk : k.thread_mode <;> simp only [do_monitor_work, hk, hc] at h <;>
      cases h <;> refine ⟨rfl, ?_⟩ <;> rintro _ (_ | _) ⟨⟩ hj <;> simp_all [Created]
  | false =>
    have hch : Checked k i := hok.resolve_left (by simp [hc])
    refine .inl ?_
    cases i <;> cases hk : k.thread_mode <;> simp only [Checked, hk] at hch <;>
      simp only [do_monitor_work, hk, hc] at h <;> cases h <;>
      first | rfl | exact absurd rfl hch | cases hch

theorem created_of_goto {c : Choice} {pc pc' : MonitorPc} (hpc : ¬ Acts pc)
    (h : do_monitor_work k c w pc = (w', .goto pc')) (hc : Created pc' i) : Created pc i := by
  cases do_monitor_work_cases h with
  | init_threads | created _ | notCreated _ | createFails | setStart => exact absurd trivial hpc
  | storePing => exact hc
  | _ => trivial

theorem Joined.main {c : Choice} {pc : MonitorPc} {n : MonitorNext} {f : Frame}
    (h : Joined ⟨[.do_monitor_work pc], w⟩) (hn : Nested ⟨[f], w'⟩)
    (hs : Stopping ⟨[.do_monitor_work pc], w⟩ → Stopping ⟨[f], w'⟩)
    (hf : ∀ pc', f = .do_monitor_work pc' → n = .goto pc')
    (hok : Joins k (.step c) ⟨[.do_monitor_work pc], w⟩)
    (he : do_monitor_work k c w pc = (w', n)) : Joined ⟨[f], w'⟩ := by
  have hmem : ∀ pc', .do_monitor_work pc' ∈ [f] → n = .goto pc' := fun pc' hm =>
    hf pc' (List.mem_singleton.mp hm).symm
  by_cases hpc : Acts pc
  · cases pc with
    | init_threads =>
      cases he
      refine ⟨hn, fun i hi => hs (h.interrupt i hi), .inr (.inr fun pc' i hm hc => ?_)⟩
      cases hmem pc' hm
      exact hc.elim
    | create i =>
      have hok' : c.created = true ∨ Checked k i := hok.imp_right fun h => h i rfl
      obtain rfl | ⟨rfl, hcr⟩ := create_joins he hok'
      · exact ⟨hn, fun i hi => hs (h.interrupt i hi), .inl (by simp)⟩
      · refine ⟨hn, fun i hi => hs (h.interrupt i hi), h.joinable.imp_right (Or.imp hs ?_)⟩
        intro hj pc' j hm hc hr
        by_cases hji : j = i
        · subst j
          simp [WorkerState.Alive]
        · have hc' := (hcr pc' j (hmem pc' hm) hc).resolve_left hji
          simpa [hji] using hj (.create i) j (by simp) hc' hr
    | setStart =>
      cases he
      refine ⟨hn, fun i hi => hs (h.interrupt i hi), h.joinable.imp_right (Or.imp hs ?_)⟩
      exact fun hj pc' i _ _ hr => hj .setStart i (by simp) trivial hr
    | _ => exact hpc.elim
  · refine h.still hn hs (do_monitor_work_still hpc he) fun pc' i hm hc => ?_
    obtain rfl := hmem pc' hm
    exact ⟨pc, by simp, created_of_goto hpc he hc⟩

theorem main_mem_resumeTop {stack : List Frame} {pc : MonitorPc}
    (h : .do_monitor_work pc ∈ resumeTop (program k) stack) (hc : Created pc i) :
    ∃ pc', .do_monitor_work pc' ∈ stack ∧ Created pc' i := by
  obtain h | ⟨-, h⟩ := mem_or_suspended h
  · exact ⟨pc, h, hc⟩
  · exact ⟨.suspended, h, trivial⟩

theorem Joined.work {stack : List Frame} {pc : WorkerPc} (h : Joined ⟨stack, w⟩)
    (hn : Nested ⟨stack, do_thread_work k i w pc⟩) (hi : w.worker i = .alive pc) :
    Joined ⟨stack, do_thread_work k i w pc⟩ := by
  have hint : (do_thread_work k i w pc).interrupt = w.interrupt := by cases pc <;> rfl
  have hout : (do_thread_work k i w pc).output = w.output := by cases pc <;> rfl
  have hready : ∀ j, (do_thread_work k i w pc).run_data.ready j = false →
      w.run_data.ready j = false := by
    intro j hj
    cases pc <;> try exact hj
    case setReady =>
      by_cases hji : j = i
      · subst j
        simp [do_thread_work] at hj
      · simpa [do_thread_work, hji] using hj
  have halive : ∀ j, (w.worker j).Alive → ((do_thread_work k i w pc).worker j).Alive := by
    intro j hj
    by_cases hji : j = i
    · subst j
      cases pc
      case comm_loop => exact hj
      all_goals simp [do_thread_work, WorkerState.Alive]
    · cases pc <;> simpa [do_thread_work, hji] using hj
  refine ⟨hn, fun j hj => h.interrupt j (hint ▸ hj), ?_⟩
  rw [hout]
  refine h.joinable.imp_right (Or.imp_right fun hj pc' j hm hc hr => ?_)
  exact halive j (hj pc' j hm hc (hready j hr))

theorem Joined.env {stack : List Frame} {e : EnvEvent} (h : Joined ⟨stack, w⟩)
    (hn : Nested ⟨stack, w'⟩) (hok : Joins k (.env e) ⟨stack, w⟩) (he : env k w e = some w') :
    Joined ⟨stack, w'⟩ := by
  by_cases hwork : ∀ i, e ≠ .work i
  · cases env_around hwork he with
    | still hw => exact h.still hn id hw fun pc i hm hc => ⟨pc, hm, hc⟩
    | @die i pc _ hi hq hother hint hfail =>
      refine ⟨hn, fun j hj => h.interrupt j (hint ▸ hj), ?_⟩
      obtain hk | hr | hs := hok
      · exact .inl (hfail hk)
      · refine h.joinable.imp (hq.output _) (Or.imp_right fun hj pc' j hm hc hrj => ?_)
        have hji : j ≠ i := by
          rintro rfl
          exact Bool.false_ne_true (hrj.symm.trans ((congrFun hq.ready j).trans hr))
        have ha := hj pc' j hm hc (hq.ready ▸ hrj)
        simpa [hother j hji] using ha
      · exact .inr (.inl hs)
    | interrupt hi _ _ => exact .stop hn (h.interrupt _ hi)
  · obtain ⟨i, rfl⟩ := not_forall_not.mp hwork
    simp only [MonitorProgram.env] at he
    split at he
    · cases he
      exact h.work hn ‹_›
    · cases he

theorem Joined.step {e : MonitorEvent} (h : Joined s) (hok : Joins k e s)
    (hnext : next (program k) e s = some t) : Joined t := by
  have hn := h.nested.step hnext
  have hstep := next_cases hnext
  have hs : Stopping s → Stopping t := fun hs => stopping_step hs h.nested hstep
  cases hstep with
  | @goto c f f' rest w w' he =>
    rw [program_exec] at he
    cases (execFrame_cases he).2 with
    | main hm =>
      obtain rfl := h.nested.below rfl
      exact h.main hn hs (by rintro _ ⟨⟩; rfl) hok hm
    | mainStop hm =>
      obtain rfl := h.nested.below rfl
      exact h.main hn hs (by rintro _ ⟨⟩) hok hm
    | interrupt hm =>
      refine h.still hn hs (monitor_interrupt_still hm) fun pc i hpc hc => ⟨pc, ?_, hc⟩
      simpa using hpc
    | child hm =>
      refine h.still hn hs (child_handler_still hm) fun pc i hpc hc => ⟨pc, ?_, hc⟩
      simpa using hpc
    | interruptStop _ | stop _ => exact .stop hn ⟨_, _, List.mem_cons_self⟩
    | stopMainRet hm => exact .stop hn (hs ⟨_, _, List.mem_cons_self⟩)
  | @ret c f rest w w' he =>
    rw [program_exec] at he
    cases (execFrame_cases he).2 with
    | interruptRet hm =>
      refine h.still hn hs (monitor_interrupt_still hm) fun pc i hpc hc => ?_
      obtain ⟨pc', hpc', hc'⟩ := main_mem_resumeTop hpc hc
      exact ⟨pc', List.mem_cons_of_mem _ hpc', hc'⟩
    | childRet hm =>
      refine h.still hn hs (child_handler_still hm) fun pc i hpc hc => ?_
      obtain ⟨pc', hpc', hc'⟩ := main_mem_resumeTop hpc hc
      exact ⟨pc', List.mem_cons_of_mem _ hpc', hc'⟩
    | stopRet _ _ => exact .stop hn (hs ⟨_, _, List.mem_cons_self⟩)
  | @handle sig f stack w w' _ he =>
    refine h.still hn hs (accept_still he) fun pc i hpc hc => ⟨pc, ?_, hc⟩
    obtain rfl | hpc := List.mem_cons.mp hpc
    · exact absurd (accept_signal _ _ _ _ he) (by rintro ⟨⟩)
    · exact hpc
  | ignore _ he => exact h.still hn hs (accept_still he) fun pc i hpc hc => ⟨pc, hpc, hc⟩
  | env he => exact h.env hn hok he

/-- Every worker that the ready-wait loop waits for lives, or the failure is dealt with. -/
def Awaits (s : State) : Prop :=
  (∀ i, s.world.run_data.ready i = false → (s.world.worker i).Alive) ∨
    .exit_fail ∈ s.world.output ∨ Stopping s

instance : DecidablePred Awaits := fun _ => inferInstanceAs (Decidable (_ ∨ _))

/-- As long as no creation fails unnoticed and no worker dies before it is ready,
the ready-wait loop waits for workers that live. -/
theorem waits_for_living {s : State} (h : Reachable (restrict (wholeRun k) (Joins k)) s)
    (hm : .do_monitor_work (.testReady .ping) ∈ s.stack) : Awaits s := by
  have hj : Joined s := by
    refine h.invariant (I := Joined) ?_ fun s e t hj hn => ?_
    · rintro _ rfl
      refine ⟨nested_boot, by simp [boot], .inr (.inr fun pc i hm hc => ?_)⟩
      obtain rfl : pc = .init_threads := by simpa [boot] using hm
      exact hc.elim
    · obtain ⟨hok, hn⟩ := restrict_next.mp hn
      exact hj.step hok hn
  obtain hf | hs | hj := hj.joinable
  · exact .inr (.inl hf)
  · exact .inr (.inr hs)
  · exact .inl fun i hr => hj _ i hm trivial hr

def Looks (s : State) : Prop := s.stack = [.do_monitor_work (.testReady .ping)]

instance : DecidablePred Looks := fun _ => inferInstanceAs (Decidable (_ = _))

theorem waits_for_living_fork : ∃ s, Reachable (wholeRun (.ofModes .fork .tcp)) s ∧ Looks s ∧
    s.world.run_data.ready .ping = false ∧ Awaits s := by
  obtain ⟨s, hs, hl, hr⟩ := exists_reachable_of_exec
    (S := restrict (wholeRun (.ofModes .fork .tcp)) (Joins (.ofModes .fork .tcp)))
    (p := fun s => Looks s ∧ s.world.run_data.ready .ping = false) rfl (.replicate 8 (.step {}))
    (by decide +kernel)
  have hm : .do_monitor_work (.testReady .ping) ∈ s.stack := by simp [show s.stack = _ from hl]
  exact ⟨s, hs.of_restrict, hl, hr, waits_for_living hs hm⟩

/-- The second `pthread_create` fails, a `clone` fails, and a worker dies before it
is ready, which `child_handler` sees. -/
theorem waits_for_dead :
    (¬ ∀ s, Reachable (wholeRun (.ofModes .pthread .tcp)) s → Looks s → Awaits s) ∧
    (¬ ∀ s, Reachable (wholeRun (.ofModes .thread .tcp)) s → Looks s → Awaits s) ∧
    ¬ ∀ s, Reachable (wholeRun (.ofModes .fork .tcp)) s → Looks s → Awaits s := by
  refine ⟨fun h => ?_, fun h => ?_, fun h => ?_⟩
  · obtain ⟨s, hs, hl, hn⟩ := exists_reachable_of_exec (S := wholeRun (.ofModes .pthread .tcp))
      (p := fun s => Looks s ∧ ¬ Awaits s) rfl
      (.replicate 2 (.step {}) ++ [.step { created := false }] ++ .replicate 3 (.step {}))
      (by decide +kernel)
    exact hn (h s hs hl)
  · obtain ⟨s, hs, hl, hn⟩ := exists_reachable_of_exec (S := wholeRun (.ofModes .thread .tcp))
      (p := fun s => Looks s ∧ ¬ Awaits s) rfl
      ([.step {}, .step { created := false }] ++ .replicate 5 (.step {})) (by decide +kernel)
    exact hn (h s hs hl)
  · obtain ⟨s, hs, hl, hn⟩ := exists_reachable_of_exec (S := wholeRun (.ofModes .fork .tcp))
      (p := fun s => Looks s ∧ ¬ Awaits s) rfl
      (.replicate 8 (.step {}) ++ [.env (.die .ping), .deliver .sigchld] ++
        .replicate 10 (.step {}))
      (by decide +kernel)
    exact hn (h s hs hl)

end PingPong.MonitorReady
