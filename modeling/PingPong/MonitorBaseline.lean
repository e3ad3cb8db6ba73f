import PingPong.MonitorTimeout

namespace PingPong.MonitorBaseline

open MonitorState MonitorProgram MonitorFrame MonitorNesting MonitorReport MonitorClock
open MonitorTimeout Activation TransitionSystem

variable {k : Setting} {s t : State} {w w' : World} {f : Frame} {reads : List Rat}

/-- What the monitor has read from the clock so far, oldest first: in
`do_monitor_work`, and in every `gather_periodic_stats`. -/
def see (e : MonitorEvent) (_ : Unit) (s : State) (reads : List Rat) : List Rat :=
  match e, s.stack with
  | .step _, .do_monitor_work .get_time :: _
  | .step _, .monitor_interrupt .gatherTime :: _ => reads ++ [s.world.clock]
  | _, _ => reads

/-- No `SIGALRM` starts `monitor_interrupt` before the main program is in its main
loop. -/
def Timely : MonitorEvent → State → Prop
  | .deliver sig, s => sig = .sigalrm → s.world.disposition .sigalrm = .handler →
      ∃ f ∈ s.stack, InLoop f
  | _, _ => True

instance : ∀ (e : MonitorEvent) (s : State), Decidable (Timely e s)
  | .deliver _, _ => inferInstanceAs (Decidable (_ → _ → _))
  | .step _, _ | .env _, _ => .isTrue trivial

def timely (k : Setting) : System (State × List Rat) (MonitorEvent × Unit) :=
  observe (restrict (wholeRun k) Timely) [] see

def ReadOk (w : World) (reads : List Rat) : Frame → Prop
  | .do_monitor_work .ret => True
  | .do_monitor_work (.setStartTime time) =>
    reads = [time] ∧ w.run_data.last_stats_time = time
  | .do_monitor_work .setTimeoutTime =>
    reads = [w.run_data.start_time] ∧ w.run_data.last_stats_time = w.run_data.start_time
  | .do_monitor_work .testStop | .do_monitor_work .sigsuspend | .do_monitor_work .suspended
  | .stop_handler .main _ =>
    (∃ ticks, reads = w.run_data.start_time :: ticks) ∧ w.run_data.last_stats_time ∈ reads ∧
      w.run_data.start_time ≤ w.run_data.last_stats_time
  | .do_monitor_work _ => reads = []
  | .monitor_interrupt (.loadPid _) | .monitor_interrupt (.wait4 _ _)
  | .monitor_interrupt .testStop | .monitor_interrupt .storeTime =>
    w.i_stats_time ∈ reads ∧ w.run_data.start_time ≤ w.i_stats_time
  | _ => True

/-- `monitor_interrupt` runs above the main loop only, and every time in use was
read from the clock. -/
structure Read (s : State) (reads : List Rat) : Prop where
  tick : ∀ f ∈ s.stack, f.signal = some .sigalrm → ∃ g ∈ s.stack, InLoop g
  frame : ∀ f ∈ s.stack, ReadOk s.world reads f

theorem inLoop_read (h : InLoop f) : ReadOk w reads f ↔
    (∃ ticks, reads = w.run_data.start_time :: ticks) ∧ w.run_data.last_stats_time ∈ reads ∧
      w.run_data.start_time ≤ w.run_data.last_stats_time := by
  cases f with
  | do_monitor_work pc =>
    cases pc with
    | testStop | sigsuspend | suspended => exact Iff.rfl
    | _ => exact h.elim
  | stop_handler caller pc =>
    cases caller with
    | main => exact Iff.rfl
    | sigint | sigalrm => exact h.elim
  | monitor_interrupt _ | child_handler _ => exact h.elim

theorem ReadOk.elapses (h : ReadOk w reads f) (he : Elapses w w') : ReadOk w' reads f := by
  unfold ReadOk at h ⊢
  rw [he.start_time, he.last_stats_time, he.i_stats_time]
  exact h

theorem ReadOk.handler (hf : f.signal ≠ none) (ha : f.signal ≠ some .sigalrm) :
    ReadOk w reads f := by
  cases f with
  | do_monitor_work _ => exact absurd rfl hf
  | monitor_interrupt _ => exact absurd rfl ha
  | child_handler _ => trivial
  | stop_handler caller _ =>
    cases caller with
    | main => exact absurd rfl hf
    | sigint | sigalrm => trivial

theorem readOk_of_goto {c : Choice} {pc pc' : MonitorPc} (hpc : ¬ Writes pc)
    (hf : ReadOk w reads (.do_monitor_work pc))
    (h : do_monitor_work k c w pc = (w', .goto pc')) : ReadOk w reads (.do_monitor_work pc') := by
  cases do_monitor_work_cases h with
  | init_threads | setStart | get_time | setStartTime | setTimeoutTime => exact absurd trivial hpc
  | created ha | notCreated ha => cases ha <;> exact hf
  | createFails | cloneFailed => trivial
  | _ => exact hf

theorem readOk_main {c : Choice} {pc pc' : MonitorPc} {e : Unit}
    (hf : ReadOk w reads (.do_monitor_work pc)) (h : do_monitor_work k c w pc = (w', .goto pc')) :
    ReadOk w' (see (.step c) e ⟨[.do_monitor_work pc], w⟩ reads) (.do_monitor_work pc') := by
  by_cases hpc : Writes pc
  · cases pc with
    | init_threads | setStart =>
      cases h
      exact hf
    | get_time =>
      cases h
      have hf : reads = [] := hf
      simp [ReadOk, see, hf]
    | setStartTime time =>
      cases h
      exact hf
    | setTimeoutTime =>
      cases h
      obtain ⟨hr, hl⟩ := hf
      have hl : w.run_data.last_stats_time = w.run_data.start_time := hl
      exact ⟨⟨[], hr⟩, by simp [see, hr, hl], le_of_eq hl.symm⟩
    | _ => exact hpc.elim
  · have hsee : see (.step c) e ⟨[.do_monitor_work pc], w⟩ reads = reads := by
      cases pc <;> first | rfl | exact absurd trivial hpc
    rw [hsee]
    exact (readOk_of_goto hpc hf h).elapses (do_monitor_work_elapses hpc h)

theorem Read.elapses {f' : Frame} {rest : List Frame} (h : Read ⟨f :: rest, w⟩ reads)
    (he : Elapses w w') (hs : f'.signal = f.signal) (hl : InLoop f → InLoop f')
    (hf : ReadOk w' reads f') : Read ⟨f' :: rest, w'⟩ reads where
  tick g hg hsig := by
    have hold : ∃ g ∈ f :: rest, InLoop g := by
      obtain rfl | hg := List.mem_cons.mp hg
      · exact h.tick f List.mem_cons_self (hs.symm.trans hsig)
      · exact h.tick g (List.mem_cons_of_mem _ hg) hsig
    obtain ⟨l, hm, hin⟩ := hold
    obtain rfl | hm := List.mem_cons.mp hm
    · exact ⟨f', List.mem_cons_self, hl hin⟩
    · exact ⟨l, List.mem_cons_of_mem _ hm, hin⟩
  frame := List.forall_mem_cons.mpr
    ⟨hf, fun g hg => (h.frame g (List.mem_cons_of_mem _ hg)).elapses he⟩

theorem read_below {rest : List Frame} {pc : InterruptPc} {reads' : List Rat}
    (h : Read ⟨.monitor_interrupt pc :: rest, w⟩ reads)
    (hd : Distinct (program k) (.monitor_interrupt pc :: rest))
    (hl : ∀ f ∈ rest, InLoop f → ReadOk w reads f → ReadOk w' reads' f) :
    (∃ g ∈ rest, InLoop g) ∧ ∀ f ∈ rest, ReadOk w' reads' f := by
  obtain ⟨g, hg, hin⟩ := h.tick _ List.mem_cons_self rfl
  obtain rfl | hg := List.mem_cons.mp hg
  · exact hin.elim
  refine ⟨⟨g, hg, hin⟩, fun f hf => ?_⟩
  have hrest : Distinct (program k) rest := (List.nodup_cons.mp hd).2
  by_cases hsig : f.signal = none
  · obtain rfl := hrest.eq_of_signal hf hg (hsig.trans hin.signal.symm)
    exact hl f hf hin (h.frame f (List.mem_cons_of_mem _ hf))
  · exact .handler hsig (hd.tail_ne hf)

theorem see_interrupt {c : Choice} {e : Unit} {pc : InterruptPc} {rest : List Frame}
    (hpc : pc ≠ .gatherTime) :
    see (.step c) e ⟨.monitor_interrupt pc :: rest, w⟩ reads = reads := by
  cases pc <;> first | rfl | exact absurd rfl hpc

theorem readOk_interrupt {c : Choice} {pc pc' : InterruptPc}
    (hg : pc ≠ .gatherTime) (hf : ReadOk w reads (.monitor_interrupt pc))
    (h : monitor_interrupt k c w pc = (w', .goto pc')) :
    ReadOk w reads (.monitor_interrupt pc') := by
  cases monitor_interrupt_cases h with
  | gatherTime => exact absurd rfl hg
  | loadPid | waitPing _ | waitPong _ | goesOn _ => exact hf
  | _ => trivial

theorem read_interrupt {c : Choice} {e : Unit} {pc : InterruptPc} {n : InterruptNext}
    {rest : List Frame} (h : Read ⟨.monitor_interrupt pc :: rest, w⟩ reads)
    (hd : Distinct (program k) (.monitor_interrupt pc :: rest))
    (hb : ∀ f ∈ rest, InLoop f → Baseline k w)
    (hn : monitor_interrupt k c w pc = (w', n)) :
    ((∃ g ∈ rest, InLoop g) ∧ ∀ f ∈ rest,
      ReadOk w' (see (.step c) e ⟨.monitor_interrupt pc :: rest, w⟩ reads) f) ∧
    ∀ pc', n = .goto pc' → ReadOk w'
      (see (.step c) e ⟨.monitor_interrupt pc :: rest, w⟩ reads) (.monitor_interrupt pc') := by
  have hf := h.frame _ List.mem_cons_self
  by_cases hg : pc = .gatherTime
  · subst pc
    cases hn
    have hbelow : (∃ g ∈ rest, InLoop g) ∧ ∀ f ∈ rest,
        ReadOk { w with i_stats_time := w.clock } (reads ++ [w.clock]) f := by
      refine read_below h hd fun f _ hin hr => ?_
      obtain ⟨⟨ticks, rfl⟩, hmem, hle⟩ := (inLoop_read hin).mp hr
      exact (inLoop_read hin).mpr ⟨⟨ticks ++ [w.clock], rfl⟩, List.mem_append_left _ hmem, hle⟩
    obtain ⟨⟨g, hgm, hin⟩, hrest⟩ := hbelow
    refine ⟨⟨⟨g, hgm, hin⟩, hrest⟩, ?_⟩
    rintro _ ⟨⟩
    exact ⟨List.mem_append_right _ (List.mem_singleton_self _), (hb g hgm hin).start_time⟩
  · rw [see_interrupt hg]
    by_cases hs : pc = .storeTime
    · subst pc
      cases hn
      refine ⟨read_below h hd fun f _ hin hr => ?_, by rintro _ ⟨⟩; trivial⟩
      obtain ⟨hticks, -, -⟩ := (inLoop_read hin).mp hr
      exact (inLoop_read hin).mpr ⟨hticks, hf⟩
    · have he := monitor_interrupt_elapses hg hs hn
      refine ⟨read_below h hd fun f _ _ hr => hr.elapses he, fun pc' hpc => ?_⟩
      subst hpc
      exact (readOk_interrupt hg hf hn).elapses he

theorem inLoop_resume (h : InLoop f) : InLoop (resume f) := by
  unfold resume
  split
  · trivial
  · exact h

theorem ReadOk.resume (h : ReadOk w reads f) : ReadOk w reads (resume f) := by
  unfold MonitorProgram.resume
  split
  · exact h
  · exact h

theorem Read.resume {stack : List Frame} (h : Read ⟨stack, w⟩ reads) :
    Read ⟨resumeTop (program k) stack, w⟩ reads where
  tick f hf hsig := by
    refine exists_mem_resumeTop (fun _ => inLoop_resume) ?_
    obtain hf | ⟨rfl, -⟩ := mem_or_suspended hf
    · exact h.tick f hf hsig
    · cases hsig
  frame := forall_mem_resumeTop (fun _ => ReadOk.resume) h.frame

theorem Read.below {rest : List Frame} (h : Read ⟨f :: rest, w⟩ reads) (he : Elapses w w')
    (hf : ¬ InLoop f) : Read ⟨rest, w'⟩ reads where
  tick g hg hsig := by
    obtain ⟨l, hl, hin⟩ := h.tick g (List.mem_cons_of_mem _ hg) hsig
    obtain rfl | hl := List.mem_cons.mp hl
    · exact absurd hin hf
    · exact ⟨l, hl, hin⟩
  frame g hg := (h.frame g (List.mem_cons_of_mem _ hg)).elapses he

theorem Read.step {e : MonitorEvent} {u : Unit} (h : Read s reads) (hns : Nested s)
    (hc : Holds (program k) Clocked (TimesOk k) s) (hok : Timely e s)
    (hn : Step (program k) e s t) : Read t (see e u s reads) := by
  cases hn with
  | @goto c f f' rest w w' he =>
    rw [program_exec] at he
    have hs := execFrame_signal _ _ _ _ _ _ he
    have hbase : ∀ g ∈ rest, InLoop g → Baseline k w := fun g hg =>
      (hc.frame g (List.mem_cons_of_mem _ hg)).baseline
    cases (execFrame_cases he).2 with
    | main hm =>
      obtain rfl := hns.below rfl
      refine ⟨by simp [Frame.signal], ?_⟩
      simpa using readOk_main (e := u) (h.frame _ List.mem_cons_self) hm
    | mainStop hm =>
      obtain rfl := hns.below rfl
      obtain ⟨rfl, rfl⟩ := do_monitor_work_stop_handler hm
      refine ⟨by simp [Frame.signal, Caller.signal], fun g hg => ?_⟩
      cases List.mem_singleton.mp hg
      exact h.frame (.do_monitor_work .testStop) List.mem_cons_self
    | interrupt hm =>
      obtain ⟨⟨⟨g, hg, hin⟩, hrest⟩, hgoto⟩ := read_interrupt (e := u) h hc.distinct hbase hm
      exact ⟨fun _ _ _ => ⟨g, List.mem_cons_of_mem _ hg, hin⟩,
        List.forall_mem_cons.mpr ⟨hgoto _ rfl, hrest⟩⟩
    | interruptStop hm =>
      obtain ⟨⟨⟨g, hg, hin⟩, hrest⟩, -⟩ := read_interrupt (e := u) h hc.distinct hbase hm
      exact ⟨fun _ _ _ => ⟨g, List.mem_cons_of_mem _ hg, hin⟩,
        List.forall_mem_cons.mpr ⟨trivial, hrest⟩⟩
    | child hm => exact h.elapses (child_handler_elapses hm) hs id trivial
    | @stop caller _ _ _ hm =>
      have hel := stop_handler_elapses hm
      have hf := (h.frame _ List.mem_cons_self).elapses hel
      refine h.elapses hel hs ?_ ?_
      · cases caller <;> exact id
      · cases caller <;> exact hf
    | stopMainRet hm =>
      obtain rfl := hns.below rfl
      refine ⟨by simp [Frame.signal], fun g hg => ?_⟩
      cases List.mem_singleton.mp hg
      trivial
  | @ret c f rest w w' he =>
    rw [program_exec] at he
    have hbase : ∀ g ∈ rest, InLoop g → Baseline k w := fun g hg =>
      (hc.frame g (List.mem_cons_of_mem _ hg)).baseline
    cases (execFrame_cases he).2 with
    | interruptRet hm =>
      obtain ⟨⟨hin, hrest⟩, -⟩ := read_interrupt (e := u) h hc.distinct hbase hm
      exact Read.resume ⟨fun _ _ _ => hin, hrest⟩
    | childRet hm => exact (h.below (child_handler_elapses hm) id).resume
    | @stopRet caller _ _ hm hne =>
      refine (h.below (stop_handler_elapses hm) ?_).resume
      cases caller with
      | main => exact absurd rfl hne
      | sigint | sigalrm => exact id
  | @handle sig f stack w w' _ he =>
    have hel := accept_elapses he
    obtain ⟨-, -, hdel⟩ := accept_cases he
    cases hdel with
    | handled hd =>
      constructor
      · intro g hg hsig
        have hin : ∃ g ∈ stack, InLoop g := by
          obtain rfl | hg := List.mem_cons.mp hg
          · cases sig with
            | sigalrm => exact hok rfl hd
            | sigint | sigchld => cases hsig
          · exact h.tick g hg hsig
        obtain ⟨l, hl, hin⟩ := hin
        exact ⟨l, List.mem_cons_of_mem _ hl, hin⟩
      · refine List.forall_mem_cons.mpr ⟨?_, fun g hg => (h.frame g hg).elapses hel⟩
        cases sig <;> trivial
  | ignore _ he => exact ⟨h.tick, fun g hg => (h.frame g hg).elapses (accept_elapses he)⟩
  | @env e stack w w' he =>
    have hel : Elapses w w' := env_elapses (k := k) (e := e) he
    exact ⟨h.tick, fun g hg => (h.frame g hg).elapses hel⟩

theorem reachable_read {p : State × List Rat} (h : Reachable (timely k) p) : Read p.1 p.2 := by
  refine h.induct (I := fun p => Read p.1 p.2) ?_ fun p e q hr hp hn => ?_
  · rintro ⟨s, r⟩ ⟨rfl, rfl⟩
    exact ⟨by simp [boot, Frame.signal], by simp [boot, ReadOk]⟩
  · obtain ⟨hn, hq⟩ := observe_next.mp hn
    obtain ⟨hok, hn⟩ := restrict_next.mp hn
    have hw := hr.of_observe.of_restrict
    rw [hq]
    exact hp.step (reachable_nested hw) (reachable_clock hw) hok (next_cases hn)

/-- A tick that comes as soon as the timer is set, up to its comparison. -/
def earlyTick : List MonitorEvent :=
  toSigsuspend.take 20 ++ [.env (.pass 5), .env .tick, .deliver .sigalrm] ++
    .replicate 10 (.step {})

end PingPong.MonitorBaseline
