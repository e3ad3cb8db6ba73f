import PingPong.MonitorFootprint

namespace PingPong.MonitorReaping

open MonitorState MonitorProgram MonitorFrame MonitorFootprint Activation TransitionSystem

variable {g : Worker → Prop}

def WillWait : ChildPc → Prop
  | .comparePing pid | .comparePong pid | .compareZero pid => pid ≠ 0
  | _ => True

def Recording (k : Setting) (i : Worker) : ChildPc → Prop
  | .comparePing pid | .comparePong pid => pid = k.child i
  | .recordDeath j => j = i
  | _ => False

/-- Each worker is accounted for: by `SIGCHLD` or a coming `waitpid` once it has
exited, and by its pid field or a coming store once `child_handler` has reaped it. -/
def WorkerOk (k : Setting) (w : World) (c : Option ChildPc) (i : Worker) : Prop :=
  match w.worker i with
  | .unborn => False
  | .alive pc => pastPid pc ∧ w.run_data.pid i = k.child i
  | .zombie => w.run_data.pid i = k.child i ∧
      (w.pending .sigchld = true ∨ ∃ pc, c = some pc ∧ WillWait pc)
  | .reaped .gather_periodic_stats => w.run_data.pid i = k.child i
  | .reaped .child_handler =>
      (w.run_data.pid i = k.child i ∧ ∃ pc, c = some pc ∧ Recording k i pc) ∨
      (w.run_data.pid i = -1 ∧ (w.run_data.stop = true ∨ c = some .setStop))

/-- What the pid that `child_handler` holds stands for. -/
def Reaped (k : Setting) (w : World) (i : Worker) : Prop :=
  w.worker i = .reaped .child_handler ∧ w.run_data.pid i = k.child i

def ChildOk (k : Setting) (w : World) : ChildPc → Prop
  | .comparePing pid => pid = 0 ∨ ∃ i, pid = k.child i ∧ Reaped k w i
  | .comparePong pid => pid = 0 ∨ pid = k.child .pong ∧ Reaped k w .pong
  | .compareZero pid => pid = 0
  | .recordDeath i => Reaped k w i
  | _ => True

structure Books (k : Setting) (s : State) : Prop where
  processes : k.thread_mode ≠ .pthread
  distinct : Distinct (program k) s.stack
  afterSetup : ∀ f ∈ s.stack, AfterSetup f
  sigchld : s.world.disposition .sigchld = .handler
  worker : ∀ i, WorkerOk k s.world (childPc s.stack) i
  child : ∀ pc, childPc s.stack = some pc → ChildOk k s.world pc

theorem WorkerOk.around {k : Setting} {w w' : World} {c : Option ChildPc} {i : Worker}
    (h : WorkerOk k w c i) (ha : Around k g w w') (hs : w.disposition .sigchld = .handler) :
    WorkerOk k w' c i := by
  have hm := ha.worker i
  revert h
  simp only [WorkerOk]
  generalize w.worker i = s at hm
  generalize w'.worker i = s' at hm
  generalize w.run_data.pid i = pid at hm
  generalize w'.run_data.pid i = pid' at hm
  cases hm with
  | same =>
    cases s with
    | unborn | alive _ => exact id
    | zombie => exact fun h => ⟨h.1, h.2.imp_left ha.pending⟩
    | reaped who =>
      cases who with
      | gather_periodic_stats => exact id
      | child_handler => exact fun h => h.imp_right fun h => ⟨h.1, h.2.imp_left ha.stop⟩
  | run hpc => exact fun h => ⟨hpc h.1, h.2⟩
  | writePid => exact fun h => absurd h.1 id
  | die _ htold => exact fun h => ⟨h.2, .inl (htold hs)⟩
  | gather _ => exact fun h => h.1

theorem Reaped.around {k : Setting} {w w' : World} {i : Worker} (h : Reaped k w i)
    (ha : Around k g w w') : Reaped k w' i := by
  have hm := ha.worker i
  rw [h.1, h.2] at hm
  generalize hs : w'.worker i = s at hm
  generalize hp : w'.run_data.pid i = pid at hm
  cases hm
  exact ⟨hs, hp⟩

theorem ChildOk.around {k : Setting} {w w' : World} {pc : ChildPc} (h : ChildOk k w pc)
    (ha : Around k g w w') : ChildOk k w' pc := by
  cases pc with
  | comparePing pid => exact h.imp_right fun ⟨i, hi, hr⟩ => ⟨i, hi, hr.around ha⟩
  | comparePong pid => exact h.imp_right fun ⟨hi, hr⟩ => ⟨hi, hr.around ha⟩
  | compareZero pid => exact h
  | recordDeath i => exact Reaped.around h ha
  | _ => trivial

/-- Handing an account over from one point of `child_handler` to another (or to
none), while the world stays as it is. -/
theorem WorkerOk.handover {k : Setting} {w : World} {pc : ChildPc} {o : Option ChildPc} {i : Worker}
    (h : WorkerOk k w (some pc) i)
    (hz : w.worker i = .zombie → WillWait pc → ∃ pc', o = some pc' ∧ WillWait pc')
    (hr : Recording k i pc → ∃ pc', o = some pc' ∧ Recording k i pc')
    (hs : pc ≠ .setStop) : WorkerOk k w o i := by
  revert h
  simp only [WorkerOk]
  cases hw : w.worker i with
  | unborn | alive _ => exact id
  | zombie =>
    rintro ⟨hp, hn | ⟨pc', hpc, hwait⟩⟩
    · exact ⟨hp, .inl hn⟩
    · cases hpc
      exact ⟨hp, .inr (hz hw hwait)⟩
  | reaped who =>
    cases who with
    | gather_periodic_stats => exact id
    | child_handler =>
      rintro (⟨hp, pc', hpc, hrec⟩ | ⟨hp, hstop | hpc⟩)
      · cases hpc
        exact .inl ⟨hp, hr hrec⟩
      · exact .inr ⟨hp, .inl hstop⟩
      · exact absurd (Option.some.inj hpc) hs

theorem WorkerOk.pid_eq {k : Setting} {w : World} {c : Option ChildPc} {i : Worker}
    (h : WorkerOk k w c i) : w.run_data.pid i = k.child i ∨ w.run_data.pid i = -1 := by
  revert h
  simp only [WorkerOk]
  split
  · exact False.elim
  · exact fun h => .inl h.2
  · exact fun h => .inl h.1
  · exact fun h => .inl h
  · exact fun h => h.imp And.left And.left

theorem WorkerOk.pid_ne_zero {k : Setting} {w : World} {c : Option ChildPc} {i : Worker}
    (h : WorkerOk k w c i) : w.run_data.pid i ≠ 0 := by
  rcases h.pid_eq with hp | hp <;> rw [hp]
  · exact k.child_ne_zero i
  · decide

theorem WorkerOk.eq_of_pid {k : Setting} {w : World} {c : Option ChildPc} {i j : Worker}
    (h : WorkerOk k w c i) (hp : k.child j = w.run_data.pid i) : j = i := by
  rcases h.pid_eq with hi | hi <;> rw [hi] at hp
  · exact k.child_injective hp
  · exact absurd hp (k.child_ne_neg_one j)

theorem child_found {k : Setting} {w : World} {pc : ChildPc} {i : Worker}
    (hw : ∀ j, WorkerOk k w (some pc) j) (hr : Reaped k w i)
    (hrec : ∀ j, Recording k j pc → Recording k j (.recordDeath i)) (hs : pc ≠ .setStop) :
    (∀ j, WorkerOk k w (some (.recordDeath i)) j) ∧
      ∀ pc', some (ChildPc.recordDeath i) = some pc' → ChildOk k w pc' := by
  refine ⟨fun j => (hw j).handover (fun _ _ => ⟨_, rfl, trivial⟩)
    (fun hj => ⟨_, rfl, hrec j hj⟩) hs, fun pc' hpc => ?_⟩
  cases hpc
  exact hr

theorem child_handler_ok {k : Setting} {c : Choice} {w w' : World} {pc : ChildPc}
    {o : Option ChildPc} (hk : k.thread_mode ≠ .pthread)
    (hw : ∀ i, WorkerOk k w (some pc) i) (hc : ChildOk k w pc)
    (h : child_handler k c w pc = (w', o)) :
    (∀ i, WorkerOk k w' o i) ∧ ∀ pc', o = some pc' → ChildOk k w' pc' := by
  cases child_handler_cases h with
  | @reaps i _ hz =>
    have hi := hw i
    simp only [WorkerOk, hz] at hi
    refine ⟨fun j => ?_, fun pc' hpc => ?_⟩
    · by_cases hj : j = i
      · subst j
        simp [WorkerOk, Recording, hi.1]
      · have hj' : WorkerOk k w (some (.comparePing (k.child i))) j :=
          (hw j).handover (fun _ _ => ⟨_, rfl, k.child_ne_zero i⟩) (fun h => absurd h id) (by rintro ⟨⟩)
        simpa [WorkerOk, hj] using hj'
    · cases hpc
      exact .inr ⟨i, rfl, by simp [Reaped, hi.1]⟩
  | nobody hz =>
    refine ⟨fun i => (hw i).handover (fun hi => absurd hi (hz hk i))
      (fun h => absurd h id) (by rintro ⟨⟩), fun pc' hpc => ?_⟩
    cases hpc
    exact .inl rfl
  | childless hz =>
    exact ⟨fun i => (hw i).handover (fun hi => absurd hi (hz hk i))
      (fun h => absurd h id) (by rintro ⟨⟩), by rintro _ ⟨⟩⟩
  | @isPing pid hp =>
    have hi : ∃ i, pid = k.child i ∧ Reaped k w i :=
      hc.resolve_left fun h0 => (hw .ping).pid_ne_zero (hp ▸ h0)
    obtain ⟨i, rfl, hr⟩ := hi
    obtain rfl := (hw .ping).eq_of_pid hp
    exact child_found hw hr (fun _ hj => k.child_injective hj) (by rintro ⟨⟩)
  | notPing hp =>
    refine ⟨fun j => (hw j).handover (fun _ h => ⟨_, rfl, h⟩) (fun h => ⟨_, rfl, h⟩) (by rintro ⟨⟩),
      fun pc' hpc => ?_⟩
    cases hpc
    refine hc.imp_right fun hc => ?_
    obtain ⟨i, hi, hr⟩ := hc
    cases i with
    | ping => exact absurd (hi.trans hr.2.symm) hp
    | pong => exact ⟨hi, hr⟩
  | isPong hp =>
    obtain ⟨rfl, hr⟩ := hc.resolve_left fun h0 => (hw .pong).pid_ne_zero (hp ▸ h0)
    exact child_found hw hr (fun _ hj => k.child_injective hj) (by rintro ⟨⟩)
  | notPong hp =>
    obtain rfl := hc.resolve_right fun h => hp (h.1.trans h.2.2.symm)
    refine ⟨fun j => (hw j).handover (fun _ h => ⟨_, rfl, h⟩)
      (fun h => absurd h.symm (k.child_ne_zero j)) (by rintro ⟨⟩), fun pc' hpc => ?_⟩
    cases hpc
    rfl
  | finished =>
    exact ⟨fun j => (hw j).handover (fun _ h => absurd rfl h) (fun h => absurd h id) (by rintro ⟨⟩),
      by rintro _ ⟨⟩⟩
  | again hne => exact absurd hc hne
  | @recordDeath i =>
    refine ⟨fun j => ?_, fun pc' hpc => by cases hpc; trivial⟩
    by_cases hj : j = i
    · subst j
      simp [WorkerOk, hc.1]
    · have hj' : WorkerOk k w (some .setStop) j := (hw j).handover (fun _ _ => ⟨_, rfl, trivial⟩)
        (fun h => absurd h.symm hj) (by rintro ⟨⟩)
      simpa [WorkerOk, hj] using hj'
  | setStop =>
    refine ⟨fun j => ?_, fun pc' hpc => by cases hpc; trivial⟩
    have hj := hw j
    simp only [WorkerOk] at hj ⊢
    split at hj <;> simp_all [Recording, WillWait]
  | ignoreAlarm =>
    refine ⟨fun j => ?_, fun pc' hpc => by cases hpc; trivial⟩
    have hj : WorkerOk k w (some .stopTimer) j :=
      (hw j).handover (fun _ _ => ⟨_, rfl, trivial⟩) (fun h => absurd h id) (by rintro ⟨⟩)
    exact hj
  | stopTimer =>
    refine ⟨fun j => ?_, fun pc' hpc => by cases hpc; trivial⟩
    have hj : WorkerOk k w (some .waitpid) j :=
      (hw j).handover (fun _ _ => ⟨_, rfl, trivial⟩) (fun h => absurd h id) (by rintro ⟨⟩)
    exact hj

theorem Books.of_around {k : Setting} {s t : State} (h : Books k s)
    (hd : Distinct (program k) t.stack) (ha : ∀ f ∈ t.stack, AfterSetup f)
    (hc : childPc t.stack = childPc s.stack) (hw : Around k g s.world t.world) : Books k t where
  processes := h.processes
  distinct := hd
  afterSetup := ha
  sigchld := hw.sigchld.trans h.sigchld
  worker i := hc ▸ (h.worker i).around hw h.sigchld
  child pc hpc := (h.child pc (hc ▸ hpc)).around hw

theorem WorkerOk.deliver {k : Setting} {w : World} {i : Worker} (h : WorkerOk k w none i) :
    WorkerOk k (w.setPending .sigchld false) (some .waitpid) i := by
  simp only [WorkerOk, World.setPending_worker, World.setPending_run_data] at h ⊢
  split at h
  · exact h
  · exact h
  · exact ⟨h.1, .inr ⟨_, rfl, trivial⟩⟩
  · exact h
  · obtain ⟨-, pc, hpc, -⟩ | ⟨hp, hs⟩ := h
    · cases hpc
    · exact .inr ⟨hp, .inl (hs.resolve_right nofun)⟩

theorem Books.step {k : Setting} {s t : State} {e : MonitorEvent} (h : Books k s)
    (hn : next (program k) e s = some t) : Books k t := by
  have hd := h.distinct.step (next_cases hn)
  have hs := h.sigchld
  cases next_cases hn with
  | @goto c f f' rest w w' he =>
    have hrest : ∀ g ∈ rest, AfterSetup g := fun g hg => h.afterSetup g (by simp [hg])
    by_cases hf : f.signal = some .sigchld
    · obtain ⟨pc, rfl⟩ := eq_child_handler hf
      rw [program_exec] at he
      cases (execFrame_cases he).2 with
      | child hch =>
        obtain ⟨hw, hc⟩ := child_handler_ok h.processes h.worker (h.child _ rfl) hch
        exact ⟨h.processes, hd, List.forall_mem_cons.mpr ⟨trivial, hrest⟩,
          (child_handler_disposition (by decide) hch).trans hs, hw, fun pc hpc => hc pc hpc⟩
    · obtain ⟨ha, hl⟩ := execFrame_around hf (h.afterSetup f (by simp)) he
      have hf' : f'.signal ≠ some .sigchld := execFrame_signal k f c w w' f' he ▸ hf
      refine h.of_around hd (List.forall_mem_cons.mpr ⟨hl f' rfl, hrest⟩) ?_ ha
      simp only [childPc_cons hf, childPc_cons hf']
  | @ret c f rest w w' he =>
    have hrest' : ∀ g ∈ rest, AfterSetup g := fun g hg => h.afterSetup g (by simp [hg])
    have hrest : ∀ g ∈ resumeTop (program k) rest, AfterSetup g :=
      forall_mem_resumeTop (p := AfterSetup) (fun _ => afterSetup_resume) hrest'
    by_cases hf : f.signal = some .sigchld
    · have hnone : childPc (resumeTop (program k) rest) = none := by
        rw [childPc_resumeTop]
        exact childPc_eq_none fun g hg => hf ▸ h.distinct.tail_ne hg
      obtain ⟨pc, rfl⟩ := eq_child_handler hf
      rw [program_exec] at he
      cases (execFrame_cases he).2 with
      | childRet hch =>
        obtain ⟨hw, -⟩ := child_handler_ok h.processes h.worker (h.child _ rfl) hch
        exact ⟨h.processes, hd, hrest, (child_handler_disposition (by decide) hch).trans hs,
          fun i => hnone ▸ hw i, fun pc hpc => nomatch hnone ▸ hpc⟩
    · obtain ⟨ha, -⟩ := execFrame_around hf (h.afterSetup f (by simp)) he
      refine h.of_around hd hrest ?_ ha
      rw [childPc_resumeTop, childPc_cons hf]
  | @handle sig f stack w w' hb he =>
    by_cases hsig : sig = .sigchld
    · subst hsig
      have hnone : childPc stack = none :=
        childPc_eq_none fun g hg hg' => hb (List.mem_map.mpr ⟨g, hg, hg'⟩)
      cases (accept_cases he).2.2
      refine ⟨h.processes, hd, List.forall_mem_cons.mpr ⟨trivial, h.afterSetup⟩, hs,
        fun i => ?_, fun pc hpc => by cases hpc; trivial⟩
      exact WorkerOk.deliver (hnone ▸ h.worker i)
    · have hf : f.signal ≠ some .sigchld := by
        rw [accept_signal sig w w' f he]
        simpa using hsig
      refine h.of_around hd (List.forall_mem_cons.mpr ⟨?_, h.afterSetup⟩) (childPc_cons hf stack)
        (accept_around hsig he)
      cases (accept_cases he).2.2
      cases sig <;> trivial
  | @ignore sig stack w w' hb he =>
    have hsig : sig ≠ .sigchld := by
      rintro rfl
      cases (accept_cases he).2.2 with
      | ignored hi =>
        change w.disposition .sigchld = .handler at hs
        simp [World.Ignored, hs] at hi
      | killed _ hne => exact hne rfl
    exact h.of_around hd h.afterSetup rfl (accept_around hsig he)
  | env he =>
    exact h.of_around hd h.afterSetup rfl (env_around h.processes he)

theorem WorkerOk.reaped {k : Setting} {w : World} {c : Option ChildPc} {i : Worker}
    (h : WorkerOk k w c i) (hi : w.run_data.pid i = -1) : w.worker i = .reaped .child_handler := by
  have hne : w.run_data.pid i ≠ k.child i := hi ▸ (k.child_ne_neg_one i).symm
  simp only [WorkerOk] at h
  split at h
  · exact h.elim
  · exact absurd h.2 hne
  · exact absurd h.1 hne
  · exact absurd h hne
  · assumption

theorem execFrame_dead {k : Setting} {f : Frame} {c : Choice} {w w' : World} {o : Option Frame}
    (ha : AfterSetup f) (he : execFrame k f c w = some (w', o)) {i : Worker}
    (hr : w.worker i = .reaped .child_handler) (hi : w.run_data.pid i = -1) :
    w'.run_data.pid i = -1 := by
  by_cases hf : f.signal = some .sigchld
  · obtain ⟨pc, rfl⟩ := eq_child_handler hf
    cases (execFrame_cases he).2 with
    | child hch | childRet hch => exact (child_handler_pid hch i).elim (·.trans hi) id
  · exact ((execFrame_around hf ha he).1.dead hr).trans hi

theorem Books.dead {k : Setting} {s t : State} {e : MonitorEvent} (h : Books k s)
    (hn : next (program k) e s = some t) {i : Worker} (hi : s.world.run_data.pid i = -1) :
    t.world.run_data.pid i = -1 := by
  have hr := (h.worker i).reaped hi
  cases next_cases hn with
  | goto he | ret he => exact execFrame_dead (h.afterSetup _ List.mem_cons_self) he hr hi
  | handle _ he | ignore _ he =>
    exact (congrFun (congrArg RunData.pid (accept_worker he).2) i).trans hi
  | env he => exact ((env_around h.processes he).dead hr).trans hi

theorem books_of_setUp {k : Setting} {s : State} (h : SetUp k s) : Books k s where
  processes := h.processes
  distinct := by rw [Distinct, h.stack]; exact List.nodup_singleton _
  afterSetup := by simp [h.stack, AfterSetup, afterSetup]
  sigchld := h.sigchld
  worker i := by simp [WorkerOk, h.worker, h.pid, pastPid]
  child pc hpc := by simp [h.stack, childPc] at hpc

theorem books_of_reachable {k : Setting} {s : State} (h : Reachable (monitor k) s) : Books k s :=
  h.invariant (fun _ => books_of_setUp) fun _ _ _ => Books.step

theorem execFrame_fate {k : Setting} {f : Frame} {c : Choice} {w w' : World} {o : Option Frame}
    (ha : AfterSetup f) (he : execFrame k f c w = some (w', o)) :
    (∀ i, Fate (Gathers k i f) (w.worker i) (w'.worker i)) ∧
      ∀ f', o = some f' → AfterSetup f' := by
  by_cases hf : f.signal = some .sigchld
  · obtain ⟨pc, rfl⟩ := eq_child_handler hf
    cases (execFrame_cases he).2 with
    | child hch => exact ⟨child_handler_fate hch, fun _ h => by cases h; trivial⟩
    | childRet hch => exact ⟨child_handler_fate hch, nofun⟩
  · obtain ⟨hw, hl⟩ := execFrame_around hf ha he
    exact ⟨fun i => (hw.worker i).fate, hl⟩

/-- `gather_periodic_stats` reaps nobody in the coming step: no worker that its
`wait4` looks at has exited and still waits to be reaped. -/
def GathersNoZombie (k : Setting) (f : Frame) (w : World) : Prop :=
  ∀ i, Gathers k i f → w.worker i ≠ .zombie

instance (k : Setting) (f : Frame) (w : World) : Decidable (GathersNoZombie k f w) :=
  inferInstanceAs (Decidable (∀ _, _))

theorem not_gathered {k : Setting} (hk : k.thread_mode ≠ .pthread) :
    LocalInvariant (program k) (GathersNoZombie k)
      (fun w => ∀ i, w.worker i ≠ .reaped .gather_periodic_stats) (fun _ f => AfterSetup f) where
  exec hg hw ha he := by
    obtain ⟨hf, hl⟩ := execFrame_fate ha he
    refine ⟨fun i hi => ?_, hl, fun _ _ => id⟩
    obtain h | ⟨h, hz⟩ := (hf i).gathered hi
    · exact hw i h
    · exact hg i h hz
  accept hw he :=
    ⟨fun i => (accept_worker he).1 ▸ hw i, fun f hf => by subst hf; exact accept_afterSetup he,
      fun _ => id⟩
  resume ha := afterSetup_resume ha
  env hw he := by
    refine ⟨fun i hi => ?_, fun _ => id⟩
    obtain h | ⟨h, -⟩ := ((env_around hk he).worker i).fate.gathered hi
    · exact hw i h
    · exact h

theorem reaped_stays {k : Setting} (hk : k.thread_mode ≠ .pthread) (i : Worker) (who : Reaper) :
    LocalInvariant (program k) (fun _ _ => True) (fun w => w.worker i = .reaped who)
      (fun _ f => AfterSetup f) where
  exec _ hw ha he := by
    obtain ⟨hf, hl⟩ := execFrame_fate ha he
    exact ⟨(hf i).reaped hw, hl, fun _ _ => id⟩
  accept hw he :=
    ⟨(accept_worker he).1 ▸ hw, fun f hf => by subst hf; exact accept_afterSetup he, fun _ => id⟩
  resume ha := afterSetup_resume ha
  env hw he := ⟨((env_around hk he).worker i).fate.reaped hw, fun _ => id⟩

/-- A worker that `gather_periodic_stats` has reaped stays unrecorded for good:
nothing will put -1 into its pid field. -/
theorem gathered_never_recorded {k : Setting} {s t : State} {tr : List MonitorEvent} {i : Worker}
    (h : Reachable (monitor k) s) (hw : s.world.worker i = .reaped .gather_periodic_stats)
    (he : exec (next (program k)) tr s = some t) :
    t.world.worker i = .reaped .gather_periodic_stats ∧ t.world.run_data.pid i = k.child i := by
  have hb := books_of_reachable h
  have hs : Reachable (system (program k) (· = s)) t := reachable_of_exec rfl he
  have ht := ((reaped_stays hb.processes i _).reachable (fun u hu => by
    subst hu
    exact ⟨hb.distinct, hw, hb.afterSetup⟩) hs).world
  obtain ⟨tr', hr⟩ := h
  have hi := (books_of_reachable ⟨_, hr.exec he⟩).worker i
  simp only [WorkerOk, ht] at hi
  exact ⟨ht, hi⟩

/-- No handler is executing and `SIGCHLD` does not pend. -/
def Quiescent (s : State) : Prop :=
  (∀ f ∈ s.stack, f.signal = none) ∧ s.world.pending .sigchld = false

instance : DecidablePred Quiescent := fun _ => inferInstanceAs (Decidable (_ ∧ _))

def DeathRecorded (s : State) (i : Worker) : Prop :=
  s.world.run_data.pid i = -1 ∧ s.world.run_data.stop = true

instance (s : State) (i : Worker) : Decidable (DeathRecorded s i) :=
  inferInstanceAs (Decidable (_ ∧ _))

theorem WorkerOk.deathRecorded {k : Setting} {s : State} {i : Worker}
    (h : WorkerOk k s.world none i) (hp : s.world.pending .sigchld = false)
    (hg : s.world.worker i ≠ .reaped .gather_periodic_stats)
    (ht : (s.world.worker i).Terminated) : DeathRecorded s i := by
  simp only [WorkerOk] at h
  split at h <;> rename_i hw <;> rw [hw] at ht
  · exact ht.elim
  · exact ht.elim
  · obtain ⟨-, hn | ⟨_, hc, -⟩⟩ := h
    · rw [hp] at hn
      cases hn
    · cases hc
  · exact absurd hw hg
  · obtain ⟨-, _, hc, -⟩ | ⟨hpid, hs⟩ := h
    · cases hc
    · exact ⟨hpid, hs.resolve_right nofun⟩

/-- As long as `gather_periodic_stats` reaps nobody, every death is recorded as
soon as no handler runs and no `SIGCHLD` pends, and an exit status is consumed
by an activation of `child_handler` that records it. -/
theorem deaths_recorded {k : Setting} {s : State}
    (h : Reachable (restrict (monitor k) (Guarded (GathersNoZombie k))) s) :
    (Quiescent s → ∀ i, (s.world.worker i).Terminated → DeathRecorded s i) ∧
    ∀ i who, s.world.worker i = .reaped who → s.world.run_data.pid i = -1 ∨
      ∃ pc, .child_handler pc ∈ s.stack ∧ Recording k i pc := by
  have hb : Books k s := by
    obtain ⟨tr, hr⟩ := h
    exact books_of_reachable ⟨tr, hr.of_restrict⟩
  have hg : ∀ i, s.world.worker i ≠ .reaped .gather_periodic_stats := by
    refine ((not_gathered hb.processes).reachable_guarded (fun t ht => ?_) h).world
    have ht' := books_of_setUp ht
    exact ⟨ht'.distinct, fun i => by rw [ht.worker]; nofun, ht'.afterSetup⟩
  constructor
  · rintro ⟨hq, hp⟩ i ht
    have hc : childPc s.stack = none := childPc_eq_none fun f hf => by simp [hq f hf]
    exact WorkerOk.deathRecorded (hc ▸ hb.worker i) hp (hg i) ht
  · intro i who hi
    cases who with
    | gather_periodic_stats => exact absurd hi (hg i)
    | child_handler =>
      have hw := hb.worker i
      simp only [WorkerOk, hi] at hw
      exact hw.symm.imp And.left fun ⟨_, pc, hc, hr⟩ => ⟨pc, mem_of_childPc hc, hr⟩

/-- The main loop sleeps when ping dies, and the handler records it. -/
theorem deaths_recorded_ping : ∃ s, Reachable (monitor (.ofModes .fork .tcp)) s ∧ Quiescent s ∧
    (s.world.worker .ping).Terminated ∧ DeathRecorded s .ping := by
  obtain ⟨s, hs, hq, ht⟩ := exists_reachable_of_exec
    (S := restrict (monitor (.ofModes .fork .tcp)) (Guarded (GathersNoZombie (.ofModes .fork .tcp))))
    (p := fun s => Quiescent s ∧ (s.world.worker .ping).Terminated) (setUp_setUpState (by decide))
    (.replicate 7 (.step {}) ++ [.env (.die .ping), .deliver .sigchld] ++ .replicate 10 (.step {}))
    (by decide +kernel)
  obtain ⟨tr, hr⟩ := hs
  exact ⟨s, ⟨tr, hr.of_restrict⟩, hq, ht, (deaths_recorded ⟨tr, hr⟩).1 hq .ping ht⟩

/-- Ping dies after a tick, and the tick's `wait4` gets to it before `SIGCHLD`
is delivered. -/
theorem death_lost : ¬ ∀ k s, Reachable (monitor k) s → Quiescent s →
    ∀ i, (s.world.worker i).Terminated → DeathRecorded s i := by
  intro h
  obtain ⟨s, hs, hq, ht, hr⟩ := exists_reachable_of_exec (S := monitor (.ofModes .fork .tcp))
    (p := fun s => Quiescent s ∧ (s.world.worker .ping).Terminated ∧ ¬ DeathRecorded s .ping)
    (setUp_setUpState (by decide))
    (.replicate 7 (.step {}) ++ [.env .tick, .deliver .sigalrm] ++ .replicate 5 (.step {}) ++
      [.env (.die .ping), .step {}, .deliver .sigchld] ++ .replicate 11 (.step {}))
    (by decide +kernel)
  exact hr (h _ s hs hq .ping ht)

end PingPong.MonitorReaping
