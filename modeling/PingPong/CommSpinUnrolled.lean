import PingPong.CommSpin
import PingPong.Unrolling

namespace PingPong.CommSpinUnrolled

open CommSpin TransitionSystem Unrolling
open MonitorState (Worker)

/-- What `make_spin_unrolled_pair` keeps: how often it was called, the variable once it is
mapped, and the method of the loops. -/
structure Statics where
  spin_unrolled_num : Nat
  spin_unrolled_var : Option Int
  mem_sync_method : Int
deriving DecidableEq, Repr

def make_spin_unrolled_pair (g : Statics) : Statics × (Nat × Nat) :=
  let g' :=
    if g.spin_unrolled_num = 0 then { g with spin_unrolled_var := some 0, mem_sync_method := 1 }
    else g
  ({ g' with spin_unrolled_num := g.spin_unrolled_num + 1 },
    (g.spin_unrolled_num, g.spin_unrolled_num))

def made : Statics :=
  (make_spin_unrolled_pair (make_spin_unrolled_pair ⟨0, none, 0⟩).1).1

/-- `MEM_SYNC_METHOD_0` to `MEM_SYNC_METHOD_4`; the first expands to nothing, and the flags of
the last two are not those of their names. -/
def memSyncMethod : List Code :=
  [.empty, .mb, .msync .MS_SYNC, .msync .MS_SYNC, .msync .MS_SYNC]

def sameCode : List String :=
  ["asm_clobber", "mem_barrier", "msync_sync", "msync_sync", "msync_sync"]

def ONE_PING (code : Code) : Stmt World CommSpin.Pc where
  entry := .count
  step w pc := match pc with
    | .count => some ({ w with ping_count := w.ping_count + 1 }, some .store)
    | .store => some (w.store .ping 1, some .sync)
    | .sync => some (code.exec .ping w, some .test)
    | .test => some (if w.var ≠ 0 then (w, some .test) else (w.see .ping, none))
    | .body => none

def ONE_PONG (code : Code) : Stmt World CommSpin.Pc where
  entry := .test
  step w pc := match pc with
    | .test => some (if w.var ≠ 1 then (w, some .test) else (w.see .pong, some .store))
    | .store => some (w.store .pong 0, some .sync)
    | .sync => some (code.exec .pong w, none)
    | _ => none

def ONE (code : Code) : Worker → Stmt World CommSpin.Pc
  | .ping => ONE_PING code
  | .pong => ONE_PONG code

/-- Before the jump through `sync_mem_method_table`, or in the loop of a method: in which of
the ten copies, and where. -/
inductive Pc
  | table
  | loop (code : Code) (copy : Fin 10) (pc : CommSpin.Pc)
deriving DecidableEq, Repr

/-- `comm_ping_spin_unrolled` and `comm_pong_spin_unrolled`; the jump needs an index of the
table. -/
def do_thread_work (mem_sync_method : Int) (who : Worker) (w : World) : Pc → Option (World × Pc)
  | .table =>
    if mem_sync_method < 0 then none
    else (memSyncMethod[mem_sync_method.toNat]?).map fun code =>
      (w, .loop code 0 (ONE code who).entry)
  | .loop code copy pc =>
    ((ONE code who).copies 9 w (copy, pc)).map fun r => (r.1, .loop code r.2.1 r.2.2)

abbrev State := Workers Pc World

def start (g : Statics) : State := ⟨fun _ => .table, ⟨g.spin_unrolled_var.getD 0, 0, [], []⟩⟩

def next (g : Statics) (who : Worker) (s : State) : Option State :=
  (do_thread_work g.mem_sync_method who s.world (s.pc who)).map fun r => s.move who r.2 r.1

def system (g : Statics) : System State Worker := ⟨(· = start g), next g⟩

variable {code : Code} {i : Worker} {g : Statics} {s s' : State}

theorem forever_ONE_PING (code : Code) (w : World) (pc : CommSpin.Pc) :
    (ONE_PING code).forever w pc = SPIN_PING_FUNCTION_CODE code .ping w pc := by
  cases pc with
  | test => by_cases hv : w.var = 0 <;>
      simp [Stmt.forever, ONE_PING, SPIN_PING_FUNCTION_CODE, pingLoop, storeAndWait, again, hv]
  | _ => rfl

theorem forever_ONE_PONG (code : Code) (w : World) (pc : CommSpin.Pc) :
    (ONE_PONG code).forever w pc = SPIN_PONG_FUNCTION_CODE code .pong w pc := by
  cases pc with
  | test => by_cases hv : w.var = 1 <;>
      simp [Stmt.forever, ONE_PONG, SPIN_PONG_FUNCTION_CODE, pongLoop, storeAndWait, again, hv]
  | _ => rfl

structure Plain (method : Fin spin_memsync_info.length) (code : Code) : Prop where
  ping : (spin_memsync_info.get method).ping_fn = SPIN_PING_FUNCTION_CODE code
  pong : (spin_memsync_info.get method).pong_fn = SPIN_PONG_FUNCTION_CODE code

theorem exists_plain (method : Fin spin_memsync_info.length) : ∃ code, Plain method code := by
  obtain ⟨code, hping, hpong⟩ := exists_get_eq method
  exact ⟨code, hping, hpong⟩

theorem Plain.executed {method : Fin spin_memsync_info.length} (h : Plain method code) :
    ((spin_memsync_info.get method).ping_fn .ping CommSpin.start.world .sync).map
      (·.1.executed) = some [(.ping, code)] := by
  rw [h.ping]
  rfl

theorem executed_iff : ∀ (method : Fin spin_memsync_info.length) (k : Fin memSyncMethod.length),
    ((spin_memsync_info.get method).ping_fn .ping CommSpin.start.world .sync).map
        (·.1.executed) = some [(.ping, memSyncMethod.get k)] ↔
      sameCode[(k : Nat)]? = some (spin_memsync_info.get method).fn_name := by
  decide

theorem plain_iff {method : Fin spin_memsync_info.length} {k : Fin memSyncMethod.length} :
    Plain method (memSyncMethod.get k) ↔
      sameCode[(k : Nat)]? = some (spin_memsync_info.get method).fn_name := by
  refine ⟨fun h => (executed_iff method k).mp h.executed, fun h => ?_⟩
  obtain ⟨code, hp⟩ := exists_plain method
  have heq := hp.executed.symm.trans ((executed_iff method k).mpr h)
  simp only [Option.some.injEq, List.cons.injEq, Prod.mk.injEq, and_true, true_and] at heq
  exact heq ▸ hp

theorem exists_sameCode : ∀ k : Fin memSyncMethod.length,
    ∃ method : Fin spin_memsync_info.length,
      sameCode[(k : Nat)]? = some (spin_memsync_info.get method).fn_name := by
  decide

theorem Plain.forever {method : Fin spin_memsync_info.length} (h : Plain method code)
    (i : Worker) (w : World) (pc : CommSpin.Pc) :
    (ONE code i).forever w pc = (Mode.spin method method).do_thread_work i w pc := by
  cases i with
  | ping => exact (forever_ONE_PING code w pc).trans (congrFun₃ h.ping.symm .ping w pc)
  | pong => exact (forever_ONE_PONG code w pc).trans (congrFun₃ h.pong.symm .pong w pc)

theorem storeAndWait_executed {val awaited : Int} {next : CommSpin.Pc} {w : World}
    {pc : CommSpin.Pc} {r : World × CommSpin.Pc}
    (h : storeAndWait val awaited code none next i w pc = some r) :
    r.1.executed = w.executed ∨ r.1.executed = w.executed ++ [(i, code)] := by
  cases pc with
  | count | body => cases h
  | store =>
    obtain rfl := Option.some.inj h
    exact .inl rfl
  | sync =>
    obtain rfl := Option.some.inj h
    exact .inr rfl
  | test =>
    obtain rfl := Option.some.inj h
    by_cases hv : w.var = awaited <;> simp [hv]

theorem pingLoop_executed {w : World} {pc : CommSpin.Pc} {r : World × CommSpin.Pc}
    (h : pingLoop code none i w pc = some r) :
    r.1.executed = w.executed ∨ r.1.executed = w.executed ++ [(i, code)] := by
  by_cases hpc : pc = .count
  · subst hpc
    obtain rfl := Option.some.inj h
    exact .inl rfl
  · rw [pingLoop_eq hpc] at h
    exact storeAndWait_executed h

theorem Plain.all_executed {method : Fin spin_memsync_info.length} (h : Plain method code)
    {t : CommSpin.State} (ht : Reachable (CommSpin.system (.spin method method)) t) :
    ∀ e ∈ t.world.executed, e.2 = code := by
  apply ht.invariant (I := fun t => ∀ e ∈ t.world.executed, e.2 = code)
  · rintro _ rfl
    simp [CommSpin.start]
  · intro t i t' hI hn
    obtain ⟨r, hr, rfl⟩ := Option.map_eq_some_iff.mp hn
    have hcase : r.1.executed = t.world.executed ∨
        r.1.executed = t.world.executed ++ [(i, code)] := by
      cases i with
      | ping =>
        rw [Mode.do_thread_work, Mode.comm_ping, h.ping, SPIN_PING_FUNCTION_CODE] at hr
        exact pingLoop_executed hr
      | pong =>
        rw [Mode.do_thread_work, Mode.comm_pong, h.pong] at hr
        exact storeAndWait_executed hr
    intro e he
    rw [Workers.move_world] at he
    obtain hsame | hmore := hcase
    · exact hI e (hsame ▸ he)
    · rw [hmore, List.mem_append, List.mem_singleton] at he
      obtain he | rfl := he
      · exact hI e he
      · rfl

theorem Plain.exists_executed {method : Fin spin_memsync_info.length} (h : Plain method code) :
    ∃ t, Reachable (CommSpin.system (.spin method method)) t ∧
      t.world.executed = [(.ping, code)] := by
  have hnext (t : CommSpin.State) : CommSpin.next (.spin method method) .ping t =
      (SPIN_PING_FUNCTION_CODE code .ping t.world (t.pc .ping)).map
        fun r => t.move .ping r.2 r.1 := by
    rw [CommSpin.next, Mode.do_thread_work, Mode.comm_ping, h.ping]
  have h0 : Reachable (CommSpin.system (.spin method method)) CommSpin.start := .init rfl
  have h1 := h0.next (hnext _)
  have h2 := h1.next (hnext _)
  exact ⟨_, h2.next (hnext _), rfl⟩

def Pc.plain (who : Worker) : Pc → CommSpin.Pc
  | .table => CommSpin.start.pc who
  | .loop _ _ pc => pc

def plain (s : State) : CommSpin.State := ⟨fun i => (s.pc i).plain i, s.world⟩

@[simp] theorem plain_pc (s : State) (i : Worker) : (plain s).pc i = (s.pc i).plain i := rfl

@[simp] theorem plain_world (s : State) : (plain s).world = s.world := rfl

theorem plain_move (s : State) (i : Worker) (pc : Pc) (w : World) :
    plain (s.move i pc w) = (plain s).move i (pc.plain i) w := by
  rw [plain, Workers.move, Workers.move, plain, Workers.mk.injEq]
  refine ⟨funext fun j => ?_, rfl⟩
  obtain rfl | rfl := i.eq_or_other j <;> simp

theorem entry_eq (code : Code) (i : Worker) : (ONE code i).entry = CommSpin.start.pc i := by
  cases i <;> rfl

theorem plain_jump (h : s.pc i = .table) :
    plain (s.move i (.loop code 0 (ONE code i).entry) s.world) = plain s := by
  have hpc : (plain s).pc i = (ONE code i).entry := by rw [plain_pc, h, entry_eq, Pc.plain]
  rw [plain_move, Pc.plain, ← hpc, ← plain_world]
  exact Workers.move_self ..

structure Made (g : Statics) (code : Code) : Prop where
  var : g.spin_unrolled_var = some 0
  nonneg : 0 ≤ g.mem_sync_method
  code : memSyncMethod[g.mem_sync_method.toNat]? = some code

theorem Made.jump (h : Made g code) (i : Worker) (w : World) :
    do_thread_work g.mem_sync_method i w .table = some (w, .loop code 0 (ONE code i).entry) := by
  rw [do_thread_work, if_neg (Int.not_lt.mpr h.nonneg), h.code, Option.map_some]

theorem next_cases (h : Made g code) (hn : next g i s = some s') :
    s.pc i = .table ∧ s' = s.move i (.loop code 0 (ONE code i).entry) s.world ∨
    ∃ code' copy pc r, s.pc i = .loop code' copy pc ∧
      (ONE code' i).copies 9 s.world (copy, pc) = some r ∧
      s' = s.move i (.loop code' r.2.1 r.2.2) r.1 := by
  obtain ⟨r, hr, rfl⟩ := Option.map_eq_some_iff.mp hn
  cases hpc : s.pc i with
  | table =>
    rw [hpc, h.jump i s.world] at hr
    obtain rfl := Option.some.inj hr
    exact .inl ⟨rfl, rfl⟩
  | loop code' copy pc =>
    rw [hpc] at hr
    obtain ⟨r', hr', rfl⟩ := Option.map_eq_some_iff.mp hr
    exact .inr ⟨code', copy, pc, r', rfl, hr', rfl⟩

theorem code_eq (h : Made g code) (hs : Reachable (system g) s) {code' : Code} {copy : Fin 10}
    {pc : CommSpin.Pc} (hpc : s.pc i = .loop code' copy pc) : code' = code := by
  have hall : ∀ i code' copy pc, s.pc i = .loop code' copy pc → code' = code := by
    apply hs.invariant
      (I := fun s => ∀ i code' copy pc, s.pc i = .loop code' copy pc → code' = code)
    · rintro _ rfl i code' copy pc hpc
      simp [start] at hpc
    · intro s i t hs hn j code' copy pc hj
      obtain ⟨hpc, rfl⟩ | ⟨code'', copy', pc', r, hpc, -, rfl⟩ := next_cases h hn
      · obtain rfl | rfl := i.eq_or_other j
        · simp only [Workers.move_pc_self, Pc.loop.injEq] at hj
          exact hj.1.symm
        · exact hs _ _ _ _ (by simpa using hj)
      · obtain rfl | rfl := i.eq_or_other j
        · simp only [Workers.move_pc_self, Pc.loop.injEq] at hj
          exact hj.1 ▸ hs _ _ _ _ hpc
        · exact hs _ _ _ _ (by simpa using hj)
  exact hall i code' copy pc hpc

variable {method : Fin spin_memsync_info.length}

theorem lift_loop (hp : Plain method code) (hs : Reachable (system g) s) {copy : Fin 10}
    {pc : CommSpin.Pc} (hpc : s.pc i = .loop code copy pc) {t : CommSpin.State}
    (hn : CommSpin.next (.spin method method) i (plain s) = some t) :
    ∃ s', Reachable (system g) s' ∧ plain s' = t := by
  obtain ⟨⟨w, pc'⟩, hr, rfl⟩ := Option.map_eq_some_iff.mp hn
  rw [plain_pc, plain_world, hpc, Pc.plain, ← hp.forever] at hr
  obtain ⟨copy', hc⟩ := Stmt.forever_some (ONE code i) (n := 9) (p := (copy, pc)) hr
  have hstep : next g i s = some (s.move i (.loop code copy' pc') w) := by
    rw [next, hpc, do_thread_work, hc]
    rfl
  exact ⟨_, hs.next (a := i) hstep, plain_move ..⟩

theorem projection (h : Made g code) (hp : Plain method code) :
    Projection (system g) (CommSpin.system (.spin method method)) plain where
  init := by
    rintro _ rfl
    simp [CommSpin.system, plain, start, h.var, Pc.plain, CommSpin.start]
  init_lift := by
    rintro _ rfl
    exact ⟨_, rfl, by simp [plain, start, h.var, Pc.plain, CommSpin.start]⟩
  step := by
    intro s s' i hs hn
    obtain ⟨hpc, rfl⟩ | ⟨code', copy, pc, ⟨w, copy', pc'⟩, hpc, hc, rfl⟩ := next_cases h hn
    · exact .inl (plain_jump hpc)
    · right
      obtain rfl := code_eq h hs hpc
      have hr := Stmt.copies_some _ hc
      rw [hp.forever] at hr
      refine ⟨i, ?_⟩
      have hnext : CommSpin.next (.spin method method) i (plain s) =
          some ((plain s).move i pc' w) := by
        rw [CommSpin.next, plain_pc, plain_world, hpc, Pc.plain, hr]
        rfl
      rw [plain_move]
      exact hnext
  lift := by
    intro s t i hs hn
    cases hpc : s.pc i with
    | table =>
      have hjump : next g i s = some (s.move i (.loop code 0 (ONE code i).entry) s.world) := by
        rw [next, hpc, h.jump]
        rfl
      exact lift_loop hp (hs.next (a := i) hjump) (Workers.move_pc_self ..) (plain_jump hpc ▸ hn)
    | loop code' copy pc =>
      obtain rfl := code_eq h hs hpc
      exact lift_loop hp hs hpc hn

theorem made_with (k : Fin memSyncMethod.length) :
    Made { made with mem_sync_method := (k : Nat) } (memSyncMethod.get k) :=
  ⟨rfl, Int.natCast_nonneg _, List.getElem?_eq_getElem k.isLt⟩

example : made = ⟨2, some 0, 1⟩ := rfl

/-- With each of the methods the loops written out ten times reach exactly what the plain loops
of spin mode reach with the method of the same code, and with no other: the same variable,
counter, history and executed code, with the workers at the same points of their loops. -/
theorem unrolled_agrees (k : Fin memSyncMethod.length) (method : Fin spin_memsync_info.length) :
    (∀ t, Reachable (CommSpin.system (.spin method method)) t ↔
      ∃ s, Reachable (system { made with mem_sync_method := (k : Nat) }) s ∧ plain s = t) ↔
    sameCode[(k : Nat)]? = some (spin_memsync_info.get method).fn_name := by
  refine ⟨fun h => ?_, fun h t => (projection (made_with k) (plain_iff.mpr h)).reachable_iff⟩
  obtain ⟨method', hk⟩ := exists_sameCode k
  have hp' := plain_iff.mpr hk
  obtain ⟨code, hp⟩ := exists_plain method
  obtain ⟨t, ht, hexec⟩ := hp'.exists_executed
  have ht' := (h t).mpr ((projection (made_with k) hp').reachable_iff.mp ht)
  obtain rfl : memSyncMethod.get k = code :=
    hp.all_executed ht' (.ping, memSyncMethod.get k) (hexec ▸ List.mem_singleton_self _)
  exact plain_iff.mp hp

end PingPong.CommSpinUnrolled
