import Mathlib.Data.BitVec
import PingPong.MonitorState
import PingPong.TransitionSystem
import PingPong.Workers

namespace PingPong.CommSpin

open MonitorState (Worker)
open TransitionSystem

inductive Act
  | stored (who : Worker) (val : Int)
  | seen (who : Worker)
deriving DecidableEq, Repr

inductive MsyncFlags | MS_SYNC | MS_INVALIDATE | MS_ASYNC
deriving DecidableEq, Repr

/-- What the loops execute around their accesses to the variable: the `_code` of
`spin_define_function`, and `sched_yield`. -/
inductive Code
  | asm | mb | mb2
  | msync (flags : MsyncFlags)
  | sync_synchronize | empty | sched_yield
deriving DecidableEq, Repr

/-- `var` is what `spin_var` and `yield_var` point to. -/
structure World where
  var : Int
  ping_count : BitVec 64
  history : List Act
  executed : List (Worker × Code)

@[simps] def World.store (w : World) (who : Worker) (val : Int) : World :=
  { w with var := val, history := w.history ++ [.stored who val] }

@[simps] def World.see (w : World) (who : Worker) : World :=
  { w with history := w.history ++ [.seen who] }

/-- None of it stores to the variable or to `run_data`. -/
@[simps] def Code.exec (code : Code) (who : Worker) (w : World) : World :=
  { w with executed := w.executed ++ [(who, code)] }

inductive Pc | count | store | sync | test | body
deriving DecidableEq, Repr

abbrev Loop := Worker → World → Pc → Option (World × Pc)

def again : Option Code → Pc
  | none => .test
  | some _ => .body

/-- From the store of `val` on: the code after it and the wait for `awaited`, from
which the loop goes on at `next`. -/
def storeAndWait (val awaited : Int) (code : Code) (body : Option Code) (next : Pc) : Loop :=
  fun who w pc => match pc with
    | .count => none
    | .store => some (w.store who val, .sync)
    | .sync => some (code.exec who w, .test)
    | .test => some (if w.var ≠ awaited then (w, again body) else (w.see who, next))
    | .body => body.map fun code => (code.exec who w, .test)

def pingLoop (code : Code) (body : Option Code) : Loop := fun who w pc => match pc with
  | .count => some ({ w with ping_count := w.ping_count + 1 }, .store)
  | pc => storeAndWait 1 0 code body .count who w pc

theorem pingLoop_eq {code : Code} {body : Option Code} {who : Worker} {w : World} {pc : Pc}
    (hpc : pc ≠ .count) :
    pingLoop code body who w pc = storeAndWait 1 0 code body .count who w pc := by
  cases pc with
  | count => exact absurd rfl hpc
  | store | sync | test | body => rfl

/-- The loop is entered at its wait. -/
def pongLoop (code : Code) (body : Option Code) : Loop := storeAndWait 0 1 code body .store

def SPIN_PING_FUNCTION_CODE (_sync_code : Code) : Loop := pingLoop _sync_code none

def SPIN_PONG_FUNCTION_CODE (_sync_code : Code) : Loop := pongLoop _sync_code none

structure SpinMemsync where
  sequence : Int
  fn_name : String
  description : String
  ping_fn : Loop
  pong_fn : Loop

def spin_define_function (sequence : Int) (sym desc : String) (code : Code) : SpinMemsync :=
  ⟨sequence, sym, desc, SPIN_PING_FUNCTION_CODE code, SPIN_PONG_FUNCTION_CODE code⟩

/-- The table, in the order of `compare_memsync_structs`. -/
def spin_memsync_info : List SpinMemsync :=
  [spin_define_function 3 "none" "no memory sync" .asm,
    spin_define_function 4 "mem_barrier" "mb()" .mb,
    spin_define_function 5 "mem_barrier2" "mb2()/memory clobber" .mb2,
    spin_define_function 6 "msync_sync" "msync( MS_SYNC )" (.msync .MS_SYNC),
    spin_define_function 7 "msync_inval" "msync( MS_INVALIDATE )" (.msync .MS_INVALIDATE),
    spin_define_function 8 "msync_async" "msync( MS_ASYNC )" (.msync .MS_ASYNC),
    spin_define_function 9 "sync_sync" "__sync_synchronize()" .sync_synchronize,
    spin_define_function 10 "asm_clobber" "asm memory clobber" .empty]

def comm_ping_yield : Loop := pingLoop .sched_yield (some .sched_yield)

def comm_pong_yield : Loop := pongLoop .sched_yield (some .sched_yield)

inductive Mode
  | spin (mem_sync_method_ping mem_sync_method_pong : Fin spin_memsync_info.length)
  | yield

namespace Mode

def comm_ping : Mode → Loop
  | .spin method _ => (spin_memsync_info.get method).ping_fn
  | .yield => comm_ping_yield

def comm_pong : Mode → Loop
  | .spin _ method => (spin_memsync_info.get method).pong_fn
  | .yield => comm_pong_yield

def do_thread_work (m : Mode) : Worker → World → Pc → Option (World × Pc)
  | .ping => m.comm_ping .ping
  | .pong => m.comm_pong .pong

end Mode

abbrev State := Workers Pc World

def start : State where
  pc
    | .ping => .count
    | .pong => .test
  world := ⟨0, 0, [], []⟩

def next (m : Mode) (who : Worker) (s : State) : Option State :=
  (m.do_thread_work who s.world (s.pc who)).map fun r => s.move who r.2 r.1

def system (m : Mode) : System State Worker := ⟨(· = start), next m⟩

def value : Worker → Int
  | .ping => 1
  | .pong => 0

def top : Worker → Pc
  | .ping => .count
  | .pong => .store

inductive Step (s : State) : State → Prop
  | count (h : s.pc .ping = .count) :
      Step s (s.move .ping .store { s.world with ping_count := s.world.ping_count + 1 })
  | store {i} (h : s.pc i = .store) : Step s (s.move i .sync (s.world.store i (value i)))
  | wait {i pc} (h : s.pc i = .test) (hpc : pc = .test ∨ pc = .body) :
      Step s (s.move i pc s.world)
  | exec {i} (code : Code) (h : s.pc i = .sync ∨ s.pc i = .body) :
      Step s (s.move i .test (code.exec i s.world))
  | see {i} (h : s.pc i = .test) (hv : s.world.var = value i.other) :
      Step s (s.move i (top i) (s.world.see i))

theorem exists_get_eq (n : Fin spin_memsync_info.length) : ∃ code,
    (spin_memsync_info.get n).ping_fn = pingLoop code none ∧
      (spin_memsync_info.get n).pong_fn = pongLoop code none := by
  have h : ∀ m ∈ spin_memsync_info, ∃ code, m.ping_fn = pingLoop code none ∧
      m.pong_fn = pongLoop code none := by
    simp only [spin_memsync_info, List.forall_mem_cons]
    exact ⟨⟨_, rfl, rfl⟩, ⟨_, rfl, rfl⟩, ⟨_, rfl, rfl⟩, ⟨_, rfl, rfl⟩, ⟨_, rfl, rfl⟩,
      ⟨_, rfl, rfl⟩, ⟨_, rfl, rfl⟩, ⟨_, rfl, rfl⟩, by simp⟩
  exact h _ (List.get_mem _ n)

theorem comm_ping_eq (m : Mode) : ∃ code body, m.comm_ping = pingLoop code body := by
  cases m with
  | spin n _ =>
    obtain ⟨code, h, _⟩ := exists_get_eq n
    exact ⟨code, none, h⟩
  | yield => exact ⟨_, _, rfl⟩

theorem comm_pong_eq (m : Mode) : ∃ code body, m.comm_pong = pongLoop code body := by
  cases m with
  | spin _ n =>
    obtain ⟨code, _, h⟩ := exists_get_eq n
    exact ⟨code, none, h⟩
  | yield => exact ⟨_, _, rfl⟩

theorem storeAndWait_step {s : State} {i : Worker} {code : Code} {body : Option Code}
    {r : World × Pc}
    (h : storeAndWait (value i) (value i.other) code body (top i) i s.world (s.pc i) = some r) :
    Step s (s.move i r.2 r.1) := by
  cases hpc : s.pc i with
  | count => simp [storeAndWait, hpc] at h
  | store =>
    obtain rfl : _ = r := by simpa only [storeAndWait, hpc, Option.some.injEq] using h
    exact .store hpc
  | sync =>
    obtain rfl : _ = r := by simpa only [storeAndWait, hpc, Option.some.injEq] using h
    exact .exec code (.inl hpc)
  | test =>
    obtain rfl : _ = r := by simpa only [storeAndWait, hpc, Option.some.injEq] using h
    by_cases hv : s.world.var = value i.other
    · simpa [hv] using Step.see hpc hv
    · have ha : again body = .test ∨ again body = .body := by cases body <;> simp [again]
      simpa [hv] using Step.wait hpc ha
  | body =>
    simp only [storeAndWait, hpc, Option.map_eq_some_iff] at h
    obtain ⟨code, _, rfl⟩ := h
    exact .exec code (.inr hpc)

theorem next_cases {m : Mode} {i : Worker} {s t : State} (h : next m i s = some t) :
    Step s t := by
  obtain ⟨r, hr, rfl⟩ := Option.map_eq_some_iff.mp h
  cases i with
  | ping =>
    obtain ⟨code, body, he⟩ := comm_ping_eq m
    rw [Mode.do_thread_work, he] at hr
    by_cases hc : s.pc .ping = .count
    · rw [hc] at hr
      obtain rfl := Option.some.inj hr
      exact .count hc
    · rw [pingLoop_eq hc] at hr
      exact storeAndWait_step hr
  | pong =>
    obtain ⟨code, body, he⟩ := comm_pong_eq m
    rw [Mode.do_thread_work, he] at hr
    exact storeAndWait_step hr

end PingPong.CommSpin
