import Mathlib.Data.Finset.Insert
import PingPong.CommEndpoints
import PingPong.Workers

namespace PingPong.CommFutex

open MonitorState CommEndpoints TransitionSystem

/-- The word that both `futex_id` map, and `futex_vals`. -/
structure Futex where
  word : Int
  futex_vals : Fin 2 → Int

def make_futex_pair (futex_num : Fin 2) (f : Futex) : Futex × (Fin 2 × Fin 2) :=
  let vals := Function.update f.futex_vals futex_num (0x0A + futex_num)
  (⟨vals 0, vals⟩, (futex_num, futex_num + 1))

/-- The segment that `shmget` creates is zero, and so are the statics. -/
def futex : Futex := (make_futex_pair 1 (make_futex_pair 0 ⟨0, 0⟩).1).1

def config : Config (Fin 2) := make_pairs fun num => (make_futex_pair num futex).2

/-- A store by `do_send_futex`, a `FUTEX_WAKE` that dequeued a waiter, and the
returns of `do_send_futex` and `do_recv_futex`. -/
inductive Act
  | stored (who : Worker) (val : Int)
  | woke (who woken : Worker)
  | sent (who : Worker)
  | received (who : Worker)
deriving DecidableEq, Repr

structure World where
  word : Int
  waiters : Finset Worker
  stop : Bool
  ping_count : BitVec 64
  history : List Act

@[simps] def World.record (w : World) (a : Act) : World := { w with history := w.history ++ [a] }

def futex_wake (who : Worker) (pick : Option Worker) (w : World) : Option (World × Int) :=
  match pick with
  | none => some (w, 0)
  | some j =>
    if j ∈ w.waiters then
      some ({ w with waiters := w.waiters.erase j }.record (.woke who j), 1)
    else none

inductive SendPc | store | wake | testStop
deriving DecidableEq, Repr

inductive RecvPc | wait | asleep | testStop
deriving DecidableEq, Repr

def do_send_futex (who : Worker) (fd : Fin 2) (pick : Option Worker) :
    SendPc → World → Option (World × (SendPc ⊕ Int))
  | .store, w =>
    let val := futex.futex_vals fd
    some ({ w with word := val }.record (.stored who val), .inl .wake)
  | .wake, w =>
    (futex_wake who pick w).map fun r => (r.1, if r.2 = 0 then .inl .testStop else .inr 1)
  | .testStop, w => some (w, if w.stop ≠ true then .inl .wake else .inr 1)

/-- `FUTEX_WAIT` fails at once when the word is not the value expected, else it
enqueues the caller, and returns 0 when a wake has dequeued it. -/
def do_recv_futex (who : Worker) (fd : Fin 2) : RecvPc → World → Option (World × (RecvPc ⊕ Int))
  | .wait, w =>
    if w.word ≠ futex.futex_vals (fd + 1) then some (w, .inl .testStop)
    else some ({ w with waiters := insert who w.waiters }, .inl .asleep)
  | .asleep, w => if who ∈ w.waiters then none else some (w, .inr 1)
  | .testStop, w => some (w, if w.stop ≠ true then .inl .wait else .inr 1)

inductive Pc
  | count
  | send (pc : SendPc)
  | recv (pc : RecvPc)
deriving DecidableEq, Repr

def sendLoop (thread_num : Worker) (pick : Option Worker) (pc : SendPc) (next : Pc) (w : World) :
    Option (World × Pc) :=
  (do_send_futex thread_num (config.mouth thread_num) pick pc w).map fun
    | (w, .inl pc) => (w, .send pc)
    | (w, .inr r) => (w.record (.sent thread_num), if r ≠ 1 then .send .store else next)

def recvLoop (thread_num : Worker) (pc : RecvPc) (next : Pc) (w : World) : Option (World × Pc) :=
  (do_recv_futex thread_num (config.ear thread_num) pc w).map fun
    | (w, .inl pc) => (w, .recv pc)
    | (w, .inr r) => (w.record (.received thread_num), if r ≠ 1 then .recv .wait else next)

def comm_ping_generic (thread_num : Worker) (pick : Option Worker) (w : World) :
    Pc → Option (World × Pc)
  | .count => some ({ w with ping_count := w.ping_count + 1 }, .send .store)
  | .send pc => sendLoop thread_num pick pc (.recv .wait) w
  | .recv pc => recvLoop thread_num pc .count w

def comm_pong_generic (thread_num : Worker) (pick : Option Worker) (w : World) :
    Pc → Option (World × Pc)
  | .count => none
  | .recv pc => recvLoop thread_num pc (.send .store) w
  | .send pc => sendLoop thread_num pick pc (.recv .wait) w

def do_thread_work : Worker → Option Worker → World → Pc → Option (World × Pc)
  | .ping => comm_ping_generic .ping
  | .pong => comm_pong_generic .pong

abbrev State := Workers Pc World

/-- A step of a worker, with the waiter that a `FUTEX_WAKE` picks, a signal that
interrupts a `FUTEX_WAIT`, and the store to `run_data->stop` by the monitor or by
`child_handler`. -/
inductive Event
  | step (who : Worker) (pick : Option Worker)
  | interrupt (who : Worker)
  | stop
deriving DecidableEq, Repr

def start : State where
  pc
    | .ping => .count
    | .pong => .recv .wait
  world := ⟨futex.word, ∅, false, 0, []⟩

def next : Event → State → Option State
  | .step who pick, s =>
    (do_thread_work who pick s.world (s.pc who)).map fun r => s.move who r.2 r.1
  | .interrupt who, s =>
    if s.pc who = .recv .asleep ∧ who ∈ s.world.waiters then
      some (s.move who (.recv .testStop) { s.world with waiters := s.world.waiters.erase who })
    else none
  | .stop, s => some { s with world.stop := true }

def system : System State Event := ⟨(· = start), next⟩

def value : Worker → Int
  | .ping => 0x0B
  | .pong => 0x0A

def received : Worker → Pc
  | .ping => .count
  | .pong => .send .store

theorem vals_mouth (i : Worker) : futex.futex_vals (config.mouth i) = value i := by
  cases i <;> decide

theorem vals_ear (i : Worker) : futex.futex_vals (config.ear i + 1) = value i.other := by
  cases i <;> decide

inductive Step : Event → State → State → Prop
  | count {s pick} (h : s.pc .ping = .count) :
      Step (.step .ping pick) s
        (s.move .ping (.send .store) { s.world with ping_count := s.world.ping_count + 1 })
  | store {s i pick} (h : s.pc i = .send .store) :
      Step (.step i pick) s
        (s.move i (.send .wake) ({ s.world with word := value i }.record (.stored i (value i))))
  | wakeNone {s i} (h : s.pc i = .send .wake) :
      Step (.step i none) s (s.move i (.send .testStop) s.world)
  | wake {s i j} (h : s.pc i = .send .wake) (hj : j ∈ s.world.waiters) :
      Step (.step i (some j)) s
        (s.move i (.recv .wait) (({ s.world with waiters := s.world.waiters.erase j }.record
          (.woke i j)).record (.sent i)))
  | sendRetry {s i pick} (h : s.pc i = .send .testStop) (hs : s.world.stop = false) :
      Step (.step i pick) s (s.move i (.send .wake) s.world)
  | sendStop {s i pick} (h : s.pc i = .send .testStop) (hs : s.world.stop = true) :
      Step (.step i pick) s (s.move i (.recv .wait) (s.world.record (.sent i)))
  | waitFail {s i pick} (h : s.pc i = .recv .wait) (hw : s.world.word ≠ value i.other) :
      Step (.step i pick) s (s.move i (.recv .testStop) s.world)
  | sleep {s i pick} (h : s.pc i = .recv .wait) (hw : s.world.word = value i.other) :
      Step (.step i pick) s
        (s.move i (.recv .asleep) { s.world with waiters := insert i s.world.waiters })
  | woken {s i pick} (h : s.pc i = .recv .asleep) (hi : i ∉ s.world.waiters) :
      Step (.step i pick) s (s.move i (received i) (s.world.record (.received i)))
  | recvRetry {s i pick} (h : s.pc i = .recv .testStop) (hs : s.world.stop = false) :
      Step (.step i pick) s (s.move i (.recv .wait) s.world)
  | recvStop {s i pick} (h : s.pc i = .recv .testStop) (hs : s.world.stop = true) :
      Step (.step i pick) s (s.move i (received i) (s.world.record (.received i)))
  | interrupt {s i} (h : s.pc i = .recv .asleep) (hi : i ∈ s.world.waiters) :
      Step (.interrupt i) s
        (s.move i (.recv .testStop) { s.world with waiters := s.world.waiters.erase i })
  | stop {s} : Step .stop s { s with world.stop := true }

theorem sendLoop_step {s : State} {i : Worker} {pick : Option Worker} {pc : SendPc}
    {r : World × Pc} (hpc : s.pc i = .send pc) (h : sendLoop i pick pc (.recv .wait) s.world = some r) :
    Step (.step i pick) s (s.move i r.2 r.1) := by
  obtain ⟨q, hq, rfl⟩ := Option.map_eq_some_iff.mp h
  cases pc with
  | store =>
    obtain rfl := Option.some.inj hq
    rw [vals_mouth]
    exact .store hpc
  | wake =>
    obtain ⟨⟨w, n⟩, hw, rfl⟩ := Option.map_eq_some_iff.mp hq
    cases pick with
    | none =>
      obtain ⟨rfl, rfl⟩ := Prod.mk.inj (Option.some.inj hw)
      exact .wakeNone hpc
    | some j =>
      obtain ⟨hj, he⟩ := Option.ite_none_right_eq_some.mp hw
      obtain ⟨rfl, rfl⟩ := Prod.mk.inj (Option.some.inj he)
      exact .wake hpc hj
  | testStop =>
    obtain rfl := Option.some.inj hq
    cases hs : s.world.stop with
    | false => exact .sendRetry hpc hs
    | true => exact .sendStop hpc hs

theorem recvLoop_step {s : State} {i : Worker} {pick : Option Worker} {pc : RecvPc}
    {r : World × Pc} (hpc : s.pc i = .recv pc) (h : recvLoop i pc (received i) s.world = some r) :
    Step (.step i pick) s (s.move i r.2 r.1) := by
  obtain ⟨q, hq, rfl⟩ := Option.map_eq_some_iff.mp h
  cases pc with
  | wait =>
    simp only [do_recv_futex, vals_ear] at hq
    by_cases hw : s.world.word = value i.other
    · rw [if_neg (not_not.mpr hw)] at hq
      obtain rfl := Option.some.inj hq
      exact .sleep hpc hw
    · rw [if_pos hw] at hq
      obtain rfl := Option.some.inj hq
      exact .waitFail hpc hw
  | asleep =>
    obtain ⟨hi, he⟩ := Option.ite_none_left_eq_some.mp hq
    obtain rfl := Option.some.inj he
    exact .woken hpc hi
  | testStop =>
    obtain rfl := Option.some.inj hq
    cases hs : s.world.stop with
    | false => exact .recvRetry hpc hs
    | true => exact .recvStop hpc hs

theorem next_cases {e : Event} {s t : State} (h : next e s = some t) : Step e s t := by
  cases e with
  | step i pick =>
    obtain ⟨r, hr, rfl⟩ := Option.map_eq_some_iff.mp h
    cases hpc : s.pc i with
    | count =>
      cases i with
      | ping =>
        rw [hpc] at hr
        obtain rfl := Option.some.inj hr
        exact .count hpc
      | pong =>
        rw [hpc] at hr
        cases hr
    | send pc =>
      rw [hpc] at hr
      cases i <;> exact sendLoop_step hpc hr
    | recv pc =>
      rw [hpc] at hr
      cases i <;> exact recvLoop_step hpc hr
  | interrupt i =>
    obtain ⟨⟨hpc, hi⟩, he⟩ := Option.ite_none_right_eq_some.mp h
    obtain rfl := Option.some.inj he
    exact .interrupt hpc hi
  | stop =>
    obtain rfl := Option.some.inj h
    exact .stop

end PingPong.CommFutex
