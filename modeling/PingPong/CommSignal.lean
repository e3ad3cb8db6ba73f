import Mathlib.Data.BitVec
import PingPong.MonitorState
import PingPong.TokenRing
import PingPong.Workers

namespace PingPong.CommSignal

open MonitorState (Worker)
open TransitionSystem TokenRing

/-- The pids recorded in `thread_info`. They are equal when the workers are
threads of one process. -/
structure Peers where
  pid : Worker → Int
  pid_pos : ∀ i, 0 < pid i

def SIGRTMAX : Int := 64

def sigs : Fin 2 → Int
  | 0 => SIGRTMAX - 1
  | 1 => SIGRTMAX - 2

inductive Act
  | sent (who : Worker)
  | cleared (who : Worker)
deriving DecidableEq, Repr

/-- `signal_received` is a static, which every process has for itself. A signal
is a process and a number: `pending` until it is delivered, and then `catching`
until the handler has stored. -/
structure World where
  signal_received : Int → Fin 2 → Int
  pending : List (Int × Int)
  catching : List (Int × Int)
  ping_count : BitVec 64
  history : List Act

def signal_catcher (sig : Int) (signal_received : Fin 2 → Int) : Fin 2 → Int :=
  if sigs 0 = sig then Function.update signal_received 0 1
  else if sigs 1 = sig then Function.update signal_received 1 1
  else signal_received

@[simps -fullyApplied] def kill (pid sig : Int) (w : World) : World :=
  { w with pending := w.pending ++ [(pid, sig)] }

def send_sig (pid sig : Int) (w : World) : World := if pid > 0 then kill pid sig w else w

@[simps -fullyApplied] def World.record (w : World) (a : Act) : World :=
  { w with history := w.history ++ [a] }

@[simps -fullyApplied] def World.reset (w : World) (pid : Int) (n : Fin 2) : World :=
  { w with
    signal_received :=
      Function.update w.signal_received pid (Function.update (w.signal_received pid) n 0) }

def num : Worker → Fin 2
  | .ping => 0
  | .pong => 1

inductive Pc | count | send | test | clear
deriving DecidableEq, Repr

/-- What the two loops have in common, up to where a worker goes after the reset. Every test
reads the flag. -/
def loop (p : Peers) (thread_num : Worker) (next : Pc) (w : World) : Pc → Option (World × Pc)
  | .count => none
  | .send =>
    some ((send_sig (p.pid thread_num.other) (sigs (num thread_num + 1)) w).record
      (.sent thread_num), .test)
  | .test =>
    some (w, if w.signal_received (p.pid thread_num) (num thread_num) = 0 then .test else .clear)
  | .clear =>
    some ((w.reset (p.pid thread_num) (num thread_num)).record (.cleared thread_num), next)

def comm_ping_signal (p : Peers) (thread_num : Worker) (w : World) : Pc → Option (World × Pc)
  | .count => some ({ w with ping_count := w.ping_count + 1 }, .send)
  | pc => loop p thread_num .count w pc

theorem comm_ping_signal_eq {p : Peers} {i : Worker} {w : World} {pc : Pc} (hpc : pc ≠ .count) :
    comm_ping_signal p i w pc = loop p i .count w pc := by
  cases pc with
  | count => exact absurd rfl hpc
  | send | test | clear => rfl

def comm_pong_signal (p : Peers) (thread_num : Worker) (w : World) (pc : Pc) :
    Option (World × Pc) :=
  loop p thread_num .send w pc

def do_thread_work (p : Peers) : Worker → World → Pc → Option (World × Pc)
  | .ping => comm_ping_signal p .ping
  | .pong => comm_pong_signal p .pong

abbrev State := Workers Pc World

/-- A step of a worker, the delivery of a pending signal, and the store of a
`signal_catcher` that has started. -/
inductive Event
  | step (who : Worker)
  | deliver (signal : Int × Int)
  | caught (signal : Int × Int)
deriving DecidableEq, Repr

def deliver (signal : Int × Int) (w : World) : World :=
  { w with pending := w.pending.erase signal, catching := w.catching ++ [signal] }

def caught (signal : Int × Int) (w : World) : World :=
  { w with
    catching := w.catching.erase signal
    signal_received :=
      Function.update w.signal_received signal.1
        (signal_catcher signal.2 (w.signal_received signal.1)) }

def start : State where
  pc
    | .ping => .count
    | .pong => .test
  world := ⟨fun _ _ => 0, [], [], 0, []⟩

def next (p : Peers) : Event → State → Option State
  | .step who, s =>
    (do_thread_work p who s.world (s.pc who)).map fun r => s.move who r.2 r.1
  | .deliver signal, s =>
    if signal ∈ s.world.pending then some { s with world := deliver signal s.world } else none
  | .caught signal, s =>
    if signal ∈ s.world.catching then some { s with world := caught signal s.world } else none

def system (p : Peers) : System State Event := ⟨(· = start), next p⟩

def top : Worker → Pc
  | .ping => .count
  | .pong => .send

def Peers.signal (p : Peers) (i : Worker) : Int × Int := (p.pid i, sigs (num i))

inductive Step (p : Peers) : State → State → Prop
  | count {s} (h : s.pc .ping = .count) :
      Step p s (s.move .ping .send { s.world with ping_count := s.world.ping_count + 1 })
  | send {s i} (h : s.pc i = .send) :
      Step p s (s.move i .test
        ((kill (p.pid i.other) (sigs (num i.other)) s.world).record (.sent i)))
  | spin {s i} (h : s.pc i = .test) (hf : s.world.signal_received (p.pid i) (num i) = 0) :
      Step p s (s.move i .test s.world)
  | leave {s i} (h : s.pc i = .test) (hf : s.world.signal_received (p.pid i) (num i) ≠ 0) :
      Step p s (s.move i .clear s.world)
  | clear {s i} (h : s.pc i = .clear) :
      Step p s (s.move i (top i) ((s.world.reset (p.pid i) (num i)).record (.cleared i)))
  | deliver {s x} (hx : x ∈ s.world.pending) : Step p s { s with world := deliver x s.world }
  | caught {s x} (hx : x ∈ s.world.catching) : Step p s { s with world := caught x s.world }

theorem loop_step {p : Peers} {s : State} {i : Worker} {r : World × Pc}
    (h : loop p i (top i) s.world (s.pc i) = some r) : Step p s (s.move i r.2 r.1) := by
  cases hpc : s.pc i with
  | count =>
    rw [hpc] at h
    cases h
  | send =>
    rw [hpc, loop, send_sig, if_pos (p.pid_pos i.other)] at h
    obtain rfl := Option.some.inj h
    have hn : num i + 1 = num i.other := by cases i <;> rfl
    rw [hn]
    exact .send hpc
  | test =>
    rw [hpc] at h
    obtain rfl := Option.some.inj h
    by_cases hf : s.world.signal_received (p.pid i) (num i) = 0
    · simpa [hf] using Step.spin hpc hf
    · simpa [hf] using Step.leave hpc hf
  | clear =>
    rw [hpc] at h
    obtain rfl := Option.some.inj h
    exact .clear hpc

theorem next_cases {p : Peers} {e : Event} {s t : State} (h : next p e s = some t) :
    Step p s t := by
  cases e with
  | step i =>
    obtain ⟨r, hr, rfl⟩ := Option.map_eq_some_iff.mp h
    cases i with
    | ping =>
      by_cases hc : s.pc .ping = .count
      · rw [hc] at hr
        obtain rfl := Option.some.inj hr
        exact .count hc
      · rw [do_thread_work, comm_ping_signal_eq hc] at hr
        exact loop_step hr
    | pong => exact loop_step hr
  | deliver x =>
    obtain ⟨hx, he⟩ := Option.ite_none_right_eq_some.mp h
    obtain rfl := Option.some.inj he
    exact .deliver hx
  | caught x =>
    obtain ⟨hx, he⟩ := Option.ite_none_right_eq_some.mp h
    obtain rfl := Option.some.inj he
    exact .caught hx

end PingPong.CommSignal
