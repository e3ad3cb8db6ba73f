import Mathlib.Data.BitVec
import PingPong.History
import PingPong.MonitorState
import PingPong.TransitionSystem
import PingPong.Workers

namespace PingPong.CommInotify

open MonitorState (Worker)
open TransitionSystem History

inductive Act
  | truncated (who : Worker)
  | read (who : Worker) (events : Nat)
deriving DecidableEq, Repr

/-- `unread i` is the number of events in the queue of `ino_info[i].ino_fd`. -/
structure World where
  unread : Worker → Nat
  ping_count : BitVec 64
  history : List Act

/-- `sizeof(struct inotify_event)`; the events of a watched file carry no name. -/
def EVENT_SIZE : Int := 16

inductive Errno | eintr | other
deriving DecidableEq, Repr

/-- `ftruncate(ino_info[i].file_fd, 0)`. The event is equal to one that is still
unread, and the two coalesce. -/
@[simps] def World.ftruncate (w : World) (i : Worker) : World :=
  { w with unread := Function.update w.unread i 1, history := w.history ++ [.truncated i] }

/-- What is unread comes in one read, in a buffer with room for 1024 events. -/
@[simps] def World.drain (w : World) (thread_num : Worker) : World :=
  { w with
    unread := Function.update w.unread thread_num.other 0
    history := w.history ++ [.read thread_num (w.unread thread_num.other)] }

/-- `read(ino_info[thread_num ^ 1].ino_fd, ..)` and the length it returns. It
fails with the error given, and without one sleeps until there is an event. -/
def read (thread_num : Worker) : Option Errno → World → Option (World × Int)
  | some _, w => some (w, -1)
  | none, w =>
    if w.unread thread_num.other = 0 then none
    else some (w.drain thread_num, EVENT_SIZE * w.unread thread_num.other)

inductive Pc | count | truncate | read
deriving DecidableEq, Repr

def comm_ping_inotify (thread_num : Worker) (errno : Option Errno) (w : World) :
    Pc → Option (World × Pc)
  | .count => some ({ w with ping_count := w.ping_count + 1 }, .truncate)
  | .truncate => some (w.ftruncate thread_num, .read)
  -- `continue`, the error message and the walk over the events all lead to the loop head
  | .read => (read thread_num errno w).map fun r => (r.1, .count)

def comm_pong_inotify (thread_num : Worker) (errno : Option Errno) (w : World) :
    Pc → Option (World × Pc)
  | .count => none
  | .read => (read thread_num errno w).map fun r =>
      (r.1, if r.2 < 0 ∧ errno = some .eintr then .read else .truncate)
  | .truncate => some (w.ftruncate thread_num, .read)

def do_thread_work : Worker → Option Errno → World → Pc → Option (World × Pc)
  | .ping => comm_ping_inotify .ping
  | .pong => comm_pong_inotify .pong

abbrev State := Workers Pc World

/-- A step of a worker, and the error its read meets, if any. -/
structure Event where
  who : Worker
  errno : Option Errno := none
deriving DecidableEq, Repr

/-- `make_inotify_pair` adds each watch after it has truncated the file. -/
def start : State where
  pc
    | .ping => .count
    | .pong => .read
  world := ⟨fun _ => 0, 0, []⟩

def next (e : Event) (s : State) : Option State :=
  (do_thread_work e.who e.errno s.world (s.pc e.who)).map fun r => s.move e.who r.2 r.1

def system : System State Event := ⟨(· = start), next⟩

inductive Step : Event → State → State → Prop
  | count {s o} (h : s.pc .ping = .count) : Step ⟨.ping, o⟩ s
      (s.move .ping .truncate { s.world with ping_count := s.world.ping_count + 1 })
  | truncate {s i o} (h : s.pc i = .truncate) :
      Step ⟨i, o⟩ s (s.move i .read (s.world.ftruncate i))
  | drain {s i} (h : s.pc i = .read) (hn : s.world.unread i.other ≠ 0) : Step ⟨i, none⟩ s
      (s.move i (if i = .ping then .count else .truncate) (s.world.drain i))
  | retry {s} (h : s.pc .pong = .read) : Step ⟨.pong, some .eintr⟩ s s
  | failPing {s e} (h : s.pc .ping = .read) : Step ⟨.ping, some e⟩ s (s.move .ping .count s.world)
  | failPong {s} (h : s.pc .pong = .read) :
      Step ⟨.pong, some .other⟩ s (s.move .pong .truncate s.world)

theorem next_cases {e : Event} {s t : State} (h : next e s = some t) : Step e s t := by
  obtain ⟨i, o⟩ := e
  obtain ⟨r, hr, rfl⟩ := Option.map_eq_some_iff.mp h
  cases hpc : s.pc i with
  | count =>
    cases i with
    | ping =>
      rw [hpc] at hr
      obtain rfl := Option.some.inj hr
      exact .count hpc
    | pong => simp [do_thread_work, comm_pong_inotify, hpc] at hr
  | truncate =>
    have hr' : some (s.world.ftruncate i, Pc.read) = some r := by
      cases i <;> rwa [hpc] at hr
    obtain rfl := Option.some.inj hr'
    exact .truncate hpc
  | read =>
    cases o with
    | none =>
      have hr' : (if s.world.unread i.other = 0 then none
          else some (s.world.drain i, if i = .ping then Pc.count else .truncate)) = some r := by
        cases i <;> rw [hpc] at hr <;>
          simpa [do_thread_work, comm_ping_inotify, comm_pong_inotify, CommInotify.read,
            apply_ite (Option.map _)] using hr
      obtain ⟨hn, hr'⟩ := Option.ite_none_left_eq_some.mp hr'
      obtain rfl := Option.some.inj hr'
      exact .drain hpc hn
    | some e =>
      cases i with
      | ping =>
        rw [hpc] at hr
        obtain rfl := Option.some.inj hr
        exact .failPing hpc
      | pong =>
        rw [hpc] at hr
        obtain rfl := Option.some.inj hr
        cases e with
        | eintr =>
          have hs : s.move .pong .read s.world = s := hpc ▸ s.move_self .pong
          exact hs.symm ▸ Step.retry hpc
        | other => exact Step.failPong hpc

end PingPong.CommInotify
