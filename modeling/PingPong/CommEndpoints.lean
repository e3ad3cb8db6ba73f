import Mathlib.Data.BitVec
import Mathlib.Data.Fintype.Sigma
import Mathlib.Data.Fintype.Sum
import Mathlib.Tactic.DeriveFintype
import PingPong.MonitorState
import PingPong.TokenRing

namespace PingPong.CommEndpoints

open MonitorState TransitionSystem

inductive ChannelMode | socketpair | udp | mq | pipe | namedpipe | tcp | eventfd
deriving DecidableEq, Repr

/-- What a descriptor, or an index into `mqueue`, stands for. `num` is the call of
`make_pair` that has made it and `side` the element of `fd` it was stored in. -/
inductive Fd
  | zero
  | socket (num side : Fin 2)
  | datagram (num side : Fin 2)
  | tcp (side : Fin 2)
  | pipe (num side : Fin 2)
  | fifo (num : Fin 2)
  | mqueue (num : Fin 2)
  | eventfd (num : Fin 2)
deriving DecidableEq, Repr, Fintype

def make_socket_pair (num : Fin 2) : Fd × Fd := (.socket num 0, .socket num 1)

def make_udp_pair (num : Fin 2) : Fd × Fd := (.datagram num 0, .datagram num 1)

def make_mq_pair (mq_num : Fin 2) : Fd × Fd := (.mqueue mq_num, .mqueue mq_num)

def make_pipe_pair (num : Fin 2) : Fd × Fd := (.pipe num 0, .pipe num 1)

def comm_makepair_namedpipe (_namedpipe_num : Fin 2) : Fd × Fd := (.zero, .zero)

def make_tcp_pair (tcp_num : Fin 2) : Fd × Fd := (.tcp tcp_num, .tcp (tcp_num + 1))

/-- The second descriptor is a duplicate of the first. -/
def make_eventfd_pair (num : Fin 2) : Fd × Fd := (.eventfd num, .eventfd num)

def ChannelMode.comm_make_pair : ChannelMode → Fin 2 → Fd × Fd
  | .socketpair => make_socket_pair
  | .udp => make_udp_pair
  | .mq => make_mq_pair
  | .pipe => make_pipe_pair
  | .namedpipe => comm_makepair_namedpipe
  | .tcp => make_tcp_pair
  | .eventfd => make_eventfd_pair

structure Config (F : Type) where
  mouth : Worker → F
  ear : Worker → F

def make_pairs {F : Type} (comm_make_pair : Fin 2 → F × F) : Config F where
  mouth
    | .ping => (comm_make_pair 0).2
    | .pong => (comm_make_pair 1).2
  ear
    | .ping => (comm_make_pair 1).1
    | .pong => (comm_make_pair 0).1

def sink : Fd → Option Fd
  | .socket num side => some (.socket num (side + 1))
  | .datagram num side => some (.datagram num (side + 1))
  | .tcp side => some (.tcp (side + 1))
  | .pipe num 1 => some (.pipe num 0)
  | .fifo num => some (.fifo num)
  | .mqueue num => some (.mqueue num)
  | .eventfd num => some (.eventfd num)
  | .pipe _ 0 | .zero => none

def source : Fd → Option Fd
  | .pipe _ 1 | .zero => none
  | fd => some fd

/-- A successful send, and a successful receive with the senders of all that it
took. -/
inductive Transfer
  | sent (who : Worker)
  | received (who : Worker) (senders : List Worker)
deriving DecidableEq, Repr

/-- The buffers, each the senders of what is in it, the counter, and the history
of all transfers. -/
structure Shared where
  queue : Fd → List Worker
  ping_count : BitVec 64
  history : List Transfer

namespace Shared

@[simps -fullyApplied] def put (w : Shared) (b : Fd) (who : Worker) : Shared :=
  { w with
    queue := Function.update w.queue b (w.queue b ++ [who])
    history := w.history ++ [.sent who] }

@[simps -fullyApplied] def take (w : Shared) (b : Fd) (who : Worker) (senders rest : List Worker) :
    Shared :=
  { w with
    queue := Function.update w.queue b rest
    history := w.history ++ [.received who senders] }

end Shared

/-- A system call by one of the workers. The flag is the kernel's: an attempt
without it fails, with no effect. -/
abbrev Call := Worker → Fd → Bool → Shared → Shared × Int

/-- `write` of one byte, and `send` -/
def write : Call := fun who fd ok w =>
  match sink fd, ok with
  | some b, true => (w.put b who, 1)
  | _, _ => (w, -1)

def read : Call := fun who fd ok w =>
  match source fd, ok with
  | some b, true =>
    match w.queue b with
    | [] => (w, -1)
    | m :: rest => (w.take b who [m] rest, 1)
  | _, _ => (w, -1)

def mq_send : Call := fun who fd ok w =>
  match sink fd, ok with
  | some b, true => (w.put b who, 0)
  | _, _ => (w, -1)

/-- The value is the size of the message. -/
def mq_receive : Call := read

def eventfd_write : Call := mq_send

/-- The counter is read as a whole and becomes 0. -/
def eventfd_read : Call := fun who fd ok w =>
  match source fd, ok with
  | some b, true =>
    match w.queue b with
    | [] => (w, -1)
    | m :: rest => (w.take b who (m :: rest) [], 0)
  | _, _ => (w, -1)

def comm_do_send_generic : Call := write

def comm_do_recv_generic : Call := read

def do_send_mq : Call := fun who fd ok w =>
  let r := mq_send who fd ok w
  (r.1, if r.2 = 0 then 1 else 0)

def do_recv_mq : Call := mq_receive

abbrev Attempt := Bool → Shared → Shared × Bool

/-- `while (call != value);` -/
def untilEq (call : Bool → Shared → Shared × Int) (value : Int) : Attempt := fun ok w =>
  let r := call ok w
  (r.1, r.2 = value)

inductive PingPc | count | send | recv
deriving DecidableEq, Repr

inductive PongPc | recv | send
deriving DecidableEq, Repr

def pingLoop (send recv : Attempt) (ok : Bool) (w : Shared) : PingPc → Shared × PingPc
  | .count => ({ w with ping_count := w.ping_count + 1 }, .send)
  | .send =>
    let r := send ok w
    (r.1, if r.2 then .recv else .send)
  | .recv =>
    let r := recv ok w
    (r.1, if r.2 then .count else .recv)

def pongLoop (recv send : Attempt) (ok : Bool) (w : Shared) : PongPc → Shared × PongPc
  | .recv =>
    let r := recv ok w
    (r.1, if r.2 then .send else .recv)
  | .send =>
    let r := send ok w
    (r.1, if r.2 then .recv else .send)

def comm_ping_generic (comm_do_send comm_do_recv : Call) (config : Config Fd) (thread_num : Worker) :=
  pingLoop (untilEq (comm_do_send thread_num (config.mouth thread_num)) 1)
    (untilEq (comm_do_recv thread_num (config.ear thread_num)) 1)

def comm_pong_generic (comm_do_send comm_do_recv : Call) (config : Config Fd) (thread_num : Worker) :=
  pongLoop (untilEq (comm_do_recv thread_num (config.ear thread_num)) 1)
    (untilEq (comm_do_send thread_num (config.mouth thread_num)) 1)

def comm_ping_pipe (config : Config Fd) (thread_num : Worker) :=
  pingLoop (untilEq (write thread_num (config.mouth .ping)) 1)
    (untilEq (read thread_num (config.ear .ping)) 1)

def comm_pong_pipe (config : Config Fd) (thread_num : Worker) :=
  pongLoop (untilEq (read thread_num (config.ear .pong)) 1)
    (untilEq (write thread_num (config.mouth .pong)) 1)

def comm_ping_namedpipe (thread_num : Worker) :=
  pingLoop (untilEq (write thread_num (.fifo 0)) 1) (untilEq (read thread_num (.fifo 1)) 1)

def comm_pong_namedpipe (thread_num : Worker) :=
  pongLoop (untilEq (read thread_num (.fifo 0)) 1) (untilEq (write thread_num (.fifo 1)) 1)

def comm_ping_tcp (thread_num : Worker) :=
  pingLoop (untilEq (write thread_num (.tcp 0)) 1) (untilEq (read thread_num (.tcp 0)) 1)

def comm_pong_tcp (thread_num : Worker) :=
  pongLoop (untilEq (read thread_num (.tcp 1)) 1) (untilEq (write thread_num (.tcp 1)) 1)

def comm_ping_eventfd (config : Config Fd) (thread_num : Worker) :=
  pingLoop (untilEq (eventfd_write thread_num (config.mouth thread_num)) 0)
    (untilEq (eventfd_read thread_num (config.ear thread_num)) 0)

def comm_pong_eventfd (config : Config Fd) (thread_num : Worker) :=
  pongLoop (untilEq (eventfd_read thread_num (config.ear thread_num)) 0)
    (untilEq (eventfd_write thread_num (config.mouth thread_num)) 0)

namespace ChannelMode

def config (m : ChannelMode) : Config Fd := make_pairs m.comm_make_pair

/-- The operation a mode registers, the generic loop when it registers none. -/
def comm_ping (m : ChannelMode) (thread_num : Worker) : Bool → Shared → PingPc → Shared × PingPc :=
  match m with
  | .socketpair | .udp =>
    comm_ping_generic comm_do_send_generic comm_do_recv_generic m.config thread_num
  | .mq => comm_ping_generic do_send_mq do_recv_mq m.config thread_num
  | .pipe => comm_ping_pipe m.config thread_num
  | .namedpipe => comm_ping_namedpipe thread_num
  | .tcp => comm_ping_tcp thread_num
  | .eventfd => comm_ping_eventfd m.config thread_num

def comm_pong (m : ChannelMode) (thread_num : Worker) : Bool → Shared → PongPc → Shared × PongPc :=
  match m with
  | .socketpair | .udp =>
    comm_pong_generic comm_do_send_generic comm_do_recv_generic m.config thread_num
  | .mq => comm_pong_generic do_send_mq do_recv_mq m.config thread_num
  | .pipe => comm_pong_pipe m.config thread_num
  | .namedpipe => comm_pong_namedpipe thread_num
  | .tcp => comm_pong_tcp thread_num
  | .eventfd => comm_pong_eventfd m.config thread_num

end ChannelMode

structure State where
  ping : PingPc
  pong : PongPc
  shared : Shared

inductive Event
  | ping (ok : Bool)
  | pong (ok : Bool)
deriving DecidableEq, Repr

def start : State := ⟨.count, .recv, fun _ => [], 0, []⟩

def next (m : ChannelMode) : Event → State → Option State
  | .ping ok, s =>
    let r := m.comm_ping .ping ok s.shared s.ping
    some { s with shared := r.1, ping := r.2 }
  | .pong ok, s =>
    let r := m.comm_pong .pong ok s.shared s.pong
    some { s with shared := r.1, pong := r.2 }

def system (m : ChannelMode) : System State Event := ⟨(· = start), next m⟩

end PingPong.CommEndpoints
