import Mathlib.Algebra.BigOperators.Pi
import PingPong.CommEndpoints

namespace PingPong.CommChannel

open MonitorState CommEndpoints TransitionSystem TokenRing

variable {m : ChannelMode} {i : Worker} {b : Fd}

def inbox : ChannelMode → Worker → Fd
  | .socketpair, .ping => .socket 1 0
  | .socketpair, .pong => .socket 0 0
  | .udp, .ping => .datagram 1 0
  | .udp, .pong => .datagram 0 0
  | .mq, .ping => .mqueue 1
  | .mq, .pong => .mqueue 0
  | .pipe, .ping => .pipe 1 0
  | .pipe, .pong => .pipe 0 0
  | .namedpipe, .ping => .fifo 1
  | .namedpipe, .pong => .fifo 0
  | .tcp, .ping => .tcp 0
  | .tcp, .pong => .tcp 1
  | .eventfd, .ping => .eventfd 1
  | .eventfd, .pong => .eventfd 0

/-- An attempt that leaves its loop puts one message, any other does nothing. -/
def Sends (i : Worker) (b : Fd) (send : Attempt) : Prop :=
  ∀ ok w, send ok w = (w, false) ∨ send ok w = (w.put b i, true)

def Receives (i : Worker) (b : Fd) (recv : Attempt) : Prop :=
  ∀ ok w, recv ok w = (w, false) ∨ ∃ senders rest, senders ≠ [] ∧
    w.queue b = senders ++ rest ∧ recv ok w = (w.take b i senders rest, true)

theorem sends_write {fd : Fd} (h : sink fd = some b) : Sends i b (untilEq (write i fd) 1) := by
  intro ok w
  cases ok with
  | false => exact .inl (by simp [untilEq, write])
  | true => exact .inr (by simp [untilEq, write, h])

theorem sends_eventfd_write {fd : Fd} (h : sink fd = some b) :
    Sends i b (untilEq (eventfd_write i fd) 0) := by
  intro ok w
  cases ok with
  | false => exact .inl (by simp [untilEq, eventfd_write, mq_send])
  | true => exact .inr (by simp [untilEq, eventfd_write, mq_send, h])

theorem sends_do_send_mq {fd : Fd} (h : sink fd = some b) :
    Sends i b (untilEq (do_send_mq i fd) 1) := by
  intro ok w
  cases ok with
  | false => exact .inl (by simp [untilEq, do_send_mq, mq_send])
  | true => exact .inr (by simp [untilEq, do_send_mq, mq_send, h])

theorem receives_read {fd : Fd} (h : source fd = some b) :
    Receives i b (untilEq (CommEndpoints.read i fd) 1) := by
  intro ok w
  cases ok with
  | false => exact .inl (by simp [untilEq, CommEndpoints.read])
  | true =>
    cases hb : w.queue b with
    | nil => exact .inl (by simp [untilEq, CommEndpoints.read, h, hb])
    | cons j rest => exact .inr ⟨[j], rest, by simp, rfl, by simp [untilEq, CommEndpoints.read, h, hb]⟩

theorem receives_eventfd_read {fd : Fd} (h : source fd = some b) :
    Receives i b (untilEq (eventfd_read i fd) 0) := by
  intro ok w
  cases ok with
  | false => exact .inl (by simp [untilEq, eventfd_read])
  | true =>
    cases hb : w.queue b with
    | nil => exact .inl (by simp [untilEq, eventfd_read, h, hb])
    | cons j rest =>
      exact .inr ⟨j :: rest, [], by simp, by simp, by simp [untilEq, eventfd_read, h, hb]⟩

theorem comm_ping_eq (m : ChannelMode) : ∃ send recv, m.comm_ping .ping = pingLoop send recv ∧
    Sends .ping (inbox m .pong) send ∧ Receives .ping (inbox m .ping) recv := by
  cases m with
  | socketpair | udp | pipe | namedpipe | tcp =>
    exact ⟨_, _, rfl, sends_write rfl, receives_read rfl⟩
  | mq => exact ⟨_, _, rfl, sends_do_send_mq rfl, receives_read rfl⟩
  | eventfd => exact ⟨_, _, rfl, sends_eventfd_write rfl, receives_eventfd_read rfl⟩

theorem comm_pong_eq (m : ChannelMode) : ∃ send recv, m.comm_pong .pong = pongLoop recv send ∧
    Sends .pong (inbox m .ping) send ∧ Receives .pong (inbox m .pong) recv := by
  cases m with
  | socketpair | udp | pipe | namedpipe | tcp =>
    exact ⟨_, _, rfl, sends_write rfl, receives_read rfl⟩
  | mq => exact ⟨_, _, rfl, sends_do_send_mq rfl, receives_read rfl⟩
  | eventfd => exact ⟨_, _, rfl, sends_eventfd_write rfl, receives_eventfd_read rfl⟩

theorem inbox_ne (m : ChannelMode) (i : Worker) : inbox m i ≠ inbox m i.other := by
  cases m <;> cases i <;> decide

def move : Transfer → Move Worker
  | .sent i => .pass i
  | .received i _ => .take i

def sends (history : List Transfer) : List Worker :=
  history.filterMap fun | .sent i => some i | .received _ _ => none

def receives (history : List Transfer) : List Worker :=
  history.filterMap fun | .received i _ => some i | .sent _ => none

@[simp] theorem passes_map_move (history : List Transfer) :
    passes (history.map move) = sends history := by
  rw [passes, sends, List.filterMap_map]
  congr 1
  funext x
  cases x <;> rfl

@[simp] theorem receives_sent (history : List Transfer) (i : Worker) :
    receives (history ++ [.sent i]) = receives history := by simp [receives]

@[simp] theorem receives_received (history : List Transfer) (i : Worker) (senders : List Worker) :
    receives (history ++ [.received i senders]) = receives history ++ [i] := by simp [receives]

def inFlight (m : ChannelMode) : Token Worker → Fd → List Worker
  | .held _ => fun _ => []
  | .passed i => Function.update (fun _ => []) (inbox m i.other) [i]

theorem put_inFlight (m : ChannelMode) (i : Worker) :
    Function.update (inFlight m (.held i)) (inbox m i.other)
      (inFlight m (.held i) (inbox m i.other) ++ [i]) = inFlight m (.passed i) := rfl

theorem take_inFlight (m : ChannelMode) (i : Worker) :
    Function.update (inFlight m (.passed i.other)) (inbox m i) [] = inFlight m (.held i) := by
  simp only [inFlight, Worker.other_other, Function.update_idem]
  exact Function.update_eq_self _ _

theorem token_of_inFlight {t : Token Worker} {senders rest : List Worker} (hs : senders ≠ [])
    (h : inFlight m t (inbox m i) = senders ++ rest) :
    t = .passed i.other ∧ senders = [i.other] ∧ rest = [] := by
  cases t with
  | held j =>
    cases senders with
    | nil => exact absurd rfl hs
    | cons _ _ => cases h
  | passed j =>
    obtain rfl | rfl := i.other.eq_or_other j
    · rw [inFlight, Worker.other_other, Function.update_self] at h
      cases senders with
      | nil => exact absurd rfl hs
      | cons _ senders =>
        obtain ⟨rfl, hr⟩ := List.cons.inj h
        obtain ⟨rfl, rfl⟩ := List.append_eq_nil_iff.mp hr.symm
        exact ⟨rfl, rfl, rfl⟩
    · rw [inFlight, Worker.other_other, Function.update_of_ne (inbox_ne m i)] at h
      exact absurd (List.append_eq_nil_iff.mp h.symm).1 hs

structure Rel (m : ChannelMode) (s : State) (t : Token Worker) : Prop where
  queue : s.shared.queue = inFlight m t
  ping : s.ping = .recv ↔ t ≠ .held .ping
  pong : s.pong = .send ↔ t = .held .pong
  foreign : ∀ i senders, .received i senders ∈ s.shared.history → i ∉ senders
  count : s.shared.ping_count =
    .ofNat 64 ((receives s.shared.history).count .ping + if s.ping = .count then 0 else 1)

theorem Rel.foreign_take {s : State} {t : Token Worker} (h : Rel m s t) (i : Worker)
    {j : Worker} {senders : List Worker}
    (hm : .received j senders ∈ s.shared.history ++ [.received i [i.other]]) : j ∉ senders := by
  obtain hm | hm := List.mem_append.mp hm
  · exact h.foreign j senders hm
  · obtain ⟨rfl, rfl⟩ := Transfer.received.inj (List.mem_singleton.mp hm)
    cases j <;> decide

theorem Rel.put_queue {s : State} (h : Rel m s (.held i)) :
    (s.shared.put (inbox m i.other) i).queue = inFlight m (.passed i) := by
  rw [← put_inFlight, ← h.queue]
  rfl

theorem Rel.take_queue {s : State} (h : Rel m s (.passed i.other)) (senders : List Worker) :
    (s.shared.take (inbox m i) i senders []).queue = inFlight m (.held i) := by
  rw [← take_inFlight, ← h.queue]
  rfl

theorem Rel.ping_send {s : State} (h : Rel m s (.held .ping)) (hp : s.ping = .send) :
    Rel m { s with shared := s.shared.put (inbox m .pong) .ping, ping := .recv }
      (.passed .ping) where
  queue := h.put_queue
  ping := by simp
  pong := by simpa using h.pong
  foreign i senders hm := h.foreign i senders (by simpa [Shared.put] using hm)
  count := by simpa [hp] using h.count

theorem Rel.ping_recv {s : State} (h : Rel m s (.passed .pong)) (hp : s.ping = .recv) :
    Rel m { s with shared := s.shared.take (inbox m .ping) .ping [.pong] [], ping := .count }
      (.held .ping) where
  queue := h.take_queue [.pong]
  ping := by simp
  pong := by simpa using h.pong
  foreign _ _ hm := h.foreign_take .ping hm
  count := by simpa [hp] using h.count

theorem Rel.pong_send {s : State} (h : Rel m s (.held .pong)) :
    Rel m { s with shared := s.shared.put (inbox m .ping) .pong, pong := .recv }
      (.passed .pong) where
  queue := h.put_queue
  ping := by simpa using h.ping
  pong := by simp
  foreign i senders hm := h.foreign i senders (by simpa [Shared.put] using hm)
  count := by simpa using h.count

theorem Rel.pong_recv {s : State} (h : Rel m s (.passed .ping)) :
    Rel m { s with shared := s.shared.take (inbox m .pong) .pong [.ping] [], pong := .send }
      (.held .pong) where
  queue := h.take_queue [.ping]
  ping := by simpa using h.ping
  pong := by simp
  foreign _ _ hm := h.foreign_take .pong hm
  count := by simpa using h.count

theorem Rel.ping_count {s : State} {t : Token Worker} (h : Rel m s t) (hp : s.ping = .count) :
    Rel m { s with shared.ping_count := s.shared.ping_count + 1, ping := .send } t where
  queue := h.queue
  ping := by simpa [hp] using h.ping
  pong := h.pong
  foreign := h.foreign
  count := by simp [h.count, hp, BitVec.ofNat_add]

/-- The loops over the buffers refine one token between two parties. -/
theorem simulation (m : ChannelMode) :
    Simulation (system m) (ring Worker.other (.held .ping)) (fun s => s.shared.history.map move)
      (Rel m) where
  init := by
    rintro _ rfl
    refine ⟨rfl, .held .ping, rfl, rfl, ?_, ?_, nofun, rfl⟩ <;> simp [start]
  step := by
    rintro s s' a t h hn
    cases a with
    | ping ok =>
      obtain ⟨send, recv, he, hsend, hrecv⟩ := comm_ping_eq m
      simp only [system, CommEndpoints.next, he, Option.some.injEq] at hn
      subst hn
      cases hp : s.ping with
      | count => exact .inl ⟨rfl, h.ping_count hp⟩
      | send =>
        have ht : t = .held .ping := by simpa [hp] using h.ping
        subst ht
        obtain hs | hs := hsend ok s.shared <;> simp only [pingLoop, hs]
        · exact .inl ⟨rfl, hp ▸ h⟩
        · exact .inr ⟨.pass .ping, _, ring_pass _, by simp [move], h.ping_send hp⟩
      | recv =>
        obtain hr | ⟨senders, rest, hne, hq, hr⟩ := hrecv ok s.shared <;> simp only [pingLoop, hr]
        · exact .inl ⟨rfl, hp ▸ h⟩
        · obtain ⟨rfl, rfl, rfl⟩ := token_of_inFlight hne (h.queue ▸ hq)
          exact .inr ⟨.take .ping, _, ring_take rfl, by simp [move], h.ping_recv hp⟩
    | pong ok =>
      obtain ⟨send, recv, he, hsend, hrecv⟩ := comm_pong_eq m
      simp only [system, CommEndpoints.next, he, Option.some.injEq] at hn
      subst hn
      cases hp : s.pong with
      | send =>
        obtain rfl := h.pong.mp hp
        obtain hs | hs := hsend ok s.shared <;> simp only [pongLoop, hs]
        · exact .inl ⟨rfl, hp ▸ h⟩
        · exact .inr ⟨.pass .pong, _, ring_pass _, by simp [move], h.pong_send⟩
      | recv =>
        obtain hr | ⟨senders, rest, hne, hq, hr⟩ := hrecv ok s.shared <;> simp only [pongLoop, hr]
        · exact .inl ⟨rfl, hp ▸ h⟩
        · obtain ⟨rfl, rfl, rfl⟩ := token_of_inFlight hne (h.queue ▸ hq)
          exact .inr ⟨.take .pong, _, ring_take rfl, by simp [move], h.pong_recv⟩

theorem sum_inFlight_le (m : ChannelMode) (t : Token Worker) :
    ∑ b, (inFlight m t b).length ≤ 1 := by
  cases t with
  | held i => simp [inFlight]
  | passed i =>
    rw [inFlight, Finset.sum_eq_single (inbox m i.other)]
    · simp
    · intro b _ hb
      simp [hb]
    · simp

/-- In every mode and every run: one message at most is in flight, none comes
back to its sender, the sends alternate, and the counter is the number of
receives by ping, or one more. -/
theorem channels_ping_pong (m : ChannelMode) {s : State} (h : Reachable (system m) s) :
    ∑ b, (s.shared.queue b).length ≤ 1 ∧
    (∀ i senders, .received i senders ∈ s.shared.history → i ∉ senders) ∧
    (∀ n i, (sends s.shared.history)[n]? = some i → i = if n % 2 = 0 then .ping else .pong) ∧
    (s.shared.ping_count - .ofNat 64 ((receives s.shared.history).count .ping) = 0 ∨
      s.shared.ping_count - .ofNat 64 ((receives s.shared.history).count .ping) = 1) := by
  obtain ⟨t, ht, hR⟩ := (simulation m).reachable h
  refine ⟨?_, hR.foreign, fun n i hi => ?_, ?_⟩
  · rw [hR.queue]
    exact sum_inFlight_le m t
  · rw [← passes_map_move] at hi
    exact passes_alternate Worker.other_involutive ht hi
  · rw [hR.count]
    split
    · simp
    · exact .inr (by simp [BitVec.ofNat_add])

/-- Pong finds its counter empty once, and ping is in its second round. -/
theorem channels_ping_pong_eventfd : ∃ s, Reachable (system .eventfd) s ∧
    sends s.shared.history = [.ping, .pong, .ping] ∧ ∑ b, (s.shared.queue b).length ≤ 1 := by
  obtain ⟨s, hs, hp⟩ := exists_reachable_of_exec (S := system .eventfd)
    (p := fun s => sends s.shared.history = [.ping, .pong, .ping]) rfl
    [.ping true, .ping false, .pong true, .ping true, .pong true, .pong true, .ping true,
      .ping true, .ping true] (by decide)
  exact ⟨s, hs, hp, (channels_ping_pong .eventfd hs).1⟩

end PingPong.CommChannel
