import PingPong.CommChannel
import PingPong.Fairness

namespace PingPong.CommChannelLive

open MonitorState CommEndpoints CommChannel TransitionSystem TokenRing Fairness

variable {m : ChannelMode} {s s' : State} {t : Token Worker} {i : Worker} {b fd : Fd} {w : Shared}

def helper : Worker → Event
  | .ping => .ping true
  | .pong => .pong true

def Puts (i : Worker) (b : Fd) (send : Attempt) : Prop := ∀ w, send true w = (w.put b i, true)

def Takes (i : Worker) (b : Fd) (recv : Attempt) : Prop := ∀ w, w.queue b ≠ [] →
  ∃ senders rest, recv true w = (w.take b i senders rest, true)

theorem puts_write (h : sink fd = some b) : Puts i b (untilEq (write i fd) 1) := fun w => by
  simp [untilEq, write, h]

theorem puts_eventfd_write (h : sink fd = some b) :
    Puts i b (untilEq (eventfd_write i fd) 0) := fun w => by
  simp [untilEq, eventfd_write, mq_send, h]

theorem puts_do_send_mq (h : sink fd = some b) :
    Puts i b (untilEq (do_send_mq i fd) 1) := fun w => by
  simp [untilEq, do_send_mq, mq_send, h]

theorem takes_read (h : source fd = some b) : Takes i b (untilEq (CommEndpoints.read i fd) 1) := by
  intro w hq
  obtain ⟨j, rest, hq⟩ := List.exists_cons_of_ne_nil hq
  exact ⟨[j], rest, by simp [untilEq, CommEndpoints.read, h, hq]⟩

theorem takes_eventfd_read (h : source fd = some b) :
    Takes i b (untilEq (eventfd_read i fd) 0) := by
  intro w hq
  obtain ⟨j, rest, hq⟩ := List.exists_cons_of_ne_nil hq
  exact ⟨j :: rest, [], by simp [untilEq, eventfd_read, h, hq]⟩

theorem comm_ping_due (m : ChannelMode) : ∃ send recv, m.comm_ping .ping = pingLoop send recv ∧
    Puts .ping (inbox m .pong) send ∧ Takes .ping (inbox m .ping) recv := by
  cases m with
  | socketpair | udp | pipe | namedpipe | tcp => exact ⟨_, _, rfl, puts_write rfl, takes_read rfl⟩
  | mq => exact ⟨_, _, rfl, puts_do_send_mq rfl, takes_read rfl⟩
  | eventfd => exact ⟨_, _, rfl, puts_eventfd_write rfl, takes_eventfd_read rfl⟩

theorem comm_pong_due (m : ChannelMode) : ∃ send recv, m.comm_pong .pong = pongLoop recv send ∧
    Puts .pong (inbox m .ping) send ∧ Takes .pong (inbox m .pong) recv := by
  cases m with
  | socketpair | udp | pipe | namedpipe | tcp => exact ⟨_, _, rfl, puts_write rfl, takes_read rfl⟩
  | mq => exact ⟨_, _, rfl, puts_do_send_mq rfl, takes_read rfl⟩
  | eventfd => exact ⟨_, _, rfl, puts_eventfd_write rfl, takes_eventfd_read rfl⟩

def rank (s : State) : Nat := if s.ping = .count then 1 else 0

theorem queue_passed (h : Rel m s (.passed i)) : s.shared.queue (inbox m i.other) ≠ [] := by
  simp [h.queue, inFlight]

theorem next_passer (h : Rel m s t) : ∃ s',
    (system m).next (helper (t.passer Worker.other)) s = some s' ∧
      (s.shared.history.length < s'.shared.history.length ∨ rank s' < rank s) := by
  obtain ⟨send, recv, heping, hsend, hrecv⟩ := comm_ping_due m
  obtain ⟨send', recv', hepong, hsend', hrecv'⟩ := comm_pong_due m
  obtain (_ | _) | (_ | _) := t
  · cases hp : s.ping with
    | count =>
      exact ⟨_, rfl, .inr (by simp [heping, pingLoop, rank, hp])⟩
    | send =>
      exact ⟨_, rfl, .inl (by simp [heping, pingLoop, hp, hsend s.shared])⟩
    | recv => exact absurd rfl (h.ping.mp hp)
  · have hp : s.pong = .send := h.pong.mpr rfl
    exact ⟨_, rfl, .inl (by simp [hepong, pongLoop, hp, hsend' s.shared])⟩
  · have hp : s.pong = .recv := by
      cases hp : s.pong with
      | recv => rfl
      | send => exact absurd (h.pong.mp hp) (by simp)
    obtain ⟨senders, rest, hr⟩ := hrecv' s.shared (queue_passed h)
    exact ⟨_, rfl, .inl (by simp [hepong, pongLoop, hp, hr])⟩
  · have hp : s.ping = .recv := h.ping.mpr (by simp)
    obtain ⟨senders, rest, hr⟩ := hrecv s.shared (queue_passed h)
    exact ⟨_, rfl, .inl (by simp [heping, pingLoop, hp, hr])⟩

theorem rank_next {a : Event} (hn : (system m).next a s = some s') :
    s.shared.history.length < s'.shared.history.length ∨ rank s' ≤ rank s := by
  cases a with
  | ping ok =>
    obtain ⟨send, recv, he, hsend, hrecv⟩ := comm_ping_eq m
    obtain rfl := Option.some.inj hn
    cases hp : s.ping with
    | count => exact .inr (by simp [he, pingLoop, rank, hp])
    | send =>
      obtain hs | hs := hsend ok s.shared
      · exact .inr (by simp [he, pingLoop, rank, hp, hs])
      · exact .inl (by simp [he, pingLoop, hs])
    | recv =>
      obtain hr | ⟨senders, rest, -, -, hr⟩ := hrecv ok s.shared
      · exact .inr (by simp [he, pingLoop, rank, hp, hr])
      · exact .inl (by simp [he, pingLoop, hr])
  | pong ok =>
    obtain rfl := Option.some.inj hn
    exact .inr le_rfl

def driven (m : ChannelMode) : Driven (system m) (ring Worker.other (.held .ping))
    (fun s => s.shared.history.map move) (Rel m) fun i _ a => a = helper i :=
  .ofHelper (CommChannel.simulation m) (fun t _ => t.passer Worker.other) (fun _ s => rank s)
    (fun _ hR => by simpa using next_passer hR) <| by
    intro s s' t a _ hR _ hn
    obtain hlt | hle := rank_next hn
    · exact .inl fun heq => absurd hlt (by simpa using (congrArg List.length heq).le)
    · exact .inr (hle.lt_or_eq.imp_right fun heq => ⟨heq, rfl⟩)

/-- With a scheduler that forgets neither of the workers, and calls that do not fail for
ever, there is always another message. -/
theorem messages_forever (m : ChannelMode) (e : Execution (system m))
    (hfair : ∀ i, e.Fair fun _ a => a = helper i) (n : Nat) :
    ∃ k, ∀ i, n ≤ (sends (e.state k).shared.history).count i := by
  simpa using (driven m).passes_forever Worker.other_involutive Worker.eq_or_other e hfair n

/-- The workers step in turn. -/
theorem messages_forever_mq : ∃ e : Execution (system .mq), ∃ k, ∀ i,
    1000 ≤ (sends (e.state k).shared.history).count i :=
  ⟨_, messages_forever .mq (schedule (system .mq) rfl (turns (.ping true) [.pong true]))
    (fun i => turns_fair rfl (by cases i <;> simp [helper])) 1000⟩

end PingPong.CommChannelLive
