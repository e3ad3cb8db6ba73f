import PingPong.CommInotify

namespace PingPong.CommInotifyReads

open MonitorState (Worker)
open CommInotify TransitionSystem History

variable {s t : State} {e : Event} {i : Worker}

def isRead (i : Worker) : Act → Bool
  | .read j n => j = i ∧ 0 < n
  | .truncated _ => false

def isTruncation (i : Worker) : Act → Bool
  | .truncated j => j = i
  | .read _ _ => false

abbrev mayTruncate (i : Worker) (h : List Act) : Bool :=
  credit (isRead i) (isTruncation i) (decide (i = .ping)) h

abbrev Reasoned (i : Worker) (h : List Act) : Prop :=
  Granted (isRead i) (isTruncation i) (decide (i = .ping)) h

/-- Ping's read meets no error, and pong's none but an interruption. -/
def ReadsEvents (e : Event) (s : State) : Prop :=
  s.pc e.who = .read → e.errno = none ∨ e.who = .pong ∧ e.errno = some .eintr

instance (e : Event) (s : State) : Decidable (ReadsEvents e s) :=
  inferInstanceAs (Decidable (_ → _))

structure Answered (s : State) : Prop where
  reasoned : ∀ i, Reasoned i s.world.history
  may : ∀ i, s.pc i ≠ .read → mayTruncate i s.world.history = true
  count : s.world.ping_count = .ofNat 64 (s.world.history.countP (isTruncation .ping) +
    if s.pc .ping = .truncate then 1 else 0)

theorem answered_start : Answered start where
  reasoned _ := granted_nil
  may i hi := by cases i <;> simp_all [start, credit]
  count := rfl

theorem Answered.move {pc : Pc} {w : World} (h : Answered s) (hh : w.history = s.world.history)
    (hi : pc ≠ .read → mayTruncate i s.world.history = true)
    (hc : w.ping_count = .ofNat 64 (s.world.history.countP (isTruncation .ping) +
      if (s.move i pc w).pc .ping = .truncate then 1 else 0)) : Answered (s.move i pc w) where
  reasoned j := by simpa [hh] using h.reasoned j
  may j hj := by
    rw [Workers.move_world, hh]
    obtain rfl | rfl := i.eq_or_other j
    · exact hi (by simpa using hj)
    · exact h.may _ (by simpa using hj)
  count := by rw [Workers.move_world, hc, hh]

theorem Answered.truncate (h : Answered s) (hi : s.pc i = .truncate) :
    Answered (s.move i .read (s.world.ftruncate i)) where
  reasoned j := (h.reasoned j).concat fun hj => by
    obtain rfl : i = j := by simpa [isTruncation] using hj
    exact h.may i (by simp [hi])
  may j hj := by
    obtain rfl | rfl := i.eq_or_other j
    · simp at hj
    · have := h.may i.other (by simpa using hj)
      simpa [isRead, isTruncation] using this
  count := by
    have := h.count
    cases i with
    | ping => simp [this, hi, List.countP_append, isTruncation]
    | pong => simp [this, List.countP_append, isTruncation]

theorem Answered.drain {pc : Pc} (h : Answered s) (hi : s.pc i = .read)
    (hpc : pc = if i = .ping then .count else .truncate) (hn : s.world.unread i.other ≠ 0) :
    Answered (s.move i pc (s.world.drain i)) where
  reasoned j := (h.reasoned j).concat fun hj => by simp [isTruncation] at hj
  may j hj := by
    obtain rfl | rfl := i.eq_or_other j
    · simp [isRead, Nat.pos_of_ne_zero hn]
    · have := h.may i.other (by simpa using hj)
      simpa [isRead, isTruncation] using this
  count := by
    have := h.count
    cases i with
    | ping => simp [this, hi, hpc, List.countP_append, isTruncation]
    | pong => simp [this, List.countP_append, isTruncation]

theorem Answered.step (h : Answered s) (hok : ReadsEvents e s) (hn : Step e s t) :
    Answered t := by
  cases hn with
  | count hc =>
    refine h.move rfl (fun _ => h.may .ping (by simp [hc])) ?_
    simp [h.count, hc, BitVec.ofNat_add]
  | truncate hi => exact h.truncate hi
  | drain hi hu => exact h.drain hi rfl hu
  | retry _ => exact h
  | failPing hi | failPong hi => simpa using hok hi

theorem Answered.ping_count_le (h : Answered s) :
    s.world.ping_count.toNat ≤ s.world.history.countP (isRead .ping) + 1 := by
  have hle := (h.reasoned .ping).countP_use_le
  have hb : s.world.ping_count.toNat ≤ s.world.history.countP (isTruncation .ping) +
      if s.pc .ping = .truncate then 1 else 0 := by
    rw [h.count, BitVec.toNat_ofNat]
    exact Nat.mod_le _ _
  by_cases hc : s.pc .ping = .truncate
  · have hr : credit (isRead .ping) (isTruncation .ping) true s.world.history = true :=
      h.may .ping (by simp [hc])
    simp [hc, hr] at hb hle
    omega
  · simp [hc] at hb hle
    omega

/-- As long as no read of ping fails and pong's are interrupted at worst, ping has
counted one ping more than it has seen answered at most, and nobody truncates a
file but after a read that returned events, ping's first time apart. -/
theorem pings_read {s : State} (h : Reachable (restrict system ReadsEvents) s) :
    s.world.ping_count.toNat ≤ s.world.history.countP (isRead .ping) + 1 ∧
    Reasoned .ping s.world.history ∧ Reasoned .pong s.world.history := by
  have ha : Answered s := by
    refine h.invariant (I := Answered) ?_ fun s e t ha hn => ?_
    · rintro _ rfl
      exact answered_start
    · obtain ⟨hok, hn⟩ := restrict_next.mp hn
      exact ha.step hok (next_cases hn)
  exact ⟨ha.ping_count_le, ha.reasoned .ping, ha.reasoned .pong⟩

/-- Pong is interrupted once before ping's first event comes. -/
theorem pings_read_interrupted : ∃ s, Reachable system s ∧ s.world.ping_count = 2 ∧
    s.world.ping_count.toNat ≤ s.world.history.countP (isRead .ping) + 1 := by
  obtain ⟨s, hs, hp⟩ := exists_reachable_of_exec (S := restrict system ReadsEvents)
    (p := fun s => s.world.ping_count = 2) rfl
    [⟨.ping, none⟩, ⟨.pong, some .eintr⟩, ⟨.ping, none⟩, ⟨.pong, none⟩, ⟨.pong, none⟩,
      ⟨.ping, none⟩, ⟨.ping, none⟩] (by decide)
  exact ⟨s, hs.of_restrict, hp, (pings_read hs).1⟩

/-- Ping goes on from an interrupted read to the head of its loop, and pong from
a failed one to its truncation. -/
theorem pings_unread :
    (¬ ∀ s, Reachable system s →
      s.world.ping_count.toNat ≤ s.world.history.countP (isRead .ping) + 1) ∧
    ∀ i, ¬ ∀ s, Reachable system s → Reasoned i s.world.history := by
  refine ⟨fun h => ?_, fun i h => ?_⟩
  · obtain ⟨s, hs, hp⟩ := exists_reachable_of_exec (S := system)
      (p := fun s => s.world.history.countP (isRead .ping) + 1 < s.world.ping_count.toNat) rfl
      [⟨.ping, none⟩, ⟨.ping, none⟩, ⟨.ping, some .eintr⟩, ⟨.ping, none⟩] (by decide)
    exact Nat.not_le_of_lt hp (h s hs)
  · cases i with
    | ping =>
      obtain ⟨s, hs, hp⟩ := exists_reachable_of_exec (S := system)
        (p := fun s => s.world.history = [.truncated .ping] ++ [.truncated .ping]) rfl
        [⟨.ping, none⟩, ⟨.ping, none⟩, ⟨.ping, some .eintr⟩, ⟨.ping, none⟩, ⟨.ping, none⟩]
        (by decide)
      exact absurd ((hp ▸ h s hs).of_concat.2 (by decide)) (by decide)
    | pong =>
      obtain ⟨s, hs, hp⟩ := exists_reachable_of_exec (S := system)
        (p := fun s => s.world.history = [] ++ [.truncated .pong]) rfl
        [⟨.pong, some .other⟩, ⟨.pong, none⟩] (by decide)
      exact absurd ((hp ▸ h s hs).of_concat.2 (by decide)) (by decide)

end PingPong.CommInotifyReads
