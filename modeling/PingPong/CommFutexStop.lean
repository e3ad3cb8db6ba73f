import PingPong.CommFutex

namespace PingPong.CommFutexStop

open MonitorState (Worker)
open CommFutex TransitionSystem

variable {s t : State} {e : Event}

def answers (w : World) : Nat := w.history.count (.stored .pong (futex.futex_vals 0))

/-- The answer to the latest ping is stored, and ping can have no doubt of it. -/
def Answered (s : State) : Prop :=
  s.pc .ping = .count ∨ s.pc .ping = .recv .asleep ∨
    s.pc .ping ≠ .send .store ∧ s.world.word = futex.futex_vals 0

/-- The second exit of ping's wait loop is taken only over a word that pong has
stored. -/
def StopsAnswered : Event → State → Prop
  | .step .ping _, s =>
    s.pc .ping = .recv .testStop → s.world.stop = true → s.world.word = futex.futex_vals 0
  | _, _ => True

instance : ∀ (e : Event) (s : State), Decidable (StopsAnswered e s)
  | .step .ping _, _ => inferInstanceAs (Decidable (_ → _ → _))
  | .step .pong _, _ | .interrupt _, _ | .stop, _ => .isTrue trivial

structure Honest (s : State) : Prop where
  excess : s.world.ping_count.toNat ≤ answers s.world + 1
  answered : Answered s → s.world.ping_count.toNat ≤ answers s.world

theorem honest_start : Honest start := ⟨by decide, fun _ => by decide⟩

theorem answers_record (w : World) (a : Act) : answers w ≤ answers (w.record a) := by
  simp [answers, List.count_append]

theorem answers_store (w : World) :
    answers ({ w with word := value .pong }.record (.stored .pong (value .pong))) = answers w + 1 := by
  simp only [answers, World.record, List.count_append]
  rfl

theorem Honest.move {i : Worker} {pc : Pc} {w : World} (h : Honest s)
    (hp : w.ping_count = s.world.ping_count) (hw : w.word = s.world.word)
    (ha : answers s.world ≤ answers w)
    (hi : i = .ping → Answered s ∨
      s.pc .ping ≠ .send .store ∧ pc ≠ .count ∧ pc ≠ .recv .asleep) : Honest (s.move i pc w) := by
  refine ⟨?_, fun ht => ?_⟩ <;> rw [Workers.move_world, hp]
  · exact h.excess.trans (Nat.add_le_add_right ha 1)
  · refine (h.answered ?_).trans ha
    cases i with
    | ping =>
      obtain hs | ⟨h1, h2, h3⟩ := hi rfl
      · exact hs
      · simp only [Answered, Workers.move, Function.update_self, h2, h3, false_or, hw] at ht
        exact .inr (.inr ⟨h1, ht.2⟩)
    | pong =>
      simpa only [Answered, Workers.move, Function.update_of_ne (by decide : Worker.ping ≠ .pong),
        hw] using ht

theorem Honest.step (h : Honest s) (hok : StopsAnswered e s) (hn : Step e s t) : Honest t := by
  cases hn with
  | count hpc =>
    refine ⟨?_, fun ht => absurd ht (by simp [Answered])⟩
    have := h.answered (.inl hpc)
    simp only [Workers.move, BitVec.toNat_add]
    exact (Nat.mod_le _ _).trans (Nat.add_le_add_right this 1)
  | @store _ i _ hpc =>
    cases i with
    | ping =>
      refine ⟨h.excess.trans (Nat.add_le_add_right (answers_record _ _) 1), fun ht => ?_⟩
      simp only [Answered, Workers.move, Function.update_self, reduceCtorEq, false_or] at ht
      exact absurd ht.2 (by decide : value .ping ≠ futex.futex_vals 0)
    | pong =>
      have ha := answers_store s.world
      have he := h.excess
      refine ⟨?_, fun _ => ?_⟩ <;> simp only [Workers.move, ha, World.record_ping_count] <;> omega
  | wakeNone hpc => exact h.move rfl rfl le_rfl (by rintro rfl; simp [hpc])
  | @wake _ i j hpc _ =>
    refine h.move rfl rfl ?_ (by rintro rfl; simp [hpc])
    exact (answers_record { s.world with waiters := _ } (.woke i j)).trans
      (answers_record _ (.sent i))
  | sendRetry hpc _ => exact h.move rfl rfl le_rfl (by rintro rfl; simp [hpc])
  | sendStop hpc _ => exact h.move rfl rfl (answers_record _ _) (by rintro rfl; simp [hpc])
  | waitFail hpc _ => exact h.move rfl rfl le_rfl (by rintro rfl; simp [hpc])
  | sleep hpc hw =>
    refine h.move rfl rfl le_rfl ?_
    rintro rfl
    exact .inl (.inr (.inr ⟨by simp [hpc], hw⟩))
  | woken hpc _ =>
    refine h.move rfl rfl (answers_record _ _) ?_
    rintro rfl
    exact .inl (.inr (.inl hpc))
  | recvRetry hpc _ => exact h.move rfl rfl le_rfl (by rintro rfl; simp [hpc])
  | recvStop hpc hs =>
    refine h.move rfl rfl (answers_record _ _) ?_
    rintro rfl
    exact .inl (.inr (.inr ⟨by simp [hpc], hok hpc hs⟩))
  | interrupt hpc _ =>
    refine h.move rfl rfl le_rfl ?_
    rintro rfl
    exact .inl (.inr (.inl hpc))
  | stop => exact ⟨h.excess, h.answered⟩

/-- As long as ping's wait loop is left through its second exit only over an
answer, every ping counted but one has been answered. -/
theorem pings_answered (h : Reachable (restrict system StopsAnswered) s) :
    s.world.ping_count.toNat ≤ answers s.world + 1 := by
  refine (h.invariant (I := Honest) ?_ fun _ _ _ hi hn => ?_).excess
  · rintro _ rfl
    exact honest_start
  · obtain ⟨hok, hn⟩ := restrict_next.mp hn
    exact hi.step hok (next_cases hn)

/-- Ping has tested the word before pong stores its answer, and sees the stop
afterwards. -/
theorem pings_answered_stop : ∃ s, Reachable system s ∧ s.world.stop = true ∧
    s.world.ping_count = 2 ∧ s.world.ping_count.toNat ≤ answers s.world + 1 := by
  obtain ⟨s, hs, hst, hp⟩ := exists_reachable_of_exec (S := restrict system StopsAnswered)
    (p := fun s => s.world.stop = true ∧ s.world.ping_count = 2) rfl
    [.step .ping none, .step .ping none, .step .pong none, .step .ping (some .pong),
      .step .ping none, .step .pong none, .step .pong none, .stop, .step .ping none,
      .step .ping none] (by decide)
  exact ⟨s, hs.of_restrict, hst, hp, pings_answered hs⟩

/-- After the stop ping goes round its loop alone. -/
theorem pings_unanswered : ¬ ∀ s, Reachable system s →
    s.world.ping_count.toNat ≤ answers s.world + 1 := by
  intro h
  obtain ⟨s, hs, hp⟩ := exists_reachable_of_exec (S := system)
    (p := fun s => answers s.world + 1 < s.world.ping_count.toNat) rfl
    (.stop :: .replicate 7 (.step .ping none)) (by decide)
  exact Nat.not_le_of_lt hp (h s hs)

end PingPong.CommFutexStop
