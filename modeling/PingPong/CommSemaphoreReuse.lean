import PingPong.CommSemaphoreToken

namespace PingPong.CommSemaphoreReuse

open MonitorState (Worker)
open CommSemaphore CommSemaphoreToken TransitionSystem

variable {m : SemMode} {left : Fin 2 → Nat} {b : Nat} {s t : State} {i : Worker}

/-- Semaphores that `sem_open` found with units of an earlier run. -/
def reopened (left : Fin 2 → Nat) : State := { start with world.sems := left }

def runs (m : SemMode) (left : Fin 2 → Nat) : System State Event :=
  ⟨(· = reopened left), next m⟩

def posted (s : State) (i : Worker) : Nat := (posts s.world.history).count i

def holding (s : State) (i : Worker) : Nat := if s.pc i = .post then 1 else 0

def begun (s : State) : Nat := if s.world.monitor = .done then 1 else 0

def granted (b : Nat) : Worker → Nat
  | .ping => b
  | .pong => 0

/-- The units that a worker waits for come from the earlier run, the monitor and the
other worker, and go on to the other worker. The monitor's unit is only lost if the
semaphore for it may have been full. -/
structure Balanced (left : Fin 2 → Nat) (b : Nat) (s : State) : Prop where
  units (i : Worker) : s.world.sems (num i) + holding s i + posted s i =
    left (num i) + granted b i + posted s i.other
  count : s.world.ping_count = .ofNat 64 (posted s .ping +
    if s.pc .ping = .wait ∨ s.pc .ping = .post then 1 else 0)
  begun : b = begun s ∨ b = 0 ∧ SEM_VALUE_MAX ≤ left 0 + left 1

theorem balanced_reopened (left : Fin 2 → Nat) : Balanced left 0 (reopened left) :=
  ⟨fun i => by cases i <;> rfl, rfl, .inl rfl⟩

theorem Balanced.total (h : Balanced left b s) :
    CommSemaphoreToken.units s = left 0 + left 1 + b := by
  have h0 := h.units .ping
  have h1 := h.units .pong
  simp only [num, holding, granted, Worker.other] at h0 h1
  rw [CommSemaphoreToken.units]
  omega

theorem Balanced.setStart (h : Balanced left b s) (hm : s.world.monitor = .setStart) :
    Balanced left b { s with world.monitor := .comm_begin, world.start := true } where
  units := h.units
  count := h.count
  begun := by simpa [CommSemaphoreReuse.begun, hm] using h.begun

theorem Balanced.comm_begin (h : Balanced left b s) (hm : s.world.monitor = .comm_begin) :
    ∃ b', Balanced left b' { s with world := { do_begin_sem s.world with monitor := .done } } := by
  have hb : b = 0 := h.begun.elim (fun heq => by simpa [CommSemaphoreReuse.begun, hm] using heq) And.left
  have ht := h.total
  rw [CommSemaphoreToken.units] at ht
  by_cases hfull : SEM_VALUE_MAX ≤ s.world.sems 0
  · refine ⟨b, fun i => ?_, h.count, .inr ⟨hb, by omega⟩⟩
    simpa [holding, posted, do_begin_sem, hfull] using h.units i
  · refine ⟨1, fun i => ?_, h.count, .inl rfl⟩
    have hu := h.units i
    subst hb
    cases i with
    | ping =>
      simp [holding, posted, granted, do_begin_sem, hfull, num] at hu ⊢
      omega
    | pong => simpa [holding, posted, granted, do_begin_sem, hfull, num] using hu

theorem Balanced.stay (h : Balanced left b s) : Balanced left b (s.move i (s.pc i) s.world) := by
  rwa [Workers.move_self]

theorem Balanced.enter (h : Balanced left b s) (hi : s.pc i = .await) :
    Balanced left b (s.move i (top i) s.world) where
  units j := by
    have hu := h.units j
    obtain rfl | rfl := i.eq_or_other j
    · cases j <;> simp_all [holding, posted, top]
    · simpa [holding, posted] using hu
  count := by
    have hc := h.count
    cases i <;> simp_all [posted, top]
  begun := h.begun

theorem Balanced.ping_count (h : Balanced left b s) (hc : s.pc .ping = .count) :
    Balanced left b
      (s.move .ping .wait { s.world with ping_count := s.world.ping_count + 1 }) where
  units j := by
    have hu := h.units j
    cases j with
    | ping => simpa [holding, posted, hc] using hu
    | pong => simpa [holding, posted] using hu
  count := by simp [h.count, hc, posted, BitVec.ofNat_add]
  begun := h.begun

theorem Balanced.wait (h : Balanced left b s) (hi : s.pc i = .wait)
    (hn : s.world.sems (num i) ≠ 0) :
    Balanced left b (s.move i .post (s.world.down i (num i))) where
  units j := by
    have hu := h.units j
    obtain rfl | rfl := i.eq_or_other j
    · simp [holding, posted, hi] at hu ⊢
      omega
    · simpa [holding, posted] using hu
  count := by
    have hc := h.count
    cases i <;> simp_all [posted]
  begun := h.begun

theorem Balanced.post (h : Balanced left b s) (hi : s.pc i = .post) :
    Balanced left b (s.move i (top i) (s.world.up i (num i.other))) where
  units j := by
    have hu := h.units j
    obtain rfl | rfl := i.eq_or_other j
    · cases j <;> simp [holding, posted, hi, top] at hu ⊢ <;> omega
    · simp [holding, posted] at hu ⊢
      omega
  count := by
    have hc := h.count
    cases i <;> simp_all [posted, top]
  begun := h.begun

theorem Balanced.step (h : Balanced left b s) (hn : Step s t) : ∃ b', Balanced left b' t := by
  cases hn with
  | setStart hm => exact ⟨b, h.setStart hm⟩
  | comm_begin hm => exact h.comm_begin hm
  | stay => exact ⟨b, h.stay⟩
  | enter hi => exact ⟨b, h.enter hi⟩
  | count hc => exact ⟨b, h.ping_count hc⟩
  | wait hi hz => exact ⟨b, h.wait hi hz⟩
  | post hi _ => exact ⟨b, h.post hi⟩

theorem exists_balanced (h : Reachable (runs m left) s) : ∃ b, Balanced left b s := by
  apply h.invariant (I := fun s => ∃ b, Balanced left b s)
  · rintro _ rfl
    exact ⟨0, balanced_reopened left⟩
  · rintro s e t ⟨b, hb⟩ hn
    exact hb.step (next_cases hn)

theorem balanced (hroom : left 0 + left 1 < SEM_VALUE_MAX) (h : Reachable (runs m left) s) :
    Balanced left (begun s) s := by
  obtain ⟨b, hb⟩ := exists_balanced h
  obtain rfl | ⟨-, hfull⟩ := hb.begun
  · exact hb
  · omega

theorem Balanced.ahead (h : Balanced left b s) :
    posted s i ≤ posted s i.other + left (num i) + granted b i := by
  have hu := h.units i
  omega

theorem Balanced.ping_count_le (h : Balanced left b s) :
    s.world.ping_count.toNat ≤ posted s .ping + 1 := by
  rw [h.count, BitVec.toNat_ofNat]
  apply (Nat.mod_le _ _).trans
  apply Nat.add_le_add_left
  split <;> omega

theorem next_enter (hi : s.pc i = .await) (hs : s.world.start = true) :
    (runs m left).next (.step i true) s = some (s.move i (top i) s.world) := by
  cases m <;> cases i <;>
    simp [runs, next, SemMode.do_thread_work, SemMode.comm_ping, SemMode.comm_pong, comm_ping_sem,
      comm_pong_sem, comm_ping_busysem, comm_pong_busysem, pingLoop, loop, hi, hs, top]

theorem next_count (hc : s.pc .ping = .count) : (runs m left).next (.step .ping true) s =
    some (s.move .ping .wait { s.world with ping_count := s.world.ping_count + 1 }) := by
  cases m <;>
    simp [runs, next, SemMode.do_thread_work, SemMode.comm_ping, comm_ping_sem, comm_ping_busysem,
      pingLoop, hc]

theorem next_wait (hi : s.pc i = .wait) (hn : s.world.sems (num i) ≠ 0) :
    (runs m left).next (.step i true) s = some (s.move i .post (s.world.down i (num i))) := by
  cases m <;> cases i <;> rw [num] at hn <;>
    simp [runs, next, SemMode.do_thread_work, SemMode.comm_ping, SemMode.comm_pong, comm_ping_sem,
      comm_pong_sem, comm_ping_busysem, comm_pong_busysem, pingLoop, loop, hi, hn, untilEq, whileEq,
      sem_wait, sem_trywait, num]

theorem next_post (hi : s.pc i = .post) (hroom : s.world.sems (num i.other) < SEM_VALUE_MAX) :
    (runs m left).next (.step i true) s =
      some (s.move i (top i) (s.world.up i (num i.other))) := by
  have hroom' := not_le.mpr hroom
  cases m <;> cases i <;> rw [Worker.other, num] at hroom' <;>
    simp [runs, next, SemMode.do_thread_work, SemMode.comm_ping, SemMode.comm_pong, comm_ping_sem,
      comm_pong_sem, comm_ping_busysem, comm_pong_busysem, pingLoop, loop, hi, hroom', untilEq,
      sem_post, top, num, Worker.other]

structure Alone (m : SemMode) (left : Fin 2 → Nat) (n : Nat) (s : State) : Prop where
  reachable : Reachable (runs m left) s
  start : s.world.start = true
  monitor : s.world.monitor = .done
  ping : s.pc .ping = .count
  pong : s.pc .pong = .await
  pings : posted s .ping = n
  pongs : posted s .pong = 0

theorem exists_alone_zero (m : SemMode) (left : Fin 2 → Nat) : ∃ s, Alone m left 0 s := by
  have h : Reachable (runs m left) (reopened left) := .init rfl
  have h1 := h.next (a := .monitor) (t := { reopened left with
    world.monitor := .comm_begin, world.start := true }) rfl
  have h2 := h1.next (a := .monitor) rfl
  have h3 := h2.next (next_enter (i := .ping) rfl rfl)
  exact ⟨_, h3, rfl, rfl, rfl, rfl, rfl, rfl⟩

variable (hroom : left 0 + left 1 < SEM_VALUE_MAX)
include hroom

theorem Alone.take {n : Nat} (h : Alone m left n s) (hn : n ≤ left 0) :
    ∃ t, Reachable (runs m left) t ∧ t.pc .ping = .post ∧ t.pc .pong = .await ∧
      t.world.start = true ∧ t.world.monitor = .done ∧
      posted t .ping = n ∧ posted t .pong = 0 := by
  have h1 := h.reachable.next (next_count h.ping)
  have hz : s.world.sems 0 ≠ 0 := by
    have hu := (balanced hroom h.reachable).units .ping
    simp only [num, holding, granted, begun, h.ping, h.monitor, h.pings, h.pongs,
      Worker.other] at hu
    simp at hu
    omega
  have h2 := h1.next (next_wait (i := .ping) (by simp) (by simpa [num] using hz))
  refine ⟨_, h2, by simp, by simpa using h.pong, by simpa using h.start,
    by simpa using h.monitor, ?_, ?_⟩
  · simpa [posted] using h.pings
  · simpa [posted] using h.pongs

theorem room (ht : Reachable (runs m left) t) (hi : t.pc i = .post) :
    t.world.sems (num i.other) < SEM_VALUE_MAX := by
  have htotal := (balanced hroom ht).total
  have hb : begun t ≤ 1 := by
    rw [begun]
    split <;> omega
  rw [CommSemaphoreToken.units] at htotal
  cases i <;> rw [hi] at htotal <;> simp only [if_true, num, Worker.other] at htotal ⊢ <;> omega

theorem exists_alone (m : SemMode) (n : Nat) (hn : n ≤ left 0 + 1) : ∃ s, Alone m left n s := by
  induction n with
  | zero => exact exists_alone_zero m left
  | succ n ih =>
    obtain ⟨s, hs⟩ := ih (by omega)
    obtain ⟨t, ht, hi, hj, hst, hm, hp, hq⟩ := hs.take hroom (by omega)
    refine ⟨_, ht.next (next_post hi (room hroom ht hi)), by simpa using hst, by simpa using hm,
      by simp [top], by simpa using hj, ?_, ?_⟩
    · simpa [posted] using hp
    · simpa [posted] using hq

theorem exists_both (m : SemMode) (h : 0 < left 0 + left 1) :
    ∃ s, Reachable (runs m left) s ∧ s.pc .ping = .post ∧ s.pc .pong = .post := by
  obtain ⟨n, hn, hl⟩ : ∃ n ≤ left 0, 0 < left 1 + n := by
    by_cases h0 : left 0 = 0
    · exact ⟨0, by omega, by omega⟩
    · exact ⟨1, by omega, by omega⟩
  obtain ⟨s, hs⟩ := exists_alone hroom m n (by omega)
  obtain ⟨t, ht, hi, hj, hst, -, hp, hq⟩ := hs.take hroom hn
  have h1 := ht.next (next_enter hj hst)
  have hz : t.world.sems 1 ≠ 0 := by
    have hu := (balanced hroom ht).units .pong
    simp only [num, holding, granted, hj, hp, hq, Worker.other] at hu
    simp at hu
    omega
  have h2 := h1.next (next_wait (i := .pong) (by simp [top]) (by simpa [num] using hz))
  exact ⟨_, h2, by simpa using hi, by simp⟩

omit hroom

/-- Semaphores that an earlier run has left behind are opened as they are. If there is room
for one more unit, then in both modes no unit is made or lost, so that neither worker gets
ahead of the other by more than was left for it, and ping by the monitor's unit; as far as
that ping does get; and one worker at a time has a unit exactly when none was left. -/
theorem reuse (m : SemMode) (left : Fin 2 → Nat) (hroom : left 0 + left 1 + 1 ≤ SEM_VALUE_MAX) :
    (∀ s, Reachable (runs m left) s →
      units s = left 0 + left 1 + (if s.world.monitor = .done then 1 else 0) ∧
      posted s .ping ≤ posted s .pong + left 0 + (if s.world.monitor = .done then 1 else 0) ∧
      posted s .pong ≤ posted s .ping + left 1 ∧
      s.world.ping_count.toNat ≤ posted s .ping + 1) ∧
    (∃ s, Reachable (runs m left) s ∧ posted s .pong = 0 ∧ posted s .ping = left 0 + 1) ∧
    ((∀ s, Reachable (runs m left) s → ¬ (s.pc .ping = .post ∧ s.pc .pong = .post)) ↔
      left 0 = 0 ∧ left 1 = 0) := by
  refine ⟨fun s h => ?_, ?_, fun h => ?_, ?_⟩
  · have hb := balanced hroom h
    exact ⟨hb.total, hb.ahead (i := .ping), hb.ahead (i := .pong), hb.ping_count_le⟩
  · obtain ⟨s, hs⟩ := exists_alone hroom m (left 0 + 1) le_rfl
    exact ⟨s, hs.reachable, hs.pongs, hs.pings⟩
  · by_contra hl
    obtain ⟨s, hs, hp⟩ := exists_both hroom m (by omega)
    exact h s hs hp
  · rintro ⟨h0, h1⟩ s h ⟨hi, hj⟩
    have ht := (balanced hroom h).total
    rw [units, if_pos hi, if_pos hj, h0, h1, begun] at ht
    split at ht <;> omega

/-- Three units are left in either semaphore. -/
theorem reuse_three : ∃ s, Reachable (runs .sem fun _ => 3) s ∧
    posted s .pong = 0 ∧ posted s .ping = 4 :=
  (reuse .sem (fun _ => 3) (by decide)).2.1

end PingPong.CommSemaphoreReuse
