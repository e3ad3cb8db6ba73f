import PingPong.CommSemaphore

namespace PingPong.CommSemaphoreToken

open MonitorState (Worker)
open CommSemaphore TransitionSystem TokenRing

variable {m : SemMode} {s : State} {t : Token Worker} {i : Worker}

def move : Act → Move Worker
  | .waited i => .take i
  | .posted i => .pass i

def posts (history : List Act) : List Worker :=
  history.filterMap fun | .posted i => some i | .waited _ => none

@[simp] theorem passes_map_move (history : List Act) :
    passes (history.map move) = posts history := by
  rw [passes, posts, List.filterMap_map]
  congr 1
  funext x
  cases x <;> rfl

@[simp] theorem posts_posted (history : List Act) (i : Worker) :
    posts (history ++ [.posted i]) = posts history ++ [i] := by simp [posts]

@[simp] theorem posts_waited (history : List Act) (i : Worker) :
    posts (history ++ [.waited i]) = posts history := by simp [posts]

/-- Until the monitor begins, it is as if pong's unit were on its way. -/
structure Rel (s : State) (t : Token Worker) : Prop where
  begun : s.world.monitor ≠ .done → t = .passed .pong
  sems : ∀ i, s.world.sems (num i) = if s.world.monitor = .done ∧ t = .passed i.other then 1 else 0
  post : ∀ i, s.pc i = .post ↔ t = .held i
  count : s.world.ping_count = .ofNat 64 ((posts s.world.history).count .ping +
    if s.pc .ping = .wait ∨ s.pc .ping = .post then 1 else 0)

theorem rel_start : Rel start (.passed .pong) :=
  ⟨fun _ => rfl, fun i => by cases i <;> rfl, fun i => by cases i <;> simp [start], rfl⟩

theorem Rel.setStart (h : Rel s t) (hm : s.world.monitor = .setStart) :
    Rel { s with world.monitor := .comm_begin, world.start := true } t where
  begun _ := h.begun (by simp [hm])
  sems i := by simpa [hm] using h.sems i
  post := h.post
  count := h.count

theorem Rel.comm_begin (h : Rel s t) (hm : s.world.monitor = .comm_begin) :
    Rel { s with world := { do_begin_sem s.world with monitor := .done } } t where
  begun hn := absurd rfl hn
  sems i := by
    have h0 : s.world.sems 0 = 0 := by simpa [num, hm] using h.sems .ping
    have h1 : s.world.sems 1 = 0 := by simpa [num, hm] using h.sems .pong
    have hsems := do_begin_sem_room (w := s.world) (h0 ▸ by decide)
    obtain rfl := h.begun (by simp [hm])
    cases i <;> simp [hsems, h0, h1, num, Worker.other]
  post := h.post
  count := h.count

theorem Rel.stay (h : Rel s t) : Rel (s.move i (s.pc i) s.world) t := by
  simpa [Workers.move_self] using h

theorem Rel.enter (h : Rel s t) (hi : s.pc i = .await) : Rel (s.move i (top i) s.world) t where
  begun := h.begun
  sems := h.sems
  post j := by
    obtain rfl | rfl := i.eq_or_other j
    · have := h.post j
      cases j <;> simp_all [top]
    · simpa using h.post i.other
  count := by
    have := h.count
    cases i <;> simp_all [top]

theorem Rel.ping_count (h : Rel s t) (hc : s.pc .ping = .count) :
    Rel (s.move .ping .wait { s.world with ping_count := s.world.ping_count + 1 }) t where
  begun := h.begun
  sems := h.sems
  post j := by
    have := h.post j
    cases j with
    | ping => simpa [hc] using this
    | pong => exact this
  count := by simp [h.count, hc, BitVec.ofNat_add]

theorem Rel.wait (h : Rel s t) (hi : s.pc i = .wait) (hn : s.world.sems (num i) ≠ 0) :
    t = .passed i.other ∧ Rel (s.move i .post (s.world.down i (num i))) (.held i) := by
  have hs := h.sems i
  by_cases hd : s.world.monitor = .done ∧ t = .passed i.other
  · obtain ⟨hd, rfl⟩ := hd
    refine ⟨rfl, fun hn => absurd hd hn, fun j => ?_, fun j => ?_, ?_⟩
    · have ho := h.sems i.other
      obtain rfl | rfl := i.eq_or_other j <;> simp_all
    · obtain rfl | rfl := i.eq_or_other j
      · simp
      · simpa using h.post i.other
    · have := h.count
      cases i <;> simp_all
  · rw [if_neg hd] at hs
    exact absurd hs hn

theorem Rel.done (h : Rel s (.held i)) : s.world.monitor = .done :=
  by_contra fun hn => by cases h.begun hn

theorem Rel.posted (h : Rel s t) (hi : s.pc i = .post) :
    t = .held i ∧ Rel (s.move i (top i) (s.world.up i (num i.other))) (.passed i) := by
  obtain rfl := (h.post i).mp hi
  have hd := h.done
  refine ⟨rfl, fun hn => absurd hd hn, fun j => ?_, fun j => ?_, ?_⟩
  · have hs := h.sems i
    have ho := h.sems i.other
    obtain rfl | rfl := i.eq_or_other j <;> simp_all
  · obtain rfl | rfl := i.eq_or_other j
    · cases j <;> simp [top]
    · simpa using h.post i.other
  · have := h.count
    cases i <;> simp_all [top]

theorem simulation (m : SemMode) : Simulation (system m) (ring Worker.other (.passed .pong))
    (fun s => s.world.history.map move) Rel where
  init := by
    rintro _ rfl
    exact ⟨rfl, _, rfl, rel_start⟩
  step := by
    intro s s' e t h hn
    cases next_cases hn with
    | setStart hm => exact .inl ⟨rfl, h.setStart hm⟩
    | comm_begin hm => exact .inl ⟨rfl, h.comm_begin hm⟩
    | stay => exact .inl ⟨rfl, h.stay⟩
    | enter hi => exact .inl ⟨rfl, h.enter hi⟩
    | count hc => exact .inl ⟨rfl, h.ping_count hc⟩
    | @wait i hi hz =>
      obtain ⟨rfl, hR⟩ := h.wait hi hz
      exact .inr ⟨.take i, _, ring_take i.other_other, by simp [move], hR⟩
    | post hi _ =>
      obtain ⟨rfl, hR⟩ := h.posted hi
      exact .inr ⟨.pass _, _, ring_pass _, by simp [move], hR⟩

def units (s : State) : Nat :=
  s.world.sems 0 + s.world.sems 1 + (if s.pc .ping = .post then 1 else 0) +
    if s.pc .pong = .post then 1 else 0

theorem Rel.units (h : Rel s t) :
    CommSemaphoreToken.units s = if s.world.monitor = .done then 1 else 0 := by
  have h0 := h.sems .ping
  have h1 := h.sems .pong
  have hb := h.begun
  rw [CommSemaphoreToken.units, num] at *
  simp only [h.post]
  obtain (_ | _) | (_ | _) := t <;> by_cases hd : s.world.monitor = .done <;>
    simp_all [Worker.other, num]

/-- In both modes and every run: no unit before the monitor begins and one after,
so that at most one worker has it, the posts alternate, and ping counts one more
than it has exchanged at most. -/
theorem one_unit (m : SemMode) {s : State} (h : Reachable (system m) s) :
    units s = (if s.world.monitor = .done then 1 else 0) ∧
    ¬ (s.pc .ping = .post ∧ s.pc .pong = .post) ∧
    (∀ n i, (posts s.world.history)[n]? = some i → i = if n % 2 = 0 then .ping else .pong) ∧
    s.world.ping_count.toNat ≤ (posts s.world.history).count .ping + 1 := by
  obtain ⟨t, ht, hR⟩ := (simulation m).reachable h
  refine ⟨hR.units, fun ⟨h0, h1⟩ => ?_, fun n i hi => ?_, ?_⟩
  · cases ((hR.post _).mp h0).symm.trans ((hR.post _).mp h1)
  · rw [← passes_map_move] at hi
    exact passes_alternate Worker.other_involutive ht hi
  · rw [hR.count, BitVec.toNat_ofNat]
    refine (Nat.mod_le _ _).trans (Nat.add_le_add_left ?_ _)
    split <;> omega

/-- Ping is in its loop before the monitor begins. -/
theorem one_unit_busysem : ∃ s, Reachable (system .busysem) s ∧ s.world.monitor = .done ∧
    posts s.world.history = [.ping, .pong] ∧ units s = 1 := by
  obtain ⟨s, hs, hm, hp⟩ := exists_reachable_of_exec (S := system .busysem)
    (p := fun s => s.world.monitor = .done ∧ posts s.world.history = [.ping, .pong]) rfl
    [.step .ping true, .monitor, .step .ping true, .step .ping true, .step .ping true, .monitor,
      .step .ping true, .step .ping false, .step .ping true, .step .pong true, .step .pong true,
      .step .pong true] (by decide)
  exact ⟨s, hs, hm, hp, (one_unit .busysem hs).1.trans (if_pos hm)⟩

end PingPong.CommSemaphoreToken
