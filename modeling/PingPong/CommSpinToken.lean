import PingPong.CommSpin
import PingPong.TokenRing

namespace PingPong.CommSpinToken

open MonitorState (Worker)
open CommSpin TransitionSystem TokenRing

variable {m : Mode} {s s' : State} {t : Token Worker} {i : Worker}

def move : Act → Move Worker
  | .stored i _ => .pass i
  | .seen i => .take i

def stores (history : List Act) : List Worker := passes (history.map move)

/-- The last worker that has stored; at the start it is as if pong had. -/
def writer : Token Worker → Worker
  | .held i => i.other
  | .passed i => i

structure Rel (s : State) (t : Token Worker) : Prop where
  var : s.world.var = value (writer t)
  busy : ∀ i, s.pc i = .count ∨ s.pc i = .store ↔ t = .held i
  pong : s.pc .pong ≠ .count
  count : s.world.ping_count = .ofNat 64 ((stores s.world.history).count .ping +
    if s.pc .ping = .store then 1 else 0)
  values : ∀ i v, .stored i v ∈ s.world.history → v = value i

@[simp] theorem stores_stored (h : List Act) (i : Worker) (v : Int) :
    stores (h ++ [.stored i v]) = stores h ++ [i] := by simp [stores, move]

@[simp] theorem stores_seen (h : List Act) (i : Worker) : stores (h ++ [.seen i]) = stores h := by
  simp [stores, move]

theorem value_other_ne (i : Worker) : value i.other ≠ value i := by cases i <;> decide

theorem rel_start : Rel start (.held .ping) where
  var := rfl
  busy i := by cases i <;> simp [start]
  pong := by simp [start]
  count := rfl
  values := by simp [start]

theorem Rel.ping_count (h : Rel s t) (hc : s.pc .ping = .count) :
    Rel (s.move .ping .store { s.world with ping_count := s.world.ping_count + 1 }) t where
  var := h.var
  busy i := by
    have := h.busy i
    cases i with
    | ping => simpa [hc] using this
    | pong => exact this
  pong := h.pong
  count := by simp [h.count, hc, BitVec.ofNat_add]
  values := h.values

theorem Rel.wait {pc : Pc} {executed : List (Worker × Code)} (h : Rel s t)
    (hi : s.pc i ≠ .count ∧ s.pc i ≠ .store) (hpc : pc ≠ .count ∧ pc ≠ .store) :
    Rel (s.move i pc { s.world with executed }) t where
  var := h.var
  busy j := by
    have := h.busy j
    obtain rfl | rfl := i.eq_or_other j
    · simpa [hi, hpc] using this
    · simpa using this
  pong := by
    cases i with
    | ping => exact h.pong
    | pong => simpa using hpc.1
  count := by
    have := h.count
    cases i with
    | ping => simpa [hi, hpc] using this
    | pong => simpa using this
  values := h.values

theorem Rel.store (h : Rel s t) (hi : s.pc i = .store) :
    t = .held i ∧ Rel (s.move i .sync (s.world.store i (value i))) (.passed i) := by
  obtain rfl := (h.busy i).mp (.inr hi)
  have ho := h.busy i.other
  refine ⟨rfl, rfl, fun j => ?_, ?_, ?_, fun j v hv => ?_⟩
  · obtain rfl | rfl := i.eq_or_other j
    · simp
    · simpa using ho
  · cases i with
    | ping => exact h.pong
    | pong => simp
  · have := h.count
    cases i with
    | ping => simp [this, hi]
    | pong => simp [this]
  · simp only [Workers.move_world, World.store_history, List.mem_append, List.mem_singleton,
      Act.stored.injEq] at hv
    obtain hv | ⟨rfl, rfl⟩ := hv
    · exact h.values j v hv
    · rfl

theorem Rel.see (h : Rel s t) (hi : s.pc i = .test) (hv : s.world.var = value i.other) :
    t = .passed i.other ∧ Rel (s.move i (top i) (s.world.see i)) (.held i) := by
  have hb := h.busy i
  have ht : t = .passed i.other := by
    rw [h.var] at hv
    cases t with
    | held j =>
      obtain rfl | rfl := i.eq_or_other j
      · simp [hi] at hb
      · exact absurd hv (by simpa [writer] using (value_other_ne i).symm)
    | passed j =>
      obtain rfl | rfl := i.eq_or_other j
      · exact absurd hv.symm (value_other_ne j)
      · rfl
  subst ht
  have ho := h.busy i.other
  refine ⟨rfl, h.var, fun j => ?_, ?_, ?_, fun j v hm => h.values j v (by simpa using hm)⟩
  · obtain rfl | rfl := i.eq_or_other j
    · cases j <;> simp [top]
    · simpa using ho
  · cases i with
    | ping => exact h.pong
    | pong => simp [top]
  · have := h.count
    cases i with
    | ping => simp [this, hi, top]
    | pong => simp [this]

/-- The stores and the ends of the waits refine one token. -/
theorem simulation (m : Mode) : Simulation (system m) (ring Worker.other (.held .ping))
    (fun s => s.world.history.map move) Rel where
  init := by
    rintro _ rfl
    exact ⟨rfl, _, rfl, rel_start⟩
  step := by
    intro s s' e t h hn
    cases next_cases hn with
    | count hc => exact .inl ⟨rfl, h.ping_count hc⟩
    | store hi =>
      obtain ⟨rfl, hR⟩ := h.store hi
      exact .inr ⟨.pass _, _, ring_pass _, by simp [move], hR⟩
    | wait hi hpc =>
      refine .inl ⟨rfl, h.wait (by simp [hi]) ?_⟩
      obtain rfl | rfl := hpc <;> simp
    | exec code hi =>
      refine .inl ⟨rfl, h.wait ?_ (by simp)⟩
      obtain hi | hi := hi <;> simp [hi]
    | @see i hi hv =>
      obtain ⟨rfl, hR⟩ := h.see hi hv
      exact .inr ⟨.take i, _, ring_take i.other_other, by simp [move], hR⟩

theorem count_stores {tr : List (Move Worker)} (h : Run (ring Worker.other (.held .ping)) tr t) :
    (passes tr).count .ping + (if t = .held .ping ∨ t = .passed .pong then 1 else 0) =
      (passes tr).count .pong + 1 := by
  have ht := count_takes h .ping
  have hp := count_passes Worker.other_involutive.injective h .pong
  simp only [Worker.other] at hp
  obtain (_ | _) | (_ | _) := t <;> simp at ht hp ⊢ <;> omega

/-- In every mode and every run: the variable is 0 or 1, nobody stores the value
it has, the stores of 1 by ping and of 0 by pong alternate, and ping has counted
as many pings as pong has answered, or one more. -/
theorem var_handed_over (m : Mode) {s : State} (h : Reachable (system m) s) :
    (s.world.var = 0 ∨ s.world.var = 1) ∧
    (∀ i, s.pc i = .store → s.world.var ≠ value i) ∧
    (∀ i v, .stored i v ∈ s.world.history → v = value i) ∧
    (∀ n i, (stores s.world.history)[n]? = some i → i = if n % 2 = 0 then .ping else .pong) ∧
    (s.world.ping_count = .ofNat 64 ((stores s.world.history).count .pong) ∨
      s.world.ping_count = .ofNat 64 ((stores s.world.history).count .pong + 1)) := by
  obtain ⟨t, ht, hR⟩ := (simulation m).reachable h
  refine ⟨?_, fun i hi => ?_, hR.values, fun n i hi => ?_, ?_⟩
  · rw [hR.var]
    cases writer t
    · exact .inr rfl
    · exact .inl rfl
  · obtain rfl := (hR.busy i).mp (.inr hi)
    rw [hR.var]
    exact value_other_ne i
  · exact passes_alternate Worker.other_involutive ht hi
  · have hc := count_stores ht
    have hb := hR.busy .ping
    rw [hR.count]
    by_cases hs : s.pc .ping = .store
    · have hheld := hb.mp (.inr hs)
      simp only [hheld, true_or, if_true] at hc
      rw [if_pos hs]
      exact .inr (congrArg _ hc)
    · rw [if_neg hs, Nat.add_zero]
      by_cases hp : t = .held .ping ∨ t = .passed .pong
      · rw [if_pos hp] at hc
        exact .inl (congrArg _ (Nat.add_right_cancel hc))
      · rw [if_neg hp] at hc
        exact .inr (congrArg _ hc)

/-- Two different methods. Pong tests the variable in vain first. -/
theorem var_handed_over_spin : ∃ m s, Reachable (system m) s ∧
    stores s.world.history = [.ping, .pong, .ping] ∧
    (s.world.ping_count = .ofNat 64 1 ∨ s.world.ping_count = .ofNat 64 2) := by
  let m : Mode := .spin ⟨1, by decide⟩ ⟨3, by decide⟩
  obtain ⟨s, hs, hp⟩ := exists_reachable_of_exec (S := system m)
    (p := fun s => stores s.world.history = [.ping, .pong, .ping]) rfl
    [.pong, .ping, .ping, .pong, .ping, .pong, .pong, .ping, .ping, .ping] (by decide)
  exact ⟨m, s, hs, hp, by simpa [hp] using (var_handed_over m hs).2.2.2.2⟩

end PingPong.CommSpinToken
