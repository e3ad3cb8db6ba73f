import Mathlib.Data.List.Nodup

namespace PingPong.FieldCommands

variable {σ κ α : Type}

structure Fields (σ κ : Type) where
  Val : κ → Type
  get : ∀ k, σ → Val k
  set : ∀ k, Val k → σ → σ
  get_set : ∀ k v s, get k (set k v s) = v
  get_set_of_ne : ∀ {k l}, k ≠ l → ∀ v s, get k (set l v s) = get k s
  set_comm : ∀ {k l}, k ≠ l → ∀ v w s, set k v (set l w s) = set l w (set k v s)

/-- Commands on the fields of a record. Each has one field, of whose value it makes
another or which it refuses. -/
structure Commands (F : Fields σ κ) (α : Type) where
  target : α → κ
  effect : ∀ a, F.Val (target a) → Option (F.Val (target a))

namespace Commands

variable {F : Fields σ κ} (C : Commands F α) {a b : α} {as bs : List α} {s t : σ} {k : κ}

def step (s : σ) (a : α) : Option σ :=
  (C.effect a (F.get (C.target a) s)).map fun v => F.set (C.target a) v s

def Apart (as : List α) : Prop := (as.map C.target).Nodup

variable {C}

theorem step_eq_some : C.step s a = some t ↔
    ∃ v, C.effect a (F.get (C.target a) s) = some v ∧ F.set (C.target a) v s = t :=
  Option.map_eq_some_iff

theorem get_step_of_ne (h : C.step s a = some t) (hk : k ≠ C.target a) :
    F.get k t = F.get k s := by
  obtain ⟨v, -, rfl⟩ := step_eq_some.mp h
  exact F.get_set_of_ne hk v s

theorem get_step (h : C.step s a = some t) :
    C.effect a (F.get (C.target a) s) = some (F.get (C.target a) t) := by
  obtain ⟨v, hv, rfl⟩ := step_eq_some.mp h
  rw [hv, F.get_set]

theorem step_comm (h : C.target a ≠ C.target b) (s : σ) :
    (C.step s a).bind (C.step · b) = (C.step s b).bind (C.step · a) := by
  cases ha : C.effect a (F.get (C.target a) s) with
  | none =>
    cases hb : C.effect b (F.get (C.target b) s) <;>
      simp [step, ha, hb, F.get_set_of_ne h]
  | some v =>
    cases hb : C.effect b (F.get (C.target b) s) <;>
      simp [step, ha, hb, F.get_set_of_ne h, F.get_set_of_ne h.symm, F.set_comm h.symm]

theorem foldlM_perm (p : as.Perm bs) (h : C.Apart as) (s : σ) :
    as.foldlM C.step s = bs.foldlM C.step s := by
  induction p generalizing s with
  | nil => rfl
  | cons a p ih =>
    have hp := (List.nodup_cons.mp h).2
    rw [List.foldlM_cons, List.foldlM_cons]
    exact Option.bind_congr fun t _ => ih hp t
  | swap a b as =>
    have hne : C.target a ≠ C.target b := fun heq => by simp [Apart, heq] at h
    simp only [List.foldlM_cons, Option.bind_eq_bind, ← Option.bind_assoc, step_comm hne]
  | trans p q ihp ihq =>
    rw [ihp h, ihq ((p.map C.target).nodup_iff.mp h)]

theorem get_foldlM_of_not_mem (h : as.foldlM C.step s = some t) (hk : k ∉ as.map C.target) :
    F.get k t = F.get k s := by
  induction as generalizing s with
  | nil =>
    obtain rfl : s = t := Option.some.inj h
    rfl
  | cons a as ih =>
    obtain ⟨u, hu, ht⟩ := Option.bind_eq_some_iff.mp h
    rw [List.map_cons, List.mem_cons, not_or] at hk
    rw [ih ht hk.2, get_step_of_ne hu hk.1]

theorem get_foldlM (h : (as ++ a :: bs).foldlM C.step s = some t)
    (has : C.target a ∉ as.map C.target) (hbs : C.target a ∉ bs.map C.target) :
    C.effect a (F.get (C.target a) s) = some (F.get (C.target a) t) := by
  rw [List.foldlM_append] at h
  obtain ⟨u, hu, h⟩ := Option.bind_eq_some_iff.mp h
  obtain ⟨v, hv, ht⟩ := Option.bind_eq_some_iff.mp h
  rw [← get_foldlM_of_not_mem hu has, get_step hv, get_foldlM_of_not_mem ht hbs]

theorem get_foldlM_of_mem (h : as.foldlM C.step s = some t) (hn : C.Apart as) (ha : a ∈ as) :
    C.effect a (F.get (C.target a) s) = some (F.get (C.target a) t) := by
  obtain ⟨front, rest, rfl⟩ := List.append_of_mem ha
  rw [Apart, List.map_append, List.map_cons] at hn
  obtain ⟨-, hrest, hdisjoint⟩ := List.nodup_append.mp hn
  refine get_foldlM h (fun hm => ?_) (List.nodup_cons.mp hrest).1
  exact hdisjoint _ hm _ List.mem_cons_self rfl

end Commands

end PingPong.FieldCommands
