import Mathlib.Algebra.Order.BigOperators.Group.List
import Mathlib.Algebra.Order.Ring.Nat
import Mathlib.Data.List.AList

namespace PingPong.Allocation

variable {β : Type}

abbrev Heap (β : Type) := AList fun _ : Nat => β

/-- An allocator, which may choose any address that is not in use. -/
structure Allocator (β : Type) where
  malloc : Heap β → Nat
  fresh : ∀ h, malloc h ∉ h

def next : Allocator β where
  malloc h := h.keys.sum + 1
  fresh h hmem := by
    have hle := List.le_sum_of_mem (AList.mem_keys.mp hmem)
    omega

/-- `free`, which has no result at an address where nothing is allocated. -/
def free (h : Heap β) : Option Nat → Option (Heap β)
  | none => some h
  | some p => if p ∈ h then some (h.erase p) else none

def Owns (h : Heap β) (ps : List Nat) : Prop := h.keys.Perm ps

variable {h : Heap β} {p q : Nat} {ps qs : List Nat} {b : β}

theorem owns_empty : Owns (∅ : Heap β) [] := .nil

theorem Owns.nodup (ho : Owns h ps) : ps.Nodup := ho.nodup_iff.mp h.keys_nodup

theorem Owns.mem_iff (ho : Owns h ps) : p ∈ h ↔ p ∈ ps :=
  AList.mem_keys.trans (List.Perm.mem_iff ho)

theorem Owns.perm (ho : Owns h ps) (hp : ps.Perm qs) : Owns h qs := List.Perm.trans ho hp

theorem Owns.alloc (ho : Owns h ps) (hp : p ∉ h) : Owns (h.insert p b) (p :: ps) := by
  rw [Owns, AList.keys_insert, List.erase_of_not_mem fun hm => hp (AList.mem_keys.mpr hm)]
  exact List.Perm.cons p ho

theorem Owns.store (ho : Owns h ps) (hp : p ∈ h) : Owns (h.insert p b) ps := by
  rw [Owns, AList.keys_insert]
  exact (List.perm_cons_erase (AList.mem_keys.mp hp)).symm.trans ho

theorem Owns.erase (ho : Owns h (p :: ps)) : Owns (h.erase p) ps := by
  rw [Owns, AList.keys_erase]
  have hperm := List.Perm.erase p ho
  rwa [List.erase_cons_head] at hperm

theorem Owns.free (ho : Owns h (p :: ps)) : free h (some p) = some (h.erase p) :=
  if_pos (ho.mem_iff.mpr List.mem_cons_self)

theorem Owns.eq_empty_iff (ho : Owns h ps) : h = ∅ ↔ ps = [] := by
  constructor
  · rintro rfl
    exact List.Perm.nil_eq ho ▸ rfl
  · rintro rfl
    have hkeys : h.entries.map Sigma.fst = [] := List.Perm.eq_nil ho
    exact AList.ext (List.map_eq_nil_iff.mp hkeys)

end PingPong.Allocation
