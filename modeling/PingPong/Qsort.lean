import Mathlib.Data.List.Sort

namespace PingPong.Qsort

variable {α κ : Type} {xs ys : List α}

/-- A comparison function. It is given two elements with the addresses they have in the
array when it is called. -/
abbrev Compar (α : Type) := Nat × α → Nat × α → Int

structure StrictTotal (compar : Compar α) (xs : List α) : Prop where
  irrefl : ∀ x ∈ xs, ∀ p q, ¬ compar (p, x) (q, x) < 0
  trans : ∀ x ∈ xs, ∀ y ∈ xs, ∀ z ∈ xs, ∀ p q q' r,
    compar (p, x) (q, y) < 0 → compar (q', y) (r, z) < 0 → compar (p, x) (r, z) < 0
  total : ∀ x ∈ xs, ∀ y ∈ xs, x ≠ y → ∀ p q, compar (p, x) (q, y) < 0 ∨ compar (q, y) (p, x) < 0
  antisymm : ∀ x ∈ xs, ∀ y ∈ xs, x ≠ y → ∀ p q, 0 < compar (p, x) (q, y) ↔ compar (q, y) (p, x) < 0

def Before (compar : Compar α) (x y : α) : Prop := ∀ p q, compar (p, x) (q, y) < 0

/-- `qsort`, with the address of the array, sorts elements that differ if they are in a
strict total order. -/
def Sorts (qsort : Nat → Compar α → List α → List α) : Prop :=
  ∀ base compar xs, xs.Nodup → StrictTotal compar xs →
    (qsort base compar xs).Perm xs ∧ (qsort base compar xs).Pairwise (Before compar)

theorem StrictTotal.perm {compar : Compar α} (h : StrictTotal compar xs) (hp : xs.Perm ys) :
    StrictTotal compar ys where
  irrefl x hx := h.irrefl x (hp.mem_iff.mpr hx)
  trans x hx y hy z hz :=
    h.trans x (hp.mem_iff.mpr hx) y (hp.mem_iff.mpr hy) z (hp.mem_iff.mpr hz)
  total x hx y hy := h.total x (hp.mem_iff.mpr hx) y (hp.mem_iff.mpr hy)
  antisymm x hx y hy := h.antisymm x (hp.mem_iff.mpr hx) y (hp.mem_iff.mpr hy)

theorem StrictTotal.asymm {compar : Compar α} (h : StrictTotal compar xs) {x y : α} (hx : x ∈ xs)
    (hy : y ∈ xs) {p q p' q' : Nat} (hxy : compar (p, x) (q, y) < 0) :
    ¬ compar (q', y) (p', x) < 0 := fun hyx =>
  h.irrefl x hx p p' (h.trans x hx y hy x hx p q q' p' hxy hyx)

theorem StrictTotal.before {compar : Compar α} (h : StrictTotal compar xs) {x y : α} (hx : x ∈ xs)
    (hy : y ∈ xs) (hne : x ≠ y) {p q : Nat} (hxy : ¬ compar (q, y) (p, x) < 0) :
    Before compar x y := fun p' q' =>
  have hlt := (h.total x hx y hy hne p q).resolve_right hxy
  (h.total x hx y hy hne p' q').resolve_right (h.asymm hx hy hlt)

theorem strictTotal_of_key [LinearOrder κ] {compar : Compar α} (key : α → κ)
    (hlt : ∀ x y p q, compar (p, x) (q, y) < 0 ↔ key x < key y)
    (hgt : ∀ x y p q, key x ≠ key y → (0 < compar (p, x) (q, y) ↔ key y < key x))
    (hne : ∀ x ∈ xs, ∀ y ∈ xs, x ≠ y → key x ≠ key y) : StrictTotal compar xs where
  irrefl x _ p q h := lt_irrefl _ ((hlt x x p q).mp h)
  trans x _ y _ z _ p q q' r hxy hyz :=
    (hlt x z p r).mpr (((hlt x y p q).mp hxy).trans ((hlt y z q' r).mp hyz))
  total x hx y hy hxy p q := by
    rw [hlt, hlt]
    exact lt_or_gt_of_ne (hne x hx y hy hxy)
  antisymm x hx y hy hxy p q := by rw [hgt x y p q (hne x hx y hy hxy), hlt]

theorem Sorts.eq_of_pairwise {qsort : Nat → Compar α → List α → List α} (h : Sorts qsort)
    {compar : Compar α} (hn : xs.Nodup) (ht : StrictTotal compar xs) (hp : ys.Perm xs)
    (hs : ys.Pairwise (Before compar)) (base : Nat) : qsort base compar xs = ys := by
  obtain ⟨hperm, hsorted⟩ := h base compar xs hn ht
  refine List.Perm.eq_of_pairwise (fun x y hx hy hxy hyx => ?_) hsorted hs (hperm.trans hp.symm)
  exact absurd (hyx 0 0) (ht.asymm (hperm.mem_iff.mp hx) (hp.mem_iff.mp hy) (hxy 0 0))

theorem Sorts.eq_of_perm {qsort : Nat → Compar α → List α → List α} (h : Sorts qsort)
    {compar : Compar α} (hn : xs.Nodup) (ht : StrictTotal compar xs) (hp : xs.Perm ys)
    (base base' : Nat) : qsort base compar xs = qsort base' compar ys := by
  obtain ⟨hperm, hsorted⟩ := h base' compar ys (hp.nodup_iff.mp hn) (ht.perm hp)
  exact h.eq_of_pairwise hn ht (hperm.trans hp.symm) hsorted base

def mergesort (base : Nat) (compar : Compar α) (xs : List α) : List α :=
  xs.mergeSort fun x y => decide (¬ compar (base, y) (base, x) < 0)

theorem sorts_mergesort : Sorts (mergesort (α := α)) := by
  intro base compar xs hn ht
  let le (x y : α) : Bool := decide (¬ compar (base, y) (base, x) < 0)
  have hperm : (mergesort base compar xs).Perm xs := List.mergeSort_perm xs _
  have hattach : (xs.attach.mergeSort fun x y => le x y).map Subtype.val =
      mergesort base compar xs := by
    rw [List.map_mergeSort (s := le) fun _ _ _ _ => rfl, List.attach_map_subtype_val]
    rfl
  have hle : (mergesort base compar xs).Pairwise fun x y => ¬ compar (base, y) (base, x) < 0 := by
    rw [← hattach, List.pairwise_map]
    refine (List.pairwise_mergeSort (fun x y z hxy hyz => ?_) (fun x y => ?_) _).imp fun h =>
      of_decide_eq_true h
    · have hxy := of_decide_eq_true hxy
      have hyz := of_decide_eq_true hyz
      refine decide_eq_true fun hzx => ?_
      by_cases hne : y.1 = x.1
      · exact hyz (hne ▸ hzx)
      · obtain hyx | hxy' := ht.total y y.2 x x.2 hne base base
        · exact hxy hyx
        · exact hyz (ht.trans z z.2 x x.2 y y.2 base base base base hzx hxy')
    · have htotal : ¬ (compar (base, y.1) (base, x.1) < 0 ∧ compar (base, x.1) (base, y.1) < 0) :=
        fun h => ht.asymm y.2 x.2 h.1 h.2
      simpa [le, imp_iff_not_or] using not_and_or.mp htotal
  refine ⟨hperm, (hle.and (hperm.nodup_iff.mpr hn)).imp_of_mem fun hx hy h => ?_⟩
  exact ht.before (hperm.mem_iff.mp hx) (hperm.mem_iff.mp hy) h.2 h.1

end PingPong.Qsort
