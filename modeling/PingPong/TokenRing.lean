import Mathlib.Data.List.Basic
import Mathlib.Algebra.Ring.Parity
import PingPong.TransitionSystem

namespace PingPong.TokenRing

open TransitionSystem

variable {P : Type}

/-- One token among parties that hand it to their successors. Between the two
it is on its way. -/
inductive Token (P : Type)
  | held (p : P)
  | passed (p : P)
deriving DecidableEq

inductive Move (P : Type)
  | pass (p : P)
  | take (p : P)
deriving DecidableEq

def Token.passer (succ : P → P) : Token P → P
  | .held p => p
  | .passed p => succ p

def next [DecidableEq P] (succ : P → P) : Move P → Token P → Option (Token P)
  | .pass p, .held q => if p = q then some (.passed q) else none
  | .take p, .passed q => if p = succ q then some (.held p) else none
  | _, _ => none

def ring [DecidableEq P] (succ : P → P) (start : Token P) : System (Token P) (Move P) :=
  ⟨(· = start), next succ⟩

def passes (tr : List (Move P)) : List P :=
  tr.filterMap fun | .pass p => some p | .take _ => none

def takes (tr : List (Move P)) : List P :=
  tr.filterMap fun | .take p => some p | .pass _ => none

@[simp] theorem passes_pass (tr : List (Move P)) (p : P) :
    passes (tr ++ [.pass p]) = passes tr ++ [p] := by simp [passes]

@[simp] theorem passes_take (tr : List (Move P)) (p : P) :
    passes (tr ++ [.take p]) = passes tr := by simp [passes]

@[simp] theorem takes_pass (tr : List (Move P)) (p : P) :
    takes (tr ++ [.pass p]) = takes tr := by simp [takes]

@[simp] theorem takes_take (tr : List (Move P)) (p : P) :
    takes (tr ++ [.take p]) = takes tr ++ [p] := by simp [takes]

variable [DecidableEq P] {succ : P → P} {start t t' : Token P} {tr : List (Move P)}

inductive Step (succ : P → P) : Move P → Token P → Token P → Prop
  | pass (p : P) : Step succ (.pass p) (.held p) (.passed p)
  | take (p : P) : Step succ (.take (succ p)) (.passed p) (.held (succ p))

theorem next_iff {m : Move P} : next succ m t = some t' ↔ Step succ m t t' := by
  constructor
  · intro h
    cases m <;> cases t <;> simp only [next, Option.ite_none_right_eq_some, Option.some.injEq,
      reduceCtorEq] at h
    · obtain ⟨rfl, rfl⟩ := h
      exact .pass _
    · obtain ⟨rfl, rfl⟩ := h
      exact .take _
  · rintro (p | p) <;> simp [next]

theorem ring_pass (p : P) : (ring succ start).next (.pass p) (.held p) = some (.passed p) :=
  if_pos rfl

theorem ring_take {p q : P} (h : succ q = p) :
    (ring succ start).next (.take p) (.passed q) = some (.held p) := if_pos h.symm

/-- The passes are the orbit of the party that passes first. -/
theorem passes_eq_orbit (h : Run (ring succ start) tr t) :
    passes tr = (List.range (passes tr).length).map (succ^[·] (start.passer succ)) ∧
      t.passer succ = succ^[(passes tr).length] (start.passer succ) := by
  induction h with
  | nil hs =>
    cases hs
    exact ⟨rfl, rfl⟩
  | @snoc tr _ _ _ _ hn ih =>
    obtain ⟨hp, ht⟩ := ih
    cases next_iff.mp hn with
    | pass p =>
      have hlen : (passes (tr ++ [.pass p])).length = (passes tr).length + 1 := by simp
      constructor
      · rw [hlen, List.range_succ, List.map_append, ← hp, List.map_singleton, ← ht, passes_pass]
        rfl
      · rw [hlen, Function.iterate_succ_apply', ← ht]
        rfl
    | take p =>
      rw [passes_take]
      exact ⟨hp, ht⟩

theorem passes_alternate (hs : Function.Involutive succ) (h : Run (ring succ start) tr t) {n : Nat}
    {p : P} (hp : (passes tr)[n]? = some p) :
    p = if n % 2 = 0 then start.passer succ else succ (start.passer succ) := by
  obtain ⟨hn, rfl⟩ := List.getElem?_eq_some_iff.mp hp
  rw [List.getElem_of_eq (passes_eq_orbit h).1, List.getElem_map, List.getElem_range]
  by_cases hn2 : n % 2 = 0
  · rw [if_pos hn2, hs.iterate_even (Nat.even_iff.mpr hn2), id]
  · rw [if_neg hn2, hs.iterate_odd (Nat.odd_iff.mpr (by omega))]

theorem count_takes (h : Run (ring succ start) tr t) (p : P) :
    (takes tr).count p + (if start = .held p then 1 else 0) =
      (passes tr).count p + (if t = .held p then 1 else 0) := by
  induction h with
  | nil hs =>
    cases hs
    rfl
  | snoc _ hn ih =>
    cases next_iff.mp hn with
    | pass q => by_cases hq : q = p <;> simp_all [List.count_append]
    | take q =>
      have hne : Token.passed q ≠ .held p := nofun
      rw [if_neg hne] at ih
      by_cases hq : succ q = p <;> simp [List.count_append, hq] <;> omega

theorem count_passes (hs : Function.Injective succ) {q : P} (h : Run (ring succ (.held q)) tr t)
    (p : P) :
    (passes tr).count p = (takes tr).count (succ p) + if t = .passed p then 1 else 0 := by
  induction h with
  | nil hs =>
    cases hs
    rfl
  | snoc _ hn ih =>
    cases next_iff.mp hn with
    | pass r => by_cases hr : r = p <;> simp_all [List.count_append]
    | take r => by_cases hr : r = p <;> simp_all [List.count_append, hs.eq_iff]

omit [DecidableEq P] in
theorem length_eq (tr : List (Move P)) : tr.length = (passes tr).length + (takes tr).length := by
  induction tr with
  | nil => rfl
  | cons m tr ih => cases m <;> simp [passes, takes] at ih ⊢ <;> omega

theorem length_le (hs : Function.Involutive succ) {q : P} (h : Run (ring succ (.held q)) tr t)
    {p : P} (hp : ∀ r, r = p ∨ r = succ p) : tr.length ≤ 4 * (takes tr).count p + 6 := by
  have hlen : ∀ l : List P, l.length ≤ l.count p + l.count (succ p) := fun l => by
    induction l with
    | nil => simp
    | cons r l ih => obtain rfl | rfl := hp r <;> simp [List.count_cons] <;> omega
  have hpasses := hlen (passes tr)
  have htakes := hlen (takes tr)
  have ht := count_takes h (succ p)
  have hp := count_passes hs.injective h p
  have hp' := count_passes hs.injective h (succ p)
  rw [hs] at hp'
  have hif : ∀ (c : Prop) [Decidable c], (if c then 1 else 0) ≤ 1 := fun c _ => by
    split <;> omega
  have h1 := hif (t = .held (succ p))
  have h2 := hif (t = .passed p)
  have h3 := hif (t = .passed (succ p))
  rw [length_eq]
  omega

end PingPong.TokenRing
