import Mathlib.Algebra.Order.Floor.Semiring
import Mathlib.Data.Nat.Digits.Lemmas
import Mathlib.Data.Rat.Floor
import Mathlib.Tactic.FieldSimp
import Mathlib.Tactic.Linarith
import Mathlib.Tactic.Ring

namespace PingPong.Decimal

variable {n : Nat} {ds : List Nat} {cs : List Char}

def digit (n : Nat) : Char := Char.ofNat (48 + n)

def digitValue (c : Char) : Option Nat :=
  if 48 ≤ c.toNat ∧ c.toNat < 58 then some (c.toNat - 48) else none

theorem digit_toNat (h : n < 10) : (digit n).toNat = 48 + n := by
  have hv : (48 + n).isValidChar := .inl (by omega)
  rw [digit, Char.ofNat, dif_pos hv]
  rfl

theorem digitValue_digit (h : n < 10) : digitValue (digit n) = some n := by
  rw [digitValue, digit_toNat h, if_pos (by omega)]
  simp

theorem digit_ne {c : Char} (h : n < 10) (hc : digitValue c = none) : digit n ≠ c := by
  rintro rfl
  rw [digitValue_digit h] at hc
  cases hc

/-- The number that digits stand for, the first one counting most. -/
def ofDigits (ds : List Nat) : Nat := ds.foldl (fun n d => 10 * n + d) 0

theorem foldl_digits (n : Nat) (ds : List Nat) :
    ds.foldl (fun n d => 10 * n + d) n = n * 10 ^ ds.length + ofDigits ds := by
  induction ds generalizing n with
  | nil => simp [ofDigits]
  | cons d ds ih =>
    have h0 : ofDigits (d :: ds) = d * 10 ^ ds.length + ofDigits ds := by
      rw [ofDigits, List.foldl_cons, ih]
      ring
    rw [List.foldl_cons, ih, h0, List.length_cons, pow_succ]
    ring

theorem ofDigits_cons (d : Nat) (ds : List Nat) :
    ofDigits (d :: ds) = d * 10 ^ ds.length + ofDigits ds := by
  rw [ofDigits, List.foldl_cons, foldl_digits]
  ring

theorem ofDigits_lt (h : ∀ d ∈ ds, d < 10) : ofDigits ds < 10 ^ ds.length := by
  induction ds with
  | nil => simp [ofDigits]
  | cons d ds ih =>
    obtain ⟨hd, hds⟩ := List.forall_mem_cons.mp h
    have hlt := ih hds
    have hmul : d * 10 ^ ds.length ≤ 9 * 10 ^ ds.length := Nat.mul_le_mul_right _ (by omega)
    rw [ofDigits_cons, List.length_cons, pow_succ]
    omega

def digitsOf (n : Nat) : List Nat := if n = 0 then [0] else (Nat.digits 10 n).reverse

theorem digitsOf_ne_nil (n : Nat) : digitsOf n ≠ [] := by
  unfold digitsOf
  split_ifs with h
  · simp
  · simpa [Nat.digits_eq_nil_iff_eq_zero] using h

theorem digitsOf_lt (n : Nat) : ∀ d ∈ digitsOf n, d < 10 := by
  intro d hd
  unfold digitsOf at hd
  split_ifs at hd with h
  · simp_all
  · exact Nat.digits_lt_base (by omega) (List.mem_reverse.mp hd)

theorem ofDigits_digitsOf (n : Nat) : ofDigits (digitsOf n) = n := by
  unfold digitsOf
  split_ifs with h
  · simp [ofDigits, h]
  · have hfold := Nat.ofDigits_eq_foldr 10 (Nat.digits 10 n)
    rw [Nat.ofDigits_digits] at hfold
    rw [ofDigits, List.foldl_reverse]
    simpa [Nat.add_comm] using hfold.symm

theorem length_digitsOf_le_iff (n : Nat) {width : Nat} (hw : 0 < width) :
    (digitsOf n).length ≤ width ↔ n < 10 ^ width := by
  unfold digitsOf
  split_ifs with h
  · subst h
    exact iff_of_true hw (Nat.pow_pos (by decide))
  · rw [List.length_reverse, Nat.digits_length_le_iff (by decide)]

theorem ofDigits_eq_zero_iff : ofDigits ds = 0 ↔ ∀ d ∈ ds, d = 0 := by
  induction ds with
  | nil => simp [ofDigits]
  | cons d ds ih => simp [ofDigits_cons, ih]

def padded (width n : Nat) : List Nat := (digitsOf n).leftpad width 0

theorem ofDigits_padded (width n : Nat) : ofDigits (padded width n) = n := by
  have hzero (k : Nat) (ds : List Nat) : ofDigits (List.replicate k 0 ++ ds) = ofDigits ds := by
    induction k with
    | zero => rfl
    | succ k ih => simp [List.replicate_succ, ofDigits_cons, ih]
  rw [padded, List.leftpad, hzero, ofDigits_digitsOf]

theorem padded_lt (width n : Nat) : ∀ d ∈ padded width n, d < 10 := by
  intro d hd
  obtain hd | hd := List.mem_append.mp hd
  · rw [List.eq_of_mem_replicate hd]
    decide
  · exact digitsOf_lt n d hd

theorem length_padded {width : Nat} (hw : 0 < width) (h : n < 10 ^ width) :
    (padded width n).length = width := by
  rw [padded, List.length_leftpad, Nat.max_eq_left ((length_digitsOf_le_iff n hw).mpr h)]

def natural (cs : List Char) : Option Nat := (cs.mapM digitValue).map ofDigits

theorem natural_digits (h : ∀ d ∈ ds, d < 10) : natural (ds.map digit) = some (ofDigits ds) := by
  have hm : (ds.map digit).mapM digitValue = some ds := by
    induction ds with
    | nil => rfl
    | cons d ds ih =>
      obtain ⟨hd, hds⟩ := List.forall_mem_cons.mp h
      simp [List.mapM_cons, digitValue_digit hd, ih hds]
  rw [natural, hm]
  rfl

def splitAt (c : Char) (cs : List Char) : Option (List Char × List Char) :=
  match cs.dropWhile (· ≠ c) with
  | [] => none
  | _ :: rest => some (cs.takeWhile (· ≠ c), rest)

theorem splitAt_append {c : Char} {before after : List Char} (h : c ∉ before) :
    splitAt c (before ++ c :: after) = some (before, after) := by
  have hne : ∀ x ∈ before, decide (x ≠ c) = true := fun x hx =>
    decide_eq_true (by rintro rfl; exact h hx)
  have hdrop : (c :: after).dropWhile (· ≠ c) = c :: after := by simp
  have htake : (c :: after).takeWhile (· ≠ c) = [] := by simp
  rw [splitAt, List.dropWhile_append_of_pos hne, List.takeWhile_append_of_pos hne, hdrop, htake]
  simp

def numeral (places : Nat) (cs : List Char) : Option Rat := do
  let (whole, part) ← splitAt '.' cs
  if whole = [] ∨ part.length ≠ places then none
  else some ((← natural whole) + (← natural part) / 10 ^ places)

theorem not_mem_digits {c : Char} (hc : digitValue c = none) (h : ∀ d ∈ ds, d < 10) :
    c ∉ ds.map digit := by
  intro hm
  obtain ⟨d, hd, hdc⟩ := List.mem_map.mp hm
  exact digit_ne (h d hd) hc hdc

theorem numeral_digits {ip fp : List Nat} (hne : ip ≠ []) (hip : ∀ d ∈ ip, d < 10)
    (hfp : ∀ d ∈ fp, d < 10) : numeral fp.length (ip.map digit ++ '.' :: fp.map digit) =
      some ((ofDigits ip : Rat) + ofDigits fp / 10 ^ fp.length) := by
  have hdot : '.' ∉ ip.map digit := not_mem_digits (by decide) hip
  simp [numeral, splitAt_append hdot, natural_digits hip, natural_digits hfp, hne]

/-- Read a number with as many places as stand after its point. -/
def decimal (cs : List Char) : Option Rat := do
  let (_, part) ← splitAt '.' cs
  numeral part.length cs

theorem decimal_digits {ip fp : List Nat} (hne : ip ≠ []) (hip : ∀ d ∈ ip, d < 10)
    (hfp : ∀ d ∈ fp, d < 10) : decimal (ip.map digit ++ '.' :: fp.map digit) =
      some ((ofDigits ip : Rat) + ofDigits fp / 10 ^ fp.length) := by
  have hdot : '.' ∉ ip.map digit := not_mem_digits (by decide) hip
  have hnum := numeral_digits hne hip hfp
  simpa [decimal, splitAt_append hdot] using hnum

/-- Read a number, a space, and one of the units, which is told by its place. -/
def quantity (units : List (List Char)) (places : Nat) (cs : List Char) : Option (Rat × Nat) := do
  let (number, unit) ← splitAt ' ' cs
  some (← numeral places number, ← units.idxOf? unit)

theorem quantity_digits {ip fp : List Nat} {units : List (List Char)} {unit : List Char}
    {u : Nat} (hne : ip ≠ []) (hip : ∀ d ∈ ip, d < 10) (hfp : ∀ d ∈ fp, d < 10)
    (hu : units.idxOf? unit = some u) :
    quantity units fp.length (ip.map digit ++ '.' :: fp.map digit ++ ' ' :: unit) =
      some ((ofDigits ip : Rat) + ofDigits fp / 10 ^ fp.length, u) := by
  have hsp : ' ' ∉ ip.map digit ++ '.' :: fp.map digit := by
    simp only [List.mem_append, List.mem_cons, not_or]
    exact ⟨not_mem_digits (by decide) hip, by decide, not_mem_digits (by decide) hfp⟩
  rw [quantity, splitAt_append hsp]
  simp [numeral_digits hne hip hfp, hu]

def places : Nat → Rat → List Nat
  | 0, _ => []
  | d + 1, x => ⌊10 * x⌋₊ :: places d (10 * x - ⌊10 * x⌋₊)

@[simp] theorem length_places (d : Nat) (x : Rat) : (places d x).length = d := by
  induction d generalizing x with
  | zero => rfl
  | succ d ih => simp [places, ih]

theorem fract_nonneg {x : Rat} (h : 0 ≤ x) : 0 ≤ x - ⌊x⌋₊ := sub_nonneg.mpr (Nat.floor_le h)

theorem fract_lt_one (x : Rat) : x - ⌊x⌋₊ < 1 := by
  have h := Nat.lt_floor_add_one x
  linarith

theorem places_lt {d : Nat} {x : Rat} (h0 : 0 ≤ x) (h1 : x < 1) : ∀ n ∈ places d x, n < 10 := by
  induction d generalizing x with
  | zero => simp [places]
  | succ d ih =>
    refine List.forall_mem_cons.mpr ⟨?_, ih (fract_nonneg (by linarith)) (fract_lt_one _)⟩
    rw [Nat.floor_lt (by linarith)]
    push_cast
    linarith

/-- The places cut off stand for the fraction rounded down. -/
theorem ofDigits_places {d : Nat} {x : Rat} (h0 : 0 ≤ x) (h1 : x < 1) :
    ofDigits (places d x) = ⌊x * 10 ^ d⌋₊ := by
  induction d generalizing x with
  | zero => simpa [places, ofDigits] using (Nat.floor_eq_zero.mpr h1).symm
  | succ d ih =>
    have hy := fract_nonneg (x := 10 * x) (by linarith)
    have hsplit : x * 10 ^ (d + 1) =
        (10 * x - ⌊10 * x⌋₊) * 10 ^ d + (⌊10 * x⌋₊ * 10 ^ d : Nat) := by
      push_cast
      ring
    rw [places, ofDigits_cons, length_places, ih hy (fract_lt_one _), hsplit,
      Nat.floor_add_natCast (by positivity)]
    omega

end PingPong.Decimal
