import Mathlib.Tactic.IntervalCases
import PingPong.Decimal
import PingPong.FixedPoint

namespace PingPong.SubsecString

open Decimal FixedPoint

variable {size x : Rat} {dec_pts mult left b i : Nat}

def unit_strings_sub : List (List Char) :=
  [['s'], ['m', 's'], ['u', 's'], ['n', 's'], ['p', 's'], ['f', 's']]

def max_mult : Nat := unit_strings_sub.length

/-- `while ((size < 1.0L) && (mult < max_mult))`, where `left` is `max_mult - mult`. -/
def scale : (left : Nat) → (size : Rat) → (mult : Nat) → Rat × Nat
  | 0, size, mult => (size, mult)
  | left + 1, size, mult => if size < 1 then scale left (size * 1000) (mult + 1) else (size, mult)

/-- `(char)(f + '0')` -/
def toChar (f : Rat) : Char := Char.ofNat ⌊f + 48⌋₊

/-- `while (dec_pts-- > 0)` -/
def fraction : (dec_pts : Nat) → (size : Rat) → List Char
  | 0, _ => []
  | dec_pts + 1, size => toChar (size * 10) :: fraction dec_pts (size * 10 - truncl (size * 10))

def whole (size : Rat) (int_fp : IntegerFixedPoint) : List Char :=
  (if 100 ≤ int_fp.i then [digit (int_fp.i / 100 % 10)] else []) ++
    (if 10 ≤ size then [digit (int_fp.i / 10 % 10)] else []) ++ [digit (int_fp.i % 10)]

/-- `subsec_string`. No size is infinity, whose character is written byte by byte, and
the first `f_to_fp` is left out, as its result is overwritten. -/
def subsec_string (size : Option Rat) (dec_pts : Nat) : Option (List Char) := do
  let some size := size | some ['∞']
  let mult := if size ≤ 0 then max_mult else 0
  let (size, mult) := scale (max_mult - mult) size mult
  let (size, mult) := if max_mult ≤ mult then (0, 0) else (size, mult)
  let int_fp ← f_to_fp dec_pts size
  let point := if 0 < dec_pts then '.' :: fraction dec_pts (size - truncl size) else []
  some (whole size int_fp ++ point ++ ' ' :: unit_strings_sub.getD mult [])

example : subsec_string (some 83) 1 = some "83.0 s".toList := by decide +kernel

theorem scale_eq (mult : Nat) (h : 1 ≤ size * 1000 ^ b) (hb : b ≤ left) :
    ∃ k ≤ b, scale left size mult = (size * 1000 ^ k, mult + k) ∧ 1 ≤ size * 1000 ^ k ∧
      ∀ j < k, size * 1000 ^ j < 1 := by
  induction left generalizing size mult b with
  | zero =>
    obtain rfl : b = 0 := by omega
    exact ⟨0, le_rfl, by simp [scale], h, by simp⟩
  | succ left ih =>
    by_cases hs : size < 1
    · cases b with
      | zero => exact absurd (by simpa using h) (not_le.mpr hs)
      | succ b =>
        have hpow (k : Nat) : size * 1000 * 1000 ^ k = size * 1000 ^ (k + 1) := by ring
        obtain ⟨k, hk, heq, hone, hlt⟩ := ih (mult + 1) (b := b)
          (show 1 ≤ size * 1000 * 1000 ^ b by rw [hpow]; exact h) (by omega)
        refine ⟨k + 1, by omega, ?_, by rw [← hpow]; exact hone, ?_⟩
        · rw [scale, if_pos hs, heq, hpow, Nat.add_assoc, Nat.add_comm 1]
        · intro j hj
          cases j with
          | zero => simpa using hs
          | succ j =>
            rw [← hpow]
            exact hlt j (by omega)
    · exact ⟨0, by omega, by simp [scale, hs], by simpa using hs, by simp⟩

theorem toChar_eq (h : 0 ≤ x) : toChar x = digit ⌊x⌋₊ := by
  rw [toChar, digit, Nat.add_comm]
  congr 1
  exact_mod_cast Nat.floor_add_natCast h 48

theorem fraction_eq (dec_pts : Nat) (h : 0 ≤ x) :
    fraction dec_pts x = (places dec_pts x).map digit := by
  induction dec_pts generalizing x with
  | zero => rfl
  | succ d ih =>
    have hx : 0 ≤ x * 10 := by linarith
    rw [fraction, places, List.map_cons, toChar_eq hx, truncl_nonneg hx, mul_comm 10 x]
    exact congrArg _ (ih (fract_nonneg hx))

def wholeDigits (size : Rat) (i : Nat) : List Nat :=
  (if 100 ≤ i then [i / 100 % 10] else []) ++ (if 10 ≤ size then [i / 10 % 10] else []) ++ [i % 10]

theorem whole_eq (int_fp : IntegerFixedPoint) :
    whole size int_fp = (wholeDigits size int_fp.i).map digit := by
  simp only [whole, wholeDigits, List.map_append, apply_ite (List.map digit), List.map_cons,
    List.map_nil]

theorem wholeDigits_ne_nil : wholeDigits size i ≠ [] := by simp [wholeDigits]

theorem wholeDigits_lt (size : Rat) (i : Nat) : ∀ d ∈ wholeDigits size i, d < 10 := by
  intro d hd
  simp only [wholeDigits, List.mem_append, List.mem_ite_nil_right, List.mem_singleton] at hd
  omega

theorem ofDigits_wholeDigits_lt (size : Rat) (i : Nat) : ofDigits (wholeDigits size i) < 1000 := by
  have hlen : (wholeDigits size i).length ≤ 3 := by
    unfold wholeDigits
    split_ifs <;> simp
  exact (ofDigits_lt (wholeDigits_lt size i)).trans_le (Nat.pow_le_pow_right (by omega) hlen)

theorem ofDigits_wholeDigits (h : i < 1000) (hten : 10 ≤ i → 10 ≤ size) :
    ofDigits (wholeDigits size i) = i := by
  unfold wholeDigits
  split_ifs with h100 h10 h10 <;> simp [ofDigits] <;> grind

/-- Where rounding carries to one more digit, that digit is not printed. -/
theorem ofDigits_wholeDigits_zero (h : i = 1000 ∨ i = 10 ∧ size < 10) :
    ofDigits (wholeDigits size i) = 0 := by
  obtain rfl | ⟨rfl, hlt⟩ := h
  · unfold wholeDigits
    split_ifs <;> simp [ofDigits]
  · simp [wholeDigits, ofDigits, not_le.mpr hlt]

end PingPong.SubsecString
