import Mathlib.Algebra.Order.Floor.Semifield
import Mathlib.Data.Rat.Floor
import Mathlib.Tactic.FieldSimp
import Mathlib.Tactic.Linarith
import Mathlib.Tactic.Positivity

namespace PingPong.FixedPoint

variable {prec : Nat} {f : Rat}

structure IntegerFixedPoint where
  prec : Nat
  i : Nat
  dec : Nat
deriving DecidableEq, Repr

/-- The nearest integer, and of two the one farther from 0. What a `long long` does
not hold gives its least value, as on x86-64. -/
def llroundl (f : Rat) : Int :=
  let i := if f < 0 then -⌊1 / 2 - f⌋ else ⌊f + 1 / 2⌋
  if -2 ^ 63 ≤ i ∧ i < 2 ^ 63 then i else -2 ^ 63

def truncl (f : Rat) : Int := if f < 0 then -⌊-f⌋ else ⌊f⌋

/-- `f_to_fp`, or none where an `unsigned long` does not hold the power of ten. -/
def f_to_fp (prec : Nat) (f : Rat) : Option IntegerFixedPoint :=
  let mult : Nat := 10 ^ prec
  let i2 := (llroundl (f * (mult : Rat))).natAbs
  if mult < 2 ^ 64 then some ⟨prec, i2 / mult, i2 - i2 / mult * mult⟩ else none

theorem llroundl_nonneg (h : 0 ≤ f) (hlt : f + 1 / 2 < 2 ^ 63) : llroundl f = ⌊f + 1 / 2⌋₊ := by
  have hcast : ((⌊f + 1 / 2⌋₊ : Nat) : Int) = ⌊f + 1 / 2⌋ :=
    Int.natCast_floor_eq_floor (by linarith)
  have hle : (0 : Int) ≤ ⌊f + 1 / 2⌋ := Int.floor_nonneg.mpr (by linarith)
  have hub : ⌊f + 1 / 2⌋ < 2 ^ 63 := by
    rw [Int.floor_lt]
    exact_mod_cast hlt
  rw [llroundl, if_neg (not_lt.mpr h), if_pos ⟨by omega, hub⟩, hcast]

theorem truncl_nonneg (h : 0 ≤ f) : truncl f = ⌊f⌋₊ := by
  rw [truncl, if_neg (not_lt.mpr h), Int.natCast_floor_eq_floor h]

theorem f_to_fp_eq (hp : 10 ^ prec < 2 ^ 64) : ∃ fp, f_to_fp prec f = some fp :=
  ⟨_, if_pos hp⟩

theorem f_to_fp_i {fp : IntegerFixedPoint} (h : 0 ≤ f) (hlt : f * 10 ^ prec + 1 / 2 < 2 ^ 63)
    (hfp : f_to_fp prec f = some fp) : fp.i = ⌊f + 1 / (2 * 10 ^ prec)⌋₊ := by
  have hround : llroundl (f * (10 ^ prec : Nat)) = ⌊f * 10 ^ prec + 1 / 2⌋₊ := by
    push_cast
    exact llroundl_nonneg (by positivity) hlt
  have hdiv : f + 1 / (2 * 10 ^ prec) = (f * 10 ^ prec + 1 / 2) / (10 ^ prec : Nat) := by
    push_cast
    field_simp
  rw [hdiv, Nat.floor_div_natCast]
  rw [f_to_fp, Option.ite_none_right_eq_some] at hfp
  have hi := congrArg IntegerFixedPoint.i (Option.some.inj hfp.2)
  simpa only [hround, Int.natAbs_natCast] using hi.symm

theorem f_to_fp_dec {fp : IntegerFixedPoint} (hfp : f_to_fp prec f = some fp) :
    fp.dec = (llroundl (f * 10 ^ prec)).natAbs % 10 ^ prec := by
  rw [f_to_fp, Option.ite_none_right_eq_some] at hfp
  obtain rfl := Option.some.inj hfp.2
  have hdiv := Nat.div_add_mod' (llroundl (f * (10 ^ prec : Nat))).natAbs (10 ^ prec)
  rw [Nat.cast_pow, Nat.cast_ofNat] at hdiv ⊢
  dsimp only
  omega

theorem f_to_fp_eq_some_iff : (∃ fp, f_to_fp prec f = some fp) ↔ prec ≤ 19 := by
  have hpow : 10 ^ prec < 2 ^ 64 ↔ prec ≤ 19 := by
    refine ⟨fun h => ?_, fun h => ?_⟩
    · by_contra hlt
      have hle : 10 ^ 20 ≤ 10 ^ prec := Nat.pow_le_pow_right (by omega) (by omega)
      omega
    · have hle : 10 ^ prec ≤ 10 ^ 19 := Nat.pow_le_pow_right (by omega) h
      omega
  rw [← hpow]
  refine ⟨fun ⟨fp, h⟩ => (Option.ite_none_right_eq_some.mp h).1, f_to_fp_eq⟩

theorem llroundl_natAbs (h : 0 ≤ f) (hlt : f < 2 ^ 63) : ((llroundl f).natAbs : Int) = round f := by
  have hround : round f = ⌊f + 1 / 2⌋ := round_eq f
  have hle : (0 : Int) ≤ ⌊f + 1 / 2⌋ := Int.floor_nonneg.mpr (by linarith)
  have hub : ⌊f + 1 / 2⌋ < 2 ^ 63 + 1 := by
    rw [Int.floor_lt]
    push_cast
    linarith
  rw [llroundl, if_neg (not_lt.mpr h), hround]
  split_ifs <;> omega

theorem f_to_fp_round {fp : IntegerFixedPoint} (h : 0 ≤ f) (hlt : f * 10 ^ prec < 2 ^ 63)
    (hfp : f_to_fp prec f = some fp) :
    fp.dec < 10 ^ prec ∧ ((fp.i * 10 ^ prec + fp.dec : Nat) : Int) = round (f * 10 ^ prec) := by
  have hround : ((llroundl (f * (10 ^ prec : Nat))).natAbs : Int) = round (f * 10 ^ prec) := by
    rw [Nat.cast_pow, Nat.cast_ofNat]
    exact llroundl_natAbs (by positivity) hlt
  rw [f_to_fp, Option.ite_none_right_eq_some] at hfp
  obtain rfl := Option.some.inj hfp.2
  have hdiv := Nat.div_add_mod' (llroundl (f * (10 ^ prec : Nat))).natAbs (10 ^ prec)
  have hmod := Nat.mod_lt (llroundl (f * (10 ^ prec : Nat))).natAbs
    (show 0 < 10 ^ prec by positivity)
  refine ⟨by dsimp only; omega, ?_⟩
  rw [← hround]
  dsimp only
  congr 1
  omega

end PingPong.FixedPoint
