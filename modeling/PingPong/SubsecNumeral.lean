import Mathlib.Tactic.NormNum
import PingPong.SubsecString

namespace PingPong.SubsecNumeral

open Decimal FixedPoint SubsecString

variable {size x : Rat} {dec_pts u v i : Nat}

def unit (u : Nat) : Rat := 1 / 1000 ^ u

structure LargestUnit (size : Rat) (u : Nat) : Prop where
  listed : u < max_mult
  le : unit u ≤ size
  largest : ∀ v < max_mult, unit v ≤ size → unit v ≤ unit u

/-- The string is a number of the unit `u`, and right but for one last place. -/
def Right (size : Rat) (dec_pts u : Nat) : Prop :=
  ∃ string N, subsec_string (some size) dec_pts = some string ∧
    quantity unit_strings_sub dec_pts string = some (N, u) ∧
    |N * unit u - size| ≤ 1 / 10 ^ dec_pts * unit u

theorem unit_pos (u : Nat) : 0 < unit u := by
  unfold unit
  positivity

theorem unit_le (h : u ≤ v) : unit v ≤ unit u :=
  one_div_pow_le_one_div_pow_of_le (by norm_num) h

theorem unit_le_iff : unit u ≤ size ↔ 1 ≤ size * 1000 ^ u := by
  rw [unit, div_le_iff₀ (by positivity)]

theorem div_unit (size : Rat) (u : Nat) : size / unit u = size * 1000 ^ u := by
  rw [unit, div_div_eq_mul_div, div_one]

theorem abs_mul_unit_le (N e : Rat) :
    |N * unit u - size| ≤ e * unit u ↔ |N - size / unit u| ≤ e := by
  have hu := unit_pos u
  have hmul : N * unit u - size = (N - size / unit u) * unit u := by
    rw [sub_mul, div_mul_cancel₀ _ hu.ne']
  rw [hmul, abs_mul, abs_of_pos hu, mul_le_mul_iff_left₀ hu]

/-- What is written of a size: the digits before the point are those of the size once
rounded, and the digits after it those of the size itself. -/
theorem subsec_string_eq (h : 1 / 10 ^ 15 ≤ size) (hdec : 0 < dec_pts)
    (hprec : 10 ^ dec_pts < 2 ^ 64) :
    ∃ u int_fp, LargestUnit size u ∧ f_to_fp dec_pts (size / unit u) = some int_fp ∧
      subsec_string (some size) dec_pts =
        some ((wholeDigits (size / unit u) int_fp.i).map digit ++
          '.' :: (places dec_pts (size / unit u - ⌊size / unit u⌋₊)).map digit ++
          ' ' :: unit_strings_sub.getD u []) := by
  have hpos : 0 < size := lt_of_lt_of_le (by positivity) h
  have hscale : 1 ≤ size * 1000 ^ 5 := by linarith
  obtain ⟨u, hu, heq, hone, hlt⟩ := scale_eq 0 hscale (by decide : 5 ≤ max_mult)
  obtain ⟨int_fp, hfp⟩ := f_to_fp_eq (f := size * 1000 ^ u) hprec
  have hx : 0 ≤ size * 1000 ^ u := by positivity
  have hmult : ¬ max_mult ≤ u := by
    rw [max_mult, unit_strings_sub]
    simp only [List.length_cons, List.length_nil]
    omega
  refine ⟨u, int_fp, ⟨by omega, unit_le_iff.mpr hone, fun v _ hv => ?_⟩, ?_, ?_⟩
  · apply unit_le
    by_contra hvu
    exact absurd (unit_le_iff.mp hv) (not_le.mpr (hlt v (by omega)))
  · rw [div_unit, hfp]
  · have hfrac := fraction_eq dec_pts (fract_nonneg hx)
    rw [div_unit]
    simp only [subsec_string, if_neg (not_le.mpr hpos), Nat.sub_zero, heq, Nat.zero_add,
      if_neg hmult, hfp, if_pos hdec, whole_eq, truncl_nonneg hx, Int.cast_natCast, hfrac,
      Option.bind_eq_bind, Option.bind_some, List.append_assoc]

theorem places_bounds (h : 0 ≤ x) (d : Nat) :
    (⌊(x - ⌊x⌋₊) * 10 ^ d⌋₊ : Rat) / 10 ^ d ≤ x - ⌊x⌋₊ ∧
      x - ⌊x⌋₊ < (⌊(x - ⌊x⌋₊) * 10 ^ d⌋₊ : Rat) / 10 ^ d + 1 / 10 ^ d := by
  have hM : (0 : Rat) < 10 ^ d := by positivity
  have hle := Nat.floor_le (mul_nonneg (fract_nonneg h) hM.le)
  have hlt := Nat.lt_floor_add_one ((x - ⌊x⌋₊) * 10 ^ d)
  rw [← add_div, div_le_iff₀ hM, lt_div_iff₀ hM]
  exact ⟨hle, hlt⟩

theorem floor_add_of_lt {e : Rat} (h : 0 ≤ x) (he : 0 ≤ e) (hr : x - ⌊x⌋₊ < 1 - e) :
    ⌊x + e⌋₊ = ⌊x⌋₊ := by
  have hle := Nat.floor_le h
  rw [Nat.floor_eq_iff (by linarith)]
  constructor <;> linarith

theorem floor_add_of_le {e : Rat} (he : e < 1) (hr : 1 - e ≤ x - ⌊x⌋₊) :
    ⌊x + e⌋₊ = ⌊x⌋₊ + 1 := by
  have hlt := Nat.lt_floor_add_one x
  rw [Nat.floor_eq_iff (by linarith)]
  push_cast
  constructor <;> linarith

theorem whole_cases {e : Rat} (h : 0 ≤ x) (he : 0 ≤ e) (he1 : e < 1) (hlt : x < 1000)
    (hi : i = ⌊x + e⌋₊) : (x - ⌊x⌋₊ < 1 - e ∧ ofDigits (wholeDigits x i) = ⌊x⌋₊) ∨
      (1 - e ≤ x - ⌊x⌋₊ ∧ (ofDigits (wholeDigits x i) = ⌊x⌋₊ + 1 ∨
        9 ≤ ⌊x⌋₊ ∧ ofDigits (wholeDigits x i) = 0)) := by
  have hn : ⌊x⌋₊ < 1000 := (Nat.floor_lt h).mpr hlt
  have hten (hle : 10 ≤ ⌊x⌋₊) : 10 ≤ x := by exact_mod_cast (Nat.le_floor_iff h).mp hle
  by_cases hr : x - ⌊x⌋₊ < 1 - e
  · rw [floor_add_of_lt h he hr] at hi
    exact .inl ⟨hr, hi ▸ ofDigits_wholeDigits (by omega) (fun hle => hten (hi ▸ hle))⟩
  · rw [floor_add_of_le he1 (not_lt.mp hr)] at hi
    refine .inr ⟨not_lt.mp hr, ?_⟩
    by_cases h9 : ⌊x⌋₊ = 9
    · have hx10 : x < 10 := by exact_mod_cast (Nat.floor_lt h).mp (by omega : ⌊x⌋₊ < 10)
      exact .inr ⟨by omega, ofDigits_wholeDigits_zero (.inr ⟨by omega, hx10⟩)⟩
    by_cases h999 : ⌊x⌋₊ = 999
    · exact .inr ⟨by omega, ofDigits_wholeDigits_zero (.inl (by omega))⟩
    · exact .inl (hi ▸ ofDigits_wholeDigits (by omega) (fun hle => hten (by omega)))

theorem abs_printed_le_iff (h : 1 ≤ x) (hdec : 0 < dec_pts)
    (hi : x < 1000 → i = ⌊x + 1 / (2 * 10 ^ dec_pts)⌋₊) :
    |((ofDigits (wholeDigits x i) : Rat) + ⌊(x - ⌊x⌋₊) * 10 ^ dec_pts⌋₊ / 10 ^ dec_pts) - x| ≤
        1 / 10 ^ dec_pts ↔
      x < 1000 ∧ x - ⌊x⌋₊ < 1 - 1 / (2 * 10 ^ dec_pts) := by
  have hx : 0 ≤ x := by linarith
  obtain ⟨hle, hlt⟩ := places_bounds hx dec_pts
  have hM : (10 : Rat) ≤ 10 ^ dec_pts := le_self_pow₀ (by norm_num) (by omega)
  have hlast : (1 : Rat) / 10 ^ dec_pts ≤ 1 / 10 := one_div_le_one_div_of_le (by norm_num) hM
  have hhalf : (1 : Rat) / (2 * 10 ^ dec_pts) = 1 / 10 ^ dec_pts / 2 := by field_simp
  have hpos : (0 : Rat) < 1 / 10 ^ dec_pts := by positivity
  generalize (⌊(x - ⌊x⌋₊) * 10 ^ dec_pts⌋₊ : Rat) / 10 ^ dec_pts = f at *
  generalize (1 : Rat) / 10 ^ dec_pts = e at *
  rw [hhalf] at hi ⊢
  rw [abs_le]
  by_cases hlarge : 1000 ≤ x
  · have hP : (ofDigits (wholeDigits x i) : Rat) + 1 ≤ 1000 := by
      exact_mod_cast ofDigits_wholeDigits_lt x i
    have hn : 1000 ≤ ⌊x⌋₊ := Nat.le_floor (by exact_mod_cast hlarge)
    have hn' : (1000 : Rat) ≤ ⌊x⌋₊ := by exact_mod_cast hn
    constructor
    · rintro ⟨hlo, -⟩
      linarith
    · rintro ⟨hlt', -⟩
      linarith
  · obtain ⟨hr, hP⟩ | ⟨hr, hP | ⟨h9, hP⟩⟩ :=
      whole_cases hx (by linarith) (by linarith) (not_le.mp hlarge) (hi (not_le.mp hlarge))
    · rw [hP]
      exact ⟨fun _ => ⟨not_le.mp hlarge, hr⟩, fun _ => ⟨by linarith, by linarith⟩⟩
    · rw [hP]
      push_cast
      exact ⟨fun hb => by linarith [hb.2], fun hb => by linarith [hb.2]⟩
    · have hn : (9 : Rat) ≤ ⌊x⌋₊ := by exact_mod_cast h9
      rw [hP]
      push_cast
      exact ⟨fun hb => by linarith [hb.1], fun hb => by linarith [hb.2]⟩

theorem idxOf_unit_strings (h : u < max_mult) :
    unit_strings_sub.idxOf? (unit_strings_sub.getD u []) = some u := by
  revert u
  decide

/-- Every size from 10^-15 on is printed in its largest unit, and right if and only if
it is less than 1000 of them and its fraction does not round to 1. -/
theorem subsec_string_right (h : 1 / 10 ^ 15 ≤ size) (hdec : dec_pts = 1 ∨ dec_pts = 2) :
    ∃ u, LargestUnit size u ∧
      (Right size dec_pts u ↔
        size / unit u < 1000 ∧ Int.fract (size / unit u) < 1 - 1 / (2 * 10 ^ dec_pts)) := by
  have hpos : 0 < dec_pts := by omega
  have hprec : 10 ^ dec_pts ≤ 100 := by obtain rfl | rfl := hdec <;> norm_num
  obtain ⟨u, int_fp, hu, hfp, hstring⟩ := subsec_string_eq h hpos (by omega)
  refine ⟨u, hu, ?_⟩
  have hone : 1 ≤ size / unit u := by
    rw [div_unit]
    exact unit_le_iff.mp hu.le
  have hx : 0 ≤ size / unit u := by linarith
  have hfract : Int.fract (size / unit u) = size / unit u - ⌊size / unit u⌋₊ := by
    rw [Int.fract, natCast_floor_eq_intCast_floor hx]
  have hi (hlt : size / unit u < 1000) :
      int_fp.i = ⌊size / unit u + 1 / (2 * 10 ^ dec_pts)⌋₊ := by
    have hM : (10 : Rat) ^ dec_pts ≤ 100 := by exact_mod_cast hprec
    exact f_to_fp_i hx (by nlinarith) hfp
  have hread := quantity_digits wholeDigits_ne_nil (wholeDigits_lt (size / unit u) int_fp.i)
    (places_lt (d := dec_pts) (fract_nonneg hx) (fract_lt_one _)) (idxOf_unit_strings hu.listed)
  rw [length_places, ofDigits_places (fract_nonneg hx) (fract_lt_one _)] at hread
  rw [hfract, ← abs_printed_le_iff hone hpos hi, ← abs_mul_unit_le]
  constructor
  · rintro ⟨string, N, hs, hq, hN⟩
    obtain rfl := Option.some.inj (hstring.symm.trans hs)
    obtain ⟨rfl, -⟩ := Prod.mk.inj (Option.some.inj (hread.symm.trans hq))
    exact hN
  · intro hN
    exact ⟨_, _, hstring, hread, hN⟩

theorem subsec_string_right_run_time : ∃ u, LargestUnit 83 u ∧
    (Right 83 1 u ↔ 83 / unit u < 1000 ∧ Int.fract (83 / unit u) < 1 - 1 / (2 * 10 ^ 1)) :=
  subsec_string_right (by norm_num) (.inl rfl)

theorem not_right {string : List Char} {N : Rat}
    (hs : subsec_string (some size) dec_pts = some string)
    (hq : quantity unit_strings_sub dec_pts string = some (N, v))
    (hfar : 1 / 10 ^ dec_pts * unit v < |N * unit v - size|) :
    ¬ ∃ u, LargestUnit size u ∧ Right size dec_pts u := by
  rintro ⟨u, -, string', N', hs', hq', hN⟩
  obtain rfl := Option.some.inj (hs.symm.trans hs')
  obtain ⟨rfl, rfl⟩ := Prod.mk.inj (Option.some.inj (hq.symm.trans hq'))
  exact absurd hN (not_le.mpr hfar)

/-- What is printed of 9.96 is "0.9 s", and of 1000 it is "000.0 s". -/
theorem subsec_string_wrong :
    (1 / 10 ^ 15 ≤ (249 / 25 : Rat) ∧ ¬ ∃ u, LargestUnit (249 / 25) u ∧ Right (249 / 25) 1 u) ∧
      1 / 10 ^ 15 ≤ (1000 : Rat) ∧ ¬ ∃ u, LargestUnit 1000 u ∧ Right 1000 1 u := by
  have hcarry : subsec_string (some (249 / 25)) 1 = some ['0', '.', '9', ' ', 's'] := by
    decide +kernel
  have hlarge : subsec_string (some 1000) 1 = some ['0', '0', '0', '.', '0', ' ', 's'] := by
    decide +kernel
  refine ⟨⟨by norm_num, not_right (N := 9 / 10) (v := 0) hcarry (by decide +kernel) ?_⟩,
    by norm_num, not_right (N := 0) (v := 0) hlarge (by decide +kernel) ?_⟩
  · norm_num [unit, abs_of_neg]
  · norm_num [unit]

end PingPong.SubsecNumeral
