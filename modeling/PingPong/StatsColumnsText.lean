import PingPong.Decimal
import PingPong.StatsColumns

namespace PingPong.StatsColumnsText

open Decimal FixedPoint StatsColumns
open StatsPeriodic (IntervalStats Rusage)

variable {i_stats : IntervalStats} {column : Column} {fp : IntegerFixedPoint}

/-- `%lu` with a width, padded on the left. -/
def lu (pad : Char) (width n : Nat) : List Char := ((digitsOf n).map digit).leftpad width pad

/-- `%2lu.%01lu` -/
def text (int_fp : IntegerFixedPoint) : List Char := lu ' ' 2 int_fp.i ++ '.' :: lu '0' 1 int_fp.dec

def reading (cs : List Char) : Option Rat := decimal (cs.dropWhile (· = ' '))

def Denotes (i_stats : IntervalStats) (column : Column) : Prop :=
  ∃ fp, column.int_fp i_stats = some fp ∧
    reading (text fp) = some ((fp.i : Rat) + fp.dec / 10 ^ column.prec)

theorem lu_one (pad : Char) (n : Nat) : lu pad 1 n = (digitsOf n).map digit := by
  have hlen : 0 < (digitsOf n).length := List.length_pos_iff.mpr (digitsOf_ne_nil n)
  have hzero : 1 - (digitsOf n).length = 0 := by omega
  simp [lu, List.leftpad, hzero]

theorem dropWhile_lu (width n : Nat) (cs : List Char) :
    (lu ' ' width n ++ cs).dropWhile (· = ' ') = (digitsOf n).map digit ++ cs := by
  obtain ⟨d, ds, hds⟩ := List.exists_cons_of_ne_nil (digitsOf_ne_nil n)
  have hne : digit d ≠ ' ' := digit_ne (digitsOf_lt n d (by simp [hds])) (by decide)
  have hpad : ∀ c ∈ List.replicate (width - ((digitsOf n).map digit).length) ' ',
      decide (c = ' ') = true := fun c hc => by simp [List.eq_of_mem_replicate hc]
  rw [lu, List.leftpad, List.append_assoc, List.dropWhile_append_of_pos hpad, hds]
  simp [hne]

/-- The places of the text are those of the second number, not those it was cut at. -/
theorem reading_text (fp : IntegerFixedPoint) : reading (text fp) =
    some ((fp.i : Rat) + fp.dec / 10 ^ (digitsOf fp.dec).length) := by
  rw [reading, text, dropWhile_lu, lu_one, decimal_digits (digitsOf_ne_nil _) (digitsOf_lt _)
    (digitsOf_lt _), ofDigits_digitsOf, ofDigits_digitsOf]

def Decomposes (prec : Nat) (f : Rat) : Prop :=
  ∃ fp, f_to_fp prec f = some fp ∧ fp.dec < 10 ^ prec ∧
    ((fp.i * 10 ^ prec + fp.dec : Nat) : Int) = round (f * 10 ^ prec)

theorem decomposes_iff {prec : Nat} {f : Rat} (h : 0 ≤ f) (hlt : f * 10 ^ prec < 2 ^ 63) :
    Decomposes prec f ↔ prec ≤ 19 := by
  rw [← f_to_fp_eq_some_iff (f := f)]
  constructor
  · rintro ⟨fp, hfp, -⟩
    exact ⟨fp, hfp⟩
  · rintro ⟨fp, hfp⟩
    exact ⟨fp, hfp, f_to_fp_round h hlt hfp⟩

theorem prec_le (column : Column) : column.prec ≤ 19 := by
  cases column <;> decide

theorem denotes_iff (hfp : column.int_fp i_stats = some fp) : Denotes i_stats column ↔
    fp.dec = 0 ∨ (digitsOf fp.dec).length = column.prec := by
  have hpow (n : Nat) : (10 : Rat) ^ n ≠ 0 := by positivity
  have hdiv : (fp.dec : Rat) / 10 ^ (digitsOf fp.dec).length = fp.dec / 10 ^ column.prec ↔
      fp.dec = 0 ∨ (digitsOf fp.dec).length = column.prec := by
    rw [div_eq_div_iff (hpow _) (hpow _), mul_eq_mul_left_iff, or_comm, Nat.cast_eq_zero,
      pow_right_inj₀ (by norm_num) (by norm_num), eq_comm (a := column.prec)]
  rw [← hdiv]
  constructor
  · rintro ⟨fp', hfp', hread⟩
    obtain rfl : fp = fp' := Option.some.inj (hfp.symm.trans hfp')
    rw [reading_text] at hread
    exact add_left_cancel (Option.some.inj hread)
  · intro h
    exact ⟨fp, hfp, by rw [reading_text, h]⟩

def hundredths (i_stats : IntervalStats) (column : Column) : Nat :=
  (llroundl (column.value i_stats * 100)).natAbs % 100

/-- `f_to_fp` cuts the rounded value at its point for every precision up to 19. Three
columns print what they were given; the fourth has two places and prints them as one
number, which is right only without a zero in the first place. -/
theorem columns_text (prec : Nat) (f : Rat) (i_stats : IntervalStats) (column : Column) :
    (0 ≤ f → f * 10 ^ prec < 2 ^ 63 → (Decomposes prec f ↔ prec ≤ 19)) ∧
    (Denotes i_stats column ↔
      (column = .pongSys → hundredths i_stats column = 0 ∨ 10 ≤ hundredths i_stats column)) := by
  refine ⟨decomposes_iff, ?_⟩
  obtain ⟨fp, hfp⟩ := f_to_fp_eq_some_iff (f := column.value i_stats).mpr (prec_le column)
  have hdec := f_to_fp_dec hfp
  have hlt : fp.dec < 10 ^ column.prec := hdec ▸ Nat.mod_lt _ (by positivity)
  rw [denotes_iff hfp]
  have hpos : 0 < (digitsOf fp.dec).length := List.length_pos_iff.mpr (digitsOf_ne_nil _)
  have hone := length_digitsOf_le_iff fp.dec Nat.one_pos
  have htwo := length_digitsOf_le_iff fp.dec Nat.two_pos
  cases column with
  | pingUser | pingSys | pongUser =>
    have hprec : (digitsOf fp.dec).length = 1 := le_antisymm (hone.mpr hlt) hpos
    simpa using .inr hprec
  | pongSys =>
    have hdec : fp.dec = hundredths i_stats .pongSys := by
      rw [hdec, hundredths, Column.prec]
      norm_num
    have hten : (digitsOf fp.dec).length = 2 ↔ 10 ≤ fp.dec := by
      have hle := htwo.mpr hlt
      omega
    rw [Column.prec, hten, hdec]
    simp

def slight : IntervalStats :=
  { IntervalStats.zero with
    interval_time := 1
    rusage := fun _ => { Rusage.zero with ru_stime := ⟨0, 50500⟩ } }

theorem columns_text_slight : (Decomposes 2 5.05 ↔ 2 ≤ 19) ∧
    (Denotes slight .pingSys ↔ (Column.pingSys = .pongSys →
      hundredths slight .pingSys = 0 ∨ 10 ≤ hundredths slight .pingSys)) :=
  have h := columns_text 2 5.05 slight .pingSys
  ⟨h.1 (by norm_num) (by norm_num), h.2⟩

/-- It is shown as 5.5. -/
theorem columns_text_short : Column.pongSys.value slight = 5.05 ∧
    (Column.pongSys.int_fp slight).map text = some " 5.5".toList ∧
    ¬ ∀ i_stats column, Denotes i_stats column := by
  have hvalue : Column.pongSys.value slight = 5.05 := by
    norm_num [slight, Column.value, Column.used, usage]
  have htext : (Column.pongSys.int_fp slight).map text = some " 5.5".toList := by decide +kernel
  refine ⟨hvalue, htext, fun h => ?_⟩
  obtain ⟨fp, hfp, hread⟩ := h slight .pongSys
  have hfp' : Column.pongSys.int_fp slight = some ⟨2, 5, 5⟩ := by decide +kernel
  obtain rfl := Option.some.inj (hfp.symm.trans hfp')
  have hdigits : (digitsOf 5).length = 1 := by decide +kernel
  rw [reading_text, Option.some.injEq, hdigits] at hread
  norm_num [Column.prec] at hread

end PingPong.StatsColumnsText
