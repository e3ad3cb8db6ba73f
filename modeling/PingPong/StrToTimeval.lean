import PingPong.CString
import PingPong.StatsPeriodic

namespace PingPong.StrToTimeval

open CString Decimal
open MonitorState (Timeval)
open StatsPeriodic (Normalised)

/-- The `struct timeval` that is returned, and what is printed. A field that was not
stored has no value. -/
structure Parsed where
  tv_sec : Int
  tv_usec : Option Int
  stdout : List String
deriving DecidableEq, Repr

def str_to_timeval (string : List Char) : Parsed :=
  let (tv_sec, ptr1) := strtol string
  if tv_sec = 0 ∧ ptr1 = 0 then
    ⟨tv_sec, none, ["unable to parse '" ++ String.ofList string ++ "'\n"]⟩
  else if (string.drop ptr1).head? ≠ some '.' then ⟨tv_sec, none, []⟩
  else
    -- The second number is read from the point on, not from behind it.
    let (tv_usec, ptr2) := strtol (string.drop ptr1)
    ⟨tv_sec, some tv_usec, if tv_usec = 0 ∧ ptr2 = 0 then
      ["unable to parse post-decimal-point portion of " ++ String.ofList string ++ "\n"] else []⟩

structure Seconds where
  whole : List Nat
  fraction : List Nat
  whole_ne_nil : whole ≠ []
  whole_lt : ∀ d ∈ whole, d < 10
  fits : (ofDigits whole : Int) ≤ LONG_MAX
  fraction_lt : ∀ d ∈ fraction, d < 10
  places : fraction.length ≤ 6

namespace Seconds

def text (x : Seconds) : List Char :=
  x.whole.map digit ++ if x.fraction = [] then [] else '.' :: x.fraction.map digit

def micros (x : Seconds) : Nat := ofDigits x.fraction * 10 ^ (6 - x.fraction.length)

def numeral (x : Seconds) : Numeral where
  blanks := []
  sign := .none
  digits := x.whole
  isspace_of_mem := by simp
  ne_nil := x.whole_ne_nil
  lt_ten := x.whole_lt

theorem text_eq (x : Seconds) : x.text =
    x.numeral.text ++ if x.fraction = [] then [] else '.' :: x.fraction.map digit := rfl

end Seconds

variable {x : Seconds}

structure Meets (x : Seconds) : Prop where
  sec : (str_to_timeval x.text).tv_sec = ofDigits x.whole
  usec : (str_to_timeval x.text).tv_usec = some (x.micros : Int)

theorem strtol_point (cs : List Char) : strtol ('.' :: cs) = (0, 0) := by
  have hspace : isspace '.' = false := by decide
  have hdigit : isdigit '.' = false := by decide
  simp [strtol, scan, Sign.take, hspace, hdigit]

/-- The seconds are read, and of the places after the point nothing. -/
theorem str_to_timeval_text (x : Seconds) : str_to_timeval x.text =
    if x.fraction = [] then ⟨ofDigits x.whole, none, []⟩
    else ⟨ofDigits x.whole, some 0,
      ["unable to parse post-decimal-point portion of " ++ String.ofList x.text ++ "\n"]⟩ := by
  have hno : NoDigit (if x.fraction = [] then [] else '.' :: x.fraction.map digit) := by
    split_ifs
    · simp [NoDigit]
    · simp only [NoDigit, List.head?_cons, Option.mem_def, Option.some.injEq]
      rintro c rfl
      decide
  have hvalue : max LONG_MIN (min LONG_MAX x.numeral.value) = ofDigits x.whole := by
    have hmin : LONG_MIN ≤ 0 := by decide
    have hfits := x.fits
    have heq : x.numeral.value = ofDigits x.whole := rfl
    omega
  have hsec := strtol_text_append x.numeral hno
  rw [← x.text_eq, hvalue] at hsec
  have hne : x.numeral.text.length ≠ 0 := by
    simpa [Numeral.text, Seconds.numeral, Sign.text] using x.whole_ne_nil
  have hdrop : x.text.drop x.numeral.text.length =
      if x.fraction = [] then [] else '.' :: x.fraction.map digit := by
    rw [x.text_eq, List.drop_left]
  rw [str_to_timeval, hsec]
  dsimp only
  rw [if_neg fun h => hne h.2, hdrop]
  by_cases hfraction : x.fraction = []
  · rw [if_pos hfraction, if_pos hfraction]
    rfl
  · rw [if_neg hfraction, if_neg hfraction, strtol_point]
    rfl

theorem meets_iff (x : Seconds) : Meets x ↔ x.fraction ≠ [] ∧ ∀ d ∈ x.fraction, d = 0 := by
  have htext := str_to_timeval_text x
  have hpow : 10 ^ (6 - x.fraction.length) ≠ 0 := pow_ne_zero _ (by decide)
  have hmicros : (x.micros : Int) = 0 ↔ ∀ d ∈ x.fraction, d = 0 := by
    rw [Nat.cast_eq_zero, Seconds.micros, Nat.mul_eq_zero, or_iff_left hpow, ofDigits_eq_zero_iff]
  constructor
  · intro h
    have husec := h.usec
    rw [htext] at husec
    split_ifs at husec with hfraction
    exact ⟨hfraction, hmicros.mp (Option.some.inj husec).symm⟩
  · rintro ⟨hfraction, hzero⟩
    rw [if_neg hfraction] at htext
    exact ⟨by rw [htext], by rw [htext, hmicros.mpr hzero]⟩

theorem length_micros {t : Timeval} (hn : Normalised t) :
    (padded 6 t.tv_usec.toNat).length = 6 := by
  have hlt := hn.2
  exact length_padded (by decide) (by omega)

def text (t : Timeval) : List Char :=
  (digitsOf t.tv_sec.toNat).map digit ++ '.' :: (padded 6 t.tv_usec.toNat).map digit

def Seconds.ofTimeval (t : Timeval) (hn : Normalised t) (hsec : 0 ≤ t.tv_sec)
    (hfits : t.tv_sec ≤ LONG_MAX) : Seconds where
  whole := digitsOf t.tv_sec.toNat
  fraction := padded 6 t.tv_usec.toNat
  whole_ne_nil := digitsOf_ne_nil _
  whole_lt := digitsOf_lt _
  fits := by rwa [ofDigits_digitsOf, Int.toNat_of_nonneg hsec]
  fraction_lt := padded_lt 6 _
  places := (length_micros hn).le

def Returned (t : Timeval) : Prop :=
  (str_to_timeval (text t)).tv_sec = t.tv_sec ∧
    (str_to_timeval (text t)).tv_usec = some t.tv_usec

theorem returned_iff {t : Timeval} (hn : Normalised t) (hsec : 0 ≤ t.tv_sec)
    (hfits : t.tv_sec ≤ LONG_MAX) : Returned t ↔ Meets (.ofTimeval t hn hsec hfits) := by
  have hlen := length_micros hn
  have hne : padded 6 t.tv_usec.toNat ≠ [] := List.ne_nil_of_length_pos (by omega)
  have htext : (Seconds.ofTimeval t hn hsec hfits).text = text t := by
    rw [Seconds.text, text, Seconds.ofTimeval, if_neg hne]
  have hwhole : (ofDigits (digitsOf t.tv_sec.toNat) : Int) = t.tv_sec := by
    rw [ofDigits_digitsOf, Int.toNat_of_nonneg hsec]
  have hmicros : ((Seconds.ofTimeval t hn hsec hfits).micros : Int) = t.tv_usec := by
    rw [Seconds.micros, Seconds.ofTimeval, ofDigits_padded, hlen, Nat.sub_self, Nat.pow_zero,
      Nat.mul_one, Int.toNat_of_nonneg hn.1]
  constructor
  · rintro ⟨h1, h2⟩
    exact ⟨by rw [htext, h1]; exact hwhole.symm, by rw [htext, h2, hmicros]⟩
  · rintro ⟨h1, h2⟩
    rw [htext] at h1 h2
    exact ⟨h1.trans hwhole, by rw [h2, hmicros]⟩

/-- Decimal seconds are read right if and only if there are places after the point and all
of them are 0, and so the text of a time is read as that time only without microseconds. -/
theorem decimal_seconds (x : Seconds) :
    (Meets x ↔ x.fraction ≠ [] ∧ ∀ d ∈ x.fraction, d = 0) ∧
    ∀ t, Normalised t → 0 ≤ t.tv_sec → t.tv_sec ≤ LONG_MAX →
      (Returned t ↔ t.tv_usec = 0) := by
  refine ⟨meets_iff x, fun t hn hsec hfits => ?_⟩
  have hlen := length_micros hn
  have hne : padded 6 t.tv_usec.toNat ≠ [] := List.ne_nil_of_length_pos (by omega)
  rw [returned_iff hn hsec hfits, meets_iff, Seconds.ofTimeval, ← ofDigits_eq_zero_iff,
    ofDigits_padded, and_iff_right hne, Int.toNat_eq_zero]
  have hnonneg := hn.1
  omega

def twelve : Seconds := ⟨[1, 2], [0], by decide, by decide, by decide, by decide, by decide⟩

theorem decimal_seconds_twelve :
    (Meets twelve ↔ twelve.fraction ≠ [] ∧ ∀ d ∈ twelve.fraction, d = 0) ∧
    (Returned ⟨12, 0⟩ ↔ (0 : Int) = 0) :=
  have h := decimal_seconds twelve
  ⟨h.1, h.2 ⟨12, 0⟩ ⟨by decide, by decide⟩ (by decide) (by decide)⟩

def half : Seconds := ⟨[1], [5], by decide, by decide, by decide, by decide, by decide⟩

/-- The half second is lost, and without a point the microseconds are not set. -/
theorem decimal_seconds_half : (str_to_timeval "1.5".toList).tv_usec = some 0 ∧
    (str_to_timeval "1".toList).tv_usec = none ∧ ¬ ∀ x, Meets x := by
  have hlost : (str_to_timeval "1.5".toList).tv_usec = some 0 := by decide +kernel
  refine ⟨hlost, by decide +kernel, fun h => ?_⟩
  have husec := (h half).usec
  have htext : half.text = "1.5".toList := by decide +kernel
  rw [htext, hlost] at husec
  exact absurd husec (by decide +kernel)

end PingPong.StrToTimeval
