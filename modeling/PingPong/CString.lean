import Mathlib.Data.List.TakeWhile
import PingPong.Decimal

namespace PingPong.CString

open Decimal

variable {cs rest : List Char}

def LONG_MAX : Int := 2 ^ 63 - 1

def LONG_MIN : Int := -2 ^ 63

def isspace (c : Char) : Bool := c = ' ' || (9 ≤ c.toNat && c.toNat ≤ 13)

def isdigit (c : Char) : Bool := (digitValue c).isSome

inductive Sign | none | plus | minus
deriving DecidableEq, Repr

namespace Sign

def text : Sign → List Char
  | none => []
  | plus => ['+']
  | minus => ['-']

def apply (n : Nat) : Sign → Int
  | none | plus => n
  | minus => -n

def take : List Char → Sign × List Char
  | [] => (none, [])
  | c :: cs => if c = '+' then (plus, cs) else if c = '-' then (minus, cs) else (none, c :: cs)

end Sign

/-- An integer as a text: blanks, a sign and at least one digit. -/
structure Numeral where
  blanks : List Char
  sign : Sign
  digits : List Nat
  isspace_of_mem : ∀ c ∈ blanks, isspace c
  ne_nil : digits ≠ []
  lt_ten : ∀ d ∈ digits, d < 10

namespace Numeral

def text (x : Numeral) : List Char := x.blanks ++ (x.sign.text ++ x.digits.map digit)

def value (x : Numeral) : Int := x.sign.apply (ofDigits x.digits)

end Numeral

def scan (nptr : List Char) : List Char × Sign × List Char :=
  let (sign, body) := Sign.take (nptr.dropWhile isspace)
  (nptr.takeWhile isspace, sign, body.takeWhile isdigit)

/-- `strtol` with base 10: the number at the front of a string, and how far it reaches. -/
def strtol (nptr : List Char) : Int × Nat :=
  let (blanks, sign, digits) := scan nptr
  if digits = [] then (0, 0)
  else (max LONG_MIN (min LONG_MAX (sign.apply (ofDigits (digits.filterMap digitValue)))),
    blanks.length + sign.text.length + digits.length)

example : strtol " -12,7".toList = (-12, 4) := by decide +kernel

/-- `strtoul` with base 10, whose value a minus sign wraps round. -/
def strtoul (nptr : List Char) : Nat :=
  let (_, sign, digits) := scan nptr
  let value := ofDigits (digits.filterMap digitValue)
  if 2 ^ 64 ≤ value then 2 ^ 64 - 1
  else if sign = .minus then (2 ^ 64 - value) % 2 ^ 64
  else value

/-- Only the sign of the result means something. -/
def strcmp : List Char → List Char → Int
  | [], [] => 0
  | [], _ :: _ => -1
  | _ :: _, [] => 1
  | a :: s1, b :: s2 => if a = b then strcmp s1 s2 else if a.toNat < b.toNat then -1 else 1

def strlen (s : List Char) : Nat := s.length

def strncmp (s1 s2 : List Char) (n : Nat) : Int := strcmp (s1.take n) (s2.take n)

theorem strcmp_eq_zero (s1 s2 : List Char) : strcmp s1 s2 = 0 ↔ s1 = s2 := by
  induction s1 generalizing s2 with
  | nil => cases s2 <;> simp [strcmp]
  | cons a s1 ih =>
    cases s2 with
    | nil => simp [strcmp]
    | cons b s2 =>
      rw [strcmp]
      split_ifs with hab
      · simp [hab, ih]
      · simp [hab]
      · simp [hab]

theorem strcmp_lt_zero (s1 s2 : List Char) : strcmp s1 s2 < 0 ↔ s1 < s2 := by
  induction s1 generalizing s2 with
  | nil => cases s2 <;> simp [strcmp]
  | cons a s1 ih =>
    cases s2 with
    | nil => simp [strcmp]
    | cons b s2 =>
      have hab : a.toNat < b.toNat ↔ a < b := UInt32.lt_iff_toNat_lt.symm
      rw [strcmp, List.cons_lt_cons_iff, ← hab]
      split_ifs with heq hlt
      · simp [heq, ih]
      · simp [hlt]
      · simp [hlt, heq]

/-- With the length of the first string, the comparison asks for a prefix. -/
theorem strncmp_strlen_eq_zero (s1 s2 : List Char) :
    strncmp s1 s2 (strlen s1) = 0 ↔ s1 <+: s2 := by
  rw [strncmp, strcmp_eq_zero, strlen, List.take_length, List.prefix_iff_eq_take]

theorem isdigit_digit {n : Nat} (h : n < 10) : isdigit (digit n) := by
  rw [isdigit, digitValue_digit h]
  rfl

theorem isspace_digit {n : Nat} (h : n < 10) : isspace (digit n) = false := by
  have hne : digit n ≠ ' ' := digit_ne h (by decide)
  simp only [isspace, hne, digit_toNat h, decide_false, Bool.false_or, Bool.and_eq_false_iff,
    decide_eq_false_iff_not]
  omega

theorem exists_digit {c : Char} (h : isdigit c) : ∃ n < 10, c = digit n := by
  rw [isdigit, digitValue, Option.isSome_ite] at h
  refine ⟨c.toNat - 48, by omega, ?_⟩
  rw [digit, Nat.add_sub_cancel' h.1, Char.ofNat_toNat]

theorem exists_digits (h : ∀ c ∈ cs, isdigit c) :
    ∃ ds : List Nat, (∀ d ∈ ds, d < 10) ∧ cs = ds.map digit := by
  induction cs with
  | nil => exact ⟨[], by simp, rfl⟩
  | cons c cs ih =>
    obtain ⟨hc, hcs⟩ := List.forall_mem_cons.mp h
    obtain ⟨n, hn, rfl⟩ := exists_digit hc
    obtain ⟨ds, hds, rfl⟩ := ih hcs
    exact ⟨n :: ds, List.forall_mem_cons.mpr ⟨hn, hds⟩, rfl⟩

theorem filterMap_digits {ds : List Nat} (h : ∀ d ∈ ds, d < 10) :
    (ds.map digit).filterMap digitValue = ds := by
  induction ds with
  | nil => rfl
  | cons d ds ih =>
    obtain ⟨hd, hds⟩ := List.forall_mem_cons.mp h
    rw [List.map_cons, List.filterMap_cons_some (digitValue_digit hd), ih hds]

def NoDigit (rest : List Char) : Prop := ∀ c ∈ rest.head?, isdigit c = false

theorem takeWhile_append_eq {p : Char → Bool} (h : ∀ c ∈ cs, p c)
    (hrest : ∀ c ∈ rest.head?, p c = false) : (cs ++ rest).takeWhile p = cs := by
  have hstop : rest.takeWhile p = [] := by
    cases rest with
    | nil => rfl
    | cons c rest => simp [hrest c (by simp)]
  rw [List.takeWhile_append_of_pos h, hstop, List.append_nil]

theorem dropWhile_append_eq {p : Char → Bool} (h : ∀ c ∈ cs, p c)
    (hrest : ∀ c ∈ rest.head?, p c = false) : (cs ++ rest).dropWhile p = rest := by
  rw [List.dropWhile_append_of_pos h]
  cases rest with
  | nil => rfl
  | cons c rest => simp [hrest c (by simp)]

theorem Sign.take_text_append (sign : Sign) {n : Nat} (h : n < 10) :
    Sign.take (sign.text ++ digit n :: rest) = (sign, digit n :: rest) := by
  cases sign with
  | none => simp [Sign.take, Sign.text, digit_ne h (show digitValue '+' = Option.none by decide),
      digit_ne h (show digitValue '-' = Option.none by decide)]
  | plus | minus => rfl

theorem scan_text_append (x : Numeral) (h : NoDigit rest) :
    scan (x.text ++ rest) = (x.blanks, x.sign, x.digits.map digit) := by
  obtain ⟨d, ds, hds⟩ := List.exists_cons_of_ne_nil x.ne_nil
  have hlt : d < 10 := x.lt_ten d (by simp [hds])
  have hbody : ∀ c ∈ (x.sign.text ++ (digit d :: (ds.map digit ++ rest))).head?,
      isspace c = false := by
    cases x.sign with
    | none => simpa [Sign.text] using isspace_digit hlt
    | plus | minus => simp [Sign.text, isspace]
  have hdigits : ∀ c ∈ digit d :: ds.map digit, isdigit c := by
    intro c hc
    rw [← List.map_cons, ← hds, List.mem_map] at hc
    obtain ⟨n, hn, rfl⟩ := hc
    exact isdigit_digit (x.lt_ten n hn)
  have htext : x.text ++ rest =
      x.blanks ++ (x.sign.text ++ digit d :: (ds.map digit ++ rest)) := by
    simp [Numeral.text, hds]
  rw [scan, htext, takeWhile_append_eq x.isspace_of_mem hbody,
    dropWhile_append_eq x.isspace_of_mem hbody, Sign.take_text_append _ hlt, hds, List.map_cons]
  simp only [← List.cons_append, takeWhile_append_eq hdigits h]

theorem strtol_text_append (x : Numeral) (h : NoDigit rest) : strtol (x.text ++ rest) =
    (max LONG_MIN (min LONG_MAX x.value), x.text.length) := by
  have hne : x.digits.map digit ≠ [] := by simpa using x.ne_nil
  rw [strtol, scan_text_append x h]
  simp only [hne, if_false, filterMap_digits x.lt_ten, Numeral.value, Numeral.text,
    List.length_append, Nat.add_assoc]

theorem strtol_text (x : Numeral) : strtol x.text =
    (max LONG_MIN (min LONG_MAX x.value), x.text.length) := by
  have hno : NoDigit [] := by simp [NoDigit]
  simpa using strtol_text_append x hno

theorem Sign.take_eq (cs : List Char) : (Sign.take cs).1.text ++ (Sign.take cs).2 = cs := by
  cases cs with
  | nil => rfl
  | cons c cs =>
    simp only [Sign.take]
    split_ifs <;> simp_all [Sign.text]

theorem noDigit_dropWhile (cs : List Char) : NoDigit (cs.dropWhile isdigit) := by
  intro c hc
  have h := List.head?_dropWhile_not isdigit cs
  rw [Option.mem_def.mp hc] at h
  simpa using h

theorem strtol_cases (nptr : List Char) : strtol nptr = (0, 0) ∨
    ∃ (x : Numeral) (rest : List Char), nptr = x.text ++ rest ∧ NoDigit rest := by
  have hbody := Sign.take_eq (nptr.dropWhile isspace)
  have hall : ∀ c ∈ (Sign.take (nptr.dropWhile isspace)).2.takeWhile isdigit, isdigit c :=
    fun c hc => List.mem_takeWhile_imp hc
  obtain ⟨ds, hds, hdigits⟩ := exists_digits hall
  by_cases hnil : ds = []
  · left
    rw [strtol, scan]
    simp [hdigits, hnil]
  · right
    have hrest := List.takeWhile_append_dropWhile (p := isdigit)
      (l := (Sign.take (nptr.dropWhile isspace)).2)
    refine ⟨⟨nptr.takeWhile isspace, (Sign.take (nptr.dropWhile isspace)).1, ds,
      fun c hc => List.mem_takeWhile_imp hc, hnil, hds⟩,
      (Sign.take (nptr.dropWhile isspace)).2.dropWhile isdigit, ?_, noDigit_dropWhile _⟩
    rw [Numeral.text, ← hdigits, List.append_assoc, List.append_assoc, hrest, hbody,
      List.takeWhile_append_dropWhile]

end PingPong.CString
