import PingPong.CMemory
import PingPong.CString

namespace PingPong.Printf

open CMemory CString

/-- The types that variadic arguments have once they are promoted. `%n` takes pointers
to integers of different sizes. -/
inductive ArgType
  | int | unsigned_int | long | unsigned_long | long_long | unsigned_long_long
  | double | long_double
  | char_ptr | wchar_ptr | void_ptr
  | count_ptr (size : List Char)
deriving DecidableEq, Repr

/-- Addresses and floating-point numbers are kept as their bits. -/
inductive Value
  | integer (n : Int)
  | string (s : List Char)
  | bits (n : Nat)
deriving DecidableEq, Repr

/-- An argument of a variadic function. A `va_list` is one itself, and it is none of the
arguments that it denotes. -/
inductive Arg
  | value (type : ArgType) (v : Value)
  | va_list (args : List Arg)

/-- A part of a format: a character, or a conversion with its text, the number of its `*`,
and the type of what it converts. -/
inductive Piece
  | lit (c : Char)
  | conv (text : List Char) (stars : Nat) (type : ArgType)
deriving DecidableEq, Repr

def modifier : List Char → List Char
  | 'h' :: 'h' :: _ => ['h', 'h']
  | 'l' :: 'l' :: _ => ['l', 'l']
  | c :: _ => if c ∈ ['h', 'l', 'j', 'z', 't', 'L'] then [c] else []
  | [] => []

/-- The types of the signed and the unsigned integers of a size. What is shorter than an
`int` is promoted to it. -/
def integerTypes (size : List Char) : Option (ArgType × ArgType) :=
  if size = [] then some (.int, .unsigned_int)
  else if size = ['h', 'h'] ∨ size = ['h'] then some (.int, .int)
  else if size = ['l', 'l'] then some (.long_long, .unsigned_long_long)
  else if size = ['L'] then none
  else some (.long, .unsigned_long)

/-- What a conversion takes, or none where the modifier does not go with it. -/
def argType (size : List Char) (c : Char) : Option ArgType :=
  if c ∈ ['d', 'i'] then (integerTypes size).map (·.1)
  else if c ∈ ['o', 'u', 'x', 'X'] then (integerTypes size).map (·.2)
  else if c ∈ ['f', 'F', 'e', 'E', 'g', 'G', 'a', 'A'] then
    if size = [] ∨ size = ['l'] then some .double
    else if size = ['L'] then some .long_double else none
  else if c = 'c' then
    if size = [] then some .int else if size = ['l'] then some .unsigned_int else none
  else if c = 's' then
    if size = [] then some .char_ptr else if size = ['l'] then some .wchar_ptr else none
  else if c = 'p' then if size = [] then some .void_ptr else none
  else if c = 'n' then if size = ['L'] then none else some (.count_ptr size)
  else none

def field : List Char → List Char
  | '*' :: _ => ['*']
  | cs => cs.takeWhile isdigit

def precision : List Char → List Char
  | '.' :: cs => '.' :: field cs
  | _ => []

def spec (cs : List Char) : Option (Piece × Nat) :=
  if cs.head? = some '%' then some (.lit '%', 1)
  else
    let flags := cs.takeWhile (· ∈ ['-', '+', ' ', '#', '0'])
    let width := field (cs.drop flags.length)
    let precision := precision (cs.drop (flags ++ width).length)
    let size := modifier (cs.drop (flags ++ width ++ precision).length)
    let text := flags ++ width ++ precision ++ size
    (cs.drop text.length).head?.bind fun c => (argType size c).map fun type =>
      (.conv (text ++ [c]) (text.count '*') type, text.length + 1)

/-- A format from its first character that has not been read yet, or none if it has a
conversion that is not defined. -/
def pieces : (read : Nat) → List Char → Option (List Piece)
  | _, [] => some []
  | read + 1, _ :: cs => pieces read cs
  | 0, c :: cs =>
    if c = '%' then (spec cs).bind fun (piece, read) => (pieces read cs).map (piece :: ·)
    else (pieces 0 cs).map (.lit c :: ·)

example : pieces 0 "%-*s: %ld%%".toList = some [.conv ['-', '*', 's'] 1 .char_ptr, .lit ':',
    .lit ' ', .conv ['l', 'd'] 0 .long, .lit '%'] := by decide +kernel

def arity (ps : List Piece) : Nat := (ps.map fun
  | .lit _ => 0
  | .conv _ stars _ => stars + 1).sum

def ArgType.other : ArgType → Option ArgType
  | int => some unsigned_int
  | unsigned_int => some int
  | long => some unsigned_long
  | unsigned_long => some long
  | long_long => some unsigned_long_long
  | unsigned_long_long => some long_long
  | char_ptr => some void_ptr
  | void_ptr => some char_ptr
  | _ => none

def Value.isShared (type : ArgType) : Value → Bool
  | integer n => 0 ≤ n && n < if type = .int ∨ type = .unsigned_int then 2 ^ 31 else 2 ^ 63
  | string _ | bits _ => true

/-- An argument read as one of a type. One of another type is undefined. -/
def va_arg (type : ArgType) : Arg → Option Value
  | .value type' v =>
    if type' = type ∨ type'.other = some type ∧ v.isShared type then some v else none
  | .va_list _ => none

def take : List ArgType → List Arg → Option (List Value × List Arg)
  | [], args => some ([], args)
  | type :: types, arg :: args => (va_arg type arg).bind fun v =>
    (take types args).map fun (vs, args) => (v :: vs, args)
  | _ :: _, [] => none

/-- The text of a format. `printed` is what a conversion makes of its arguments. -/
def format (printed : List Char → List Value → List Char) :
    List Piece → List Arg → Option (List Char)
  | [], _ => some []
  | .lit c :: ps, args => (format printed ps args).map (c :: ·)
  | .conv text stars type :: ps, args =>
    (take (List.replicate stars .int ++ [type]) args).bind fun (vs, args) =>
      (format printed ps args).map (printed text vs ++ ·)

def INT_MAX : Nat := 2 ^ 31 - 1

def formatted (printed : List Char → List Value → List Char) (fmt : List Char)
    (args : List Arg) : Option (List Char) :=
  (pieces 0 fmt).bind fun ps => format printed ps args

/-- `vsnprintf` with a buffer of `size` characters: what it returns, and what it stores
before the NUL. -/
def vsnprintf (printed : List Char → List Value → List Char) (size : Nat) (fmt : List Char)
    (ap : List Arg) : Option (Int × List Char) :=
  (formatted printed fmt ap).map fun text =>
    (if text.length ≤ INT_MAX then text.length else -1, text.take (size - 1))

variable {printed : List Char → List Value → List Char} {ps : List Piece} {cs : List Char}
  {args args' : List Arg}

@[simp] theorem arity_lit (c : Char) (ps : List Piece) : arity (.lit c :: ps) = arity ps := by
  simp [arity]

@[simp] theorem arity_conv (text : List Char) (stars : Nat) (type : ArgType) (ps : List Piece) :
    arity (.conv text stars type :: ps) = stars + 1 + arity ps := by
  simp [arity]

theorem take_va_list (ap : List Arg) (stars : Nat) (type : ArgType) (args : List Arg) :
    take (List.replicate stars .int ++ [type]) (.va_list ap :: args) = none := by
  cases stars <;> rfl

theorem format_va_list (ap args : List Arg) (h : arity ps ≠ 0) :
    format printed ps (.va_list ap :: args) = none := by
  induction ps with
  | nil => exact absurd rfl h
  | cons p ps ih =>
    cases p with
    | lit c =>
      rw [arity_lit] at h
      rw [format, ih h, Option.map_none]
    | conv text stars type => rw [format, take_va_list, Option.bind_none]

theorem format_of_arity (printed : List Char → List Value → List Char) (h : arity ps = 0) :
    ∃ text, (∀ args, format printed ps args = some text) ∧ ∀ c ∈ text, .lit c ∈ ps := by
  induction ps with
  | nil => exact ⟨[], fun _ => rfl, by simp⟩
  | cons p ps ih =>
    cases p with
    | lit c =>
      rw [arity_lit] at h
      obtain ⟨text, htext, hmem⟩ := ih h
      refine ⟨c :: text, fun args => by rw [format, htext, Option.map_some], ?_⟩
      intro d hd
      obtain rfl | hd := List.mem_cons.mp hd
      · exact List.mem_cons_self
      · exact List.mem_cons_of_mem _ (hmem d hd)
    | conv text stars type =>
      rw [arity_conv] at h
      omega

theorem spec_lit {c : Char} {read : Nat} (h : spec cs = some (.lit c, read)) : c ∈ cs := by
  unfold spec at h
  split_ifs at h with hhead
  · cases h
    exact List.mem_of_mem_head? hhead
  · obtain ⟨d, -, h⟩ := Option.bind_eq_some_iff.mp h
    obtain ⟨type, -, h⟩ := Option.map_eq_some_iff.mp h
    cases h

theorem lit_mem {c : Char} {read : Nat} (h : pieces read cs = some ps) (hc : .lit c ∈ ps) :
    c ∈ cs := by
  induction cs generalizing read ps with
  | nil =>
    cases h
    cases hc
  | cons d cs ih =>
    cases read with
    | succ read => exact List.mem_cons_of_mem d (ih h hc)
    | zero =>
      rw [pieces] at h
      split_ifs at h with hd
      · obtain ⟨⟨piece, read⟩, hspec, h⟩ := Option.bind_eq_some_iff.mp h
        obtain ⟨ps', hps, rfl⟩ := Option.map_eq_some_iff.mp h
        refine List.mem_cons_of_mem d ?_
        obtain rfl | hc := List.mem_cons.mp hc
        · exact spec_lit hspec
        · exact ih hps hc
      · obtain ⟨ps', hps, rfl⟩ := Option.map_eq_some_iff.mp h
        obtain heq | hc := List.mem_cons.mp hc
        · cases heq
          exact List.mem_cons_self
        · exact List.mem_cons_of_mem d (ih hps hc)

end PingPong.Printf
