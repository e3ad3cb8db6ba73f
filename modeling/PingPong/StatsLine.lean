import Mathlib.Data.List.GetD
import PingPong.StatsColumnsText
import PingPong.StatsReport
import PingPong.Words

namespace PingPong.StatsLine

open Decimal FixedPoint StatsColumns StatsColumnsText SubsecString Words
open MonitorState (Worker)
open StatsPeriodic (IntervalStats Rusage)
open StatsReport (pings_per_second)

variable {i_stats : IntervalStats} {fp : IntegerFixedPoint} {r : Rusage}
variable {rate dec_pts width : Nat} {size x : Rat}

def integerText (n : Int) : List Char :=
  (if n < 0 then ['-'] else []) ++ (digitsOf n.natAbs).map digit

def bytes (text : List Char) : Nat := (text.map Char.utf8Size).sum

/-- `%*s`, whose width is one of bytes. -/
def padded (width : Nat) (text : List Char) : List Char :=
  List.replicate (width - bytes text) ' ' ++ text

/-- `%7s %12llu %11s` -/
def general (i_stats : IntervalStats) : Option (List Char) := do
  let run_time ← subsec_string (some i_stats.run_time) 1
  let rate ← pings_per_second i_stats
  let iteration_time ← subsec_string i_stats.iteration_time 2
  some (padded 7 run_time ++ ' ' :: lu ' ' 12 rate ++ ' ' :: padded 11 iteration_time)

/-- ` | %5ld / %5ld` -/
def switches (r : Rusage) : List Char :=
  " | ".toList ++ padded 5 (integerText r.ru_nvcsw) ++
    " / ".toList ++ padded 5 (integerText r.ru_nivcsw)

/-- `  %2lu.%01lu%%  %2lu.%01lu%%` -/
def usages (int_fp1 int_fp2 : IntegerFixedPoint) : List Char :=
  "  ".toList ++ text int_fp1 ++ "%  ".toList ++ text int_fp2 ++ "%".toList

/-- The pieces that `show_periodic_stats_data` hands to `safe_write`. -/
def pieces (i_stats : IntervalStats) : Option (List (List Char)) := do
  let general ← general i_stats
  let ping1 ← Column.pingUser.int_fp i_stats
  let ping2 ← Column.pingSys.int_fp i_stats
  let pong1 ← Column.pongUser.int_fp i_stats
  let pong2 ← Column.pongSys.int_fp i_stats
  some [general, switches (i_stats.rusage .ping), usages ping1 ping2,
    switches (i_stats.rusage .pong), usages pong1 pong2, "\n".toList]

def show_periodic_stats_data (i_stats : IntervalStats) : Option (List Char) :=
  (pieces i_stats).map List.flatten

def headerSwitches : List Char :=
  " | ".toList ++ padded 13 " vol/inv csw".toList ++ "  ".toList ++ padded 5 "user".toList ++
    "  ".toList ++ padded 5 "sys".toList

def headerWorkers : List Char :=
  padded 7 [] ++ ' ' :: padded 12 [] ++ ' ' :: padded 11 [] ++
    ' ' :: " ___________ PING ___________ ".toList ++
    ' ' :: " ___________ PONG ___________ ".toList ++ "\n".toList

def headerFields : List Char :=
  padded 7 "time".toList ++ ' ' :: padded 12 "cycles/sec".toList ++
    ' ' :: padded 11 "cycle time".toList ++ headerSwitches ++ headerSwitches ++ "\n".toList

def show_periodic_stats_header : List Char := headerWorkers ++ headerFields

example : show_periodic_stats_data { slight with run_time := 83 } =
    some (" 83.0 s            0      0.00 s |     0 /     0   0.0%   5.1%" ++
      " |     0 /     0   0.0%   5.5%\n").toList := by decide +kernel

theorem scale_pos (left mult : Nat) (h : 0 < size) : 0 < (scale left size mult).1 := by
  induction left generalizing size mult with
  | zero => exact h
  | succ left ih =>
    rw [scale]
    split
    · exact ih _ (by positivity)
    · exact h

def number (dec_pts : Nat) (x : Rat) (fp : IntegerFixedPoint) : List Char :=
  whole x fp ++ if 0 < dec_pts then '.' :: fraction dec_pts (x - truncl x) else []

def unit (mult : Nat) : List Char := unit_strings_sub.getD mult []

theorem subsec_string_scaled (size : Rat) (hdec : dec_pts ≤ 19) : ∃ x fp mult, 0 ≤ x ∧
    mult < max_mult ∧ (1 ≤ size → mult = 0) ∧
    subsec_string (some size) dec_pts = some (number dec_pts x fp ++ ' ' :: unit mult) := by
  have hform : ∀ x mult, ∃ fp, ((f_to_fp dec_pts x).bind fun fp =>
      some (number dec_pts x fp ++ ' ' :: unit mult)) =
      some (number dec_pts x fp ++ ' ' :: unit mult) := by
    intro x mult
    obtain ⟨fp, hfp⟩ := f_to_fp_eq_some_iff (f := x).mpr hdec
    exact ⟨fp, by rw [hfp, Option.bind_some]⟩
  have hzero : 0 < max_mult := by decide
  by_cases hsize : size ≤ 0
  · obtain ⟨fp, heq⟩ := hform 0 0
    refine ⟨0, fp, 0, le_rfl, hzero, fun _ => rfl, ?_⟩
    rw [← heq]
    simp [subsec_string, hsize, scale, number, unit]
  · have hpos := scale_pos max_mult 0 (not_le.mp hsize)
    by_cases hmult : max_mult ≤ (scale max_mult size 0).2
    · obtain ⟨fp, heq⟩ := hform 0 0
      refine ⟨0, fp, 0, le_rfl, hzero, fun _ => rfl, ?_⟩
      rw [← heq]
      simp [subsec_string, hsize, hmult, number, unit]
    · obtain ⟨fp, heq⟩ := hform (scale max_mult size 0).1 (scale max_mult size 0).2
      refine ⟨_, fp, _, hpos.le, not_le.mp hmult, fun h => ?_, ?_⟩
      · rw [max_mult, unit_strings_sub, List.length_cons, scale, if_neg (not_lt.mpr h)]
      · rw [← heq]
        simp [subsec_string, hsize, hmult, number, unit]

def blank (c : Char) : Bool := c = ' ' ∨ c = '\n'

theorem blank_of_ne {c : Char} (h : c ≠ ' ' ∧ c ≠ '\n') : blank c = false := by
  simpa [blank] using h

theorem not_blank_digits {ds : List Nat} (h : ∀ d ∈ ds, d < 10) :
    ∀ c ∈ ds.map digit, blank c = false := by
  intro c hc
  obtain ⟨d, hd, rfl⟩ := List.mem_map.mp hc
  exact blank_of_ne ⟨digit_ne (h d hd) (by decide), digit_ne (h d hd) (by decide)⟩

theorem not_blank_number (h : 0 ≤ x) (dec_pts : Nat) (fp : IntegerFixedPoint) :
    ∀ c ∈ number dec_pts x fp, blank c = false := by
  intro c hc
  have hx := fract_nonneg h
  rw [number, whole_eq, truncl_nonneg h, Int.cast_natCast, fraction_eq dec_pts hx,
    List.mem_append] at hc
  obtain hc | hc := hc
  · exact not_blank_digits (wholeDigits_lt x fp.i) c hc
  · split at hc
    · obtain rfl | hc := List.mem_cons.mp hc
      · decide
      · exact not_blank_digits (places_lt hx (fract_lt_one x)) c hc
    · cases hc

theorem number_ne_nil : number dec_pts x fp ≠ [] := by
  simp [number, whole_eq, wholeDigits_ne_nil]

theorem words_quantity {mult : Nat} (h : 0 ≤ x) (hmult : mult < max_mult) :
    words blank (number dec_pts x fp ++ ' ' :: unit mult) = [number dec_pts x fp, unit mult] := by
  have hunit : ∀ mult < max_mult, words blank (unit mult) = [unit mult] := by decide
  rw [words_word_cons (not_blank_number h dec_pts fp) number_ne_nil rfl, hunit mult hmult]

theorem words_lu_append (width n : Nat) (ys : List Char) :
    words blank (lu ' ' width n ++ ys) = words blank ((digitsOf n).map digit ++ ys) := by
  rw [lu, List.leftpad, List.append_assoc, words_replicate_append rfl]

theorem words_lu (width n : Nat) : words blank (lu ' ' width n) = [(digitsOf n).map digit] := by
  have happend := words_lu_append width n []
  rw [List.append_nil, List.append_nil] at happend
  rw [happend, words_eq_singleton (not_blank_digits (digitsOf_lt n))]
  simpa using digitsOf_ne_nil n

theorem words_padded (width : Nat) (text : List Char) :
    words blank (padded width text) = words blank text :=
  words_replicate_append rfl _ _

theorem not_blank_integerText (n : Int) : ∀ c ∈ integerText n, blank c = false := by
  intro c hc
  obtain hc | hc := List.mem_append.mp hc
  · obtain rfl : c = '-' := by simpa using (List.mem_ite_nil_right.mp hc).2
    decide
  · exact not_blank_digits (digitsOf_lt _) c hc

theorem integerText_ne_nil (n : Int) : integerText n ≠ [] := by
  simp [integerText, digitsOf_ne_nil]

theorem words_integerText (n : Int) : words blank (integerText n) = [integerText n] :=
  words_eq_singleton (not_blank_integerText n) (integerText_ne_nil n)

theorem words_switches (r : Rusage) : words blank (switches r) =
    [['|'], integerText r.ru_nvcsw, ['/'], integerText r.ru_nivcsw] := by
  have hform : switches r = ' ' :: (['|'] ++ ' ' :: (padded 5 (integerText r.ru_nvcsw) ++
      ' ' :: (['/'] ++ ' ' :: padded 5 (integerText r.ru_nivcsw)))) := by simp [switches]
  have hword (c : Char) (hc : blank c = false) : ∀ x ∈ [c], blank x = false := by simpa using hc
  rw [hform, words_cons rfl, words_word_cons (hword '|' rfl) (List.cons_ne_nil _ _) rfl,
    words_append_cons rfl, words_padded, words_integerText,
    words_word_cons (hword '/' rfl) (List.cons_ne_nil _ _) rfl, words_padded, words_integerText]
  rfl

def percentage (fp : IntegerFixedPoint) : List Char :=
  (digitsOf fp.i).map digit ++ '.' :: (digitsOf fp.dec).map digit ++ ['%']

theorem not_blank_percentage (fp : IntegerFixedPoint) : ∀ c ∈ percentage fp, blank c = false := by
  intro c hc
  simp only [percentage, List.mem_append, List.mem_cons, List.not_mem_nil, or_false] at hc
  obtain (hc | rfl | hc) | rfl := hc
  · exact not_blank_digits (digitsOf_lt _) c hc
  · decide
  · exact not_blank_digits (digitsOf_lt _) c hc
  · decide

theorem percentage_ne_nil (fp : IntegerFixedPoint) : percentage fp ≠ [] := by simp [percentage]

theorem words_usages (fp1 fp2 : IntegerFixedPoint) :
    words blank (usages fp1 fp2) = [percentage fp1, percentage fp2] := by
  have hform : usages fp1 fp2 = ' ' :: ' ' :: (lu ' ' 2 fp1.i ++
      ('.' :: lu '0' 1 fp1.dec ++ '%' :: ' ' :: ' ' ::
        (lu ' ' 2 fp2.i ++ ('.' :: lu '0' 1 fp2.dec ++ ['%'])))) := by
    simp [usages, text]
  have hword : ∀ (fp : IntegerFixedPoint) (ys : List Char), (digitsOf fp.i).map digit ++
      ('.' :: lu '0' 1 fp.dec ++ '%' :: ys) = percentage fp ++ ys := by
    intro fp ys
    simp [percentage, lu_one]
  rw [hform, words_cons rfl, words_cons rfl, words_lu_append, hword,
    words_word_cons (not_blank_percentage fp1) (percentage_ne_nil fp1) rfl, words_cons rfl,
    words_lu_append, hword, List.append_nil,
    words_eq_singleton (not_blank_percentage fp2) (percentage_ne_nil fp2)]

theorem subsec_string_eq (size : Option Rat) (hdec : dec_pts ≤ 19) :
    ∃ text, subsec_string size dec_pts = some text := by
  cases size with
  | none => exact ⟨_, rfl⟩
  | some size =>
    obtain ⟨x, fp, mult, -, -, -, heq⟩ := subsec_string_scaled size hdec
    exact ⟨_, heq⟩

/-- What stands in a line: the exchanges per second, the voluntary and the involuntary context
switches of each worker, and the columns of CPU time. -/
structure Fields where
  rate : Nat
  switches : Worker → Int × Int
  usage : Column → Rat

def integer (cs : List Char) : Option Int :=
  if cs.head? = some '-' then (natural cs.tail).map fun n => -(n : Int)
  else (natural cs).map fun n => (n : Int)

def fieldsOf (rate : List Char) : List (List Char) → Option Fields
  | [_, nvcsw0, _, nivcsw0, utime0, stime0, _, nvcsw1, _, nivcsw1, utime1, stime1] => do
    let rate ← natural rate
    let ping := (← integer nvcsw0, ← integer nivcsw0)
    let pong := (← integer nvcsw1, ← integer nivcsw1)
    let pingUser ← decimal utime0.dropLast
    let pingSys ← decimal stime0.dropLast
    let pongUser ← decimal utime1.dropLast
    let pongSys ← decimal stime1.dropLast
    some {
      rate
      switches := fun | .ping => ping | .pong => pong
      usage := fun
        | .pingUser => pingUser
        | .pingSys => pingSys
        | .pongUser => pongUser
        | .pongSys => pongSys }
  | _ => none

/-- Read a line: a number and a unit, the rate, a number and a unit or a sign, and the fields of
the workers. -/
def parse (line : List Char) : Option Fields :=
  match words blank line with
  | _ :: _ :: rate :: ws => fieldsOf rate (ws.drop (ws.length - 12))
  | _ => none

theorem integer_integerText (n : Int) : integer (integerText n) = some n := by
  have hnat := natural_digits (digitsOf_lt n.natAbs)
  rw [ofDigits_digitsOf] at hnat
  by_cases hn : n < 0
  · have habs : -(n.natAbs : Int) = n := by omega
    rw [integer, integerText, if_pos hn, if_pos (by simp)]
    simpa [hnat] using habs
  · have habs : (n.natAbs : Int) = n := by omega
    have hhead : ((digitsOf n.natAbs).map digit).head? ≠ some '-' := fun h =>
      not_mem_digits (by decide) (digitsOf_lt _) (List.mem_of_mem_head? h)
    rw [integer, integerText, if_neg hn, List.nil_append, if_neg hhead]
    simpa [hnat] using habs

theorem decimal_percentage (fp : IntegerFixedPoint) : decimal (percentage fp).dropLast =
    some ((fp.i : Rat) + fp.dec / 10 ^ (digitsOf fp.dec).length) := by
  rw [percentage, List.dropLast_concat, decimal_digits (digitsOf_ne_nil _) (digitsOf_lt _)
    (digitsOf_lt _), ofDigits_digitsOf, ofDigits_digitsOf]

/-- The value of a column without its point, rounded exactly where the code has a `long double`
for it. -/
def rounded (i_stats : IntervalStats) (column : Column) : Nat :=
  (llroundl (column.value i_stats * 10 ^ column.prec)).natAbs

def fixedPoint (i_stats : IntervalStats) (column : Column) : IntegerFixedPoint where
  prec := column.prec
  i := rounded i_stats column / 10 ^ column.prec
  dec := rounded i_stats column % 10 ^ column.prec

theorem int_fp_eq (i_stats : IntervalStats) (column : Column) :
    column.int_fp i_stats = some (fixedPoint i_stats column) := by
  obtain ⟨⟨prec, i, dec⟩, hfp⟩ :=
    f_to_fp_eq_some_iff (f := column.value i_stats).mpr (prec_le column)
  have hdec : dec = rounded i_stats column % 10 ^ column.prec := f_to_fp_dec hfp
  rw [Column.int_fp, hfp]
  rw [f_to_fp, Option.ite_none_right_eq_some, Option.some_inj, IntegerFixedPoint.mk.injEq] at hfp
  obtain ⟨-, rfl, rfl, -⟩ := hfp
  rw [hdec, fixedPoint, rounded, Nat.cast_pow, Nat.cast_ofNat]

/-- What the places of a number without its point stand for, as the zeros before them are not
printed. -/
def shown (prec n : Nat) : Rat :=
  (n / 10 ^ prec : Nat) + (n % 10 ^ prec : Nat) / 10 ^ (digitsOf (n % 10 ^ prec)).length

theorem shown_one (n : Nat) : shown 1 n = n / 10 := by
  have hpos : 0 < (digitsOf (n % 10)).length := List.length_pos_iff.mpr (digitsOf_ne_nil _)
  have hle : (digitsOf (n % 10)).length ≤ 1 :=
    (length_digitsOf_le_iff _ one_pos).mpr (Nat.mod_lt n (by decide))
  have hlen : (digitsOf (n % 10)).length = 1 := by omega
  have hdiv : ((10 * (n / 10) + n % 10 : Nat) : Rat) = n := congrArg _ (Nat.div_add_mod n 10)
  push_cast at hdiv
  rw [shown, pow_one, hlen, pow_one]
  linarith

theorem rounded_eq {column : Column} (h : 0 ≤ column.value i_stats)
    (hlt : column.value i_stats * 10 ^ column.prec < 2 ^ 63) :
    (rounded i_stats column : Int) = round (column.value i_stats * 10 ^ column.prec) :=
  llroundl_natAbs (by positivity) hlt

/-- The fields of the workers are found from the end of the line. -/
theorem parse_of_words {line time unit rate : List Char} {cycle fields : List (List Char)}
    (h : words blank line = [time, unit] ++ [rate] ++ cycle ++ fields)
    (hfields : fields.length = 12) : parse line = fieldsOf rate fields := by
  have hdrop : (cycle ++ fields).drop ((cycle ++ fields).length - 12) = fields := by
    simp [hfields]
  simp only [parse, h, List.cons_append, List.nil_append, hdrop]

theorem pieces_eq {run it : List Char} (hrun : subsec_string (some i_stats.run_time) 1 = some run)
    (hit : subsec_string i_stats.iteration_time 2 = some it)
    (hrate : pings_per_second i_stats = some rate) : pieces i_stats = some [
      padded 7 run ++ ' ' :: lu ' ' 12 rate ++ ' ' :: padded 11 it,
      switches (i_stats.rusage .ping),
      usages (fixedPoint i_stats .pingUser) (fixedPoint i_stats .pingSys),
      switches (i_stats.rusage .pong),
      usages (fixedPoint i_stats .pongUser) (fixedPoint i_stats .pongSys), "\n".toList] := by
  simp only [pieces, general, hrun, hit, hrate, int_fp_eq, Option.bind_eq_bind, Option.bind_some]

theorem words_flatten_pieces (general : List Char) (r0 r1 : Rusage)
    (fp1 fp2 fp3 fp4 : IntegerFixedPoint) :
    words blank [general, switches r0, usages fp1 fp2, switches r1, usages fp3 fp4,
      "\n".toList].flatten =
    words blank general ++ [['|'], integerText r0.ru_nvcsw, ['/'], integerText r0.ru_nivcsw,
      percentage fp1, percentage fp2, ['|'], integerText r1.ru_nvcsw, ['/'],
      integerText r1.ru_nivcsw, percentage fp3, percentage fp4] := by
  have hlast : words blank "\n".toList = [] := by decide
  rw [List.flatten_cons, words_flatten (by simp [switches, usages, blank])]
  simp only [List.flatMap_cons, List.flatMap_nil, words_switches, words_usages, hlast,
    List.cons_append, List.nil_append]

/-- The line of an interval reads back, however wide its fields: no two of them run together.
The columns but the last are read as their values to a tenth. -/
theorem parse_line (hrate : pings_per_second i_stats = some rate) : ∃ line usage,
    show_periodic_stats_data i_stats = some line ∧
    parse line = some {
      rate
      switches := fun i => ((i_stats.rusage i).ru_nvcsw, (i_stats.rusage i).ru_nivcsw)
      usage } ∧
    (∀ column, usage column = shown column.prec (rounded i_stats column)) ∧
    ∀ column ≠ .pongSys, 0 ≤ column.value i_stats → column.value i_stats * 10 < 2 ^ 63 →
      usage column = round (column.value i_stats * 10) / 10 := by
  obtain ⟨x, fp, mult, hx, hmult, -, hrun⟩ :=
    subsec_string_scaled i_stats.run_time (show 1 ≤ 19 by omega)
  obtain ⟨it, hit⟩ := subsec_string_eq i_stats.iteration_time (show 2 ≤ 19 by omega)
  have hrate' := natural_digits (digitsOf_lt rate)
  rw [ofDigits_digitsOf] at hrate'
  refine ⟨_, fun column => shown column.prec (rounded i_stats column),
    congrArg (Option.map _) (pieces_eq hrun hit hrate), ?_, fun _ => rfl, ?_⟩
  · have hwords : words blank (padded 7 (number 1 x fp ++ ' ' :: unit mult) ++
        ' ' :: lu ' ' 12 rate ++ ' ' :: padded 11 it) =
        [number 1 x fp, unit mult] ++ [(digitsOf rate).map digit] ++ words blank it := by
      rw [words_append_cons rfl, words_append_cons rfl, words_lu, words_padded, words_padded,
        words_quantity hx hmult]
    rw [parse_of_words ((words_flatten_pieces ..).trans (congrArg (· ++ _) hwords)) rfl]
    simp only [fieldsOf, hrate', integer_integerText, decimal_percentage, Option.bind_eq_bind,
      Option.bind_some, Option.some_inj, Fields.mk.injEq]
    refine ⟨trivial, funext fun i => ?_, funext fun column => ?_⟩
    · cases i <;> rfl
    · cases column <;> rfl
  · intro column hne h hlt
    have hprec : column.prec = 1 := by cases column <;> trivial
    have hround := rounded_eq h (by rwa [hprec, pow_one])
    rw [hprec, pow_one] at hround
    dsimp only
    rw [hprec, shown_one, ← hround, Int.cast_natCast]

/-- Pong used 5.05 percent of a second in the system, which is read as 5.5. -/
theorem parse_line_slight : ∃ line usage, show_periodic_stats_data slight = some line ∧
    parse line = some { rate := 0, switches := fun _ => (0, 0), usage } ∧
    (∀ column, usage column = shown column.prec (rounded slight column)) ∧
    ∀ column ≠ .pongSys, 0 ≤ column.value slight → column.value slight * 10 < 2 ^ 63 →
      usage column = round (column.value slight * 10) / 10 := by
  have hrate : pings_per_second slight = some 0 := by decide +kernel
  exact parse_line hrate

@[simp] theorem bytes_nil : bytes [] = 0 := rfl

@[simp] theorem bytes_cons (c : Char) (cs : List Char) :
    bytes (c :: cs) = c.utf8Size + bytes cs := List.sum_cons

@[simp] theorem bytes_append (cs cs' : List Char) : bytes (cs ++ cs') = bytes cs + bytes cs' := by
  simp [bytes]

@[simp] theorem bytes_replicate (n : Nat) (c : Char) :
    bytes (List.replicate n c) = n * c.utf8Size := by
  simp [bytes]

theorem bytes_digits {ds : List Nat} (h : ∀ d ∈ ds, d < 10) : bytes (ds.map digit) = ds.length := by
  have hone : ∀ d < 10, (digit d).utf8Size = 1 := by decide
  induction ds with
  | nil => rfl
  | cons d ds ih =>
    obtain ⟨hd, hds⟩ := List.forall_mem_cons.mp h
    rw [List.map_cons, bytes_cons, hone d hd, ih hds, List.length_cons, Nat.add_comm]

theorem utf8Size_blank : (' ' : Char).utf8Size = 1 := by decide

theorem utf8Size_point : ('.' : Char).utf8Size = 1 := by decide

theorem bytes_padded (width : Nat) (text : List Char) :
    bytes (padded width text) = max width (bytes text) := by
  rw [padded, bytes_append, bytes_replicate, utf8Size_blank]
  omega

theorem bytes_lu {pad : Char} (hpad : pad.utf8Size = 1) (width n : Nat) :
    bytes (lu pad width n) = max width (digitsOf n).length := by
  rw [lu, List.leftpad, bytes_append, bytes_replicate, hpad, List.length_map,
    bytes_digits (digitsOf_lt n)]
  omega

theorem bytes_integerText_le_iff (n : Int) (width : Nat) (hw : 0 < width) :
    bytes (integerText n) ≤ width + 1 ↔ -10 ^ width < n ∧ n < 10 ^ (width + 1) := by
  have hneg := length_digitsOf_le_iff n.natAbs hw
  have hpos := length_digitsOf_le_iff n.natAbs width.succ_pos
  zify at hneg hpos
  have hp : (0 : Int) < 10 ^ width := by positivity
  have hp' : (0 : Int) < 10 ^ (width + 1) := by positivity
  rw [integerText, bytes_append, bytes_digits (digitsOf_lt _)]
  by_cases hn : n < 0
  · have hminus : bytes ['-'] = 1 := by decide
    rw [if_pos hn, hminus]
    rw [abs_of_neg hn] at hneg
    omega
  · rw [if_neg hn, bytes_nil]
    rw [abs_of_nonneg (not_lt.mp hn)] at hpos
    omega

def FitsFive (n : Int) : Prop := -10 ^ 4 < n ∧ n < 10 ^ 5

structure Fits (i_stats : IntervalStats) (rate : Nat) : Prop where
  run_time : ∀ text ∈ subsec_string (some i_stats.run_time) 1, bytes text ≤ 7
  rate : rate < 10 ^ 12
  switches : ∀ i, FitsFive (i_stats.rusage i).ru_nvcsw ∧ FitsFive (i_stats.rusage i).ru_nivcsw
  usage : ∀ column, rounded i_stats column < 100 * 10 ^ column.prec ∧
    rounded i_stats column % 10 ^ column.prec < 10

theorem bytes_switches (r : Rusage) : bytes (switches r) =
    6 + max 5 (bytes (integerText r.ru_nvcsw)) + max 5 (bytes (integerText r.ru_nivcsw)) := by
  have hfixed : bytes " | ".toList = 3 ∧ bytes " / ".toList = 3 := by decide
  rw [switches, bytes_append, bytes_append, bytes_append, bytes_padded, bytes_padded]
  omega

theorem bytes_text (fp : IntegerFixedPoint) : bytes (text fp) =
    1 + max 2 (digitsOf fp.i).length + max 1 (digitsOf fp.dec).length := by
  rw [text, bytes_append, bytes_cons, utf8Size_point, bytes_lu utf8Size_blank, bytes_lu (by decide)]
  omega

theorem bytes_usages (fp1 fp2 : IntegerFixedPoint) :
    bytes (usages fp1 fp2) = 6 + bytes (text fp1) + bytes (text fp2) := by
  have hfixed : bytes "  ".toList = 2 ∧ bytes "%  ".toList = 3 ∧ bytes "%".toList = 1 := by decide
  rw [usages, bytes_append, bytes_append, bytes_append, bytes_append]
  omega

theorem bytes_switches_iff (r : Rusage) : 16 ≤ bytes (switches r) ∧
    (bytes (switches r) = 16 ↔ FitsFive r.ru_nvcsw ∧ FitsFive r.ru_nivcsw) := by
  have h0 := bytes_integerText_le_iff r.ru_nvcsw 4 (by decide)
  have h1 := bytes_integerText_le_iff r.ru_nivcsw 4 (by decide)
  rw [FitsFive, FitsFive, ← h0, ← h1, bytes_switches]
  omega

theorem bytes_text_iff (fp : IntegerFixedPoint) : 4 ≤ bytes (text fp) ∧
    (bytes (text fp) = 4 ↔ fp.i < 100 ∧ fp.dec < 10) := by
  have hi := length_digitsOf_le_iff fp.i Nat.two_pos
  have hdec := length_digitsOf_le_iff fp.dec Nat.one_pos
  rw [bytes_text]
  omega

theorem rounded_fits_iff (i_stats : IntervalStats) (column : Column) :
    (fixedPoint i_stats column).i < 100 ∧ (fixedPoint i_stats column).dec < 10 ↔
      rounded i_stats column < 100 * 10 ^ column.prec ∧
        rounded i_stats column % 10 ^ column.prec < 10 := by
  rw [fixedPoint, Nat.div_lt_iff_lt_mul (by positivity)]

theorem bytes_number (h : 0 ≤ x) (hdec : 0 < dec_pts) (fp : IntegerFixedPoint) :
    bytes (number dec_pts x fp) ≤ dec_pts + 4 := by
  have hx := fract_nonneg h
  have hwhole : (wholeDigits x fp.i).length ≤ 3 := by
    unfold wholeDigits
    split_ifs <;> simp
  rw [number, if_pos hdec, whole_eq, truncl_nonneg h, Int.cast_natCast, fraction_eq dec_pts hx,
    bytes_append, bytes_cons, bytes_digits (wholeDigits_lt x fp.i),
    bytes_digits (places_lt hx (fract_lt_one x)), length_places, utf8Size_point]
  omega

/-- A time has three digits before the point at most, and seconds are one byte. -/
theorem bytes_subsec_string {size : Option Rat} {text : List Char} (hpos : 0 < dec_pts)
    (hdec : dec_pts ≤ 19) (htext : subsec_string size dec_pts = some text) :
    bytes text ≤ dec_pts + 7 ∧ ((∃ x ∈ size, 1 ≤ x) → bytes text ≤ dec_pts + 6) := by
  cases size with
  | none =>
    obtain rfl := Option.some.inj htext
    have hbytes : bytes ['∞'] = 3 := by decide
    exact ⟨by omega, fun _ => by omega⟩
  | some size =>
    obtain ⟨x, fp, mult, hx, hmult, hone, heq⟩ := subsec_string_scaled size hdec
    obtain rfl := Option.some.inj (heq.symm.trans htext)
    have hunit : ∀ mult < max_mult, bytes (unit mult) ≤ 2 := by decide
    have hsecond : bytes (unit 0) = 1 := by decide
    have hnumber := bytes_number hx hpos fp
    have hle := hunit mult hmult
    rw [bytes_append, bytes_cons, utf8Size_blank]
    refine ⟨by omega, ?_⟩
    rintro ⟨x, hx, h⟩
    obtain rfl := Option.some.inj hx
    obtain rfl := hone h
    omega

def Plain (text : List Char) : Prop := bytes text = text.length

instance (text : List Char) : Decidable (Plain text) :=
  inferInstanceAs (Decidable (bytes text = text.length))

theorem Plain.append {cs cs' : List Char} (h : Plain cs) (h' : Plain cs') : Plain (cs ++ cs') := by
  rw [Plain] at h h' ⊢
  rw [bytes_append, List.length_append, h, h']

theorem Plain.cons {c : Char} {cs : List Char} (hc : c.utf8Size = 1) (h : Plain cs) :
    Plain (c :: cs) := by
  rw [Plain] at h ⊢
  rw [bytes_cons, List.length_cons, hc, h, Nat.add_comm]

theorem plain_digits {ds : List Nat} (h : ∀ d ∈ ds, d < 10) : Plain (ds.map digit) := by
  rw [Plain, bytes_digits h, List.length_map]

theorem Plain.padded {text : List Char} (h : Plain text) (width : Nat) :
    Plain (padded width text) := by
  rw [Plain] at h ⊢
  rw [StatsLine.padded, bytes_append, bytes_replicate, List.length_append, List.length_replicate,
    h, utf8Size_blank, Nat.mul_one]

theorem plain_lu {pad : Char} (hpad : pad.utf8Size = 1) (width n : Nat) :
    Plain (lu pad width n) := by
  rw [Plain, bytes_lu hpad, lu, List.length_leftpad, List.length_map]

theorem plain_integerText (n : Int) : Plain (integerText n) := by
  refine Plain.append ?_ (plain_digits (digitsOf_lt _))
  by_cases hn : n < 0
  · rw [if_pos hn]
    decide
  · rw [if_neg hn]
    rfl

theorem plain_switches (r : Rusage) : Plain (switches r) := by
  have hnv := (plain_integerText r.ru_nvcsw).padded 5
  have hniv := (plain_integerText r.ru_nivcsw).padded 5
  exact ((Plain.append (by decide) hnv).append (by decide)).append hniv

theorem plain_text (fp : IntegerFixedPoint) : Plain (text fp) :=
  (plain_lu (by decide) 2 fp.i).append ((plain_lu (by decide) 1 fp.dec).cons (by decide))

theorem plain_usages (fp1 fp2 : IntegerFixedPoint) : Plain (usages fp1 fp2) :=
  ((((Plain.append (by decide) (plain_text fp1)).append (by decide)).append
    (plain_text fp2)).append (by decide))

theorem plain_number (h : 0 ≤ x) (dec_pts : Nat) (fp : IntegerFixedPoint) :
    Plain (number dec_pts x fp) := by
  have hx := fract_nonneg h
  rw [number, whole_eq, truncl_nonneg h, Int.cast_natCast, fraction_eq dec_pts hx]
  refine (plain_digits (wholeDigits_lt x fp.i)).append ?_
  by_cases hdec : 0 < dec_pts
  · rw [if_pos hdec]
    exact (plain_digits (places_lt hx (fract_lt_one x))).cons (by decide)
  · rw [if_neg hdec]
    rfl

theorem plain_subsec_string {text : List Char} (hdec : dec_pts ≤ 19)
    (htext : subsec_string (some size) dec_pts = some text) : Plain text := by
  obtain ⟨x, fp, mult, hx, hmult, -, heq⟩ := subsec_string_scaled size hdec
  obtain rfl := Option.some.inj (heq.symm.trans htext)
  have hunit : ∀ mult < max_mult, Plain (unit mult) := by decide
  exact (plain_number hx dec_pts fp).append ((hunit mult hmult).cons (by decide))

def Long (n : Int) : Prop := -2 ^ 63 ≤ n ∧ n < 2 ^ 63

/-- The buffer of `show_periodic_stats_data`. -/
def OUTPUT_BUFFER_LEN : Nat := 400

theorem bytes_general (run : List Char) (rate : Nat) {it : List Char}
    (hit : subsec_string i_stats.iteration_time 2 = some it) :
    bytes (padded 7 run ++ ' ' :: lu ' ' 12 rate ++ ' ' :: padded 11 it) =
      13 + max 7 (bytes run) + max 12 (digitsOf rate).length := by
  have hle := (bytes_subsec_string two_pos (by decide) hit).1
  rw [bytes_append, bytes_append, bytes_cons, bytes_cons, bytes_padded, bytes_padded,
    bytes_lu utf8Size_blank, utf8Size_blank]
  omega

theorem bytes_flatten_iff {general : List Char} {r0 r1 : Rusage}
    {fp1 fp2 fp3 fp4 : IntegerFixedPoint} (h : 32 ≤ bytes general) :
    bytes [general, switches r0, usages fp1 fp2, switches r1, usages fp3 fp4,
      "\n".toList].flatten = bytes headerFields ↔
    bytes general = 32 ∧ (bytes (switches r0) = 16 ∧ bytes (switches r1) = 16) ∧
      bytes (text fp1) = 4 ∧ bytes (text fp2) = 4 ∧ bytes (text fp3) = 4 ∧
      bytes (text fp4) = 4 := by
  have hheader : bytes headerFields = 93 := by decide
  have hlast : bytes "\n".toList = 1 := by decide
  have hr (r : Rusage) := (bytes_switches_iff r).1
  have ht (fp : IntegerFixedPoint) := (bytes_text_iff fp).1
  have h0 := hr r0
  have h1 := hr r1
  have h2 := ht fp1
  have h3 := ht fp2
  have h4 := ht fp3
  have h5 := ht fp4
  rw [hheader]
  simp only [List.flatten_cons, List.flatten_nil, bytes_append, bytes_nil, bytes_usages, hlast]
  omega

theorem fits_iff {run : List Char} (hrun : subsec_string (some i_stats.run_time) 1 = some run) :
    Fits i_stats rate ↔ (bytes run ≤ 7 ∧ (digitsOf rate).length ≤ 12) ∧
      (bytes (switches (i_stats.rusage .ping)) = 16 ∧
        bytes (switches (i_stats.rusage .pong)) = 16) ∧
      ∀ column, bytes (text (fixedPoint i_stats column)) = 4 := by
  rw [length_digitsOf_le_iff rate (by decide), (bytes_switches_iff _).2, (bytes_switches_iff _).2]
  have husage : (∀ column, bytes (text (fixedPoint i_stats column)) = 4) ↔ ∀ column,
      rounded i_stats column < 100 * 10 ^ column.prec ∧
        rounded i_stats column % 10 ^ column.prec < 10 :=
    forall_congr' fun column => (bytes_text_iff _).2.trans (rounded_fits_iff i_stats column)
  rw [husage]
  constructor
  · rintro ⟨htime, hrate, hswitches, husage⟩
    exact ⟨⟨htime run hrun, hrate⟩, ⟨hswitches .ping, hswitches .pong⟩, husage⟩
  · rintro ⟨⟨htime, hrate⟩, ⟨hping, hpong⟩, husage⟩
    refine ⟨fun text htext => ?_, hrate, fun i => ?_, husage⟩
    · obtain rfl := Option.some.inj (hrun.symm.trans htext)
      exact htime
    · cases i
      · exact hping
      · exact hpong

theorem rounded_le (i_stats : IntervalStats) (column : Column) :
    rounded i_stats column ≤ 2 ^ 63 := by
  have hle (f : Rat) : (llroundl f).natAbs ≤ 2 ^ 63 := by
    unfold llroundl
    extract_lets i
    split_ifs <;> omega
  exact hle _

theorem bytes_text_le (i_stats : IntervalStats) (column : Column) :
    bytes (text (fixedPoint i_stats column)) ≤ 22 := by
  have hprec : 1 ≤ column.prec ∧ column.prec ≤ 2 := by cases column <;> decide
  have hi : rounded i_stats column / 10 ^ column.prec < 10 ^ 19 :=
    (Nat.div_le_self _ _).trans_lt ((rounded_le i_stats column).trans_lt (by decide))
  have hdec : rounded i_stats column % 10 ^ column.prec < 10 ^ 2 :=
    (Nat.mod_lt _ (by positivity)).trans_le (Nat.pow_le_pow_right (by decide) hprec.2)
  rw [← length_digitsOf_le_iff _ (by decide)] at hi hdec
  rw [bytes_text, fixedPoint]
  dsimp only
  omega

theorem bytes_switches_le {r : Rusage} (h : Long r.ru_nvcsw ∧ Long r.ru_nivcsw) :
    bytes (switches r) ≤ 46 := by
  have hlong {n : Int} (hn : Long n) : bytes (integerText n) ≤ 20 := by
    rw [bytes_integerText_le_iff n 19 (by decide)]
    unfold Long at hn
    omega
  have hnv := hlong h.1
  have hniv := hlong h.2
  rw [bytes_switches]
  omega

theorem rate_lt (hrate : pings_per_second i_stats = some rate) : rate < 10 ^ 20 := by
  unfold pings_per_second StatsReport.ld_to_ull at hrate
  split_ifs at hrate with h0 h
  obtain rfl := Option.some.inj hrate
  have hfloor := (Nat.floor_lt' (by decide : 2 ^ 64 ≠ 0)).mpr (by exact_mod_cast h.2)
  exact hfloor.trans (by decide)

theorem bytes_general_lt {run it : List Char}
    (hrun : subsec_string (some i_stats.run_time) 1 = some run)
    (hit : subsec_string i_stats.iteration_time 2 = some it)
    (hrate : pings_per_second i_stats = some rate) :
    bytes (padded 7 run ++ ' ' :: lu ' ' 12 rate ++ ' ' :: padded 11 it) < OUTPUT_BUFFER_LEN := by
  have hrun' := (bytes_subsec_string one_pos (by decide) hrun).1
  have hrate' := rate_lt hrate
  rw [← length_digitsOf_le_iff rate (by decide)] at hrate'
  rw [bytes_general run rate hit, OUTPUT_BUFFER_LEN]
  omega

theorem bytes_usages_lt (i_stats : IntervalStats) (column column' : Column) :
    bytes (usages (fixedPoint i_stats column) (fixedPoint i_stats column')) < OUTPUT_BUFFER_LEN := by
  have h := bytes_text_le i_stats column
  have h' := bytes_text_le i_stats column'
  rw [bytes_usages, OUTPUT_BUFFER_LEN]
  omega

/-- The sign of an interval without exchanges is one character of three bytes. -/
theorem length_iteration_time {it : List Char}
    (hit : subsec_string i_stats.iteration_time 2 = some it) :
    (padded 11 it).length + (if i_stats.iteration_time = none then 2 else 0) =
      bytes (padded 11 it) := by
  cases h : i_stats.iteration_time with
  | none =>
    rw [h] at hit
    obtain rfl := Option.some.inj hit
    decide
  | some size => exact ((plain_subsec_string (by decide) (h ▸ hit)).padded 11).symm

theorem length_general {run it : List Char}
    (hrun : subsec_string (some i_stats.run_time) 1 = some run)
    (hit : subsec_string i_stats.iteration_time 2 = some it) (rate : Nat) :
    (padded 7 run ++ ' ' :: lu ' ' 12 rate ++ ' ' :: padded 11 it).length +
        (if i_stats.iteration_time = none then 2 else 0) =
      bytes (padded 7 run ++ ' ' :: lu ' ' 12 rate ++ ' ' :: padded 11 it) := by
  have hrun' := (plain_subsec_string (by decide) hrun).padded 7
  have hrate' := plain_lu utf8Size_blank 12 rate
  have hit' := length_iteration_time hit
  rw [Plain] at hrun' hrate'
  simp only [bytes_append, List.length_append, bytes_cons, List.length_cons, utf8Size_blank]
  omega

theorem plain_workers (r0 r1 : Rusage) (fp1 fp2 fp3 fp4 : IntegerFixedPoint) :
    Plain [switches r0, usages fp1 fp2, switches r1, usages fp3 fp4, "\n".toList].flatten :=
  (plain_switches _).append ((plain_usages _ _).append ((plain_switches _).append
    ((plain_usages _ _).append (by decide))))

/-- A line has as many bytes as the names of its fields if and only if every field fits its
width, which the run time does from the first second on. No piece fills the buffer. The sign of an
interval without exchanges is one character of three bytes, so its line is two characters
shorter. -/
theorem line_aligned (hrate : pings_per_second i_stats = some rate) : ∃ ps,
    pieces i_stats = some ps ∧
    (bytes ps.flatten = bytes headerFields ↔ Fits i_stats rate) ∧
    (1 ≤ i_stats.run_time → ∀ text ∈ subsec_string (some i_stats.run_time) 1, bytes text ≤ 7) ∧
    ((∀ i, Long (i_stats.rusage i).ru_nvcsw ∧ Long (i_stats.rusage i).ru_nivcsw) →
      ∀ p ∈ ps, bytes p < OUTPUT_BUFFER_LEN) ∧
    ps.flatten.length + (if i_stats.iteration_time = none then 2 else 0) = bytes ps.flatten := by
  obtain ⟨run, hrun⟩ := subsec_string_eq (some i_stats.run_time) (show 1 ≤ 19 by omega)
  obtain ⟨it, hit⟩ := subsec_string_eq i_stats.iteration_time (show 2 ≤ 19 by omega)
  have hgeneral := bytes_general run rate hit
  refine ⟨_, pieces_eq hrun hit hrate, ?_, ?_, ?_, ?_⟩
  · rw [bytes_flatten_iff (by omega), fits_iff hrun, hgeneral]
    refine and_congr (by omega) (and_congr Iff.rfl ⟨?_, fun h => ⟨h _, h _, h _, h _⟩⟩)
    rintro ⟨h1, h2, h3, h4⟩ column
    cases column <;> assumption
  · intro hone text htext
    exact (bytes_subsec_string one_pos (by decide) htext).2 ⟨_, rfl, hone⟩
  · intro hlong
    have hswitches (i) := bytes_switches_le (hlong i)
    simp only [List.forall_mem_cons, List.not_mem_nil, false_imp_iff, implies_true, and_true]
    exact ⟨bytes_general_lt hrun hit hrate, (hswitches .ping).trans_lt (by decide),
      bytes_usages_lt .., (hswitches .pong).trans_lt (by decide), bytes_usages_lt .., by decide⟩
  · have hrest := plain_workers (i_stats.rusage .ping) (i_stats.rusage .pong)
      (fixedPoint i_stats .pingUser) (fixedPoint i_stats .pingSys)
      (fixedPoint i_stats .pongUser) (fixedPoint i_stats .pongSys)
    have hlength := length_general hrun hit rate
    rw [Plain] at hrest
    rw [List.flatten_cons, bytes_append, List.length_append]
    omega

theorem line_aligned_busy : ∃ ps, pieces busy = some ps ∧
    (bytes ps.flatten = bytes headerFields ↔ Fits busy 0) ∧
    (1 ≤ busy.run_time → ∀ text ∈ subsec_string (some busy.run_time) 1, bytes text ≤ 7) ∧
    ((∀ i, Long (busy.rusage i).ru_nvcsw ∧ Long (busy.rusage i).ru_nivcsw) →
      ∀ p ∈ ps, bytes p < OUTPUT_BUFFER_LEN) ∧
    ps.flatten.length + (if busy.iteration_time = none then 2 else 0) = bytes ps.flatten := by
  have hrate : pings_per_second busy = some 0 := by decide +kernel
  exact line_aligned hrate

end PingPong.StatsLine
