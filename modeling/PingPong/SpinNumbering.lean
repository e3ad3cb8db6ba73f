import Mathlib.Data.Char
import Mathlib.Data.List.Lex
import Mathlib.Data.Prod.Lex
import PingPong.Qsort
import PingPong.SpinOptions

namespace PingPong.SpinNumbering

open CommSpin CString Qsort TransitionSystem
open SpinOptions (Options Stop initial)

variable {qsort : Nat → Compar SpinMemsync → List SpinMemsync → List SpinMemsync}
  {table numbering : List SpinMemsync}

/-- The order of the methods. The last comparison is that of the addresses. -/
def compare_memsync_structs : Compar SpinMemsync := fun (p1, s1) (p2, s2) =>
  if s1.sequence < s2.sequence then -1
  else if s2.sequence < s1.sequence then 1
  else
    let ret := strcmp s1.fn_name.toList s2.fn_name.toList
    if ret ≠ 0 then ret
    else
      let ret := strcmp s1.description.toList s2.description.toList
      if ret ≠ 0 then ret else if p1 < p2 then 1 else 0

structure Statics where
  spin_memsync_method_count : Int
  spin_memsync_info : List SpinMemsync
  options : Options
  spin_num : Nat

def start : Statics := ⟨-1, [], initial, 0⟩

/-- The array at address `base`, of the entries that the linker has put into the section. -/
def setup_memsync_info (qsort : Nat → Compar SpinMemsync → List SpinMemsync → List SpinMemsync)
    (table : List SpinMemsync) (base : Nat) (s : Statics) : Statics :=
  if s.spin_memsync_method_count ≠ -1 then s
  else { s with
    spin_memsync_method_count := table.length
    spin_memsync_info := qsort base compare_memsync_structs table }

/-- What was freed is not read again. -/
def drop_memsync_info (s : Statics) : Statics :=
  { s with
    spin_memsync_method_count := -1
    spin_memsync_info := if s.spin_memsync_method_count ≠ -1 then [] else s.spin_memsync_info }

/-- What is printed for a method: two of them stand in a line. -/
def show_method (indent_string : String) (method : SpinMemsync) (i : Nat) : String :=
  (if i % 2 = 0 then indent_string else "") ++ " " ++ toString i ++ " - " ++
    method.description.rightpad 23 ++ if i % 2 = 0 then "" else "\n"

def heading (indent_string : String) : String :=
  indent_string ++
    " options which may be specified for both ping/pong (use '##') or each (use '##,##'):\n"

def show_methods (indent_string : String) (info : List SpinMemsync) : List String :=
  heading indent_string :: info.zipIdx.map fun (method, i) => show_method indent_string method i

def entry (info : List SpinMemsync) (index : Int) : Except Stop SpinMemsync :=
  match index, info[index.toNat]? with
  | .ofNat _, some method => .ok method
  | _, _ => .error (.outside index)

def remainder (info : List SpinMemsync) (max_value : Int) (s : Options) (value : Int) :
    List Char → Except Stop Options
  | [] => .ok { s with mem_sync_method_pong := value }
  | c :: p_remainder =>
    if c = ',' then
      let value := (strtol p_remainder).1
      if value < 0 ∨ max_value < value then
        .error (.exit_fail ("Option value " ++ toString value ++
          " is outside the appropriate range (0-" ++ toString max_value ++ ")\n"))
      else .ok { s with mem_sync_method_pong := value }
    else do
      let method ← entry info s.mem_sync_method_ping
      return s.print ("Unrecognized option value specified ('" ++
        String.ofList (c :: p_remainder) ++ "').  Pong falling back to use '" ++
        method.description ++ "' as with ping\n")

def default (info : List SpinMemsync) (s : Options) : Except Stop Options := do
  let method ← entry info 0
  let s := s.print ("No memory sync method specified.  Defaulting to '" ++
    method.description ++ "'\n")
  return { s with mem_sync_method_ping := 0, mem_sync_method_pong := 0 }

def setInfo (info : List SpinMemsync) (s : Options) : Except Stop Options := do
  let ping ← entry info s.mem_sync_method_ping
  let pong ← entry info s.mem_sync_method_pong
  return { s with mem_sync_method_ping_info := some ping, mem_sync_method_pong_info := some pong }

def finish (info : List SpinMemsync) (s : Options) : Except Stop Options :=
  if s.mem_sync_method_ping = -1 then default info s >>= setInfo info else setInfo info s

section Calls

variable (qsort : Nat → Compar SpinMemsync → List SpinMemsync → List SpinMemsync)
  (table : List SpinMemsync) (base : Nat)

def comm_spin_show_options (indent_string : String) (s : Statics) : Statics :=
  let s := setup_memsync_info qsort table base s
  let lines := show_methods indent_string s.spin_memsync_info ++
    if s.spin_memsync_method_count % 2 ≠ 0 then ["\n"] else []
  drop_memsync_info { s with options.stdout := s.options.stdout ++ lines }

def comm_spin_parse_options (option_string : List Char) (s : Statics) : Except Stop Statics := do
  let s := setup_memsync_info qsort table base s
  let max_value := s.spin_memsync_method_count - 1
  let (value, p_remainder) := strtol option_string
  if value < 0 ∨ max_value < value ∨ p_remainder = 0 then
    .error (.exit_fail ("Unable to correctly parse '" ++ String.ofList option_string ++
      "'...  expected an integer from 0-" ++ toString max_value ++ "\n"))
  else
    let options := { s.options with mem_sync_method_ping := value }
    let options ← remainder s.spin_memsync_info max_value options value
      (option_string.drop p_remainder)
    let options ← finish s.spin_memsync_info options
    return drop_memsync_info { s with options }

def firstPair (s : Statics) : Except Stop Statics :=
  if s.spin_num = 0 ∧ s.options.mem_sync_method_ping = -1 then do
    let s := setup_memsync_info qsort table base s
    let options ← default s.spin_memsync_info s.options
    let options ← setInfo s.spin_memsync_info options
    return drop_memsync_info { s with options }
  else .ok s

def make_spin_pair (s : Statics) : Except Stop ((Nat × Nat) × Statics) := do
  let s ← firstPair qsort table base s
  return ((s.spin_num, s.spin_num), { s with spin_num := s.spin_num + 1 })

inductive Call
  | show_options (indent_string : String)
  | parse_options (option_string : List Char)
  | make_pair

/-- A call that does not return ends the program. -/
def call : Call → Statics → Option Statics
  | .show_options indent_string, s => some (comm_spin_show_options qsort table base indent_string s)
  | .parse_options option_string, s =>
    (comm_spin_parse_options qsort table base option_string s).toOption
  | .make_pair, s => (make_spin_pair qsort table base s).toOption.map (·.2)

end Calls

/-- Any calls in any order, each with the address that its array has. -/
def system (qsort : Nat → Compar SpinMemsync → List SpinMemsync → List SpinMemsync)
    (table : List SpinMemsync) : System Statics (Nat × Call) :=
  ⟨(· = start), fun c => call qsort table c.1 c.2⟩

def key (method : SpinMemsync) : Int ×ₗ List Char ×ₗ List Char :=
  toLex (method.sequence, toLex (method.fn_name.toList, method.description.toList))

theorem key_lt_key (x y : SpinMemsync) : key x < key y ↔ x.sequence < y.sequence ∨
    x.sequence = y.sequence ∧ (x.fn_name.toList < y.fn_name.toList ∨
      x.fn_name.toList = y.fn_name.toList ∧ x.description.toList < y.description.toList) := by
  rw [key, key, Prod.Lex.toLex_lt_toLex, Prod.Lex.toLex_lt_toLex]

/-- The addresses never make an element smaller. -/
theorem compare_lt_zero (x y : SpinMemsync) (p q : Nat) :
    compare_memsync_structs (p, x) (q, y) < 0 ↔ key x < key y := by
  simp only [key_lt_key, compare_memsync_structs, ← strcmp_lt_zero, ← strcmp_eq_zero]
  split_ifs <;> omega

theorem zero_lt_compare (x y : SpinMemsync) (p q : Nat) (hne : key x ≠ key y) :
    0 < compare_memsync_structs (p, x) (q, y) ↔ key y < key x := by
  have hle : key y < key x ↔ ¬ key x < key y := by
    rw [not_lt, le_iff_lt_or_eq, or_iff_left hne.symm]
  have hsame : ¬ (x.sequence = y.sequence ∧ x.fn_name.toList = y.fn_name.toList ∧
      x.description.toList = y.description.toList) := by
    rintro ⟨h1, h2, h3⟩
    exact hne (by rw [key, key, h1, h2, h3])
  rw [hle, ← compare_lt_zero x y p q]
  simp only [compare_memsync_structs, ← strcmp_eq_zero] at hsame ⊢
  split_ifs <;> omega

theorem strictTotal (hn : (table.map (·.fn_name)).Nodup) :
    StrictTotal compare_memsync_structs table := by
  apply strictTotal_of_key key compare_lt_zero zero_lt_compare
  intro x hx y hy hxy heq
  have hname : x.fn_name.toList = y.fn_name.toList := congrArg (fun k => (ofLex (ofLex k).2).1) heq
  exact hxy (List.inj_on_of_nodup_map hn hx hy (String.toList_inj.mp hname))

variable {s s' : Statics} {o o' : Options} {base : Nat}

structure Selected (numbering : List SpinMemsync) (n m : Fin numbering.length) (o : Options) :
    Prop where
  ping : o.mem_sync_method_ping = n
  pong : o.mem_sync_method_pong = m
  ping_info : o.mem_sync_method_ping_info = some (numbering.get n)
  pong_info : o.mem_sync_method_pong_info = some (numbering.get m)

theorem entry_fin (n : Fin numbering.length) : entry numbering n = .ok (numbering.get n) := by
  simp [entry]

theorem entry_ok {index : Int} {method : SpinMemsync} (h : entry numbering index = .ok method) :
    ∃ n : Fin numbering.length, index = n ∧ method = numbering.get n := by
  unfold entry at h
  split at h
  · rename_i n found hget
    obtain ⟨hlt, heq⟩ := List.getElem?_eq_some_iff.mp hget
    exact ⟨⟨n, hlt⟩, rfl, (Except.ok.inj h).symm.trans heq.symm⟩
  · cases h

theorem bind_ok {ε α β : Type} {r : Except ε α} {f : α → Except ε β} {b : β}
    (h : r >>= f = .ok b) : ∃ a, r = .ok a ∧ f a = .ok b := by
  cases r with
  | error e => cases h
  | ok a => exact ⟨a, rfl, h⟩

theorem ok_of_toOption {ε α : Type} {r : Except ε α} {a : α} (h : r.toOption = some a) :
    r = .ok a := by
  cases r with
  | error e => cases h
  | ok b => exact congrArg _ (Option.some.inj h)

theorem setInfo_eq {n m : Fin numbering.length} (hn : o.mem_sync_method_ping = n)
    (hm : o.mem_sync_method_pong = m) :
    ∃ o', setInfo numbering o = .ok o' ∧ Selected numbering n m o' := by
  refine ⟨{ o with
    mem_sync_method_ping_info := some (numbering.get n)
    mem_sync_method_pong_info := some (numbering.get m) }, ?_, hn, hm, rfl, rfl⟩
  simp only [setInfo, hn, hm, entry_fin]
  rfl

theorem setInfo_ok (h : setInfo numbering o = .ok o') :
    ∃ n m : Fin numbering.length, o.mem_sync_method_ping = n ∧ Selected numbering n m o' := by
  obtain ⟨ping, hping, h⟩ := bind_ok h
  obtain ⟨pong, hpong, h⟩ := bind_ok h
  obtain ⟨n, hn, rfl⟩ := entry_ok hping
  obtain ⟨m, hm, rfl⟩ := entry_ok hpong
  cases h
  exact ⟨n, m, hn, hn, hm, rfl, rfl⟩

theorem default_eq (hpos : 0 < numbering.length) : ∃ o', default numbering o = .ok o' ∧
    o'.mem_sync_method_ping = 0 ∧ o'.mem_sync_method_pong = 0 := by
  have hentry : entry numbering 0 = .ok (numbering.get ⟨0, hpos⟩) := entry_fin ⟨0, hpos⟩
  refine ⟨_, by simp only [default, hentry]; rfl, rfl, rfl⟩

theorem remainder_ping {max_value value : Int} {text : List Char}
    (h : remainder numbering max_value o value text = .ok o') :
    o'.mem_sync_method_ping = o.mem_sync_method_ping := by
  cases text with
  | nil =>
    cases h
    rfl
  | cons c p_remainder =>
    rw [remainder] at h
    split_ifs at h
    · dsimp only at h
      split_ifs at h
      cases h
      rfl
    · obtain ⟨method, -, h⟩ := bind_ok h
      cases h
      rfl

theorem setup_eq (hs : s.spin_memsync_method_count = -1)
    (hq : qsort base compare_memsync_structs table = numbering) :
    setup_memsync_info qsort table base s = { s with
      spin_memsync_method_count := table.length
      spin_memsync_info := numbering } := by
  rw [setup_memsync_info, if_neg (not_not.mpr hs), hq]

theorem parse_ok {option_string : List Char} (hs : s.spin_memsync_method_count = -1)
    (hq : qsort base compare_memsync_structs table = numbering)
    (h : comm_spin_parse_options qsort table base option_string s = .ok s') :
    s'.spin_memsync_method_count = -1 ∧ ∃ n m : Fin numbering.length,
      (strtol option_string).1 = n ∧ Selected numbering n m s'.options := by
  simp only [comm_spin_parse_options, setup_eq hs hq] at h
  split_ifs at h with hbad
  obtain ⟨o, ho, h⟩ := bind_ok h
  obtain ⟨o', ho', h⟩ := bind_ok h
  cases h
  have hping := remainder_ping ho
  have hnonneg : 0 ≤ (strtol option_string).1 := not_lt.mp fun hlt => hbad (.inl hlt)
  have hne : o.mem_sync_method_ping ≠ -1 := by
    rw [hping]
    dsimp only
    omega
  rw [finish, if_neg hne] at ho'
  obtain ⟨n, m, hn, hsel⟩ := setInfo_ok ho'
  exact ⟨rfl, n, m, hping.symm.trans hn, hsel⟩

theorem parse_append {x : Numeral} {rest : List Char} {n m : Fin numbering.length}
    (hs : s.spin_memsync_method_count = -1)
    (hq : qsort base compare_memsync_structs table = numbering)
    (hlen : numbering.length = table.length) (hx : x.value = n) (hfits : x.value ≤ LONG_MAX)
    (hno : NoDigit rest)
    (hrest : remainder numbering (table.length - 1) { s.options with mem_sync_method_ping := n } n
      rest = .ok o) (hping : o.mem_sync_method_ping = n) (hpong : o.mem_sync_method_pong = m) :
    ∃ s', comm_spin_parse_options qsort table base (x.text ++ rest) s = .ok s' ∧
      Selected numbering n m s'.options := by
  have hmin : LONG_MIN < 0 := by decide
  have hvalue : max LONG_MIN (min LONG_MAX x.value) = n := by omega
  have hgood : ¬ ((n : Int) < 0 ∨ (table.length : Int) - 1 < n ∨ x.text.length = 0) := by
    have htext : x.text.length ≠ 0 := by simp [Numeral.text, x.ne_nil]
    have hn := n.isLt
    omega
  obtain ⟨o', ho', hsel⟩ := setInfo_eq hping hpong
  have hfinish : finish numbering o = .ok o' := by
    rw [finish, if_neg (by omega), ho']
  refine ⟨drop_memsync_info { s with
    spin_memsync_method_count := table.length
    spin_memsync_info := numbering
    options := o' }, ?_, hsel⟩
  simp only [comm_spin_parse_options, setup_eq hs hq, strtol_text_append x hno, hvalue,
    if_neg hgood, List.drop_left, hrest]
  simp only [bind, Except.bind, hfinish]
  rfl

theorem parse_both {x : Numeral} {n : Fin numbering.length}
    (hs : s.spin_memsync_method_count = -1)
    (hq : qsort base compare_memsync_structs table = numbering)
    (hlen : numbering.length = table.length) (hx : x.value = n) (hfits : x.value ≤ LONG_MAX) :
    ∃ s', comm_spin_parse_options qsort table base x.text s = .ok s' ∧
      Selected numbering n n s'.options := by
  have hno : NoDigit [] := by simp [NoDigit]
  obtain ⟨s', hs', hsel⟩ := parse_append (m := n) hs hq hlen hx hfits hno rfl rfl rfl
  exact ⟨s', by rwa [List.append_nil] at hs', hsel⟩

theorem parse_each {x y : Numeral} {n m : Fin numbering.length}
    (hs : s.spin_memsync_method_count = -1)
    (hq : qsort base compare_memsync_structs table = numbering)
    (hlen : numbering.length = table.length) (hx : x.value = n) (hxfits : x.value ≤ LONG_MAX)
    (hy : y.value = m) (hyfits : y.value ≤ LONG_MAX) :
    ∃ s', comm_spin_parse_options qsort table base (x.text ++ ',' :: y.text) s = .ok s' ∧
      Selected numbering n m s'.options := by
  have hmin : LONG_MIN < 0 := by decide
  have hvalue : (strtol y.text).1 = m := by
    rw [strtol_text]
    dsimp only
    omega
  have hgood : ¬ ((m : Int) < 0 ∨ (table.length : Int) - 1 < m) := by
    have hm := m.isLt
    omega
  refine parse_append hs hq hlen hx hxfits (SpinOptions.noDigit_comma y.text) (m := m)
    (o := { s.options with mem_sync_method_ping := n, mem_sync_method_pong := m }) ?_ rfl rfl
  rw [remainder, if_pos rfl]
  simp only [hvalue, if_neg hgood]

theorem firstPair_eq (hs : s.spin_memsync_method_count = -1)
    (hq : qsort base compare_memsync_structs table = numbering) (hpos : 0 < numbering.length)
    (hnum : s.spin_num = 0) (hping : s.options.mem_sync_method_ping = -1) :
    ∃ s', firstPair qsort table base s = .ok s' ∧ s'.spin_num = 0 ∧
      Selected numbering ⟨0, hpos⟩ ⟨0, hpos⟩ s'.options := by
  obtain ⟨o, ho, hping0, hpong0⟩ := default_eq (o := s.options) hpos
  obtain ⟨o', ho', hsel⟩ :=
    setInfo_eq (n := ⟨0, hpos⟩) (m := ⟨0, hpos⟩) hping0 hpong0
  refine ⟨drop_memsync_info { s with
    spin_memsync_method_count := table.length
    spin_memsync_info := numbering
    options := o' }, ?_, hnum, hsel⟩
  simp only [firstPair, if_pos (And.intro hnum hping), setup_eq hs hq, ho]
  simp only [bind, Except.bind, ho']
  rfl

/-- Between two calls there is no array, and the methods, if there are any, are entries. -/
structure Idle (numbering : List SpinMemsync) (s : Statics) : Prop where
  count : s.spin_memsync_method_count = -1
  methods : s.options.mem_sync_method_ping = -1 ∧ s.options.mem_sync_method_ping_info = none ∧
      s.options.mem_sync_method_pong_info = none ∨ ∃ n m, Selected numbering n m s.options

theorem Idle.firstPair (h : Idle numbering s)
    (hq : qsort base compare_memsync_structs table = numbering)
    (hs : firstPair qsort table base s = .ok s') : Idle numbering s' := by
  unfold SpinNumbering.firstPair at hs
  split_ifs at hs
  · obtain ⟨o, -, hs⟩ := bind_ok hs
    obtain ⟨o', ho', hs⟩ := bind_ok hs
    cases hs
    rw [setup_eq h.count hq] at ho'
    obtain ⟨n, m, -, hsel⟩ := setInfo_ok ho'
    exact ⟨rfl, .inr ⟨n, m, hsel⟩⟩
  · cases hs
    exact h

theorem Idle.call (h : Idle numbering s)
    (hq : qsort base compare_memsync_structs table = numbering) {c : Call}
    (hs : call qsort table base c s = some s') : Idle numbering s' := by
  cases c with
  | show_options indent_string =>
    cases hs
    rw [comm_spin_show_options, setup_eq h.count hq]
    refine ⟨rfl, h.methods.imp_right ?_⟩
    rintro ⟨n, m, hsel⟩
    exact ⟨n, m, hsel.ping, hsel.pong, hsel.ping_info, hsel.pong_info⟩
  | parse_options option_string =>
    obtain ⟨hcount, n, m, -, hsel⟩ := parse_ok h.count hq (ok_of_toOption hs)
    exact ⟨hcount, .inr ⟨n, m, hsel⟩⟩
  | make_pair =>
    obtain ⟨⟨fd, t⟩, ht, rfl⟩ := Option.map_eq_some_iff.mp hs
    obtain ⟨u, hu, heq⟩ := bind_ok (ok_of_toOption ht)
    cases heq
    have hidle := h.firstPair hq hu
    exact ⟨hidle.count, hidle.methods⟩

theorem reachable_idle (hq : ∀ base, qsort base compare_memsync_structs table = numbering)
    (h : Reachable (system qsort table) s) : Idle numbering s := by
  apply h.invariant
  · intro s hs
    obtain rfl : s = start := hs
    exact ⟨rfl, .inl ⟨rfl, rfl, rfl⟩⟩
  · intro s c t hi hn
    exact hi.call (hq c.1) hn

/-- Each text has the number of an entry in front of the description of that entry. -/
structure Lists (indent_string : String) (numbering : List SpinMemsync) (texts : List String) :
    Prop where
  length : texts.length = numbering.length
  text : ∀ n : Fin numbering.length, texts[(n : Nat)]? = some
    ((if (n : Nat) % 2 = 0 then indent_string else "") ++ " " ++ toString (n : Nat) ++ " - " ++
      (numbering.get n).description ++
      String.replicate (23 - (numbering.get n).description.length) ' ' ++
      if (n : Nat) % 2 = 0 then "" else "\n")

theorem lists_show_methods (indent_string : String) (numbering : List SpinMemsync) :
    ∃ texts, show_methods indent_string numbering = heading indent_string :: texts ∧
      Lists indent_string numbering texts := by
  refine ⟨_, rfl, by simp, fun n => ?_⟩
  have hget : numbering.zipIdx[(n : Nat)]? = some (numbering.get n, (n : Nat)) := by
    rw [List.getElem?_zipIdx, List.getElem?_eq_getElem n.isLt]
    simp
  rw [List.getElem?_map, hget]
  simp only [Option.map_some, show_method, String.rightpad, String.append_assoc]

/-- What the numbers of the methods mean, in every run of the calls: those that are listed,
those that are given as an option, and the default. -/
structure Numbers (qsort : Nat → Compar SpinMemsync → List SpinMemsync → List SpinMemsync)
    (table numbering : List SpinMemsync) : Prop where
  sorted : ∀ base, qsort base compare_memsync_structs table = numbering
  methods : ∀ s, Reachable (system qsort table) s → Idle numbering s
  listed : ∀ s base indent_string, Reachable (system qsort table) s →
    ∃ texts, Lists indent_string numbering texts ∧
      (comm_spin_show_options qsort table base indent_string s).options.stdout =
        s.options.stdout ++ heading indent_string :: texts ++
          if numbering.length % 2 ≠ 0 then ["\n"] else []
  accepted : ∀ s base option_string s', Reachable (system qsort table) s →
    comm_spin_parse_options qsort table base option_string s = .ok s' →
      ∃ n m : Fin numbering.length, (strtol option_string).1 = n ∧
        Selected numbering n m s'.options
  both : ∀ s base (x : Numeral) (n : Fin numbering.length), Reachable (system qsort table) s →
    x.value = n → x.value ≤ LONG_MAX →
      ∃ s', comm_spin_parse_options qsort table base x.text s = .ok s' ∧
        Selected numbering n n s'.options
  each : ∀ s base (x y : Numeral) (n m : Fin numbering.length), Reachable (system qsort table) s →
    x.value = n → x.value ≤ LONG_MAX → y.value = m → y.value ≤ LONG_MAX →
      ∃ s', comm_spin_parse_options qsort table base (x.text ++ ',' :: y.text) s = .ok s' ∧
        Selected numbering n m s'.options
  default : ∀ s base (hpos : 0 < numbering.length), Reachable (system qsort table) s →
    s.spin_num = 0 → s.options.mem_sync_method_ping = -1 →
      ∃ s', make_spin_pair qsort table base s = .ok ((0, 0), s') ∧
        Selected numbering ⟨0, hpos⟩ ⟨0, hpos⟩ s'.options

theorem numbers_of_sorted (hlen : numbering.length = table.length)
    (hq : ∀ base, qsort base compare_memsync_structs table = numbering) :
    Numbers qsort table numbering where
  sorted := hq
  methods _ := reachable_idle hq
  listed s base indent_string hr := by
    have hodd : (table.length : Int) % 2 ≠ 0 ↔ numbering.length % 2 ≠ 0 := by omega
    obtain ⟨texts, heq, hlists⟩ := lists_show_methods indent_string numbering
    refine ⟨texts, hlists, ?_⟩
    rw [comm_spin_show_options, setup_eq (reachable_idle hq hr).count (hq base)]
    simp only [drop_memsync_info, hodd, heq, List.append_assoc]
  accepted s base option_string s' hr hs :=
    (parse_ok (reachable_idle hq hr).count (hq base) hs).2
  both s base x n hr hx hfits :=
    parse_both (reachable_idle hq hr).count (hq base) hlen hx hfits
  each s base x y n m hr hx hxfits hy hyfits :=
    parse_each (reachable_idle hq hr).count (hq base) hlen hx hxfits hy hyfits
  default s base hpos hr hnum hping := by
    obtain ⟨s', hs', hnum', hsel⟩ :=
      firstPair_eq (reachable_idle hq hr).count (hq base) hpos hnum hping
    refine ⟨{ s' with spin_num := 1 }, ?_, hsel⟩
    simp only [make_spin_pair, hs', bind, Except.bind, hnum']
    rfl

/-- The numbers of the methods do not depend on the order in which the linker has put the
entries into the section, nor on where the arrays are. -/
theorem numbering_of_link_order (hsort : Sorts qsort) (hn : (table.map (·.fn_name)).Nodup) :
    ∃ numbering, ∀ table', table.Perm table' → Numbers qsort table' numbering := by
  have hnodup : table.Nodup := .of_map _ hn
  have ht := strictTotal hn
  refine ⟨qsort 0 compare_memsync_structs table, fun table' hp => ?_⟩
  refine numbers_of_sorted ?_ fun base => (hsort.eq_of_perm hnodup ht hp 0 base).symm
  exact ((hsort 0 _ table hnodup ht).1.trans hp).length_eq

theorem numbering_of_link_order_reversed : ∃ numbering, ∀ table',
    spin_memsync_info.reverse.Perm table' → Numbers mergesort table' numbering :=
  numbering_of_link_order sorts_mergesort (by decide)

theorem sorted_spin_memsync_info (hsort : Sorts qsort) (hp : spin_memsync_info.Perm table)
    (base : Nat) : qsort base compare_memsync_structs table = spin_memsync_info := by
  have hn : (spin_memsync_info.map (·.fn_name)).Nodup := by decide
  have hbefore : spin_memsync_info.Pairwise (Before compare_memsync_structs) := by
    have hlt : spin_memsync_info.Pairwise fun x y => x.sequence < y.sequence := by
      rw [← List.pairwise_map (f := SpinMemsync.sequence) (R := (· < ·))]
      decide
    exact hlt.imp fun h p q => (compare_lt_zero _ _ p q).mpr ((key_lt_key _ _).mpr (.inl h))
  have hnodup : spin_memsync_info.Nodup := .of_map _ hn
  exact hsort.eq_of_pairwise (hp.nodup_iff.mp hnodup) ((strictTotal hn).perm hp) hp hbefore base

theorem parse_spin_memsync_info (hsort : Sorts qsort) (hp : spin_memsync_info.Perm table)
    (hs : s.spin_memsync_method_count = -1) (option_string : List Char) :
    comm_spin_parse_options qsort table base option_string s =
      (SpinOptions.comm_spin_parse_options option_string s.options).map fun options =>
        { s with spin_memsync_info := [], options } := by
  have hmax : (table.length : Int) - 1 = SpinOptions.max_value := by rw [← hp.length_eq]; rfl
  have hremainder (o : Options) (value : Int) (text : List Char) :
      remainder spin_memsync_info SpinOptions.max_value o value text =
        o.remainder value text := by
    cases text <;> rfl
  have hfinish : finish spin_memsync_info = Options.finish := rfl
  simp only [comm_spin_parse_options, SpinOptions.comm_spin_parse_options,
    setup_eq hs (sorted_spin_memsync_info hsort hp base), hmax, hremainder, hfinish]
  split_ifs
  · rfl
  · cases ho : Options.remainder { s.options with mem_sync_method_ping := (strtol option_string).1 }
        (strtol option_string).1 (option_string.drop (strtol option_string).2) with
    | error e => rfl
    | ok o =>
      cases ho' : o.finish with
      | error e => simp [bind, Except.bind, Except.map, ho']
      | ok o' =>
        have hcount : (table.length : Int) ≠ -1 := by omega
        simp only [bind, Except.bind, Except.map, ho', drop_memsync_info, hs, if_pos hcount]
        rfl

end PingPong.SpinNumbering
