import PingPong.CommSpin
import PingPong.CString

namespace PingPong.SpinOptions

open CommSpin CString

/-- How the parser ends other than by returning. -/
inductive Stop
  | exit_fail (message : String)
  /-- `spin_memsync_info` has no such entry. -/
  | outside (index : Int)
deriving DecidableEq, Repr

structure Options where
  mem_sync_method_ping : Int
  mem_sync_method_pong : Int
  mem_sync_method_ping_info : Option SpinMemsync
  mem_sync_method_pong_info : Option SpinMemsync
  stdout : List String

variable {s s' : Options} {value : Int} {option_string rest : List Char} {x : Numeral}

def initial : Options := ⟨-1, -1, none, none, []⟩

def spin_memsync_method_count : Nat := spin_memsync_info.length

def max_value : Int := spin_memsync_method_count - 1

def entry (index : Int) : Except Stop SpinMemsync :=
  match index, spin_memsync_info[index.toNat]? with
  | .ofNat _, some method => .ok method
  | _, _ => .error (.outside index)

namespace Options

def print (s : Options) (line : String) : Options := { s with stdout := s.stdout ++ [line] }

def remainder (s : Options) (value : Int) : List Char → Except Stop Options
  | [] => .ok { s with mem_sync_method_pong := value }
  | c :: p_remainder =>
    if c = ',' then
      let value := (strtol p_remainder).1
      if value < 0 ∨ max_value < value then
        .error (.exit_fail ("Option value " ++ toString value ++
          " is outside the appropriate range (0-" ++ toString max_value ++ ")\n"))
      else .ok { s with mem_sync_method_pong := value }
    else do
      let method ← entry s.mem_sync_method_ping
      return s.print ("Unrecognized option value specified ('" ++
        String.ofList (c :: p_remainder) ++ "').  Pong falling back to use '" ++
        method.description ++ "' as with ping\n")

/-- Without a method for ping, both get the first. -/
def default (s : Options) : Except Stop Options := do
  let method ← entry 0
  let s := s.print ("No memory sync method specified.  Defaulting to '" ++
    method.description ++ "'\n")
  return { s with mem_sync_method_ping := 0, mem_sync_method_pong := 0 }

def setInfo (s : Options) : Except Stop Options := do
  let ping ← entry s.mem_sync_method_ping
  let pong ← entry s.mem_sync_method_pong
  return { s with mem_sync_method_ping_info := some ping, mem_sync_method_pong_info := some pong }

def finish (s : Options) : Except Stop Options :=
  if s.mem_sync_method_ping = -1 then s.default >>= setInfo else s.setInfo

end Options

def comm_spin_parse_options (option_string : List Char) (s : Options) : Except Stop Options := do
  let (value, p_remainder) := strtol option_string
  if value < 0 ∨ max_value < value ∨ p_remainder = 0 then
    .error (.exit_fail ("Unable to correctly parse '" ++ String.ofList option_string ++
      "'...  expected an integer from 0-" ++ toString max_value ++ "\n"))
  else
    let s := { s with mem_sync_method_ping := value }
    let s ← s.remainder value (option_string.drop p_remainder)
    s.finish

/-- What `make_spin_pair` does to the methods when it is first called. -/
def make_spin_pair (s : Options) : Except Stop Options :=
  if s.mem_sync_method_ping = -1 then s.default >>= Options.setInfo else .ok s

def InRange (value : Int) : Prop := 0 ≤ value ∧ value ≤ max_value

instance (value : Int) : Decidable (InRange value) := inferInstanceAs (Decidable (_ ∧ _))

theorem not_inRange : ¬ InRange value ↔ value < 0 ∨ max_value < value := by
  rw [InRange, not_and_or, not_le, not_le]

/-- The table ends far below the end of a `long`. -/
theorem clamp_eq (h : InRange value) : max LONG_MIN (min LONG_MAX value) = value := by
  have hmax : max_value < LONG_MAX := by decide
  have hmin : LONG_MIN < 0 := by decide
  unfold InRange at h
  omega

theorem inRange_clamp : InRange (max LONG_MIN (min LONG_MAX value)) ↔ InRange value := by
  have hmax : max_value < LONG_MAX := by decide
  have hmin : LONG_MIN < 0 := by decide
  unfold InRange
  omega

theorem exists_fin (h : InRange value) : ∃ n : Fin spin_memsync_info.length, value = n := by
  unfold InRange max_value spin_memsync_method_count at h
  exact ⟨⟨value.toNat, by omega⟩, by simp only; omega⟩

theorem entry_fin (n : Fin spin_memsync_info.length) : entry n = .ok (spin_memsync_info.get n) := by
  simp [entry]

def Valid (s : Options) : Prop := ∃ n m : Fin spin_memsync_info.length,
  s.mem_sync_method_ping = n ∧ s.mem_sync_method_pong = m ∧
    s.mem_sync_method_ping_info = some (spin_memsync_info.get n) ∧
    s.mem_sync_method_pong_info = some (spin_memsync_info.get m)

theorem setInfo_eq {n m : Fin spin_memsync_info.length} (hn : s.mem_sync_method_ping = n)
    (hm : s.mem_sync_method_pong = m) : ∃ s', s.setInfo = .ok s' ∧ Valid s' ∧
      s'.mem_sync_method_ping = n ∧ s'.mem_sync_method_pong = m := by
  refine ⟨{ s with
    mem_sync_method_ping_info := some (spin_memsync_info.get n)
    mem_sync_method_pong_info := some (spin_memsync_info.get m) }, ?_, ⟨n, m, hn, hm, rfl, rfl⟩,
    hn, hm⟩
  simp only [Options.setInfo, hn, hm, entry_fin]
  rfl

theorem not_inRange_iff (h : x.text.length ≠ 0) : max LONG_MIN (min LONG_MAX x.value) < 0 ∨
    max_value < max LONG_MIN (min LONG_MAX x.value) ∨ x.text.length = 0 ↔ ¬ InRange x.value := by
  rw [← or_assoc, ← not_inRange, inRange_clamp, or_iff_left h]

theorem parse_text_append (h : NoDigit rest) (s : Options) :
    comm_spin_parse_options (x.text ++ rest) s =
      if InRange x.value then
        ({ s with mem_sync_method_ping := x.value }).remainder x.value rest >>= Options.finish
      else .error (.exit_fail ("Unable to correctly parse '" ++ String.ofList (x.text ++ rest) ++
        "'...  expected an integer from 0-" ++ toString max_value ++ "\n")) := by
  have hlen : x.text.length ≠ 0 := by simp [Numeral.text, x.ne_nil]
  rw [comm_spin_parse_options, strtol_text_append x h]
  dsimp only
  by_cases hr : InRange x.value
  · rw [if_neg (by rw [not_inRange_iff hlen]; simpa using hr), if_pos hr, clamp_eq hr,
      List.drop_left]
  · rw [if_pos ((not_inRange_iff hlen).mpr hr), if_neg hr]

def Chosen (r : Except Stop Options) (ping pong : Int) : Prop :=
  ∃ s, r = .ok s ∧ Valid s ∧ s.mem_sync_method_ping = ping ∧ s.mem_sync_method_pong = pong

def Failed (r : Except Stop Options) : Prop := ∃ message, r = .error (.exit_fail message)

theorem finish_chosen (hping : InRange s.mem_sync_method_ping)
    (hpong : InRange s.mem_sync_method_pong) :
    Chosen s.finish s.mem_sync_method_ping s.mem_sync_method_pong := by
  obtain ⟨n, hn⟩ := exists_fin hping
  obtain ⟨m, hm⟩ := exists_fin hpong
  have hne : s.mem_sync_method_ping ≠ -1 := by omega
  obtain ⟨s', hs', hv, hn', hm'⟩ := setInfo_eq hn hm
  exact ⟨s', by rw [Options.finish, if_neg hne, hs'], hv, hn'.trans hn.symm, hm'.trans hm.symm⟩

theorem parse_rejected (h : NoDigit rest) (hr : ¬ InRange x.value) (s : Options) :
    Failed (comm_spin_parse_options (x.text ++ rest) s) :=
  ⟨_, (parse_text_append h s).trans (if_neg hr)⟩

theorem parse_text (hr : InRange x.value) (s : Options) :
    Chosen (comm_spin_parse_options x.text s) x.value x.value := by
  have hno : NoDigit [] := by simp [NoDigit]
  have heq := parse_text_append (x := x) hno s
  rw [List.append_nil, if_pos hr] at heq
  rw [heq]
  exact finish_chosen (s := ⟨x.value, x.value, _, _, _⟩) hr hr

theorem noDigit_comma (rest : List Char) : NoDigit (',' :: rest) := by
  intro c hc
  obtain rfl : ',' = c := Option.some.inj hc
  decide

theorem parse_comma (hr : InRange x.value) (rest : List Char) (s : Options) :
    if InRange (strtol rest).1 then
      Chosen (comm_spin_parse_options (x.text ++ ',' :: rest) s) x.value (strtol rest).1
    else Failed (comm_spin_parse_options (x.text ++ ',' :: rest) s) := by
  rw [parse_text_append (noDigit_comma rest), if_pos hr]
  split_ifs with h
  · rw [Options.remainder, if_pos rfl, if_neg (by rw [← not_inRange]; simpa using h)]
    exact finish_chosen (s := ⟨x.value, (strtol rest).1, _, _, _⟩) hr h
  · rw [Options.remainder, if_pos rfl, if_pos (not_inRange.mp h)]
    exact ⟨_, rfl⟩

theorem parse_other {c : Char} (hr : InRange x.value) (hc : c ≠ ',') (hd : isdigit c = false) :
    comm_spin_parse_options (x.text ++ c :: rest) initial = .error (.outside (-1)) := by
  have hno : NoDigit (c :: rest) := by
    intro c' hc'
    obtain rfl : c = c' := Option.some.inj hc'
    exact hd
  obtain ⟨n, hn⟩ := exists_fin hr
  have hne : x.value ≠ -1 := by omega
  have hentry : entry x.value = .ok (spin_memsync_info.get n) := by rw [hn, entry_fin]
  rw [parse_text_append hno, if_pos hr]
  have hrem : ({ initial with mem_sync_method_ping := x.value }).remainder x.value (c :: rest) =
      .ok (({ initial with mem_sync_method_ping := x.value }).print
        ("Unrecognized option value specified ('" ++ String.ofList (c :: rest) ++
          "').  Pong falling back to use '" ++ (spin_memsync_info.get n).description ++
          "' as with ping\n")) := by
    rw [Options.remainder, if_neg hc]
    simp only [hentry]
    rfl
  rw [hrem]
  simp only [Except.bind, bind, Options.finish, Options.print, Options.setInfo, hne, if_false,
    hentry]
  rfl

structure Meets (option_string : List Char) : Prop where
  safe : Failed (comm_spin_parse_options option_string initial) ∨
    ∃ s, comm_spin_parse_options option_string initial = .ok s ∧ Valid s
  both : ∀ x : Numeral, option_string = x.text → InRange x.value →
    Chosen (comm_spin_parse_options option_string initial) x.value x.value
  each : ∀ x y : Numeral, option_string = x.text ++ ',' :: y.text → InRange x.value →
    InRange y.value → Chosen (comm_spin_parse_options option_string initial) x.value y.value
  first : ∀ s, comm_spin_parse_options option_string initial = .ok s →
    ∃ (x : Numeral) (rest : List Char), option_string = x.text ++ rest ∧ InRange x.value
  second : ∀ (x : Numeral) rest s, option_string = x.text ++ ',' :: rest →
    comm_spin_parse_options option_string initial = .ok s →
      ∃ y : Numeral, rest = y.text ∧ InRange y.value
  fallback : ∀ (x : Numeral) c rest, option_string = x.text ++ c :: rest → isdigit c = false →
    c ≠ ',' → InRange x.value →
      Chosen (comm_spin_parse_options option_string initial) x.value x.value

/-- After a first number in range there is nothing, or a comma and either an integer or
the text of a number out of range. -/
def Shaped (option_string : List Char) : Prop := ∀ (x : Numeral) rest,
  option_string = x.text ++ rest → NoDigit rest → InRange x.value →
    rest = [] ∨ ∃ p, rest = ',' :: p ∧ ((∃ y : Numeral, p = y.text) ∨ ¬ InRange (strtol p).1)

theorem Failed.ne_ok {r : Except Stop Options} (h : Failed r) : r ≠ .ok s := by
  obtain ⟨message, rfl⟩ := h
  simp

theorem shaped_of_meets (h : Meets option_string) : Shaped option_string := by
  rintro x rest rfl hno hr
  cases rest with
  | nil => exact .inl rfl
  | cons c p =>
    right
    by_cases hc : c = ','
    · subst hc
      refine ⟨p, rfl, ?_⟩
      have hcomma := parse_comma hr p initial
      by_cases hp : InRange (strtol p).1
      · rw [if_pos hp] at hcomma
        obtain ⟨s, hs, -⟩ := hcomma
        obtain ⟨y, hy, -⟩ := h.second x p s rfl hs
        exact .inl ⟨y, hy⟩
      · exact .inr hp
    · obtain ⟨s, hs, -⟩ := h.fallback x c p rfl (hno c rfl) hc hr
      rw [parse_other hr hc (hno c rfl)] at hs
      cases hs

theorem parse_cases (option_string : List Char) :
    Failed (comm_spin_parse_options option_string initial) ∨
      ∃ (x : Numeral) (rest : List Char), option_string = x.text ++ rest ∧ NoDigit rest ∧
        InRange x.value := by
  obtain h0 | ⟨x, rest, rfl, hno⟩ := strtol_cases option_string
  · left
    simp only [comm_spin_parse_options, h0]
    exact ⟨_, if_pos (.inr (.inr trivial))⟩
  · by_cases hr : InRange x.value
    · exact .inr ⟨x, rest, rfl, hno, hr⟩
    · exact .inl (parse_rejected hno hr initial)

theorem Shaped.parse (h : Shaped option_string) :
    Failed (comm_spin_parse_options option_string initial) ∨ ∃ x : Numeral, InRange x.value ∧
      (option_string = x.text ∨ ∃ y : Numeral, option_string = x.text ++ ',' :: y.text ∧
        InRange y.value) := by
  obtain hf | ⟨x, rest, rfl, hno, hr⟩ := parse_cases option_string
  · exact .inl hf
  · obtain rfl | ⟨p, rfl, hp⟩ := h x rest rfl hno hr
    · exact .inr ⟨x, hr, .inl (List.append_nil _)⟩
    · have hcomma := parse_comma hr p initial
      by_cases hin : InRange (strtol p).1
      · obtain ⟨y, rfl⟩ := hp.resolve_right (not_not_intro hin)
        rw [strtol_text, inRange_clamp] at hin
        exact .inr ⟨x, hr, .inr ⟨y, rfl, hin⟩⟩
      · rw [if_neg hin] at hcomma
        exact .inl hcomma

theorem parse_each {y : Numeral} (hx : InRange x.value) (hy : InRange y.value) (s : Options) :
    Chosen (comm_spin_parse_options (x.text ++ ',' :: y.text) s) x.value y.value := by
  have hcomma := parse_comma hx y.text s
  rwa [strtol_text, if_pos (inRange_clamp.mpr hy), clamp_eq hy] at hcomma

theorem meets_of_shaped (h : Shaped option_string) : Meets option_string where
  safe := by
    have hvalid {r : Except Stop Options} {n m : Int} (hc : Chosen r n m) :
        ∃ s, r = .ok s ∧ Valid s := by
      obtain ⟨s, hs, hv, -⟩ := hc
      exact ⟨s, hs, hv⟩
    obtain hf | ⟨x, hx, rfl | ⟨y, rfl, hy⟩⟩ := h.parse
    · exact .inl hf
    · exact .inr (hvalid (parse_text hx initial))
    · exact .inr (hvalid (parse_each hx hy initial))
  both := by
    rintro x rfl hx
    exact parse_text hx initial
  each := by
    rintro x y rfl hx hy
    exact parse_each hx hy initial
  first := by
    intro s hs
    obtain hf | ⟨x, rest, heq, -, hx⟩ := parse_cases option_string
    · exact absurd hs hf.ne_ok
    · exact ⟨x, rest, heq, hx⟩
  second := by
    rintro x rest s rfl hs
    have hno := noDigit_comma rest
    by_cases hx : InRange x.value
    · have hcomma := parse_comma hx rest initial
      split_ifs at hcomma with hin
      · obtain hnil | ⟨p, hp, hshape⟩ := h x _ rfl hno hx
        · cases hnil
        · obtain rfl : rest = p := (List.cons.inj hp).2
          obtain ⟨y, rfl⟩ := hshape.resolve_right (not_not_intro hin)
          rw [strtol_text, inRange_clamp] at hin
          exact ⟨y, rfl, hin⟩
      · exact absurd hs hcomma.ne_ok
    · exact absurd hs (parse_rejected hno hx initial).ne_ok
  fallback := by
    rintro x c rest rfl hd hc hx
    have hno : NoDigit (c :: rest) := by simpa [NoDigit] using hd
    obtain hnil | ⟨p, hp, -⟩ := h x _ rfl hno hx
    · cases hnil
    · exact absurd (List.cons.inj hp).1 hc

theorem make_spin_pair_valid (h : s = initial ∨ Valid s) :
    ∃ s', make_spin_pair s = .ok s' ∧ Valid s' := by
  obtain rfl | ⟨n, m, hn, hm, hinfo⟩ := h
  · obtain ⟨s', hs', hv, -⟩ := setInfo_eq (s := { initial with
      mem_sync_method_ping := 0
      mem_sync_method_pong := 0
      stdout := ["No memory sync method specified.  Defaulting to 'no memory sync'\n"] })
      (n := ⟨0, by decide⟩) (m := ⟨0, by decide⟩) rfl rfl
    exact ⟨s', hs', hv⟩
  · exact ⟨s, if_neg (by omega), n, m, hn, hm, hinfo⟩

/-- The parser does what it is to do exactly for the strings of the right shape. -/
theorem spin_options (option_string : List Char) : Meets option_string ↔ Shaped option_string :=
  ⟨shaped_of_meets, meets_of_shaped⟩

/-- The fallback that is announced reads before the table. -/
theorem spin_options_fallback :
    comm_spin_parse_options "3;".toList initial = .error (.outside (-1)) ∧
      ¬ ∀ option_string, Meets option_string := by
  have hout : comm_spin_parse_options "3;".toList initial = .error (.outside (-1)) :=
    parse_other (x := ⟨[], .none, [3], by simp, by simp, by simp⟩) (by decide) (by decide)
      (by decide)
  refine ⟨hout, fun h => ?_⟩
  obtain ⟨message, hf⟩ | ⟨s, hs, -⟩ := (h "3;".toList).safe
  · rw [hout] at hf
    cases hf
  · rw [hout] at hs
    cases hs

end PingPong.SpinOptions
