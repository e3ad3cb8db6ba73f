import PingPong.Printf

namespace PingPong.ExitFail

open CMemory Printf

def EXIT_FAILURE : Int := 1

def OUTPUT_BUFFER_LEN : Nat := 400

structure Write where
  fd : Int
  bytes : List Char
  ret : Int
deriving DecidableEq, Repr

section

variable (printed : List Char → List Value → List Char)
  (wrote : List Write → Int → List Char → Int) (strerror : List Char)

def write (fd : Int) (bytes : List Char) (ws : List Write) : List Write :=
  ws ++ [⟨fd, bytes, wrote ws fd bytes⟩]

def report (size : Nat) (fmt : List Char) (args : List Arg) (ws : List Write) :
    Option (List Write) :=
  (vsnprintf printed size fmt args).map fun (_, out_buf) =>
    write wrote 1 (string (out_buf ++ [nul]) 0) ws

def vsnprintf_error : List Char :=
  "Error with vsnprintf...  snprintf returned %d, but strlen is %d\n".toList

def write_error : List Char := "Error with write(%d)...  expected to write %d: %s\n".toList

/-- The half of `safe_write` that begins with the call of `write`. -/
def write_buffer (fd : Int) (str : List Char) (ws : List Write) : Option (List Write × Int) :=
  let ret := wrote ws fd str
  let ws := write wrote fd str ws
  if ret < 0 then
    (report printed wrote 200 write_error [.value .int (.integer fd),
      .value .int (.integer str.length), .value .char_ptr (.string strerror)] ws).map (·, ret)
  else some (ws, ret)

/-- The calls of `write` and what is returned, or none where the conversions do not go with
the arguments. -/
def safe_write (fd : Int) (buffer_len : Nat) (fmt : List Char) (ap : List Arg)
    (ws : List Write) : Option (List Write × Int) :=
  (vsnprintf printed buffer_len fmt ap).bind fun (ret, buffer) =>
    let str := string (buffer ++ [nul]) 0
    let str_len : Int := str.length
    (if ret < 0 ∨ buffer_len ≤ ret ∨ buffer_len ≤ str_len ∨ ret ≠ str_len then
      report printed wrote 100 vsnprintf_error
        [.value .int (.integer ret), .value .int (.integer str_len)] ws
    else some ws).bind (write_buffer printed wrote strerror fd str)

/-- The calls of `write` and the exit status. The arguments that `safe_write` is called with
are one `va_list`, and its own list is made of them. -/
def exit_fail (fmt : List Char) (args : List Arg) : Option (List Write × Int) :=
  (safe_write printed wrote strerror 1 OUTPUT_BUFFER_LEN fmt [.va_list args] []).map
    fun (ws, _) => (ws, EXIT_FAILURE)

/-- The text is written as far as 399 bytes, all of it is taken, and the exit is a failure. -/
def Reports (fmt : List Char) (args : List Arg) (text : List Char) : Prop :=
  exit_fail printed wrote strerror fmt args =
    some ([⟨1, text.take 399, (text.take 399).length⟩], EXIT_FAILURE)

end

variable {printed : List Char → List Value → List Char}
  {wrote : List Write → Int → List Char → Int} {strerror fmt text str : List Char}
  {args ap : List Arg} {fd ret : Int} {buffer_len size : Nat} {ws ws' : List Write}

theorem string_nul (h : nul ∉ text) : string (text ++ [nul]) 0 = text := by
  have hdrop : (text ++ [nul]).drop 0 = text ++ nul :: [] := List.drop_zero
  exact string_eq hdrop h

theorem length_write (wrote : List Write → Int → List Char → Int) (fd : Int)
    (bytes : List Char) (ws : List Write) :
    (write wrote fd bytes ws).length = ws.length + 1 := by
  rw [write, List.length_append, List.length_singleton]

theorem length_report (h : report printed wrote size fmt args ws = some ws') :
    ws'.length = ws.length + 1 := by
  obtain ⟨out, -, rfl⟩ := Option.map_eq_some_iff.mp h
  exact length_write ..

theorem write_buffer_eq (h : 0 ≤ wrote ws fd str) :
    write_buffer printed wrote strerror fd str ws =
      some (write wrote fd str ws, wrote ws fd str) := by
  rw [write_buffer, if_neg (by omega)]

theorem length_write_buffer (h : write_buffer printed wrote strerror fd str ws = some (ws', ret)) :
    ws'.length = ws.length + if wrote ws fd str < 0 then 2 else 1 := by
  have hlen := length_write wrote fd str ws
  rw [write_buffer] at h
  split_ifs at h ⊢ with hneg
  · obtain ⟨ws₁, hrep, heq⟩ := Option.map_eq_some_iff.mp h
    cases heq
    rw [length_report hrep, hlen]
  · cases h
    exact hlen

theorem safe_write_of_lt (ht : formatted printed fmt ap = some text) (hn : nul ∉ text)
    (hfit : text.length < buffer_len) (hmax : buffer_len ≤ INT_MAX) :
    safe_write printed wrote strerror fd buffer_len fmt ap ws =
      write_buffer printed wrote strerror fd text ws := by
  have htake : text.take (buffer_len - 1) = text := List.take_of_length_le (by omega)
  have hint : text.length ≤ INT_MAX := by omega
  rw [safe_write, vsnprintf, ht, Option.map_some, Option.bind_some, if_pos hint]
  dsimp only
  rw [htake, string_nul hn, if_neg (by omega), Option.bind_some]

/-- Before a text that is cut the difference of the lengths is reported. -/
theorem safe_write_of_le (wrote : List Write → Int → List Char → Int) (strerror : List Char)
    (fd : Int) (ws : List Write) (ht : formatted printed fmt ap = some text) (hn : nul ∉ text)
    (hpos : 0 < buffer_len) (hlong : buffer_len ≤ text.length) :
    ∃ ret : Int, safe_write printed wrote strerror fd buffer_len fmt ap ws =
      (report printed wrote 100 vsnprintf_error
        [.value .int (.integer ret), .value .int (.integer (buffer_len - 1 : Nat))] ws).bind
          (write_buffer printed wrote strerror fd (text.take (buffer_len - 1))) := by
  have hn' : nul ∉ text.take (buffer_len - 1) := fun h => hn (List.mem_of_mem_take h)
  have hlen : (text.take (buffer_len - 1)).length = buffer_len - 1 := by
    rw [List.length_take, Nat.min_eq_left (by omega)]
  refine ⟨if text.length ≤ INT_MAX then text.length else -1, ?_⟩
  rw [safe_write, vsnprintf, ht, Option.map_some, Option.bind_some]
  dsimp only
  rw [string_nul hn', hlen]
  congr 1
  apply if_pos
  split_ifs <;> omega

/-- A conversion finds the `va_list` in place of its argument. -/
theorem exit_fail_conv {ps : List Piece} (hps : pieces 0 fmt = some ps) (h : arity ps ≠ 0) :
    exit_fail printed wrote strerror fmt args = none := by
  rw [exit_fail, safe_write, vsnprintf, formatted, hps, Option.bind_some, format_va_list _ _ h]
  rfl

theorem formatted_lit {ps : List Piece} (ap : List Arg) (hn : nul ∉ fmt)
    (hps : pieces 0 fmt = some ps) (h : arity ps = 0)
    (ht : formatted printed fmt args = some text) :
    nul ∉ text ∧ formatted printed fmt ap = some text := by
  obtain ⟨text', htext, hmem⟩ := format_of_arity printed h
  rw [formatted, hps, Option.bind_some, htext] at ht
  cases ht
  refine ⟨fun h => hn (lit_mem hps (hmem nul h)), ?_⟩
  rw [formatted, hps, Option.bind_some, htext]

theorem reports_of_lt (ht : formatted printed fmt [.va_list args] = some text) (hn : nul ∉ text)
    (hfit : text.length < OUTPUT_BUFFER_LEN) :
    Reports printed wrote strerror fmt args text ↔ wrote [] 1 text = text.length := by
  have htake : text.take 399 = text :=
    List.take_of_length_le (by rw [OUTPUT_BUFFER_LEN] at hfit; omega)
  rw [Reports, exit_fail, safe_write_of_lt ht hn hfit (by decide), htake]
  constructor
  · intro h
    obtain ⟨⟨ws, ret⟩, hw, heq⟩ := Option.map_eq_some_iff.mp h
    cases heq
    have hlen := length_write_buffer hw
    split_ifs at hlen with hneg
    · simp at hlen
    · rw [write_buffer_eq (by omega)] at hw
      simp only [write, List.nil_append, Option.some.injEq, Prod.mk.injEq, List.cons.injEq,
        Write.mk.injEq] at hw
      exact hw.1.1.2.2
  · intro hw
    rw [write_buffer_eq (by omega), write, hw, Option.map_some, List.nil_append]

theorem not_reports_of_le (ht : formatted printed fmt [.va_list args] = some text)
    (hn : nul ∉ text) (hlong : OUTPUT_BUFFER_LEN ≤ text.length) :
    ¬Reports printed wrote strerror fmt args text := by
  have hpos : 0 < OUTPUT_BUFFER_LEN := by decide
  obtain ⟨ret, heq⟩ := safe_write_of_le wrote strerror 1 [] ht hn hpos hlong
  intro h
  rw [Reports, exit_fail, heq] at h
  obtain ⟨⟨ws, ret'⟩, hw, heq'⟩ := Option.map_eq_some_iff.mp h
  cases heq'
  obtain ⟨ws₁, hrep, hw⟩ := Option.bind_eq_some_iff.mp hw
  have hone := length_report hrep
  have htwo := length_write_buffer hw
  simp only [List.length_nil, List.length_singleton] at hone htwo
  split_ifs at htwo <;> omega

/-- A fatal error is reported as it was written exactly if its format has no conversion that
takes an argument and its text, which fits the buffer, is taken by `write`. -/
theorem exit_fail_reports (hn : nul ∉ fmt) (ht : formatted printed fmt args = some text) :
    Reports printed wrote strerror fmt args text ↔ (pieces 0 fmt).map arity = some 0 ∧
      text.length < OUTPUT_BUFFER_LEN ∧ wrote [] 1 text = text.length := by
  obtain ⟨ps, hps, -⟩ := Option.bind_eq_some_iff.mp ht
  rw [hps, Option.map_some, Option.some_inj]
  by_cases ha : arity ps = 0
  · obtain ⟨hn', ht'⟩ := formatted_lit [.va_list args] hn hps ha ht
    obtain hfit | hlong := lt_or_ge text.length OUTPUT_BUFFER_LEN
    · rw [reports_of_lt ht' hn' hfit]
      exact ⟨fun hw => ⟨ha, hfit, hw⟩, fun h => h.2.2⟩
    · exact iff_of_false (not_reports_of_le ht' hn' hlong) fun h => by omega
  · refine iff_of_false ?_ (fun h => ha h.1)
    intro h
    rw [Reports, exit_fail_conv hps ha] at h
    cases h

def plain : List Char → List Value → List Char
  | ['s'], [.string s] => s
  | ['d'], [.integer n] => (toString n).toList
  | _, _ => []

def reallocate_message : List Char := "Unable to reallocate memory\n".toList

def errno_message : List Char := "errno is nonzero, for some reason: %s\n".toList

theorem exit_fail_reports_reallocate :
    Reports plain (fun _ _ bytes => bytes.length) [] reallocate_message [] reallocate_message ↔
      (pieces 0 reallocate_message).map arity = some 0 ∧
        reallocate_message.length < OUTPUT_BUFFER_LEN ∧
        (reallocate_message.length : Int) = reallocate_message.length :=
  exit_fail_reports (by decide +kernel) (by decide +kernel)

/-- The text of `errno` is lost, although `write` takes all that it is given. -/
theorem exit_fail_loses_argument :
    nul ∉ errno_message ∧
    formatted plain errno_message [.value .char_ptr (.string "Cannot allocate memory".toList)] =
      some "errno is nonzero, for some reason: Cannot allocate memory\n".toList ∧
    exit_fail plain (fun _ _ bytes => bytes.length) [] errno_message
      [.value .char_ptr (.string "Cannot allocate memory".toList)] = none ∧
    ¬Reports plain (fun _ _ bytes => bytes.length) [] errno_message
      [.value .char_ptr (.string "Cannot allocate memory".toList)]
      "errno is nonzero, for some reason: Cannot allocate memory\n".toList := by
  have hnone : exit_fail plain (fun _ _ bytes => bytes.length) [] errno_message
      [.value .char_ptr (.string "Cannot allocate memory".toList)] = none := by decide +kernel
  refine ⟨by decide +kernel, by decide +kernel, hnone, ?_⟩
  intro h
  rw [Reports, hnone] at h
  cases h

end PingPong.ExitFail
