import PingPong.Getopt
import PingPong.ParseOpts

namespace PingPong.CommandLine

open CommRegistry Getopt ParseOpts ParseSched

variable {D F S : Type}

def optstring : List Char := "m:t:p:r:u:l:zo:".toList

def long_options : List LongOption :=
  [⟨"runtime".toList, true, 'r'⟩, ⟨"update".toList, true, 'u'⟩, ⟨"mode".toList, true, 'm'⟩,
    ⟨"thread".toList, true, 't'⟩, ⟨"thread_mode".toList, true, 't'⟩,
    ⟨"sched".toList, true, 'p'⟩, ⟨"latency".toList, true, 'l'⟩, ⟨"option".toList, true, 'o'⟩,
    ⟨"secret_sauce".toList, false, 'z'⟩]

def table : Table := ⟨optstring, long_options, by decide⟩

/-- The case of the switch for what `getopt_long` returns; none is the default one. -/
def switch : Ret → Option Opt
  | .option 'm' (some optarg) => some (.m optarg)
  | .option 't' (some optarg) => some (.t optarg)
  | .option 'p' (some optarg) => some (.p optarg)
  | .option 'r' (some optarg) => some (.r optarg)
  | .option 'u' (some optarg) => some (.u optarg)
  | .option 'z' _ => some .z
  | .option 'o' (some optarg) => some (.o optarg)
  | .option 'l' (some optarg) => some (.l optarg)
  | _ => none

/-- How the program can end in `parse_opts`: by `usage` and `exit`, or else in what it calls
for an option. -/
inductive Stop | usage | failed
deriving DecidableEq, Repr

def loop (reg : Registry F) (fp : FloatingPoint D) : Parsing → List Ret → Except Stop Parsing
  | s, [] => .ok s
  | s, ret :: rets =>
    match switch ret with
    | none => .error .usage
    | some o =>
      match parse_opt reg fp s o with
      | none => .error .failed
      | some s => loop reg fp s rets

/-- `parse_opts` on what follows the name of the program in `argv`. -/
def parse_opts (reg : Registry F) (fp : FloatingPoint D) (parse : F → List Char → S → Option S)
    (argv : List (List Char)) (c : Config) (options : S) : Except Stop (Config × S) :=
  let (rets, operands) := getopt_long table argv
  match loop reg fp ⟨c, none⟩ rets with
  | .error stop => .error stop
  | .ok s =>
    match s.comm_option_string with
    | none => .ok (parse_cpus s.config operands, options)
    | some string =>
      match parse_comm_option reg parse s.config.comm_mode_index string options with
      | none => .error .failed
      | some options => .ok (parse_cpus s.config operands, options)

def given : Opt → Given
  | .m optarg => ('m', some optarg)
  | .t optarg => ('t', some optarg)
  | .p optarg => ('p', some optarg)
  | .r optarg => ('r', some optarg)
  | .u optarg => ('u', some optarg)
  | .z => ('z', none)
  | .o optarg => ('o', some optarg)
  | .l optarg => ('l', some optarg)

/-- A command line that is written with these options and operands. -/
def Spelled (argv : List (List Char)) (opts : List Opt) (operands : List (List Char)) : Prop :=
  CommandLine table argv (opts.map given) operands

variable {reg : Registry F} {fp : FloatingPoint D} {parse : F → List Char → S → Option S}
  {argv argv' operands : List (List Char)} {opts opts' : List Opt} {c : Config} {options : S}

theorem switch_given (o : Opt) : switch (given o).ret = some o := by cases o <;> rfl

theorem known_given (o : Opt) : Known table (given o) := by cases o <;> rfl

theorem letter_cases {ch : Char} {takes : Bool} (h : letter ch optstring = some takes) :
    takes = true ∧ ch ∈ ['m', 't', 'p', 'r', 'u', 'l', 'o'] ∨ takes = false ∧ ch = 'z' := by
  have hall : optstring.all (fun ch => letter ch optstring = none ∨
      letter ch optstring = some true ∧ ch ∈ ['m', 't', 'p', 'r', 'u', 'l', 'o'] ∨
      letter ch optstring = some false ∧ ch = 'z') = true := by decide
  have hch := of_decide_eq_true (List.all_eq_true.mp hall ch (mem_of_letter h))
  simpa [h] using hch

theorem exists_opt {g : Given} (h : Known table g) : ∃ o, g = given o := by
  obtain ⟨ch, optarg⟩ := g
  obtain ⟨htakes, hch⟩ | ⟨htakes, rfl⟩ := letter_cases h
  · obtain ⟨optarg, rfl⟩ := Option.isSome_iff_exists.mp htakes
    simp only [List.mem_cons, List.not_mem_nil, or_false] at hch
    obtain rfl | rfl | rfl | rfl | rfl | rfl | rfl := hch
    · exact ⟨.m optarg, rfl⟩
    · exact ⟨.t optarg, rfl⟩
    · exact ⟨.p optarg, rfl⟩
    · exact ⟨.r optarg, rfl⟩
    · exact ⟨.u optarg, rfl⟩
    · exact ⟨.l optarg, rfl⟩
    · exact ⟨.o optarg, rfl⟩
  · obtain rfl := Option.not_isSome_iff_eq_none.mp (by simpa using htakes)
    exact ⟨.z, rfl⟩

theorem letter_of_find {name : List Char} {o : LongOption} (h : table.find name = some o) :
    letter o.val table.optstring = some o.has_arg := by
  have hall : ∀ o ∈ long_options, letter o.val optstring = some o.has_arg := by decide
  exact hall o (mem_of_find h)

theorem known_of_written {ws : List (List Char)} {gs : List Given} (h : Written table ws gs) :
    ∀ g ∈ gs, Known table g := by
  have hflags {cs : List Char} (hf : Flags table cs) : ∀ g ∈ flags cs, Known table g := by
    intro g hg
    obtain ⟨ch, hch, rfl⟩ := List.mem_map.mp hg
    exact hf ch hch
  cases h with
  | letters _ hf => exact hflags hf
  | joined hf hc _ | apart hf hc =>
    exact List.forall_mem_append.mpr ⟨hflags hf, by simpa [Known] using hc⟩
  | name _ _ ho ha | nameJoined _ ho ha | nameApart _ _ ho ha =>
    simpa [Known, ha] using letter_of_find ho

theorem exists_opts_of_known {gs : List Given} (h : ∀ g ∈ gs, Known table g) :
    ∃ opts : List Opt, gs = opts.map given := by
  induction gs with
  | nil => exact ⟨[], rfl⟩
  | cons g gs ih =>
    obtain ⟨hg, hgs⟩ := List.forall_mem_cons.mp h
    obtain ⟨o, rfl⟩ := exists_opt hg
    obtain ⟨opts, rfl⟩ := ih hgs
    exact ⟨o :: opts, rfl⟩

theorem exists_opts {os : List Given} (h : CommandLine table argv os operands) :
    ∃ opts : List Opt, os = opts.map given := by
  induction h with
  | nil | last => exact ⟨[], rfl⟩
  | operand _ _ ih => exact ih
  | @options ws gs argv os operands hw _ ih =>
    obtain ⟨opts, rfl⟩ := exists_opts_of_known (known_of_written hw)
    obtain ⟨opts', rfl⟩ := ih
    exact ⟨opts ++ opts', by simp⟩

theorem loop_given (reg : Registry F) (fp : FloatingPoint D) (opts : List Opt) (s : Parsing) :
    loop reg fp s ((opts.map given).map Given.ret) =
      (opts.foldlM (parse_opt reg fp) s).elim (.error .failed) .ok := by
  induction opts generalizing s with
  | nil => rfl
  | cons o opts ih =>
    simp only [List.map_cons, loop, switch_given, List.foldlM_cons]
    cases h : parse_opt reg fp s o with
    | none => rfl
    | some s => exact ih s

theorem parse_spelled (h : Spelled argv opts operands) :
    parse_opts reg fp parse argv c options =
      (ParseOpts.parse_opts reg fp parse opts operands c options).elim (.error .failed) .ok := by
  have hline := getopt_long_iff.mpr h
  simp only [parse_opts, hline, loop_given, ParseOpts.parse_opts]
  cases hs : opts.foldlM (parse_opt reg fp) ⟨c, none⟩ with
  | none => rfl
  | some s =>
    simp only [Option.elim_some, Option.bind_some]
    cases s.comm_option_string with
    | none => rfl
    | some string =>
      cases hp : parse_comm_option reg parse s.config.comm_mode_index string options <;>
        simp [hp]

theorem switch_sched {ret : Ret} {optarg : List Char} (h : switch ret = some (.p optarg)) :
    ret = .option 'p' (some optarg) := by
  unfold switch at h
  split at h <;> simp_all

/-- No option but a scheduling policy ends the program, whatever is configured. -/
theorem parse_opt_eq_none {s : Parsing} {o : Opt} (h : parse_opt reg fp s o = none) :
    ∃ optarg, o = .p optarg ∧ ∀ c, parse_sched optarg c = none := by
  cases o with
  | p optarg =>
    refine ⟨optarg, rfl, fun c => ?_⟩
    simp only [parse_opt, Option.map_eq_none_iff, parse_sched] at h ⊢
    exact h
  | _ => simp [parse_opt] at h

def modeName : Opt → Option (List Char)
  | .m name => some name
  | _ => none

def optionString : Opt → Option (List Char)
  | .o string => some string
  | _ => none

/-- The index of the mode that the last `-m` has set. -/
def modeIndex (reg : Registry F) (opts : List Opt) (c : Config) : Nat :=
  (opts.filterMap modeName).getLast?.elim c.comm_mode_index fun name => (parse_comm_mode reg name).2

/-- The values of some options are fatal: a scheduling policy without any token, or the last
`-o`, if the mode of the last `-m` does not take it. -/
def Refused (reg : Registry F) (parse : F → List Char → S → Option S) (opts : List Opt)
    (c : Config) (options : S) : Prop :=
  (∃ optarg, .p optarg ∈ opts ∧ ∀ c, parse_sched optarg c = none) ∨
    ∃ string, (opts.filterMap optionString).getLast? = some string ∧
      parse_comm_option reg parse (modeIndex reg opts c) string options = none

/-- What only one option sets is as the last one of these has set it. -/
theorem last_foldlM {V W : Type} (get : Parsing → V) (pick : Opt → Option W) (val : W → V)
    (hpick : ∀ s o t, parse_opt reg fp s o = some t → get t = (pick o).elim (get s) val)
    {s t : Parsing} (h : opts.foldlM (parse_opt reg fp) s = some t) :
    get t = (opts.filterMap pick).getLast?.elim (get s) val := by
  induction opts using List.reverseRecOn generalizing t with
  | nil =>
    obtain rfl := Option.some.inj h
    rfl
  | append_singleton opts o ih =>
    rw [List.foldlM_append] at h
    obtain ⟨u, hu, ho⟩ := Option.bind_eq_some_iff.mp h
    have hlast : parse_opt reg fp u o = some t := by simpa using ho
    rw [hpick u o t hlast, ih hu, List.filterMap_append, List.getLast?_append]
    cases hp : pick o <;> simp [hp]

theorem index_foldlM {s t : Parsing} (h : opts.foldlM (parse_opt reg fp) s = some t) :
    t.config.comm_mode_index = modeIndex reg opts s.config := by
  apply last_foldlM (fun s => s.config.comm_mode_index) modeName _ ?_ h
  intro s o t ho
  cases o with
  | m name =>
    obtain rfl := Option.some.inj ho
    rfl
  | _ =>
    rw [parse_opt_eq] at ho
    exact FieldCommands.Commands.get_step_of_ne (k := Target.mode) ho nofun

theorem string_foldlM {s t : Parsing} (h : opts.foldlM (parse_opt reg fp) s = some t) :
    t.comm_option_string =
      (opts.filterMap optionString).getLast?.elim s.comm_option_string some := by
  apply last_foldlM Parsing.comm_option_string optionString _ ?_ h
  intro s o t ho
  cases o with
  | o string =>
    obtain rfl := Option.some.inj ho
    rfl
  | _ =>
    rw [parse_opt_eq] at ho
    exact FieldCommands.Commands.get_step_of_ne (k := Target.option) ho nofun

theorem foldlM_eq_none (reg : Registry F) (fp : FloatingPoint D) (s : Parsing) :
    opts.foldlM (parse_opt reg fp) s = none ↔
      ∃ optarg, .p optarg ∈ opts ∧ ∀ c, parse_sched optarg c = none := by
  induction opts generalizing s with
  | nil => simp
  | cons o opts ih =>
    rw [List.foldlM_cons]
    cases ho : parse_opt reg fp s o with
    | none =>
      obtain ⟨optarg, rfl, hp⟩ := parse_opt_eq_none ho
      exact iff_of_true rfl ⟨optarg, List.mem_cons_self, hp⟩
    | some t =>
      refine (ih t).trans ⟨fun ⟨optarg, hmem, hp⟩ => ⟨optarg, List.mem_cons_of_mem _ hmem, hp⟩, ?_⟩
      rintro ⟨optarg, hmem, hp⟩
      obtain rfl | hmem := List.mem_cons.mp hmem
      · simp [parse_opt, hp] at ho
      · exact ⟨optarg, hmem, hp⟩

theorem parse_opts_eq_none : ParseOpts.parse_opts reg fp parse opts operands c options = none ↔
    Refused reg parse opts c options := by
  rw [ParseOpts.parse_opts, Refused, ← foldlM_eq_none reg fp ⟨c, none⟩]
  cases hs : opts.foldlM (parse_opt reg fp) ⟨c, none⟩ with
  | none => simp
  | some s =>
    have hindex := index_foldlM hs
    have hstring := string_foldlM hs
    cases hlast : (opts.filterMap optionString).getLast? with
    | none =>
      rw [hlast] at hstring
      simp [hstring]
    | some string =>
      rw [hlast] at hstring
      simp [hstring, hindex]

theorem loop_failed {rets : List Ret} {s : Parsing} (h : loop reg fp s rets = .error .failed) :
    ∃ optarg, .option 'p' (some optarg) ∈ rets ∧ ∀ c, parse_sched optarg c = none := by
  induction rets generalizing s with
  | nil => simp [loop] at h
  | cons ret rets ih =>
    cases hs : switch ret with
    | none => simp [loop, hs] at h
    | some o =>
      simp only [loop, hs] at h
      cases ho : parse_opt reg fp s o with
      | none =>
        obtain ⟨optarg, rfl, hp⟩ := parse_opt_eq_none ho
        obtain rfl := switch_sched hs
        exact ⟨optarg, List.mem_cons_self, hp⟩
      | some t =>
        simp only [ho] at h
        obtain ⟨optarg, hmem, hp⟩ := ih h
        exact ⟨optarg, List.mem_cons_of_mem _ hmem, hp⟩

theorem loop_unknown (reg : Registry F) (fp : FloatingPoint D) {rets : List Ret}
    (h : .unknown ∈ rets) (s : Parsing) :
    loop reg fp s rets = .error .usage ∨ loop reg fp s rets = .error .failed := by
  induction rets generalizing s with
  | nil => simp at h
  | cons ret rets ih =>
    cases hs : switch ret with
    | none => exact .inl (by simp only [loop, hs])
    | some o =>
      simp only [loop, hs]
      cases ho : parse_opt reg fp s o with
      | none => exact .inr rfl
      | some s =>
        have hret : ret ≠ .unknown := by
          rintro rfl
          simp [switch] at hs
        exact ih (List.mem_of_ne_of_mem hret.symm h) s

theorem unknown_of_not_spelled (h : ∀ opts operands, ¬ Spelled argv opts operands) :
    .unknown ∈ (getopt_long table argv).1 := by
  by_contra hu
  obtain ⟨os, hos⟩ := exists_given hu
  have hline : CommandLine table argv os (getopt_long table argv).2 :=
    getopt_long_iff.mp (Prod.ext hos rfl)
  obtain ⟨opts, rfl⟩ := exists_opts hline
  exact h opts _ hline

/-- Then `usage` is printed and the program exits, unless it is stopped before by a scheduling
policy without any token. -/
theorem parse_not_spelled (reg : Registry F) (fp : FloatingPoint D)
    (parse : F → List Char → S → Option S) (c : Config) (options : S)
    (h : ∀ opts operands, ¬ Spelled argv opts operands) :
    parse_opts reg fp parse argv c options = .error .usage ∨
      parse_opts reg fp parse argv c options = .error .failed ∧
        ∃ optarg, .option 'p' (some optarg) ∈ (getopt_long table argv).1 ∧
          ∀ c, parse_sched optarg c = none := by
  obtain hu | hf := loop_unknown reg fp (unknown_of_not_spelled h) ⟨c, none⟩
  · exact .inl (by simp only [parse_opts, hu])
  · exact .inr ⟨by simp only [parse_opts, hf], loop_failed hf⟩

theorem spelled_of_ok {r : Config × S} (h : parse_opts reg fp parse argv c options = .ok r) :
    ∃ opts operands, Spelled argv opts operands ∧
      ParseOpts.parse_opts reg fp parse opts operands c options = some r := by
  by_cases hs : ∃ opts operands, Spelled argv opts operands
  · obtain ⟨opts, operands, hs⟩ := hs
    rw [parse_spelled hs] at h
    cases hr : ParseOpts.parse_opts reg fp parse opts operands c options with
    | none => simp [hr] at h
    | some r' => exact ⟨opts, operands, hs, by simpa [hr] using h⟩
  · push Not at hs
    obtain hu | ⟨hf, -⟩ := parse_not_spelled reg fp parse c options hs
    · simp [hu] at h
    · simp [hf] at h

theorem parse_spelled_or (reg : Registry F) (fp : FloatingPoint D)
    (parse : F → List Char → S → Option S) (c : Config) (options : S)
    (h : Spelled argv opts operands) :
    (Refused reg parse opts c options →
      parse_opts reg fp parse argv c options = .error .failed) ∧
    (¬ Refused reg parse opts c options →
      ∃ r, parse_opts reg fp parse argv c options = .ok r) := by
  have hiff : ParseOpts.parse_opts reg fp parse opts operands c options = none ↔
      Refused reg parse opts c options := parse_opts_eq_none
  rw [parse_spelled h, ← hiff]
  refine ⟨fun hnone => by rw [hnone]; rfl, fun hsome => ?_⟩
  obtain ⟨r, hr⟩ := Option.ne_none_iff_exists'.mp hsome
  exact ⟨r, by rw [hr]; rfl⟩

theorem not_spelled_of_usage (h : parse_opts reg fp parse argv c options = .error .usage) :
    ¬ Spelled argv opts operands := by
  intro hs
  obtain ⟨hfailed, hok⟩ := parse_spelled_or reg fp parse c options hs
  by_cases hr : Refused reg parse opts c options
  · simp [hfailed hr] at h
  · obtain ⟨r, hr⟩ := hok hr
    simp [hr] at h

/-- `parse_opts` comes to its end with the command lines that are written with options and
operands, where these can be parsed, and with no others: it fails on those whose values are
refused, and `usage` is the end of those that are not written so. -/
theorem parse_opts_iff (reg : Registry F) (fp : FloatingPoint D)
    (parse : F → List Char → S → Option S) (argv : List (List Char)) (c : Config) (options : S) :
    (∀ r, parse_opts reg fp parse argv c options = .ok r ↔ ∃ opts operands,
      Spelled argv opts operands ∧
        ParseOpts.parse_opts reg fp parse opts operands c options = some r) ∧
    (∀ opts operands, Spelled argv opts operands →
      (Refused reg parse opts c options →
        parse_opts reg fp parse argv c options = .error .failed) ∧
      (¬ Refused reg parse opts c options →
        ∃ r, parse_opts reg fp parse argv c options = .ok r)) ∧
    ((∀ opts operands, ¬ Spelled argv opts operands) →
      parse_opts reg fp parse argv c options = .error .usage ∨
        parse_opts reg fp parse argv c options = .error .failed ∧
          ∃ optarg, .option 'p' (some optarg) ∈ (getopt_long table argv).1 ∧
            ∀ c, parse_sched optarg c = none) := by
  refine ⟨fun r => ⟨spelled_of_ok, ?_⟩,
    fun opts operands hs => parse_spelled_or reg fp parse c options hs,
    parse_not_spelled reg fp parse c options⟩
  rintro ⟨opts, operands, hs, hr⟩
  rw [parse_spelled hs, hr]
  rfl

theorem spelled_write (opts : List Opt) (operands : List (List Char)) :
    Spelled (write (opts.map given) operands) opts operands := by
  refine commandLine_write (fun g hg => ?_) operands
  obtain ⟨o, -, rfl⟩ := List.mem_map.mp hg
  exact known_given o

/-- How the options are written, in which order and where among the operands, does not matter
to the configuration. -/
theorem spelling_independent (hs : Spelled argv opts operands) (hs' : Spelled argv' opts' operands)
    (p : opts.Perm opts') (hn : Once opts) :
    parse_opts reg fp parse argv c options = parse_opts reg fp parse argv' c options := by
  have happart : (commands reg fp).Apart opts := hn
  have hopts : ParseOpts.parse_opts reg fp parse opts operands c options =
      ParseOpts.parse_opts reg fp parse opts' operands c options := by
    rw [ParseOpts.parse_opts, ParseOpts.parse_opts, foldlM_parse_opt, foldlM_parse_opt,
      FieldCommands.Commands.foldlM_perm p happart]
  rw [parse_spelled hs, parse_spelled hs', hopts]

def oneLine : List (List Char) :=
  ["-zo".toList, "3".toList, "1".toList, "--mode=spin".toList, "0".toList]

def otherLine : List (List Char) :=
  ["1".toList, "-mspin".toList, "--secret".toList, "--opt".toList, "3".toList, "--".toList,
    "0".toList]

def parsedLine (argv : List (List Char)) : Except Stop (Config × List Char) :=
  parse_opts nopAndSpin ⟨fun _ => (), fun _ => false, fun _ => true, fun _ => 0⟩
    (fun _ string _ => some string) argv setup_defaults []

theorem spelling_independent_lines : parsedLine oneLine = parsedLine otherLine ∧
    (∃ r, parsedLine oneLine = .ok r ∧ r.1.comm_mode_index = 1 ∧ r.1.cpu = (1, 0) ∧
      r.1.cpu_dma_latency = 0 ∧ r.2 = "3".toList) := by
  have hone : Spelled oneLine [.z, .o "3".toList, .m "spin".toList] ["1".toList, "0".toList] :=
    getopt_long_iff.mp (by decide +kernel)
  have hother : Spelled otherLine [.m "spin".toList, .z, .o "3".toList] ["1".toList, "0".toList] :=
    getopt_long_iff.mp (by decide +kernel)
  refine ⟨spelling_independent hone hother (by decide +kernel) (by decide +kernel), ?_⟩
  exact ⟨_, rfl, by decide +kernel⟩

end PingPong.CommandLine
