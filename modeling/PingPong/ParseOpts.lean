import PingPong.CommRegistry
import PingPong.FieldCommands
import PingPong.ParseSched

namespace PingPong.ParseOpts

open CMemory CString CommRegistry FieldCommands ParseSched
open MonitorState (ThreadMode Timeval)

variable {D F S : Type}

inductive Opt
  | m (optarg : List Char)
  | t (optarg : List Char)
  | p (optarg : List Char)
  | r (optarg : List Char)
  | u (optarg : List Char)
  | z
  | o (optarg : List Char)
  | l (optarg : List Char)
deriving DecidableEq, Repr

/-- The floating-point numbers that `strtod` returns, and what is done with them. -/
structure FloatingPoint (D : Type) where
  strtod : List Char → D
  negative : D → Bool
  /-- `fpclassify(x) == FP_ZERO` -/
  zero : D → Bool
  /-- `llrintl(x * 1.0e6L)` -/
  micros : D → Int

def parse_thread_mode (arg : List Char) (c : Config) : Config :=
  if strcmp arg "fork".toList = 0 then { c with thread_mode := .fork }
  else if strcmp arg "pthread".toList = 0 then { c with thread_mode := .pthread }
  else if strcmp arg "clone".toList = 0 then { c with thread_mode := .thread }
  else if strcmp arg "thread".toList = 0 then { c with thread_mode := .thread }
  else c

/-- The case `u`. -/
def parse_update (fp : FloatingPoint D) (arg_ld : D) (c : Config) : Config :=
  if fp.negative arg_ld then { c with stats_interval := DEFAULT_STATS_INTERVAL }
  else if fp.zero arg_ld then { c with stats_summary := true }
  else
    let arg_ll := fp.micros arg_ld
    { c with stats_interval := ⟨arg_ll.tdiv 1000000, arg_ll.tmod 1000000⟩ }

/-- The case `l`. -/
def parse_latency (optarg : List Char) (c : Config) : Config :=
  let arg_l := (strtol optarg).1
  { c with cpu_dma_latency := if arg_l < -1 then -1 else arg_l }

structure Parsing where
  config : Config
  comm_option_string : Option (List Char)
deriving DecidableEq, Repr

/-- One turn of the loop. -/
def parse_opt (reg : Registry F) (fp : FloatingPoint D) (s : Parsing) : Opt → Option Parsing
  | .m optarg =>
    some { s with config.comm_mode_index := (parse_comm_mode reg optarg).2 }
  | .t optarg => some { s with config := parse_thread_mode optarg s.config }
  | .p optarg => (parse_sched optarg s.config).map fun c => { s with config := c }
  | .r optarg => some { s with config.runtime := strtoul optarg }
  | .u optarg => some { s with config := parse_update fp (fp.strtod optarg) s.config }
  | .z => some { s with config.cpu_dma_latency := 0 }
  | .o optarg => some { s with comm_option_string := some optarg }
  | .l optarg => some { s with config := parse_latency optarg s.config }

/-- The call of `comm_parse_options` of an entry. `parse` runs the function that a mode has
for it, on what the mode keeps of its options; none is the end of the program. -/
def parse_comm_option (reg : Registry F) (parse : F → List Char → S → Option S)
    (comm_mode_index : Nat) (string : List Char) (options : S) : Option S :=
  match (reg.comm_mode_info[comm_mode_index]?).bind (·.ops .comm_parse_options) with
  | some (.own f) => parse f string options
  | some .comm_parse_no_options => some options
  | _ => none

def toShort (n : Int) : Int := n.bmod (2 ^ 16)

/-- What is done with the arguments that are no options. -/
def parse_cpus (c : Config) : List (List Char) → Config
  | [cpu0, cpu1] =>
    { c with set_affinity := true, cpu := (toShort (strtol cpu0).1, toShort (strtol cpu1).1) }
  | _ => c

/-- `parse_opts` on the options that `getopt_long` yields and the arguments it leaves. -/
def parse_opts (reg : Registry F) (fp : FloatingPoint D) (parse : F → List Char → S → Option S)
    (opts : List Opt) (operands : List (List Char)) (c : Config) (options : S) :
    Option (Config × S) :=
  (opts.foldlM (parse_opt reg fp) ⟨c, none⟩).bind fun s =>
    (match s.comm_option_string with
      | some string => parse_comm_option reg parse s.config.comm_mode_index string options
      | none => some options).map fun options => (parse_cpus s.config operands, options)

/-- What an option is about; `z` is a short form of `l`. -/
inductive Target | mode | thread | sched | runtime | update | latency | option
deriving DecidableEq, Repr

def Opt.target : Opt → Target
  | .m _ => .mode
  | .t _ => .thread
  | .p _ => .sched
  | .r _ => .runtime
  | .u _ => .update
  | .z | .l _ => .latency
  | .o _ => .option

variable {reg : Registry F} {fp : FloatingPoint D} {parse : F → List Char → S → Option S}
  {opts opts' : List Opt} {operands : List (List Char)} {c : Config} {options : S}

namespace Parsing

def Val : Target → Type
  | .mode => Nat
  | .thread => ThreadMode
  | .sched => Int × Int
  | .runtime => Nat
  | .update => Timeval × Bool
  | .latency => Int
  | .option => Option (List Char)

def get (s : Parsing) : ∀ k, Val k
  | .mode => s.config.comm_mode_index
  | .thread => s.config.thread_mode
  | .sched => (s.config.sched_policy, s.config.sched_prio)
  | .runtime => s.config.runtime
  | .update => (s.config.stats_interval, s.config.stats_summary)
  | .latency => s.config.cpu_dma_latency
  | .option => s.comm_option_string

def set (s : Parsing) : ∀ k, Val k → Parsing
  | .mode, i => { s with config.comm_mode_index := i }
  | .thread, mode => { s with config.thread_mode := mode }
  | .sched, (policy, prio) =>
    { s with config.sched_policy := policy, config.sched_prio := prio }
  | .runtime, runtime => { s with config.runtime := runtime }
  | .update, (interval, summary) =>
    { s with config.stats_interval := interval, config.stats_summary := summary }
  | .latency, latency => { s with config.cpu_dma_latency := latency }
  | .option, string => { s with comm_option_string := string }

def fields : Fields Parsing Target where
  Val := Val
  get k s := s.get k
  set k v s := s.set k v
  get_set k v s := by cases k <;> rfl
  get_set_of_ne {k l} h v s := by cases k <;> cases l <;> first | rfl | exact absurd rfl h
  set_comm {k l} h v w s := by cases k <;> cases l <;> first | rfl | exact absurd rfl h

end Parsing

/-- What an option makes of the value it is about, whatever the others are. -/
def effect (reg : Registry F) (fp : FloatingPoint D) (o : Opt) (v : Parsing.Val o.target) :
    Option (Parsing.Val o.target) :=
  (parse_opt reg fp (Parsing.set ⟨setup_defaults, none⟩ o.target v) o).map (·.get o.target)

def commands (reg : Registry F) (fp : FloatingPoint D) : Commands Parsing.fields Opt where
  target := Opt.target
  effect := effect reg fp

theorem parse_opt_eq (s : Parsing) (o : Opt) :
    parse_opt reg fp s o = (commands reg fp).step s o := by
  cases o with
  | m _ | r _ | z | o _ | l _ => rfl
  | t optarg =>
    simp only [parse_opt, Commands.step, commands, effect, parse_thread_mode]
    split_ifs <;> rfl
  | p optarg =>
    simp only [parse_opt, Commands.step, commands, effect, parse_sched]
    generalize strtok_r (optarg ++ [nul]) 0 [':'] = r
    obtain ⟨_ | tok, saveptr, arg_copy⟩ := r
    · rfl
    · simp only [Option.map_some]
      split_ifs <;> rfl
  | u optarg =>
    simp only [parse_opt, Commands.step, commands, effect, parse_update]
    split_ifs <;> rfl

/-- Each of the options occurs at most once, and `l` and `z` not both. -/
def Once (opts : List Opt) : Prop := (opts.map Opt.target).Nodup

instance (opts : List Opt) : Decidable (Once opts) := inferInstanceAs (Decidable (List.Nodup _))

theorem foldlM_parse_opt (opts : List Opt) (s : Parsing) :
    opts.foldlM (parse_opt reg fp) s = opts.foldlM (commands reg fp).step s :=
  congrArg (fun f => opts.foldlM f s) (funext fun s => funext fun o => parse_opt_eq s o)

theorem selected {s t : Parsing} {name string : List Char}
    (h : opts.foldlM (parse_opt reg fp) s = some t) (hn : Once opts) (hm : .m name ∈ opts)
    (ho : .o string ∈ opts) :
    t.config.comm_mode_index = (parse_comm_mode reg name).2 ∧
      t.comm_option_string = some string := by
  rw [foldlM_parse_opt] at h
  have hmode : some (parse_comm_mode reg name).2 = some t.config.comm_mode_index :=
    Commands.get_foldlM_of_mem h hn hm
  have hoption : some (some string) = some t.comm_option_string :=
    Commands.get_foldlM_of_mem h hn ho
  exact ⟨(Option.some.inj hmode).symm, (Option.some.inj hoption).symm⟩

/-- The order of the options does not matter, and the string of `-o` is read by the mode that
`-m` selects, wherever the two stand. -/
theorem option_order (p : opts.Perm opts') (hn : Once opts) :
    parse_opts reg fp parse opts operands c options =
      parse_opts reg fp parse opts' operands c options ∧
    ∀ name string, .m name ∈ opts → .o string ∈ opts →
      parse_opts reg fp parse opts operands c options =
        (opts.foldlM (parse_opt reg fp) ⟨c, none⟩).bind fun s =>
          (parse_comm_option reg parse (parse_comm_mode reg name).2 string options).map
            fun options => (parse_cpus s.config operands, options) := by
  constructor
  · have happart : (commands reg fp).Apart opts := hn
    rw [parse_opts, parse_opts, foldlM_parse_opt, foldlM_parse_opt,
      Commands.foldlM_perm p happart]
  · intro name string hm ho
    rw [parse_opts]
    refine Option.bind_congr fun s hs => ?_
    obtain ⟨hmode, hoption⟩ := selected hs hn hm ho
    rw [hmode, hoption]

def nopAndSpin : Registry Unit :=
  registered (fun _ => .zero)
    [⟨"nop".toList, none, fun _ => none⟩,
      ⟨"spin".toList, none,
        fun slot => if slot = .comm_parse_options then some (.own ()) else none⟩]

def parsed (opts : List Opt) : Option (Config × List Char) :=
  parse_opts nopAndSpin ⟨fun _ => (), fun _ => false, fun _ => true, fun _ => 0⟩
    (fun _ string _ => some string) opts [] setup_defaults []

/-- `-o 3 -m spin` is `-m spin -o 3`. -/
theorem option_order_swapped :
    parsed [.o "3".toList, .m "spin".toList] = parsed [.m "spin".toList, .o "3".toList] ∧
      parsed [.o "3".toList, .m "spin".toList] =
        some ({ setup_defaults with comm_mode_index := 1 }, "3".toList) := by
  refine ⟨(option_order ?_ (by decide)).1, by decide +kernel⟩
  exact List.Perm.swap _ _ []

end PingPong.ParseOpts
