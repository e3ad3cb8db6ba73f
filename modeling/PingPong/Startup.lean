import Mathlib.Data.List.Perm.Subperm
import PingPong.CommandLine
import PingPong.CommRegistryNames

namespace PingPong.Startup

open CommRegistry CommRegistryNames CommandLine ParseOpts ParseSched

variable {D F S : Type}

/-- What `main` has set up when it starts the workers: what the options have set, what the
mode keeps of its options, and the operations that `config` points to. -/
structure Setup (F S : Type) where
  config : Config
  options : S
  ops : Ops F

def defaultOps : Ops F
  | .comm_ping => some .comm_ping_generic
  | .comm_pong => some .comm_pong_generic
  | .comm_do_send => some .comm_do_send_generic
  | .comm_do_recv => some .comm_do_recv_generic
  | .comm_cleanup => some .comm_no_cleanup
  | _ => none

def copyOps (info : ModeInfo F) (config : Ops F) : Ops F
  | .comm_show_options => config .comm_show_options
  | .comm_parse_options => config .comm_parse_options
  | slot => info.ops slot

/-- `do_comm_setup`, with `make_pairs`: none where there is no entry, or nothing to call in it. -/
def do_comm_setup (reg : Registry F) (c : Config) (options : S) : Option (Setup F S) :=
  (reg.comm_mode_info[c.comm_mode_index]?).bind fun info =>
    let ops := copyOps info defaultOps
    (ops .comm_make_pair).map fun _ => ⟨c, options, ops⟩

/-- How `main` can go: to the workers, or to an end before. -/
inductive Outcome (F S : Type)
  | exit_fail
  | stop (how : Stop)
  | null
  | start_threads (s : Setup F S)

def main (reg : Registry F) (fp : FloatingPoint D) (parse : F → List Char → S → Option S)
    (argv : List (List Char)) (options : S) : Outcome F S :=
  if comm_mode_verify_all reg = false then .exit_fail
  else
    match CommandLine.parse_opts reg fp parse argv setup_defaults options with
    | .error how => .stop how
    | .ok (c, options) => (do_comm_setup reg c options).elim .null .start_threads

/-- The mode that the last `-m` names, or else the first of all. -/
def selected (modes : List (Registration F)) (opts : List Opt) : Nat :=
  (opts.filterMap modeName).getLast?.elim 0 fun name => ((names modes).idxOf? name).getD 0

/-- What a mode registers: a function that makes its pairs, and nothing that is not its own. -/
structure Registration.Sound (mode : Registration F) : Prop where
  make_pair : (mode.ops .comm_make_pair).isSome
  own : ∀ slot fn, mode.ops slot = some fn → ∃ f, fn = .own f

def Copied (slot : Slot) : Prop := slot ≠ .comm_show_options ∧ slot ≠ .comm_parse_options

structure Runs (modes : List (Registration F)) (opts : List Opt) (s : Setup F S) : Prop where
  index : s.config.comm_mode_index = selected modes opts
  ops : ∃ mode, modes[selected modes opts]? = some mode ∧
    ∀ slot, Copied slot → s.ops slot = (mode.ops slot).or (generic slot)
  call : ∀ slot, Copied slot → (s.ops slot).isSome

variable {modes : List (Registration F)} {fresh : Nat → ModeInfo F} {opts : List Opt}
  {reg : Registry F} {fp : FloatingPoint D}

theorem parse_cpus_index (c : Config) (operands : List (List Char)) :
    (parse_cpus c operands).comm_mode_index = c.comm_mode_index := by
  unfold parse_cpus
  split <;> rfl

theorem modeIndex_eq (fresh : Nat → ModeInfo F) (modes : List (Registration F)) (opts : List Opt) :
    modeIndex (registered fresh modes) opts setup_defaults = selected modes opts := by
  have hparse (name : List Char) : (parse_comm_mode (registered fresh modes) name).2 =
      ((names modes).idxOf? name).getD 0 := by
    rw [parse_eq]
    cases (names modes).idxOf? name <;> rfl
  rw [modeIndex, selected]
  simp only [hparse]
  rfl

theorem index_parse_opts {parse : F → List Char → S → Option S} {operands : List (List Char)}
    {options : S} {r : Config × S}
    (h : ParseOpts.parse_opts (registered fresh modes) fp parse opts operands setup_defaults
      options = some r) : r.1.comm_mode_index = selected modes opts := by
  obtain ⟨t, ht, hr⟩ := Option.bind_eq_some_iff.mp h
  obtain ⟨_, -, rfl⟩ := Option.map_eq_some_iff.mp hr
  rw [parse_cpus_index, index_foldlM ht, modeIndex_eq]

theorem selected_lt (hne : modes ≠ []) (opts : List Opt) : selected modes opts < modes.length := by
  have hpos := List.length_pos_of_ne_nil hne
  rw [selected]
  cases (opts.filterMap modeName).getLast? with
  | none => exact hpos
  | some name =>
    rw [Option.elim_some]
    cases hi : (names modes).idxOf? name with
    | none => exact hpos
    | some i =>
      obtain ⟨hlt, -⟩ := List.findIdx?_eq_some_iff_getElem.mp hi
      simpa [names] using hlt

theorem call_ops {mode : Registration F} (h : Registration.Sound mode) (slot : Slot) :
    ((mode.ops slot).or (generic slot)).isSome := by
  cases slot with
  | comm_make_pair => simpa [generic] using h.make_pair
  | _ => simp [generic]

theorem copyOps_eq (info : ModeInfo F) (config : Ops F) {slot : Slot} (h : Copied slot) :
    copyOps info config slot = info.ops slot := by
  obtain ⟨hshow, hparse⟩ := h
  cases slot <;> first | rfl | exact absurd rfl hshow | exact absurd rfl hparse

theorem setup_of_entry {mode : Registration F} {c : Config} {i : Nat} (hs : Registration.Sound mode)
    (h : reg.comm_mode_info[c.comm_mode_index]? = some (entry mode i)) (options : S) :
    do_comm_setup reg c options =
      some ⟨c, options, copyOps (entry mode i) defaultOps⟩ := by
  obtain ⟨f, hf⟩ := Option.isSome_iff_exists.mp (call_ops hs .comm_make_pair)
  have hcall : copyOps (entry mode i) defaultOps .comm_make_pair = some f := hf
  simp only [do_comm_setup, h, Option.bind_some, hcall, Option.map_some]

theorem entry_selected (fresh : Nat → ModeInfo F) (hn : (names modes).Nodup) (hne : modes ≠ [])
    (opts : List Opt) :
    ∃ mode ∈ modes, modes[selected modes opts]? = some mode ∧
      (registered fresh modes).comm_mode_info[selected modes opts]? =
        some (entry mode (selected modes opts)) := by
  have hget := List.getElem?_eq_getElem (selected_lt hne opts)
  exact ⟨_, List.getElem_mem _, hget, (intact fresh hn).entries _ _ hget⟩

theorem refused {parse : F → List Char → S → Option S} {mode : Registration F} {i j : Nat}
    {string : List Char} {options : S} (hs : Registration.Sound mode)
    (he : reg.comm_mode_info[i]? = some (entry mode j))
    (h : parse_comm_option reg parse i string options = none) :
    ∃ f, mode.ops .comm_parse_options = some (.own f) ∧ parse f string options = none := by
  rw [parse_comm_option, he, Option.bind_some] at h
  cases hf : mode.ops .comm_parse_options with
  | none => simp [entry, hf, generic] at h
  | some fn =>
    obtain ⟨f, rfl⟩ := hs.own _ _ hf
    exact ⟨f, rfl, by simpa [entry, hf] using h⟩

/-- The last `-o` of a command line is refused by the mode that its last `-m` selects. -/
def OptionRefused (modes : List (Registration F)) (parse : F → List Char → S → Option S)
    (argv : List (List Char)) (options : S) : Prop :=
  ∃ opts operands, Spelled argv opts operands ∧
    ∃ mode, modes[selected modes opts]? = some mode ∧
      ∃ f string, mode.ops .comm_parse_options = some (.own f) ∧
        (opts.filterMap optionString).getLast? = some string ∧ parse f string options = none

theorem failed_cause {parse : F → List Char → S → Option S} {argv : List (List Char)} {options : S}
    (hn : (names modes).Nodup) (hne : modes ≠ [])
    (hs : ∀ mode ∈ modes, Registration.Sound mode)
    (h : CommandLine.parse_opts (registered fresh modes) fp parse argv setup_defaults options =
      .error .failed) :
    (∃ optarg, .option 'p' (some optarg) ∈ (Getopt.getopt_long table argv).1 ∧
      ∀ c, parse_sched optarg c = none) ∨ OptionRefused modes parse argv options := by
  by_cases hspelled : ∃ opts operands, Spelled argv opts operands
  · obtain ⟨opts, operands, hspelled⟩ := hspelled
    have hrefused : Refused (registered fresh modes) parse opts setup_defaults options := by
      by_contra hnot
      obtain ⟨r, hr⟩ := (parse_spelled_or (registered fresh modes) fp parse setup_defaults options
        hspelled).2 hnot
      simp [h] at hr
    obtain ⟨optarg, hmem, hp⟩ | ⟨string, hlast, hparse⟩ := hrefused
    · refine .inl ⟨optarg, ?_, hp⟩
      rw [Getopt.getopt_long_iff.mpr hspelled]
      exact List.mem_map_of_mem (List.mem_map_of_mem hmem)
    · obtain ⟨mode, hmem, hget, hentry⟩ := entry_selected fresh hn hne opts
      rw [modeIndex_eq] at hparse
      obtain ⟨f, hf, hnone⟩ := refused (hs mode hmem) hentry hparse
      exact .inr ⟨opts, operands, hspelled, mode, hget, f, string, hf, hlast, hnone⟩
  · push Not at hspelled
    obtain hu | ⟨-, hp⟩ := parse_not_spelled (registered fresh modes) fp parse setup_defaults
      options hspelled
    · simp [h] at hu
    · exact .inl hp

theorem main_cases (fresh : Nat → ModeInfo F) (fp : FloatingPoint D)
    (parse : F → List Char → S → Option S) (argv : List (List Char)) (options : S)
    (hn : (names modes).Nodup) (hne : modes ≠ [])
    (hs : ∀ mode ∈ modes, Registration.Sound mode) :
    (∃ how, main (registered fresh modes) fp parse argv options = .stop how ∧
      CommandLine.parse_opts (registered fresh modes) fp parse argv setup_defaults options =
        .error how) ∨
    ∃ s opts operands, main (registered fresh modes) fp parse argv options = .start_threads s ∧
      CommandLine.parse_opts (registered fresh modes) fp parse argv setup_defaults options =
        .ok (s.config, s.options) ∧
      Spelled argv opts operands ∧ Runs modes opts s := by
  have hverify : comm_mode_verify_all (registered fresh modes) = true := by
    rw [registered_eq, comm_mode_verify_all, holding, List.take_left]
    exact (all_initialized modes).mpr hn
  rw [main, hverify, if_neg (by decide)]
  cases hp : CommandLine.parse_opts (registered fresh modes) fp parse argv setup_defaults
    options with
  | error how => exact .inl ⟨how, rfl, rfl⟩
  | ok r =>
    obtain ⟨c, options'⟩ := r
    obtain ⟨opts, operands, hspelled, hr⟩ := spelled_of_ok hp
    have hindex : c.comm_mode_index = selected modes opts := index_parse_opts hr
    obtain ⟨mode, hmem, hget, hentry⟩ := entry_selected fresh hn hne opts
    have hsetup := setup_of_entry (hs mode hmem) (hindex ▸ hentry) options'
    have hops {slot : Slot} (h : Copied slot) :
        copyOps (entry mode c.comm_mode_index) defaultOps slot =
          (mode.ops slot).or (generic slot) := copyOps_eq _ _ h
    refine .inr ⟨⟨c, options', copyOps (entry mode c.comm_mode_index) defaultOps⟩, opts,
      operands, by simp only [hsetup, Option.elim_some], rfl, hspelled, hindex,
      ⟨mode, hget, fun slot h => hops h⟩, fun slot h => ?_⟩
    have hcall := call_ops (hs mode hmem) slot
    rwa [← hops h] at hcall

inductive Fn
  | make_tcp_pair | comm_ping_tcp | comm_pong_tcp
  | make_udp_pair
  | pipe | comm_pre_pipe | comm_ping_pipe | comm_pong_pipe | comm_cleanup_pipe
  | make_socket_pair
  | make_sem_pair | do_begin_sem | comm_ping_sem | comm_pong_sem | comm_ping_busysem
  | comm_pong_busysem | cleanup_sem
  | make_futex_pair | do_send_futex | do_recv_futex | cleanup_futex
  | make_futex_test_pair | comm_ping_futex_test | comm_pong_futex_test | do_send_futex_test
  | do_recv_futex_test
  | make_mq_pair | do_send_mq | do_recv_mq | cleanup_mq
  | make_inotify_pair | comm_ping_inotify | comm_pong_inotify | cleanup_inotify
  | make_signal_pair | do_pre_signal | comm_ping_signal | comm_pong_signal | cleanup_signal
  | make_eventfd_pair | comm_ping_eventfd | comm_pong_eventfd
  | make_spin_pair | comm_ping_spin | comm_pong_spin | comm_spin_show_options
  | comm_spin_parse_options | cleanup_spin
  | make_yield_pair | comm_ping_yield | comm_pong_yield | comm_ping_yield_nop
  | comm_pong_yield_nop
  | make_race_pair | comm_ping_race1 | comm_pong_race1 | comm_ping_race2 | comm_pong_race2
  | cleanup_race
  | make_nop_pair | comm_ping_nop | comm_pong_nop | comm_nop_show_options
  | comm_nop_parse_options | cleanup_nop
  | comm_makepair_namedpipe | comm_ping_namedpipe | comm_pong_namedpipe
  | comm_cleanup_namedpipe
deriving DecidableEq, Repr

def ops (members : List (Slot × Fn)) : Ops Fn := fun slot =>
  (members.lookup slot).map .own

def ADD_COMM_MODE (comm_name help_text : String) (members : List (Slot × Fn)) : Registration Fn :=
  ⟨comm_name.toList, some help_text.toList, ops members⟩

/-- The modes in the order of the Makefile. -/
def commModes : List (Registration Fn) :=
  [ADD_COMM_MODE "tcp" "TCP ping/pong"
      [(.comm_make_pair, .make_tcp_pair), (.comm_ping, .comm_ping_tcp),
        (.comm_pong, .comm_pong_tcp)],
    ADD_COMM_MODE "udp" "UDP ping/pong" [(.comm_make_pair, .make_udp_pair)],
    ADD_COMM_MODE "pipe" "pipe() ping/pong"
      [(.comm_make_pair, .pipe), (.comm_pre, .comm_pre_pipe), (.comm_ping, .comm_ping_pipe),
        (.comm_pong, .comm_pong_pipe), (.comm_cleanup, .comm_cleanup_pipe)],
    ADD_COMM_MODE "socketpair" "socketpair() ping/pong" [(.comm_make_pair, .make_socket_pair)],
    ADD_COMM_MODE "sem" "wait on a semaphore"
      [(.comm_make_pair, .make_sem_pair), (.comm_begin, .do_begin_sem),
        (.comm_ping, .comm_ping_sem), (.comm_pong, .comm_pong_sem), (.comm_cleanup, .cleanup_sem)],
    ADD_COMM_MODE "busysem" "busy-wait on a semaphore"
      [(.comm_make_pair, .make_sem_pair), (.comm_begin, .do_begin_sem),
        (.comm_ping, .comm_ping_busysem), (.comm_pong, .comm_pong_busysem),
        (.comm_cleanup, .cleanup_sem)],
    ADD_COMM_MODE "futex" "use futex wait/wake to benefit from kernel-arbitrated lock contention"
      [(.comm_make_pair, .make_futex_pair), (.comm_do_send, .do_send_futex),
        (.comm_do_recv, .do_recv_futex), (.comm_cleanup, .cleanup_futex)],
    ADD_COMM_MODE "futex_test"
      "use futex wait/wake to benefit from kernel-arbitrated lock contention"
      [(.comm_make_pair, .make_futex_test_pair), (.comm_ping, .comm_ping_futex_test),
        (.comm_pong, .comm_pong_futex_test), (.comm_do_send, .do_send_futex_test),
        (.comm_do_recv, .do_recv_futex_test)],
    ADD_COMM_MODE "mq" "ping/pong via message queue"
      [(.comm_make_pair, .make_mq_pair), (.comm_do_send, .do_send_mq),
        (.comm_do_recv, .do_recv_mq), (.comm_cleanup, .cleanup_mq)],
    ADD_COMM_MODE "inotify" "use inotify to watch for file modifications"
      [(.comm_make_pair, .make_inotify_pair), (.comm_ping, .comm_ping_inotify),
        (.comm_pong, .comm_pong_inotify), (.comm_cleanup, .cleanup_inotify)],
    ADD_COMM_MODE "signal" "each thread sleeps until receiving a wakeup signal from the other"
      [(.comm_make_pair, .make_signal_pair), (.comm_pre, .do_pre_signal),
        (.comm_ping, .comm_ping_signal), (.comm_pong, .comm_pong_signal),
        (.comm_cleanup, .cleanup_signal)],
    ADD_COMM_MODE "eventfd" ""
      [(.comm_make_pair, .make_eventfd_pair), (.comm_ping, .comm_ping_eventfd),
        (.comm_pong, .comm_pong_eventfd)],
    ADD_COMM_MODE "spin" "busy-wait on a shared variable"
      [(.comm_make_pair, .make_spin_pair), (.comm_ping, .comm_ping_spin),
        (.comm_pong, .comm_pong_spin), (.comm_show_options, .comm_spin_show_options),
        (.comm_parse_options, .comm_spin_parse_options), (.comm_cleanup, .cleanup_spin)],
    ADD_COMM_MODE "yield" "each thread calls sched_yield() until their turn to pingpong"
      [(.comm_make_pair, .make_yield_pair), (.comm_ping, .comm_ping_yield),
        (.comm_pong, .comm_pong_yield)],
    ADD_COMM_MODE "yield_nop" "only tests rate at which sched_yield() re-schedules--no pingpong"
      [(.comm_make_pair, .make_yield_pair), (.comm_ping, .comm_ping_yield_nop),
        (.comm_pong, .comm_pong_yield_nop)],
    ADD_COMM_MODE "race1" "both threads repeatedly write their own value--no pingpong"
      [(.comm_make_pair, .make_race_pair), (.comm_ping, .comm_ping_race1),
        (.comm_pong, .comm_pong_race1), (.comm_cleanup, .cleanup_race)],
    ADD_COMM_MODE "race2"
      "both threads repeatedly write their own value _AND_ increment the counter--no pingpong"
      [(.comm_make_pair, .make_race_pair), (.comm_ping, .comm_ping_race2),
        (.comm_pong, .comm_pong_race2), (.comm_cleanup, .cleanup_race)],
    ADD_COMM_MODE "nop"
      "no ping/pong - first thread does various levels of nothing, second thread sleeps"
      [(.comm_show_options, .comm_nop_show_options),
        (.comm_parse_options, .comm_nop_parse_options), (.comm_make_pair, .make_nop_pair),
        (.comm_ping, .comm_ping_nop), (.comm_pong, .comm_pong_nop), (.comm_cleanup, .cleanup_nop)],
    ADD_COMM_MODE "namedpipe" "ping/pong over named pipes"
      [(.comm_make_pair, .comm_makepair_namedpipe), (.comm_ping, .comm_ping_namedpipe),
        (.comm_pong, .comm_pong_namedpipe), (.comm_cleanup, .comm_cleanup_namedpipe)]]

theorem names_commModes : (names commModes).Nodup := by decide +kernel

theorem ops_commModes : ∀ mode ∈ commModes, ∃ members, mode.ops = ops members := by
  simp only [commModes, List.forall_mem_cons]
  repeat' apply And.intro
  all_goals first | exact ⟨_, rfl⟩ | simp

theorem sound_commModes {mode : Registration Fn} (h : mode ∈ commModes) :
    Registration.Sound mode where
  make_pair := by
    have hall : ∀ mode ∈ commModes, (mode.ops .comm_make_pair).isSome := by decide +kernel
    exact hall mode h
  own slot fn hfn := by
    obtain ⟨members, hops⟩ := ops_commModes mode h
    rw [hops] at hfn
    obtain ⟨f, -, rfl⟩ := Option.map_eq_some_iff.mp hfn
    exact ⟨f, rfl⟩

/-- In whatever order the constructors of the modes run, and whichever modes are linked, `main`
finds each of them initialized, calls nothing that is null, and comes to the workers with the
operations of the mode that the last `-m` selects, unless the command line makes it stop before:
by `usage`, as it is not written with the known options, in a scheduling policy without any token,
or as that mode refuses the last `-o`. -/
theorem starts_selected_mode (fresh : Nat → ModeInfo Fn) (fp : FloatingPoint D)
    (parse : Fn → List Char → S → Option S) (argv : List (List Char)) (options : S)
    {modes : List (Registration Fn)} (hm : modes.Subperm commModes) (hne : modes ≠ []) :
    (main (registered fresh modes) fp parse argv options = .stop .usage ∧
      CommandLine.parse_opts (registered fresh modes) fp parse argv setup_defaults options =
        .error .usage ∧
      ∀ opts operands, ¬ Spelled argv opts operands) ∨
    (main (registered fresh modes) fp parse argv options = .stop .failed ∧
      ((∃ optarg, .option 'p' (some optarg) ∈ (Getopt.getopt_long table argv).1 ∧
        ∀ c, parse_sched optarg c = none) ∨ OptionRefused modes parse argv options)) ∨
    ∃ s opts operands, main (registered fresh modes) fp parse argv options = .start_threads s ∧
      Spelled argv opts operands ∧
      ParseOpts.parse_opts (registered fresh modes) fp parse opts operands setup_defaults options =
        some (s.config, s.options) ∧ Runs modes opts s := by
  have hn : (names modes).Nodup := by
    obtain ⟨modes', hperm, hsub⟩ := hm
    have hnames : (modes'.map (·.name)).Nodup :=
      List.Nodup.sublist (hsub.map (·.name)) names_commModes
    exact (hperm.map (·.name)).nodup_iff.mp hnames
  have hs : ∀ mode ∈ modes, Registration.Sound mode := fun mode h => sound_commModes (hm.subset h)
  obtain ⟨how, hmain, hparse⟩ | ⟨s, opts, operands, hmain, hparse, hspelled, hruns⟩ :=
    main_cases fresh fp parse argv options hn hne hs
  · cases how with
    | usage => exact .inl ⟨hmain, hparse, fun _ _ => not_spelled_of_usage hparse⟩
    | failed => exact .inr (.inl ⟨hmain, failed_cause hn hne hs hparse⟩)
  · refine .inr (.inr ⟨s, opts, operands, hmain, hspelled, ?_, hruns⟩)
    have helim := (parse_spelled hspelled).symm.trans hparse
    cases hr : ParseOpts.parse_opts (registered fresh modes) fp parse opts operands setup_defaults
      options with
    | none => simp [hr] at helim
    | some r => simpa [hr] using helim

def futexOutcome : Outcome Fn Unit :=
  main (registered (fun _ => .zero) commModes.reverse)
    ⟨fun _ => (), fun _ => false, fun _ => true, fun _ => 0⟩ (fun _ _ _ => some ())
    ["-m".toList, "futex".toList, "2".toList, "3".toList] ()

def Outcome.setup : Outcome F S → Option (Setup F S)
  | .start_threads s => some s
  | _ => none

theorem starts_selected_mode_reverse : ∃ s opts, futexOutcome.setup = some s ∧
    s.ops .comm_do_send = some (.own .do_send_futex) ∧ s.ops .comm_ping = some .comm_ping_generic ∧
      Runs commModes.reverse opts s := by
  have hops : futexOutcome.setup.map (fun s => (s.ops .comm_do_send, s.ops .comm_ping)) =
      some (some (.own .do_send_futex), some .comm_ping_generic) := by decide +kernel
  obtain ⟨s, hs, heq⟩ := Option.map_eq_some_iff.mp hops
  obtain ⟨hsend, hping⟩ := Prod.mk.inj heq
  obtain ⟨hmain, -⟩ | ⟨hmain, -⟩ | ⟨s', opts, operands, hmain, -, -, hruns⟩ :=
    starts_selected_mode (fun _ => .zero)
      ⟨fun _ => (), fun _ => false, fun _ => true, fun _ => 0⟩ (fun _ _ _ => some ())
      ["-m".toList, "futex".toList, "2".toList, "3".toList] ()
      (List.reverse_perm commModes).subperm (by decide)
  · have hstop : futexOutcome = .stop .usage := hmain
    simp [hstop, Outcome.setup] at hs
  · have hstop : futexOutcome = .stop .failed := hmain
    simp [hstop, Outcome.setup] at hs
  · have hstart : futexOutcome = .start_threads s' := hmain
    obtain rfl : s' = s := by simpa [hstart, Outcome.setup] using hs
    exact ⟨s', opts, hs, hsend, hping, hruns⟩

end PingPong.Startup
