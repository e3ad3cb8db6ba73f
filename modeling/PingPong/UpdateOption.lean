import Mathlib.Data.Rat.Floor
import PingPong.MonitorSchedule
import PingPong.ParseOpts

namespace PingPong.UpdateOption

open MonitorState MonitorProgram MonitorNesting MonitorReport MonitorClock MonitorInterrupt
open MonitorTimeout MonitorTimer MonitorSchedule Activation TransitionSystem
open CommRegistry FieldCommands ParseSched ParseOpts
open StatsPeriodic (micros Normalised)

variable {k : Setting} {s : State} {t : Itimer} {x : Rat} {strtod : List Char → Rat}

/-- The nearest integer, and of two the even one. -/
def llrintl (x : Rat) : Int :=
  if x - ⌊x⌋ < 1 / 2 then ⌊x⌋
  else if 1 / 2 < x - ⌊x⌋ then ⌊x⌋ + 1
  else if ⌊x⌋ % 2 = 0 then ⌊x⌋ else ⌊x⌋ + 1

example : [llrintl (1 / 2), llrintl (3 / 2), llrintl (-5 / 3)] = [0, 2, -2] := by decide +kernel

def exact (strtod : List Char → Rat) : FloatingPoint Rat where
  strtod := strtod
  negative x := x < 0
  zero x := x = 0
  micros x := llrintl (x * 1000000)

/-- The program runs with the setting `k` after `-u` was given once, with a text for `x`. -/
inductive Given (x : Rat) (k : Setting) : Prop
  | intro {F S : Type} {reg : Registry F} {strtod : List Char → Rat}
      {parse : F → List Char → S → Option S} {front rest : List Opt} {optarg : List Char}
      {operands : List (List Char)} {options options' : S} {c : Config} :
      strtod optarg = x → (∀ o ∈ front ++ rest, o.target ≠ .update) →
      parse_opts reg (exact strtod) parse (front ++ .u optarg :: rest) operands setup_defaults
        options = some (c, options') →
      k.thread_mode = c.thread_mode → k.runtime = c.runtime →
      k.stats_interval = c.stats_interval → 0 < k.runtime → Given x k

def interval (x : Rat) : Timeval :=
  if x ≤ 0 then DEFAULT_STATS_INTERVAL
  else ⟨(llrintl (x * 1000000)).tdiv 1000000, (llrintl (x * 1000000)).tmod 1000000⟩

theorem parse_update_interval : (parse_update (exact strtod) x setup_defaults).stats_interval =
    interval x := by
  unfold parse_update interval exact
  simp only [decide_eq_true_eq]
  split_ifs <;> first | rfl | grind

theorem parse_cpus_interval (c : Config) (operands : List (List Char)) :
    (parse_cpus c operands).stats_interval = c.stats_interval := by
  unfold parse_cpus
  split <;> rfl

theorem Given.runtime (h : Given x k) : 0 < k.runtime := by
  obtain ⟨-, -, -, -, -, -, hpos⟩ := h
  exact hpos

theorem Given.interval (h : Given x k) : k.stats_interval = interval x := by
  cases h with
  | @intro F S reg strtod parse front rest optarg operands options options' c hx hother hparse
      hmode hruntime hinterval hpos =>
    obtain ⟨p, hp, hc⟩ := Option.bind_eq_some_iff.mp hparse
    obtain ⟨_, -, hc⟩ := Option.map_eq_some_iff.mp hc
    obtain ⟨rfl, -⟩ := Prod.mk.inj hc
    have hnot {os : List Opt} (hos : ∀ o ∈ os, o ∈ front ++ rest) :
        Target.update ∉ os.map Opt.target := by
      intro hm
      obtain ⟨o, ho, hu⟩ := List.mem_map.mp hm
      exact hother o (hos o ho) hu
    rw [foldlM_parse_opt] at hp
    have hget := Commands.get_foldlM hp (hnot fun _ => List.mem_append_left _)
      (hnot fun _ => List.mem_append_right _)
    have hset : (parse_update (exact strtod) (strtod optarg) setup_defaults).stats_interval =
        p.config.stats_interval := congrArg Prod.fst (Option.some.inj hget)
    rw [hinterval, parse_cpus_interval, ← hset, hx, parse_update_interval]

theorem abs_llrintl_sub_le (x : Rat) : |(llrintl x : Rat) - x| ≤ 1 / 2 := by
  have hle := Int.floor_le x
  have hlt := Int.lt_floor_add_one x
  unfold llrintl
  rw [abs_le]
  split_ifs <;> push_cast <;> constructor <;> linarith

theorem one_le_llrintl : 1 ≤ llrintl x ↔ 1 / 2 < x := by
  obtain ⟨hl, hu⟩ := abs_le.mp (abs_llrintl_sub_le x)
  constructor
  · intro h
    have hone : (1 : Rat) ≤ llrintl x := by exact_mod_cast h
    have hle : 1 / 2 ≤ x := by linarith
    refine lt_of_le_of_ne hle ?_
    rintro rfl
    exact absurd h (by decide +kernel)
  · intro h
    have hpos : (0 : Rat) < llrintl x := by linarith
    exact Int.cast_pos.mp hpos

theorem micros_interval (h : 0 < x) : micros (interval x) = llrintl (x * 1000000) := by
  rw [interval, if_neg (not_le.mpr h)]
  exact Int.tdiv_mul_add_tmod _ _

theorem normalised_interval (h : 0 < x) (h1 : 1 ≤ llrintl (x * 1000000)) :
    Normalised (interval x) := by
  rw [interval, if_neg (not_le.mpr h)]
  exact ⟨Int.tmod_nonneg _ (by omega), Int.tmod_lt_of_pos _ (by decide)⟩

def AtLoop (s : State) : Prop := ∃ pc, .do_monitor_work pc ∈ s.stack ∧ InLoop (.do_monitor_work pc)

def Displaying (s : State) : Prop := s.stack.head? = some (.monitor_interrupt .storeTime)

instance : DecidablePred Displaying := fun _ => inferInstanceAs (Decidable (_ = _))

def Before : InterruptPc → Prop
  | .testTimeout | .leave => False
  | _ => True

/-- As long as nobody stops, the timer expires every `us` microseconds, and what it starts
does not end before it has displayed a line. -/
structure Displays (k : Setting) (us : Int) : Prop where
  positive : 1 ≤ us
  interval : micros k.stats_interval = us
  normalised : Normalised k.stats_interval
  expires : ∀ s t, Reachable (timed k) (s, t) → AtLoop s → ¬ Told s →
    s.world.timer = true ∧ s.world.disposition .sigalrm = .handler ∧
      t.set + t.expiries * (us / 1000000) ≤ s.world.clock ∧
      s.world.clock ≤ t.set + (t.expiries + 1) * (us / 1000000)
  displays : ∀ s pc rest c, Reachable (wholeRun k) s → s.stack = .monitor_interrupt pc :: rest →
    ¬ Told s → Before pc → ∃ pc', (monitor_interrupt k c s.world pc).2 = .goto pc' ∧
      (Before pc' ∨ Displaying s)

/-- Something still causes the timeout check: as long as nobody stops, the timer runs, and
when an interval has passed after the deadline, its signal pends or is being handled, and
what handles it calls `stop_handler` in the end. -/
structure Ends (k : Setting) : Prop where
  timer : ∀ s t, Reachable (timed k) (s, t) → AtLoop s → ¬ Told s →
    s.world.timer = true ∧ s.world.disposition .sigalrm = .handler
  noticed : ∀ s t, Reachable (timed k) (s, t) → AtLoop s → ¬ Told s →
    s.world.run_data.start_time + k.runtime + period k ≤ s.world.clock →
    s.world.pending .sigalrm = true ∨ Checking s
  stops : ∀ s pc rest c, Reachable (wholeRun k) s → s.stack = .monitor_interrupt pc :: rest →
    ¬ Told s → Due s.world pc → s.world.run_data.timeout_time ≤ s.world.clock →
    (monitor_interrupt k c s.world pc).2 = .stop_handler ∨
      ∃ pc', (monitor_interrupt k c s.world pc).2 = .goto pc' ∧ stepsLeft pc' < stepsLeft pc ∧
        Due (monitor_interrupt k c s.world pc).1 pc'

structure Meets (x : Rat) : Prop where
  negative : x < 0 → ∀ k, Given x k → k.stats_interval = DEFAULT_STATS_INTERVAL
  zero : x = 0 → ∀ k, Given x k → ∀ s, Reachable (wholeRun k) s → ¬ Displaying s
  positive : 0 < x → ∀ k, Given x k →
    ∃ us : Int, |(us : Rat) - x * 1000000| ≤ 1 / 2 ∧ Displays k us
  ends : ∀ k, Given x k → Ends k

theorem armed_of_inLoop {pc : MonitorPc} (h : InLoop (.do_monitor_work pc)) : Armed pc := by
  cases pc with
  | testStop | sigsuspend | suspended => trivial
  | _ => exact h.elim

theorem AtLoop.schedule (h : AtLoop s) (hp : 0 < period k) (hr : Reachable (timed k) (s, t))
    (hs : ¬ Told s) : OnSchedule k s t := by
  obtain ⟨pc, hm, hl⟩ := h
  exact (reachable_scheduled hp hr).schedule pc hm (armed_of_inLoop hl) hs

theorem not_stop (h : ¬ Told s) : s.world.run_data.stop = false :=
  Bool.not_eq_true _ ▸ fun hs => h (.inl hs)

theorem displays_line {pc : InterruptPc} {rest : List Frame} (c : Choice)
    (hr : Reachable (wholeRun k) s) (hst : s.stack = .monitor_interrupt pc :: rest)
    (hs : ¬ Told s) (hb : Before pc) :
    ∃ pc', (monitor_interrupt k c s.world pc).2 = .goto pc' ∧ (Before pc' ∨ Displaying s) := by
  obtain ⟨stack, w⟩ := s
  obtain rfl : stack = .monitor_interrupt pc :: rest := hst
  cases pc with
  | testInterrupt =>
    have hz := in_interrupt_eq_zero hr fun h => hs (.inr (.inl h))
    exact ⟨.enter, if_neg (not_not.mpr hz), .inl trivial⟩
  | enter => exact ⟨_, rfl, .inl trivial⟩
  | testRequest =>
    have hprogress : w.run_data.rusage_req_in_progress = false :=
      (reachable_clock hr).world.progress
    exact ⟨.gatherTime, by simp [monitor_interrupt, hprogress], .inl trivial⟩
  | gatherTime | loadPid _ => exact ⟨_, rfl, .inl trivial⟩
  | wait4 i _ => cases i <;> exact ⟨_, rfl, .inl trivial⟩
  | testStop =>
    have hstop : w.run_data.stop = false := not_stop hs
    exact ⟨.storeTime, by simp [monitor_interrupt, hstop], .inl trivial⟩
  | storeTime => exact ⟨_, rfl, .inr rfl⟩
  | testTimeout | leave => exact hb.elim

theorem displays_every {us : Int} (h1 : 1 ≤ us) (hi : micros k.stats_interval = us)
    (hn : Normalised k.stats_interval) : Displays k us := by
  have hperiod : period k = us / 1000000 := by rw [period, hi]
  have hpos : 0 < period k := by
    rw [hperiod]
    exact div_pos (by exact_mod_cast h1) (by norm_num)
  refine ⟨h1, hi, hn, fun s t hr hl hs => ?_,
    fun s pc rest c hr hst hs => displays_line c hr hst hs⟩
  have h := hl.schedule hpos hr hs
  rw [← hperiod]
  exact ⟨h.timer, h.handler, h.begun, h.due⟩

theorem ends_of_period (hp : 0 < period k) (hruntime : 0 < k.runtime) : Ends k := by
  refine ⟨fun s t hr hl hs => ?_, fun s t hr hl hs hle => ?_, fun s pc rest c hr hst hs hd hc => ?_⟩
  · have h := hl.schedule hp hr hs
    exact ⟨h.timer, h.handler⟩
  · have h := hl.schedule hp hr hs
    obtain ⟨pc, hm, hin⟩ := hl
    have hset : t.set ≤ s.world.run_data.start_time := by
      have hok := (reachable_started hr).main pc hm
      cases pc with
      | testStop | sigsuspend | suspended => exact hok
      | _ => exact hin.elim
    have hdue := h.due
    have hR : (0 : Rat) < k.runtime := by exact_mod_cast hruntime
    rw [Itimer.due] at hdue
    refine h.check (fun hz => ?_) ?_
    · rw [hz, Nat.cast_zero] at hdue
      linarith
    · have hb := ((reachable_clock (reachable_of_timed hr)).frame _ hm).baseline hin
      rw [hb.timeout_time]
      linarith
  · obtain ⟨stack, w⟩ := s
    obtain rfl : stack = .monitor_interrupt pc :: rest := hst
    rcases he : monitor_interrupt k c w pc with ⟨w', n⟩
    by_cases hn : ∃ pc', n = .goto pc'
    · obtain ⟨pc', rfl⟩ := hn
      have hprogress := (reachable_clock hr).world.progress
      exact .inr ⟨pc', rfl, monitor_interrupt_advances he,
        due_step hd hprogress (not_stop hs) hc he⟩
    · exact .inl (due_ends hr (fun h => hs (.inr (.inl h))) hd he (not_exists.mp hn))

def given (x : Rat) : Setting :=
  { Setting.ofModes .fork .tcp with stats_interval := interval x }

theorem parse_update_runtime (c : Config) :
    (parse_update (exact strtod) x c).runtime = c.runtime := by
  unfold parse_update
  split_ifs <;> rfl

theorem given_given (x : Rat) : Given x (given x) := by
  have hparse : parse_opts (S := Unit) (F := Unit) ⟨[], 0⟩ (exact fun _ => x) (fun _ _ s => some s)
      ([] ++ .u [] :: [.t "fork".toList]) [] setup_defaults () =
      some ({ parse_update (exact fun _ => x) x setup_defaults with thread_mode := .fork }, ()) := rfl
  have hruntime : 10 = (parse_update (exact fun _ => x) x setup_defaults).runtime :=
    (parse_update_runtime setup_defaults).symm
  have hother : ∀ o ∈ [] ++ [Opt.t "fork".toList], o.target ≠ .update := by decide
  exact .intro rfl hother hparse rfl hruntime parse_update_interval.symm (Nat.succ_pos 9)

def firstLine : List MonitorEvent :=
  [.env (.pass 1), .env .tick, .deliver .sigalrm] ++ .replicate 9 (.step {})

theorem displays_zero : ∃ s, Reachable (wholeRun (given 0)) s ∧ Displaying s :=
  exists_reachable_of_exec rfl (toSigsuspend ++ firstLine) (by decide +kernel)

end PingPong.UpdateOption
