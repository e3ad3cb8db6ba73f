import Mathlib.Data.BitVec
import PingPong.MonitorState
import PingPong.TransitionSystem

namespace PingPong.StatsPeriodic

open MonitorState (Worker Timeval)
open TransitionSystem

def elapsed_time_timeval (start stop : Timeval) : Timeval :=
  if stop.tv_usec - start.tv_usec < 0 then
    ⟨stop.tv_sec - start.tv_sec - 1, 1000000 + stop.tv_usec - start.tv_usec⟩
  else ⟨stop.tv_sec - start.tv_sec, stop.tv_usec - start.tv_usec⟩

def micros (t : Timeval) : Int := t.tv_sec * 1000000 + t.tv_usec

def Normalised (t : Timeval) : Prop := 0 ≤ t.tv_usec ∧ t.tv_usec < 1000000

theorem micros_elapsed (start stop : Timeval) :
    micros (elapsed_time_timeval start stop) = micros stop - micros start := by
  unfold elapsed_time_timeval micros
  split <;> simp only <;> omega

theorem normalised_elapsed {start stop : Timeval} (h : Normalised start) (h' : Normalised stop) :
    Normalised (elapsed_time_timeval start stop) := by
  unfold elapsed_time_timeval Normalised at *
  split <;> simp only <;> omega

/-- What the statistics use of a `struct rusage`. -/
structure Rusage where
  ru_utime : Timeval
  ru_stime : Timeval
  ru_nvcsw : Int
  ru_nivcsw : Int
deriving DecidableEq

def Rusage.Normalised (u : Rusage) : Prop :=
  StatsPeriodic.Normalised u.ru_utime ∧ StatsPeriodic.Normalised u.ru_stime

def Rusage.zero : Rusage := ⟨⟨0, 0⟩, ⟨0, 0⟩, 0, 0⟩

/-- What the statistics use of the shared `run_data`. `rusage i` and `last_rusage i`
are fields of `thread_stats[i]`. -/
structure RunData where
  ping_count : BitVec 64
  stop : Bool
  rusage_req_in_progress : Bool
  last_ping_count : BitVec 64
  stats_headers_count : Nat
  start_time : Rat
  last_stats_time : Rat
  rusage : Worker → Rusage
  last_rusage : Worker → Rusage

/-- `struct interval_stats_struct`. There is no `iteration_time` in an interval
without a ping. -/
structure IntervalStats where
  current_count : BitVec 64
  interval_count : BitVec 64
  current_time : Rat
  interval_time : Rat
  run_time : Rat
  rusage : Worker → Rusage
  csw : Worker → Int
  iteration_time : Option Rat

def IntervalStats.zero : IntervalStats :=
  ⟨0, 0, 0, 0, 0, fun _ => .zero, fun _ => 0, some 0⟩

def usedSince (last now : Rusage) : Rusage where
  ru_nvcsw := now.ru_nvcsw - last.ru_nvcsw
  ru_nivcsw := now.ru_nivcsw - last.ru_nivcsw
  ru_utime := elapsed_time_timeval last.ru_utime now.ru_utime
  ru_stime := elapsed_time_timeval last.ru_stime now.ru_stime

theorem normalised_usedSince {u v : Rusage} (hu : u.Normalised) (hv : v.Normalised) :
    (usedSince u v).Normalised :=
  ⟨normalised_elapsed hu.1 hv.1, normalised_elapsed hu.2 hv.2⟩

/-- `gather_periodic_stats` after its two calls of `wait4`. All that it reads from
there on is written by the monitor only. -/
def gather_periodic_stats (r : RunData) (i_stats : IntervalStats) : IntervalStats :=
  let interval_time := i_stats.current_time - r.last_stats_time
  let interval_count := i_stats.current_count - r.last_ping_count
  let rusage i := usedSince (r.last_rusage i) (r.rusage i)
  { i_stats with
    run_time := i_stats.current_time - r.start_time
    interval_time := interval_time
    interval_count := interval_count
    rusage := rusage
    csw := fun i => (rusage i).ru_nvcsw + (rusage i).ru_nivcsw
    iteration_time :=
      if interval_count = 0 then none else some (interval_time / interval_count.toNat) }

/-- What a tick writes to `output_fd`. -/
inductive Line
  | header
  | data (i_stats : IntervalStats)

/-- The points of `show_periodic_stats`, with `gather_periodic_stats` and
`store_last_stats` in place, before each access to what it shares. -/
inductive StatsPc
  | testRequest | loadCount | get_time
  | wait4 (i : Worker)
  | interval | testStop | show_periodic_stats_header | show_periodic_stats_data
  | bytecopy (i : Worker)
  | storeCount | storeTime
deriving DecidableEq, Repr

/-- `i_stats` is the static variable of `show_periodic_stats`, and `pc` is none
between two ticks. -/
structure State where
  run_data : RunData
  i_stats : IntervalStats
  clock : Rat
  output : List Line
  pc : Option StatsPc

/-- `show_periodic_stats`. `usage` is what a `wait4` stores, if anything, and
`frequency` is `config.stats_headers_frequency`. -/
def show_periodic_stats (frequency : Nat) (usage : Option Rusage) (s : State) : StatsPc → State
  | .testRequest =>
    { s with pc := if s.run_data.rusage_req_in_progress then none else some .loadCount }
  | .loadCount =>
    { s with i_stats.current_count := s.run_data.ping_count, pc := some .get_time }
  | .get_time => { s with i_stats.current_time := s.clock, pc := some (.wait4 .ping) }
  | .wait4 i =>
    { s with
      run_data.rusage := Function.update s.run_data.rusage i (usage.getD (s.run_data.rusage i))
      pc := some (if i = .ping then .wait4 .pong else .interval) }
  | .interval =>
    { s with i_stats := gather_periodic_stats s.run_data s.i_stats, pc := some .testStop }
  | .testStop =>
    { s with pc := if s.run_data.stop then none else some .show_periodic_stats_header }
  | .show_periodic_stats_header =>
    { s with
      run_data.stats_headers_count := s.run_data.stats_headers_count + 1
      output :=
        if s.run_data.stats_headers_count % frequency = 0 then s.output ++ [.header] else s.output
      pc := some .show_periodic_stats_data }
  | .show_periodic_stats_data =>
    { s with output := s.output ++ [.data s.i_stats], pc := some (.bytecopy .ping) }
  | .bytecopy i =>
    { s with
      run_data.last_rusage :=
        Function.update s.run_data.last_rusage i (s.run_data.rusage i)
      pc := some (if i = .ping then .bytecopy .pong else .storeCount) }
  | .storeCount =>
    { s with run_data.last_ping_count := s.i_stats.current_count, pc := some .storeTime }
  | .storeTime => { s with run_data.last_stats_time := s.i_stats.current_time, pc := none }

/-- A tick begins, or takes its next step. Between any two steps ping counts, `stop`
is set, a request begins or ends, and time goes on. -/
inductive Event
  | tick
  | step (usage : Option Rusage)
  | ping
  | stop
  | request (b : Bool)
  | pass (time : Rat)

def next (frequency : Nat) : Event → State → Option State
  | .tick, s =>
    if s.pc = none then some { s with i_stats := .zero, pc := some .testRequest } else none
  | .step usage, s => s.pc.map (show_periodic_stats frequency usage s)
  | .ping, s => some { s with run_data.ping_count := s.run_data.ping_count + 1 }
  | .stop, s => some { s with run_data.stop := true }
  | .request b, s => some { s with run_data.rusage_req_in_progress := b }
  | .pass time, s => some { s with clock := time }

/-- Between two ticks, with the times of `do_monitor_work` just written and nothing
stored yet. -/
structure Baseline (s : State) : Prop where
  pc : s.pc = none
  output : s.output = []
  last_ping_count : s.run_data.last_ping_count = 0
  last_stats_time : s.run_data.last_stats_time = s.run_data.start_time
  rusage : ∀ i, s.run_data.rusage i = .zero
  last_rusage : ∀ i, s.run_data.last_rusage i = .zero

def stats (frequency : Nat) : System State Event := ⟨Baseline, next frequency⟩

end PingPong.StatsPeriodic
