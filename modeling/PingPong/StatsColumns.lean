import Mathlib.Tactic.FieldSimp
import Mathlib.Tactic.Linarith
import Mathlib.Tactic.NormNum
import PingPong.FixedPoint
import PingPong.StatsPeriodic

namespace PingPong.StatsColumns

open FixedPoint StatsPeriodic
open MonitorState (Worker Timeval)

variable {i_stats : IntervalStats}

inductive Column
  | pingUser | pingSys | pongUser | pongSys
deriving DecidableEq, Repr

def Column.used (i_stats : IntervalStats) : Column → Timeval
  | .pingUser => (i_stats.rusage .ping).ru_utime
  | .pingSys => (i_stats.rusage .ping).ru_stime
  | .pongUser => (i_stats.rusage .pong).ru_utime
  | .pongSys => (i_stats.rusage .pong).ru_stime

/-- `(tv_sec * 100.0L) + (tv_usec / 1.0e4L) / interval_time` -/
def usage (used : Timeval) (interval_time : Rat) : Rat :=
  used.tv_sec * 100 + used.tv_usec / 10 ^ 4 / interval_time

def Column.prec : Column → Nat
  | .pingUser | .pingSys | .pongUser => 1
  | .pongSys => 2

def Column.value (i_stats : IntervalStats) (column : Column) : Rat :=
  usage (column.used i_stats) i_stats.interval_time

/-- The call of `f_to_fp` for a column in `show_periodic_stats_data`. -/
def Column.int_fp (i_stats : IntervalStats) (column : Column) : Option IntegerFixedPoint :=
  f_to_fp column.prec (column.value i_stats)

def seconds (t : Timeval) : Rat := t.tv_sec + t.tv_usec / 10 ^ 6

def percent (used : Timeval) (interval_time : Rat) : Rat := 100 * seconds used / interval_time

theorem usage_eq_percent_iff {used : Timeval} {interval_time : Rat} (h : 0 < interval_time) :
    usage used interval_time = percent used interval_time ↔
      interval_time = 1 ∨ used.tv_sec = 0 := by
  have hdiff : usage used interval_time - percent used interval_time =
      100 * used.tv_sec * (interval_time - 1) / interval_time := by
    unfold usage percent seconds
    field_simp
    ring
  rw [← sub_eq_zero, hdiff, div_eq_zero_iff, or_iff_left h.ne', mul_eq_zero, sub_eq_zero, or_comm]
  simp

theorem percent_le {used : Timeval} {interval_time : Rat} (h : 0 < interval_time)
    (hle : seconds used ≤ interval_time) : percent used interval_time ≤ 100 := by
  rw [percent, div_le_iff₀ h]
  linarith

theorem tv_sec_eq_zero_iff {used : Timeval} (hn : Normalised used) (hs : 0 ≤ used.tv_sec) :
    used.tv_sec = 0 ↔ seconds used < 1 := by
  have hsec : seconds used < 1 ↔ micros used < 1000000 := by
    have hcast : seconds used = (micros used : Rat) / 1000000 := by
      unfold seconds micros
      push_cast
      ring
    rw [hcast, div_lt_one (by norm_num)]
    exact_mod_cast Iff.rfl
  rw [hsec]
  unfold Normalised at hn
  unfold micros
  omega

/-- A column is the percentage of the interval if and only if the interval is one
second, or less than one was used. -/
theorem column_percent (h : 0 < i_stats.interval_time) (column : Column)
    (hn : Normalised (column.used i_stats)) (hs : 0 ≤ (column.used i_stats).tv_sec) :
    (column.value i_stats = percent (column.used i_stats) i_stats.interval_time ↔
      i_stats.interval_time = 1 ∨ seconds (column.used i_stats) < 1) ∧
    (i_stats.interval_time = 1 ∨ seconds (column.used i_stats) < 1 →
      seconds (column.used i_stats) ≤ i_stats.interval_time → column.value i_stats ≤ 100) := by
  have hiff : column.value i_stats = percent (column.used i_stats) i_stats.interval_time ↔
      i_stats.interval_time = 1 ∨ seconds (column.used i_stats) < 1 := by
    rw [Column.value, usage_eq_percent_iff h, tv_sec_eq_zero_iff hn hs]
  refine ⟨hiff, fun hcond hle => ?_⟩
  rw [hiff.mpr hcond]
  exact percent_le h hle

def busy : IntervalStats :=
  { IntervalStats.zero with
    interval_time := 2
    rusage := fun _ => { Rusage.zero with ru_utime := ⟨1, 500000⟩, ru_stime := ⟨0, 500000⟩ } }

theorem column_percent_busy :
    (Column.pingSys.value busy = percent ⟨0, 500000⟩ 2 ↔
      (2 : Rat) = 1 ∨ seconds ⟨0, 500000⟩ < 1) ∧
    ((2 : Rat) = 1 ∨ seconds ⟨0, 500000⟩ < 1 →
      seconds ⟨0, 500000⟩ ≤ 2 → Column.pingSys.value busy ≤ 100) :=
  have h : 0 < busy.interval_time := by norm_num [busy]
  column_percent h .pingSys ⟨by decide, by decide⟩ (by decide)

/-- A second and a half of two is 75 percent, and it is shown as 125. -/
theorem column_over : Normalised (Column.pingUser.used busy) ∧
    seconds (Column.pingUser.used busy) ≤ busy.interval_time ∧
    Column.pingUser.value busy = 125 ∧
    percent (Column.pingUser.used busy) busy.interval_time = 75 := by
  refine ⟨⟨by decide, by decide⟩, ?_, ?_, ?_⟩ <;>
    norm_num [busy, Column.used, Column.value, usage, percent, seconds]

end PingPong.StatsColumns
