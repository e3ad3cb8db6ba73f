import PingPong.Decimal
import PingPong.StatsTotals
import PingPong.SubsecString

namespace PingPong.StatsReport

open MonitorState (Worker)
open Decimal (digit digitsOf)
open StatsPeriodic StatsTotals SubsecString TransitionSystem

variable {frequency : Nat} {s t : State} {r : Record} {pc : StatsPc} {usage : Option Rusage}
variable {xs : List IntervalStats} {x : IntervalStats}

def shown (output : List Line) : List IntervalStats := output.filterMap fun
  | .header => none
  | .data x => some x

def headers (output : List Line) : Nat := output.countP fun
  | .header => true
  | .data _ => false

/-- The line of the interval at `k`, after a header if it is the first of a page. -/
def page (frequency k : Nat) (x : IntervalStats) : List Line :=
  (if k % frequency = 0 then [.header] else []) ++ [.data x]

def pages (frequency : Nat) (xs : List IntervalStats) : List Line :=
  xs.zipIdx.flatMap fun p => page frequency p.2 p.1

def opened (frequency : Nat) (s : State) : List Line :=
  if s.pc = some .show_periodic_stats_data ∧ (shown s.output).length % frequency = 0 then [.header]
  else []

/-- The runs from a `run_data` whose `stats_headers_count` is 0 as well. -/
def paged (frequency : Nat) : System State Event :=
  ⟨fun s => Baseline s ∧ s.run_data.stats_headers_count = 0, next frequency⟩

theorem shown_append (l l' : List Line) : shown (l ++ l') = shown l ++ shown l' :=
  List.filterMap_append

theorem shown_header (b : Prop) [Decidable b] :
    shown (if b then [.header] else []) = [] := by
  split <;> rfl

theorem pages_append (frequency : Nat) (xs : List IntervalStats) (x : IntervalStats) :
    pages frequency (xs ++ [x]) = pages frequency xs ++ page frequency xs.length x := by
  simp [pages, List.zipIdx_append]

theorem headers_pages (hf : 0 < frequency) (xs : List IntervalStats) :
    headers (pages frequency xs) = (xs.length + frequency - 1) / frequency := by
  induction xs using List.reverseRecOn with
  | nil => simp [pages, headers, Nat.div_eq_of_lt (Nat.sub_lt hf one_pos)]
  | append_singleton xs x ih =>
    have hcount : headers (page frequency xs.length x) =
        if frequency ∣ xs.length then 1 else 0 := by
      unfold page headers
      split_ifs <;> simp_all [Nat.dvd_iff_mod_eq_zero]
    have hsucc : (xs.length + frequency - 1 + 1) / frequency =
        (xs.length + frequency - 1) / frequency +
        if frequency ∣ xs.length + frequency - 1 + 1 then 1 else 0 := Nat.succ_div
    have hlen : xs.length + frequency - 1 + 1 = xs.length + frequency := by omega
    simp only [hlen, Nat.dvd_add_left (dvd_refl frequency)] at hsucc
    have happ : headers (pages frequency xs ++ page frequency xs.length x) =
        headers (pages frequency xs) + headers (page frequency xs.length x) := List.countP_append
    rw [pages_append, happ, ih, hcount, List.length_append, List.length_singleton,
      show xs.length + 1 + frequency - 1 = xs.length + frequency by omega, hsucc]

structure Paged (frequency : Nat) (s : State) : Prop where
  output : s.output = pages frequency (shown s.output) ++ opened frequency s
  count : s.run_data.stats_headers_count =
    (shown s.output).length + if s.pc = some .show_periodic_stats_data then 1 else 0

theorem opened_of_ne (h : s.pc ≠ some .show_periodic_stats_data) : opened frequency s = [] :=
  if_neg fun h' => h h'.1

theorem Paged.of_eq (h : Paged frequency s) (ho : t.output = s.output)
    (hc : t.run_data.stats_headers_count = s.run_data.stats_headers_count)
    (hs : s.pc ≠ some .show_periodic_stats_data) (ht : t.pc ≠ some .show_periodic_stats_data) :
    Paged frequency t := by
  obtain ⟨houtput, hcount⟩ := h
  rw [opened_of_ne hs] at houtput
  rw [if_neg hs] at hcount
  refine ⟨?_, ?_⟩
  · rw [opened_of_ne ht, ho]
    exact houtput
  · rw [if_neg ht, ho, hc]
    exact hcount

theorem Paged.step (h : Paged frequency s) (usage : Option Rusage) (hpc : s.pc = some pc) :
    Paged frequency (show_periodic_stats frequency usage s pc) := by
  cases pc with
  | show_periodic_stats_header =>
    obtain ⟨houtput, hcount⟩ := h
    rw [opened_of_ne (by simp [hpc]), List.append_nil] at houtput
    rw [if_neg (by simp [hpc]), Nat.add_zero] at hcount
    have hstep : (show_periodic_stats frequency usage s .show_periodic_stats_header).output =
        s.output ++ if (shown s.output).length % frequency = 0 then [.header] else [] := by
      simp only [show_periodic_stats, hcount]
      split <;> simp
    have hshown : shown (show_periodic_stats frequency usage s
        .show_periodic_stats_header).output = shown s.output := by
      rw [hstep, shown_append, shown_header, List.append_nil]
    refine ⟨?_, ?_⟩
    · have hopened : opened frequency (show_periodic_stats frequency usage s
          .show_periodic_stats_header) =
            if (shown s.output).length % frequency = 0 then [.header] else [] := by
        rw [opened, hshown]
        simp [show_periodic_stats]
      rw [hshown, hopened, hstep, ← houtput]
    · rw [hshown]
      simp [show_periodic_stats, hcount]
  | show_periodic_stats_data =>
    obtain ⟨houtput, hcount⟩ := h
    have hshown : shown (s.output ++ [.data s.i_stats]) = shown s.output ++ [s.i_stats] := by
      rw [shown_append]
      rfl
    refine ⟨?_, ?_⟩
    · rw [opened_of_ne (by simp [show_periodic_stats]), List.append_nil]
      show s.output ++ [.data s.i_stats] = pages frequency (shown (s.output ++ [.data s.i_stats]))
      rw [hshown, pages_append, page, ← List.append_assoc]
      congr 1
      simpa [opened, hpc] using houtput
    · show s.run_data.stats_headers_count = (shown (s.output ++ [.data s.i_stats])).length + _
      rw [hshown, hcount, if_pos hpc]
      simp [show_periodic_stats]
  | testRequest | testStop =>
    refine h.of_eq rfl rfl (by simp [hpc]) ?_
    simp only [show_periodic_stats]
    split <;> simp
  | wait4 i | bytecopy i =>
    refine h.of_eq rfl rfl (by simp [hpc]) ?_
    cases i <;> simp [show_periodic_stats]
  | loadCount | get_time | interval | storeCount | storeTime =>
    exact h.of_eq rfl rfl (by simp [hpc]) (by simp [show_periodic_stats])

theorem paged_reachable (h : Reachable (paged frequency) s) : Paged frequency s := by
  refine h.invariant (I := Paged frequency) ?_ fun s e t hp hn => ?_
  · rintro s ⟨hb, hcount⟩
    have hne : s.pc ≠ some .show_periodic_stats_data := by simp [hb.pc]
    exact ⟨by rw [opened_of_ne hne, hb.output]; rfl, by rw [if_neg hne, hb.output]; exact hcount⟩
  · cases e with
    | tick =>
      have hn : (if s.pc = none then _ else none) = some t := hn
      rw [Option.ite_none_right_eq_some] at hn
      obtain ⟨hpc, hn⟩ := hn
      cases hn
      exact hp.of_eq rfl rfl (by simp [hpc]) (by simp)
    | step usage =>
      obtain ⟨pc, hpc, rfl⟩ := Option.map_eq_some_iff.mp hn
      exact hp.step usage hpc
    | ping | stop | request _ | pass _ =>
      cases hn
      exact ⟨hp.output, hp.count⟩

/-- The lines stand in pages of `frequency`, each under its header. Whatever ticks end
early, no header is left without its line, and none stands twice. -/
theorem headers_paged (hf : 0 < frequency) (h : Reachable (paged frequency) s) :
    s.output = pages frequency (shown s.output) ++ opened frequency s ∧
      (s.pc = none → headers s.output = ((shown s.output).length + frequency - 1) / frequency) := by
  have hp := paged_reachable h
  refine ⟨hp.output, fun hpc => ?_⟩
  have houtput := hp.output
  rw [opened_of_ne (by simp [hpc]), List.append_nil] at houtput
  conv_lhs => rw [houtput]
  exact headers_pages hf _

/-- Two lines on two pages. -/
theorem headers_paged_two : ∃ s, Reachable (paged 1) s ∧ (shown s.output).length = 2 ∧
    s.output = pages 1 (shown s.output) ++ opened 1 s ∧ headers s.output = 2 := by
  obtain ⟨s, hs, hlen, hpc⟩ := exists_reachable_of_exec (S := paged 1)
    (p := fun s => (shown s.output).length = 2 ∧ s.pc = none) (s := start)
    ⟨⟨rfl, rfl, rfl, rfl, fun _ => rfl, fun _ => rfl⟩, rfl⟩ (tickAt 2 ++ tickAt 5)
    (by decide +kernel)
  obtain ⟨houtput, hheaders⟩ := headers_paged Nat.one_pos hs
  refine ⟨s, hs, hlen, houtput, ?_⟩
  rw [hheaders hpc, hlen]

def lastCount (xs : List IntervalStats) : BitVec 64 :=
  (xs.getLast?.map fun x => x.current_count).getD 0

def lastTime (start : Rat) (xs : List IntervalStats) : Rat :=
  (xs.getLast?.map fun x => x.current_time).getD start

theorem lastCount_append (xs : List IntervalStats) (x : IntervalStats) :
    lastCount (xs ++ [x]) = x.current_count := by
  simp [lastCount]

theorem lastTime_append (start : Rat) (xs : List IntervalStats) (x : IntervalStats) :
    lastTime start (xs ++ [x]) = x.current_time := by
  simp [lastTime]

/-- The interval whose line has been written and which is still being stored. -/
def storing (s : State) : List IntervalStats :=
  match s.pc with
  | some (.bytecopy _) | some .storeCount | some .storeTime => [s.i_stats]
  | _ => []

theorem storing_of_displayed (hpc : s.pc = some pc) (h : Displayed pc) :
    storing s = [s.i_stats] := by
  unfold storing
  rw [hpc]
  cases pc with
  | bytecopy _ | storeCount | storeTime => rfl
  | _ => exact h.elim

theorem storing_of_not (h : ∀ pc, s.pc = some pc → ¬ Displayed pc) : storing s = [] := by
  unfold storing
  cases hpc : s.pc with
  | none => rfl
  | some pc =>
    cases pc with
    | bytecopy _ | storeCount | storeTime => exact absurd trivial (h _ hpc)
    | _ => rfl

structure Kept (s : State) (r : Record) : Prop where
  shown : shown s.output = r.stored ++ storing s
  count : lastCount r.stored = (found s r).ping_count
  time : lastTime s.run_data.start_time r.stored = (found s r).stats_time

theorem found_step {r' : Record} (frequency : Nat) (usage : Option Rusage)
    (hd : During s r.begun pc) (hpc : s.pc = some pc) (hst : pc ≠ .storeTime)
    (hr : r'.begun = r.begun) :
    found (show_periodic_stats frequency usage s pc) r' = found s r := by
  have hf : found s r = r.begun := by simp [found, hpc]
  rw [hf]
  cases hn : (show_periodic_stats frequency usage s pc).pc with
  | none => simpa [found, hn] using (hd.step frequency usage hst).2 hn
  | some pc' => simpa [found, hn] using hr

theorem Kept.keep (h : Kept s r) (hpc : s.pc = some pc) (hd : During s r.begun pc)
    (hst : pc ≠ .storeTime)
    (hs : StatsReport.shown (show_periodic_stats frequency usage s pc).output =
      r.stored ++ storing (show_periodic_stats frequency usage s pc)) :
    Kept (show_periodic_stats frequency usage s pc) (r.step usage s.i_stats pc) := by
  obtain ⟨hstored, hbegun⟩ := r.step_stored usage s.i_stats hst
  have hf := found_step frequency usage hd hpc hst hbegun
  refine ⟨?_, ?_, ?_⟩
  · rw [hs, hstored]
  · rw [hstored, hf, h.count]
  · rw [hstored, hf, show_start_time, h.time]

theorem Kept.step (h : Kept s r) (hpc : s.pc = some pc) (hd : During s r.begun pc) :
    Kept (show_periodic_stats frequency usage s pc) (r.step usage s.i_stats pc) := by
  have hshown := h.shown
  cases pc with
  | show_periodic_stats_header =>
    refine h.keep hpc hd (by simp) ?_
    have hs : storing s = [] := by simp [storing, hpc]
    rw [hs] at hshown
    simp only [show_periodic_stats, storing]
    split
    · rw [shown_append, hshown]
      simp [StatsReport.shown]
    · exact hshown
  | show_periodic_stats_data =>
    refine h.keep hpc hd (by simp) ?_
    have hs : storing s = [] := by simp [storing, hpc]
    rw [hs, List.append_nil] at hshown
    show StatsReport.shown (s.output ++ [.data s.i_stats]) = r.stored ++ [s.i_stats]
    rw [shown_append, hshown]
    rfl
  | storeTime =>
    have hs : storing s = [s.i_stats] := by simp [storing, hpc]
    have hc : s.run_data.last_ping_count = s.i_stats.current_count :=
      congrArg Last.ping_count hd.kept
    rw [hs] at hshown
    refine ⟨?_, ?_, ?_⟩
    · show StatsReport.shown s.output = (r.stored ++ [s.i_stats]) ++ []
      rw [hshown, List.append_nil]
    · show lastCount (r.stored ++ [s.i_stats]) = s.run_data.last_ping_count
      rw [lastCount_append, hc]
    · show lastTime s.run_data.start_time (r.stored ++ [s.i_stats]) = s.i_stats.current_time
      exact lastTime_append ..
  | testRequest | testStop =>
    refine h.keep hpc hd (by simp) ?_
    have hs : storing s = [] := by simp [storing, hpc]
    rw [hs] at hshown
    rw [storing_of_not (s := show_periodic_stats frequency usage s _)]
    · exact hshown
    · intro pc' hpc'
      simp only [show_periodic_stats] at hpc'
      split at hpc'
      · cases hpc'
      · cases hpc'
        exact id
  | wait4 i | bytecopy i =>
    refine h.keep hpc hd (by simp) ?_
    cases i <;> simpa [storing, hpc, show_periodic_stats] using hshown
  | loadCount | get_time | interval | storeCount =>
    refine h.keep hpc hd (by simp) ?_
    simpa [storing, hpc, show_periodic_stats] using hshown

theorem Kept.next {e : Event} {u : Unit} (h : Kept s r) (ht : Telescoped s r)
    (hn : StatsPeriodic.next frequency e s = some t) : Kept t (see e u s r) := by
  cases e with
  | tick =>
    simp only [StatsPeriodic.next, Option.ite_none_right_eq_some, Option.some.injEq] at hn
    obtain ⟨hpc, rfl⟩ := hn
    obtain ⟨hshown, hcount, htime⟩ := h
    have hf : found s r = last s := by simp [found, hpc]
    have hs : storing s = [] := by simp [storing, hpc]
    rw [hf] at hcount htime
    rw [hs] at hshown
    exact ⟨hshown, hcount, htime⟩
  | step usage =>
    obtain ⟨pc, hpc, rfl⟩ := Option.map_eq_some_iff.mp hn
    rw [see_step hpc]
    exact h.step hpc (ht.busy pc hpc).2
  | ping | stop | request _ | pass _ =>
    cases hn
    exact ⟨h.shown, h.count, h.time⟩

theorem kept_reachable {p : State × Record} (h : Reachable (recorded frequency) p) :
    Kept p.1 p.2 := by
  refine h.induct (I := fun p => Kept p.1 p.2) ?_ fun p e q hr hp hn => ?_
  · rintro ⟨s, r⟩ ⟨hb, rfl⟩
    have hb : Baseline s := hb
    have hs : storing s = [] := by simp [storing, hb.pc]
    refine ⟨?_, ?_, ?_⟩
    · rw [hb.output, hs]
      rfl
    · simp [lastCount, found, hb.pc, last, hb.last_ping_count]
    · simp [lastTime, found, hb.pc, last, hb.last_stats_time]
  · obtain ⟨hn, hq⟩ := observe_next.mp hn
    rw [hq]
    exact hp.next (reachable_telescoped hr).1 hn

/-- The intervals shown add up to what the last of them ends with, also while that one
is being stored. -/
theorem totals_shown {p : State × Record} (h : Reachable (recorded frequency) p) :
    (∃ rusage, Totals (shown p.1.output) p.1.run_data.start_time
      ⟨lastCount (shown p.1.output), lastTime p.1.run_data.start_time (shown p.1.output), rusage⟩) ∧
    (p.2.wrapped = false → total (shown p.1.output) = (lastCount (shown p.1.output)).toNat ∧
      (lastCount (shown p.1.output)).toNat ≤ p.1.run_data.ping_count.toNat) := by
  obtain ⟨s, r⟩ := p
  obtain ⟨ht, hu, -⟩ := reachable_telescoped h
  obtain ⟨hshown, hcount, htime⟩ := kept_reachable h
  have htotals : Totals r.stored s.run_data.start_time (found s r) := by
    cases hpc : s.pc with
    | none => simpa [found, hpc] using ht.idle hpc
    | some pc => simpa [found, hpc] using (ht.busy pc hpc).1
  by_cases hd : ∃ pc, s.pc = some pc ∧ Displayed pc
  · obtain ⟨pc, hpc, hd⟩ := hd
    have hgathered : Gathered pc := by
      cases pc <;> first | exact hd.elim | trivial
    have hloaded : Loaded pc := by
      cases pc <;> first | exact hd.elim | trivial
    have hf : found s r = r.begun := by simp [found, hpc]
    have hinterval : Interval r.begun s.run_data.rusage s.i_stats :=
      (ht.busy pc hpc).2.interval hgathered
    rw [hf] at htotals
    simp only [hshown, storing_of_displayed hpc hd, lastCount_append, lastTime_append]
    refine ⟨⟨_, htotals.append hinterval⟩, fun hw => ?_⟩
    obtain ⟨hsum, -, hcurrent⟩ := hu hw
    have hsum : total r.stored = (found s r).ping_count.toNat := hsum
    have hle : r.begun.ping_count.toNat ≤ s.i_stats.current_count.toNat :=
      (hcurrent pc hpc hloaded).1
    have hle' : s.i_stats.current_count.toNat ≤ s.run_data.ping_count.toNat :=
      (hcurrent pc hpc hloaded).2
    have hi : s.i_stats.interval_count.toNat =
        s.i_stats.current_count.toNat - r.begun.ping_count.toNat := by
      rw [hinterval.count, BitVec.toNat_sub]
      omega
    have happ : total (r.stored ++ [s.i_stats]) =
        total r.stored + s.i_stats.interval_count.toNat := by simp [total]
    refine ⟨?_, hle'⟩
    rw [happ, hsum, hf, hi]
    omega
  · have hs : storing s = [] := storing_of_not fun pc hpc h => hd ⟨pc, hpc, h⟩
    simp only [hshown, hs, List.append_nil, hcount, htime]
    exact ⟨⟨_, htotals⟩, fun hw => ⟨(hu hw).sum, (hu hw).le⟩⟩

/-- `(unsigned long long)d`, for the values that it has a result for. -/
def ld_to_ull (d : Rat) : Option Nat := if -1 < d ∧ d < 2 ^ 64 then some ⌊d⌋₊ else none

/-- The `i_stats` of `output_final_stats`, which is called at `current_time`. -/
def final_stats (r : RunData) (current_time : Rat) : IntervalStats :=
  let interval_time := current_time - r.start_time
  let rusage i : Rusage :=
    { ru_nvcsw := (r.rusage i).ru_nvcsw
      ru_nivcsw := (r.rusage i).ru_nivcsw
      ru_utime := (r.last_rusage i).ru_utime
      ru_stime := (r.last_rusage i).ru_stime }
  { IntervalStats.zero with
    current_count := r.ping_count
    current_time := current_time
    interval_time := interval_time
    run_time := interval_time
    interval_count := r.ping_count
    iteration_time :=
      if r.ping_count = 0 then none else some (interval_time / r.ping_count.toNat)
    rusage := rusage
    csw := fun i => (rusage i).ru_nvcsw + (rusage i).ru_nivcsw }

def pings_per_second (i_stats : IntervalStats) : Option Nat :=
  if i_stats.interval_time = 0 then none
  else ld_to_ull (i_stats.interval_count.toNat / i_stats.interval_time)

/-- What `output_final_stats` writes before the table of `parse_sched_data`. -/
def output_final_stats (r : RunData) (current_time : Rat) : Option (List Char) := do
  let i_stats := final_stats r current_time
  let elapsed ← subsec_string (some i_stats.interval_time) 1
  let iteration ← subsec_string i_stats.iteration_time 2
  let rate ← pings_per_second i_stats
  some ("\nElapsed time: ".toList ++ elapsed.leftpad 7 ' ' ++
    "\nPing/pong count: ".toList ++ (digitsOf i_stats.interval_count.toNat).map digit ++
    "\nPing/pong time: ".toList ++ iteration ++
    "\nPings/second: ".toList ++ (digitsOf rate).map digit ++ "\n\n".toList)

example : output_final_stats { start.run_data with ping_count := 4 } 2 =
    some ("\nElapsed time:   2.0 s\nPing/pong count: 4\nPing/pong time: 500.00 ms\n" ++
      "Pings/second: 2\n\n").toList := by decide +kernel

structure AddsUp (xs : List IntervalStats) (start : Rat) (f : IntervalStats) : Prop where
  count : (total xs + (f.interval_count - lastCount xs).toNat) % 2 ^ 64 = f.interval_count.toNat
  time : (xs.map fun x => x.interval_time).sum + (f.current_time - lastTime start xs) =
    f.interval_time

/-- Whenever the run ends, also while a tick is shown or stored, the count and the time
of the final statistics are those of the lines and of what has come after them. As
long as `ping_count` has not wrapped, the lines never count more than was pinged. -/
theorem final_adds_up {p : State × Record} (h : Reachable (recorded frequency) p)
    (current_time : Rat) :
    AddsUp (shown p.1.output) p.1.run_data.start_time (final_stats p.1.run_data current_time) ∧
    (p.2.wrapped = false → total (shown p.1.output) +
      (p.1.run_data.ping_count - lastCount (shown p.1.output)).toNat =
        p.1.run_data.ping_count.toNat) := by
  obtain ⟨⟨rusage, htotals⟩, hunwrapped⟩ := totals_shown h
  have hcount : total (shown p.1.output) % 2 ^ 64 = (lastCount (shown p.1.output)).toNat :=
    htotals.count
  have hsub := BitVec.toNat_sub p.1.run_data.ping_count (lastCount (shown p.1.output))
  have hlast := (lastCount (shown p.1.output)).isLt
  have hnow := p.1.run_data.ping_count.isLt
  refine ⟨⟨?_, ?_⟩, fun hw => ?_⟩
  · show (_ + (p.1.run_data.ping_count - _).toNat) % _ = p.1.run_data.ping_count.toNat
    omega
  · show _ + (current_time - _) = current_time - p.1.run_data.start_time
    rw [htotals.time]
    ring
  · obtain ⟨hsum, hle⟩ := hunwrapped hw
    omega

/-- A line with one ping, and two more pings and four seconds after it. -/
theorem final_adds_up_one : ∃ p, Reachable (recorded 10) p ∧ (shown p.1.output).length = 1 ∧
    total (shown p.1.output) = 1 ∧
    AddsUp (shown p.1.output) p.1.run_data.start_time (final_stats p.1.run_data 9) := by
  obtain ⟨p, hp, hlen, htotal⟩ := exists_reachable_of_exec (S := recorded 10)
    (p := fun p => (shown p.1.output).length = 1 ∧ total (shown p.1.output) = 1)
    (s := (start, ⟨[], [], false, ⟨0, 0, fun _ => .zero⟩⟩))
    ⟨⟨rfl, rfl, rfl, rfl, fun _ => rfl, fun _ => rfl⟩, rfl⟩
    ((Event.ping :: tickAt 5 ++ [Event.ping, .pass 9]).map (·, ())) (by decide +kernel)
  exact ⟨p, hp, hlen, htotal, (final_adds_up hp 9).1⟩

end PingPong.StatsReport
