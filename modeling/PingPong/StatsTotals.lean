import Mathlib.Algebra.BigOperators.Group.List.Basic
import Mathlib.Algebra.Ring.Rat
import Mathlib.Tactic.Ring
import PingPong.StatsPeriodic

namespace PingPong.StatsTotals

open MonitorState (Worker Timeval)
open StatsPeriodic TransitionSystem

variable {frequency : Nat} {s t : State} {x : IntervalStats} {stored : List IntervalStats}

@[ext] structure Last where
  ping_count : BitVec 64
  stats_time : Rat
  rusage : Worker → Rusage

def last (s : State) : Last :=
  ⟨s.run_data.last_ping_count, s.run_data.last_stats_time, s.run_data.last_rusage⟩

/-- The statistics displayed and stored so far, the results of `wait4`, whether
`ping_count` has wrapped, and what was kept when the last tick began. -/
structure Record where
  stored : List IntervalStats
  usages : List Rusage
  wrapped : Bool
  begun : Last

def Record.step (r : Record) (usage : Option Rusage) (i_stats : IntervalStats) : StatsPc → Record
  | .wait4 _ => { r with usages := r.usages ++ usage.toList }
  | .storeTime => { r with stored := r.stored ++ [i_stats] }
  | _ => r

def see (e : Event) (_ : Unit) (s : State) (r : Record) : Record :=
  match e with
  | .tick => { r with begun := last s }
  | .step usage => s.pc.elim r (r.step usage s.i_stats)
  | .ping => { r with wrapped := r.wrapped || decide (s.run_data.ping_count + 1 = 0) }
  | _ => r

def recorded (frequency : Nat) : System (State × Record) (Event × Unit) :=
  observe (stats frequency) ⟨[], [], false, ⟨0, 0, fun _ => .zero⟩⟩ see

structure Totals (stored : List IntervalStats) (start : Rat) (l : Last) : Prop where
  count : (stored.map fun x => x.interval_count.toNat).sum % 2 ^ 64 = l.ping_count.toNat
  time : (stored.map fun x => x.interval_time).sum = l.stats_time - start
  nvcsw : ∀ i, (stored.map fun x => (x.rusage i).ru_nvcsw).sum = (l.rusage i).ru_nvcsw
  nivcsw : ∀ i, (stored.map fun x => (x.rusage i).ru_nivcsw).sum = (l.rusage i).ru_nivcsw
  utime : ∀ i, (stored.map fun x => micros (x.rusage i).ru_utime).sum = micros (l.rusage i).ru_utime
  stime : ∀ i, (stored.map fun x => micros (x.rusage i).ru_stime).sum = micros (l.rusage i).ru_stime

structure Interval (l : Last) (rusage : Worker → Rusage) (x : IntervalStats) : Prop where
  count : x.interval_count = x.current_count - l.ping_count
  time : x.interval_time = x.current_time - l.stats_time
  rusage : ∀ i, x.rusage i = usedSince (l.rusage i) (rusage i)

theorem interval_gather (r : RunData) (x : IntervalStats) :
    Interval ⟨r.last_ping_count, r.last_stats_time, r.last_rusage⟩ r.rusage
      (gather_periodic_stats r x) := ⟨rfl, rfl, fun _ => rfl⟩

theorem totals_nil (start : Rat) : Totals [] start ⟨0, start, fun _ => .zero⟩ where
  count := rfl
  time := (sub_self start).symm
  nvcsw _ := rfl
  nivcsw _ := rfl
  utime _ := rfl
  stime _ := rfl

theorem Totals.append {start : Rat} {l : Last} {rusage : Worker → Rusage}
    (h : Totals stored start l) (hx : Interval l rusage x) :
    Totals (stored ++ [x]) start ⟨x.current_count, x.current_time, rusage⟩ where
  count := by
    have hc := h.count
    have hl := l.ping_count.isLt
    have hn := x.current_count.isLt
    have hi := hx.count
    simp only [List.map_append, List.sum_append, List.map_cons, List.map_nil, List.sum_cons,
      List.sum_nil, add_zero]
    rw [Nat.add_mod, hc, hi, BitVec.toNat_sub]
    omega
  time := by
    simp only [List.map_append, List.sum_append, List.map_cons, List.map_nil, List.sum_cons,
      List.sum_nil, add_zero]
    rw [h.time, hx.time]
    ring
  nvcsw i := by simp [h.nvcsw i, hx.rusage i, usedSince]
  nivcsw i := by simp [h.nivcsw i, hx.rusage i, usedSince]
  utime i := by simp [h.utime i, hx.rusage i, usedSince, micros_elapsed]
  stime i := by simp [h.stime i, hx.rusage i, usedSince, micros_elapsed]

/-- What is kept while the tick that found `l` stores its statistics. -/
def partlyStored (l : Last) (s : State) : StatsPc → Last
  | .bytecopy .pong => { l with rusage := Function.update l.rusage .ping (s.run_data.rusage .ping) }
  | .storeCount => { l with rusage := s.run_data.rusage }
  | .storeTime => ⟨s.i_stats.current_count, l.stats_time, s.run_data.rusage⟩
  | _ => l

def Gathered : StatsPc → Prop
  | .testRequest | .loadCount | .get_time | .wait4 _ | .interval => False
  | _ => True

def Displayed : StatsPc → Prop
  | .bytecopy _ | .storeCount | .storeTime => True
  | _ => False

structure During (s : State) (l : Last) (pc : StatsPc) : Prop where
  kept : last s = partlyStored l s pc
  interval : Gathered pc → Interval l s.run_data.rusage s.i_stats
  displayed : Displayed pc → .data s.i_stats ∈ s.output

theorem During.congr {l : Last} {pc : StatsPc} (h : During s l pc) (hl : last t = last s)
    (hr : t.run_data.rusage = s.run_data.rusage) (hi : t.i_stats = s.i_stats)
    (ho : t.output = s.output) : During t l pc where
  kept := by
    have hp : partlyStored l t pc = partlyStored l s pc := by
      unfold partlyStored
      rw [hr, hi]
    rw [hl, hp]
    exact h.kept
  interval hg := by
    rw [hr, hi]
    exact h.interval hg
  displayed hd := by
    rw [hi, ho]
    exact h.displayed hd

structure Telescoped (s : State) (r : Record) : Prop where
  idle : s.pc = none → Totals r.stored s.run_data.start_time (last s)
  busy : ∀ pc, s.pc = some pc → Totals r.stored s.run_data.start_time r.begun ∧ During s r.begun pc
  displayed : ∀ x ∈ r.stored, .data x ∈ s.output

variable {r : Record} {pc : StatsPc} {usage : Option Rusage}

theorem During.step (frequency : Nat) (usage : Option Rusage) (h : During s r.begun pc)
    (hpc : pc ≠ .storeTime) :
    (∀ pc', (show_periodic_stats frequency usage s pc).pc = some pc' →
      During (show_periodic_stats frequency usage s pc) r.begun pc') ∧
    ((show_periodic_stats frequency usage s pc).pc = none →
      last (show_periodic_stats frequency usage s pc) = r.begun) := by
  obtain ⟨hl, hi, hd⟩ := h
  cases pc with
  | testRequest =>
    simp only [show_periodic_stats]
    split
    · exact ⟨by rintro _ ⟨⟩, fun _ => hl⟩
    · exact ⟨by rintro _ ⟨⟩; exact ⟨hl, fun h => h.elim, fun h => h.elim⟩, by rintro ⟨⟩⟩
  | loadCount | get_time =>
    exact ⟨by rintro _ ⟨⟩; exact ⟨hl, fun h => h.elim, fun h => h.elim⟩, by rintro ⟨⟩⟩
  | wait4 i =>
    refine ⟨?_, by rintro ⟨⟩⟩
    cases i <;> rintro _ ⟨⟩ <;> exact ⟨hl, fun h => h.elim, fun h => h.elim⟩
  | interval =>
    refine ⟨?_, by rintro ⟨⟩⟩
    rintro _ ⟨⟩
    have hg := interval_gather s.run_data s.i_stats
    exact ⟨hl, fun _ => (show last s = r.begun from hl) ▸ hg, fun h => h.elim⟩
  | testStop =>
    simp only [show_periodic_stats]
    split
    · exact ⟨by rintro _ ⟨⟩, fun _ => hl⟩
    · exact ⟨by rintro _ ⟨⟩; exact ⟨hl, hi, fun h => h.elim⟩, by rintro ⟨⟩⟩
  | show_periodic_stats_header =>
    exact ⟨by rintro _ ⟨⟩; exact ⟨hl, hi, fun h => h.elim⟩, by rintro ⟨⟩⟩
  | show_periodic_stats_data =>
    refine ⟨?_, by rintro ⟨⟩⟩
    rintro _ ⟨⟩
    exact ⟨hl, hi, fun _ => by simp [show_periodic_stats]⟩
  | bytecopy i =>
    refine ⟨?_, by rintro ⟨⟩⟩
    cases i with
    | ping =>
      rintro _ ⟨⟩
      refine ⟨?_, hi, hd⟩
      have hl : last s = r.begun := hl
      simp [show_periodic_stats, partlyStored, ← hl, last]
    | pong =>
      rintro _ ⟨⟩
      refine ⟨?_, hi, hd⟩
      have hr : s.run_data.last_rusage =
          Function.update r.begun.rusage .ping (s.run_data.rusage .ping) := congrArg Last.rusage hl
      have hc : s.run_data.last_ping_count = r.begun.ping_count := congrArg Last.ping_count hl
      have ht : s.run_data.last_stats_time = r.begun.stats_time := congrArg Last.stats_time hl
      refine Last.ext hc ht (funext fun i => ?_)
      cases i <;> simp [show_periodic_stats, last, partlyStored, hr]
  | storeCount =>
    refine ⟨?_, by rintro ⟨⟩⟩
    rintro _ ⟨⟩
    have ht : s.run_data.last_stats_time = r.begun.stats_time := congrArg Last.stats_time hl
    have hr : s.run_data.last_rusage = s.run_data.rusage := congrArg Last.rusage hl
    exact ⟨Last.ext rfl ht hr, hi, hd⟩
  | storeTime => exact absurd rfl hpc

theorem mem_output {l : Line} (h : l ∈ s.output) :
    l ∈ (show_periodic_stats frequency usage s pc).output := by
  cases pc with
  | show_periodic_stats_header =>
    simp only [show_periodic_stats]
    split
    · exact List.mem_append_left _ h
    · exact h
  | show_periodic_stats_data => exact List.mem_append_left _ h
  | _ => exact h

theorem show_start_time :
    (show_periodic_stats frequency usage s pc).run_data.start_time = s.run_data.start_time := by
  cases pc <;> rfl

theorem Record.step_stored (r : Record) (usage : Option Rusage) (x : IntervalStats)
    (hpc : pc ≠ .storeTime) :
    (r.step usage x pc).stored = r.stored ∧ (r.step usage x pc).begun = r.begun := by
  cases pc with
  | storeTime => exact absurd rfl hpc
  | _ => exact ⟨rfl, rfl⟩

theorem see_step {u : Unit} (h : s.pc = some pc) :
    see (.step usage) u s r = r.step usage s.i_stats pc := by
  simp only [see, h, Option.elim]

theorem Telescoped.tick {u : Unit} (h : Telescoped s r) (hpc : s.pc = none) :
    Telescoped { s with i_stats := .zero, pc := some .testRequest } (see .tick u s r) where
  idle := by rintro ⟨⟩
  busy := by
    rintro _ ⟨⟩
    exact ⟨h.idle hpc, rfl, fun h => h.elim, fun h => h.elim⟩
  displayed := h.displayed

theorem Telescoped.step {u : Unit} (h : Telescoped s r) (hpc : s.pc = some pc) :
    Telescoped (show_periodic_stats frequency usage s pc) (see (.step usage) u s r) := by
  obtain ⟨htotals, hduring⟩ := h.busy pc hpc
  rw [see_step hpc]
  by_cases hst : pc = .storeTime
  · subst pc
    obtain ⟨hkept, hinterval, hdisplayed⟩ := hduring
    refine ⟨fun _ => ?_, by rintro _ ⟨⟩, fun x hx => ?_⟩
    · have hc : s.run_data.last_ping_count = s.i_stats.current_count :=
        congrArg Last.ping_count hkept
      have hr : s.run_data.last_rusage = s.run_data.rusage := congrArg Last.rusage hkept
      have hsum := htotals.append (hinterval trivial)
      rw [← hc, ← hr] at hsum
      exact hsum
    · obtain hx | hx := List.mem_append.mp hx
      · exact h.displayed x hx
      · cases List.mem_singleton.mp hx
        exact hdisplayed trivial
  · obtain ⟨hstored, hbegun⟩ := r.step_stored usage s.i_stats hst
    obtain ⟨hgo, hend⟩ := hduring.step frequency usage hst
    refine ⟨fun hnone => ?_, fun pc' hsome => ?_, fun x hx => ?_⟩
    · rw [hstored, show_start_time, hend hnone]
      exact htotals
    · rw [hstored, hbegun, show_start_time]
      exact ⟨htotals, hgo pc' hsome⟩
    · rw [hstored] at hx
      exact mem_output (h.displayed x hx)

theorem Telescoped.next {e : Event} {u : Unit} (h : Telescoped s r)
    (hn : StatsPeriodic.next frequency e s = some t) : Telescoped t (see e u s r) := by
  cases e with
  | tick =>
    simp only [StatsPeriodic.next, Option.ite_none_right_eq_some, Option.some.injEq] at hn
    obtain ⟨hpc, rfl⟩ := hn
    exact h.tick hpc
  | step usage =>
    obtain ⟨pc, hpc, rfl⟩ := Option.map_eq_some_iff.mp hn
    exact h.step hpc
  | ping | stop | request _ | pass _ =>
    cases hn
    refine ⟨h.idle, fun pc hpc => ?_, h.displayed⟩
    obtain ⟨htotals, hduring⟩ := h.busy pc hpc
    exact ⟨htotals, hduring.congr rfl rfl rfl rfl⟩

/-- What the running tick found when it began, or else what the next one will. -/
def found (s : State) (r : Record) : Last := s.pc.elim (last s) fun _ => r.begun

def Loaded : StatsPc → Prop
  | .testRequest | .loadCount => False
  | _ => True

def total (stored : List IntervalStats) : Nat := (stored.map fun x => x.interval_count.toNat).sum

/-- While `ping_count` has not wrapped, no interval counts a ping twice. -/
structure Unwrapped (s : State) (r : Record) : Prop where
  sum : total r.stored = (found s r).ping_count.toNat
  le : (found s r).ping_count.toNat ≤ s.run_data.ping_count.toNat
  current : ∀ pc, s.pc = some pc → Loaded pc →
    r.begun.ping_count.toNat ≤ s.i_stats.current_count.toNat ∧
      s.i_stats.current_count.toNat ≤ s.run_data.ping_count.toNat

theorem show_ping_count :
    (show_periodic_stats frequency usage s pc).run_data.ping_count = s.run_data.ping_count := by
  cases pc <;> rfl

theorem show_loaded {pc' : StatsPc} (hg : (show_periodic_stats frequency usage s pc).pc = some pc')
    (hl : Loaded pc') :
    Loaded pc ∧ (show_periodic_stats frequency usage s pc).i_stats.current_count =
        s.i_stats.current_count ∨
      (show_periodic_stats frequency usage s pc).i_stats.current_count = s.run_data.ping_count := by
  cases pc with
  | testRequest =>
    simp only [show_periodic_stats] at hg
    split at hg <;> cases hg
    exact hl.elim
  | loadCount => exact .inr rfl
  | _ => exact .inl ⟨trivial, rfl⟩

theorem Unwrapped.step (frequency : Nat) (usage : Option Rusage) (h : Unwrapped s r)
    (hpc : s.pc = some pc) (hd : During s r.begun pc) :
    Unwrapped (show_periodic_stats frequency usage s pc) (r.step usage s.i_stats pc) := by
  have htotal : total r.stored = r.begun.ping_count.toNat := by simpa [found, hpc] using h.sum
  have hfound : r.begun.ping_count.toNat ≤ s.run_data.ping_count.toNat := by
    simpa [found, hpc] using h.le
  by_cases hst : pc = .storeTime
  · subst pc
    obtain ⟨hle, hle'⟩ := h.current _ hpc trivial
    have hc : s.run_data.last_ping_count = s.i_stats.current_count :=
      congrArg Last.ping_count hd.kept
    have hi := (hd.interval trivial).count
    have hcount : s.i_stats.interval_count.toNat =
        s.i_stats.current_count.toNat - r.begun.ping_count.toNat := by
      rw [hi, BitVec.toNat_sub]
      omega
    refine ⟨?_, ?_, by rintro _ ⟨⟩⟩
    · have happ : total (r.stored ++ [s.i_stats]) =
          total r.stored + s.i_stats.interval_count.toNat := by simp [total]
      have hlast : total (r.stored ++ [s.i_stats]) = s.run_data.last_ping_count.toNat := by
        rw [happ, htotal, hcount, hc]
        omega
      exact hlast
    · have hlast : s.run_data.last_ping_count.toNat ≤ s.run_data.ping_count.toNat := by
        rw [hc]
        exact hle'
      exact hlast
  · obtain ⟨hstored, hbegun⟩ := r.step_stored usage s.i_stats hst
    have hf : (found (show_periodic_stats frequency usage s pc) (r.step usage s.i_stats pc)) =
        r.begun := by
      cases hn : (show_periodic_stats frequency usage s pc).pc with
      | none => simpa [found, hn] using (hd.step frequency usage hst).2 hn
      | some pc' => simpa [found, hn] using hbegun
    refine ⟨?_, ?_, fun pc' hg hl => ?_⟩
    · rw [hstored, hf, htotal]
    · rw [hf, show_ping_count]
      exact hfound
    · rw [hbegun, show_ping_count]
      obtain ⟨hload, hc⟩ | hc := show_loaded hg hl
      · rw [hc]
        exact h.current _ hpc hload
      · rw [hc]
        exact ⟨hfound, le_rfl⟩

theorem Unwrapped.ping {u : Unit} (h : Unwrapped s r) (hne : s.run_data.ping_count + 1 ≠ 0) :
    Unwrapped { s with run_data.ping_count := s.run_data.ping_count + 1 } (see .ping u s r) := by
  have hsucc : (s.run_data.ping_count + 1).toNat = s.run_data.ping_count.toNat + 1 := by
    have hmax := s.run_data.ping_count.isLt
    have hadd : (s.run_data.ping_count + 1).toNat = (s.run_data.ping_count.toNat + 1) % 2 ^ 64 :=
      BitVec.toNat_add _ _
    have h0 : (s.run_data.ping_count + 1).toNat ≠ 0 := fun h0 =>
      hne (BitVec.eq_of_toNat_eq h0)
    omega
  refine ⟨h.sum, ?_, fun pc hpc hl => ?_⟩
  · have hle := h.le
    have hgoal : (found s r).ping_count.toNat ≤ (s.run_data.ping_count + 1).toNat := by omega
    exact hgoal
  · obtain ⟨hle, hle'⟩ := h.current pc hpc hl
    have hgoal : s.i_stats.current_count.toNat ≤ (s.run_data.ping_count + 1).toNat := by omega
    exact ⟨hle, hgoal⟩

theorem Unwrapped.next {e : Event} {u : Unit} (h : r.wrapped = false → Unwrapped s r)
    (ht : Telescoped s r) (hn : StatsPeriodic.next frequency e s = some t)
    (hw : (see e u s r).wrapped = false) : Unwrapped t (see e u s r) := by
  cases e with
  | tick =>
    simp only [StatsPeriodic.next, Option.ite_none_right_eq_some, Option.some.injEq] at hn
    obtain ⟨hpc, rfl⟩ := hn
    have hf : found s r = last s := by simp [found, hpc]
    obtain ⟨htotal, hfound, -⟩ := h hw
    rw [hf] at htotal hfound
    refine ⟨htotal, hfound, ?_⟩
    rintro _ ⟨⟩ hl
    exact hl.elim
  | step usage =>
    obtain ⟨pc, hpc, rfl⟩ := Option.map_eq_some_iff.mp hn
    rw [see_step hpc] at hw ⊢
    have hwrapped : r.wrapped = false := by cases pc <;> exact hw
    exact (h hwrapped).step frequency usage hpc (ht.busy pc hpc).2
  | ping =>
    cases hn
    have hw : (r.wrapped || decide (s.run_data.ping_count + 1 = 0)) = false := hw
    simp only [Bool.or_eq_false_iff, decide_eq_false_iff_not] at hw
    exact (h hw.1).ping hw.2
  | stop | request _ | pass _ =>
    cases hn
    obtain ⟨htotal, hfound, hcurrent⟩ := h hw
    exact ⟨htotal, hfound, hcurrent⟩

theorem normalised_zero : Rusage.zero.Normalised := by
  unfold Rusage.zero Rusage.Normalised StatsPeriodic.Normalised
  decide

structure Normal (s : State) : Prop where
  rusage : ∀ i, (s.run_data.rusage i).Normalised
  last_rusage : ∀ i, (s.run_data.last_rusage i).Normalised
  interval : s.pc ≠ none → ∀ i, (s.i_stats.rusage i).Normalised
  displayed : ∀ x, .data x ∈ s.output → ∀ i, (x.rusage i).Normalised

theorem forall_update {p : Rusage → Prop} {u : Worker → Rusage} {v : Rusage} {i : Worker}
    (hu : ∀ j, p (u j)) (hv : p v) : ∀ j, p (Function.update u i v j) := by
  intro j
  by_cases hji : j = i
  · subst j
    simpa using hv
  · simpa [hji] using hu j

theorem Normal.step (frequency : Nat) (usage : Option Rusage) (h : Normal s) (hpc : s.pc = some pc)
    (hu : ∀ i u, pc = .wait4 i → usage = some u → u.Normalised) :
    Normal (show_periodic_stats frequency usage s pc) := by
  have hi : ∀ i, (s.i_stats.rusage i).Normalised := h.interval (by simp [hpc])
  cases pc with
  | testRequest | loadCount | get_time | testStop | storeCount | storeTime =>
    exact ⟨h.rusage, h.last_rusage, fun _ => hi, h.displayed⟩
  | wait4 i =>
    refine ⟨forall_update h.rusage ?_, h.last_rusage, fun _ => hi, h.displayed⟩
    cases usage with
    | none => exact h.rusage i
    | some u => exact hu i u rfl rfl
  | interval =>
    exact ⟨h.rusage, h.last_rusage,
      fun _ i => normalised_usedSince (h.last_rusage i) (h.rusage i), h.displayed⟩
  | show_periodic_stats_header =>
    refine ⟨h.rusage, h.last_rusage, fun _ => hi, fun x hx => h.displayed x ?_⟩
    simp only [show_periodic_stats] at hx
    split at hx
    · simpa using hx
    · exact hx
  | show_periodic_stats_data =>
    refine ⟨h.rusage, h.last_rusage, fun _ => hi, fun x hx => ?_⟩
    obtain hx | hx := List.mem_append.mp hx
    · exact h.displayed x hx
    · cases List.mem_singleton.mp hx
      exact hi
  | bytecopy i =>
    exact ⟨h.rusage, forall_update h.last_rusage (h.rusage i), fun _ => hi, h.displayed⟩

theorem Normal.next {e : Event} {u : Unit} (h : (∀ v ∈ r.usages, v.Normalised) → Normal s)
    (hn : StatsPeriodic.next frequency e s = some t)
    (hu : ∀ v ∈ (see e u s r).usages, v.Normalised) : Normal t := by
  cases e with
  | tick =>
    simp only [StatsPeriodic.next, Option.ite_none_right_eq_some, Option.some.injEq] at hn
    obtain ⟨-, rfl⟩ := hn
    obtain ⟨hr, hl, -, hd⟩ := h hu
    exact ⟨hr, hl, fun _ _ => normalised_zero, hd⟩
  | step usage =>
    obtain ⟨pc, hpc, rfl⟩ := Option.map_eq_some_iff.mp hn
    rw [see_step hpc] at hu
    by_cases hw : ∃ i, pc = .wait4 i
    · obtain ⟨i, rfl⟩ := hw
      refine (h fun v hv => hu v (List.mem_append_left _ hv)).step frequency usage hpc ?_
      rintro _ v - rfl
      exact hu v (List.mem_append_right _ (List.mem_singleton_self v))
    · have hsame : (r.step usage s.i_stats pc).usages = r.usages := by
        cases pc <;> first | rfl | exact absurd ⟨_, rfl⟩ hw
      rw [hsame] at hu
      exact (h hu).step frequency usage hpc fun i v hi => absurd ⟨i, hi⟩ hw
  | ping | stop | request _ | pass _ =>
    cases hn
    exact ⟨(h hu).rusage, (h hu).last_rusage, (h hu).interval, (h hu).displayed⟩

def Whole (pc : Option StatsPc) : Prop :=
  pc ≠ some (.bytecopy .pong) ∧ pc ≠ some .storeCount ∧ pc ≠ some .storeTime

theorem Telescoped.totals (h : Telescoped s r) (hw : Whole s.pc) :
    Totals r.stored s.run_data.start_time (last s) := by
  cases hpc : s.pc with
  | none => exact h.idle hpc
  | some pc =>
    rw [hpc] at hw
    obtain ⟨htotals, hkept, -, -⟩ := h.busy pc hpc
    have hlast : last s = r.begun := by
      rw [hkept]
      cases pc with
      | bytecopy i =>
        cases i with
        | ping => rfl
        | pong => exact absurd rfl hw.1
      | storeCount => exact absurd rfl hw.2.1
      | storeTime => exact absurd rfl hw.2.2
      | _ => rfl
    rw [hlast]
    exact htotals

theorem baseline_telescoped (h : Baseline s) (l : Last) :
    Telescoped s ⟨[], [], false, l⟩ ∧ Unwrapped s ⟨[], [], false, l⟩ ∧ Normal s := by
  have hu : s.run_data.last_rusage = fun _ => .zero := funext h.last_rusage
  have hlast : last s = ⟨0, s.run_data.start_time, fun _ => .zero⟩ := by
    simp only [last, h.last_ping_count, h.last_stats_time, hu]
  refine ⟨⟨fun _ => ?_, by simp [h.pc], by simp⟩, ⟨?_, ?_, by simp [h.pc]⟩, ?_⟩
  · rw [hlast]
    exact totals_nil _
  · simp [total, found, h.pc, hlast]
  · simp [found, h.pc, hlast]
  · exact ⟨fun i => h.rusage i ▸ normalised_zero, fun i => h.last_rusage i ▸ normalised_zero,
      fun hne => absurd h.pc hne, by simp [h.output]⟩

theorem reachable_telescoped {p : State × Record} (h : Reachable (recorded frequency) p) :
    Telescoped p.1 p.2 ∧ (p.2.wrapped = false → Unwrapped p.1 p.2) ∧
      ((∀ v ∈ p.2.usages, v.Normalised) → Normal p.1) := by
  refine h.invariant (I := fun p => Telescoped p.1 p.2 ∧ (p.2.wrapped = false → Unwrapped p.1 p.2) ∧
    ((∀ v ∈ p.2.usages, v.Normalised) → Normal p.1)) ?_ fun p e q hp hn => ?_
  · rintro ⟨s, r⟩ ⟨hs, rfl⟩
    have hb : Baseline s := hs
    obtain ⟨ht, hu, hn⟩ := baseline_telescoped hb ⟨0, 0, fun _ => .zero⟩
    exact ⟨ht, fun _ => hu, fun _ => hn⟩
  · obtain ⟨hn, hq⟩ := observe_next.mp hn
    obtain ⟨ht, hu, hnormal⟩ := hp
    rw [hq]
    exact ⟨ht.next hn, fun hw => Unwrapped.next hu ht hn hw, fun hv => Normal.next hnormal hn hv⟩

/-- The intervals displayed and stored add up to what is kept for the next tick, and
what they count has been pinged. With normalised results of `wait4` every displayed
time is normalised, and a tick that returns early leaves what it found. -/
theorem nothing_lost {p : State × Record} (h : Reachable (recorded frequency) p) :
    (∀ x ∈ p.2.stored, .data x ∈ p.1.output) ∧
    (Whole p.1.pc → Totals p.2.stored p.1.run_data.start_time (last p.1)) ∧
    (p.2.wrapped = false → total p.2.stored ≤ p.1.run_data.ping_count.toNat) ∧
    ((∀ v ∈ p.2.usages, v.Normalised) →
      ∀ x, .data x ∈ p.1.output → ∀ i, (x.rusage i).Normalised) ∧
    ∀ usage t, p.1.pc = some .testRequest ∨ p.1.pc = some .testStop →
      StatsPeriodic.next frequency (.step usage) p.1 = some t → t.pc = none →
      last t = p.2.begun := by
  obtain ⟨ht, hu, hn⟩ := reachable_telescoped h
  refine ⟨ht.displayed, ht.totals, fun hw => ?_, fun hv => (hn hv).displayed, ?_⟩
  · rw [(hu hw).sum]
    exact (hu hw).le
  · intro usage t hpc hnext hnone
    obtain ⟨pc, hpc', rfl⟩ := Option.map_eq_some_iff.mp hnext
    have hst : pc ≠ .storeTime := by
      rintro rfl
      rw [hpc'] at hpc
      obtain hpc | hpc := hpc <;> cases hpc
    exact ((ht.busy pc hpc').2.step frequency usage hst).2 hnone

def start : State where
  run_data := ⟨0, false, false, 0, 0, 0, 0, fun _ => .zero, fun _ => .zero⟩
  i_stats := .zero
  clock := 0
  output := []
  pc := none

def tickAt (time : Rat) : List Event :=
  [.pass time, .tick, .step none, .step none, .ping] ++ .replicate 11 (.step none)

/-- Two ticks, and three pings of which the last one is not counted yet. -/
theorem nothing_lost_two : ∃ p, Reachable (recorded 20) p ∧ p.2.stored.length = 2 ∧
    p.1.run_data.ping_count = 3 ∧ last p.1 = ⟨2, 5, p.1.run_data.last_rusage⟩ ∧
    Totals p.2.stored 0 (last p.1) := by
  obtain ⟨p, hp, hlen, hc, hpc, h0, hl, ht⟩ := exists_reachable_of_exec (S := recorded 20)
    (p := fun p => p.2.stored.length = 2 ∧ p.1.run_data.ping_count = 3 ∧ p.1.pc = none ∧
      p.1.run_data.start_time = 0 ∧ p.1.run_data.last_ping_count = 2 ∧
      p.1.run_data.last_stats_time = 5)
    (s := (start, ⟨[], [], false, ⟨0, 0, fun _ => .zero⟩⟩))
    ⟨⟨rfl, rfl, rfl, rfl, fun _ => rfl, fun _ => rfl⟩, rfl⟩
    ((.ping :: tickAt 2 ++ tickAt 5).map (·, ())) (by decide +kernel)
  have htotals := (nothing_lost hp).2.1 (by simp [Whole, hpc])
  rw [h0] at htotals
  exact ⟨p, hp, hlen, hc, Last.ext hl ht rfl, htotals⟩

end PingPong.StatsTotals
