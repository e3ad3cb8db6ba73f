import PingPong.Fairness
import PingPong.MonitorReaping
import PingPong.MonitorReport

namespace PingPong.MonitorEnding

open MonitorState MonitorProgram MonitorFrame MonitorFootprint MonitorReaping MonitorReport
open MonitorNesting (Entered Nested nested_of_setUp)
open Activation Fairness TransitionSystem

variable {k : Setting} {s t : State} {a : MonitorEvent} {w w' : World} {i : Worker}
variable {above below : List Frame} {caller : Caller} {pc pc' : StopPc}

/-- Nobody sends `SIGINT`, or stops or continues a worker. -/
def Quiet : MonitorEvent → State → Prop
  | .env .sigint, _ | .env (.stopOrContinue _), _ => False
  | _, _ => True

instance (a : MonitorEvent) (s : State) : Decidable (Quiet a s) := by
  unfold Quiet
  split <;> infer_instance

/-- Who brings the end about: the running activation, `SIGCHLD`, or a worker that is interrupted. -/
inductive Helper
  | step | tell
  | interrupt (i : Worker)
deriving DecidableEq

def Helper.helps : Helper → State → MonitorEvent → Prop
  | .step, _, a => ∃ c, a = .step c
  | .tell, _, a => a = .deliver .sigchld
  | .interrupt i, _, a => a = .env (.interrupt i)

def phase (w : World) (i : Worker) : Nat :=
  match w.worker i with
  | .unborn | .alive _ => 3
  | .zombie => 2
  | .reaped _ => if w.run_data.pid i = -1 then 0 else 1

def left (w : World) : Nat := phase w .ping + phase w .pong

/-- The steps of `stop_handler` before it waits. -/
def early : StopPc → Nat
  | .stopTimer => 4
  | .setStop => 3
  | .send_sig .ping => 2
  | .send_sig .pong => 1
  | _ => 0

def late : StopPc → Nat
  | .do_sleep => 7
  | .testPid .ping => 6
  | .testPid .pong => 5
  | .comm_cleanup => 4
  | .output_final_stats => 3
  | .monitor_cleanup => 2
  | .exit => 1
  | _ => 0

def childRank : ChildPc → Nat
  | .comparePing pid => if pid = 0 then 5 else 12
  | .comparePong pid => if pid = 0 then 4 else 11
  | .recordDeath _ => 10
  | .setStop => 9
  | .ignoreAlarm => 8
  | .stopTimer => 7
  | .waitpid => 6
  | .compareZero _ => 3

def frameRank : Frame → Nat
  | .child_handler pc => childRank pc
  | _ => 1

def signalRank (w : World) : Nat :=
  (if w.pending .sigchld then 20 else 0) + if w.pending .sigint then 2 else 0

def rank (above : List Frame) (pc : StopPc) (w : World) : Nat :=
  10000 * early pc + 1000 * left w + 8 * ((above.map frameRank).sum + signalRank w) +
    if left w = 0 then late pc else 0

def who (above : List Frame) (pc : StopPc) (w : World) : Helper :=
  if early pc ≠ 0 ∨ childPc above ≠ none ∨ left w = 0 then .step
  else if w.pending .sigchld then .tell
  else if phase w .ping = 3 then .interrupt .ping else .interrupt .pong

def Found (i : Worker) : StopPc → Prop
  | .testPid .pong => i = .ping
  | .comm_cleanup | .output_final_stats | .monitor_cleanup | .exit => True
  | _ => False

def sent : Worker → Nat
  | .ping => 1
  | .pong => 0

/-- What a `stop_handler` that has given up `SIGALRM` may rely on. -/
structure Ready (w : World) (pc : StopPc) : Prop where
  visited : w.visited ≠ 0
  sigalrm : w.disposition .sigalrm = .ignore
  running : w.exited = false
  stop : early pc ≤ 2 → w.run_data.stop = true
  told : ∀ i p, early pc ≤ sent i → w.worker i = .alive p → w.interrupt i = true
  dead : ∀ i, Found i pc → w.run_data.pid i = -1

def Past (pc : StopPc) : Prop := pc ≠ .testVisited ∧ pc ≠ .visit ∧ pc ≠ .ignoreAlarm

instance (pc : StopPc) : Decidable (Past pc) := inferInstanceAs (Decidable (_ ∧ _))

def Short (f : Frame) : Prop :=
  (∃ c, f = .child_handler c) ∨ f = .stop_handler .sigint .testVisited

/-- The monitor is in a `stop_handler` that has given up `SIGALRM`, and that does not suspend
`child_handler`. -/
structure Ending (s : State) (above : List Frame) (caller : Caller) (pc : StopPc)
    (below : List Frame) : Prop where
  stack : s.stack = above ++ .stop_handler caller pc :: below
  above : ∀ f ∈ above, Short f
  below : childPc below = none
  past : Past pc
  ready : Ready s.world pc

structure Unmoved (w w' : World) : Prop where
  phase : ∀ i, phase w' i = phase w i
  sigchld : w'.pending .sigchld = w.pending .sigchld
  sigint : w'.pending .sigint = w.pending .sigint

theorem Unmoved.left (h : Unmoved w w') : left w' = left w := by
  rw [MonitorEnding.left, MonitorEnding.left, h.phase, h.phase]

theorem Unmoved.rank (h : Unmoved w w') (above : List Frame) (pc : StopPc) :
    rank above pc w' = rank above pc w := by
  rw [MonitorEnding.rank, MonitorEnding.rank, h.left, signalRank, signalRank, h.sigchld, h.sigint]

theorem Unmoved.who (h : Unmoved w w') (above : List Frame) (pc : StopPc) :
    who above pc w' = who above pc w := by
  rw [MonitorEnding.who, MonitorEnding.who, h.left, h.sigchld, h.phase]

theorem late_le (pc : StopPc) : late pc ≤ 7 := by
  unfold late
  split <;> decide

theorem signalRank_le (w : World) : signalRank w ≤ 22 := by
  unfold signalRank
  split_ifs <;> decide

/-- A death that comes nearer outweighs what it makes the handlers do. -/
theorem rank_lt_of_left {above' : List Frame} (hleft : left w' < left w)
    (hearly : early pc' = early pc)
    (hsum : (above'.map frameRank).sum ≤ (above.map frameRank).sum + 30) :
    rank above' pc' w' < rank above pc w := by
  have hlate := late_le pc'
  have hsignal := signalRank_le w'
  unfold rank
  split_ifs <;> omega

theorem rank_lt_of_sum {above' : List Frame} (hleft : left w' = left w)
    (hsum : (above'.map frameRank).sum + signalRank w' < (above.map frameRank).sum + signalRank w) :
    rank above' pc w' < rank above pc w := by
  rw [rank, rank, hleft]
  omega

theorem left_lt (hlt : phase w' i < phase w i) (heq : phase w' i.other = phase w i.other) :
    left w' < left w := by
  cases i <;> unfold left <;> simp only [Worker.other] at heq <;> omega

structure Beside (w w' : World) : Prop where
  visited : w'.visited = w.visited
  sigalrm : w'.disposition .sigalrm = w.disposition .sigalrm
  exited : w'.exited = w.exited
  run_data : w'.run_data.stop = w.run_data.stop ∧ w'.run_data.pid = w.run_data.pid
  told : ∀ i p, w'.worker i = .alive p → ∃ p', w.worker i = .alive p' ∧
    w'.interrupt i = w.interrupt i

theorem Beside.of_eq (hv : w'.visited = w.visited)
    (hs : w'.disposition .sigalrm = w.disposition .sigalrm) (hx : w'.exited = w.exited)
    (hr : w'.run_data = w.run_data) (hw : w'.worker = w.worker)
    (hi : w'.interrupt = w.interrupt) : Beside w w' :=
  ⟨hv, hs, hx, ⟨congrArg _ hr, congrArg _ hr⟩, fun i p hp =>
    ⟨p, (congrFun hw i).symm.trans hp, congrFun hi i⟩⟩

theorem Ready.beside (h : Ready w pc) (hb : Beside w w') : Ready w' pc where
  visited := hb.visited ▸ h.visited
  sigalrm := hb.sigalrm.trans h.sigalrm
  running := hb.exited.trans h.running
  stop he := hb.run_data.1.trans (h.stop he)
  told i p he hw := by
    obtain ⟨p', hw', hint⟩ := hb.told i p hw
    exact hint.trans (h.told i p' he hw')
  dead i hf := (congrFun hb.run_data.2 i).trans (h.dead i hf)

theorem Beside.of_dead (st : WorkerState) (hst : ∀ p, st ≠ .alive p)
    (hworker : w'.worker = Function.update w.worker i st)
    (hv : w'.visited = w.visited) (hs : w'.disposition .sigalrm = w.disposition .sigalrm)
    (hx : w'.exited = w.exited)
    (hr : w'.run_data.stop = w.run_data.stop ∧ w'.run_data.pid = w.run_data.pid)
    (hint : ∀ j ≠ i, w'.interrupt j = w.interrupt j) : Beside w w' := by
  refine ⟨hv, hs, hx, hr, fun j p hw => ?_⟩
  rw [hworker] at hw
  by_cases hj : j = i
  · subst hj
    rw [Function.update_self] at hw
    exact absurd hw (hst p)
  · rw [Function.update_of_ne hj] at hw
    exact ⟨p, hw, hint j hj⟩

theorem left_of_die {p : WorkerPc} (hi : w.worker i = .alive p)
    (hworker : w'.worker = Function.update w.worker i .zombie)
    (hpid : w'.run_data.pid = w.run_data.pid) : left w' < left w := by
  refine left_lt (i := i) ?_ ?_
  · simp [phase, hworker, hi]
  · unfold phase
    rw [hworker, Function.update_of_ne i.other_ne, hpid]

theorem interrupt_thread_stop (hk : k.thread_mode ≠ .pthread) {p : WorkerPc} (hp : pastPid p)
    (hstop : w.run_data.stop = true) : interrupt_thread k i p w =
      (signalled w i (Function.update w.run_data.rusage_req i false)).die i := by
  have hinterruptible : p.interruptible = true := by cases p <;> trivial
  simp [interrupt_thread, hinterruptible, hstop, hk, signalled]

theorem interrupt_thread_run {p : WorkerPc} (hp : pastPid p) (hstop : w.run_data.stop = false) :
    interrupt_thread k i p w =
      signalled w i (Function.update w.run_data.rusage_req i false) := by
  have hinterruptible : p.interruptible = true := by cases p <;> trivial
  simp [interrupt_thread, hinterruptible, hstop, signalled]

theorem beside_run {p : WorkerPc} (hi : w.worker i = .alive p) (p' : WorkerPc) :
    Beside w (w.setWorker i (.alive p')) ∧ Unmoved w (w.setWorker i (.alive p')) := by
  refine ⟨⟨rfl, rfl, rfl, ⟨rfl, rfl⟩, fun j q hq => ?_⟩, fun j => ?_, rfl, rfl⟩
  · by_cases hj : j = i
    · subst hj
      exact ⟨p, hi, rfl⟩
    · rw [World.setWorker_worker, Function.update_of_ne hj] at hq
      exact ⟨q, hq, rfl⟩
  · unfold phase
    by_cases hj : j = i
    · subst hj
      simp [hi]
    · rw [World.setWorker_worker, Function.update_of_ne hj]
      rfl

theorem Ready.env {e : EnvEvent} (h : Ready w pc) (hk : k.thread_mode ≠ .pthread)
    (hw : ∀ i p, w.worker i = .alive p → pastPid p) (hq : Quiet (.env e) s)
    (he : env k w e = some w') : Ready w' pc ∧ (left w' < left w ∨
      Unmoved w w' ∧ ∀ i, e = .interrupt i → w.run_data.stop = false) := by
  cases env_cases he with
  | sigint | stopOrContinue _ => exact hq.elim
  | exit _ hk' | untold hk' => exact absurd hk' hk
  | tick _ =>
    have heq : w.raise .sigalrm = w := by simp [World.raise, World.Ignored, h.sigalrm]
    rw [heq]
    exact ⟨h, .inr ⟨⟨fun _ => rfl, rfl, rfl⟩, by rintro _ ⟨⟩⟩⟩
  | pass _ =>
    exact ⟨h.beside (.of_eq rfl rfl rfl rfl rfl rfl), .inr ⟨⟨fun _ => rfl, rfl, rfl⟩, by rintro _ ⟨⟩⟩⟩
  | @die i p hi _ =>
    exact ⟨h.beside (.of_dead .zombie (by simp) rfl rfl rfl rfl ⟨rfl, rfl⟩ fun _ _ => rfl),
      .inl (left_of_die hi rfl rfl)⟩
  | @interrupt i p hi _ =>
    cases hstop : w.run_data.stop with
    | true =>
      rw [interrupt_thread_stop hk (hw i p hi) hstop]
      have hint (j : Worker) (hj : j ≠ i) : Function.update w.interrupt i false j = w.interrupt j :=
        Function.update_of_ne hj ..
      exact ⟨h.beside (.of_dead .zombie (by simp) rfl rfl rfl rfl ⟨rfl, rfl⟩ hint),
        .inl (left_of_die hi rfl rfl)⟩
    | false =>
      rw [interrupt_thread_run (hw i p hi) hstop]
      have hearly : 2 < early pc := by
        by_contra hle
        simp [h.stop (not_lt.mp hle)] at hstop
      refine ⟨⟨h.visited, h.sigalrm, h.running, h.stop, fun j p' hle => ?_, h.dead⟩,
        .inr ⟨⟨fun _ => rfl, rfl, rfl⟩, fun _ _ => rfl⟩⟩
      cases j <;> simp only [sent] at hle <;> omega
  | @work i p hi =>
    have hp := hw i p hi
    cases p with
    | waitStart =>
      obtain ⟨hb, hu⟩ := beside_run hi (if w.run_data.start then .comm_loop else .waitStart)
      exact ⟨h.beside hb, .inr ⟨hu, by rintro _ ⟨⟩⟩⟩
    | comm_loop => exact ⟨h, .inr ⟨⟨fun _ => rfl, rfl, rfl⟩, by rintro _ ⟨⟩⟩⟩
    | _ => exact hp.elim

theorem childRank_le (cpc : ChildPc) : childRank cpc ≤ 12 := by
  unfold childRank
  split <;> try split
  all_goals decide

theorem Ready.child {c : Choice} {cpc : ChildPc} {o : Option ChildPc} (h : Ready w pc)
    (hw : ∀ i, WorkerOk k w (some cpc) i) (hc : ChildOk k w cpc)
    (he : child_handler k c w cpc = (w', o)) : Ready w' pc ∧ (left w' < left w ∨
      Unmoved w w' ∧ ∀ cpc', o = some cpc' → childRank cpc' < childRank cpc) := by
  have hsame : Unmoved w w := ⟨fun _ => rfl, rfl, rfl⟩
  cases child_handler_cases he with
  | @reaps i _ hz =>
    have hpid : w.run_data.pid i ≠ -1 := by
      have hi := hw i
      simp only [WorkerOk, hz] at hi
      exact hi.1 ▸ k.child_ne_neg_one i
    have hbeside : Beside w (w.setWorker i (.reaped .child_handler)) :=
      .of_dead (.reaped .child_handler) (by simp) rfl rfl rfl rfl ⟨rfl, rfl⟩ fun _ _ => rfl
    refine ⟨h.beside hbeside, .inl (left_lt (i := i) ?_ ?_)⟩
    · simp [phase, hz, hpid]
    · unfold phase
      rw [World.setWorker_worker, Function.update_of_ne i.other_ne]
      rfl
  | nobody _ => exact ⟨h, .inr ⟨hsame, by rintro _ ⟨⟩; decide⟩⟩
  | childless _ => exact ⟨h, .inr ⟨hsame, by rintro _ ⟨⟩⟩⟩
  | @isPing pid hp =>
    have hne : pid ≠ 0 := hp ▸ (hw .ping).pid_ne_zero
    exact ⟨h, .inr ⟨hsame, by rintro _ ⟨⟩; simp [childRank, hne]⟩⟩
  | @notPing pid _ | @notPong pid _ =>
    refine ⟨h, .inr ⟨hsame, ?_⟩⟩
    rintro _ ⟨⟩
    by_cases hz : pid = 0 <;> simp [childRank, hz]
  | @isPong pid hp =>
    have hne : pid ≠ 0 := hp ▸ (hw .pong).pid_ne_zero
    exact ⟨h, .inr ⟨hsame, by rintro _ ⟨⟩; simp [childRank, hne]⟩⟩
  | finished => exact ⟨h, .inr ⟨hsame, by rintro _ ⟨⟩⟩⟩
  | again hne => exact absurd hc hne
  | @recordDeath i =>
    obtain ⟨hi, hpid⟩ : Reaped k w i := hc
    have hne : w.run_data.pid i ≠ -1 := hpid ▸ k.child_ne_neg_one i
    refine ⟨⟨h.visited, h.sigalrm, h.running, h.stop, h.told, fun j hf => ?_⟩,
      .inl (left_lt (i := i) ?_ ?_)⟩
    · by_cases hj : j = i
      · simp [hj]
      · simpa [hj] using h.dead j hf
    · simp [phase, hi, hne]
    · simp [phase]
  | setStop => exact ⟨⟨h.visited, h.sigalrm, h.running, fun _ => rfl, h.told, h.dead⟩,
      .inr ⟨⟨fun _ => rfl, rfl, rfl⟩, by rintro _ ⟨⟩; decide⟩⟩
  | ignoreAlarm =>
    exact ⟨⟨h.visited, by simp, h.running, h.stop, h.told, h.dead⟩,
      .inr ⟨⟨fun _ => rfl, by simp, by simp⟩, by rintro _ ⟨⟩; decide⟩⟩
  | stopTimer => exact ⟨⟨h.visited, h.sigalrm, h.running, h.stop, h.told, h.dead⟩,
      .inr ⟨⟨fun _ => rfl, rfl, rfl⟩, by rintro _ ⟨⟩; decide⟩⟩

theorem rank_early (hu : Unmoved w w') (he : early pc' < early pc) (above : List Frame) :
    rank above pc' w' < rank above pc w := by
  have hlate := late_le pc'
  rw [← hu.rank above pc]
  unfold rank
  split_ifs <;> omega

theorem rank_wait (hu : Unmoved w w') (he : early pc = 0) (he' : early pc' = 0)
    (hl : left w = 0 → late pc' < late pc) : rank [] pc' w' < rank [] pc w ∨
      rank [] pc' w' = rank [] pc w ∧ who [] pc' w' = who [] pc w ∧ who [] pc w ≠ .step := by
  rw [hu.rank, hu.who]
  by_cases hleft : left w = 0
  · have hlt := hl hleft
    refine .inl ?_
    unfold rank
    rw [if_pos hleft, if_pos hleft]
    omega
  · refine .inr ⟨?_, ?_, ?_⟩
    · rw [rank, rank, if_neg hleft, if_neg hleft, he, he']
    · rw [who, who, he, he']
    · have hstep : ¬ (early pc ≠ 0 ∨ childPc [] ≠ none ∨ left w = 0) := by
        simp [he, hleft, childPc]
      rw [who, if_neg hstep]
      split_ifs <;> simp

theorem phase_eq_zero {c : Option ChildPc} (h : WorkerOk k w c i) :
    phase w i = 0 ↔ w.run_data.pid i = -1 := by
  constructor
  · unfold phase
    split
    · nofun
    · nofun
    · nofun
    · split_ifs with hpid
      · exact fun _ => hpid
      · nofun
  · intro hpid
    simp [phase, h.reaped hpid, hpid]

theorem left_eq_zero {c : Option ChildPc} (h : ∀ i, WorkerOk k w c i) :
    left w = 0 ↔ ∀ i, w.run_data.pid i = -1 := by
  rw [left, Nat.add_eq_zero_iff, phase_eq_zero (h .ping), phase_eq_zero (h .pong)]
  exact ⟨fun ⟨h0, h1⟩ i => by cases i <;> assumption, fun h => ⟨h _, h _⟩⟩

theorem Ready.goto (h : Ready w pc) (hb : Beside w w') (he : early pc' = early pc)
    (hdead : ∀ i, Found i pc' → w.run_data.pid i = -1) : Ready w' pc' :=
  .beside ⟨h.visited, h.sigalrm, h.running, he ▸ h.stop, he ▸ h.told, hdead⟩ hb

/-- What a step of `stop_handler` itself comes to: the process exits with both deaths recorded,
or the rank falls, or a worker is waited for. -/
inductive StopMove (w w' : World) (pc : StopPc) (o : Option StopPc) : Prop
  | exit (hx : w'.exited = true) (hdead : ∀ i, w'.run_data.pid i = -1)
  | goto {pc' : StopPc} (ho : o = some pc') (hpast : Past pc') (hr : Ready w' pc')
      (hrank : rank [] pc' w' < rank [] pc w ∨
        rank [] pc' w' = rank [] pc w ∧ who [] pc' w' = who [] pc w ∧ who [] pc w ≠ .step)

theorem Ready.early (h : Ready w pc) (hpast : Past pc') (he : early pc' < early pc)
    (hu : Unmoved w w') (hv : w'.visited = w.visited)
    (hs : w'.disposition .sigalrm = w.disposition .sigalrm) (hx : w'.exited = w.exited)
    (hstop : early pc' ≤ 2 → w'.run_data.stop = true)
    (htold : ∀ i p, early pc' ≤ sent i → w'.worker i = .alive p → w'.interrupt i = true)
    (hfound : ∀ i, ¬ Found i pc') : StopMove w w' pc (some pc') := by
  have hready : Ready w' pc' := ⟨hv ▸ h.visited, hs.trans h.sigalrm, hx.trans h.running, hstop,
    htold, fun i hf => absurd hf (hfound i)⟩
  exact .goto rfl hpast hready (.inl (rank_early hu he []))

theorem Ready.stop_handler {c : Option ChildPc} {o : Option StopPc} (h : Ready w pc)
    (hpast : Past pc) (hw : ∀ i, WorkerOk k w c i)
    (he : MonitorProgram.stop_handler k w pc = (w', o)) : StopMove w w' pc o := by
  have hsame : Unmoved w w := ⟨fun _ => rfl, rfl, rfl⟩
  have hrefl : Beside w w := .of_eq rfl rfl rfl rfl rfl rfl
  have hpid (hleft : left w = 0) : ∀ i, w.run_data.pid i = -1 := (left_eq_zero hw).mp hleft
  have hsent (i : Worker) : sent i ≤ 1 := by cases i <;> decide
  have hpos {i : Worker} {p : WorkerPc} (hi : w.worker i = .alive p) : 0 < w.run_data.pid i := by
    have hok := hw i
    simp only [WorkerOk, hi] at hok
    exact hok.2 ▸ k.child_pos i
  cases stop_handler_cases he with
  | passes _ | first _ => exact absurd rfl hpast.1
  | visit => exact absurd rfl hpast.2.1
  | ignoreAlarm => exact absurd rfl hpast.2.2
  | stopTimer =>
    refine h.early (by decide) (by decide) ⟨fun _ => rfl, rfl, rfl⟩ rfl rfl rfl
      (fun hle => absurd hle (by decide)) ?_ fun _ => id
    intro i p hle
    exact absurd (hle.trans (hsent i)) (by decide)
  | setStop =>
    refine h.early (by decide) (by decide) ⟨fun _ => rfl, rfl, rfl⟩ rfl rfl rfl
      (fun _ => rfl) ?_ fun _ => id
    intro i p hle
    exact absurd (hle.trans (hsent i)) (by decide)
  | sendPing =>
    refine h.early (by decide) (by decide) ⟨fun _ => rfl, rfl, rfl⟩ rfl rfl rfl
      (fun _ => h.stop le_rfl) ?_ fun _ => id
    intro i p hle hi
    cases i with
    | ping => simp [hpos hi]
    | pong => exact absurd hle (by decide)
  | sendPong =>
    refine h.early (by decide) (by decide) ⟨fun _ => rfl, rfl, rfl⟩ rfl rfl rfl
      (fun _ => h.stop (by decide)) ?_ fun _ => id
    intro i p _ hi
    cases i with
    | ping =>
      have htold := h.told .ping p le_rfl hi
      split_ifs <;> simp [htold]
    | pong => simp [hpos hi]
  | @lives i hi =>
    exact .goto rfl (by decide) (h.goto hrefl (by cases i <;> rfl) fun _ => False.elim)
      (rank_wait hsame (by cases i <;> rfl) rfl fun hleft => absurd (hpid hleft i) hi)
  | pingDead hp =>
    refine .goto rfl (by decide) (h.goto hrefl rfl ?_)
      (rank_wait hsame rfl rfl fun _ => by decide)
    rintro i rfl
    exact hp
  | pongDead hp =>
    refine .goto rfl (by decide) (h.goto hrefl rfl fun i _ => ?_)
      (rank_wait hsame rfl rfl fun _ => by decide)
    cases i with
    | ping => exact h.dead .ping rfl
    | pong => exact hp
  | do_sleep =>
    exact .goto rfl (by decide) (h.goto hrefl rfl fun _ => False.elim)
      (rank_wait hsame rfl rfl fun _ => by decide)
  | cleanupExits _ | exit => exact .exit rfl fun i => h.dead i trivial
  | comm_cleanup _ | output_final_stats | monitor_cleanup =>
    exact .goto rfl (by decide)
      (h.goto (.of_eq rfl rfl rfl rfl rfl rfl) rfl fun i _ => h.dead i trivial)
      (rank_wait ⟨fun _ => rfl, rfl, rfl⟩ rfl rfl fun _ => by decide)

theorem short_resume {f : Frame} (h : Short f) : resume f = f := by
  obtain ⟨cpc, rfl⟩ | rfl := h <;> rfl

theorem resumeTop_ending (h : ∀ f ∈ above, Short f) :
    resumeTop (program k) (above ++ .stop_handler caller pc :: below) =
      above ++ .stop_handler caller pc :: below := by
  cases above with
  | nil => rfl
  | cons f above =>
    rw [List.cons_append, resumeTop, program_resume, short_resume (h f List.mem_cons_self)]

theorem childPc_ending (above : List Frame) (h : childPc below = none) :
    childPc (above ++ .stop_handler caller pc :: below) = childPc above := by
  have hstop : childPc (.stop_handler caller pc :: below) = none := by
    rw [childPc_cons (by cases caller <;> nofun), h]
  unfold childPc at hstop ⊢
  rw [List.findSome?_append, hstop, Option.or_none]

inductive Move (s t : State) (a : MonitorEvent) (above : List Frame) (caller : Caller) (pc : StopPc)
    (below : List Frame) : Prop
  | exit (hx : t.world.exited = true) (hdead : ∀ i, t.world.run_data.pid i = -1)
  | goto {above' : List Frame} {pc' : StopPc} (h : Ending t above' caller pc' below)
      (hrank : rank above' pc' t.world < rank above pc s.world ∨
        rank above' pc' t.world = rank above pc s.world ∧
          who above' pc' t.world = who above pc s.world ∧
          ¬ (who above pc s.world).helps s a)

theorem not_helps_step {c : Choice} (h : who above pc w ≠ .step) :
    ¬ (who above pc w).helps s (.step c) := by
  cases hw : who above pc w with
  | step => exact absurd hw h
  | tell | interrupt i => nofun

theorem Ending.goto {c : Choice} {rest : List Frame} {f f' : Frame}
    (h : Ending ⟨f :: rest, w⟩ above caller pc below) (hb : Books k ⟨f :: rest, w⟩)
    (he : execFrame k f c w = some (w', some f')) :
    Move ⟨f :: rest, w⟩ ⟨f' :: rest, w'⟩ (.step c) above caller pc below := by
  cases above with
  | nil =>
    obtain ⟨rfl, rfl⟩ := List.cons.inj h.stack
    cases (execFrame_cases he).2 with
    | @stop _ _ pc' _ hs =>
      cases h.ready.stop_handler h.past hb.worker hs with
      | exit hx hdead => exact .exit hx hdead
      | goto ho hpast hr hrank =>
        obtain rfl := Option.some.inj ho
        exact .goto ⟨rfl, h.above, h.below, hpast, hr⟩
          (hrank.imp_right fun hrank => ⟨hrank.1, hrank.2.1, not_helps_step hrank.2.2⟩)
    | stopMainRet hs =>
      cases h.ready.stop_handler h.past hb.worker hs with
      | exit hx hdead => exact .exit hx hdead
      | goto ho _ _ _ => cases ho
  | cons g above =>
    obtain ⟨rfl, rfl⟩ := List.cons.inj h.stack
    obtain ⟨hshort, habove⟩ := List.forall_mem_cons.mp h.above
    obtain ⟨cpc, rfl⟩ | rfl := hshort
    · cases (execFrame_cases he).2 with
      | @child _ cpc' _ hs =>
        obtain ⟨hr, hmove⟩ := h.ready.child hb.worker (hb.child cpc rfl) hs
        refine .goto ⟨rfl, List.forall_mem_cons.mpr ⟨.inl ⟨cpc', rfl⟩, habove⟩, h.below, h.past, hr⟩
          (.inl ?_)
        obtain hleft | ⟨hu, hlt⟩ := hmove
        · have hle := childRank_le cpc'
          refine rank_lt_of_left hleft rfl ?_
          simp only [List.map_cons, List.sum_cons, frameRank]
          omega
        · have hlt := hlt cpc' rfl
          rw [hu.rank]
          refine rank_lt_of_sum rfl ?_
          simp only [List.map_cons, List.sum_cons, frameRank]
          omega
    · cases (execFrame_cases he).2 with
      | stop hs =>
        cases stop_handler_cases hs with
        | first hv => exact absurd hv h.ready.visited

theorem Ending.ret {c : Choice} {rest : List Frame} {f : Frame}
    (h : Ending ⟨f :: rest, w⟩ above caller pc below) (hb : Books k ⟨f :: rest, w⟩)
    (he : execFrame k f c w = some (w', none)) :
    Move ⟨f :: rest, w⟩ ⟨resumeTop (program k) rest, w'⟩ (.step c) above caller pc below := by
  cases above with
  | nil =>
    obtain ⟨rfl, rfl⟩ := List.cons.inj h.stack
    cases (execFrame_cases he).2 with
    | stopRet hs _ =>
      cases h.ready.stop_handler h.past hb.worker hs with
      | exit hx hdead => exact .exit hx hdead
      | goto ho _ _ _ => cases ho
  | cons g above =>
    obtain ⟨rfl, rfl⟩ := List.cons.inj h.stack
    obtain ⟨hshort, habove⟩ := List.forall_mem_cons.mp h.above
    rw [List.append_eq, resumeTop_ending habove]
    obtain ⟨cpc, rfl⟩ | rfl := hshort
    · cases (execFrame_cases he).2 with
      | childRet hs =>
        obtain ⟨hr, hmove⟩ := h.ready.child hb.worker (hb.child cpc rfl) hs
        refine .goto ⟨rfl, habove, h.below, h.past, hr⟩ (.inl ?_)
        obtain hleft | ⟨hu, -⟩ := hmove
        · refine rank_lt_of_left hleft rfl ?_
          simp only [List.map_cons, List.sum_cons]
          omega
        · have hpos : 0 < childRank cpc := by
            unfold childRank
            split <;> try split
            all_goals decide
          rw [hu.rank]
          refine rank_lt_of_sum rfl ?_
          simp only [List.map_cons, List.sum_cons, frameRank]
          omega
    · cases (execFrame_cases he).2 with
      | stopRet hs _ =>
        cases stop_handler_cases hs with
        | passes _ =>
          refine .goto ⟨rfl, habove, h.below, h.past, h.ready⟩ (.inl (rank_lt_of_sum rfl ?_))
          simp only [List.map_cons, List.sum_cons, frameRank]
          omega

theorem beside_setPending (w : World) (sig : Signal) : Beside w (w.setPending sig false) :=
  .of_eq rfl rfl rfl rfl rfl rfl

theorem signalRank_setPending {sig : Signal} (hp : w.pending sig = true) (hs : sig ≠ .sigalrm) :
    frameRank (handlerOf sig) + signalRank (w.setPending sig false) < signalRank w := by
  cases sig with
  | sigalrm => exact absurd rfl hs
  | sigint =>
    simp only [signalRank, handlerOf, frameRank, World.setPending_pending, hp]
    simp
    omega
  | sigchld => simp [signalRank, handlerOf, frameRank, childRank, hp]

theorem Ending.handle {sig : Signal} {f : Frame} {stack : List Frame}
    (h : Ending ⟨stack, w⟩ above caller pc below) (he : accept sig w = some (w', some f)) :
    Move ⟨stack, w⟩ ⟨f :: stack, w'⟩ (.deliver sig) above caller pc below := by
  obtain ⟨-, hpending, hd⟩ := accept_cases he
  cases hd with
  | handled hd =>
    have hne : sig ≠ .sigalrm := by
      rintro rfl
      cases hd.symm.trans h.ready.sigalrm
    have hshort : Short (handlerOf sig) := by
      cases sig with
      | sigalrm => exact absurd rfl hne
      | sigint => exact .inr rfl
      | sigchld => exact .inl ⟨_, rfl⟩
    have hsignal := signalRank_setPending hpending hne
    refine .goto ⟨congrArg _ h.stack, List.forall_mem_cons.mpr ⟨hshort, h.above⟩, h.below, h.past,
      h.ready.beside (beside_setPending w sig)⟩ (.inl (rank_lt_of_sum rfl ?_))
    simp only [List.map_cons, List.sum_cons]
    omega

/-- A signal is thrown away: it can only be `SIGALRM`. -/
theorem Ending.ignore {sig : Signal} {stack : List Frame}
    (h : Ending ⟨stack, w⟩ above caller pc below) (hc : w.disposition .sigchld = .handler)
    (hi : w.disposition .sigint = .handler) (he : accept sig w = some (w', none)) :
    Move ⟨stack, w⟩ ⟨stack, w'⟩ (.deliver sig) above caller pc below := by
  cases sig with
  | sigint | sigchld => simp [accept, hi, hc] at he
  | sigalrm =>
    obtain ⟨-, -, hd⟩ := accept_cases he
    cases hd with
    | killed hd _ => exact absurd (hd.symm.trans h.ready.sigalrm) (by decide)
    | ignored _ =>
      have hu : Unmoved w (w.setPending .sigalrm false) := ⟨fun _ => rfl, by simp, by simp⟩
      refine .goto ⟨h.stack, h.above, h.below, h.past, h.ready.beside (beside_setPending w _)⟩
        (.inr ⟨hu.rank .., hu.who .., ?_⟩)
      cases who above pc w <;> simp [Helper.helps]

theorem Ending.env {e : EnvEvent} {stack : List Frame}
    (h : Ending ⟨stack, w⟩ above caller pc below) (hb : Books k ⟨stack, w⟩)
    (hq : Quiet (.env e) s) (he : MonitorProgram.env k w e = some w') :
    Move ⟨stack, w⟩ ⟨stack, w'⟩ (.env e) above caller pc below := by
  have hpast (i : Worker) (p : WorkerPc) (hp : w.worker i = .alive p) : pastPid p := by
    have hw := hb.worker i
    simp only [WorkerOk, hp] at hw
    exact hw.1
  obtain ⟨hr, hmove⟩ := h.ready.env hb.processes hpast hq he
  refine .goto ⟨h.stack, h.above, h.below, h.past, hr⟩ ?_
  obtain hleft | ⟨hu, hstop⟩ := hmove
  · exact .inl (rank_lt_of_left hleft rfl (Nat.le_add_right _ _))
  · refine .inr ⟨hu.rank .., hu.who .., ?_⟩
    cases hw : who above pc w with
    | step | tell => simp [Helper.helps]
    | interrupt i =>
      rintro ⟨⟩
      -- A worker that only returns from its handler was interrupted before the wait.
      have hearly : ¬ early pc ≤ 2 := fun hle => by
        have hstop := (h.ready.stop hle).symm.trans (hstop i rfl)
        cases hstop
      have hstep : early pc ≠ 0 := by omega
      rw [who, if_pos (.inl hstep)] at hw
      cases hw

theorem Ending.move (h : Ending s above caller pc below) (hb : Books k s)
    (hi : s.world.disposition .sigint = .handler) (hq : Quiet a s)
    (hn : next (program k) a s = some t) : Move s t a above caller pc below := by
  cases next_cases hn with
  | goto he => exact h.goto hb he
  | ret he => exact h.ret hb he
  | handle _ he => exact h.handle he
  | ignore _ he => exact h.ignore hb.sigchld hi he
  | env he => exact h.env hb hq he

theorem exec_isSome_iff {f : Frame} {c : Choice} :
    (execFrame k f c w).isSome ↔ w.exited = false ∧ f ≠ .do_monitor_work .suspended := by
  unfold execFrame
  cases hx : w.exited with
  | true => simp
  | false =>
    cases f with
    | do_monitor_work pc =>
      rcases he : do_monitor_work k c w pc with ⟨v, n⟩
      have hn : n = .wait ↔ pc = .suspended := by
        cases do_monitor_work_cases he <;> simp
      cases n <;> simp_all
    | monitor_interrupt pc =>
      rcases he : monitor_interrupt k c w pc with ⟨v, _ | _ | _⟩ <;> simp [he]
    | child_handler pc => rcases he : child_handler k c w pc with ⟨v, _ | _⟩ <;> simp [he]
    | stop_handler caller pc =>
      rcases he : MonitorProgram.stop_handler k w pc with ⟨v, _ | _⟩ <;> simp [he]

theorem step_possible (h : Ending s above caller pc below) (c : Choice) :
    (next (program k) (.step c) s).isSome := by
  obtain ⟨stack, w⟩ := s
  obtain rfl : stack = _ := h.stack
  cases above with
  | nil =>
    simp only [List.nil_append, next, program_exec, Option.isSome_map]
    exact exec_isSome_iff.mpr ⟨h.ready.running, by simp⟩
  | cons f above =>
    simp only [List.cons_append, next, program_exec, Option.isSome_map]
    refine exec_isSome_iff.mpr ⟨h.ready.running, ?_⟩
    obtain ⟨cpc, rfl⟩ | rfl := h.above f List.mem_cons_self <;> simp

theorem tell_possible (h : Ending s above caller pc below) (hc : childPc s.stack = none)
    (hd : s.world.disposition .sigchld = .handler) (hp : s.world.pending .sigchld = true) :
    (next (program k) (.deliver .sigchld) s).isSome := by
  obtain ⟨stack, w⟩ := s
  have hb : ¬ Blocked (program k) stack .sigchld := by
    intro hm
    obtain ⟨f, hf, hsig⟩ := List.mem_map.mp hm
    obtain ⟨cpc, rfl⟩ := eq_child_handler hsig
    exact not_mem_of_childPc hc cpc hf
  have ha : (program k).accept .sigchld w =
      some (w.setPending .sigchld false, some (handlerOf .sigchld)) := by
    have hx : w.exited = false := h.ready.running
    have hp : w.pending .sigchld = true := hp
    have hd : w.disposition .sigchld = .handler := hd
    simp [program, accept, hx, hp, hd]
  simp [next, hb, ha]

theorem alive_of_told (h : WorkerOk k w none i) (hp : w.pending .sigchld = false)
    (hg : w.worker i ≠ .reaped .gather_periodic_stats) :
    phase w i = 0 ∨ phase w i = 3 ∧ ∃ p, w.worker i = .alive p := by
  cases hw : w.worker i with
  | unborn => simp [WorkerOk, hw] at h
  | alive p => exact .inr ⟨by simp [phase, hw], p, rfl⟩
  | zombie => simp [WorkerOk, hw, hp] at h
  | reaped who =>
    cases who with
    | gather_periodic_stats => exact absurd hw hg
    | child_handler =>
      simp only [WorkerOk, hw, reduceCtorEq, false_and, exists_false, and_false, false_or] at h
      exact .inl ((phase_eq_zero (k := k) (c := none) (by simpa [WorkerOk, hw] using h)).mpr h.1)

theorem Ending.possible (h : Ending s above caller pc below) (hb : Books k s)
    (hg : ∀ i, s.world.worker i ≠ .reaped .gather_periodic_stats) :
    ∃ a, (who above pc s.world).helps s a ∧ Quiet a s ∧ (next (program k) a s).isSome := by
  have hchild : childPc s.stack = childPc above := by
    rw [h.stack, childPc_ending above h.below]
  by_cases hstep : early pc ≠ 0 ∨ childPc above ≠ none ∨ left s.world = 0
  · rw [who, if_pos hstep]
    exact ⟨.step {}, ⟨_, rfl⟩, trivial, step_possible h {}⟩
  · rw [who, if_neg hstep]
    push Not at hstep
    obtain ⟨hearly, hnone, hleft⟩ := hstep
    cases hp : s.world.pending .sigchld with
    | true => exact ⟨_, rfl, trivial, tell_possible h (hchild.trans hnone) hb.sigchld hp⟩
    | false =>
      have hone (i : Worker) := alive_of_told (hchild.trans hnone ▸ hb.worker i) hp (hg i)
      have hinterrupt {i : Worker} {p : WorkerPc} (hi : s.world.worker i = .alive p) :
          (next (program k) (.env (.interrupt i)) s).isSome := by
        have htold := h.ready.told i p (by omega) hi
        simp [next, program, MonitorProgram.env, hi, htold]
      by_cases hping : phase s.world .ping = 3
      · obtain hzero | ⟨-, p, hi⟩ := hone .ping
        · omega
        · exact ⟨.env (.interrupt .ping), by simp [hping, Helper.helps], trivial, hinterrupt hi⟩
      · obtain hzero | ⟨-, p, hi⟩ := hone .pong
        · have hzero' := (hone .ping).resolve_right fun h => hping h.1
          exact absurd (by rw [left, hzero, hzero']) hleft
        · exact ⟨.env (.interrupt .pong), by simp [hping, Helper.helps], trivial, hinterrupt hi⟩

theorem nested_of_reachable (h : Reachable (monitor k) s) : Nested s :=
  h.invariant (I := Nested) (fun _ => nested_of_setUp) fun _ _ _ hs hn => hs.step hn

theorem sigint_of_reachable (h : Reachable (monitor k) s)
    (hs : .stop_handler caller pc ∈ s.stack) : s.world.disposition .sigint = .handler := by
  have hinv : Holds _ SignalsOk HandlersOk s := (signals_invariant (k := k)).reachable ?_ h
  · exact hinv.frame _ hs
  · intro t ht
    refine ⟨(books_of_setUp ht).distinct, ⟨fun _ => ht.sigint, fun htimer => ?_, fun hp => ?_⟩, ?_⟩
    · rw [ht.timer, decide_eq_true_eq] at htimer
      rw [ht.sigalrm, if_neg htimer]
      nofun
    · rw [ht.pending] at hp
      cases hp
    · rw [ht.stack]
      exact List.forall_mem_singleton.mpr ht.sigint

theorem Ending.mem (h : Ending s above caller pc below) : .stop_handler caller pc ∈ s.stack := by
  rw [h.stack]
  exact List.mem_append_right _ List.mem_cons_self

/-- Nobody but `child_handler` reaps a worker any more. -/
theorem Ending.fate (h : Ending s above caller pc below) (hb : Books k s)
    (hn : next (program k) a s = some t) (i : Worker) :
    Fate False (s.world.worker i) (t.world.worker i) := by
  have hexec {f : Frame} {rest : List Frame} {c : Choice} {w w' : World} {o : Option Frame}
      (h : Ending ⟨f :: rest, w⟩ above caller pc below) (hb : Books k ⟨f :: rest, w⟩)
      (he : execFrame k f c w = some (w', o)) : Fate False (w.worker i) (w'.worker i) := by
    have hf : ¬ Gathers k i f := by
      cases above with
      | nil =>
        obtain ⟨rfl, -⟩ := List.cons.inj h.stack
        exact id
      | cons g above =>
        obtain ⟨rfl, -⟩ := List.cons.inj h.stack
        obtain ⟨cpc, rfl⟩ | rfl := h.above f List.mem_cons_self <;> exact id
    have hfate := (execFrame_fate (hb.afterSetup f List.mem_cons_self) he).1 i
    rwa [eq_false hf] at hfate
  cases next_cases hn with
  | goto he | ret he => exact hexec h hb he
  | handle _ he | ignore _ he => exact .of_eq (congrFun (accept_worker he).1 i)
  | env he => exact ((env_around hb.processes he).worker i).fate

/-- What is left to do until the process exits. -/
def response (k : Setting) :
    Response (later (monitor k) Quiet) Helper.helps fun s => s.world.exited = true where
  work h n s := (∀ i, s.world.worker i ≠ .reaped .gather_periodic_stats) ∧
    ∃ above caller pc below, Ending s above caller pc below ∧ who above pc s.world = h ∧
      rank above pc s.world = n
  possible := by
    rintro s _ _ hr ⟨hg, above, caller, pc, below, h, rfl, -⟩
    obtain ⟨a, ha, hq, hs⟩ := h.possible (books_of_reachable (reachable_of_later hr)) hg
    obtain ⟨t, ht⟩ := Option.isSome_iff_exists.mp hs
    exact ⟨a, ha, Option.isSome_iff_exists.mpr ⟨t, restrict_next.mpr ⟨hq, ht⟩⟩⟩
  step := by
    rintro s t a _ _ hr ⟨hg, above, caller, pc, below, h, rfl, rfl⟩ hn
    obtain ⟨hq, hn⟩ := restrict_next.mp hn
    have hr := reachable_of_later hr
    have hb := books_of_reachable hr
    have hg' (i : Worker) (hi : t.world.worker i = .reaped .gather_periodic_stats) : False := by
      obtain hi | ⟨hf, -⟩ := (h.fate hb hn i).gathered hi
      · exact hg i hi
      · exact hf
    cases h.move hb (sigint_of_reachable hr h.mem) hq hn with
    | exit hx _ => exact .inl hx
    | @goto above' pc' h' hrank =>
      obtain hlt | ⟨hrank, hwho, ha⟩ := hrank
      · exact .inr (.inl ⟨_, _, hlt, hg', above', caller, pc', below, h', rfl, rfl⟩)
      · exact .inr (.inr ⟨⟨hg', above', caller, pc', below, h', hwho, hrank⟩, ha⟩)

theorem ending_of_ignoreAlarm {c : Choice} (hr : Reachable (monitor k) s)
    (hstack : s.stack = .stop_handler caller .ignoreAlarm :: below) (hbelow : childPc below = none)
    (hn : next (program k) (.step c) s = some t) :
    Ending t [] caller .stopTimer below ∧ t.world.worker = s.world.worker := by
  obtain ⟨stack, w⟩ := s
  obtain rfl : stack = _ := hstack
  have hv : w.visited ≠ 0 :=
    (nested_of_reachable hr).entered.mpr ⟨_, List.mem_cons_self, nofun, nofun⟩
  have hstart (hx : w.exited = false) :
      Ready (w.sigaction .sigalrm .ignore) .stopTimer :=
    ⟨hv, by simp, hx, nofun, fun i _ hle => absurd hle (by cases i <;> decide), nofun⟩
  cases next_cases hn with
  | goto he =>
    rw [program_exec] at he
    obtain ⟨hx, hf⟩ := execFrame_cases he
    cases hf with
    | stop hs =>
      cases stop_handler_cases hs with
      | ignoreAlarm => exact ⟨⟨rfl, nofun, hbelow, ⟨nofun, nofun, nofun⟩, hstart hx⟩, rfl⟩
    | stopMainRet hs => cases stop_handler_cases hs
  | ret he =>
    rw [program_exec] at he
    cases (execFrame_cases he).2 with
    | stopRet hs _ => cases stop_handler_cases hs

/-- For a worker that a tick has reaped `stop_handler` waits for ever. -/
theorem Ending.gathered (h : Ending s above caller pc below) (hr : Reachable (monitor k) s)
    (hi : s.world.worker i = .reaped .gather_periodic_stats) (hq : Quiet a s)
    (hn : next (program k) a s = some t) :
    t.world.worker i = .reaped .gather_periodic_stats ∧
      ∃ above' pc', Ending t above' caller pc' below := by
  have hb := books_of_reachable hr
  have hi' := (h.fate hb hn i).reaped hi
  refine ⟨hi', ?_⟩
  cases h.move hb (sigint_of_reachable hr h.mem) hq hn with
  | goto h' _ => exact ⟨_, _, h'⟩
  | exit _ hdead =>
    have hw := (hb.step hn).worker i
    simp only [WorkerOk, hi'] at hw
    exact absurd (hw.symm.trans (hdead i)) (k.child_ne_neg_one i)

/-- Once `stop_handler` has given up `SIGALRM`, and does not suspend `child_handler`, and nobody
sends the monitor signals any more, the process comes to its end if and only if no worker has
been reaped by a tick. -/
theorem ends_iff (e : Execution (monitor k)) {n : Nat} {c : Choice}
    (hstack : (e.state n).stack = .stop_handler caller .ignoreAlarm :: below)
    (hevent : e.event n = some (.step c)) (hbelow : ∀ cpc, .child_handler cpc ∉ below)
    (hquiet : ∀ m a, n < m → e.event m = some a → Quiet a (e.state m))
    (hfair : ∀ h : Helper, e.Fair h.helps) :
    (∃ m, n < m ∧ (e.state m).world.exited = true) ↔
      ∀ i, (e.state n).world.worker i ≠ .reaped .gather_periodic_stats := by
  have hnext : next (program k) (.step c) (e.state n) = some (e.state (n + 1)) := by
    obtain ⟨hnone, -⟩ | ⟨a, ha, hs⟩ := e.cases n
    · simp [hnone] at hevent
    · obtain rfl := Option.some.inj (ha.symm.trans hevent)
      exact hs
  have hnone : childPc below = none := childPc_eq_none fun f hf hsig => by
    obtain ⟨cpc, rfl⟩ := eq_child_handler hsig
    exact hbelow cpc hf
  obtain ⟨hend, hworker⟩ := ending_of_ignoreAlarm (e.reachable n) hstack hnone hnext
  constructor
  · rintro ⟨m, hm, hx⟩ i hi
    have hstuck : ∀ m, n + 1 ≤ m → (e.state m).world.worker i = .reaped .gather_periodic_stats ∧
        ∃ above pc, Ending (e.state m) above caller pc below := by
      intro m hm
      induction m, hm using Nat.le_induction with
      | base => exact ⟨hworker ▸ hi, _, _, hend⟩
      | succ m hm ih =>
        obtain ⟨hi, above, pc, h⟩ := ih
        obtain ⟨-, hs⟩ | ⟨a, ha, hs⟩ := e.cases m
        · exact hs ▸ ⟨hi, above, pc, h⟩
        · exact h.gathered (e.reachable m) hi (hquiet m a hm ha) hs
    obtain ⟨-, above, pc, h⟩ := hstuck m hm
    exact absurd (h.ready.running.symm.trans hx) nofun
  · intro hg
    have hquiet' : ∀ m a, n + 1 ≤ m → e.event m = some a → Quiet a (e.state m) := hquiet
    have hwork : (response k).work (who [] .stopTimer (e.state (n + 1)).world)
        (rank [] .stopTimer (e.state (n + 1)).world) (e.state (n + 1)) :=
      ⟨fun i => hworker ▸ hg i, [], caller, .stopTimer, below, hend, rfl, rfl⟩
    obtain ⟨m, -, hx⟩ := (response k).eventually (e.after (n + 1) Quiet hquiet')
      (fun h => (hfair h).after hquiet') (n := 0) hwork
    exact ⟨n + 1 + m, by omega, hx⟩

theorem step_isSome_iff {c c' : Choice} : (next (program k) (.step c) s).isSome ↔
    (next (program k) (.step c') s).isSome := by
  obtain ⟨stack, w⟩ := s
  cases stack with
  | nil => rfl
  | cons f rest =>
    simp only [next, program_exec, Option.isSome_map, exec_isSome_iff]

def others : List MonitorEvent :=
  [.deliver .sigchld, .env (.die .ping), .env (.interrupt .ping), .env (.interrupt .pong)]

def oneByOne : Execution (monitor (.ofModes .fork .tcp)) :=
  schedule _ (setUp_setUpState (by decide)) (turns (.step {}) others)

theorem oneByOne_fair (h : Helper) : oneByOne.Fair h.helps := by
  cases h with
  | tell => exact turns_fair _ (by decide)
  | interrupt i => exact turns_fair _ (by cases i <;> decide)
  | step =>
    refine schedule_fair _ fun n => ⟨5 * n, by omega, fun s => ?_⟩
    rintro ⟨_, ⟨c, rfl⟩, hs⟩
    have hturn : turns (.step {}) others (5 * n) s = .step {} := by simp [turns, others]
    rw [hturn]
    exact ⟨⟨_, rfl⟩, step_isSome_iff.mp hs⟩

/-- Ping dies, and the monitor stops pong and exits. -/
theorem ends_iff_die : (∃ m, 90 < m ∧ (oneByOne.state m).world.exited = true) ↔
    ∀ i, (oneByOne.state 90).world.worker i ≠ .reaped .gather_periodic_stats := by
  have hstack : (oneByOne.state 90).stack = [.stop_handler .main .ignoreAlarm] := by
    decide +kernel
  have hevent : oneByOne.event 90 = some (.step {}) := by decide +kernel
  refine ends_iff oneByOne hstack hevent nofun (fun m a _ ha => ?_) oneByOne_fair
  have hmem : a ∈ .step {} :: others := by
    obtain ⟨-, hturn⟩ := Option.ite_none_right_eq_some.mp ha
    exact Option.some.inj hturn ▸ List.get_mem _ _
  simp only [others, List.mem_cons, List.not_mem_nil, or_false] at hmem
  obtain rfl | rfl | rfl | rfl | rfl := hmem <;> trivial

end PingPong.MonitorEnding
