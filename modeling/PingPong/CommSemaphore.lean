import Mathlib.Data.BitVec
import PingPong.MonitorState
import PingPong.TokenRing
import PingPong.Workers

namespace PingPong.CommSemaphore

open MonitorState (Worker)
open TransitionSystem TokenRing

inductive SemMode | sem | busysem
deriving DecidableEq, Repr

inductive Act
  | waited (who : Worker)
  | posted (who : Worker)
deriving DecidableEq, Repr

inductive MonitorPc | setStart | comm_begin | done
deriving DecidableEq, Repr

def SEM_VALUE_MAX : Nat := 2147483647

structure World where
  sems : Fin 2 → Nat
  start : Bool
  monitor : MonitorPc
  ping_count : BitVec 64
  history : List Act

@[simps] def World.down (w : World) (who : Worker) (n : Fin 2) : World :=
  { w with sems := Function.update w.sems n (w.sems n - 1), history := w.history ++ [.waited who] }

@[simps] def World.up (w : World) (who : Worker) (n : Fin 2) : World :=
  { w with sems := Function.update w.sems n (w.sems n + 1), history := w.history ++ [.posted who] }

/-- A call by a worker on one of `sems`, with a flag from the kernel: without it
the call fails, with no effect. -/
abbrev Call := Worker → Fin 2 → Bool → World → Option (World × Int)

/-- It sleeps on a semaphore that is 0, unless it is interrupted. -/
def sem_wait : Call := fun who n ok w =>
  if ok = false then some (w, -1)
  else if w.sems n = 0 then none
  else some (w.down who n, 0)

def sem_trywait : Call := fun who n ok w =>
  if ok = false ∨ w.sems n = 0 then some (w, -1)
  else some (w.down who n, 0)

/-- It fails on a semaphore that is full. -/
def sem_post : Call := fun who n ok w =>
  if ok = false ∨ SEM_VALUE_MAX ≤ w.sems n then some (w, -1)
  else some (w.up who n, 0)

/-- The monitor's `sem_post(sems[0])`, whose result nobody looks at. -/
def do_begin_sem (w : World) : World :=
  { w with sems :=
      if SEM_VALUE_MAX ≤ w.sems 0 then w.sems else Function.update w.sems 0 (w.sems 0 + 1) }

theorem do_begin_sem_room {w : World} (h : w.sems 0 < SEM_VALUE_MAX) :
    (do_begin_sem w).sems = Function.update w.sems 0 (w.sems 0 + 1) :=
  if_neg (not_le.mpr h)

/-- The points of `do_thread_work` from its wait for `run_data->start` on. -/
inductive Pc | await | count | wait | post
deriving DecidableEq, Repr

abbrev Attempt := Bool → World → Option (World × Bool)

def untilEq (call : Bool → World → Option (World × Int)) (value : Int) : Attempt := fun ok w =>
  (call ok w).map fun r => (r.1, r.2 = value)

def whileEq (call : Bool → World → Option (World × Int)) (value : Int) : Attempt := fun ok w =>
  (call ok w).map fun r => (r.1, r.2 ≠ value)

/-- The two retry loops in the loop of a worker, and the wait that leads to its `top`. -/
def loop (top : Pc) (wait post : Attempt) (ok : Bool) (w : World) : Pc → Option (World × Pc)
  | .await => some (w, if w.start ≠ true then .await else top)
  | .count => none
  | .wait => (wait ok w).map fun r => (r.1, if r.2 then .post else .wait)
  | .post => (post ok w).map fun r => (r.1, if r.2 then top else .post)

def pingLoop (wait post : Attempt) (ok : Bool) (w : World) : Pc → Option (World × Pc)
  | .count => some ({ w with ping_count := w.ping_count + 1 }, .wait)
  | pc => loop .count wait post ok w pc

def comm_ping_sem (thread_num : Worker) :=
  pingLoop (untilEq (sem_wait thread_num 0) 0) (untilEq (sem_post thread_num 1) 0)

def comm_pong_sem (thread_num : Worker) :=
  loop .wait (untilEq (sem_wait thread_num 1) 0) (untilEq (sem_post thread_num 0) 0)

def comm_ping_busysem (thread_num : Worker) :=
  pingLoop (whileEq (sem_trywait thread_num 0) (-1)) (untilEq (sem_post thread_num 1) 0)

def comm_pong_busysem (thread_num : Worker) :=
  loop .wait (whileEq (sem_trywait thread_num 1) (-1)) (untilEq (sem_post thread_num 0) 0)

namespace SemMode

def comm_ping : SemMode → Worker → Bool → World → Pc → Option (World × Pc)
  | .sem => comm_ping_sem
  | .busysem => comm_ping_busysem

def comm_pong : SemMode → Worker → Bool → World → Pc → Option (World × Pc)
  | .sem => comm_pong_sem
  | .busysem => comm_pong_busysem

def do_thread_work (m : SemMode) : Worker → Bool → World → Pc → Option (World × Pc)
  | .ping => m.comm_ping .ping
  | .pong => m.comm_pong .pong

end SemMode

abbrev State := Workers Pc World

inductive Event
  | monitor
  | step (who : Worker) (ok : Bool)
deriving DecidableEq, Repr

def start : State := ⟨fun _ => .await, fun _ => 0, false, .setStart, 0, []⟩

def next (m : SemMode) : Event → State → Option State
  | .monitor, s =>
    match s.world.monitor with
    | .setStart => some { s with world.monitor := .comm_begin, world.start := true }
    | .comm_begin => some { s with world := { do_begin_sem s.world with monitor := .done } }
    | .done => none
  | .step who ok, s =>
    (m.do_thread_work who ok s.world (s.pc who)).map fun r => s.move who r.2 r.1

def system (m : SemMode) : System State Event := ⟨(· = start), next m⟩

def num : Worker → Fin 2
  | .ping => 0
  | .pong => 1

def top : Worker → Pc
  | .ping => .count
  | .pong => .wait

theorem top_ne_post (i : Worker) : top i ≠ .post := by cases i <;> decide

@[simp] theorem num_other_ne (i : Worker) : num i.other ≠ num i := by cases i <;> decide

@[simp] theorem num_ne_other (i : Worker) : num i ≠ num i.other := (num_other_ne i).symm

def Waits (i : Worker) (wait : Attempt) : Prop :=
  ∀ ok w r, wait ok w = some r →
    r = (w, false) ∨ w.sems (num i) ≠ 0 ∧ r = (w.down i (num i), true)

def Posts (i : Worker) (post : Attempt) : Prop :=
  ∀ ok w r, post ok w = some r → r = (w, false) ∨
    w.sems (num i.other) < SEM_VALUE_MAX ∧ r = (w.up i (num i.other), true)

theorem waits_sem_wait (i : Worker) : Waits i (untilEq (sem_wait i (num i)) 0) := by
  rintro (_ | _) w r h <;> obtain ⟨q, hq, rfl⟩ := Option.map_eq_some_iff.mp h
  · obtain rfl := Option.some.inj hq
    exact .inl rfl
  · obtain ⟨hn, hq⟩ := Option.ite_none_left_eq_some.mp hq
    obtain rfl := Option.some.inj hq
    exact .inr ⟨hn, rfl⟩

theorem waits_sem_trywait (i : Worker) : Waits i (whileEq (sem_trywait i (num i)) (-1)) := by
  rintro ok w r h
  obtain ⟨q, hq, rfl⟩ := Option.map_eq_some_iff.mp h
  simp only [sem_trywait] at hq
  split at hq <;> obtain rfl := Option.some.inj hq
  · exact .inl rfl
  · rename_i hn
    exact .inr ⟨(not_or.mp hn).2, rfl⟩

theorem posts_sem_post (i : Worker) : Posts i (untilEq (sem_post i (num i.other)) 0) := by
  rintro ok w r h
  obtain ⟨q, hq, rfl⟩ := Option.map_eq_some_iff.mp h
  simp only [sem_post] at hq
  split at hq <;> obtain rfl := Option.some.inj hq
  · exact .inl rfl
  · rename_i hn
    exact .inr ⟨not_le.mp (not_or.mp hn).2, rfl⟩

theorem comm_ping_eq (m : SemMode) : ∃ wait post, m.comm_ping .ping = pingLoop wait post ∧
    Waits .ping wait ∧ Posts .ping post := by
  cases m with
  | sem => exact ⟨_, _, rfl, waits_sem_wait .ping, posts_sem_post .ping⟩
  | busysem => exact ⟨_, _, rfl, waits_sem_trywait .ping, posts_sem_post .ping⟩

theorem comm_pong_eq (m : SemMode) : ∃ wait post, m.comm_pong .pong = loop .wait wait post ∧
    Waits .pong wait ∧ Posts .pong post := by
  cases m with
  | sem => exact ⟨_, _, rfl, waits_sem_wait .pong, posts_sem_post .pong⟩
  | busysem => exact ⟨_, _, rfl, waits_sem_trywait .pong, posts_sem_post .pong⟩

inductive Step : State → State → Prop
  | setStart {s} (h : s.world.monitor = .setStart) :
      Step s { s with world.monitor := .comm_begin, world.start := true }
  | comm_begin {s} (h : s.world.monitor = .comm_begin) :
      Step s { s with world := { do_begin_sem s.world with monitor := .done } }
  | stay {s i} : Step s (s.move i (s.pc i) s.world)
  | enter {s i} (h : s.pc i = .await) : Step s (s.move i (top i) s.world)
  | count {s} (h : s.pc .ping = .count) :
      Step s (s.move .ping .wait { s.world with ping_count := s.world.ping_count + 1 })
  | wait {s i} (h : s.pc i = .wait) (hn : s.world.sems (num i) ≠ 0) :
      Step s (s.move i .post (s.world.down i (num i)))
  | post {s i} (h : s.pc i = .post) (hroom : s.world.sems (num i.other) < SEM_VALUE_MAX) :
      Step s (s.move i (top i) (s.world.up i (num i.other)))

theorem loop_step {s : State} {i : Worker} {wait post : Attempt} {ok : Bool} {r : World × Pc}
    (hw : Waits i wait) (hp : Posts i post)
    (h : loop (top i) wait post ok s.world (s.pc i) = some r) : Step s (s.move i r.2 r.1) := by
  cases hpc : s.pc i with
  | await =>
    rw [hpc] at h
    obtain rfl := Option.some.inj h
    by_cases hs : s.world.start = true
    · simpa [hs] using Step.enter hpc
    · simpa [hs, hpc] using Step.stay (s := s) (i := i)
  | count =>
    rw [hpc] at h
    cases h
  | wait =>
    rw [hpc] at h
    obtain ⟨q, hq, rfl⟩ := Option.map_eq_some_iff.mp h
    obtain rfl | ⟨hn, rfl⟩ := hw _ _ _ hq
    · simpa [hpc] using Step.stay (s := s) (i := i)
    · exact .wait hpc hn
  | post =>
    rw [hpc] at h
    obtain ⟨q, hq, rfl⟩ := Option.map_eq_some_iff.mp h
    obtain rfl | ⟨hroom, rfl⟩ := hp _ _ _ hq
    · simpa [hpc] using Step.stay (s := s) (i := i)
    · exact .post hpc hroom

theorem next_cases {m : SemMode} {e : Event} {s t : State} (h : next m e s = some t) :
    Step s t := by
  cases e with
  | monitor =>
    simp only [next] at h
    split at h
    · rename_i hm
      obtain rfl := Option.some.inj h
      exact .setStart hm
    · rename_i hm
      obtain rfl := Option.some.inj h
      exact .comm_begin hm
    · cases h
  | step i ok =>
    obtain ⟨r, hr, rfl⟩ := Option.map_eq_some_iff.mp h
    cases i with
    | ping =>
      obtain ⟨wait, post, he, hw, hp⟩ := comm_ping_eq m
      rw [SemMode.do_thread_work, he] at hr
      by_cases hc : s.pc .ping = .count
      · rw [hc] at hr
        obtain rfl := Option.some.inj hr
        exact .count hc
      · have hl : pingLoop wait post ok s.world (s.pc .ping) =
            loop .count wait post ok s.world (s.pc .ping) := by
          cases hpc : s.pc .ping <;> first | rfl | exact absurd hpc hc
        exact loop_step hw hp (hl ▸ hr)
    | pong =>
      obtain ⟨wait, post, he, hw, hp⟩ := comm_pong_eq m
      rw [SemMode.do_thread_work, he] at hr
      exact loop_step hw hp hr

end PingPong.CommSemaphore
