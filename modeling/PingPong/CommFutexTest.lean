import Mathlib.Data.BitVec
import Mathlib.Data.Finset.Insert
import PingPong.MonitorState
import PingPong.TransitionSystem
import PingPong.Workers

namespace PingPong.CommFutexTest

open MonitorState (Worker)
open TransitionSystem

structure World where
  futex_value : Int
  waiters : Finset Worker
  ping_count : BitVec 64

/-- `FUTEX_WAKE`, and the number of waiters woken. One can be woken even where none is asked for. -/
def futex_wake (pick : Option Worker) (w : World) : Option (World × Int) :=
  match pick with
  | none => some (w, 0)
  | some j => if j ∈ w.waiters then some ({ w with waiters := w.waiters.erase j }, 1) else none

/-- A point of a loop. A worker waits while the word is `val`. -/
inductive Pc
  | count
  | wake
  | wait (val : Int)
  | asleep (val : Int)
deriving DecidableEq, Repr

/-- `while (syscall(SYS_futex, futex_value, FUTEX_WAIT, val, NULL, NULL, NULL) != 1)`, and then on
to `next`. -/
def waited (val ret : Int) (next : Pc) : Pc := if ret ≠ 1 then .wait val else next

/-- `FUTEX_WAIT` fails at once when the word is not the value expected, else it enqueues the
caller, and returns 0 when a wake has dequeued it. -/
def waitLoop (thread_num : Worker) (next : Int → Pc) (w : World) : Pc → Option (World × Pc)
  | .wait val =>
    if w.futex_value ≠ val then some (w, waited val (-1) (next val))
    else some ({ w with waiters := insert thread_num w.waiters }, .asleep val)
  | .asleep val => if thread_num ∈ w.waiters then none else some (w, waited val 0 (next val))
  | _ => none

def number : Worker → Int
  | .ping => 0
  | .pong => 1

def passed (thread_num : Worker) (val : Int) : Pc :=
  match thread_num with
  | .ping => .count
  | .pong => if val = number thread_num.other then .wait (number thread_num)
    else .wait (number thread_num.other)

def comm_ping_futex_test (thread_num : Worker) (pick : Option Worker) (w : World) :
    Pc → Option (World × Pc)
  | .count => some ({ w with ping_count := w.ping_count + 1 }, .wake)
  | .wake => (futex_wake pick w).map fun (w, ret) =>
    -- `!(ret) != 1`, which is true of every answer but 0
    (w, if (if ret = 0 then 1 else 0) ≠ 1 then .wake else .wait (number thread_num.other))
  | pc => waitLoop thread_num (passed thread_num) w pc

def comm_pong_futex_test (thread_num : Worker) (w : World) : Pc → Option (World × Pc) :=
  waitLoop thread_num (passed thread_num) w

def do_thread_work (pick : Option Worker) : Worker → World → Pc → Option (World × Pc)
  | .ping => comm_ping_futex_test .ping pick
  | .pong => comm_pong_futex_test .pong

abbrev State := Workers Pc World

def start : State where
  pc
    | .ping => .count
    | .pong => .wait 0
  world := ⟨0, ∅, 0⟩

/-- A step of a worker, with the waiter that a `FUTEX_WAKE` picks, and a signal that interrupts a
`FUTEX_WAIT`. -/
inductive Event
  | step (who : Worker) (pick : Option Worker)
  | interrupt (who : Worker)
deriving DecidableEq, Repr

def next : Event → State → Option State
  | .step who pick, s =>
    (do_thread_work pick who s.world (s.pc who)).map fun r => s.move who r.2 r.1
  | .interrupt who, s =>
    match s.pc who with
    | .asleep val =>
      if who ∈ s.world.waiters then
        some (s.move who (waited val (-1) (passed who val))
          { s.world with waiters := s.world.waiters.erase who })
      else none
    | _ => none

def system : System State Event := ⟨(· = start), next⟩

inductive Step : Event → State → State → Prop
  | count {s pick} (h : s.pc .ping = .count) :
      Step (.step .ping pick) s
        (s.move .ping .wake { s.world with ping_count := s.world.ping_count + 1 })
  | wakeNone {s} (h : s.pc .ping = .wake) :
      Step (.step .ping none) s (s.move .ping (.wait 1) s.world)
  | wake {s j} (h : s.pc .ping = .wake) (hj : j ∈ s.world.waiters) :
      Step (.step .ping (some j)) s
        (s.move .ping .wake { s.world with waiters := s.world.waiters.erase j })
  | fail {s i val pick} (h : s.pc i = .wait val) (hw : s.world.futex_value ≠ val) :
      Step (.step i pick) s (s.move i (.wait val) s.world)
  | sleep {s i val pick} (h : s.pc i = .wait val) (hw : s.world.futex_value = val) :
      Step (.step i pick) s
        (s.move i (.asleep val) { s.world with waiters := insert i s.world.waiters })
  | woken {s i val pick} (h : s.pc i = .asleep val) (hi : i ∉ s.world.waiters) :
      Step (.step i pick) s (s.move i (.wait val) s.world)
  | interrupt {s i val} (h : s.pc i = .asleep val) (hi : i ∈ s.world.waiters) :
      Step (.interrupt i) s
        (s.move i (.wait val) { s.world with waiters := s.world.waiters.erase i })

variable {s t : State} {e : Event} {tr : List Event}

theorem waited_eq {val ret : Int} {next : Pc} (h : ret ≠ 1) : waited val ret next = .wait val :=
  if_pos h

theorem waitLoop_step {i : Worker} {pick : Option Worker} {f : Int → Pc} {r : World × Pc}
    (h : waitLoop i f s.world (s.pc i) = some r) : Step (.step i pick) s (s.move i r.2 r.1) := by
  cases hpc : s.pc i with
  | count | wake => simp [waitLoop, hpc] at h
  | wait val =>
    rw [hpc, waitLoop] at h
    split_ifs at h with hw
    · obtain rfl := Option.some.inj h
      rw [waited_eq (by decide)]
      exact .fail hpc hw
    · obtain rfl := Option.some.inj h
      exact .sleep hpc (not_not.mp hw)
  | asleep val =>
    rw [hpc, waitLoop, Option.ite_none_left_eq_some] at h
    obtain ⟨hi, hr⟩ := h
    obtain rfl := Option.some.inj hr
    rw [waited_eq (by decide)]
    exact .woken hpc hi

theorem next_cases (h : next e s = some t) : Step e s t := by
  cases e with
  | interrupt i =>
    rw [next] at h
    split at h
    next val hpc =>
      rw [Option.ite_none_right_eq_some] at h
      obtain ⟨hi, ht⟩ := h
      obtain rfl := Option.some.inj ht
      rw [waited_eq (by decide)]
      exact .interrupt hpc hi
    next => cases h
  | step i pick =>
    obtain ⟨r, hr, rfl⟩ := Option.map_eq_some_iff.mp h
    cases i with
    | pong => exact waitLoop_step hr
    | ping =>
      cases hpc : s.pc .ping with
      | count =>
        simp only [do_thread_work, comm_ping_futex_test, hpc, Option.some_inj] at hr
        obtain rfl := hr
        exact .count hpc
      | wake =>
        simp only [do_thread_work, comm_ping_futex_test, hpc] at hr
        obtain ⟨⟨w, ret⟩, hw, rfl⟩ := Option.map_eq_some_iff.mp hr
        cases pick with
        | none =>
          obtain ⟨rfl, rfl⟩ := Prod.mk.inj (Option.some.inj hw)
          exact .wakeNone hpc
        | some j =>
          rw [futex_wake, Option.ite_none_right_eq_some] at hw
          obtain ⟨hj, hw⟩ := hw
          obtain ⟨rfl, rfl⟩ := Prod.mk.inj (Option.some.inj hw)
          exact .wake hpc hj
      | wait val | asleep val =>
        refine waitLoop_step (f := passed .ping) ?_
        simpa only [do_thread_work, comm_ping_futex_test, hpc] using hr

/-- The word is never changed, so ping never sleeps, and no answer lets a worker pass. -/
structure Stuck (s : State) : Prop where
  word : s.world.futex_value = 0
  ping : s.pc .ping = .count ∧ s.world.ping_count = 0 ∨
    (s.pc .ping = .wake ∨ s.pc .ping = .wait 1) ∧ s.world.ping_count = 1
  pong : s.pc .pong = .wait 0 ∨ s.pc .pong = .asleep 0
  waiters : ∀ i ∈ s.world.waiters, s.pc i = .asleep 0

theorem stuck_start : Stuck start := ⟨rfl, .inl ⟨rfl, rfl⟩, .inl rfl, nofun⟩

theorem Stuck.ping_ne_asleep (hs : Stuck s) (val : Int) : s.pc .ping ≠ .asleep val := by
  obtain ⟨hpc, -⟩ | ⟨hpc | hpc, -⟩ := hs.ping <;> simp [hpc]

theorem Stuck.pong_value (hs : Stuck s) {val : Int}
    (h : s.pc .pong = .wait val ∨ s.pc .pong = .asleep val) : val = 0 := by
  obtain hpc | hpc := hs.pong <;> simpa [hpc, eq_comm] using h

theorem Stuck.ping_not_mem (hs : Stuck s) : .ping ∉ s.world.waiters :=
  fun h => hs.ping_ne_asleep 0 (hs.waiters .ping h)

theorem Stuck.move_ping (hs : Stuck s) {pc : Pc} {w : World}
    (hword : w.futex_value = s.world.futex_value) (hpc : pc = .wake ∨ pc = .wait 1)
    (hcount : w.ping_count = 1) (hw : w.waiters ⊆ s.world.waiters) : Stuck (s.move .ping pc w) where
  word := hword.trans hs.word
  ping := .inr ⟨by rwa [Workers.move_pc_self], hcount⟩
  pong := by
    rw [Workers.move_ping_pong]
    exact hs.pong
  waiters
    | .ping, h => absurd (hw h) hs.ping_not_mem
    | .pong, h => by
      rw [Workers.move_ping_pong]
      exact hs.waiters .pong (hw h)

theorem Stuck.move_pong (hs : Stuck s) {pc : Pc} (hpc : pc = .wait 0 ∨ pc = .asleep 0)
    {waiters : Finset Worker} (hping : .ping ∉ waiters) (hpong : .pong ∈ waiters → pc = .asleep 0) :
    Stuck (s.move .pong pc { s.world with waiters := waiters }) where
  word := hs.word
  ping := by
    rw [Workers.move_pong_ping]
    exact hs.ping
  pong := by rwa [Workers.move_pc_self]
  waiters
    | .ping, h => absurd h hping
    | .pong, h => by rw [Workers.move_pc_self, hpong h]

theorem Stuck.step (hs : Stuck s) (h : next e s = some t) : Stuck t := by
  have hping := hs.ping
  cases next_cases h with
  | count hpc =>
    obtain ⟨-, hcount⟩ | ⟨hpc' | hpc', -⟩ := hping
    · exact hs.move_ping rfl (.inl rfl) (by simp [hcount]) subset_rfl
    all_goals simp [hpc'] at hpc
  | wakeNone hpc =>
    obtain ⟨hpc', -⟩ | ⟨-, hcount⟩ := hping
    · simp [hpc'] at hpc
    · exact hs.move_ping rfl (.inr rfl) hcount subset_rfl
  | wake hpc hj =>
    obtain ⟨hpc', -⟩ | ⟨-, hcount⟩ := hping
    · simp [hpc'] at hpc
    · exact hs.move_ping rfl (.inl rfl) hcount (Finset.erase_subset _ _)
  | fail hpc hw =>
    rw [← hpc, Workers.move_self]
    exact hs
  | @sleep _ i val _ hpc hw =>
    obtain rfl : val = 0 := hw.symm.trans hs.word
    cases i with
    | ping =>
      obtain ⟨hpc', -⟩ | ⟨hpc' | hpc', -⟩ := hping <;> simp [hpc'] at hpc
    | pong => exact hs.move_pong (.inr rfl) (by simpa using hs.ping_not_mem) fun _ => rfl
  | @woken _ i val _ hpc hi =>
    cases i with
    | ping => exact absurd hpc (hs.ping_ne_asleep val)
    | pong =>
      obtain rfl := hs.pong_value (.inr hpc)
      exact hs.move_pong (.inl rfl) hs.ping_not_mem fun h => absurd h hi
  | @interrupt _ i val hpc hi =>
    cases i with
    | ping => exact absurd hpc (hs.ping_ne_asleep val)
    | pong =>
      obtain rfl := hs.pong_value (.inr hpc)
      exact hs.move_pong (.inl rfl) (fun h => hs.ping_not_mem (Finset.mem_of_mem_erase h))
        fun h => absurd h (Finset.notMem_erase _ _)

theorem stuck_of_reachable (h : Reachable system s) : Stuck s := by
  refine h.invariant (fun s hs => ?_) fun s e t hs hn => hs.step hn
  obtain rfl : s = start := hs
  exact stuck_start

theorem Stuck.runnable (hs : Stuck s) : ∃ t, next (.step .ping none) s = some t := by
  obtain ⟨hpc, -⟩ | ⟨hpc | hpc, -⟩ := hs.ping
  · exact ⟨_, by rw [next, hpc]; rfl⟩
  · exact ⟨_, by rw [next, hpc]; rfl⟩
  · have hval : (0 : Int) ≠ 1 := by decide
    refine ⟨s.move .ping (.wait 1) s.world, ?_⟩
    rw [next, hpc]
    simp [do_thread_work, comm_ping_futex_test, waitLoop, hs.word, waited]

theorem Stuck.next_eq (hs : Stuck s) (hping : s.pc .ping = .wait 1)
    (hpong : .pong ∈ s.world.waiters) (he : e ≠ .interrupt .pong) (h : next e s = some t) :
    t = s := by
  cases next_cases h with
  | count hpc | wakeNone hpc | wake hpc _ => simp [hping] at hpc
  | fail hpc hw => rw [← hpc, Workers.move_self]
  | @sleep _ i val _ hpc hw =>
    cases i with
    | ping =>
      obtain rfl : 1 = val := Pc.wait.inj (hping.symm.trans hpc)
      rw [hs.word] at hw
      cases hw
    | pong => simp [hs.waiters .pong hpong] at hpc
  | @woken _ i val _ hpc hi =>
    cases i with
    | ping => exact absurd hpc (hs.ping_ne_asleep val)
    | pong => exact absurd hpong hi
  | @interrupt _ i val hpc hi =>
    cases i with
    | ping => exact absurd hpc (hs.ping_ne_asleep val)
    | pong => exact absurd rfl he

theorem exec_eq (hs : Stuck s) (hping : s.pc .ping = .wait 1) (hpong : .pong ∈ s.world.waiters)
    (htr : .interrupt .pong ∉ tr) (h : exec next tr s = some t) : t = s := by
  induction tr with
  | nil => exact (Option.some.inj h).symm
  | cons e tr ih =>
    obtain ⟨he, htr⟩ := not_or.mp (List.mem_cons.not.mp htr)
    obtain ⟨u, hu, ht⟩ := Option.bind_eq_some_iff.mp h
    obtain rfl := hs.next_eq hping hpong (Ne.symm he) hu
    exact ih htr ht

/-- No run of the mode makes an exchange. Ping counts once and is never blocked after, pong does
not get past its first wait, and when ping has found nobody to wake and pong sleeps, nothing
changes any more unless a signal interrupts pong. -/
theorem never_passes (h : Reachable system s) :
    s.world.ping_count = (if s.pc .ping = .count then 0 else 1) ∧
    (s.pc .pong = .wait 0 ∨ s.pc .pong = .asleep 0) ∧
    (∃ t, next (.step .ping none) s = some t) ∧
    (s.pc .ping = .wait 1 → .pong ∈ s.world.waiters → ∀ tr t, .interrupt .pong ∉ tr →
      exec next tr s = some t → t = s) := by
  have hs := stuck_of_reachable h
  refine ⟨?_, hs.pong, hs.runnable, fun hping hpong tr t htr ht => exec_eq hs hping hpong htr ht⟩
  obtain ⟨hpc, hcount⟩ | ⟨hpc | hpc, hcount⟩ := hs.ping <;> simp [hpc, hcount]

/-- Pong is woken once, and goes back to sleep before ping looks again. -/
theorem never_passes_woken : ∃ s : State, s.pc .ping = .wait 1 ∧ s.world.ping_count = 1 ∧
    ∀ tr t, .interrupt .pong ∉ tr → exec next tr s = some t → t = s := by
  obtain ⟨s, hs, hping, hpong⟩ := exists_reachable_of_exec (S := system)
    (p := fun s => s.pc .ping = .wait 1 ∧ .pong ∈ s.world.waiters) rfl
    [.step .pong none, .step .ping none, .step .ping (some .pong), .step .pong none,
      .step .pong none, .step .ping none] (by decide)
  obtain ⟨hcount, -, -, hstuck⟩ := never_passes hs
  exact ⟨s, hping, by simpa [hping] using hcount, hstuck hping hpong⟩

end PingPong.CommFutexTest
