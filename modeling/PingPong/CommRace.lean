import Mathlib.Data.BitVec
import PingPong.MonitorState
import PingPong.TransitionSystem
import PingPong.Workers

namespace PingPong.CommRace

open MonitorState (Worker)
open TransitionSystem

inductive Mode | race1 | race2
deriving DecidableEq, Repr

/-- `counted` says how often each worker has stored a count. -/
structure World where
  race_var : Int
  ping_count : BitVec 64
  counted : Worker → Nat

/-- The increment of the counter is a load and a store. -/
inductive Pc
  | load
  | store (count : BitVec 64)
  | write
deriving DecidableEq, Repr

abbrev Loop := Worker → World → Pc → Option (World × Pc)

def countAndWrite (val : Int) : Loop := fun who w pc => match pc with
  | .load => some (w, .store (w.ping_count + 1))
  | .store count =>
    let counted := Function.update w.counted who (w.counted who + 1)
    some ({ w with ping_count := count, counted := counted }, .write)
  | .write => some ({ w with race_var := val }, .load)

def justWrite (val : Int) : Loop := fun _ w pc => match pc with
  | .write => some ({ w with race_var := val }, .write)
  | _ => none

def comm_ping_race1 : Loop := countAndWrite 1

def comm_ping_race2 : Loop := countAndWrite 1

def comm_pong_race1 : Loop := justWrite 0

def comm_pong_race2 : Loop := countAndWrite 0

def Mode.do_thread_work : Mode → Worker → Loop
  | .race1, .ping => comm_ping_race1
  | .race1, .pong => comm_pong_race1
  | .race2, .ping => comm_ping_race2
  | .race2, .pong => comm_pong_race2

abbrev State := Workers Pc World

def start (m : Mode) : State where
  pc
    | .ping => .load
    | .pong => match m with
      | .race1 => .write
      | .race2 => .load
  world := ⟨0, 0, fun _ => 0⟩

def next (m : Mode) (who : Worker) (s : State) : Option State :=
  (m.do_thread_work who who s.world (s.pc who)).map fun r => s.move who r.2 r.1

def system (m : Mode) : System State Worker := ⟨(· = start m), next m⟩

/-- The counts that are possible after `n` and `k` increments by the two workers: no
increment is lost without another worker, and with one all but two of them can be. -/
structure Possible (n k v : Nat) : Prop where
  alone : n = 0 ∨ k = 0 → v = n + k
  least : min 2 (min n k) ≤ v
  most : v ≤ n + k

variable {m : Mode} {s t : State} {i : Worker}

theorem Possible.symm {n k v : Nat} (h : Possible n k v) : Possible k n v := by
  obtain ⟨alone, least, most⟩ := h
  constructor <;> omega

/-- What is loaded is stored after the other worker has gone on. -/
theorem Possible.store {n k k' v : Nat} (h : Possible n k v) (hk : k ≤ k') :
    Possible (n + 1) k' (v + 1) := by
  obtain ⟨alone, least, most⟩ := h
  constructor <;> omega

structure Counted (s : State) (v : Nat) (loaded : Worker → Nat) : Prop where
  count : s.world.ping_count = .ofNat 64 v
  possible : Possible (s.world.counted .ping) (s.world.counted .pong) v
  store : ∀ i count, s.pc i = .store count → count = .ofNat 64 (loaded i + 1) ∧
    ∃ k ≤ s.world.counted i.other, Possible (s.world.counted i) k (loaded i)

theorem Counted.possible_self {v : Nat} {loaded : Worker → Nat} (h : Counted s v loaded)
    (i : Worker) : Possible (s.world.counted i) (s.world.counted i.other) v := by
  cases i with
  | ping => exact h.possible
  | pong => exact h.possible.symm

inductive Step (m : Mode) (s : State) : State → Prop
  | load {i : Worker} (hi : s.pc i = .load) :
      Step m s (s.move i (.store (s.world.ping_count + 1)) s.world)
  | store {i : Worker} {count} (hi : s.pc i = .store count) : Step m s (s.move i .write
      { s.world with
        ping_count := count
        counted := Function.update s.world.counted i (s.world.counted i + 1) })
  | write {i : Worker} {pc : Pc} {val : Int} (hi : s.pc i = .write) (hpc : pc = .load ∨ pc = .write)
      (hr : m = .race1 → i = .pong → pc = .write) :
      Step m s (s.move i pc { s.world with race_var := val })

theorem next_cases (h : next m i s = some t) : Step m s t := by
  obtain ⟨r, hr, rfl⟩ := Option.map_eq_some_iff.mp h
  have hcount (val : Int) (hm : ¬ (m = .race1 ∧ i = .pong))
      (hc : countAndWrite val i s.world (s.pc i) = some r) : Step m s (s.move i r.2 r.1) := by
    cases hpc : s.pc i with
    | load =>
      obtain rfl : _ = r := by simpa only [countAndWrite, hpc, Option.some.injEq] using hc
      exact .load hpc
    | store count =>
      obtain rfl : _ = r := by simpa only [countAndWrite, hpc, Option.some.injEq] using hc
      exact .store hpc
    | write =>
      obtain rfl : _ = r := by simpa only [countAndWrite, hpc, Option.some.injEq] using hc
      exact .write hpc (.inl rfl) fun h1 h2 => absurd ⟨h1, h2⟩ hm
  cases m with
  | race1 =>
    cases i with
    | ping => exact hcount 1 (by simp) hr
    | pong =>
      cases hpc : s.pc .pong with
      | write =>
        obtain rfl : _ = r := by
          simpa only [Mode.do_thread_work, comm_pong_race1, justWrite, hpc, Option.some.injEq]
            using hr
        exact .write hpc (.inr rfl) fun _ _ => rfl
      | _ => simp [Mode.do_thread_work, comm_pong_race1, justWrite, hpc] at hr
  | race2 =>
    cases i with
    | ping => exact hcount 1 (by simp) hr
    | pong => exact hcount 0 (by simp) hr

theorem counted_start (m : Mode) : Counted (start m) 0 fun _ => 0 where
  count := rfl
  possible := ⟨fun _ => rfl, by simp [start], by simp [start]⟩
  store i count hi := by cases i <;> cases m <;> simp [start] at hi

theorem Counted.load {v : Nat} {loaded : Worker → Nat} (h : Counted s v loaded) :
    Counted (s.move i (.store (s.world.ping_count + 1)) s.world) v
      (Function.update loaded i v) where
  count := h.count
  possible := h.possible
  store j count hj := by
    obtain rfl | rfl := i.eq_or_other j
    · obtain rfl : s.world.ping_count + 1 = count := by simpa using hj
      exact ⟨by simp [h.count, BitVec.ofNat_add], _, le_rfl, by simpa using h.possible_self j⟩
    · simpa using h.store i.other count (by simpa using hj)

theorem Counted.stored {v : Nat} {loaded : Worker → Nat} {count : BitVec 64}
    (h : Counted s v loaded) (hi : s.pc i = .store count) :
    Counted (s.move i .write { s.world with
      ping_count := count
      counted := Function.update s.world.counted i (s.world.counted i + 1) })
      (loaded i + 1) loaded := by
  obtain ⟨hcount, k, hk, hp⟩ := h.store i count hi
  have hnow := hp.store hk
  refine ⟨hcount, ?_, fun j count' hj => ?_⟩
  · cases i with
    | ping => simpa [MonitorState.Worker.other] using hnow
    | pong => simpa [MonitorState.Worker.other] using hnow.symm
  · obtain rfl | rfl := i.eq_or_other j
    · simp at hj
    · obtain ⟨hcount', k', hk', hp'⟩ := h.store i.other count' (by simpa using hj)
      refine ⟨hcount', k', ?_, by simpa using hp'⟩
      simp only [MonitorState.Worker.other_other, Workers.move_world, Function.update_self] at hk' ⊢
      omega

theorem Counted.write {v : Nat} {loaded : Worker → Nat} {pc : Pc} {val : Int}
    (h : Counted s v loaded) (hpc : pc = .load ∨ pc = .write) :
    Counted (s.move i pc { s.world with race_var := val }) v loaded where
  count := h.count
  possible := h.possible
  store j count hj := by
    obtain rfl | rfl := i.eq_or_other j
    · obtain rfl | rfl := hpc <;> simp at hj
    · exact h.store i.other count (by simpa using hj)

theorem exists_counted (h : Reachable (system m) s) : ∃ v loaded, Counted s v loaded := by
  refine h.invariant (I := fun s => ∃ v loaded, Counted s v loaded) ?_ ?_
  · rintro _ rfl
    exact ⟨0, _, counted_start m⟩
  · rintro s i t ⟨v, loaded, hs⟩ hn
    cases next_cases hn with
    | load hi => exact ⟨_, _, hs.load⟩
    | store hi => exact ⟨_, _, hs.stored hi⟩
    | write hi hpc _ => exact ⟨_, _, hs.write hpc⟩

theorem pong_writes (h : Reachable (system .race1) s) :
    s.pc .pong = .write ∧ s.world.counted .pong = 0 := by
  refine h.invariant (I := fun s => s.pc .pong = .write ∧ s.world.counted .pong = 0) ?_ ?_
  · rintro _ rfl
    exact ⟨rfl, rfl⟩
  · rintro s i t ⟨hpc, hc⟩ hn
    cases next_cases hn with
    | @load i hi => cases i <;> simp_all
    | @store i count hi => cases i <;> simp_all
    | @write i pc val hi _ hr => cases i <;> simp_all

def Counts (m : Mode) (i : Worker) : Prop := ∃ val, m.do_thread_work i = countAndWrite val

theorem counts_ping (m : Mode) : Counts m .ping := by
  cases m with
  | race1 => exact ⟨1, rfl⟩
  | race2 => exact ⟨1, rfl⟩

theorem counts_race2 (i : Worker) : Counts .race2 i := by
  cases i with
  | ping => exact ⟨1, rfl⟩
  | pong => exact ⟨0, rfl⟩

theorem reachable_move {val : Int} {r : World × Pc} (hv : m.do_thread_work i = countAndWrite val)
    (hs : Reachable (system m) s) (hr : countAndWrite val i s.world (s.pc i) = some r) :
    Reachable (system m) (s.move i r.2 r.1) := by
  have hn : next m i s = some (s.move i r.2 r.1) := by rw [next, hv, hr, Option.map_some]
  exact hs.next hn

structure Added (s t : State) (i : Worker) (n k v : Nat) : Prop where
  pc : t.pc = s.pc
  ping_count : t.world.ping_count = s.world.ping_count + .ofNat 64 v
  counted : t.world.counted i = s.world.counted i + n
  other : t.world.counted i.other = s.world.counted i.other + k

theorem Added.trans {u : State} {n n' k k' v v' : Nat} (h : Added s t i n k v)
    (h' : Added t u i n' k' v') : Added s u i (n + n') (k + k') (v + v') where
  pc := h'.pc.trans h.pc
  ping_count := by rw [h'.ping_count, h.ping_count, BitVec.ofNat_add, BitVec.add_assoc]
  counted := by rw [h'.counted, h.counted, Nat.add_assoc]
  other := by rw [h'.other, h.other, Nat.add_assoc]

theorem Added.swap {n k v : Nat} (h : Added s t i n k v) : Added s t i.other k n v :=
  ⟨h.pc, h.ping_count, h.other, by simpa using h.counted⟩

theorem store_late (hc : Counts m i) (hs : Reachable (system m) s) (hi : s.pc i = .load)
    {k : Nat} (ho : ∀ u, Reachable (system m) u → u.pc i.other = s.pc i.other →
      ∃ t v, Reachable (system m) t ∧ Added u t i 0 k v) :
    ∃ t, Reachable (system m) t ∧ Added s t i 1 k 1 := by
  obtain ⟨val, hv⟩ := hc
  have hload := reachable_move hv hs (by rw [hi]; rfl)
  obtain ⟨u, v, hu, hadd⟩ := ho _ hload (by simp)
  have hpc : u.pc i = .store (s.world.ping_count + 1) := by simp [hadd.pc]
  have hstore := reachable_move hv hu (by rw [hpc]; rfl)
  have hwrite := reachable_move hv hstore (by simp only [Workers.move_pc_self]; rfl)
  refine ⟨_, hwrite, funext fun j => ?_, rfl, ?_, ?_⟩
  · obtain rfl | rfl := i.eq_or_other j
    · simp [hi]
    · simp [hadd.pc]
  · simp [hadd.counted]
  · simp [hadd.other]

theorem turns (hc : Counts m i) (hs : Reachable (system m) s) (hi : s.pc i = .load) (n : Nat) :
    ∃ t, Reachable (system m) t ∧ Added s t i n 0 n := by
  induction n with
  | zero => exact ⟨s, hs, rfl, by simp, rfl, rfl⟩
  | succ n ih =>
    obtain ⟨t, ht, hst⟩ := ih
    obtain ⟨u, hu, htu⟩ := store_late (k := 0) hc ht (hst.pc ▸ hi)
      fun u hu _ => ⟨u, 0, hu, rfl, by simp, rfl, rfl⟩
    exact ⟨u, hu, hst.trans htu⟩

/-- All that one worker adds is lost when the other one stores what it had loaded before. -/
theorem lost (hi : s.pc i = .load) (ho : s.pc i.other = .load)
    (hs : Reachable (system .race2) s) (k : Nat) :
    ∃ t, Reachable (system .race2) t ∧ Added s t i 1 k 1 := by
  refine store_late (counts_race2 i) hs hi fun u hu hpc => ?_
  obtain ⟨t, ht, hadd⟩ := turns (counts_race2 i.other) hu (hpc.trans ho) k
  have hswap := hadd.swap
  rw [Worker.other_other] at hswap
  exact ⟨t, k, ht, hswap⟩

theorem turns_lost (hi : s.pc i = .load) (ho : s.pc i.other = .load)
    (hs : Reachable (system .race2) s) {p k : Nat} (hk : 0 < k → 0 < p) :
    ∃ t, Reachable (system .race2) t ∧ Added s t i p k p := by
  cases p with
  | zero =>
    obtain rfl : k = 0 := by omega
    exact ⟨s, hs, rfl, by simp, rfl, rfl⟩
  | succ p =>
    obtain ⟨t, ht, hst⟩ := turns (counts_race2 i) hs hi p
    obtain ⟨u, hu, htu⟩ := lost (hst.pc ▸ hi) (hst.pc ▸ ho) ht k
    have hadd := hst.trans htu
    rw [Nat.zero_add] at hadd
    exact ⟨u, hu, hadd⟩

theorem Possible.split {n k v : Nat} (h : Possible n k v) :
    ∃ p q, p ≤ n ∧ q ≤ k ∧ v = p + q ∧ (0 < k - q → 0 < p) ∧ (0 < n - p → 0 < q) := by
  obtain ⟨alone, least, most⟩ := h
  by_cases h0 : n = 0 ∨ k = 0
  · exact ⟨n, k, by omega⟩
  · by_cases h2 : 2 ≤ v
    · exact ⟨min n (v - 1), v - min n (v - 1), by omega⟩
    · by_cases h1 : n = 1
      · exact ⟨1, 0, by omega⟩
      · exact ⟨0, 1, by omega⟩

def Reached (m : Mode) (n k : Nat) (c : BitVec 64) : Prop :=
  ∃ s, Reachable (system m) s ∧ s.world.counted .ping = n ∧ s.world.counted .pong = k ∧
    s.world.ping_count = c

theorem reached_of_added {n k v : Nat} (ht : Reachable (system m) t)
    (h : Added (start m) t .ping n k v) : Reached m n k (.ofNat 64 v) := by
  have hother : t.world.counted .pong = 0 + k := h.other
  exact ⟨t, ht, by simpa [start] using h.counted, by simpa using hother,
    by simpa [start] using h.ping_count⟩

theorem reached_of_possible {n k v : Nat} (h : Possible n k v) :
    Reached .race2 n k (.ofNat 64 v) := by
  have hstart : Reachable (system .race2) (start .race2) := .init rfl
  obtain ⟨p, q, hp, hq, rfl, hping, hpong⟩ := h.split
  obtain ⟨t, ht, hst⟩ := turns_lost (i := .ping) rfl rfl hstart hping
  have hload (j : Worker) : t.pc j = .load := by
    rw [hst.pc]
    cases j <;> rfl
  obtain ⟨u, hu, htu⟩ := turns_lost (hload .pong) (hload _) ht hpong
  have hadd := hst.trans htu.swap
  rw [Nat.add_sub_of_le hp, Nat.sub_add_cancel hq] at hadd
  exact reached_of_added hu hadd

/-- In race1 mode the counter says exactly how often ping has counted. In race2 mode, where
pong counts too, the counts that the counter can show after `n` increments of ping and `k` of
pong are exactly the possible ones: with both at work as few as two, however many there were. -/
theorem race_counts (m : Mode) (n k : Nat) (c : BitVec 64) : Reached m n k c ↔
    (m = .race1 → k = 0) ∧ ∃ v, Possible n k v ∧ c = .ofNat 64 v := by
  constructor
  · rintro ⟨s, hs, rfl, rfl, rfl⟩
    obtain ⟨v, loaded, hv⟩ := exists_counted hs
    refine ⟨?_, v, hv.possible, hv.count⟩
    rintro rfl
    exact (pong_writes hs).2
  · rintro ⟨hm, v, hv, rfl⟩
    cases m with
    | race1 =>
      obtain rfl := hm rfl
      rw [hv.alone (.inr rfl)]
      obtain ⟨t, ht, hadd⟩ := turns (counts_ping .race1) (.init rfl) rfl n
      exact reached_of_added ht hadd
    | race2 => exact reached_of_possible hv

end PingPong.CommRace
