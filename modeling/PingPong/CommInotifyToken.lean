import PingPong.CommInotifyReads
import PingPong.TokenRing

namespace PingPong.CommInotifyToken

open MonitorState (Worker)
open CommInotify CommInotifyReads TransitionSystem TokenRing

variable {s s' : State} {t : Token Worker} {e : Event} {i : Worker} {failed : Worker → Nat}

def move : Act → Move Worker
  | .truncated i => .pass i
  | .read i _ => .take i

def truncations (s : State) (i : Worker) : Nat := s.world.history.countP (isTruncation i)

def reads (s : State) (i : Worker) : Nat := s.world.history.countP (isRead i)

def holding (s : State) (i : Worker) : Nat := if s.pc i = .read then 0 else 1

/-- A worker has a token until it truncates its file, and then what is unread is one. -/
def tokens (s : State) : Nat :=
  holding s .ping + holding s .pong + s.world.unread .ping + s.world.unread .pong

def see (e : Event) (_ : Unit) (s : State) (failed : Worker → Nat) : Worker → Nat :=
  if ReadsEvents e s then failed else Function.update failed e.who (failed e.who + 1)

def total (failed : Worker → Nat) : Nat := failed .ping + failed .pong

def counted : System (State × (Worker → Nat)) (Event × Unit) := observe system (fun _ => 0) see

theorem tokens_eq (s : State) (i : Worker) : tokens s =
    holding s i + holding s i.other + s.world.unread i + s.world.unread i.other := by
  cases i with
  | ping => rfl
  | pong =>
    simp only [tokens, Worker.other]
    omega

theorem total_update (failed : Worker → Nat) (i : Worker) :
    total (Function.update failed i (failed i + 1)) = total failed + 1 := by
  cases i with
  | ping => exact Nat.add_right_comm ..
  | pong => rfl

@[simp] theorem holding_move_self (pc : Pc) (w : World) :
    holding (s.move i pc w) i = if pc = .read then 0 else 1 := by simp [holding]

@[simp] theorem holding_move_other (pc : Pc) (w : World) :
    holding (s.move i pc w) i.other = holding s i.other := by simp [holding]

theorem holding_of_read (h : s.pc i = .read) : holding s i = 0 := if_pos h

theorem holding_of_ne (h : s.pc i ≠ .read) : holding s i = 1 := if_neg h

@[simp] theorem truncations_ftruncate (pc : Pc) :
    truncations (s.move i pc (s.world.ftruncate i)) i = truncations s i + 1 := by
  simp [truncations, List.countP_append, isTruncation]

theorem truncations_ftruncate_of_ne {j : Worker} (hj : j ≠ i) (pc : Pc) :
    truncations (s.move i pc (s.world.ftruncate i)) j = truncations s j := by
  simp [truncations, List.countP_append, isTruncation, hj.symm]

@[simp] theorem reads_ftruncate (pc : Pc) (j : Worker) :
    reads (s.move i pc (s.world.ftruncate i)) j = reads s j := by
  simp [reads, List.countP_append, isRead]

@[simp] theorem truncations_drain (pc : Pc) (j : Worker) :
    truncations (s.move i pc (s.world.drain i)) j = truncations s j := by
  simp [truncations, List.countP_append, isTruncation]

theorem reads_drain (hu : s.world.unread i.other ≠ 0) (pc : Pc) :
    reads (s.move i pc (s.world.drain i)) i = reads s i + 1 := by
  simp [reads, List.countP_append, isRead, Nat.pos_of_ne_zero hu]

@[simp] theorem reads_drain_other (pc : Pc) :
    reads (s.move i pc (s.world.drain i)) i.other = reads s i.other := by
  simp [reads, List.countP_append, isRead]

structure Kept (s : State) (failed : Worker → Nat) : Prop where
  turns (i : Worker) :
    truncations s i + holding s i = reads s i + failed i + if i = .ping then 1 else 0
  answered (i : Worker) : reads s i.other + s.world.unread i ≤ truncations s i
  pong : s.pc .pong ≠ .count
  count : s.world.ping_count =
    .ofNat 64 (truncations s .ping + if s.pc .ping = .truncate then 1 else 0)
  one : 1 ≤ tokens s
  few : tokens s ≤ 1 + total failed

theorem kept_start : Kept start fun _ => 0 where
  turns i := by cases i <;> rfl
  answered i := by cases i <;> exact le_rfl
  pong := nofun
  count := rfl
  one := by decide
  few := by decide

theorem Kept.ping_count (h : Kept s failed) (hc : s.pc .ping = .count) :
    Kept (s.move .ping .truncate { s.world with ping_count := s.world.ping_count + 1 }) failed := by
  have hhold : holding (s.move .ping .truncate
      { s.world with ping_count := s.world.ping_count + 1 }) = holding s := by
    funext j
    cases j with
    | ping => simp [holding, hc]
    | pong => simp [holding]
  refine ⟨fun j => ?_, h.answered, h.pong, ?_, ?_, ?_⟩
  · rw [hhold]
    exact h.turns j
  · have := h.count
    simp only [hc, reduceCtorEq, if_false, Nat.add_zero] at this
    simp [this, truncations, BitVec.ofNat_add]
  · rw [tokens, hhold]
    exact h.one
  · rw [tokens, hhold]
    exact h.few

/-- An event that is still unread is no second token. -/
theorem Kept.truncate (h : Kept s failed) (hi : s.pc i = .truncate) :
    Kept (s.move i .read (s.world.ftruncate i)) failed := by
  have hhold := holding_of_ne (s := s) (i := i) (by simp [hi])
  have htokens := tokens_eq (s.move i .read (s.world.ftruncate i)) i
  simp only [holding_move_self, holding_move_other, if_true, Workers.move_world,
    World.ftruncate_unread, Function.update_self, Function.update_of_ne i.other_ne] at htokens
  refine ⟨fun j => ?_, fun j => ?_, ?_, ?_, by omega, ?_⟩
  · have ht := h.turns j
    rw [reads_ftruncate]
    obtain rfl | rfl := i.eq_or_other j
    · rw [truncations_ftruncate, holding_move_self, if_pos rfl]
      omega
    · rwa [truncations_ftruncate_of_ne i.other_ne, holding_move_other]
  · have ha := h.answered j
    rw [reads_ftruncate]
    obtain rfl | rfl := i.eq_or_other j
    · rw [truncations_ftruncate]
      simp
      omega
    · rw [truncations_ftruncate_of_ne i.other_ne]
      simpa using ha
  · cases i with
    | ping => simpa using h.pong
    | pong => simp
  · have hc := h.count
    cases i with
    | ping =>
      rw [if_pos hi] at hc
      rw [truncations_ftruncate]
      simpa using hc
    | pong =>
      rw [truncations_ftruncate_of_ne (by decide)]
      simpa using hc
  · have hf := h.few
    have ht := tokens_eq s i
    omega

def answer : Worker → Pc
  | .ping => .count
  | .pong => .truncate

theorem if_answer (i : Worker) : (if i = .ping then Pc.count else .truncate) = answer i := by
  cases i <;> rfl

theorem Kept.drain (h : Kept s failed) (hi : s.pc i = .read) (hu : s.world.unread i.other ≠ 0) :
    Kept (s.move i (answer i) (s.world.drain i)) failed := by
  have hhold := holding_of_read hi
  have hne : answer i ≠ .read := by cases i <;> nofun
  have htokens := tokens_eq (s.move i (answer i) (s.world.drain i)) i
  simp only [holding_move_self, holding_move_other, if_neg hne, Workers.move_world,
    World.drain_unread, Function.update_self, Function.update_of_ne i.ne_other] at htokens
  refine ⟨fun j => ?_, fun j => ?_, ?_, ?_, by omega, ?_⟩
  · have ht := h.turns j
    rw [truncations_drain]
    obtain rfl | rfl := i.eq_or_other j
    · rw [reads_drain hu, holding_move_self, if_neg hne]
      omega
    · rwa [reads_drain_other, holding_move_other]
  · have ha := h.answered j
    rw [truncations_drain]
    obtain rfl | rfl := i.eq_or_other j
    · rw [reads_drain_other]
      simpa using ha
    · rw [Worker.other_other] at ha ⊢
      rw [reads_drain hu]
      simp
      omega
  · cases i with
    | ping => simpa using h.pong
    | pong => simp [answer]
  · have hc := h.count
    rw [truncations_drain]
    cases i with
    | ping => simpa [hi, answer] using hc
    | pong => simpa using hc
  · have hf := h.few
    have ht := tokens_eq s i
    omega

theorem Kept.fail (h : Kept s failed) (hi : s.pc i = .read) :
    Kept (s.move i (answer i) s.world) (Function.update failed i (failed i + 1)) := by
  have hhold := holding_of_read hi
  have hne : answer i ≠ .read := by cases i <;> nofun
  have htokens := tokens_eq (s.move i (answer i) s.world) i
  simp only [holding_move_self, holding_move_other, if_neg hne, Workers.move_world] at htokens
  refine ⟨fun j => ?_, h.answered, ?_, ?_, by omega, ?_⟩
  · have ht := h.turns j
    obtain rfl | rfl := i.eq_or_other j
    · rw [holding_move_self, if_neg hne, Function.update_self]
      simp only [truncations, reads, Workers.move_world] at ht ⊢
      omega
    · rwa [holding_move_other, Function.update_of_ne i.other_ne]
  · cases i with
    | ping => simpa using h.pong
    | pong => simp [answer]
  · have hc := h.count
    cases i with
    | ping => simpa [hi, answer, truncations] using hc
    | pong => simpa [truncations] using hc
  · have hf := h.few
    have ht := tokens_eq s i
    rw [total_update]
    omega

theorem Kept.step (h : Kept s failed) (hn : Step e s s') : Kept s' (see e () s failed) := by
  have hsee (hr : ReadsEvents e s) : see e () s failed = failed := if_pos hr
  have hfail (hr : ¬ ReadsEvents e s) :
      see e () s failed = Function.update failed e.who (failed e.who + 1) := if_neg hr
  cases hn with
  | count hc =>
    rw [hsee fun hr => by simp [hc] at hr]
    exact h.ping_count hc
  | truncate hi =>
    rw [hsee fun hr => by simp [hi] at hr]
    exact h.truncate hi
  | drain hi hu =>
    rw [hsee fun _ => .inl rfl, if_answer]
    exact h.drain hi hu
  | retry hi =>
    rw [hsee fun _ => .inr ⟨rfl, rfl⟩]
    exact h
  | failPing hi =>
    rw [hfail fun hr => by simpa using hr hi]
    exact h.fail hi
  | failPong hi =>
    rw [hfail fun hr => by simpa using hr hi]
    exact h.fail hi

theorem kept {p : State × (Worker → Nat)} (h : Reachable counted p) : Kept p.1 p.2 := by
  refine h.invariant (I := fun p => Kept p.1 p.2) ?_ fun p a q hk hn => ?_
  · rintro ⟨_, _⟩ ⟨rfl, rfl⟩
    exact kept_start
  · obtain ⟨hs, hq⟩ := observe_next.mp hn
    rw [hq]
    exact hk.step (next_cases hs)

theorem next_count (h : s.pc .ping = .count) : CommInotify.next ⟨.ping, none⟩ s =
    some (s.move .ping .truncate { s.world with ping_count := s.world.ping_count + 1 }) := by
  simp [CommInotify.next, do_thread_work, comm_ping_inotify, h]

theorem next_truncate (h : s.pc i = .truncate) :
    CommInotify.next ⟨i, none⟩ s = some (s.move i .read (s.world.ftruncate i)) := by
  cases i <;> simp [CommInotify.next, do_thread_work, comm_ping_inotify, comm_pong_inotify, h]

theorem next_drain (h : s.pc i = .read) (hu : s.world.unread i.other ≠ 0) :
    CommInotify.next ⟨i, none⟩ s = some (s.move i (answer i) (s.world.drain i)) := by
  cases i <;> simp [CommInotify.next, do_thread_work, comm_ping_inotify, comm_pong_inotify, h,
    CommInotify.read, hu, answer]

def Able (s : State) (i : Worker) : Prop := s.pc i ≠ .read ∨ s.world.unread i.other ≠ 0

instance (s : State) (i : Worker) : Decidable (Able s i) := inferInstanceAs (Decidable (_ ∨ _))

theorem Able.exists_next (h : Able s i) (hp : i = .pong → s.pc i ≠ .count) :
    ∃ s', CommInotify.next ⟨i, none⟩ s = some s' := by
  cases hpc : s.pc i with
  | count =>
    cases i with
    | ping => exact ⟨_, next_count hpc⟩
    | pong => exact absurd hpc (hp rfl)
  | truncate => exact ⟨_, next_truncate hpc⟩
  | read => exact ⟨_, next_drain hpc (h.resolve_left (not_not_intro hpc))⟩

theorem able_or_able (h : 1 ≤ tokens s) (i : Worker) : Able s i ∨ Able s i.other := by
  by_contra hnone
  simp only [Able, not_or, not_not, Worker.other_other] at hnone
  obtain ⟨⟨hi, hu⟩, ho, hu'⟩ := hnone
  rw [tokens_eq s i, holding_of_read hi, holding_of_read ho, hu, hu'] at h
  exact absurd h (by decide)

structure Rel (s : State) (t : Token Worker) : Prop where
  holds (i : Worker) : s.pc i ≠ .read ↔ t = .held i
  unread (i : Worker) : s.world.unread i = if t = .passed i then 1 else 0
  one (i : Worker) (n : Nat) : .read i n ∈ s.world.history → n = 1

theorem rel_start : Rel start (.held .ping) where
  holds i := by cases i <;> simp [start]
  unread i := by simp [start]
  one := by simp [start]

theorem Rel.truncate (h : Rel s t) (hi : s.pc i = .truncate) :
    t = .held i ∧ Rel (s.move i .read (s.world.ftruncate i)) (.passed i) := by
  obtain rfl := (h.holds i).mp (by simp [hi])
  refine ⟨rfl, fun j => ?_, fun j => ?_, fun j n hm => h.one j n (by simpa using hm)⟩
  · obtain rfl | rfl := i.eq_or_other j
    · simp
    · simpa using h.holds i.other
  · obtain rfl | rfl := i.eq_or_other j
    · simp
    · simpa using h.unread i.other

theorem Rel.drain (h : Rel s t) (hi : s.pc i = .read) (hu : s.world.unread i.other ≠ 0) :
    t = .passed i.other ∧ Rel (s.move i (answer i) (s.world.drain i)) (.held i) := by
  have ht : t = .passed i.other := by
    have := h.unread i.other
    by_contra hne
    exact hu (by rwa [if_neg hne] at this)
  subst ht
  have hne : answer i ≠ .read := by cases i <;> nofun
  refine ⟨rfl, fun j => ?_, fun j => ?_, fun j n hm => ?_⟩
  · obtain rfl | rfl := i.eq_or_other j
    · simp [hne]
    · simpa using h.holds i.other
  · obtain rfl | rfl := i.eq_or_other j
    · simpa using h.unread j
    · simp
  · simp only [Workers.move_world, World.drain_history, List.mem_append, List.mem_singleton,
      Act.read.injEq] at hm
    obtain hm | ⟨-, hn⟩ := hm
    · exact h.one j n hm
    · simpa [hn] using h.unread i.other

/-- While no read fails, the truncations and the reads refine one token. -/
theorem simulation : Simulation (restrict system ReadsEvents) (ring Worker.other (.held .ping))
    (fun s => s.world.history.map move) Rel where
  init := by
    rintro _ rfl
    exact ⟨rfl, _, rfl, rel_start⟩
  step := by
    intro s s' e t h hn
    obtain ⟨hok, hn⟩ := restrict_next.mp hn
    cases next_cases hn with
    | count hc =>
      refine .inl ⟨rfl, fun j => ?_, h.unread, h.one⟩
      have hh := h.holds j
      cases j with
      | ping => simpa [hc] using hh
      | pong => simpa using hh
    | truncate hi =>
      obtain ⟨rfl, hR⟩ := h.truncate hi
      exact .inr ⟨.pass _, _, ring_pass _, by simp [move], hR⟩
    | drain hi hu =>
      obtain ⟨rfl, hR⟩ := h.drain hi hu
      rw [if_answer]
      exact .inr ⟨.take _, _, ring_take (Worker.other_other _), by simp [move], hR⟩
    | retry hi => exact .inl ⟨rfl, h⟩
    | failPing hi | failPong hi => simpa using hok hi

theorem reachable_of_none {p : State × (Worker → Nat)} (h : Reachable counted p)
    (hnone : ∀ i, p.2 i = 0) : Reachable (restrict system ReadsEvents) p.1 := by
  refine h.invariant (I := fun p => (∀ i, p.2 i = 0) → Reachable (restrict system ReadsEvents) p.1)
    ?_ ?_ hnone
  · rintro ⟨_, _⟩ ⟨rfl, -⟩ -
    exact .init rfl
  · rintro ⟨s, failed⟩ ⟨e, _⟩ ⟨s', failed'⟩ ih hn hz
    obtain ⟨hs, hq⟩ := observe_next.mp hn
    simp only at hs hq hz ih
    by_cases hok : ReadsEvents e s
    · rw [see, if_pos hok] at hq
      exact (ih (hq ▸ hz)).next (restrict_next.mpr ⟨hok, hs⟩)
    · rw [see, if_neg hok] at hq
      have := hz e.who
      simp [hq] at this

/-- However many reads fail, there is always a token, so that one of the workers can go on, and
each failed read makes one more at most. Ping has counted the answers it has read and the reads
that have failed. While none fails there is one token, and every read takes one event. -/
theorem tokens_kept {p : State × (Worker → Nat)} (h : Reachable counted p) :
    (1 ≤ tokens p.1 ∧ tokens p.1 ≤ 1 + total p.2) ∧
    (∃ i s, CommInotify.next ⟨i, none⟩ p.1 = some s) ∧
    p.1.world.ping_count = .ofNat 64 (reads p.1 .ping + p.2 .ping +
      if p.1.pc .ping = .count then 0 else 1) ∧
    (reads p.1 .ping ≤ truncations p.1 .pong ∧
      truncations p.1 .pong ≤ reads p.1 .pong + p.2 .pong) ∧
    ((∀ i, p.2 i = 0) →
      (∀ n i, (passes (p.1.world.history.map move))[n]? = some i →
        i = if n % 2 = 0 then .ping else .pong) ∧
      ∀ i n, .read i n ∈ p.1.world.history → n = 1) := by
  have hk := kept h
  refine ⟨⟨hk.one, hk.few⟩, ?_, ?_, ⟨?_, ?_⟩, fun hnone => ?_⟩
  · obtain hi | hi := able_or_able hk.one .ping
    · exact ⟨_, hi.exists_next nofun⟩
    · exact ⟨_, hi.exists_next fun _ => hk.pong⟩
  · have ht := hk.turns .ping
    rw [hk.count]
    cases hpc : p.1.pc .ping <;> simp [holding, hpc] at ht ⊢ <;> rw [ht]
  · exact Nat.le_of_add_right_le (hk.answered .pong)
  · have ht := hk.turns .pong
    simp at ht
    omega
  · obtain ⟨t, ht, hR⟩ := simulation.reachable (reachable_of_none h hnone)
    exact ⟨fun n i hi => passes_alternate Worker.other_involutive ht hi, hR.one⟩

/-- Pong has read the first ping when ping's read is interrupted: now there are two tokens. -/
theorem tokens_kept_interrupted : ∃ p, Reachable counted p ∧ total p.2 = 1 ∧ tokens p.1 = 2 ∧
    p.1.world.ping_count = .ofNat 64 (reads p.1 .ping + p.2 .ping +
      if p.1.pc .ping = .count then 0 else 1) := by
  obtain ⟨p, hp, hfailed, htokens⟩ := exists_reachable_of_exec (S := counted)
    (p := fun p => total p.2 = 1 ∧ tokens p.1 = 2) (s := (start, fun _ => 0)) ⟨rfl, rfl⟩
    [(⟨.ping, none⟩, ()), (⟨.ping, none⟩, ()), (⟨.pong, none⟩, ()), (⟨.ping, some .eintr⟩, ())]
    (by decide)
  exact ⟨p, hp, hfailed, htokens, (tokens_kept hp).2.2.1⟩

end PingPong.CommInotifyToken
