import PingPong.CommInotifyToken
import PingPong.Fairness

namespace PingPong.CommInotifyLive

open MonitorState (Worker)
open CommInotify CommInotifyReads CommInotifyToken TransitionSystem Fairness

variable {s s' : State} {e : Event} {i j : Worker}

/-- `i` goes on where it can, also with a read that fails; but pong does not just begin its read
again. -/
def Goes (i : Worker) (s : State) (e : Event) : Prop :=
  e.who = i ∧ Able s i ∧ (s.pc .pong = .read → e ≠ ⟨.pong, some .eintr⟩)

def due (s : State) (i : Worker) : Worker := if Able s i then i else i.other

def distance : Pc → Nat
  | .truncate => 0
  | .count => 1
  | .read => 2

def rank (s : State) (i : Worker) : Nat :=
  if Able s i then distance (s.pc i) else 3 + distance (s.pc i.other)

theorem distance_le (pc : Pc) : distance pc ≤ 2 := by cases pc <;> decide

theorem kept_of_reachable (h : Reachable system s) : ∃ failed, Kept s failed := by
  obtain ⟨failed, hr⟩ := h.exists_observe (fun _ => 0) see ()
  exact ⟨failed, kept hr⟩

theorem possible_due (h : Reachable system s) (i : Worker) :
    Possible system (Goes (due s i)) s := by
  obtain ⟨failed, hk⟩ := kept_of_reachable h
  have hable : Able s (due s i) := by
    by_cases hi : Able s i
    · rwa [due, if_pos hi]
    · rw [due, if_neg hi]
      exact (able_or_able hk.one i).resolve_left hi
  obtain ⟨s', hn⟩ := hable.exists_next fun hi => hi ▸ hk.pong
  exact ⟨⟨due s i, none⟩, ⟨rfl, hable, by simp⟩, Option.isSome_iff_exists.mpr ⟨s', hn⟩⟩

def Nearer (s s' : State) (i j : Worker) : Prop :=
  rank s' i < rank s i ∨ rank s' i = rank s i ∧ due s' i = due s i ∧ j ≠ due s i

theorem nearer_self {pc : Pc} {w : World} (hpc : pc ≠ .read)
    (hlt : distance pc < distance (s.pc i)) : Nearer s (s.move i pc w) i i := by
  have hle := distance_le (s.pc i)
  have hable : Able (s.move i pc w) i := .inl (by simpa using hpc)
  refine .inl ?_
  rw [rank, if_pos hable, rank, Workers.move_pc_self]
  split <;> omega

theorem nearer_other {pc : Pc} {w : World}
    (hable : Able s i → Able (s.move i.other pc w) i)
    (hnear : Able (s.move i.other pc w) i ∨ distance pc < distance (s.pc i.other)) :
    Nearer s (s.move i.other pc w) i i.other := by
  by_cases hi : Able s i
  · exact .inr ⟨by simp [rank, hi, hable], by simp [due, hi, hable], by simp [due, hi]⟩
  · have hle := distance_le (s.pc i)
    refine .inl ?_
    rw [rank, rank, if_neg hi]
    simp only [Workers.move_other_pc, Workers.move_pc_self]
    obtain ha | hlt := hnear
    · rw [if_pos ha]
      omega
    · split <;> omega

theorem nearer_read {w : World} (hj : s.pc j = .read) (hw : w.unread j = s.world.unread j)
    (i : Worker) : Nearer s (s.move j (answer j) w) i j := by
  have hlt : distance (answer j) < distance (s.pc j) := by
    rw [hj]
    cases j <;> decide
  obtain rfl | rfl := i.eq_or_other j
  · exact nearer_self (by cases j <;> nofun) hlt
  · exact nearer_other (fun ha => ha.imp (by simp) (by simp [hw])) (.inr hlt)

/-- Either `i` has truncated its file or it is as near to that as it was, and nearer if the one
that is due has gone on. -/
theorem step_nearer (hn : Step e s s') (i : Worker) : truncations s i < truncations s' i ∨
    truncations s i = truncations s' i ∧
      (Nearer s s' i e.who ∨ s' = s ∧ s.pc .pong = .read ∧ e = ⟨.pong, some .eintr⟩) := by
  cases hn with
  | count hc =>
    refine .inr ⟨rfl, .inl ?_⟩
    cases i with
    | ping => exact nearer_self nofun (by simp [hc, distance])
    | pong =>
      refine nearer_other (i := .pong) (fun ha => ha.imp ?_ fun hu => hu) (.inr ?_)
      · simp
      · simp [Worker.other, hc, distance]
  | @truncate _ j _ hj =>
    obtain rfl | rfl := i.eq_or_other j
    · exact .inl (by simp)
    · have ha : Able (s.move i.other .read (s.world.ftruncate i.other)) i := .inr (by simp)
      exact .inr ⟨(truncations_ftruncate_of_ne i.ne_other _).symm,
        .inl (nearer_other (fun _ => ha) (.inl ha))⟩
  | drain hj hu =>
    rw [if_answer]
    exact .inr ⟨by simp, .inl (nearer_read hj (by simp) i)⟩
  | retry hi => exact .inr ⟨rfl, .inr ⟨rfl, hi, rfl⟩⟩
  | failPing hi => exact .inr ⟨rfl, .inl (nearer_read hi rfl i)⟩
  | failPong hi => exact .inr ⟨rfl, .inl (nearer_read hi rfl i)⟩

def progress (i : Worker) : Progress system Goes fun s => truncations s i where
  work j n s := due s i = j ∧ rank s i = n
  exists_work _ := ⟨_, _, rfl, rfl⟩
  possible := by
    rintro s _ _ hs ⟨rfl, -⟩
    exact possible_due hs i
  step := by
    rintro s s' e _ _ - ⟨rfl, rfl⟩ hn
    refine (step_nearer (next_cases hn) i).imp_right fun ⟨heq, h⟩ => ⟨heq, ?_⟩
    obtain (hlt | ⟨hrank, hdue, hwho⟩) | ⟨rfl, hpc, he⟩ := h
    · exact .inl ⟨_, _, hlt, rfl, rfl⟩
    · exact .inr ⟨⟨hdue, hrank⟩, fun hgoes => hwho hgoes.1⟩
    · exact .inr ⟨⟨rfl, rfl⟩, fun hgoes => hgoes.2.2 hpc he⟩

/-- With a scheduler that forgets neither of the workers, and a read of pong that is not
interrupted for ever, both truncate their files for ever, whatever reads fail, and however
often. -/
theorem truncates_forever (e : Execution system) (hfair : ∀ i, e.Fair (Goes i)) (n : Nat) :
    ∃ k, ∀ i, n ≤ truncations (e.state k) i := by
  obtain ⟨k, hk⟩ := (progress .ping).unbounded e hfair n
  obtain ⟨l, hl⟩ := (progress .pong).unbounded e hfair n
  refine ⟨max k l, fun i => ?_⟩
  cases i with
  | ping => exact hk.trans ((progress .ping).monotone e (le_max_left k l))
  | pong => exact hl.trans ((progress .pong).monotone e (le_max_right k l))

theorem goes_of_possible (h : Possible system (Goes i) s) :
    Goes i s ⟨i, none⟩ ∧ (system.next ⟨i, none⟩ s).isSome := by
  obtain ⟨e, ⟨rfl, hable, -⟩, hsome⟩ := h
  refine ⟨⟨rfl, hable, by simp⟩, Option.isSome_iff_exists.mpr (hable.exists_next ?_)⟩
  intro hp hc
  rw [hp] at hc
  simp [system, CommInotify.next, do_thread_work, comm_pong_inotify, hp, hc] at hsome

/-- Every second read of ping can be interrupted, and every second one of pong can fail. -/
theorem truncates_forever_interrupted : ∃ e : Execution system, ∃ k, ∀ i,
    1000 ≤ truncations (e.state k) i := by
  let events : List Event := [⟨.pong, none⟩, ⟨.ping, some .eintr⟩, ⟨.pong, some .other⟩]
  refine ⟨_, truncates_forever (schedule system rfl (turns ⟨.ping, none⟩ events))
    (fun i => turns_fair_of (b := ⟨i, none⟩) rfl ?_ fun _ hs => goes_of_possible hs) 1000⟩
  cases i <;> simp [events]

end PingPong.CommInotifyLive
