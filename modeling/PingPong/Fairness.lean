import Mathlib.Data.Nat.Basic
import Mathlib.Order.Monotone.Basic
import PingPong.TokenRing

namespace PingPong.Fairness

open TransitionSystem TokenRing

variable {σ α ι : Type} {S : System σ α} {helps : ι → σ → α → Prop} {count : σ → Nat}

/-- An infinite run, in which a moment may pass without an event. -/
structure Execution (S : System σ α) where
  state : Nat → σ
  event : Nat → Option α
  init : S.init (state 0)
  step (n : Nat) : match event n with
    | some a => S.next a (state n) = some (state (n + 1))
    | none => state (n + 1) = state n

theorem Execution.cases (e : Execution S) (n : Nat) :
    e.event n = none ∧ e.state (n + 1) = e.state n ∨
      ∃ a, e.event n = some a ∧ S.next a (e.state n) = some (e.state (n + 1)) := by
  have hs := e.step n
  cases ha : e.event n with
  | none =>
    rw [ha] at hs
    exact .inl ⟨rfl, hs⟩
  | some a =>
    rw [ha] at hs
    exact .inr ⟨a, rfl, hs⟩

theorem Execution.reachable (e : Execution S) (n : Nat) : Reachable S (e.state n) := by
  induction n with
  | zero => exact .init e.init
  | succ n ih =>
    obtain ⟨-, hs⟩ | ⟨a, -, hs⟩ := e.cases n
    · rwa [hs]
    · exact ih.next hs

/-- A system from any of its states on, while the events meet a condition. -/
def later (S : System σ α) (ok : α → σ → Prop) [∀ a s, Decidable (ok a s)] : System σ α :=
  ⟨Reachable S, (restrict S ok).next⟩

theorem reachable_of_later {ok : α → σ → Prop} [∀ a s, Decidable (ok a s)] {s : σ}
    (h : Reachable (later S ok) s) : Reachable S s := by
  apply h.invariant (I := Reachable S) (fun _ hs => hs)
  intro s a t hr hn
  exact hr.next (restrict_next.mp hn).2

def Execution.after (e : Execution S) (n : Nat) (ok : α → σ → Prop) [∀ a s, Decidable (ok a s)]
    (h : ∀ k a, n ≤ k → e.event k = some a → ok a (e.state k)) : Execution (later S ok) where
  state k := e.state (n + k)
  event k := e.event (n + k)
  init := e.reachable n
  step k := by
    obtain ⟨ha, hs⟩ | ⟨a, ha, hs⟩ := e.cases (n + k) <;> rw [ha]
    · exact hs
    · exact restrict_next.mpr ⟨h _ a (Nat.le_add_right n k) ha, hs⟩

def Possible (S : System σ α) (helps : σ → α → Prop) (s : σ) : Prop :=
  ∃ a, helps s a ∧ (S.next a s).isSome

/-- Weak fairness: when from some moment on it is always possible to help, it is done. -/
def Execution.Fair (e : Execution S) (helps : σ → α → Prop) : Prop :=
  ∀ n, (∀ k, n ≤ k → Possible S helps (e.state k)) →
    ∃ k a, n ≤ k ∧ e.event k = some a ∧ helps (e.state k) a

theorem Execution.Fair.after {e : Execution S} {helps : σ → α → Prop} (hf : e.Fair helps) {n : Nat}
    {ok : α → σ → Prop} [∀ a s, Decidable (ok a s)]
    (h : ∀ k a, n ≤ k → e.event k = some a → ok a (e.state k)) : (e.after n ok h).Fair helps := by
  intro m hp
  have hpossible : ∀ k, n + m ≤ k → Possible S helps (e.state k) := by
    intro k hk
    obtain ⟨l, rfl⟩ := Nat.exists_eq_add_of_le (Nat.le_of_add_right_le hk)
    obtain ⟨a, ha, hs⟩ := hp l (Nat.le_of_add_le_add_left hk)
    obtain ⟨t, ht⟩ := Option.isSome_iff_exists.mp hs
    exact ⟨a, ha, Option.isSome_iff_exists.mpr ⟨t, (restrict_next.mp ht).2⟩⟩
  obtain ⟨k, a, hk, ha⟩ := hf (n + m) hpossible
  obtain ⟨l, rfl⟩ := Nat.exists_eq_add_of_le (Nat.le_of_add_right_le hk)
  exact ⟨l, a, Nat.le_of_add_le_add_left hk, ha⟩

/-- Who is to do something until the goal is reached, and how much there is to do. The work
becomes less when he does it, and nobody makes it more. -/
structure Response (S : System σ α) (helps : ι → σ → α → Prop) (goal : σ → Prop) where
  work : ι → Nat → σ → Prop
  possible {s : σ} {i : ι} {n : Nat} (h : Reachable S s) (hw : work i n s) : Possible S (helps i) s
  step {s t : σ} {a : α} {i : ι} {n : Nat} (h : Reachable S s) (hw : work i n s)
    (hn : S.next a s = some t) :
      goal t ∨ (∃ j m, m < n ∧ work j m t) ∨ work i n t ∧ ¬ helps i s a

variable {τ β : Type} {f : σ → τ} {g : α → Option β}

/-- A run as it is seen in a system that knows only some of its events. -/
def Execution.project (e : Execution S) (A : System τ β) (f : σ → τ) (g : α → Option β)
    (hinit : ∀ s, S.init s → A.init (f s))
    (hstep : ∀ s t a, S.next a s = some t →
      (∀ b, g a = some b → A.next b (f s) = some (f t)) ∧ (g a = none → f t = f s)) :
    Execution A where
  state n := f (e.state n)
  event n := (e.event n).bind g
  init := hinit _ e.init
  step n := by
    obtain ⟨ha, hs⟩ | ⟨a, ha, hs⟩ := e.cases n <;> rw [ha]
    · exact congrArg f hs
    · obtain ⟨hsome, hnone⟩ := hstep _ _ a hs
      rw [Option.bind_some]
      cases hg : g a with
      | none => exact hnone hg
      | some b => exact hsome b hg

def Execution.unrestrict {ok : α → σ → Prop} [∀ a s, Decidable (ok a s)]
    (e : Execution (restrict S ok)) : Execution S :=
  e.project S id some (fun _ hs => hs) fun _ _ _ hn =>
    ⟨fun _ hb => Option.some.inj hb ▸ (restrict_next.mp hn).2, nofun⟩

theorem Execution.unrestrict_event {ok : α → σ → Prop} [∀ a s, Decidable (ok a s)]
    (e : Execution (restrict S ok)) (n : Nat) : e.unrestrict.event n = e.event n :=
  Option.bind_fun_some _

/-- What is forgotten of an event does not matter for fairness if it helps just as well. -/
theorem Execution.Fair.project {e : Execution S} {A : System τ β} {hinit hstep} {b : β} {a : α}
    (hf : e.Fair fun _ c => c = a) (hg : g a = some b)
    (hnext : ∀ s, (A.next b (f s)).isSome → (S.next a s).isSome) :
    (e.project A f g hinit hstep).Fair fun _ c => c = b := by
  intro n hp
  have hpossible : ∀ k, n ≤ k → Possible S (fun _ c => c = a) (e.state k) := fun k hk => by
    obtain ⟨_, rfl, hsome⟩ := hp k hk
    exact ⟨a, rfl, hnext _ hsome⟩
  obtain ⟨k, _, hk, he, rfl⟩ := hf n hpossible
  exact ⟨k, b, hk, Option.bind_eq_some_iff.mpr ⟨_, he, hg⟩, rfl⟩

variable {goal : σ → Prop}

/-- Either there is less work some day, or the one whose work it is never sets about it. -/
theorem Response.persists (r : Response S helps goal) (e : Execution S) {i : ι} {m n k : Nat}
    (hw : r.work i m (e.state n)) (hgoal : ∀ k, n ≤ k → ¬ goal (e.state k))
    (hless : ∀ k j l, n ≤ k → l < m → ¬ r.work j l (e.state k)) (h : n ≤ k) :
    r.work i m (e.state k) ∧ ∀ a, e.event k = some a → ¬ helps i (e.state k) a := by
  have hstep : ∀ k, n ≤ k → r.work i m (e.state k) → r.work i m (e.state (k + 1)) ∧
      ∀ a, e.event k = some a → ¬ helps i (e.state k) a := by
    intro k hk hw
    have hk' : n ≤ k + 1 := hk.trans (Nat.le_succ k)
    obtain ⟨ha, hs⟩ | ⟨a, ha, hs⟩ := e.cases k
    · exact ⟨hs ▸ hw, fun a ha' => by simp [ha] at ha'⟩
    · obtain hg | ⟨j, l, hl, hw⟩ | ⟨hw, hn⟩ := r.step (e.reachable k) hw hs
      · exact absurd hg (hgoal (k + 1) hk')
      · exact absurd hw (hless (k + 1) j l hk' hl)
      · exact ⟨hw, fun b hb => Option.some.inj (ha.symm.trans hb) ▸ hn⟩
  have hall : ∀ k, n ≤ k → r.work i m (e.state k) := fun k hk => by
    induction k, hk using Nat.le_induction with
    | base => exact hw
    | succ k hk ih => exact (hstep k hk ih).1
  exact ⟨hall k h, (hstep k h (hall k h)).2⟩

theorem Response.eventually (r : Response S helps goal) (e : Execution S)
    (hfair : ∀ i, e.Fair (helps i)) {i : ι} {m n : Nat} (hw : r.work i m (e.state n)) :
    ∃ k, n ≤ k ∧ goal (e.state k) := by
  induction m using Nat.strong_induction_on generalizing i n with
  | _ m ih =>
    by_contra hnone
    push Not at hnone
    have hless : ∀ k j l, n ≤ k → l < m → ¬ r.work j l (e.state k) := by
      intro k j l hk hl hw
      obtain ⟨k', hk', hg⟩ := ih l hl hw
      exact hnone k' (hk.trans hk') hg
    obtain ⟨k, a, hk, ha, hhelps⟩ := hfair i n fun k hk =>
      r.possible (e.reachable k) (r.persists e hw hnone hless hk).1
    exact (r.persists e hw hnone hless hk).2 a ha hhelps

structure Progress (S : System σ α) (helps : ι → σ → α → Prop) (count : σ → Nat) where
  work : ι → Nat → σ → Prop
  exists_work {s : σ} (h : Reachable S s) : ∃ i n, work i n s
  possible {s : σ} {i : ι} {n : Nat} (h : Reachable S s) (hw : work i n s) : Possible S (helps i) s
  step {s t : σ} {a : α} {i : ι} {n : Nat} (h : Reachable S s) (hw : work i n s)
    (hn : S.next a s = some t) : count s < count t ∨ count s = count t ∧
      ((∃ j m, m < n ∧ work j m t) ∨ work i n t ∧ ¬ helps i s a)

def Progress.response (p : Progress S helps count) (c : Nat) :
    Response S helps fun s => c < count s where
  work i n s := p.work i n s ∧ count s = c
  possible h hw := p.possible h hw.1
  step := by
    rintro s t a i n h ⟨hw, rfl⟩ hn
    obtain hlt | ⟨heq, ⟨j, m, hm, hw⟩ | ⟨hw, ha⟩⟩ := p.step h hw hn
    · exact .inl hlt
    · exact .inr (.inl ⟨j, m, hm, hw, heq.symm⟩)
    · exact .inr (.inr ⟨⟨hw, heq.symm⟩, ha⟩)

theorem Progress.exists_lt (p : Progress S helps count) (e : Execution S)
    (hfair : ∀ i, e.Fair (helps i)) (n : Nat) : ∃ k, count (e.state n) < count (e.state k) := by
  obtain ⟨i, m, hw⟩ := p.exists_work (e.reachable n)
  obtain ⟨k, -, hlt⟩ := (p.response _).eventually e hfair ⟨hw, rfl⟩
  exact ⟨k, hlt⟩

theorem Progress.monotone (p : Progress S helps count) (e : Execution S) :
    Monotone fun n => count (e.state n) := by
  apply monotone_nat_of_le_succ
  intro n
  obtain ⟨-, hs⟩ | ⟨a, -, hs⟩ := e.cases n
  · rw [hs]
  · obtain ⟨i, m, hw⟩ := p.exists_work (e.reachable n)
    obtain hlt | ⟨heq, -⟩ := p.step (e.reachable n) hw hs
    · exact hlt.le
    · exact heq.le

theorem Progress.unbounded (p : Progress S helps count) (e : Execution S)
    (hfair : ∀ i, e.Fair (helps i)) (n : Nat) : ∃ k, n ≤ count (e.state k) := by
  induction n with
  | zero => exact ⟨0, Nat.zero_le _⟩
  | succ n ih =>
    obtain ⟨k, hk⟩ := ih
    obtain ⟨k', hlt⟩ := p.exists_lt e hfair k
    exact ⟨k', hk.trans_lt hlt⟩

variable {A : System τ β} {history : σ → List β} {R : σ → τ → Prop}

/-- A simulation whose abstract state tells who is to make the next move, as soon as he has
done as much as his rank. -/
structure Driven (S : System σ α) (A : System τ β) (history : σ → List β) (R : σ → τ → Prop)
    (helps : ι → σ → α → Prop) where
  run {s : σ} (h : Reachable S s) : ∃ t, Run A (history s) t ∧ R s t
  matched {s s' : σ} {t : τ} {a : α} (hR : R s t) (hn : S.next a s = some s') :
    Matched A history R s s' t
  who : τ → σ → ι
  rank : τ → σ → Nat
  possible {s : σ} {t : τ} (h : Reachable S s) (hR : R s t) : Possible S (helps (who t s)) s
  helped {s s' : σ} {t : τ} {a : α} (h : Reachable S s) (hR : R s t) (ha : helps (who t s) s a)
    (hn : S.next a s = some s') : history s' ≠ history s ∨ rank t s' < rank t s
  others {s s' : σ} {t : τ} {a : α} (h : Reachable S s) (hR : R s t) (ha : ¬ helps (who t s) s a)
    (hn : S.next a s = some s') : history s' ≠ history s ∨ rank t s' < rank t s ∨
      rank t s' = rank t s ∧ who t s' = who t s

def Driven.progress (d : Driven S A history R helps) :
    Progress S helps fun s => (history s).length where
  work i n s := ∃ t, R s t ∧ d.who t s = i ∧ d.rank t s = n
  exists_work h := by
    obtain ⟨t, -, hR⟩ := d.run h
    exact ⟨_, _, t, hR, rfl, rfl⟩
  possible := by
    rintro s _ _ h ⟨t, hR, rfl, -⟩
    exact d.possible h hR
  step := by
    rintro s s' a _ _ h ⟨t, hR, rfl, rfl⟩ hn
    obtain ⟨heq, hR'⟩ | ⟨b, -, -, heq, -⟩ := d.matched hR hn
    · refine .inr ⟨by rw [heq], ?_⟩
      by_cases ha : helps (d.who t s) s a
      · obtain hne | hlt := d.helped h hR ha hn
        · exact absurd heq hne
        · exact .inl ⟨_, _, hlt, t, hR', rfl, rfl⟩
      · obtain hne | hlt | ⟨hrank, hwho⟩ := d.others h hR ha hn
        · exact absurd heq hne
        · exact .inl ⟨_, _, hlt, t, hR', rfl, rfl⟩
        · exact .inr ⟨⟨t, hR', hwho, hrank⟩, ha⟩
    · exact .inl (by rw [heq, List.length_append, List.length_singleton]; exact Nat.lt_succ_self _)

def Driven.ofHelper {helper : ι → α} (simulation : Simulation S A history R) (who : τ → σ → ι)
    (rank : τ → σ → Nat)
    (due : ∀ {s t}, Reachable S s → R s t → ∃ s', S.next (helper (who t s)) s = some s' ∧
      ((history s).length < (history s').length ∨ rank t s' < rank t s))
    (others : ∀ {s s' t a}, Reachable S s → R s t → a ≠ helper (who t s) → S.next a s = some s' →
      history s' ≠ history s ∨ rank t s' < rank t s ∨ rank t s' = rank t s ∧ who t s' = who t s) :
    Driven S A history R fun i _ a => a = helper i where
  run h := simulation.reachable h
  matched hR hn := simulation.step hR hn
  who := who
  rank := rank
  possible h hR := by
    obtain ⟨s', hn, -⟩ := due h hR
    exact ⟨_, rfl, Option.isSome_iff_exists.mpr ⟨s', hn⟩⟩
  helped := by
    rintro s s' t _ h hR rfl hn
    obtain ⟨s'', hn', hd⟩ := due h hR
    obtain rfl := Option.some.inj (hn.symm.trans hn')
    exact hd.imp_left fun hlt heq => absurd hlt (by rw [heq]; exact lt_irrefl _)
  others h hR ha hn := others h hR ha hn

/-- A token that is driven goes round for ever between two parties. -/
theorem Driven.passes_forever {P : Type} [DecidableEq P] {succ : P → P} {q : P}
    {history : σ → List (Move P)} {R : σ → Token P → Prop}
    (d : Driven S (ring succ (.held q)) history R helps) (hs : Function.Involutive succ)
    (htwo : ∀ p r : P, r = p ∨ r = succ p) (e : Execution S) (hfair : ∀ i, e.Fair (helps i))
    (n : Nat) : ∃ k, ∀ p, n ≤ (passes (history (e.state k))).count p := by
  obtain ⟨k, hk⟩ := d.progress.unbounded e hfair (4 * n + 6)
  obtain ⟨t, ht, -⟩ := d.run (e.reachable k)
  refine ⟨k, fun p => ?_⟩
  have hlen := length_le hs ht (htwo (succ p))
  rw [count_passes hs.injective ht p]
  omega

def states (S : System σ α) (start : σ) (choose : Nat → σ → α) : Nat → σ
  | 0 => start
  | n + 1 =>
    let s := states S start choose n
    (S.next (choose n s) s).getD s

def schedule (S : System σ α) {start : σ} (h : S.init start) (choose : Nat → σ → α) :
    Execution S where
  state := states S start choose
  event n :=
    let s := states S start choose n
    if (S.next (choose n s) s).isSome then some (choose n s) else none
  init := h
  step n := by
    cases hn : S.next (choose n (states S start choose n)) (states S start choose n) <;>
      simp [hn, states]

theorem schedule_fair {start : σ} (h : S.init start) {choose : Nat → σ → α} {helps : σ → α → Prop}
    (hturn : ∀ n, ∃ k, n ≤ k ∧ ∀ s, Possible S helps s →
      helps s (choose k s) ∧ (S.next (choose k s) s).isSome) :
    (schedule S h choose).Fair helps := by
  intro n hp
  obtain ⟨k, hk, hturn⟩ := hturn n
  obtain ⟨hhelps, hsome⟩ := hturn _ (hp k hk)
  exact ⟨k, _, hk, if_pos hsome, hhelps⟩

def turns (a : α) (as : List α) (n : Nat) (_s : σ) : α :=
  (a :: as).get ⟨n % (as.length + 1), Nat.mod_lt _ (Nat.succ_pos _)⟩

theorem turns_fair_of {start : σ} (h : S.init start) {a b : α} {as : List α} (hb : b ∈ a :: as)
    {helps : σ → α → Prop} (hhelps : ∀ s, Possible S helps s → helps s b ∧ (S.next b s).isSome) :
    (schedule S h (turns a as)).Fair helps := by
  obtain ⟨⟨i, hi⟩, rfl⟩ := List.get_of_mem hb
  have hturn : ∀ n (s : σ), turns a as ((as.length + 1) * n + i) s = (a :: as).get ⟨i, hi⟩ := by
    intro n s
    simp only [turns, Nat.mul_add_mod, Nat.mod_eq_of_lt (show i < as.length + 1 from hi)]
  refine schedule_fair h fun n => ⟨(as.length + 1) * n + i, ?_, fun s hs => ?_⟩
  · exact (Nat.le_mul_of_pos_left n (Nat.succ_pos _)).trans (Nat.le_add_right _ _)
  · rw [hturn]
    exact hhelps s hs

theorem turns_fair {start : σ} (h : S.init start) {a b : α} {as : List α} (hb : b ∈ a :: as) :
    (schedule S h (turns a as)).Fair fun _ c => c = b := by
  apply turns_fair_of h hb
  intro s hs
  obtain ⟨_, rfl, hsome⟩ := hs
  exact ⟨rfl, hsome⟩

end PingPong.Fairness
