import Mathlib.Data.List.Basic

namespace PingPong.TransitionSystem

variable {σ τ α β γ : Type}

/-- An event resolves every choice of the step it names: in a state it either
fires, with one outcome, or is refused. -/
structure System (σ α : Type) where
  init : σ → Prop
  next : α → σ → Option σ

/-- A run is kept as its trace, oldest event first, and the state it ends in. -/
inductive Run (S : System σ α) : List α → σ → Prop
  | nil {s : σ} : S.init s → Run S [] s
  | snoc {tr : List α} {s t : σ} {a : α} : Run S tr s → S.next a s = some t → Run S (tr ++ [a]) t

def Reachable (S : System σ α) (s : σ) : Prop := ∃ tr, Run S tr s

theorem Run.invariant {S : System σ α} {I : List α → σ → Prop}
    (hinit : ∀ s, S.init s → I [] s)
    (hstep : ∀ tr s a t, I tr s → S.next a s = some t → I (tr ++ [a]) t)
    {tr : List α} {s : σ} (h : Run S tr s) : I tr s := by
  induction h with
  | nil hs => exact hinit _ hs
  | snoc _ hn ih => exact hstep _ _ _ _ ih hn

theorem Reachable.init {S : System σ α} {s : σ} (h : S.init s) : Reachable S s := ⟨[], .nil h⟩

theorem Reachable.next {S : System σ α} {s t : σ} {a : α} (h : Reachable S s)
    (hn : S.next a s = some t) : Reachable S t := by
  obtain ⟨tr, hr⟩ := h
  exact ⟨tr ++ [a], hr.snoc hn⟩

theorem Reachable.induct {S : System σ α} {I : σ → Prop} (hinit : ∀ s, S.init s → I s)
    (hstep : ∀ s a t, Reachable S s → I s → S.next a s = some t → I t) {s : σ}
    (h : Reachable S s) : I s := by
  obtain ⟨tr, hr⟩ := h
  induction hr with
  | nil hs => exact hinit _ hs
  | snoc hr hn ih => exact hstep _ _ _ ⟨_, hr⟩ ih hn

theorem Reachable.invariant {S : System σ α} {I : σ → Prop} (hinit : ∀ s, S.init s → I s)
    (hstep : ∀ s a t, I s → S.next a s = some t → I t) {s : σ} (h : Reachable S s) : I s :=
  h.induct hinit fun s a t _ => hstep s a t

def restrict (S : System σ α) (ok : α → σ → Prop) [∀ a s, Decidable (ok a s)] : System σ α where
  init := S.init
  next a s := if ok a s then S.next a s else none

theorem restrict_next {S : System σ α} {ok : α → σ → Prop} [∀ a s, Decidable (ok a s)]
    {a : α} {s t : σ} : (restrict S ok).next a s = some t ↔ ok a s ∧ S.next a s = some t := by
  simp [restrict]

theorem Run.of_restrict {S : System σ α} {ok : α → σ → Prop} [∀ a s, Decidable (ok a s)]
    {tr : List α} {s : σ} (h : Run (restrict S ok) tr s) : Run S tr s := by
  induction h with
  | nil hs => exact .nil hs
  | snoc _ hn ih => exact ih.snoc (restrict_next.mp hn).2

theorem Reachable.of_restrict {S : System σ α} {ok : α → σ → Prop} [∀ a s, Decidable (ok a s)]
    {s : σ} (h : Reachable (restrict S ok) s) : Reachable S s := by
  obtain ⟨tr, hr⟩ := h
  exact ⟨tr, hr.of_restrict⟩

theorem Reachable.restrict_mono {S : System σ α} {ok ok' : α → σ → Prop}
    [∀ a s, Decidable (ok a s)] [∀ a s, Decidable (ok' a s)]
    (hok : ∀ a s, Reachable (restrict S ok) s → ok a s → ok' a s) {s : σ}
    (h : Reachable (restrict S ok) s) : Reachable (restrict S ok') s := by
  obtain ⟨tr, hr⟩ := h
  induction hr with
  | nil hs => exact .init hs
  | snoc hr hn ih =>
    obtain ⟨ha, hn⟩ := restrict_next.mp hn
    exact ih.next (restrict_next.mpr ⟨hok _ _ ⟨_, hr⟩ ha, hn⟩)

/-- A system beside which an observer keeps a record of its steps, with what each
event tells it. -/
def observe (S : System σ α) (start : β) (see : α → γ → σ → β → β) : System (σ × β) (α × γ) where
  init p := S.init p.1 ∧ p.2 = start
  next a p := (S.next a.1 p.1).map fun s => (s, see a.1 a.2 p.1 p.2)

theorem observe_next {S : System σ α} {start : β} {see : α → γ → σ → β → β} {a : α × γ}
    {p q : σ × β} : (observe S start see).next a p = some q ↔
      S.next a.1 p.1 = some q.1 ∧ q.2 = see a.1 a.2 p.1 p.2 := by
  obtain ⟨s, r⟩ := q
  simp only [observe, Option.map_eq_some_iff, Prod.mk.injEq]
  constructor
  · rintro ⟨s, hs, rfl, rfl⟩
    exact ⟨hs, rfl⟩
  · rintro ⟨hs, rfl⟩
    exact ⟨s, hs, rfl, rfl⟩

theorem Reachable.of_observe {S : System σ α} {start : β} {see : α → γ → σ → β → β} {p : σ × β}
    (h : Reachable (observe S start see) p) : Reachable S p.1 := by
  refine h.invariant (I := fun p => Reachable S p.1) (fun p hp => ?_) fun p a q hr hn => ?_
  · have hs : S.init p.1 ∧ p.2 = start := hp
    exact .init hs.1
  · exact hr.next (observe_next.mp hn).1

theorem Reachable.exists_observe {S : System σ α} (start : β) (see : α → γ → σ → β → β) (c : γ)
    {s : σ} (h : Reachable S s) : ∃ b, Reachable (observe S start see) (s, b) := by
  refine h.induct (I := fun s => ∃ b, Reachable (observe S start see) (s, b))
    (fun s hs => ⟨start, .init ⟨hs, rfl⟩⟩) fun s a t _ ⟨b, hb⟩ hn => ?_
  exact ⟨_, hb.next (a := (a, c)) (observe_next.mpr ⟨hn, rfl⟩)⟩

def exec (next : α → σ → Option σ) : List α → σ → Option σ
  | [], s => some s
  | a :: tr, s => (next a s).bind (exec next tr)

theorem Run.exec {S : System σ α} {tr tr' : List α} {s t : σ} (h : Run S tr s)
    (he : exec S.next tr' s = some t) : Run S (tr ++ tr') t := by
  induction tr' generalizing tr s with
  | nil =>
    simp only [TransitionSystem.exec, Option.some.injEq] at he
    subst t
    simpa using h
  | cons a tr' ih =>
    obtain ⟨u, hu, ht⟩ := Option.bind_eq_some_iff.mp he
    simpa using ih (h.snoc hu) ht

theorem run_of_exec {S : System σ α} {tr : List α} {s t : σ} (hs : S.init s)
    (he : exec S.next tr s = some t) : Run S tr t := by
  simpa using (Run.nil hs).exec he

theorem reachable_of_exec {S : System σ α} {tr : List α} {s t : σ} (hs : S.init s)
    (he : exec S.next tr s = some t) : Reachable S t := ⟨tr, run_of_exec hs he⟩

theorem exists_reachable_of_exec {S : System σ α} {p : σ → Prop} [DecidablePred p] {s : σ}
    (hs : S.init s) (tr : List α) (h : (exec S.next tr s).any (p ·) = true) :
    ∃ t, Reachable S t ∧ p t := by
  obtain ⟨t, ht, hp⟩ := (Option.any_eq_true _ _).mp h
  exact ⟨t, reachable_of_exec hs ht, of_decide_eq_true hp⟩

/-- A step from `s` to `s'` is one event of `A` from the state `t` that `s` stands
for, or a stutter. `history` keeps in a state the events of `A` it has seen. -/
def Matched (A : System τ β) (history : σ → List β) (R : σ → τ → Prop) (s s' : σ) (t : τ) : Prop :=
  history s' = history s ∧ R s' t ∨
    ∃ b t', A.next b t = some t' ∧ history s' = history s ++ [b] ∧ R s' t'

structure Simulation (C : System σ α) (A : System τ β) (history : σ → List β)
    (R : σ → τ → Prop) : Prop where
  init : ∀ {s}, C.init s → history s = [] ∧ ∃ t, A.init t ∧ R s t
  step : ∀ {s s' a t}, R s t → C.next a s = some s' → Matched A history R s s' t

theorem Simulation.reachable {C : System σ α} {A : System τ β} {history : σ → List β}
    {R : σ → τ → Prop} (h : Simulation C A history R) {s : σ} (hr : Reachable C s) :
    ∃ t, Run A (history s) t ∧ R s t := by
  refine hr.invariant (I := fun s => ∃ t, Run A (history s) t ∧ R s t) (fun s hs => ?_)
    fun s a s' ⟨t, ht, hR⟩ hn => ?_
  · obtain ⟨he, t, ht, hR⟩ := h.init hs
    exact ⟨t, he ▸ .nil ht, hR⟩
  · obtain ⟨he, hR'⟩ | ⟨b, t', hb, he, hR'⟩ := h.step hR hn
    · exact ⟨t, he ▸ ht, hR'⟩
    · exact ⟨t', he ▸ ht.snoc hb, hR'⟩

end PingPong.TransitionSystem
