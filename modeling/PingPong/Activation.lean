import Mathlib.Data.List.Nodup
import PingPong.TransitionSystem

namespace PingPong.Activation

open TransitionSystem

variable {Sig F W C E : Type}

/-- One thread that asynchronous signal handlers interrupt. `F` is a point in
the code of one activation, `signal` the signal that activation handles (none
for the main program), and `C` the outcome of a call the code makes. A step of
an activation gives its next point, or none when it returns. Accepting a
signal starts a handler, or none when the signal is ignored. `resume` is where
an activation goes on once a handler that ran above it has returned. -/
structure Program (Sig F W C E : Type) where
  signal : F → Option Sig
  exec : F → C → W → Option (W × Option F)
  accept : Sig → W → Option (W × Option F)
  resume : F → F
  env : E → W → Option W
  exec_signal : ∀ f c w w' f', exec f c w = some (w', some f') → signal f' = signal f
  accept_signal : ∀ s w w' f, accept s w = some (w', some f) → signal f = some s
  resume_signal : ∀ f, signal (resume f) = signal f

structure Thread (F W : Type) where
  stack : List F
  world : W

inductive Event (Sig C E : Type)
  | step (c : C)
  | deliver (s : Sig)
  | env (e : E)
deriving DecidableEq

def resumeTop (P : Program Sig F W C E) : List F → List F
  | [] => []
  | f :: rest => P.resume f :: rest

/-- A running handler blocks its own signal, and with it every activation
started above it. -/
def Blocked (P : Program Sig F W C E) (stack : List F) (s : Sig) : Prop :=
  some s ∈ stack.map P.signal

instance [DecidableEq Sig] (P : Program Sig F W C E) (stack : List F) (s : Sig) :
    Decidable (Blocked P stack s) := inferInstanceAs (Decidable (some s ∈ stack.map P.signal))

def next [DecidableEq Sig] (P : Program Sig F W C E) :
    Event Sig C E → Thread F W → Option (Thread F W)
  | .step c, ⟨f :: rest, w⟩ => (P.exec f c w).map fun
      | (w', some f') => ⟨f' :: rest, w'⟩
      | (w', none) => ⟨resumeTop P rest, w'⟩
  | .step _, ⟨[], _⟩ => none
  | .deliver s, ⟨stack, w⟩ => if Blocked P stack s then none else (P.accept s w).map fun
      | (w', some f) => ⟨f :: stack, w'⟩
      | (w', none) => ⟨stack, w'⟩
  | .env e, ⟨stack, w⟩ => (P.env e w).map fun w' => ⟨stack, w'⟩

def system [DecidableEq Sig] (P : Program Sig F W C E) (init : Thread F W → Prop) :
    System (Thread F W) (Event Sig C E) := ⟨init, next P⟩

variable {P : Program Sig F W C E}

inductive Step (P : Program Sig F W C E) : Event Sig C E → Thread F W → Thread F W → Prop
  | goto {c : C} {f f' : F} {rest : List F} {w w' : W} :
      P.exec f c w = some (w', some f') → Step P (.step c) ⟨f :: rest, w⟩ ⟨f' :: rest, w'⟩
  | ret {c : C} {f : F} {rest : List F} {w w' : W} :
      P.exec f c w = some (w', none) → Step P (.step c) ⟨f :: rest, w⟩ ⟨resumeTop P rest, w'⟩
  | handle {s : Sig} {f : F} {stack : List F} {w w' : W} : ¬ Blocked P stack s →
      P.accept s w = some (w', some f) → Step P (.deliver s) ⟨stack, w⟩ ⟨f :: stack, w'⟩
  | ignore {s : Sig} {stack : List F} {w w' : W} : ¬ Blocked P stack s →
      P.accept s w = some (w', none) → Step P (.deliver s) ⟨stack, w⟩ ⟨stack, w'⟩
  | env {e : E} {stack : List F} {w w' : W} :
      P.env e w = some w' → Step P (.env e) ⟨stack, w⟩ ⟨stack, w'⟩

theorem next_cases [DecidableEq Sig] {e : Event Sig C E} {t t' : Thread F W} (h : next P e t = some t') :
    Step P e t t' := by
  obtain ⟨stack, w⟩ := t
  cases e with
  | step c =>
    cases stack with
    | nil => simp [next] at h
    | cons f rest =>
      obtain ⟨⟨w', o⟩, he, rfl⟩ := Option.map_eq_some_iff.mp h
      cases o with
      | none => exact .ret he
      | some f' => exact .goto he
  | deliver s =>
    simp only [next, Option.ite_none_left_eq_some] at h
    obtain ⟨hb, h⟩ := h
    obtain ⟨⟨w', o⟩, he, rfl⟩ := Option.map_eq_some_iff.mp h
    cases o with
    | none => exact .ignore hb he
    | some f => exact .handle hb he
  | env e =>
    obtain ⟨w', he, rfl⟩ := Option.map_eq_some_iff.mp h
    exact .env he

@[simp] theorem map_signal_resumeTop (stack : List F) :
    (resumeTop P stack).map P.signal = stack.map P.signal := by
  cases stack <;> simp [resumeTop, P.resume_signal]

theorem mem_resumeTop {stack : List F} {f : F} (h : f ∈ resumeTop P stack) :
    f ∈ stack ∨ ∃ g ∈ stack, f = P.resume g := by
  cases stack with
  | nil => exact .inl h
  | cons g rest =>
    obtain h | h := List.mem_cons.mp h
    · exact .inr ⟨g, List.mem_cons_self, h⟩
    · exact .inl (List.mem_cons_of_mem g h)

variable {p : F → Prop} {stack : List F}

theorem forall_mem_resumeTop (hp : ∀ f, p f → p (P.resume f)) (h : ∀ f ∈ stack, p f) :
    ∀ f ∈ resumeTop P stack, p f := by
  intro f hf
  obtain hf | ⟨g, hg, rfl⟩ := mem_resumeTop hf
  · exact h f hf
  · exact hp g (h g hg)

theorem pairwise_resumeTop {r : F → F → Prop} (hr : ∀ f g, r f g → r (P.resume f) g)
    (h : stack.Pairwise r) : (resumeTop P stack).Pairwise r := by
  cases stack with
  | nil => exact h
  | cons f rest =>
    obtain ⟨hf, hrest⟩ := List.pairwise_cons.mp h
    exact List.pairwise_cons.mpr ⟨fun g hg => hr f g (hf g hg), hrest⟩

theorem exists_mem_resumeTop (hp : ∀ f, p f → p (P.resume f)) (h : ∃ f ∈ stack, p f) :
    ∃ f ∈ resumeTop P stack, p f := by
  obtain ⟨f, hf, hpf⟩ := h
  cases stack with
  | nil => cases hf
  | cons g rest =>
    obtain rfl | hf := List.mem_cons.mp hf
    · exact ⟨P.resume f, List.mem_cons_self, hp f hpf⟩
    · exact ⟨f, List.mem_cons_of_mem _ hf, hpf⟩

theorem mem_resumeTop_of_mem {f : F} (h : f ∈ stack) (hf : P.resume f = f) :
    f ∈ resumeTop P stack := by
  have hp (g : F) (hg : g = f) : P.resume g = f := (congrArg P.resume hg).trans hf
  obtain ⟨g, hg, rfl⟩ := exists_mem_resumeTop hp ⟨f, h, rfl⟩
  exact hg

/-- No signal has two activations, and at most one is the main program's. -/
def Distinct (P : Program Sig F W C E) (stack : List F) : Prop := (stack.map P.signal).Nodup

theorem Distinct.step {e : Event Sig C E} {t t' : Thread F W} (hd : Distinct P t.stack)
    (h : Step P e t t') : Distinct P t'.stack := by
  cases h with
  | @goto c f f' rest w w' he =>
    have hs : (f' :: rest).map P.signal = (f :: rest).map P.signal := by
      simp [P.exec_signal _ _ _ _ _ he]
    rw [Distinct, hs]
    exact hd
  | @ret c f rest w w' _ =>
    rw [Distinct, map_signal_resumeTop]
    exact (List.nodup_cons.mp hd).2
  | @handle s f stack w w' hb he =>
    have hs := P.accept_signal _ _ _ _ he
    exact List.nodup_cons.mpr ⟨hs ▸ hb, hd⟩
  | ignore _ _ | env _ => exact hd

theorem Distinct.tail_ne {f g : F} {rest : List F} (hd : Distinct P (f :: rest))
    (hg : g ∈ rest) : P.signal g ≠ P.signal f := fun hs =>
  (List.nodup_cons.mp hd).1 (List.mem_map.mpr ⟨g, hg, hs⟩)

theorem Distinct.eq_of_signal {stack : List F} {f g : F} (hd : Distinct P stack)
    (hf : f ∈ stack) (hg : g ∈ stack) (h : P.signal f = P.signal g) : f = g :=
  List.inj_on_of_nodup_map hd hf hg h

/-- A condition under which the running activation may take a step. Every other
event is free. -/
def Guarded (guard : F → W → Prop) : Event Sig C E → Thread F W → Prop
  | .step _, ⟨f :: _, w⟩ => guard f w
  | _, _ => True

instance {guard : F → W → Prop} [∀ f w, Decidable (guard f w)] (e : Event Sig C E)
    (t : Thread F W) : Decidable (Guarded guard e t) := by
  unfold Guarded
  split <;> infer_instance

theorem Guarded.mono {guard guard' : F → W → Prop} (h : ∀ f w, guard f w → guard' f w)
    {e : Event Sig C E} {t : Thread F W} (hg : Guarded guard e t) : Guarded guard' e t := by
  unfold Guarded at hg ⊢
  split at hg
  · exact h _ _ hg
  · trivial

/-- An invariant that splits into one of the world and one of each activation.
What runs keeps its own, and leaves those of the activations of other signals. -/
structure LocalInvariant (P : Program Sig F W C E) (guard : F → W → Prop) (inv : W → Prop)
    (ok : W → F → Prop) : Prop where
  exec : ∀ {f c w w' o}, guard f w → inv w → ok w f → P.exec f c w = some (w', o) →
    inv w' ∧ (∀ f', o = some f' → ok w' f') ∧ ∀ g, P.signal g ≠ P.signal f → ok w g → ok w' g
  accept : ∀ {s w w' o}, inv w → P.accept s w = some (w', o) →
    inv w' ∧ (∀ f, o = some f → ok w' f) ∧ ∀ g, ok w g → ok w' g
  resume : ∀ {w f}, ok w f → ok w (P.resume f)
  env : ∀ {e w w'}, inv w → P.env e w = some w' → inv w' ∧ ∀ g, ok w g → ok w' g

structure Holds (P : Program Sig F W C E) (inv : W → Prop) (ok : W → F → Prop)
    (t : Thread F W) : Prop where
  distinct : Distinct P t.stack
  world : inv t.world
  frame : ∀ f ∈ t.stack, ok t.world f

variable {guard : F → W → Prop} {inv : W → Prop} {ok : W → F → Prop}

theorem Holds.step (h : LocalInvariant P guard inv ok) {e : Event Sig C E} {t t' : Thread F W}
    (hg : Guarded guard e t) (hs : Step P e t t') (ht : Holds P inv ok t) : Holds P inv ok t' := by
  have hd := ht.distinct.step hs
  cases hs with
  | goto he =>
    obtain ⟨hw, hf, hrest⟩ := h.exec hg ht.world (ht.frame _ List.mem_cons_self) he
    refine ⟨hd, hw, List.forall_mem_cons.mpr ⟨hf _ rfl, fun g hm => ?_⟩⟩
    exact hrest g (ht.distinct.tail_ne hm) (ht.frame g (List.mem_cons_of_mem _ hm))
  | @ret c f rest w w' he =>
    obtain ⟨hw, -, hrest⟩ := h.exec hg ht.world (ht.frame _ List.mem_cons_self) he
    have hok : ∀ g ∈ rest, ok w' g := fun g hm =>
      hrest g (ht.distinct.tail_ne hm) (ht.frame g (List.mem_cons_of_mem _ hm))
    exact ⟨hd, hw, forall_mem_resumeTop (fun _ => h.resume) hok⟩
  | handle _ he =>
    obtain ⟨hw, hf, hrest⟩ := h.accept ht.world he
    exact ⟨hd, hw, List.forall_mem_cons.mpr ⟨hf _ rfl, fun g hm => hrest g (ht.frame g hm)⟩⟩
  | ignore _ he =>
    obtain ⟨hw, -, hrest⟩ := h.accept ht.world he
    exact ⟨hd, hw, fun g hm => hrest g (ht.frame g hm)⟩
  | env he =>
    obtain ⟨hw, hrest⟩ := h.env ht.world he
    exact ⟨hd, hw, fun g hm => hrest g (ht.frame g hm)⟩

theorem LocalInvariant.reachable_guarded [DecidableEq Sig] [∀ f w, Decidable (guard f w)]
    (h : LocalInvariant P guard inv ok) {init : Thread F W → Prop}
    (hinit : ∀ t, init t → Holds P inv ok t) {t : Thread F W}
    (ht : Reachable (restrict (system P init) (Guarded guard)) t) : Holds P inv ok t := by
  refine ht.invariant hinit fun s e t hs hn => ?_
  obtain ⟨hg, hn⟩ := restrict_next.mp hn
  exact hs.step h hg (next_cases hn)

theorem LocalInvariant.reachable [DecidableEq Sig] (h : LocalInvariant P (fun _ _ => True) inv ok)
    {init : Thread F W → Prop} (hinit : ∀ t, init t → Holds P inv ok t) {t : Thread F W}
    (ht : Reachable (system P init) t) : Holds P inv ok t := by
  refine ht.invariant hinit fun s e t hs hn => hs.step h ?_ (next_cases hn)
  unfold Guarded
  split <;> trivial

end PingPong.Activation
