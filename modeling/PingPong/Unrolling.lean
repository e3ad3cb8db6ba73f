import Mathlib.Data.Fin.Basic
import PingPong.TransitionSystem

namespace PingPong.Unrolling

open TransitionSystem

variable {σ τ π α β : Type}

/-- A statement that is executed in steps. From a point of it there is the state after the next
step, and the point after that or none at the end of the statement. -/
structure Stmt (σ π : Type) where
  entry : π
  step : σ → π → Option (σ × Option π)

namespace Stmt

variable (b : Stmt σ π)

def forever (s : σ) (p : π) : Option (σ × π) :=
  (b.step s p).map fun r => (r.1, r.2.getD b.entry)

/-- `while (1) { b ... b }` with `n + 1` copies, and a point in one of them. -/
def copies (n : Nat) (s : σ) (p : Fin (n + 1) × π) : Option (σ × (Fin (n + 1) × π)) :=
  (b.step s p.2).map fun r =>
    (r.1, match r.2 with
      | some q => (p.1, q)
      | none => (p.1 + 1, b.entry))

/-- But for the copy that it is in, the loop with the copies goes as the plain one. -/
theorem copies_map (n : Nat) (s : σ) (p : Fin (n + 1) × π) :
    (b.copies n s p).map (fun r => (r.1, r.2.2)) = b.forever s p.2 := by
  rw [copies, forever, Option.map_map]
  congr 1
  funext r
  cases h : r.2 <;> simp [h]

theorem copies_some {n : Nat} {s s' : σ} {p q : Fin (n + 1) × π}
    (h : b.copies n s p = some (s', q)) : b.forever s p.2 = some (s', q.2) := by
  rw [← copies_map, h, Option.map_some]

theorem forever_some {n : Nat} {s s' : σ} {p : Fin (n + 1) × π} {q : π}
    (h : b.forever s p.2 = some (s', q)) : ∃ k, b.copies n s p = some (s', (k, q)) := by
  rw [← copies_map, Option.map_eq_some_iff] at h
  obtain ⟨⟨s'', k, q'⟩, hc, heq⟩ := h
  obtain ⟨rfl, rfl⟩ := Prod.mk.inj heq
  exact ⟨k, hc⟩

end Stmt

/-- A map of states under which every step is a step or none at all, and by which every step
comes about. -/
structure Projection (C : System σ α) (A : System τ β) (f : σ → τ) : Prop where
  init : ∀ {s}, C.init s → A.init (f s)
  init_lift : ∀ {t}, A.init t → ∃ s, C.init s ∧ f s = t
  step : ∀ {s s' a}, Reachable C s → C.next a s = some s' →
    f s' = f s ∨ ∃ b, A.next b (f s) = some (f s')
  lift : ∀ {s t b}, Reachable C s → A.next b (f s) = some t → ∃ s', Reachable C s' ∧ f s' = t

theorem Projection.reachable_iff {C : System σ α} {A : System τ β} {f : σ → τ}
    (h : Projection C A f) {t : τ} : Reachable A t ↔ ∃ s, Reachable C s ∧ f s = t := by
  constructor
  · intro ht
    refine ht.invariant (I := fun t => ∃ s, Reachable C s ∧ f s = t) (fun t ht => ?_) ?_
    · obtain ⟨s, hs, rfl⟩ := h.init_lift ht
      exact ⟨s, .init hs, rfl⟩
    · rintro _ b t' ⟨s, hs, rfl⟩ hn
      exact h.lift hs hn
  · rintro ⟨s, hs, rfl⟩
    refine hs.induct (I := fun s => Reachable A (f s)) (fun s hs => .init (h.init hs)) ?_
    intro s a s' hs hr hn
    obtain heq | ⟨b, hb⟩ := h.step hs hn
    · exact heq ▸ hr
    · exact hr.next hb

end PingPong.Unrolling
