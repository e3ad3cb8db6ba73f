import Mathlib.Data.List.Basic

namespace PingPong.Words

variable {α : Type} {p : α → Bool} {a sep : α} {xs ys : List α}

def words (p : α → Bool) (xs : List α) : List (List α) :=
  (xs.splitOnP p).filter fun w => !w.isEmpty

theorem words_append_cons (hsep : p sep) (xs ys : List α) :
    words p (xs ++ sep :: ys) = words p xs ++ words p ys := by
  rw [words, List.splitOnP_append_cons xs ys hsep, List.filter_append]
  rfl

@[simp] theorem words_nil : words p [] = [] := rfl

theorem words_cons (hsep : p sep) (ys : List α) : words p (sep :: ys) = words p ys := by
  simpa using words_append_cons hsep [] ys

theorem words_eq_singleton (h : ∀ x ∈ xs, p x = false) (hne : xs ≠ []) : words p xs = [xs] := by
  rw [words, List.splitOnP_eq_singleton h, List.filter_cons_of_pos (by simpa using hne)]
  rfl

theorem words_append (hys : ∀ y ∈ ys.head?, p y) :
    words p (xs ++ ys) = words p xs ++ words p ys := by
  cases ys with
  | nil => simp
  | cons y ys => rw [words_append_cons (hys y rfl), words_cons (hys y rfl)]

/-- Pieces that begin with separators do not run together. -/
theorem words_flatten {xss : List (List α)} (h : ∀ xs ∈ xss, ∀ a ∈ xs.head?, p a) (ys : List α) :
    words p (ys ++ xss.flatten) = words p ys ++ xss.flatMap (words p) := by
  induction xss generalizing ys with
  | nil => simp
  | cons xs xss ih =>
    obtain ⟨hxs, hxss⟩ := List.forall_mem_cons.mp h
    rw [List.flatten_cons, ← List.append_assoc, ih hxss, words_append hxs, List.flatMap_cons,
      List.append_assoc]

theorem words_replicate_append (hsep : p sep) (n : Nat) (ys : List α) :
    words p (List.replicate n sep ++ ys) = words p ys := by
  induction n with
  | zero => rfl
  | succ n ih => rw [List.replicate_succ, List.cons_append, words_cons hsep, ih]

theorem words_word_cons (h : ∀ x ∈ xs, p x = false) (hne : xs ≠ []) (hsep : p sep) (ys : List α) :
    words p (xs ++ sep :: ys) = xs :: words p ys := by
  rw [words_append_cons hsep, words_eq_singleton h hne, List.singleton_append]

end PingPong.Words
