import Mathlib.Data.List.Induction

namespace PingPong.History

variable {α : Type} {grant use : α → Bool} {start : Bool} {h : List α} {a : α}

/-- A grant allows one use. However many are given, they allow no second one
before the next grant. -/
def credit (grant use : α → Bool) (start : Bool) (h : List α) : Bool :=
  h.foldl (fun c a => if grant a then true else if use a then false else c) start

def Granted (grant use : α → Bool) (start : Bool) (h : List α) : Prop :=
  ∀ front a, front ++ [a] <+: h → use a = true → credit grant use start front = true

@[simp] theorem credit_concat : credit grant use start (h ++ [a]) =
    if grant a then true else if use a then false else credit grant use start h := by
  simp [credit]

theorem granted_nil : Granted grant use start [] := by
  intro front a hp
  simp at hp

theorem Granted.concat (hg : Granted grant use start h)
    (ha : use a = true → credit grant use start h = true) :
    Granted grant use start (h ++ [a]) := by
  intro front b hp hb
  obtain he | hp := List.prefix_concat_iff.mp hp
  · obtain ⟨rfl, hba⟩ := List.append_inj' he rfl
    obtain rfl := List.singleton_inj.mp hba
    exact ha hb
  · exact hg front b hp hb

theorem Granted.of_concat (hg : Granted grant use start (h ++ [a])) :
    Granted grant use start h ∧ (use a = true → credit grant use start h = true) :=
  ⟨fun front b hp => hg front b (hp.trans (List.prefix_append h [a])),
    hg h a (List.prefix_refl _)⟩

theorem Granted.countP_use_le (hg : Granted grant use start h) :
    h.countP use + (credit grant use start h).toNat ≤ h.countP grant + start.toNat := by
  induction h using List.reverseRecOn with
  | nil => simp [credit]
  | append_singleton h a ih =>
    obtain ⟨hh, ha⟩ := hg.of_concat
    have hle := ih hh
    by_cases hu : use a = true
    · rw [ha hu] at hle
      by_cases hga : grant a = true <;> simp [List.countP_append, hu, hga] at hle ⊢ <;> omega
    · by_cases hga : grant a = true <;> simp [List.countP_append, hu, hga] <;> omega

end PingPong.History
