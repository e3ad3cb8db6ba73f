import Mathlib.Data.List.TakeWhile

namespace PingPong.CMemory

variable {m : List Char} {set delim : List Char} {p i : Nat}

/-- What ends a string. Behind the end of the memory nothing else is read. -/
def nul : Char := Char.ofNat 0

def string (m : List Char) (p : Nat) : List Char := (m.drop p).takeWhile (· ≠ nul)

def strspn (m : List Char) (p : Nat) (set : List Char) : Nat :=
  ((m.drop p).takeWhile (· ∈ set)).length

def strcspn (m : List Char) (p : Nat) (set : List Char) : Nat :=
  ((m.drop p).takeWhile fun c => c ≠ nul ∧ c ∉ set).length

/-- `strtok_r` on the string at a position: the token, the save pointer and the memory,
in which the end of the token is marked. -/
def strtok_r (m : List Char) (p : Nat) (delim : List Char) : Option Nat × Nat × List Char :=
  let tok := p + strspn m p delim
  if m.getD tok nul = nul then (none, tok, m)
  else
    let stop := tok + strcspn m tok delim
    if m.getD stop nul = nul then (some tok, stop, m) else (some tok, stop + 1, m.set stop nul)

theorem drop_set_of_le (h : p ≤ i) (c : Char) : (m.set i c).drop p = (m.drop p).set (i - p) c := by
  rw [List.drop_set, if_neg (by omega)]

theorem drop_set_of_lt (h : i < p) (c : Char) : (m.set i c).drop p = m.drop p := by
  rw [List.drop_set, if_pos h]

theorem takeWhile_set_length (q : Char → Bool) (hq : ∀ c, q c → c ≠ nul) (t : List Char) :
    (t.set (t.takeWhile q).length nul).takeWhile (· ≠ nul) = t.takeWhile q := by
  induction t with
  | nil => rfl
  | cons c t ih =>
    cases h : q c with
    | false => simp [h]
    | true => simpa [h, hq c h] using ih

theorem string_set (q : Char → Bool) (hq : ∀ c, q c → c ≠ nul) :
    string (m.set (p + ((m.drop p).takeWhile q).length) nul) p = (m.drop p).takeWhile q := by
  rw [string, drop_set_of_le (by omega), Nat.add_sub_cancel_left]
  exact takeWhile_set_length q hq _

theorem takeWhile_append_nul {q : Char → Bool} (hq : q nul = false) (t after : List Char) :
    (t ++ nul :: after).takeWhile q = t.takeWhile q := by
  induction t with
  | nil => simp [hq]
  | cons c t ih => simp [List.takeWhile_cons, ih]

theorem dropWhile_append_nul {q : Char → Bool} (hq : q nul = false) (t after : List Char) :
    (t ++ nul :: after).dropWhile q = t.dropWhile q ++ nul :: after := by
  induction t with
  | nil => simp [hq]
  | cons c t ih =>
    cases h : q c with
    | false => simp [h]
    | true => simpa [h] using ih

theorem string_eq {t after : List Char} (hm : m.drop p = t ++ nul :: after) (hn : nul ∉ t) :
    string m p = t := by
  rw [string, hm, takeWhile_append_nul (by simp), List.takeWhile_eq_self_iff]
  intro c hc
  exact decide_eq_true (by rintro rfl; exact hn hc)

theorem getD_eq (m : List Char) (p : Nat) : m.getD p nul = (m.drop p).headD nul := by
  rw [List.headD_eq_head?_getD, List.head?_drop, List.getD_eq_getElem?_getD]

theorem set_nul_eq (h : m.getD i nul = nul) : m.set i nul = m := by
  apply List.ext_getElem?
  intro j
  rw [List.getElem?_set]
  split_ifs with hij hlt
  · subst hij
    rw [List.getD_eq_getElem?_getD, List.getElem?_eq_getElem hlt, Option.getD_some] at h
    rw [List.getElem?_eq_getElem hlt, h]
  · subst hij
    rw [List.getElem?_eq_none (by omega)]
  · rfl

theorem drop_takeWhile_length (q : Char → Bool) (t : List Char) :
    t.drop (t.takeWhile q).length = t.dropWhile q := by
  have h := List.takeWhile_append_dropWhile (p := q) (l := t)
  exact (congrArg (List.drop (t.takeWhile q).length) h).symm.trans List.drop_left

/-- What stands in memory from each token on, for a text that is read from the middle of
a token or from between two of them. -/
def tokens (delim : List Char) : (inside : Bool) → List Char → List (List Char)
  | _, [] => []
  | inside, c :: t =>
    if c = nul then []
    else if c ∈ delim then tokens delim false t
    else if inside then tokens delim true t
    else (c :: t) :: tokens delim true t

theorem tokens_false (hd : nul ∉ delim) (t : List Char) :
    tokens delim false (t.dropWhile (· ∈ delim)) = tokens delim false t := by
  induction t with
  | nil => rfl
  | cons c t ih =>
    by_cases hc : c ∈ delim
    · have hne : c ≠ nul := by
        rintro rfl
        exact hd hc
      simp [hc, hne, tokens, ih]
    · simp [hc]

theorem tokens_true (t : List Char) : tokens delim true t =
    tokens delim false (t.dropWhile fun c => c ≠ nul ∧ c ∉ delim) := by
  induction t with
  | nil => rfl
  | cons c t ih =>
    by_cases hc : c = nul
    · simp [hc, tokens]
    · by_cases hm : c ∈ delim
      · simp [hc, hm, tokens]
      · simp [hc, hm, tokens, ih]

theorem drop_strspn (m : List Char) (p : Nat) (set : List Char) :
    m.drop (p + strspn m p set) = (m.drop p).dropWhile (· ∈ set) := by
  rw [strspn, ← List.drop_drop, drop_takeWhile_length]

theorem drop_strcspn (m : List Char) (p : Nat) (set : List Char) : m.drop (p + strcspn m p set) =
    (m.drop p).dropWhile fun c => c ≠ nul ∧ c ∉ set := by
  rw [strcspn, ← List.drop_drop, drop_takeWhile_length]

def Found (m delim : List Char) (q save : Nat) (m' : List Char) : Prop :=
  m.getD (q + strcspn m q delim) nul = nul ∧ save = q + strcspn m q delim ∧ m' = m ∨
    m.getD (q + strcspn m q delim) nul ≠ nul ∧ save = q + strcspn m q delim + 1 ∧
      m' = m.set (q + strcspn m q delim) nul

theorem strtok_r_none (h : m.getD (p + strspn m p delim) nul = nul) :
    strtok_r m p delim = (none, p + strspn m p delim, m) := by
  rw [strtok_r]
  exact if_pos h

theorem strtok_r_some (h : m.getD (p + strspn m p delim) nul ≠ nul) :
    ∃ save m', strtok_r m p delim = (some (p + strspn m p delim), save, m') ∧
      Found m delim (p + strspn m p delim) save m' := by
  rw [strtok_r]
  simp only [h, if_false]
  split_ifs with hstop
  · exact ⟨_, _, rfl, .inl ⟨hstop, rfl, rfl⟩⟩
  · exact ⟨_, _, rfl, .inr ⟨hstop, rfl, rfl⟩⟩

theorem tokens_save {q save : Nat} {m' : List Char} (h : Found m delim q save m') :
    tokens delim true (m.drop q) = tokens delim false (m.drop save) := by
  have hstop := drop_strcspn m q delim
  rw [tokens_true, ← hstop]
  obtain ⟨-, rfl, -⟩ | ⟨hne, rfl, -⟩ := h
  · rfl
  · rw [getD_eq] at hne
    rw [← List.tail_drop (i := q + strcspn m q delim)]
    cases ht : m.drop (q + strcspn m q delim) with
    | nil => rfl
    | cons c t =>
      rw [ht, List.headD_cons] at hne
      have hhead := List.head?_dropWhile_not (fun c => decide (c ≠ nul ∧ c ∉ delim)) (m.drop q)
      rw [← hstop, ht] at hhead
      have hmem : c ∈ delim := by simpa [hne] using hhead
      simp [tokens, hne, hmem]

theorem strtok_r_cases (hd : nul ∉ delim) (m : List Char) (p : Nat) :
    (∃ save, strtok_r m p delim = (none, save, m) ∧ tokens delim false (m.drop p) = []) ∨
      ∃ q save m', strtok_r m p delim = (some q, save, m') ∧ Found m delim q save m' ∧
        tokens delim false (m.drop p) = m.drop q :: tokens delim false (m.drop save) := by
  have hdrop := drop_strspn m p delim
  have htokens := tokens_false hd (m.drop p)
  rw [← hdrop] at htokens
  have hget := getD_eq m (p + strspn m p delim)
  by_cases hnul : m.getD (p + strspn m p delim) nul = nul
  · refine .inl ⟨_, strtok_r_none hnul, ?_⟩
    rw [← htokens]
    rw [hnul] at hget
    cases ht : m.drop (p + strspn m p delim) with
    | nil => rfl
    | cons c t =>
      rw [ht, List.headD_cons] at hget
      simp [tokens, ← hget]
  · right
    obtain ⟨save, m', heq, hf⟩ := strtok_r_some hnul
    refine ⟨_, save, m', heq, hf, ?_⟩
    rw [← htokens, ← tokens_save hf]
    cases ht : m.drop (p + strspn m p delim) with
    | nil =>
      rw [ht] at hget
      exact absurd hget hnul
    | cons c t =>
      rw [ht, List.headD_cons] at hget
      have hhead := List.head?_dropWhile_not (fun c => decide (c ∈ delim)) (m.drop p)
      rw [← hdrop, ht] at hhead
      have hmem : c ∉ delim := by simpa using hhead
      simp [tokens, hget ▸ hnul, hmem]

theorem string_of_found {q save : Nat} {m' body after : List Char} (h : Found m delim q save m')
    (hm : m.drop q = body ++ nul :: after) (hn : nul ∉ body) :
    string m' q = body.takeWhile (fun c => c ≠ nul ∧ c ∉ delim) ∧
      string m' save = (body.dropWhile fun c => c ≠ nul ∧ c ∉ delim).tail := by
  have hstop : m.drop (q + strcspn m q delim) =
      (body.dropWhile fun c => c ≠ nul ∧ c ∉ delim) ++ nul :: after := by
    rw [drop_strcspn, hm, dropWhile_append_nul (by simp)]
  have hcut : string (m.set (q + strcspn m q delim) nul) q =
      body.takeWhile fun c => c ≠ nul ∧ c ∉ delim := by
    have hset := string_set (m := m) (p := q) (fun c => decide (c ≠ nul ∧ c ∉ delim))
      (by simp +contextual)
    rw [strcspn, hset, hm, takeWhile_append_nul (by simp)]
  have hrest : nul ∉ body.dropWhile fun c => c ≠ nul ∧ c ∉ delim :=
    fun h => hn ((List.dropWhile_sublist _).subset h)
  have hend := getD_eq m (q + strcspn m q delim)
  rw [hstop] at hend
  cases hleft : body.dropWhile fun c => c ≠ nul ∧ c ∉ delim with
  | nil =>
    rw [hleft] at hend hstop
    obtain ⟨-, rfl, rfl⟩ | ⟨hne, -, -⟩ := h
    · rw [set_nul_eq hend] at hcut
      exact ⟨hcut, string_eq hstop (by simp)⟩
    · exact absurd hend hne
  | cons d rest =>
    rw [hleft] at hend hstop hrest
    obtain ⟨hnul, -, -⟩ | ⟨-, rfl, rfl⟩ := h
    · exact absurd (hnul.symm.trans hend) fun heq => hrest (heq ▸ List.mem_cons_self)
    · have hdrop : (m.set (q + strcspn m q delim) nul).drop (q + strcspn m q delim + 1) =
          rest ++ nul :: after := by
        rw [drop_set_of_lt (by omega), ← List.tail_drop, hstop]
        rfl
      exact ⟨hcut, string_eq hdrop fun h => hrest (List.mem_cons_of_mem d h)⟩

theorem strtok_r_string {s after : List Char} (hd : nul ∉ delim)
    (hm : m.drop p = s ++ nul :: after) (hn : nul ∉ s) :
    let body := s.dropWhile (· ∈ delim)
    let r := strtok_r m p delim
    (body = [] → r.1 = none) ∧ (body ≠ [] → ∃ tok, r.1 = some tok ∧
      string r.2.2 tok = body.takeWhile (fun c => c ≠ nul ∧ c ∉ delim) ∧
        string r.2.2 r.2.1 = (body.dropWhile fun c => c ≠ nul ∧ c ∉ delim).tail) := by
  intro body r
  have hdrop : m.drop (p + strspn m p delim) = body ++ nul :: after := by
    rw [drop_strspn, hm, dropWhile_append_nul (by simpa using hd)]
  have hbody : nul ∉ body := fun h => hn ((List.dropWhile_sublist _).subset h)
  have hhead := getD_eq m (p + strspn m p delim)
  rw [hdrop] at hhead
  constructor
  · intro hnil
    rw [hnil] at hhead
    exact congrArg Prod.fst (strtok_r_none hhead)
  · intro hne
    obtain ⟨c, b, hcb⟩ := List.exists_cons_of_ne_nil hne
    have hc : m.getD (p + strspn m p delim) nul ≠ nul := by
      rw [hhead, hcb]
      rintro (rfl : c = nul)
      exact hbody (hcb ▸ List.mem_cons_self)
    obtain ⟨save, m', hr, hfound⟩ := strtok_r_some hc
    have heq : r = (some (p + strspn m p delim), save, m') := hr
    rw [heq]
    exact ⟨_, rfl, string_of_found hfound hdrop hbody⟩

end PingPong.CMemory
