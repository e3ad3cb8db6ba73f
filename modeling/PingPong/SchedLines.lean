import PingPong.CMemory

namespace PingPong.SchedLines

open CMemory

variable {m m1 m2 l l1 l2 k s v after : List Char} {p buf1 buf2 : Nat}

/-- `struct sched_data_struct`, whose pointers are positions in the buffer of the first
thread, and `value2` in that of the second. -/
structure SchedData where
  key : Option Nat
  value1 : Option Nat
  value2 : Option Nat
deriving DecidableEq, Repr

/-- What `split_sched_lines` returns, what it leaves in `sched_data` if it writes there,
and the last positions that its scans look at. -/
structure Split where
  ret : Nat
  sched_data : Option SchedData
  m1 : List Char
  m2 : List Char
  reads1 : List Nat
  reads2 : List Nat
deriving DecidableEq, Repr

def separators : List Char := [':', ' ']

def split_sched_lines (m1 : List Char) (buf1 : Nat) (m2 : List Char) (buf2 : Nat) : Split :=
  let count1a := strcspn m1 buf1 separators
  let count2a := strcspn m2 buf2 separators
  let reads1 := [buf1 + count1a]
  let reads2 := [buf2 + count2a]
  if count1a ≤ 0 ∨ count2a ≤ 0 then ⟨0, none, m1, m2, reads1, reads2⟩
  else
    let m1 := m1.set (buf1 + count1a) nul
    let m2 := m2.set (buf2 + count2a) nul
    if string m1 buf1 ≠ string m2 buf2 then ⟨0, none, m1, m2, reads1, reads2⟩
    else
      let count1a := count1a + 1
      let count2a := count2a + 1
      let count1b := strspn m1 (buf1 + count1a) separators
      let count2b := strspn m2 (buf2 + count2a) separators
      let reads1 := reads1 ++ [buf1 + count1a + count1b]
      let reads2 := reads2 ++ [buf2 + count2a + count2b]
      if count1b = 0 ∨ count2b = 0 then ⟨0, some ⟨none, none, none⟩, m1, m2, reads1, reads2⟩
      else ⟨1, some ⟨some buf1, some (buf1 + count1a + count1b), some (buf2 + count2a + count2b)⟩,
        m1, m2, reads1, reads2⟩

example : (split_sched_lines "k : 1".toList 0 "k : 2".toList 0).sched_data =
    some ⟨some 0, some 4, some 4⟩ := by decide +kernel

def key (t : List Char) : List Char := t.takeWhile fun c => c ≠ nul ∧ c ∉ separators

def gap (t : List Char) : List Char :=
  (t.drop ((key t).length + 1)).takeWhile (· ∈ separators)

theorem strcspn_eq (m : List Char) (p : Nat) : strcspn m p separators = (key (m.drop p)).length :=
  rfl

theorem string_cut (m : List Char) (p : Nat) :
    string (m.set (p + (key (m.drop p)).length) nul) p = key (m.drop p) :=
  string_set _ (by simp +contextual)

theorem strspn_cut (m : List Char) (p : Nat) : strspn (m.set (p + (key (m.drop p)).length) nul)
    (p + ((key (m.drop p)).length + 1)) separators = (gap (m.drop p)).length := by
  rw [strspn, drop_set_of_lt (by omega), gap, List.drop_drop]

/-- What becomes of two lines depends on their keys and on what follows these. -/
theorem split_eq (m1 : List Char) (buf1 : Nat) (m2 : List Char) (buf2 : Nat) :
    let k1 := key (m1.drop buf1)
    let k2 := key (m2.drop buf2)
    let g1 := gap (m1.drop buf1)
    let g2 := gap (m2.drop buf2)
    let end1 := buf1 + k1.length
    let end2 := buf2 + k2.length
    let value1 := end1 + 1 + g1.length
    let value2 := end2 + 1 + g2.length
    split_sched_lines m1 buf1 m2 buf2 =
      if k1 = [] ∨ k2 = [] then ⟨0, none, m1, m2, [end1], [end2]⟩
      else if k1 ≠ k2 then ⟨0, none, m1.set end1 nul, m2.set end2 nul, [end1], [end2]⟩
      else if g1 = [] ∨ g2 = [] then ⟨0, some ⟨none, none, none⟩, m1.set end1 nul,
        m2.set end2 nul, [end1, value1], [end2, value2]⟩
      else ⟨1, some ⟨some buf1, some value1, some value2⟩, m1.set end1 nul, m2.set end2 nul,
        [end1, value1], [end2, value2]⟩ := by
  simp only [split_sched_lines, strcspn_eq, string_cut, strspn_cut, Nat.le_zero,
    List.length_eq_zero_iff, List.singleton_append, Nat.add_assoc]

def separator (l : List Char) : List Char := (l.drop (key l).length).takeWhile (· ∈ separators)

def value (l : List Char) : List Char := (l.drop (key l).length).dropWhile (· ∈ separators)

theorem drop_key (l : List Char) :
    l.drop (key l).length = l.dropWhile fun c => c ≠ nul ∧ c ∉ separators := by
  have h := List.takeWhile_append_dropWhile (p := fun c => decide (c ≠ nul ∧ c ∉ separators))
    (l := l)
  exact (congrArg (List.drop (key l).length) h).symm.trans List.drop_left

theorem line_eq (l : List Char) : key l ++ (separator l ++ value l) = l := by
  rw [separator, value, List.takeWhile_append_dropWhile, drop_key, key,
    List.takeWhile_append_dropWhile]

theorem length_line (l : List Char) :
    l.length = (key l).length + ((separator l).length + (value l).length) := by
  rw [← List.length_append, ← List.length_append, line_eq]

structure WellFormed (l k s v : List Char) : Prop where
  line : l = k ++ (s ++ v)
  key_ne : k ≠ []
  key_chars : ∀ c ∈ k, c ∉ separators
  separator_ne : s ≠ []
  separator_chars : ∀ c ∈ s, c ∈ separators
  value_ne : v ≠ []
  value_head : ∀ c ∈ v.head?, c ∉ separators

theorem WellFormed.key_eq (h : WellFormed l k s v) (hn : nul ∉ l) : key l = k := by
  obtain ⟨c, cs, rfl⟩ := List.exists_cons_of_ne_nil h.separator_ne
  have hk : ∀ x ∈ k, decide (x ≠ nul ∧ x ∉ separators) = true := by
    intro x hx
    have hne : x ≠ nul := by
      rintro rfl
      exact hn (by simp [h.line, hx])
    simpa using ⟨hne, h.key_chars x hx⟩
  have hc : c ∈ separators := h.separator_chars c (by simp)
  rw [key, h.line, List.takeWhile_append_of_pos hk]
  simp [hc]

theorem WellFormed.separator_eq (h : WellFormed l k s v) (hn : nul ∉ l) :
    separator l = s ∧ value l = v := by
  have hs : ∀ x ∈ s, decide (x ∈ separators) = true := by simpa using h.separator_chars
  obtain ⟨c, cs, rfl⟩ := List.exists_cons_of_ne_nil h.value_ne
  have hc : c ∉ separators := h.value_head c (by simp)
  rw [separator, value, h.key_eq hn, h.line, List.drop_left, List.takeWhile_append_of_pos hs,
    List.dropWhile_append_of_pos hs]
  simp [hc]

theorem key_append (l after : List Char) : key (l ++ nul :: after) = key l :=
  takeWhile_append_nul (by simp) l after

theorem gap_append (hs : separator l ≠ []) (after : List Char) :
    (gap (l ++ nul :: after)).length + 1 = (separator l).length := by
  cases hrest : l.drop (key l).length with
  | nil => exact absurd (by simp [separator, hrest]) hs
  | cons c rest =>
    have hlt : (key l).length < l.length := by
      rw [← Nat.not_le]
      intro hle
      simp [List.drop_of_length_le hle] at hrest
    have htail : l.drop ((key l).length + 1) = rest := by
      rw [← List.tail_drop, hrest, List.tail_cons]
    have hc : c ∈ separators := by
      by_contra hc
      exact hs (by simp [separator, hrest, hc])
    rw [gap, key_append, List.drop_append_of_le_length (by omega), htail,
      takeWhile_append_nul (by decide), separator, hrest,
      List.takeWhile_cons_of_pos (by simpa using hc), List.length_cons]

theorem separator_eq_nil (hn : nul ∉ l) (h : separator l = []) : key l = l := by
  have hrest : l.drop (key l).length = [] := by
    cases hrest : l.drop (key l).length with
    | nil => rfl
    | cons c rest =>
      have hc : c ∉ separators := by
        intro hc
        simp [separator, hrest, hc] at h
      have hstop := List.head?_dropWhile_not (fun c => decide (c ≠ nul ∧ c ∉ separators)) l
      rw [← drop_key, hrest] at hstop
      have hnul : c = nul := by simpa [hc] using hstop
      have hmem : c ∈ l := List.mem_of_mem_drop (hrest ▸ List.mem_cons_self)
      exact absurd (hnul ▸ hmem) hn
  have hval := line_eq l
  rw [h, List.nil_append, value, hrest, List.dropWhile_nil, List.append_nil] at hval
  exact hval

theorem wellFormed (hk : key l ≠ []) (hs : separator l ≠ []) (hv : value l ≠ []) :
    WellFormed l (key l) (separator l) (value l) where
  line := (line_eq l).symm
  key_ne := hk
  key_chars c hc := by
    have h := List.mem_takeWhile_imp hc
    simp only [decide_eq_true_eq] at h
    exact h.2
  separator_ne := hs
  separator_chars c hc := by simpa using List.mem_takeWhile_imp hc
  value_ne := hv
  value_head c hc := by
    have h := List.head?_dropWhile_not (· ∈ separators) (l.drop (key l).length)
    rw [← value, Option.mem_def.mp hc] at h
    simpa using h

structure Splits (m1 : List Char) (buf1 : Nat) (l1 m2 : List Char) (buf2 : Nat)
    (l2 : List Char) : Prop where
  matched : ∀ k1 s1 v1 k2 s2 v2, WellFormed l1 k1 s1 v1 → WellFormed l2 k2 s2 v2 →
    let r := split_sched_lines m1 buf1 m2 buf2
    (r.ret = 1 ↔ k1 = k2) ∧ (r.ret = 1 → ∃ key value1 value2,
      r.sched_data = some ⟨some key, some value1, some value2⟩ ∧
        string r.m1 key = k1 ∧ string r.m1 value1 = v1 ∧ string r.m2 value2 = v2)
  reads1 : ∀ i ∈ (split_sched_lines m1 buf1 m2 buf2).reads1, i ≤ buf1 + l1.length
  reads2 : ∀ i ∈ (split_sched_lines m1 buf1 m2 buf2).reads2, i ≤ buf2 + l2.length
  values : ∀ d ∈ (split_sched_lines m1 buf1 m2 buf2).sched_data,
    (∀ i ∈ d.key, buf1 ≤ i ∧ i ≤ buf1 + l1.length) ∧
      (∀ i ∈ d.value1, buf1 ≤ i ∧ i ≤ buf1 + l1.length) ∧
      ∀ i ∈ d.value2, buf2 ≤ i ∧ i ≤ buf2 + l2.length

/-- Lines with one key have a separator each, and if they have values too, then separators
of at least two characters. -/
def Separated (l1 l2 : List Char) : Prop := key l1 ≠ [] → key l1 = key l2 →
  separator l1 ≠ [] ∧ separator l2 ≠ [] ∧ (value l1 ≠ [] → value l2 ≠ [] →
    2 ≤ (separator l1).length ∧ 2 ≤ (separator l2).length)

structure Line (m : List Char) (p : Nat) (l : List Char) : Prop where
  no_nul : nul ∉ l
  exists_after : ∃ after, m.drop p = l ++ nul :: after

theorem Line.key_eq (h : Line m p l) : key (m.drop p) = key l := by
  obtain ⟨after, hm⟩ := h.exists_after
  rw [hm, key_append]

theorem Line.gap_eq (h : Line m p l) (hs : separator l ≠ []) :
    (gap (m.drop p)).length + 1 = (separator l).length := by
  obtain ⟨after, hm⟩ := h.exists_after
  rw [hm, gap_append hs]

/-- The scan for a value stays inside a line only if the line has a separator. -/
theorem Line.separator_ne (h : Line m p l)
    (hle : p + (key (m.drop p)).length + 1 + (gap (m.drop p)).length ≤ p + l.length) :
    separator l ≠ [] := by
  intro hs
  rw [h.key_eq, separator_eq_nil h.no_nul hs] at hle
  omega

theorem Line.string_value (h : Line m p l) (hs : separator l ≠ []) :
    string (m.set (p + (key (m.drop p)).length) nul)
      (p + (key (m.drop p)).length + 1 + (gap (m.drop p)).length) = value l := by
  obtain ⟨after, hm⟩ := h.exists_after
  have hgap := h.gap_eq hs
  have hline := length_line l
  have hpos : p + (key (m.drop p)).length + 1 + (gap (m.drop p)).length =
      p + ((key l).length + (separator l).length) := by
    rw [h.key_eq]
    omega
  have hval : l.drop ((key l).length + (separator l).length) = value l := by
    have hdrop := congrArg (List.drop ((key l).length + (separator l).length)) (line_eq l)
    rw [← hdrop, ← List.append_assoc, ← List.length_append, List.drop_left]
  have hlt : p + (key (m.drop p)).length < p + ((key l).length + (separator l).length) := by
    have hlength := List.length_pos_iff.mpr hs
    rw [h.key_eq]
    omega
  have hdrop : (m.set (p + (key (m.drop p)).length) nul).drop
      (p + ((key l).length + (separator l).length)) = value l ++ nul :: after := by
    rw [drop_set_of_lt hlt, ← List.drop_drop, hm, List.drop_append_of_le_length (by omega), hval]
  rw [hpos]
  refine string_eq hdrop fun hn => h.no_nul ?_
  rw [← line_eq l]
  simp [hn]

theorem separated_of_splits (h1 : Line m1 buf1 l1) (h2 : Line m2 buf2 l2)
    (h : Splits m1 buf1 l1 m2 buf2 l2) : Separated l1 l2 := by
  intro hne heq
  have hsplit := split_eq m1 buf1 m2 buf2
  have hk1 : ¬ (key (m1.drop buf1) = [] ∨ key (m2.drop buf2) = []) := by
    rw [h1.key_eq, h2.key_eq, ← heq, or_self]
    exact hne
  have hk : ¬ key (m1.drop buf1) ≠ key (m2.drop buf2) := by
    rw [h1.key_eq, h2.key_eq]
    exact not_not_intro heq
  simp only [hk1, hk, if_false] at hsplit
  have hsep1 : separator l1 ≠ [] := by
    refine h1.separator_ne (h.reads1 _ ?_)
    rw [hsplit]
    split_ifs <;> simp
  have hsep2 : separator l2 ≠ [] := by
    refine h2.separator_ne (h.reads2 _ ?_)
    rw [hsplit]
    split_ifs <;> simp
  refine ⟨hsep1, hsep2, fun hv1 hv2 => ?_⟩
  have hret := (h.matched _ _ _ _ _ _ (wellFormed hne hsep1 hv1)
    (wellFormed (heq ▸ hne) hsep2 hv2)).1.mpr heq
  have hgap1 := h1.gap_eq hsep1
  have hgap2 := h2.gap_eq hsep2
  rw [hsplit] at hret
  split_ifs at hret with hgap
  rw [not_or, ← List.length_eq_zero_iff, ← List.length_eq_zero_iff] at hgap
  omega

theorem Line.value_le (h : Line m p l) (hs : separator l ≠ []) :
    p + (key l).length + 1 + (gap (m.drop p)).length ≤ p + l.length := by
  have hgap := h.gap_eq hs
  have hlen := length_line l
  omega

theorem matched_of_separated (h1 : Line m1 buf1 l1) (h2 : Line m2 buf2 l2)
    (h : Separated l1 l2) {k1 s1 v1 k2 s2 v2 : List Char} (w1 : WellFormed l1 k1 s1 v1)
    (w2 : WellFormed l2 k2 s2 v2) :
    let r := split_sched_lines m1 buf1 m2 buf2
    (r.ret = 1 ↔ k1 = k2) ∧ (r.ret = 1 → ∃ key value1 value2,
      r.sched_data = some ⟨some key, some value1, some value2⟩ ∧
        string r.m1 key = k1 ∧ string r.m1 value1 = v1 ∧ string r.m2 value2 = v2) := by
  have hk1 := h1.key_eq.trans (w1.key_eq h1.no_nul)
  have hk2 := h2.key_eq.trans (w2.key_eq h2.no_nul)
  have hne : ¬ (k1 = [] ∨ k2 = []) := not_or.mpr ⟨w1.key_ne, w2.key_ne⟩
  have hsplit := split_eq m1 buf1 m2 buf2
  simp only [hk1, hk2, hne, if_false] at hsplit
  by_cases heq : k1 = k2
  · obtain ⟨hsep1, hv1⟩ := w1.separator_eq h1.no_nul
    obtain ⟨hsep2, hv2⟩ := w2.separator_eq h2.no_nul
    have hkey : key l1 = key l2 := by rw [w1.key_eq h1.no_nul, w2.key_eq h2.no_nul, heq]
    obtain ⟨hne1, hne2, hlong⟩ := h (w1.key_eq h1.no_nul ▸ w1.key_ne) hkey
    obtain ⟨hl1, hl2⟩ := hlong (hv1 ▸ w1.value_ne) (hv2 ▸ w2.value_ne)
    have hgap1 := h1.gap_eq hne1
    have hgap2 := h2.gap_eq hne2
    have hgap : ¬ (gap (m1.drop buf1) = [] ∨ gap (m2.drop buf2) = []) := by
      rw [← List.length_eq_zero_iff, ← List.length_eq_zero_iff]
      omega
    simp only [hgap, not_not_intro heq, if_false] at hsplit
    have hcut := string_cut m1 buf1
    have hval1 := h1.string_value hne1
    have hval2 := h2.string_value hne2
    rw [hk1] at hcut hval1
    rw [hk2] at hval2
    simp only [hsplit, heq, forall_const]
    exact ⟨trivial, _, _, _, rfl, heq ▸ hcut, hv1 ▸ heq ▸ hval1, hv2 ▸ hval2⟩
  · simp [hsplit, heq]

theorem splits_of_separated (h1 : Line m1 buf1 l1) (h2 : Line m2 buf2 l2)
    (h : Separated l1 l2) : Splits m1 buf1 l1 m2 buf2 l2 := by
  have hlen1 := length_line l1
  have hlen2 := length_line l2
  have hsplit := split_eq m1 buf1 m2 buf2
  simp only [h1.key_eq, h2.key_eq] at hsplit
  have hvalue (hne : ¬ (key l1 = [] ∨ key l2 = [])) (heq : ¬ key l1 ≠ key l2) :
      buf1 + (key l1).length + 1 + (gap (m1.drop buf1)).length ≤ buf1 + l1.length ∧
        buf2 + (key l2).length + 1 + (gap (m2.drop buf2)).length ≤ buf2 + l2.length := by
    obtain ⟨hsep1, hsep2, -⟩ := h (fun hnil => hne (.inl hnil)) (not_not.mp heq)
    exact ⟨h1.value_le hsep1, h2.value_le hsep2⟩
  refine ⟨fun k1 s1 v1 k2 s2 v2 w1 w2 => matched_of_separated h1 h2 h w1 w2, ?_, ?_, ?_⟩
  · intro i hi
    rw [hsplit] at hi
    split_ifs at hi with hne heq <;> simp only [List.mem_cons, List.not_mem_nil, or_false] at hi
    · omega
    · omega
    all_goals
      have hle := (hvalue hne heq).1
      omega
  · intro i hi
    rw [hsplit] at hi
    split_ifs at hi with hne heq <;> simp only [List.mem_cons, List.not_mem_nil, or_false] at hi
    · omega
    · omega
    all_goals
      have hle := (hvalue hne heq).2
      omega
  · intro d hd
    rw [hsplit] at hd
    split_ifs at hd with hne heq
    · cases hd
    · cases hd
    · obtain rfl := Option.some.inj hd
      simp
    · obtain rfl := Option.some.inj hd
      have hle := hvalue hne heq
      simp only [Option.mem_def, Option.some.injEq, forall_eq']
      omega

/-- `split_sched_lines` does what it is to do exactly with the lines whose separators are
long enough. -/
theorem sched_lines (h1 : Line m1 buf1 l1) (h2 : Line m2 buf2 l2) :
    Splits m1 buf1 l1 m2 buf2 l2 ↔ Separated l1 l2 :=
  ⟨separated_of_splits h1 h2, splits_of_separated h1 h2⟩

theorem sched_lines_spaced :
    Splits ("k : 1".toList ++ [nul]) 0 "k : 1".toList ("k : 2".toList ++ [nul]) 0 "k : 2".toList ↔
      Separated "k : 1".toList "k : 2".toList :=
  sched_lines ⟨by decide, [], rfl⟩ ⟨by decide, [], rfl⟩

/-- A key and a value with one character between them are not told apart, and a line
of dashes is left behind. -/
theorem sched_lines_short :
    (split_sched_lines ("k:1".toList ++ [nul]) 0 ("k:2".toList ++ [nul]) 0).ret = 0 ∧
      3 ∈ (split_sched_lines ("--".toList ++ [nul]) 0 ("--".toList ++ [nul]) 0).reads1 ∧
      ¬ ∀ m1 buf1 l1 m2 buf2 l2, Line m1 buf1 l1 → Line m2 buf2 l2 →
        Splits m1 buf1 l1 m2 buf2 l2 := by
  have hret : (split_sched_lines ("k:1".toList ++ [nul]) 0 ("k:2".toList ++ [nul]) 0).ret = 0 := by
    decide +kernel
  refine ⟨hret, by decide +kernel, fun h => ?_⟩
  have hsplit := h ("k:1".toList ++ [nul]) 0 "k:1".toList ("k:2".toList ++ [nul]) 0 "k:2".toList
    ⟨by decide, [], rfl⟩ ⟨by decide, [], rfl⟩
  have hone := (hsplit.matched ['k'] [':'] ['1'] ['k'] [':'] ['2']
    ⟨rfl, by simp, by simp [separators], by simp, by simp [separators], by simp, by simp [separators]⟩
    ⟨rfl, by simp, by simp [separators], by simp, by simp [separators], by simp,
      by simp [separators]⟩).1.mpr rfl
  rw [hret] at hone
  cases hone

end PingPong.SchedLines
