import PingPong.SchedTable

namespace PingPong.SchedReport

open CMemory SchedLines SchedTable TransitionSystem

variable {m m' m1 m2 l l1 l2 t t1 t2 body : List Char} {p q save buf1 buf2 : Nat}
variable {ls ls1 ls2 : List (List Char)}

/-- The lines of a text. Empty ones are passed over. -/
def lines (t : List Char) : List (List Char) := (t.splitOn '\n').filter (· ≠ [])

def rest (t : List Char) : List Char := (t.dropWhile fun c => c ≠ nul ∧ c ∉ newline).tail

/-- What is printed of two lines: those of one name that is asked for, if neither value
follows its name after a single character. -/
def row (l1 l2 : List Char) : Option (List Char × List Char × List Char) :=
  if key l1 = key l2 ∧ interesting_sched_stat (key l1) ∧ 2 ≤ (separator l1).length ∧
      2 ≤ (separator l2).length then some (key l1, value l1, value l2)
  else none

def report (ls1 ls2 : List (List Char)) : List (List Char × List Char × List Char) :=
  (ls1.zip ls2).filterMap fun l => row l.1 l.2

def Valued (ls : List (List Char)) : Prop :=
  ∀ l ∈ ls, interesting_sched_stat (key l) → separator l ≠ []

instance (ls : List (List Char)) : Decidable (Valued ls) :=
  inferInstanceAs (Decidable (∀ l ∈ ls, _ → _))

theorem lines_append_newline (t after : List Char) :
    lines (t ++ '\n' :: after) = lines t ++ lines after := by
  rw [lines, List.splitOn_append_cons_self, List.filter_append]
  rfl

theorem lines_dropWhile (t : List Char) : lines (t.dropWhile (· ∈ newline)) = lines t := by
  induction t with
  | nil => rfl
  | cons c t ih =>
    by_cases hc : c ∈ newline
    · obtain rfl : c = '\n' := by simpa [newline] using hc
      rw [List.dropWhile_cons_of_pos (by simpa using hc), ih]
      exact (lines_append_newline [] t).symm
    · rw [List.dropWhile_cons_of_neg (by simpa using hc)]

theorem line_append_rest (hn : nul ∉ t) :
    t = line t ∧ rest t = [] ∨ t = line t ++ '\n' :: rest t := by
  have ht := List.takeWhile_append_dropWhile (p := fun c => decide (c ≠ nul ∧ c ∉ newline)) (l := t)
  cases hd : t.dropWhile fun c => c ≠ nul ∧ c ∉ newline with
  | nil =>
    rw [hd, List.append_nil] at ht
    exact .inl ⟨ht.symm, by rw [rest, hd, List.tail_nil]⟩
  | cons d after =>
    have hmem : d ∈ t := (List.dropWhile_sublist _).subset (hd ▸ List.mem_cons_self)
    have hne : d ≠ nul := by
      rintro rfl
      exact hn hmem
    have hhead := List.head?_dropWhile_not (fun c => decide (c ≠ nul ∧ c ∉ newline)) t
    rw [hd] at hhead
    have hnl : d = '\n' := by simpa [hne, newline] using hhead
    rw [hd, hnl] at ht
    right
    rw [rest, hd, List.tail_cons]
    exact ht.symm

theorem not_mem_line (t : List Char) : '\n' ∉ line t := by
  intro h
  have hc := List.mem_takeWhile_imp h
  simp [newline] at hc

theorem lines_eq (hn : nul ∉ t) (h : line t ≠ []) : lines t = line t :: lines (rest t) := by
  obtain ⟨ht, hrest⟩ | ht := line_append_rest hn
  · rw [hrest]
    conv_lhs => rw [ht]
    rw [lines, List.splitOn_eq_singleton (not_mem_line t),
      List.filter_cons_of_pos (by simpa using h)]
    rfl
  · conv_lhs => rw [ht]
    rw [lines, List.splitOn_append_cons_self_of_not_mem (not_mem_line t),
      List.filter_cons_of_pos (by simpa using h)]
    rfl

theorem getD_length (h : Line m p l) : m.getD (p + l.length) nul = nul := by
  obtain ⟨after, hm⟩ := h.exists_after
  rw [getD_eq, ← List.drop_drop, hm, List.drop_left, List.headD_cons]

theorem line_of_found (h : Found m newline q save m') (hl : Line m q body) :
    Line m' q (line body) ∧ Line m' save (rest body) ∧ q + (line body).length ≤ save := by
  obtain ⟨hn, after, hm⟩ := hl
  have hlen : strcspn m q newline = (line body).length := by
    rw [strcspn, hm, takeWhile_append_nul (by simp)]
    rfl
  have hdrop : ∀ s, body = line body ++ s → m.drop q = line body ++ (s ++ nul :: after) := by
    intro s hs
    rw [hm, ← List.append_assoc, ← hs]
  have hend : ∀ s, body = line body ++ s →
      m.drop (q + (line body).length) = s ++ nul :: after := by
    intro s hs
    rw [← List.drop_drop, hdrop s hs, List.drop_left]
  have hline : nul ∉ line body := fun h => hn ((List.takeWhile_sublist _).subset h)
  rw [Found, hlen, getD_eq] at h
  obtain ⟨hbody, hrest⟩ | hbody := line_append_rest hn
  · have hstop := hend [] (by rw [List.append_nil]; exact hbody)
    rw [hstop] at h
    rw [hrest]
    obtain ⟨-, rfl, rfl⟩ | ⟨hne, -, -⟩ := h
    · exact ⟨⟨hline, after, hbody ▸ hm⟩, ⟨by simp, after, hstop⟩, le_refl _⟩
    · exact absurd rfl hne
  · have hstop := hend _ hbody
    rw [hstop] at h
    obtain ⟨hnul, -, -⟩ | ⟨-, rfl, rfl⟩ := h
    · have hne : '\n' ≠ nul := by decide
      exact absurd hnul hne
    · refine ⟨⟨hline, rest body ++ nul :: after, ?_⟩, ⟨?_, after, ?_⟩, by omega⟩
      · rw [drop_set_of_le (by omega), Nat.add_sub_cancel_left, hdrop _ hbody,
          List.set_append_right _ _ (le_refl _), Nat.sub_self]
        rfl
      · exact fun h => hn ((List.tail_sublist _).trans (List.dropWhile_sublist _) |>.subset h)
      · rw [drop_set_of_lt (by omega), ← List.tail_drop, hstop]
        rfl

def Front (m : List Char) (tok : Option Nat) (save : Nat) (ls : List (List Char)) : Prop :=
  match tok with
  | none => ls = []
  | some q => ∃ l t, ls = l :: lines t ∧ Line m q l ∧ Line m save t ∧ q + l.length ≤ save

theorem front_strtok_r (h : Line m p t) :
    let r := strtok_r m p newline
    Front r.2.2 r.1 r.2.1 (lines t) := by
  intro r
  obtain ⟨hn, after, hm⟩ := h
  have hbody : nul ∉ t.dropWhile (· ∈ newline) := fun h => hn ((List.dropWhile_sublist _).subset h)
  have hdrop : m.drop (p + strspn m p newline) = t.dropWhile (· ∈ newline) ++ nul :: after := by
    rw [drop_strspn, hm, dropWhile_append_nul (by decide)]
  have hget := getD_eq m (p + strspn m p newline)
  rw [hdrop] at hget
  rw [← lines_dropWhile]
  cases hd : t.dropWhile (· ∈ newline) with
  | nil =>
    rw [hd] at hget
    have hr : r = _ := strtok_r_none hget
    rw [hr]
    rfl
  | cons c body =>
    rw [hd] at hget hbody hdrop
    have hc : c ≠ nul := by
      rintro rfl
      exact hbody List.mem_cons_self
    have hstart : m.getD (p + strspn m p newline) nul ≠ nul := by
      rw [hget]
      exact hc
    obtain ⟨save, m', heq, hfound⟩ := strtok_r_some hstart
    have hr : r = _ := heq
    obtain ⟨hline, hrest, hle⟩ := line_of_found hfound ⟨hbody, after, hdrop⟩
    have hhead := List.head?_dropWhile_not (fun c => decide (c ∈ newline)) t
    rw [hd] at hhead
    have hne : line (c :: body) ≠ [] := by
      have hmem : c ∉ newline := by simpa using hhead
      simp [line, hc, hmem]
    rw [hr]
    exact ⟨_, _, lines_eq hbody hne, hline, hrest, hle⟩

/-- What `split_sched_lines` marks is not after the line. -/
theorem line_of_cut (hl : Line m q l) (ht : Line m save t) (hle : q + l.length ≤ save)
    (hm : m' = m ∨ m' = m.set (q + (key l).length) nul) : Line m' save t := by
  obtain rfl | rfl := hm
  · exact ht
  · have hkey := length_line l
    by_cases hlt : q + (key l).length < save
    · obtain ⟨after, heq⟩ := ht.exists_after
      exact ⟨ht.no_nul, after, by rw [drop_set_of_lt hlt, heq]⟩
    · have heq : (key l).length = l.length := by omega
      rw [heq, set_nul_eq (getD_length hl)]
      exact ht

theorem split_row (h1 : Line m1 buf1 l1) (h2 : Line m2 buf2 l2)
    (hv1 : interesting_sched_stat (key l1) → separator l1 ≠ [])
    (hv2 : interesting_sched_stat (key l2) → separator l2 ≠ []) (s : State) :
    let r := split_sched_lines m1 buf1 m2 buf2
    (r.m1 = m1 ∨ r.m1 = m1.set (buf1 + (key l1).length) nul) ∧
      (r.m2 = m2 ∨ r.m2 = m2.set (buf2 + (key l2).length) nul) ∧
      ((s.write r).keep r).stdout = s.stdout ++ (row l1 l2).toList := by
  have hsplit := split_eq m1 buf1 m2 buf2
  simp only [h1.key_eq, h2.key_eq] at hsplit
  rw [hsplit]
  split_ifs with hne heq hgap
  · refine ⟨.inl rfl, .inl rfl, ?_⟩
    have hrow : row l1 l2 = none := by
      refine if_neg ?_
      rintro ⟨hk, hi, -⟩
      have hnil : key l1 = [] := hne.elim id fun h => hk.trans h
      rw [hnil] at hi
      exact absurd hi (by decide)
    simp [State.write, State.keep, hrow]
  · refine ⟨.inr rfl, .inr rfl, ?_⟩
    have hrow : row l1 l2 = none := if_neg fun h => heq h.1
    simp [State.write, State.keep, hrow]
  · refine ⟨.inr rfl, .inr rfl, ?_⟩
    have hrow : row l1 l2 = none := by
      refine if_neg ?_
      rintro ⟨hk, hi, hl1, hl2⟩
      have hg1 := h1.gap_eq (hv1 hi)
      have hg2 := h2.gap_eq (hv2 (hk ▸ hi))
      obtain hnil | hnil := hgap
      · rw [hnil, List.length_nil] at hg1
        omega
      · rw [hnil, List.length_nil] at hg2
        omega
    simp [State.write, State.keep, hrow]
  · refine ⟨.inr rfl, .inr rfl, ?_⟩
    have hkey := string_cut m1 buf1
    rw [h1.key_eq] at hkey
    by_cases hi : interesting_sched_stat (key l1)
    · have heq := not_not.mp heq
      have hs1 := hv1 hi
      have hs2 := hv2 (heq ▸ hi)
      have hval1 := h1.string_value hs1
      have hval2 := h2.string_value hs2
      have hg1 := h1.gap_eq hs1
      have hg2 := h2.gap_eq hs2
      rw [← List.length_eq_zero_iff, ← List.length_eq_zero_iff] at hgap
      rw [h1.key_eq] at hval1
      rw [h2.key_eq] at hval2
      have hrow : row l1 l2 = some (key l1, value l1, value l2) :=
        if_pos ⟨heq, hi, by omega, by omega⟩
      simp [State.write, State.keep, hkey, hi, hval1, hval2, hrow]
    · have hrow : row l1 l2 = none := if_neg fun h => hi h.2.1
      simp [State.write, State.keep, hkey, hi, hrow]

structure Fronts (s : State) (ls1 ls2 : List (List Char)) : Prop where
  front1 : Front s.m1 s.sched_tok1 s.save_ptr1 ls1
  front2 : Front s.m2 s.sched_tok2 s.save_ptr2 ls2

theorem turn_prints {s : State} (h : Fronts s ls1 ls2) (hv1 : Valued ls1) (hv2 : Valued ls2) :
    turn s = none ∧ (ls1 = [] ∨ ls2 = []) ∨
      ∃ l1 ls1' l2 ls2' s', ls1 = l1 :: ls1' ∧ ls2 = l2 :: ls2' ∧ turn s = some s' ∧
        Fronts s' ls1' ls2' ∧ s'.stdout = s.stdout ++ (row l1 l2).toList := by
  obtain ⟨h1, h2⟩ := h
  obtain ⟨hnone, htok⟩ | ⟨q1, q2, r, htok1, htok2, hr, hturn⟩ := turn_eq_cases s
  · refine .inl ⟨hnone, htok.imp (fun htok1 => ?_) fun htok2 => ?_⟩
    · rw [htok1] at h1
      exact h1
    · rw [htok2] at h2
      exact h2
  · rw [htok1] at h1
    rw [htok2] at h2
    obtain ⟨l1, t1, rfl, hl1, ht1, hle1⟩ := h1
    obtain ⟨l2, t2, rfl, hl2, ht2, hle2⟩ := h2
    have hspec := split_row hl1 hl2 (hv1 l1 List.mem_cons_self) (hv2 l2 List.mem_cons_self) s
    rw [hr] at hspec
    obtain ⟨hm1, hm2, hout⟩ := hspec
    obtain ⟨hkm1, hkm2, hks1, hks2, -⟩ := keep_frame (s.write r) r
    have hfront1 := front_strtok_r (line_of_cut hl1 ht1 hle1 hm1)
    have hfront2 := front_strtok_r (line_of_cut hl2 ht2 hle2 hm2)
    refine .inr ⟨l1, _, l2, _, ((s.write r).keep r).advance, rfl, rfl, hturn, ⟨?_, ?_⟩, hout⟩
    · simpa only [State.advance, hkm1, hks1, write_m1, (write_save s r).1] using hfront1
    · simpa only [State.advance, hkm2, hks2, write_m2, (write_save s r).2] using hfront2

theorem report_cons (l1 l2 : List Char) (ls1 ls2 : List (List Char)) :
    report (l1 :: ls1) (l2 :: ls2) = (row l1 l2).toList ++ report ls1 ls2 := by
  rw [report, List.zip_cons_cons, List.filterMap_cons]
  cases row l1 l2 <;> rfl

theorem report_eq_nil (h : ls1 = [] ∨ ls2 = []) : report ls1 ls2 = [] := by
  obtain rfl | rfl := h
  · rfl
  · rw [report, List.zip_nil_right, List.filterMap_nil]

theorem Valued.tail (h : Valued (l :: ls)) : Valued ls :=
  fun l hl => h l (List.mem_cons_of_mem _ hl)

def Printing (out : List (List Char × List Char × List Char)) (s : State) : Prop :=
  ∃ ls1 ls2, Fronts s ls1 ls2 ∧ Valued ls1 ∧ Valued ls2 ∧ s.stdout ++ report ls1 ls2 = out

theorem fronts_start (h1 : Line m1 0 t1) (h2 : Line m2 0 t2) :
    Fronts (start m1 m2) (lines t1) (lines t2) :=
  ⟨front_strtok_r h1, front_strtok_r h2⟩

theorem printing_turn {out : List (List Char × List Char × List Char)} {s s' : State}
    (h : Printing out s) (hn : turn s = some s') : Printing out s' := by
  obtain ⟨ls1, ls2, hf, hv1, hv2, heq⟩ := h
  obtain ⟨hnone, -⟩ | ⟨l1, ls1, l2, ls2, s'', rfl, rfl, hturn, hf', hout⟩ := turn_prints hf hv1 hv2
  · exact absurd (hn.symm.trans hnone) (by simp)
  · obtain rfl : s'' = s' := Option.some.inj (hturn.symm.trans hn)
    refine ⟨ls1, ls2, hf', hv1.tail, hv2.tail, ?_⟩
    rw [← heq, report_cons, hout, List.append_assoc]

theorem exists_end {s : State} (h : Reachable (system m1 m2) s) (hf : Fronts s ls1 ls2)
    (hv1 : Valued ls1) (hv2 : Valued ls2) :
    ∃ s', Reachable (system m1 m2) s' ∧ turn s' = none := by
  induction ls1 generalizing ls2 s with
  | nil =>
    obtain ⟨hnone, -⟩ | ⟨l1, ls1, l2, ls2, s', heq, -⟩ := turn_prints hf hv1 hv2
    · exact ⟨s, h, hnone⟩
    · cases heq
  | cons l ls ih =>
    obtain ⟨hnone, -⟩ | ⟨l1, ls1, l2, ls2, s', heq, rfl, hturn, hf', -⟩ := turn_prints hf hv1 hv2
    · exact ⟨s, h, hnone⟩
    · obtain ⟨rfl, rfl⟩ := List.cons.inj heq
      exact ih (h.next (a := ()) hturn) hf' hv1.tail hv2.tail

/-- Unless the texts make it overrun its table, `parse_sched_data` comes to its end, and then it
has printed the report of the lines of the two texts. -/
theorem prints_report (hroom : ¬ Overruns m1 m2) (h1 : Line m1 0 t1) (h2 : Line m2 0 t2)
    (hv1 : Valued (lines t1)) (hv2 : Valued (lines t2)) :
    InBounds m1 m2 ∧ (∃ s, Reachable (system m1 m2) s ∧ turn s = none) ∧
      ∀ s, Reachable (system m1 m2) s → (∃ more, report (lines t1) (lines t2) = s.stdout ++ more) ∧
        (turn s = none → s.stdout = report (lines t1) (lines t2)) := by
  refine ⟨inBounds_of_not_overruns hroom,
    exists_end (Reachable.init rfl) (fronts_start h1 h2) hv1 hv2, fun s hs => ?_⟩
  have hprinting : Printing (report (lines t1) (lines t2)) s := by
    refine hs.invariant (I := Printing (report (lines t1) (lines t2))) ?_ ?_
    · rintro s rfl
      exact ⟨_, _, fronts_start h1 h2, hv1, hv2, rfl⟩
    · exact fun s _ s' hp hn => printing_turn hp hn
  obtain ⟨ls1, ls2, hf, hv1, hv2, heq⟩ := hprinting
  refine ⟨⟨_, heq.symm⟩, fun hend => ?_⟩
  obtain ⟨-, hnil⟩ | ⟨l1, ls1, l2, ls2, s', -, -, hturn, -⟩ := turn_prints hf hv1 hv2
  · rw [← heq, report_eq_nil hnil, List.append_nil]
  · exact absurd (hend.symm.trans hturn) (by simp)

def pingText : List Char := "ping (7, #threads: 1)\nnr_switches : 5\nse.load.weight:1\n".toList

def pongText : List Char := "pong (8, #threads: 1)\nnr_switches : 6\nse.load.weight:1\n".toList

theorem not_overruns_pingText : ¬ Overruns (pingText ++ [nul]) (pongText ++ [nul]) := by
  have heq : pingText ++ [nul] = pingText.dropLast ++ '\n' :: nul :: [] := by decide +kernel
  rw [heq]
  exact not_overruns_of_newline (by decide +kernel) _

theorem prints_report_switches :
    report (lines pingText) (lines pongText) = [("nr_switches".toList, ['5'], ['6'])] ∧
      InBounds (pingText ++ [nul]) (pongText ++ [nul]) ∧
      (∃ s, Reachable (system (pingText ++ [nul]) (pongText ++ [nul])) s ∧ turn s = none) ∧
      ∀ s, Reachable (system (pingText ++ [nul]) (pongText ++ [nul])) s →
        (∃ more, report (lines pingText) (lines pongText) = s.stdout ++ more) ∧
          (turn s = none → s.stdout = report (lines pingText) (lines pongText)) :=
  ⟨by decide +kernel, prints_report not_overruns_pingText ⟨by decide +kernel, [], rfl⟩
    ⟨by decide +kernel, [], rfl⟩ (by decide +kernel) (by decide +kernel)⟩

end PingPong.SchedReport
