import PingPong.SchedLines
import PingPong.TransitionSystem

namespace PingPong.SchedTable

open CMemory SchedLines TransitionSystem

variable {m m1 m2 t t1 t2 : List Char} {q q1 q2 save i n : Nat} {rest1 rest2 : List (List Char)}

def sched_line_strings : List (List Char) :=
  ["se.vruntime".toList, "se.sum_exec_runtime".toList, "se.statistics.wait_start".toList,
    "se.statistics.sleep_start".toList, "se.statistics.block_start".toList,
    "se.statistics.sleep_max".toList, "se.statistics.block_max".toList,
    "se.statistics.exec_max".toList, "se.statistics.slice_max".toList,
    "se.statistics.wait_max".toList, "se.statistics.wait_sum".toList,
    "se.statistics.wait_count".toList, "se.statistics.iowait_sum".toList,
    "se.statistics.iowait_count".toList, "nr_switches".toList, "nr_voluntary_switches".toList,
    "nr_involuntary_switches".toList, "se.load.weight".toList]

def interesting_sched_stat (check_str : List Char) : Bool := sched_line_strings.contains check_str

def count_sched_lines : List Char → Nat
  | [] => 0
  | c :: buf =>
    if c = nul then 0 else (if c = '\n' then 1 else 0) + count_sched_lines buf

/-- The variables of `parse_sched_data`. In the program a write behind what `calloc` gave falls
into other memory. Here it changes nothing but `writes`, and what is printed is told only of
buffers without such a write. -/
structure State where
  m1 : List Char
  m2 : List Char
  sched_tok1 : Option Nat
  sched_tok2 : Option Nat
  save_ptr1 : Nat
  save_ptr2 : Nat
  sched_data : List SchedData
  line_count : Nat
  writes : List Nat
  stdout : List (List Char × List Char × List Char)

def newline : List Char := ['\n']

def start (m1 m2 : List Char) : State :=
  let (sched_tok1, save_ptr1, m1') := strtok_r m1 0 newline
  let (sched_tok2, save_ptr2, m2') := strtok_r m2 0 newline
  { m1 := m1', m2 := m2', sched_tok1, sched_tok2, save_ptr1, save_ptr2
    sched_data := List.replicate (count_sched_lines m1) ⟨none, none, none⟩
    line_count := 0, writes := [], stdout := [] }

namespace State

/-- What `split_sched_lines` did to its element of the table. -/
def write (s : State) (r : Split) : State :=
  match r.sched_data with
  | none => { s with m1 := r.m1, m2 := r.m2 }
  | some d => { s with
      m1 := r.m1
      m2 := r.m2
      sched_data := s.sched_data.set s.line_count d
      writes := s.writes ++ [s.line_count] }

def keep (s : State) (r : Split) : State :=
  match r.ret, r.sched_data with
  | _ + 1, some ⟨some key, some value1, some value2⟩ =>
    let line := (string s.m1 key, string s.m1 value1, string s.m2 value2)
    { s with
      line_count := s.line_count + 1
      stdout := if interesting_sched_stat line.1 then s.stdout ++ [line] else s.stdout }
  | _, _ => s

def advance (s : State) : State :=
  let (sched_tok1, save_ptr1, m1) := strtok_r s.m1 s.save_ptr1 newline
  let (sched_tok2, save_ptr2, m2) := strtok_r s.m2 s.save_ptr2 newline
  { s with m1, m2, sched_tok1, sched_tok2, save_ptr1, save_ptr2 }

end State

def turn (s : State) : Option State :=
  match s.sched_tok1, s.sched_tok2 with
  | some tok1, some tok2 =>
    let r := split_sched_lines s.m1 tok1 s.m2 tok2
    some ((s.write r).keep r).advance
  | _, _ => none

def system (m1 m2 : List Char) : System State Unit := ⟨(· = start m1 m2), fun _ => turn⟩

def tokenKey (t : List Char) : List Char :=
  t.takeWhile fun c => c ≠ nul ∧ c ∉ newline ∧ c ∉ separators

def tokenGap (t : List Char) : List Char :=
  (t.drop ((tokenKey t).length + 1)).takeWhile (· ∈ separators)

def line (t : List Char) : List Char := t.takeWhile fun c => c ≠ nul ∧ c ∉ newline

theorem key_set_line (t : List Char) : key (t.set (line t).length nul) = tokenKey t := by
  induction t with
  | nil => rfl
  | cons c t ih =>
    by_cases hc : c ≠ nul ∧ c ∉ newline
    · by_cases hs : c ∈ separators
      · simp [line, key, tokenKey, hc, hs]
      · simpa [line, key, tokenKey, hc, hs] using ih
    · have hc' : ¬ (c ≠ nul ∧ c ∉ newline ∧ c ∉ separators) := fun h => hc ⟨h.1, h.2.1⟩
      simp only [line, key, tokenKey, List.takeWhile_cons, hc, hc', decide_false]
      simp

theorem tokenKey_le (t : List Char) : (tokenKey t).length ≤ (line t).length := by
  induction t with
  | nil => rfl
  | cons c t ih =>
    by_cases hc : c ≠ nul ∧ c ∉ newline ∧ c ∉ separators
    · have hc' : c ≠ nul ∧ c ∉ newline := ⟨hc.1, hc.2.1⟩
      simpa [line, tokenKey, hc, hc'] using ih
    · simp only [tokenKey, List.takeWhile_cons, hc, decide_false]
      simp

theorem takeWhile_set {p : Char → Bool} (hp : p nul = false) {i : Nat}
    (hi : ∀ c ∈ t[i]?, p c = false) : (t.set i nul).takeWhile p = t.takeWhile p := by
  induction t generalizing i with
  | nil => rfl
  | cons c t ih =>
    cases i with
    | zero => simp [hp, hi c (by simp)]
    | succ i => simp [List.takeWhile_cons, ih (i := i) (by simpa using hi)]

theorem getElem?_line (t : List Char) : ∀ c ∈ t[(line t).length]?, c = nul ∨ c ∈ newline := by
  intro c hc
  have hhead := List.head?_dropWhile_not (fun c => decide (c ≠ nul ∧ c ∉ newline)) t
  rw [← drop_takeWhile_length, List.head?_drop, ← line, Option.mem_def.mp hc] at hhead
  simpa [or_iff_not_imp_left] using hhead

theorem gap_set_line (t : List Char) : gap (t.set (line t).length nul) = tokenGap t := by
  rw [gap, key_set_line, tokenGap]
  by_cases hlt : (line t).length < (tokenKey t).length + 1
  · rw [drop_set_of_lt hlt]
  · rw [drop_set_of_le (by omega)]
    refine takeWhile_set (by decide) fun c hc => ?_
    rw [List.getElem?_drop, Nat.add_sub_cancel' (by omega)] at hc
    obtain rfl | hc := getElem?_line t c hc
    · decide
    · obtain rfl : c = '\n' := by simpa [newline] using hc
      decide

/-- What is left to be read of a buffer: nothing, or a token that has been cut off and
the text from the save pointer on. -/
def Rest (m : List Char) (tok : Option Nat) (save : Nat) (rest : List (List Char)) : Prop :=
  match tok with
  | none => rest = []
  | some q => ∃ t, rest = t :: tokens newline false (m.drop save) ∧
      key (m.drop q) = tokenKey t ∧ gap (m.drop q) = tokenGap t ∧
      (q + (tokenKey t).length < save ∨ m.getD (q + (tokenKey t).length) nul = nul)

theorem rest_strtok_r (m : List Char) (p : Nat) : let r := strtok_r m p newline
    Rest r.2.2 r.1 r.2.1 (tokens newline false (m.drop p)) := by
  obtain ⟨save, heq, hnil⟩ | ⟨q, save, m', heq, hf, htokens⟩ :=
    strtok_r_cases (show nul ∉ newline by decide) m p
  · simpa only [heq, Rest] using hnil
  · have hlen : strcspn m q newline = (line (m.drop q)).length := rfl
    have hle := tokenKey_le (m.drop q)
    have hset : m' = m.set (q + (line (m.drop q)).length) nul := by
      obtain ⟨hnul, -, rfl⟩ | ⟨-, -, rfl⟩ := hf
      · exact (set_nul_eq hnul).symm
      · rfl
    have hsave : m'.drop save = m.drop save := by
      obtain ⟨-, -, rfl⟩ | ⟨-, rfl, rfl⟩ := hf
      · rfl
      · exact drop_set_of_lt (by omega) _
    have hdrop : m'.drop q = (m.drop q).set (line (m.drop q)).length nul := by
      rw [hset, drop_set_of_le (by omega), Nat.add_sub_cancel_left]
    simp only [heq, Rest]
    refine ⟨m.drop q, by rw [hsave, htokens], by rw [hdrop, key_set_line],
      by rw [hdrop, gap_set_line], ?_⟩
    obtain ⟨hnul, rfl, rfl⟩ | ⟨-, rfl, rfl⟩ := hf
    · obtain hlt | heq := hle.lt_or_eq
      · exact .inl (by omega)
      · exact .inr (by rw [heq]; exact hnul)
    · exact .inl (by omega)

def SameKey (t1 t2 : List Char) : Prop := tokenKey t1 ≠ [] ∧ tokenKey t1 = tokenKey t2

instance (t1 t2 : List Char) : Decidable (SameKey t1 t2) := inferInstanceAs (Decidable (_ ∧ _))

def Matched (t1 t2 : List Char) : Prop := SameKey t1 t2 ∧ tokenGap t1 ≠ [] ∧ tokenGap t2 ≠ []

instance (t1 t2 : List Char) : Decidable (Matched t1 t2) := inferInstanceAs (Decidable (_ ∧ _))

def written : List (List Char) → List (List Char) → (n : Nat) → List Nat
  | t1 :: rest1, t2 :: rest2, n =>
    (if SameKey t1 t2 then [n] else []) ++
      written rest1 rest2 (if Matched t1 t2 then n + 1 else n)
  | _, _, _ => []

theorem split_token (hk1 : key (m1.drop q1) = tokenKey t1) (hk2 : key (m2.drop q2) = tokenKey t2)
    (hg1 : gap (m1.drop q1) = tokenGap t1) (hg2 : gap (m2.drop q2) = tokenGap t2) :
    let r := split_sched_lines m1 q1 m2 q2
    (r.m1 = m1 ∨ r.m1 = m1.set (q1 + (tokenKey t1).length) nul) ∧
      (r.m2 = m2 ∨ r.m2 = m2.set (q2 + (tokenKey t2).length) nul) ∧
      (¬ SameKey t1 t2 ∧ r.sched_data = none ∨
        SameKey t1 t2 ∧ ¬ Matched t1 t2 ∧ r.ret = 0 ∧ r.sched_data = some ⟨none, none, none⟩ ∨
        Matched t1 t2 ∧ r.ret = 1 ∧
          ∃ value1 value2, r.sched_data = some ⟨some q1, some value1, some value2⟩) := by
  have hsplit := split_eq m1 q1 m2 q2
  simp only [hk1, hk2, hg1, hg2] at hsplit
  rw [hsplit]
  split_ifs with hne heq hgap
  · refine ⟨.inl rfl, .inl rfl, .inl ⟨?_, rfl⟩⟩
    rintro ⟨h1, h2⟩
    exact hne.elim h1 fun h => h1 (h2.trans h)
  · exact ⟨.inr rfl, .inr rfl, .inl ⟨fun h => heq h.2, rfl⟩⟩
  · have hsame : SameKey t1 t2 := ⟨fun h => hne (.inl h), not_not.mp heq⟩
    refine ⟨.inr rfl, .inr rfl, .inr (.inl ⟨hsame, ?_, rfl, rfl⟩)⟩
    rintro ⟨-, h1, h2⟩
    exact hgap.elim h1 h2
  · have hsame : SameKey t1 t2 := ⟨fun h => hne (.inl h), not_not.mp heq⟩
    exact ⟨.inr rfl, .inr rfl,
      .inr (.inr ⟨⟨hsame, fun h => hgap (.inl h), fun h => hgap (.inr h)⟩, rfl, _, _, rfl⟩)⟩

/-- What `split_sched_lines` marks stands before the save pointer. -/
theorem drop_save {m' : List Char} (hm : m' = m ∨ m' = m.set (q + (tokenKey t).length) nul)
    (hcut : q + (tokenKey t).length < save ∨ m.getD (q + (tokenKey t).length) nul = nul) :
    m'.drop save = m.drop save := by
  obtain rfl | rfl := hm
  · rfl
  · obtain hlt | hnul := hcut
    · exact drop_set_of_lt hlt nul
    · rw [set_nul_eq hnul]

structure Holds (s : State) (rest1 rest2 : List (List Char)) : Prop where
  rest1 : Rest s.m1 s.sched_tok1 s.save_ptr1 rest1
  rest2 : Rest s.m2 s.sched_tok2 s.save_ptr2 rest2

theorem holds_start (m1 m2 : List Char) :
    Holds (start m1 m2) (tokens newline false m1) (tokens newline false m2) :=
  ⟨rest_strtok_r m1 0, rest_strtok_r m2 0⟩

theorem holds_advance (s : State) : Holds s.advance
    (tokens newline false (s.m1.drop s.save_ptr1)) (tokens newline false (s.m2.drop s.save_ptr2)) :=
  ⟨rest_strtok_r s.m1 s.save_ptr1, rest_strtok_r s.m2 s.save_ptr2⟩

@[simp] theorem write_m1 (s : State) (r : Split) : (s.write r).m1 = r.m1 := by
  unfold State.write
  split <;> rfl

@[simp] theorem write_m2 (s : State) (r : Split) : (s.write r).m2 = r.m2 := by
  unfold State.write
  split <;> rfl

@[simp] theorem write_save (s : State) (r : Split) :
    (s.write r).save_ptr1 = s.save_ptr1 ∧ (s.write r).save_ptr2 = s.save_ptr2 := by
  unfold State.write
  split <;> exact ⟨rfl, rfl⟩

theorem keep_frame (s : State) (r : Split) : (s.keep r).m1 = s.m1 ∧ (s.keep r).m2 = s.m2 ∧
    (s.keep r).save_ptr1 = s.save_ptr1 ∧ (s.keep r).save_ptr2 = s.save_ptr2 ∧
    (s.keep r).writes = s.writes := by
  unfold State.keep
  split <;> exact ⟨rfl, rfl, rfl, rfl, rfl⟩

theorem turn_eq_cases (s : State) :
    turn s = none ∧ (s.sched_tok1 = none ∨ s.sched_tok2 = none) ∨
      ∃ q1 q2 r, s.sched_tok1 = some q1 ∧ s.sched_tok2 = some q2 ∧
        split_sched_lines s.m1 q1 s.m2 q2 = r ∧ turn s = some ((s.write r).keep r).advance := by
  cases htok1 : s.sched_tok1 with
  | none => exact .inl ⟨by simp [turn, htok1], .inl rfl⟩
  | some q1 =>
    cases htok2 : s.sched_tok2 with
    | none => exact .inl ⟨by simp [turn, htok1, htok2], .inr rfl⟩
    | some q2 => exact .inr ⟨q1, q2, _, rfl, rfl, rfl, by simp only [turn, htok1, htok2]⟩

theorem turn_cases {s : State} (h : Holds s rest1 rest2) :
    turn s = none ∧ (rest1 = [] ∨ rest2 = []) ∨
      ∃ t1 rest1' t2 rest2' s', rest1 = t1 :: rest1' ∧ rest2 = t2 :: rest2' ∧
        turn s = some s' ∧ Holds s' rest1' rest2' ∧
        s'.writes = s.writes ++ (if SameKey t1 t2 then [s.line_count] else []) ∧
        s'.line_count = if Matched t1 t2 then s.line_count + 1 else s.line_count := by
  obtain ⟨h1, h2⟩ := h
  obtain ⟨hnone, htok⟩ | ⟨q1, q2, r, htok1, htok2, hr, hturn⟩ := turn_eq_cases s
  · refine .inl ⟨hnone, htok.imp (fun htok1 => ?_) fun htok2 => ?_⟩
    · rw [htok1] at h1
      exact h1
    · rw [htok2] at h2
      exact h2
  · rw [htok1] at h1
    rw [htok2] at h2
    obtain ⟨t1, rfl, hk1, hg1, hcut1⟩ := h1
    obtain ⟨t2, rfl, hk2, hg2, hcut2⟩ := h2
    have hspec := split_token hk1 hk2 hg1 hg2
    rw [hr] at hspec
    obtain ⟨hm1, hm2, hcases⟩ := hspec
    obtain ⟨hkm1, hkm2, hks1, hks2, hkw⟩ := keep_frame (s.write r) r
    have hhold := holds_advance ((s.write r).keep r)
    rw [hkm1, hkm2, hks1, hks2, write_m1, write_m2, (write_save s r).1, (write_save s r).2,
      drop_save hm1 hcut1, drop_save hm2 hcut2] at hhold
    refine .inr ⟨t1, _, t2, _, ((s.write r).keep r).advance, rfl, rfl, hturn, hhold, ?_, ?_⟩
    · show ((s.write r).keep r).writes = _
      rw [hkw]
      obtain ⟨hsame, hd⟩ | ⟨hsame, -, -, hd⟩ | ⟨⟨hsame, -⟩, -, _, _, hd⟩ := hcases <;>
        simp [State.write, hd, hsame]
    · show ((s.write r).keep r).line_count = _
      obtain ⟨hsame, hd⟩ | ⟨hsame, hno, hret, hd⟩ | ⟨hmat, hret, _, _, hd⟩ := hcases
      · have hno : ¬ Matched t1 t2 := fun hm => hsame hm.1
        simp [State.write, State.keep, hd, hno]
      · simp [State.write, State.keep, hd, hret, hno]
      · simp [State.write, State.keep, hd, hret, hmat]

theorem writes_invariant {s : State} (h : Reachable (system m1 m2) s) :
    ∃ rest1 rest2, Holds s rest1 rest2 ∧ s.writes ++ written rest1 rest2 s.line_count =
      written (tokens newline false m1) (tokens newline false m2) 0 := by
  refine h.invariant (I := fun s => ∃ rest1 rest2, Holds s rest1 rest2 ∧
    s.writes ++ written rest1 rest2 s.line_count =
      written (tokens newline false m1) (tokens newline false m2) 0) ?_ ?_
  · rintro s rfl
    exact ⟨_, _, holds_start m1 m2, rfl⟩
  · rintro s a s' ⟨rest1, rest2, hhold, heq⟩ hn
    obtain ⟨hnone, -⟩ | ⟨t1, r1, t2, r2, s'', rfl, rfl, hturn, hhold', hw, hc⟩ := turn_cases hhold
    · exact absurd (hn.symm.trans hnone) (by simp)
    · obtain rfl : s'' = s' := Option.some.inj (hturn.symm.trans hn)
      refine ⟨r1, r2, hhold', ?_⟩
      rw [← heq, hw, hc, written, List.append_assoc]

theorem exists_written {s : State} (h : Reachable (system m1 m2) s) (hhold : Holds s rest1 rest2) :
    ∃ s', Reachable (system m1 m2) s' ∧ s'.writes = s.writes ++ written rest1 rest2 s.line_count := by
  induction rest1 generalizing rest2 s with
  | nil => exact ⟨s, h, by simp [written]⟩
  | cons t1 r1 ih =>
    obtain ⟨-, hnil⟩ | ⟨t1', r1', t2, r2, s', heq, rfl, hturn, hhold', hw, hc⟩ := turn_cases hhold
    · obtain rfl := hnil.resolve_left (by simp)
      exact ⟨s, h, by simp [written]⟩
    · obtain ⟨rfl, rfl⟩ := List.cons.inj heq
      obtain ⟨s'', hs'', hw'⟩ := ih (h.next (a := ()) hturn) hhold'
      refine ⟨s'', hs'', ?_⟩
      rw [hw', hw, hc, written, List.append_assoc]

theorem mem_written (h : i ∈ written rest1 rest2 n) : n ≤ i ∧ i < n + rest1.length := by
  induction rest1 generalizing rest2 n with
  | nil => simp [written] at h
  | cons t1 rest1 ih =>
    cases rest2 with
    | nil => simp [written] at h
    | cons t2 rest2 =>
      rw [written, List.mem_append, List.mem_ite_nil_right, List.mem_singleton] at h
      rw [List.length_cons]
      obtain ⟨-, rfl⟩ | h := h
      · omega
      · have hi := ih h
        split_ifs at hi <;> omega

theorem last_mem_written (hlen : rest1.length ≤ i + 1) : n + i ∈ written rest1 rest2 n ↔
    ∃ init1 t1 init2 t2 more, rest1 = init1 ++ [t1] ∧ rest2 = init2 ++ t2 :: more ∧
      init1.length = i ∧ List.Forall₂ Matched init1 init2 ∧ SameKey t1 t2 := by
  induction rest1 generalizing rest2 n i with
  | nil => simp [written]
  | cons t1 rest1 ih =>
    cases rest2 with
    | nil => simp [written]
    | cons t2 rest2 =>
      rw [List.length_cons] at hlen
      rw [written, List.mem_append, List.mem_ite_nil_right, List.mem_singleton]
      cases i with
      | zero =>
        obtain rfl : rest1 = [] := List.length_eq_zero_iff.mp (by omega)
        constructor
        · rintro (⟨hsame, -⟩ | h)
          · exact ⟨[], t1, [], t2, rest2, rfl, rfl, rfl, .nil, hsame⟩
          · simp [written] at h
        · rintro ⟨init1, t1', init2, t2', more, h1, h2, hnil, hall, hsame⟩
          obtain rfl := List.length_eq_zero_iff.mp hnil
          cases hall
          obtain ⟨rfl, -⟩ := List.cons.inj h1
          obtain ⟨rfl, -⟩ := List.cons.inj h2
          exact .inl ⟨hsame, rfl⟩
      | succ i =>
        rw [or_iff_right (by omega)]
        by_cases hm : Matched t1 t2
        · rw [if_pos hm, show n + (i + 1) = n + 1 + i by omega, ih (by omega)]
          constructor
          · rintro ⟨init1, t1', init2, t2', more, rfl, rfl, rfl, hall, hsame⟩
            exact ⟨t1 :: init1, t1', t2 :: init2, t2', more, rfl, rfl, rfl, .cons hm hall, hsame⟩
          · rintro ⟨init1, t1', init2, t2', more, h1, h2, hi, hall, hsame⟩
            cases hall with
            | nil => simp at hi
            | cons _ hall =>
              obtain ⟨-, rfl⟩ := List.cons.inj h1
              obtain ⟨-, rfl⟩ := List.cons.inj h2
              exact ⟨_, t1', _, t2', more, rfl, rfl, by simpa using hi, hall, hsame⟩
        · rw [if_neg hm]
          constructor
          · intro h
            have hlt := mem_written h
            omega
          · rintro ⟨init1, t1', init2, t2', more, h1, h2, hi, hall, hsame⟩
            cases hall with
            | nil => simp at hi
            | cons hm' hall =>
              obtain ⟨rfl, -⟩ := List.cons.inj h1
              obtain ⟨rfl, -⟩ := List.cons.inj h2
              exact absurd hm' hm

theorem length_tokens_le (inside : Bool) (t : List Char) :
    (tokens newline inside t).length + (if inside then 1 else 0) ≤ count_sched_lines t + 1 := by
  induction t generalizing inside with
  | nil => cases inside <;> simp [tokens]
  | cons c t ih =>
    have htrue := ih true
    have hfalse := ih false
    simp only [tokens, count_sched_lines]
    by_cases hn : c = nul
    · cases inside <;> simp [hn]
    · by_cases hc : c = '\n'
      · cases inside <;> simp [hc, newline, nul] at hfalse ⊢ <;> omega
      · cases inside <;> simp [hn, hc, newline] at htrue ⊢ <;> omega

/-- The first buffer has one line more than newlines, as none of its lines is empty and
the last one is cut off; its lines up to that are matched by lines of the second, and
the last one has its key in common with the next line of the second. -/
def Overruns (m1 m2 : List Char) : Prop := ∃ init1 t1 init2 t2 more,
  tokens newline false m1 = init1 ++ [t1] ∧ tokens newline false m2 = init2 ++ t2 :: more ∧
    init1.length = count_sched_lines m1 ∧ List.Forall₂ Matched init1 init2 ∧ SameKey t1 t2

/-- Every element of the table that is written to was allocated. -/
def InBounds (m1 m2 : List Char) : Prop := ∀ s, Reachable (system m1 m2) s →
  ∀ line_count ∈ s.writes, line_count < count_sched_lines m1

theorem last_written (m1 m2 : List Char) : count_sched_lines m1 ∈
    written (tokens newline false m1) (tokens newline false m2) 0 ↔ Overruns m1 m2 := by
  have hlen : (tokens newline false m1).length ≤ count_sched_lines m1 + 1 := by
    simpa using length_tokens_le false m1
  have hlast : 0 + count_sched_lines m1 ∈ written (tokens newline false m1)
      (tokens newline false m2) 0 ↔ Overruns m1 m2 := last_mem_written hlen
  rwa [Nat.zero_add] at hlast

theorem inBounds_of_not_overruns (h : ¬ Overruns m1 m2) : InBounds m1 m2 := by
  intro s hs i hi
  obtain ⟨rest1, rest2, -, heq⟩ := writes_invariant hs
  have hmem : i ∈ written (tokens newline false m1) (tokens newline false m2) 0 := by
    rw [← heq]
    exact List.mem_append_left _ hi
  have hlt := mem_written hmem
  have hlen : (tokens newline false m1).length ≤ count_sched_lines m1 + 1 := by
    simpa using length_tokens_le false m1
  have hne : i ≠ count_sched_lines m1 := by
    rintro rfl
    exact h ((last_written m1 m2).mp hmem)
  omega

/-- The table is overrun exactly by buffers of this kind. -/
theorem sched_table (m1 m2 : List Char) : InBounds m1 m2 ↔ ¬ Overruns m1 m2 := by
  refine ⟨fun h hover => ?_, inBounds_of_not_overruns⟩
  obtain ⟨s, hs, hw⟩ := exists_written (Reachable.init rfl) (holds_start m1 m2)
  have hmem : count_sched_lines m1 ∈ s.writes := by
    rw [hw]
    exact List.mem_append_right _ ((last_written m1 m2).mpr hover)
  exact absurd (h s hs _ hmem) (by omega)

def cut : List Char := "a : 1\nb : 2".toList

/-- One element is allocated and the second is written to. -/
theorem sched_table_cut : count_sched_lines cut = 1 ∧ ¬ InBounds cut cut := by
  refine ⟨by decide +kernel, fun h => ?_⟩
  obtain ⟨s, hs, hw, hcount⟩ := exists_reachable_of_exec (S := system cut cut)
    (p := fun s => 1 ∈ s.writes ∧ count_sched_lines cut = 1) (s := start cut cut) rfl [(), ()]
    (by decide +kernel)
  exact absurd (h s hs 1 hw) (by omega)

theorem length_tokens_le_of_newline {after : List Char} (hn : nul ∉ t) (inside : Bool) :
    (tokens newline inside (t ++ '\n' :: nul :: after)).length + (if inside then 1 else 0) ≤
      count_sched_lines (t ++ '\n' :: nul :: after) := by
  induction t generalizing inside with
  | nil => cases inside <;> simp [tokens, count_sched_lines, newline, nul]
  | cons c t ih =>
    obtain ⟨hc, ht⟩ := not_or.mp (fun h => hn (List.mem_cons.mpr h))
    have htrue := ih ht true
    have hfalse := ih ht false
    simp only [List.cons_append, tokens, count_sched_lines, Ne.symm hc, if_false]
    by_cases hnl : c = '\n'
    · cases inside <;> simp [hnl, newline] at hfalse ⊢ <;> omega
    · cases inside <;> simp [hnl, newline] at htrue ⊢ <;> omega

theorem not_overruns_of_newline {after : List Char} (hn : nul ∉ t) (m2 : List Char) :
    ¬ Overruns (t ++ '\n' :: nul :: after) m2 := by
  rintro ⟨init1, t1, init2, t2, more, h1, -, hlen, -⟩
  have hle : _ ≤ count_sched_lines (t ++ '\n' :: nul :: after) :=
    length_tokens_le_of_newline hn false
  rw [h1] at hle
  simp at hle
  omega

end PingPong.SchedTable
