import PingPong.CommRegistry

namespace PingPong.CommRegistryNames

open CString CommRegistry

variable {F : Type} {fresh : Nat → ModeInfo F} {modes : List (Registration F)}
  {es : List (ModeInfo F)} {ns : List (List Char)}

section Lists

variable {α : Type} {p q : α → Bool}

theorem findIdx?_eq_iff (h : ∀ x, q x → p x) (xs : List α) : xs.findIdx? p = xs.findIdx? q ↔
    ∀ (i : Nat) x, xs[i]? = some x → p x → ∃ j ≤ i, ∃ y, xs[j]? = some y ∧ q y := by
  induction xs with
  | nil => simp
  | cons a xs ih =>
    rw [List.findIdx?_cons, List.findIdx?_cons]
    by_cases hq : q a
    · rw [if_pos hq, if_pos (h a hq), eq_self, true_iff]
      exact fun i x _ _ => ⟨0, Nat.zero_le i, a, rfl, hq⟩
    · by_cases hp : p a
      · rw [if_pos hp, if_neg hq]
        apply iff_of_false
        · cases xs.findIdx? q <;> simp
        · intro hall
          obtain ⟨j, hj, y, hy, hqy⟩ := hall 0 a rfl hp
          obtain rfl : j = 0 := by omega
          exact hq (Option.some.inj hy ▸ hqy)
      · rw [if_neg hp, if_neg hq, Option.map_inj_right fun i j hij => Nat.succ.inj hij, ih]
        constructor
        · intro hall i x hx hpx
          cases i with
          | zero => exact absurd (Option.some.inj hx ▸ hpx) hp
          | succ i =>
            obtain ⟨j, hj, y, hy, hqy⟩ := hall i x hx hpx
            exact ⟨j + 1, by omega, y, hy, hqy⟩
        · intro hall i x hx hpx
          obtain ⟨j, hj, y, hy, hqy⟩ := hall (i + 1) x hx hpx
          cases j with
          | zero => exact absurd (Option.some.inj hy ▸ hqy) hq
          | succ j => exact ⟨j, by omega, y, hy, hqy⟩

end Lists

def names (modes : List (Registration F)) : List (List Char) := modes.map (·.name)

theorem map_name_modify {f : ModeInfo F → ModeInfo F} (hf : ∀ e, (f e).name = e.name)
    (es : List (ModeInfo F)) (i : Nat) : (es.modify i f).map (·.name) = es.map (·.name) := by
  apply List.ext_getElem?
  intro j
  rw [List.getElem?_map, List.getElem?_map, List.getElem?_modify]
  cases es[j]? with
  | none => rfl
  | some e => by_cases hij : i = j <;> simp [hij, hf]

theorem map_name_enrol (es : List (ModeInfo F)) (mode : Registration F) :
    (enrol es mode).map (·.name) = es.map (·.name) ++ [some mode.name] := by
  unfold enrol
  split
  · rw [List.map_append, map_name_modify (f := ModeInfo.initFrom mode) fun _ => rfl]
    rfl
  · rw [List.map_append]
    rfl

theorem map_name_entries (modes : List (Registration F)) :
    (modes.foldl enrol []).map (·.name) = (names modes).map some := by
  induction modes using List.reverseRecOn with
  | nil => rfl
  | append_singleton modes mode ih =>
    rw [List.foldl_append, List.foldl_cons, List.foldl_nil, map_name_enrol, ih]
    simp [names]

theorem findIdx?_names (h : es.map (·.name) = ns.map some) (same : List Char → Bool) :
    (es.findIdx? fun e => e.name.any same) = ns.findIdx? same := by
  have hes : (es.findIdx? fun e => e.name.any same) =
      (es.map (·.name)).findIdx? fun name => name.any same := by
    rw [List.findIdx?_map]
    rfl
  rw [hes, h, List.findIdx?_map]
  congr 1

theorem first_names (h : es.map (·.name) = ns.map some) (name : List Char) :
    first es name = ns.idxOf? name := by
  have hsame := findIdx?_names h fun n => decide (n = name)
  rw [List.idxOf?, first]
  refine Eq.trans ?_ (hsame.trans ?_)
  · congr 1
    funext e
    cases e.name <;> simp
  · congr 1
    funext n
    rw [Bool.eq_iff_iff, decide_eq_true_iff, beq_iff_eq]

theorem first_eq_none_iff (h : es.map (·.name) = ns.map some) (name : List Char) :
    first es name = none ↔ name ∉ ns := by
  rw [first_names h, List.idxOf?_eq_none_iff]

/-- All entries are initialized if and only if no name was registered twice. -/
theorem all_initialized (modes : List (Registration F)) :
    (modes.foldl enrol []).all (·.initialized) = true ↔ (names modes).Nodup := by
  induction modes using List.reverseRecOn with
  | nil => simp [names]
  | append_singleton modes mode ih =>
    have hnone := first_eq_none_iff (map_name_entries modes) mode.name
    have hnodup : (names (modes ++ [mode])).Nodup ↔
        (names modes).Nodup ∧ mode.name ∉ names modes := by
      have happ : names (modes ++ [mode]) = names modes ++ [mode.name] := by simp [names]
      rw [happ, List.nodup_append]
      simp only [List.nodup_singleton, List.mem_singleton, forall_eq, true_and]
      exact and_congr_right fun _ => ⟨fun hall hmem => hall _ hmem rfl,
        fun hmem a ha heq => hmem (heq ▸ ha)⟩
    rw [List.foldl_append, List.foldl_cons, List.foldl_nil, enrol, hnodup, ← hnone, ← ih]
    cases first (modes.foldl enrol []) mode.name with
    | none => simp [ModeInfo.initFrom]
    | some i => simp [blank, ModeInfo.zero]

/-- The check at startup flags exactly the registries in which a name was registered
twice. -/
theorem verify_all_exact (fresh : Nat → ModeInfo F) (modes : List (Registration F)) :
    comm_mode_verify_all (registered fresh modes) = true ↔ (modes.map (·.name)).Nodup := by
  rw [registered_eq, comm_mode_verify_all, holding, List.take_left, all_initialized, names]

inductive Call (F : Type)
  | add (comm_name : List Char)
  | mark_initialized (comm_mode_name : List Char)
  | do_initialization (init_info : Registration F)

def call (fresh : Nat → ModeInfo F) (r : Registry F) : Call F → Registry F
  | .add comm_name => comm_mode_add fresh r comm_name
  | .mark_initialized comm_mode_name => (comm_mode_mark_initialized r comm_mode_name).1
  | .do_initialization init_info => (comm_mode_do_initialization r init_info).1

def after (fresh : Nat → ModeInfo F) (calls : List (Call F)) : Registry F :=
  calls.foldl (call fresh) ⟨[], 0⟩

def Call.added : Call F → Option (List Char)
  | .add comm_name => some comm_name
  | .mark_initialized _ | .do_initialization _ => none

def added (calls : List (Call F)) : List (List Char) := calls.filterMap Call.added

def constructorCalls (mode : Registration F) : List (Call F) :=
  [.add mode.name, .do_initialization mode]

theorem registered_eq_after (fresh : Nat → ModeInfo F) (modes : List (Registration F)) :
    registered fresh modes = after fresh (modes.flatMap constructorCalls) := by
  rw [registered, after, List.foldl_flatMap]
  rfl

theorem added_constructorCalls (modes : List (Registration F)) :
    added (modes.flatMap constructorCalls) = names modes := by
  induction modes with
  | nil => rfl
  | cons mode modes ih => exact congrArg (mode.name :: ·) ih

def setInitialized (e : ModeInfo F) : ModeInfo F := { e with initialized := true }

/-- `comm_mode_mark_initialized` takes the first name that the string begins with. -/
theorem mark_holding (h : es.map (·.name) = ns.map some) (name : List Char) :
    comm_mode_mark_initialized (holding es) name =
      match ns.findIdx? fun n => decide (n <+: name) with
      | some i => ((holding es).modify i setInitialized, some i)
      | none => (holding es, none) := by
  have hsame : (fun n => decide (strncmp n name (strlen n) = 0)) =
      fun n => decide (n <+: name) := by
    funext n
    rw [decide_eq_decide, strncmp_strlen_eq_zero]
  rw [comm_mode_mark_initialized, hsame, find_holding, findIdx?_names h]
  cases ns.findIdx? fun n => decide (n <+: name) <;> rfl

theorem initialization_holding (h : es.map (·.name) = ns.map some) (mode : Registration F) :
    comm_mode_do_initialization (holding es) mode =
      match ns.idxOf? mode.name with
      | some i => ((holding es).modify i (ModeInfo.initFrom mode), some i)
      | none => (holding es, none) := by
  rewrite [← first_names h, comm_mode_do_initialization,
    find_eq_first fun n => same_initialization n mode.name]
  cases first es mode.name <;> rfl

theorem parse_names (h : es.map (·.name) = ns.map some) (arg : List Char) :
    parse_comm_mode (holding es) arg =
      match ns.idxOf? arg with
      | some i => ((i : Int), i)
      | none => (-1, 0) := by
  rewrite [parse_holding, first_names h]
  cases ns.idxOf? arg <;> rfl

theorem parse_eq (fresh : Nat → ModeInfo F) (modes : List (Registration F)) (arg : List Char) :
    parse_comm_mode (registered fresh modes) arg =
      match (names modes).idxOf? arg with
      | some i => ((i : Int), i)
      | none => (-1, 0) := by
  rw [registered_eq]
  exact parse_names (map_name_entries modes) arg

theorem names_modify {f : ModeInfo F → ModeInfo F} (hf : ∀ e, (f e).name = e.name)
    (h : es.map (·.name) = ns.map some) {i : Nat} (hi : i < ns.length) :
    ∃ es', (holding es).modify i f = holding es' ∧ es'.map (·.name) = ns.map some := by
  have hlen : es.length = ns.length := by simpa using congrArg List.length h
  exact ⟨_, modify_holding (hlen ▸ hi) f, (map_name_modify hf es i).trans h⟩

theorem exists_holding (fresh : Nat → ModeInfo F) (calls : List (Call F)) :
    ∃ es, after fresh calls = holding es ∧ es.map (·.name) = (added calls).map some := by
  induction calls using List.reverseRecOn with
  | nil => exact ⟨[], by simp [after, holding, spare], rfl⟩
  | append_singleton calls c ih =>
    obtain ⟨es, heq, hes⟩ := ih
    have hafter : after fresh (calls ++ [c]) = call fresh (holding es) c := by
      rw [← heq, after, List.foldl_append]
      rfl
    have hadded : added (calls ++ [c]) = added calls ++ c.added.toList := by
      rw [added, List.filterMap_append]
      cases c <;> rfl
    rw [hafter, hadded]
    cases c with
    | add comm_name => exact ⟨_, add_holding fresh es comm_name, by simp [hes, Call.added, blank]⟩
    | mark_initialized comm_mode_name =>
      have hmark := mark_holding hes comm_mode_name
      rw [call, hmark, Call.added, Option.toList_none, List.append_nil]
      cases hfind : (added calls).findIdx? fun n => decide (n <+: comm_mode_name) with
      | none => exact ⟨es, rfl, hes⟩
      | some i =>
        obtain ⟨hlt, -⟩ := List.findIdx?_eq_some_iff_getElem.mp hfind
        exact names_modify (f := setInitialized) (fun _ => rfl) hes hlt
    | do_initialization init_info =>
      have hinit := initialization_holding hes init_info
      rw [call, hinit, Call.added, Option.toList_none, List.append_nil]
      cases hfind : (added calls).idxOf? init_info.name with
      | none => exact ⟨es, rfl, hes⟩
      | some i =>
        obtain ⟨hlt, -⟩ := List.findIdx?_eq_some_iff_getElem.mp hfind
        exact names_modify (f := ModeInfo.initFrom init_info) (fun _ => rfl) hes hlt

/-- The three functions that look for a name choose the first entry that has it, and change no
other, or do not know it and change nothing. -/
structure Agree (fresh : Nat → ModeInfo F) (calls : List (Call F)) (name : List Char) :
    Prop where
  mark : comm_mode_mark_initialized (after fresh calls) name =
    match (added calls).idxOf? name with
    | some i => ((after fresh calls).modify i fun e => { e with initialized := true }, some i)
    | none => (after fresh calls, none)
  initialization : ∀ help_text ops,
    comm_mode_do_initialization (after fresh calls) ⟨name, help_text, ops⟩ =
      match (added calls).idxOf? name with
      | some i =>
        ((after fresh calls).modify i (ModeInfo.initFrom ⟨name, help_text, ops⟩), some i)
      | none => (after fresh calls, none)
  parse : parse_comm_mode (after fresh calls) name =
    match (added calls).idxOf? name with
    | some i => ((i : Int), i)
    | none => (-1, 0)

/-- After any calls the lookups agree exactly where no name that the string begins with stands
before the string itself. -/
theorem lookups_agree (fresh : Nat → ModeInfo F) (calls : List (Call F)) (name : List Char) :
    Agree fresh calls name ↔
      ∀ (i : Nat) n, (added calls)[i]? = some n → n <+: name →
        ∃ j ≤ i, (added calls)[j]? = some name := by
  have hsearch : (added calls).findIdx? (fun n => decide (n <+: name)) =
      (added calls).idxOf? name ↔ ∀ (i : Nat) n, (added calls)[i]? = some n → n <+: name →
        ∃ j ≤ i, (added calls)[j]? = some name := by
    rw [List.idxOf?, findIdx?_eq_iff (fun n hn => by simp_all)]
    simp
  obtain ⟨es, heq, hes⟩ := exists_holding fresh calls
  have hmark := mark_holding hes name
  rw [← hsearch]
  constructor
  · intro h
    have hindex := congrArg Prod.snd (hmark.symm.trans (heq ▸ h.mark))
    revert hindex
    cases (added calls).findIdx? fun n => decide (n <+: name) <;>
      cases (added calls).idxOf? name <;> exact id
  · intro h
    rw [h] at hmark
    exact ⟨heq ▸ hmark, fun help_text ops => heq ▸ initialization_holding hes ⟨name, _, _⟩,
      heq ▸ parse_names hes name⟩

def uninitialized : List (Call Unit) := [.add "futex".toList, .add "futex_test".toList]

/-- Marking futex_test marks futex. -/
theorem lookups_disagree :
    (comm_mode_mark_initialized (registered (fun _ => .zero) prefixes) "futex_test".toList).2 =
        some 0 ∧
      (parse_comm_mode (registered (fun _ => .zero) prefixes) "futex_test".toList).1 = 1 ∧
      ((comm_mode_mark_initialized (after (fun _ => .zero) uninitialized)
          "futex_test".toList).1.comm_mode_info.take 2).map (·.initialized) = [true, false] ∧
      ¬ ∀ (calls : List (Call Unit)) name, Agree (fun _ => .zero) calls name := by
  have hmark : (comm_mode_mark_initialized (registered (fun _ => .zero) prefixes)
      "futex_test".toList).2 = some 0 := by decide +kernel
  refine ⟨hmark, by decide +kernel, by decide +kernel, fun h => ?_⟩
  have hone := congrArg Prod.snd (h (prefixes.flatMap constructorCalls) "futex_test".toList).mark
  rw [← registered_eq_after, hmark, added_constructorCalls] at hone
  exact absurd hone (by decide +kernel)

end PingPong.CommRegistryNames
