import Mathlib.Data.List.Induction
import PingPong.CString

namespace PingPong.CommRegistry

open CString

variable {F : Type}

/-- What an operation can point to: a function of a mode, or one that is shared. -/
inductive CommFn (F : Type)
  | own (f : F)
  | comm_no_init | comm_no_pre | comm_no_begin
  | comm_ping_generic | comm_pong_generic
  | comm_do_send_generic | comm_do_recv_generic
  | comm_no_cleanup | comm_show_no_options | comm_parse_no_options
deriving DecidableEq, Repr

inductive Slot
  | comm_init | comm_make_pair | comm_pre | comm_begin | comm_ping | comm_pong
  | comm_do_send | comm_do_recv | comm_show_options | comm_parse_options | comm_cleanup
deriving DecidableEq, Repr

abbrev Ops (F : Type) := Slot → Option (CommFn F)

/-- What an operation is if a mode has none of its own. -/
def generic : Ops F
  | .comm_init => some .comm_no_init
  | .comm_make_pair => none
  | .comm_pre => some .comm_no_pre
  | .comm_begin => some .comm_no_begin
  | .comm_ping => some .comm_ping_generic
  | .comm_pong => some .comm_pong_generic
  | .comm_do_send => some .comm_do_send_generic
  | .comm_do_recv => some .comm_do_recv_generic
  | .comm_show_options => some .comm_show_no_options
  | .comm_parse_options => some .comm_parse_no_options
  | .comm_cleanup => some .comm_no_cleanup

structure ModeInfo (F : Type) where
  ops : Ops F
  name : Option (List Char)
  help_text : Option (List Char)
  comm_mode_index : Nat
  initialized : Bool

def ModeInfo.zero : ModeInfo F := ⟨fun _ => none, none, none, 0, false⟩

/-- The array with all that was allocated for it, and how much of it is in use. -/
structure Registry (F : Type) where
  comm_mode_info : List (ModeInfo F)
  comm_mode_count : Nat

def COMM_MODE_LIST_INCREMENT : Nat := 5

/-- The array in `size` elements. What stands behind the old ones is not known. -/
def realloc (fresh : Nat → ModeInfo F) (info : List (ModeInfo F)) (size : Nat) :
    List (ModeInfo F) := (List.range size).map fun i => info.getD i (fresh i)

def memset (info : List (ModeInfo F)) (offset size : Nat) : List (ModeInfo F) :=
  info.mapIdx fun i e => if offset ≤ i ∧ i < offset + size then .zero else e

/-- Room for one more entry, where memory can be had and `errno` is 0. -/
def Registry.grow (fresh : Nat → ModeInfo F) (r : Registry F) : List (ModeInfo F) :=
  if r.comm_mode_count % COMM_MODE_LIST_INCREMENT = 0 then
    memset (realloc fresh r.comm_mode_info (r.comm_mode_count + COMM_MODE_LIST_INCREMENT))
      r.comm_mode_count COMM_MODE_LIST_INCREMENT
  else r.comm_mode_info

def comm_mode_add (fresh : Nat → ModeInfo F) (r : Registry F) (comm_name : List Char) :
    Registry F :=
  { comm_mode_info := (r.grow fresh).modify r.comm_mode_count fun e =>
      { e with name := some comm_name, comm_mode_index := r.comm_mode_count, initialized := false }
    comm_mode_count := r.comm_mode_count + 1 }

def Registry.find (r : Registry F) (same : List Char → Bool) : Option Nat :=
  (r.comm_mode_info.take r.comm_mode_count).findIdx? fun e => e.name.any same

def Registry.modify (r : Registry F) (i : Nat) (f : ModeInfo F → ModeInfo F) : Registry F :=
  { r with comm_mode_info := r.comm_mode_info.modify i f }

/-- `comm_mode_mark_initialized`, with the entry it has chosen, if it did not report the
name as unknown. -/
def comm_mode_mark_initialized (r : Registry F) (comm_mode_name : List Char) :
    Registry F × Option Nat :=
  match r.find fun name => strncmp name comm_mode_name (strlen name) = 0 with
  | some i => (r.modify i fun e => { e with initialized := true }, some i)
  | none => (r, none)

/-- The arguments of `ADD_COMM_MODE`. -/
structure Registration (F : Type) where
  name : List Char
  help_text : Option (List Char)
  ops : Ops F

def ModeInfo.initFrom (init_info : Registration F) (e : ModeInfo F) : ModeInfo F :=
  { e with
    help_text := init_info.help_text.or e.help_text
    ops := fun slot => (init_info.ops slot).or (generic slot)
    initialized := true }

/-- `comm_mode_do_initialization`, with the entry it has chosen. -/
def comm_mode_do_initialization (r : Registry F) (init_info : Registration F) :
    Registry F × Option Nat :=
  match r.find fun name => strlen name = strlen init_info.name &&
      strncmp name init_info.name (strlen name) = 0 with
  | some i => (r.modify i (ModeInfo.initFrom init_info), some i)
  | none => (r, none)

def comm_mode_verify_all (r : Registry F) : Bool :=
  (r.comm_mode_info.take r.comm_mode_count).all (·.initialized)

/-- `parse_comm_mode`: what it returns, and `config.comm_mode_index`. -/
def parse_comm_mode (r : Registry F) (arg : List Char) : Int × Nat :=
  match r.find fun name => strcmp arg name = 0 with
  | some i => (i, i)
  | none => (-1, 0)

/-- A constructor function of `ADD_COMM_MODE`. -/
def cons_comm_mode (fresh : Nat → ModeInfo F) (r : Registry F) (mode : Registration F) :
    Registry F :=
  (comm_mode_do_initialization (comm_mode_add fresh r mode.name) mode).1

def registered (fresh : Nat → ModeInfo F) (modes : List (Registration F)) : Registry F :=
  modes.foldl (cons_comm_mode fresh) ⟨[], 0⟩

section Entries

variable {α : Type} {f : α → α} {i : Nat} {xs ys : List α}

theorem modify_append_cons (x : α) :
    (xs ++ x :: ys).modify xs.length f = xs ++ f x :: ys := by
  induction xs with
  | nil => rfl
  | cons a xs ih => simpa using ih

theorem modify_append_left (h : i < xs.length) :
    (xs ++ ys).modify i f = xs.modify i f ++ ys := by
  induction xs generalizing i with
  | nil => simp at h
  | cons a xs ih =>
    cases i with
    | zero => rfl
    | succ i => simpa using ih (Nat.lt_of_succ_lt_succ h)

end Entries

variable {fresh : Nat → ModeInfo F} {es : List (ModeInfo F)}

def blank (comm_name : List Char) (i : Nat) : ModeInfo F :=
  { ModeInfo.zero with name := some comm_name, comm_mode_index := i }

def spare (count : Nat) : Nat := (5 - count % 5) % 5

def holding (es : List (ModeInfo F)) : Registry F :=
  ⟨es ++ List.replicate (spare es.length) .zero, es.length⟩

theorem memset_realloc (fresh : Nat → ModeInfo F) (es : List (ModeInfo F)) (n : Nat) :
    memset (realloc fresh es (es.length + n)) es.length n = es ++ List.replicate n .zero := by
  apply List.ext_getElem
  · simp [memset, realloc]
  · intro i h1 h2
    simp only [memset, realloc, List.getElem_mapIdx, List.getElem_map, List.getElem_range]
    have hlt : i < es.length + n := by simpa using h2
    by_cases hi : i < es.length
    · rw [if_neg (by omega), List.getElem_append_left hi, List.getD_eq_getElem?_getD,
      List.getElem?_eq_getElem hi, Option.getD_some]
    · rw [if_pos (by omega), List.getElem_append_right (by omega), List.getElem_replicate]

theorem grow_holding (fresh : Nat → ModeInfo F) (es : List (ModeInfo F)) :
    (holding es).grow fresh = es ++ .zero :: List.replicate (spare (es.length + 1)) .zero := by
  rw [Registry.grow]
  split_ifs with h
  · have hmod : es.length % 5 = 0 := h
    have hnone : spare es.length = 0 := by simp [spare, hmod]
    have hfour : spare (es.length + 1) = 4 := by
      unfold spare
      omega
    simp only [holding, hnone, List.replicate_zero, List.append_nil]
    rw [COMM_MODE_LIST_INCREMENT, memset_realloc, hfour]
    rfl
  · have hmod : ¬ es.length % 5 = 0 := h
    have hone : spare es.length = spare (es.length + 1) + 1 := by
      unfold spare
      omega
    rw [holding, hone, List.replicate_succ]

theorem add_holding (fresh : Nat → ModeInfo F) (es : List (ModeInfo F)) (comm_name : List Char) :
    comm_mode_add fresh (holding es) comm_name = holding (es ++ [blank comm_name es.length]) := by
  have hcount : (holding es).comm_mode_count = es.length := rfl
  rw [comm_mode_add, grow_holding, hcount, modify_append_cons]
  simp [holding, blank, ModeInfo.zero]

theorem find_holding (same : List Char → Bool) :
    (holding es).find same = es.findIdx? fun e => e.name.any same := by
  rw [Registry.find, holding, List.take_left]

theorem modify_holding {i : Nat} (h : i < es.length) (f : ModeInfo F → ModeInfo F) :
    (holding es).modify i f = holding (es.modify i f) := by
  simp only [Registry.modify, holding, modify_append_left h, List.length_modify]

def first (es : List (ModeInfo F)) (name : List Char) : Option Nat :=
  es.findIdx? fun e => e.name = some name

theorem find_eq_first {same : List Char → Bool} {name : List Char}
    (h : ∀ n, same n = decide (n = name)) : (holding es).find same = first es name := by
  rw [find_holding, first]
  congr 1
  funext e
  cases e.name with
  | none => simp
  | some n => simp [h n]

theorem first_lt {i : Nat} {name : List Char} (h : first es name = some i) : i < es.length := by
  obtain ⟨hlt, -⟩ := List.findIdx?_eq_some_iff_getElem.mp h
  exact hlt

theorem parse_holding (es : List (ModeInfo F)) (arg : List Char) :
    parse_comm_mode (holding es) arg =
      match first es arg with
      | some i => (i, i)
      | none => (-1, 0) := by
  have hsame (n : List Char) : decide (strcmp arg n = 0) = decide (n = arg) := by
    rw [decide_eq_decide, strcmp_eq_zero]
    exact eq_comm
  rw [parse_comm_mode, find_eq_first hsame]

/-- Of two strings of one length, the first is a prefix of the second only if they are
the same. -/
theorem same_initialization (n name : List Char) :
    (strlen n = strlen name && strncmp n name (strlen n) = 0 : Bool) = decide (n = name) := by
  rw [← Bool.decide_and, decide_eq_decide, strncmp_strlen_eq_zero]
  constructor
  · rintro ⟨hlen, hprefix⟩
    exact hprefix.eq_of_length hlen
  · rintro rfl
    exact ⟨rfl, List.prefix_rfl⟩

theorem do_initialization_holding (es : List (ModeInfo F)) (mode : Registration F) :
    comm_mode_do_initialization (holding es) mode =
      match first es mode.name with
      | some i => (holding (es.modify i (ModeInfo.initFrom mode)), some i)
      | none => (holding es, none) := by
  rw [comm_mode_do_initialization, find_eq_first fun n => same_initialization n mode.name]
  cases h : first es mode.name with
  | none => rfl
  | some i => simp only [modify_holding (first_lt h)]

def enrol (es : List (ModeInfo F)) (mode : Registration F) : List (ModeInfo F) :=
  match first es mode.name with
  | some i => es.modify i (ModeInfo.initFrom mode) ++ [blank mode.name es.length]
  | none => es ++ [(blank mode.name es.length).initFrom mode]

theorem first_append (es : List (ModeInfo F)) (name : List Char) (i : Nat) :
    first (es ++ [blank name i]) name = (first es name).or (some es.length) := by
  simp [first, List.findIdx?_append, blank]

theorem cons_holding (fresh : Nat → ModeInfo F) (es : List (ModeInfo F)) (mode : Registration F) :
    cons_comm_mode fresh (holding es) mode = holding (enrol es mode) := by
  rw [cons_comm_mode, add_holding, do_initialization_holding, first_append, enrol]
  cases h : first es mode.name with
  | none => simp only [Option.none_or, modify_append_cons]
  | some i => simp only [Option.some_or, modify_append_left (first_lt h)]

/-- The registry is its entries, whatever memory held before. -/
theorem registered_eq (fresh : Nat → ModeInfo F) (modes : List (Registration F)) :
    registered fresh modes = holding (modes.foldl enrol []) := by
  induction modes using List.reverseRecOn with
  | nil => simp [registered, holding, spare]
  | append_singleton modes mode ih =>
    rw [registered, List.foldl_append, List.foldl_append]
    exact (congrArg (cons_comm_mode fresh · mode) ih).trans (cons_holding fresh _ mode)

def entry (mode : Registration F) (i : Nat) : ModeInfo F where
  ops slot := (mode.ops slot).or (generic slot)
  name := some mode.name
  help_text := mode.help_text
  comm_mode_index := i
  initialized := true

def entriesOf (modes : List (Registration F)) : List (ModeInfo F) :=
  modes.mapIdx fun i mode => entry mode i

theorem initFrom_blank (mode : Registration F) (i : Nat) :
    (blank mode.name i).initFrom mode = entry mode i := by
  simp [blank, ModeInfo.initFrom, ModeInfo.zero, entry]

theorem first_eq_none {name : List Char} (h : ∀ e ∈ es, e.name ≠ some name) :
    first es name = none := by
  simpa [first, List.findIdx?_eq_none_iff] using h

theorem entries_eq {modes : List (Registration F)} (h : (modes.map (·.name)).Nodup) :
    modes.foldl enrol [] = entriesOf modes := by
  induction modes using List.reverseRecOn with
  | nil => rfl
  | append_singleton modes mode ih =>
    rw [List.map_append, List.nodup_append] at h
    obtain ⟨hmodes, -, hdisj⟩ := h
    have hnone : first (entriesOf modes) mode.name = none := by
      refine first_eq_none fun e he => ?_
      obtain ⟨i, hi, rfl⟩ := List.mem_mapIdx.mp he
      have hne := hdisj _ (List.mem_map_of_mem (List.getElem_mem hi)) mode.name (by simp)
      simpa [entry] using hne
    rw [List.foldl_append, ih hmodes, List.foldl_cons, List.foldl_nil, enrol, hnone,
      initFrom_blank, entriesOf, entriesOf, List.mapIdx_append]
    simp

structure Intact (fresh : Nat → ModeInfo F) (modes : List (Registration F)) : Prop where
  count : (registered fresh modes).comm_mode_count = modes.length
  capacity : modes.length ≤ (registered fresh modes).comm_mode_info.length
  entries : ∀ (i : Nat) (mode : Registration F), modes[i]? = some mode →
    (registered fresh modes).comm_mode_info[i]? = some (entry mode i)
  parse_name : ∀ (i : Nat) (mode : Registration F), modes[i]? = some mode →
    parse_comm_mode (registered fresh modes) mode.name = ((i : Int), i)
  parse_other : ∀ arg, arg ∉ modes.map (·.name) →
    parse_comm_mode (registered fresh modes) arg = (-1, 0)

theorem first_entries {modes : List (Registration F)} (h : (modes.map (·.name)).Nodup) {i : Nat}
    {mode : Registration F} (hi : modes[i]? = some mode) :
    first (entriesOf modes) mode.name = some i := by
  obtain ⟨hlt, hget⟩ := List.getElem?_eq_some_iff.mp hi
  refine List.findIdx?_eq_some_iff_getElem.mpr ⟨by simpa [entriesOf] using hlt,
    by simp [entriesOf, entry, hget], ?_⟩
  intro j hj
  have hne := List.pairwise_iff_getElem.mp h j i (by simp; omega) (by simpa using hlt) hj
  simpa [entriesOf, entry, hget] using hne

theorem intact (fresh : Nat → ModeInfo F) {modes : List (Registration F)}
    (h : (modes.map (·.name)).Nodup) : Intact fresh modes := by
  have heq : registered fresh modes = holding (entriesOf modes) := by
    rw [registered_eq, entries_eq h]
  refine ⟨?_, ?_, ?_, ?_, ?_⟩
  · simp [heq, holding, entriesOf]
  · simp [heq, holding, entriesOf]
  · intro i mode hi
    obtain ⟨hlt, hget⟩ := List.getElem?_eq_some_iff.mp hi
    simp [heq, holding, entriesOf, List.getElem?_append, hlt, hget]
  · intro i mode hi
    rw [heq, parse_holding, first_entries h hi]
  · intro arg harg
    rw [heq, parse_holding, first_eq_none]
    intro e he
    obtain ⟨i, hi, rfl⟩ := List.mem_mapIdx.mp he
    simp only [entry, ne_eq, Option.some.injEq]
    rintro rfl
    exact harg (List.mem_map_of_mem (List.getElem_mem hi))

/-- However the modes are ordered, the registry holds all of them after each constructor
function, and no entry that it had is changed. -/
theorem registry_integrity (fresh : Nat → ModeInfo F) (modes : List (Registration F))
    (h : (modes.map (·.name)).Nodup) : (∀ k ≤ modes.length, Intact fresh (modes.take k)) ∧
      ∀ k < modes.length, ∀ i < k,
        (registered fresh (modes.take (k + 1))).comm_mode_info[i]? =
          (registered fresh (modes.take k)).comm_mode_info[i]? := by
  have htake (k : Nat) : ((modes.take k).map (·.name)).Nodup := by
    rw [List.map_take]
    exact h.sublist (List.take_sublist k _)
  refine ⟨fun k _ => intact fresh (htake k), fun k hk i hi => ?_⟩
  have hget : modes[i]? = some modes[i] := List.getElem?_eq_getElem (by omega)
  have hentry (k : Nat) (hik : i < k) :
      (registered fresh (modes.take k)).comm_mode_info[i]? = some (entry modes[i] i) := by
    refine (intact fresh (htake k)).entries i modes[i] ?_
    rw [List.getElem?_take, if_pos hik, hget]
  rw [hentry (k + 1) (by omega), hentry k hi]

def prefixes : List (Registration Unit) :=
  ["futex", "futex_test", "yield", "yield_nop", "spin", "spin_unrolled"].map fun name =>
    ⟨name.toList, some [], fun _ => none⟩

theorem registry_integrity_prefixes :
    (∀ k ≤ prefixes.length, Intact (fun _ => .zero) (prefixes.take k)) ∧
      ∀ k < prefixes.length, ∀ i < k,
        (registered (fun _ => .zero) (prefixes.take (k + 1))).comm_mode_info[i]? =
          (registered (fun _ => .zero) (prefixes.take k)).comm_mode_info[i]? :=
  registry_integrity _ prefixes (by decide +kernel)

end PingPong.CommRegistry
