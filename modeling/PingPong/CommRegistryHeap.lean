import PingPong.Allocation
import PingPong.CommRegistryNames

namespace PingPong.CommRegistryHeap

open Allocation CommRegistry CommRegistryNames CString

variable {F : Type}

/-- `struct comm_mode_info_struct` as it lies in memory, where its texts are pointers. -/
structure Info (F : Type) where
  ops : Ops F
  name : Option Nat
  help_text : Option Nat
  comm_mode_index : Nat
  initialized : Bool

def Info.zero : Info F := ⟨fun _ => none, none, none, 0, false⟩

inductive Block (F : Type)
  | string (s : List Char)
  | array (info : List (Info F))

/-- The global variables of the registry and what they point to. An operation on memory
that is not allocated, or not of the right kind, has no result. -/
structure Globals (F : Type) where
  heap : Heap (Block F)
  comm_mode_info : Option Nat
  comm_mode_count : Nat

def Globals.start : Globals F := ⟨∅, none, 0⟩

def arrayAt (h : Heap (Block F)) (p : Nat) : Option (List (Info F)) :=
  match h.lookup p with
  | some (.array info) => some info
  | _ => none

def stringAt (h : Heap (Block F)) (p : Nat) : Option (List Char) :=
  match h.lookup p with
  | some (.string s) => some s
  | _ => none

/-- `realloc`, which may move the array. What stands behind the old elements is not known. -/
def realloc (al : Allocator (Block F)) (junk : Nat → Info F) (h : Heap (Block F))
    (p : Option Nat) (size : Nat) : Option (Heap (Block F) × Nat) := do
  let info ← p.elim (some []) (arrayAt h)
  let h ← free h p
  let q := al.malloc h
  some (h.insert q (.array ((List.range size).map fun i => info.getD i (junk i))), q)

def strdup (al : Allocator (Block F)) (h : Heap (Block F)) (s : List Char) :
    Heap (Block F) × Nat :=
  (h.insert (al.malloc h) (.string s), al.malloc h)

namespace Globals

def modify (g : Globals F) (i : Nat) (f : Info F → Info F) : Option (Globals F) := do
  let p ← g.comm_mode_info
  let info ← arrayAt g.heap p
  if i < info.length then some { g with heap := g.heap.insert p (.array (info.modify i f)) }
  else none

def get (g : Globals F) (i : Nat) : Option (Info F) := do
  let p ← g.comm_mode_info
  let info ← arrayAt g.heap p
  info[i]?

def findFrom (g : Globals F) (same : List Char → Bool) : (left i : Nat) → Option (Option Nat)
  | 0, _ => some none
  | left + 1, i => do
    let e ← g.get i
    let p ← e.name
    let name ← stringAt g.heap p
    if same name then some (some i) else findFrom g same left (i + 1)

def find (g : Globals F) (same : List Char → Bool) : Option (Option Nat) :=
  g.findFrom same g.comm_mode_count 0

end Globals

/-- Room for one more entry, where memory can be had and `errno` is 0. -/
def grow (al : Allocator (Block F)) (junk : Nat → Info F) (g : Globals F) : Option (Globals F) :=
  if g.comm_mode_count % COMM_MODE_LIST_INCREMENT = 0 then do
    let (h, p) ← realloc al junk g.heap g.comm_mode_info
      (g.comm_mode_count + COMM_MODE_LIST_INCREMENT)
    let info ← arrayAt h p
    let zeroed := info.mapIdx fun i e =>
      if g.comm_mode_count ≤ i ∧ i < g.comm_mode_count + COMM_MODE_LIST_INCREMENT then .zero else e
    some { g with heap := h.insert p (.array zeroed), comm_mode_info := some p }
  else some g

def comm_mode_add (al : Allocator (Block F)) (junk : Nat → Info F) (g : Globals F)
    (comm_name : List Char) : Option (Globals F) := do
  let g ← grow al junk g
  let (h, p) := strdup al g.heap comm_name
  let g ← { g with heap := h }.modify g.comm_mode_count fun e =>
    { e with name := some p, comm_mode_index := g.comm_mode_count, initialized := false }
  some { g with comm_mode_count := g.comm_mode_count + 1 }

def setHelp (al : Allocator (Block F)) (g : Globals F) (i : Nat) :
    Option (List Char) → Option (Globals F)
  | none => some g
  | some help_text =>
    let (h, p) := strdup al g.heap help_text
    { g with heap := h }.modify i fun e => { e with help_text := some p }

def comm_mode_do_initialization (al : Allocator (Block F)) (g : Globals F)
    (init_info : Registration F) : Option (Globals F) := do
  match ← g.find fun name => strlen name = strlen init_info.name &&
      strncmp name init_info.name (strlen name) = 0 with
  | none => some g
  | some i =>
    let g ← setHelp al g i init_info.help_text
    g.modify i fun e => { e with
      ops := fun slot => (init_info.ops slot).or (generic slot), initialized := true }

def cons_comm_mode (al : Allocator (Block F)) (junk : Nat → Info F) (g : Globals F)
    (mode : Registration F) : Option (Globals F) := do
  comm_mode_do_initialization al (← comm_mode_add al junk g mode.name) mode

def freeEntry (g : Globals F) (i : Nat) : Option (Globals F) := do
  let e ← g.get i
  let h ← free g.heap e.help_text
  let g ← { g with heap := h }.modify i fun e => { e with help_text := none }
  let e ← g.get i
  let h ← free g.heap e.name
  { g with heap := h }.modify i fun e => { e with name := none }

def cleanup_comm_mode_info (g : Globals F) : Option (Globals F) := do
  let g ← match g.comm_mode_info with
    | none => some g
    | some p => do
      let g ← (List.range g.comm_mode_count).foldlM freeEntry g
      let h ← free g.heap (some p)
      some { g with heap := h }
  some { g with comm_mode_info := none, comm_mode_count := 0 }

def Info.read (h : Heap (Block F)) (e : Info F) : ModeInfo F :=
  ⟨e.ops, e.name.bind (stringAt h), e.help_text.bind (stringAt h), e.comm_mode_index, e.initialized⟩

/-- The registry as its pointers lead to it. -/
def Globals.registry (g : Globals F) : Registry F where
  comm_mode_info := ((g.comm_mode_info.bind (arrayAt g.heap)).getD []).map (Info.read g.heap)
  comm_mode_count := g.comm_mode_count

variable {h h' : Heap (Block F)} {p q : Nat} {content infos : List (Info F)}
variable {es : List (ModeInfo F)} {lost : List Nat} {x : Info F} {e : ModeInfo F}

def Info.owned (x : Info F) : List Nat := x.name.toList ++ x.help_text.toList

def owned (infos : List (Info F)) : List Nat := infos.flatMap Info.owned

structure Stands (h : Heap (Block F)) (x : Info F) (e : ModeInfo F) : Prop where
  ops : x.ops = e.ops
  name : x.name.map h.lookup = e.name.map fun s => some (.string s)
  help_text : x.help_text.map h.lookup = e.help_text.map fun s => some (.string s)
  comm_mode_index : x.comm_mode_index = e.comm_mode_index
  initialized : x.initialized = e.initialized

theorem Stands.congr (hs : Stands h x e) (hl : ∀ q ∈ x.owned, h'.lookup q = h.lookup q) :
    Stands h' x e where
  ops := hs.ops
  name := by
    rw [← hs.name]
    exact Option.map_congr fun q hq => hl q (by simp [Info.owned, hq])
  help_text := by
    rw [← hs.help_text]
    exact Option.map_congr fun q hq => hl q (by simp [Info.owned, hq])
  comm_mode_index := hs.comm_mode_index
  initialized := hs.initialized

theorem stands_congr (hs : List.Forall₂ (Stands h) infos es)
    (hl : ∀ q ∈ owned infos, h'.lookup q = h.lookup q) : List.Forall₂ (Stands h') infos es := by
  induction hs with
  | nil => exact .nil
  | cons hx _ ih =>
    refine .cons (hx.congr fun q hq => hl q ?_) (ih fun q hq => hl q ?_)
    · simp [owned, hq]
    · simp only [owned, List.flatMap_cons, List.mem_append]
      exact .inr hq

/-- The array at `p` with what is in it, and the entries that are held besides: while one
is being changed, the two need not agree. `lost` is in use and nothing points to it. -/
structure Layout (h : Heap (Block F)) (p : Nat) (content infos : List (Info F))
    (es : List (ModeInfo F)) (lost : List Nat) : Prop where
  array : h.lookup p = some (.array content)
  entries : List.Forall₂ (Stands h) infos es
  owns : Owns h (p :: (owned infos ++ lost))

namespace Layout

theorem not_mem_owned (hl : Layout h p content infos es lost) : p ∉ owned infos := fun hp =>
  (List.nodup_cons.mp hl.owns.nodup).1 (List.mem_append_left _ hp)

theorem store (hl : Layout h p content infos es lost) (content' : List (Info F)) :
    Layout (h.insert p (.array content')) p content' infos es lost where
  array := AList.lookup_insert _
  entries := stands_congr hl.entries fun _ hq => AList.lookup_insert_ne fun heq =>
    hl.not_mem_owned (heq ▸ hq)
  owns := hl.owns.store (hl.owns.mem_iff.mpr List.mem_cons_self)

theorem strdup (hl : Layout h p content infos es lost) (al : Allocator (Block F)) (s : List Char) :
    Layout (h.insert (al.malloc h) (.string s)) p content infos es (al.malloc h :: lost) := by
  have hfresh := al.fresh h
  have hne (q : Nat) (hq : q ∈ h) : q ≠ al.malloc h := fun heq => hfresh (heq ▸ hq)
  have hp : p ∈ h := hl.owns.mem_iff.mpr List.mem_cons_self
  refine ⟨?_, ?_, ?_⟩
  · rw [AList.lookup_insert_ne (hne p hp), hl.array]
  · refine stands_congr hl.entries fun q hq => AList.lookup_insert_ne (hne q ?_)
    exact hl.owns.mem_iff.mpr (List.mem_cons_of_mem _ (List.mem_append_left _ hq))
  · refine (hl.owns.alloc hfresh).perm ?_
    exact (List.Perm.swap _ _ _).trans (List.perm_middle.symm.cons _)

theorem free (hl : Layout h p content infos es (q :: lost)) :
    Allocation.free h (some q) = some (h.erase q) ∧ Layout (h.erase q) p content infos es lost := by
  have howns : Owns h (q :: p :: (owned infos ++ lost)) :=
    hl.owns.perm ((List.perm_middle.cons p).trans (List.Perm.swap _ _ _))
  obtain ⟨hq, -⟩ := List.nodup_cons.mp howns.nodup
  refine ⟨howns.free, ?_, ?_, howns.erase⟩
  · have hne : p ≠ q := by
      rintro rfl
      exact hq List.mem_cons_self
    rw [AList.lookup_erase_ne hne, hl.array]
  · refine stands_congr hl.entries fun r hr => AList.lookup_erase_ne ?_
    rintro rfl
    exact hq (List.mem_cons_of_mem _ (List.mem_append_left _ hr))

theorem hold (hl : Layout h p content infos es lost) (infos' : List (Info F))
    (es' : List (ModeInfo F)) (lost' : List Nat) (hs : List.Forall₂ (Stands h) infos' es')
    (hp : (owned infos' ++ lost').Perm (owned infos ++ lost)) :
    Layout h p content infos' es' lost' :=
  ⟨hl.array, hs, hl.owns.perm (hp.symm.cons p)⟩

end Layout

/-- The registry in memory that has these entries, with `lost` in use besides. -/
inductive Represents : Globals F → List (ModeInfo F) → List Nat → Prop
  | null {h : Heap (Block F)} {lost : List Nat} : Owns h lost → Represents ⟨h, none, 0⟩ [] lost
  | array {h : Heap (Block F)} {p : Nat} {infos : List (Info F)} {es : List (ModeInfo F)}
      {lost : List Nat} :
      Layout h p (infos ++ .replicate (spare es.length) .zero) infos es lost →
      Represents ⟨h, some p, es.length⟩ es lost

theorem represents_start : Represents (F := F) .start [] [] := .null owns_empty

theorem arrayAt_eq (hp : h.lookup p = some (.array content)) : arrayAt h p = some content := by
  rw [arrayAt, hp]

theorem modify_eq {i n : Nat} (f : Info F → Info F) (hp : h.lookup p = some (.array content))
    (hi : i < content.length) : (⟨h, some p, n⟩ : Globals F).modify i f =
      some ⟨h.insert p (.array (content.modify i f)), some p, n⟩ := by
  simp [Globals.modify, arrayAt_eq hp, hi]

theorem get_eq {n : Nat} (hp : h.lookup p = some (.array content)) (i : Nat) :
    (⟨h, some p, n⟩ : Globals F).get i = content[i]? := by
  simp [Globals.get, arrayAt_eq hp]

theorem zeroed_eq (junk : Nat → Info F) (infos : List (Info F)) (n : Nat) :
    ((List.range (infos.length + n)).map fun i => infos.getD i (junk i)).mapIdx (fun i e =>
      if infos.length ≤ i ∧ i < infos.length + n then .zero else e) =
      infos ++ .replicate n .zero := by
  apply List.ext_getElem
  · simp
  · intro i h1 h2
    simp only [List.getElem_mapIdx, List.getElem_map, List.getElem_range]
    have hlt : i < infos.length + n := by simpa using h2
    by_cases hi : i < infos.length
    · rw [if_neg (by omega), List.getElem_append_left hi, List.getD_eq_getElem?_getD,
        List.getElem?_eq_getElem hi, Option.getD_some]
    · rw [if_pos (by omega), List.getElem_append_right (by omega), List.getElem_replicate]

theorem layout_moved (hs : List.Forall₂ (Stands h) infos es) (ho : Owns h (owned infos ++ lost))
    (hq : q ∉ h) (content : List (Info F)) :
    Layout (h.insert q (.array content)) q content infos es lost := by
  refine ⟨AList.lookup_insert _, ?_, ho.alloc hq⟩
  refine stands_congr hs fun r hr => AList.lookup_insert_ne ?_
  rintro rfl
  exact hq (ho.mem_iff.mpr (List.mem_append_left _ hr))

theorem grow_moved (al : Allocator (Block F)) (junk : Nat → Info F) {g : Globals F}
    {h' : Heap (Block F)} (hs : List.Forall₂ (Stands h') infos es)
    (ho : Owns h' (owned infos ++ lost)) (hcount : g.comm_mode_count = es.length)
    (hmod : es.length % 5 = 0)
    (harray : g.comm_mode_info.elim (some []) (arrayAt g.heap) = some infos)
    (hfree : free g.heap g.comm_mode_info = some h') :
    ∃ h p, grow al junk g = some ⟨h, some p, es.length⟩ ∧
      Layout h p (infos ++ .replicate 5 .zero) infos es lost := by
  have hlen := hs.length_eq
  have hmoved := layout_moved hs ho (al.fresh h')
    ((List.range (es.length + 5)).map fun i => infos.getD i (junk i))
  have hzeroed := zeroed_eq junk infos 5
  rw [hlen] at hzeroed
  refine ⟨_, _, ?_, hmoved.store _⟩
  simp only [grow, hcount, COMM_MODE_LIST_INCREMENT, hmod, if_true, realloc, harray, hfree,
    Option.bind_eq_bind, Option.bind_some, arrayAt_eq hmoved.array, hzeroed]

theorem grow_eq (al : Allocator (Block F)) (junk : Nat → Info F) {g : Globals F}
    (hr : Represents g es lost) : ∃ h p infos, grow al junk g = some ⟨h, some p, es.length⟩ ∧
      Layout h p (infos ++ .zero :: .replicate (spare (es.length + 1)) .zero) infos es lost := by
  cases hr with
  | null ho =>
    obtain ⟨h, p, heq, hl⟩ := grow_moved al junk (g := ⟨_, none, 0⟩) .nil ho rfl rfl rfl rfl
    exact ⟨h, p, [], heq, hl⟩
  | array hl =>
    by_cases hmod : es.length % 5 = 0
    · have hnone : spare es.length = 0 := by simp [spare, hmod]
      have hfour : spare (es.length + 1) = 4 := by
        unfold spare
        omega
      rw [hnone, List.replicate_zero, List.append_nil] at hl
      have hs := stands_congr hl.entries fun r hr => AList.lookup_erase_ne
        (ne_of_mem_of_not_mem hr hl.not_mem_owned)
      obtain ⟨h, p, heq, hl⟩ := grow_moved al junk (g := ⟨_, some _, es.length⟩) hs
        hl.owns.erase rfl hmod (arrayAt_eq hl.array) hl.owns.free
      rw [hfour]
      exact ⟨h, p, _, heq, hl⟩
    · have hone : spare es.length = spare (es.length + 1) + 1 := by
        unfold spare
        omega
      rw [hone, List.replicate_succ] at hl
      exact ⟨_, _, _, if_neg hmod, hl⟩

theorem owned_append (xs ys : List (Info F)) : owned (xs ++ ys) = owned xs ++ owned ys :=
  List.flatMap_append

theorem owned_cons (x : Info F) (xs : List (Info F)) : owned (x :: xs) = x.owned ++ owned xs :=
  List.flatMap_cons

theorem add_eq (al : Allocator (Block F)) (junk : Nat → Info F) {g : Globals F}
    (hr : Represents g es lost) (comm_name : List Char) :
    ∃ g', comm_mode_add al junk g comm_name = some g' ∧
      Represents g' (es ++ [blank comm_name es.length]) lost := by
  obtain ⟨h, p, infos, hgrow, hl⟩ := grow_eq al junk hr
  have hcopy := hl.strdup al comm_name
  have hlen := hl.entries.length_eq
  let x : Info F := { Info.zero with name := some (al.malloc h), comm_mode_index := es.length }
  have hx : Stands (h.insert (al.malloc h) (.string comm_name)) x (blank comm_name es.length) :=
    ⟨rfl, by simp [x, blank], rfl, rfl, rfl⟩
  have hperm : (owned (infos ++ [x]) ++ lost).Perm (owned infos ++ al.malloc h :: lost) := by
    have hxo : owned [x] = [al.malloc h] := rfl
    rw [owned_append, hxo, List.append_assoc]
    exact .refl _
  have hheld := (hcopy.hold (infos ++ [x]) (es ++ [blank comm_name es.length]) lost
    (List.rel_append hcopy.entries (.cons hx .nil)) hperm).store
      ((infos ++ [x]) ++ .replicate (spare (es.length + 1)) .zero)
  have hlast : (es ++ [blank comm_name es.length]).length = es.length + 1 := by simp
  rw [← hlast] at hheld
  refine ⟨_, ?_, .array hheld⟩
  have hmodify := modify_eq (n := es.length) (fun e => { e with
    name := some (al.malloc h), comm_mode_index := es.length, initialized := false }) hcopy.array
    (i := es.length) (by simp [hlen])
  rw [← hlen, modify_append_cons, hlen] at hmodify
  simp only [comm_mode_add, hgrow, Option.bind_eq_bind, Option.bind_some, strdup, hmodify]
  simp [x, Info.zero]

theorem Stands.stringAt_name {name : List Char} (hs : Stands h x e) (he : e.name = some name) :
    ∃ q, x.name = some q ∧ stringAt h q = some name := by
  have hn := hs.name
  rw [he, Option.map_some, Option.map_eq_some_iff] at hn
  obtain ⟨q, hq, hlookup⟩ := hn
  exact ⟨q, hq, by rw [stringAt, hlookup]⟩

theorem findFrom_eq {n : Nat} {xs more : List (Info F)} (same : List Char → Bool)
    (hs : List.Forall₂ (Stands h) xs es) (hnamed : ∀ e ∈ es, e.name.isSome) (pre : List (Info F))
    (hp : h.lookup p = some (.array (pre ++ (xs ++ more)))) :
    (⟨h, some p, n⟩ : Globals F).findFrom same es.length pre.length =
      some ((es.findIdx? fun e => e.name.any same).map (· + pre.length)) := by
  induction hs generalizing pre with
  | nil => rfl
  | @cons x e xs es hx hs ih =>
    obtain ⟨name, hname⟩ := Option.isSome_iff_exists.mp (hnamed e List.mem_cons_self)
    obtain ⟨q, hq, hstring⟩ := hx.stringAt_name hname
    have hget : (⟨h, some p, n⟩ : Globals F).get pre.length = some x := by
      rw [get_eq hp]
      simp
    have hrest := ih (fun e he => hnamed e (List.mem_cons_of_mem _ he)) (pre ++ [x])
      (by simpa using hp)
    rw [List.length_append, List.length_singleton] at hrest
    rw [List.length_cons, Globals.findFrom, hget]
    simp only [Option.bind_eq_bind, Option.bind_some, hq, hstring, hrest, List.findIdx?_cons, hname,
      Option.any_some]
    cases same name with
    | true => simp
    | false => simp [Function.comp_def, Nat.add_assoc, Nat.add_comm 1]

theorem find_eq {g : Globals F} (hr : Represents g es lost) (hnamed : ∀ e ∈ es, e.name.isSome)
    (name : List Char) : (g.find fun n => strlen n = strlen name && strncmp n name (strlen n) = 0) =
      some (first es name) := by
  have hfirst : (holding es).find _ = _ := find_eq_first fun n => same_initialization n name
  rw [find_holding] at hfirst
  cases hr with
  | null _ => rfl
  | array hl =>
    have heq := findFrom_eq (n := es.length)
      (fun n => strlen n = strlen name && strncmp n name (strlen n) = 0) hl.entries hnamed []
      hl.array
    rw [List.length_nil, hfirst] at heq
    simpa [Globals.find] using heq

theorem exists_around {α : Type} {xs : List α} {j : Nat} (hj : j < xs.length) :
    ∃ a x b, xs = a ++ x :: b ∧ a.length = j := by
  refine ⟨xs.take j, xs[j], xs.drop (j + 1), ?_, by simp; omega⟩
  rw [← List.drop_eq_getElem_cons hj, List.take_append_drop]

theorem forall₂_around {α γ : Type} {R : α → γ → Prop} {a b : List α} {a' b' : List γ} {x : α}
    {y : γ} (hs : List.Forall₂ R (a ++ x :: b) (a' ++ y :: b')) (hlen : a.length = a'.length) :
    List.Forall₂ R a a' ∧ R x y ∧ List.Forall₂ R b b' := by
  induction a generalizing a' with
  | nil =>
    obtain rfl : a' = [] := List.length_eq_zero_iff.mp hlen.symm
    obtain ⟨hx, hb⟩ := List.forall₂_cons.mp hs
    exact ⟨.nil, hx, hb⟩
  | cons z a ih =>
    obtain ⟨w, a', rfl⟩ := List.exists_cons_of_length_eq_add_one hlen.symm
    obtain ⟨hz, hs⟩ := List.forall₂_cons.mp hs
    obtain ⟨ha, hx, hb⟩ := ih hs (Nat.succ.inj hlen)
    exact ⟨.cons hz ha, hx, hb⟩

section Entry

variable {a b more : List (Info F)} {a' b' : List (ModeInfo F)} {y : Info F} {f : ModeInfo F}

theorem Layout.replace {lost' : List Nat}
    (hl : Layout h p (a ++ x :: b ++ more) (a ++ x :: b) (a' ++ e :: b') lost)
    (hlen : a.length = a'.length) (hy : Stands h x e → Stands h y f)
    (hp : (y.owned ++ lost').Perm (x.owned ++ lost)) :
    Layout (h.insert p (.array (a ++ y :: b ++ more))) p (a ++ y :: b ++ more) (a ++ y :: b)
      (a' ++ f :: b') lost' := by
  obtain ⟨ha, hx, hb⟩ := forall₂_around hl.entries hlen
  refine (hl.hold _ _ lost' (List.rel_append ha (.cons (hy hx) hb)) ?_).store _
  rw [List.perm_iff_count] at hp ⊢
  intro r
  have hr := hp r
  simp only [owned_append, owned_cons, List.count_append] at hr ⊢
  omega

theorem modify_entry {n : Nat} (f : Info F → Info F)
    (hp : h.lookup p = some (.array (a ++ x :: b ++ more))) :
    (⟨h, some p, n⟩ : Globals F).modify a.length f =
      some ⟨h.insert p (.array (a ++ f x :: b ++ more)), some p, n⟩ := by
  rw [modify_eq f hp (by simp), List.append_assoc, List.cons_append, modify_append_cons,
    List.append_assoc, List.cons_append]

theorem setHelp_eq (al : Allocator (Block F)) {n : Nat}
    (hl : Layout h p (a ++ x :: b ++ more) (a ++ x :: b) (a' ++ e :: b') lost)
    (hlen : a.length = a'.length) (help_text : Option (List Char)) :
    ∃ h' y lost', setHelp al ⟨h, some p, n⟩ a.length help_text = some ⟨h', some p, n⟩ ∧
      Layout h' p (a ++ y :: b ++ more) (a ++ y :: b)
        (a' ++ { e with help_text := help_text.or e.help_text } :: b') lost' ∧
      lost'.length = lost.length + if help_text.isSome ∧ e.help_text.isSome then 1 else 0 := by
  cases help_text with
  | none => exact ⟨h, x, lost, rfl, by simpa using hl, by simp⟩
  | some text =>
    have hcopy := hl.strdup al text
    have hx := (forall₂_around hl.entries hlen).2.1
    have hsome : x.help_text.toList.length = if e.help_text.isSome then 1 else 0 := by
      have hmap := congrArg Option.isSome hx.help_text
      rw [Option.isSome_map, Option.isSome_map] at hmap
      cases ht : x.help_text <;> simp_all
    refine ⟨_, { x with help_text := some (al.malloc h) }, x.help_text.toList ++ lost, ?_,
      hcopy.replace hlen
        (fun hx => ⟨hx.ops, hx.name, ?_, hx.comm_mode_index, hx.initialized⟩) ?_, ?_⟩
    · exact modify_entry _ hcopy.array
    · simp
    · simp only [Info.owned, Option.toList_some, List.append_assoc, List.singleton_append]
      exact List.Perm.append_left _ List.perm_middle.symm
    · simp [hsome, Nat.add_comm]

end Entry

/-- What the initialization of an entry loses: a text that it had. -/
def lostBy (mode : Registration F) (e : ModeInfo F) : Nat :=
  if mode.help_text.isSome ∧ e.help_text.isSome then 1 else 0

theorem initialize_eq (al : Allocator (Block F)) {g : Globals F} (hr : Represents g es lost)
    {j : Nat} (hj : j < es.length) (mode : Registration F) :
    ∃ g' lost', ((setHelp al g j mode.help_text).bind fun g => g.modify j fun e => { e with
        ops := fun slot => (mode.ops slot).or (generic slot), initialized := true }) = some g' ∧
      Represents g' (es.modify j (ModeInfo.initFrom mode)) lost' ∧
      lost'.length = lost.length + lostBy mode es[j] := by
  cases hr with
  | null _ => simp at hj
  | @array h p infos _ _ hl =>
    have hinfos := hl.entries.length_eq
    obtain ⟨a', e, b', rfl, rfl⟩ := exists_around hj
    obtain ⟨a, x, b, rfl, hlen⟩ := exists_around (hinfos ▸ hj : a'.length < infos.length)
    have hget : (a' ++ e :: b')[a'.length] = e := by simp
    have hlast : (a' ++ e.initFrom mode :: b').length = (a' ++ e :: b').length := by simp
    obtain ⟨h', y, lost', hset, hl', hlost⟩ :=
      setHelp_eq al (n := (a' ++ e :: b').length) hl hlen mode.help_text
    have hdone := hl'.replace (f := e.initFrom mode) (y := { y with
      ops := fun slot => (mode.ops slot).or (generic slot), initialized := true }) hlen
      (fun hy => ⟨rfl, hy.name, hy.help_text, hy.comm_mode_index, rfl⟩) (.refl _)
    rw [hget, modify_append_cons]
    rw [← hlast] at hdone
    refine ⟨_, lost', ?_, .array hdone, hlost⟩
    rw [← hlen, hset, hlast]
    exact modify_entry _ hl'.array

theorem enrol_eq (es : List (ModeInfo F)) (mode : Registration F) :
    enrol es mode = (es ++ [blank mode.name es.length]).modify
      ((first es mode.name).getD es.length) (ModeInfo.initFrom mode) := by
  rw [enrol]
  cases hf : first es mode.name with
  | none => simp [modify_append_cons]
  | some i => simp [modify_append_left (first_lt hf)]

def Named (es : List (ModeInfo F)) : Prop := ∀ e ∈ es, e.name.isSome

theorem cons_eq (al : Allocator (Block F)) (junk : Nat → Info F) {g : Globals F}
    (hr : Represents g es lost) (hnamed : Named es) (mode : Registration F) :
    ∃ g' lost', cons_comm_mode al junk g mode = some g' ∧ Represents g' (enrol es mode) lost' ∧
      ∃ e, (es ++ [blank mode.name es.length])[(first es mode.name).getD es.length]? = some e ∧
        lost'.length = lost.length + lostBy mode e := by
  obtain ⟨g', hadd, hr'⟩ := add_eq al junk hr mode.name
  have hnamed' : Named (es ++ [blank mode.name es.length]) := by
    intro e he
    obtain he | he := List.mem_append.mp he
    · exact hnamed e he
    · rw [List.mem_singleton.mp he]
      rfl
  have hfind := find_eq hr' hnamed' mode.name
  rw [first_append] at hfind
  have hor : (first es mode.name).or (some es.length) =
      some ((first es mode.name).getD es.length) := by
    cases first es mode.name <;> rfl
  have hlt : (first es mode.name).getD es.length < (es ++ [blank mode.name es.length]).length := by
    cases hf : first es mode.name with
    | none => simp
    | some i =>
      have hi := first_lt hf
      simp
      omega
  obtain ⟨g'', lost', hinit, hr'', hlost⟩ := initialize_eq al hr' hlt mode
  refine ⟨g'', lost', ?_, by rw [enrol_eq]; exact hr'', _, List.getElem?_eq_getElem hlt, hlost⟩
  rw [cons_comm_mode, hadd]
  simp only [Option.bind_eq_bind, Option.bind_some, comm_mode_do_initialization, hfind, hor]
  exact hinit

theorem Named.enrol (hnamed : Named es) (mode : Registration F) : Named (enrol es mode) := by
  intro e he
  have hmem : e.name ∈ (CommRegistry.enrol es mode).map (·.name) := List.mem_map_of_mem he
  rw [map_name_enrol, List.mem_append, List.mem_map] at hmem
  obtain ⟨e', he', heq⟩ | hlast := hmem
  · exact heq ▸ hnamed e' he'
  · rw [List.mem_singleton.mp hlast]
    rfl

theorem first_eq_of_names {es es' : List (ModeInfo F)} (h : es'.map (·.name) = es.map (·.name))
    (name : List Char) : first es' name = first es name := by
  have hmap (es : List (ModeInfo F)) :
      first es name = (es.map (·.name)).findIdx? fun n => n = some name := by
    rw [first, List.findIdx?_map]
    rfl
  rw [hmap, hmap, h]

theorem first_enrol (es : List (ModeInfo F)) (mode : Registration F) (name : List Char) :
    first (enrol es mode) name =
      (first es name).or (if mode.name = name then some es.length else none) := by
  have hnames : (enrol es mode).map (fun e : ModeInfo F => e.name) =
      (es ++ [blank mode.name es.length]).map fun e : ModeInfo F => e.name := by
    rw [map_name_enrol, List.map_append]
    rfl
  rw [first_eq_of_names hnames, first, List.findIdx?_append, first]
  congr 1
  by_cases hn : mode.name = name <;> simp [blank, hn]

def helpOf (es : List (ModeInfo F)) (name : List Char) : Option (List Char) :=
  (first es name).bind fun i => es[i]?.bind fun e => e.help_text

theorem name_of_first {name : List Char} {i : Nat} (hf : first es name = some i) :
    ∃ e, es[i]? = some e ∧ e.name = some name := by
  obtain ⟨hlt, hname, -⟩ := List.findIdx?_eq_some_iff_getElem.mp hf
  exact ⟨_, List.getElem?_eq_getElem hlt, by simpa using hname⟩

theorem helpOf_enrol (es : List (ModeInfo F)) (mode : Registration F) (name : List Char) :
    helpOf (enrol es mode) name =
      if mode.name = name then mode.help_text.or (helpOf es name) else helpOf es name := by
  rw [helpOf, first_enrol, helpOf]
  cases hm : first es mode.name with
  | none =>
    have henrol : enrol es mode = es ++ [(blank mode.name es.length).initFrom mode] := by
      rw [enrol, hm]
    by_cases hn : mode.name = name
    · subst hn
      simp [hm, henrol, ModeInfo.initFrom, blank, ModeInfo.zero]
    · cases hf : first es name with
      | none => simp [hn]
      | some k =>
        have hk := first_lt hf
        simp [hn, henrol, List.getElem?_append_left hk]
  | some i =>
    have henrol : enrol es mode =
        es.modify i (ModeInfo.initFrom mode) ++ [blank mode.name es.length] := by
      rw [enrol, hm]
    have hi := first_lt hm
    by_cases hn : mode.name = name
    · subst hn
      simp [hm, henrol, List.getElem?_append_left, hi, ModeInfo.initFrom]
    · cases hf : first es name with
      | none => simp [hn]
      | some k =>
        obtain ⟨e, he, hname⟩ := name_of_first hf
        obtain ⟨e', he', hname'⟩ := name_of_first hm
        have hne : i ≠ k := by
          rintro rfl
          rw [he] at he'
          cases he'
          exact hn (Option.some.inj (hname'.symm.trans hname))
        have hk := first_lt hf
        simp [hn, henrol, List.getElem?_append_left, hk, hne]

theorem lostBy_eq {mode : Registration F}
    (he : (es ++ [blank mode.name es.length])[(first es mode.name).getD es.length]? = some e) :
    lostBy mode e = if mode.help_text.isSome ∧ (helpOf es mode.name).isSome then 1 else 0 := by
  rw [lostBy, helpOf]
  cases hf : first es mode.name with
  | none =>
    rw [hf] at he
    obtain rfl : blank mode.name es.length = e := by simpa using he
    simp [blank, ModeInfo.zero]
  | some i =>
    rw [hf, Option.getD_some, List.getElem?_append_left (first_lt hf)] at he
    simp [he]

def helpNames (modes : List (Registration F)) : List (List Char) :=
  (modes.filter fun mode => mode.help_text.isSome).map (·.name)

theorem helpNames_append (modes : List (Registration F)) (mode : Registration F) :
    helpNames (modes ++ [mode]) =
      helpNames modes ++ if mode.help_text.isSome then [mode.name] else [] := by
  rw [helpNames, List.filter_append, List.map_append, helpNames]
  congr 1
  cases h : mode.help_text.isSome <;> simp [h]

theorem isSome_helpOf (modes : List (Registration F)) (name : List Char) :
    (helpOf (modes.foldl enrol []) name).isSome ↔ name ∈ helpNames modes := by
  induction modes using List.reverseRecOn with
  | nil => simp [helpOf, first, helpNames]
  | append_singleton modes mode ih =>
    rw [List.foldl_append, List.foldl_cons, List.foldl_nil, helpOf_enrol, helpNames_append,
      List.mem_append, ← ih]
    by_cases hn : mode.name = name
    · subst hn
      cases mode.help_text <;> simp
    · have hn' : ¬ name = mode.name := fun h => hn h.symm
      cases mode.help_text <;> simp [hn, hn']

def registered (al : Allocator (Block F)) (junk : Nat → Info F) (modes : List (Registration F)) :
    Option (Globals F) := modes.foldlM (cons_comm_mode al junk) .start

/-- No constructor function goes wrong, and a text is lost exactly when a name is given a
second one. -/
theorem represents_registered (al : Allocator (Block F)) (junk : Nat → Info F)
    (modes : List (Registration F)) :
    ∃ g lost, registered al junk modes = some g ∧ Represents g (modes.foldl enrol []) lost ∧
      Named (modes.foldl enrol []) ∧ (lost = [] ↔ (helpNames modes).Nodup) := by
  induction modes using List.reverseRecOn with
  | nil =>
    exact ⟨.start, [], rfl, represents_start, by simp [Named], by simp [helpNames]⟩
  | append_singleton modes mode ih =>
    obtain ⟨g, lost, hg, hr, hnamed, hlost⟩ := ih
    obtain ⟨g', lost', hcons, hr', e, he, hlen⟩ := cons_eq al junk hr hnamed mode
    rw [List.foldl_append, List.foldl_cons, List.foldl_nil]
    refine ⟨g', lost', ?_, hr', hnamed.enrol mode, ?_⟩
    · rw [registered] at hg
      rw [registered, List.foldlM_append, hg]
      simpa using hcons
    · rw [lostBy_eq he] at hlen
      simp only [isSome_helpOf] at hlen
      rw [← List.length_eq_zero_iff] at hlost ⊢
      rw [hlen, Nat.add_eq_zero_iff, hlost, helpNames_append]
      cases hhelp : mode.help_text.isSome with
      | false => simp
      | true =>
        have hnodup : (helpNames modes ++ [mode.name]).Nodup ↔
            mode.name ∉ helpNames modes ∧ (helpNames modes).Nodup := by
          rw [List.nodup_append_comm, List.singleton_append, List.nodup_cons]
        by_cases hmem : mode.name ∈ helpNames modes <;> simp [hnodup, hmem]

theorem Stands.read (hs : Stands h x e) : x.read h = e := by
  obtain ⟨hops, hname, hhelp, hindex, hinit⟩ := hs
  have hstring {o : Option Nat} {s : Option (List Char)}
      (ho : o.map h.lookup = s.map fun s => some (.string s)) : o.bind (stringAt h) = s := by
    cases o with
    | none => cases s <;> simp_all
    | some q => cases s <;> simp_all [stringAt]
  simp [Info.read, hops, hstring hname, hstring hhelp, hindex, hinit]

theorem registry_eq {g : Globals F} (hr : Represents g es lost) : g.registry = holding es := by
  cases hr with
  | null _ => simp [Globals.registry, holding, spare]
  | @array h p infos _ _ hl =>
    have hread : infos.map (Info.read h) = es := by
      refine List.ext_getElem (by simpa using hl.entries.length_eq) fun i h1 h2 => ?_
      rw [List.getElem_map]
      exact (hl.entries.get _ h2).read
    simp only [Globals.registry, Option.bind_some, arrayAt_eq hl.array, Option.getD_some,
      List.map_append, hread, List.map_replicate]
    rfl

theorem Layout.free_pointer {o : Option Nat} (hl : Layout h p content infos es (o.toList ++ lost)) :
    ∃ h', Allocation.free h o = some h' ∧ Layout h' p content infos es lost := by
  cases o with
  | none => exact ⟨h, rfl, hl⟩
  | some q => exact ⟨_, Layout.free hl⟩

theorem freeEntry_eq {n : Nat} (pre more : List (Info F))
    (hl : Layout h p (pre ++ x :: more) (x :: infos) (e :: es) lost) :
    ∃ h', freeEntry ⟨h, some p, n⟩ pre.length = some ⟨h', some p, n⟩ ∧
      Layout h' p (pre ++ { x with help_text := none, name := none } :: more) infos es lost := by
  obtain ⟨-, hs⟩ := List.forall₂_cons.mp hl.entries
  have hperm : (owned infos ++ (x.help_text.toList ++ (x.name.toList ++ lost))).Perm
      (owned (x :: infos) ++ lost) := by
    rw [List.perm_iff_count]
    intro r
    simp only [owned_cons, Info.owned, List.count_append]
    omega
  obtain ⟨h1, hfree1, hl1⟩ := (hl.hold _ _ _ hs hperm).free_pointer
  have hl2 := hl1.store (pre ++ { x with help_text := none } :: more)
  obtain ⟨h3, hfree3, hl3⟩ := hl2.free_pointer
  have hl4 := hl3.store (pre ++ { x with help_text := none, name := none } :: more)
  refine ⟨_, ?_, hl4⟩
  have hget {h : Heap (Block F)} {y : Info F}
      (hp : h.lookup p = some (.array (pre ++ y :: more))) :
      (⟨h, some p, n⟩ : Globals F).get pre.length = some y := by
    rw [get_eq hp]
    simp
  have hmodify {h : Heap (Block F)} {y : Info F} (f : Info F → Info F)
      (hp : h.lookup p = some (.array (pre ++ y :: more))) :
      (⟨h, some p, n⟩ : Globals F).modify pre.length f =
        some ⟨h.insert p (.array (pre ++ f y :: more)), some p, n⟩ := by
    rw [modify_eq f hp (by simp), modify_append_cons]
  simp only [freeEntry, hget hl.array, Option.bind_eq_bind, Option.bind_some, hfree1,
    hmodify _ hl1.array, hget hl2.array, hfree3, hmodify _ hl3.array]

theorem freeEntries_eq {n : Nat} {infos : List (Info F)} {es : List (ModeInfo F)}
    {h : Heap (Block F)} (pre more : List (Info F))
    (hl : Layout h p (pre ++ (infos ++ more)) infos es lost) :
    ∃ h' content, (List.range' pre.length es.length).foldlM freeEntry ⟨h, some p, n⟩ =
        some ⟨h', some p, n⟩ ∧ Layout h' p content [] [] lost := by
  induction es generalizing infos pre h with
  | nil =>
    obtain rfl : infos = [] := List.forall₂_nil_right_iff.mp hl.entries
    exact ⟨h, _, rfl, hl⟩
  | cons e es ih =>
    obtain ⟨x, xs, -, -, rfl⟩ := List.forall₂_cons_right_iff.mp hl.entries
    obtain ⟨h1, hfree, hl1⟩ := freeEntry_eq (n := n) pre (xs ++ more) hl
    rw [List.append_cons] at hl1
    obtain ⟨h2, content, hrest, hl2⟩ := ih _ hl1
    refine ⟨h2, content, ?_, hl2⟩
    rw [List.length_append, List.length_singleton] at hrest
    rw [List.length_cons, List.range'_succ, List.foldlM_cons, hfree]
    exact hrest

theorem cleanup_eq {g : Globals F} (hr : Represents g es lost) :
    ∃ h, cleanup_comm_mode_info g = some ⟨h, none, 0⟩ ∧ Owns h lost := by
  cases hr with
  | null ho => exact ⟨_, rfl, ho⟩
  | array hl =>
    obtain ⟨h', content, hloop, hl'⟩ := freeEntries_eq (n := es.length) [] _ hl
    rw [List.length_nil, ← List.range_eq_range'] at hloop
    have howns : Owns h' (_ :: lost) := hl'.owns
    refine ⟨_, ?_, howns.erase⟩
    simp only [cleanup_comm_mode_info, hloop, Option.bind_eq_bind, Option.bind_some, howns.free]

/-- Wherever the allocator puts the texts and the array, no constructor function reads or
writes what is not allocated, and what the pointers lead to is the registry. -/
theorem registry_in_memory (al : Allocator (Block F)) (junk : Nat → Info F)
    (fresh : Nat → ModeInfo F) (modes : List (Registration F)) :
    ∃ g, registered al junk modes = some g ∧ g.registry = CommRegistry.registered fresh modes := by
  obtain ⟨g, lost, hg, hr, -, -⟩ := represents_registered al junk modes
  exact ⟨g, hg, (registry_eq hr).trans (registered_eq fresh modes).symm⟩

/-- The destructor frees nothing twice, and may run again. It leaves nothing in use
exactly if no name was given two help texts. -/
theorem cleanup_frees (al : Allocator (Block F)) (junk : Nat → Info F)
    (modes : List (Registration F)) :
    ∃ g h, registered al junk modes = some g ∧ cleanup_comm_mode_info g = some ⟨h, none, 0⟩ ∧
      cleanup_comm_mode_info ⟨h, none, 0⟩ = some ⟨h, none, 0⟩ ∧
      (h = ∅ ↔ (helpNames modes).Nodup) := by
  obtain ⟨g, lost, hg, hr, -, hlost⟩ := represents_registered al junk modes
  obtain ⟨h, hclean, howns⟩ := cleanup_eq hr
  refine ⟨g, h, hg, hclean, rfl, ?_⟩
  rw [← hlost]
  exact howns.eq_empty_iff

example : ((registered next (fun _ => .zero) (prefixes ++ prefixes.take 1)).bind
    cleanup_comm_mode_info).map (·.heap.keys.length) = some 1 := by decide +kernel

end PingPong.CommRegistryHeap
