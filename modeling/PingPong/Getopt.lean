import Mathlib.Data.List.Basic
import Mathlib.Data.List.Infix
import Mathlib.Data.List.TakeWhile

namespace PingPong.Getopt

/-- A `struct option` whose `flag` is null. -/
structure LongOption where
  name : List Char
  has_arg : Bool
  val : Char
deriving DecidableEq, Repr

def letter (c : Char) : List Char → Option Bool
  | [] => none
  | x :: optstring =>
    if c = x then if c = ':' ∨ c = ';' then none else some (optstring.head? = some ':')
    else letter c optstring

structure Table where
  optstring : List Char
  longopts : List LongOption
  dash : letter '-' optstring = none

/-- What one call returns: an option with its `optarg`, or a question mark. -/
inductive Ret
  | option (val : Char) (optarg : Option (List Char))
  | unknown
deriving DecidableEq, Repr

/-- The option of a long name: the one that is named so, or else the first that the name
abbreviates, unless others that it abbreviates differ from it. -/
def Table.find (T : Table) (name : List Char) : Option LongOption :=
  match T.longopts.find? (·.name = name) with
  | some o => some o
  | none =>
    match T.longopts.filter (name <+: ·.name) with
    | [] => none
    | o :: os => if ∀ p ∈ os, p.has_arg = o.has_arg ∧ p.val = o.val then some o else none

/-- The letters after a dash, before an argument that may follow: what the calls return,
and whether they take that argument. -/
def letters (T : Table) (following : Option (List Char)) : List Char → List Ret × Bool
  | [] => ([], false)
  | c :: cs =>
    match letter c T.optstring with
    | none => ((letters T following cs).map (.unknown :: ·) id)
    | some false => ((letters T following cs).map (.option c none :: ·) id)
    | some true =>
      match cs, following with
      | [], none => ([.unknown], false)
      | [], some optarg => ([.option c (some optarg)], true)
      | c' :: cs, _ => ([.option c (some (c' :: cs))], false)

def long (T : Table) (following : Option (List Char)) (text : List Char) : Ret × Bool :=
  match T.find (text.takeWhile (· ≠ '=')), text.dropWhile (· ≠ '='), following with
  | none, _, _ => (.unknown, false)
  | some o, _ :: optarg, _ =>
    (if o.has_arg then .option o.val (some optarg) else .unknown, false)
  | some o, [], none => (if o.has_arg then .unknown else .option o.val none, false)
  | some o, [], some optarg =>
    if o.has_arg then (.option o.val (some optarg), true) else (.option o.val none, false)

inductive Element
  | operand
  | last
  | options (rets : List Ret) (took : Bool)

def element (T : Table) (following : Option (List Char)) : List Char → Element
  | '-' :: '-' :: [] => .last
  | '-' :: '-' :: text => let r := long T following text; .options [r.1] r.2
  | '-' :: c :: cs => let r := letters T following (c :: cs); .options r.1 r.2
  | _ => .operand

/-- What the calls of `getopt_long` return until the last one returns -1, and what they leave
at the end of `argv`. -/
def getopt_long (T : Table) : List (List Char) → List Ret × List (List Char)
  | [] => ([], [])
  | arg :: argv =>
    match element T argv.head? arg with
    | .operand => (getopt_long T argv).map id (arg :: ·)
    | .last => ([], argv)
    | .options rets false => (getopt_long T argv).map (rets ++ ·) id
    | .options rets true =>
      match argv with
      | [] => (rets, [])
      | _ :: argv => (getopt_long T argv).map (rets ++ ·) id

abbrev Given := Char × Option (List Char)

def Given.ret (o : Given) : Ret := .option o.1 o.2

def Flags (T : Table) (cs : List Char) : Prop := ∀ c ∈ cs, letter c T.optstring = some false

def flags (cs : List Char) : List Given := cs.map fun c => (c, none)

/-- How options are written in one element of `argv`, or in two. -/
inductive Written (T : Table) : List (List Char) → List Given → Prop
  | letters {cs} (hne : cs ≠ []) (hf : Flags T cs) : Written T ['-' :: cs] (flags cs)
  | joined {cs c optarg} (hf : Flags T cs) (hc : letter c T.optstring = some true)
      (hne : optarg ≠ []) :
      Written T ['-' :: (cs ++ c :: optarg)] (flags cs ++ [(c, some optarg)])
  | apart {cs c optarg} (hf : Flags T cs) (hc : letter c T.optstring = some true) :
      Written T ['-' :: (cs ++ [c]), optarg] (flags cs ++ [(c, some optarg)])
  | name {name o} (hne : name ≠ []) (heq : '=' ∉ name) (ho : T.find name = some o)
      (ha : o.has_arg = false) : Written T ['-' :: '-' :: name] [(o.val, none)]
  | nameJoined {name o optarg} (heq : '=' ∉ name) (ho : T.find name = some o)
      (ha : o.has_arg = true) :
      Written T ['-' :: '-' :: (name ++ '=' :: optarg)] [(o.val, some optarg)]
  | nameApart {name o optarg} (hne : name ≠ []) (heq : '=' ∉ name) (ho : T.find name = some o)
      (ha : o.has_arg = true) : Written T ['-' :: '-' :: name, optarg] [(o.val, some optarg)]

/-- No dash before it, or nothing after the dash. -/
def Operand (arg : List Char) : Prop := arg.head? ≠ some '-' ∨ arg = ['-']

inductive CommandLine (T : Table) : List (List Char) → List Given → List (List Char) → Prop
  | nil : CommandLine T [] [] []
  | last (operands) : CommandLine T (['-', '-'] :: operands) [] operands
  | operand {arg argv os operands} (ha : Operand arg) (h : CommandLine T argv os operands) :
      CommandLine T (arg :: argv) os (arg :: operands)
  | options {ws gs argv os operands} (hw : Written T ws gs) (h : CommandLine T argv os operands) :
      CommandLine T (ws ++ argv) (gs ++ os) operands

variable {T : Table} {f : Option (List Char)} {arg : List Char} {cs : List Char} {gs : List Given}
  {took : Bool}

theorem ret_injective : Function.Injective Given.ret := by
  rintro ⟨c, a⟩ ⟨d, b⟩ h
  obtain ⟨rfl, rfl⟩ := Ret.option.inj h
  rfl

theorem map_ret_injective : Function.Injective (List.map Given.ret) :=
  List.map_injective_iff.mpr ret_injective

theorem ret_ne_unknown (gs : List Given) {rets : List Ret} :
    gs.map Given.ret ≠ .unknown :: rets := by
  intro h
  obtain ⟨g, gs, rfl, hg, -⟩ := List.map_eq_cons_iff.mp h
  exact Ret.noConfusion hg

theorem letters_append (hf : Flags T cs) (rest : List Char) :
    letters T f (cs ++ rest) = (letters T f rest).map ((flags cs).map Given.ret ++ ·) id := by
  induction cs with
  | nil => rfl
  | cons c cs ih =>
    obtain ⟨hc, hcs⟩ := List.forall_mem_cons.mp hf
    simp only [List.cons_append, letters, hc, ih hcs]
    rfl

theorem letters_flags (hf : Flags T cs) : letters T f cs = ((flags cs).map Given.ret, false) := by
  simpa [letters] using letters_append (f := f) hf []

theorem letters_cases (h : letters T f cs = (gs.map Given.ret, took)) :
    Flags T cs ∧ gs = flags cs ∧ took = false ∨
    ∃ ds c rest, cs = ds ++ c :: rest ∧ Flags T ds ∧ letter c T.optstring = some true ∧
      (rest ≠ [] ∧ gs = flags ds ++ [(c, some rest)] ∧ took = false ∨
        ∃ optarg, rest = [] ∧ f = some optarg ∧ gs = flags ds ++ [(c, some optarg)] ∧
          took = true) := by
  induction cs generalizing gs with
  | nil =>
    obtain ⟨hgs, rfl⟩ := Prod.mk.inj h
    exact .inl ⟨by simp [Flags], List.map_eq_nil_iff.mp hgs.symm, rfl⟩
  | cons c cs ih =>
    cases hc : letter c T.optstring with
    | none =>
      simp only [letters, hc, Prod.map, Prod.mk.injEq] at h
      exact absurd h.1.symm (ret_ne_unknown gs)
    | some takes =>
      cases takes with
      | false =>
        simp only [letters, hc, Prod.map, Prod.mk.injEq, id] at h
        obtain ⟨hgs, htook⟩ := h
        obtain ⟨g, gs, rfl, hg, hrest⟩ := List.map_eq_cons_iff.mp hgs.symm
        obtain rfl : g = (c, none) := ret_injective hg
        obtain ⟨hf, rfl, rfl⟩ | ⟨ds, c', rest, rfl, hf, hc', hend⟩ :=
          ih (Prod.ext hrest.symm htook)
        · exact .inl ⟨List.forall_mem_cons.mpr ⟨hc, hf⟩, rfl, rfl⟩
        · refine .inr ⟨c :: ds, c', rest, rfl, List.forall_mem_cons.mpr ⟨hc, hf⟩, hc', ?_⟩
          obtain ⟨hne, rfl, rfl⟩ | ⟨optarg, hnil, hfol, rfl, rfl⟩ := hend
          · exact .inl ⟨hne, rfl, rfl⟩
          · exact .inr ⟨optarg, hnil, hfol, rfl, rfl⟩
      | true =>
        refine .inr ⟨[], c, cs, rfl, by simp [Flags], hc, ?_⟩
        cases cs with
        | nil =>
          cases f with
          | none =>
            simp only [letters, hc, Prod.mk.injEq] at h
            exact absurd h.1.symm (ret_ne_unknown gs)
          | some optarg =>
            simp only [letters, hc, Prod.mk.injEq] at h
            obtain ⟨hgs, rfl⟩ := h
            obtain rfl : gs = [(c, some optarg)] := map_ret_injective hgs.symm
            exact .inr ⟨optarg, rfl, rfl, rfl, rfl⟩
        | cons c' cs =>
          simp only [letters, hc, Prod.mk.injEq] at h
          obtain ⟨hgs, rfl⟩ := h
          obtain rfl : gs = [(c, some (c' :: cs))] := map_ret_injective hgs.symm
          exact .inl ⟨nofun, rfl, rfl⟩

theorem ne_dash {c : Char} {takes : Bool} (h : letter c T.optstring = some takes) : c ≠ '-' := by
  rintro rfl
  simp [T.dash] at h

theorem element_letters {c : Char} (hc : c ≠ '-') : element T f ('-' :: c :: cs) =
    .options (letters T f (c :: cs)).1 (letters T f (c :: cs)).2 := by
  simp [element, hc]

theorem element_long {text : List Char} (h : text ≠ []) :
    element T f ('-' :: '-' :: text) = .options [(long T f text).1] (long T f text).2 := by
  obtain ⟨c, cs, rfl⟩ := List.exists_cons_of_ne_nil h
  rfl

theorem element_append {c : Char} {takes : Bool} {rest : List Char} (hf : Flags T cs)
    (hc : letter c T.optstring = some takes) : element T f ('-' :: (cs ++ c :: rest)) =
      .options ((flags cs).map Given.ret ++ (letters T f (c :: rest)).1)
        (letters T f (c :: rest)).2 := by
  have hrest := letters_append (f := f) hf (c :: rest)
  cases cs with
  | nil =>
    have h : element T f ('-' :: c :: rest) = _ := element_letters (ne_dash hc)
    simpa [flags] using h
  | cons d cs =>
    obtain ⟨hd, -⟩ := List.forall_mem_cons.mp hf
    rw [List.cons_append, element_letters (ne_dash hd), ← List.cons_append, hrest]
    rfl

theorem split_name {name rest : List Char} (h : '=' ∉ name)
    (hrest : rest = [] ∨ ∃ optarg, rest = '=' :: optarg) :
    (name ++ rest).takeWhile (· ≠ '=') = name ∧ (name ++ rest).dropWhile (· ≠ '=') = rest := by
  have hall : ∀ c ∈ name, decide (c ≠ '=') = true := by
    intro c hc
    exact decide_eq_true fun heq => h (heq ▸ hc)
  rw [List.takeWhile_append_of_pos hall, List.dropWhile_append_of_pos hall]
  obtain rfl | ⟨optarg, rfl⟩ := hrest <;> simp

theorem long_name {name : List Char} {o : LongOption} (heq : '=' ∉ name)
    (ho : T.find name = some o) (ha : o.has_arg = false) :
    long T f name = (.option o.val none, false) := by
  obtain ⟨ht, hd⟩ := split_name heq (.inl rfl)
  rw [List.append_nil] at ht hd
  simp only [long, ht, hd, ho]
  cases f <;> simp [ha]

theorem long_joined {name optarg : List Char} {o : LongOption} (heq : '=' ∉ name)
    (ho : T.find name = some o) (ha : o.has_arg = true) :
    long T f (name ++ '=' :: optarg) = (.option o.val (some optarg), false) := by
  obtain ⟨ht, hd⟩ := split_name heq (.inr ⟨optarg, rfl⟩)
  simp only [long, ht, hd, ho, ha, if_true]

theorem long_apart {name optarg : List Char} {o : LongOption} (heq : '=' ∉ name)
    (ho : T.find name = some o) (ha : o.has_arg = true) :
    long T (some optarg) name = (.option o.val (some optarg), true) := by
  obtain ⟨ht, hd⟩ := split_name heq (.inl rfl)
  rw [List.append_nil] at ht hd
  simp only [long, ht, hd, ho, ha, if_true]

theorem read_of_written {ws : List (List Char)} (h : Written T ws gs) :
    ∃ arg, (ws = [arg] ∧ ∀ f, element T f arg = .options (gs.map Given.ret) false) ∨
      ∃ optarg, ws = [arg, optarg] ∧
        element T (some optarg) arg = .options (gs.map Given.ret) true := by
  cases h with
  | @letters cs hne hf =>
    refine ⟨_, .inl ⟨rfl, fun f => ?_⟩⟩
    obtain ⟨c, cs, rfl⟩ := List.exists_cons_of_ne_nil hne
    obtain ⟨hc, -⟩ := List.forall_mem_cons.mp hf
    rw [element_letters (ne_dash hc), letters_flags hf]
  | @joined cs c optarg hf hc hne =>
    refine ⟨_, .inl ⟨rfl, fun f => ?_⟩⟩
    obtain ⟨d, ds, rfl⟩ := List.exists_cons_of_ne_nil hne
    rw [element_append hf hc, List.map_append]
    simp [letters, hc, Given.ret]
  | @apart cs c optarg hf hc =>
    refine ⟨_, .inr ⟨_, rfl, ?_⟩⟩
    rw [element_append hf hc, List.map_append]
    simp [letters, hc, Given.ret]
  | name hne heq ho ha =>
    refine ⟨_, .inl ⟨rfl, fun f => ?_⟩⟩
    rw [element_long hne, long_name heq ho ha]
    rfl
  | nameJoined heq ho ha =>
    refine ⟨_, .inl ⟨rfl, fun f => ?_⟩⟩
    rw [element_long (by simp), long_joined heq ho ha]
    rfl
  | nameApart hne heq ho ha =>
    refine ⟨_, .inr ⟨_, rfl, ?_⟩⟩
    rw [element_long hne, long_apart heq ho ha]
    rfl

theorem split_text (text : List Char) : ∃ name rest, '=' ∉ name ∧ text = name ++ rest ∧
    text.takeWhile (· ≠ '=') = name ∧ text.dropWhile (· ≠ '=') = rest ∧
      (rest = [] ∨ ∃ optarg, rest = '=' :: optarg) := by
  refine ⟨_, _, ?_, (List.takeWhile_append_dropWhile (p := (· ≠ '='))).symm, rfl, rfl, ?_⟩
  · intro h
    simpa using List.mem_takeWhile_imp h
  · cases h : text.dropWhile (· ≠ '=') with
    | nil => exact .inl rfl
    | cons c rest =>
      have hc := List.head?_dropWhile_not (· ≠ '=') text
      rw [h] at hc
      exact .inr ⟨rest, by simpa using hc⟩

theorem written_of_long {text : List Char} (ht : text ≠ [])
    (h : ([(long T f text).1], (long T f text).2) = (gs.map Given.ret, took)) :
    took = false ∧ Written T ['-' :: '-' :: text] gs ∨
      ∃ optarg, f = some optarg ∧ took = true ∧ Written T ['-' :: '-' :: text, optarg] gs := by
  obtain ⟨name, rest, heq, rfl, htake, hdrop, hrest⟩ := split_text text
  simp only [long, htake, hdrop] at h
  cases ho : T.find name with
  | none =>
    simp only [ho, Prod.mk.injEq] at h
    exact absurd h.1.symm (ret_ne_unknown gs)
  | some o =>
    obtain rfl | ⟨optarg, rfl⟩ := hrest
    · rw [List.append_nil] at ht ⊢
      cases ha : o.has_arg with
      | false =>
        have hl : (gs.map Given.ret, took) = ([Ret.option o.val none], false) := by
          cases f <;> simpa [ho, ha] using h.symm
        obtain ⟨hgs, rfl⟩ := Prod.mk.inj hl
        obtain rfl : gs = [(o.val, none)] := map_ret_injective hgs
        exact .inl ⟨rfl, .name ht heq ho ha⟩
      | true =>
        cases f with
        | none =>
          simp only [ho, ha, if_true, Prod.mk.injEq] at h
          exact absurd h.1.symm (ret_ne_unknown gs)
        | some optarg =>
          simp only [ho, ha, if_true, Prod.mk.injEq] at h
          obtain ⟨hgs, rfl⟩ := h
          obtain rfl : gs = [(o.val, some optarg)] := map_ret_injective hgs.symm
          exact .inr ⟨optarg, rfl, rfl, .nameApart ht heq ho ha⟩
    · cases ha : o.has_arg with
      | false =>
        simp only [ho, ha, Bool.false_eq_true, if_false, Prod.mk.injEq] at h
        exact absurd h.1.symm (ret_ne_unknown gs)
      | true =>
        simp only [ho, ha, if_true, Prod.mk.injEq] at h
        obtain ⟨hgs, rfl⟩ := h
        obtain rfl : gs = [(o.val, some optarg)] := map_ret_injective hgs.symm
        exact .inl ⟨rfl, .nameJoined heq ho ha⟩

theorem arg_cases (arg : List Char) : Operand arg ∨ arg = ['-', '-'] ∨
    (∃ text, text ≠ [] ∧ arg = '-' :: '-' :: text) ∨ ∃ c cs, c ≠ '-' ∧ arg = '-' :: c :: cs := by
  by_cases hop : Operand arg
  · exact .inl hop
  · obtain ⟨hd, hne⟩ := not_or.mp hop
    obtain ⟨tail, rfl⟩ := List.head?_eq_some_iff.mp (not_not.mp hd)
    cases tail with
    | nil => exact absurd rfl hne
    | cons c cs =>
      by_cases hc : c = '-'
      · subst hc
        cases cs with
        | nil => exact .inr (.inl rfl)
        | cons c cs => exact .inr (.inr (.inl ⟨_, List.cons_ne_nil c cs, rfl⟩))
      · exact .inr (.inr (.inr ⟨c, cs, hc, rfl⟩))

theorem element_operand (h : Operand arg) : element T f arg = .operand := by
  obtain h | rfl := h
  · cases arg with
    | nil => rfl
    | cons c cs =>
      have hc : c ≠ '-' := by simpa using h
      simp [element, hc]
  · rfl

theorem written_of_letters (hne : cs ≠ []) (h : letters T f cs = (gs.map Given.ret, took)) :
    took = false ∧ Written T ['-' :: cs] gs ∨
      ∃ optarg, f = some optarg ∧ took = true ∧ Written T ['-' :: cs, optarg] gs := by
  obtain ⟨hf, rfl, rfl⟩ | ⟨ds, c, rest, rfl, hf, hc, hend⟩ := letters_cases h
  · exact .inl ⟨rfl, .letters hne hf⟩
  · obtain ⟨hrest, rfl, rfl⟩ | ⟨optarg, rfl, rfl, rfl, rfl⟩ := hend
    · exact .inl ⟨rfl, .joined hf hc hrest⟩
    · exact .inr ⟨optarg, rfl, rfl, .apart hf hc⟩

theorem written_of_element (h : element T f arg = .options (gs.map Given.ret) took) :
    took = false ∧ Written T [arg] gs ∨
      ∃ optarg, f = some optarg ∧ took = true ∧ Written T [arg, optarg] gs := by
  obtain hop | rfl | ⟨text, hne, rfl⟩ | ⟨c, cs, hc, rfl⟩ := arg_cases arg
  · simp [element_operand hop] at h
  · simp [element] at h
  · rw [element_long hne, Element.options.injEq] at h
    exact written_of_long hne (Prod.ext h.1 h.2)
  · rw [element_letters hc, Element.options.injEq] at h
    exact written_of_letters (List.cons_ne_nil c cs) (Prod.ext h.1 h.2)

theorem element_last (h : element T f arg = .last) : arg = ['-', '-'] := by
  obtain hop | rfl | ⟨text, hne, rfl⟩ | ⟨c, cs, hc, rfl⟩ := arg_cases arg
  · simp [element_operand hop] at h
  · rfl
  · simp [element_long hne] at h
  · simp [element_letters hc] at h

theorem operand_of_element (h : element T f arg = .operand) : Operand arg := by
  obtain hop | rfl | ⟨text, hne, rfl⟩ | ⟨c, cs, hc, rfl⟩ := arg_cases arg
  · exact hop
  · simp [element] at h
  · simp [element_long hne] at h
  · simp [element_letters hc] at h

theorem split_rets {rets : List Ret} {r : List Ret × List (List Char)} {os : List Given}
    {operands : List (List Char)}
    (h : r.map (rets ++ ·) id = (os.map Given.ret, operands)) : ∃ gs os', os = gs ++ os' ∧
      rets = gs.map Given.ret ∧ r = (os'.map Given.ret, operands) := by
  obtain ⟨hrets, hoperands⟩ := Prod.mk.inj h
  obtain ⟨gs, os', rfl, hgs, hos⟩ := List.map_eq_append_iff.mp hrets.symm
  exact ⟨gs, os', rfl, hgs.symm, Prod.ext hos.symm hoperands⟩

/-- The calls understand every option exactly where a command line is written with options
and operands, and then they return these. -/
theorem getopt_long_iff {argv operands : List (List Char)} {os : List Given} :
    getopt_long T argv = (os.map Given.ret, operands) ↔ CommandLine T argv os operands := by
  constructor
  · intro h
    induction argv using getopt_long.induct T generalizing os operands with
    | case1 =>
      obtain ⟨hos, rfl⟩ := Prod.mk.inj h
      obtain rfl := List.map_eq_nil_iff.mp hos.symm
      exact .nil
    | case2 arg argv he ih =>
      simp only [getopt_long, he] at h
      obtain ⟨hos, rfl⟩ := Prod.mk.inj h
      exact .operand (operand_of_element he) (ih (Prod.ext hos rfl))
    | case3 arg argv he =>
      simp only [getopt_long, he] at h
      obtain ⟨hos, rfl⟩ := Prod.mk.inj h
      obtain rfl := List.map_eq_nil_iff.mp hos.symm
      obtain rfl := element_last he
      exact .last _
    | case4 arg argv rets he ih =>
      simp only [getopt_long, he] at h
      obtain ⟨gs, os, rfl, rfl, hos⟩ := split_rets h
      obtain ⟨-, hw⟩ | ⟨_, _, htook, _⟩ := written_of_element he
      · exact .options hw (ih hos)
      · exact Bool.noConfusion htook
    | case5 arg rets he =>
      simp only [getopt_long, he] at h
      obtain ⟨rfl, -⟩ := Prod.mk.inj h
      obtain ⟨htook, -⟩ | ⟨_, hf, -⟩ := written_of_element he
      · exact Bool.noConfusion htook
      · simp at hf
    | case6 arg rets optarg argv he ih =>
      simp only [getopt_long, he] at h
      obtain ⟨gs, os, rfl, rfl, hos⟩ := split_rets h
      obtain ⟨htook, -⟩ | ⟨_, hf, -, hw⟩ := written_of_element he
      · exact Bool.noConfusion htook
      · obtain rfl := Option.some.inj hf
        exact .options hw (ih hos)
  · intro h
    induction h with
    | nil => rfl
    | last operands => rfl
    | operand ha _ ih => simp only [getopt_long, element_operand ha, ih, Prod.map, id]
    | @options ws gs argv os operands hw _ ih =>
      obtain ⟨arg, ⟨rfl, he⟩ | ⟨optarg, rfl, he⟩⟩ := read_of_written hw
      · simp [getopt_long, he, ih]
      · simp [getopt_long, he, ih]

theorem exists_given {rets : List Ret} (h : .unknown ∉ rets) :
    ∃ os : List Given, rets = os.map Given.ret := by
  induction rets with
  | nil => exact ⟨[], rfl⟩
  | cons ret rets ih =>
    obtain ⟨hret, hrets⟩ := not_or.mp (fun hm => h (List.mem_cons.mpr hm))
    obtain ⟨os, rfl⟩ := ih hrets
    cases ret with
    | option val optarg => exact ⟨(val, optarg) :: os, rfl⟩
    | unknown => exact absurd rfl hret

theorem mem_of_letter {c : Char} {optstring : List Char} {takes : Bool}
    (h : letter c optstring = some takes) : c ∈ optstring := by
  induction optstring with
  | nil => simp [letter] at h
  | cons x optstring ih =>
    by_cases hc : c = x
    · simp [hc]
    · simp only [letter, if_neg hc] at h
      exact List.mem_cons_of_mem _ (ih h)

theorem mem_of_find {name : List Char} {o : LongOption} (h : T.find name = some o) :
    o ∈ T.longopts := by
  rw [Table.find] at h
  split at h
  next p hp =>
    obtain rfl := Option.some.inj h
    exact List.mem_of_find?_eq_some hp
  next =>
    split at h
    next => simp at h
    next p ps hp =>
      obtain ⟨-, rfl⟩ := Option.ite_none_right_eq_some.mp h |>.imp_right Option.some.inj
      exact List.mem_of_mem_filter (hp ▸ List.mem_cons_self)

def Known (T : Table) (g : Given) : Prop := letter g.1 T.optstring = some g.2.isSome

def writeOption (g : Given) : List (List Char) := ['-', g.1] :: g.2.toList

def write (os : List Given) (operands : List (List Char)) : List (List Char) :=
  os.flatMap writeOption ++ ['-', '-'] :: operands

theorem written_writeOption {g : Given} (h : Known T g) : Written T (writeOption g) [g] := by
  obtain ⟨c, _ | optarg⟩ := g
  · have hc : letter c T.optstring = some false := h
    have hf : Flags T [c] := by simpa [Flags] using hc
    exact .letters (List.cons_ne_nil c []) hf
  · have hc : letter c T.optstring = some true := h
    have hf : Flags T [] := by simp [Flags]
    exact .apart hf hc

theorem commandLine_write {os : List Given} (h : ∀ g ∈ os, Known T g)
    (operands : List (List Char)) : CommandLine T (write os operands) os operands := by
  induction os with
  | nil => exact .last operands
  | cons g os ih =>
    obtain ⟨hg, hos⟩ := List.forall_mem_cons.mp h
    have hline := CommandLine.options (written_writeOption hg) (ih hos)
    simpa [write] using hline

end PingPong.Getopt
