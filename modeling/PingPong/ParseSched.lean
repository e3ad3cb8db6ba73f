import PingPong.CMemory
import PingPong.CString
import PingPong.MonitorState

namespace PingPong.ParseSched

open CMemory CString
open MonitorState (ThreadMode Timeval)

structure Config where
  thread_mode : ThreadMode
  stats_summary : Bool
  set_affinity : Bool
  cpu : Int × Int
  comm_mode_index : Nat
  sched_policy : Int
  sched_prio : Int
  stats_interval : Timeval
  runtime : Nat
  cpu_dma_latency : Int
deriving DecidableEq, Repr

def SCHED_FIFO : Int := 1

def SCHED_RR : Int := 2

def DEFAULT_STATS_INTERVAL : Timeval := ⟨1, 0⟩

/-- What is not set there is zero. -/
def setup_defaults : Config where
  thread_mode := .thread
  stats_summary := false
  set_affinity := false
  cpu := (-1, -1)
  comm_mode_index := 0
  sched_policy := SCHED_FIFO
  sched_prio := 1
  stats_interval := DEFAULT_STATS_INTERVAL
  runtime := 10
  cpu_dma_latency := -1

def toInt (n : Int) : Int := n.bmod (2 ^ 32)

/-- `parse_sched`, or none where it compares through a null token. -/
def parse_sched (arg : List Char) (c : Config) : Option Config :=
  let arg_copy := arg ++ [nul]
  let (tok, saveptr, arg_copy) := strtok_r arg_copy 0 [':']
  tok.map fun tok =>
    let tok := string arg_copy tok
    let prio := toInt (strtol (string arg_copy saveptr)).1
    if strcmp tok "fifo".toList = 0 then { c with sched_policy := SCHED_FIFO, sched_prio := prio }
    else if strcmp tok "rr".toList = 0 then { c with sched_policy := SCHED_RR, sched_prio := prio }
    else c

example : (parse_sched "rr:7".toList setup_defaults).map (fun c => (c.sched_policy, c.sched_prio)) =
    some (SCHED_RR, 7) := by decide +kernel

variable {c : Config} {arg : List Char}

def body (arg : List Char) : List Char := arg.dropWhile (· ∈ [':'])

def policy (arg : List Char) : List Char := (body arg).takeWhile fun c => c ≠ nul ∧ c ∉ [':']

def priority (arg : List Char) : List Char :=
  ((body arg).dropWhile fun c => c ≠ nul ∧ c ∉ [':']).tail

def scheduled (c : Config) (tok prio : List Char) : Config :=
  if tok = "fifo".toList then
    { c with sched_policy := SCHED_FIFO, sched_prio := toInt (strtol prio).1 }
  else if tok = "rr".toList then
    { c with sched_policy := SCHED_RR, sched_prio := toInt (strtol prio).1 }
  else c

theorem parse_sched_eq (hn : nul ∉ arg) (c : Config) : parse_sched arg c =
    if body arg = [] then none else some (scheduled c (policy arg) (priority arg)) := by
  have hd : nul ∉ [':'] := by decide
  have hspec := strtok_r_string (m := arg ++ [nul]) (p := 0) hd rfl hn
  rw [parse_sched]
  generalize strtok_r (arg ++ [nul]) 0 [':'] = r at hspec
  obtain ⟨tok, saveptr, arg_copy⟩ := r
  obtain ⟨hnone, hsome⟩ := hspec
  split_ifs with h
  · obtain rfl : tok = none := hnone h
    rfl
  · obtain ⟨tok, rfl, hpolicy, hprio⟩ := hsome h
    have hp : string arg_copy tok = policy arg := hpolicy
    have hq : string arg_copy saveptr = priority arg := hprio
    simp only [Option.map_some, hp, hq, strcmp_eq_zero]
    rfl

def policies : List (List Char × Int) := [("fifo".toList, SCHED_FIFO), ("rr".toList, SCHED_RR)]

/-- `POLICY:PRIORITY` as `usage` has it. -/
structure Documented (arg name : List Char) (sched_policy : Int) (x : Numeral) : Prop where
  mem : (name, sched_policy) ∈ policies
  eq : arg = name ++ ':' :: x.text
  one_le : 1 ≤ x.value
  le_max : x.value ≤ 99

structure Meets (arg : List Char) : Prop where
  documented : ∀ name sched_policy x, Documented arg name sched_policy x → ∀ c,
    parse_sched arg c = some { c with sched_policy := sched_policy, sched_prio := x.value }
  other : (∀ name sched_policy x, ¬ Documented arg name sched_policy x) → ∀ c,
    parse_sched arg c = some c

/-- There is something besides colons, and if the first of it is a policy, then the
argument is as documented. -/
def Shaped (arg : List Char) : Prop := (∃ ch ∈ arg, ch ≠ ':') ∧
  (policy arg ∈ policies.map (·.1) → ∃ name sched_policy x, Documented arg name sched_policy x)

theorem body_eq_nil_iff : body arg = [] ↔ ∀ ch ∈ arg, ch = ':' := by
  simp [body, List.dropWhile_eq_nil_iff]

theorem body_append {name p : List Char} (hne : name ≠ []) (hc : ':' ∉ name) (hn : nul ∉ name) :
    body (name ++ ':' :: p) = name ++ ':' :: p ∧ policy (name ++ ':' :: p) = name ∧
      priority (name ++ ':' :: p) = p := by
  have hall : ∀ ch ∈ name, decide (ch ≠ nul ∧ ch ∉ [':']) = true := by
    intro ch hch
    rw [decide_eq_true_iff, List.mem_singleton]
    exact ⟨fun h => hn (h ▸ hch), fun h => hc (h ▸ hch)⟩
  have hbody : body (name ++ ':' :: p) = name ++ ':' :: p := by
    obtain ⟨ch, name, rfl⟩ := List.exists_cons_of_ne_nil hne
    have hch : ch ∉ [':'] := (of_decide_eq_true (hall ch (by simp))).2
    simpa [body] using hch
  refine ⟨hbody, ?_, ?_⟩
  · rw [policy, hbody, List.takeWhile_append_of_pos hall]
    simp
  · rw [priority, hbody, List.dropWhile_append_of_pos hall]
    simp

theorem not_mem_policies {name : List Char} {sched_policy : Int}
    (h : (name, sched_policy) ∈ policies) : name ≠ [] ∧ ':' ∉ name ∧ nul ∉ name := by
  have hall : ∀ q ∈ policies, q.1 ≠ [] ∧ ':' ∉ q.1 ∧ nul ∉ q.1 := by decide
  exact hall _ h

theorem toInt_eq {n : Int} (h1 : 1 ≤ n) (h2 : n ≤ 99) :
    toInt (max LONG_MIN (min LONG_MAX n)) = n := by
  have hclamp : max LONG_MIN (min LONG_MAX n) = n := by
    unfold LONG_MIN LONG_MAX
    omega
  rw [hclamp, toInt, Int.bmod_def]
  omega

theorem scheduled_eq {name : List Char} {sched_policy : Int}
    (h : (name, sched_policy) ∈ policies) (prio : List Char) (c : Config) :
    scheduled c name prio =
      { c with sched_policy := sched_policy, sched_prio := toInt (strtol prio).1 } := by
  simp only [policies, List.mem_cons, Prod.mk.injEq, List.not_mem_nil, or_false] at h
  obtain ⟨rfl, rfl⟩ | ⟨rfl, rfl⟩ := h <;> rfl

theorem parse_documented (hn : nul ∉ arg) {name : List Char} {sched_policy : Int} {x : Numeral}
    (h : Documented arg name sched_policy x) (c : Config) :
    parse_sched arg c = some { c with sched_policy := sched_policy, sched_prio := x.value } := by
  obtain ⟨hne, hc, hnul⟩ := not_mem_policies h.mem
  obtain ⟨hbody, hpolicy, hprio⟩ := body_append (p := x.text) hne hc hnul
  rw [parse_sched_eq hn, h.eq, hbody, hpolicy, hprio, if_neg (by simp), scheduled_eq h.mem,
    strtol_text, toInt_eq h.one_le h.le_max]

theorem scheduled_of_not_mem {tok : List Char} (h : tok ∉ policies.map (·.1)) (prio : List Char)
    (c : Config) : scheduled c tok prio = c := by
  simp only [policies, List.map_cons, List.map_nil, List.mem_cons, List.not_mem_nil, or_false,
    not_or] at h
  rw [scheduled, if_neg h.1, if_neg h.2]

theorem body_ne_nil (hn : nul ∉ arg) (h : parse_sched arg c = some c) : body arg ≠ [] := by
  intro hnil
  rw [parse_sched_eq hn, if_pos hnil] at h
  exact Option.some_ne_none c h.symm

theorem policy_not_mem (hn : nul ∉ arg) (h : ∀ c, parse_sched arg c = some c) :
    policy arg ∉ policies.map (·.1) := by
  intro hp
  obtain ⟨⟨name, sched_policy⟩, hmem, hname⟩ := List.mem_map.mp hp
  have hne : sched_policy ≠ 0 := by
    have hall : ∀ q ∈ policies, q.2 ≠ 0 := by decide
    exact hall _ hmem
  have hset := h { setup_defaults with sched_policy := 0 }
  rw [parse_sched_eq hn, if_neg (body_ne_nil hn (h setup_defaults)), ← hname,
    scheduled_eq hmem] at hset
  exact hne (congrArg Config.sched_policy (Option.some.inj hset))

/-- `parse_sched` does what it is to do exactly with the arguments of the right shape. -/
theorem sched_argument (hn : nul ∉ arg) : Meets arg ↔ Shaped arg := by
  constructor
  · intro h
    by_cases hdoc : ∃ name sched_policy x, Documented arg name sched_policy x
    · refine ⟨?_, fun _ => hdoc⟩
      obtain ⟨name, sched_policy, x, hd⟩ := hdoc
      obtain ⟨hne, hc, -⟩ := not_mem_policies hd.mem
      obtain ⟨ch, name, rfl⟩ := List.exists_cons_of_ne_nil hne
      exact ⟨ch, by simp [hd.eq], fun heq => hc (by simp [heq])⟩
    · have hother := h.other fun name sched_policy x hd => hdoc ⟨name, sched_policy, x, hd⟩
      have hbody : body arg ≠ [] := body_ne_nil hn (hother setup_defaults)
      refine ⟨?_, fun hp => absurd hp (policy_not_mem hn hother)⟩
      by_contra! hall
      exact hbody (body_eq_nil_iff.mpr hall)
  · rintro ⟨⟨ch, hmem, hch⟩, hpolicy⟩
    refine ⟨fun name sched_policy x hd c => parse_documented hn hd c, fun hno c => ?_⟩
    have hbody : body arg ≠ [] := fun hnil => hch (body_eq_nil_iff.mp hnil ch hmem)
    rw [parse_sched_eq hn, if_neg hbody, scheduled_of_not_mem]
    intro hp
    obtain ⟨name, sched_policy, x, hd⟩ := hpolicy hp
    exact hno name sched_policy x hd

theorem sched_argument_rr : Meets "rr:7".toList ↔ Shaped "rr:7".toList :=
  sched_argument (by decide)

/-- A colon alone has no token, `fifo` alone sets the priority to zero, and what follows
the number is passed over. -/
theorem sched_argument_half :
    parse_sched ":".toList setup_defaults = none ∧
    (parse_sched "fifo".toList setup_defaults).map (·.sched_prio) = some 0 ∧
    (parse_sched "rr:5x".toList setup_defaults).map (·.sched_prio) = some 5 ∧
    ¬ ∀ arg, nul ∉ arg → Meets arg := by
  refine ⟨by decide +kernel, by decide +kernel, by decide +kernel, fun h => ?_⟩
  obtain ⟨⟨ch, hmem, hch⟩, -⟩ := (sched_argument (by decide)).mp (h ":".toList (by decide))
  exact hch (by simpa using hmem)

end PingPong.ParseSched
