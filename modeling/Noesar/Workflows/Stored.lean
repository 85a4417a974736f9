import Noesar.Lib.Run
import Noesar.Workflows.Definition

namespace Noesar.Workflows

open Lib Lib.Run JsonValue

/-- A call of one of the two entry points. The ledger or the file may refuse what it would store. -/
inductive Call
  | createWorkflow (id : String) (input : JsonValue) (failure : Option Thrown)
  | updateWorkflow (workflowId : String) (patch : JsonValue) (failure : Option Thrown)

def recorded : Option Thrown → Except Thrown Unit
  | none => .ok ()
  | some e => .error e

structure Compensation.WellFormed (c : Compensation) : Prop where
  type : c.type ∈ typeNames
  operation : c.type = "transform" → ∃ op ∈ transformOps, c.operation = some op
  timeout : 10 ≤ c.timeoutMs ∧ c.timeoutMs ≤ 600000

structure Step.WellFormed (s : Step) : Prop where
  key : keyPattern s.key = true
  type : s.type ∈ typeNames
  operation : s.type = "transform" → ∃ op ∈ transformOps, s.operation = some op
  attempts : 1 ≤ s.maxAttempts ∧ s.maxAttempts ≤ 5
  timeout : 10 ≤ s.timeoutMs ∧ s.timeoutMs ≤ 600000
  compensation : ∀ c, s.compensation = some c → c.WellFormed

structure Workflow.WellFormed (w : Workflow) : Prop where
  count : 1 ≤ w.steps.length ∧ w.steps.length ≤ 50
  keys : (w.steps.map (·.key)).Nodup
  steps : ∀ s ∈ w.steps, s.WellFormed

section

variable (ns : Numerals)

def perform (workflows : List Workflow) : Call → Except Thrown (List Workflow)
  | .createWorkflow id input failure => do
    let workflow ← createWorkflow ns id input
    recorded failure
    return workflows ++ [workflow]
  | .updateWorkflow workflowId patch failure => do
    let workflows ← updateWorkflow ns workflows workflowId patch
    recorded failure
    return workflows

def step (workflows : List Workflow) (call : Call) : List Workflow :=
  match perform ns workflows call with
  | .ok workflows => workflows
  | .error _ => workflows

def Accepted (workflows : List Workflow) (call : Call) : Prop := ∃ workflows', perform ns workflows call = .ok workflows'

/-- Neither the type nor the operation that is asked for is a name that is only inherited. -/
def Listed (asked : JsonValue) : Prop :=
  ∀ name ∈ inherited, textOr ns (member "type" asked) "transform" ≠ .ok name ∧
    (textOr ns (member "type" asked) "transform" = .ok "transform" →
      textOr ns (member "operation" asked) "identity" ≠ .ok name)

structure Declared (input : JsonValue) : Prop where
  step : Listed ns input
  compensation : ∀ c, member "compensation" input = some c → truthy c = true → Listed ns c

def Replaces (workflows : List Workflow) (call : Call) (place : ℕ) : Prop :=
  match call with
  | .createWorkflow _ _ _ => False
  | .updateWorkflow workflowId patch _ => (member "steps" patch).isSome ∧
      workflows.findIdx? (·.id = workflowId) = some place ∧ Accepted ns workflows call

end

def Call.steps : Call → List JsonValue
  | .createWorkflow _ input _ => arrayOr (member "steps" input)
  | .updateWorkflow _ patch _ => arrayOr (member "steps" patch)

def Call.Declared (ns : Numerals) (call : Call) : Prop :=
  call.steps.length ≤ 50 ∧ ∀ input ∈ call.steps, Workflows.Declared ns input

/-- A workflow stays where it stands, under its id, and its version goes up by one where its steps are
replaced, and nowhere else. -/
def Versioned (ns : Numerals) (workflows : List Workflow) (call : Call) : Prop :=
  ∀ i w, workflows[i]? = some w → ∃ w', (step ns workflows call)[i]? = some w' ∧ w'.id = w.id ∧
    (Replaces ns workflows call i → w'.version = w.version + 1 ∧ normalizeSteps ns call.steps = .ok w'.steps) ∧
    (¬Replaces ns workflows call i → w'.version = w.version ∧ w'.steps = w.steps)

variable {ns : Numerals}

theorem clampInt_bounds {value : Option JsonValue} {fallback lo hi n : ℤ} (h : clampInt ns value fallback lo hi = .ok n)
    (hlo : lo ≤ fallback) (hhi : fallback ≤ hi) : lo ≤ n ∧ n ≤ hi := by
  rw [clampInt, map_ok] at h
  obtain ⟨parsed, -, rfl⟩ := h
  cases parsed with
  | finite =>
    dsimp only
    omega
  | infinity | negInfinity | nan => exact ⟨hlo, hhi⟩

theorem inherited_apart {name : String} (h : name ∈ inherited) : name ∉ typeNames ∧ name ∉ transformOps := by
  have hall : ∀ name ∈ inherited, name ∉ typeNames ∧ name ∉ transformOps := by decide
  exact hall name h

theorem isIn_iff {key : String} {own : List String} : isIn key own = true ↔ key ∈ own ∨ key ∈ inherited := by
  simp [isIn]

theorem listed_iff {asked : JsonValue} {type : String} {operation : Option String}
    (htype : textOr ns (member "type" asked) "transform" = .ok type) (hknown : isIn type typeNames = true)
    (hoperation : operationOf ns type (member "operation" asked) = .ok operation)
    (hop : operation.all (isIn · transformOps) = true) :
    (type ∈ typeNames ∧ (type = "transform" → ∃ op ∈ transformOps, operation = some op)) ↔ Listed ns asked := by
  constructor
  · rintro ⟨hmem, hops⟩ name hname
    rw [htype]
    constructor
    · rintro ⟨⟩
      exact (inherited_apart hname).1 hmem
    · rintro ⟨⟩ hasked
      obtain ⟨op, hmem, rfl⟩ := hops rfl
      rw [operationOf, if_pos rfl, hasked] at hoperation
      cases hoperation
      exact (inherited_apart hname).2 hmem
  · intro h
    refine ⟨(isIn_iff.mp hknown).resolve_right fun hin ↦ (h type hin).1 htype, ?_⟩
    rintro rfl
    rw [operationOf, if_pos rfl, map_ok] at hoperation
    obtain ⟨op, hasked, rfl⟩ := hoperation
    refine ⟨op, ?_, rfl⟩
    exact (isIn_iff.mp hop).resolve_right fun hin ↦ (h op hin).2 htype hasked

theorem normalizeCompensation_ok {asked : JsonValue} {c : Compensation} (h : normalizeCompensation ns asked = .ok c) :
    c.WellFormed ↔ Listed ns asked := by
  simp only [normalizeCompensation, bind_ok, require_ok, exists_unit] at h
  obtain ⟨type, htype, hknown, operation, hoperation, hop, timeoutMs, htimeout, description, -, ⟨⟩⟩ := h
  rw [← listed_iff htype hknown hoperation hop]
  constructor
  · intro h
    exact ⟨h.type, h.operation⟩
  · intro h
    exact ⟨h.1, h.2, clampInt_bounds htimeout (by omega) (by omega)⟩

theorem compensationOf_ok {value : Option JsonValue} {compensation : Option Compensation}
    (h : compensationOf ns value = .ok compensation) :
    (∀ c, compensation = some c → c.WellFormed) ↔ ∀ asked, value = some asked → truthy asked = true → Listed ns asked := by
  cases value with
  | none =>
    cases h
    simp
  | some asked =>
    rw [compensationOf] at h
    cases ht : truthy asked with
    | false =>
      rw [if_neg (by simp [ht])] at h
      cases h
      simp [ht]
    | true =>
      rw [if_pos ht, map_ok] at h
      obtain ⟨c, hc, rfl⟩ := h
      simp [ht, normalizeCompensation_ok hc]

/-- What every step that passed has, whatever names it asked for. -/
structure Step.Normal (s : Step) : Prop where
  key : keyPattern s.key = true
  attempts : 1 ≤ s.maxAttempts ∧ s.maxAttempts ≤ 5
  timeout : 10 ≤ s.timeoutMs ∧ s.timeoutMs ≤ 600000

variable {input : JsonValue} {w : Workflow} {failure : Option Thrown} {patch : JsonValue}
  {workflows workflows' : List Workflow}

theorem normalizeStep_ok {index : ℕ} {s : Step} (h : normalizeStep ns input index = .ok s) :
    s.Normal ∧ (s.WellFormed ↔ Declared ns input) := by
  simp only [normalizeStep, bind_ok, require_ok, exists_unit] at h
  obtain ⟨-, type, htype, hknown, key, -, hkey, title, -, description, -, operation, hoperation, requiresApproval, -,
    maxAttempts, hattempts, backoffMs, -, timeoutMs, htimeout, durationMs, -, hop, -, compensation, hcompensation, ⟨⟩⟩ := h
  have hnormal : 1 ≤ maxAttempts ∧ maxAttempts ≤ 5 := clampInt_bounds hattempts (by omega) (by omega)
  have htime : 10 ≤ timeoutMs ∧ timeoutMs ≤ 600000 := clampInt_bounds htimeout (by omega) (by omega)
  have hnames := listed_iff htype hknown hoperation hop
  have hundo := compensationOf_ok hcompensation
  refine ⟨⟨hkey, hnormal, htime⟩, ?_⟩
  constructor
  · intro h
    exact ⟨hnames.mp ⟨h.type, h.operation⟩, hundo.mp h.compensation⟩
  · intro h
    obtain ⟨hmem, hops⟩ := hnames.mpr h.step
    exact ⟨hkey, hmem, hops, hnormal, htime, hundo.mpr h.compensation⟩

theorem duplicateKey_eq_none {keys : List String} (h : duplicateKey keys = none) : keys.Nodup := by
  rw [duplicateKey, Option.map_eq_none_iff, List.find?_eq_none] at h
  rw [List.nodup_iff_injective_getElem]
  intro i j hij
  have hfirst (k : Fin keys.length) : keys.idxOf keys[k] = k := by
    have hmem : (keys[k], k.val) ∈ keys.zipIdx := List.mk_mem_zipIdx_iff_getElem?.mpr (by simp)
    simpa using h _ hmem
  apply Fin.ext
  rw [← hfirst i, ← hfirst j]
  exact congrArg keys.idxOf hij

structure Sound (steps : List Step) : Prop where
  nonempty : 1 ≤ steps.length
  keys : (steps.map (·.key)).Nodup
  steps : ∀ s ∈ steps, s.Normal

theorem normalizeSteps_ok {rawSteps : List JsonValue} {steps : List Step} (h : normalizeSteps ns rawSteps = .ok steps)
    (hne : rawSteps.length ≠ 0) : Sound steps ∧ steps.length = rawSteps.length ∧
      ((∀ s ∈ steps, s.WellFormed) ↔ ∀ input ∈ rawSteps, Declared ns input) := by
  rw [normalizeSteps, bind_ok] at h
  obtain ⟨normalized, hmap, h⟩ := h
  cases hdup : duplicateKey (normalized.map (·.key)) with
  | some => simp [hdup] at h
  | none =>
    simp only [hdup, Except.ok.injEq] at h
    subst h
    have hpairs := mapM_ok_iff.mp hmap
    have hlength : normalized.length = rawSteps.length := by rw [← hpairs.length_eq, List.length_zipIdx]
    have hboth : List.Forall₂ (fun input s ↦ s.Normal ∧ (s.WellFormed ↔ Declared ns input)) rawSteps normalized := by
      have hfst : rawSteps = rawSteps.zipIdx.map Prod.fst := by simp
      rw [hfst, List.forall₂_map_left_iff]
      exact hpairs.imp fun entry s hs ↦ normalizeStep_ok hs
    refine ⟨⟨by omega, duplicateKey_eq_none hdup, ?_⟩, hlength, ?_⟩
    · intro s hs
      obtain ⟨i, hi, rfl⟩ := List.mem_iff_getElem.mp hs
      exact (hboth.get (by omega) hi).1
    · constructor
      · intro hall input hinput
        obtain ⟨i, hi, rfl⟩ := List.mem_iff_getElem.mp hinput
        have hi' : i < normalized.length := by omega
        exact (hboth.get hi hi').2.mp (hall _ (List.getElem_mem hi'))
      · intro hall s hs
        obtain ⟨i, hi, rfl⟩ := List.mem_iff_getElem.mp hs
        have hi' : i < rawSteps.length := by omega
        exact (hboth.get hi' hi).2.mpr (hall _ (List.getElem_mem hi'))

theorem Sound.wellFormed_iff (h : Sound w.steps) :
    w.WellFormed ↔ w.steps.length ≤ 50 ∧ ∀ s ∈ w.steps, s.WellFormed := by
  constructor
  · intro hw
    exact ⟨hw.count.2, hw.steps⟩
  · intro hw
    exact ⟨⟨h.nonempty, hw.1⟩, h.keys, hw.2⟩

theorem createWorkflow_ok {id : String} (h : createWorkflow ns id input = .ok w) :
    Sound w.steps ∧ (w.WellFormed ↔ (Call.createWorkflow id input failure).Declared ns) := by
  simp only [createWorkflow, bind_ok, require_ok, exists_unit] at h
  obtain ⟨-, name, -, -, hne, -, steps, hsteps, description, -, ⟨⟩⟩ := h
  obtain ⟨hsound, hlength, hdeclared⟩ := normalizeSteps_ok hsteps hne
  refine ⟨hsound, ?_⟩
  rw [hsound.wellFormed_iff, hlength, hdeclared]
  rfl

theorem patched_ok {w' : Workflow} {steps : Option (List Step)} (h : patched ns w steps patch = .ok w') :
    ∃ name description archived,
      w' = { w with name := name, description := description, archived := archived }.replaceSteps steps := by
  simp only [patched, bind_ok] at h
  obtain ⟨name, -, description, -, ⟨⟩⟩ := h
  exact ⟨name, description, _, rfl⟩

theorem updateWorkflow_ok {workflowId : String} (h : updateWorkflow ns workflows workflowId patch = .ok workflows') :
    ∃ steps place w w', patchSteps ns patch = .ok steps ∧ workflows.findIdx? (·.id = workflowId) = some place ∧
      workflows[place]? = some w ∧ patched ns w steps patch = .ok w' ∧ workflows' = workflows.set place w' := by
  simp only [updateWorkflow, bind_ok, require_ok, exists_unit, demand_ok] at h
  obtain ⟨-, steps, hsteps, place, hplace, w, hw, w', hw', ⟨⟩⟩ := h
  exact ⟨steps, place, w, w', hsteps, hplace, hw, hw', rfl⟩

theorem patchSteps_ok {steps : Option (List Step)} (h : patchSteps ns patch = .ok steps) :
    member "steps" patch = none ∧ steps = none ∨
      (member "steps" patch).isSome ∧ ∃ normalized, steps = some normalized ∧ (arrayOr (member "steps" patch)).length ≠ 0 ∧
        normalizeSteps ns (arrayOr (member "steps" patch)) = .ok normalized := by
  rw [patchSteps] at h
  cases hs : member "steps" patch with
  | none =>
    rw [hs] at h
    cases h
    exact .inl ⟨rfl, rfl⟩
  | some =>
    rw [hs] at h
    simp only [bind_ok, require_ok, exists_unit] at h
    obtain ⟨hne, normalized, hnormalized, ⟨⟩⟩ := h
    exact .inr ⟨rfl, normalized, rfl, hne, hnormalized⟩

theorem perform_create {id : String} (h : perform ns workflows (.createWorkflow id input failure) = .ok workflows') :
    ∃ w, createWorkflow ns id input = .ok w ∧ workflows' = workflows ++ [w] := by
  simp only [perform, bind_ok, exists_unit] at h
  obtain ⟨w, hw, -, ⟨⟩⟩ := h
  exact ⟨w, hw, rfl⟩

theorem perform_update {workflowId : String}
    (h : perform ns workflows (.updateWorkflow workflowId patch failure) = .ok workflows') :
    updateWorkflow ns workflows workflowId patch = .ok workflows' := by
  simp only [perform, bind_ok, exists_unit] at h
  obtain ⟨_, hw, -, ⟨⟩⟩ := h
  exact hw

theorem step_accepted {call : Call} (h : perform ns workflows call = .ok workflows') :
    step ns workflows call = workflows' := by
  rw [step, h]

theorem step_refused {call : Call} (h : ¬Accepted ns workflows call) :
    step ns workflows call = workflows := by
  rw [step]
  cases hp : perform ns workflows call with
  | ok workflows' => exact absurd ⟨workflows', hp⟩ h
  | error => rfl

theorem forall_mem_set {α : Type} {p : α → Prop} {xs : List α} {i : ℕ} {x y : α} (hx : xs[i]? = some x)
    (h : ∀ z ∈ xs, p z) : (∀ z ∈ xs.set i y, p z) ↔ p y := by
  have hi : i < xs.length := (List.getElem?_eq_some_iff.mp hx).1
  constructor
  · intro hset
    exact hset y (List.mem_set hi y)
  · intro hy z hz
    rcases List.mem_or_eq_of_mem_set hz with hz | rfl
    · exact h z hz
    · exact hy

theorem step_wellFormed (h : ∀ w ∈ workflows, w.WellFormed) (call : Call) :
    (∀ w ∈ step ns workflows call, w.WellFormed) ↔ (Accepted ns workflows call → call.Declared ns) := by
  by_cases hacc : Accepted ns workflows call
  · obtain ⟨workflows', hp⟩ := hacc
    have hiff : (∀ w ∈ workflows', w.WellFormed) ↔ call.Declared ns := by
      cases call with
      | createWorkflow =>
        obtain ⟨w, hw, rfl⟩ := perform_create hp
        rw [← (createWorkflow_ok hw).2]
        constructor
        · intro hall
          exact hall w (by simp)
        · intro hw w' hw'
          rcases List.mem_append.mp hw' with hold | hnew
          · exact h w' hold
          · exact List.mem_singleton.mp hnew ▸ hw
      | updateWorkflow =>
        obtain ⟨steps, place, w, w', hsteps, -, hw, hw', rfl⟩ := updateWorkflow_ok (perform_update hp)
        rw [forall_mem_set hw h]
        obtain ⟨name, description, archived, rfl⟩ := patched_ok hw'
        have hwell := h w (List.mem_of_getElem? hw)
        rcases patchSteps_ok hsteps with ⟨hnone, rfl⟩ | ⟨-, normalized, rfl, hne, hnormalized⟩
        · simp only [Call.Declared, Call.steps, hnone, arrayOr, List.length_nil, List.not_mem_nil, false_implies,
            implies_true, and_true, Nat.zero_le, iff_true]
          exact ⟨hwell.count, hwell.keys, hwell.steps⟩
        · obtain ⟨hsound, hlength, hdeclared⟩ := normalizeSteps_ok hnormalized hne
          rw [Sound.wellFormed_iff hsound]
          simp only [Workflow.replaceSteps]
          rw [hlength, hdeclared]
          rfl
    rw [step_accepted hp, hiff]
    constructor
    · intro hd _
      exact hd
    · intro hd
      exact hd ⟨workflows', hp⟩
  · rw [step_refused hacc]
    exact ⟨fun _ hd ↦ absurd hd hacc, fun _ ↦ h⟩

theorem step_sound (h : ∀ w ∈ workflows, Sound w.steps) (call : Call) :
    ∀ w ∈ step ns workflows call, Sound w.steps := by
  by_cases hacc : Accepted ns workflows call
  · obtain ⟨workflows', hp⟩ := hacc
    rw [step_accepted hp]
    cases call with
    | createWorkflow id input failure =>
      obtain ⟨w, hw, rfl⟩ := perform_create hp
      intro w' hw'
      rcases List.mem_append.mp hw' with hold | hnew
      · exact h w' hold
      · have hok : Sound w.steps ∧ (w.WellFormed ↔ (Call.createWorkflow id input failure).Declared ns) := createWorkflow_ok hw
        exact List.mem_singleton.mp hnew ▸ hok.1
    | updateWorkflow =>
      obtain ⟨steps, place, w, w', hsteps, -, hw, hw', rfl⟩ := updateWorkflow_ok (perform_update hp)
      rw [forall_mem_set hw h]
      obtain ⟨name, description, archived, rfl⟩ := patched_ok hw'
      rcases patchSteps_ok hsteps with ⟨-, rfl⟩ | ⟨-, normalized, rfl, hne, hnormalized⟩
      · exact h w (List.mem_of_getElem? hw)
      · exact (normalizeSteps_ok hnormalized hne).1
  · rw [step_refused hacc]
    exact h

theorem Replaces.accepted {workflows : List Workflow} {call : Call} {place : ℕ} (h : Replaces ns workflows call place) :
    Accepted ns workflows call := by
  cases call with
  | createWorkflow => exact h.elim
  | updateWorkflow => exact h.2.2

theorem versioned (workflows : List Workflow) (call : Call) : Versioned ns workflows call := by
  intro i w hw
  by_cases hacc : Accepted ns workflows call
  · obtain ⟨workflows', hp⟩ := id hacc
    rw [step_accepted hp]
    cases call with
    | createWorkflow =>
      obtain ⟨new, -, rfl⟩ := perform_create hp
      have hi : i < workflows.length := (List.getElem?_eq_some_iff.mp hw).1
      exact ⟨w, by rw [List.getElem?_append_left hi, hw], rfl, False.elim, fun _ ↦ ⟨rfl, rfl⟩⟩
    | updateWorkflow =>
      obtain ⟨steps, place, old, new, hsteps, hplace, hold, hnew, rfl⟩ := updateWorkflow_ok (perform_update hp)
      by_cases hi : place = i
      · subst hi
        have hold' : old = w := Option.some.inj (hold.symm.trans hw)
        subst hold'
        obtain ⟨name, description, archived, rfl⟩ := patched_ok hnew
        refine ⟨_, List.getElem?_set_self (List.getElem?_eq_some_iff.mp hw).1, ?_⟩
        rcases patchSteps_ok hsteps with ⟨hnone, rfl⟩ | ⟨hsome, normalized, rfl, -, hnormalized⟩
        · refine ⟨rfl, ?_, fun _ ↦ ⟨rfl, rfl⟩⟩
          rintro ⟨hsome, -⟩
          simp [hnone] at hsome
        · exact ⟨rfl, fun _ ↦ ⟨rfl, hnormalized⟩, fun hno ↦ absurd ⟨hsome, hplace, hacc⟩ hno⟩
      · refine ⟨w, by rw [List.getElem?_set_ne hi, hw], rfl, ?_, fun _ ↦ ⟨rfl, rfl⟩⟩
        rintro ⟨-, hplace', -⟩
        exact absurd (Option.some.inj (hplace.symm.trans hplace')) hi
  · rw [step_refused hacc]
    exact ⟨w, hw, rfl, fun hr ↦ absurd hr.accepted hacc, fun _ ↦ ⟨rfl, rfl⟩⟩

/-- After every call what is stored is well formed, and every call keeps to the versions. -/
def DefinitionsKept (ns : Numerals) (calls : List Call) : Prop :=
  (∀ n, ∀ w ∈ after (step ns) [] (calls.take n), w.WellFormed) ∧ Along (step ns) (Versioned ns) [] calls

/-- The stored definitions are well formed all along exactly if every call that is taken brings at most
50 steps and names no type and no operation that is only inherited. -/
theorem definitionsKept_iff (ns : Numerals) (calls : List Call) : DefinitionsKept ns calls ↔
    Along (step ns) (fun workflows call ↦ Accepted ns workflows call → call.Declared ns) [] calls := by
  have hruns := Along.iff_forall_take (C := fun workflows call ↦ Accepted ns workflows call → call.Declared ns)
    (I := fun workflows ↦ ∀ w ∈ workflows, w.WellFormed) (fun workflows call h ↦ (step_wellFormed h call).mpr)
    (fun _ ↦ id) (fun workflows call h ↦ (step_wellFormed h call).mp) (s := []) (by simp) calls
  rw [hruns]
  constructor
  · intro h
    exact h.1
  · intro h
    exact ⟨h, Along.of_forall versioned [] calls⟩

def numerals : Numerals := ⟨fun n ↦ if n = .zero then "0" else "NaN", fun text ↦ if text = "0" then .zero else .nan⟩

def named (steps : List JsonValue) : JsonValue := .object [("name", .string "nightly"), ("steps", .array steps)]

def inheritedOperation : JsonValue := .object [("key", .string "a"), ("operation", .string "toString")]

theorem inherited_or_too_many_stored :
    ¬DefinitionsKept numerals [.createWorkflow "w" (named [inheritedOperation]) none] ∧
      ¬DefinitionsKept numerals [.createWorkflow "w" (named [.object []]) none,
        .updateWorkflow "w" (.object [("steps", .array (List.replicate 51 (.object [])))]) none] := by
  constructor
  · intro h
    have hstored : (after (step numerals) [] [.createWorkflow "w" (named [inheritedOperation]) none]).map
        (fun w ↦ w.steps.map fun s ↦ (s.type, s.operation)) = [[("transform", some "toString")]] := by decide +kernel
    obtain ⟨w, hw, hsteps⟩ := List.map_eq_singleton_iff.mp hstored
    obtain ⟨s, hs, hnames⟩ := List.map_eq_singleton_iff.mp hsteps
    have hwell := (h.1 1 w (hw ▸ List.mem_singleton_self w)).steps s (hs ▸ List.mem_singleton_self s)
    rw [Prod.mk.injEq] at hnames
    obtain ⟨op, hop, hs⟩ := hwell.operation hnames.1
    rw [hnames.2, Option.some.injEq] at hs
    subst hs
    exact absurd hop (by decide)
  · intro h
    have hstored : (after (step numerals) [] [.createWorkflow "w" (named [.object []]) none,
        .updateWorkflow "w" (.object [("steps", .array (List.replicate 51 (.object [])))]) none]).map
        (fun w ↦ w.steps.length) = [51] := by decide +kernel
    obtain ⟨w, hw, hsteps⟩ := List.map_eq_singleton_iff.mp hstored
    have hcount := (h.1 2 w (hw ▸ List.mem_singleton_self w)).count.2
    omega

end Noesar.Workflows
