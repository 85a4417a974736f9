import Noesar.Workflows.Stored
import Noesar.Workflows.Transactions

namespace Noesar.Workflows

open Lib Lib.Run Lib.Cooperative JsonValue

/-- What is stored, and where the calls on each run are. A run is named by its place. -/
structure World where
  workflows : List Workflow
  runs : List Live

inductive WorldAction
  | define (call : Call)
  | createRun (workflowId : String) (input : JsonValue) (idempotencyKey : Option JsonValue) (projectId : JsonValue)
  | replayRun (k : ℕ)
  | request (k : ℕ) (request : Request)
  | go (k : ℕ)
  | resume (k n : ℕ) (outcome : Except Thrown JsonValue)
  | crash

def WorldAction.onRun (k : ℕ) : WorldAction → Option RunAction
  | .request j r => if j = k then some (.call r) else none
  | .go j => if j = k then some .go else none
  | .resume j n outcome => if j = k then some (.resume n outcome) else none
  | .crash => some .crash
  | .define _ | .createRun _ _ _ _ | .replayRun _ => none

namespace World

def empty : World := ⟨[], []⟩

def free (w : World) : Bool := w.runs.all (·.current.isNone)

/-- `String(idempotencyKey).trim() || null` -/
def keyOf (ns : Numerals) (idempotencyKey : Option JsonValue) : Except Thrown (Option String) :=
  match given idempotencyKey with
  | none => .ok none
  | some v => do
    let key ← ((asString ns v).mapError typeError).map trim
    return if key = "" then none else some key

/-- `none` where the run is one there is already. -/
def createRun (ns : Numerals) (w : World) (workflowId : String) (input : JsonValue) (idempotencyKey : Option JsonValue)
    (projectId : JsonValue) : Except Thrown (Option Run) := do
  let key ← keyOf ns idempotencyKey
  let workflow ← demand (w.workflows.find? (·.id = workflowId)) ⟨"Workflow not found.", some 404⟩
  require (workflow.archived = false) ⟨"An archived workflow cannot be run.", some 409⟩
  if key.isSome && w.runs.any fun live ↦ live.store.workflowId = workflowId && live.store.idempotencyKey = key then
    return none
  return some (newRun workflow input key projectId none)

def replayRun (w : World) (k : ℕ) : Except Thrown Run := do
  let original ← demand w.runs[k]? ⟨"Workflow run not found.", some 404⟩
  let run := original.store
  require (run.status.terminal = true) ⟨"Only a finished run can be replayed.", some 409⟩
  return newRun ⟨run.workflowId, run.projectId, run.definition.name, "", run.definition.version, run.definition.steps, false⟩
    run.input none run.projectId (some k)

def add (w : World) (run : Run) : World := { w with runs := w.runs ++ [.start run] }

def act (w : World) (k : ℕ) (a : RunAction) : World :=
  match w.runs[k]? with
  | none => w
  | some live => { w with runs := w.runs.set k (Cooperative.step service live a) }

def step (ns : Numerals) (w : World) : WorldAction → World
  | .define call => if w.free then { w with workflows := Workflows.step ns w.workflows call } else w
  | .createRun workflowId input idempotencyKey projectId =>
    match w.free, createRun ns w workflowId input idempotencyKey projectId with
    | true, .ok (some run) => w.add run
    | _, _ => w
  | .replayRun k =>
    match w.free, replayRun w k with
    | true, .ok run => w.add run
    | _, _ => w
  | .request k request => if w.free then w.act k (.call request) else w
  | .go k => w.act k .go
  | .resume k n outcome => if w.free then w.act k (.resume n outcome) else w
  | .crash => { w with runs := w.runs.map (Cooperative.step service · .crash) }

def Allowed (C : Live → RunAction → Prop) (w : World) : WorldAction → Prop
  | .define _ | .createRun _ _ _ _ | .replayRun _ => True
  | .request k request => w.free = true → ∀ live, w.runs[k]? = some live → C live (.call request)
  | .go k => ∀ live, w.runs[k]? = some live → C live .go
  | .resume k n outcome => w.free = true → ∀ live, w.runs[k]? = some live → C live (.resume n outcome)
  | .crash => ∀ live ∈ w.runs, C live .crash

/-- Every workflow is sound, so is what each run started from, and each run has `I`. -/
structure Keeps (I : Live → Prop) (w : World) : Prop where
  workflows : ∀ workflow ∈ w.workflows, Sound workflow.steps
  definitions : ∀ live ∈ w.runs, Sound live.store.definition.steps
  runs : ∀ live ∈ w.runs, I live

end World

def Evidence.Undecided (e : Evidence) : Prop := ∀ decision actorId reason, e.event ≠ .decided decision actorId reason

/-- A run keeps the definition it started from and all of its evidence, and what is added has `P`. -/
structure Extends (P : Evidence → Prop) (run run' : Run) : Prop where
  definition : run'.definition = run.definition
  evidence : ∃ entries, run'.evidence = run.evidence ++ entries ∧ ∀ e ∈ entries, P e

def Writable (run : Run) : RunAction → Evidence → Prop
  | .call (.decideApproval i decision actorId reason), e =>
    ∃ step, run.steps[i]? = some step ∧ e = ⟨some step.key, .decided decision actorId reason⟩
  | _, e => e.Undecided

section Extends

variable {P : Evidence → Prop} {run run' : Run} {i : ℕ} {busy : Bool}

theorem Extends.refl : Extends P run run := ⟨rfl, [], (List.append_nil _).symm, by simp⟩

theorem Extends.onStep {status : RunStatus} {change : RunStep → RunStep} {event : Event}
    (h : Workflows.onStep run i status change event = .ok run')
    (hevent : ∀ decision actorId reason, event ≠ .decided decision actorId reason) : Extends Evidence.Undecided run run' := by
  obtain ⟨step, -, -, rfl⟩ := onStep_ok h
  exact ⟨rfl, _, rfl, by simpa [Evidence.Undecided] using hevent⟩

theorem Extends.reconcile (h : reconcileInterrupted run = .ok run') : Extends Evidence.Undecided run run' := by
  rcases reconcileInterrupted_ok h with ⟨-, rfl⟩ | ⟨-, entries, hentries, rfl⟩
  · exact .refl
  · refine ⟨rfl, entries, rfl, ?_⟩
    intro e he decision actorId reason
    rw [hentries e he]
    exact Event.noConfusion

theorem Extends.finish {status : RunStatus} {error : Option String} (h : finishRun run status error = .ok run') :
    Extends Evidence.Undecided run run' := by
  obtain ⟨-, output, rfl⟩ := finishRun_ok h
  exact ⟨rfl, _, rfl, by simp [Evidence.Undecided]⟩

theorem extends_rules : Rules (fun _ ↦ True) (Extends Evidence.Undecided) (fun _ _ ↦ True) (fun _ _ ↦ True) fun _ _ ↦ True where
  refl _ := .refl
  free _ := trivial
  loop h := h
  compensation := trivial
  reconciled _ htx := ⟨.reconcile htx, trivial⟩
  completed _ _ _ _ _ htx := .finish htx
  ended _ _ htx := ⟨.finish htx, fun _ h ↦ h⟩
  asked _ _ _ _ htx := .onStep htx (by simp)
  begun _ _ _ _ _ _ _ htx := ⟨.onStep htx (by simp), trivial, trivial⟩
  again _ _ _ htx := ⟨.onStep htx (by simp), trivial, trivial⟩
  succeeded _ _ _ htx := ⟨.onStep htx (by simp), trivial⟩
  failed _ _ htx := ⟨.onStep htx (by split <;> simp), fun _ ↦ ⟨trivial, trivial⟩⟩
  marked _ htx := by
    rcases htx with ⟨output, htx⟩ | ⟨error, htx⟩ <;> exact ⟨.onStep htx (by simp), fun _ h ↦ h⟩

theorem Extends.turn (t : Task) : Extends Evidence.Undecided run (Workflows.turn run busy t).store :=
  (extends_rules.turn trivial trivial trivial).store

theorem Extends.call (request : Request) :
    Extends (Writable run (.call request)) run (Workflows.call run busy request).store := by
  cases request with
  | advance => exact .turn .enter
  | decideApproval i decision actorId reason =>
    simp only [Workflows.call]
    cases htx : decideApproval run i decision actorId reason with
    | error => exact .refl
    | ok =>
      obtain ⟨step, hstep, -, -, rfl⟩ := decideApproval_ok htx
      have hadded : ∀ e ∈ [(⟨some step.key, .decided decision actorId reason⟩ : Evidence)],
          Writable run (.call (.decideApproval i decision actorId reason)) e := by
        intro e he
        exact ⟨step, hstep, List.mem_singleton.mp he⟩
      cases decision <;> exact ⟨rfl, _, rfl, hadded⟩
  | cancelRun reason actorId =>
    simp only [Workflows.call]
    cases htx : cancelRun run reason actorId with
    | error => exact .refl
    | ok =>
      obtain ⟨-, -, rfl⟩ := cancelRun_ok htx
      exact ⟨rfl, _, rfl, by simp [Writable, Evidence.Undecided]⟩

theorem Extends.step (live : Live) (a : RunAction) :
    Extends (Writable live.store a) live.store (Cooperative.step service live a).store := by
  cases a with
  | call request =>
    simp only [Cooperative.step]
    split
    · exact .call request
    · exact .refl
  | go =>
    simp only [Cooperative.step]
    split
    · exact .refl
    · exact .turn _
  | resume =>
    simp only [Cooperative.step]
    split <;> exact .refl
  | crash => exact .refl

end Extends

namespace World

variable {ns : Numerals} {w : World} {I : Live → Prop} {C : Live → RunAction → Prop}

theorem Keeps.add (h : w.Keeps I) {run : Run} (hsound : Sound run.definition.steps) (hrun : I (.start run)) :
    (w.add run).Keeps I := by
  refine ⟨h.workflows, ?_, ?_⟩
  · intro live hlive
    rcases List.mem_append.mp hlive with hold | hnew
    · exact h.definitions live hold
    · exact List.mem_singleton.mp hnew ▸ hsound
  · intro live hlive
    rcases List.mem_append.mp hlive with hold | hnew
    · exact h.runs live hold
    · exact List.mem_singleton.mp hnew ▸ hrun

theorem Keeps.act (h : w.Keeps I) (hstep : ∀ live a, I live → C live a → I (Cooperative.step service live a)) {k : ℕ}
    {a : RunAction} (ha : ∀ live, w.runs[k]? = some live → C live a) : (w.act k a).Keeps I := by
  unfold World.act
  split
  · exact h
  · rename_i live hlive
    have hmem := List.mem_of_getElem? hlive
    refine ⟨h.workflows, ?_, ?_⟩
    · rw [forall_mem_set hlive h.definitions, (Extends.step live a).definition]
      exact h.definitions live hmem
    · rw [forall_mem_set hlive h.runs]
      exact hstep live a (h.runs live hmem) (ha live hlive)

theorem createRun_ok {workflowId : String} {input : JsonValue} {idempotencyKey : Option JsonValue} {projectId : JsonValue}
    {run : Run} (h : createRun ns w workflowId input idempotencyKey projectId = .ok (some run)) :
    ∃ workflow ∈ w.workflows, ∃ key, run = newRun workflow input key projectId none := by
  simp only [createRun, bind_ok, demand_ok, require_ok, exists_unit] at h
  obtain ⟨key, -, workflow, hfound, -, h⟩ := h
  split at h
  · cases h
  · cases h
    exact ⟨workflow, List.mem_of_find?_eq_some hfound, key, rfl⟩

theorem replayRun_ok {k : ℕ} {run : Run} (h : replayRun w k = .ok run) : ∃ live ∈ w.runs, ∃ workflow : Workflow,
    workflow.steps = live.store.definition.steps ∧ run = newRun workflow live.store.input none live.store.projectId (some k) := by
  simp only [replayRun, bind_ok, demand_ok, require_ok, exists_unit] at h
  obtain ⟨live, hlive, -, ⟨⟩⟩ := h
  exact ⟨live, List.mem_of_getElem? hlive, _, rfl, rfl⟩

theorem Keeps.step (hnew : ∀ workflow input key projectId replayOf, Sound workflow.steps →
      I (.start (newRun workflow input key projectId replayOf)))
    (hstep : ∀ live a, I live → C live a → I (Cooperative.step service live a)) (h : w.Keeps I) {a : WorldAction}
    (ha : w.Allowed C a) : (World.step ns w a).Keeps I := by
  cases a with
  | define call =>
    simp only [World.step]
    split
    · exact ⟨step_sound h.workflows call, h.definitions, h.runs⟩
    · exact h
  | createRun workflowId input idempotencyKey projectId =>
    simp only [World.step]
    split
    · rename_i run _ hrun
      obtain ⟨workflow, hmem, key, rfl⟩ := createRun_ok hrun
      exact h.add (h.workflows workflow hmem) (hnew workflow input key projectId none (h.workflows workflow hmem))
    · exact h
  | replayRun k =>
    simp only [World.step]
    split
    · rename_i run _ hrun
      obtain ⟨live, hmem, workflow, hsteps, rfl⟩ := replayRun_ok hrun
      have hsound : Sound workflow.steps := hsteps ▸ h.definitions live hmem
      exact h.add hsound (hnew workflow _ none _ (some k) hsound)
    · exact h
  | request =>
    simp only [World.step]
    split
    · rename_i hfree
      exact h.act hstep (ha hfree)
    · exact h
  | go => exact h.act hstep ha
  | resume =>
    simp only [World.step]
    split
    · rename_i hfree
      exact h.act hstep (ha hfree)
    · exact h
  | crash =>
    refine ⟨h.workflows, ?_, ?_⟩
    · intro live hlive
      obtain ⟨old, hold, rfl⟩ := List.mem_map.mp hlive
      rw [(Extends.step old .crash).definition]
      exact h.definitions old hold
    · intro live hlive
      obtain ⟨old, hold, rfl⟩ := List.mem_map.mp hlive
      exact hstep old .crash (h.runs old hold) (ha old hold)

theorem mem_act {k : ℕ} {live : Live} (h : w.runs[k]? = some live) (a : RunAction) :
    Cooperative.step service live a ∈ (w.act k a).runs := by
  simp only [act, h]
  exact List.mem_set (List.getElem?_eq_some_iff.mp h).1 _

theorem Keeps.allowed {P : Live → Prop} (h : w.Keeps I)
    (hback : ∀ live a, I live → P (Cooperative.step service live a) → C live a) {a : WorldAction}
    (ha : ∀ live ∈ (World.step ns w a).runs, P live) : w.Allowed C a := by
  have hact {k : ℕ} {b : RunAction} (hb : ∀ live ∈ (w.act k b).runs, P live) (live : Live)
      (hlive : w.runs[k]? = some live) : C live b :=
    hback live b (h.runs live (List.mem_of_getElem? hlive)) (hb _ (mem_act hlive b))
  cases a with
  | define | createRun | replayRun => trivial
  | request =>
    intro hfree
    simp only [World.step, hfree, if_true] at ha
    exact hact ha
  | go => exact hact ha
  | resume =>
    intro hfree
    simp only [World.step, hfree, if_true] at ha
    exact hact ha
  | crash =>
    intro live hlive
    exact hback live .crash (h.runs live hlive) (ha _ (List.mem_map.mpr ⟨live, hlive, rfl⟩))

def Moved (C : Live → RunAction → Prop) (live : Live) (b : Option RunAction) (live' : Live) : Prop :=
  live' = live ∨ ∃ a, b = some a ∧ C live a ∧ live' = Cooperative.step service live a

theorem Allowed.always (w : World) (a : WorldAction) : w.Allowed (fun _ _ ↦ True) a := by
  cases a <;> simp [Allowed]

section Places

variable {k : ℕ} {live : Live}

theorem act_run (h : w.runs[k]? = some live) {j : ℕ} {b : RunAction}
    (hb : ∀ live, w.runs[j]? = some live → C live b) :
    ∃ live', (w.act j b).runs[k]? = some live' ∧ Moved C live (if j = k then some b else none) live' := by
  unfold act
  split
  · exact ⟨live, h, .inl rfl⟩
  · rename_i other hother
    by_cases hj : j = k
    · subst hj
      obtain rfl := Option.some.inj (h.symm.trans hother)
      exact ⟨_, List.getElem?_set_self (List.getElem?_eq_some_iff.mp h).1, .inr ⟨b, if_pos rfl, hb live h, rfl⟩⟩
    · exact ⟨live, by rw [List.getElem?_set_ne hj, h], .inl rfl⟩

theorem add_run (h : w.runs[k]? = some live) (run : Run) : (w.add run).runs[k]? = some live := by
  rw [add, List.getElem?_append_left (List.getElem?_eq_some_iff.mp h).1, h]

theorem step_run (ns : Numerals) (h : w.runs[k]? = some live) {a : WorldAction} (ha : w.Allowed C a) :
    ∃ live', (World.step ns w a).runs[k]? = some live' ∧ Moved C live (a.onRun k) live' := by
  cases a with
  | define =>
    simp only [World.step]
    split <;> exact ⟨live, h, .inl rfl⟩
  | createRun | replayRun =>
    simp only [World.step]
    split
    · exact ⟨live, add_run h _, .inl rfl⟩
    · exact ⟨live, h, .inl rfl⟩
  | request =>
    simp only [World.step]
    split
    · exact act_run h (ha ‹_›)
    · exact ⟨live, h, .inl rfl⟩
  | go => exact act_run h ha
  | resume =>
    simp only [World.step]
    split
    · exact act_run h (ha ‹_›)
    · exact ⟨live, h, .inl rfl⟩
  | crash => exact ⟨_, by simp [World.step, h], .inr ⟨.crash, rfl, ha live (List.mem_of_getElem? h), rfl⟩⟩

end Places

theorem keeps_empty : empty.Keeps I := ⟨by simp [empty], by simp [empty], by simp [empty]⟩

theorem keeps_after (hnew : ∀ workflow input key projectId replayOf, Sound workflow.steps →
      I (.start (newRun workflow input key projectId replayOf)))
    (hstep : ∀ live a, I live → C live a → I (Cooperative.step service live a)) {actions : List WorldAction}
    (h : Along (World.step ns) (World.Allowed C) empty actions) : (after (World.step ns) empty actions).Keeps I :=
  h.invariant (fun _ _ hw ha ↦ hw.step hnew hstep ha) keeps_empty

end World

end Noesar.Workflows
