import Noesar.Workflows.Progress

namespace Noesar.Workflows

open Lib Lib.Run Lib.Cooperative

/-- The places of the completed steps that declare a compensation, the last one first. -/
def due (run : Run) : List ℕ :=
  (List.range run.steps.length).reverse.filter fun i ↦
    run.steps[i]?.any (·.status = .completed) && (declaredCompensation run i).isSome

def Done (run : Run) (i : ℕ) : Prop := ∃ step : RunStep, run.steps[i]? = some step ∧ step.status = .completed

def compensations (history : List (Run × Execution)) : List ℕ :=
  history.filterMap fun e ↦
    match e.2 with
    | .compensation i => some i
    | .attempt _ _ => none

def AfterDone (history : List (Run × Execution)) : Prop := ∀ e ∈ history, ∀ i, e.2 = .compensation i → Done e.1 i

def Known (run : Run) : Prop :=
  ∀ (i : ℕ) (step : RunStep), run.steps[i]? = some step → ∃ definition, run.definition.steps.find? (·.key = step.key) = some definition ∧
    definition.compensation.isSome = step.compensation.isSome ∧ 1 ≤ definition.maxAttempts

def Frozen (run : Run) : Prop := run.status.terminal = false ∧ 2000 ≤ run.evidence.length

structure Fresh (run : Run) (log : List ℕ) : Prop where
  pending : ∀ step ∈ run.steps, step.status = .completed → ∀ c, step.compensation = some c → c.status = .pending
  log : log = []

structure Ready (run : Run) : Prop where
  unfinished : run.status.terminal = false
  unrequested : run.cancellationRequested = false
  statuses : ∀ s ∈ run.statuses, s = .pending ∨ s = .awaitingApproval ∨ s = .completed
  order : InOrder run.statuses

structure AtWork (run : Run) (i : ℕ) : Prop where
  unfinished : run.status.terminal = false
  unrequested : run.cancellationRequested = false
  running : run.statuses[i]? = some .running
  statuses : ∀ j s, j ≠ i → run.statuses[j]? = some s → s = .pending ∨ s = .completed
  order : InOrder run.statuses

def Settled (run : Run) : Prop := .running ∉ run.statuses ∧ .awaitingApproval ∉ run.statuses

structure Ended (run : Run) (log : List ℕ) : Prop where
  finished : run.status.terminal = true
  settled : Settled run
  undone : run.status ≠ .completed → log = due run

structure Undoing (run : Run) (log todo : List ℕ) : Prop where
  unfinished : run.status.terminal = false
  settled : Settled run
  due : log ++ todo = due run

def Task.todo : Task → List ℕ
  | .undo u | .undoing _ u | .undone _ u _ => u.todo
  | _ => []

def Phase (run : Run) (log : List ℕ) : Task → Prop
  | .enter => Ready run ∧ Fresh run log
  | .loop => (Ready run ∧ Fresh run log) ∨ Ended run log
  | .executing i _ _ | .settled i _ _ _ | .backoff i _ _ | .retry i _ _ => AtWork run i ∧ Fresh run log
  | .returned (.ok ()) => (Ready run ∧ .awaitingApproval ∉ run.statuses) ∧ Fresh run log
  | .returned (.error _) => (run.status.terminal = false ∧ Settled run) ∧ Fresh run log
  | .undo u => Undoing run log u.todo
  | .undoing i u | .undone i u _ => Undoing run log u.todo ∧ i ∈ log
  | .leaving => Ended run log

structure Idle (run : Run) (history : List (Run × Execution)) : Prop where
  known : Known run
  afterDone : AfterDone history
  phase : Frozen run ∨ (Ready run ∧ Fresh run (compensations history)) ∨ Ended run (compensations history)

structure Busy (run : Run) (history : List (Run × Execution)) (t : Task) : Prop where
  known : Known run
  afterDone : AfterDone history
  todo : ∀ i ∈ t.todo, Done run i
  phase : Frozen run ∨ Phase run (compensations history) t

def Alone (run : Run) (t : Task) : Request → Prop
  | .advance => t.advancing = true
  | .decideApproval _ _ _ _ => True
  | .cancelRun _ _ => run.status.terminal = true

variable {run run' : Run} {i : ℕ}

theorem declared_isSome (h : Known run) {step : RunStep} (hstep : run.steps[i]? = some step) :
    (declaredCompensation run i).isSome = step.compensation.isSome := by
  obtain ⟨definition, hdefinition, hcompensation, -⟩ := h i step hstep
  simp [declaredCompensation, hstep, hdefinition, hcompensation]

theorem mem_due : i ∈ due run ↔ Done run i ∧ (declaredCompensation run i).isSome = true := by
  constructor
  · intro h
    obtain ⟨-, hi⟩ := List.mem_filter.mp h
    rw [Bool.and_eq_true, Option.any_eq_true] at hi
    obtain ⟨⟨step, hstep, hstatus⟩, hdeclared⟩ := hi
    exact ⟨⟨step, hstep, of_decide_eq_true hstatus⟩, hdeclared⟩
  · rintro ⟨⟨step, hstep, hstatus⟩, hdeclared⟩
    have hlt := (List.getElem?_eq_some_iff.mp hstep).1
    refine List.mem_filter.mpr ⟨by simpa using hlt, ?_⟩
    simp [hstep, hstatus, hdeclared]

theorem toCompensate_eq_due (h : Known run) {log : List ℕ} (hfresh : Fresh run log) : toCompensate run = due run := by
  refine List.filter_congr fun i hi ↦ ?_
  rw [List.mem_reverse, List.mem_range] at hi
  have hstep := List.getElem?_eq_getElem hi
  rw [declared_isSome h hstep, hstep]
  cases hc : run.steps[i].compensation with
  | none => simp [hc]
  | some c =>
    by_cases hstatus : run.steps[i].status = .completed
    · simp [hc, hstatus, hfresh.pending _ (List.getElem_mem hi) hstatus c hc]
    · simp [hstatus]

theorem toCompensate_done : ∀ i ∈ toCompensate run, Done run i := by
  intro i hi
  obtain ⟨-, hi⟩ := List.mem_filter.mp hi
  obtain ⟨step, hstep, hstatus⟩ := (Option.any_eq_true _ _).mp hi
  rw [Bool.and_eq_true] at hstatus
  exact ⟨step, hstep, of_decide_eq_true hstatus.1⟩

theorem due_congr (hdefinition : run'.definition = run.definition)
    (hsteps : (run'.steps.map fun step ↦ (step.key, step.status)) = run.steps.map fun step ↦ (step.key, step.status)) :
    due run' = due run := by
  have hlength : run'.steps.length = run.steps.length := by
    simpa using congrArg List.length hsteps
  unfold due
  rw [hlength]
  refine List.filter_congr fun i _ ↦ ?_
  have hi := congrArg (·[i]?) hsteps
  simp only [List.getElem?_map] at hi
  cases hstep' : run'.steps[i]? with
  | none =>
    cases hstep : run.steps[i]? with
    | none => rfl
    | some => simp [hstep', hstep] at hi
  | some step' =>
    cases hstep : run.steps[i]? with
    | none => simp [hstep', hstep] at hi
    | some step =>
      have hboth : step'.key = step.key ∧ step'.status = step.status := by simpa [hstep', hstep] using hi
      simp [declaredCompensation, hstep', hstep, hdefinition, hboth.1, hboth.2]

theorem Known.frame (h : Known run) (hdefinition : run'.definition = run.definition)
    (hsteps : ∀ (j : ℕ) (step' : RunStep), run'.steps[j]? = some step' → ∃ step, run.steps[j]? = some step ∧
      step'.key = step.key ∧ step'.compensation.isSome = step.compensation.isSome) : Known run' := by
  intro j step' hstep'
  obtain ⟨step, hstep, hkey, hcompensation⟩ := hsteps j step' hstep'
  rw [hdefinition, hkey, hcompensation]
  exact h j step hstep

section OnStep

variable {status : RunStatus} {change : RunStep → RunStep} {event : Event}

theorem Known.onStep (h : Known run) (htx : Workflows.onStep run i status change event = .ok run')
    (hkey : ∀ step, (change step).key = step.key) (hcompensation : ∀ step, run.steps[i]? = some step →
      (change step).compensation.isSome = step.compensation.isSome) : Known run' := by
  obtain ⟨step, hstep, -, rfl⟩ := onStep_ok htx
  refine h.frame rfl ?_
  intro j step' hstep'
  rw [List.getElem?_set] at hstep'
  split at hstep'
  · rename_i hij
    subst hij
    split at hstep'
    · cases hstep'
      exact ⟨step, hstep, hkey step, hcompensation step hstep⟩
    · cases hstep'
  · exact ⟨step', hstep', rfl, rfl⟩

theorem Fresh.onStep {log : List ℕ} (h : Fresh run log) (htx : Workflows.onStep run i status change event = .ok run')
    (hchange : ∀ step, run.steps[i]? = some step → (change step).status = .completed →
      ∀ c, (change step).compensation = some c → c.status = .pending) : Fresh run' log := by
  obtain ⟨step, hstep, -, rfl⟩ := onStep_ok htx
  refine ⟨?_, h.log⟩
  intro other hother
  rcases List.mem_or_eq_of_mem_set hother with hold | rfl
  · exact h.pending other hold
  · exact hchange step hstep

theorem due_onStep (htx : Workflows.onStep run i status change event = .ok run')
    (hkey : ∀ step, (change step).key = step.key) (hstatus : ∀ step, (change step).status = step.status) :
    due run' = due run := by
  obtain ⟨step, hstep, -, rfl⟩ := onStep_ok htx
  refine due_congr rfl ?_
  obtain ⟨hi, rfl⟩ := List.getElem?_eq_some_iff.mp hstep
  apply List.ext_getElem (by simp)
  intro j hj hj'
  simp only [List.getElem_map, List.getElem_set]
  split
  · rename_i hij
    subst hij
    rw [hkey, hstatus]
  · rfl

theorem frozen_of_onStep (hunfinished : run.status.terminal = false) {s : StepStatus} (hi : run.statuses[i]? = some s)
    {e : Thrown} (htx : Workflows.onStep run i status change event = .error e) : Frozen run := by
  refine ⟨hunfinished, ?_⟩
  by_contra hroom
  obtain ⟨step, hstep, -⟩ := statuses_eq_some.mp hi
  rw [onStep_eq hstep (by omega)] at htx
  cases htx

theorem Frozen.onStep (h : Frozen run) : Workflows.onStep run i status change event ≠ .ok run' := by
  intro htx
  obtain ⟨-, -, hroom, -⟩ := onStep_ok htx
  exact absurd h.2 (by omega)

end OnStep

variable {status : RunStatus} {error : Option String}

theorem Frozen.finish (h : Frozen run) :
    finishRun run status error ≠ .ok run' := by
  intro htx
  exact absurd h.2 (by have hroom := (finishRun_ok htx).1; omega)

theorem frozen_of_finish (hunfinished : run.status.terminal = false) {e : Thrown}
    (htx : finishRun run status error = .error e) : Frozen run := by
  refine ⟨hunfinished, ?_⟩
  by_contra hroom
  obtain ⟨output, hok⟩ := finishRun_eq status error (show run.evidence.length < 2000 by omega)
  rw [hok] at htx
  cases htx

theorem due_finish (htx : finishRun run status error = .ok run') :
    due run' = due run := by
  obtain ⟨-, output, rfl⟩ := finishRun_ok htx
  exact due_congr rfl rfl

theorem Known.finish (h : Known run) (htx : finishRun run status error = .ok run') : Known run' := by
  obtain ⟨-, output, rfl⟩ := finishRun_ok htx
  exact h.frame rfl fun _ step hstep ↦ ⟨step, hstep, rfl, rfl⟩

theorem reconcile_still (h : .running ∉ run.statuses) : reconcileInterrupted run = .ok run := by
  rw [reconcileInterrupted, if_neg]
  intro hany
  obtain ⟨step, hstep, hstatus⟩ := List.any_eq_true.mp hany
  exact h (List.mem_map.mpr ⟨step, hstep, of_decide_eq_true hstatus⟩)

theorem decide_refused (h : .awaitingApproval ∉ run.statuses) {decision : Decision} {actorId : String}
    {reason : Option String} : decideApproval run i decision actorId reason ≠ .ok run' := by
  intro htx
  obtain ⟨step, hstep, hawaiting, -, -⟩ := decideApproval_ok htx
  exact h (hawaiting ▸ List.mem_map_of_mem (List.mem_of_getElem? hstep))

end Noesar.Workflows
