import Noesar.Lib.Supply
import Noesar.Workflows.Execution
import Noesar.Workflows.Progress

namespace Noesar.Workflows

open Lib Lib.Run Lib.Cooperative

def RunStep.noted (step : RunStep) : ℕ :=
  (match step.status with
    | .completed => 2
    | .awaitingApproval | .running => 1
    | .pending | .failed | .rejected | .cancelled | .interrupted => 0) +
    if step.approval.decision = some .approve then 2 else 0

def Run.outputs (run : Run) : List JsonValue := run.steps.map (·.output)

def Through (run : Run) (n : ℕ) : Prop := ∀ j < n, ∀ s, run.statuses[j]? = some s → s = .completed

/-- What a step of this place makes of the outputs before it, where it is no call of a tool. -/
def Yields (lang : Language) (run : Run) (i : ℕ) (output : JsonValue) : Prop :=
  ∀ definition, run.definition.steps[i]? = some definition →
    ∀ answer ∈ executeStep lang definition (inputAfter (run.outputs.take i) run.input definition), answer = .ok output

structure Computed (lang : Language) (run : Run) : Prop where
  keys : run.steps.map (·.key) = run.definition.steps.map (·.key)
  nodup : (run.definition.steps.map (·.key)).Nodup
  order : InOrder run.statuses
  yields : ∀ (i : ℕ) (step : RunStep), run.steps[i]? = some step → Through run (i + 1) → Yields lang run i step.output
  approved : ∀ (i : ℕ) (step : RunStep) (definition : Step), run.steps[i]? = some step → run.definition.steps[i]? = some definition →
    step.status = .running ∨ step.status = .completed → definition.requiresApproval = true →
      step.approval.decision = some .approve
  noted : 1 + weigh RunStep.noted run.steps + (if run.status.terminal then 1 else 0) ≤ run.evidence.length
  bounded : run.evidence.length ≤ 2000

/-- A run keeps its definition and its input, and of the steps that are settled how they ended and their outputs. -/
structure Kept (run run' : Run) : Prop where
  definition : run'.definition = run.definition
  input : run'.input = run.input
  settled : ∀ (i : ℕ) (step : RunStep), run.steps[i]? = some step → step.status.unsettled = false →
    ∃ step' : RunStep, run'.steps[i]? = some step' ∧ step'.status = step.status ∧ step'.output = step.output

def After (lang : Language) (run run' : Run) : Prop := Computed lang run' ∧ Kept run run'

def UnderWay (run : Run) (i : ℕ) (definition : Step) : Prop :=
  run.statuses[i]? = some .running ∧ run.definition.steps[i]? = some definition

def ComputedTask (run : Run) : Task → Prop
  | .executing i definition _ | .settled i definition _ _ | .backoff i definition _ | .retry i definition _ =>
    UnderWay run i definition
  | .loop | .returned (.ok ()) => .running ∉ run.statuses
  | _ => True

def ComputedExecution (run : Run) : Execution → Prop
  | .attempt i _ => InOrder run.statuses ∧ run.statuses[i]? = some .running
  | .compensation _ => True

/-- An outcome that is stored is what the step yields, where all before it came through. -/
def Delivers (lang : Language) (run : Run) : Task → Prop
  | .settled i _ _ (.ok output) => Through run i → Yields lang run i output
  | _ => True

/-- What a transaction makes of a step. -/
structure Rewrites (lang : Language) (run : Run) (i : ℕ) (step step' : RunStep) : Prop where
  key : step'.key = step.key
  settled : step.status.unsettled = false → step'.status = step.status ∧ step'.output = step.output
  working : step'.status ≠ step.status → ∀ j < i, ∀ s, run.statuses[j]? = some s → s.unsettled = false
  yields : step'.status = .completed → step.status.unsettled = true → Through run i → Yields lang run i step'.output
  approved : step'.status = .running ∨ step'.status = .completed → ∀ definition, run.definition.steps[i]? = some definition →
    definition.requiresApproval = true → step'.approval.decision = some .approve
  noted : step'.noted ≤ step.noted + 1

section

variable {lang : Language} {run run' run'' : Run} {i : ℕ}

theorem Kept.refl (run : Run) : Kept run run := ⟨rfl, rfl, fun _ step h _ ↦ ⟨step, h, rfl, rfl⟩⟩

theorem Kept.trans (h : Kept run run') (h' : Kept run' run'') : Kept run run'' := by
  refine ⟨h'.definition.trans h.definition, h'.input.trans h.input, ?_⟩
  intro i step hstep hsettled
  obtain ⟨step', hstep', hstatus, houtput⟩ := h.settled i step hstep hsettled
  obtain ⟨step'', hstep'', hstatus', houtput'⟩ := h'.settled i step' hstep' (by rw [hstatus, hsettled])
  exact ⟨step'', hstep'', hstatus'.trans hstatus, houtput'.trans houtput⟩

theorem Through.mono {m n : ℕ} (h : Through run n) (hle : m ≤ n) : Through run m :=
  fun j hj s hs ↦ h j (by omega) s hs

theorem Computed.of_find (h : Computed lang run) {step : RunStep} {definition : Step} (hstep : run.steps[i]? = some step)
    (hfound : run.definition.steps.find? (·.key = step.key) = some definition) :
    run.definition.steps[i]? = some definition := by
  have hkey : definition.key = step.key := by simpa using List.find?_some hfound
  obtain ⟨j, hj⟩ := List.mem_iff_getElem?.mp (List.mem_of_find?_eq_some hfound)
  have hat : (run.definition.steps.map (·.key))[i]? = some step.key := by
    rw [← h.keys, List.getElem?_map, hstep]
    rfl
  have hat' : (run.definition.steps.map (·.key))[j]? = some step.key := by
    rw [List.getElem?_map, hj, Option.map_some, hkey]
  obtain ⟨hlt, hi⟩ := List.getElem?_eq_some_iff.mp hat
  obtain ⟨hlt', hj'⟩ := List.getElem?_eq_some_iff.mp hat'
  obtain rfl := (List.Nodup.getElem_inj_iff h.nodup).mp (hi.trans hj'.symm)
  exact hj


theorem set_same {α : Type} {xs : List α} {x : α} (h : xs[i]? = some x) : xs.set i x = xs := by
  obtain ⟨hlt, rfl⟩ := List.getElem?_eq_some_iff.mp h
  exact List.set_getElem_self hlt

theorem Yields.congr {output : JsonValue} (h : Yields lang run i output) (hdefinition : run'.definition = run.definition)
    (hinput : run'.input = run.input) (houtputs : run'.outputs.take i = run.outputs.take i) : Yields lang run' i output := by
  unfold Yields
  rw [hdefinition, hinput, houtputs]
  exact h

section

variable (h : Computed lang run)

include h

theorem Computed.onStep {status : RunStatus} {change : RunStep → RunStep} {event : Event} (htx : Workflows.onStep run i
    status change event = .ok run') (hstatus : status.terminal = true → run.status.terminal = true) (hchange : ∀ step,
    run.steps[i]? = some step → Rewrites lang run i step (change step)) : After lang run run' := by
  obtain ⟨step, hstep, hroom, rfl⟩ := onStep_ok htx
  obtain ⟨hkey, hsettled, hworking, hyields, happroved, hnoted⟩ := hchange step hstep
  obtain ⟨hlt, -⟩ := List.getElem?_eq_some_iff.mp hstep
  have hi : run.statuses[i]? = some step.status := statuses_eq_some.mpr ⟨step, hstep, rfl⟩
  have hself : (run.steps.set i (change step))[i]? = some (change step) := List.getElem?_set_self hlt
  generalize hafter : ({ run with
    status := status
    steps := run.steps.set i (change step)
    evidence := run.evidence ++ [⟨some step.key, event⟩] } : Run) = after
  have hsteps : after.steps = run.steps.set i (change step) := by rw [← hafter]
  have hdefinition : after.definition = run.definition := by rw [← hafter]
  have hinput : after.input = run.input := by rw [← hafter]
  have hevidence : after.evidence.length = run.evidence.length + 1 := by simp [← hafter]
  have hstatuses : after.statuses = run.statuses.set i (change step).status := by
    rw [Run.statuses, hsteps, List.map_set]
    rfl
  have houtputs : after.outputs = run.outputs.set i (change step).output := by
    rw [Run.outputs, hsteps, List.map_set]
    rfl
  have hother {k : ℕ} (hk : k ≠ i) : after.steps[k]? = run.steps[k]? := by rw [hsteps, List.getElem?_set_ne hk.symm]
  have hbefore {n : ℕ} (hn : n ≤ i) : after.outputs.take n = run.outputs.take n := by
    rw [houtputs, List.take_set_of_le hn]
  have hthrough {n : ℕ} (hn : n ≤ i) (h : Through after n) : Through run n := by
    intro j hj s hs
    exact h j hj s (by rw [hstatuses, List.getElem?_set_ne (by omega), hs])
  -- What was settled stays as it ended.
  have hsame (hs : step.status.unsettled = false) : after.statuses = run.statuses ∧ after.outputs = run.outputs := by
    obtain ⟨hstatus', houtput'⟩ := hsettled hs
    rw [hstatuses, houtputs, hstatus', houtput']
    exact ⟨set_same hi, set_same (by simp [Run.outputs, hstep])⟩
  refine ⟨⟨?_, ?_, ?_, ?_, ?_, ?_, ?_⟩, hdefinition, hinput, ?_⟩
  · rw [hdefinition, ← h.keys, hsteps, List.map_set, hkey]
    exact set_same (by simp [hstep])
  · rw [hdefinition]
    exact h.nodup
  · rw [hstatuses]
    by_cases heq : (change step).status = step.status
    · rw [heq, set_same hi]
      exact h.order
    · refine h.order.set hi ?_ (hworking heq)
      by_contra hne
      exact heq (hsettled (by simpa using hne)).1
  · intro k other hk hdone
    rcases Nat.lt_trichotomy k i with hki | rfl | hik
    · rw [hother hki.ne] at hk
      exact (h.yields k other hk (hthrough hki hdone)).congr hdefinition hinput (hbefore hki.le)
    · rw [hsteps, hself] at hk
      obtain rfl := Option.some.inj hk
      cases hs : step.status.unsettled with
      | true =>
        have hcompleted : (change step).status = .completed :=
          hdone k (by omega) _ (statuses_eq_some.mpr ⟨_, by rw [hsteps, hself], rfl⟩)
        exact (hyields hcompleted hs (hthrough le_rfl (hdone.mono (by omega)))).congr hdefinition hinput (hbefore le_rfl)
      | false =>
        rw [(hsettled hs).2]
        refine (h.yields k step hstep ?_).congr hdefinition hinput (hbefore le_rfl)
        unfold Through at hdone
        rwa [(hsame hs).1] at hdone
    · rw [hother (by omega)] at hk
      have hlater : run.statuses[k]? = some other.status := statuses_eq_some.mpr ⟨other, hk, rfl⟩
      cases hs : step.status.unsettled with
      | true =>
        have huntouched := h.order i k _ _ hik hi hlater hs
        have hcompleted := hdone k (by omega) other.status (by rw [hstatuses, List.getElem?_set_ne (by omega), hlater])
        rw [hcompleted] at huntouched
        cases huntouched
      | false =>
        refine (h.yields k other hk ?_).congr hdefinition hinput (by rw [(hsame hs).2])
        unfold Through at hdone
        rwa [(hsame hs).1] at hdone
  · intro k other definition hk hat hactive
    rw [hdefinition] at hat
    by_cases hki : k = i
    · subst hki
      rw [hsteps, hself] at hk
      obtain rfl := Option.some.inj hk
      exact happroved hactive definition hat
    · rw [hother hki] at hk
      exact h.approved k other definition hk hat hactive
  · have hset := weigh_set (c := RunStep.noted) (y := change step) hstep
    have hold := h.noted
    have hterminal : (if after.status.terminal = true then 1 else 0) ≤ if run.status.terminal = true then 1 else 0 := by
      rw [← hafter]
      split
      · rw [if_pos (hstatus ‹_›)]
      · exact Nat.zero_le _
    rw [hsteps, hevidence]
    omega
  · omega
  · intro k other hk hs
    by_cases hki : k = i
    · subst hki
      obtain rfl := Option.some.inj (hstep.symm.trans hk)
      exact ⟨_, by rw [hsteps, hself], hsettled hs⟩
    · exact ⟨other, by rw [hother hki, hk], rfl, rfl⟩

theorem Computed.map {f : RunStep → RunStep} {g : StepStatus → StepStatus} (hsteps : run'.steps = run.steps.map f)
    (hdefinition : run'.definition = run.definition) (hinput : run'.input = run.input) (hstatus : ∀ step, (f
    step).status = g step.status) (hkey : ∀ step, (f step).key = step.key) (houtput : ∀ step, (f step).output =
    step.output) (happroval : ∀ step, (f step).approval = step.approval) (hkeeps : ∀ s, s.unsettled = false → g s = s)
    (hsettles : ∀ s, g s = s ∨ (g s).unsettled = false ∧ g s ≠ .completed) (huntouched : ∀ s, s.untouched = true → (g
    s).untouched = true) (hterminal : run'.status.terminal = true → run.status.terminal = true) (hevidence :
    run.evidence.length ≤ run'.evidence.length) (hbounded : run'.evidence.length ≤ 2000) : After lang run run' := by
  have hstatuses : run'.statuses = run.statuses.map g := by
    simp [Run.statuses, hsteps, hstatus]
  have houtputs : run'.outputs = run.outputs := by
    simp [Run.outputs, hsteps, houtput]
  have hat {k : ℕ} {other : RunStep} (hk : run'.steps[k]? = some other) : ∃ step, run.steps[k]? = some step ∧ f step = other := by
    rwa [hsteps, List.getElem?_map, Option.map_eq_some_iff] at hk
  have hthrough {n : ℕ} (hn : Through run' n) : Through run n := by
    intro j hj s hs
    have hg := hn j hj (g s) (by rw [hstatuses, List.getElem?_map, hs, Option.map_some])
    rcases hsettles s with heq | ⟨-, hne⟩
    · rwa [heq] at hg
    · exact absurd hg hne
  have hnoted (step : RunStep) : (f step).noted ≤ step.noted := by
    simp only [RunStep.noted, hstatus, happroval]
    rcases hsettles step.status with heq | ⟨hs, hne⟩
    · rw [heq]
    · cases hg : g step.status <;> simp_all [StepStatus.unsettled]
  refine ⟨⟨?_, ?_, ?_, ?_, ?_, ?_, hbounded⟩, hdefinition, hinput, ?_⟩
  · rw [hdefinition, ← h.keys, hsteps, List.map_map]
    exact List.map_congr_left fun step _ ↦ hkey step
  · rw [hdefinition]
    exact h.nodup
  · rw [hstatuses]
    refine h.order.map ?_ huntouched
    intro s hs
    rcases hsettles s with heq | ⟨hsettled, -⟩
    · rwa [heq] at hs
    · rw [hsettled] at hs
      cases hs
  · intro k other hk hdone
    obtain ⟨step, hstep, rfl⟩ := hat hk
    rw [houtput]
    exact (h.yields k step hstep (hthrough hdone)).congr hdefinition hinput (by rw [houtputs])
  · intro k other definition hk hdef hactive hrequires
    obtain ⟨step, hstep, rfl⟩ := hat hk
    rw [happroval]
    rw [hdefinition] at hdef
    refine h.approved k step definition hstep hdef ?_ hrequires
    rw [hstatus] at hactive
    rcases hsettles step.status with heq | ⟨hsettled, hne⟩
    · rwa [heq] at hactive
    · rcases hactive with hrunning | hcompleted
      · rw [hrunning] at hsettled
        cases hsettled
      · exact absurd hcompleted hne
  · have hold := h.noted
    have hle : weigh RunStep.noted (run.steps.map f) ≤ weigh RunStep.noted run.steps := weigh_map_le hnoted
    have hend : (if run'.status.terminal = true then 1 else 0) ≤ if run.status.terminal = true then 1 else 0 := by
      split
      · rw [if_pos (hterminal ‹_›)]
      · exact Nat.zero_le _
    rw [hsteps]
    omega
  · intro k step hk hs
    exact ⟨f step, by rw [hsteps, List.getElem?_map, hk, Option.map_some], by rw [hstatus, hkeeps _ hs], houtput step⟩

theorem Computed.finish {status : RunStatus} {error : Option String} (htx : finishRun run status error = .ok run') :
    After lang run run' := by
  obtain ⟨hroom, output, rfl⟩ := finishRun_ok htx
  refine ⟨⟨h.keys, h.nodup, h.order, h.yields, h.approved, ?_, ?_⟩, rfl, rfl, fun _ step hk _ ↦ ⟨step, hk, rfl, rfl⟩⟩
  · have hold := h.noted
    simp only [List.length_append, List.length_singleton]
    split <;> omega
  · simp only [List.length_append, List.length_singleton]
    omega

theorem Computed.reconcile (htx : reconcileInterrupted run = .ok run') : After lang run run' ∧ .running ∉ run'.statuses
    := by
  have hbounded : run'.evidence.length ≤ 2000 := by
    rw [reconcileInterrupted] at htx
    split at htx
    · obtain ⟨hroom, rfl⟩ := record_ok htx
      simpa using hroom
    · cases htx
      exact h.bounded
  rcases reconcileInterrupted_ok htx with ⟨hnone, rfl⟩ | ⟨-, entries, -, rfl⟩
  · refine ⟨⟨h, Kept.refl run'⟩, ?_⟩
    intro hmem
    obtain ⟨step, hstep, hstatus⟩ := List.mem_map.mp hmem
    exact hnone step hstep hstatus
  · have houtput (step : RunStep) : (interruptStep step).output = step.output := by
      rw [interruptStep]
      split <;> rfl
    refine ⟨h.map (g := fun s ↦ if s = .running then .interrupted else s) rfl rfl rfl interruptStep_status interruptStep_key
      houtput interruptStep_approval ?_ ?_ ?_ id (by simp) hbounded, ?_⟩
    · intro s
      cases s <;> simp [StepStatus.unsettled]
    · intro s
      cases s <;> simp [StepStatus.unsettled]
    · intro s
      cases s <;> simp [StepStatus.untouched]
    · show .running ∉ (run.steps.map interruptStep).map (·.status)
      rw [interruptStep_statuses]
      intro hmem
      obtain ⟨s, -, hs⟩ := List.mem_map.mp hmem
      split at hs
      · cases hs
      · contradiction

theorem Computed.cancel {reason actorId : String} (htx : cancelRun run reason actorId = .ok run') : After lang run run'
    := by
  obtain ⟨-, hroom, rfl⟩ := cancelRun_ok htx
  have houtput (step : RunStep) : (cancelStep step).output = step.output := by
    rw [cancelStep]
    split <;> rfl
  refine h.map (g := fun s ↦ if s = .pending ∨ s = .awaitingApproval then .cancelled else s) rfl rfl rfl cancelStep_status
    cancelStep_key houtput cancelStep_approval ?_ ?_ ?_ (by simp [RunStatus.terminal]) (by simp) (by simp; omega)
  · intro s
    cases s <;> simp [StepStatus.unsettled]
  · intro s
    cases s <;> simp [StepStatus.unsettled]
  · intro s
    cases s <;> simp [StepStatus.untouched]

theorem Computed.decide {decision : Decision} {actorId : String} {reason : Option String} (htx : decideApproval run i
    decision actorId reason = .ok run') : After lang run run' ∧ run.statuses[i]? = some .awaitingApproval ∧
    run'.statuses = run.statuses.set i (if decision = .approve then .pending else .rejected) := by
  obtain ⟨step, hstep, hawaiting, -, -⟩ := decideApproval_ok htx
  simp only [decideApproval, bind_ok, demand_ok, require_ok, exists_unit] at htx
  obtain ⟨-, -, -, htx⟩ := htx
  have hi : run.statuses[i]? = some .awaitingApproval := statuses_eq_some.mpr ⟨step, hstep, hawaiting⟩
  refine ⟨h.onStep htx ?_ ?_, hi, onStep_statuses htx fun _ _ ↦ rfl⟩
  · cases decision <;> simp [RunStatus.terminal]
  · intro other hother
    obtain rfl := Option.some.inj (hstep.symm.trans hother)
    refine ⟨rfl, ?_, fun _ ↦ h.order.first hi rfl, ?_, ?_, ?_⟩
    · rw [hawaiting]
      exact nofun
    · cases decision <;> simp
    · cases decision <;> simp
    · cases decision <;> simp [RunStep.noted, hawaiting]

theorem Computed.begin {definition : Step} {attempt : ℤ} {step : RunStep} (hstep : run.steps[i]? = some step) (hopen :
    step.status.unsettled = true) (hdefinition : run.definition.steps[i]? = some definition) (hfirst : ∀ j < i, ∀ s,
    run.statuses[j]? = some s → s.unsettled = false) (hgate : definition.requiresApproval = true →
    step.approval.decision = some .approve) (htx : startAttempt run i definition attempt = .ok run') : After lang run
    run' ∧ UnderWay run' i definition := by
  have hafter : After lang run run' := by
    refine h.onStep htx (by simp [RunStatus.terminal]) ?_
    intro other hother
    obtain rfl := Option.some.inj (hstep.symm.trans hother)
    refine ⟨rfl, ?_, fun _ ↦ hfirst, nofun, ?_, ?_⟩
    · rw [hopen]
      exact nofun
    · intro _ d hd
      obtain rfl := Option.some.inj (hdefinition.symm.trans hd)
      exact hgate
    · cases hs : step.status <;> simp [RunStep.noted, hs] <;> omega
  refine ⟨hafter, ?_, hafter.2.definition ▸ hdefinition⟩
  rw [onStep_statuses (b := .running) htx fun _ _ ↦ rfl]
  exact List.getElem?_set_self (by simpa [Run.statuses] using (List.getElem?_eq_some_iff.mp hstep).1)

theorem Computed.mark {change : RunStep → RunStep} {event : Event} (hchange : ∀ step, ∃ record, change step = { step
    with compensation := record }) (htx : Workflows.onStep run i run.status change event = .ok run') : After lang run
    run' ∧ run'.statuses = run.statuses := by
  obtain ⟨step, hstep, -, -⟩ := onStep_ok htx
  obtain ⟨record, hrecord⟩ := hchange step
  have hi : run.statuses[i]? = some step.status := statuses_eq_some.mpr ⟨step, hstep, rfl⟩
  constructor
  · refine h.onStep htx id ?_
    intro other hother
    obtain rfl := Option.some.inj (hstep.symm.trans hother)
    rw [hrecord]
    refine ⟨rfl, fun _ ↦ ⟨rfl, rfl⟩, fun hne ↦ absurd rfl hne, ?_, ?_, Nat.le_succ _⟩
    · intro (hcompleted : step.status = .completed) hunsettled
      rw [hcompleted] at hunsettled
      cases hunsettled
    · intro hactive d hd hrequires
      exact h.approved i step d hstep hd hactive hrequires
  · rw [onStep_statuses (b := step.status) htx, set_same hi]
    intro other hother
    obtain rfl := Option.some.inj (hstep.symm.trans hother)
    rw [hrecord]

end

section Attempts

variable {definition : Step} {attempt : ℤ}

theorem Computed.asks (h : Computed lang run) (hrunning : .running ∉ run.statuses) {step : RunStep} (honto : OnTo run i step)
    (hawaiting : step.status ≠ .awaitingApproval) (htx : awaitApproval run i = .ok run') : After lang run run' := by
  have hpending : step.status = .pending := honto.opened.resolve_right hawaiting
  refine h.onStep htx (by simp [RunStatus.terminal]) ?_
  intro other hother
  obtain rfl := Option.some.inj (honto.step.symm.trans hother)
  refine ⟨rfl, ?_, fun _ ↦ honto.first hrunning, nofun, by simp, by simp [RunStep.noted, hpending]; omega⟩
  rw [honto.unsettled]
  exact nofun

theorem Computed.works (h : Computed lang run) {step : RunStep} (hstep : run.steps[i]? = some step)
    (hrunning : step.status = .running) {status : StepStatus} {attempts : List Attempt} {output : JsonValue}
    {error : Option String} {compensation : Option CompensationRecord}
    (hstatus : status = .completed ∨ status = .failed ∨ status = .running)
    (hyields : status = .completed → Through run i → Yields lang run i output) :
    Rewrites lang run i step ⟨step.key, status, attempts, output, error, step.approval, compensation⟩ := by
  have hi : run.statuses[i]? = some .running := statuses_eq_some.mpr ⟨step, hstep, hrunning⟩
  refine ⟨rfl, ?_, fun _ ↦ h.order.first hi rfl, fun hs _ ↦ hyields hs, ?_, ?_⟩
  · rw [hrunning]
    exact nofun
  · intro _ d hd
    exact h.approved i step d hstep hd (.inl hrunning)
  · rcases hstatus with rfl | rfl | rfl <;> simp [RunStep.noted, hrunning] <;> omega

theorem Computed.succeeds (h : Computed lang run) (hwork : UnderWay run i definition) {output : JsonValue}
    (hdelivers : Delivers lang run (.settled i definition attempt (.ok output)))
    (htx : completeAttempt run i attempt output = .ok run') : After lang run run' ∧ .running ∉ run'.statuses := by
  obtain ⟨step, hstep, hrunning⟩ := statuses_eq_some.mp hwork.1
  constructor
  · refine h.onStep htx id ?_
    intro other hother
    obtain rfl := Option.some.inj (hstep.symm.trans hother)
    exact h.works hstep hrunning (.inl rfl) fun _ ↦ hdelivers
  · exact h.order.not_running hwork.1 (by simp) (onStep_statuses (b := .completed) htx fun _ _ ↦ rfl)

theorem Computed.fails (h : Computed lang run) (hwork : UnderWay run i definition) {error : Thrown} {willRetry : Bool}
    (htx : failAttempt run i attempt error willRetry = .ok run') :
    After lang run run' ∧ (willRetry = true → UnderWay run' i definition) := by
  obtain ⟨step, hstep, hrunning⟩ := statuses_eq_some.mp hwork.1
  have hafter : After lang run run' := by
    refine h.onStep htx id ?_
    intro other hother
    obtain rfl := Option.some.inj (hstep.symm.trans hother)
    refine h.works hstep hrunning ?_ ?_ <;> cases willRetry <;> simp [hrunning]
  refine ⟨hafter, ?_⟩
  rintro rfl
  refine ⟨?_, hafter.2.definition ▸ hwork.2⟩
  rw [onStep_statuses (b := .running) htx, set_same hwork.1, hwork.1]
  intro other hother
  obtain rfl := Option.some.inj (hstep.symm.trans hother)
  exact hrunning

end Attempts

section Tasks

variable {t : Task}

theorem ComputedTask.frame (h : ComputedTask run t) (hdefinition : run'.definition = run.definition)
    (hrunning : ∀ i : ℕ, run'.statuses[i]? = some .running ↔ run.statuses[i]? = some .running) : ComputedTask run' t := by
  have hwork {i : ℕ} {definition : Step} (h : UnderWay run i definition) : UnderWay run' i definition :=
    ⟨(hrunning i).mpr h.1, hdefinition ▸ h.2⟩
  have hidle (hn : .running ∉ run.statuses) : .running ∉ run'.statuses := by
    intro hmem
    obtain ⟨j, hj⟩ := List.mem_iff_getElem?.mp hmem
    exact hn (List.mem_of_getElem? ((hrunning j).mp hj))
  match t, h with
  | .executing _ _ _, h | .settled _ _ _ _, h | .backoff _ _ _, h | .retry _ _ _, h => exact hwork h
  | .loop, h | .returned (.ok ()), h => exact hidle h
  | .enter, _ | .returned (.error _), _ | .undo _, _ | .undoing _ _, _ | .undone _ _ _, _ | .leaving, _ => trivial

theorem ComputedTask.decide (ht : ComputedTask run t) (h : Computed lang run) {decision : Decision} {actorId : String}
    {reason : Option String} (htx : decideApproval run i decision actorId reason = .ok run') : ComputedTask run' t := by
  obtain ⟨hafter, hi, hset⟩ := h.decide htx
  refine ht.frame hafter.2.definition ?_
  intro j
  rw [hset, List.getElem?_set]
  split
  · rename_i heq
    subst heq
    rw [hi]
    cases decision <;> simp
  · rfl

theorem ComputedTask.cancel (ht : ComputedTask run t) {reason actorId : String} (htx : cancelRun run reason actorId = .ok run') :
    ComputedTask run' t := by
  obtain ⟨-, -, rfl⟩ := cancelRun_ok htx
  refine ht.frame rfl ?_
  intro j
  show ((run.steps.map cancelStep).map (·.status))[j]? = _ ↔ _
  rw [cancelStep_statuses, List.getElem?_map]
  cases hj : run.statuses[j]? with
  | none => simp
  | some s => cases s <;> simp

end Tasks

theorem computed_rules (lang : Language) : Rules (Computed lang) (After lang) ComputedTask ComputedExecution (Delivers lang) where
  refl h := ⟨h, .refl _⟩
  free {_ t} h := by
    cases t with
    | enter | undo | undoing | undone | leaving => trivial
    | returned outcome =>
      cases outcome with
      | ok => cases h
      | error => trivial
    | loop | executing | settled | backoff | retry => cases h
  loop h := h
  compensation := trivial
  reconciled h htx := h.reconcile htx
  completed h _ _ _ _ htx := h.finish htx
  ended h _ htx := by
    refine ⟨h.finish htx, fun _ ht ↦ ?_⟩
    obtain ⟨-, output, rfl⟩ := finishRun_ok htx
    exact ht.frame rfl fun _ ↦ Iff.rfl
  asked h hrunning honto hawaiting htx := h.asks hrunning honto hawaiting htx
  begun h hrunning _ honto hfound hgate _ htx := by
    obtain ⟨hafter, hwork⟩ := h.begin honto.step honto.unsettled (h.of_find honto.step hfound) (honto.first hrunning) hgate htx
    exact ⟨hafter, hwork, hafter.1.order, hwork.1⟩
  again h hwork _ htx := by
    obtain ⟨step, hstep, hrunning⟩ := statuses_eq_some.mp hwork.1
    obtain ⟨hafter, hwork'⟩ := h.begin hstep (by rw [hrunning]; rfl) hwork.2 (h.order.first hwork.1 rfl)
      (h.approved _ step _ hstep hwork.2 (.inl hrunning)) htx
    exact ⟨hafter, hwork', hafter.1.order, hwork'.1⟩
  succeeded h hwork hdelivers htx := h.succeeds hwork hdelivers htx
  failed h hwork htx := by
    obtain ⟨hafter, hunderway⟩ := h.fails hwork htx
    exact ⟨hafter, fun hagain ↦ ⟨hunderway (decide_eq_true hagain), hunderway (decide_eq_true hagain)⟩⟩
  marked h htx := by
    rcases htx with ⟨output, htx⟩ | ⟨error, htx⟩ <;>
      obtain ⟨hafter, hstatuses⟩ := h.mark (fun _ ↦ ⟨_, rfl⟩) htx <;>
      exact ⟨hafter, fun _ ht ↦ ht.frame hafter.2.definition fun _ ↦ by rw [hstatuses]⟩

theorem Computed.turn (h : Computed lang run) (busy : Bool) {t : Task} (ht : ComputedTask run t) (hdelivers : Delivers lang run t) :
    Turn.Keeps service (After lang run) ComputedTask ComputedExecution run busy t.advancing (Workflows.turn run busy t) :=
  (computed_rules lang).turn h ht hdelivers

theorem Computed.call (h : Computed lang run) (busy : Bool) (request : Request) :
    Turn.Keeps service (After lang run) ComputedTask ComputedExecution run busy false (Workflows.call run busy request) :=
  (computed_rules lang).call h (fun htx ↦ ⟨(h.decide htx).1, fun _ ht ↦ ht.decide h htx⟩)
    (fun htx ↦ ⟨h.cancel htx, fun _ ht ↦ ht.cancel htx⟩) request

theorem Kept.stepInput_eq {started : Run} (h : Kept started run) {attempt : ℤ} (hexecution : ComputedExecution started (.attempt i attempt))
    (hthrough : Through run i) (definition : Step) :
    stepInput started definition = inputAfter (run.outputs.take i) run.input definition := by
  obtain ⟨horder, hrunning⟩ := hexecution
  have hearlier {j : ℕ} (hj : j < i) {step : RunStep} (hstep : started.steps[j]? = some step) :
      step.status = .completed ∧ run.outputs[j]? = some step.output := by
    have hs : started.statuses[j]? = some step.status := statuses_eq_some.mpr ⟨step, hstep, rfl⟩
    obtain ⟨step', hstep', hstatus, houtput⟩ := h.settled j step hstep (horder.first hrunning rfl j hj _ hs)
    rw [← hstatus, ← houtput]
    exact ⟨hthrough j hj _ (statuses_eq_some.mpr ⟨step', hstep', rfl⟩), by simp [Run.outputs, hstep']⟩
  have hlater {j : ℕ} (hj : i ≤ j) {step : RunStep} (hstep : started.steps[j]? = some step) : step.status ≠ .completed := by
    have hs : started.statuses[j]? = some step.status := statuses_eq_some.mpr ⟨step, hstep, rfl⟩
    intro hcompleted
    rw [hcompleted] at hs
    rcases Nat.eq_or_lt_of_le hj with rfl | hlt
    · rw [hrunning] at hs
      cases hs
    · exact absurd (horder i j _ _ hlt hrunning hs rfl) (by simp [StepStatus.untouched])
  have hlt : i < started.steps.length := by
    simpa [Run.statuses] using (List.getElem?_eq_some_iff.mp hrunning).1
  have houtputs : (started.steps.take i).map (·.output) = run.outputs.take i := by
    apply List.ext_getElem?
    intro j
    rw [List.getElem?_map, List.getElem?_take, List.getElem?_take]
    split
    · rename_i hj
      have hstep : started.steps[j]? = some started.steps[j] := List.getElem?_eq_getElem (by omega)
      rw [(hearlier hj hstep).2, hstep]
      rfl
    · rfl
  have hordered : (started.steps.take definition.index).filter (·.status = .completed) =
      (started.steps.take i).take definition.index := by
    conv_lhs => rw [← List.take_append_drop i started.steps, List.take_append, List.filter_append]
    have hfront : ((started.steps.take i).take definition.index).filter (·.status = .completed) =
        (started.steps.take i).take definition.index := by
      rw [List.filter_eq_self]
      intro step hstep
      obtain ⟨j, hj⟩ := List.mem_iff_getElem?.mp (List.mem_of_mem_take hstep)
      rw [List.getElem?_take] at hj
      split at hj
      · exact decide_eq_true (hearlier ‹_› hj).1
      · cases hj
    have hback : ((started.steps.drop i).take (definition.index - (started.steps.take i).length)).filter
        (·.status = .completed) = [] := by
      rw [List.filter_eq_nil_iff]
      intro step hstep
      obtain ⟨j, hj⟩ := List.mem_iff_getElem?.mp (List.mem_of_mem_take hstep)
      rw [List.getElem?_drop] at hj
      exact fun hcompleted ↦ hlater (Nat.le_add_right i j) hj (of_decide_eq_true hcompleted)
    rw [hfront, hback, List.append_nil]
  unfold stepInput inputAfter
  cases JsonValue.given (some definition.input) with
  | some => rfl
  | none =>
    show ((List.filter (·.status = .completed) (started.steps.take definition.index)).getLast?.map (·.output)).getD started.input =
      (List.take definition.index (run.outputs.take i)).getLast?.getD run.input
    rw [hordered, ← houtputs, ← List.map_take, List.getLast?_map, h.input]

/-- What is known of a run and of all that was executed for it. -/
structure Traced (lang : Language) (live : Live) : Prop where
  inv : Inv service (Computed lang) ComputedTask ComputedExecution live
  kept : ∀ e ∈ live.history, Kept e.1 live.store

variable {live : Live}

theorem Traced.answered (h : Traced lang live) {outcome : Except Thrown JsonValue}
    {definition : Step} {attempt : ℤ} (ha : Answered lang live .go)
    (hcurrent : live.current = some (.settled i definition attempt outcome))
    (hthrough : Through live.store i) : outcome = .error (timedOut definition) ∨
      ∀ answer ∈ executeStep lang definition (inputAfter (live.store.outputs.take i) live.store.input definition),
        outcome = answer := by
  rcases ha i definition attempt outcome hcurrent with htimeout | ⟨started, hmem, hanswer⟩
  · exact .inl htimeout
  · right
    rwa [(h.kept _ hmem).stepInput_eq (h.inv.history _ hmem) hthrough] at hanswer

theorem Traced.delivers (h : Traced lang live) {t : Task} (ha : Answered lang live .go) (hcurrent : live.current = some t) :
    Delivers lang live.store t := by
  match t, hcurrent with
  | .settled i definition attempt (.ok output), hcurrent =>
    intro hthrough d hd answer hmem
    have hwork : UnderWay live.store i definition := (h.inv.current _ hcurrent).1
    obtain rfl := Option.some.inj (hwork.2.symm.trans hd)
    rcases h.answered ha hcurrent hthrough with htimeout | hanswer
    · cases htimeout
    · exact (hanswer answer hmem).symm
  | .settled _ _ _ (.error _), _ | .enter, _ | .loop, _ | .executing _ _ _, _ | .backoff _ _ _, _ | .retry _ _ _, _
  | .returned _, _ | .undo _, _ | .undoing _ _, _ | .undone _ _ _, _ | .leaving, _ => trivial

theorem Traced.step (h : Traced lang live) {a : RunAction} (ha : Answered lang live a) :
    Traced lang (Cooperative.step service live a) := by
  have hadmitted : Admitted service (fun _ _ _ ↦ True) (fun run _ t ↦ Delivers lang run t) live a := by
    cases a with
    | go => exact fun t ht ↦ h.delivers ha ht
    | call => exact fun _ ↦ trivial
    | resume | crash => trivial
  constructor
  · refine Inv.step ?_ ?_ ?_ h.inv hadmitted
    · intro run busy request hrun _
      obtain ⟨hstore, hstarted, hnext, hothers⟩ := hrun.call busy request
      exact ⟨hstore.1, hstarted, hnext, hothers⟩
    · intro run busy t hrun ht hdelivers _
      obtain ⟨hstore, hstarted, hnext, hothers⟩ := hrun.turn busy ht hdelivers
      exact ⟨hstore.1, hstarted, hnext, hothers⟩
    · intro run t outcome ht
      cases t <;> exact ⟨ht, rfl⟩
  · refine history_step Kept.refl (fun _ _ _ ↦ Kept.trans) h.kept ?_
    cases a with
    | call request =>
      simp only [Cooperative.step]
      split
      · exact (h.inv.store.call _ request).store.2
      · exact Kept.refl _
    | go =>
      simp only [Cooperative.step]
      split
      · exact Kept.refl _
      · rename_i t hcurrent
        exact (h.inv.store.turn _ (h.inv.current t hcurrent).1 (h.delivers ha hcurrent)).store.2
    | resume =>
      simp only [Cooperative.step]
      split <;> exact Kept.refl _
    | crash => exact Kept.refl _

theorem Traced.start {workflow : Workflow} (hsound : Sound workflow.steps) (input : JsonValue) (key : Option String)
    (projectId : JsonValue) (replayOf : Option ℕ) : Traced lang (.start (newRun workflow input key projectId replayOf)) := by
  have hat {i : ℕ} {step : RunStep} (hstep : (workflow.steps.map RunStep.of)[i]? = some step) :
      step.status = .pending ∧ step.noted = 0 := by
    rw [List.getElem?_map, Option.map_eq_some_iff] at hstep
    obtain ⟨definition, -, rfl⟩ := hstep
    exact ⟨rfl, rfl⟩
  have hpending {s : StepStatus} (hs : s ∈ (newRun workflow input key projectId replayOf).statuses) : s = .pending := by
    obtain ⟨step, hstep, rfl⟩ := List.mem_map.mp hs
    obtain ⟨i, hi⟩ := List.mem_iff_getElem?.mp hstep
    exact (hat hi).1
  have hnoted : weigh RunStep.noted (workflow.steps.map RunStep.of) = 0 := by
    rw [weigh, List.sum_eq_zero]
    intro n hn
    obtain ⟨step, hstep, rfl⟩ := List.mem_map.mp hn
    obtain ⟨i, hi⟩ := List.mem_iff_getElem?.mp hstep
    exact (hat hi).2
  refine ⟨⟨⟨?_, hsound.keys, ?_, ?_, ?_, ?_, ?_⟩, by simp [State.start], by simp [State.start], by simp [State.start],
    by simp [State.start]⟩, by simp [State.start]⟩
  · show (workflow.steps.map RunStep.of).map (·.key) = workflow.steps.map (·.key)
    rw [List.map_map]
    rfl
  · intro i j a b _ _ hb _
    rw [hpending (List.mem_of_getElem? hb)]
    rfl
  · intro i step hstep hthrough
    have hcompleted := hthrough i (by omega) step.status (statuses_eq_some.mpr ⟨step, hstep, rfl⟩)
    rw [(hat hstep).1] at hcompleted
    cases hcompleted
  · intro i step definition hstep _ hactive
    rw [(hat hstep).1] at hactive
    rcases hactive with hrunning | hcompleted
    · cases hrunning
    · cases hcompleted
  · show 1 + weigh RunStep.noted (workflow.steps.map RunStep.of) + 0 ≤ 1
    omega
  · show 1 ≤ 2000
    omega

theorem World.traced {actions : List WorldAction}
    (h : Along (World.step lang.toNumerals) (World.Allowed (Answered lang)) World.empty actions) :
    (after (World.step lang.toNumerals) World.empty actions).Keeps (Traced lang) :=
  World.keeps_after (fun _ input key projectId replayOf hsound ↦ Traced.start hsound input key projectId replayOf)
    (fun _ _ hlive ha ↦ hlive.step ha) h

end

end Noesar.Workflows
