import Noesar.Workflows.Compensation
import Noesar.Workflows.Computed

namespace Noesar.Workflows

open Lib Lib.Run Lib.Cooperative

/-- How many records of the evidence a step comes to that is completed at its first attempt. -/
def Step.notes (step : Step) : ℕ := 2 + if step.requiresApproval then 2 else 0

/-- A run that ended with every step completed, of which none calls a tool. -/
structure Replayable (lang : Language) (original : Run) : Prop where
  computed : Computed lang original
  sound : Sound original.definition.steps
  untooled : ∀ definition ∈ original.definition.steps, definition.type ≠ "tool_call"
  terminal : original.status.terminal = true
  completed : ∀ s ∈ original.statuses, s = .completed

/-- A run goes through the steps of another one, of which it has the definition and the input. -/
structure Follows (original run : Run) : Prop where
  definition : run.definition = original.definition
  input : run.input = original.input
  unrequested : run.cancellationRequested = false
  smooth : ∀ s ∈ run.statuses, s = .pending ∨ s = .awaitingApproval ∨ s = .running ∨ s = .completed
  asked : ∀ (i : ℕ) (step : RunStep) (definition : Step), run.steps[i]? = some step →
    run.definition.steps[i]? = some definition → step.status = .awaitingApproval ∨ step.approval.decision = some .approve →
      definition.requiresApproval = true
  undecided : ∀ step ∈ run.steps, step.status = .awaitingApproval → step.approval.decision ≠ some .approve
  spent : run.evidence.length ≤ 1 + weigh RunStep.noted run.steps + (if run.status.terminal then 1 else 0)
  ended : run.status.terminal = true → run.status = .completed ∧ ∀ s ∈ run.statuses, s = .completed

/-- Nothing is under way, and the run was not advanced yet, or asks for an approval, or is at its end. -/
structure Rests (lang : Language) (original run : Run) : Prop where
  computed : Computed lang run
  follows : Follows original run
  idle : .running ∉ run.statuses
  reason : run.status = .pending ∨ .awaitingApproval ∈ run.statuses ∨ run.status.terminal = true

def Stage (run : Run) : Task → Prop
  | .enter | .loop => .running ∉ run.statuses
  | .executing i definition _ | .settled i definition _ _ => UnderWay run i definition ∧ run.status.terminal = false
  | .returned (.ok ()) => .running ∉ run.statuses ∧ .awaitingApproval ∉ run.statuses
  | _ => False

structure Moves (lang : Language) (original run : Run) (t : Task) : Prop where
  computed : Computed lang run
  follows : Follows original run
  stage : Stage run t

def Encourages : Request → Prop
  | .advance => True
  | .decideApproval _ decision _ _ => decision = .approve
  | .cancelRun _ _ => False

def Succeeds (lang : Language) (run : Run) : Task → Prop
  | .settled i definition attempt outcome =>
    Delivers lang run (.settled i definition attempt outcome) ∧ ∃ output, outcome = .ok output
  | _ => True

variable {lang : Language} {original run run' : Run} {i : ℕ}

theorem executeStep_of_untooled {definition : Step} (h : definition.type ≠ "tool_call") (input : JsonValue) :
    ∃ answer, executeStep lang definition input = some answer := by
  unfold executeStep
  dsimp only
  split
  · exact ⟨_, rfl⟩
  · split
    · exact ⟨_, rfl⟩
    · split
      · exact ⟨_, rfl⟩
      · exact ⟨_, rfl⟩
      · exact ⟨_, rfl⟩
      · exact absurd ‹_› h
      · exact ⟨_, rfl⟩

theorem Computed.length (h : Computed lang run) : run.steps.length = run.definition.steps.length := by
  simpa using congrArg List.length h.keys

theorem Computed.definition_at (h : Computed lang run) {step : RunStep} (hstep : run.steps[i]? = some step) :
    ∃ definition, run.definition.steps[i]? = some definition ∧ definition.key = step.key := by
  have hat : (run.definition.steps.map (·.key))[i]? = some step.key := by
    rw [← h.keys, List.getElem?_map, hstep, Option.map_some]
  rwa [List.getElem?_map, Option.map_eq_some_iff] at hat

theorem Computed.find (h : Computed lang run) {step : RunStep} (hstep : run.steps[i]? = some step) :
    ∃ definition, run.definition.steps.find? (·.key = step.key) = some definition ∧ run.definition.steps[i]? = some definition := by
  obtain ⟨definition, hdefinition, hkey⟩ := h.definition_at hstep
  have hsome : (run.definition.steps.find? (·.key = step.key)).isSome = true := by
    rw [List.find?_isSome]
    exact ⟨definition, List.mem_of_getElem? hdefinition, decide_eq_true hkey⟩
  obtain ⟨found, hfound⟩ := Option.isSome_iff_exists.mp hsome
  exact ⟨found, hfound, h.of_find hstep hfound⟩

theorem Computed.evaluates (h : Computed lang run) (huntooled : ∀ d ∈ run.definition.steps, d.type ≠ "tool_call") {n : ℕ}
    (hthrough : Through run n) : Evaluates lang run.definition.steps run.input (run.outputs.take n) := by
  intro i output hi
  rw [List.getElem?_take] at hi
  split at hi
  · rename_i hlt
    rw [Run.outputs, List.getElem?_map, Option.map_eq_some_iff] at hi
    obtain ⟨step, hstep, rfl⟩ := hi
    obtain ⟨definition, hdefinition, -⟩ := h.definition_at hstep
    refine ⟨definition, hdefinition, ?_⟩
    rw [List.take_take, Nat.min_eq_left hlt.le]
    obtain ⟨answer, hanswer⟩ : ∃ answer, executeStep lang definition (inputAfter (run.outputs.take i) run.input definition) = some answer :=
      executeStep_of_untooled (huntooled definition (List.mem_of_getElem? hdefinition)) _
    rw [hanswer, h.yields i step hstep (hthrough.mono hlt) definition hdefinition answer hanswer]
  · cases hi

theorem Replayable.evaluates (h : Replayable lang original) :
    Evaluates lang original.definition.steps original.input original.outputs := by
  have htake := h.computed.evaluates h.untooled (n := original.outputs.length) fun j _ s hs ↦
    h.completed s (List.mem_of_getElem? hs)
  rwa [List.take_length] at htake

theorem Replayable.outputs_eq (h : Replayable lang original) (hrun : Computed lang run) (hfollows : Follows original run) {n : ℕ}
    (hn : n ≤ run.steps.length) (hthrough : Through run n) : run.outputs.take n = original.outputs.take n := by
  have hevaluates := hrun.evaluates (by rw [hfollows.definition]; exact h.untooled) hthrough
  rw [hfollows.definition, hfollows.input] at hevaluates
  have hlength : original.outputs.length = run.steps.length := by
    rw [Run.outputs, List.length_map, h.computed.length, hrun.length, hfollows.definition]
  have htake := hevaluates.take_eq h.evaluates (n := n) (by simpa [Run.outputs] using hn) (by omega)
  rwa [List.take_take, Nat.min_self] at htake

theorem Computed.forall₂ (h : Computed lang run) {P : RunStep → Step → Prop}
    (hp : ∀ (i : ℕ) step definition, run.steps[i]? = some step → run.definition.steps[i]? = some definition → P step definition) :
    List.Forall₂ P run.steps run.definition.steps := by
  rw [List.forall₂_iff_get]
  refine ⟨h.length, ?_⟩
  intro i hi hi'
  exact hp i _ _ (List.getElem?_eq_getElem hi) (List.getElem?_eq_getElem hi')

theorem Replayable.room (h : Replayable lang original) (hrun : Computed lang run) (hfollows : Follows original run)
    (hunfinished : run.status.terminal = false) : run.evidence.length < 2000 := by
  have hrun' : weigh RunStep.noted run.steps ≤ weigh Step.notes original.definition.steps := by
    rw [← hfollows.definition]
    apply weigh_le_of_forall₂
    apply hrun.forall₂
    intro i step definition hstep hdefinition
    have hasked := hfollows.asked i step definition hstep hdefinition
    unfold RunStep.noted Step.notes
    by_cases happroved : step.approval.decision = some .approve
    · rw [hasked (.inr happroved)]
      cases step.status <;> simp [happroved]
    · cases step.status <;> simp [happroved] <;> omega
  have horiginal : weigh Step.notes original.definition.steps ≤ weigh RunStep.noted original.steps := by
    apply weigh_le_of_forall₂
    apply List.Forall₂.flip
    apply h.computed.forall₂
    intro i step definition hstep hdefinition
    have hcompleted : step.status = .completed :=
      h.completed step.status (List.mem_map_of_mem (List.mem_of_getElem? hstep))
    have happroved := h.computed.approved i step definition hstep hdefinition (.inr hcompleted)
    show definition.notes ≤ step.noted
    unfold RunStep.noted Step.notes
    rw [hcompleted]
    by_cases hrequires : definition.requiresApproval = true
    · simp [hrequires, happroved hrequires]
    · simp [hrequires]
  have hnoted := h.computed.noted
  have hbounded := h.computed.bounded
  have hspent := hfollows.spent
  rw [if_pos h.terminal] at hnoted
  simp only [hunfinished, Bool.false_eq_true, if_false] at hspent
  omega

/-- What a transaction makes of a step that a run comes on with. -/
structure Advances (run : Run) (i : ℕ) (step step' : RunStep) : Prop where
  smooth : step'.status = .pending ∨ step'.status = .awaitingApproval ∨ step'.status = .running ∨ step'.status = .completed
  asked : step'.status = .awaitingApproval ∨ step'.approval.decision = some .approve →
    ∀ definition, run.definition.steps[i]? = some definition → definition.requiresApproval = true
  undecided : step'.status = .awaitingApproval → step'.approval.decision ≠ some .approve
  noted : step.noted + 1 ≤ step'.noted

theorem Follows.onStep (h : Follows original run) {status : RunStatus} {change : RunStep → RunStep} {event : Event}
    (htx : Workflows.onStep run i status change event = .ok run') (hunfinished : run.status.terminal = false)
    (hstatus : status.terminal = false) (hchange : ∀ step, run.steps[i]? = some step → Advances run i step (change step)) :
    Follows original run' := by
  obtain ⟨step, hstep, -, rfl⟩ := onStep_ok htx
  obtain ⟨hsmooth, hasked, hundecided, hnoted⟩ := hchange step hstep
  obtain ⟨hlt, -⟩ := List.getElem?_eq_some_iff.mp hstep
  refine ⟨h.definition, h.input, h.unrequested, ?_, ?_, ?_, ?_, ?_⟩
  · intro s (hs : s ∈ (run.steps.set i (change step)).map (·.status))
    rw [List.map_set] at hs
    rcases List.mem_or_eq_of_mem_set hs with hold | rfl
    · exact h.smooth s hold
    · exact hsmooth
  · intro k other definition hk hdefinition hs
    rw [List.getElem?_set] at hk
    split at hk
    · rename_i hki
      subst hki
      obtain rfl : change step = other := by simpa [hlt] using hk
      exact hasked hs definition hdefinition
    · exact h.asked k other definition hk hdefinition hs
  · intro other hother
    rcases List.mem_or_eq_of_mem_set hother with hold | rfl
    · exact h.undecided other hold
    · exact hundecided
  · have hset := weigh_set (c := RunStep.noted) (y := change step) hstep
    have hspent := h.spent
    simp only [hunfinished, Bool.false_eq_true, if_false] at hspent
    simp only [hstatus, Bool.false_eq_true, if_false, List.length_append, List.length_singleton]
    omega
  · intro hterminal
    rw [show _ = status.terminal from rfl, hstatus] at hterminal
    cases hterminal

theorem Follows.finish (h : Follows original run) (hall : ∀ s ∈ run.statuses, s = .completed)
    (hunfinished : run.status.terminal = false) (htx : finishRun run .completed none = .ok run') : Follows original run' := by
  obtain ⟨-, output, rfl⟩ := finishRun_ok htx
  refine ⟨h.definition, h.input, h.unrequested, h.smooth, h.asked, h.undecided, ?_, fun _ ↦ ⟨rfl, hall⟩⟩
  have hspent := h.spent
  simp only [hunfinished, Bool.false_eq_true, if_false] at hspent
  simp only [RunStatus.terminal, if_true, List.length_append, List.length_singleton]
  omega

theorem Follows.through (h : Follows original run) (hfirst : ∀ j < i, ∀ s, run.statuses[j]? = some s → s.unsettled = false) :
    Through run i := by
  intro j hj s hs
  have hsettled := hfirst j hj s hs
  rcases h.smooth s (List.mem_of_getElem? hs) with rfl | rfl | rfl | rfl
  · cases hsettled
  · cases hsettled
  · cases hsettled
  · rfl

theorem Follows.later (h : Follows original run) (horder : InOrder run.statuses) {j : ℕ} {a s : StepStatus} (hij : i < j)
    (hi : run.statuses[i]? = some a) (ha : a.unsettled = true) (hj : run.statuses[j]? = some s) : s = .pending := by
  have huntouched := horder i j a s hij hi hj ha
  rcases h.smooth s (List.mem_of_getElem? hj) with rfl | rfl | rfl | rfl
  · rfl
  · cases huntouched
  · cases huntouched
  · cases huntouched

section Turns

variable {history : List (Run × Execution)} {definition : Step}

abbrev Goes (lang : Language) (original : Run) (history : List (Run × Execution)) (outcome : Outcome) : Prop :=
  Turn.Leads service (fun run _ ↦ Rests lang original run) (fun run _ t ↦ Moves lang original run t) history outcome

theorem commit_ok {transaction : Except Thrown Run} {started : List Execution} {next thrown : Next Task}
    (h : transaction = .ok run') : commit run transaction started next thrown = ⟨run', started, next⟩ := by
  subst h
  rfl

theorem Replayable.begin (h : Replayable lang original) (hrun : Computed lang run) (hfollows : Follows original run)
    (hunfinished : run.status.terminal = false) {step : RunStep} (hstep : run.steps[i]? = some step)
    (hpending : step.status = .pending) (hdefinition : run.definition.steps[i]? = some definition)
    (hfirst : ∀ j < i, ∀ s, run.statuses[j]? = some s → s.unsettled = false)
    (hgate : definition.requiresApproval = true → step.approval.decision = some .approve) :
    Goes lang original history (beginAttempt run i definition 1) := by
  obtain ⟨run', htx⟩ : ∃ run', startAttempt run i definition 1 = .ok run' :=
    ⟨_, onStep_eq hstep (h.room hrun hfollows hunfinished)⟩
  obtain ⟨hafter, hwork⟩ := hrun.begin hstep (by rw [hpending]; rfl) hdefinition hfirst hgate htx
  have hfollows' := hfollows.onStep htx hunfinished rfl ?_
  · rw [beginAttempt, commit_ok htx]
    refine ⟨rfl, hafter.1, hfollows', hwork, ?_⟩
    show run'.status.terminal = false
    rw [(onStep_rest htx).1]
    rfl
  · intro other hother
    obtain rfl := Option.some.inj (hstep.symm.trans hother)
    refine ⟨by simp, ?_, nofun, by simp [RunStep.noted, hpending]⟩
    intro hs d hd
    refine hfollows.asked i step d hstep hd (.inr ?_)
    rcases hs with hs | hs
    · cases hs
    · exact hs

theorem Replayable.advanceStep (h : Replayable lang original) (hrun : Computed lang run) (hfollows : Follows original run)
    (hunfinished : run.status.terminal = false) (hidle : .running ∉ run.statuses)
    (hfound : (run.steps.findIdx? fun step ↦ step.status = .pending ∨ step.status = .awaitingApproval) = some i) :
    Goes lang original history (Workflows.advanceStep run i) := by
  obtain ⟨step, hstep, hopen, hclosed⟩ := first_open hfound
  obtain ⟨definition, hfind, hdefinition⟩ := hrun.find hstep
  have hi : run.statuses[i]? = some step.status := statuses_eq_some.mpr ⟨step, hstep, rfl⟩
  have hroom := h.room hrun hfollows hunfinished
  have hfirst : ∀ j < i, ∀ s, run.statuses[j]? = some s → s.unsettled = false := by
    intro j hj s hs
    have hmem := List.mem_of_getElem? hs
    rcases hfollows.smooth s hmem with rfl | rfl | rfl | rfl
    · exact absurd rfl (hclosed j hj _ hs).1
    · exact absurd rfl (hclosed j hj _ hs).2
    · exact absurd hmem hidle
    · rfl
  have hattempts : 1 ≤ definition.maxAttempts := by
    rw [hfollows.definition] at hdefinition
    exact (h.sound.steps definition (List.mem_of_getElem? hdefinition)).attempts.1
  unfold Workflows.advanceStep
  simp only [hstep, hfind, hattempts, if_true]
  split
  · rename_i hgate
    split
    · rename_i hawaiting
      exact ⟨hrun, hfollows, hidle, .inr (.inl (List.mem_of_getElem? (hawaiting ▸ hi)))⟩
    · rename_i hawaiting
      have hpending : step.status = .pending := hopen.resolve_right hawaiting
      obtain ⟨run', htx⟩ : ∃ run', awaitApproval run i = .ok run' := ⟨_, onStep_eq hstep hroom⟩
      have hset := onStep_statuses (b := .awaitingApproval) htx fun _ _ ↦ rfl
      have hafter := hrun.onStep htx (by simp [RunStatus.terminal]) ?_
      have hfollows' := hfollows.onStep htx hunfinished rfl ?_
      · rw [commit_ok htx]
        refine ⟨hafter.1, hfollows', ?_, .inr (.inl ?_)⟩
        · rw [hset]
          intro hmem
          rcases List.mem_or_eq_of_mem_set hmem with hold | hnew
          · exact hidle hold
          · cases hnew
        · rw [hset]
          exact List.mem_set (List.getElem?_eq_some_iff.mp hi).1 _
      · intro other hother
        obtain rfl := Option.some.inj (hstep.symm.trans hother)
        refine ⟨by simp, ?_, fun _ ↦ hgate.2, by simp [RunStep.noted, hpending]⟩
        intro _ d hd
        obtain rfl := Option.some.inj (hdefinition.symm.trans hd)
        exact hgate.1
      · intro other hother
        obtain rfl := Option.some.inj (hstep.symm.trans hother)
        refine ⟨rfl, ?_, fun _ ↦ hfirst, (fun h ↦ by cases h), by simp, by simp [RunStep.noted, hpending]; omega⟩
        rw [hpending]
        exact fun h ↦ by cases h
  · rename_i hgate
    have hgranted (hrequires : definition.requiresApproval = true) : step.approval.decision = some .approve := by
      by_contra hne
      exact hgate ⟨hrequires, hne⟩
    have hpending : step.status = .pending := by
      refine hopen.resolve_right ?_
      intro hawaiting
      exact hfollows.undecided step (List.mem_of_getElem? hstep) hawaiting
        (hgranted (hfollows.asked i step definition hstep hdefinition (.inl hawaiting)))
    exact h.begin hrun hfollows hunfinished hstep hpending hdefinition hfirst hgranted

theorem Replayable.advanceLoop (h : Replayable lang original) (hrun : Computed lang run) (hfollows : Follows original run)
    (hidle : .running ∉ run.statuses) : Goes lang original history (Workflows.advanceLoop run) := by
  unfold Workflows.advanceLoop
  split
  · rename_i hterminal
    exact ⟨hrun, hfollows, hidle, .inr (.inr hterminal)⟩
  · rename_i hunfinished
    rw [Bool.not_eq_true] at hunfinished
    rw [hfollows.unrequested]
    have hfind : run.steps.find? (·.status = .interrupted) = none := by
      rw [List.find?_eq_none]
      intro step hstep hstatus
      have hs := hfollows.smooth step.status (List.mem_map_of_mem hstep)
      rw [of_decide_eq_true hstatus] at hs
      simp at hs
    rw [hfind]
    dsimp only
    split
    · contradiction
    · split
      · rename_i hnone
        have hall : ∀ s ∈ run.statuses, s = .completed := by
          intro s hs
          obtain ⟨step, hstep, rfl⟩ := List.mem_map.mp hs
          have hnot := List.findIdx?_eq_none_iff.mp hnone step hstep
          rw [decide_eq_false_iff_not, not_or] at hnot
          rcases hfollows.smooth step.status hs with heq | heq | heq | heq
          · exact absurd heq hnot.1
          · exact absurd heq hnot.2
          · exact absurd (heq ▸ hs) hidle
          · exact heq
        obtain ⟨output, htx⟩ := finishRun_eq .completed none (h.room hrun hfollows hunfinished)
        rw [commit_ok htx]
        exact ⟨(hrun.finish htx).1, hfollows.finish hall hunfinished htx, hidle, .inr (.inr rfl)⟩
      · rename_i i hfound
        exact h.advanceStep hrun hfollows hunfinished hidle hfound

theorem Replayable.enterAdvance (hrun : Computed lang run) (hfollows : Follows original run) (hidle : .running ∉ run.statuses) :
    Goes lang original history (Workflows.enterAdvance run false) := by
  rw [Workflows.enterAdvance, if_neg Bool.false_ne_true, reconcile_still hidle]
  exact ⟨hrun, hfollows, hidle⟩

theorem Replayable.settle (h : Replayable lang original) (hrun : Computed lang run) (hfollows : Follows original run)
    {attempt : ℤ} {output : JsonValue} (hwork : UnderWay run i definition) (hunfinished : run.status.terminal = false)
    (hdelivers : Delivers lang run (.settled i definition attempt (.ok output))) :
    Goes lang original history (Workflows.settle run i definition attempt (.ok output)) := by
  obtain ⟨step, hstep, hrunning⟩ := statuses_eq_some.mp hwork.1
  obtain ⟨run', htx⟩ : ∃ run', completeAttempt run i attempt output = .ok run' :=
    ⟨_, onStep_eq hstep (h.room hrun hfollows hunfinished)⟩
  have hsettle : Workflows.settle run i definition attempt (.ok output) = ⟨run', [], .wait (.returned (.ok ()))⟩ := by
    rw [Workflows.settle, show (Except.ok output >>= completeAttempt run i attempt) = .ok run' from htx]
  rw [hsettle]
  obtain ⟨hafter, hidle⟩ := hrun.succeeds hwork hdelivers htx
  refine ⟨rfl, hafter.1, ?_, hidle, ?_⟩
  · refine hfollows.onStep htx hunfinished hunfinished ?_
    intro other hother
    obtain rfl := Option.some.inj (hstep.symm.trans hother)
    refine ⟨by simp, ?_, nofun, by simp [RunStep.noted, hrunning]⟩
    intro hs d hd
    refine hfollows.asked i step d hstep hd (.inr ?_)
    rcases hs with hs | hs
    · cases hs
    · exact hs
  · show .awaitingApproval ∉ run'.statuses
    rw [onStep_statuses (b := .completed) htx fun _ _ ↦ rfl]
    intro hmem
    obtain ⟨j, hj⟩ := List.mem_iff_getElem?.mp hmem
    rw [List.getElem?_set] at hj
    split at hj
    · split at hj <;> cases hj
    · rcases Nat.lt_or_gt_of_ne ‹i ≠ j› with hlt | hgt
      · cases hfollows.later hrun.order hlt hwork.1 rfl hj
      · cases hfollows.through (hrun.order.first hwork.1 rfl) j hgt _ hj

theorem Moves.turn (h : Replayable lang original) {t : Task} (hm : Moves lang original run t) (ht : Succeeds lang run t) :
    Goes lang original history (Workflows.turn run false t) := by
  obtain ⟨hrun, hfollows, hstage⟩ := hm
  cases t with
  | enter => exact Replayable.enterAdvance hrun hfollows hstage
  | loop => exact h.advanceLoop hrun hfollows hstage
  | settled =>
    obtain ⟨hdelivers, output, rfl⟩ := ht
    exact h.settle hrun hfollows hstage.1 hstage.2 hdelivers
  | returned outcome =>
    cases outcome with
    | error => cases hstage
    | ok => exact ⟨hrun, hfollows, hstage.1⟩
  | executing => exact ⟨rfl, hrun, hfollows, hstage⟩
  | backoff | retry | undo | undoing | undone | leaving => cases hstage

theorem Rests.call (hr : Rests lang original run) {request : Request} (hrequest : Encourages request) :
    Goes lang original history (Workflows.call run false request) := by
  obtain ⟨hrun, hfollows, hidle, hreason⟩ := hr
  cases request with
  | advance => exact Replayable.enterAdvance hrun hfollows hidle
  | cancelRun => exact absurd hrequest id
  | decideApproval i decision actorId reason =>
    obtain rfl : decision = .approve := hrequest
    simp only [Workflows.call]
    cases htx : decideApproval run i .approve actorId reason with
    | error => exact ⟨hrun, hfollows, hidle, hreason⟩
    | ok run' =>
      obtain ⟨hafter, hi, hset⟩ := hrun.decide htx
      obtain ⟨step, hstep, hawaiting⟩ := statuses_eq_some.mp hi
      have hunfinished : run.status.terminal = false := by
        cases hterminal : run.status.terminal with
        | false => rfl
        | true => cases (hfollows.ended hterminal).2 _ (List.mem_of_getElem? hi)
      simp only [decideApproval, bind_ok, demand_ok, require_ok, exists_unit] at htx
      obtain ⟨-, -, -, htx⟩ := htx
      refine ⟨hafter.1, hfollows.onStep htx hunfinished hunfinished ?_, ?_⟩
      · intro other hother
        obtain rfl := Option.some.inj (hstep.symm.trans hother)
        have hundecided := hfollows.undecided step (List.mem_of_getElem? hstep) hawaiting
        refine ⟨by simp, ?_, (fun h ↦ by cases h), by simp [RunStep.noted, hawaiting, hundecided]⟩
        intro _ d hd
        exact hfollows.asked i step d hstep hd (.inl hawaiting)
      · show .running ∉ run'.statuses
        rw [hset]
        intro hmem
        rcases List.mem_or_eq_of_mem_set hmem with hold | hnew
        · exact hidle hold
        · cases hnew

theorem Moves.refused {t : Task} (hm : Moves lang original run t) (hwaits : t.waits = true) {request : Request}
    (hrequest : Encourages request) : Workflows.call run t.advancing request = ⟨run, [], .done⟩ := by
  obtain ⟨hrun, hfollows, hstage⟩ := hm
  have hrefused {t : Task} (hadvancing : t.advancing = true) (hnone : .awaitingApproval ∉ run.statuses) :
      Workflows.call run t.advancing request = ⟨run, [], .done⟩ := by
    match request, hrequest with
    | .advance, _ =>
      rw [hadvancing]
      rfl
    | .decideApproval i .approve actorId reason, _ =>
      simp only [Workflows.call]
      cases htx : decideApproval run i .approve actorId reason with
      | error => rfl
      | ok => exact absurd htx (decide_refused hnone)
  cases t with
  | executing i =>
    refine hrefused rfl ?_
    intro hmem
    obtain ⟨j, hj⟩ := List.mem_iff_getElem?.mp hmem
    rcases Nat.lt_trichotomy i j with hlt | rfl | hgt
    · cases hfollows.later hrun.order hlt hstage.1.1 rfl hj
    · rw [hstage.1.1] at hj
      cases hj
    · cases hfollows.through (hrun.order.first hstage.1.1 rfl) j hgt _ hj
  | returned outcome =>
    cases outcome with
    | ok => exact hrefused rfl hstage.2
    | error => exact hstage.elim
  | backoff | undoing | leaving => exact hstage.elim
  | enter | loop | settled | retry | undo | undone => cases hwaits

end Turns

theorem Replayable.succeeds (h : Replayable lang original) {definition : Step} {attempt : ℤ} {outcome : Except Thrown JsonValue}
    (hm : Moves lang original run (.settled i definition attempt outcome))
    (hanswer : ∀ answer ∈ executeStep lang definition (inputAfter (run.outputs.take i) run.input definition), outcome = answer) :
    ∃ output, outcome = .ok output := by
  obtain ⟨hrun, hfollows, ⟨hrunning, hdefinition⟩, -⟩ := hm
  have hthrough := hfollows.through (hrun.order.first hrunning rfl)
  have hlt : i < run.steps.length := by
    simpa [Run.statuses] using (List.getElem?_eq_some_iff.mp hrunning).1
  have hlength : original.outputs.length = run.steps.length := by
    rw [Run.outputs, List.length_map, h.computed.length, hrun.length, hfollows.definition]
  have hat : original.outputs[i]? = some original.outputs[i] := List.getElem?_eq_getElem (by omega)
  obtain ⟨definition', hdefinition', hexecute⟩ := h.evaluates i _ hat
  rw [← hfollows.definition, hdefinition, Option.some.injEq] at hdefinition'
  subst hdefinition'
  rw [← h.outputs_eq hrun hfollows hlt.le hthrough, ← hfollows.input] at hexecute
  exact ⟨_, hanswer _ hexecute⟩

/-! ### Runs of the service -/

/-- A run is gone on with and never called off, no attempt of it runs into its timeout, and the service does not stop while
a call on it is under way. -/
def Undisturbed (live : Live) : RunAction → Prop
  | .call request => Encourages request
  | .go => ∀ i definition attempt outcome, live.current = some (.settled i definition attempt outcome) →
      outcome ≠ .error (timedOut definition)
  | .resume _ _ => True
  | .crash => live.current = none ∧ live.waiting = []

def Drives (lang : Language) (n : ℕ) (w : World) (a : WorldAction) : Prop :=
  w.Allowed (Answered lang) a ∧ ∀ live b, w.runs[n]? = some live → a.onRun n = some b → Undisturbed live b

/-- A run was advanced, no call on it is under way any more, and it asks for no approval. -/
structure AtEnd (live : Live) : Prop where
  current : live.current = none
  waiting : live.waiting = []
  advanced : live.store.status ≠ .pending
  granted : .awaitingApproval ∉ live.store.statuses

structure Reproduces (original run : Run) : Prop where
  status : run.status = .completed
  completed : ∀ step ∈ run.steps, step.status = .completed
  keys : run.steps.map (·.key) = original.steps.map (·.key)
  outputs : run.steps.map (·.output) = original.steps.map (·.output)

/-- A replay of the run at this place is one run more, beside runs that stay as they are, and it reproduces the original
where it is driven to its end. -/
def Replays (lang : Language) (w : World) (k : ℕ) (original : Run) : Prop :=
  ∃ replay : Run, World.step lang.toNumerals w (.replayRun k) = { w with runs := w.runs ++ [.start replay] } ∧
    ∀ later live, Along (World.step lang.toNumerals) (Drives lang w.runs.length) (World.step lang.toNumerals w (.replayRun k)) later →
      (after (World.step lang.toNumerals) (World.step lang.toNumerals w (.replayRun k)) later).runs[w.runs.length]? = some live →
        AtEnd live → Reproduces original live.store

section

variable {live : Live}

abbrev Comes (lang : Language) (original : Run) : Live → Prop :=
  Solo service (fun run _ ↦ Rests lang original run) (fun run _ t ↦ Moves lang original run t)

theorem Comes.step (hc : Comes lang original live) (h : Replayable lang original) (htraced : Traced lang live) {a : RunAction}
    (ha : Answered lang live a) (hundisturbed : Undisturbed live a) : Comes lang original (Cooperative.step service live a) := by
  refine Solo.steered (C := fun _ _ request ↦ Encourages request) (D := fun run _ t ↦ Succeeds lang run t)
    (fun _ _ _ hr hrequest ↦ hr.call hrequest) (fun _ _ _ _ hw hm hrequest ↦ hm.refused hw hrequest)
    (fun _ _ _ hm ht ↦ hm.turn h ht) ?_ hc ?_
  · intro run history t outcome ⟨hrun, hfollows, hstage⟩
    cases t <;> exact ⟨hrun, hfollows, hstage⟩
  · cases a with
    | call => exact hundisturbed
    | resume => trivial
    | crash => exact hundisturbed
    | go =>
      intro t hcurrent
      match t, hcurrent with
      | .settled i definition attempt outcome, hcurrent =>
        refine ⟨htraced.delivers ha hcurrent, ?_⟩
        cases hc with
        | idle | waiting => cases hcurrent
        | running hm =>
          obtain rfl := Option.some.inj hcurrent
          have hthrough := hm.follows.through (hm.computed.order.first hm.stage.1.1 rfl)
          rcases htraced.answered ha rfl hthrough with htimeout | hanswer
          · exact absurd htimeout (hundisturbed i definition attempt outcome rfl)
          · exact h.succeeds hm hanswer
      | .enter, _ | .loop, _ | .executing _ _ _, _ | .backoff _ _ _, _ | .retry _ _ _, _ | .returned _, _ | .undo _, _
      | .undoing _ _, _ | .undone _ _ _, _ | .leaving, _ => trivial

theorem Comes.reproduces (hc : Comes lang original live) (h : Replayable lang original) (hend : AtEnd live) :
    Reproduces original live.store := by
  obtain ⟨hcurrent, hwaiting, hadvanced, hgranted⟩ := hend
  cases hc with
  | running => cases hcurrent
  | waiting => cases hwaiting
  | idle hr =>
    rename_i run history
    obtain ⟨hrun, hfollows, -, hreason⟩ := hr
    have hterminal : run.status.terminal = true := (hreason.resolve_left hadvanced).resolve_left hgranted
    obtain ⟨hstatus, hall⟩ := hfollows.ended hterminal
    have houtputs := h.outputs_eq hrun hfollows le_rfl fun j _ s hs ↦ hall s (List.mem_of_getElem? hs)
    have hlength : original.outputs.length = run.steps.length := by
      rw [Run.outputs, List.length_map, h.computed.length, hrun.length, hfollows.definition]
    refine ⟨hstatus, fun step hstep ↦ hall _ (List.mem_map_of_mem hstep), ?_, ?_⟩
    · show run.steps.map (·.key) = original.steps.map (·.key)
      rw [hrun.keys, h.computed.keys, hfollows.definition]
    · rwa [← hlength, List.take_length, hlength, List.take_of_length_le (by simp [Run.outputs])] at houtputs

theorem Replayable.start (h : Replayable lang original) (workflow : Workflow) (projectId : JsonValue) (replayOf : Option ℕ)
    (hdefinition : original.definition = ⟨workflow.name, workflow.version, workflow.steps⟩) :
    Comes lang original (.start (newRun workflow original.input none projectId replayOf)) := by
  have hsound : Sound workflow.steps := by
    have horiginal := h.sound
    rwa [hdefinition] at horiginal
  have hpending {step : RunStep} (hstep : step ∈ workflow.steps.map RunStep.of) :
      step.status = .pending ∧ step.approval.decision = none := by
    obtain ⟨definition, -, rfl⟩ := List.mem_map.mp hstep
    exact ⟨rfl, rfl⟩
  have hstatuses {s : StepStatus} (hs : s ∈ (newRun workflow original.input none projectId replayOf).statuses) : s = .pending := by
    obtain ⟨step, hstep, rfl⟩ := List.mem_map.mp hs
    exact (hpending hstep).1
  refine .idle ⟨(Traced.start hsound original.input none projectId replayOf).inv.store, ⟨hdefinition.symm, rfl, rfl, ?_, ?_, ?_, ?_, nofun⟩, ?_,
    .inl rfl⟩
  · exact fun s hs ↦ .inl (hstatuses hs)
  · intro i step definition hstep _ hs
    obtain ⟨hstatus, hdecision⟩ := hpending (List.mem_of_getElem? hstep)
    rw [hstatus, hdecision] at hs
    rcases hs with hs | hs <;> cases hs
  · intro step hstep hs
    rw [(hpending hstep).1] at hs
    cases hs
  · show 1 ≤ 1 + weigh RunStep.noted (workflow.steps.map RunStep.of) + 0
    omega
  · intro hmem
    cases hstatuses hmem

end

theorem World.replayRun_eq {w : World} {k : ℕ} {live : Live} (hlive : w.runs[k]? = some live)
    (hterminal : live.store.status.terminal = true) : w.replayRun k = .ok (newRun
      ⟨live.store.workflowId, live.store.projectId, live.store.definition.name, "", live.store.definition.version,
        live.store.definition.steps, false⟩ live.store.input none live.store.projectId (some k)) := by
  simp only [replayRun, bind_ok, demand_ok, require_ok, exists_unit]
  exact ⟨live, hlive, hterminal, rfl⟩

/-- The replay of a run that was completed, without calls of tools, comes to the same outputs, whatever is done to the
workflow and to other runs. -/
theorem replay_reproduces (lang : Language) {actions : List WorldAction} {k : ℕ} {original : Live}
    (hactions : Along (World.step lang.toNumerals) (World.Allowed (Answered lang)) World.empty actions)
    (horiginal : (after (World.step lang.toNumerals) World.empty actions).runs[k]? = some original)
    (hfree : (after (World.step lang.toNumerals) World.empty actions).free = true)
    (huntooled : ∀ definition ∈ original.store.definition.steps, definition.type ≠ "tool_call")
    (hterminal : original.store.status.terminal = true) (hcompleted : ∀ step ∈ original.store.steps, step.status = .completed) :
    Replays lang (after (World.step lang.toNumerals) World.empty actions) k original.store := by
  have hkeeps := World.traced hactions
  generalize after (World.step lang.toNumerals) World.empty actions = w at *
  have hmem := List.mem_of_getElem? horiginal
  have h : Replayable lang original.store := by
    refine ⟨(hkeeps.runs original hmem).inv.store, hkeeps.definitions original hmem, huntooled, hterminal, ?_⟩
    intro s hs
    obtain ⟨step, hstep, rfl⟩ := List.mem_map.mp hs
    exact hcompleted step hstep
  have hstep : World.step lang.toNumerals w (.replayRun k) = w.add (newRun
      ⟨original.store.workflowId, original.store.projectId, original.store.definition.name, "", original.store.definition.version,
        original.store.definition.steps, false⟩ original.store.input none original.store.projectId (some k)) := by
    simp only [World.step, hfree, World.replayRun_eq horiginal hterminal]
  refine ⟨_, hstep, ?_⟩
  intro later live hlater hlive hend
  have hinvariant := hlater.invariant
    (I := fun w' ↦ w'.Keeps (Traced lang) ∧ ∃ live, w'.runs[w.runs.length]? = some live ∧ Comes lang original.store live) ?_ ?_
  · obtain ⟨-, live', hlive', hcomes⟩ := hinvariant
    obtain rfl := Option.some.inj (hlive.symm.trans hlive')
    exact hcomes.reproduces h hend
  · rintro w' a ⟨hkeeps', live', hlive', hcomes⟩ ⟨hallowed, hdrives⟩
    refine ⟨hkeeps'.step (fun _ input key projectId replayOf hsound ↦ Traced.start hsound input key projectId replayOf)
      (fun _ _ htraced ha ↦ htraced.step ha) hallowed, ?_⟩
    obtain ⟨next, hnext, hmoved⟩ := World.step_run lang.toNumerals hlive' hallowed
    refine ⟨next, hnext, ?_⟩
    rcases hmoved with rfl | ⟨b, hb, ha, rfl⟩
    · exact hcomes
    · exact hcomes.step h (hkeeps'.runs live' (List.mem_of_getElem? hlive')) ha (hdrives live' b hlive' hb)
  · refine ⟨hkeeps.step (fun _ input key projectId replayOf hsound ↦ Traced.start hsound input key projectId replayOf)
      (fun _ _ htraced ha ↦ htraced.step ha) (a := .replayRun k) trivial, ?_⟩
    rw [hstep]
    refine ⟨_, List.getElem?_concat_length, ?_⟩
    exact h.start _ _ _ rfl

/-! A workflow with a text and a step that needs an approval, which is archived before it is replayed. -/

def language : Language where
  toNumerals := numerals
  units text := text.toList.map fun c ↦ String.ofList [c]
  inherited name _ _ := .error (typeError name)

def answersText (live : Live) : Bool :=
  match live.current with
  | some (.settled i definition attempt outcome) => live.history.any fun e ↦ e.2 = .attempt i attempt &&
      match outcome, executeStep language definition (stepInput e.1 definition) with
      | .ok (.string s), some (.ok (.string t)) => s = t
      | _, _ => false
  | _ => true

def answersTexts (w : World) : WorldAction → Bool
  | .go k => w.runs[k]?.all answersText
  | _ => true

def drivesTexts (n : ℕ) (w : World) : WorldAction → Bool
  | .go k => w.runs[k]?.all answersText
  | .request k .advance => k = n
  | .request k (.decideApproval _ decision _ _) => k = n && decision = .approve
  | .resume k _ _ => k = n
  | _ => false

theorem answered_text {live : Live} (h : answersText live = true) : Answered language live .go ∧ Undisturbed live .go := by
  have hsettled {i : ℕ} {definition : Step} {attempt : ℤ} {outcome : Except Thrown JsonValue}
      (hcurrent : live.current = some (.settled i definition attempt outcome)) : ∃ s run, outcome = .ok (.string s) ∧
        (run, .attempt i attempt) ∈ live.history ∧
          executeStep language definition (stepInput run definition) = some (.ok (.string s)) := by
    rw [answersText, hcurrent, List.any_eq_true] at h
    obtain ⟨⟨run, execution⟩, hmem, heq⟩ := h
    rw [Bool.and_eq_true, decide_eq_true_eq] at heq
    obtain ⟨rfl, heq⟩ := heq
    split at heq
    · rename_i s t hexecute
      obtain rfl := of_decide_eq_true heq
      exact ⟨s, run, rfl, hmem, hexecute⟩
    · cases heq
  constructor
  · intro i definition attempt outcome hcurrent
    obtain ⟨s, run, rfl, hmem, hexecute⟩ := hsettled hcurrent
    refine .inr ⟨run, hmem, ?_⟩
    rw [hexecute]
    simp
  · intro i definition attempt outcome hcurrent
    obtain ⟨s, run, rfl, -, -⟩ := hsettled hcurrent
    exact nofun

theorem allowed_texts {w : World} {a : WorldAction} (h : answersTexts w a = true) : w.Allowed (Answered language) a := by
  cases a with
  | go =>
    intro live hlive
    rw [answersTexts, hlive] at h
    exact (answered_text h).1
  | define | createRun | replayRun => trivial
  | request | resume => exact fun _ _ _ ↦ trivial
  | crash => exact fun _ _ ↦ trivial

theorem drives_texts {n : ℕ} {w : World} {a : WorldAction} (h : drivesTexts n w a = true) : Drives language n w a := by
  cases a with
  | go =>
    refine ⟨allowed_texts h, ?_⟩
    intro live b hlive hb
    simp only [WorldAction.onRun] at hb
    split at hb
    · rename_i hk
      subst hk
      obtain rfl := Option.some.inj hb
      rw [drivesTexts, hlive] at h
      exact (answered_text h).2
    · cases hb
  | request k request =>
    refine ⟨fun _ _ _ ↦ trivial, ?_⟩
    intro live b _ hb
    simp only [WorldAction.onRun] at hb
    split at hb
    · obtain rfl := Option.some.inj hb
      cases request with
      | advance => trivial
      | decideApproval =>
        rw [drivesTexts, Bool.and_eq_true, decide_eq_true_eq, decide_eq_true_eq] at h
        exact h.2
      | cancelRun => cases h
    · cases hb
  | resume =>
    refine ⟨fun _ _ _ ↦ trivial, ?_⟩
    intro live b _ hb
    simp only [WorldAction.onRun] at hb
    split at hb
    · obtain rfl := Option.some.inj hb
      trivial
    · cases hb
  | define | createRun | replayRun | crash => cases h

def approvedText : JsonValue :=
  named [.object [("key", .string "a"), ("operation", .string "constant"), ("config", .object [("value", .string "x")])],
    .object [("key", .string "b"), ("type", .string "wait"), ("requiresApproval", .bool true)]]

def driven (k : ℕ) : List WorldAction :=
  [.request k .advance, .go k, .resume k 0 (.ok (.string "x")), .go k, .resume k 0 (.ok .null), .go k, .go k,
    .request k (.decideApproval 1 .approve "u" none), .go k, .go k, .resume k 0 (.ok (.string "x")), .go k,
    .resume k 0 (.ok .null), .go k, .go k]

def drivenAndArchived : List WorldAction :=
  [.define (.createWorkflow "w" approvedText none), .createRun "w" .null none .null] ++ driven 0 ++
    [.define (.updateWorkflow "w" (.object [("archived", .bool true)]) none)]

theorem replay_reproduces_approved : ∃ original live : Live,
    (after (World.step language.toNumerals) World.empty drivenAndArchived).runs[0]? = some original ∧
      (after (World.step language.toNumerals) World.empty (drivenAndArchived ++ .replayRun 0 :: driven 1)).runs[1]? = some live ∧
        Reproduces original.store live.store := by
  have hactions : Along (World.step language.toNumerals) (World.Allowed (Answered language)) World.empty drivenAndArchived := by
    have hchecked : Along (World.step language.toNumerals) (fun w a ↦ answersTexts w a = true) World.empty drivenAndArchived := by decide +kernel
    exact hchecked.mono fun _ _ ↦ allowed_texts
  have horiginal : (after (World.step language.toNumerals) World.empty drivenAndArchived).runs[0]?.any (fun live ↦
      live.store.status.terminal && live.store.steps.all (·.status = .completed) &&
        live.store.definition.steps.all (·.type ≠ "tool_call")) = true := by decide +kernel
  have hlength : (after (World.step language.toNumerals) World.empty drivenAndArchived).runs.length = 1 := by decide +kernel
  have hlive : (after (World.step language.toNumerals) World.empty (drivenAndArchived ++ .replayRun 0 :: driven 1)).runs[1]?.any (fun live ↦
      live.current.isNone && live.waiting.isEmpty && live.store.status ≠ .pending && .awaitingApproval ∉ live.store.statuses) =
        true := by decide +kernel
  rw [Option.any_eq_true] at horiginal hlive
  obtain ⟨original, horiginal, hfacts⟩ := horiginal
  obtain ⟨live, hlive, hend⟩ := hlive
  simp only [Bool.and_eq_true, decide_eq_true_eq, List.all_eq_true, Option.isNone_iff_eq_none, List.isEmpty_iff] at hfacts hend
  obtain ⟨⟨hterminal, hcompleted⟩, huntooled⟩ := hfacts
  obtain ⟨⟨⟨hcurrent, hwaiting⟩, hadvanced⟩, hgranted⟩ := hend
  obtain ⟨replay, -, hreplays⟩ := replay_reproduces language hactions horiginal (by decide +kernel) huntooled hterminal hcompleted
  refine ⟨original, live, horiginal, hlive, hreplays (driven 1) live ?_ ?_ ⟨hcurrent, hwaiting, hadvanced, hgranted⟩⟩
  · have hchecked : Along (World.step language.toNumerals) (fun w a ↦ drivesTexts 1 w a = true)
        (World.step language.toNumerals (after (World.step language.toNumerals) World.empty drivenAndArchived) (.replayRun 0)) (driven 1) := by
      decide +kernel
    rw [hlength]
    exact hchecked.mono fun _ _ ↦ drives_texts
  · have happend := after_append (World.step language.toNumerals) World.empty drivenAndArchived (.replayRun 0 :: driven 1)
    rw [happend, after_cons] at hlive
    rw [hlength]
    exact hlive

end Noesar.Workflows
