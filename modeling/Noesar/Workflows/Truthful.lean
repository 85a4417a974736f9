import Noesar.Workflows.Progress

namespace Noesar.Workflows

open Lib Lib.Run Lib.Cooperative

variable {run run' : Run} {i : ℕ}

theorem GoesOn.not_interrupted (h : GoesOn run) : .interrupted ∉ run.statuses := by
  intro hmem
  obtain ⟨step, hstep, hstatus⟩ := List.mem_map.mp hmem
  exact h.uninterrupted step hstep hstatus

theorem GoesOn.not_fallen (h : GoesOn run) (hstray : ¬Strays run) (hroom : run.evidence.length < 2000)
    (hnext : ∀ i, (run.steps.findIdx? fun step ↦ step.status = .pending ∨ step.status = .awaitingApproval) = some i →
      ∃ step definition, run.steps[i]? = some step ∧ run.definition.steps.find? (·.key = step.key) = some definition ∧
        (definition.requiresApproval = true → step.approval.decision = some .approve) ∧ 1 ≤ definition.maxAttempts) :
    ¬(.failed ∈ run.statuses ∨ .rejected ∈ run.statuses) :=
  fun hfallen ↦ hstray ⟨h.unfinished, h.unrequested, h.not_interrupted, hfallen, hroom, hnext⟩

theorem Progress.settled (h : Progress run) (hgoes : GoesOn run) (hrunning : .running ∉ run.statuses)
    (hfallen : ¬(.failed ∈ run.statuses ∨ .rejected ∈ run.statuses)) {s : StepStatus} (hs : s ∈ run.statuses) :
    s = .pending ∨ s = .awaitingApproval ∨ s = .completed := by
  cases s with
  | pending => exact .inl rfl
  | awaitingApproval => exact .inr (.inl rfl)
  | completed => exact .inr (.inr rfl)
  | running => exact absurd hs hrunning
  | failed => exact absurd (.inl hs) hfallen
  | rejected => exact absurd (.inr hs) hfallen
  | cancelled => exact absurd hs (h.cancelled hgoes.unrequested)
  | interrupted => exact absurd hs hgoes.not_interrupted

theorem Progress.unrejected (h : Progress run) (hfallen : ¬(.failed ∈ run.statuses ∨ .rejected ∈ run.statuses)) :
    run.evidence.any (·.event.isRejection) = false := by
  cases hany : run.evidence.any (·.event.isRejection) with
  | false => rfl
  | true => exact absurd (.inr (h.rejection hany)) hfallen

theorem Progress.uncancelled (h : Progress run) (hrequested : run.cancellationRequested = false) :
    run.evidence.any (·.event.isCancellation) = false := by
  cases hany : run.evidence.any (·.event.isCancellation) with
  | false => rfl
  | true =>
    rw [h.cancellation hany] at hrequested
    cases hrequested

theorem Progress.completes (h : Progress run) (hrunning : .running ∉ run.statuses) (hstray : ¬Strays run) (hgoes : GoesOn run)
    (hnone : (run.steps.findIdx? fun step ↦ step.status = .pending ∨ step.status = .awaitingApproval) = none)
    {error : Option String} (htx : finishRun run .completed error = .ok run') : Progress run' := by
  have hfallen := hgoes.not_fallen hstray (finishRun_ok htx).1 fun k hk ↦ by rw [hnone] at hk; cases hk
  refine h.complete htx ?_
  intro s hs
  obtain ⟨step, hstep, rfl⟩ := List.mem_map.mp hs
  have hnot := List.findIdx?_eq_none_iff.mp hnone step hstep
  rw [decide_eq_false_iff_not, not_or] at hnot
  rcases h.settled hgoes hrunning hfallen hs with heq | heq | heq
  · exact absurd heq hnot.1
  · exact absurd heq hnot.2
  · exact heq

section Attempts

variable {definition : Step} {attempt : ℤ}

theorem Progress.starts (h : Progress run) {a : StepStatus} (hi : run.statuses[i]? = some a) (ha : a.unsettled = true)
    (hrequested : run.cancellationRequested = false)
    (hearlier : ∀ j < i, ∀ s, run.statuses[j]? = some s → s = .completed)
    (haccepted : run.evidence.any (·.event.isRejection) = false) (htx : startAttempt run i definition attempt = .ok run') :
    Progress run' ∧ Reached run' i ∧ ProgressExecution run' (.attempt i attempt) := by
  have hfirst : ∀ j < i, ∀ s, run.statuses[j]? = some s → s.unsettled = false := by
    intro j hj s hs
    rw [hearlier j hj s hs]
    rfl
  obtain ⟨hprogress, hset⟩ := h.onStep (b := .running) htx hi ha hfirst (fun _ _ ↦ rfl) (by simp) (by simp)
    (by simp [Event.isRejection]) rfl
  have hr : Reached run' i := by
    refine ⟨?_, ?_, ?_⟩
    · rw [hset, List.getElem?_set_self (List.getElem?_eq_some_iff.mp hi).1]
    · intro j hj s hs
      rw [hset, List.getElem?_set_ne (by omega)] at hs
      exact hearlier j hj s hs
    · rw [onStep_any htx Event.isRejection, haccepted]
      rfl
  refine ⟨hprogress, hr, hr, ?_⟩
  rw [onStep_any htx Event.isCancellation, h.uncancelled hrequested]
  rfl

theorem Progress.begins (h : Progress run) (hrunning : .running ∉ run.statuses) (hstray : ¬Strays run) {step : RunStep}
    (honto : OnTo run i step) (hfound : run.definition.steps.find? (·.key = step.key) = some definition)
    (hgate : definition.requiresApproval = true → step.approval.decision = some .approve)
    (hattempts : 1 ≤ definition.maxAttempts) (htx : startAttempt run i definition attempt = .ok run') :
    Progress run' ∧ Reached run' i ∧ ProgressExecution run' (.attempt i attempt) := by
  obtain ⟨-, -, hroom, -⟩ := onStep_ok htx
  have hfallen := honto.not_fallen hstray hroom fun k hk ↦ by
    obtain rfl := Option.some.inj (honto.found.symm.trans hk)
    exact ⟨step, definition, honto.step, hfound, hgate, hattempts⟩
  refine h.starts (statuses_eq_some.mpr ⟨step, honto.step, rfl⟩) honto.unsettled honto.unrequested ?_ (h.unrejected hfallen) htx
  intro j hj s hs
  have hsettled := honto.first hrunning j hj s hs
  rcases h.settled honto.toGoesOn hrunning hfallen (List.mem_of_getElem? hs) with rfl | rfl | rfl
  · cases hsettled
  · cases hsettled
  · rfl

theorem Progress.succeeds (h : Progress run) (hr : Reached run i) {output : JsonValue}
    (htx : completeAttempt run i attempt output = .ok run') : Progress run' ∧ .running ∉ run'.statuses := by
  obtain ⟨hprogress, hset⟩ := h.onStep (b := .completed) htx hr.running rfl (h.order.first hr.running rfl) (fun _ _ ↦ rfl)
    (by simp) id (by simp [Event.isRejection]) rfl
  exact ⟨hprogress, h.order.not_running hr.running (by simp) hset⟩

theorem Progress.fails (h : Progress run) (hr : Reached run i) {error : Thrown} {willRetry : Bool}
    (htx : failAttempt run i attempt error willRetry = .ok run') : Progress run' ∧ (willRetry = true → Reached run' i) := by
  cases willRetry with
  | true =>
    have hq := Quiet.onStep htx id (fun _ ↦ rfl) rfl rfl
    exact ⟨hq.progress h, fun _ ↦ hq.reached hr⟩
  | false =>
    obtain ⟨hprogress, -⟩ := h.onStep (b := .failed) htx hr.running rfl (h.order.first hr.running rfl) (fun _ _ ↦ rfl)
      (by simp) id (by simp [Event.isRejection]) rfl
    exact ⟨hprogress, fun h ↦ by cases h⟩

end Attempts

theorem Progress.rules : Rules Progress (fun _ ↦ Progress) ProgressTask ProgressExecution fun run t ↦ t = .loop → ¬Strays run where
  refl h := h
  free {_ t} h := by
    cases t with
    | enter | undo | undoing | undone | leaving => trivial
    | returned outcome =>
      cases outcome with
      | ok => cases h
      | error => trivial
    | loop | executing | settled | backoff | retry => cases h
  loop h := h
  compensation := trivial
  reconciled h htx := h.reconcile htx
  completed h hrunning hstray hgoes hnone htx := h.completes hrunning (hstray rfl) hgoes hnone htx
  ended h hstatus htx := ⟨(Quiet.finish htx hstatus).progress h, fun _ ht ↦ (Quiet.finish htx hstatus).task ht⟩
  asked h hrunning honto _ htx :=
    (h.onStep (b := .awaitingApproval) htx (statuses_eq_some.mpr ⟨_, honto.step, rfl⟩) honto.unsettled (honto.first hrunning)
      (fun _ _ ↦ rfl) (by simp) (by simp) (by simp [Event.isRejection]) rfl).1
  begun h hrunning hstray honto hfound hgate hattempts htx :=
    h.begins hrunning (hstray rfl) honto hfound hgate hattempts htx
  again h hr hrequested htx := h.starts hr.running rfl hrequested hr.earlier hr.accepted htx
  succeeded h hr _ htx := h.succeeds hr htx
  failed h hr htx := by
    obtain ⟨hprogress, hreached⟩ := h.fails hr htx
    exact ⟨hprogress, fun hagain ↦ ⟨hreached (decide_eq_true hagain), hreached (decide_eq_true hagain)⟩⟩
  marked h htx := by
    rcases htx with ⟨output, htx⟩ | ⟨error, htx⟩ <;>
      have hq := Quiet.onStep htx id (fun _ ↦ rfl) rfl rfl <;>
      exact ⟨hq.progress h, fun _ ht ↦ hq.task ht⟩

def OnCourse : Live → RunAction → Prop :=
  Admitted service (fun _ _ _ ↦ True) fun run _ t ↦ t = .loop → ¬Strays run

def StepStatus.fallen : StepStatus → Bool
  | failed | rejected | cancelled | interrupted => true
  | pending | awaitingApproval | running | completed => false

structure Truthful (live : Live) : Prop where
  completed : live.store.status = .completed → ∀ step ∈ live.store.steps, step.status = .completed
  started : ∀ run i attempt, (run, .attempt i attempt) ∈ live.history →
    (∀ j < i, ∀ step, run.steps[j]? = some step → step.status.fallen = false) ∧
      ∀ e ∈ run.evidence, e.event.isRejection = false ∧ e.event.isCancellation = false

abbrev Steady : Live → Prop := Inv service Progress ProgressTask ProgressExecution

variable {live : Live}

theorem Steady.step (h : Steady live) {a : RunAction} (ha : OnCourse live a) :
    Steady (Cooperative.step service live a) := by
  refine Inv.step ?_ ?_ ?_ h ha
  · intro run busy request hprogress _
    exact Progress.rules.call hprogress (fun htx ↦ ⟨(hprogress.decide htx).1, fun _ ht ↦ ht.decide hprogress htx⟩)
      (fun htx ↦ ⟨hprogress.cancel htx, fun _ ht ↦ ht.cancel htx⟩) request
  · intro run busy t hprogress ht hstray _
    exact Progress.rules.turn hprogress ht hstray
  · intro run t outcome ht
    cases t <;> exact ⟨ht, rfl⟩

theorem Steady.start (workflow : Workflow) (input : JsonValue) (key : Option String) (projectId : JsonValue)
    (replayOf : Option ℕ) : Steady (.start (newRun workflow input key projectId replayOf)) := by
  have hpending : ∀ s ∈ (newRun workflow input key projectId replayOf).statuses, s = .pending := by
    intro s hs
    simp only [Run.statuses, newRun, List.map_map, List.mem_map] at hs
    obtain ⟨step, -, rfl⟩ := hs
    rfl
  refine ⟨⟨?_, ?_, ?_, ?_, ?_⟩, by simp [State.start], by simp [State.start], by simp [State.start], by simp [State.start]⟩
  · intro i j a b _ _ hb _
    rw [hpending b (List.mem_of_getElem? hb)]
    rfl
  · intro hcompleted
    cases hcompleted
  · intro _ hmem
    cases hpending _ hmem
  · intro hany
    simp [State.start, newRun, Event.isRejection] at hany
  · intro hany
    simp [State.start, newRun, Event.isCancellation] at hany

theorem Steady.truthful (h : Steady live) : Truthful live := by
  constructor
  · intro hcompleted step hstep
    exact h.store.completed hcompleted step.status (List.mem_map_of_mem hstep)
  · intro run i attempt hmem
    obtain ⟨hreached, hcancellation⟩ := h.history _ hmem
    constructor
    · intro j hj step hstep
      rw [hreached.earlier j hj step.status (statuses_eq_some.mpr ⟨step, hstep, rfl⟩)]
      rfl
    · intro e he
      exact ⟨by simpa using List.any_eq_false.mp hreached.accepted e he, by simpa using List.any_eq_false.mp hcancellation e he⟩

theorem Strays.advanceLoop (h : Strays run) (hp : Progress run) :
    ((Workflows.advanceLoop run).store.status = .completed ∧
      ∃ step ∈ (Workflows.advanceLoop run).store.steps, step.status ≠ .completed) ∨
    ∃ i j step, .attempt i 1 ∈ (Workflows.advanceLoop run).started ∧ j < i ∧
      (Workflows.advanceLoop run).store.steps[j]? = some step ∧ step.status.fallen = true := by
  obtain ⟨hunfinished, hrequested, hinterrupted, hfallen, hroom, hnext⟩ := h
  obtain ⟨j, bad, hj, hbad⟩ : ∃ (j : ℕ) (bad : RunStep), run.steps[j]? = some bad ∧
      (bad.status = .failed ∨ bad.status = .rejected) := by
    rcases hfallen with hmem | hmem <;> obtain ⟨j, hj⟩ := List.mem_iff_getElem?.mp hmem <;>
      obtain ⟨bad, hbad, hstatus⟩ := statuses_eq_some.mp hj
    · exact ⟨j, bad, hbad, .inl hstatus⟩
    · exact ⟨j, bad, hbad, .inr hstatus⟩
  have hclosed : bad.status.fallen = true ∧ bad.status.untouched = false ∧ bad.status ≠ .completed ∧
      ¬(bad.status = .pending ∨ bad.status = .awaitingApproval) := by
    rcases hbad with heq | heq <;> rw [heq] <;> simp [StepStatus.fallen, StepStatus.untouched]
  obtain ⟨hbadly, huntouched, huncompleted, hnotopen⟩ := hclosed
  have hfind : run.steps.find? (·.status = .interrupted) = none := by
    rw [List.find?_eq_none]
    intro step hstep hstatus
    exact hinterrupted (List.mem_map.mpr ⟨step, hstep, of_decide_eq_true hstatus⟩)
  unfold Workflows.advanceLoop
  rw [if_neg (by simpa using hunfinished), if_neg (by simpa using hrequested), hfind]
  dsimp only
  split
  · left
    obtain ⟨output, htx⟩ := finishRun_eq .completed none hroom
    rw [htx]
    exact ⟨rfl, bad, List.mem_of_getElem? hj, huncompleted⟩
  · rename_i i hfound
    right
    obtain ⟨step, definition, hstep, hdefinition, hgate, hattempts⟩ := hnext i hfound
    have hopen : step.status = .pending ∨ step.status = .awaitingApproval := by
      obtain ⟨other, hother, hopen, -⟩ := first_open hfound
      obtain rfl := Option.some.inj (hstep.symm.trans hother)
      exact hopen
    have hlt : j < i := by
      rcases Nat.lt_trichotomy j i with hlt | rfl | hgt
      · exact hlt
      · rw [hstep] at hj
        cases hj
        exact absurd hopen hnotopen
      · have hunsettled : step.status.unsettled = true := by
          rcases hopen with heq | heq <;> rw [heq] <;> rfl
        have hafter := hp.order i j _ _ hgt (statuses_eq_some.mpr ⟨_, hstep, rfl⟩) (statuses_eq_some.mpr ⟨_, hj, rfl⟩) hunsettled
        exact absurd hafter (by simp [huntouched])
    have hgate' : ¬(definition.requiresApproval = true ∧ step.approval.decision ≠ some .approve) :=
      fun hno ↦ hno.2 (hgate hno.1)
    simp only [Workflows.advanceStep, hstep, hdefinition]
    rw [if_neg hgate', if_pos hattempts, Workflows.beginAttempt, startAttempt, onStep_eq hstep hroom]
    refine ⟨i, j, bad, List.mem_singleton_self _, hlt, ?_, hbadly⟩
    show (run.steps.set i _)[j]? = some bad
    rw [List.getElem?_set_ne (by omega), hj]

theorem Strays.untruthful (h : Strays run) (hp : Progress run) : ¬Truthful (live.take (Workflows.advanceLoop run)) := by
  intro htruthful
  rcases h.advanceLoop hp with ⟨hstatus, step, hstep, hnot⟩ | ⟨i, j, step, hstarted, hlt, hstep, hfallen⟩
  · exact hnot (htruthful.completed hstatus step hstep)
  · have hentry : (_, .attempt i 1) ∈ (live.take (Workflows.advanceLoop run)).history :=
      List.mem_append_right _ (List.mem_map.mpr ⟨_, hstarted, rfl⟩)
    rw [(htruthful.started _ i 1 hentry).1 j hlt step hstep] at hfallen
    cases hfallen

theorem Steady.onCourse (h : Steady live) {a : RunAction} (htruthful : Truthful (Cooperative.step service live a)) :
    OnCourse live a := by
  cases a with
  | call => exact fun _ ↦ trivial
  | go =>
    rintro t hcurrent rfl hstrays
    rw [Cooperative.step, hcurrent] at htruthful
    exact hstrays.untruthful h.store htruthful
  | resume | crash => trivial

/-- Every run claims no more than happened, whatever is asked of it and however it crashes, exactly if no advance
comes to its loop with a run that strays. -/
theorem truthful_iff (ns : Numerals) (actions : List WorldAction) :
    (∀ n, ∀ live ∈ (after (World.step ns) World.empty (actions.take n)).runs, Truthful live) ↔
      Along (World.step ns) (World.Allowed OnCourse) World.empty actions := by
  refine (Along.iff_forall_take (I := World.Keeps Steady) (P := fun w ↦ ∀ live ∈ w.runs, Truthful live)
    ?_ ?_ ?_ World.keeps_empty actions).symm
  · intro w a hw ha
    refine hw.step ?_ (fun _ _ h hc ↦ h.step hc) ha
    intro workflow input key projectId replayOf _
    exact Steady.start workflow input key projectId replayOf
  · intro w hw live hlive
    exact (hw.runs live hlive).truthful
  · intro w a hw htruthful
    exact hw.allowed (fun _ _ h ↦ h.onCourse) htruthful

def twoSteps : JsonValue :=
  named [.object [("key", .string "a"), ("type", .string "host_mutation"), ("requiresApproval", .bool false)],
    .object [("key", .string "b")]]

def notExecutable : Thrown :=
  ⟨"Step type \"host_mutation\" is not executable in this build; it is owned by the execution layer " ++
    "(not present in this build: executionEnabled=false).", some 501⟩

def failedAndStopped : List WorldAction :=
  [.define (.createWorkflow "w" twoSteps none), .createRun "w" .null none .null, .request 0 .advance, .go 0,
    .resume 0 0 (.error notExecutable), .go 0, .crash, .request 0 .advance, .go 0]

theorem failed_step_passed : ¬∀ n, ∀ live ∈ (after (World.step numerals) World.empty (failedAndStopped.take n)).runs,
    Truthful live := by
  intro h
  have hruns : (after (World.step numerals) World.empty failedAndStopped).runs.map
      (fun live ↦ live.history.map fun e ↦ (e.1.statuses, e.2)) =
        [[([.running, .pending], .attempt 0 1), ([.failed, .running], .attempt 1 1)]] := by decide +kernel
  obtain ⟨live, hlive, hhistory⟩ := List.map_eq_singleton_iff.mp hruns
  have htruthful : Truthful live := h failedAndStopped.length live (by simp [hlive])
  have hmem : ([.failed, .running], .attempt 1 1) ∈ live.history.map fun e ↦ (e.1.statuses, e.2) := by
    rw [hhistory]
    simp
  obtain ⟨⟨run, execution⟩, hentry, heq⟩ := List.mem_map.mp hmem
  rw [Prod.mk.injEq] at heq
  obtain ⟨hstatuses, rfl⟩ := heq
  obtain ⟨step, hstep, hfailed⟩ := statuses_eq_some.mp (show run.statuses[0]? = some .failed by rw [hstatuses]; rfl)
  have hfallen := (htruthful.started run 1 1 hentry).1 0 (by omega) step hstep
  rw [hfailed] at hfallen
  cases hfallen

end Noesar.Workflows
