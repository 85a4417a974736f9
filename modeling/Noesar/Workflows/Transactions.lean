import Noesar.Workflows.Run

namespace Noesar.Workflows

open Lib Lib.Cooperative

variable {run run' : Run} {i : ℕ}

theorem record_ok {entries : List Evidence} (h : record run entries = .ok run') :
    run.evidence.length + entries.length ≤ 2000 ∧ run' = { run with evidence := run.evidence ++ entries } := by
  rw [record, List.length_append] at h
  split at h
  · cases h
  · cases h
    exact ⟨by omega, rfl⟩

theorem record_eq {entries : List Evidence} (h : run.evidence.length + entries.length ≤ 2000) :
    record run entries = .ok { run with evidence := run.evidence ++ entries } := by
  rw [record, List.length_append, if_neg (by omega)]

theorem onStep_ok {status : RunStatus} {change : RunStep → RunStep} {event : Event}
    (h : onStep run i status change event = .ok run') : ∃ step, run.steps[i]? = some step ∧
      run.evidence.length < 2000 ∧ run' = { run with
        status := status
        steps := run.steps.set i (change step)
        evidence := run.evidence ++ [⟨some step.key, event⟩] } := by
  rw [onStep, bind_ok] at h
  obtain ⟨step, hstep, h⟩ := h
  obtain ⟨hroom, rfl⟩ := record_ok h
  exact ⟨step, demand_ok.mp hstep, hroom, rfl⟩

theorem onStep_eq {status : RunStatus} {change : RunStep → RunStep} {event : Event} {step : RunStep}
    (hstep : run.steps[i]? = some step) (hroom : run.evidence.length < 2000) :
    onStep run i status change event = .ok { run with
      status := status
      steps := run.steps.set i (change step)
      evidence := run.evidence ++ [⟨some step.key, event⟩] } := by
  rw [onStep, bind_ok]
  exact ⟨step, demand_ok.mpr hstep, record_eq hroom⟩

theorem reconcileInterrupted_ok (h : reconcileInterrupted run = .ok run') :
    (∀ step ∈ run.steps, step.status ≠ .running) ∧ run' = run ∨
      run.evidence.length < 2000 ∧ ∃ entries : List Evidence, (∀ e ∈ entries, e.event = .interrupted) ∧
        run' = { run with steps := run.steps.map interruptStep, evidence := run.evidence ++ entries } := by
  rw [reconcileInterrupted] at h
  split at h
  · rename_i hrunning
    right
    obtain ⟨hroom, rfl⟩ := record_ok h
    refine ⟨?_, _, ?_, rfl⟩
    · obtain ⟨step, hstep, hstatus⟩ := List.any_eq_true.mp hrunning
      have hpos : 0 < (run.steps.filter (·.status = .running)).length :=
        List.length_pos_of_mem (List.mem_filter.mpr ⟨hstep, hstatus⟩)
      simp only [List.length_map] at hroom
      omega
    · intro e he
      obtain ⟨step, -, rfl⟩ := List.mem_map.mp he
      rfl
  · rename_i hnone
    cases h
    left
    refine ⟨?_, rfl⟩
    intro step hstep hstatus
    exact hnone (List.any_eq_true.mpr ⟨step, hstep, decide_eq_true hstatus⟩)

theorem finishRun_ok {status : RunStatus} {error : Option String} (h : finishRun run status error = .ok run') :
    run.evidence.length < 2000 ∧ ∃ output, run' = { run with
      status := status
      error := error
      output := output
      evidence := run.evidence ++ [⟨none, .finished status error⟩] } := by
  obtain ⟨hroom, rfl⟩ := record_ok h
  exact ⟨hroom, _, rfl⟩

theorem finishRun_eq (status : RunStatus) (error : Option String) (hroom : run.evidence.length < 2000) :
    ∃ output, finishRun run status error = .ok { run with
      status := status
      error := error
      output := output
      evidence := run.evidence ++ [⟨none, .finished status error⟩] } :=
  ⟨_, record_eq hroom⟩

theorem decideApproval_ok {decision : Decision} {actorId : String} {reason : Option String}
    (h : decideApproval run i decision actorId reason = .ok run') : ∃ step, run.steps[i]? = some step ∧
      step.status = .awaitingApproval ∧ run.evidence.length < 2000 ∧ run' = { run with
        status := if decision = .reject then .rejecting else run.status
        steps := run.steps.set i { step with
          approval := ⟨true, some decision, some actorId, reason⟩
          status := if decision = .approve then .pending else .rejected }
        evidence := run.evidence ++ [⟨some step.key, .decided decision actorId reason⟩] } := by
  simp only [decideApproval, bind_ok, demand_ok, require_ok, exists_unit] at h
  obtain ⟨step, hstep, hstatus, h⟩ := h
  obtain ⟨step', hstep', hroom, rfl⟩ := onStep_ok h
  obtain rfl := Option.some.inj (hstep.symm.trans hstep')
  exact ⟨step, hstep, hstatus, hroom, rfl⟩

theorem cancelRun_ok {reason actorId : String} (h : cancelRun run reason actorId = .ok run') :
    run.status.terminal = false ∧ run.evidence.length < 2000 ∧ run' = { run with
      cancellationRequested := true
      status := .cancelling
      steps := run.steps.map cancelStep
      evidence := run.evidence ++ [⟨none, .cancellationRequested reason actorId⟩] } := by
  simp only [cancelRun, bind_ok, require_ok, exists_unit] at h
  obtain ⟨hstatus, h⟩ := h
  obtain ⟨hroom, rfl⟩ := record_ok h
  exact ⟨hstatus, hroom, rfl⟩

@[simp] theorem interruptStep_key (step : RunStep) : (interruptStep step).key = step.key := by
  unfold interruptStep
  split <;> rfl

@[simp] theorem interruptStep_approval (step : RunStep) : (interruptStep step).approval = step.approval := by
  unfold interruptStep
  split <;> rfl

theorem interruptStep_status (step : RunStep) :
    (interruptStep step).status = if step.status = .running then .interrupted else step.status := by
  unfold interruptStep
  split <;> simp [*]

@[simp] theorem cancelStep_key (step : RunStep) : (cancelStep step).key = step.key := by
  unfold cancelStep
  split <;> rfl

@[simp] theorem cancelStep_approval (step : RunStep) : (cancelStep step).approval = step.approval := by
  unfold cancelStep
  split <;> rfl

theorem cancelStep_status (step : RunStep) : (cancelStep step).status =
    if step.status = .pending ∨ step.status = .awaitingApproval then .cancelled else step.status := by
  unfold cancelStep
  split <;> simp [*]

theorem bind_cases {ε α β : Type} (x : Except ε α) (f : α → Except ε β) :
    (∃ a b, x = .ok a ∧ f a = .ok b ∧ (x >>= f) = .ok b) ∨ ∃ e, (x >>= f) = .error e := by
  cases h : x >>= f with
  | error e => exact .inr ⟨e, rfl⟩
  | ok b =>
    obtain ⟨a, ha, hb⟩ := bind_ok.mp h
    exact .inl ⟨a, b, ha, hb, rfl⟩

section Keeps

variable {R : Run → Prop} {T : Run → Task → Prop} {H : Run → Execution → Prop} {busy alone : Bool} {next : Next Task}

theorem keeps_still (h : R run) (hnext : next.Kept service (T run) (alone = true ∨ busy = false)) :
    Turn.Keeps service R T H run busy alone ⟨run, [], next⟩ :=
  ⟨h, by simp, hnext, fun _ _ hu _ ↦ hu⟩

theorem keeps_commit {transaction : Except Thrown Run} {started : List Execution} {thrown : Next Task}
    (hok : ∀ run', transaction = .ok run' → Turn.Keeps service R T H run busy alone ⟨run', started, next⟩)
    (hthrown : Turn.Keeps service R T H run busy alone ⟨run, [], thrown⟩) :
    Turn.Keeps service R T H run busy alone (commit run transaction started next thrown) := by
  cases htx : transaction with
  | ok run' => exact hok run' htx
  | error => exact hthrown

theorem not_advancing (h : alone = true ∨ busy = false) {t : Task} (ht : t.advancing = true → busy = true ∧ alone = false) :
    t.advancing = false := by
  cases ha : t.advancing with
  | false => rfl
  | true =>
    obtain ⟨hbusy, halone⟩ := ht ha
    rcases h with h | h
    · exact absurd (h.symm.trans halone) Bool.noConfusion
    · exact absurd (hbusy.symm.trans h) Bool.noConfusion

theorem keeps_alone {started : List Execution} (hidle : ∀ t : Task, t.advancing = false → T run' t)
    (halone : alone = true ∨ busy = false) (h : R run') (hstarted : ∀ e ∈ started, H run' e)
    (hnext : next.Kept service (T run') (alone = true ∨ busy = false)) :
    Turn.Keeps service R T H run busy alone ⟨run', started, next⟩ :=
  ⟨h, hstarted, hnext, fun u _ _ hu ↦ hidle u (not_advancing halone hu)⟩

theorem kept_after {u : Undo} (hleaving : T run .leaving) (hfree : u.advancing = true → alone = true ∨ busy = false) :
    u.after.Kept service (T run) (alone = true ∨ busy = false) := by
  unfold Undo.after
  split
  · rename_i hadvancing
    exact ⟨rfl, hleaving, fun _ ↦ hfree hadvancing⟩
  · trivial

end Keeps

/-- The loop of `advance` goes on to a step of this run, or completes it. -/
structure GoesOn (run : Run) : Prop where
  unfinished : run.status.terminal = false
  unrequested : run.cancellationRequested = false
  uninterrupted : ∀ step ∈ run.steps, step.status ≠ .interrupted

structure OnTo (run : Run) (i : ℕ) (step : RunStep) : Prop extends GoesOn run where
  found : (run.steps.findIdx? fun step ↦ step.status = .pending ∨ step.status = .awaitingApproval) = some i
  step : run.steps[i]? = some step

/-- An attempt of a step is under way at this task, or none is as far as it goes on. -/
def Task.bound : Task → Bool
  | .loop | .executing _ _ _ | .settled _ _ _ _ | .backoff _ _ _ | .retry _ _ _ | .returned (.ok ()) => true
  | .enter | .returned (.error _) | .undo _ | .undoing _ _ | .undone _ _ _ | .leaving => false

theorem Task.unbound {t : Task} (h : t.advancing = false) : t.bound = false := by
  cases t with
  | enter | undo | undoing | undone => rfl
  | loop | executing | settled | backoff | retry | returned | leaving => cases h

/-- What each transaction makes of a run with `R`, for the turns to keep `T` and `H`: the run that it leaves is related
to the one before by `Q`, and `D` is what a loop or an outcome comes with. -/
structure Rules (R : Run → Prop) (Q : Run → Run → Prop) (T : Run → Task → Prop) (H : Run → Execution → Prop)
    (D : Run → Task → Prop) : Prop where
  refl : ∀ {run}, R run → Q run run
  free : ∀ {run t}, t.bound = false → T run t
  loop : ∀ {run}, T run (.returned (.ok ())) → T run .loop
  compensation : ∀ {run i}, H run (.compensation i)
  reconciled : ∀ {run run'}, R run → reconcileInterrupted run = .ok run' → Q run run' ∧ T run' .loop
  completed : ∀ {run run'}, R run → T run .loop → D run .loop → GoesOn run →
    (run.steps.findIdx? fun step ↦ step.status = .pending ∨ step.status = .awaitingApproval) = none →
      finishRun run .completed none = .ok run' → Q run run'
  ended : ∀ {run run' status error}, R run → status ≠ .completed → finishRun run status error = .ok run' →
    Q run run' ∧ ∀ t, T run t → T run' t
  asked : ∀ {run run' i step}, R run → T run .loop → OnTo run i step → step.status ≠ .awaitingApproval →
    awaitApproval run i = .ok run' → Q run run'
  begun : ∀ {run run' i step definition}, R run → T run .loop → D run .loop → OnTo run i step →
    run.definition.steps.find? (·.key = step.key) = some definition →
    (definition.requiresApproval = true → step.approval.decision = some .approve) → 1 ≤ definition.maxAttempts →
      startAttempt run i definition 1 = .ok run' → Q run run' ∧ T run' (.executing i definition 1) ∧ H run' (.attempt i 1)
  again : ∀ {run run' i definition attempt}, R run → T run (.retry i definition attempt) → run.cancellationRequested = false →
    startAttempt run i definition (attempt + 1) = .ok run' →
      Q run run' ∧ T run' (.executing i definition (attempt + 1)) ∧ H run' (.attempt i (attempt + 1))
  succeeded : ∀ {run run' i definition attempt output}, R run → T run (.settled i definition attempt (.ok output)) →
    D run (.settled i definition attempt (.ok output)) → completeAttempt run i attempt output = .ok run' →
      Q run run' ∧ T run' (.returned (.ok ()))
  failed : ∀ {run run' i definition attempt outcome error}, R run → T run (.settled i definition attempt outcome) →
    failAttempt run i attempt error (attempt < definition.maxAttempts) = .ok run' →
      Q run run' ∧ (attempt < definition.maxAttempts → T run' (.backoff i definition attempt) ∧ T run' (.retry i definition attempt))
  marked : ∀ {run run' i}, R run → (∃ output, markCompensated run i output = .ok run') ∨
    (∃ error, markCompensationFailed run i error = .ok run') → Q run run' ∧ ∀ t, T run t → T run' t

section Rules

variable {R : Run → Prop} {Q : Run → Run → Prop} {T : Run → Task → Prop} {H : Run → Execution → Prop}
  {D : Run → Task → Prop} {busy alone : Bool} {next : Next Task} {definition : Step} {attempt : ℤ} {u : Undo}

section

variable (rules : Rules R Q T H D)

include rules

theorem Rules.still (h : R run) (hnext : next.Kept service (T run) (alone = true ∨ busy = false)) : Turn.Keeps service
    (Q run) T H run busy alone ⟨run, [], next⟩ :=
  keeps_still (rules.refl h) hnext

theorem Rules.taken (halone : alone = true ∨ busy = false) {started : List Execution} (hafter : Q run run') (hstarted :
    ∀ e ∈ started, H run' e) (hnext : next.Kept service (T run') (alone = true ∨ busy = false)) : Turn.Keeps service (Q
    run) T H run busy alone ⟨run', started, next⟩ :=
  keeps_alone (fun _ ht ↦ rules.free (Task.unbound ht)) halone hafter hstarted hnext

theorem Rules.leaves (h : R run) : Turn.Keeps service (Q run) T H run busy true ⟨run, [], .wait .leaving⟩ :=
  rules.still h ⟨rfl, rules.free rfl, fun _ ↦ .inl rfl⟩

theorem Rules.after : u.after.Kept service (T run) (u.advancing = true ∨ busy = false) :=
  kept_after (rules.free rfl) .inl

theorem Rules.enterAdvance (h : R run) : Turn.Keeps service (Q run) T H run busy alone (Workflows.enterAdvance run busy)
    := by
  unfold Workflows.enterAdvance
  split
  · exact rules.still h trivial
  · rename_i hbusy
    have hfree : busy = false := by simpa using hbusy
    apply keeps_commit
    · intro run' htx
      obtain ⟨hafter, hloop⟩ := rules.reconciled h htx
      exact rules.taken (.inr hfree) hafter (by simp) ⟨hloop, fun _ ↦ .inr hfree⟩
    · exact rules.still h trivial

theorem Rules.beginAttempt (h : R run) (hbegun : ∀ run', startAttempt run i definition attempt = .ok run' → Q run run' ∧
    T run' (.executing i definition attempt) ∧ H run' (.attempt i attempt)) : Turn.Keeps service (Q run) T H run busy
    true (Workflows.beginAttempt run i definition attempt) := by
  apply keeps_commit
  · intro run' htx
    obtain ⟨hafter, hexecuting, hstarted⟩ := hbegun run' htx
    refine rules.taken (.inl rfl) hafter ?_ ⟨rfl, hexecuting, fun _ ↦ .inl rfl⟩
    intro e he
    obtain rfl := List.mem_singleton.mp he
    exact hstarted
  · exact rules.leaves h

theorem Rules.advanceStep (h : R run) (hloop : T run .loop) (hd : D run .loop) (hgoes : GoesOn run) (hfound :
    (run.steps.findIdx? fun step ↦ step.status = .pending ∨ step.status = .awaitingApproval) = some i) : Turn.Keeps
    service (Q run) T H run busy true (Workflows.advanceStep run i) := by
  unfold Workflows.advanceStep
  split
  · exact rules.still h trivial
  · rename_i step hstep
    have honto : OnTo run i step := ⟨hgoes, hfound, hstep⟩
    split
    · apply keeps_commit
      · intro run' htx
        exact rules.taken (.inl rfl) (rules.ended h (by simp) htx).1 (by simp) trivial
      · exact rules.still h trivial
    · rename_i definition hdefinition
      split
      · split
        · exact rules.still h trivial
        · rename_i hawaiting
          apply keeps_commit
          · intro run' htx
            exact rules.taken (.inl rfl) (rules.asked h hloop honto hawaiting htx) (by simp) trivial
          · exact rules.still h trivial
      · rename_i hgate
        split
        · rename_i hattempts
          apply rules.beginAttempt h
          intro run' htx
          refine rules.begun h hloop hd honto hdefinition ?_ hattempts htx
          intro hrequires
          by_contra hne
          exact hgate ⟨hrequires, hne⟩
        · exact rules.still h ⟨rfl, rules.free rfl, fun _ ↦ .inl rfl⟩

theorem Rules.advanceLoop (h : R run) (hloop : T run .loop) (hd : D run .loop) : Turn.Keeps service (Q run) T H run busy
    true (Workflows.advanceLoop run) := by
  unfold Workflows.advanceLoop
  split
  · exact rules.still h trivial
  · rename_i hunfinished
    split
    · exact rules.still h ⟨rules.free rfl, fun _ ↦ .inl rfl⟩
    · rename_i hrequested
      split
      · exact rules.still h ⟨rules.free rfl, fun _ ↦ .inl rfl⟩
      · rename_i hinterrupted
        have hgoes : GoesOn run := by
          refine ⟨by simpa using hunfinished, by simpa using hrequested, ?_⟩
          intro step hstep hstatus
          exact absurd (decide_eq_true hstatus) (List.find?_eq_none.mp hinterrupted step hstep)
        split
        · rename_i hnone
          apply keeps_commit
          · intro run' htx
            exact rules.taken (.inl rfl) (rules.completed h hloop hd hgoes hnone htx) (by simp) trivial
          · exact rules.still h trivial
        · rename_i i hfound
          exact rules.advanceStep h hloop hd hgoes hfound

theorem Rules.settle (h : R run) {outcome : Except Thrown JsonValue} (ht : T run (.settled i definition attempt
    outcome)) (hd : D run (.settled i definition attempt outcome)) : Turn.Keeps service (Q run) T H run busy true
    (Workflows.settle run i definition attempt outcome) := by
  unfold Workflows.settle
  rcases bind_cases outcome (completeAttempt run i attempt) with ⟨output, run', rfl, htx, hbind⟩ | ⟨error, hbind⟩
  · rw [hbind]
    obtain ⟨hafter, hreturned⟩ := rules.succeeded h ht hd htx
    exact rules.taken (.inl rfl) hafter (by simp) ⟨rfl, hreturned, fun _ ↦ .inl rfl⟩
  · rw [hbind]
    apply keeps_commit
    · intro run' htx
      obtain ⟨hafter, hagain⟩ := rules.failed h ht htx
      refine rules.taken (.inl rfl) hafter (by simp) ?_
      split
      · -- The step runs on, through its backoff or at once.
        obtain ⟨hbackoff, hretry⟩ := hagain ‹_›
        split
        · exact ⟨rfl, hbackoff, fun _ ↦ .inl rfl⟩
        · exact ⟨hretry, fun _ ↦ .inl rfl⟩
      · exact ⟨rfl, rules.free rfl, fun _ ↦ .inl rfl⟩
    · exact rules.leaves h

theorem Rules.retryAttempt (h : R run) (ht : T run (.retry i definition attempt)) : Turn.Keeps service (Q run) T H run
    busy true (Workflows.retryAttempt run i definition attempt) := by
  unfold Workflows.retryAttempt
  split
  · exact rules.still h ⟨rfl, rules.free rfl, fun _ ↦ .inl rfl⟩
  · rename_i hrequested
    exact rules.beginAttempt h fun run' htx ↦ rules.again h ht (by simpa using hrequested) htx

theorem Rules.undoNext (h : R run) : Turn.Keeps service (Q run) T H run busy u.advancing (Workflows.undoNext run u) :=
    by
  unfold Workflows.undoNext
  split
  · apply keeps_commit
    · intro run' htx
      have hstatus : (if u.failed then .compensationFailed else u.ending.status : RunStatus) ≠ .completed := by
        split
        · exact nofun
        · cases u.ending <;> exact nofun
      obtain ⟨hafter, hothers⟩ := rules.ended h hstatus htx
      exact ⟨hafter, by simp, rules.after, fun t _ ht _ ↦ hothers t ht⟩
    · exact rules.still h rules.after
  · split
    · exact rules.still h ⟨rules.free rfl, .inl⟩
    · refine ⟨rules.refl h, ?_, ⟨rfl, rules.free rfl, .inl⟩, fun _ _ ht _ ↦ ht⟩
      intro e he
      obtain rfl := List.mem_singleton.mp he
      exact rules.compensation

theorem Rules.settleUndo (h : R run) {outcome : Except Thrown JsonValue} : Turn.Keeps service (Q run) T H run busy
    u.advancing (Workflows.settleUndo run i u outcome) := by
  unfold Workflows.settleUndo
  rcases bind_cases outcome (markCompensated run i) with ⟨output, run', -, htx, hbind⟩ | ⟨error, hbind⟩
  · rw [hbind]
    obtain ⟨hafter, hothers⟩ := rules.marked h (.inl ⟨output, htx⟩)
    exact ⟨hafter, by simp, ⟨rules.free rfl, .inl⟩, fun t _ ht _ ↦ hothers t ht⟩
  · rw [hbind]
    apply keeps_commit
    · intro run' htx
      obtain ⟨hafter, hothers⟩ := rules.marked h (.inr ⟨_, htx⟩)
      exact ⟨hafter, by simp, ⟨rules.free rfl, .inl⟩, fun t _ ht _ ↦ hothers t ht⟩
    · exact rules.still h rules.after

theorem Rules.turn (h : R run) {t : Task} (ht : T run t) (hd : D run t) : Turn.Keeps service (Q run) T H run busy
    t.advancing (Workflows.turn run busy t) := by
  cases t with
  | enter => exact rules.enterAdvance h
  | loop => exact rules.advanceLoop h ht hd
  | settled => exact rules.settle h ht hd
  | retry => exact rules.retryAttempt h ht
  | returned outcome =>
    cases outcome with
    | ok => exact rules.still h ⟨rules.loop ht, fun _ ↦ .inl rfl⟩
    | error => exact rules.still h ⟨rules.free rfl, fun _ ↦ .inl rfl⟩
  | undo => exact rules.undoNext h
  | undone => exact rules.settleUndo h
  | leaving => exact rules.still h trivial
  | executing | backoff => exact rules.still h ⟨rfl, ht, fun _ ↦ .inl rfl⟩
  | undoing => exact rules.still h ⟨rfl, ht, .inl⟩

theorem Rules.call (h : R run) (hdecided : ∀ {run' i decision actorId reason}, decideApproval run i decision actorId
    reason = .ok run' → Q run run' ∧ ∀ t, T run t → T run' t) (hcancelled : ∀ {run' reason actorId}, cancelRun run
    reason actorId = .ok run' → Q run run' ∧ ∀ t, T run t → T run' t) (request : Request) : Turn.Keeps service (Q run) T
    H run busy false (Workflows.call run busy request) := by
  cases request with
  | advance => exact rules.enterAdvance h
  | decideApproval i decision actorId reason =>
    simp only [Workflows.call]
    cases htx : decideApproval run i decision actorId reason with
    | error => exact rules.still h trivial
    | ok =>
      obtain ⟨hafter, hothers⟩ := hdecided htx
      cases decision with
      | approve => exact ⟨hafter, by simp, ⟨rules.free rfl, by simp [service, Task.advancing]⟩, fun t _ ht _ ↦ hothers t ht⟩
      | reject =>
        exact ⟨hafter, by simp, ⟨rules.free rfl, by simp [service, Task.advancing, compensate]⟩, fun t _ ht _ ↦ hothers t ht⟩
  | cancelRun reason actorId =>
    simp only [Workflows.call]
    cases htx : cancelRun run reason actorId with
    | error => exact rules.still h trivial
    | ok =>
      obtain ⟨hafter, hothers⟩ := hcancelled htx
      exact ⟨hafter, by simp, ⟨rules.free rfl, by simp [service, Task.advancing, compensate]⟩, fun t _ ht _ ↦ hothers t ht⟩

end

end Rules

end Noesar.Workflows
