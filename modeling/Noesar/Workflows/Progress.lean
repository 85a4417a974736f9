import Noesar.Workflows.World

namespace Noesar.Workflows

open Lib Lib.Run Lib.Cooperative

def StepStatus.unsettled : StepStatus → Bool
  | pending | awaitingApproval | running => true
  | completed | failed | rejected | cancelled | interrupted => false

def StepStatus.untouched : StepStatus → Bool
  | pending | cancelled => true
  | awaitingApproval | running | completed | failed | rejected | interrupted => false

def Event.isRejection : Event → Bool
  | decided .reject _ _ => true
  | _ => false

def Event.isCancellation : Event → Bool
  | cancellationRequested _ _ => true
  | _ => false

def Run.statuses (run : Run) : List StepStatus := run.steps.map (·.status)

def InOrder (statuses : List StepStatus) : Prop :=
  ∀ (i j : ℕ) (a b : StepStatus), i < j → statuses[i]? = some a → statuses[j]? = some b → a.unsettled = true → b.untouched = true

structure Progress (run : Run) : Prop where
  order : InOrder run.statuses
  completed : run.status = .completed → ∀ s ∈ run.statuses, s = .completed
  cancelled : run.cancellationRequested = false → .cancelled ∉ run.statuses
  rejection : run.evidence.any (·.event.isRejection) = true → .rejected ∈ run.statuses
  cancellation : run.evidence.any (·.event.isCancellation) = true → run.cancellationRequested = true

/-- The run has come to this step, and no rejection is recorded. -/
structure Reached (run : Run) (i : ℕ) : Prop where
  running : run.statuses[i]? = some .running
  earlier : ∀ j < i, ∀ s, run.statuses[j]? = some s → s = .completed
  accepted : run.evidence.any (·.event.isRejection) = false

/-- An advance would go on with this run at its loop, though a step of it failed or was rejected. -/
structure Strays (run : Run) : Prop where
  unfinished : run.status.terminal = false
  unrequested : run.cancellationRequested = false
  uninterrupted : .interrupted ∉ run.statuses
  fallen : .failed ∈ run.statuses ∨ .rejected ∈ run.statuses
  room : run.evidence.length < 2000
  next : ∀ i, (run.steps.findIdx? fun step ↦ step.status = .pending ∨ step.status = .awaitingApproval) = some i →
    ∃ step definition, run.steps[i]? = some step ∧ run.definition.steps.find? (·.key = step.key) = some definition ∧
      (definition.requiresApproval = true → step.approval.decision = some .approve) ∧ 1 ≤ definition.maxAttempts

def ProgressTask (run : Run) : Task → Prop
  | .executing i _ _ | .settled i _ _ _ | .backoff i _ _ | .retry i _ _ => Reached run i
  | .loop | .returned (.ok ()) => .running ∉ run.statuses
  | _ => True

def ProgressExecution (run : Run) : Execution → Prop
  | .attempt i _ => Reached run i ∧ run.evidence.any (·.event.isCancellation) = false
  | .compensation _ => True

section Order

variable {statuses : List StepStatus} {i : ℕ} {a b : StepStatus}

theorem InOrder.first (h : InOrder statuses) (hi : statuses[i]? = some a) (ha : a.untouched = false) :
    ∀ j < i, ∀ s, statuses[j]? = some s → s.unsettled = false := by
  intro j hj s hs
  cases hu : s.unsettled with
  | false => rfl
  | true => exact absurd (h j i s a hj hs hi hu) (by simp [ha])

theorem InOrder.set (h : InOrder statuses) (hi : statuses[i]? = some a) (ha : a.unsettled = true)
    (hfirst : ∀ j < i, ∀ s, statuses[j]? = some s → s.unsettled = false) : InOrder (statuses.set i b) := by
  intro j k x y hjk hx hy hunsettled
  rw [List.getElem?_set] at hx hy
  split at hx
  · rename_i hij
    split at hx
    · cases hx
      rw [if_neg (by omega)] at hy
      exact h i k a y (by omega) hi hy ha
    · cases hx
  · rename_i hij
    split at hy
    · rename_i hik
      exact absurd (hfirst j (by omega) x hx) (by simp [hunsettled])
    · exact h j k x y hjk hx hy hunsettled

theorem InOrder.map (h : InOrder statuses) {f : StepStatus → StepStatus}
    (hunsettled : ∀ s, (f s).unsettled = true → s.unsettled = true)
    (huntouched : ∀ s, s.untouched = true → (f s).untouched = true) : InOrder (statuses.map f) := by
  intro i j a b hij ha hb ha'
  rw [List.getElem?_map, Option.map_eq_some_iff] at ha hb
  obtain ⟨a, ha, rfl⟩ := ha
  obtain ⟨b, hb, rfl⟩ := hb
  exact huntouched b (h i j a b hij ha hb (hunsettled a ha'))

theorem InOrder.not_running (h : InOrder statuses) (hi : statuses[i]? = some .running) (hb : b ≠ .running)
    {after : List StepStatus} (hset : after = statuses.set i b) : .running ∉ after := by
  subst hset
  intro hmem
  obtain ⟨j, hj⟩ := List.mem_iff_getElem?.mp hmem
  rw [List.getElem?_set] at hj
  split at hj
  · split at hj
    · exact hb (Option.some.inj hj)
    · cases hj
  · rcases Nat.lt_or_gt_of_ne ‹i ≠ j› with hlt | hgt
    · exact absurd (h i j _ _ hlt hi hj rfl) (by simp [StepStatus.untouched])
    · exact absurd (h.first hi rfl j hgt _ hj) (by simp [StepStatus.unsettled])

end Order

variable {run run' : Run} {i : ℕ}

theorem statuses_eq_some {s : StepStatus} :
    run.statuses[i]? = some s ↔ ∃ step, run.steps[i]? = some step ∧ step.status = s := by
  simp [Run.statuses]

theorem first_open (h : (run.steps.findIdx? fun step ↦ step.status = .pending ∨ step.status = .awaitingApproval) = some i) :
    ∃ step, run.steps[i]? = some step ∧ (step.status = .pending ∨ step.status = .awaitingApproval) ∧
      ∀ j < i, ∀ s, run.statuses[j]? = some s → s ≠ .pending ∧ s ≠ .awaitingApproval := by
  obtain ⟨hlt, hstatus, hfirst⟩ := List.findIdx?_eq_some_iff_getElem.mp h
  refine ⟨_, List.getElem?_eq_getElem hlt, of_decide_eq_true hstatus, ?_⟩
  intro j hj s hs
  obtain ⟨step, hstep, rfl⟩ := statuses_eq_some.mp hs
  obtain ⟨hjlt, rfl⟩ := List.getElem?_eq_some_iff.mp hstep
  have hnot := hfirst j hj
  rwa [decide_eq_true_eq, not_or] at hnot

variable {step : RunStep} {status : RunStatus} {change : RunStep → RunStep} {event : Event}

theorem OnTo.opened (h : OnTo run i step) : step.status = .pending ∨ step.status = .awaitingApproval := by
  obtain ⟨other, hother, hopen, -⟩ := first_open h.found
  obtain rfl := Option.some.inj (h.step.symm.trans hother)
  exact hopen

theorem OnTo.unsettled (h : OnTo run i step) : step.status.unsettled = true := by
  rcases h.opened with heq | heq <;> rw [heq] <;> rfl

theorem OnTo.first (h : OnTo run i step) (hrunning : .running ∉ run.statuses) :
    ∀ j < i, ∀ s, run.statuses[j]? = some s → s.unsettled = false := by
  obtain ⟨-, -, -, hclosed⟩ := first_open h.found
  intro j hj s hs
  obtain ⟨hpending, hawaiting⟩ := hclosed j hj s hs
  cases s with
  | pending | awaitingApproval => contradiction
  | running => exact absurd (List.mem_of_getElem? hs) hrunning
  | completed | failed | rejected | cancelled | interrupted => rfl

/-- A transaction that leaves the statuses of the steps, and records no decision against the run. -/
structure Quiet (run run' : Run) : Prop where
  statuses : run'.statuses = run.statuses
  requested : run'.cancellationRequested = run.cancellationRequested
  status : run'.status = .completed → run.status = .completed
  rejection : run'.evidence.any (·.event.isRejection) = run.evidence.any (·.event.isRejection)
  cancellation : run'.evidence.any (·.event.isCancellation) = run.evidence.any (·.event.isCancellation)

theorem Quiet.progress (hq : Quiet run run') (h : Progress run) : Progress run' := by
  obtain ⟨hstatuses, hrequested, hstatus, hrejection, hcancellation⟩ := hq
  refine ⟨?_, ?_, ?_, ?_, ?_⟩
  · rw [hstatuses]
    exact h.order
  · intro hcompleted
    rw [hstatuses]
    exact h.completed (hstatus hcompleted)
  · rw [hrequested, hstatuses]
    exact h.cancelled
  · rw [hrejection, hstatuses]
    exact h.rejection
  · rw [hcancellation, hrequested]
    exact h.cancellation

theorem Quiet.reached (hq : Quiet run run') (h : Reached run i) : Reached run' i :=
  ⟨hq.statuses ▸ h.running, hq.statuses ▸ h.earlier, hq.rejection ▸ h.accepted⟩

theorem ProgressTask.of_kept (h : ProgressTask run t) (hreached : ∀ {i}, Reached run i → Reached run' i)
    (hidle : .running ∉ run.statuses → .running ∉ run'.statuses) : ProgressTask run' t := by
  match t, h with
  | .executing _ _ _, h | .settled _ _ _ _, h | .backoff _ _ _, h | .retry _ _ _, h => exact hreached h
  | .loop, h | .returned (.ok ()), h => exact hidle h
  | .enter, _ | .returned (.error _), _ | .undo _, _ | .undoing _ _, _ | .undone _ _ _, _ | .leaving, _ => trivial

theorem Quiet.task (hq : Quiet run run') (h : ProgressTask run t) : ProgressTask run' t :=
  h.of_kept hq.reached fun hn ↦ hq.statuses ▸ hn

theorem onStep_statuses {b : StepStatus} (h : onStep run i status change event = .ok run')
    (hchange : ∀ step, run.steps[i]? = some step → (change step).status = b) :
    run'.statuses = run.statuses.set i b := by
  obtain ⟨step, hstep, -, rfl⟩ := onStep_ok h
  rw [← hchange step hstep]
  exact List.map_set

theorem onStep_rest (h : onStep run i status change event = .ok run') :
    run'.status = status ∧ run'.cancellationRequested = run.cancellationRequested := by
  obtain ⟨step, -, -, rfl⟩ := onStep_ok h
  exact ⟨rfl, rfl⟩

theorem onStep_any (h : onStep run i status change event = .ok run') (p : Event → Bool) :
    run'.evidence.any (p ·.event) = (run.evidence.any (p ·.event) || p event) := by
  obtain ⟨step, -, -, rfl⟩ := onStep_ok h
  simp

theorem Quiet.onStep (h : Workflows.onStep run i status change event = .ok run')
    (hstatus : status = .completed → run.status = .completed) (hchange : ∀ step, (change step).status = step.status)
    (hrejection : event.isRejection = false) (hcancellation : event.isCancellation = false) : Quiet run run' := by
  obtain ⟨step, hstep, -, rfl⟩ := onStep_ok h
  refine ⟨?_, rfl, hstatus, by simp [hrejection], by simp [hcancellation]⟩
  obtain ⟨hi, hstep⟩ := List.getElem?_eq_some_iff.mp (statuses_eq_some.mpr ⟨step, hstep, rfl⟩)
  show (run.steps.set i (change step)).map (·.status) = run.statuses
  rw [List.map_set, hchange, ← hstep]
  exact List.set_getElem_self hi

theorem Progress.onStep (h : Progress run) (htx : Workflows.onStep run i status change event = .ok run')
    {a b : StepStatus} (hi : run.statuses[i]? = some a) (ha : a.unsettled = true)
    (hfirst : ∀ j < i, ∀ s, run.statuses[j]? = some s → s.unsettled = false)
    (hchange : ∀ step, run.steps[i]? = some step → (change step).status = b) (hb : b ≠ .cancelled)
    (hstatus : status = .completed → run.status = .completed) (hrejection : event.isRejection = true → b = .rejected)
    (hcancellation : event.isCancellation = false) : Progress run' ∧ run'.statuses = run.statuses.set i b := by
  have hset := onStep_statuses htx hchange
  obtain ⟨hstatus', hrequested'⟩ := onStep_rest htx
  have hmem : a ∈ run.statuses := List.mem_of_getElem? hi
  refine ⟨⟨?_, ?_, ?_, ?_, ?_⟩, hset⟩
  · rw [hset]
    exact h.order.set hi ha hfirst
  · intro hcompleted
    rw [hstatus'] at hcompleted
    rw [h.completed (hstatus hcompleted) a hmem] at ha
    cases ha
  · intro hrequested hcancelled
    rw [hset] at hcancelled
    rw [hrequested'] at hrequested
    rcases List.mem_or_eq_of_mem_set hcancelled with hold | rfl
    · exact h.cancelled hrequested hold
    · exact hb rfl
  · intro hany
    rw [onStep_any htx Event.isRejection, Bool.or_eq_true] at hany
    rw [hset]
    rcases hany with hold | hnew
    · obtain ⟨j, hj⟩ := List.mem_iff_getElem?.mp (h.rejection hold)
      refine List.mem_iff_getElem?.mpr ⟨j, ?_⟩
      rw [List.getElem?_set_ne, hj]
      rintro rfl
      rw [hi] at hj
      cases hj
      cases ha
    · rw [← hrejection hnew]
      exact List.mem_set (List.getElem?_eq_some_iff.mp hi).1 b
  · intro hany
    rw [onStep_any htx Event.isCancellation, hcancellation, Bool.or_false] at hany
    rw [hrequested']
    exact h.cancellation hany

theorem Progress.map (h : Progress run) {f : StepStatus → StepStatus} (hstatuses : run'.statuses = run.statuses.map f)
    (hunsettled : ∀ s, (f s).unsettled = true → s.unsettled = true)
    (huntouched : ∀ s, s.untouched = true → (f s).untouched = true) (hkeeps : ∀ s, s.unsettled = false → f s = s)
    (hstatus : run'.status = .completed → run.status = .completed)
    (hcancelled : run'.cancellationRequested = false → run.cancellationRequested = false ∧ ∀ s, f s = .cancelled → s = .cancelled)
    (hrejection : run'.evidence.any (·.event.isRejection) = run.evidence.any (·.event.isRejection))
    (hcancellation : run'.evidence.any (·.event.isCancellation) = true →
      run.evidence.any (·.event.isCancellation) = true ∧ run'.cancellationRequested = run.cancellationRequested ∨
        run'.cancellationRequested = true) : Progress run' := by
  refine ⟨?_, ?_, ?_, ?_, ?_⟩
  · rw [hstatuses]
    exact h.order.map hunsettled huntouched
  · intro hcompleted s hs
    rw [hstatuses] at hs
    obtain ⟨old, hold, rfl⟩ := List.mem_map.mp hs
    rw [h.completed (hstatus hcompleted) old hold]
    exact hkeeps .completed rfl
  · intro hrequested hmem
    rw [hstatuses] at hmem
    obtain ⟨old, hold, heq⟩ := List.mem_map.mp hmem
    obtain ⟨hbefore, honly⟩ := hcancelled hrequested
    exact h.cancelled hbefore (honly old heq ▸ hold)
  · intro hany
    rw [hstatuses]
    exact List.mem_map.mpr ⟨.rejected, h.rejection (hrejection ▸ hany), hkeeps .rejected rfl⟩
  · intro hany
    rcases hcancellation hany with ⟨hold, hsame⟩ | hnew
    · rw [hsame]
      exact h.cancellation hold
    · exact hnew

theorem interruptStep_statuses : (run.steps.map interruptStep).map (·.status) =
    run.statuses.map fun s ↦ if s = .running then .interrupted else s := by
  simp only [Run.statuses, List.map_map]
  exact List.map_congr_left fun step _ ↦ interruptStep_status step

theorem cancelStep_statuses : (run.steps.map cancelStep).map (·.status) =
    run.statuses.map fun s ↦ if s = .pending ∨ s = .awaitingApproval then .cancelled else s := by
  simp only [Run.statuses, List.map_map]
  exact List.map_congr_left fun step _ ↦ cancelStep_status step

theorem Progress.reconcile (h : Progress run) (htx : reconcileInterrupted run = .ok run') :
    Progress run' ∧ .running ∉ run'.statuses := by
  rcases reconcileInterrupted_ok htx with ⟨hnone, rfl⟩ | ⟨-, entries, hentries, rfl⟩
  · refine ⟨h, ?_⟩
    intro hmem
    obtain ⟨step, hstep, hstatus⟩ := List.mem_map.mp hmem
    exact hnone step hstep hstatus
  · have hrejection : entries.any (·.event.isRejection) = false := by
      rw [List.any_eq_false]
      intro e he
      simp [hentries e he, Event.isRejection]
    have hcancellation : entries.any (·.event.isCancellation) = false := by
      rw [List.any_eq_false]
      intro e he
      simp [hentries e he, Event.isCancellation]
    constructor
    · refine h.map interruptStep_statuses ?_ ?_ ?_ id ?_ (by simp [hrejection])
        (fun hany ↦ .inl ⟨by simpa [hcancellation] using hany, rfl⟩)
      · intro s
        cases s <;> simp [StepStatus.unsettled]
      · intro s
        cases s <;> simp [StepStatus.untouched]
      · intro s
        cases s <;> simp [StepStatus.unsettled]
      · intro hrequested
        refine ⟨hrequested, ?_⟩
        intro s
        cases s <;> simp
    · show .running ∉ (run.steps.map interruptStep).map (·.status)
      rw [interruptStep_statuses]
      intro hmem
      obtain ⟨s, -, hs⟩ := List.mem_map.mp hmem
      split at hs
      · cases hs
      · contradiction

theorem Quiet.finish {error : Option String} (htx : finishRun run status error = .ok run')
    (hstatus : status ≠ .completed) : Quiet run run' := by
  obtain ⟨-, output, rfl⟩ := finishRun_ok htx
  exact ⟨rfl, rfl, fun hcompleted ↦ absurd hcompleted hstatus, by simp [Event.isRejection], by simp [Event.isCancellation]⟩

theorem Progress.complete (h : Progress run) {error : Option String} (htx : finishRun run .completed error = .ok run')
    (hall : ∀ s ∈ run.statuses, s = .completed) : Progress run' := by
  obtain ⟨-, output, rfl⟩ := finishRun_ok htx
  refine ⟨h.order, fun _ ↦ hall, h.cancelled, ?_, ?_⟩
  · intro hany
    exact h.rejection (by simpa [Event.isRejection] using hany)
  · intro hany
    exact h.cancellation (by simpa [Event.isCancellation] using hany)

theorem Progress.decide (h : Progress run) {decision : Decision} {actorId : String} {reason : Option String}
    (htx : decideApproval run i decision actorId reason = .ok run') : Progress run' ∧ run.statuses[i]? = some .awaitingApproval ∧
      run'.statuses = run.statuses.set i (if decision = .approve then .pending else .rejected) := by
  obtain ⟨step, hstep, hawaiting, -, -⟩ := decideApproval_ok htx
  have hi : run.statuses[i]? = some .awaitingApproval := statuses_eq_some.mpr ⟨step, hstep, hawaiting⟩
  simp only [decideApproval, bind_ok, demand_ok, require_ok, exists_unit] at htx
  obtain ⟨-, -, -, htx⟩ := htx
  obtain ⟨hprogress, hset⟩ := h.onStep (b := if decision = .approve then .pending else .rejected) htx hi rfl
    (h.order.first hi rfl) (fun _ _ ↦ rfl)
    (by cases decision <;> simp) (by cases decision <;> simp) (by cases decision <;> simp [Event.isRejection]) rfl
  exact ⟨hprogress, hi, hset⟩

theorem Progress.cancel (h : Progress run) {reason actorId : String} (htx : cancelRun run reason actorId = .ok run') :
    Progress run' := by
  obtain ⟨-, -, rfl⟩ := cancelRun_ok htx
  refine h.map cancelStep_statuses ?_ ?_ ?_ (by simp) (by simp) (by simp [Event.isRejection]) (fun _ ↦ .inr rfl)
  · intro s
    cases s <;> simp [StepStatus.unsettled]
  · intro s
    cases s <;> simp [StepStatus.untouched]
  · intro s
    cases s <;> simp [StepStatus.unsettled]

section Tasks

variable {t : Task}

theorem Reached.not_awaiting (h : Reached run i) (hp : Progress run) : .awaitingApproval ∉ run.statuses := by
  intro hmem
  obtain ⟨j, hj⟩ := List.mem_iff_getElem?.mp hmem
  rcases Nat.lt_trichotomy j i with hlt | rfl | hgt
  · exact absurd (h.earlier j hlt _ hj) (by simp)
  · rw [h.running] at hj
    cases hj
  · exact absurd (hp.order i j _ _ hgt h.running hj rfl) (by simp [StepStatus.untouched])

theorem ProgressTask.decide (h : ProgressTask run t) (hp : Progress run) {decision : Decision} {actorId : String}
    {reason : Option String} (htx : decideApproval run i decision actorId reason = .ok run') : ProgressTask run' t := by
  obtain ⟨-, hi, hset⟩ := hp.decide htx
  have hreached {j : ℕ} (hr : Reached run j) : Reached run' j :=
    absurd (List.mem_of_getElem? hi) (hr.not_awaiting hp)
  have hidle (hn : .running ∉ run.statuses) : .running ∉ run'.statuses := by
    rw [hset]
    intro hmem
    rcases List.mem_or_eq_of_mem_set hmem with hold | hnew
    · exact hn hold
    · split at hnew <;> cases hnew
  exact h.of_kept hreached hidle

theorem ProgressTask.cancel (h : ProgressTask run t) {reason actorId : String}
    (htx : cancelRun run reason actorId = .ok run') : ProgressTask run' t := by
  obtain ⟨-, -, rfl⟩ := cancelRun_ok htx
  have hidle (hn : .running ∉ run.statuses) : .running ∉ (run.steps.map cancelStep).map (·.status) := by
    rw [cancelStep_statuses]
    intro hmem
    obtain ⟨s, hs, heq⟩ := List.mem_map.mp hmem
    split at heq
    · cases heq
    · exact hn (heq ▸ hs)
  have hreached {j : ℕ} (hr : Reached run j) : Reached { run with
      cancellationRequested := true
      status := .cancelling
      steps := run.steps.map cancelStep
      evidence := run.evidence ++ [⟨none, .cancellationRequested reason actorId⟩] } j := by
    refine ⟨?_, ?_, ?_⟩
    · show ((run.steps.map cancelStep).map (·.status))[j]? = some .running
      rw [cancelStep_statuses, List.getElem?_map, hr.running]
      rfl
    · intro k hk s hs
      change ((run.steps.map cancelStep).map (·.status))[k]? = some s at hs
      rw [cancelStep_statuses, List.getElem?_map, Option.map_eq_some_iff] at hs
      obtain ⟨old, hold, rfl⟩ := hs
      rw [hr.earlier k hk old hold]
      rfl
    · simpa [Event.isRejection] using hr.accepted
  exact h.of_kept hreached hidle

end Tasks

end Noesar.Workflows
