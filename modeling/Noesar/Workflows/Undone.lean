import Noesar.Workflows.Gate
import Noesar.Workflows.Compensation
import Noesar.Workflows.Truthful

namespace Noesar.Workflows

open Lib Lib.Run Lib.Cooperative

variable {run run' : Run} {i : ℕ} {history : List (Run × Execution)} {log : List ℕ}

/-- A turn that commits nothing, and executes no compensation but of a step that is completed. -/
def Stalls (run : Run) (outcome : Outcome) : Prop :=
  outcome.store = run ∧ (∀ e ∈ outcome.started, ∀ i, e = .compensation i → Done run i) ∧
    match outcome.next with
    | .done => True
    | .wait t => t.waits = true ∧ ∀ i ∈ t.todo, Done run i
    | .run t => ∀ i ∈ t.todo, Done run i

theorem compensations_append (history : List (Run × Execution)) (started : List Execution) :
    compensations (history ++ started.map (run, ·)) = compensations history ++ started.filterMap fun e ↦
      match e with
      | .compensation i => some i
      | .attempt _ _ => none := by
  simp only [compensations, List.filterMap_append, List.filterMap_map]
  rfl

theorem AfterDone.append (h : AfterDone history) {started : List Execution}
    (hstarted : ∀ e ∈ started, ∀ i, e = .compensation i → Done run i) : AfterDone (history ++ started.map (run, ·)) := by
  intro e he i hi
  rcases List.mem_append.mp he with hold | hnew
  · exact h e hold i hi
  · obtain ⟨x, hx, rfl⟩ := List.mem_map.mp hnew
    exact hstarted x hx i hi

section Frozen

theorem stalls_commit {transaction : Except Thrown Run} {started : List Execution} {next thrown : Next Task}
    (hno : ∀ run', transaction ≠ .ok run') (hthrown : Stalls run ⟨run, [], thrown⟩) :
    Stalls run (commit run transaction started next thrown) := by
  cases htx : transaction with
  | ok run' => exact absurd htx (hno run')
  | error => exact hthrown

theorem stalls_done : Stalls run ⟨run, [], .done⟩ := ⟨rfl, by simp, trivial⟩

theorem stalls_wait {t : Task} (hwaits : t.waits = true) (htodo : ∀ i ∈ t.todo, Done run i) :
    Stalls run ⟨run, [], .wait t⟩ := ⟨rfl, by simp, hwaits, htodo⟩

theorem stalls_run {t : Task} (htodo : ∀ i ∈ t.todo, Done run i) : Stalls run ⟨run, [], .run t⟩ := ⟨rfl, by simp, htodo⟩

theorem stalls_leaving : Stalls run ⟨run, [], .wait .leaving⟩ := stalls_wait rfl (by simp [Task.todo])

theorem stalls_compensate {ending : Ending} {reason : Option String} {advancing : Bool} :
    Stalls run ⟨run, [], .run (compensate run ending reason advancing)⟩ := stalls_run toCompensate_done

theorem stalls_after {u : Undo} : Stalls run ⟨run, [], u.after⟩ := by
  unfold Undo.after
  split
  · exact stalls_leaving
  · exact stalls_done

theorem Frozen.reconcile (h : Frozen run) (htx : reconcileInterrupted run = .ok run') : run' = run := by
  rcases reconcileInterrupted_ok htx with ⟨-, rfl⟩ | ⟨hroom, -⟩
  · rfl
  · exact absurd h.2 (by omega)

theorem Frozen.enterAdvance (h : Frozen run) : Stalls run (Workflows.enterAdvance run false) := by
  unfold Workflows.enterAdvance commit
  rw [if_neg Bool.false_ne_true]
  split
  · rename_i htx
    obtain rfl := h.reconcile htx
    exact stalls_run (by simp [Task.todo])
  · exact stalls_done

theorem Frozen.beginAttempt (h : Frozen run) {definition : Step} {attempt : ℤ} :
    Stalls run (Workflows.beginAttempt run i definition attempt) :=
  stalls_commit (fun _ ↦ h.onStep) stalls_leaving

theorem Frozen.advanceLoop (h : Frozen run) : Stalls run (Workflows.advanceLoop run) := by
  unfold Workflows.advanceLoop
  split
  · exact stalls_done
  · split
    · exact stalls_compensate
    · split
      · exact stalls_compensate
      · split
        · exact stalls_commit (fun _ ↦ h.finish) stalls_done
        · unfold Workflows.advanceStep
          split
          · exact stalls_done
          · split
            · exact stalls_commit (fun _ ↦ h.finish) stalls_done
            · split
              · split
                · exact stalls_done
                · exact stalls_commit (fun _ ↦ h.onStep) stalls_done
              · split
                · exact h.beginAttempt
                · exact stalls_wait rfl (by simp [Task.todo])

theorem Frozen.turn (h : Frozen run) (t : Task) (htodo : ∀ i ∈ t.todo, Done run i) : Stalls run (Workflows.turn run false t) := by
  cases t with
  | enter => exact h.enterAdvance
  | loop => exact h.advanceLoop
  | settled i definition attempt outcome =>
    simp only [Workflows.turn, settle]
    rcases bind_cases outcome (completeAttempt run i attempt) with ⟨output, run', -, htx, -⟩ | ⟨error, hbind⟩
    · exact absurd htx h.onStep
    · rw [hbind]
      exact stalls_commit (fun _ ↦ h.onStep) stalls_leaving
  | retry =>
    simp only [Workflows.turn, retryAttempt]
    split
    · exact stalls_wait rfl (by simp [Task.todo])
    · exact h.beginAttempt
  | returned outcome =>
    cases outcome with
    | ok => exact stalls_run (by simp [Task.todo])
    | error => exact stalls_compensate
  | undo =>
    simp only [Workflows.turn, undoNext]
    split
    · exact stalls_commit (fun _ ↦ h.finish) stalls_after
    · rename_i i rest hrest
      have hdone : ∀ j ∈ i :: rest, Done run j := fun j hj ↦ htodo j (by simpa [Task.todo, hrest] using hj)
      split
      · exact stalls_run fun j hj ↦ hdone j (List.mem_cons_of_mem i hj)
      · refine ⟨rfl, ?_, rfl, fun j hj ↦ hdone j (List.mem_cons_of_mem i hj)⟩
        intro e he j hj
        rw [List.mem_singleton.mp he, Execution.compensation.injEq] at hj
        exact hj ▸ hdone i List.mem_cons_self
  | undone i u outcome =>
    simp only [Workflows.turn, settleUndo]
    rcases bind_cases outcome (markCompensated run i) with ⟨output, run', -, htx, -⟩ | ⟨error, hbind⟩
    · exact absurd htx h.onStep
    · rw [hbind]
      exact stalls_commit (fun _ ↦ h.onStep) stalls_after
  | leaving => exact stalls_done
  | executing | backoff | undoing => exact stalls_wait rfl htodo

theorem Stalls.leads {outcome : Outcome} (h : Stalls run outcome) (hfrozen : Frozen run) (hknown : Known run)
    (hafter : AfterDone history) : outcome.Leads service Idle Busy history := by
  obtain ⟨store, started, next⟩ := outcome
  obtain ⟨rfl, hstarted, hnext⟩ := h
  have hafter' := hafter.append hstarted
  cases next with
  | done => exact ⟨hknown, hafter', .inl hfrozen⟩
  | wait => exact ⟨hnext.1, hknown, hafter', hnext.2, .inl hfrozen⟩
  | run => exact ⟨hknown, hafter', hnext, .inl hfrozen⟩

end Frozen

section Phases

theorem leads_done (hknown : Known run) (hafter : AfterDone history)
    (hphase : (Ready run ∧ Fresh run (compensations history)) ∨ Ended run (compensations history)) :
    (⟨run, [], .done⟩ : Outcome).Leads service Idle Busy history := by
  simp only [Turn.Leads, List.map_nil, List.append_nil]
  exact ⟨hknown, hafter, .inr hphase⟩

variable {t : Task} {definition : Step} {attempt : ℤ} {u : Undo} {decision : Decision} {actorId : String}
  {reason : Option String}

theorem leads_run (hknown : Known run) (hafter : AfterDone history) (htodo : ∀ i ∈ t.todo, Done run i)
    (hphase : Phase run (compensations history) t) : (⟨run, [], .run t⟩ : Outcome).Leads service Idle Busy history := by
  simp only [Turn.Leads, List.map_nil, List.append_nil]
  exact ⟨hknown, hafter, htodo, .inr hphase⟩

theorem leads_wait (hknown : Known run) (hafter : AfterDone history) (hwaits : t.waits = true)
    (htodo : ∀ i ∈ t.todo, Done run i) (hphase : Phase run (compensations history) t) :
    (⟨run, [], .wait t⟩ : Outcome).Leads service Idle Busy history := by
  simp only [Turn.Leads, List.map_nil, List.append_nil]
  exact ⟨hwaits, hknown, hafter, htodo, .inr hphase⟩

theorem leads_commit {transaction : Except Thrown Run} {started : List Execution} {next thrown : Next Task}
    (hknown : Known run) (hafter : AfterDone history)
    (hok : ∀ run', transaction = .ok run' → Turn.Leads service Idle Busy history ⟨run', started, next⟩)
    (hfrozen : ∀ e, transaction = .error e → Frozen run) (hthrown : Stalls run ⟨run, [], thrown⟩) :
    (commit run transaction started next thrown).Leads service Idle Busy history := by
  cases htx : transaction with
  | ok run' => exact hok run' htx
  | error e => exact hthrown.leads (hfrozen e htx) hknown hafter

theorem leads_compensate (hknown : Known run) (hafter : AfterDone history) (hunfinished : run.status.terminal = false)
    (hsettled : Settled run) (hfresh : Fresh run (compensations history)) (ending : Ending) (reason : Option String)
    (advancing : Bool) :
    (⟨run, [], .run (compensate run ending reason advancing)⟩ : Outcome).Leads service Idle Busy history := by
  refine leads_run hknown hafter toCompensate_done ⟨hunfinished, hsettled, ?_⟩
  rw [hfresh.log]
  exact toCompensate_eq_due hknown hfresh

theorem Ready.not_running (h : Ready run) : .running ∉ run.statuses := by
  intro hmem
  rcases h.statuses _ hmem with heq | heq | heq <;> cases heq

theorem Ready.others (h : Ready run) {a : StepStatus} (hi : run.statuses[i]? = some a) (ha : a.unsettled = true)
    (hfirst : ∀ j < i, ∀ s, run.statuses[j]? = some s → s.unsettled = false) :
    ∀ j s, j ≠ i → run.statuses[j]? = some s → s = .pending ∨ s = .completed := by
  intro j s hj hs
  have hmem := h.statuses s (List.mem_of_getElem? hs)
  rcases Nat.lt_or_gt_of_ne hj with hlt | hgt
  · have hsettled := hfirst j hlt s hs
    rcases hmem with rfl | rfl | rfl
    · cases hsettled
    · cases hsettled
    · exact .inr rfl
  · have huntouched := h.order i j a s hgt hi hs ha
    rcases hmem with rfl | rfl | rfl
    · exact .inl rfl
    · cases huntouched
    · cases huntouched

theorem leads_begin (hknown : Known run) (hafter : AfterDone history) (hfresh : Fresh run (compensations history))
    (hunfinished : run.status.terminal = false) (hrequested : run.cancellationRequested = false)
    (horder : InOrder run.statuses) {a : StepStatus} (hi : run.statuses[i]? = some a) (ha : a.unsettled = true)
    (hfirst : ∀ j < i, ∀ s, run.statuses[j]? = some s → s.unsettled = false)
    (hothers : ∀ j s, j ≠ i → run.statuses[j]? = some s → s = .pending ∨ s = .completed) :
    (beginAttempt run i definition attempt).Leads service Idle Busy history := by
  refine leads_commit hknown hafter ?_ (fun _ ↦ frozen_of_onStep hunfinished hi) stalls_leaving
  intro run' htx
  have hset := onStep_statuses (b := .running) htx (fun _ _ ↦ rfl)
  obtain ⟨hstatus, hrequested'⟩ := onStep_rest htx
  have hatwork : AtWork run' i := by
    refine ⟨by rw [hstatus]; rfl, hrequested'.trans hrequested, ?_, ?_, ?_⟩
    · rw [hset, List.getElem?_set_self (List.getElem?_eq_some_iff.mp hi).1]
    · intro j s hj hs
      rw [hset, List.getElem?_set_ne hj.symm] at hs
      exact hothers j s hj hs
    · rw [hset]
      exact horder.set hi ha hfirst
  have hfresh' := hfresh.onStep htx (fun step hstep hcompleted ↦ by cases hcompleted)
  refine ⟨rfl, hknown.onStep htx (fun _ ↦ rfl) (fun _ _ ↦ rfl), hafter.append (by simp), by simp [Task.todo], .inr ?_⟩
  rw [compensations_append]
  simpa [Phase] using ⟨hatwork, hfresh'⟩

theorem leads_enter (hknown : Known run) (hafter : AfterDone history)
    (hphase : (Ready run ∧ Fresh run (compensations history)) ∨ Ended run (compensations history)) :
    (enterAdvance run false).Leads service Idle Busy history := by
  have hrunning : .running ∉ run.statuses := by
    rcases hphase with ⟨hready, -⟩ | hended
    · exact hready.not_running
    · exact hended.settled.1
  unfold enterAdvance
  rw [if_neg Bool.false_ne_true, reconcile_still hrunning]
  exact leads_run hknown hafter (by simp [Task.todo]) hphase

theorem leads_step (hknown : Known run) (hafter : AfterDone history) (hready : Ready run)
    (hfresh : Fresh run (compensations history))
    (hfound : (run.steps.findIdx? fun step ↦ step.status = .pending ∨ step.status = .awaitingApproval) = some i) :
    (advanceStep run i).Leads service Idle Busy history := by
  obtain ⟨step, hstep, hopen, hbefore⟩ := first_open hfound
  obtain ⟨definition, hdefinition, -, hattempts⟩ := hknown i step hstep
  have hi : run.statuses[i]? = some step.status := statuses_eq_some.mpr ⟨step, hstep, rfl⟩
  have ha : step.status.unsettled = true := by
    rcases hopen with heq | heq <;> rw [heq] <;> rfl
  have hfirst : ∀ j < i, ∀ s, run.statuses[j]? = some s → s.unsettled = false := by
    intro j hj s hs
    obtain ⟨hpending, hawaiting⟩ := hbefore j hj s hs
    rcases hready.statuses s (List.mem_of_getElem? hs) with rfl | rfl | rfl
    · contradiction
    · contradiction
    · rfl
  simp only [advanceStep, hstep, hdefinition, if_pos hattempts]
  split
  · split
    · exact leads_done hknown hafter (.inl ⟨hready, hfresh⟩)
    · refine leads_commit hknown hafter ?_ (fun _ ↦ frozen_of_onStep hready.unfinished hi) stalls_done
      intro run' htx
      have hset := onStep_statuses (b := .awaitingApproval) htx (fun _ _ ↦ rfl)
      obtain ⟨hstatus, hrequested⟩ := onStep_rest htx
      have hready' : Ready run' := by
        refine ⟨by rw [hstatus]; rfl, hrequested.trans hready.unrequested, ?_, ?_⟩
        · intro s hs
          rw [hset] at hs
          rcases List.mem_or_eq_of_mem_set hs with hold | rfl
          · exact hready.statuses s hold
          · exact .inr (.inl rfl)
        · rw [hset]
          exact hready.order.set hi ha hfirst
      have hfresh' := hfresh.onStep htx (fun step hstep hcompleted ↦ by cases hcompleted)
      exact leads_done (hknown.onStep htx (fun _ ↦ rfl) (fun _ _ ↦ rfl)) hafter (.inl ⟨hready', hfresh'⟩)
  · exact leads_begin hknown hafter hfresh hready.unfinished hready.unrequested hready.order hi ha hfirst
      (hready.others hi ha hfirst)

theorem leads_loop (hknown : Known run) (hafter : AfterDone history)
    (hphase : (Ready run ∧ Fresh run (compensations history)) ∨ Ended run (compensations history)) :
    (advanceLoop run).Leads service Idle Busy history := by
  unfold advanceLoop
  rcases hphase with ⟨hready, hfresh⟩ | hended
  · rw [if_neg (by simp [hready.unfinished]), if_neg (by simp [hready.unrequested])]
    have hfind : run.steps.find? (·.status = .interrupted) = none := by
      rw [List.find?_eq_none]
      intro step hstep hstatus
      rcases hready.statuses _ (List.mem_map_of_mem hstep) with heq | heq | heq <;> simp [heq] at hstatus
    rw [hfind]
    dsimp only
    split
    · rename_i hnone
      have hcompleted : ∀ s ∈ run.statuses, s = .completed := by
        intro s hs
        obtain ⟨step, hstep, rfl⟩ := List.mem_map.mp hs
        have hnot := List.findIdx?_eq_none_iff.mp hnone step hstep
        rw [decide_eq_false_iff_not, not_or] at hnot
        rcases hready.statuses _ hs with heq | heq | heq
        · exact absurd heq hnot.1
        · exact absurd heq hnot.2
        · exact heq
      refine leads_commit hknown hafter ?_ (fun _ ↦ frozen_of_finish hready.unfinished) stalls_done
      intro run' htx
      refine leads_done (hknown.finish htx) hafter (.inr ?_)
      obtain ⟨-, output, rfl⟩ := finishRun_ok htx
      refine ⟨rfl, ⟨fun hmem ↦ ?_, fun hmem ↦ ?_⟩, fun hno ↦ absurd rfl hno⟩
      · cases hcompleted _ hmem
      · cases hcompleted _ hmem
    · exact leads_step hknown hafter hready hfresh ‹_›
  · rw [if_pos hended.finished]
    exact leads_done hknown hafter (.inr hended)

theorem AtWork.set (h : AtWork run i) {b : StepStatus} (hset : run'.statuses = run.statuses.set i b) {s : StepStatus}
    (hs : s ∈ run'.statuses) : s = b ∨ s = .pending ∨ s = .completed := by
  rw [hset] at hs
  obtain ⟨j, hj⟩ := List.mem_iff_getElem?.mp hs
  rw [List.getElem?_set] at hj
  split at hj
  · split at hj
    · exact .inl (Option.some.inj hj).symm
    · cases hj
  · exact .inr (h.statuses j s (Ne.symm ‹_›) hj)

theorem leads_settle (hknown : Known run) (hafter : AfterDone history) (hatwork : AtWork run i)
    (hfresh : Fresh run (compensations history)) {outcome : Except Thrown JsonValue} :
    (settle run i definition attempt outcome).Leads service Idle Busy history := by
  have hfirst := hatwork.order.first hatwork.running rfl
  unfold settle
  rcases bind_cases outcome (completeAttempt run i attempt) with ⟨output, run', -, htx, hbind⟩ | ⟨error, hbind⟩
  · rw [hbind]
    have hset := onStep_statuses (b := .completed) htx (fun _ _ ↦ rfl)
    obtain ⟨hstatus, hrequested⟩ := onStep_rest htx
    have hready : Ready run' ∧ .awaitingApproval ∉ run'.statuses := by
      refine ⟨⟨by rw [hstatus, hatwork.unfinished], hrequested.trans hatwork.unrequested, ?_, ?_⟩, ?_⟩
      · intro s hs
        rcases hatwork.set hset hs with heq | heq | heq
        · exact .inr (.inr heq)
        · exact .inl heq
        · exact .inr (.inr heq)
      · rw [hset]
        exact hatwork.order.set hatwork.running rfl hfirst
      · intro hs
        rcases hatwork.set hset hs with heq | heq | heq <;> cases heq
    have hfresh' : Fresh run' (compensations history) := by
      refine hfresh.onStep htx ?_
      intro step _ _ c hc
      obtain ⟨record, -, rfl⟩ := Option.map_eq_some_iff.mp hc
      rfl
    have hknown' : Known run' := hknown.onStep htx (fun _ ↦ rfl) (fun _ _ ↦ by simp)
    exact leads_wait hknown' hafter rfl (by simp [Task.todo]) ⟨hready, hfresh'⟩
  · rw [hbind]
    refine leads_commit hknown hafter ?_ (fun _ ↦ frozen_of_onStep hatwork.unfinished hatwork.running) stalls_leaving
    intro run' htx
    have hknown' : Known run' := hknown.onStep htx (fun _ ↦ rfl) (fun _ _ ↦ rfl)
    obtain ⟨hstatus, hrequested⟩ := onStep_rest htx
    by_cases hagain : attempt < definition.maxAttempts
    · rw [if_pos hagain]
      simp only [failAttempt, hagain, decide_true, if_true] at htx
      have hsame := (Quiet.onStep htx id (fun _ ↦ rfl) rfl rfl).statuses
      have hatwork' : AtWork run' i := by
        refine ⟨by rw [hstatus, hatwork.unfinished], hrequested.trans hatwork.unrequested, ?_, ?_, ?_⟩ <;> rw [hsame]
        · exact hatwork.running
        · exact hatwork.statuses
        · exact hatwork.order
      have hfresh' : Fresh run' (compensations history) :=
        hfresh.onStep htx fun step hstep hcompleted ↦ hfresh.pending step (List.mem_of_getElem? hstep) hcompleted
      split
      · exact leads_wait hknown' hafter rfl (by simp [Task.todo]) ⟨hatwork', hfresh'⟩
      · exact leads_run hknown' hafter (by simp [Task.todo]) ⟨hatwork', hfresh'⟩
    · rw [if_neg hagain]
      simp only [failAttempt, hagain, decide_false, Bool.false_eq_true, if_false] at htx
      have hset := onStep_statuses (b := .failed) htx (fun _ _ ↦ rfl)
      have hsettled : Settled run' := by
        constructor <;> intro hs <;> rcases hatwork.set hset hs with heq | heq | heq <;> cases heq
      have hfresh' : Fresh run' (compensations history) :=
        hfresh.onStep htx fun _ _ hcompleted ↦ by cases hcompleted
      exact leads_wait hknown' hafter rfl (by simp [Task.todo]) ⟨⟨by rw [hstatus, hatwork.unfinished], hsettled⟩, hfresh'⟩

theorem leads_retry (hknown : Known run) (hafter : AfterDone history) (hatwork : AtWork run i)
    (hfresh : Fresh run (compensations history)) :
    (retryAttempt run i definition attempt).Leads service Idle Busy history := by
  unfold retryAttempt
  rw [if_neg (by simp [hatwork.unrequested])]
  exact leads_begin hknown hafter hfresh hatwork.unfinished hatwork.unrequested hatwork.order hatwork.running rfl
    (hatwork.order.first hatwork.running rfl) hatwork.statuses

theorem leads_after (hknown : Known run) (hafter : AfterDone history) (hended : Ended run (compensations history)) :
    (⟨run, [], u.after⟩ : Outcome).Leads service Idle Busy history := by
  unfold Undo.after
  split
  · exact leads_wait hknown hafter rfl (by simp [Task.todo]) hended
  · exact leads_done hknown hafter (.inr hended)

theorem Undoing.declared {todo rest : List ℕ} (h : Undoing run log todo) (htodo : todo = i :: rest) :
    (declaredCompensation run i).isSome = true := by
  have hmem : i ∈ Workflows.due run := by
    rw [← h.due, htodo]
    simp
  exact (mem_due.mp hmem).2

theorem leads_undo (hknown : Known run) (hafter : AfterDone history) (htodo : ∀ i ∈ u.todo, Done run i)
    (hundoing : Undoing run (compensations history) u.todo) : (undoNext run u).Leads service Idle Busy history := by
  unfold undoNext
  split
  · rename_i hnone
    refine leads_commit hknown hafter ?_ (fun _ ↦ frozen_of_finish hundoing.unfinished) stalls_after
    intro run' htx
    refine leads_after (hknown.finish htx) hafter ⟨?_, ?_, ?_⟩
    · obtain ⟨-, output, rfl⟩ := finishRun_ok htx
      show RunStatus.terminal (if u.failed then .compensationFailed else u.ending.status) = true
      split
      · rfl
      · cases u.ending <;> rfl
    · obtain ⟨-, output, rfl⟩ := finishRun_ok htx
      exact hundoing.settled
    · intro _
      rw [due_finish htx, ← hundoing.due, hnone, List.append_nil]
  · rename_i i rest hrest
    have hdone : ∀ j ∈ i :: rest, Done run j := fun j hj ↦ htodo j (hrest ▸ hj)
    have hdeclared := hundoing.declared hrest
    split
    · rename_i hno
      rw [hno] at hdeclared
      cases hdeclared
    · refine ⟨rfl, hknown, hafter.append ?_, fun j hj ↦ hdone j (List.mem_cons_of_mem i hj), .inr ?_⟩
      · intro e he j hj
        rw [List.mem_singleton.mp he, Execution.compensation.injEq] at hj
        exact hj ▸ hdone i List.mem_cons_self
      · rw [compensations_append]
        refine ⟨⟨hundoing.unfinished, hundoing.settled, ?_⟩, by simp⟩
        rw [← hundoing.due, hrest]
        simp

theorem Undoing.onStep (hknown : Known run) {todo : List ℕ} (h : Undoing run log todo) (hi : i ∈ log)
    {record : CompensationRecord} {event : Event}
    (htx : Workflows.onStep run i run.status (fun step ↦ { step with compensation := some record }) event = .ok run')
    (hrejection : event.isRejection = false) (hcancellation : event.isCancellation = false) :
    Known run' ∧ Undoing run' log todo ∧ run'.statuses = run.statuses := by
  have hmem : i ∈ Workflows.due run := by
    rw [← h.due]
    exact List.mem_append_left todo hi
  have hdeclared := (mem_due.mp hmem).2
  have hsame := (Quiet.onStep htx id (fun _ ↦ rfl) hrejection hcancellation).statuses
  refine ⟨?_, ?_, hsame⟩
  · refine hknown.onStep htx (fun _ ↦ rfl) ?_
    intro step hstep
    rw [← declared_isSome hknown hstep, hdeclared]
    rfl
  · refine ⟨by rw [(onStep_rest htx).1, h.unfinished], ?_, ?_⟩
    · rw [Settled, hsame]
      exact h.settled
    · rw [due_onStep htx (fun _ ↦ rfl) (fun _ ↦ rfl)]
      exact h.due

theorem leads_undone (hknown : Known run) (hafter : AfterDone history) (htodo : ∀ i ∈ u.todo, Done run i)
    (hundoing : Undoing run (compensations history) u.todo) (hi : i ∈ compensations history)
    {outcome : Except Thrown JsonValue} : (settleUndo run i u outcome).Leads service Idle Busy history := by
  have hstep : run.statuses[i]? = some .completed := by
    have hmem : i ∈ due run := by
      rw [← hundoing.due]
      exact List.mem_append_left u.todo hi
    exact statuses_eq_some.mpr (mem_due.mp hmem).1
  have hdone {run' : Run} (hsame : run'.statuses = run.statuses) : ∀ j ∈ u.todo, Done run' j := by
    intro j hj
    refine statuses_eq_some.mp ?_
    rw [hsame]
    exact statuses_eq_some.mpr (htodo j hj)
  unfold settleUndo
  rcases bind_cases outcome (markCompensated run i) with ⟨output, run', -, htx, hbind⟩ | ⟨error, hbind⟩
  · rw [hbind]
    obtain ⟨hknown', hundoing', hsame⟩ := hundoing.onStep hknown hi htx rfl rfl
    exact leads_run hknown' hafter (hdone hsame) hundoing'
  · rw [hbind]
    refine leads_commit hknown hafter ?_ (fun _ ↦ frozen_of_onStep hundoing.unfinished hstep) stalls_after
    intro run' htx
    obtain ⟨hknown', hundoing', hsame⟩ := hundoing.onStep hknown hi htx rfl rfl
    exact leads_run hknown' hafter (hdone hsame) hundoing'

theorem Busy.turn (h : Busy run history t) : (Workflows.turn run false t).Leads service Idle Busy history := by
  obtain ⟨hknown, hafter, htodo, hphase⟩ := h
  rcases hphase with hfrozen | hphase
  · exact (hfrozen.turn t htodo).leads hfrozen hknown hafter
  · cases t with
    | enter => exact leads_enter hknown hafter (.inl hphase)
    | loop => exact leads_loop hknown hafter hphase
    | settled => exact leads_settle hknown hafter hphase.1 hphase.2
    | retry => exact leads_retry hknown hafter hphase.1 hphase.2
    | returned outcome =>
      cases outcome with
      | ok => exact leads_run hknown hafter htodo (.inl ⟨hphase.1.1, hphase.2⟩)
      | error e => exact leads_compensate hknown hafter hphase.1.1 hphase.1.2 hphase.2 .failed e true
    | undo => exact leads_undo hknown hafter htodo hphase
    | undone => exact leads_undone hknown hafter htodo hphase.1 hphase.2
    | leaving => exact leads_done hknown hafter (.inr hphase)
    | executing | backoff | undoing => exact leads_wait hknown hafter rfl htodo hphase

theorem Known.decide (h : Known run) (htx : decideApproval run i decision actorId reason = .ok run') : Known run' := by
  simp only [decideApproval, bind_ok, demand_ok, require_ok, exists_unit] at htx
  obtain ⟨-, -, -, htx⟩ := htx
  exact h.onStep htx (fun _ ↦ rfl) (fun _ _ ↦ rfl)

theorem Fresh.decide (h : Fresh run log) (htx : decideApproval run i decision actorId reason = .ok run') :
    Fresh run' log := by
  simp only [decideApproval, bind_ok, demand_ok, require_ok, exists_unit] at htx
  obtain ⟨-, -, -, htx⟩ := htx
  refine h.onStep htx ?_
  intro step _ hcompleted
  cases decision <;> cases hcompleted

theorem Ready.decide (h : Ready run) (htx : decideApproval run i decision actorId reason = .ok run') :
    (decision = .approve → Ready run') ∧ (decision = .reject → run'.status.terminal = false ∧ Settled run') := by
  obtain ⟨step, hstep, hawaiting, -, heq⟩ := decideApproval_ok htx
  have hi : run.statuses[i]? = some .awaitingApproval := statuses_eq_some.mpr ⟨step, hstep, hawaiting⟩
  have hfirst := h.order.first hi rfl
  have hset : run'.statuses = run.statuses.set i (if decision = .approve then .pending else .rejected) := by
    rw [heq]
    exact List.map_set
  constructor
  · rintro rfl
    refine ⟨by rw [heq]; exact h.unfinished, by rw [heq]; exact h.unrequested, ?_, ?_⟩
    · intro s hs
      rw [hset] at hs
      rcases List.mem_or_eq_of_mem_set hs with hold | rfl
      · exact h.statuses s hold
      · exact .inl rfl
    · rw [hset]
      exact h.order.set hi rfl hfirst
  · rintro rfl
    have hstatuses : ∀ s ∈ run'.statuses, s = .pending ∨ s = .completed ∨ s = .rejected := by
      intro s hs
      rw [hset] at hs
      obtain ⟨j, hj⟩ := List.mem_iff_getElem?.mp hs
      rw [List.getElem?_set] at hj
      split at hj
      · split at hj
        · cases hj
          exact .inr (.inr rfl)
        · cases hj
      · rcases h.others hi rfl hfirst j s (Ne.symm ‹_›) hj with heq | heq
        · exact .inl heq
        · exact .inr (.inl heq)
    refine ⟨by rw [heq]; rfl, fun hmem ↦ ?_, fun hmem ↦ ?_⟩ <;>
      rcases hstatuses _ hmem with heq | heq | heq <;> cases heq

theorem Ready.cancel (h : Ready run) {reason : String} (htx : cancelRun run reason actorId = .ok run') :
    run'.status.terminal = false ∧ Settled run' := by
  obtain ⟨-, -, rfl⟩ := cancelRun_ok htx
  refine ⟨rfl, ?_⟩
  have hstatuses : ∀ s ∈ (run.steps.map cancelStep).map (·.status), s = .cancelled ∨ s = .completed := by
    intro s hs
    rw [cancelStep_statuses] at hs
    obtain ⟨old, hold, rfl⟩ := List.mem_map.mp hs
    rcases h.statuses old hold with rfl | rfl | rfl
    · exact .inl rfl
    · exact .inl rfl
    · exact .inr rfl
  constructor <;> intro hmem <;> rcases hstatuses _ hmem with heq | heq <;> cases heq

theorem cancelStep_compensation (step : RunStep) : (cancelStep step).compensation = step.compensation := by
  unfold cancelStep
  split <;> rfl

theorem Known.cancel (h : Known run) {reason : String} (htx : cancelRun run reason actorId = .ok run') :
    Known run' := by
  obtain ⟨-, -, rfl⟩ := cancelRun_ok htx
  refine h.frame rfl ?_
  intro j step' hstep'
  obtain ⟨step, hstep, rfl⟩ := Option.map_eq_some_iff.mp (List.getElem?_map ▸ hstep')
  exact ⟨step, hstep, cancelStep_key step, by rw [cancelStep_compensation]⟩

theorem Fresh.cancel (h : Fresh run log) {reason : String} (htx : cancelRun run reason actorId = .ok run') :
    Fresh run' log := by
  obtain ⟨-, -, rfl⟩ := cancelRun_ok htx
  refine ⟨?_, h.log⟩
  intro step' hstep' hcompleted
  obtain ⟨step, hstep, rfl⟩ := List.mem_map.mp hstep'
  rw [cancelStep_compensation]
  refine h.pending step hstep ?_
  rw [cancelStep_status] at hcompleted
  split at hcompleted
  · cases hcompleted
  · exact hcompleted

theorem Frozen.decide (h : Frozen run) :
    decideApproval run i decision actorId reason ≠ .ok run' := by
  intro htx
  obtain ⟨-, -, -, hroom, -⟩ := decideApproval_ok htx
  exact absurd h.2 (by omega)

theorem Frozen.cancel (h : Frozen run) {reason : String} : cancelRun run reason actorId ≠ .ok run' := by
  intro htx
  obtain ⟨-, hroom, -⟩ := cancelRun_ok htx
  exact absurd h.2 (by omega)

theorem Idle.call (h : Idle run history) (request : Request) :
    (Workflows.call run false request).Leads service Idle Busy history := by
  obtain ⟨hknown, hafter, hphase⟩ := h
  cases request with
  | advance =>
    rcases hphase with hfrozen | hphase
    · exact hfrozen.enterAdvance.leads hfrozen hknown hafter
    · exact leads_enter hknown hafter hphase
  | decideApproval i decision actorId reason =>
    simp only [Workflows.call]
    cases htx : decideApproval run i decision actorId reason with
    | error =>
      rcases hphase with hfrozen | hphase
      · exact stalls_done.leads hfrozen hknown hafter
      · exact leads_done hknown hafter hphase
    | ok =>
      rcases hphase with hfrozen | ⟨hready, hfresh⟩ | hended
      · exact absurd htx hfrozen.decide
      · obtain ⟨happrove, hreject⟩ := hready.decide htx
        have hknown' := hknown.decide htx
        have hfresh' := hfresh.decide htx
        cases decision with
        | approve => exact leads_run hknown' hafter (by simp [Task.todo]) ⟨happrove rfl, hfresh'⟩
        | reject =>
          obtain ⟨hunfinished, hsettled⟩ := hreject rfl
          exact leads_compensate hknown' hafter hunfinished hsettled hfresh' .rejected _ false
      · exact absurd htx (decide_refused hended.settled.2)
  | cancelRun reason actorId =>
    simp only [Workflows.call]
    cases htx : cancelRun run reason actorId with
    | error =>
      rcases hphase with hfrozen | hphase
      · exact stalls_done.leads hfrozen hknown hafter
      · exact leads_done hknown hafter hphase
    | ok =>
      rcases hphase with hfrozen | ⟨hready, hfresh⟩ | hended
      · exact absurd htx hfrozen.cancel
      · obtain ⟨hunfinished, hsettled⟩ := hready.cancel htx
        exact leads_compensate (hknown.cancel htx) hafter hunfinished hsettled (hfresh.cancel htx) .cancelled _ false
      · have hrefused := (cancelRun_ok htx).1
        rw [hended.finished] at hrefused
        cases hrefused

theorem Busy.not_awaiting (h : Phase run log t) (hwaits : t.waits = true) : .awaitingApproval ∉ run.statuses := by
  cases t with
  | enter | loop | settled | retry | undo | undone => cases hwaits
  | executing i definition attempt | backoff i definition attempt =>
    intro hmem
    obtain ⟨j, hj⟩ := List.mem_iff_getElem?.mp hmem
    by_cases hji : j = i
    · rw [hji, h.1.running] at hj
      cases hj
    · rcases h.1.statuses j _ hji hj with heq | heq <;> cases heq
  | returned outcome =>
    cases outcome with
    | ok => exact h.1.2
    | error => exact h.1.2.2
  | undoing => exact h.1.settled.2
  | leaving => exact h.settled.2

theorem Busy.refused (h : Busy run history t) (hwaits : t.waits = true) {request : Request}
    (halone : Alone run t request) : Workflows.call run t.advancing request = ⟨run, [], .done⟩ := by
  cases request with
  | advance =>
    rw [show t.advancing = true from halone]
    rfl
  | decideApproval i decision actorId reason =>
    simp only [Workflows.call]
    cases htx : decideApproval run i decision actorId reason with
    | error => rfl
    | ok =>
      rcases h.phase with hfrozen | hphase
      · exact absurd htx hfrozen.decide
      · exact absurd htx (decide_refused (Busy.not_awaiting hphase hwaits))
  | cancelRun reason actorId =>
    simp only [Workflows.call]
    cases htx : cancelRun run reason actorId with
    | error => rfl
    | ok =>
      have hunfinished := (cancelRun_ok htx).1
      rw [show run.status.terminal = true from halone] at hunfinished
      cases hunfinished

end Phases

theorem due_decreasing (run : Run) : (due run).Pairwise (· > ·) :=
  (List.pairwise_reverse.mpr List.pairwise_lt_range).filter _

/-- Where a run is over but not completed, the compensation of each completed step that declares one was executed
once, those of later steps first; and none is executed before its step is completed. -/
structure Undone (live : Live) : Prop where
  decreasing : live.store.status.terminal = true → live.store.status ≠ .completed →
    (compensations live.history).Pairwise (· > ·)
  each : live.store.status.terminal = true → live.store.status ≠ .completed →
    ∀ i, i ∈ compensations live.history ↔ Done live.store i ∧ (declaredCompensation live.store i).isSome = true
  after : AfterDone live.history

abbrev Driven : Live → Prop := Solo service Idle Busy

variable {live : Live}

theorem Driven.step (h : Driven live) {a : RunAction} (ha : Uncontended Alone live a) :
    Driven (Cooperative.step service live a) := by
  refine Solo.step (fun _ _ request hidle ↦ hidle.call request) (fun _ _ t request hwaits hbusy ↦ hbusy.refused hwaits)
    (fun _ _ t hbusy ↦ hbusy.turn) ?_ h ha
  intro run history t outcome hbusy
  obtain ⟨hknown, hafter, htodo, hphase⟩ := hbusy
  cases t with
  | returned => exact ⟨hknown, hafter, htodo, hphase⟩
  | enter | loop | executing | settled | backoff | retry | undo | undoing | undone | leaving =>
    exact ⟨hknown, hafter, htodo, hphase⟩

theorem Driven.start {workflow : Workflow} (hsound : Sound workflow.steps) (input : JsonValue) (key : Option String)
    (projectId : JsonValue) (replayOf : Option ℕ) : Driven (.start (newRun workflow input key projectId replayOf)) := by
  have hpending : ∀ s ∈ (newRun workflow input key projectId replayOf).statuses, s = .pending := by
    intro s hs
    simp only [Run.statuses, newRun, List.map_map, List.mem_map] at hs
    obtain ⟨step, -, rfl⟩ := hs
    rfl
  refine .idle ⟨?_, by simp [AfterDone], .inr (.inl ⟨⟨rfl, rfl, fun s hs ↦ .inl (hpending s hs), ?_⟩, ?_, rfl⟩)⟩
  · intro i step hstep
    obtain ⟨definition, hdefinition, rfl⟩ := Option.map_eq_some_iff.mp (List.getElem?_map ▸ hstep)
    have hmem := List.mem_of_getElem? hdefinition
    obtain ⟨found, hfound⟩ : ∃ found, workflow.steps.find? (·.key = definition.key) = some found := by
      rw [← Option.isSome_iff_exists, List.find?_isSome]
      exact ⟨definition, hmem, decide_eq_true rfl⟩
    have hkey : found.key = definition.key := by simpa using List.find?_some hfound
    obtain rfl := List.inj_on_of_nodup_map hsound.keys (List.mem_of_find?_eq_some hfound) hmem hkey
    exact ⟨found, hfound, by simp [RunStep.of], (hsound.steps found hmem).attempts.1⟩
  · intro i j a b _ _ hb _
    rw [hpending b (List.mem_of_getElem? hb)]
    rfl
  · intro step hstep hcompleted
    rw [hpending step.status (List.mem_map_of_mem hstep)] at hcompleted
    cases hcompleted

theorem Phase.ended {run : Run} {log : List ℕ} {t : Task} (h : Phase run log t) (hterminal : run.status.terminal = true) :
    Ended run log ∧ (t = .loop ∨ t = .leaving) := by
  have hno (hunfinished : run.status.terminal = false) {P : Prop} : P := by
    rw [hterminal] at hunfinished
    cases hunfinished
  cases t with
  | enter => exact hno h.1.unfinished
  | loop =>
    rcases h with ⟨hready, -⟩ | hended
    · exact hno hready.unfinished
    · exact ⟨hended, .inl rfl⟩
  | executing | settled | backoff | retry => exact hno h.1.unfinished
  | returned outcome =>
    cases outcome with
    | ok => exact hno h.1.1.unfinished
    | error => exact hno h.1.1
  | undo => exact hno h.unfinished
  | undoing | undone => exact hno h.1.unfinished
  | leaving => exact ⟨h, .inr rfl⟩

theorem Idle.ended (h : Idle run history) (hterminal : run.status.terminal = true) : Ended run (compensations history) := by
  rcases h.phase with hfrozen | ⟨hready, -⟩ | hended
  · exact absurd (hterminal.symm.trans hfrozen.1) Bool.noConfusion
  · exact absurd (hterminal.symm.trans hready.unfinished) Bool.noConfusion
  · exact hended

theorem Busy.ended {t : Task} (h : Busy run history t) (hterminal : run.status.terminal = true) :
    Ended run (compensations history) ∧ (t = .loop ∨ t = .leaving) := by
  rcases h.phase with hfrozen | hphase
  · exact absurd (hterminal.symm.trans hfrozen.1) Bool.noConfusion
  · exact hphase.ended hterminal

theorem Ended.call (h : Ended run log) {busy : Bool} (request : Request) :
    (Workflows.call run busy request).store = run ∧ (Workflows.call run busy request).started = [] := by
  cases request with
  | advance =>
    simp only [Workflows.call, enterAdvance, reconcile_still h.settled.1]
    split <;> exact ⟨rfl, rfl⟩
  | decideApproval i decision actorId reason =>
    simp only [Workflows.call]
    cases htx : decideApproval run i decision actorId reason with
    | error => exact ⟨rfl, rfl⟩
    | ok => exact absurd htx (decide_refused h.settled.2)
  | cancelRun reason actorId =>
    simp only [Workflows.call]
    cases htx : cancelRun run reason actorId with
    | error => exact ⟨rfl, rfl⟩
    | ok =>
      have hunfinished := (cancelRun_ok htx).1
      rw [h.finished] at hunfinished
      cases hunfinished

theorem take_still {outcome : Outcome} (h : outcome.store = live.store ∧ outcome.started = []) :
    (live.take outcome).store = live.store ∧ (live.take outcome).history = live.history := by
  obtain ⟨hstore, hstarted⟩ := h
  refine ⟨hstore, ?_⟩
  rw [State.take, hstarted, List.map_nil, List.append_nil]

theorem Driven.ended (h : Driven live) (hterminal : live.store.status.terminal = true) {a : RunAction} :
    (Cooperative.step service live a).store = live.store ∧ (Cooperative.step service live a).history = live.history := by
  cases a with
  | call request =>
    cases h with
    | idle hidle => exact take_still ((hidle.ended hterminal).call request)
    | running => exact ⟨rfl, rfl⟩
    | waiting hw hbusy => exact take_still ((hbusy.ended hterminal).1.call request)
  | go =>
    cases h with
    | idle => exact ⟨rfl, rfl⟩
    | waiting => exact ⟨rfl, rfl⟩
    | running hbusy =>
      rename_i run history t
      obtain ⟨hended, rfl | rfl⟩ := hbusy.ended hterminal
      · refine take_still ?_
        show (advanceLoop run).store = run ∧ (advanceLoop run).started = []
        rw [advanceLoop, if_pos hended.finished]
        exact ⟨rfl, rfl⟩
      · exact take_still ⟨rfl, rfl⟩
  | resume =>
    simp only [Cooperative.step]
    split <;> exact ⟨rfl, rfl⟩
  | crash => exact ⟨rfl, rfl⟩

theorem Driven.undone (h : Driven live) : Undone live := by
  have hlog (hterminal : live.store.status.terminal = true) (hno : live.store.status ≠ .completed) :
      compensations live.history = due live.store := by
    cases h with
    | idle hidle => exact (hidle.ended hterminal).undone hno
    | running hbusy | waiting hw hbusy => exact (hbusy.ended hterminal).1.undone hno
  refine ⟨?_, ?_, ?_⟩
  · intro hterminal hno
    rw [hlog hterminal hno]
    exact due_decreasing live.store
  · intro hterminal hno i
    rw [hlog hterminal hno]
    exact mem_due
  · cases h with
    | idle hidle => exact hidle.afterDone
    | running hbusy | waiting hw hbusy => exact hbusy.afterDone

def Final (ns : Numerals) (w : World) (a : WorldAction) : Prop :=
  ∀ (k : ℕ) (live : Live), w.runs[k]? = some live → live.store.status.terminal = true →
    ∃ live', (World.step ns w a).runs[k]? = some live' ∧ live'.store.status = live.store.status ∧
      live'.history = live.history

/-- In one process, where a run is cancelled only while no call of it waits, and is advanced only beside no call or
one that advances it, what ended stays as it ended, and all that was completed is compensated once, in order. -/
theorem undone_once (ns : Numerals) (actions : List WorldAction)
    (h : Along (World.step ns) (World.Allowed (Uncontended Alone)) World.empty actions) :
    (∀ live ∈ (after (World.step ns) World.empty actions).runs, Undone live) ∧
      Along (World.step ns) (Final ns) World.empty actions := by
  have hstep : ∀ (w : World) (a : WorldAction), w.Keeps Driven → w.Allowed (Uncontended Alone) a →
      (World.step ns w a).Keeps Driven := by
    intro w a hw ha
    exact hw.step (fun _ input key projectId replayOf hsound ↦ Driven.start hsound input key projectId replayOf)
      (fun _ _ hlive hc ↦ hlive.step hc) ha
  constructor
  · intro live hlive
    exact ((h.invariant hstep World.keeps_empty).runs live hlive).undone
  · refine h.imp (fun w a hw ha ↦ ⟨hstep w a hw ha, ?_⟩) World.keeps_empty
    intro k live hlive hterminal
    obtain ⟨live', hlive', hmoved⟩ := World.step_run ns hlive ha
    refine ⟨live', hlive', ?_⟩
    rcases hmoved with rfl | ⟨b, -, -, rfl⟩
    · exact ⟨rfl, rfl⟩
    · obtain ⟨hstore, hhistory⟩ := (hw.runs live (List.mem_of_getElem? hlive)).ended hterminal (a := b)
      exact ⟨by rw [hstore], hhistory⟩

theorem uncontended_of_idle {w : World} {k : ℕ} (h : (w.runs[k]?.map fun live ↦ live.waiting.length) = some 0) :
    ∀ live, w.runs[k]? = some live → ∀ request, Uncontended Alone live (.call request : RunAction) := by
  intro live hlive request t ht
  rw [hlive, Option.map_some, Option.some.injEq, List.length_eq_zero_iff] at h
  rw [h] at ht
  cases ht

def waitStep : JsonValue :=
  .object [("key", .string "a"), ("type", .string "wait"), ("durationMs", .number (.ofRat 1000)),
    ("compensation", .object [("type", .string "transform")])]

/-- The first step is completed, the second one fails, and the first one is compensated. -/
def failedAndUndone : List WorldAction :=
  [.define (.createWorkflow "w" (named [waitStep, .object [("key", .string "b"), ("type", .string "host_mutation"),
      ("requiresApproval", .bool false)]]) none), .createRun "w" .null none .null, .request 0 .advance, .go 0,
    .resume 0 0 (.ok .null), .go 0, .resume 0 0 (.ok .null), .go 0, .go 0, .resume 0 0 (.error notExecutable),
    .go 0, .resume 0 0 (.ok .null), .go 0, .go 0, .resume 0 0 (.ok .null), .go 0, .go 0]

theorem undone_once_failed :
    (∀ live ∈ (after (World.step numerals) World.empty failedAndUndone).runs, Undone live) ∧
      Along (World.step numerals) (Final numerals) World.empty failedAndUndone := by
  refine undone_once numerals failedAndUndone ⟨trivial, trivial, ?_, ?_⟩
  · intro _ live hlive
    exact uncontended_of_idle (by decide +kernel) live hlive .advance
  · simp only [Along, World.Allowed, Uncontended, implies_true, and_self]

def cancelledAtWork : List WorldAction :=
  [.define (.createWorkflow "w" (named [waitStep]) none), .createRun "w" .null none .null, .request 0 .advance, .go 0,
    .request 0 (.cancelRun "not needed" "owner"), .go 0]

/-- The step exceeds its time limit after that, and the run, which is cancelled by then, is about to be failed. -/
def failedAfterCancel : List WorldAction :=
  cancelledAtWork ++ [.resume 0 0 (.error ⟨"Step \"a\" exceeded its 30000ms timeout.", some 504⟩), .go 0,
    .resume 0 0 (.ok .null), .go 0]

/-- The step is completed after the run is cancelled, and is not compensated; or it fails, and the run is failed. -/
theorem cancelled_at_work :
    ¬(∀ live ∈ (after (World.step numerals) World.empty (cancelledAtWork ++ [.resume 0 0 (.ok .null), .go 0])).runs,
        Undone live) ∧
      ¬Along (World.step numerals) (Final numerals) World.empty (failedAfterCancel ++ [.go 0]) := by
  constructor
  · intro h
    have hruns : (after (World.step numerals) World.empty (cancelledAtWork ++ [.resume 0 0 (.ok .null), .go 0])).runs.map
        (fun live ↦ (live.store.status, live.store.statuses, (declaredCompensation live.store 0).isSome,
          compensations live.history)) = [(.cancelled, [.completed], true, [])] := by decide +kernel
    obtain ⟨live, hlive, heq⟩ := List.map_eq_singleton_iff.mp hruns
    rw [Prod.mk.injEq, Prod.mk.injEq, Prod.mk.injEq] at heq
    obtain ⟨hstatus, hstatuses, hdeclared, hnone⟩ := heq
    have hundone : Undone live := h live (by simp [hlive])
    have hdone : Done live.store 0 := statuses_eq_some.mp (by rw [hstatuses]; rfl)
    have hmem := (hundone.each (by rw [hstatus]; rfl) (by rw [hstatus]; decide) 0).mpr ⟨hdone, hdeclared⟩
    rw [hnone] at hmem
    cases hmem
  · intro h
    have hbefore : (after (World.step numerals) World.empty failedAfterCancel).runs.map (·.store.status) = [.cancelled] := by
      decide +kernel
    have hafter : (World.step numerals (after (World.step numerals) World.empty failedAfterCancel) (.go 0)).runs.map
        (·.store.status) = [.failed] := by decide +kernel
    obtain ⟨live, hlive, hstatus⟩ := List.map_eq_singleton_iff.mp hbefore
    obtain ⟨live', hlive', hstatus'⟩ := List.map_eq_singleton_iff.mp hafter
    obtain ⟨found, hfound, hsame, -⟩ := (Along.append.mp h).2.1 0 live (by simp [hlive]) (by rw [hstatus]; rfl)
    rw [hlive'] at hfound
    obtain rfl := Option.some.inj hfound
    rw [hstatus', hstatus] at hsame
    cases hsame

end Noesar.Workflows
