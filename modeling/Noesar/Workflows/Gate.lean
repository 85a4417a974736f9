import Noesar.Workflows.Transactions
import Noesar.Workflows.World

namespace Noesar.Workflows

open Lib Lib.Cooperative

/-- `decideApproval` has recorded that this step is approved. -/
def Approved (evidence : List Evidence) (key : String) : Prop :=
  ∃ actorId reason, ⟨some key, .decided .approve actorId reason⟩ ∈ evidence

/-- What is recorded as started of a step that needs an approval was approved before. -/
def Ordered (steps : List Step) (evidence : List Evidence) : Prop :=
  ∀ before entry later, evidence = before ++ entry :: later → ∀ key attempt maxAttempts,
    entry = ⟨some key, .attemptStarted attempt maxAttempts⟩ → ∀ definition ∈ steps, definition.key = key →
      definition.requiresApproval = true → Approved before key

structure Gated (run : Run) : Prop where
  nodup : (run.definition.steps.map (·.key)).Nodup
  approved : ∀ step ∈ run.steps, step.approval.decision = some .approve → Approved run.evidence step.key
  ordered : Ordered run.definition.steps run.evidence

/-- The step is being executed under this definition of it, with the approval that the definition asks for. -/
def Working (run : Run) (i : ℕ) (definition : Step) : Prop :=
  ∃ step, run.steps[i]? = some step ∧ step.status = .running ∧ step.key = definition.key ∧
    definition ∈ run.definition.steps ∧ (definition.requiresApproval = true → step.approval.decision = some .approve)

def GatedTask (run : Run) : Task → Prop
  | .executing i definition _ | .settled i definition _ _ | .backoff i definition _ | .retry i definition _ =>
    Working run i definition
  | _ => True

def GatedExecution (run : Run) : Execution → Prop
  | .attempt i _ => ∃ step, run.steps[i]? = some step ∧ ∀ definition ∈ run.definition.steps, definition.key = step.key →
      definition.requiresApproval = true → step.approval.decision = some .approve ∧ Approved run.evidence step.key
  | .compensation _ => True

variable {run run' : Run} {i : ℕ}

variable {evidence : List Evidence} {status : RunStatus} {actorId : String} {definition : Step}

theorem Approved.append {key : String} (h : Approved evidence key) (entries : List Evidence) :
    Approved (evidence ++ entries) key := by
  obtain ⟨actorId, reason, hmem⟩ := h
  exact ⟨actorId, reason, List.mem_append_left entries hmem⟩

theorem Ordered.snoc {steps : List Step} (h : Ordered steps evidence) {entry : Evidence}
    (hentry : ∀ key attempt maxAttempts, entry = ⟨some key, .attemptStarted attempt maxAttempts⟩ →
      ∀ definition ∈ steps, definition.key = key → definition.requiresApproval = true → Approved evidence key) :
    Ordered steps (evidence ++ [entry]) := by
  intro before found later hsplit
  rcases List.eq_nil_or_concat later with rfl | ⟨later, last, rfl⟩
  · obtain ⟨rfl, hlast⟩ := List.append_inj' hsplit rfl
    obtain rfl : entry = found := by simpa using hlast
    exact hentry
  · rw [List.concat_eq_append, ← List.cons_append, ← List.append_assoc] at hsplit
    exact h before found later (List.append_inj_left' hsplit rfl)

theorem Ordered.append {steps : List Step} {entries : List Evidence} (h : Ordered steps evidence)
    (hentries : ∀ e ∈ entries, ∀ attempt maxAttempts, e.event ≠ .attemptStarted attempt maxAttempts) :
    Ordered steps (evidence ++ entries) := by
  induction entries generalizing evidence with
  | nil => simpa using h
  | cons e entries ih =>
    rw [List.append_cons]
    apply ih
    · apply h.snoc
      rintro key attempt maxAttempts rfl
      exact absurd rfl (hentries _ List.mem_cons_self attempt maxAttempts)
    · intro x hx
      exact hentries x (List.mem_cons_of_mem e hx)

theorem Gated.map (h : Gated run) {f : RunStep → RunStep} (hkey : ∀ step, (f step).key = step.key)
    (happroval : ∀ step, (f step).approval = step.approval) {entries : List Evidence}
    (hentries : ∀ e ∈ entries, ∀ attempt maxAttempts, e.event ≠ .attemptStarted attempt maxAttempts)
    (hdefinition : run'.definition = run.definition) (hsteps : run'.steps = run.steps.map f)
    (hevidence : run'.evidence = run.evidence ++ entries) : Gated run' where
  nodup := by
    rw [hdefinition]
    exact h.nodup
  approved := by
    intro step hstep hdecision
    rw [hsteps] at hstep
    obtain ⟨old, hold, rfl⟩ := List.mem_map.mp hstep
    rw [happroval] at hdecision
    rw [hkey, hevidence]
    exact (h.approved old hold hdecision).append entries
  ordered := by
    rw [hdefinition, hevidence]
    exact h.ordered.append hentries

theorem Gated.onStep (h : Gated run) {change : RunStep → RunStep} {event : Event}
    (htx : Workflows.onStep run i status change event = .ok run') (hkey : ∀ step, (change step).key = step.key)
    (happroval : ∀ step, (change step).approval.decision = some .approve →
      step.approval.decision = some .approve ∨ ∃ actorId reason, event = .decided .approve actorId reason)
    (hstart : ∀ attempt maxAttempts, event = .attemptStarted attempt maxAttempts → ∀ step, run.steps[i]? = some step →
      ∀ definition ∈ run.definition.steps, definition.key = step.key → definition.requiresApproval = true →
        Approved run.evidence step.key) : Gated run' := by
  obtain ⟨step, hstep, -, rfl⟩ := onStep_ok htx
  refine ⟨h.nodup, ?_, ?_⟩
  · intro other hother hdecision
    rcases List.mem_or_eq_of_mem_set hother with hother | rfl
    · exact (h.approved other hother hdecision).append _
    · rw [hkey]
      rcases happroval step hdecision with hbefore | ⟨actorId, reason, rfl⟩
      · exact (h.approved step (List.mem_of_getElem? hstep) hbefore).append _
      · exact ⟨actorId, reason, by simp⟩
  · apply h.ordered.snoc
    rintro key attempt maxAttempts hentry definition hdefinition hname hrequires
    rw [Evidence.mk.injEq] at hentry
    obtain ⟨hk, rfl⟩ := hentry
    obtain rfl := Option.some.inj hk
    exact hstart attempt maxAttempts rfl step hstep definition hdefinition hname hrequires

theorem Gated.eq_of_key (h : Gated run) {d d' : Step} (hd : d ∈ run.definition.steps) (hd' : d' ∈ run.definition.steps)
    (hkey : d.key = d'.key) : d = d' :=
  List.inj_on_of_nodup_map h.nodup hd hd' hkey

theorem Gated.reconcile (h : Gated run) (htx : reconcileInterrupted run = .ok run') : Gated run' := by
  rcases reconcileInterrupted_ok htx with ⟨-, rfl⟩ | ⟨-, entries, hentries, rfl⟩
  · exact h
  · refine h.map interruptStep_key interruptStep_approval ?_ rfl rfl rfl
    intro e he attempt maxAttempts
    rw [hentries e he]
    exact Event.noConfusion

theorem Gated.finish (h : Gated run) {error : Option String} (htx : finishRun run status error = .ok run') :
    Gated run' := by
  obtain ⟨-, output, rfl⟩ := finishRun_ok htx
  refine h.map (fun step ↦ rfl) (fun step ↦ rfl) ?_ rfl (List.map_id run.steps).symm rfl
  simp

theorem Gated.cancel (h : Gated run) {reason : String} (htx : cancelRun run reason actorId = .ok run') :
    Gated run' := by
  obtain ⟨-, -, rfl⟩ := cancelRun_ok htx
  refine h.map cancelStep_key cancelStep_approval ?_ rfl rfl rfl
  simp

theorem Gated.decide (h : Gated run) {decision : Decision} {reason : Option String}
    (htx : decideApproval run i decision actorId reason = .ok run') : Gated run' := by
  simp only [decideApproval, bind_ok, demand_ok, require_ok, exists_unit] at htx
  obtain ⟨-, -, -, htx⟩ := htx
  apply h.onStep htx (fun _ ↦ rfl) _ (by simp)
  intro step hdecision
  obtain rfl := Option.some.inj hdecision
  exact .inr ⟨actorId, reason, rfl⟩

theorem Gated.start (h : Gated run) {attempt : ℤ} {step : RunStep} (hstep : run.steps[i]? = some step)
    (hkey : step.key = definition.key) (hmem : definition ∈ run.definition.steps)
    (hgate : definition.requiresApproval = true → step.approval.decision = some .approve)
    (htx : startAttempt run i definition attempt = .ok run') :
    Gated run' ∧ Working run' i definition ∧ GatedExecution run' (.attempt i attempt) := by
  have happroved : ∀ d ∈ run.definition.steps, d.key = step.key → d.requiresApproval = true → Approved run.evidence step.key := by
    intro d hd hdkey hrequires
    obtain rfl := h.eq_of_key hd hmem (hdkey.trans hkey)
    exact h.approved step (List.mem_of_getElem? hstep) (hgate hrequires)
  have hgated : Gated run' := by
    refine h.onStep htx (fun _ ↦ rfl) (fun _ ↦ .inl) ?_
    intro _ _ _ other hother
    obtain rfl := Option.some.inj (hstep.symm.trans hother)
    exact happroved
  obtain ⟨other, hother, -, rfl⟩ := onStep_ok htx
  obtain rfl := Option.some.inj (hstep.symm.trans hother)
  have hset := List.getElem?_set_self (a := { step with
    status := StepStatus.running
    attempts := step.attempts ++ [⟨attempt, .running, none⟩] }) (List.getElem?_eq_some_iff.mp hstep).1
  refine ⟨hgated, ⟨_, hset, rfl, hkey, hmem, hgate⟩, _, hset, ?_⟩
  intro d hd hdkey hrequires
  obtain rfl := h.eq_of_key hd hmem (hdkey.trans hkey)
  exact ⟨hgate hrequires, (happroved d hd hdkey hrequires).append _⟩

theorem Working.frame (h : Working run i definition) (hdefinition : run'.definition = run.definition)
    (hsteps : ∀ step, run.steps[i]? = some step → step.status = .running → ∃ step', run'.steps[i]? = some step' ∧
      step'.status = .running ∧ step'.key = step.key ∧ step'.approval = step.approval) : Working run' i definition := by
  obtain ⟨step, hstep, hstatus, hkey, hmem, hgate⟩ := h
  obtain ⟨step', hstep', hstatus', hkey', happroval⟩ := hsteps step hstep hstatus
  refine ⟨step', hstep', hstatus', hkey'.trans hkey, hdefinition ▸ hmem, ?_⟩
  rw [happroval]
  exact hgate

theorem Working.onStep (h : Working run i definition) {j : ℕ} {change : RunStep → RunStep} {event : Event}
    (htx : Workflows.onStep run j status change event = .ok run')
    (hchange : ∀ step, run.steps[j]? = some step → step.status = .running → j = i →
      (change step).status = .running ∧ (change step).key = step.key ∧ (change step).approval = step.approval) :
    Working run' i definition := by
  obtain ⟨other, hother, -, rfl⟩ := onStep_ok htx
  refine h.frame rfl ?_
  intro step hstep hstatus
  by_cases hj : j = i
  · subst hj
    obtain rfl := Option.some.inj (hstep.symm.trans hother)
    exact ⟨_, List.getElem?_set_self (List.getElem?_eq_some_iff.mp hstep).1, hchange step hstep hstatus rfl⟩
  · exact ⟨step, by rw [List.getElem?_set_ne hj, hstep], hstatus, rfl, rfl⟩

theorem Working.decide (h : Working run i definition) {j : ℕ} {decision : Decision} {reason : Option String}
    (htx : decideApproval run j decision actorId reason = .ok run') :
    Working run' i definition := by
  obtain ⟨other, hother, hawaiting, -, rfl⟩ := decideApproval_ok htx
  refine h.frame rfl ?_
  intro step hstep hstatus
  have hj : j ≠ i := by
    rintro rfl
    obtain rfl := Option.some.inj (hstep.symm.trans hother)
    rw [hawaiting] at hstatus
    cases hstatus
  exact ⟨step, by rw [List.getElem?_set_ne hj, hstep], hstatus, rfl, rfl⟩

theorem Working.cancel (h : Working run i definition) {reason : String}
    (htx : cancelRun run reason actorId = .ok run') : Working run' i definition := by
  obtain ⟨-, -, rfl⟩ := cancelRun_ok htx
  refine h.frame rfl ?_
  intro step hstep hstatus
  refine ⟨cancelStep step, by simp [hstep], ?_, cancelStep_key step, cancelStep_approval step⟩
  rw [cancelStep_status, hstatus]
  rfl

theorem Working.finish (h : Working run i definition) {error : Option String}
    (htx : finishRun run status error = .ok run') : Working run' i definition := by
  obtain ⟨-, output, rfl⟩ := finishRun_ok htx
  exact h.frame rfl fun step hstep hstatus ↦ ⟨step, hstep, hstatus, rfl, rfl⟩

theorem GatedTask.imp {t : Task} (h : GatedTask run t)
    (hworking : ∀ i definition, Working run i definition → Working run' i definition) : GatedTask run' t := by
  cases t with
  | executing | settled | backoff | retry => exact hworking _ _ h
  | enter | loop | returned | undo | undoing | undone | leaving => trivial

theorem Gated.rules : Rules Gated (fun _ ↦ Gated) GatedTask GatedExecution fun _ _ ↦ True where
  refl h := h
  free {_ t} h := by
    cases t with
    | enter | returned | undo | undoing | undone | leaving => trivial
    | loop | executing | settled | backoff | retry => cases h
  loop _ := trivial
  compensation := trivial
  reconciled h htx := ⟨h.reconcile htx, trivial⟩
  completed h _ _ _ _ htx := h.finish htx
  ended h _ htx := ⟨h.finish htx, fun _ ht ↦ ht.imp fun _ _ hw ↦ hw.finish htx⟩
  asked h _ _ _ htx := h.onStep htx (fun _ ↦ rfl) (fun _ ↦ .inl) (by simp)
  begun {_ _ _ step definition} h _ _ honto hfound hgate _ htx := by
    have hkey : definition.key = step.key := by simpa using List.find?_some hfound
    exact h.start honto.step hkey.symm (List.mem_of_find?_eq_some hfound) hgate htx
  again h ht _ htx := by
    obtain ⟨step, hstep, -, hkey, hmem, hgate⟩ := ht
    exact h.start hstep hkey hmem hgate htx
  succeeded h _ _ htx := ⟨h.onStep htx (fun _ ↦ rfl) (fun _ ↦ .inl) (by simp), trivial⟩
  failed h ht htx := by
    refine ⟨h.onStep htx (fun _ ↦ rfl) (fun _ ↦ .inl) (by split <;> simp), ?_⟩
    intro hagain
    have hstill := Working.onStep ht htx fun step _ hstatus _ ↦ ⟨by simp [hagain, hstatus], rfl, rfl⟩
    exact ⟨hstill, hstill⟩
  marked h htx := by
    rcases htx with ⟨output, htx⟩ | ⟨error, htx⟩ <;>
      exact ⟨h.onStep htx (fun _ ↦ rfl) (fun _ ↦ .inl) (by simp),
        fun _ ht ↦ ht.imp fun _ _ hw ↦ hw.onStep htx fun _ _ hstatus _ ↦ ⟨hstatus, rfl, rfl⟩⟩

theorem Gated.step {live : Live} (h : Inv service Gated GatedTask GatedExecution live) (a : RunAction) :
    Inv service Gated GatedTask GatedExecution (Cooperative.step service live a) := by
  refine h.step (C := fun _ _ _ ↦ True) (D := fun _ _ _ ↦ True) ?_ ?_ ?_ ?_
  · intro run busy request hgated _
    exact Gated.rules.call hgated (fun htx ↦ ⟨hgated.decide htx, fun _ ht ↦ ht.imp fun _ _ hw ↦ hw.decide htx⟩)
      (fun htx ↦ ⟨hgated.cancel htx, fun _ ht ↦ ht.imp fun _ _ hw ↦ hw.cancel htx⟩) request
  · intro run busy t hgated ht _ _
    exact Gated.rules.turn hgated ht trivial
  · intro run t outcome ht
    cases t <;> exact ⟨ht, rfl⟩
  · cases a with
    | call | go => exact fun _ ↦ by simp
    | resume | crash => trivial

theorem Gated.start_run {workflow : Workflow} (hkeys : (workflow.steps.map (·.key)).Nodup) (input : JsonValue)
    (key : Option String) (projectId : JsonValue) (replayOf : Option ℕ) :
    Inv service Gated GatedTask GatedExecution (.start (newRun workflow input key projectId replayOf)) := by
  refine ⟨⟨hkeys, ?_, ?_⟩, by simp [State.start], by simp [State.start], by simp [State.start], by simp [State.start]⟩
  · intro step hstep hdecision
    obtain ⟨definition, -, rfl⟩ := List.mem_map.mp hstep
    cases hdecision
  · have hnone : Ordered workflow.steps [] := fun before entry later hsplit ↦ by simp at hsplit
    exact hnone.append (by simp)

end Noesar.Workflows

namespace Noesar.Workflows

open Lib Lib.Run Lib.Cooperative

namespace World

variable {ns : Numerals} {w : World} {k : ℕ} {live : Live}

theorem act_length (j : ℕ) (b : RunAction) : (w.act j b).runs.length = w.runs.length := by
  unfold act
  split <;> simp

def New (live : Live) : Prop :=
  ∃ workflow input key projectId replayOf, live = .start (newRun workflow input key projectId replayOf)

theorem add_new {run : Run} (hnew : New (.start run)) (hk : w.runs.length ≤ k) (h : (w.add run).runs[k]? = some live) :
    New live := by
  rw [add, List.getElem?_append_right hk, List.getElem?_singleton] at h
  split at h
  · cases h
    exact hnew
  · cases h

theorem no_run (hk : w.runs.length ≤ k) (h : w.runs[k]? = some live) : False := by
  rw [List.getElem?_eq_none hk] at h
  cases h

theorem step_new (hk : w.runs.length ≤ k) {a : WorldAction} (h : (step ns w a).runs[k]? = some live) : New live := by
  have hold {w' : World} (hlength : w'.runs.length = w.runs.length) (h : w'.runs[k]? = some live) : New live :=
    (no_run (hlength ▸ hk) h).elim
  cases a with
  | define =>
    simp only [step] at h
    split at h
    · exact hold (by rfl) h
    · exact hold rfl h
  | createRun workflowId input idempotencyKey projectId =>
    simp only [step] at h
    split at h
    · rename_i run _ hrun
      obtain ⟨workflow, -, key, rfl⟩ := createRun_ok hrun
      exact add_new ⟨workflow, input, key, projectId, none, rfl⟩ hk h
    · exact hold rfl h
  | replayRun j =>
    simp only [step] at h
    split at h
    · rename_i run _ hrun
      obtain ⟨original, -, workflow, -, rfl⟩ := replayRun_ok hrun
      exact add_new ⟨workflow, _, none, _, some j, rfl⟩ hk h
    · exact hold rfl h
  | request j =>
    simp only [step] at h
    split at h
    · exact hold (act_length j _) h
    · exact hold rfl h
  | go j => exact hold (act_length j _) h
  | resume j =>
    simp only [step] at h
    split at h
    · exact hold (act_length j _) h
    · exact hold rfl h
  | crash => exact hold (List.length_map _) h

end World

theorem newRun_unapproved {workflow : Workflow} {input : JsonValue} {key : Option String} {projectId : JsonValue}
    {replayOf : Option ℕ} : ∀ step ∈ (newRun workflow input key projectId replayOf).steps,
      step.approval.decision = none ∧ ¬Approved (newRun workflow input key projectId replayOf).evidence step.key := by
  intro step hstep
  obtain ⟨definition, -, rfl⟩ := List.mem_map.mp hstep
  exact ⟨rfl, by simp [Approved, newRun]⟩

theorem approved_step {live : Live} {a : RunAction} {key : String}
    (h : Approved (Cooperative.step service live a).store.evidence key) : Approved live.store.evidence key ∨
      ∃ i step actorId reason, a = .call (.decideApproval i .approve actorId reason) ∧
        live.store.steps[i]? = some step ∧ step.key = key := by
  obtain ⟨actorId, reason, hmem⟩ := h
  obtain ⟨-, entries, hevidence, hentries⟩ := Extends.step live a
  rw [hevidence, List.mem_append] at hmem
  rcases hmem with hold | hnew
  · exact .inl ⟨actorId, reason, hold⟩
  · right
    have hwritable := hentries _ hnew
    match a, hwritable with
    | .call (.decideApproval i decision actorId' reason'), ⟨step, hstep, heq⟩ =>
      rw [Evidence.mk.injEq, Event.decided.injEq, Option.some.injEq] at heq
      obtain ⟨rfl, rfl, rfl, rfl⟩ := heq
      exact ⟨i, step, _, _, rfl, hstep, rfl⟩
    | .call .advance, hundecided | .call (.cancelRun _ _), hundecided | .go, hundecided | .resume _ _, hundecided
    | .crash, hundecided =>
      exact absurd rfl (hundecided _ _ _)

/-- Whatever is asked of the service and however the calls interleave and crash: what is started of a step that
needs an approval has the approval of that step of that run, and has it in the evidence before; an edit of a
workflow leaves the runs; an action leaves the definition of a run, and brings no approval but the one it asks for;
and a new run has none. -/
theorem gated_steps_approved (ns : Numerals) (actions : List WorldAction) :
    let w := after (World.step ns) World.empty actions
    (∀ live ∈ w.runs, Ordered live.store.definition.steps live.store.evidence ∧
      ∀ e ∈ live.history, GatedExecution e.1 e.2) ∧
    (∀ call, (World.step ns w (.define call)).runs = w.runs) ∧
    (∀ a k live, w.runs[k]? = some live → ∃ live', (World.step ns w a).runs[k]? = some live' ∧
      live'.store.definition = live.store.definition ∧
      ∀ key, Approved live'.store.evidence key → Approved live.store.evidence key ∨
        ∃ i step actorId reason, a = .request k (.decideApproval i .approve actorId reason) ∧
          live.store.steps[i]? = some step ∧ step.key = key) ∧
    (∀ a k live, w.runs.length ≤ k → (World.step ns w a).runs[k]? = some live → live.history = [] ∧
      ∀ step ∈ live.store.steps, step.approval.decision = none ∧ ¬Approved live.store.evidence step.key) := by
  intro w
  have hkeeps : w.Keeps (Inv service Gated GatedTask GatedExecution) := by
    refine World.keeps_after ?_ ?_ (.of_forall World.Allowed.always _ _)
    · intro workflow input key projectId replayOf hsound
      exact Gated.start_run hsound.keys input key projectId replayOf
    · intro live a h _
      exact Gated.step h a
  refine ⟨?_, ?_, ?_, ?_⟩
  · intro live hlive
    obtain ⟨hstore, -, -, -, hhistory⟩ := hkeeps.runs live hlive
    exact ⟨hstore.ordered, hhistory⟩
  · intro call
    simp only [World.step]
    split <;> rfl
  · intro a k live hlive
    obtain ⟨live', hlive', hmoved⟩ := World.step_run ns hlive (World.Allowed.always w a)
    refine ⟨live', hlive', ?_⟩
    rcases hmoved with rfl | ⟨b, hb, -, rfl⟩
    · exact ⟨rfl, fun _ ↦ .inl⟩
    · refine ⟨(Extends.step live b).definition, ?_⟩
      intro key happroved
      rcases approved_step happroved with hold | ⟨i, step, actorId, reason, rfl, hstep, hkey⟩
      · exact .inl hold
      · right
        refine ⟨i, step, actorId, reason, ?_, hstep, hkey⟩
        cases a with
        | request =>
          simp only [WorldAction.onRun] at hb
          split at hb
          · rename_i hj
            cases hb
            rw [hj]
          · cases hb
        | go j | resume j =>
          simp only [WorldAction.onRun] at hb
          split at hb <;> cases hb
        | define | createRun | replayRun | crash => cases hb
  · intro a k live hk hlive
    obtain ⟨workflow, input, key, projectId, replayOf, rfl⟩ := World.step_new hk hlive
    exact ⟨rfl, newRun_unapproved⟩

end Noesar.Workflows
