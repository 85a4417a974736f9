import Noesar.Workspace.Machine

namespace Noesar.Workspace

open Lib Lib.Framing Capability Shadow

/-- The record of the run was computed from this shadow: from a copy of the workspace
into which the contents the run holds were written. -/
def Measured (site : Site) (workspace : Files) (run : Run) (shadow : ShadowWorkspace) : Prop :=
  ∃ (step : Capability.Step RawLimits) (shell : Shell) (digest : String) (token : JsToken site.host)
    (minter : JsMinter site.host) (copy : ShadowWorkspace) (result : Result) (diff : List DiffEntry)
    (actor : String) (nowUnix : Number),
    run.plan.steps.head? = some step ∧ ShadowWorkspace.materialise site workspace = .ok copy ∧
    (execute site.executeSandbox shell digest [token] minter copy (run.actions step) run.measuredAgainst nowUnix).1 =
      result ∧
    (execute site.executeSandbox shell digest [token] minter copy (run.actions step) run.measuredAgainst nowUnix).2.2 =
      shadow ∧
    diffOf workspace shadow result = .ok diff ∧
    run = Orchestrator.measuredRun site run shadow result diff actor nowUnix

theorem isOk_iff {ε α : Type} {x : Except ε α} : x.isOk = true ↔ ∃ a, x = .ok a := by
  cases x with
  | error | ok => simp [Except.isOk, Except.toBool]

namespace Orchestrator

variable {site : Site}

/-- Two states that differ, as to runs and shadows, at most in what they hold for one run. -/
structure At (s s' : Orchestrator site) (id : String) (run' : Option Run) (shadow' : Option ShadowWorkspace) :
    Prop where
  runs : ∀ j, s'.runs.get j = if id = j then run' else s.runs.get j
  shadows : ∀ j, s'.shadows.get j = if id = j then shadow' else s.shadows.get j

def Unmeasured (s : Orchestrator site) (id : String) (run : Run) : Prop :=
  run.questions = [] ∧ (run.status = .pendingApproval ∨ run.status = .measured ∧ s.shadows.get id = none)

/-- What a call makes of the record and of the shadow of a run when it has read the
status with no wait in between. -/
inductive Guarded (s : Orchestrator site) (id : String) : Option Run → Option ShadowWorkspace → Prop
  | kept : Guarded s id (s.runs.get id) (s.shadows.get id)
  | dropped : Guarded s id (s.runs.get id) none
  | planned (args : PlanArgs) (draft : Draft) (hnone : s.runs.get id = none) :
      Guarded s id (some (plannedRun args draft)) (s.shadows.get id)
  | reproduced {run : Run} {shadow' : Option ShadowWorkspace} (reproduction : Option Reproduction)
      (hrun : s.runs.get id = some run) (hopen : s.Unmeasured id run)
      (hshadow : shadow' = s.shadows.get id ∨ shadow' = none) :
      Guarded s id (some { run with reproduction := reproduction }) shadow'
  | measured {run run' : Run} {shadow : ShadowWorkspace} (hrun : s.runs.get id = some run)
      (hopen : s.Unmeasured id run) (hquestions : run'.questions = [])
      (hmeasured : Measured site s.workspace run' shadow) : Guarded s id (some run') (some shadow)
  | approved {run : Run} {status : Status} (backups : Option (List Backup)) (by_ : String) (nowUnix : Number)
      (hrun : s.runs.get id = some run) (hstatus : run.status = .measured)
      (hdecided : status = .promoted ∨ status = .refused) :
      Guarded s id (some (decidedRun run status backups by_ nowUnix)) none
  | rejected {run : Run} (by_ : String) (nowUnix : Number) (hrun : s.runs.get id = some run)
      (hstatus : run.status = .pendingApproval ∨ run.status = .measured) :
      Guarded s id (some { run with status := .rejected, decidedBy := some by_, decidedAtUnix := some nowUnix }) none
  | restored {run : Run} (nowUnix : Number) (hrun : s.runs.get id = some run) (hstatus : run.status = .promoted) :
      Guarded s id (some { run with status := .restored, restoredAtUnix := some nowUnix }) (s.shadows.get id)

namespace At

variable {s s' : Orchestrator site} {id : String}

theorem kept (hruns : s'.runs = s.runs) (hshadows : s'.shadows = s.shadows) (id : String) :
    At s s' id (s.runs.get id) (s.shadows.get id) := by
  refine ⟨fun j ↦ ?_, fun j ↦ ?_⟩
  · rw [hruns]
    split
    next h => rw [h]
    next => rfl
  · rw [hshadows]
    split
    next h => rw [h]
    next => rfl

theorem dropped (hruns : s'.runs = s.runs) (hshadows : s'.shadows = s.shadows.delete id) :
    At s s' id (s.runs.get id) none := by
  refine ⟨fun j ↦ ?_, fun j ↦ ?_⟩
  · rw [hruns]
    split
    next h => rw [h]
    next => rfl
  · rw [hshadows, InsertionMap.get_delete]

theorem set {run' : Run} (hruns : s'.runs = s.runs.set id run') (hshadows : s'.shadows = s.shadows) :
    At s s' id (some run') (s.shadows.get id) := by
  refine ⟨fun j ↦ ?_, fun j ↦ ?_⟩
  · rw [hruns, InsertionMap.get_set]
  · rw [hshadows]
    split
    next h => rw [h]
    next => rfl

theorem setDropped {run' : Run} (hruns : s'.runs = s.runs.set id run') (hshadows : s'.shadows = s.shadows.delete id) :
    At s s' id (some run') none := by
  refine ⟨fun j ↦ ?_, fun j ↦ ?_⟩
  · rw [hruns, InsertionMap.get_set]
  · rw [hshadows, InsertionMap.get_delete]

end At

variable {s : Orchestrator site} {runId : String} {nowUnix : Number} {env : Env} {approverId : String}
  {change : Change site} {token : JsToken site.host} {workspace' : Files}

theorem beginMeasure_ok {actor : String} {run : Run} {authorized : Authorized site} {step : Capability.Step RawLimits}
    (h : s.beginMeasure runId actor nowUnix = .ok (run, authorized, step)) :
    s.runs.get runId = some run ∧ s.Unmeasured runId run ∧ run.plan.steps.head? = some step := by
  unfold beginMeasure at h
  split at h
  · cases h
  next run₀ hrun =>
    split_ifs at h with hactor hstatus hquestions
    cases ha : authorize site run₀ actor nowUnix with
    | error => simp [ha, bind, Except.bind] at h
    | ok =>
      simp only [ha, bind, Except.bind, pure, Except.pure, Except.ok.injEq, Prod.mk.injEq] at h
      obtain ⟨rfl, rfl, rfl⟩ := h
      refine ⟨hrun, ⟨not_not.mp hquestions, ?_⟩, ?_⟩
      · by_cases hp : run₀.status = .pendingApproval
        · exact .inl hp
        · right
          have hm := not_and.mp hstatus hp
          simpa [InsertionMap.has] using hm
      · unfold authorize at ha
        split at ha
        · cases ha
        · split at ha
          · cases ha
          next hstep => cases ha; exact hstep

theorem settleReproduction_effect (env : Env) {run : Run} (hrun : s.runs.get runId = some run)
    (authorized : Authorized site) (step : Capability.Step RawLimits) (nowUnix : Number) :
    ∃ minter reproduction runs', (∀ j, runs'.get j = if runId = j then some { run with reproduction := reproduction } else s.runs.get j) ∧
      (settleReproduction env s runId run authorized step nowUnix).1 = { s with minter := minter, runs := runs' } ∧
      ∀ run', (settleReproduction env s runId run authorized step nowUnix).2 = .ok run' →
        run' = { run with reproduction := reproduction } := by
  have hsame : ∀ j, s.runs.get j = if runId = j then some { run with reproduction := run.reproduction } else s.runs.get j := by
    intro j
    split
    next h => rw [← h, hrun]
    next => rfl
  unfold settleReproduction
  split
  next contents reason hreproduction =>
    split
    next minter e _ =>
      exact ⟨minter, run.reproduction, s.runs, hsame, rfl, by simp⟩
    next minter reproduction _ =>
      refine ⟨minter, some reproduction, s.runs.set runId { run with reproduction := some reproduction }, ?_, ?_⟩
      · intro j
        rw [InsertionMap.get_set]
      · split
        · exact ⟨rfl, by simp⟩
        · exact ⟨rfl, by simp⟩
  next =>
    exact ⟨s.minter, run.reproduction, s.runs, hsame, rfl, by simp⟩

theorem shadowOf_ok {position : ℕ} {workspace : Files} {shadow : ShadowWorkspace}
    (h : shadowOf site env position workspace = .ok shadow) :
    ShadowWorkspace.materialise site workspace = .ok shadow := by
  unfold shadowOf at h
  split at h
  · cases h
  · split at h
    · cases h
    next hm => cases h; exact hm

theorem measureIn_effect (env : Env) (s : Orchestrator site) (runId actor : String) (run : Run)
    (authorized : Authorized site) {step : Capability.Step RawLimits} (hstep : run.plan.steps.head? = some step)
    (token : JsToken site.host) (nowUnix : Number) :
    ∃ minter runs' shadows',
      (measureIn env s runId actor run authorized step token nowUnix).1 =
        { s with minter := minter, runs := runs', shadows := shadows' } ∧
      (runs' = s.runs ∧ shadows' = s.shadows.delete runId ∧
        (measureIn env s runId actor run authorized step token nowUnix).2.isOk = false ∨
      ∃ run' shadow, Measured site s.workspace run' shadow ∧ run'.questions = run.questions ∧
        runs' = s.runs.set runId run' ∧ shadows' = (s.shadows.delete runId).set runId shadow ∧
        ∀ r, (measureIn env s runId actor run authorized step token nowUnix).2 = .ok r → r = run') := by
  unfold measureIn
  dsimp only
  split
  · exact ⟨_, _, _, rfl, .inl ⟨rfl, rfl, rfl⟩⟩
  next copy hcopy =>
    split
    · exact ⟨_, _, _, rfl, .inl ⟨rfl, rfl, rfl⟩⟩
    · split
      · exact ⟨_, _, _, rfl, .inl ⟨rfl, rfl, rfl⟩⟩
      next diff hdiff =>
        split
        · refine ⟨_, _, _, rfl, .inr ⟨_, _, ?_, ?_, rfl, rfl, by simp⟩⟩
          · exact ⟨step, env.shell 1, authorized.digest, token, s.minter, copy, _, diff, actor, nowUnix,
              hstep, shadowOf_ok hcopy, rfl, rfl, hdiff, rfl⟩
          · rfl
        · refine ⟨_, _, _, rfl, .inr ⟨_, _, ?_, ?_, rfl, rfl, ?_⟩⟩
          · exact ⟨step, env.shell 1, authorized.digest, token, s.minter, copy, _, diff, actor, nowUnix,
              hstep, shadowOf_ok hcopy, rfl, rfl, hdiff, rfl⟩
          · rfl
          · intro r hr
            cases hr
            rfl

theorem measure_effect (env : Env) (s : Orchestrator site) (runId actor : String) (nowUnix : Number) :
    ∃ minter runs' shadows' run' shadow',
      (measure env s runId actor nowUnix).1 = { s with minter := minter, runs := runs', shadows := shadows' } ∧
      At s (measure env s runId actor nowUnix).1 runId run' shadow' ∧ Guarded s runId run' shadow' ∧
      ∀ r, (measure env s runId actor nowUnix).2 = .ok r → run' = some r ∧
        ∃ shadow, shadow' = some shadow ∧ Measured site s.workspace r shadow := by
  unfold measure
  split
  · exact ⟨_, _, _, _, _, rfl, At.kept rfl rfl runId, .kept, by simp⟩
  next run authorized step hbegin =>
    obtain ⟨hrun, hopen, hstep⟩ := beginMeasure_ok hbegin
    split
    · exact ⟨_, _, _, _, _, rfl, At.kept rfl rfl runId, .kept, by simp⟩
    · obtain ⟨minter, reproduction, runs', hruns, hs, hok⟩ :=
        settleReproduction_effect env hrun authorized step nowUnix
      have hunfinished : ∀ s' : Orchestrator site, s'.runs = runs' → s'.shadows = s.shadows →
          At s s' runId (some { run with reproduction := reproduction }) (s.shadows.get runId) := by
        intro s' hr hsh
        have hkept : At s { s' with runs := s.runs } runId (s.runs.get runId) (s.shadows.get runId) :=
          At.kept (by rfl) (by exact hsh) runId
        exact ⟨fun j ↦ by rw [hr, hruns], hkept.shadows⟩
      rcases hsettle : settleReproduction env s runId run authorized step nowUnix with ⟨s₁, r₁⟩
      rw [hsettle] at hs hok
      dsimp only at hs hok
      subst hs
      cases r₁ with
      | error =>
        exact ⟨_, _, _, _, _, rfl, hunfinished _ rfl rfl, .reproduced reproduction hrun hopen (.inl rfl), by simp⟩
      | ok run₁ =>
        obtain rfl := hok run₁ rfl
        dsimp only
        split
        · exact ⟨_, _, _, _, _, rfl, hunfinished _ rfl rfl, .reproduced reproduction hrun hopen (.inl rfl), by simp⟩
        next token minter' hmint =>
          split
          · exact ⟨_, _, _, _, _, rfl, hunfinished _ rfl rfl, .reproduced reproduction hrun hopen (.inl rfl), by simp⟩
          · obtain ⟨minter₂, runs₂, shadows₂, he, hcase⟩ := measureIn_effect env
              { s with minter := minter', runs := runs' } runId actor
              { run with reproduction := reproduction } authorized hstep token nowUnix
            rcases hcase with ⟨rfl, rfl, hfail⟩ | ⟨run', shadow, hm, hq, rfl, rfl, hret⟩
            · refine ⟨_, _, _, _, none, he, ?_, .reproduced reproduction hrun hopen (.inr rfl), ?_⟩
              · rw [he]
                exact ⟨hruns, fun j ↦ InsertionMap.get_delete _ _ _⟩
              · intro r hr
                rw [hr] at hfail
                cases hfail
            · refine ⟨_, _, _, some run', some shadow, he, ?_, .measured hrun hopen (hq.trans hopen.1) hm, ?_⟩
              · rw [he]
                refine ⟨fun j ↦ ?_, fun j ↦ ?_⟩
                · rw [InsertionMap.get_set, hruns]
                  split <;> rfl
                · rw [InsertionMap.get_set, InsertionMap.get_delete]
                  split <;> rfl
              · intro r hr
                obtain rfl := hret r hr
                exact ⟨rfl, shadow, rfl, hm⟩

theorem beginApprove_ok (h : s.beginApprove runId approverId nowUnix = .ok change) :
    s.runs.get runId = some change.run ∧ change.run.status = .measured ∧
      s.shadows.get runId = some change.shadow := by
  unfold beginApprove at h
  split at h
  · cases h
  next run hrun =>
    split_ifs at h with hpending hmeasured hblank
    split at h
    · cases h
    next shadow hshadow =>
      cases ha : authorize site run approverId nowUnix with
      | error => simp [ha, bind, Except.bind] at h
      | ok =>
        simp only [ha, bind, Except.bind, pure, Except.pure, Except.ok.injEq] at h
        subst h
        exact ⟨hrun, not_not.mp hmeasured, hshadow⟩

theorem grantChange_state (env : Env) (s : Orchestrator site) (runId approverId : String) (nowUnix : Number) :
    ∃ minter, (grantChange env s runId approverId nowUnix).1 = { s with minter := minter } := by
  unfold grantChange
  split
  · exact ⟨_, rfl⟩
  · split
    · exact ⟨_, rfl⟩
    · split
      · exact ⟨_, rfl⟩
      · exact ⟨_, rfl⟩

theorem grantChange_ok {s₁ : Orchestrator site}
    (h : grantChange env s runId approverId nowUnix = (s₁, .ok (change, token))) :
    s.runs.get runId = some change.run ∧ change.run.status = .measured ∧
      s.shadows.get runId = some change.shadow ∧
      ∃ minter, s.minter.mint change.authorized (changeRequest change.step nowUnix) nowUnix = .ok (token, minter) ∧
        s₁ = { s with minter := minter } := by
  unfold grantChange at h
  split at h
  · simp at h
  next change' hbegin =>
    split at h
    · simp at h
    · split at h
      · simp at h
      next token' minter hmint =>
        split at h
        · simp at h
        · simp only [Prod.mk.injEq, Except.ok.injEq] at h
          obtain ⟨rfl, rfl, rfl⟩ := h
          obtain ⟨hrun, hstatus, hshadow⟩ := beginApprove_ok hbegin
          exact ⟨hrun, hstatus, hshadow, minter, hmint, rfl⟩

/-- The promotion that `approve` makes, if it comes to one: the run, its grant and the
state in which the loop starts. -/
def Promotes (env : Env) (s : Orchestrator site) (runId approverId : String) (nowUnix : Number)
    (change : Change site) (token : JsToken site.host) (minter : JsMinter site.host) (result : Result) : Prop :=
  grantChange env s runId approverId nowUnix = ({ s with minter := minter }, .ok (change, token)) ∧
    change.run.result = some result ∧ change.run.clean = true

/-- How an approval ends: with which workspace, which record and shadow of the run,
and which answer. -/
inductive Approving (env : Env) (s : Orchestrator site) (runId approverId : String) (nowUnix : Number) :
    Files → Option Run → Option ShadowWorkspace → Except Thrown Run → Prop
  | notGranted (e : Thrown) :
      Approving env s runId approverId nowUnix s.workspace (s.runs.get runId) (s.shadows.get runId) (.error e)
  | undecided (e : Thrown) :
      Approving env s runId approverId nowUnix s.workspace (s.runs.get runId) none (.error e)
  | refused {run : Run} (hrun : s.runs.get runId = some run) (hstatus : run.status = .measured)
      (hclean : run.clean = false) :
      Approving env s runId approverId nowUnix s.workspace
        (some (decidedRun run .refused none approverId nowUnix)) none
        (.ok (decidedRun run .refused none approverId nowUnix))
  | broken {change : Change site} {token : JsToken site.host} {minter minter' : JsMinter site.host}
      {result : Result} {workspace' : Files} {e : Thrown}
      (hp : Promotes env s runId approverId nowUnix change token minter result)
      (hpromote : promote env change.shadow token nowUnix 0 minter s.workspace (fileOutcomes result) =
        (minter', workspace', .error e)) :
      Approving env s runId approverId nowUnix workspace' (s.runs.get runId) none (.error e)
  | unrecorded {change : Change site} {token : JsToken site.host} {minter minter' : JsMinter site.host}
      {result : Result} {workspace' : Files} {backups : List Backup}
      (hp : Promotes env s runId approverId nowUnix change token minter result)
      (hpromote : promote env change.shadow token nowUnix 0 minter s.workspace (fileOutcomes result) =
        (minter', workspace', .ok backups)) (hrecord : env.recordFails 2 = true) :
      Approving env s runId approverId nowUnix workspace' (s.runs.get runId) none (.error .failed)
  | promoted {change : Change site} {token : JsToken site.host} {minter minter' : JsMinter site.host}
      {result : Result} {workspace' : Files} {backups : List Backup}
      (hp : Promotes env s runId approverId nowUnix change token minter result)
      (hpromote : promote env change.shadow token nowUnix 0 minter s.workspace (fileOutcomes result) =
        (minter', workspace', .ok backups)) (hrecord : env.recordFails 2 = false) :
      Approving env s runId approverId nowUnix workspace'
        (some (decidedRun change.run .promoted (some backups) approverId nowUnix)) none
        (.ok (decidedRun change.run .promoted (some backups) approverId nowUnix))

theorem Promotes.run {minter : JsMinter site.host} {result : Result}
    (hp : Promotes env s runId approverId nowUnix change token minter result) :
    s.runs.get runId = some change.run ∧ change.run.status = .measured ∧
      s.shadows.get runId = some change.shadow := by
  obtain ⟨hrun, hstatus, hshadow, -⟩ := grantChange_ok hp.1
  exact ⟨hrun, hstatus, hshadow⟩

theorem approve_effect (env : Env) (s : Orchestrator site) (runId approverId : String) (nowUnix : Number) :
    ∃ minter workspace' runs' shadows' run' shadow',
      (approve env s runId approverId nowUnix).1 =
        { s with minter := minter, workspace := workspace', runs := runs', shadows := shadows' } ∧
      At s (approve env s runId approverId nowUnix).1 runId run' shadow' ∧
      Approving env s runId approverId nowUnix workspace' run' shadow' (approve env s runId approverId nowUnix).2 := by
  obtain ⟨minter, hstate⟩ := grantChange_state env s runId approverId nowUnix
  unfold approve
  rcases hgrant : grantChange env s runId approverId nowUnix with ⟨s₁, r₁⟩
  rw [hgrant] at hstate
  dsimp only at hstate
  subst hstate
  cases r₁ with
  | error e =>
    dsimp only
    have hkept : At s { s with minter := minter } runId (s.runs.get runId) (s.shadows.get runId) :=
      At.kept (by rfl) (by rfl) runId
    exact ⟨_, _, _, _, _, _, rfl, hkept, .notGranted e⟩
  | ok granted =>
    obtain ⟨change, token⟩ := granted
    obtain ⟨hrun, hstatus, hshadow, -⟩ := grantChange_ok hgrant
    dsimp only
    unfold decideChange
    dsimp only
    split
    · exact ⟨_, _, _, _, _, _, rfl, At.dropped rfl rfl, .undecided _⟩
    next result hresult =>
      split
      next hclean =>
        have hp : Promotes env s runId approverId nowUnix change token minter result := ⟨hgrant, hresult, hclean⟩
        split
        next minter' workspace' e hpromote =>
          exact ⟨_, _, _, _, _, _, rfl, At.dropped rfl rfl, .broken hp hpromote⟩
        next minter' workspace' backups hpromote =>
          split
          next hrecord => exact ⟨_, _, _, _, _, _, rfl, At.dropped rfl rfl, .unrecorded hp hpromote hrecord⟩
          next hrecord =>
            exact ⟨_, _, _, _, _, _, rfl, At.setDropped rfl rfl,
              .promoted hp hpromote (Bool.eq_false_of_not_eq_true hrecord)⟩
      next hclean =>
        split
        · exact ⟨_, _, _, _, _, _, rfl, At.dropped rfl rfl, .undecided _⟩
        · exact ⟨_, _, _, _, _, _, rfl, At.setDropped rfl rfl,
            .refused hrun hstatus (Bool.eq_false_of_not_eq_true hclean)⟩

theorem approve_of_promote {id : String} {minter minter' : JsMinter site.host} {result : Result}
    {backups : List Backup} (hp : Promotes env s id approverId nowUnix change token minter result)
    (hpromote : promote env change.shadow token nowUnix 0 minter s.workspace (fileOutcomes result) =
      (minter', workspace', .ok backups)) (hrecord : env.recordFails 2 = false) :
    approve env s id approverId nowUnix =
      ({ s with
          minter := minter'
          workspace := workspace'
          runs := s.runs.set id (decidedRun change.run .promoted (some backups) approverId nowUnix)
          shadows := s.shadows.delete id },
        .ok (decidedRun change.run .promoted (some backups) approverId nowUnix)) := by
  simp [approve, hp.1, decideChange, hp.2.1, hp.2.2, hpromote, hrecord, setRun, dropShadow]

theorem Approving.guarded {run' : Option Run} {shadow' : Option ShadowWorkspace} {answer : Except Thrown Run}
    (h : Approving env s runId approverId nowUnix workspace' run' shadow' answer) :
    Guarded s runId run' shadow' := by
  cases h with
  | notGranted => exact .kept
  | undecided => exact .dropped
  | refused hrun hstatus => exact .approved _ _ _ hrun hstatus (.inr rfl)
  | broken | unrecorded => exact .dropped
  | promoted hp => exact .approved _ _ _ hp.run.1 hp.run.2.1 (.inl rfl)

theorem reject_effect (env : Env) (s : Orchestrator site) (runId approverId : String) (nowUnix : Number) :
    ∃ runs' shadows' run' shadow',
      (reject env s runId approverId nowUnix).1 = { s with runs := runs', shadows := shadows' } ∧
      At s (reject env s runId approverId nowUnix).1 runId run' shadow' ∧ Guarded s runId run' shadow' := by
  unfold reject
  split
  · exact ⟨_, _, _, _, rfl, At.kept rfl rfl runId, .kept⟩
  next run hrun =>
    split
    · exact ⟨_, _, _, _, rfl, At.kept rfl rfl runId, .kept⟩
    next hstatus =>
      dsimp only
      split
      · exact ⟨_, _, _, _, rfl, At.dropped rfl rfl, .dropped⟩
      · refine ⟨_, _, _, _, rfl, At.setDropped rfl rfl, .rejected _ _ hrun ?_⟩
        by_cases hpending : run.status = .pendingApproval
        · exact .inl hpending
        · exact .inr (not_not.mp (not_and.mp hstatus hpending))

inductive Restoring (env : Env) (s : Orchestrator site) (runId : String) (nowUnix : Number) :
    Files → Option Run → Except Thrown Unit → Prop
  | notStarted (e : Thrown) : Restoring env s runId nowUnix s.workspace (s.runs.get runId) (.error e)
  | broken {run : Run} {workspace' : Files} {e : Thrown} (hrun : s.runs.get runId = some run)
      (hstatus : run.status = .promoted)
      (hrestore : restoreAll env 0 s.workspace (run.backups.getD []) = (workspace', .error e)) :
      Restoring env s runId nowUnix workspace' (s.runs.get runId) (.error e)
  | unrecorded {run : Run} {workspace' : Files} (hrun : s.runs.get runId = some run)
      (hstatus : run.status = .promoted)
      (hrestore : restoreAll env 0 s.workspace (run.backups.getD []) = (workspace', .ok ()))
      (hrecord : env.recordFails 0 = true) :
      Restoring env s runId nowUnix workspace' (s.runs.get runId) (.error .failed)
  | restored {run : Run} {workspace' : Files} (hrun : s.runs.get runId = some run)
      (hstatus : run.status = .promoted)
      (hrestore : restoreAll env 0 s.workspace (run.backups.getD []) = (workspace', .ok ()))
      (hrecord : env.recordFails 0 = false) :
      Restoring env s runId nowUnix workspace'
        (some { run with status := .restored, restoredAtUnix := some nowUnix }) (.ok ())

theorem restore_effect (env : Env) (s : Orchestrator site) (runId : String) (nowUnix : Number) :
    ∃ workspace' runs' run',
      (restore env s runId nowUnix).1 = { s with workspace := workspace', runs := runs' } ∧
      At s (restore env s runId nowUnix).1 runId run' (s.shadows.get runId) ∧
      Restoring env s runId nowUnix workspace' run' (restore env s runId nowUnix).2 := by
  unfold restore
  split
  · exact ⟨_, _, _, rfl, At.kept rfl rfl runId, .notStarted _⟩
  next run hrun =>
    split
    · exact ⟨_, _, _, rfl, At.kept rfl rfl runId, .notStarted _⟩
    · split
      · exact ⟨_, _, _, rfl, At.kept rfl rfl runId, .notStarted _⟩
      next hstatus =>
        have hpromoted := not_not.mp hstatus
        split
        next workspace' e hrestore =>
          have hkept : At s { s with workspace := workspace' } runId (s.runs.get runId) (s.shadows.get runId) :=
            At.kept (by rfl) (by rfl) runId
          exact ⟨_, _, _, rfl, hkept, .broken hrun hpromoted hrestore⟩
        next workspace' hrestore =>
          dsimp only
          split
          next hrecord =>
            have hkept : At s { s with workspace := workspace' } runId (s.runs.get runId) (s.shadows.get runId) :=
              At.kept (by rfl) (by rfl) runId
            exact ⟨_, _, _, rfl, hkept, .unrecorded hrun hpromoted hrestore hrecord⟩
          next hrecord =>
            exact ⟨_, _, _, rfl, At.set rfl rfl,
              .restored hrun hpromoted hrestore (Bool.eq_false_of_not_eq_true hrecord)⟩

theorem restore_of_restoreAll {id : String} {run : Run} (hrun : s.runs.get id = some run)
    (hstatus : run.status = .promoted)
    (hrestore : restoreAll env 0 s.workspace (run.backups.getD []) = (workspace', .ok ()))
    (hrecord : env.recordFails 0 = false) :
    restore env s id nowUnix =
      ({ s with
          workspace := workspace'
          runs := s.runs.set id { run with status := .restored, restoredAtUnix := some nowUnix } }, .ok ()) := by
  simp [restore, hrun, hstatus, hrestore, hrecord, setRun]

theorem Restoring.guarded {run' : Option Run} {answer : Except Thrown Unit}
    (h : Restoring env s runId nowUnix workspace' run' answer) : Guarded s runId run' (s.shadows.get runId) := by
  cases h with
  | notStarted | broken | unrecorded => exact .kept
  | restored hrun hstatus => exact .restored nowUnix hrun hstatus

end Orchestrator

end Noesar.Workspace
