import Noesar.Workspace.Orchestrator

namespace Noesar.Workspace

open Lib Lib.Framing Capability Shadow

namespace Orchestrator

variable {site : Site}

structure Change (site : Site) where
  run : Run
  shadow : ShadowWorkspace
  authorized : Authorized site
  step : Capability.Step RawLimits

def beginApprove (s : Orchestrator site) (runId approverId : String) (nowUnix : Number) :
    Except Thrown (Change site) :=
  match s.runs.get runId with
  | none => .error (notFound runId)
  | some run =>
    if run.status = .pendingApproval then
      .error (.refused "NOT_MEASURED" s!"run `{runId}` has not been measured: call measure() first — an approval without a measured result is what CE-008 forbids")
    else if run.status ≠ .measured then .error (alreadyDecided runId run.status)
    else if blank approverId then
      .error (.refused "NO_APPROVER" "an approval with no approver names nobody accountable")
    else match s.shadows.get runId with
      | none => .error (.refused "MEASUREMENT_LOST" s!"the shadow for run `{runId}` is gone (the process restarted): measure() it again — promoting a result nobody can still see would be an approval of a description")
      | some shadow => do
        let (authorized, step) ← authorize site run approverId nowUnix
        pure ⟨run, shadow, authorized, step⟩

def changeRequest (step : Capability.Step RawLimits) (nowUnix : Number) :
    Request String Number Number RawLimits :=
  { stepId := step.id
    paths := step.files
    operations := ["WRITE"]
    uses := Number.ofRat step.files.length
    expiresAtUnix := later nowUnix
    limits := none }

/-- `approve` up to its grant: the token is minted and recorded. -/
def grantChange (env : Env) (s : Orchestrator site) (runId approverId : String) (nowUnix : Number) :
    Step site (Change site × JsToken site.host) :=
  match s.beginApprove runId approverId nowUnix with
  | .error e => (s, .error e)
  | .ok change =>
    if env.recordFails 0 then (s, .error .failed)
    else match s.minter.mint change.authorized (changeRequest change.step nowUnix) nowUnix with
      | .error e => (s, .error (if env.recordFails 1 then .failed else .refused "MINT_REFUSED" e.reason))
      | .ok (token, minter) =>
        ({ s with minter := minter }, if env.recordFails 1 then .error .failed else .ok (change, token))

def writing {host : Host} (path : String) : (Js.dialect host).Tried := ⟨path, show String from "WRITE"⟩

/-- One turn of `#promote`: the use is spent, the bytes to be overwritten are kept,
the bytes of the shadow are written. -/
def promoteFile (faults : PromoteFaults) (shadow : ShadowWorkspace) (token : JsToken site.host)
    (nowUnix : Number) (minter : JsMinter site.host) (workspace : Files) (path : String) :
    JsMinter site.host × Files × Except Thrown Backup :=
  match minter.spend token (writing path) nowUnix with
  | .error e => (minter, workspace, .error (.refused "CAPABILITY" e.reason))
  | .ok (_, minter) =>
    match place path with
    | .error _ => (minter, workspace, .error .failed)
    | .ok place =>
      if workspace.has place && faults.backupRead || faults.mkdir || faults.shadowRead then
        (minter, workspace, .error .failed)
      else match shadow.files.get place with
        | none => (minter, workspace, .error .failed)
        | some bytes =>
          match faults.write with
          | some left => (minter, afterFailedWrite workspace place left, .error .failed)
          | none => (minter, workspace.set place bytes,
            .ok ⟨path, workspace.has place, workspace.get place⟩)

def promote (env : Env) (shadow : ShadowWorkspace) (token : JsToken site.host) (nowUnix : Number) :
    ℕ → JsMinter site.host → Files → List Outcome → JsMinter site.host × Files × Except Thrown (List Backup)
  | _, minter, workspace, [] => (minter, workspace, .ok [])
  | position, minter, workspace, outcome :: outcomes =>
    match promoteFile (env.promoteFaults position) shadow token nowUnix minter workspace outcome.path with
    | (minter, workspace, .error e) => (minter, workspace, .error e)
    | (minter, workspace, .ok backup) =>
      match promote env shadow token nowUnix (position + 1) minter workspace outcomes with
      | (minter, workspace, .error e) => (minter, workspace, .error e)
      | (minter, workspace, .ok backups) => (minter, workspace, .ok (backup :: backups))

def decidedRun (run : Run) (status : Status) (backups : Option (List Backup)) (by_ : String)
    (nowUnix : Number) : Run :=
  { run with status := status, backups := backups, decidedBy := some by_, decidedAtUnix := some nowUnix }

/-- The part of `approve` under its `finally`, which drops the shadow. -/
def decideChange (env : Env) (s : Orchestrator site) (runId approverId : String) (change : Change site)
    (token : JsToken site.host) (nowUnix : Number) : Step site Run :=
  let run := change.run
  match run.result with
  | none => (s, .error .failed)
  | some result =>
    if run.clean then
      match promote env change.shadow token nowUnix 0 s.minter s.workspace (fileOutcomes result) with
      | (minter, workspace, .error e) => ({ s with minter := minter, workspace := workspace }, .error e)
      | (minter, workspace, .ok backups) =>
        let s := { s with minter := minter, workspace := workspace }
        if env.recordFails 2 then (s, .error .failed)
        else
          let run := decidedRun run .promoted (some backups) approverId nowUnix
          (s.setRun runId run, .ok run)
    else if run.coverage.isNone || env.recordFails 2 then (s, .error .failed)
    else
      let run := decidedRun run .refused none approverId nowUnix
      (s.setRun runId run, .ok run)

def approve (env : Env) (s : Orchestrator site) (runId approverId : String) (nowUnix : Number) : Step site Run :=
  match grantChange env s runId approverId nowUnix with
  | (s, .error e) => (s, .error e)
  | (s, .ok (change, token)) =>
    let decided := decideChange env s runId approverId change token nowUnix
    (decided.1.dropShadow runId, decided.2)

def reject (env : Env) (s : Orchestrator site) (runId approverId : String) (nowUnix : Number) : Step site Unit :=
  match s.runs.get runId with
  | none => (s, .error (notFound runId))
  | some run =>
    if run.status ≠ .pendingApproval ∧ run.status ≠ .measured then (s, .error (alreadyDecided runId run.status))
    else
      let s := s.dropShadow runId
      if env.recordFails 0 then (s, .error .failed)
      else (s.setRun runId { run with
        status := .rejected, decidedBy := some approverId, decidedAtUnix := some nowUnix }, .ok ())

/-- One turn of `restore`: the bytes kept are written back, or the file is removed. -/
def restoreFile (fault : Option (Option Bytes)) (workspace : Files) (backup : Backup) :
    Files × Except Thrown Unit :=
  match place backup.path with
  | .error _ => (workspace, .error .failed)
  | .ok place =>
    if backup.existedBefore then
      match fault, backup.beforeContent with
      | none, some bytes => (workspace.set place bytes, .ok ())
      | some left, some _ => (afterFailedWrite workspace place left, .error .failed)
      | _, none => (workspace, .error .failed)
    else if workspace.has place then
      if fault.isSome then (workspace, .error .failed) else (workspace.delete place, .ok ())
    else (workspace, .ok ())

def restoreAll (env : Env) : ℕ → Files → List Backup → Files × Except Thrown Unit
  | _, workspace, [] => (workspace, .ok ())
  | position, workspace, backup :: backups =>
    match restoreFile (env.restoreFault position) workspace backup with
    | (workspace, .error e) => (workspace, .error e)
    | (workspace, .ok ()) => restoreAll env (position + 1) workspace backups

def restore (env : Env) (s : Orchestrator site) (runId : String) (nowUnix : Number) : Step site Unit :=
  match s.runs.get runId with
  | none => (s, .error (.refused "NOT_FOUND" s!"no run `{runId}`"))
  | some run =>
    if run.status = .restored then
      (s, .error (.refused "ALREADY_RESTORED" (s!"run `{runId}` was already restored at " ++
        (run.restoredAtUnix.map site.host.numberToString).getD "undefined")))
    else if run.status ≠ .promoted then
      (s, .error (.refused "NOT_PROMOTED" s!"run `{runId}` was never promoted, so there is nothing to restore"))
    else match restoreAll env 0 s.workspace (run.backups.getD []) with
      | (workspace, .error e) => ({ s with workspace := workspace }, .error e)
      | (workspace, .ok ()) =>
        let s := { s with workspace := workspace }
        if env.recordFails 0 then (s, .error .failed)
        else (s.setRun runId { run with status := .restored, restoredAtUnix := some nowUnix }, .ok ())

end Orchestrator

end Noesar.Workspace
