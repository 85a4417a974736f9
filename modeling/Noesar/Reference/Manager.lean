import Noesar.Lib.Run
import Noesar.Reference.Plans

namespace Noesar.Reference

open Lib Lib.Framing Lib.Json

inductive RecordState
  | quarantined
  | active
  | disabled
  | uninstalled
  deriving DecidableEq

structure Record (φ : Type) where
  version : String
  state : RecordState
  planHash : Value φ
  packageSha256 : String
  publisherId : String
  organizationId : String
  projectId : Option String

/-- A directory with the files of a package, and what its manifest reads as. -/
structure Directory (φ : Type) where
  source : Inspection φ
  manifest : Except PyError (Value φ)

structure Revocations where
  publishers : List String
  packages : List String
  capabilities : List String

/-- What the manager keeps: the registry, the directories of the capabilities, with the newest of their backups first,
the publishers, what is revoked, and the nonces of approvals that were consumed. -/
structure Manager (φ : Type) where
  registry : InsertionMap String (Record φ)
  quarantine : InsertionMap (String × String) (Directory φ)
  active : InsertionMap String (Directory φ)
  backups : InsertionMap String (List (Directory φ))
  publishers : List String
  revocations : Revocations
  usedNonces : List String

def Manager.initial {φ : Type} : Manager φ := ⟨.empty, .empty, .empty, .empty, [], ⟨[], [], []⟩, []⟩

/-- A call of `install`: what verifying the package comes to, what unpacking it comes to, and what its manifest reads as
then. -/
structure InstallCall (φ : Type) where
  principal : Principal
  verified : Except PyError (Inspection φ)
  plan : Entries φ
  approvalToken : Option String
  extraction : Except PyError Unit
  unpacked : Except PyError (Value φ)
  now : ℤ

/-- What the checks of `install` leave for the rest of it. -/
structure Checked (φ : Type) where
  inspected : Inspection φ
  id : String
  version : String
  publisherId : String
  payload : Option (Entries φ)

section

variable {φ : Type} (host : Capability.Host) (py : Interpreter φ) (secret : Bytes) (loads : Bytes → Option (Value φ))

def Revocations.assertAllowed (r : Revocations) (publisherId packageSha256 capabilityId version : String) :
    Except PyError Unit := do
  require (publisherId ∉ r.publishers) (.valueError "publisher is revoked")
  require (packageSha256 ∉ r.packages) (.valueError "package is revoked")
  require (s!"{capabilityId}@{version}" ∉ r.capabilities) (.valueError "capability version is revoked")

/-- `plan[key]` -/
def item (entries : Entries φ) (key : String) : Except PyError (Value φ) :=
  demand (InsertionMap.lookup key entries) (.keyError key)

def verifiedString (v : Value φ) : Except PyError String := demand (stringOf (some v)) (.typeError "string expected")

/-- `CapabilityManager.approve`, with the nonce that is drawn in it. -/
def approve (principal : Principal) (plan : Entries φ) (ttlSeconds now : ℤ) (nonce : String) : Except PyError String := do
  requireAction principal .install false now
  let decision ← item plan "decision"
  require (isString "deny" decision = false) (.valueError "denied plans cannot be approved")
  let actorId ← item plan "actorId"
  require (isString principal.actorId actorId = true) (.permissionError "only the plan actor may approve this reference plan")
  require (truthy py (InsertionMap.lookup "strongReauthRequired" plan) = true → principal.strongReauthenticated now = true)
    (.permissionError "plan approval requires strong reauthentication")
  let capabilityId ← item plan "capabilityId"
  let version ← item plan "version"
  let planHash ← item plan "planHash"
  issueToken host py secret ⟨principal, capabilityId, version, planHash, "operation", ttlSeconds, now, nonce⟩

def checkApproval (c : InstallCall φ) (id version : Value φ) : Except PyError (Option (Entries φ)) := do
  let decision ← item c.plan "decision"
  require (isString "deny" decision = false) (.valueError "policy denied this package")
  if isString "approval-required" decision then
    let token ← demand (c.approvalToken.filter (· ≠ "")) (.valueError "approval token is required")
    let planHash ← item c.plan "planHash"
    let payload ← verifyToken host py secret loads ⟨token, c.principal, id, version, planHash, c.now⟩
    return some payload
  return none

/-- `install`, up to the approval that it consumes. -/
def checkInstall (c : InstallCall φ) : Except PyError (Checked φ) := do
  requireAction c.principal .install false c.now
  let inspected ← c.verified
  let id ← subscript "id" inspected.manifest
  let version ← subscript "version" inspected.manifest
  let capabilityId ← item c.plan "capabilityId"
  require (equal py id capabilityId = true) (.valueError "package does not match the plan")
  let planVersion ← item c.plan "version"
  require (equal py version planVersion = true) (.valueError "package does not match the plan")
  let packageSha256 ← item c.plan "packageSha256"
  require (isString inspected.packageSha256 packageSha256 = true) (.valueError "package hash does not match the plan")
  let actorId ← item c.plan "actorId"
  require (isString c.principal.actorId actorId = true) (.permissionError "plan identity does not match current principal")
  let sessionId ← item c.plan "sessionId"
  require (isString c.principal.sessionId sessionId = true)
    (.permissionError "plan identity does not match current principal")
  let payload ← checkApproval host py secret loads c id version
  let id ← verifiedString id
  let version ← verifiedString version
  let publisherId ← subscript "publisher" inspected.manifest >>= subscript "id" >>= verifiedString
  return ⟨inspected, id, version, publisherId, payload⟩

def jsonKey : Value φ → String
  | .string s => s
  | .bool b => if b then "true" else "false"
  | .number n => String.ofList (n.text py)
  | _ => "null"

/-- `_consume_approval`. Keys of several types cannot be sorted to be written. -/
def consumeApproval (used : List String) (payload : Entries φ) : Except PyError (List String) := do
  let nonce ← item payload "nonce"
  require (hashable (some nonce) = true) (.typeError "unhashable type")
  match nonce with
  | .string nonce =>
    require (nonce ∉ used) (.valueError "approval token replay detected")
    return nonce :: used
  | nonce =>
    require (used = []) (.typeError "'<' not supported between instances")
    return [jsonKey py nonce]

def consume (used : List String) : Option (Entries φ) → Except PyError (List String)
  | none => .ok used
  | some payload => consumeApproval py used payload

def Checked.record (checked : Checked φ) (principal : Principal) (planHash : Value φ) : Record φ :=
  ⟨checked.version, .quarantined, planHash, checked.inspected.packageSha256, checked.publisherId, principal.organizationId,
    principal.projectId⟩

namespace Manager

abbrev Outcome (φ : Type) (α : Type) := Except PyError α × Manager φ

/-- The rest of `install`: the directory is replaced before it is known whether the package can be unpacked. -/
def unpack (s : Manager φ) (c : InstallCall φ) (checked : Checked φ) : Outcome φ (Record φ) :=
  let s := { s with quarantine := s.quarantine.set (checked.id, checked.version) ⟨checked.inspected, c.unpacked⟩ }
  match c.extraction, item c.plan "planHash" with
  | .error e, _ => (.error e, s)
  | .ok (), .error e => (.error e, s)
  | .ok (), .ok planHash =>
    let record := checked.record c.principal planHash
    (.ok record, { s with registry := s.registry.set checked.id record })

def install (s : Manager φ) (c : InstallCall φ) : Outcome φ (Record φ) :=
  match checkInstall host py secret loads c with
  | .error e => (.error e, s)
  | .ok checked => match consume py s.usedNonces checked.payload with
    | .error e => (.error e, s)
    | .ok used => unpack { s with usedNonces := used } c checked

def noSuchFile : PyError := .valueError "No such file or directory"

/-- The gate of `activate` for industry modules. -/
def activationGate (principal : Principal) (manifest : Value φ) (now : ℤ) : Except PyError Unit := do
  let industry ← getOr "industry" .null manifest
  if truthy py (some industry) then
    let risk ← getOr "riskClass" .null industry
    let high ← among ["high", "safety-critical"] risk
    if high then
      requireAction principal .activate true now
      require (principal.role = .owner) (.permissionError "high-risk industry activation requires Owner")

def checkActivate (s : Manager φ) (principal : Principal) (id : String) (now : ℤ) :
    Except PyError (Record φ × Directory φ) := do
  requireAction principal .activate false now
  let record ← demand ((s.registry.get id).filter fun record ↦ record.state = .quarantined)
    (.valueError "capability is not quarantined")
  let directory ← demand (s.quarantine.get (id, record.version)) noSuchFile
  let manifest ← directory.manifest
  activationGate py principal manifest now
  s.revocations.assertAllowed record.publisherId record.packageSha256 id record.version
  return (record, directory)

def pushBackup (s : Manager φ) (id : String) : InsertionMap String (List (Directory φ)) :=
  match s.active.get id with
  | none => s.backups
  | some directory => s.backups.set id (directory :: (s.backups.get id).getD [])

def activate (s : Manager φ) (principal : Principal) (id : String) (now : ℤ) : Outcome φ (Record φ) :=
  match checkActivate py s principal id now with
  | .error e => (.error e, s)
  | .ok (record, directory) =>
    let record := { record with state := .active }
    (.ok record, { s with
      registry := s.registry.set id record
      quarantine := s.quarantine.delete (id, record.version)
      active := s.active.set id directory
      backups := s.pushBackup id })

def disable (s : Manager φ) (principal : Principal) (id : String) (now : ℤ) : Outcome φ (Record φ) :=
  match requireAction principal .disable false now, s.registry.get id with
  | .error e, _ => (.error e, s)
  | .ok (), none => (.error (.valueError "capability is not active"), s)
  | .ok (), some record =>
    if record.state ≠ .active then (.error (.valueError "capability is not active"), s)
    else
      let record := { record with state := .disabled }
      (.ok record, { s with registry := s.registry.set id record })

def uninstall (s : Manager φ) (principal : Principal) (id : String) (now : ℤ) : Outcome φ (Record φ) :=
  match requireAction principal .uninstall false now, s.registry.get id with
  | .error e, _ => (.error e, s)
  | .ok (), none => (.error (.valueError "capability is not registered"), s)
  | .ok (), some record =>
    let record := { record with state := .uninstalled }
    (.ok record, { s with
      registry := s.registry.set id record
      active := s.active.delete id
      backups := s.pushBackup id })

def rollback (s : Manager φ) (principal : Principal) (id : String) (now : ℤ) : Outcome φ (Record φ) :=
  match requireAction principal .rollback false now, s.registry.get id, (s.backups.get id).getD [] with
  | .error e, _, _ => (.error e, s)
  | .ok (), none, _ => (.error (.valueError "capability is not registered"), s)
  | .ok (), some _, [] => (.error (.valueError "no rollback backup is available"), s)
  | .ok (), some record, newest :: older =>
    let record := { record with state := .active }
    (.ok record, { s with
      registry := s.registry.set id record
      active := s.active.set id newest
      backups := s.backups.set id older })

def registerPublisher (s : Manager φ) (principal : Principal) (publisherId trustLevel : String) (now : ℤ) :
    Outcome φ Unit :=
  match requireAction principal .registerPublisher true now with
  | .error e => (.error e, s)
  | .ok () =>
    if trustLevel ∉ ["noesar-official", "certified-partner", "customer-private", "community"] then
      (.error (.valueError "invalid trust level"), s)
    else (.ok (), { s with publishers := publisherId :: s.publishers })

def revokePublisher (s : Manager φ) (principal : Principal) (publisherId : String) (now : ℤ) : Outcome φ Unit :=
  match requireAction principal .revokePublisher true now with
  | .error e => (.error e, s)
  | .ok () =>
    if publisherId ∉ s.publishers then (.error (.valueError "publisher is not registered"), s)
    else (.ok (), { s with revocations := { s.revocations with publishers := publisherId :: s.revocations.publishers } })

def revokePackage (s : Manager φ) (principal : Principal) (packageSha256 : String) (now : ℤ) : Outcome φ Unit :=
  match requireAction principal .revokePackage true now with
  | .error e => (.error e, s)
  | .ok () => (.ok (), { s with revocations := { s.revocations with packages := packageSha256 :: s.revocations.packages } })

/-- `invoke_builtin`: the directory whose entrypoint runs, and the name of the function it is. -/
def invokeBuiltin (builtins : List String) (s : Manager φ) (principal : Principal) (id : String) (now : ℤ) :
    Except PyError (Directory φ × Value φ) := do
  requireAction principal .invoke false now
  let record ← demand ((s.registry.get id).filter fun record ↦ record.state = .active) (.valueError "capability is not active")
  require (record.organizationId = principal.organizationId) (.permissionError "capability organization scope mismatch")
  require ((record.projectId.filter (· ≠ "")).isSome = true → record.projectId = principal.projectId)
    (.permissionError "capability project scope mismatch")
  s.revocations.assertAllowed record.publisherId record.packageSha256 id record.version
  let directory ← demand (s.active.get id) noSuchFile
  let manifest ← directory.manifest
  let entrypoint ← subscript "entrypoint" manifest
  let type ← subscript "type" entrypoint
  require (isString "builtin" type = true) (.valueError "reference implementation invokes only built-ins")
  let value ← subscript "value" entrypoint
  require (hashable (some value) = true) (.typeError "unhashable type")
  require (builtins.any (fun name ↦ isString name value) = true) (.valueError "unknown built-in capability")
  return (directory, value)

inductive Command (φ : Type)
  | install (call : InstallCall φ)
  | activate (principal : Principal) (id : String) (now : ℤ)
  | disable (principal : Principal) (id : String) (now : ℤ)
  | uninstall (principal : Principal) (id : String) (now : ℤ)
  | rollback (principal : Principal) (id : String) (now : ℤ)
  | registerPublisher (principal : Principal) (publisherId trustLevel : String) (now : ℤ)
  | revokePublisher (principal : Principal) (publisherId : String) (now : ℤ)
  | revokePackage (principal : Principal) (packageSha256 : String) (now : ℤ)

def step (s : Manager φ) : Command φ → Manager φ
  | .install call => (s.install host py secret loads call).2
  | .activate principal id now => (s.activate py principal id now).2
  | .disable principal id now => (s.disable principal id now).2
  | .uninstall principal id now => (s.uninstall principal id now).2
  | .rollback principal id now => (s.rollback principal id now).2
  | .registerPublisher principal publisherId trustLevel now => (s.registerPublisher principal publisherId trustLevel now).2
  | .revokePublisher principal publisherId now => (s.revokePublisher principal publisherId now).2
  | .revokePackage principal packageSha256 now => (s.revokePackage principal packageSha256 now).2

end Manager

end

end Noesar.Reference
