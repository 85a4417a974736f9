import Noesar.Reference.Policy
import Noesar.Lib.Base64

namespace Noesar.Reference

open Lib Lib.Framing Lib.Json

/-- What `inspect` returns. -/
structure Inspection (φ : Type) where
  manifest : Value φ
  manifestBytes : Bytes
  signature : Bytes
  packageSha256 : String

abbrev Entries (φ : Type) := List (String × Value φ)

section

variable {φ : Type} (host : Capability.Host) (py : Interpreter φ)

def optional : Option String → Value φ
  | none => .null
  | some s => .string s

def texts (ss : List String) : Value φ := .array (ss.map .string)

def planWithoutHash (principal : Principal) (inspected : Inspection φ) (decision : PolicyDecision) :
    Except PyError (Entries φ) := do
  let manifest := inspected.manifest
  let id ← subscript "id" manifest
  let version ← subscript "version" manifest
  let kind ← subscript "kind" manifest
  let trustLevel ← subscript "publisher" manifest >>= subscript "trustLevel"
  let publisherId ← subscript "publisher" manifest >>= subscript "id"
  let permissions ← getOr "permissions" (.array []) manifest >>= iterate >>= sorted py
  let network ← getOr "network" (.array []) manifest
  let filesystem ← getOr "filesystem" (.array []) manifest
  let entrypoint ← subscript "entrypoint" manifest
  let industry ← getOr "industry" .null manifest
  let rollbackSupported ← getOr "rollback" (.object []) manifest >>= getOr "supported" (.bool false)
  return [("capabilityId", id), ("version", version), ("kind", kind), ("trustLevel", trustLevel),
    ("publisherId", publisherId), ("permissions", .array permissions), ("network", network),
    ("filesystem", filesystem), ("entrypoint", entrypoint), ("industry", industry),
    ("decision", .string decision.decision.text), ("reasons", texts decision.reasons),
    ("sandboxProfile", .string decision.sandboxProfile), ("strongReauthRequired", .bool decision.strongReauthRequired),
    ("packageSha256", .string inspected.packageSha256), ("backupRequired", .bool true),
    ("rollbackSupported", rollbackSupported), ("actorId", .string principal.actorId),
    ("role", .string principal.role.text), ("sessionId", .string principal.sessionId),
    ("organizationId", .string principal.organizationId), ("projectId", optional principal.projectId)]

def planHash (entries : Entries φ) : String := hex (host.sha256 (canonicalJson py (.object entries))).toList

def planOf (principal : Principal) (inspected : Inspection φ) (externalExecutionEnabled : Bool) :
    Except PyError (Entries φ) := do
  let decision ← evaluatePolicy py inspected.manifest principal externalExecutionEnabled
  let entries ← planWithoutHash py principal inspected decision
  return entries ++ [("planHash", .string (planHash host py entries))]

/-- `CapabilityManager.plan`, given what verifying the package comes to. -/
def plan (now : ℤ) (principal : Principal) (verified : Except PyError (Inspection φ)) (externalExecutionEnabled : Bool) :
    Except PyError (Entries φ) := do
  requireAction principal .plan false now
  let inspected ← verified
  planOf host py principal inspected externalExecutionEnabled

/-- The `ExecutionAuthorization` of an execution, with what it takes over from the plan. -/
structure Authorization (φ : Type) where
  capabilityId : Value φ
  capabilityVersion : Value φ
  actorId : String
  sessionId : String
  planHash : Value φ
  sandboxProfile : Value φ
  productionEligible : Bool
  attestationVerified : Bool

/-- A call of `authorize`, with what verifying the sandbox attestation comes to, where there is one. -/
structure AuthorizeCall (φ : Type) where
  principal : Principal
  plan : Entries φ
  approval : Entries φ
  attestation : Option (Except PyError Unit)
  developmentFixture : Bool
  now : ℤ

/-- Whether the attestation has been verified, and whether the profile may run in production. -/
def profileGate (attestation : Option (Except PyError Unit)) (developmentFixture : Bool) (profile : Value φ) :
    Except PyError (Bool × Bool) := do
  if isString "declarative" profile then return (false, true)
  if isString "process-restricted-development-fixture" profile then
    require (developmentFixture = true)
      (.permissionError "development fixture profile requires an explicit fixture gate")
    return (false, false)
  if isString "os-isolated" profile then
    let verified ← demand attestation
      (.permissionError "os-isolated execution requires a production sandbox attestation")
    verified
    return (true, false)
  throw (.permissionError "blocked or unknown sandbox profile")

def planField (plan : Entries φ) (field : String) : Except PyError (Value φ) :=
  demand (InsertionMap.lookup field plan) (.valueError s!"plan.{field} is required")

def approvalField (approval : Entries φ) (field : String) : Except PyError (Value φ) :=
  demand (InsertionMap.lookup field approval) (.valueError s!"approval.{field} is required")

/-- `CapabilityExecutionAuthority.authorize`: what it returns, and the nonces that are used up then. -/
def authorize (usedApprovalNonces : List (Value φ)) (c : AuthorizeCall φ) :
    Except PyError (Authorization φ × List (Value φ)) := do
  let capabilityId ← planField c.plan "capabilityId"
  let version ← planField c.plan "version"
  let actorId ← planField c.plan "actorId"
  let sessionId ← planField c.plan "sessionId"
  let planHash ← planField c.plan "planHash"
  let decision ← planField c.plan "decision"
  let profile ← planField c.plan "sandboxProfile"
  require (isString "deny" decision = false) (.permissionError "denied capability plans cannot execute")
  require (isString c.principal.actorId actorId = true) (.permissionError "plan actor binding mismatch")
  require (isString c.principal.sessionId sessionId = true) (.permissionError "plan session binding mismatch")
  let nonce ← approvalField c.approval "nonce"
  let approvedActor ← approvalField c.approval "actorId"
  let approvedSession ← approvalField c.approval "sessionId"
  let approvedCapability ← approvalField c.approval "capabilityId"
  let approvedVersion ← approvalField c.approval "version"
  let approvedHash ← approvalField c.approval "planHash"
  let expiresAt ← approvalField c.approval "expiresAt"
  require (hashable (some nonce) = true) (.typeError "unhashable type")
  require (usedApprovalNonces.any (equal py nonce) = false) (.permissionError "approval nonce replay detected")
  let expiry ← toInt py expiresAt
  require (c.now ≤ expiry) (.permissionError "approval expired")
  require (isString c.principal.actorId approvedActor = true) (.permissionError "approval actorId binding mismatch")
  require (isString c.principal.sessionId approvedSession = true) (.permissionError "approval sessionId binding mismatch")
  require (equal py capabilityId approvedCapability = true) (.permissionError "approval capabilityId binding mismatch")
  require (equal py version approvedVersion = true) (.permissionError "approval version binding mismatch")
  require (equal py planHash approvedHash = true) (.permissionError "approval planHash binding mismatch")
  let (attestationVerified, productionEligible) ← profileGate c.attestation c.developmentFixture profile
  return (⟨capabilityId, version, c.principal.actorId, c.principal.sessionId, planHash, profile, productionEligible,
    attestationVerified⟩, nonce :: usedApprovalNonces)

end

end Noesar.Reference

namespace Noesar.Reference

open Lib Lib.Framing Lib.Json

section

variable {φ : Type} (host : Capability.Host) (py : Interpreter φ) (secret : Bytes)

def splitAtDot (cs : List Char) : Option (List Char × List Char) :=
  if '.' ∈ cs then some (cs.takeWhile (· ≠ '.'), (cs.dropWhile (· ≠ '.')).tail) else none

def bytesOfAscii (cs : List Char) : Bytes := cs.map fun c ↦ UInt8.ofNat c.toNat

def identityFields (principal : Principal) : Entries φ :=
  [("actorId", .string principal.actorId), ("role", .string principal.role.text),
    ("sessionId", .string principal.sessionId), ("organizationId", .string principal.organizationId),
    ("projectId", optional principal.projectId)]

/-- A call of `issue_token`, with the nonce that is drawn in it. -/
structure TokenRequest (φ : Type) where
  principal : Principal
  capabilityId : Value φ
  version : Value φ
  planHash : Value φ
  scope : String
  ttlSeconds : ℤ
  now : ℤ
  nonce : String

def issueToken (r : TokenRequest φ) : Except PyError String := do
  require (1 ≤ r.ttlSeconds ∧ r.ttlSeconds ≤ 3600) (.valueError "approval TTL must be between 1 and 3600 seconds")
  let payload : Entries φ := [("capabilityId", r.capabilityId), ("version", r.version), ("planHash", r.planHash),
    ("scope", .string r.scope)] ++ identityFields r.principal ++
    [("issuedAt", .number (.int r.now)), ("expiresAt", .number (.int (r.now + r.ttlSeconds))), ("nonce", .string r.nonce)]
  let encoded := Base64.encode (canonicalJson py (.object payload))
  let signature := (host.hmac secret (bytesOfAscii encoded)).toList
  return String.ofList (encoded ++ '.' :: Base64.encode signature)

def openToken (loads : Bytes → Option (Value φ)) (token : String) : Option (Value φ) := do
  let (encoded, signature) ← splitAtDot token.toList
  let supplied ← Base64.decodeLenient signature
  if encoded.all (fun c ↦ c.toNat < 128) ∧ (host.hmac secret (bytesOfAscii encoded)).toList = supplied then
    (Base64.decodeLenient encoded).bind loads
  else none

/-- A presented token, with what it has to have been issued for. -/
structure Presented (φ : Type) where
  token : String
  principal : Principal
  capabilityId : Value φ
  version : Value φ
  planHash : Value φ
  now : ℤ

def Presented.expectedFields (p : Presented φ) : Entries φ :=
  [("capabilityId", p.capabilityId), ("version", p.version), ("planHash", p.planHash)] ++ identityFields p.principal

/-- What `get` is asked of. -/
def membersOf : Value φ → Except PyError (Entries φ)
  | .object members => .ok members
  | _ => .error (.attributeError "get")

def verifyToken (loads : Bytes → Option (Value φ)) (p : Presented φ) : Except PyError (Entries φ) := do
  let opened ← demand (openToken host secret loads p.token) (.valueError "invalid approval token")
  let payload ← membersOf opened
  p.expectedFields.forM fun (key, expected) ↦
    require (equal py ((InsertionMap.lookup key payload).getD .null) expected = true) (.valueError s!"approval {key} mismatch")
  let expiresAt ← demand (InsertionMap.lookup "expiresAt" payload) (.keyError "expiresAt")
  let expiry ← toInt py expiresAt
  require (p.now ≤ expiry) (.valueError "approval token expired")
  return payload

variable {host py secret}

theorem membersOf_ok {v : Value φ} {members : Entries φ} : membersOf v = .ok members ↔ v = .object members := by
  cases v with
  | object => simp [membersOf]
  | null | bool b | number n | string s | array items => simp [membersOf]

theorem verifyToken_ok {loads : Bytes → Option (Value φ)} {p : Presented φ} {payload : Entries φ}
    (h : verifyToken host py secret loads p = .ok payload) :
    openToken host secret loads p.token = some (.object payload) ∧
      (∀ field ∈ p.expectedFields, equal py ((InsertionMap.lookup field.1 payload).getD .null) field.2 = true) ∧
      ∃ expiresAt expiry, InsertionMap.lookup "expiresAt" payload = some expiresAt ∧ toInt py expiresAt = .ok expiry ∧
        p.now ≤ expiry := by
  simp only [verifyToken, bind_ok, exists_unit, require_ok, demand_ok] at h
  obtain ⟨opened, hopened, members, hmembers, hfields, expiresAt, hexpires, expiry, hexpiry, hnow, heq⟩ := h
  cases heq
  rw [membersOf_ok.mp hmembers] at hopened
  exact ⟨hopened, fun field hfield ↦ require_ok.mp (forM_ok.mp hfields field hfield), expiresAt, expiry, hexpires, hexpiry, hnow⟩

end

end Noesar.Reference
