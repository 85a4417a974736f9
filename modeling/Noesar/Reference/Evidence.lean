import Noesar.Reference.Plans
import Noesar.Reference.Profiles

namespace Noesar.Reference.Production

open Lib Lib.Framing Lib.Json

structure File where
  name : String
  bytes : Bytes

/-- The files that are there while a call runs: what reading a path gives or raises, and the file, if it is one, to
which a path in a document leads. With them, whether `int` reads a text in base 16. -/
structure Site where
  read : String → Except PyError File
  locate : String → Except PyError (Option File)
  hexadecimal : String → Bool

structure CapabilityProductionEvidence (φ : Type) where
  capabilityId : Value φ
  capabilityVersion : Value φ
  planHash : Value φ
  profileSha256 : String
  evidenceSha256 : String
  authorityAttestationSha256 : String
  postgresAttestationSha256 : String
  sandboxAttestationSha256 : String
  policyDecisionSha256 : String
  capabilityPackageSha256 : String
  runtimeReadinessSha256 : String

def authorityRequiredTrue : List String :=
  ["canonicalJsonConformancePassed", "hmacConformancePassed", "authenticatedIpc", "peerCredentialsVerified",
    "frameBoundaryTestsPassed", "testsPassed"]

def postgresRequiredTrue : List String :=
  ["connected", "migrationsVerified", "roleSeparationVerified", "publicSchemaRevocationVerified",
    "applicationRoleNoBypassRls", "rowLevelSecurityVerified", "immutableLedgersVerified",
    "securityAcceptanceViewVerified", "repositoryAdapterActive", "backupRestoreVerified", "legacyV030Rejected",
    "baselineV040Preserved"]

def productionRequiredTrue : List String :=
  ["noNewPrivileges", "userNamespace", "uidMapRestricted", "gidMapRestricted", "mountNamespace", "pidNamespace",
    "networkNamespace", "ipcNamespace", "utsNamespace", "seccomp", "resourceLimits", "filesystemIsolation",
    "processIsolation", "escapeTestsPassed"]

def adapters : List String :=
  ["bubblewrap", "linux-namespace-seccomp-launcher", "windows-appcontainer", "macos-sandbox-exec", "wasi-preview2"]

def boundDigests : List String :=
  ["authorityAttestationSha256", "postgresAttestationSha256", "capabilityPackageSha256", "policyDecisionSha256",
    "runtimeReadinessSha256", "planHash"]

section

variable {φ : Type} (host : Capability.Host) (py : Interpreter φ) (site : Site)

/-- `value.get(key)` -/
def field (members : Entries φ) (key : String) : Value φ := (InsertionMap.lookup key members).getD .null

def reads (members : Entries φ) (key expected : String) : Bool := isString expected (field members key)

def digest (file : File) : String := hex (host.sha256 file.bytes).toList

def requireSha (value : Value φ) (name : String) : Except PyError String := do
  let text ← demand ((stringOf (some value)).filter fun text ↦ text.length = 64)
    (PyError.valueError s!"{name} must be a SHA-256 digest")
  require (site.hexadecimal text = true) (PyError.valueError s!"{name} must be hexadecimal")
  return text

def verifyFile (members : Entries φ) (pathField hashField : String) : Except PyError File := do
  let raw ← demand ((stringOf (some (field members pathField))).filter fun raw ↦ raw ≠ "")
    (PyError.valueError s!"{pathField} is required")
  let found ← site.locate raw
  let file ← demand found (PyError.valueError s!"{pathField} does not exist")
  let expected ← requireSha site (field members hashField) hashField
  require (digest host file = expected) (PyError.valueError s!"{hashField} mismatch")
  return file

def loadsOr (file : File) : Except PyError (Value φ) := demand (loads py file.bytes) (.valueError "the text is not JSON")

def load (file : File) : Except PyError (Entries φ) := do
  match ← loadsOr py file with
  | .object members => return members
  | _ => throw (.valueError s!"{file.name} must contain a JSON object")

def requireTrue (members : Entries φ) (names : List String) (message : String) : Except PyError Unit :=
  names.forM fun name ↦ require (isTrue (InsertionMap.lookup name members) = true) (PyError.valueError (message ++ name))

structure Expected (φ : Type) where
  profileSha256 : String
  capabilityId : Value φ
  capabilityVersion : Value φ
  launcherSha256 : Option String := none
  seccompSha256 : Option String := none
  planHash : Option (Value φ) := none

/-- `expected is not None and value.get(key) != expected` -/
def differs (members : Entries φ) (key : String) (expected : Value φ) : Bool :=
  !equal py .null expected && !equal py (field members key) expected

def verifyProductionSandboxAttestation (file : File) (expected : Expected φ) : Except PyError (Entries φ) := do
  let members ← loadsOr py file >>= membersOf
  let version := field members "schemaVersion"
  let known ← among ["2.0", "3.0"] version
  require (known = true) (.valueError "production sandbox attestation schema 2.0 or 3.0 is required")
  require (reads members "kind" "capability-os-sandbox" = true) (.valueError "invalid sandbox attestation kind")
  let latest := isString "3.0" version
  require (reads members "release" (if latest then "0.5.0" else "0.4.0") = true)
    (.valueError "sandbox attestation release mismatch")
  require (reads members "profileSha256" expected.profileSha256 = true) (.valueError "sandbox profile hash mismatch")
  require (reads members "profile" "os-isolated" = true) (.valueError "production sandbox profile must be os-isolated")
  let supported ← among adapters (field members "adapter")
  require (supported = true) (.valueError "unsupported sandbox adapter")
  require (differs py members "capabilityId" expected.capabilityId = false) (.valueError "sandbox capabilityId mismatch")
  require (differs py members "capabilityVersion" expected.capabilityVersion = false)
    (.valueError "sandbox capabilityVersion mismatch")
  let launcher ← verifyFile host site members "launcherPath" "launcherSha256"
  let seccomp ← verifyFile host site members "seccompProfilePath" "seccompProfileSha256"
  let _ ← verifyFile host site members "escapeTestReportPath" "escapeTestReportSha256"
  require (∀ hash ∈ expected.launcherSha256, digest host launcher = hash)
    (.valueError "attested launcher does not match the configured adapter")
  require (∀ hash ∈ expected.seccompSha256, digest host seccomp = hash)
    (.valueError "attested seccomp profile does not match the configured adapter")
  requireTrue members productionRequiredTrue "production sandbox attestation missing "
  require (truthy py (field members "platform") = true ∧ truthy py (field members "kernel") = true)
    (.valueError "platform and kernel are required")
  require (truthy py (field members "createdUtc") = true) (.valueError "createdUtc is required")
  require (reads members "networkPolicy" "deny-by-default" = true) (.valueError "network policy must be deny-by-default")
  require (reads members "filesystemPolicy" "allowlisted-readonly-root" = true)
    (.valueError "filesystem policy must be allowlisted-readonly-root")
  require (latest = true → reads members "authorityProtocolVersion" "1.1" = true) (.valueError "authority protocol V1.1 is required")
  require (latest = true → reads members "runtimeVersion" "0.5.0" = true) (.valueError "runtime V0.5.0 is required")
  require (latest = true → ∀ hash ∈ expected.planHash, differs py members "planHash" hash = false)
    (.valueError "sandbox planHash mismatch")
  if latest then boundDigests.forM fun name ↦ do
    let _ ← requireSha site (field members name) name
  return members

structure Subject (φ : Type) where
  capabilityId : Value φ
  capabilityVersion : Value φ
  planHash : Value φ
  profileSha256 : String

def isEmptyArray : Value φ → Bool
  | .array items => items.isEmpty
  | _ => false

/-- `isinstance(checks, dict) and checks and all(checks.values())` -/
def allChecked : Value φ → Bool
  | .object members => !members.isEmpty && members.all fun m ↦ truthy py m.2
  | _ => false

def verifyAuthority (authority : Entries φ) : Except PyError Unit := do
  require (reads authority "schemaVersion" "3.0" = true ∧ reads authority "kind" "rust-authority" = true ∧
    reads authority "release" "0.5.0" = true ∧ reads authority "protocolVersion" "1.1" = true)
    (PyError.valueError "invalid Rust authority V3 evidence")
  requireTrue authority authorityRequiredTrue "Rust authority evidence missing "
  let transport ← among ["unix-domain-socket", "windows-named-pipe"] (field authority "transport")
  require (transport = true) (PyError.valueError "unsupported authenticated authority transport")

def verifyPostgres (postgres : Entries φ) : Except PyError Unit := do
  require (reads postgres "schemaVersion" "3.0" = true ∧ reads postgres "kind" "postgresql-data-plane" = true ∧
    reads postgres "release" "0.5.0" = true) (PyError.valueError "invalid PostgreSQL V3 evidence")
  let version ← toInt py ((InsertionMap.lookup "serverVersionNumber" postgres).getD (.number (.int 0)))
  require (180000 ≤ version) (.valueError "PostgreSQL 18 or newer is required")
  require (truthy py (field postgres "pgvectorVersion") = true) (.valueError "pgvector version is required")
  requireTrue postgres postgresRequiredTrue "PostgreSQL evidence missing "

def verifyReadiness (readiness : Entries φ) : Except PyError Unit := do
  require (reads readiness "release" "0.5.0" = true) (.valueError "runtime readiness release mismatch")
  require (isTrue (InsertionMap.lookup "productionReady" readiness) = true)
    (.valueError "runtime readiness is not production-ready")
  require (allChecked py (field readiness "checks") = true) (.valueError "runtime readiness checks are incomplete")
  require (isEmptyArray (field readiness "blockers") = true) (.valueError "runtime readiness contains blockers")

def verifyCapabilityProductionEvidence (path : String) (expected : Subject φ) :
    Except PyError (CapabilityProductionEvidence φ) := do
  let file ← site.read path
  let value ← load py file
  require (reads value "schemaVersion" "1.0" = true ∧ reads value "kind" "capability-production-evidence" = true ∧
    reads value "release" "0.5.0" = true) (.valueError "invalid capability production evidence")
  require (equal py (field value "capabilityId") expected.capabilityId = true)
    (.valueError "production evidence capabilityId mismatch")
  require (equal py (field value "capabilityVersion") expected.capabilityVersion = true)
    (.valueError "production evidence capabilityVersion mismatch")
  require (equal py (field value "planHash") expected.planHash = true) (.valueError "production evidence planHash mismatch")
  require (reads value "profileSha256" expected.profileSha256 = true) (.valueError "production evidence profileSha256 mismatch")
  require (reads value "authorityProtocolVersion" "1.1" = true) (.valueError "authority protocol V1.1 is required")
  require (reads value "runtimeVersion" "0.5.0" = true) (.valueError "runtime V0.5.0 evidence is required")
  let capabilityPackage ← verifyFile host site value "capabilityPackagePath" "capabilityPackageSha256"
  let policyDecision ← verifyFile host site value "policyDecisionPath" "policyDecisionSha256"
  let authorityFile ← verifyFile host site value "authorityAttestationPath" "authorityAttestationSha256"
  let postgresFile ← verifyFile host site value "postgresAttestationPath" "postgresAttestationSha256"
  let sandboxFile ← verifyFile host site value "sandboxAttestationPath" "sandboxAttestationSha256"
  let readinessFile ← verifyFile host site value "runtimeReadinessPath" "runtimeReadinessSha256"
  load py authorityFile >>= verifyAuthority
  load py postgresFile >>= verifyPostgres py
  load py readinessFile >>= verifyReadiness py
  let sandbox ← verifyProductionSandboxAttestation host py site sandboxFile
    ⟨expected.profileSha256, expected.capabilityId, expected.capabilityVersion, none, none, some expected.planHash⟩
  let bindings := [("authorityAttestationSha256", digest host authorityFile), ("postgresAttestationSha256", digest host postgresFile),
    ("capabilityPackageSha256", digest host capabilityPackage), ("policyDecisionSha256", digest host policyDecision),
    ("runtimeReadinessSha256", digest host readinessFile)]
  bindings.forM fun (name, hash) ↦
    require (reads sandbox name hash = true) (PyError.valueError s!"sandbox {name} binding mismatch")
  return ⟨expected.capabilityId, expected.capabilityVersion, expected.planHash, expected.profileSha256, digest host file,
    digest host authorityFile, digest host postgresFile, digest host sandboxFile, digest host policyDecision,
    digest host capabilityPackage, digest host readinessFile⟩

end

end Noesar.Reference.Production
