import Noesar.Reference.Values
import Noesar.Capability.Isolation

namespace Noesar.Reference

open Lib Lib.Framing Lib.Json

inductive Role
  | user
  | developer
  | admin
  | owner
  deriving DecidableEq

def Role.text : Role → String
  | user => "user"
  | developer => "developer"
  | admin => "admin"
  | owner => "owner"

def Role.rank : Role → ℕ
  | user => 10
  | developer => 20
  | admin => 30
  | owner => 40

structure Principal where
  actorId : String
  role : Role
  sessionId : String
  strongReauthUntil : ℤ
  organizationId : String
  projectId : Option String
  identified : actorId ≠ "" ∧ sessionId ≠ ""

def Principal.strongReauthenticated (p : Principal) (now : ℤ) : Bool := now ≤ p.strongReauthUntil

inductive Action
  | inspect
  | verify
  | plan
  | install
  | activate
  | disable
  | uninstall
  | rollback
  | invoke
  | registerPublisher
  | revokePublisher
  | revokePackage
  deriving DecidableEq

def Action.text : Action → String
  | inspect => "capability.inspect"
  | verify => "capability.verify"
  | plan => "capability.plan"
  | install => "capability.install"
  | activate => "capability.activate"
  | disable => "capability.disable"
  | uninstall => "capability.uninstall"
  | rollback => "capability.rollback"
  | invoke => "capability.invoke"
  | registerPublisher => "publisher.register"
  | revokePublisher => "publisher.revoke"
  | revokePackage => "package.revoke"

def Action.minimumRole : Action → Role
  | inspect | verify | plan | install => .developer
  | activate | disable | uninstall | rollback => .admin
  | invoke => .user
  | registerPublisher | revokePublisher | revokePackage => .owner

def requireAction (principal : Principal) (action : Action) (strongReauth : Bool) (now : ℤ) : Except PyError Unit := do
  require (action.minimumRole.rank ≤ principal.role.rank)
    (.permissionError s!"{action.text} requires role {action.minimumRole.text}; received {principal.role.text}")
  require (strongReauth = true → principal.strongReauthenticated now = true)
    (.permissionError s!"{action.text} requires strong reauthentication")

def nonBypassable : List String := ["physical.actuate"]

def ownerOnly : List String := ["filesystem.host", "runtime.install", "memory.promote"]

def highRisk : List String :=
  ["network.external", "secret.read", "shell.execute", "model.download", "camera.read", "microphone.read"]

def writeRisk : List String := ["filesystem.write.project", "memory.write"]

def allowedLicenses : List String :=
  ["Apache-2.0", "MIT", "BSD-2-Clause", "BSD-3-Clause", "ISC", "AGPL-3.0-or-later", "LicenseRef-NOESAR-Commercial",
    "LicenseRef-Customer-Private"]

def reviewLicenses : List String := ["MPL-2.0", "LGPL-3.0-or-later", "EPL-2.0"]

def externalTypes : List String := ["wasi", "native-worker", "python-worker", "mcp", "a2a"]

inductive Decision
  | deny
  | approvalRequired
  | allow
  deriving DecidableEq

def Decision.text : Decision → String
  | deny => "deny"
  | approvalRequired => "approval-required"
  | allow => "allow"

structure PolicyDecision where
  decision : Decision
  reasons : List String
  sandboxProfile : String
  strongReauthRequired : Bool
  deriving DecidableEq

/-- What ends an evaluation before its end: an exception, or a reason to deny. -/
inductive Stop
  | raised (e : PyError)
  | denied (reasons : List String)

section

variable {φ : Type} (py : Interpreter φ)

def orRaise {α : Type} : Except PyError α → Except Stop α
  | .error e => .error (.raised e)
  | .ok a => .ok a

def shared (permissions : List (Value φ)) (texts : List String) : List String :=
  texts.filter fun text ↦ permissions.any (isString text)

def bypassGate (permissions : List (Value φ)) : Except Stop Unit :=
  require (shared permissions nonBypassable = [])
    (.denied ((shared permissions nonBypassable).map fun value ↦ s!"non-bypassable permission: {value}"))

def licenseGate (licenseId : Value φ) : Except Stop (List String) := do
  let allowed ← orRaise (among allowedLicenses licenseId)
  if allowed then return []
  let reviewed ← orRaise (among reviewLicenses licenseId)
  if reviewed then return ["license requires legal and compatibility review"]
  throw (.denied [s!"license is not approved by policy: {format py licenseId}"])

def highRiskGate (principal : Principal) (trustLevel evidence : Value φ) : Except Stop (List String) := do
  let certified ← orRaise (among ["noesar-official", "certified-partner"] trustLevel)
  require (certified = true) (.denied ["high-risk industry modules require official or certified publisher"])
  require (principal.role = .owner) (.denied ["high-risk industry modules require Owner authority"])
  require (truthy py (some evidence) = true) (.denied ["high-risk industry module evidence is missing"])
  return ["high-risk industry module requires explicit Owner approval"]

def industryGate (principal : Principal) (industry kind trustLevel : Value φ) : Except Stop (List String) := do
  if isString "industry-module" kind = false then return []
  require (truthy py (some industry) = true) (.denied ["industry module requires an industry assurance declaration"])
  let risk ← orRaise (getOr "riskClass" (.string "standard") industry)
  let evidence ← orRaise (getOr "evidence" (.array []) industry)
  require (isString "community" trustLevel = false) (.denied ["community industry modules are disabled"])
  let high ← orRaise (among ["high", "safety-critical"] risk)
  if high then highRiskGate py principal trustLevel evidence else return []

def ownerGate (principal : Principal) (permissions : List (Value φ)) : Except Stop (List String) := do
  if shared permissions ownerOnly = [] then return []
  require (principal.role = .owner) (.denied ["Owner authority is required for host or system changes"])
  return ["Owner-only permission requested"]

def externalGate (externalExecutionEnabled : Bool) (entrypointType : Value φ) : Except Stop Unit := do
  let external ← orRaise (among externalTypes entrypointType)
  require (external = true → externalExecutionEnabled = true) (.denied ["external execution runtime is not enabled"])

def sensitiveReasons (permissions : List (Value φ)) (trustLevel : Value φ) : List String :=
  (if isString "community" trustLevel then ["community publisher requires explicit approval"] else []) ++
    (if shared permissions highRisk = [] then [] else ["sensitive permission requires scoped approval"]) ++
    if shared permissions writeRisk = [] then [] else ["write permission requires scoped approval"]

/-- The reasons for an approval, and whether the principal has to authenticate for it once more. -/
def gates (manifest : Value φ) (principal : Principal) (externalExecutionEnabled : Bool) :
    Except Stop (List String × Bool) := do
  let permissions ← orRaise (getOr "permissions" (.array []) manifest >>= setOf)
  let trustLevel ← orRaise (subscript "publisher" manifest >>= subscript "trustLevel")
  let kind ← orRaise (subscript "kind" manifest)
  let entrypointType ← orRaise (subscript "entrypoint" manifest >>= subscript "type")
  let licenseId ← orRaise (subscript "license" manifest >>= subscript "spdx")
  bypassGate permissions
  let license ← licenseGate py licenseId
  let declared ← orRaise (getOr "industry" .null manifest)
  let industry ← industryGate py principal declared kind trustLevel
  let owner ← ownerGate principal permissions
  externalGate externalExecutionEnabled entrypointType
  return (license ++ industry ++ owner ++ sensitiveReasons permissions trustLevel, industry ≠ [] ∨ owner ≠ [])

def evaluatePolicy (manifest : Value φ) (principal : Principal) (externalExecutionEnabled : Bool) :
    Except PyError PolicyDecision :=
  match gates py manifest principal externalExecutionEnabled with
  | .error (.raised e) => .error e
  | .error (.denied reasons) => .ok ⟨.deny, reasons, "blocked", false⟩
  | .ok ([], _) => .ok ⟨.allow, ["no sensitive permissions requested"], "declarative", false⟩
  | .ok (reasons, strongReauth) => .ok ⟨.approvalRequired, reasons, "isolated-brokered", strongReauth⟩

end

end Noesar.Reference
