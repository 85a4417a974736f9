import Noesar.Reference.Plans
import Noesar.Lib.Base64
import Noesar.Lib.NonceStore

namespace Noesar.Reference

open Lib Lib.Framing Lib.Json

/-- A secret that `_secret` and `_validate_secret` let through. -/
structure Secret where
  bytes : Bytes
  long : 32 ≤ bytes.length

structure ExecutionAuthorization where
  capabilityId : String
  capabilityVersion : String
  actorId : String
  sessionId : String
  planHash : String
  sandboxProfile : String
  productionEligible : Bool
  evidenceChainVerified : Bool
  evidenceSha256 : Option String

structure CapabilityProductionEvidence where
  evidenceSha256 : String
  authorityAttestationSha256 : String
  postgresAttestationSha256 : String
  sandboxAttestationSha256 : String
  policyDecisionSha256 : String
  capabilityPackageSha256 : String
  runtimeReadinessSha256 : String

/-- A call of `ExecutionTicketIssuer.issue`, with the two tokens that are drawn in it. -/
structure Issuing where
  authorization : ExecutionAuthorization
  evidence : CapabilityProductionEvidence
  nonce : Option String
  ttlSeconds : ℤ
  now : ℤ
  drawnNonce : String
  ticketId : String

/-- A call of `verify_execution_ticket`. -/
structure Presentation (φ : Type) where
  ticket : Dict φ
  expectedActorId : String
  expectedSessionId : String
  expectedCapabilityId : String
  expectedCapabilityVersion : String
  expectedPlanHash : String
  expectedEvidenceSha256 : String
  now : ℤ
  maxClockSkewSeconds : ℤ

/-- A call of `create_envelope`. -/
structure EnvelopeRequest (φ : Type) where
  actorId : String
  sessionId : String
  action : String
  payload : Dict φ
  nonce : String
  ttlSeconds : ℤ
  now : ℤ
  planHash : Option String
  capabilityId : Option String
  capabilityVersion : Option String

/-- A call of `verify_envelope`. -/
structure EnvelopeCall (φ : Type) where
  envelope : Dict φ
  now : ℤ
  maxClockSkewSeconds : ℤ
  expectedActorId : Option String
  expectedSessionId : Option String
  expectedAction : Option String
  expectedPlanHash : Option String

def actions : List String :=
  ["capability.plan", "capability.approve", "capability.execute", "capability.disable", "capability.rollback",
    "capability.status"]

section

variable {φ : Type} (host : Capability.Host) (py : Interpreter φ) (secret : Secret)

def mac (body : Dict φ) : Bytes := (host.hmac secret.bytes (canonicalJson py body.value)).toList

def signatureOf (body : Dict φ) : String := String.ofList (Base64.encode (mac host py secret body))

/-- `body["signature"] = …` -/
def sign (body : Dict φ) : Dict φ := body.put "signature" (.string (signatureOf host py secret body)) (distinct_text _)

def Issuing.chosenNonce (i : Issuing) : String :=
  match i.nonce with
  | none => i.drawnNonce
  | some nonce => if nonce = "" then i.drawnNonce else nonce

def Issuing.body (i : Issuing) : Dict φ where
  entries := [("schemaVersion", .string "1.0"), ("kind", .string "capability-execution-ticket"),
    ("release", .string "0.5.0"), ("ticketId", .string i.ticketId), ("nonce", .string i.chosenNonce),
    ("actorId", .string i.authorization.actorId), ("sessionId", .string i.authorization.sessionId),
    ("capabilityId", .string i.authorization.capabilityId),
    ("capabilityVersion", .string i.authorization.capabilityVersion),
    ("planHash", .string i.authorization.planHash), ("sandboxProfile", .string i.authorization.sandboxProfile),
    ("productionEligible", .bool true), ("evidenceSha256", .string i.evidence.evidenceSha256),
    ("authorityAttestationSha256", .string i.evidence.authorityAttestationSha256),
    ("postgresAttestationSha256", .string i.evidence.postgresAttestationSha256),
    ("sandboxAttestationSha256", .string i.evidence.sandboxAttestationSha256),
    ("policyDecisionSha256", .string i.evidence.policyDecisionSha256),
    ("capabilityPackageSha256", .string i.evidence.capabilityPackageSha256),
    ("runtimeReadinessSha256", .string i.evidence.runtimeReadinessSha256), ("issuedAt", .number (.int i.now)),
    ("expiresAt", .number (.int (i.now + i.ttlSeconds)))]
  distinct := by simp [distinct_object]

def Issuing.issue (i : Issuing) : Except PyError (Dict φ) := do
  require (i.authorization.productionEligible = true) (.permissionError "execution authorization is not production-eligible")
  require (i.authorization.evidenceChainVerified = true) (.permissionError "production evidence chain is not verified")
  require (i.authorization.evidenceSha256 = some i.evidence.evidenceSha256)
    (.permissionError "execution authorization evidence binding mismatch")
  require (1 ≤ i.ttlSeconds ∧ i.ttlSeconds ≤ 30) (.valueError "execution ticket ttl_seconds must be between 1 and 30")
  require (16 ≤ i.chosenNonce.length) (.valueError "execution ticket nonce must contain at least 16 characters")
  return sign host py secret i.body

def Presentation.bindings (p : Presentation φ) : List (String × String) :=
  [("actorId", p.expectedActorId), ("sessionId", p.expectedSessionId), ("capabilityId", p.expectedCapabilityId),
    ("capabilityVersion", p.expectedCapabilityVersion), ("planHash", p.expectedPlanHash),
    ("evidenceSha256", p.expectedEvidenceSha256)]

/-- The checks of `verify_execution_ticket`, in their order. -/
def Presentation.examine (usedNonces : NonceStore String) (p : Presentation φ) :
    Except PyError (Accepted String (Dict φ)) := do
  let signature ← demand (stringOf (p.ticket.get "signature")) (.valueError "execution ticket signature is required")
  let body := p.ticket.without "signature"
  require (stringOf (body.get "schemaVersion") = some "1.0" ∧
      stringOf (body.get "kind") = some "capability-execution-ticket" ∧ stringOf (body.get "release") = some "0.5.0")
    (.valueError "invalid capability execution ticket")
  require (isTrue (body.get "productionEligible") = true) (.permissionError "execution ticket is not production-eligible")
  let nonce ← demand (stringOf (body.get "nonce")) (.valueError "execution ticket nonce is invalid")
  require (16 ≤ nonce.length) (.valueError "execution ticket nonce is invalid")
  require (usedNonces.has nonce = false) (.valueError "execution ticket nonce replay detected")
  let issuedAt ← demand (intOf (body.get "issuedAt")) (.valueError "execution ticket timestamps must be integers")
  let expiresAt ← demand (intOf (body.get "expiresAt")) (.valueError "execution ticket timestamps must be integers")
  require (1 ≤ expiresAt - issuedAt ∧ expiresAt - issuedAt ≤ 30) (.valueError "execution ticket lifetime is invalid")
  require (issuedAt ≤ p.now + p.maxClockSkewSeconds) (.valueError "execution ticket is from the future")
  require (p.now - p.maxClockSkewSeconds ≤ expiresAt) (.valueError "execution ticket expired")
  let supplied ← demand (Base64.decodeLenient signature.toList)
    (.valueError "execution ticket signature encoding is invalid")
  require (mac host py secret body = supplied) (.valueError "execution ticket signature mismatch")
  p.bindings.forM fun (field, expected) ↦
    require (stringOf (body.get field) = some expected) (.valueError s!"execution ticket {field} binding mismatch")
  return ⟨nonce, expiresAt, body⟩

def nonceRetention : ℤ := 120

def ticketTime : Issuing ⊕ Presentation φ → ℤ := Sum.elim Issuing.now Presentation.now

/-- The store is pruned, the ticket is examined, and its nonce is used up where nothing is wrong with it. -/
def verifyExecutionTicket (usedNonces : NonceStore String) (p : Presentation φ) :
    Except PyError (Accepted String (Dict φ)) × NonceStore String :=
  NonceStore.present ticketTime (Presentation.examine host py secret) nonceRetention usedNonces p

theorem optional_distinct (s : Option String) : (optional s : Value φ).Distinct := by
  cases s <;> trivial

def EnvelopeRequest.body (r : EnvelopeRequest φ) : Dict φ where
  entries := [("schemaVersion", .string "2.0"), ("actorId", .string r.actorId), ("sessionId", .string r.sessionId),
    ("action", .string r.action), ("payload", r.payload.value), ("nonce", .string r.nonce),
    ("issuedAt", .number (.int r.now)), ("expiresAt", .number (.int (r.now + r.ttlSeconds))),
    ("planHash", optional r.planHash), ("capabilityId", optional r.capabilityId),
    ("capabilityVersion", optional r.capabilityVersion)]
  distinct := by
    have hpayload : r.payload.value.Distinct := r.payload.distinct
    simp [distinct_object, hpayload, optional_distinct]

def createEnvelope (r : EnvelopeRequest φ) : Except PyError (Dict φ) := do
  require (r.action ∈ actions) (.valueError "unsupported capability IPC action")
  require (r.actorId ≠ "" ∧ r.sessionId ≠ "") (.valueError "actor_id and session_id are required")
  require (16 ≤ r.nonce.length) (.valueError "IPC nonce must contain at least 16 characters")
  require (1 ≤ r.ttlSeconds ∧ r.ttlSeconds ≤ 30) (.valueError "IPC ttl_seconds must be between 1 and 30")
  require (∀ digest ∈ r.planHash, digest.length = 64) (.valueError "plan_hash must be a SHA-256 digest")
  return sign host py secret r.body

def EnvelopeCall.expectations (c : EnvelopeCall φ) : List (String × Option String) :=
  [("actorId", c.expectedActorId), ("sessionId", c.expectedSessionId), ("action", c.expectedAction),
    ("planHash", c.expectedPlanHash)]

/-- The checks of `verify_envelope`, in their order. -/
def EnvelopeCall.examine (usedNonces : NonceStore String) (c : EnvelopeCall φ) :
    Except PyError (Accepted String (Dict φ)) := do
  let signature ← demand (stringOf (c.envelope.get "signature")) (.valueError "IPC signature is required")
  let body := c.envelope.without "signature"
  require (hashable (body.get "schemaVersion") = true) (.typeError "unhashable type")
  require (stringOf (body.get "schemaVersion") = some "1.0" ∨ stringOf (body.get "schemaVersion") = some "2.0")
    (.valueError "unsupported IPC schemaVersion")
  require (stringOf (body.get "schemaVersion") = some "2.0" → hashable (body.get "action") = true)
    (.typeError "unhashable type")
  require (stringOf (body.get "schemaVersion") = some "2.0" → ∃ a ∈ actions, stringOf (body.get "action") = some a)
    (.valueError "unsupported capability IPC action")
  require (truthy py (body.get "actorId") = true ∧ truthy py (body.get "sessionId") = true)
    (.valueError "IPC actorId and sessionId are required")
  let nonce ← demand (stringOf (body.get "nonce")) (.valueError "IPC nonce is invalid")
  require (16 ≤ nonce.length) (.valueError "IPC nonce is invalid")
  let issuedAt ← demand (intOf (body.get "issuedAt")) (.valueError "IPC timestamps must be integers")
  let expiresAt ← demand (intOf (body.get "expiresAt")) (.valueError "IPC timestamps must be integers")
  require (1 ≤ expiresAt - issuedAt ∧ expiresAt - issuedAt ≤ 30) (.valueError "IPC envelope lifetime is invalid")
  require (issuedAt ≤ c.now + c.maxClockSkewSeconds) (.valueError "IPC envelope is from the future")
  require (c.now - c.maxClockSkewSeconds ≤ expiresAt) (.valueError "IPC envelope expired")
  require (usedNonces.has nonce = false) (.valueError "IPC nonce replay detected")
  let supplied ← demand (Base64.decodeLenient signature.toList) (.valueError "IPC signature encoding is invalid")
  require (mac host py secret body = supplied) (.valueError "IPC signature mismatch")
  c.expectations.forM fun (field, expected) ↦
    require (expected.all fun value ↦ stringOf (body.get field) = some value) (.valueError s!"IPC {field} binding mismatch")
  return ⟨nonce, expiresAt, body⟩

def envelopeTime : EnvelopeRequest φ ⊕ EnvelopeCall φ → ℤ := Sum.elim EnvelopeRequest.now EnvelopeCall.now

def verifyEnvelope (usedNonces : NonceStore String) (c : EnvelopeCall φ) :
    Except PyError (Accepted String (Dict φ)) × NonceStore String :=
  NonceStore.present envelopeTime (EnvelopeCall.examine host py secret) nonceRetention usedNonces c

end

end Noesar.Reference
