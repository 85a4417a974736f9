import Noesar.Canonical.Rust
import Noesar.Capability.Isolation
import Noesar.Lib.Base64
import Noesar.Lib.InsertionMap
import Noesar.Lib.Fallible

namespace Noesar.Authority

open Lib Lib.Utf16 Lib.Framing Lib.Json Canonical

def actions : List String :=
  ["authority.health", "path.evaluate", "approval.verify", "capability.authorize", "data-plane.status"]

def text (s : String) : Units := encode s.toList

def property (name : String) : JsValue → Option JsValue
  | .object members => (members.find? fun m ↦ m.1 = text name).map Prod.snd
  | _ => none

def without (name : String) : JsValue → JsValue
  | .object members => .object (members.filter fun m ↦ m.1 ≠ text name)
  | _ => .object []

def stringOf : Option JsValue → Option Units
  | some (.string s) => some s
  | _ => none

/-- The integer that `Number.isInteger` finds. -/
def integerOf : Option JsValue → Option ℤ
  | some (.number (.finite x)) => if x.val.den = 1 then some x.val.num else none
  | some (.number .negZero) => some 0
  | _ => none

def truthy : Option JsValue → Bool
  | none | some .null | some (.number .negZero) | some (.number .nan) | some (.number (.other "undefined")) => false
  | some (.bool b) => b
  | some (.number (.finite x)) => x.val ≠ 0
  | some (.string s) => s ≠ []
  | some _ => true

/-- `Buffer.from`: the bytes of a string, where half a character is replaced. -/
def bufferFrom (us : Units) : Bytes := utf8 (String.ofList ((points us).map (Sum.elim id fun _ ↦ Char.ofNat 0xFFFD)))

section

variable (host : Capability.Host) (ns : Numbers)

def mac (secret : Bytes) (body : JsValue) : Except String Units :=
  (canonicalJsonBytes ns body).map fun bytes ↦ encode (Base64.encode (host.hmac secret bytes).toList)

structure EnvelopeRequest where
  actorId : String
  sessionId : String
  action : String
  payload : Option JsValue
  ttlSeconds : Leaf
  now : ℚ
  nonce : String

def seconds (now : ℚ) : ℤ := ⌊now / 1000⌋

/-- `payload ?? {}` -/
def payloadOf : Option JsValue → JsValue
  | none | some .null => .object []
  | some v => v

def EnvelopeRequest.body (r : EnvelopeRequest) (issuedAt expiresAt : ℤ) : List (Units × JsValue) :=
  [(text "schemaVersion", .string (text "1.1")), (text "actorId", .string (text r.actorId)),
    (text "sessionId", .string (text r.sessionId)), (text "action", .string (text r.action)),
    (text "payload", payloadOf r.payload),
    (text "nonce", .string (text r.nonce)), (text "issuedAt", .number (.finite (.ofRat issuedAt))),
    (text "expiresAt", .number (.finite (.ofRat expiresAt)))]

def createAuthorityEnvelope (secret : Bytes) (r : EnvelopeRequest) : Except String JsValue :=
  if secret.length < 32 then .error "authority protocol secret must be at least 32 bytes"
  else if r.action ∉ actions then .error s!"unsupported authority action: {r.action}"
  else if r.actorId = "" ∨ r.sessionId = "" then .error "actorId and sessionId are required"
  else match integerOf (some (.number r.ttlSeconds)) with
  | none => .error "ttlSeconds must be between 1 and 30"
  | some ttl =>
    if ttl < 1 ∨ 30 < ttl then .error "ttlSeconds must be between 1 and 30"
    else if (text r.nonce).length < 16 then .error "nonce must contain at least 16 characters"
    else
      let body := r.body (seconds r.now) (seconds r.now + ttl)
      (mac host ns secret (.object body)).map fun signature ↦ .object (body ++ [(text "signature", .string signature)])

/-- The time after which a nonce is forgotten stands with it. -/
structure AuthorityEnvelopeVerifier where
  secret : Bytes
  maxClockSkewSeconds : ℚ
  replayRetentionSeconds : ℚ
  usedNonces : InsertionMap Units ℚ

structure ExpectedBindings where
  actorId : Option Units
  sessionId : Option Units
  action : Option Units

def ExpectedBindings.entries (b : ExpectedBindings) : List (String × Option Units) :=
  [("actorId", b.actorId), ("sessionId", b.sessionId), ("action", b.action)]

/-- What a verification that does not throw returns, and what it notes down. -/
structure Acceptance where
  body : JsValue
  nonce : Units
  expiresAt : ℤ

structure Call where
  now : ℚ
  envelope : JsValue
  expected : ExpectedBindings

namespace AuthorityEnvelopeVerifier

variable (v : AuthorityEnvelopeVerifier)

def prune (nowSeconds : ℤ) : AuthorityEnvelopeVerifier :=
  { v with usedNonces := v.usedNonces.filter fun nonce ↦ (v.usedNonces.get nonce).all fun expiresAt ↦ (nowSeconds : ℚ) ≤ expiresAt }

def examine (nowSeconds : ℤ) (envelope : JsValue) (expected : ExpectedBindings) : Except String Acceptance := do
  let signature ← demand (stringOf (property "signature" envelope)) "signature is required"
  let body := without "signature" envelope
  require (stringOf (property "schemaVersion" body) = some (text "1.1")) "unsupported schemaVersion"
  require (∃ a ∈ actions, stringOf (property "action" body) = some (text a)) "unsupported authority action"
  require (truthy (property "actorId" body) ∧ truthy (property "sessionId" body)) "actorId and sessionId are required"
  let nonce ← demand (stringOf (property "nonce" body)) "nonce is invalid"
  require (16 ≤ nonce.length) "nonce is invalid"
  let issuedAt ← demand (integerOf (property "issuedAt" body)) "issuedAt and expiresAt must be integers"
  let expiresAt ← demand (integerOf (property "expiresAt" body)) "issuedAt and expiresAt must be integers"
  require (issuedAt < expiresAt ∧ expiresAt - issuedAt ≤ 30) "authority envelope lifetime is invalid"
  require ((issuedAt : ℚ) ≤ nowSeconds + v.maxClockSkewSeconds) "authority envelope is from the future"
  require (nowSeconds - v.maxClockSkewSeconds ≤ expiresAt) "authority envelope expired"
  require (v.usedNonces.has nonce = false) "authority envelope replay detected"
  let expectedMac ← mac host ns v.secret body
  require (bufferFrom expectedMac = bufferFrom signature) "authority envelope signature mismatch"
  expected.entries.forM fun (field, value) ↦
    require (value.all fun value ↦ stringOf (property field body) = some value)
      s!"authority envelope {field} binding mismatch"
  return ⟨body, nonce, expiresAt⟩

def use : Except String Acceptance → AuthorityEnvelopeVerifier
  | .error _ => v
  | .ok a => { v with usedNonces := v.usedNonces.set a.nonce (a.expiresAt + v.replayRetentionSeconds) }

def verify (c : Call) : Except String Acceptance × AuthorityEnvelopeVerifier :=
  let pruned := v.prune (seconds c.now)
  let result := pruned.examine host ns (seconds c.now) c.envelope c.expected
  (result, pruned.use result)

end AuthorityEnvelopeVerifier

end

end Noesar.Authority

namespace Noesar.Authority.Rust

open Lib Lib.Framing Lib.Json Canonical

structure AuthorityEnvelopeBody where
  schemaVersion : String
  actorId : String
  sessionId : String
  action : String
  payload : Json String SerdeNumber
  nonce : String
  issuedAt : Int64
  expiresAt : Int64

structure AuthorityEnvelope where
  body : AuthorityEnvelopeBody
  signature : String

structure ExpectedBindings where
  actorId : Option String
  sessionId : Option String
  action : Option String

structure AuthorityVerifier where
  secret : Bytes
  usedNonces : Finset String
  maxClockSkewSeconds : Int64

def canonicalBody (body : AuthorityEnvelopeBody) : Bytes :=
  toVec (.object [("schemaVersion", .string body.schemaVersion), ("actorId", .string body.actorId),
    ("sessionId", .string body.sessionId), ("action", .string body.action), ("payload", body.payload),
    ("nonce", .string body.nonce), ("issuedAt", .number (.integer body.issuedAt.toInt)),
    ("expiresAt", .number (.integer body.expiresAt.toInt))])

def validateBody (body : AuthorityEnvelopeBody) : Except String Unit :=
  if body.schemaVersion ≠ "1.1" then .error "unsupported schema version"
  else if body.actorId = "" ∨ body.sessionId = "" then .error "actor and session are required"
  else if body.action ∉ actions then .error "unsupported authority action"
  else if (utf8 body.nonce).length < 16 then .error "nonce is too short"
  else if ¬(1 ≤ body.expiresAt - body.issuedAt ∧ body.expiresAt - body.issuedAt ≤ 30) then
    .error "invalid authority envelope lifetime"
  else .ok ()

section

variable (host : Capability.Host)

/-- The part of `verify` that is about the signature. -/
def checkSignature (secret : Bytes) (envelope : AuthorityEnvelope) : Except String Unit :=
  match Base64.decode envelope.signature.toList with
  | none => .error "invalid signature encoding"
  | some supplied =>
    if (host.hmac secret (canonicalBody envelope.body)).toList ≠ supplied then
      .error "authority envelope signature mismatch"
    else .ok ()

def checkBindings (body : AuthorityEnvelopeBody) (bindings : ExpectedBindings) : Except String Unit :=
  if bindings.actorId.any (· ≠ body.actorId) then .error "authority envelope actor binding mismatch"
  else if bindings.sessionId.any (· ≠ body.sessionId) then .error "authority envelope session binding mismatch"
  else if bindings.action.any (· ≠ body.action) then .error "authority envelope action binding mismatch"
  else .ok ()

def AuthorityVerifier.new (secret : Bytes) (maxClockSkewSeconds : Int64) : Except String AuthorityVerifier :=
  if secret.length < 32 then .error "authority protocol secret must be at least 32 bytes"
  else .ok ⟨secret, ∅, maxClockSkewSeconds⟩

def AuthorityVerifier.examine (v : AuthorityVerifier) (envelope : AuthorityEnvelope) (nowSeconds : Int64)
    (bindings : ExpectedBindings) : Except String Unit := do
  validateBody envelope.body
  require (envelope.body.issuedAt ≤ nowSeconds + v.maxClockSkewSeconds) "authority envelope is from the future"
  require (nowSeconds - v.maxClockSkewSeconds ≤ envelope.body.expiresAt) "authority envelope expired"
  require (envelope.body.nonce ∉ v.usedNonces) "authority envelope replay detected"
  checkSignature host v.secret envelope
  checkBindings envelope.body bindings

def AuthorityVerifier.verify (v : AuthorityVerifier) (envelope : AuthorityEnvelope) (nowSeconds : Int64)
    (bindings : ExpectedBindings) : Except String Unit × AuthorityVerifier :=
  match v.examine host envelope nowSeconds bindings with
  | .error message => (.error message, v)
  | .ok () => (.ok (), { v with usedNonces := insert envelope.body.nonce v.usedNonces })

end

end Noesar.Authority.Rust
