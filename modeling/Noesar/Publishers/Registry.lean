import Noesar.Author.Rules
import Noesar.Lib.Fallible
import Noesar.Lib.Framing
import Noesar.Workflows.Definition

namespace Noesar.Publishers

open Lib Lib.Framing Lib.Utf16

open Author (text)

/-- What the platform does for the registry: the public key that a file of such a text holds, and a digest. -/
structure Platform where
  createPublicKey : List Char → Option Bytes
  sha256 : Bytes → Vector UInt8 32

abbrev Instant : Type := {t : ℤ // |t| ≤ 8640000000000}

inductive KeyState
  | active
  | revoked
  deriving DecidableEq

structure Key where
  fingerprint : Units
  publicKeyPath : Units
  state : KeyState
  addedBy : Units
  addedAtUnix : Instant
  revokedBy : Option Units
  revokedAtUnix : Option Instant
  revokedReason : Option Units
  deriving DecidableEq

structure Publisher where
  publisherId : Units
  trustLevel : Units
  keys : List Key
  registeredBy : Units
  registeredAtUnix : Instant

abbrev State : Type := InsertionMap Units Publisher

inductive Thrown
  | refused (kind : String) (reason : Units)
  | typeError (message : String)
  deriving DecidableEq

inductive Record
  | keyRegistered (actor publisherId trustLevel fingerprint : Units)
  | revoked (actor publisherId : Units) (fingerprint : Option Units) (revokedCount : ℕ) (reason : Option Units)
  | trustLevelChanged (actor publisherId : Units) (previous : Option Units) (next : Units)
  deriving DecidableEq

/-- The registry with the files it has written. On what every object inherits, a trust level can be set too. -/
structure World where
  state : State := .empty
  saved : Option State := none
  keyFiles : InsertionMap Units (List Char) := .empty
  inheritedLevels : InsertionMap Units Units := .empty
  ledger : List Record := []

def written (t : Units) : List Char := (points t).map fun
  | .inl c => c
  | .inr _ => '\uFFFD'

def lower (u : UInt16) : Bool := 'a'.toNat ≤ u.toNat && u.toNat ≤ 'z'.toNat

def digit (u : UInt16) : Bool := '0'.toNat ≤ u.toNat && u.toNat ≤ '9'.toNat

/-- `/^[a-z][a-z0-9._-]{2,63}$/` -/
def publisherIdPattern : Units → Bool
  | [] => false
  | u :: us => lower u && 2 ≤ us.length && us.length ≤ 63 && us.all fun u ↦ lower u || digit u || (text "._-").contains u

def owner : Units := text "owner"

def fileSuffix : Units := text ".pub.pem"

def keyFile (publisherId fingerprint : Units) : Units := publisherId ++ text "--" ++ fingerprint.take 16 ++ fileSuffix

inductive Held
  | own (publisher : Publisher)
  | inherited
  | missing

def World.held (world : World) (publisherId : Units) : Held :=
  match world.state.get publisherId with
  | some publisher => .own publisher
  | none => if publisherId ∈ Workflows.inherited.map text then .inherited else .missing

/-- The keys of what is inherited have no such method. Only the constructor has anything of that name. -/
def noMethod (publisherId : Units) (method : String) : Thrown :=
  .typeError (if publisherId = text "constructor" then s!"publisher.keys.{method} is not a function"
    else s!"Cannot read properties of undefined (reading '{method}')")

def World.publisherOr (world : World) (publisherId : Units) (method : String) (absent : Except Thrown Publisher) :
    Except Thrown Publisher :=
  match world.held publisherId with
  | .own publisher => .ok publisher
  | .missing => absent
  | .inherited => .error (noMethod publisherId method)

def World.inheritedLevel (world : World) (publisherId : Units) : Option Units :=
  (world.inheritedLevels.get publisherId).or (world.inheritedLevels.get (text "__proto__"))

def World.load (world : World) : State := world.saved.getD .empty

def World.save (world : World) (state : State) (record : Record) : World :=
  { world with state, saved := some state, ledger := world.ledger ++ [record] }

structure Registration where
  publisherId : Units
  trustLevel : Units
  publicKeyPem : Units
  actorId : Option Units
  nowUnix : Instant

structure Registered where
  publisherId : Units
  trustLevel : Units
  fingerprint : Units
  keyPath : Units
  registeredAtUnix : Instant

structure Revocation where
  publisherId : Units
  fingerprint : Option Units
  actorId : Option Units
  nowUnix : Instant
  reason : Option Units

structure LevelChange where
  publisherId : Units
  trustLevel : Units
  actorId : Option Units

structure Lookup where
  publisherId : Units
  fingerprint : Units
  declaredTrustLevel : Option Units

structure ActiveKey where
  publicKeyPem : Units
  trustLevel : Units

/-- `fingerprint ? … : …` -/
def asked : Option Units → Option Units
  | none | some [] => none
  | some fingerprint => some fingerprint

def targeted (fingerprint : Option Units) (key : Key) : Bool :=
  match fingerprint with
  | some fingerprint => key.fingerprint = fingerprint
  | none => key.state = .active

def revokeKey (target : Option Units) (actor : Units) (nowUnix : Instant) (reason : Option Units) (key : Key) : Key :=
  if targeted target key ∧ key.state = .active then
    { key with state := .revoked, revokedBy := some actor, revokedAtUnix := some nowUnix, revokedReason := reason }
  else key

def unknownPublisher (publisherId : Units) : Thrown :=
  .refused "UNKNOWN_PUBLISHER" (text "no publisher registered as \"" ++ publisherId ++ text "\"")

section

variable (platform : Platform)

def keyFingerprint (publicKeyPem : Units) : Option Units :=
  (platform.createPublicKey (written publicKeyPem)).map fun key ↦ text (hex (platform.sha256 key).toList)

def fingerprintOf (publicKeyPem : Units) : Except Thrown Units := do
  let fingerprint ← demand (keyFingerprint platform publicKeyPem) (Thrown.refused "BAD_PUBLIC_KEY" (text "not a valid public key"))
  require (¬text "PRIVATE KEY" <:+: publicKeyPem)
    (Thrown.refused "PRIVATE_KEY_REFUSED" (text "a private key must never be registered here"))
  return fingerprint

def registerKey (world : World) (call : Registration) : Except Thrown (Registered × World) := do
  let quoted := text "\"" ++ call.publisherId ++ text "\""
  require (publisherIdPattern call.publisherId) (Thrown.refused "INVALID_PUBLISHER_ID"
    (text "publisher id " ++ quoted ++ text " must match /^[a-z][a-z0-9._-]\x7b2,63\x7d$/"))
  require (call.trustLevel ≠ []) (Thrown.refused "INVALID_TRUST_LEVEL" (text "a trust level is required"))
  let fingerprint ← fingerprintOf platform call.publicKeyPem
  let actor := call.actorId.getD owner
  let publisher ← world.publisherOr call.publisherId "some"
    (.ok ⟨call.publisherId, call.trustLevel, [], actor, call.nowUnix⟩)
  require (∀ key ∈ publisher.keys, key.fingerprint ≠ fingerprint) (Thrown.refused "KEY_ALREADY_REGISTERED"
    (text "fingerprint " ++ fingerprint ++ text " is already registered for " ++ quoted))
  require (publisher.keys = [] ∨ publisher.trustLevel = call.trustLevel) (Thrown.refused "TRUST_LEVEL_MISMATCH"
    (quoted ++ text " is registered at trust level \"" ++ publisher.trustLevel ++
      text "\"; rotate a key at that level, or call setTrustLevel() explicitly first"))
  let keyPath := keyFile call.publisherId fingerprint
  let key : Key := ⟨fingerprint, keyPath, .active, actor, call.nowUnix, none, none, none⟩
  let state := world.state.set call.publisherId { publisher with keys := publisher.keys ++ [key] }
  let world := { world with keyFiles := world.keyFiles.set keyPath (written call.publicKeyPem) }
  return (⟨call.publisherId, call.trustLevel, fingerprint, keyPath, call.nowUnix⟩,
    world.save state (.keyRegistered actor call.publisherId call.trustLevel fingerprint))

def revoke (world : World) (call : Revocation) : Except Thrown (ℕ × World) := do
  let publisher ← world.publisherOr call.publisherId "filter" (.error (unknownPublisher call.publisherId))
  let targets := publisher.keys.filter (targeted (asked call.fingerprint))
  require (asked call.fingerprint = none ∨ targets ≠ []) (Thrown.refused "UNKNOWN_KEY"
    (text "\"" ++ call.publisherId ++ text "\" has no key with fingerprint " ++ call.fingerprint.getD []))
  let actor := call.actorId.getD owner
  let revokedCount := targets.countP fun key ↦ key.state = .active
  let keys := publisher.keys.map (revokeKey (asked call.fingerprint) actor call.nowUnix call.reason)
  return (revokedCount, world.save (world.state.set call.publisherId { publisher with keys })
    (.revoked actor call.publisherId call.fingerprint revokedCount call.reason))

def setTrustLevel (world : World) (call : LevelChange) : Except Thrown World :=
  let record (previous : Option Units) : Record :=
    .trustLevelChanged (call.actorId.getD owner) call.publisherId previous call.trustLevel
  match world.held call.publisherId with
  | .own publisher =>
    .ok (world.save (world.state.set call.publisherId { publisher with trustLevel := call.trustLevel }) (record publisher.trustLevel))
  | .inherited =>
    let inheritedLevels := world.inheritedLevels.set call.publisherId call.trustLevel
    .ok ({ world with inheritedLevels }.save world.state (record (world.inheritedLevel call.publisherId)))
  | .missing => .error (unknownPublisher call.publisherId)

def World.readFile (world : World) (readable : Units → Bool) (path : Units) : Option Units :=
  if readable path then (world.keyFiles.get path).map encode else none

def findActiveKey (world : World) (readable : Units → Bool) (lookup : Lookup) : Except Thrown (Option ActiveKey) :=
  let eligible (trustLevel : Option Units) : Bool := lookup.declaredTrustLevel = none || lookup.declaredTrustLevel = trustLevel
  match world.held lookup.publisherId with
  | .missing => .ok none
  | .inherited =>
    if eligible (world.inheritedLevel lookup.publisherId) then .error (noMethod lookup.publisherId "find") else .ok none
  | .own publisher =>
    if eligible publisher.trustLevel then
      match publisher.keys.find? fun key ↦ key.fingerprint = lookup.fingerprint && key.state = .active with
      | none => .ok none
      | some key => .ok ((world.readFile readable key.publicKeyPath).map (⟨·, publisher.trustLevel⟩))
    else .ok none

end

def World.reload (world : World) (restarted : Bool) : World :=
  { world with state := world.load, inheritedLevels := if restarted then .empty else world.inheritedLevels }

end Noesar.Publishers
