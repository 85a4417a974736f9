import Noesar.Lib.Cbor
import Noesar.Lib.Utf8
import Noesar.Lib.Base64
import Noesar.Authority.Envelope

namespace Noesar.Webauthn

open Lib Lib.Framing

/-- What is thrown: an error of the source, the one of a buffer that is read behind its end, the one of a text that is no
JSON, or no more than that the model has gone as deep as it was let. -/
inductive Thrown
  | error (message : String)
  | outOfRange
  | syntaxError
  | exhausted
  deriving DecidableEq, Repr

/-- What an item is decoded to. A `Map` holds its entries in the order in which their keys were first set. -/
inductive Value
  | number (n : ℤ)
  | buffer (content : Bytes)
  | string (points : List Char)
  | array (items : List Value)
  | map (entries : List (Value × Value))
  | boolean (b : Bool)
  | null

/-- Two keys of a `Map` are one. A buffer, an array or a `Map` is never the one that another item was decoded to. -/
def sameKey : Value → Value → Bool
  | .number n, .number m => n = m
  | .string s, .string t => s = t
  | .boolean a, .boolean b => a = b
  | .null, .null => true
  | _, _ => false

/-- `map.set(key, value)` -/
def mapSet (key value : Value) : List (Value × Value) → List (Value × Value)
  | [] => [(key, value)]
  | entry :: entries =>
    if sameKey entry.1 key then (entry.1, value) :: entries else entry :: mapSet key value entries

/-- `Number.MAX_SAFE_INTEGER` -/
def maxSafeInteger : ℕ := 2 ^ 53 - 1

/-- `buffer.readUInt8(offset)` and its like -/
def readUInt (width : ℕ) (buffer : Bytes) (offset : ℕ) : Except Thrown ℕ :=
  demand ((BigEndian.read width (buffer.drop offset)).map Prod.fst) .outOfRange

/-- `buffer.subarray(start, stop)`, which stops where the buffer does. -/
def subarray (buffer : Bytes) (start stop : ℕ) : Bytes := (buffer.take stop).drop start

def readLength (buffer : Bytes) (offset additionalInfo : ℕ) : Except Thrown (ℕ × ℕ) :=
  if additionalInfo < 24 then .ok (additionalInfo, offset)
  else if additionalInfo = 24 then (readUInt 1 buffer offset).map fun length ↦ (length, offset + 1)
  else if additionalInfo = 25 then (readUInt 2 buffer offset).map fun length ↦ (length, offset + 2)
  else if additionalInfo = 26 then (readUInt 4 buffer offset).map fun length ↦ (length, offset + 4)
  else if additionalInfo = 27 then do
    let big ← readUInt 8 buffer offset
    require (¬maxSafeInteger < big) (.error "CBOR length exceeds the safe integer range.")
    return (big, offset + 8)
  else .error (.error "Indefinite-length CBOR is not accepted.")

structure Decoded (α : Type) where
  value : α
  offset : ℕ

section

variable (decodeAt : ℕ → Except Thrown (Decoded Value))

def decodeItems : List Value → ℕ → ℕ → Except Thrown (Decoded (List Value))
  | items, 0, pos => .ok ⟨items, pos⟩
  | items, count + 1, pos => do
    let decoded ← decodeAt pos
    decodeItems (items ++ [decoded.value]) count decoded.offset

def decodeEntries : List (Value × Value) → ℕ → ℕ → Except Thrown (Decoded (List (Value × Value)))
  | map, 0, pos => .ok ⟨map, pos⟩
  | map, count + 1, pos => do
    let key ← decodeAt pos
    let value ← decodeAt key.offset
    decodeEntries (mapSet key.value value.value map) count value.offset

end

def decodeCborAt (depth : ℕ) (buffer : Bytes) (offset : ℕ) : Except Thrown (Decoded Value) :=
  if buffer.length ≤ offset then .error (.error "Unexpected end of CBOR data.")
  else match depth with
  | 0 => .error .exhausted
  | depth + 1 => do
    let initial := (buffer.getD offset 0).toNat
    let additionalInfo := initial &&& 0x1f
    let cursor := offset + 1
    match initial >>> 5 with
    | 0 =>
      let (length, next) ← readLength buffer cursor additionalInfo
      return ⟨.number length, next⟩
    | 1 =>
      let (length, next) ← readLength buffer cursor additionalInfo
      return ⟨.number (-1 - length), next⟩
    | 2 =>
      let (length, next) ← readLength buffer cursor additionalInfo
      return ⟨.buffer (subarray buffer next (next + length)), next + length⟩
    | 3 =>
      let (length, next) ← readLength buffer cursor additionalInfo
      return ⟨.string (Utf8.decode (subarray buffer next (next + length))), next + length⟩
    | 4 =>
      let (count, next) ← readLength buffer cursor additionalInfo
      let items ← decodeItems (decodeCborAt depth buffer) [] count next
      return ⟨.array items.value, items.offset⟩
    | 5 =>
      let (count, next) ← readLength buffer cursor additionalInfo
      let map ← decodeEntries (decodeCborAt depth buffer) [] count next
      return ⟨.map map.value, map.offset⟩
    | 6 =>
      let (_, next) ← readLength buffer cursor additionalInfo
      decodeCborAt depth buffer next
    | 7 =>
      if additionalInfo = 20 then return ⟨.boolean false, cursor⟩
      else if additionalInfo = 21 then return ⟨.boolean true, cursor⟩
      else if additionalInfo = 22 then return ⟨.null, cursor⟩
      else .error (.error "Unsupported CBOR simple value (floats are not used by these structures).")
    | _ => .error (.error "Unsupported CBOR major type.")

example (buffer : Bytes) : decodeCborAt 0 buffer buffer.length = .error (.error "Unexpected end of CBOR data.") := by
  rw [decodeCborAt.eq_def, if_pos le_rfl]

def decodeCbor (buffer : Bytes) : Except Thrown Value := (decodeCborAt buffer.length buffer 0).map Decoded.value

/-! ### Ceremonies -/

def maxFieldBytes : ℕ := 8192

/-- `Buffer.from(value, 'base64url')`, where it is not too large. -/
def decodeField (name value : String) : Except Thrown Bytes := do
  let buffer := Base64Padded.decode value.toList
  require (buffer.length ≤ maxFieldBytes) (.error (name ++ " exceeds the maximum accepted size."))
  return buffer

def bufferToBase64url (buffer : Bytes) : String := String.ofList (Base64.encode buffer)

theorem decodeField_buffer (name : String) (buffer : Bytes) : decodeField name (bufferToBase64url buffer) =
    (do
      require (buffer.length ≤ maxFieldBytes) (.error (name ++ " exceeds the maximum accepted size."))
      return buffer) := by
  rw [decodeField, bufferToBase64url, String.toList_ofList, Base64Padded.decode_urlEncode]

structure Flags where
  up : Bool
  uv : Bool
  att : Bool
  ed : Bool
  deriving DecidableEq

structure AuthenticatorData where
  rpIdHash : Bytes
  flags : Flags
  signCount : ℕ
  credentialId : Option Bytes
  credentialPublicKey : Option Value

def truncated : Thrown := .error "Attested credential data is truncated."

/-- The credential behind the identifier of the model of the authenticator, which is skipped. -/
def attestedCredential (buffer : Bytes) : Except Thrown (Bytes × Value) := do
  let cursor := 37 + 16
  require (cursor + 2 ≤ buffer.length) truncated
  let idLength ← readUInt 2 buffer cursor
  let cursor := cursor + 2
  require (cursor + idLength ≤ buffer.length) truncated
  let decoded ← decodeCborAt buffer.length buffer (cursor + idLength)
  return (subarray buffer cursor (cursor + idLength), decoded.value)

def parseAuthenticatorData (buffer : Bytes) : Except Thrown AuthenticatorData := do
  require (37 ≤ buffer.length) (.error "Authenticator data is too short.")
  let flagsByte := buffer.getD 32 0
  let flags : Flags := ⟨flagsByte &&& 0x01 ≠ 0, flagsByte &&& 0x04 ≠ 0, flagsByte &&& 0x40 ≠ 0, flagsByte &&& 0x80 ≠ 0⟩
  let signCount ← readUInt 4 buffer 33
  if flags.att then
    let (credentialId, credentialPublicKey) ← attestedCredential buffer
    return ⟨subarray buffer 0 32, flags, signCount, some credentialId, some credentialPublicKey⟩
  else return ⟨subarray buffer 0 32, flags, signCount, none, none⟩

/-- `map.get(key)` -/
def mapGet (key : Value) (map : List (Value × Value)) : Option Value :=
  (map.find? fun entry ↦ sameKey entry.1 key).map Prod.snd

def isNumber (n : ℤ) : Option Value → Bool
  | some (.number m) => m = n
  | _ => false

def isText (text : String) : Option Value → Bool
  | some (.string points) => points = text.toList
  | _ => false

def bufferOf : Option Value → Option Bytes
  | some (.buffer content) => some content
  | _ => none

def entriesOf : Value → Option (List (Value × Value))
  | .map entries => some entries
  | _ => none

/-- The coordinates of a public key. The other members of a `JWK` are those of the one curve that is taken. -/
structure Jwk where
  x : String
  y : String
  deriving DecidableEq

def coseAlgEs256 : ℤ := -7

def coseKeyToJwk (coseKey : Value) : Except Thrown Jwk := do
  let entries ← demand (entriesOf coseKey) (.error "Credential public key is not a COSE map.")
  require (isNumber 2 (mapGet (.number 1) entries) ∧ isNumber coseAlgEs256 (mapGet (.number 3) entries) ∧
    isNumber 1 (mapGet (.number (-1)) entries)) (.error "Only an ES256 (P-256) EC2 credential key is supported.")
  let malformed : Thrown := .error "Malformed EC2 public key coordinates."
  let x ← demand (bufferOf (mapGet (.number (-2)) entries)) malformed
  let y ← demand (bufferOf (mapGet (.number (-3)) entries)) malformed
  require (x.length = 32 ∧ y.length = 32) malformed
  return ⟨bufferToBase64url x, bufferToBase64url y⟩

/-- What the runtime gives: the numbers of JSON, the hash, and the check of a signature by a key, which throws where the
key cannot be imported. -/
structure Runtime (κ : Type) where
  numbers : Canonical.Numbers
  sha256 : Bytes → Bytes
  createPublicKey : String → Except Thrown κ
  verify : κ → (signedData signature : Bytes) → Bool

structure Expected where
  challenge : String
  origin : String
  rpId : String

/-- What the browser sends of a credential that was made. -/
structure Attestation where
  clientDataJSON : String
  attestationObject : String

/-- What the browser sends of a credential that was used. -/
structure Assertion where
  clientDataJSON : String
  authenticatorData : String
  signature : String

namespace Runtime

variable {κ : Type} (rt : Runtime κ)

def isProperty (clientData : Canonical.JsValue) (name value : String) : Prop :=
  Authority.stringOf (Authority.property name clientData) = some (Authority.text value)

instance (clientData : Canonical.JsValue) (name value : String) : Decidable (isProperty clientData name value) :=
  inferInstanceAs (Decidable (_ = _))

def isNull : Canonical.JsValue → Bool
  | .null => true
  | _ => false

def clientData (type clientDataJSON : String) (expected : Expected) : Except Thrown Bytes := do
  let clientDataBuffer ← decodeField "clientDataJSON" clientDataJSON
  let clientData ← demand (Json.parse (Canonical.reader rt.numbers) (Utf8.decode clientDataBuffer)) .syntaxError
  require (isNull clientData = false) (.error "Cannot read properties of null (reading 'type')")
  require (isProperty clientData "type" type) (.error "Unexpected ceremony type.")
  require (isProperty clientData "challenge" expected.challenge) (.error "Challenge mismatch.")
  require (isProperty clientData "origin" expected.origin) (.error "Origin mismatch.")
  return clientDataBuffer

def checkAuthData (authData : AuthenticatorData) (rpId : String) : Except Thrown Unit := do
  require (rt.sha256 (utf8 rpId) = authData.rpIdHash) (.error "Relying party ID mismatch.")
  require (authData.flags.up = true) (.error "User presence was not confirmed.")
  require (authData.flags.uv = true) (.error "User verification was not confirmed.")

/-- `Boolean(value)` -/
def isTruthy : Value → Bool
  | .number n => n ≠ 0
  | .string points => points ≠ []
  | .boolean b => b
  | .null => false
  | .buffer _ | .array _ | .map _ => true

def verifyRegistration (a : Attestation) (expected : Expected) : Except Thrown (String × Jwk × ℕ) := do
  let _ ← rt.clientData "webauthn.create" a.clientDataJSON expected
  let malformed : Thrown := .error "Malformed attestation object."
  let attestation ← decodeCbor (← decodeField "attestationObject" a.attestationObject)
  let attestation ← demand (entriesOf attestation) malformed
  require (isText "none" (mapGet (.string "fmt".toList) attestation)) (.error "Only \"none\" attestation is accepted.")
  let authDataBuffer ← demand (bufferOf (mapGet (.string "authData".toList) attestation)) malformed
  let authData ← parseAuthenticatorData authDataBuffer
  rt.checkAuthData authData expected.rpId
  let none : Thrown := .error "No credential was attested."
  let credentialId ← demand authData.credentialId none
  let credentialPublicKey ← demand (authData.credentialPublicKey.filter isTruthy) none
  let publicKeyJwk ← coseKeyToJwk credentialPublicKey
  return (bufferToBase64url credentialId, publicKeyJwk, authData.signCount)

def verifyAssertion (a : Assertion) (expected : Expected) (publicKeyJwk : String) (lastSignCount : ℕ) :
    Except Thrown ℕ := do
  let clientDataBuffer ← rt.clientData "webauthn.get" a.clientDataJSON expected
  let authDataBuffer ← decodeField "authenticatorData" a.authenticatorData
  let authData ← parseAuthenticatorData authDataBuffer
  rt.checkAuthData authData expected.rpId
  require (¬(authData.signCount ≠ 0 ∧ authData.signCount ≤ lastSignCount))
    (.error "Signature counter did not increase; possible cloned authenticator.")
  let signedData := authDataBuffer ++ rt.sha256 clientDataBuffer
  let publicKey ← rt.createPublicKey publicKeyJwk
  let signature ← decodeField "signature" a.signature
  require (rt.verify publicKey signedData signature = true) (.error "Signature verification failed.")
  return authData.signCount

end Runtime

def Assertion.signCount (a : Assertion) : Except Thrown ℕ := do
  let authDataBuffer ← decodeField "authenticatorData" a.authenticatorData
  let authData ← parseAuthenticatorData authDataBuffer
  return authData.signCount

namespace Runtime

variable {κ : Type} {rt : Runtime κ} {a : Assertion} {expected : Expected} {publicKeyJwk : String} {last count : ℕ}

theorem verifyAssertion_signCount (h : rt.verifyAssertion a expected publicKeyJwk last = .ok count) :
    a.signCount = .ok count := by
  simp only [verifyAssertion, bind_ok, exists_unit, require_ok] at h
  obtain ⟨_, _, _, hfield, authData, hparse, _, _, _, _, _, _, _, hdone⟩ := h
  cases hdone
  rw [Assertion.signCount]
  exact bind_ok.mpr ⟨_, hfield, bind_ok.mpr ⟨authData, hparse, rfl⟩⟩

theorem verifyAssertion_ok_iff : rt.verifyAssertion a expected publicKeyJwk last = .ok count ↔
    rt.verifyAssertion a expected publicKeyJwk 0 = .ok count ∧ (count ≠ 0 → last < count) := by
  simp only [verifyAssertion, bind_ok, exists_unit, require_ok]
  constructor
  · rintro ⟨buffer, hclient, authBuffer, hfield, authData, hparse, hchecked, hcount, key, hkey, signature, hsignature,
      hverified, hdone⟩
    have heq : authData.signCount = count := Except.ok.inj hdone
    refine ⟨⟨buffer, hclient, authBuffer, hfield, authData, hparse, hchecked, ?_, key, hkey, signature, hsignature,
      hverified, hdone⟩, ?_⟩
    · omega
    · omega
  · rintro ⟨⟨buffer, hclient, authBuffer, hfield, authData, hparse, hchecked, -, key, hkey, signature, hsignature,
      hverified, hdone⟩, hcount⟩
    have heq : authData.signCount = count := Except.ok.inj hdone
    refine ⟨buffer, hclient, authBuffer, hfield, authData, hparse, hchecked, ?_, key, hkey, signature, hsignature,
      hverified, hdone⟩
    omega

end Runtime

end Noesar.Webauthn
