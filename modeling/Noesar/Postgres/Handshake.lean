import Noesar.Lib.Fallible
import Noesar.Lib.Run
import Noesar.Lib.Utf8
import Noesar.Updates.Version

namespace Noesar.Postgres

open Lib Lib.Framing Lib.Run Lib.PosixPath Updates

/-- The cryptography, the codecs and the number format of the platform. -/
structure Platform where
  pbkdf2 : Bytes → Bytes → ℕ → Bytes
  hmac : Bytes → Bytes → Bytes
  sha256 : Bytes → Bytes
  fromBase64 : String → Bytes
  toBase64 : Bytes → String
  shown : Option ℚ → String

/-- A message of the backend: its tag, and its payload without the length. -/
structure Message where
  tag : UInt8
  payload : Bytes
  deriving DecidableEq

namespace Backend

def authentication : UInt8 := 0x52

def backendKeyData : UInt8 := 0x4b

def errorResponse : UInt8 := 0x45

def noticeResponse : UInt8 := 0x4e

def notification : UInt8 := 0x41

def parameterStatus : UInt8 := 0x53

def readyForQuery : UInt8 := 0x5a

end Backend

namespace Auth

def ok : ℤ := 0

def cleartextPassword : ℤ := 3

def md5Password : ℤ := 5

def sasl : ℤ := 10

def saslContinue : ℤ := 11

def saslFinal : ℤ := 12

end Auth

def text (bs : Bytes) : String := String.ofList (Utf8.decode bs)

/-- `buffer.readInt32BE(offset)` -/
def readInt32BE (bs : Bytes) (offset : ℕ) : Except String ℤ :=
  match bs.drop offset with
  | a :: b :: c :: d :: _ =>
    let n : ℤ := a.toNat * 2 ^ 24 + b.toNat * 2 ^ 16 + c.toNat * 2 ^ 8 + d.toNat
    .ok (if 2 ^ 31 ≤ n then n - 2 ^ 32 else n)
  | _ =>
    let last := bs.length - 4
    .error (if bs.length < 4 then "Attempt to access memory outside buffer bounds"
      else s!"The value of \"offset\" is out of range. It must be >= 0 and <= {last}. Received {offset}")

def int32 (n : ℕ) : Bytes := [UInt8.ofNat (n / 2 ^ 24), UInt8.ofNat (n / 2 ^ 16), UInt8.ofNat (n / 2 ^ 8), UInt8.ofNat n]

def cstring (s : String) : Bytes := utf8 s ++ [0]

/-- `MessageWriter.finish`. The first message has no tag. -/
def finish (tag : Option UInt8) (body : Bytes) : Bytes := tag.toList ++ int32 (body.length + 4) ++ body

def readCString (bs : Bytes) : Except String (String × Bytes) :=
  match bs.dropWhile (· ≠ 0) with
  | [] => .error "malformed backend message: unterminated string"
  | _ :: rest => .ok (text (bs.takeWhile (· ≠ 0)), rest)

def parseErrorFields : ℕ → Bytes → Except String (List (UInt8 × String))
  | 0, _ => .ok []
  | _ + 1, [] => .ok []
  | n + 1, code :: bs =>
    if code = 0 then .ok []
    else do
      let (value, rest) ← readCString bs
      let fields ← parseErrorFields n rest
      return (code, value) :: fields

def errorMessage (payload : Bytes) : Except String String := do
  let fields ← parseErrorFields payload.length payload
  return ((fields.reverse.lookup 0x4d).getD "PostgreSQL error")

def readMechanisms : ℕ → Bytes → Except String (List String)
  | 0, _ => .error "malformed backend message: unterminated string"
  | n + 1, bs => do
    let (value, rest) ← readCString bs
    if value = "" then return []
    let others ← readMechanisms n rest
    return value :: others

def parseScramMessage (message : String) : List (String × String) :=
  ((splitOn (· = ',') message).filterMap fun part ↦
    match part.toList.dropWhile (· ≠ '=') with
    | [] => none
    | _ :: value =>
      let key := part.toList.takeWhile (· ≠ '=')
      if key = [] then none else some (String.ofList key, String.ofList value)).reverse

def xorBuffers (a b : Bytes) : Except String Bytes :=
  if a.length = b.length then .ok (a.zipWith (· ^^^ ·) b) else .error "SCRAM: buffer length mismatch"

structure ScramProof where
  combinedNonce : String
  clientFinal : String
  serverSignature : Bytes
  deriving DecidableEq

def gs2Header : String := "n,,"

def clientFirstBare (nonce : String) : String := s!"n=,r={nonce}"

section

variable (pf : Platform)

def scramProof (password serverFirst clientFirstBare : String) : Except String ScramProof := do
  let attrs := parseScramMessage serverFirst
  let combinedNonce := (attrs.lookup "r").getD ""
  let salt := pf.fromBase64 ((attrs.lookup "s").getD "")
  let iterations := parseInt ((attrs.lookup "i").getD "0")
  let shown := pf.shown iterations
  require (combinedNonce ≠ "") "SCRAM: server did not send a nonce"
  require (salt.length ≠ 0) "SCRAM: server did not send a salt"
  require (isInteger iterations = true ∧ 4096 ≤ iterations.getD 0)
    s!"SCRAM: refusing an iteration count below 4096 (got {shown})"
  require (iterations.getD 0 ≤ 2147483647)
    s!"The value of \"iterations\" is out of range. It must be >= 1 && <= 2147483647. Received {shown}"
  let saltedPassword := pf.pbkdf2 (utf8 password) salt (iterations.getD 0).floor.toNat
  let clientKey := pf.hmac saltedPassword (utf8 "Client Key")
  let storedKey := pf.sha256 clientKey
  let header := pf.toBase64 (utf8 gs2Header)
  let clientFinalWithoutProof := s!"c={header},r={combinedNonce}"
  let authMessage := s!"{clientFirstBare},{serverFirst},{clientFinalWithoutProof}"
  let clientProof ← xorBuffers clientKey (pf.hmac storedKey (utf8 authMessage))
  let serverKey := pf.hmac saltedPassword (utf8 "Server Key")
  let proof := pf.toBase64 clientProof
  return ⟨combinedNonce, s!"{clientFinalWithoutProof},p={proof}", pf.hmac serverKey (utf8 authMessage)⟩

inductive Status
  | waiting
  | ready
  | failed (error : String)
  deriving DecidableEq

/-- The promise of `#handshake`, and what was written. -/
structure Handshake where
  status : Status
  expectedServerSignature : Option Bytes
  sent : List Bytes
  deriving DecidableEq

structure Options where
  user : String
  database : String
  password : Option String
  applicationName : String
  statementTimeoutMs : ℤ

def startup (options : Options) : Bytes :=
  finish none (int32 196608 ++ cstring "user" ++ cstring options.user ++ cstring "database" ++ cstring options.database ++
    cstring "application_name" ++ cstring options.applicationName ++ cstring "client_encoding" ++ cstring "UTF8" ++ [0])

def begin (options : Options) : Handshake := ⟨.waiting, none, [startup options]⟩

/-- `'p'`, the tag of what the client answers. -/
def answer (body : Bytes) : Bytes := finish (some 0x70) body

def joined (mechanisms : List String) : String :=
  if mechanisms = [] then "none" else ", ".intercalate mechanisms

def onSasl (nonce : String) (password : Option String) (payload : Bytes) : Except String Bytes := do
  let mechanisms ← readMechanisms payload.length (payload.drop 4)
  require ("SCRAM-SHA-256" ∈ mechanisms) s!"server offered no SCRAM-SHA-256 mechanism (offered: {joined mechanisms})"
  require (password.isSome = true) "the server requires a password and none was supplied"
  let initial := utf8 (gs2Header ++ clientFirstBare nonce)
  return answer (cstring "SCRAM-SHA-256" ++ int32 initial.length ++ initial)

def onSaslContinue (nonce : String) (password : Option String) (payload : Bytes) : Except String ScramProof := do
  let password ← demand password
    "The first argument must be of type string or an instance of Buffer, ArrayBuffer, or Array or an Array-like Object. Received null"
  let proof ← scramProof pf password (text (payload.drop 4)) (clientFirstBare nonce)
  require (nonce.toList.isPrefixOf proof.combinedNonce.toList = true) "SCRAM: the server nonce does not extend the client nonce"
  return proof

def receivedSignature (payload : Bytes) : Bytes :=
  pf.fromBase64 (((parseScramMessage (text (payload.drop 4))).lookup "v").getD "")

def onMessage (nonce : String) (password : Option String) (h : Handshake) (m : Message) : Except String Handshake := do
  if m.tag = Backend.errorResponse then
    let message ← errorMessage m.payload
    .error message
  else if m.tag = Backend.readyForQuery then .ok { h with status := .ready }
  else if m.tag ≠ Backend.authentication then .ok h
  else
    let code ← readInt32BE m.payload 0
    if code = Auth.ok then .ok h
    else if code = Auth.cleartextPassword ∨ code = Auth.md5Password then
      .error "refusing a weaker authentication method than SCRAM-SHA-256"
    else if code = Auth.sasl then
      let message ← onSasl nonce password m.payload
      .ok { h with sent := h.sent ++ [message] }
    else if code = Auth.saslContinue then
      let proof ← onSaslContinue pf nonce password m.payload
      .ok { h with
        expectedServerSignature := some proof.serverSignature
        sent := h.sent ++ [answer (utf8 proof.clientFinal)] }
    else if code = Auth.saslFinal then
      if h.expectedServerSignature = some (receivedSignature pf m.payload) then .ok h
      else .error "SCRAM: server signature verification failed"
    else .error s!"unsupported authentication request: {code}"

def dispatch (nonce : String) (password : Option String) (h : Handshake) (m : Message) : Except String Handshake :=
  if m.tag = Backend.parameterStatus then do
    let (_, rest) ← readCString m.payload
    let _ ← readCString rest
    .ok h
  else if m.tag = Backend.backendKeyData then do
    let _ ← readInt32BE m.payload 0
    let _ ← readInt32BE m.payload 4
    .ok h
  else if m.tag = Backend.noticeResponse ∨ m.tag = Backend.notification then .ok h
  else onMessage pf nonce password h m

def step (nonce : String) (password : Option String) (h : Handshake) (m : Message) : Handshake :=
  match h.status with
  | .waiting =>
    match dispatch pf nonce password h m with
    | .ok h => h
    | .error e => { h with status := .failed e }
  | .ready | .failed _ => h

/-- `connect`, where `set` is how the statement ends that sets the time limit. -/
def connect (options : Options) (nonce : String) (messages : List Message) (set : Except String Unit) : Option (Except String Unit) :=
  match (after (step pf nonce options.password) (begin options) messages).status with
  | .waiting => none
  | .failed e => some (.error e)
  | .ready => some (if 0 < options.statementTimeoutMs then set else .ok ())

end

end Noesar.Postgres
