import Noesar.Lib.Lists
import Noesar.Lib.InsertionMap
import Noesar.Lib.Fallible
import Noesar.Updates.Version

namespace Noesar.Accounts

open Lib

/-- What the language and the runtime give: the case tables, `text.slice(0, n)`, the digest of a token, the password
hash, the code of a secret at a counter, the checks of a passkey, and the values a generator of random numbers makes,
by how many were made before. -/
structure Platform where
  toLowerCase : String → String
  toUpperCase : String → String
  head : ℕ → String → String
  tokenDigest : String → String
  scrypt : String → String → String
  totpCode : String → ℕ → String
  verifyAssertion : (challenge origin rpId publicKey response : String) → ℕ → Option ℕ
  verifyRegistration : (challenge origin rpId response : String) → Option (String × String × ℕ)
  randomUUID : ℕ → String
  randomToken : ℕ → String
  createTotpSecret : ℕ → String
  salt : ℕ → String
  recoveryCode : ℕ → String
  attachCode : ℕ → String

/-- The generator gives no value twice, and no two of its values have the same digest. -/
structure Platform.Fresh (p : Platform) : Prop where
  uuid : Function.Injective p.randomUUID
  token : Function.Injective fun n ↦ p.tokenDigest (p.randomToken n)
  secret : Function.Injective p.createTotpSecret
  recoveryCode : Function.Injective fun n ↦ p.tokenDigest (p.recoveryCode n)

def tally (c : Char) (n : ℕ) : String := String.ofList (List.replicate n c)

theorem tally_injective (c : Char) : Function.Injective (tally c) := by
  intro n m h
  have hlength := congrArg String.length h
  simpa [tally] using hlength

def Platform.tallying : Platform where
  toLowerCase := id
  toUpperCase := id
  head n text := String.ofList (text.toList.take n)
  tokenDigest := id
  scrypt password salt := password ++ salt
  totpCode _ _ := "123456"
  verifyAssertion _ _ _ _ _ _ := none
  verifyRegistration _ _ _ _ := none
  randomUUID := tally 'u'
  randomToken := tally 't'
  createTotpSecret := tally 's'
  salt := tally 'a'
  recoveryCode := tally 'r'
  attachCode := tally 'c'

theorem Platform.tallying_fresh : Platform.tallying.Fresh :=
  ⟨tally_injective 'u', tally_injective 't', tally_injective 's', tally_injective 'r'⟩

inductive Role
  | owner
  | admin
  | developer
  | user
  | clientRestricted
  | serviceAccount
  deriving DecidableEq

namespace Role

def name : Role → String
  | owner => "owner"
  | admin => "admin"
  | developer => "developer"
  | user => "user"
  | clientRestricted => "client_restricted"
  | serviceAccount => "service_account"

/-- `ROLES` -/
def all : List Role := [owner, admin, developer, user, clientRestricted, serviceAccount]

def named (text : String) : Option Role := all.find? (·.name = text)

/-- `MFA_REQUIRED_ROLES` -/
def mfaRequired (role : Role) : Bool := role ∈ [owner, admin]

/-- `NON_INTERACTIVE_ROLES` -/
def nonInteractive (role : Role) : Bool := role ∈ [serviceAccount]

end Role

inductive Status
  | active
  | disabled
  | revoked
  deriving DecidableEq

structure PasswordDescriptor where
  salt : String
  hash : String
  deriving DecidableEq

structure RecoveryCode where
  digest : String
  usedAt : Option ℕ
  deriving DecidableEq

structure Passkey where
  id : String
  publicKeyJwk : String
  signCount : ℕ
  name : String
  deriving DecidableEq

structure PendingPasskey where
  challengeDigest : String
  expiresAt : ℕ
  deriving DecidableEq

structure PendingTotp where
  challengeDigest : String
  secret : String
  expiresAt : ℕ
  deriving DecidableEq

/-- An account. A secret is in its record in clear, where the code has it encrypted with the master key. -/
structure User where
  id : String
  username : String
  displayName : String
  role : Role
  status : Option Status
  password : Option PasswordDescriptor
  totp : Option String
  mustChangePassword : Bool
  createdBy : Option String
  failedLoginCount : ℕ
  lockedUntil : ℕ
  lastTotpStep : Option ℕ
  recoveryCodes : List RecoveryCode
  passkeys : List Passkey
  pendingPasskey : Option PendingPasskey
  pendingTotp : Option PendingTotp
  disabledReason : Option String
  erasedAt : Option ℕ
  deriving DecidableEq

def User.made (id username displayName : String) (role : Role) (status : Option Status)
    (password : Option PasswordDescriptor) (totp : Option String) : User where
  id
  username
  displayName
  role
  status
  password
  totp
  mustChangePassword := false
  createdBy := none
  failedLoginCount := 0
  lockedUntil := 0
  lastTotpStep := none
  recoveryCodes := []
  passkeys := []
  pendingPasskey := none
  pendingTotp := none
  disabledReason := none
  erasedAt := none

/-- `isActive`: a record without a status is older than statuses are. -/
def isActive (user : User) : Bool := user.status.getD .active = .active

structure Session where
  id : String
  tokenDigest : String
  csrfDigest : String
  userId : String
  expiresAt : ℕ
  idleExpiresAt : ℕ
  mfa : Bool
  elevatedUntil : ℕ
  deriving DecidableEq

structure LoginChallenge where
  id : String
  challengeDigest : String
  userId : String
  expiresAt : ℕ
  ip : String
  deriving DecidableEq

structure AttachCode where
  id : String
  codeDigest : String
  userId : String
  sessionId : String
  expiresAt : ℕ
  deriving DecidableEq

structure Terminal where
  id : String
  tokenDigest : String
  userId : String
  label : String
  expiresAt : ℕ
  revokedAt : Option ℕ
  deriving DecidableEq

structure PendingOwner where
  challengeDigest : String
  expiresAt : ℕ
  user : User
  deriving DecidableEq

structure PendingRecovery where
  challengeDigest : String
  userId : String
  totp : String
  expiresAt : ℕ
  deriving DecidableEq

structure Invitation where
  id : String
  username : String
  displayName : String
  role : Role
  tokenDigest : String
  invitedBy : String
  expiresAt : ℕ
  acceptedAt : Option ℕ
  revokedAt : Option ℕ
  claimedAt : Option ℕ
  acceptedUserId : Option String
  deriving DecidableEq

structure PendingInvitee where
  challengeDigest : String
  invitationId : String
  expiresAt : ℕ
  user : User
  deriving DecidableEq

structure ServiceToken where
  id : String
  userId : String
  name : String
  tokenDigest : String
  createdBy : String
  expiresAt : Option ℕ
  revokedAt : Option ℕ
  deriving DecidableEq

structure AdministrativeEvent where
  id : String
  actorUserId : Option String
  subjectUserId : Option String
  action : String
  result : String
  details : List (String × Option String)
  deriving DecidableEq

structure AuthState where
  initialized : Bool
  pendingOwner : Option PendingOwner
  pendingRecovery : Option PendingRecovery
  users : List User
  sessions : List Session
  loginChallenges : List LoginChallenge
  attachCodes : List AttachCode
  terminals : List Terminal
  invitations : List Invitation
  pendingInvitees : List PendingInvitee
  serviceTokens : List ServiceToken
  administrativeEvents : List AdministrativeEvent
  deriving DecidableEq

def emptyState : AuthState where
  initialized := false
  pendingOwner := none
  pendingRecovery := none
  users := []
  sessions := []
  loginChallenges := []
  attachCodes := []
  terminals := []
  invitations := []
  pendingInvitees := []
  serviceTokens := []
  administrativeEvents := []

/-- What the statements about a run speak of. No function reads it. -/
inductive Event
  /-- A failure was recorded for a caller and a name. -/
  | failed (ip username : String) (time : ℕ)
  /-- A password or a second-factor code was looked at, for a caller and a name. -/
  | evaluated (ip username : String) (time : ℕ) (right : Bool)
  /-- A code of a secret was taken, for a step. -/
  | accepted (secret : String) (step : ℕ)
  /-- An invitation was created, by an account of a role. -/
  | invited (invitationId : String) (role : Role)
  /-- An account came to be, from an invitation or without one, with a second factor that was verified or without. -/
  | created (userId : String) (invitationId : Option String) (verified : Bool)
  deriving DecidableEq

/-- The file, the failed attempts in memory, how far the generator of random numbers is, and what happened. -/
structure World where
  state : AuthState
  loginAttempts : InsertionMap String (List ℕ)
  drawn : ℕ
  history : List Event

def World.initial : World := ⟨emptyState, .empty, 0, []⟩

/-- An error that is thrown. One that was not meant for the caller carries no status. -/
structure Refusal where
  message : String
  status : Option ℕ
  deriving DecidableEq

def fail (message : String) (status : ℕ) : Refusal := ⟨message, some status⟩

namespace World

variable (w : World)

def update (f : AuthState → AuthState) : World := { w with state := f w.state }

def note (events : List Event) : World := { w with history := w.history ++ events }

def draw (n : ℕ) : World := { w with drawn := w.drawn + n }

def user (id : String) : Option User := w.state.users.find? (·.id = id)

def updateUser (id : String) (f : User → User) : World :=
  w.update fun next ↦ { next with users := modifyFirst (·.id = id) f next.users }

def updateSession (id : String) (f : Session → Session) : World :=
  w.update fun next ↦ { next with sessions := modifyFirst (·.id = id) f next.sessions }

def attempt {α : Type} (x : Except Refusal (World × α)) : World × Except Refusal α :=
  match x with
  | .ok (w', a) => (w', .ok a)
  | .error refusal => (w, .error refusal)

end World

/-- `String(value ?? '').trim()` -/
def trim (text : String) : String := String.ofList (Updates.trim text.toList)

section

variable (p : Platform)

/-- `/^[a-z0-9][a-z0-9._-]{2,63}$/` -/
def usernamePattern (username : String) : Bool :=
  match username.toList with
  | [] => false
  | c :: cs =>
    (c.isLower || c.isDigit) && 2 ≤ cs.length && cs.length ≤ 63 &&
      cs.all fun c ↦ c.isLower || c.isDigit || c = '.' || c = '_' || c = '-'

def normalizeUsername (value : String) : Except Refusal String := do
  let username := p.toLowerCase (trim value)
  require (usernamePattern username = true) (fail "Username must contain 3-64 lowercase-safe characters." 400)
  return username

def orElse (text fallback : String) : String := if text = "" then fallback else text

def passwordReasons (password : String) : List String :=
  let length := (Updates.utf16 password).length
  (if length < 14 then ["Password or passphrase must be at least 14 characters."] else []) ++
  (if 256 < length then ["Password exceeds the supported maximum length."] else []) ++
  (if p.toLowerCase password ∈ ["passwordpassword", "12345678901234", "qwertyqwertyqwerty", "noesarnoesar"] then
    ["Password is too common."] else []) ++
  (if password ≠ "" ∧ password.toList.all Capability.isWhiteSpace then ["Password cannot contain only whitespace."] else [])

def passwordPolicy (password : String) : Except Refusal Unit :=
  let reasons := passwordReasons p password
  require (reasons = []) (fail (" ".intercalate reasons) 400)

def hashPassword (n : ℕ) (password : String) : PasswordDescriptor := ⟨p.salt n, p.scrypt password (p.salt n)⟩

def verifyPassword (password : String) (descriptor : Option PasswordDescriptor) : Bool :=
  match descriptor with
  | none => false
  | some descriptor => p.scrypt password descriptor.salt = descriptor.hash

/-- `/^\d{6}$/` -/
def sixDigits (candidate : String) : Bool := candidate.toList.length = 6 && candidate.toList.all Char.isDigit

/-- The step whose code was supplied, of the step of the clock and its two neighbours; before the first step there is no
counter to write. -/
def verifyTotpStep (secret supplied : String) (now : ℕ) : Except Refusal (Option ℕ) :=
  let candidate := trim supplied
  if sixDigits candidate then do
    require (30000 ≤ now) ⟨"The value of \"value\" is out of range.", none⟩
    return [(now - 30000) / 30000, now / 30000, (now + 30000) / 30000].find? fun step ↦ p.totpCode secret step = candidate
  else .ok none

inductive Consumed
  | invalid
  | replayed (step : ℕ)
  | accepted (step : ℕ)
  deriving DecidableEq

def consumeTotp (secret code : String) (now : ℕ) (lastTotpStep : Option ℕ) : Except Refusal Consumed :=
  (verifyTotpStep p secret code now).map fun result ↦
    match result with
    | none => .invalid
    | some step => if step ≤ lastTotpStep.getD 0 then .replayed step else .accepted step

def Consumed.isReplayed : Consumed → Bool
  | replayed _ => true
  | _ => false

/-- `decryptSecret(user.totp)` -/
def decryptSecret (totp : Option String) : Except Refusal String := demand totp ⟨"Unsupported secret envelope", none⟩

/-- `buildRecoveryCodes`, from the next ten values of the generator. -/
def recoveryTexts (n : ℕ) : List String := (List.range 10).map fun i ↦ p.recoveryCode (n + i)

def recoveryDigests (n : ℕ) : List RecoveryCode := (recoveryTexts p n).map fun code ↦ ⟨p.tokenDigest code, none⟩

end

structure PublicUser where
  id : String
  username : String
  displayName : String
  role : Role
  status : Status
  mfaEnabled : Bool
  mfaRequired : Bool
  mustChangePassword : Bool
  deriving DecidableEq

def publicUser (user : User) : PublicUser where
  id := user.id
  username := user.username
  displayName := user.displayName
  role := user.role
  status := user.status.getD .active
  mfaEnabled := user.totp.isSome
  mfaRequired := user.role.mfaRequired
  mustChangePassword := user.mustChangePassword

end Noesar.Accounts
