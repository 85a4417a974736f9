import Noesar.Accounts.State

namespace Noesar.Accounts

open Lib

structure Issued where
  token : String
  csrf : String
  session : Session
  user : PublicUser
  deriving DecidableEq

inductive Begun
  | session (issued : Issued)
  | mfaRequired (challenge : String) (expiresAt : ℕ)
  deriving DecidableEq

namespace World

variable (p : Platform) (w : World) (now : ℕ)

/-! ### Sessions -/

def sessionAbsoluteTtl : ℕ := 30 * 24 * 60 * 60000

def sessionIdleTtl : ℕ := 7 * 24 * 60 * 60000

def nextSession (user : User) (mfa : Bool) : Session where
  id := p.randomUUID (w.drawn + 2)
  tokenDigest := p.tokenDigest (p.randomToken w.drawn)
  csrfDigest := p.tokenDigest (p.randomToken (w.drawn + 1))
  userId := user.id
  expiresAt := now + sessionAbsoluteTtl
  idleExpiresAt := now + sessionIdleTtl
  mfa
  elevatedUntil := 0

def createSession (user : User) (mfa : Bool) : World × Issued :=
  let record := w.nextSession p now user mfa
  ((w.update fun next ↦ { next with
      sessions := (next.sessions.filter fun s ↦ now < s.expiresAt && now < s.idleExpiresAt) ++ [record] }).draw 3,
    ⟨p.randomToken w.drawn, p.randomToken (w.drawn + 1), record, publicUser user⟩)

def sessionLive (session : Session) : Bool := now ≤ session.expiresAt && now ≤ session.idleExpiresAt

/-- `authenticate`, of a token or of none. -/
def authenticate (token : Option String) : World × Option (Session × User) :=
  match token with
  | none => (w, none)
  | some token =>
    match w.state.sessions.find? (·.tokenDigest = p.tokenDigest token) with
    | none => (w, none)
    | some session =>
      if !sessionLive now session then (w, none)
      else match w.user session.userId with
      | none => (w, none)
      | some user =>
        if !isActive user then (w, none)
        else
          (w.updateSession session.id fun current ↦
            { current with idleExpiresAt := min current.expiresAt (now + sessionIdleTtl) }, some (session, user))

def revokeSession (userId sessionId targetSessionId : String) : Except Refusal (World × ℕ) := do
  require (targetSessionId ≠ sessionId) (fail "Use sign out to end the session you are using." 400)
  let kept := w.state.sessions.filter fun item ↦ !(item.id = targetSessionId && item.userId = userId)
  require (kept.length < w.state.sessions.length) (fail "That session no longer exists." 404)
  return (w.update fun next ↦ { next with sessions := kept }, w.state.sessions.length - kept.length)

def otherSessions (userId sessionId : String) (sessions : List Session) : List Session :=
  sessions.filter fun item ↦ item.userId ≠ userId || item.id = sessionId

def revokeOtherSessions (userId sessionId : String) : World :=
  w.update fun next ↦ { next with sessions := otherSessions userId sessionId next.sessions }

def logout (sessionId : String) : World :=
  w.update fun next ↦ { next with sessions := next.sessions.filter (·.id ≠ sessionId) }

/-! ### The first owner -/

def seedDefaultOwnerIfNeeded : World :=
  if w.state.initialized then w
  else
    let user := { User.made (p.randomUUID w.drawn) "root" "Owner" .owner none
      (some (hashPassword p (w.drawn + 1) "noesar")) none with mustChangePassword := true }
    ((w.update fun next ↦ { next with users := [user], initialized := true }).draw 2).note
      [.created user.id none false]

structure Enrolment where
  challenge : String
  username : String
  totpSecret : String
  expiresAt : ℕ
  deriving DecidableEq

def beginSetup (setupTokenDigest : Option String) (suppliedSetupToken username : String) (displayName : Option String)
    (password : String) : Except Refusal (World × Enrolment) := do
  require (w.state.initialized = false) (fail "NOESAR is already initialized." 409)
  let digest ← demand setupTokenDigest (fail "NOESAR_SETUP_TOKEN is required for first-run setup." 503)
  require (p.tokenDigest suppliedSetupToken = digest) (fail "Invalid setup token." 403)
  passwordPolicy p password
  let normalized ← normalizeUsername p username
  let secret := p.createTotpSecret w.drawn
  let challenge := p.randomToken (w.drawn + 1)
  let pending : PendingOwner := {
    challengeDigest := p.tokenDigest challenge
    expiresAt := now + 10 * 60000
    user := User.made (p.randomUUID (w.drawn + 2)) normalized (p.head 100 (trim (displayName.getD normalized))) .owner none
      (some (hashPassword p (w.drawn + 3) password)) (some secret) }
  return ((w.update fun next ↦ { next with pendingOwner := some pending }).draw 4,
    ⟨challenge, normalized, secret, pending.expiresAt⟩)

def confirmSetup (challenge totpCode : String) : Except Refusal (World × Issued × List String) := do
  let pending ← demand (w.state.pendingOwner.filter fun pending ↦ now ≤ pending.expiresAt)
    (fail "Setup challenge expired." 400)
  require (p.tokenDigest challenge = pending.challengeDigest) (fail "Invalid setup challenge." 403)
  let secret ← decryptSecret pending.user.totp
  match ← consumeTotp p secret totpCode now pending.user.lastTotpStep with
  | .invalid => throw (fail "Invalid TOTP code." 403)
  | .replayed _ => throw (fail "This authentication code has already been used." 403)
  | .accepted step =>
    let user := { pending.user with lastTotpStep := some step, recoveryCodes := recoveryDigests p w.drawn }
    let w' := ((w.update fun next ↦ { next with
      users := next.users.filter (·.role ≠ .owner) ++ [user]
      pendingOwner := none
      initialized := true }).draw 10).note [.accepted secret step, .created user.id none true]
    let (w'', issued) := w'.createSession p now user true
    return (w'', issued, recoveryTexts p w.drawn)

/-! ### The limiter -/

def attemptKey (ip username : String) : String := ip ++ "|" ++ username

def entries (ip username : String) : List ℕ := (w.loginAttempts.get (attemptKey ip username)).getD []

/-- `#rateState`: what is older than a quarter of an hour is forgotten. -/
def rateState (ip username : String) : World :=
  { w with
    loginAttempts := w.loginAttempts.set (attemptKey ip username)
      ((w.entries ip username).filter fun value ↦ now < value + 15 * 60000) }

def recordFailure (ip username : String) : World :=
  let w := w.rateState now ip username
  { w with loginAttempts := w.loginAttempts.set (attemptKey ip username) (w.entries ip username ++ [now]) }.note
    [.failed ip username now]

/-! ### Login -/

def badCredentials : Refusal := fail "Invalid credentials or account temporarily locked." 401

/-- A wrong password, and one for an account that is locked, count against the account. -/
def countFailedLogin (id : String) : World :=
  w.updateUser id fun target ↦ { target with
    failedLoginCount := target.failedLoginCount + 1
    lockedUntil := if 5 ≤ target.failedLoginCount + 1 then now + 5 * 60000 else target.lockedUntil }

def clearFailedLogins (id : String) : World :=
  w.updateUser id fun target ↦ { target with failedLoginCount := 0, lockedUntil := 0 }

def passwordVerified (user : User) (ip : String) : World × Begun :=
  match user.totp with
  | none =>
    let (w, issued) := (w.clearFailedLogins user.id).createSession p now user false
    (w, .session issued)
  | some _ =>
    let challenge := p.randomToken w.drawn
    let record : LoginChallenge := ⟨p.randomUUID (w.drawn + 1), p.tokenDigest challenge, user.id, now + 5 * 60000, ip⟩
    (((w.update fun next ↦ { next with
        loginChallenges := next.loginChallenges.filter (fun item ↦ now < item.expiresAt) ++ [record] }).clearFailedLogins
          user.id).draw 2, .mfaRequired challenge record.expiresAt)

def beginLogin (username password ip : String) : World × Except Refusal Begun :=
  match normalizeUsername p username with
  | .error _ => (w.recordFailure now ip (p.head 64 (p.toLowerCase (trim username))), .error badCredentials)
  | .ok normalized =>
    let w := w.rateState now ip normalized
    if 8 ≤ (w.entries ip normalized).length then (w, .error (fail "Too many login attempts. Try again later." 429))
    else if !w.state.initialized then (w, .error (fail "NOESAR setup is incomplete." 409))
    else match w.state.users.find? (·.username = normalized) with
    | none => (w.recordFailure now ip normalized, .error badCredentials)
    | some user =>
      if !isActive user || user.role.nonInteractive then (w.recordFailure now ip normalized, .error badCredentials)
      else if now < user.lockedUntil then
        ((w.recordFailure now ip normalized).countFailedLogin now user.id, .error badCredentials)
      else
        let right := verifyPassword p password user.password
        let w := w.note [.evaluated ip normalized now right]
        if !right then ((w.recordFailure now ip normalized).countFailedLogin now user.id, .error badCredentials)
        else
          let (w, begun) := w.passwordVerified p now user ip
          (w, .ok begun)

def badChallenge : Refusal := fail "Invalid or expired login challenge." 401

def loginChallenge (challenge ip : String) : Except Refusal LoginChallenge := do
  let item ← demand (w.state.loginChallenges.find? (·.challengeDigest = p.tokenDigest challenge)) badChallenge
  require (now ≤ item.expiresAt ∧ item.ip = ip) badChallenge
  return item

def challengedUser (item : LoginChallenge) : Except Refusal User :=
  demand (w.user item.userId) (fail "User no longer exists." 401)

def dropChallenge (id : String) : World :=
  w.update fun next ↦ { next with loginChallenges := next.loginChallenges.filter (·.id ≠ id) }

def awaitingCode (challenge ip : String) : Except Refusal (LoginChallenge × User × String) := do
  let item ← w.loginChallenge p now challenge ip
  let user ← w.challengedUser item
  let secret ← demand user.totp (fail "This account cannot complete authentication." 403)
  return (item, user, secret)

def completeLogin (challenge totpCode ip : String) : World × Except Refusal Issued :=
  match w.awaitingCode p now challenge ip with
  | .error refusal => (w, .error refusal)
  | .ok (item, user, secret) =>
    match consumeTotp p secret totpCode now user.lastTotpStep with
    | .error refusal => (w, .error refusal)
    | .ok .invalid =>
      ((w.note [.evaluated ip user.username now false]).recordFailure now ip user.username,
        .error (fail "Invalid TOTP code." 401))
    | .ok (.replayed _) =>
      ((w.note [.evaluated ip user.username now false]).recordFailure now ip user.username,
        .error (fail "This authentication code has already been used." 401))
    | .ok (.accepted step) =>
      let w := (((w.note [.evaluated ip user.username now true]).dropChallenge item.id).updateUser user.id fun target ↦
        { target with lastTotpStep := some step }).note [.accepted secret step]
      let (w, issued) := w.createSession p now user true
      (w, .ok issued)

def completeLoginWithPasskey (challenge credentialId response ip rpId origin : String) :
    World × Except Refusal Issued :=
  match (do let item ← w.loginChallenge p now challenge ip; let user ← w.challengedUser item; return (item, user)) with
  | .error refusal => (w, .error refusal)
  | .ok (item, user) =>
    match user.passkeys.find? (·.id = credentialId) with
    | none => (w.recordFailure now ip user.username, .error (fail "Unrecognized passkey." 401))
    | some passkey =>
      match p.verifyAssertion challenge origin rpId passkey.publicKeyJwk response passkey.signCount with
      | none => (w.recordFailure now ip user.username, .error (fail "Passkey verification failed." 401))
      | some signCount =>
        let w := (w.dropChallenge item.id).updateUser user.id fun target ↦ { target with
          passkeys := modifyFirst (·.id = credentialId) (fun entry ↦ { entry with signCount }) target.passkeys
          failedLoginCount := 0
          lockedUntil := 0 }
        let (w, issued) := w.createSession p now user true
        (w, .ok issued)

/-! ### Attach codes -/

def attachCodeTtl : ℕ := 60000

def vouching (userId sessionId : String) (gone weak : Refusal) : Except Refusal (Session × User) := do
  let session ← demand (w.state.sessions.find? (·.id = sessionId)) gone
  require (sessionLive now session = true ∧ session.userId = userId) gone
  require (session.mfa = true) weak
  let user ← demand (w.user userId) gone
  require (isActive user = true) gone
  return (session, user)

def mintAttachCode (userId sessionId : String) : Except Refusal (World × String) := do
  let _ ← w.vouching now userId sessionId (fail "No live session to attach from." 401)
    (fail "This session cannot mint a terminal attach code." 403)
  let code := p.attachCode w.drawn
  let record : AttachCode := ⟨p.randomUUID (w.drawn + 1), p.tokenDigest code, userId, sessionId, now + attachCodeTtl⟩
  return ((w.update fun next ↦ { next with
    attachCodes := (next.attachCodes.filter fun item ↦ now < item.expiresAt && item.sessionId ≠ sessionId) ++ [record]
    }).draw 2, code)

def normalizeAttachCode (value : String) : String :=
  String.ofList ((p.toUpperCase (trim value)).toList.filter fun c ↦ !Capability.isWhiteSpace c)

def badAttachCode : Refusal := fail "Invalid or expired attach code." 401

def attachLimit : String := "@attach-code"

def redeemAttachCode (code ip : String) : World × Except Refusal Issued :=
  let w := w.rateState now ip attachLimit
  if 20 ≤ (w.entries ip attachLimit).length then (w, .error (fail "Too many attach attempts. Try again later." 429))
  else
    let digest := p.tokenDigest (normalizeAttachCode p code)
    let unexpired := w.state.attachCodes.filter fun item ↦ now < item.expiresAt
    let w := w.update fun next ↦ { next with attachCodes := unexpired.eraseP (·.codeDigest = digest) }
    match unexpired.find? (·.codeDigest = digest) with
    | none => (w.recordFailure now ip attachLimit, .error badAttachCode)
    | some found =>
      match w.state.sessions.find? (·.id = found.sessionId) with
      | none => (w, .error badAttachCode)
      | some minting =>
        if !sessionLive now minting then (w, .error badAttachCode)
        else match w.user found.userId with
        | none => (w, .error badAttachCode)
        | some user =>
          if !isActive user then (w, .error badAttachCode)
          else
            let (w, issued) := w.createSession p now user true
            (w, .ok issued)

/-! ### Remembered terminals -/

def terminalIdle : ℕ := 90 * 24 * 60 * 60000

def rememberTerminal (userId sessionId : String) (label : Option String) : Except Refusal (World × String × String) := do
  let _ ← w.vouching now userId sessionId (fail "No live session to remember this terminal from." 401)
    (fail "This session cannot remember a terminal." 403)
  let token := p.randomToken w.drawn
  let record : Terminal := ⟨p.randomUUID (w.drawn + 1), p.tokenDigest token, userId,
    orElse (p.head 64 (trim (label.getD "terminal"))) "terminal", now + terminalIdle, none⟩
  return ((w.update fun next ↦ { next with
    terminals := (next.terminals.filter fun item ↦ item.revokedAt.isNone && now < item.expiresAt) ++ [record] }).draw 2,
    token, record.id)

def badTerminal : Refusal := fail "This terminal is not remembered here. Sign in once to remember it again." 401

def terminalLimit : String := "@terminal-token"

def resumeTerminal (token ip : String) : World × Except Refusal Issued :=
  let w := w.rateState now ip terminalLimit
  if 20 ≤ (w.entries ip terminalLimit).length then (w, .error (fail "Too many attempts. Try again later." 429))
  else
    let digest := p.tokenDigest token
    match w.state.terminals.find? (·.tokenDigest = digest) with
    | none => (w.recordFailure now ip terminalLimit, .error badTerminal)
    | some found =>
      if found.revokedAt.isSome || found.expiresAt ≤ now then (w.recordFailure now ip terminalLimit, .error badTerminal)
      else
        let w := w.update fun next ↦ { next with
          terminals := modifyFirst (·.tokenDigest = digest) (fun item ↦ { item with expiresAt := now + terminalIdle })
            next.terminals }
        match w.user found.userId with
        | none => (w.recordFailure now ip terminalLimit, .error badTerminal)
        | some user =>
          if !isActive user then (w.recordFailure now ip terminalLimit, .error badTerminal)
          else
            let (w, issued) := w.createSession p now user true
            (w, .ok issued)

def revokeRememberedTerminal (userId id : String) : Except Refusal (World × String) := do
  let mine (item : Terminal) : Bool := item.id = id && item.userId = userId && item.revokedAt.isNone
  let _ ← demand (w.state.terminals.find? mine) (fail "No such remembered terminal." 404)
  return (w.update fun next ↦ { next with
    terminals := modifyFirst mine (fun item ↦ { item with revokedAt := some now }) next.terminals }, id)

def forgetTerminalToken (token : String) : World :=
  w.update fun next ↦ { next with
    terminals := modifyFirst (fun item ↦ item.tokenDigest = p.tokenDigest token && item.revokedAt.isNone)
      (fun item ↦ { item with revokedAt := some now }) next.terminals }

end World

end Noesar.Accounts
