import Noesar.Accounts.Login

namespace Noesar.Accounts.World

open Lib

variable (p : Platform) (w : World) (now : ℕ)

/-! ### Presence -/

abbrev Taken := String × ℕ

def usedCode : Refusal := fail "This authentication code has already been used." 403

/-- The code is looked at before the password, and it is not used up where the password is wrong. -/
def assertPresence (user : User) (password totpCode : String) (replayed wrong : Refusal) : Except Refusal Taken := do
  let secret ← decryptSecret user.totp
  let consumed ← consumeTotp p secret totpCode now user.lastTotpStep
  match consumed with
  | .accepted step =>
    require (verifyPassword p password user.password = true) wrong
    return (secret, step)
  | .replayed _ => throw replayed
  | .invalid => throw wrong

/-- `#assertPresence` -/
def present (user : User) (password totpCode : String) : Except Refusal Taken :=
  assertPresence p now user password totpCode
    (fail "This authentication code has already been used. Wait for the next one." 403)
    (fail "Current password or authenticator code is incorrect." 403)

/-- The step is recorded with what else changes in the account, and the code is used up. -/
def take (userId : String) (taken : Taken) (f : User → User) : World :=
  (w.updateUser userId fun target ↦ { f target with lastTotpStep := some taken.2 }).note [.accepted taken.1 taken.2]

def requireUser (userId : String) : Except Refusal User := demand (w.user userId) (fail "Account not found." 404)

def reauthenticate (sessionId password totpCode : String) : Except Refusal (World × ℕ) := do
  let refused := fail "An owner or administrator session with MFA is required." 403
  let session ← demand (w.state.sessions.find? (·.id = sessionId)) refused
  let user ← demand (w.user session.userId) refused
  require (user.role.mfaRequired = true ∧ isActive user = true) refused
  let taken ← assertPresence p now user password totpCode usedCode (fail "Strong reauthentication failed." 403)
  let elevatedUntil := now + 5 * 60000
  return ((w.updateSession session.id fun current ↦ { current with elevatedUntil }).take user.id taken id, elevatedUntil)

/-! ### Passkeys -/

def beginPasskeyRegistration (userId password totpCode : String) : Except Refusal (World × String) := do
  let user ← w.requireUser userId
  let taken ← present p now user password totpCode
  let challenge := p.randomToken w.drawn
  return ((w.take userId taken fun target ↦ { target with
    pendingPasskey := some ⟨p.tokenDigest challenge, now + 5 * 60000⟩ }).draw 1, challenge)

def confirmPasskeyRegistration (userId challenge credentialId response : String) (name : Option String)
    (rpId origin : String) : Except Refusal (World × Passkey) := do
  let user ← w.requireUser userId
  let pending ← demand (user.pendingPasskey.filter fun pending ↦ now ≤ pending.expiresAt)
    (fail "Passkey registration expired. Start again." 410)
  require (p.tokenDigest challenge = pending.challengeDigest) (fail "Invalid passkey registration challenge." 403)
  let (id, publicKeyJwk, signCount) ← demand (p.verifyRegistration challenge origin rpId response)
    (fail "Passkey registration could not be verified." 403)
  require (id = credentialId) (fail "Credential ID does not match the attested data." 403)
  require (user.passkeys.any (·.id = id) = false) (fail "This passkey is already registered." 409)
  let record : Passkey := ⟨id, publicKeyJwk, signCount, orElse (p.head 60 (trim (name.getD "Passkey"))) "Passkey"⟩
  return (w.updateUser userId fun target ↦ { target with
    passkeys := target.passkeys ++ [record]
    pendingPasskey := none }, record)

def removePasskey (userId password totpCode credentialId : String) : World × Except Refusal Unit :=
  match (do let user ← w.requireUser userId; let taken ← present p now user password totpCode; return (user, taken)) with
  | .error refusal => (w, .error refusal)
  | .ok (user, taken) =>
    (w.take userId taken fun target ↦ { target with passkeys := target.passkeys.filter (·.id ≠ credentialId) },
      require (user.passkeys.any (·.id = credentialId) = true) (fail "That passkey no longer exists." 404))

/-! ### The password and the authenticator -/

/-- What proves presence where there is an authenticator, and where there is none yet. -/
def presentOr (user : User) (password totpCode : String) : Except Refusal (Option Taken) :=
  match user.totp with
  | some _ => (present p now user password totpCode).map some
  | none => do
    require (verifyPassword p password user.password = true) (fail "Current password is incorrect." 403)
    return none

def takeOr (userId : String) (taken : Option Taken) (f : User → User) : World :=
  match taken with
  | some taken => w.take userId taken f
  | none => w.updateUser userId fun target ↦ { f target with lastTotpStep := none }

def revokeOthersIf (revoke : Bool) (userId sessionId : String) : World :=
  if revoke then w.revokeOtherSessions userId sessionId else w

def changePassword (userId sessionId currentPassword totpCode newPassword : String) (revokeOthers : Bool) :
    Except Refusal (World × Unit) := do
  let user ← w.requireUser userId
  passwordPolicy p newPassword
  require (verifyPassword p newPassword user.password = false)
    (fail "The new password must differ from the current one." 400)
  let taken ← presentOr p now user currentPassword totpCode
  let descriptor := hashPassword p w.drawn newPassword
  return (((w.takeOr userId taken fun target ↦ { target with
    password := some descriptor
    failedLoginCount := 0
    lockedUntil := 0
    mustChangePassword := false }).revokeOthersIf revokeOthers userId sessionId).draw 1, ())

/-- It turns off what is on, and tells whether there was anything to turn off. The step is not recorded. -/
def disableMfa (userId password totpCode : String) : Except Refusal (World × Bool) := do
  let user ← w.requireUser userId
  match user.totp with
  | none => return (w, false)
  | some _ =>
    let taken ← present p now user password totpCode
    return ((w.updateUser userId fun target ↦ { target with
      totp := none
      recoveryCodes := []
      pendingTotp := none }).note [.accepted taken.1 taken.2], true)

def beginMfaReplacement (userId password totpCode : String) : Except Refusal (World × String × String) := do
  let user ← w.requireUser userId
  let taken ← presentOr p now user password totpCode
  let secret := p.createTotpSecret w.drawn
  let challenge := p.randomToken (w.drawn + 1)
  return ((w.takeOr userId taken fun target ↦ { target with
    pendingTotp := some ⟨p.tokenDigest challenge, secret, now + 10 * 60000⟩ }).draw 2, challenge, secret)

def confirmMfaReplacement (userId sessionId challenge firstCode secondCode : String) (revokeOthers : Bool) :
    Except Refusal (World × List String) := do
  let user ← w.requireUser userId
  let pending ← demand user.pendingTotp (fail "No authenticator replacement is in progress." 409)
  require (now ≤ pending.expiresAt) (fail "The replacement expired. Start again." 410)
  require (p.tokenDigest challenge = pending.challengeDigest) (fail "Invalid replacement challenge." 403)
  let first ← verifyTotpStep p pending.secret firstCode now
  let second ← verifyTotpStep p pending.secret secondCode now
  let mismatch := fail "Those codes do not match the new authenticator." 403
  let first ← demand first mismatch
  let second ← demand second mismatch
  require (second = first + 1)
    (fail "The two codes must be consecutive. Enter one, wait for it to change, then enter the next." 400)
  return (((((w.updateUser userId fun target ↦ { target with
    totp := some pending.secret
    lastTotpStep := some second
    recoveryCodes := recoveryDigests p w.drawn
    pendingTotp := none }).revokeOthersIf revokeOthers userId sessionId).note
      [.accepted pending.secret first, .accepted pending.secret second])).draw 10, recoveryTexts p w.drawn)

def cancelMfaReplacement (userId : String) : World := w.updateUser userId fun target ↦ { target with pendingTotp := none }

def regenerateRecoveryCodes (userId password totpCode : String) : Except Refusal (World × List String) := do
  let user ← w.requireUser userId
  let taken ← present p now user password totpCode
  return ((w.take userId taken fun target ↦ { target with recoveryCodes := recoveryDigests p w.drawn }).draw 10,
    recoveryTexts p w.drawn)

/-! ### Recovery -/

def badRecovery : Refusal := fail "That recovery attempt was not accepted." 401

def recoveryLimit (normalized : String) : String := "recovery|" ++ normalized

def recoveryProved (user : User) (recoveryCode : String) (viaProof : Bool) : Bool :=
  let supplied := p.toUpperCase (trim recoveryCode)
  viaProof || (supplied ≠ "" &&
    user.recoveryCodes.any fun item ↦ item.digest = p.tokenDigest supplied && item.usedAt.isNone)

def beginRecovery (username recoveryCode : String) (viaProof : Bool) (ip : String) : World × Except Refusal Enrolment :=
  let normalized := (normalizeUsername p username).toOption.getD ""
  let w := w.rateState now ip (recoveryLimit normalized)
  if 5 ≤ (w.entries ip (recoveryLimit normalized)).length then
    (w, .error (fail "Too many recovery attempts. Try again later." 429))
  else match w.state.users.find? fun item ↦ item.username = normalized && item.role = .owner with
  | none => (w.recordFailure now ip (recoveryLimit normalized), .error badRecovery)
  | some user =>
    if !recoveryProved p user recoveryCode viaProof then
      (w.recordFailure now ip (recoveryLimit normalized), .error badRecovery)
    else
      let secret := p.createTotpSecret w.drawn
      let challenge := p.randomToken (w.drawn + 1)
      let pending : PendingRecovery := ⟨p.tokenDigest challenge, user.id, secret, now + 10 * 60000⟩
      ((w.update fun next ↦ { next with pendingRecovery := some pending }).draw 2,
        .ok ⟨challenge, normalized, secret, pending.expiresAt⟩)

def recovered (pending : PendingRecovery) (password : String) (step : ℕ) (target : User) : User :=
  { target with
    password := some (hashPassword p (w.drawn + 10) password)
    totp := some pending.totp
    lastTotpStep := some step
    failedLoginCount := 0
    lockedUntil := 0
    recoveryCodes := recoveryDigests p w.drawn }

def completeRecovery (challenge password totpCode : String) : Except Refusal (World × Issued × List String) := do
  let pending ← demand (w.state.pendingRecovery.filter fun pending ↦ now ≤ pending.expiresAt)
    (fail "Recovery challenge expired." 400)
  require (p.tokenDigest challenge = pending.challengeDigest) (fail "Invalid recovery challenge." 403)
  let user ← demand (w.user pending.userId) (fail "Recovery challenge expired." 400)
  passwordPolicy p password
  match ← consumeTotp p pending.totp totpCode now (some 0) with
  | .invalid => throw (fail "Invalid TOTP code." 403)
  | .replayed _ => throw usedCode
  | .accepted step =>
    let w' := ((((w.updateUser pending.userId (w.recovered p pending password step)).update fun next ↦ { next with
      pendingRecovery := none
      sessions := [] }).note [.accepted pending.totp step])).draw 11
    let (w'', issued) := w'.createSession p now (w.recovered p pending password step user) true
    return (w'', issued, recoveryTexts p w.drawn)

end Noesar.Accounts.World
