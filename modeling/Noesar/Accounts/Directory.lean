import Noesar.Accounts.Login

namespace Noesar.Accounts

open Lib

/-- `GRANTABLE` -/
def Role.grantable : Role → List Role
  | .owner => Role.all
  | .admin => [.developer, .user, .clientRestricted, .serviceAccount]
  | _ => []

inductive Accepted
  | mfaRequired (enrolment : World.Enrolment)
  | created (user : PublicUser)
  deriving DecidableEq

namespace World

variable (p : Platform) (w : World) (now : ℕ)

def invitationTtl : ℕ := 72 * 60 * 60 * 1000

def mfaEnrolmentTtl : ℕ := 15 * 60 * 1000

/-- `#adminEvent`: the last two thousand are kept. -/
def adminEvent (actorId subjectId : Option String) (action : String) (details : List (String × Option String)) : World :=
  (w.update fun next ↦
    let events := next.administrativeEvents ++
      [⟨p.randomUUID w.drawn, actorId, subjectId, action, "allowed", details⟩]
    { next with administrativeEvents := events.drop (events.length - 2000) }).draw 1

def activeOwners (users : List User) : List User := users.filter fun user ↦ user.role = .owner && isActive user

def requireGrantable (actor : User) (role : String) : Except Refusal Role := do
  let granted ← demand (Role.named role) (fail ("Unknown role: " ++ role) 400)
  require (granted ∈ actor.role.grantable)
    (fail ("A " ++ actor.role.name ++ " may not grant the " ++ role ++ " role.") 403)
  return granted

def requireActor (actorId : String) : Except Refusal User := do
  let actor ← demand (w.user actorId) (fail "The acting account no longer exists." 403)
  require (isActive actor = true) (fail "The acting account is not active." 403)
  require (actor.role.grantable ≠ []) (fail "This account may not administer users." 403)
  return actor

def requireTarget (userId : String) : Except Refusal User := demand (w.user userId) (fail "No such account." 404)

def requireFree (username : String) : Except Refusal Unit :=
  require (w.state.users.all (·.username ≠ username) = true) (fail "That username is already in use." 409)

/-! ### Invitations -/

def createInvitation (actorId username : String) (displayName : Option String) (role : String) :
    Except Refusal (World × Invitation × String) := do
  let actor ← w.requireActor actorId
  let role ← requireGrantable actor role
  require (role.nonInteractive = false) (fail "A service account is created directly, not by invitation." 400)
  let normalized ← normalizeUsername p username
  w.requireFree normalized
  require (w.state.invitations.all fun invitation ↦ !(invitation.username = normalized && invitation.acceptedAt.isNone &&
      invitation.revokedAt.isNone && now < invitation.expiresAt))
    (fail "An open invitation for that username already exists." 409)
  let token := p.randomToken w.drawn
  let invitation : Invitation := {
    id := p.randomUUID (w.drawn + 1)
    username := normalized
    displayName := p.head 100 (trim (displayName.getD normalized))
    role
    tokenDigest := p.tokenDigest token
    invitedBy := actor.id
    expiresAt := now + invitationTtl
    acceptedAt := none
    revokedAt := none
    claimedAt := none
    acceptedUserId := none }
  return ((((w.update fun next ↦ { next with invitations := next.invitations ++ [invitation] }).draw 2).note
    [.invited invitation.id actor.role]).adminEvent p (some actor.id) none "user.invited"
      [("username", some normalized), ("role", some role.name)], invitation, token)

def revokeInvitation (actorId invitationId : String) : Except Refusal (World × Invitation) := do
  let actor ← w.requireActor actorId
  let invitation ← demand (w.state.invitations.find? (·.id = invitationId)) (fail "No such invitation." 404)
  require (invitation.acceptedAt.isNone = true) (fail "That invitation has already been accepted." 409)
  return ((w.update fun next ↦ { next with
    invitations := modifyFirst (·.id = invitationId) (fun target ↦ { target with revokedAt := some now }) next.invitations
    }).adminEvent p (some actor.id) none "user.invitation-revoked"
      [("invitationId", some invitationId), ("username", some invitation.username)],
    { invitation with revokedAt := some now })

def resolveInvitation (token : String) : Except Refusal Invitation := do
  let invitation ← demand (w.state.invitations.find? (·.tokenDigest = p.tokenDigest token))
    (fail "Invalid invitation token." 403)
  require (invitation.revokedAt.isNone = true) (fail "That invitation was revoked." 403)
  require (invitation.acceptedAt.isNone = true) (fail "That invitation has already been used." 409)
  require (now ≤ invitation.expiresAt) (fail "That invitation has expired." 403)
  require (invitation.claimedAt.all fun claimedAt ↦ claimedAt + mfaEnrolmentTtl ≤ now)
    (fail "That invitation is already being used to set up an account." 409)
  return invitation

/-- `#commitUser` -/
def commitUser (record : User) (invitationId : Option String) (verified : Bool) : World :=
  ((w.update fun next ↦ { next with
      users := next.users ++ [record]
      invitations := modifyFirst (fun item ↦ invitationId = some item.id)
        (fun item ↦ { item with acceptedAt := some now, acceptedUserId := some record.id }) next.invitations }).note
    [.created record.id invitationId verified]).adminEvent p record.createdBy (some record.id) "user.created"
      [("username", some record.username), ("role", some record.role.name)]

def invitedUser (invitation : Invitation) (password : String) (displayName : Option String) : User :=
  { User.made (p.randomUUID w.drawn) invitation.username (p.head 100 (trim (displayName.getD invitation.displayName)))
      invitation.role (some .active) (some (hashPassword p (w.drawn + 1) password)) none with
    createdBy := some invitation.invitedBy }

def acceptInvitation (token password : String) (displayName : Option String) : Except Refusal (World × Accepted) := do
  let invitation ← w.resolveInvitation p now token
  passwordPolicy p password
  let record := w.invitedUser p invitation password displayName
  if invitation.role.nonInteractive then
    return ((w.draw 2).commitUser p now record (some invitation.id) false, .created (publicUser record))
  else
    let secret := p.createTotpSecret (w.drawn + 2)
    let challenge := p.randomToken (w.drawn + 3)
    let pending : PendingInvitee :=
      ⟨p.tokenDigest challenge, invitation.id, now + mfaEnrolmentTtl, { record with totp := some secret }⟩
    return ((w.update fun next ↦ { next with
      pendingInvitees := next.pendingInvitees.filter
        (fun item ↦ now < item.expiresAt && item.invitationId ≠ invitation.id) ++ [pending]
      invitations := modifyFirst (·.id = invitation.id) (fun claimed ↦ { claimed with claimedAt := some now })
        next.invitations }).draw 4, .mfaRequired ⟨challenge, invitation.username, secret, pending.expiresAt⟩)

def confirmInvitationMfa (challenge totpCode : String) : Except Refusal (World × PublicUser) := do
  let digest := p.tokenDigest challenge
  let pending ← demand ((w.state.pendingInvitees.find? (·.challengeDigest = digest)).filter fun pending ↦
    now ≤ pending.expiresAt) (fail "MFA enrolment expired." 400)
  let invalid := fail "Invalid TOTP code." 403
  let secret ← demand pending.user.totp invalid
  match ← consumeTotp p secret totpCode now pending.user.lastTotpStep with
  | .invalid => throw invalid
  | .replayed _ => throw (fail "This authentication code has already been used." 403)
  | .accepted step =>
    let record := { pending.user with lastTotpStep := some step }
    return (((w.note [.accepted secret step]).commitUser p now record (some pending.invitationId) true).update fun next ↦
      { next with pendingInvitees := next.pendingInvitees.filter (·.challengeDigest ≠ digest) }, publicUser record)

/-! ### The life of an account -/

def outOfReach (actor target : User) : Bool := actor.role = .admin && (target.role = .owner || target.role = .admin)

def setRole (actorId userId role : String) : Except Refusal (World × PublicUser) := do
  let actor ← w.requireActor actorId
  let role ← requireGrantable actor role
  let target ← w.requireTarget userId
  if target.role = role then return (w, publicUser target)
  else
    require (¬(target.role = .owner ∧ (activeOwners w.state.users).length ≤ 1))
      (fail "The last active owner cannot be demoted." 409)
    require (outOfReach actor target = false)
      (fail "An administrator may not change an owner or another administrator." 403)
    require (¬(role.mfaRequired = true ∧ target.totp = none))
      (fail "That account must enrol MFA before it can hold this role." 409)
    return ((w.updateUser userId fun record ↦ { record with role }).adminEvent p (some actor.id) (some userId)
      "user.role-changed" [("from", some target.role.name), ("to", some role.name)], publicUser { target with role })

def Status.action : Status → String
  | .active => "user.reinstated"
  | .disabled => "user.disabled"
  | .revoked => "user.revoked"

/-- `#setStatus` -/
def setStatus (actorId userId : String) (status : Status) (reason : Option String) :
    Except Refusal (World × PublicUser) := do
  let actor ← w.requireActor actorId
  let target ← w.requireTarget userId
  require (¬(actor.id = userId ∧ status ≠ .active)) (fail "An account cannot disable or revoke itself." 409)
  require (outOfReach actor target = false)
    (fail "An administrator may not disable an owner or another administrator." 403)
  require (¬(status ≠ .active ∧ target.role = .owner ∧ (activeOwners w.state.users).length ≤ 1))
    (fail "The last active owner cannot be disabled or revoked." 409)
  require (¬(target.status = some .revoked ∧ status = .active)) (fail "A revoked account cannot be reinstated." 409)
  let w' := (w.updateUser userId fun record ↦ { record with
    status := some status
    disabledReason := if status = .active then none else reason }).update fun next ↦ { next with
      sessions := next.sessions.filter fun session ↦ session.userId ≠ userId || status = .active
      serviceTokens := if status = .active then next.serviceTokens else next.serviceTokens.map fun item ↦
        if item.userId = userId ∧ item.revokedAt = none then { item with revokedAt := some now } else item }
  return (w'.adminEvent p (some actor.id) (some userId) (Status.action status) [("reason", reason)],
    publicUser { target with status := some status })

def disableUser (actorId userId : String) (reason : Option String) : Except Refusal (World × PublicUser) :=
  w.setStatus p now actorId userId .disabled reason

def revokeUser (actorId userId : String) (reason : Option String) : Except Refusal (World × PublicUser) :=
  w.setStatus p now actorId userId .revoked reason

def reinstateUser (actorId userId : String) : Except Refusal (World × PublicUser) :=
  w.setStatus p now actorId userId .active none

/-! ### Service accounts -/

def issueServiceToken (actorId userId name : String) (ttlDays : Option ℕ) : Except Refusal (World × String × String) := do
  let actor ← w.requireActor actorId
  let target ← w.requireTarget userId
  require (target.role = .serviceAccount) (fail "Only a service account can hold a token." 400)
  require (isActive target = true) (fail "That account is not active." 409)
  let token := p.randomToken w.drawn
  let record : ServiceToken := {
    id := p.randomUUID (w.drawn + 1)
    userId
    name := p.head 64 name
    tokenDigest := p.tokenDigest token
    createdBy := actor.id
    expiresAt := (ttlDays.filter (· ≠ 0)).map fun days ↦ now + days * 86400000
    revokedAt := none }
  return (((w.update fun next ↦ { next with serviceTokens := next.serviceTokens ++ [record] }).draw 2).adminEvent p
    (some actor.id) (some userId) "user.service-token-issued" [("tokenId", some record.id), ("name", some record.name)],
    record.id, token)

def createServiceAccount (actorId username : String) (displayName : Option String) :
    Except Refusal (World × PublicUser × String) := do
  let actor ← w.requireActor actorId
  let _ ← requireGrantable actor "service_account"
  let normalized ← normalizeUsername p username
  w.requireFree normalized
  let record := { User.made (p.randomUUID w.drawn) normalized (p.head 100 (trim (displayName.getD normalized)))
    .serviceAccount (some .active) none none with createdBy := some actor.id }
  -- The account was just made, and its first token is not refused.
  let (w', _, token) ← ((w.draw 1).commitUser p now record none false).issueServiceToken p now actor.id record.id "initial" none
  return (w', publicUser record, token)

def revokeServiceToken (actorId tokenId : String) : Except Refusal (World × String) := do
  let actor ← w.requireActor actorId
  let record ← demand (w.state.serviceTokens.find? (·.id = tokenId)) (fail "No such token." 404)
  return ((w.update fun next ↦ { next with
    serviceTokens := modifyFirst (·.id = tokenId) (fun target ↦ { target with revokedAt := some now }) next.serviceTokens
    }).adminEvent p (some actor.id) (some record.userId) "user.service-token-revoked" [("tokenId", some tokenId)], tokenId)

def authenticateServiceToken (token : String) : Option (PublicUser × String) := do
  let record ← w.state.serviceTokens.find? (·.tokenDigest = p.tokenDigest token)
  if record.revokedAt.isSome || record.expiresAt.any (· < now) then none
  else
    let user ← w.user record.userId
    if isActive user && user.role = .serviceAccount then some (publicUser user, record.id) else none

/-! ### Erasure -/

def erased (userId : String) (record : User) : User :=
  { record with
    username := "erased-" ++ p.head 8 userId
    displayName := "Erased account"
    status := some .revoked
    password := none
    totp := none
    lastTotpStep := some 0
    disabledReason := some "erased"
    erasedAt := some now }

def eraseUser (actorId userId : String) (reason : Option String) : Except Refusal (World × ℕ) := do
  let actor ← w.requireActor actorId
  let target ← w.requireTarget userId
  require (actor.id ≠ userId) (fail "An account cannot erase itself." 409)
  require (¬(target.role = .owner ∧ (activeOwners w.state.users).length ≤ 1))
    (fail "The last active owner cannot be erased." 409)
  require (outOfReach actor target = false) (fail "An administrator may not erase an owner or another administrator." 403)
  let w' := (w.updateUser userId (erased p now userId)).update fun next ↦ { next with
    sessions := next.sessions.filter (·.userId ≠ userId)
    serviceTokens := next.serviceTokens.filter (·.userId ≠ userId)
    invitations := next.invitations.filter (·.acceptedUserId ≠ some userId) }
  return (w'.adminEvent p (some actor.id) (some userId) "user.erased" [("reason", reason)], now)

end World

end Noesar.Accounts
