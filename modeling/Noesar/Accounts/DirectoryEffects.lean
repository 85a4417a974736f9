import Noesar.Accounts.Directory
import Noesar.Accounts.Effects

namespace Noesar.Accounts

open Lib World

/-- The calls of the directory that can change anything. -/
inductive DirectoryCall
  | createInvitation (actorId username : String) (displayName : Option String) (role : String)
  | revokeInvitation (actorId invitationId : String)
  | acceptInvitation (token password : String) (displayName : Option String)
  | confirmInvitationMfa (challenge totpCode : String)
  | setRole (actorId userId role : String)
  | disableUser (actorId userId : String) (reason : Option String)
  | revokeUser (actorId userId : String) (reason : Option String)
  | reinstateUser (actorId userId : String)
  | createServiceAccount (actorId username : String) (displayName : Option String)
  | issueServiceToken (actorId userId name : String) (ttlDays : Option ℕ)
  | revokeServiceToken (actorId tokenId : String)
  | eraseUser (actorId userId : String) (reason : Option String)

namespace DirectoryCall

def perform (p : Platform) (now : ℕ) (w : World) : DirectoryCall → World
  | .createInvitation actorId username displayName role =>
    (w.attempt (w.createInvitation p now actorId username displayName role)).1
  | .revokeInvitation actorId invitationId => (w.attempt (w.revokeInvitation p now actorId invitationId)).1
  | .acceptInvitation token password displayName => (w.attempt (w.acceptInvitation p now token password displayName)).1
  | .confirmInvitationMfa challenge totpCode => (w.attempt (w.confirmInvitationMfa p now challenge totpCode)).1
  | .setRole actorId userId role => (w.attempt (w.setRole p actorId userId role)).1
  | .disableUser actorId userId reason => (w.attempt (w.disableUser p now actorId userId reason)).1
  | .revokeUser actorId userId reason => (w.attempt (w.revokeUser p now actorId userId reason)).1
  | .reinstateUser actorId userId => (w.attempt (w.reinstateUser p now actorId userId)).1
  | .createServiceAccount actorId username displayName =>
    (w.attempt (w.createServiceAccount p now actorId username displayName)).1
  | .issueServiceToken actorId userId name ttlDays => (w.attempt (w.issueServiceToken p now actorId userId name ttlDays)).1
  | .revokeServiceToken actorId tokenId => (w.attempt (w.revokeServiceToken p now actorId tokenId)).1
  | .eraseUser actorId userId reason => (w.attempt (w.eraseUser p now actorId userId reason)).1

def actor? : DirectoryCall → Option String
  | .createInvitation actorId _ _ _ => actorId
  | .revokeInvitation actorId _ => actorId
  | .acceptInvitation _ _ _ => none
  | .confirmInvitationMfa _ _ => none
  | .setRole actorId _ _ => actorId
  | .disableUser actorId _ _ => actorId
  | .revokeUser actorId _ _ => actorId
  | .reinstateUser actorId _ => actorId
  | .createServiceAccount actorId _ _ => actorId
  | .issueServiceToken actorId _ _ _ => actorId
  | .revokeServiceToken actorId _ => actorId
  | .eraseUser actorId _ _ => actorId

def status? : DirectoryCall → Option (String × String × Status × Option String)
  | .disableUser actorId userId reason => some (actorId, userId, .disabled, reason)
  | .revokeUser actorId userId reason => some (actorId, userId, .revoked, reason)
  | .reinstateUser actorId userId => some (actorId, userId, .active, none)
  | _ => none

end DirectoryCall

structure Acting (w : World) (actorId : String) (actor : User) : Prop where
  user : w.user actorId = some actor
  active : isActive actor = true
  grants : actor.role.grantable ≠ []

def NotLast (w : World) (target : User) : Prop := ¬(target.role = .owner ∧ (activeOwners w.state.users).length ≤ 1)

/-- The worlds after a change of a role, a change of a status, an erasure, before the event is noted. -/
def World.withRole (w : World) (userId : String) (role : Role) : World := w.updateUser userId fun record ↦ { record with role }

def World.withStatus (w : World) (now : ℕ) (userId : String) (status : Status) (reason : Option String) : World :=
  (w.updateUser userId fun record ↦ { record with
    status := some status
    disabledReason := if status = .active then none else reason }).update fun next ↦ { next with
      sessions := next.sessions.filter fun session ↦ session.userId ≠ userId || status = .active
      serviceTokens := if status = .active then next.serviceTokens else next.serviceTokens.map fun item ↦
        if item.userId = userId ∧ item.revokedAt = none then { item with revokedAt := some now } else item }

def World.withErased (p : Platform) (w : World) (now : ℕ) (userId : String) : World :=
  (w.updateUser userId (erased p now userId)).update fun next ↦ { next with
    sessions := next.sessions.filter (·.userId ≠ userId)
    serviceTokens := next.serviceTokens.filter (·.userId ≠ userId)
    invitations := next.invitations.filter (·.acceptedUserId ≠ some userId) }

/-- What a call can do: it is refused, or it does what it says. -/
inductive DirectoryEffect (p : Platform) (now : ℕ) (w : World) : DirectoryCall → World → Prop
  | refused {call : DirectoryCall} : DirectoryEffect p now w call w
  | invited (actorId username : String) (displayName : Option String) (role : String) (actor : User)
      (invitation : Invitation) (hactor : Acting w actorId actor) (hgranted : invitation.role ∈ actor.role.grantable)
      (hrole : invitation.role.nonInteractive = false) (hname : normalizeUsername p username = .ok invitation.username)
      (hshown : invitation.displayName = p.head 100 (trim (displayName.getD invitation.username)))
      (hfree : ∀ user ∈ w.state.users, user.username ≠ invitation.username)
      (hid : invitation.id = p.randomUUID (w.drawn + 1)) (haccepted : invitation.acceptedAt = none)
      (huser : invitation.acceptedUserId = none) (hby : invitation.invitedBy = actor.id) :
      DirectoryEffect p now w (.createInvitation actorId username displayName role)
        ((((w.update fun next ↦ { next with invitations := next.invitations ++ [invitation] }).draw 2).note
          [.invited invitation.id actor.role]).adminEvent p (some actor.id) none "user.invited"
            [("username", some invitation.username), ("role", some invitation.role.name)])
  | invitationRevoked (actorId invitationId : String) (actor : User) (invitation : Invitation)
      (hactor : Acting w actorId actor) (hfind : w.state.invitations.find? (·.id = invitationId) = some invitation) :
      DirectoryEffect p now w (.revokeInvitation actorId invitationId) ((w.update fun next ↦ { next with
        invitations := modifyFirst (·.id = invitationId) (fun target ↦ { target with revokedAt := some now })
          next.invitations }).adminEvent p (some actor.id) none "user.invitation-revoked"
            [("invitationId", some invitationId), ("username", some invitation.username)])
  | joined (token password : String) (displayName : Option String) (invitation : Invitation)
      (hfind : invitation ∈ w.state.invitations) (hrevoked : invitation.revokedAt = none)
      (haccepted : invitation.acceptedAt = none) (hrole : invitation.role.nonInteractive = true)
      (htoken : invitation.tokenDigest = p.tokenDigest token) :
      DirectoryEffect p now w (.acceptInvitation token password displayName) ((w.draw 2).commitUser p now
        (w.invitedUser p invitation password displayName) (some invitation.id) false)
  | claimed (token password : String) (displayName : Option String) (invitation : Invitation) (pending : PendingInvitee)
      (hfind : invitation ∈ w.state.invitations) (hrevoked : invitation.revokedAt = none)
      (haccepted : invitation.acceptedAt = none) (hrole : invitation.role.nonInteractive = false)
      (hdigest : pending.challengeDigest = p.tokenDigest (p.randomToken (w.drawn + 3)))
      (hid : pending.invitationId = invitation.id)
      (huser : pending.user = { w.invitedUser p invitation password displayName with
        totp := some (p.createTotpSecret (w.drawn + 2)) })
      (htoken : invitation.tokenDigest = p.tokenDigest token) :
      DirectoryEffect p now w (.acceptInvitation token password displayName) ((w.update fun next ↦ { next with
        pendingInvitees := next.pendingInvitees.filter
          (fun item ↦ now < item.expiresAt && item.invitationId ≠ invitation.id) ++ [pending]
        invitations := modifyFirst (·.id = invitation.id) (fun claimed ↦ { claimed with claimedAt := some now })
          next.invitations }).draw 4)
  | confirmed (challenge totpCode : String) (pending : PendingInvitee) (secret : String) (step : ℕ)
      (hfind : w.state.pendingInvitees.find? (·.challengeDigest = p.tokenDigest challenge) = some pending)
      (hsecret : pending.user.totp = some secret) (hstep : pending.user.lastTotpStep.getD 0 < step) :
      DirectoryEffect p now w (.confirmInvitationMfa challenge totpCode) (((w.note [.accepted secret step]).commitUser p now
        { pending.user with lastTotpStep := some step } (some pending.invitationId) true).update fun next ↦ { next with
          pendingInvitees := next.pendingInvitees.filter (·.challengeDigest ≠ p.tokenDigest challenge) })
  | roleChanged (actorId userId name : String) (actor target : User) (role : Role) (hactor : Acting w actorId actor)
      (hnamed : Role.named name = some role) (hgranted : role ∈ actor.role.grantable) (htarget : w.user userId = some target)
      (hother : target.role ≠ role) (hlast : NotLast w target) (hreach : outOfReach actor target = false)
      (hmfa : ¬(role.mfaRequired = true ∧ target.totp = none)) :
      DirectoryEffect p now w (.setRole actorId userId name) ((w.withRole userId role).adminEvent p (some actor.id)
        (some userId) "user.role-changed" [("from", some target.role.name), ("to", some role.name)])
  | statusChanged (call : DirectoryCall) (actorId userId : String) (status : Status) (reason : Option String)
      (actor target : User) (hcall : call.status? = some (actorId, userId, status, reason)) (hactor : Acting w actorId actor)
      (htarget : w.user userId = some target) (hreach : outOfReach actor target = false)
      (hlast : status ≠ .active → NotLast w target) (hrevoked : ¬(target.status = some .revoked ∧ status = .active)) :
      DirectoryEffect p now w call ((w.withStatus now userId status reason).adminEvent p (some actor.id) (some userId)
        (Status.action status) [("reason", reason)])
  | serviceAccountCreated (actorId username : String) (displayName : Option String) (actor record : User)
      (token : ServiceToken) (hactor : Acting w actorId actor) (hname : normalizeUsername p username = .ok record.username)
      (hfree : ∀ user ∈ w.state.users, user.username ≠ record.username)
      (hrecord : record = { User.made (p.randomUUID w.drawn) record.username
        (p.head 100 (trim (displayName.getD record.username))) .serviceAccount (some .active) none none with
          createdBy := some actor.id })
      (htoken : token.userId = record.id) (hlabel : token.name = p.head 64 "initial") :
      DirectoryEffect p now w (.createServiceAccount actorId username displayName)
        (((((w.draw 1).commitUser p now record none false).update fun next ↦ { next with
          serviceTokens := next.serviceTokens ++ [token] }).draw 2).adminEvent p (some actor.id) (some record.id)
            "user.service-token-issued" [("tokenId", some token.id), ("name", some token.name)])
  | tokenIssued (actorId userId name : String) (ttlDays : Option ℕ) (actor target : User) (token : ServiceToken)
      (hactor : Acting w actorId actor) (htarget : w.user userId = some target) (hactive : isActive target = true)
      (htoken : token.userId = userId) (hlabel : token.name = p.head 64 name) :
      DirectoryEffect p now w (.issueServiceToken actorId userId name ttlDays) (((w.update fun next ↦ { next with
        serviceTokens := next.serviceTokens ++ [token] }).draw 2).adminEvent p (some actor.id) (some userId)
          "user.service-token-issued" [("tokenId", some token.id), ("name", some token.name)])
  | tokenRevoked (actorId tokenId : String) (actor : User) (record : ServiceToken) (hactor : Acting w actorId actor)
      (hfind : w.state.serviceTokens.find? (·.id = tokenId) = some record) :
      DirectoryEffect p now w (.revokeServiceToken actorId tokenId) ((w.update fun next ↦ { next with
        serviceTokens := modifyFirst (·.id = tokenId) (fun target ↦ { target with revokedAt := some now })
          next.serviceTokens }).adminEvent p (some actor.id) (some record.userId) "user.service-token-revoked"
            [("tokenId", some tokenId)])
  | erased (actorId userId : String) (reason : Option String) (actor target : User) (hactor : Acting w actorId actor)
      (htarget : w.user userId = some target) (hlast : NotLast w target) (hreach : outOfReach actor target = false) :
      DirectoryEffect p now w (.eraseUser actorId userId reason) ((w.withErased p now userId).adminEvent p (some actor.id)
        (some userId) "user.erased" [("reason", reason)])

section

variable {p : Platform} {w : World} {now : ℕ}

theorem attempt_directory {α : Type} {call : DirectoryCall} {x : Except Refusal (World × α)}
    (h : ∀ w' a, x = .ok (w', a) → DirectoryEffect p now w call w') : DirectoryEffect p now w call (w.attempt x).1 := by
  cases hx : x with
  | error => exact .refused
  | ok r => exact h r.1 r.2 hx

theorem requireActor_ok {actorId : String} {actor : User} (h : w.requireActor actorId = .ok actor) :
    Acting w actorId actor := by
  simp only [requireActor, bind_ok, demand_ok, exists_unit, require_ok] at h
  obtain ⟨found, hfound, hactive, hgrants, h⟩ := h
  cases h
  exact ⟨hfound, hactive, hgrants⟩

theorem requireGrantable_ok {actor : User} {name : String} {role : Role} (h : requireGrantable actor name = .ok role) :
    Role.named name = some role ∧ role ∈ actor.role.grantable := by
  simp only [requireGrantable, bind_ok, demand_ok, exists_unit, require_ok] at h
  obtain ⟨found, hfound, hgranted, h⟩ := h
  cases h
  exact ⟨hfound, hgranted⟩

theorem requireFree_ok {username : String} (h : w.requireFree username = .ok ()) :
    ∀ user ∈ w.state.users, user.username ≠ username := by
  simp only [requireFree, require_ok, List.all_eq_true, decide_eq_true_eq] at h
  exact h

theorem createInvitation_effect (actorId username : String) (displayName : Option String) (role : String) :
    DirectoryEffect p now w (.createInvitation actorId username displayName role)
      (w.attempt (w.createInvitation p now actorId username displayName role)).1 := by
  apply attempt_directory
  intro w' a h
  simp only [createInvitation, bind_ok, exists_unit, require_ok] at h
  obtain ⟨actor, hactor, granted, hgranted, hrole, normalized, hname, hfree, _, h⟩ := h
  cases h
  exact .invited actorId username displayName role actor _ (requireActor_ok hactor) (requireGrantable_ok hgranted).2 hrole
    hname rfl (requireFree_ok hfree) rfl rfl rfl rfl

theorem revokeInvitation_effect (actorId invitationId : String) :
    DirectoryEffect p now w (.revokeInvitation actorId invitationId)
      (w.attempt (w.revokeInvitation p now actorId invitationId)).1 := by
  apply attempt_directory
  intro w' a h
  simp only [revokeInvitation, bind_ok, demand_ok, exists_unit, require_ok] at h
  obtain ⟨actor, hactor, invitation, hfind, _, h⟩ := h
  cases h
  exact .invitationRevoked actorId invitationId actor invitation (requireActor_ok hactor) hfind

theorem resolveInvitation_ok {token : String} {invitation : Invitation}
    (h : w.resolveInvitation p now token = .ok invitation) :
    invitation ∈ w.state.invitations ∧ invitation.revokedAt = none ∧ invitation.acceptedAt = none ∧
      invitation.tokenDigest = p.tokenDigest token := by
  simp only [resolveInvitation, bind_ok, demand_ok, exists_unit, require_ok, Option.isNone_iff_eq_none] at h
  obtain ⟨found, hfind, hrevoked, haccepted, _, _, h⟩ := h
  cases h
  exact ⟨List.mem_of_find?_eq_some hfind, hrevoked, haccepted, by simpa using List.find?_some hfind⟩

theorem acceptInvitation_effect (token password : String) (displayName : Option String) :
    DirectoryEffect p now w (.acceptInvitation token password displayName)
      (w.attempt (w.acceptInvitation p now token password displayName)).1 := by
  apply attempt_directory
  intro w' a h
  simp only [acceptInvitation, bind_ok, exists_unit] at h
  obtain ⟨invitation, hresolved, _, h⟩ := h
  obtain ⟨hfind, hrevoked, haccepted, htoken⟩ := resolveInvitation_ok hresolved
  split at h
  · rename_i hrole
    cases h
    exact .joined token password displayName invitation hfind hrevoked haccepted hrole htoken
  · rename_i hrole
    cases h
    exact .claimed token password displayName invitation _ hfind hrevoked haccepted (by simpa using hrole) rfl rfl rfl
      htoken

theorem confirmInvitationMfa_effect (challenge totpCode : String) :
    DirectoryEffect p now w (.confirmInvitationMfa challenge totpCode)
      (w.attempt (w.confirmInvitationMfa p now challenge totpCode)).1 := by
  apply attempt_directory
  intro w' a h
  simp only [confirmInvitationMfa, bind_ok, demand_ok, Option.filter_eq_some_iff] at h
  obtain ⟨pending, ⟨hfind, _⟩, secret, hsecret, consumed, hconsumed, h⟩ := h
  cases consumed with
  | invalid | replayed => cases h
  | accepted step =>
    cases h
    exact .confirmed challenge totpCode pending secret step hfind hsecret (consumeTotp_accepted hconsumed)

theorem setRole_effect (actorId userId name : String) :
    DirectoryEffect p now w (.setRole actorId userId name) (w.attempt (w.setRole p actorId userId name)).1 := by
  apply attempt_directory
  intro w' a h
  simp only [setRole, requireTarget, bind_ok, demand_ok] at h
  obtain ⟨actor, hactor, role, hgranted, target, htarget, h⟩ := h
  obtain ⟨hnamed, hgranted⟩ := requireGrantable_ok hgranted
  split at h
  · cases h
    exact .refused
  · rename_i hother
    simp only [bind_ok, exists_unit, require_ok] at h
    obtain ⟨hlast, hreach, hmfa, h⟩ := h
    cases h
    exact .roleChanged actorId userId name actor target role (requireActor_ok hactor) hnamed hgranted htarget hother hlast
      hreach hmfa

theorem setStatus_effect {call : DirectoryCall} {actorId userId : String} {status : Status} {reason : Option String}
    (hcall : call.status? = some (actorId, userId, status, reason)) :
    DirectoryEffect p now w call (w.attempt (w.setStatus p now actorId userId status reason)).1 := by
  apply attempt_directory
  intro w' a h
  simp only [setStatus, requireTarget, bind_ok, demand_ok, exists_unit, require_ok] at h
  obtain ⟨actor, hactor, target, htarget, _, hreach, hlast, hrevoked, h⟩ := h
  cases h
  refine .statusChanged call actorId userId status reason actor target hcall (requireActor_ok hactor) htarget hreach ?_
    hrevoked
  intro hinactive howner
  exact hlast ⟨hinactive, howner⟩

theorem issueServiceToken_effect (actorId userId name : String) (ttlDays : Option ℕ) :
    DirectoryEffect p now w (.issueServiceToken actorId userId name ttlDays)
      (w.attempt (w.issueServiceToken p now actorId userId name ttlDays)).1 := by
  apply attempt_directory
  intro w' a h
  simp only [issueServiceToken, requireTarget, bind_ok, demand_ok, exists_unit, require_ok] at h
  obtain ⟨actor, hactor, target, htarget, _, hactive, h⟩ := h
  cases h
  exact .tokenIssued actorId userId name ttlDays actor target _ (requireActor_ok hactor) htarget hactive rfl rfl

theorem createServiceAccount_effect (actorId username : String) (displayName : Option String) :
    DirectoryEffect p now w (.createServiceAccount actorId username displayName)
      (w.attempt (w.createServiceAccount p now actorId username displayName)).1 := by
  apply attempt_directory
  intro w' a h
  simp only [createServiceAccount, issueServiceToken, requireTarget, bind_ok, demand_ok, exists_unit, require_ok] at h
  obtain ⟨actor, hactor, _, _, normalized, hname, hfree, ⟨w₁, tokenId, token⟩, ⟨actor', hactor', _, _, _, _, hissued⟩, h⟩ := h
  cases hissued
  cases h
  have hsame : actor'.id = actor.id := by simpa using List.find?_some (requireActor_ok hactor').user
  rw [hsame]
  exact .serviceAccountCreated actorId username displayName actor _ _ (requireActor_ok hactor) hname (requireFree_ok hfree)
    rfl rfl rfl

theorem revokeServiceToken_effect (actorId tokenId : String) :
    DirectoryEffect p now w (.revokeServiceToken actorId tokenId)
      (w.attempt (w.revokeServiceToken p now actorId tokenId)).1 := by
  apply attempt_directory
  intro w' a h
  simp only [revokeServiceToken, bind_ok, demand_ok] at h
  obtain ⟨actor, hactor, record, hfind, h⟩ := h
  cases h
  exact .tokenRevoked actorId tokenId actor record (requireActor_ok hactor) hfind

theorem eraseUser_effect (actorId userId : String) (reason : Option String) :
    DirectoryEffect p now w (.eraseUser actorId userId reason)
      (w.attempt (w.eraseUser p now actorId userId reason)).1 := by
  apply attempt_directory
  intro w' a h
  simp only [eraseUser, requireTarget, bind_ok, demand_ok, exists_unit, require_ok] at h
  obtain ⟨actor, hactor, target, htarget, _, hlast, hreach, h⟩ := h
  cases h
  exact .erased actorId userId reason actor target (requireActor_ok hactor) htarget hlast hreach

theorem DirectoryCall.perform_effect (p : Platform) (now : ℕ) (w : World) (call : DirectoryCall) :
    DirectoryEffect p now w call (call.perform p now w) := by
  cases call with
  | createInvitation => exact createInvitation_effect _ _ _ _
  | revokeInvitation => exact revokeInvitation_effect _ _
  | acceptInvitation => exact acceptInvitation_effect _ _ _
  | confirmInvitationMfa => exact confirmInvitationMfa_effect _ _
  | setRole => exact setRole_effect _ _ _
  | disableUser | revokeUser | reinstateUser => exact setStatus_effect rfl
  | createServiceAccount => exact createServiceAccount_effect _ _ _
  | issueServiceToken => exact issueServiceToken_effect _ _ _ _
  | revokeServiceToken => exact revokeServiceToken_effect _ _
  | eraseUser => exact eraseUser_effect _ _ _

end

inductive Call
  | auth (call : AuthCall)
  | directory (call : DirectoryCall)

def directoryStep (p : Platform) (w : World) (call : ℕ × DirectoryCall) : World := call.2.perform p call.1 w

def step (p : Platform) (w : World) (call : ℕ × Call) : World :=
  match call.2 with
  | .auth c => c.perform p call.1 w
  | .directory c => c.perform p call.1 w

end Noesar.Accounts
