import Noesar.Accounts.Security
import Noesar.Lib.Run

namespace Noesar.Accounts

open Lib World

/-- The calls of the service of the accounts that can change anything. -/
inductive AuthCall
  | seedDefaultOwnerIfNeeded
  | beginSetup (setupTokenDigest : Option String) (suppliedSetupToken username : String) (displayName : Option String)
      (password : String)
  | confirmSetup (challenge totpCode : String)
  | beginLogin (username password ip : String)
  | completeLogin (challenge totpCode ip : String)
  | completeLoginWithPasskey (challenge credentialId response ip rpId origin : String)
  | mintAttachCode (userId sessionId : String)
  | redeemAttachCode (code ip : String)
  | rememberTerminal (userId sessionId : String) (label : Option String)
  | resumeTerminal (token ip : String)
  | revokeRememberedTerminal (userId id : String)
  | forgetTerminalToken (token : String)
  | authenticate (token : Option String)
  | reauthenticate (sessionId password totpCode : String)
  | beginPasskeyRegistration (userId password totpCode : String)
  | confirmPasskeyRegistration (userId challenge credentialId response : String) (name : Option String)
      (rpId origin : String)
  | removePasskey (userId password totpCode credentialId : String)
  | changePassword (userId sessionId currentPassword totpCode newPassword : String) (revokeOthers : Bool)
  | disableMfa (userId password totpCode : String)
  | beginMfaReplacement (userId password totpCode : String)
  | confirmMfaReplacement (userId sessionId challenge firstCode secondCode : String) (revokeOthers : Bool)
  | cancelMfaReplacement (userId : String)
  | regenerateRecoveryCodes (userId password totpCode : String)
  | beginRecovery (username recoveryCode : String) (viaProof : Bool) (ip : String)
  | completeRecovery (challenge password totpCode : String)
  | revokeSession (userId sessionId targetSessionId : String)
  | revokeOtherSessions (userId sessionId : String)
  | logout (sessionId : String)

def AuthCall.perform (p : Platform) (now : ℕ) (w : World) : AuthCall → World
  | .seedDefaultOwnerIfNeeded => w.seedDefaultOwnerIfNeeded p
  | .beginSetup digest token username displayName password =>
    (w.attempt (w.beginSetup p now digest token username displayName password)).1
  | .confirmSetup challenge totpCode => (w.attempt (w.confirmSetup p now challenge totpCode)).1
  | .beginLogin username password ip => (w.beginLogin p now username password ip).1
  | .completeLogin challenge totpCode ip => (w.completeLogin p now challenge totpCode ip).1
  | .completeLoginWithPasskey challenge credentialId response ip rpId origin =>
    (w.completeLoginWithPasskey p now challenge credentialId response ip rpId origin).1
  | .mintAttachCode userId sessionId => (w.attempt (w.mintAttachCode p now userId sessionId)).1
  | .redeemAttachCode code ip => (w.redeemAttachCode p now code ip).1
  | .rememberTerminal userId sessionId label => (w.attempt (w.rememberTerminal p now userId sessionId label)).1
  | .resumeTerminal token ip => (w.resumeTerminal p now token ip).1
  | .revokeRememberedTerminal userId id => (w.attempt (w.revokeRememberedTerminal now userId id)).1
  | .forgetTerminalToken token => w.forgetTerminalToken p now token
  | .authenticate token => (w.authenticate p now token).1
  | .reauthenticate sessionId password totpCode => (w.attempt (w.reauthenticate p now sessionId password totpCode)).1
  | .beginPasskeyRegistration userId password totpCode =>
    (w.attempt (w.beginPasskeyRegistration p now userId password totpCode)).1
  | .confirmPasskeyRegistration userId challenge credentialId response name rpId origin =>
    (w.attempt (w.confirmPasskeyRegistration p now userId challenge credentialId response name rpId origin)).1
  | .removePasskey userId password totpCode credentialId => (w.removePasskey p now userId password totpCode credentialId).1
  | .changePassword userId sessionId currentPassword totpCode newPassword revokeOthers =>
    (w.attempt (w.changePassword p now userId sessionId currentPassword totpCode newPassword revokeOthers)).1
  | .disableMfa userId password totpCode => (w.attempt (w.disableMfa p now userId password totpCode)).1
  | .beginMfaReplacement userId password totpCode => (w.attempt (w.beginMfaReplacement p now userId password totpCode)).1
  | .confirmMfaReplacement userId sessionId challenge firstCode secondCode revokeOthers =>
    (w.attempt (w.confirmMfaReplacement p now userId sessionId challenge firstCode secondCode revokeOthers)).1
  | .cancelMfaReplacement userId => w.cancelMfaReplacement userId
  | .regenerateRecoveryCodes userId password totpCode =>
    (w.attempt (w.regenerateRecoveryCodes p now userId password totpCode)).1
  | .beginRecovery username recoveryCode viaProof ip => (w.beginRecovery p now username recoveryCode viaProof ip).1
  | .completeRecovery challenge password totpCode => (w.attempt (w.completeRecovery p now challenge password totpCode)).1
  | .revokeSession userId sessionId target => (w.attempt (w.revokeSession userId sessionId target)).1
  | .revokeOtherSessions userId sessionId => w.revokeOtherSessions userId sessionId
  | .logout sessionId => w.logout sessionId

def accepted? : Event → Option (String × ℕ)
  | .accepted secret step => some (secret, step)
  | _ => none

def World.acceptedCodes (w : World) : List (String × ℕ) := w.history.filterMap accepted?

def bornOf (invitationId : String) : Event → Bool
  | .created _ origin _ => origin = some invitationId
  | _ => false

def World.births (w : World) (invitationId : String) : ℕ := w.history.countP (bornOf invitationId)

structure Quiet (w w' : World) : Prop where
  state : w'.state = w.state
  drawn : w'.drawn = w.drawn
  accepted : w'.acceptedCodes = w.acceptedCodes
  births : w'.births = w.births
  history : w.history ⊆ w'.history

def KeptSessions (before after : List Session) : Prop :=
  ∀ s ∈ after, ∃ t ∈ before, t.id = s.id ∧ t.tokenDigest = s.tokenDigest ∧ t.userId = s.userId

/-- A change of a record that leaves alone who the account is and what its codes are judged by; what it brings are
values of the generator, of the next `k`. -/
structure Gentle (p : Platform) (w : World) (k : ℕ) (f : User → User) : Prop where
  id : ∀ user, (f user).id = user.id
  username : ∀ user, (f user).username = user.username
  role : ∀ user, (f user).role = user.role
  status : ∀ user, (f user).status = user.status
  totp : ∀ user, (f user).totp = user.totp
  lastTotpStep : ∀ user, (f user).lastTotpStep = user.lastTotpStep
  pendingTotp : ∀ user, (f user).pendingTotp = user.pendingTotp ∨ (f user).pendingTotp = none ∨
    0 < k ∧ ∃ digest expiresAt, (f user).pendingTotp = some ⟨digest, p.createTotpSecret w.drawn, expiresAt⟩
  recoveryCodes : ∀ user, (f user).recoveryCodes = user.recoveryCodes ∨
    10 ≤ k ∧ (f user).recoveryCodes = recoveryDigests p w.drawn

def AuthCall.Registers (call : AuthCall) (userId key : String) : Prop :=
  ∃ challenge response name rpId origin, call = .confirmPasskeyRegistration userId challenge key response name rpId origin

/-- The calls that can change a passkey of an account. -/
def AuthCall.Touches : AuthCall → String → String → Prop
  | .removePasskey user _ _ key, userId, credentialId => user = userId ∧ key = credentialId
  | .completeLoginWithPasskey _ _ _ _ _ _, _, _ => True
  | _, _, _ => False

/-- A change of an account that brings it no passkey but one that the call registers, and takes none from it. -/
structure KeepsKeys (call : AuthCall) (userId : String) (f : User → User) : Prop where
  registered : ∀ user, ∀ key ∈ (f user).passkeys, (∃ old ∈ user.passkeys, old.id = key.id) ∨ call.Registers userId key.id
  found : ∀ user credentialId passkey, ¬call.Touches userId credentialId →
    user.passkeys.find? (·.id = credentialId) = some passkey → (f user).passkeys.find? (·.id = credentialId) = some passkey

def World.slide (w : World) (now : ℕ) (digest : String) : World :=
  w.update fun next ↦ { next with
    terminals := modifyFirst (·.tokenDigest = digest) (fun item ↦ { item with expiresAt := now + terminalIdle })
      next.terminals }

/-- What a call can do: it is refused, or it is one of these. -/
inductive AuthEffect (p : Platform) (now : ℕ) (w : World) (call : AuthCall) : World → Prop
  | refused {w' : World} (hw : Quiet w w') : AuthEffect p now w call w'
  | changed {w' : World} (userId : String) (f : User → User) (k : ℕ) (hf : Gentle p w k f)
      (hw : Quiet ((w.updateUser userId f).draw k) w') (hkeys : KeepsKeys call userId f) : AuthEffect p now w call w'
  | took (userId : String) (user : User) (taken : Taken) (f : User → User) (k : ℕ) (sessions : List Session)
      (hf : Gentle p w k f) (hsessions : KeptSessions w.state.sessions sessions) (huser : w.user userId = some user)
      (hsecret : user.totp = some taken.1) (hstep : user.lastTotpStep.getD 0 < taken.2) (hkeys : KeepsKeys call userId f) :
      AuthEffect p now w call (((w.update fun next ↦ { next with sessions }).take userId taken f).draw k)
  | tookNone (userId : String) (user : User) (f : User → User) (k : ℕ) (sessions : List Session)
      (hf : Gentle p w k f) (hsessions : KeptSessions w.state.sessions sessions) (huser : w.user userId = some user)
      (hsecret : user.totp = none) (hkeys : KeepsKeys call userId f) :
      AuthEffect p now w call (((w.update fun next ↦ { next with sessions }).updateUser userId
        fun target ↦ { f target with lastTotpStep := none }).draw k)
  | sessionsKept (sessions : List Session) (hsessions : KeptSessions w.state.sessions sessions) :
      AuthEffect p now w call (w.update fun next ↦ { next with sessions })
  | seeded (user : User) (password : Option PasswordDescriptor)
      (huser : user = { User.made (p.randomUUID w.drawn) "root" "Owner" .owner none password none with
        mustChangePassword := true }) (hcall : call = .seedDefaultOwnerIfNeeded) :
      AuthEffect p now w call (((w.update fun next ↦ { next with users := [user], initialized := true }).draw 2).note
        [.created user.id none false])
  | setupBegun (pending : PendingOwner) (username displayName : String) (password : Option PasswordDescriptor)
      (huser : pending.user = User.made (p.randomUUID (w.drawn + 2)) username displayName .owner none password
        (some (p.createTotpSecret w.drawn))) :
      AuthEffect p now w call ((w.update fun next ↦ { next with pendingOwner := some pending }).draw 4)
  | setupConfirmed (challenge totpCode : String) (hcall : call = .confirmSetup challenge totpCode)
      (pending : PendingOwner) (secret : String) (step : ℕ) (user : User)
      (hpending : w.state.pendingOwner = some pending) (hsecret : pending.user.totp = some secret)
      (hstep : pending.user.lastTotpStep.getD 0 < step)
      (huser : user = { pending.user with lastTotpStep := some step, recoveryCodes := recoveryDigests p w.drawn }) :
      AuthEffect p now w call (((((w.update fun next ↦ { next with
        users := next.users.filter (·.role ≠ .owner) ++ [user]
        pendingOwner := none
        initialized := true }).draw 10).note [.accepted secret step, .created user.id none true]).createSession p now
          user true).1)
  | loggedIn (w₁ : World) (user : User) (hw : Quiet w w₁) (huser : user ∈ w.state.users) (hactive : isActive user = true)
      (hsecret : user.totp = none) :
      AuthEffect p now w call ((w₁.clearFailedLogins user.id).createSession p now user false).1
  | challenged (w₁ : World) (user : User) (record : LoginChallenge) (hw : Quiet w w₁) (huser : user ∈ w.state.users)
      (hactive : isActive user = true) (hid : record.userId = user.id)
      (hdigest : record.challengeDigest = p.tokenDigest (p.randomToken w.drawn)) :
      AuthEffect p now w call (((w₁.update fun next ↦ { next with
        loginChallenges := next.loginChallenges.filter (fun item ↦ now < item.expiresAt) ++ [record]
        }).clearFailedLogins user.id).draw 2)
  | completed (w₁ : World) (item : LoginChallenge) (user : User) (secret : String) (step : ℕ) (hw : Quiet w w₁)
      (hitem : item ∈ w.state.loginChallenges) (hlive : now ≤ item.expiresAt) (huser : w.user item.userId = some user)
      (hsecret : user.totp = some secret) (hstep : user.lastTotpStep.getD 0 < step) :
      AuthEffect p now w call (((w₁.dropChallenge item.id).take user.id (secret, step) id).createSession p now user true).1
  | completedWithPasskey (item : LoginChallenge) (user : User) (f : User → User) (hf : Gentle p w 0 f)
      (hitem : item ∈ w.state.loginChallenges) (hlive : now ≤ item.expiresAt) (huser : w.user item.userId = some user) (hkeys : KeepsKeys call user.id f) :
      AuthEffect p now w call (((w.dropChallenge item.id).updateUser user.id f).createSession p now user true).1
  | minted (session : Session) (code : AttachCode) (hsession : session ∈ w.state.sessions)
      (hid : code.sessionId = session.id) (huser : code.userId = session.userId) :
      AuthEffect p now w call ((w.update fun next ↦ { next with attachCodes := (next.attachCodes.filter fun item ↦
        now < item.expiresAt && item.sessionId ≠ session.id) ++ [code] }).draw 2)
  | burned {w' : World} (codes : List AttachCode) (hcodes : ∀ code ∈ codes, code ∈ w.state.attachCodes)
      (hw : Quiet (w.update fun next ↦ { next with attachCodes := codes }) w') : AuthEffect p now w call w'
  | redeemed (w₁ : World) (codes : List AttachCode) (hcodes : ∀ code ∈ codes, code ∈ w.state.attachCodes)
      (hw : Quiet (w.update fun next ↦ { next with attachCodes := codes }) w₁) (found : AttachCode) (minting : Session)
      (user : User) (hfound : found ∈ w.state.attachCodes) (hminting : minting ∈ w.state.sessions)
      (hid : minting.id = found.sessionId) (huser : w.user found.userId = some user) (hactive : isActive user = true) :
      AuthEffect p now w call (w₁.createSession p now user true).1
  | remembered (terminal : Terminal) (hdigest : terminal.tokenDigest = p.tokenDigest (p.randomToken w.drawn)) :
      AuthEffect p now w call ((w.update fun next ↦ { next with terminals := (next.terminals.filter fun item ↦
        item.revokedAt.isNone && now < item.expiresAt) ++ [terminal] }).draw 2)
  | slid {w' : World} (digest : String) (found : Terminal)
      (hfound : w.state.terminals.find? (·.tokenDigest = digest) = some found) (hrevoked : found.revokedAt = none)
      (hexpiry : now < found.expiresAt)
      (hw : Quiet (w.slide now digest) w') : AuthEffect p now w call w'
  | resumed (w₁ : World) (digest : String) (found : Terminal) (user : User)
      (hfound : w.state.terminals.find? (·.tokenDigest = digest) = some found) (hrevoked : found.revokedAt = none)
      (hexpiry : now < found.expiresAt)
      (hw : Quiet (w.slide now digest) w₁)
      (huser : w.user found.userId = some user) (hactive : isActive user = true) :
      AuthEffect p now w call (w₁.createSession p now user true).1
  | terminalRevoked (sought : Terminal → Bool) :
      AuthEffect p now w call (w.update fun next ↦ { next with
        terminals := modifyFirst sought (fun item ↦ { item with revokedAt := some now }) next.terminals })
  | mfaDisabled (userId : String) (user : User) (taken : Taken) (huser : w.user userId = some user)
      (hsecret : user.totp = some taken.1) (hstep : user.lastTotpStep.getD 0 < taken.2) :
      AuthEffect p now w call ((w.updateUser userId fun target ↦ { target with
        totp := none
        recoveryCodes := []
        pendingTotp := none }).note [.accepted taken.1 taken.2])
  | mfaConfirmed (userId : String) (user : User) (pending : PendingTotp) (first : ℕ) (sessions : List Session)
      (huser : w.user userId = some user) (hpending : user.pendingTotp = some pending)
      (hsessions : KeptSessions w.state.sessions sessions) :
      AuthEffect p now w call ((((w.update fun next ↦ { next with sessions }).updateUser userId fun target ↦ { target with
        totp := some pending.secret
        lastTotpStep := some (first + 1)
        recoveryCodes := recoveryDigests p w.drawn
        pendingTotp := none }).note [.accepted pending.secret first, .accepted pending.secret (first + 1)]).draw 10)
  | recoveryBegun (w₁ : World) (pending : PendingRecovery) (hw : Quiet w w₁)
      (hsecret : pending.totp = p.createTotpSecret w.drawn) :
      AuthEffect p now w call ((w₁.update fun next ↦ { next with pendingRecovery := some pending }).draw 2)
  | recovered (challenge password totpCode : String) (hcall : call = .completeRecovery challenge password totpCode)
      (pending : PendingRecovery) (user : User) (step : ℕ)
      (hpending : w.state.pendingRecovery = some pending) (huser : w.user pending.userId = some user) (hstep : 0 < step) :
      AuthEffect p now w call (((((w.updateUser pending.userId (w.recovered p pending password step)).update fun next ↦
        { next with pendingRecovery := none, sessions := [] }).note [.accepted pending.totp step]).draw 11).createSession p
          now (w.recovered p pending password step user) true).1

section

variable {p : Platform} {w w' w'' : World} {now : ℕ} {call : AuthCall}

/-! ### Failures are counted -/

@[simp] theorem acceptedCodes_note (es : List Event) :
    (w.note es).acceptedCodes = w.acceptedCodes ++ es.filterMap accepted? := by simp [acceptedCodes, note]

@[simp] theorem births_note (es : List Event) (invitationId : String) :
    (w.note es).births invitationId = w.births invitationId + es.countP (bornOf invitationId) := by simp [births, note]

theorem Quiet.refl (w : World) : Quiet w w := ⟨rfl, rfl, rfl, rfl, List.Subset.refl _⟩

theorem Quiet.trans (h : Quiet w w') (h' : Quiet w' w'') : Quiet w w'' :=
  ⟨h'.state.trans h.state, h'.drawn.trans h.drawn, h'.accepted.trans h.accepted, h'.births.trans h.births,
    List.Subset.trans h.history h'.history⟩

theorem Quiet.rateState (ip username : String) : Quiet w (w.rateState now ip username) :=
  ⟨rfl, rfl, rfl, rfl, List.Subset.refl _⟩

theorem Quiet.noted (es : List Event) (hcodes : es.filterMap accepted? = [])
    (hborn : ∀ invitationId, es.countP (bornOf invitationId) = 0) : Quiet w (w.note es) := by
  refine ⟨rfl, rfl, ?_, ?_, List.subset_append_left _ _⟩
  · rw [acceptedCodes_note, hcodes, List.append_nil]
  · funext invitationId
    rw [births_note, hborn, Nat.add_zero]

theorem Quiet.recordFailure (ip username : String) : Quiet w (w.recordFailure now ip username) := by
  have hcounted := @Quiet.noted w [.failed ip username now] rfl fun _ ↦ rfl
  exact ⟨rfl, rfl, hcounted.accepted, hcounted.births, hcounted.history⟩

theorem Quiet.evaluated (ip username : String) (right : Bool) : Quiet w (w.note [.evaluated ip username now right]) :=
  .noted _ rfl fun _ ↦ rfl

theorem Quiet.updateUser (h : Quiet w w') (id : String) (f : User → User) :
    Quiet (w.updateUser id f) (w'.updateUser id f) := by
  refine ⟨?_, h.drawn, h.accepted, h.births, h.history⟩
  simp only [World.updateUser, update, h.state]

theorem Quiet.update (h : Quiet w w') (f : AuthState → AuthState) : Quiet (w.update f) (w'.update f) := by
  refine ⟨?_, h.drawn, h.accepted, h.births, h.history⟩
  simp only [World.update, h.state]

/-! ### What a code is taken for -/

variable {code : String} {user : User} {f : User → User} {userId : String}

theorem consumeTotp_accepted {secret : String} {mark : Option ℕ} {step : ℕ}
    (h : consumeTotp p secret code now mark = .ok (.accepted step)) : mark.getD 0 < step := by
  obtain ⟨result, _, hresult⟩ := map_ok.mp h
  cases result with
  | none => cases hresult
  | some =>
    simp only at hresult
    split at hresult
    · cases hresult
    · cases hresult
      omega

theorem assertPresence_ok {password : String} {replayed wrong : Refusal} {taken : Taken}
    (h : assertPresence p now user password code replayed wrong = .ok taken) :
    user.totp = some taken.1 ∧ user.lastTotpStep.getD 0 < taken.2 := by
  simp only [assertPresence, decryptSecret, bind_ok, demand_ok] at h
  obtain ⟨secret, hsecret, consumed, hconsumed, h⟩ := h
  cases consumed with
  | invalid | replayed => cases h
  | accepted =>
    simp only [bind_ok, exists_unit, require_ok] at h
    obtain ⟨_, h⟩ := h
    cases h
    exact ⟨hsecret, consumeTotp_accepted hconsumed⟩

theorem presentOr_ok {password : String} {taken : Option Taken} (h : presentOr p now user password code = .ok taken) :
    (taken = none ∧ user.totp = none) ∨
      ∃ t, taken = some t ∧ user.totp = some t.1 ∧ user.lastTotpStep.getD 0 < t.2 := by
  unfold presentOr at h
  split at h
  · obtain ⟨t, ht, rfl⟩ := map_ok.mp h
    exact .inr ⟨t, rfl, assertPresence_ok ht⟩
  · rename_i hnone
    simp only [bind_ok, exists_unit, require_ok] at h
    obtain ⟨_, h⟩ := h
    cases h
    exact .inl ⟨rfl, hnone⟩

/-! ### Sessions -/

theorem KeptSessions.refl (sessions : List Session) : KeptSessions sessions sessions := fun s hs ↦ ⟨s, hs, rfl, rfl, rfl⟩

theorem KeptSessions.filter (keep : Session → Bool) (sessions : List Session) :
    KeptSessions sessions (sessions.filter keep) := fun s hs ↦ ⟨s, (List.mem_filter.mp hs).1, rfl, rfl, rfl⟩

theorem KeptSessions.modifyFirst (sought : Session → Bool) {f : Session → Session}
    (hf : ∀ s, (f s).id = s.id ∧ (f s).tokenDigest = s.tokenDigest ∧ (f s).userId = s.userId) (sessions : List Session) :
    KeptSessions sessions (Lib.modifyFirst sought f sessions) := by
  intro s hs
  rcases mem_modifyFirst hs with hs | ⟨t, hfind, rfl⟩
  · exact ⟨s, hs, rfl, rfl, rfl⟩
  · obtain ⟨hid, hdigest, huser⟩ := hf t
    exact ⟨t, List.mem_of_find?_eq_some hfind, hid.symm, hdigest.symm, huser.symm⟩

theorem attempt_effect {α : Type} {x : Except Refusal (World × α)}
    (h : ∀ w' a, x = .ok (w', a) → AuthEffect p now w call w') : AuthEffect p now w call (w.attempt x).1 := by
  cases hx : x with
  | error => exact .refused (.refl w)
  | ok r => exact h r.1 r.2 hx

theorem Gentle.of_kept {k : ℕ} (h : ∀ user, f user = { f user with
      id := user.id
      username := user.username
      role := user.role
      status := user.status
      totp := user.totp
      lastTotpStep := user.lastTotpStep
      pendingTotp := user.pendingTotp
      recoveryCodes := user.recoveryCodes }) : Gentle p w k f where
  id user := by rw [h]
  username user := by rw [h]
  role user := by rw [h]
  status user := by rw [h]
  totp user := by rw [h]
  lastTotpStep user := by rw [h]
  pendingTotp user := .inl (by rw [h])
  recoveryCodes user := .inl (by rw [h])

theorem KeepsKeys.congr {g : User → User} (h : KeepsKeys call userId f)
    (hsame : ∀ user, (g user).passkeys = (f user).passkeys) : KeepsKeys call userId g where
  registered user key hkey := h.registered user key (hsame user ▸ hkey)
  found user credentialId passkey hcall hfind := by
    rw [hsame]
    exact h.found user credentialId passkey hcall hfind

theorem KeepsKeys.of_same (h : ∀ user, (f user).passkeys = user.passkeys) :
    KeepsKeys call userId f :=
  KeepsKeys.congr ⟨fun _ key hkey ↦ .inl ⟨key, hkey, rfl⟩, fun _ _ _ _ hfind ↦ hfind⟩ h

/-! ### The first owner -/

theorem seedDefaultOwnerIfNeeded_effect :
    AuthEffect p now w .seedDefaultOwnerIfNeeded (w.seedDefaultOwnerIfNeeded p) := by
  unfold seedDefaultOwnerIfNeeded
  split
  · exact .refused (.refl w)
  · exact .seeded _ _ rfl rfl

theorem beginSetup_effect (digest : Option String) (token username : String) (displayName : Option String)
    (password : String) :
    AuthEffect p now w call (w.attempt (w.beginSetup p now digest token username displayName password)).1 := by
  apply attempt_effect
  intro w' a h
  simp only [beginSetup, bind_ok, demand_ok, exists_unit, require_ok] at h
  obtain ⟨_, _, _, _, _, normalized, _, h⟩ := h
  cases h
  exact .setupBegun _ _ _ _ rfl

theorem confirmSetup_effect (challenge totpCode : String) :
    AuthEffect p now w (.confirmSetup challenge totpCode) (w.attempt (w.confirmSetup p now challenge totpCode)).1 := by
  apply attempt_effect
  intro w' a h
  simp only [confirmSetup, decryptSecret, bind_ok, demand_ok, exists_unit, require_ok, Option.filter_eq_some_iff] at h
  obtain ⟨pending, ⟨hpending, _⟩, _, secret, hsecret, consumed, hconsumed, h⟩ := h
  cases consumed with
  | invalid | replayed => cases h
  | accepted step =>
    cases h
    exact .setupConfirmed challenge totpCode rfl pending secret step _ hpending hsecret (consumeTotp_accepted hconsumed) rfl

/-! ### Login -/

theorem countFailedLogin_gentle : Gentle p w 0 fun target ↦ { target with
    failedLoginCount := target.failedLoginCount + 1
    lockedUntil := if 5 ≤ target.failedLoginCount + 1 then now + 5 * 60000 else target.lockedUntil } :=
  .of_kept fun _ ↦ rfl

theorem beginLogin_effect (username password ip : String) :
    AuthEffect p now w call (w.beginLogin p now username password ip).1 := by
  unfold beginLogin
  cases normalizeUsername p username with
  | error => exact .refused (.recordFailure _ _)
  | ok normalized =>
    have hpruned : Quiet w (w.rateState now ip normalized) := .rateState ip normalized
    have hfailed : Quiet w ((w.rateState now ip normalized).recordFailure now ip normalized) :=
      hpruned.trans (.recordFailure ip normalized)
    dsimp only
    split
    · exact .refused hpruned
    · split
      · exact .refused hpruned
      · split
        · exact .refused hfailed
        · rename_i user hfind
          have huser : user ∈ w.state.users := List.mem_of_find?_eq_some hfind
          split
          · exact .refused hfailed
          · rename_i hallowed
            have hactive : isActive user = true := by
              cases hcase : isActive user with
              | true => rfl
              | false => simp [hcase] at hallowed
            split
            · exact .changed user.id _ 0 countFailedLogin_gentle (hfailed.updateUser user.id _) (.of_same fun _ ↦ rfl)
            · have hevaluated : Quiet w ((w.rateState now ip normalized).note
                  [.evaluated ip normalized now (verifyPassword p password user.password)]) :=
                hpruned.trans (.evaluated ip normalized _)
              split
              · exact .changed user.id _ 0 countFailedLogin_gentle
                  ((hevaluated.trans (.recordFailure ip normalized)).updateUser user.id _) (.of_same fun _ ↦ rfl)
              · unfold passwordVerified
                split
                · rename_i hsecret
                  exact .loggedIn _ user hevaluated huser hactive hsecret
                · exact .challenged _ user _ hevaluated huser hactive rfl rfl

theorem loginChallenge_ok {challenge ip : String} {item : LoginChallenge} (h : w.loginChallenge p now challenge ip = .ok item) :
    w.state.loginChallenges.find? (·.challengeDigest = p.tokenDigest challenge) = some item ∧ now ≤ item.expiresAt ∧
      item.ip = ip := by
  simp only [loginChallenge, bind_ok, demand_ok, exists_unit, require_ok] at h
  obtain ⟨found, hfound, hlive, h⟩ := h
  cases h
  exact ⟨hfound, hlive⟩

theorem awaitingCode_ok {challenge ip secret : String} {item : LoginChallenge}
    (h : w.awaitingCode p now challenge ip = .ok (item, user, secret)) :
    w.loginChallenge p now challenge ip = .ok item ∧ w.user item.userId = some user ∧ user.totp = some secret := by
  simp only [awaitingCode, challengedUser, bind_ok, demand_ok] at h
  obtain ⟨found, hfound, account, haccount, text, htext, h⟩ := h
  cases h
  exact ⟨hfound, haccount, htext⟩

theorem completeLogin_effect (challenge totpCode ip : String) :
    AuthEffect p now w call (w.completeLogin p now challenge totpCode ip).1 := by
  unfold completeLogin
  split
  · exact .refused (.refl w)
  · rename_i item user secret hawaiting
    have hwrong : Quiet w ((w.note [.evaluated ip user.username now false]).recordFailure now ip user.username) :=
      (Quiet.evaluated ip user.username false).trans (.recordFailure ip user.username)
    split
    · exact .refused (.refl w)
    · exact .refused hwrong
    · exact .refused hwrong
    · rename_i step hconsumed
      obtain ⟨hitem, huser, hsecret⟩ := awaitingCode_ok hawaiting
      obtain ⟨hfind, hlive, _⟩ := loginChallenge_ok hitem
      exact .completed _ item user secret step (.evaluated ip user.username true) (List.mem_of_find?_eq_some hfind) hlive
        huser hsecret (consumeTotp_accepted hconsumed)

theorem completeLoginWithPasskey_effect (challenge credentialId response ip rpId origin : String) :
    AuthEffect p now w (.completeLoginWithPasskey challenge credentialId response ip rpId origin)
      (w.completeLoginWithPasskey p now challenge credentialId response ip rpId origin).1 := by
  unfold completeLoginWithPasskey
  split
  · exact .refused (.refl w)
  · rename_i item user hfound
    split
    · exact .refused (.recordFailure ip user.username)
    · split
      · exact .refused (.recordFailure ip user.username)
      · simp only [challengedUser, bind_ok, demand_ok] at hfound
        obtain ⟨challenged, hitem, account, huser, h⟩ := hfound
        cases h
        obtain ⟨hfind, hlive, _⟩ := loginChallenge_ok hitem
        refine .completedWithPasskey item user _ ?_ (List.mem_of_find?_eq_some hfind) hlive huser
          ⟨fun target key hkey ↦ ?_, fun _ _ _ hcall ↦ absurd trivial hcall⟩
        · exact .of_kept fun _ ↦ rfl
        · rcases mem_modifyFirst hkey with hold | ⟨old, hold, rfl⟩
          · exact .inl ⟨key, hold, rfl⟩
          · exact .inl ⟨old, List.mem_of_find?_eq_some hold, rfl⟩

/-! ### Attach codes and terminals -/

theorem vouching_ok {sessionId : String} {gone weak : Refusal} {session : Session}
    (h : w.vouching now userId sessionId gone weak = .ok (session, user)) :
    w.state.sessions.find? (·.id = sessionId) = some session ∧ session.userId = userId ∧ w.user userId = some user ∧
      isActive user = true := by
  simp only [vouching, bind_ok, demand_ok, exists_unit, require_ok] at h
  obtain ⟨found, hfound, ⟨_, hmine⟩, _, account, haccount, hactive, h⟩ := h
  cases h
  exact ⟨hfound, hmine, haccount, hactive⟩

theorem mintAttachCode_effect (userId sessionId : String) :
    AuthEffect p now w call (w.attempt (w.mintAttachCode p now userId sessionId)).1 := by
  apply attempt_effect
  intro w' a h
  simp only [mintAttachCode, bind_ok] at h
  obtain ⟨⟨session, user⟩, hvouching, h⟩ := h
  cases h
  obtain ⟨hfind, hmine, _⟩ := vouching_ok hvouching
  have hid : session.id = sessionId := by simpa using List.find?_some hfind
  have heffect := @AuthEffect.minted p now w call session ⟨p.randomUUID (w.drawn + 1),
    p.tokenDigest (p.attachCode w.drawn), userId, sessionId, now + attachCodeTtl⟩ (List.mem_of_find?_eq_some hfind)
      hid.symm hmine.symm
  rw [hid] at heffect
  exact heffect

theorem redeemAttachCode_effect (code ip : String) : AuthEffect p now w call (w.redeemAttachCode p now code ip).1 := by
  unfold redeemAttachCode
  dsimp only
  split
  · exact .refused (.rateState ip attachLimit)
  · have hcodes : ∀ item ∈ (w.state.attachCodes.filter fun item ↦ now < item.expiresAt).eraseP
        (·.codeDigest = p.tokenDigest (normalizeAttachCode p code)), item ∈ w.state.attachCodes := by
      intro item hitem
      exact (List.mem_filter.mp (List.mem_of_mem_eraseP hitem)).1
    have hburned := Quiet.update (@Quiet.rateState w now ip attachLimit) fun next ↦ { next with
      attachCodes := (w.state.attachCodes.filter fun item ↦ now < item.expiresAt).eraseP
        (·.codeDigest = p.tokenDigest (normalizeAttachCode p code)) }
    split
    · exact .burned _ hcodes (hburned.trans (.recordFailure ip attachLimit))
    · rename_i found hfound
      split
      · exact .burned _ hcodes hburned
      · rename_i minting hminting
        split
        · exact .burned _ hcodes hburned
        · split
          · exact .burned _ hcodes hburned
          · rename_i user huser
            split
            · exact .burned _ hcodes hburned
            · rename_i hactive
              exact .redeemed _ _ hcodes hburned found minting user
                (List.mem_filter.mp (List.mem_of_find?_eq_some hfound)).1 (List.mem_of_find?_eq_some hminting)
                (by simpa using List.find?_some hminting) huser (by simpa using hactive)

theorem rememberTerminal_effect (userId sessionId : String) (label : Option String) :
    AuthEffect p now w call (w.attempt (w.rememberTerminal p now userId sessionId label)).1 := by
  apply attempt_effect
  intro w' a h
  simp only [rememberTerminal, bind_ok] at h
  obtain ⟨_, _, h⟩ := h
  cases h
  exact .remembered _ rfl

theorem resumeTerminal_effect (token ip : String) : AuthEffect p now w call (w.resumeTerminal p now token ip).1 := by
  unfold resumeTerminal
  dsimp only
  split
  · exact .refused (.rateState ip terminalLimit)
  · have hfailed : Quiet w ((w.rateState now ip terminalLimit).recordFailure now ip terminalLimit) :=
      (Quiet.rateState ip terminalLimit).trans (.recordFailure ip terminalLimit)
    split
    · exact .refused hfailed
    · rename_i found hfound
      split
      · exact .refused hfailed
      · rename_i hlive
        have hrevoked : found.revokedAt = none := by
          cases hcase : found.revokedAt with
          | none => rfl
          | some => simp [hcase] at hlive
        have hexpiry : now < found.expiresAt := by
          simp only [Bool.or_eq_true, decide_eq_true_eq, not_or] at hlive
          omega
        have hslid : Quiet (w.slide now (p.tokenDigest token)) ((w.rateState now ip terminalLimit).slide now
            (p.tokenDigest token)) := (Quiet.rateState ip terminalLimit).update _
        split
        · exact .slid _ found hfound hrevoked hexpiry (hslid.trans (.recordFailure ip terminalLimit))
        · rename_i user huser
          split
          · exact .slid _ found hfound hrevoked hexpiry (hslid.trans (.recordFailure ip terminalLimit))
          · rename_i hactive
            exact .resumed _ _ found user hfound hrevoked hexpiry hslid huser (by simpa using hactive)

theorem revokeRememberedTerminal_effect (userId id : String) :
    AuthEffect p now w call (w.attempt (w.revokeRememberedTerminal now userId id)).1 := by
  apply attempt_effect
  intro w' a h
  simp only [revokeRememberedTerminal, bind_ok] at h
  obtain ⟨_, _, h⟩ := h
  cases h
  exact .terminalRevoked _

/-! ### Sessions -/

theorem authenticate_effect (token : Option String) : AuthEffect p now w call (w.authenticate p now token).1 := by
  unfold authenticate
  split
  · exact .refused (.refl w)
  · split
    · exact .refused (.refl w)
    · split
      · exact .refused (.refl w)
      · split
        · exact .refused (.refl w)
        · split
          · exact .refused (.refl w)
          · refine .sessionsKept _ (.modifyFirst _ ?_ _)
            intro s
            exact ⟨rfl, rfl, rfl⟩

theorem revokeSession_effect (userId sessionId target : String) :
    AuthEffect p now w call (w.attempt (w.revokeSession userId sessionId target)).1 := by
  apply attempt_effect
  intro w' a h
  simp only [revokeSession, bind_ok, exists_unit, require_ok] at h
  obtain ⟨_, _, h⟩ := h
  cases h
  exact .sessionsKept _ (.filter _ _)

/-! ### What presence is proved for -/

theorem reauthenticate_effect (sessionId password totpCode : String) :
    AuthEffect p now w call (w.attempt (w.reauthenticate p now sessionId password totpCode)).1 := by
  apply attempt_effect
  intro w' a h
  simp only [reauthenticate, bind_ok, demand_ok, exists_unit, require_ok] at h
  obtain ⟨session, _, user, huser, _, taken, htaken, h⟩ := h
  cases h
  obtain ⟨hsecret, hstep⟩ := assertPresence_ok htaken
  have hid : user.id = session.userId := by simpa using List.find?_some huser
  rw [← hid] at huser
  refine .took user.id user taken id 0 _ (.of_kept fun _ ↦ rfl) (.modifyFirst _ ?_ _) huser hsecret hstep
    (.of_same fun _ ↦ rfl)
  intro s
  exact ⟨rfl, rfl, rfl⟩

theorem beginPasskeyRegistration_effect (userId password totpCode : String) :
    AuthEffect p now w call (w.attempt (w.beginPasskeyRegistration p now userId password totpCode)).1 := by
  apply attempt_effect
  intro w' a h
  simp only [beginPasskeyRegistration, requireUser, present, bind_ok, demand_ok] at h
  obtain ⟨user, huser, taken, htaken, h⟩ := h
  cases h
  obtain ⟨hsecret, hstep⟩ := assertPresence_ok htaken
  refine .took userId user taken _ 1 _ ?_ (.refl _) huser hsecret hstep (.of_same fun _ ↦ rfl)
  exact .of_kept fun _ ↦ rfl

theorem confirmPasskeyRegistration_effect (userId challenge credentialId response : String) (name : Option String)
    (rpId origin : String) : AuthEffect p now w
      (.confirmPasskeyRegistration userId challenge credentialId response name rpId origin) (w.attempt
        (w.confirmPasskeyRegistration p now userId challenge credentialId response name rpId origin)).1 := by
  apply attempt_effect
  intro w' a h
  simp only [confirmPasskeyRegistration, requireUser, bind_ok, demand_ok, exists_unit, require_ok] at h
  obtain ⟨user, _, pending, _, _, verified, _, hid, _, h⟩ := h
  cases h
  refine .changed userId _ 0 ?_ (.refl _) ⟨fun target key hkey ↦ ?_, fun target key passkey _ hfind ↦ ?_⟩
  · exact .of_kept fun _ ↦ rfl
  · rcases List.mem_append.mp hkey with hold | hnew
    · exact .inl ⟨key, hold, rfl⟩
    · rw [List.mem_singleton.mp hnew]
      exact .inr ⟨challenge, response, name, rpId, origin, by rw [hid]⟩
  · rw [List.find?_append, hfind, Option.some_or]

theorem removePasskey_effect (userId password totpCode credentialId : String) :
    AuthEffect p now w (.removePasskey userId password totpCode credentialId)
      (w.removePasskey p now userId password totpCode credentialId).1 := by
  unfold removePasskey
  split
  · exact .refused (.refl w)
  · rename_i user taken h
    simp only [requireUser, present, bind_ok, demand_ok] at h
    obtain ⟨account, huser, t, htaken, h⟩ := h
    cases h
    obtain ⟨hsecret, hstep⟩ := assertPresence_ok htaken
    refine .took userId user taken _ 0 _ ?_ (.refl _) huser hsecret hstep
      ⟨fun target key hkey ↦ .inl ⟨key, List.mem_of_mem_filter hkey, rfl⟩, fun target key passkey hcall hfind ↦ ?_⟩
    · exact .of_kept fun _ ↦ rfl
    · rw [List.find?_filter, ← hfind]
      congr 1
      funext item
      by_cases hitem : item.id = key
      · have hother : key ≠ credentialId := fun hkey ↦ hcall ⟨rfl, hkey.symm⟩
        simp [hitem, hother]
      · simp [hitem]

theorem takeOr_effect {userId : String} {user : User} {taken : Option Taken} {password code : String}
    (huser : w.user userId = some user) (htaken : presentOr p now user password code = .ok taken) (f : User → User) (k : ℕ)
    (hf : Gentle p w k f) (hkeys : KeepsKeys call userId f) (sessions : List Session)
    (hsessions : KeptSessions w.state.sessions sessions) :
    AuthEffect p now w call (((w.update fun next ↦ { next with sessions }).takeOr userId taken f).draw k) := by
  rcases presentOr_ok htaken with ⟨rfl, hsecret⟩ | ⟨t, rfl, hsecret, hstep⟩
  · exact .tookNone userId user f k sessions hf hsessions huser hsecret hkeys
  · exact .took userId user t f k sessions hf hsessions huser hsecret hstep hkeys

theorem changePassword_effect (userId sessionId currentPassword totpCode newPassword : String) (revokeOthers : Bool) :
    AuthEffect p now w call (w.attempt
      (w.changePassword p now userId sessionId currentPassword totpCode newPassword revokeOthers)).1 := by
  apply attempt_effect
  intro w' a h
  simp only [changePassword, requireUser, bind_ok, demand_ok, exists_unit, require_ok] at h
  obtain ⟨user, huser, _, _, taken, htaken, h⟩ := h
  cases h
  let f : User → User := fun target ↦ { target with
    password := some (hashPassword p w.drawn newPassword)
    failedLoginCount := 0
    lockedUntil := 0
    mustChangePassword := false }
  have hf : Gentle p w 1 f := .of_kept fun _ ↦ rfl
  cases revokeOthers with
  | true =>
    have heffect := @takeOr_effect p w now call _ _ _ _ _ huser htaken f 1 hf (.of_same fun _ ↦ rfl)
      (otherSessions userId sessionId w.state.sessions) (.filter _ _)
    cases taken with
    | none | some => exact heffect
  | false =>
    have heffect := @takeOr_effect p w now call _ _ _ _ _ huser htaken f 1 hf (.of_same fun _ ↦ rfl)
      w.state.sessions (.refl _)
    cases taken with
    | none | some => exact heffect

theorem beginMfaReplacement_effect (userId password totpCode : String) :
    AuthEffect p now w call (w.attempt (w.beginMfaReplacement p now userId password totpCode)).1 := by
  apply attempt_effect
  intro w' a h
  simp only [beginMfaReplacement, requireUser, bind_ok, demand_ok] at h
  obtain ⟨user, huser, taken, htaken, h⟩ := h
  cases h
  refine takeOr_effect huser htaken _ 2 ?_ ?_ w.state.sessions (.refl _)
  · exact ⟨fun _ ↦ rfl, fun _ ↦ rfl, fun _ ↦ rfl, fun _ ↦ rfl, fun _ ↦ rfl, fun _ ↦ rfl,
      fun _ ↦ .inr (.inr ⟨by decide, _, _, rfl⟩), fun _ ↦ .inl rfl⟩
  · exact .of_same fun _ ↦ rfl

theorem disableMfa_effect (userId password totpCode : String) :
    AuthEffect p now w call (w.attempt (w.disableMfa p now userId password totpCode)).1 := by
  apply attempt_effect
  intro w' a h
  simp only [disableMfa, requireUser, bind_ok, demand_ok] at h
  obtain ⟨user, huser, h⟩ := h
  split at h
  · cases h
    exact .refused (.refl w)
  · simp only [bind_ok] at h
    obtain ⟨taken, htaken, h⟩ := h
    cases h
    obtain ⟨hsecret, hstep⟩ := assertPresence_ok htaken
    exact .mfaDisabled userId user taken huser hsecret hstep

theorem confirmMfaReplacement_effect (userId sessionId challenge firstCode secondCode : String) (revokeOthers : Bool) :
    AuthEffect p now w call (w.attempt
      (w.confirmMfaReplacement p now userId sessionId challenge firstCode secondCode revokeOthers)).1 := by
  apply attempt_effect
  intro w' a h
  simp only [confirmMfaReplacement, requireUser, bind_ok, demand_ok, exists_unit, require_ok] at h
  obtain ⟨user, huser, pending, hpending, _, _, _, _, _, _, first, _, second, _, hsecond, h⟩ := h
  subst hsecond
  cases h
  cases revokeOthers with
  | true =>
    exact .mfaConfirmed userId user pending first (otherSessions userId sessionId w.state.sessions) huser hpending
      (.filter _ _)
  | false => exact .mfaConfirmed userId user pending first w.state.sessions huser hpending (.refl _)

theorem cancelMfaReplacement_effect (userId : String) : AuthEffect p now w call (w.cancelMfaReplacement userId) := by
  refine .changed userId _ 0 ?_ (.refl _) (.of_same fun _ ↦ rfl)
  exact ⟨fun _ ↦ rfl, fun _ ↦ rfl, fun _ ↦ rfl, fun _ ↦ rfl, fun _ ↦ rfl, fun _ ↦ rfl, fun _ ↦ .inr (.inl rfl),
    fun _ ↦ .inl rfl⟩

theorem regenerateRecoveryCodes_effect (userId password totpCode : String) :
    AuthEffect p now w call (w.attempt (w.regenerateRecoveryCodes p now userId password totpCode)).1 := by
  apply attempt_effect
  intro w' a h
  simp only [regenerateRecoveryCodes, requireUser, present, bind_ok, demand_ok] at h
  obtain ⟨user, huser, taken, htaken, h⟩ := h
  cases h
  obtain ⟨hsecret, hstep⟩ := assertPresence_ok htaken
  refine .took userId user taken _ 10 _ ?_ (.refl _) huser hsecret hstep (.of_same fun _ ↦ rfl)
  exact ⟨fun _ ↦ rfl, fun _ ↦ rfl, fun _ ↦ rfl, fun _ ↦ rfl, fun _ ↦ rfl, fun _ ↦ rfl, fun _ ↦ .inl rfl,
    fun _ ↦ .inr ⟨le_rfl, rfl⟩⟩

/-! ### Recovery -/

theorem beginRecovery_effect (username recoveryCode : String) (viaProof : Bool) (ip : String) :
    AuthEffect p now w call (w.beginRecovery p now username recoveryCode viaProof ip).1 := by
  unfold beginRecovery
  dsimp only
  have hpruned := @Quiet.rateState w now ip
    (recoveryLimit ((normalizeUsername p username).toOption.getD ""))
  split
  · exact .refused hpruned
  · split
    · exact .refused (hpruned.trans (.recordFailure _ _))
    · split
      · exact .refused (hpruned.trans (.recordFailure _ _))
      · exact .recoveryBegun _ _ hpruned rfl

theorem completeRecovery_effect (challenge password totpCode : String) :
    AuthEffect p now w (.completeRecovery challenge password totpCode) (w.attempt (w.completeRecovery p now challenge password totpCode)).1 := by
  apply attempt_effect
  intro w' a h
  simp only [completeRecovery, bind_ok, demand_ok, exists_unit, require_ok, Option.filter_eq_some_iff] at h
  obtain ⟨pending, ⟨hpending, _⟩, _, user, huser, _, consumed, hconsumed, h⟩ := h
  cases consumed with
  | invalid | replayed => cases h
  | accepted step =>
    cases h
    exact .recovered challenge password totpCode rfl pending user step hpending huser (consumeTotp_accepted hconsumed)

theorem perform_effect (p : Platform) (now : ℕ) (w : World) (call : AuthCall) :
    AuthEffect p now w call (call.perform p now w) := by
  cases call with
  | seedDefaultOwnerIfNeeded => exact seedDefaultOwnerIfNeeded_effect
  | beginSetup => exact beginSetup_effect _ _ _ _ _
  | confirmSetup => exact confirmSetup_effect _ _
  | beginLogin => exact beginLogin_effect _ _ _
  | completeLogin => exact completeLogin_effect _ _ _
  | completeLoginWithPasskey => exact completeLoginWithPasskey_effect _ _ _ _ _ _
  | mintAttachCode => exact mintAttachCode_effect _ _
  | redeemAttachCode => exact redeemAttachCode_effect _ _
  | rememberTerminal => exact rememberTerminal_effect _ _ _
  | resumeTerminal => exact resumeTerminal_effect _ _
  | revokeRememberedTerminal => exact revokeRememberedTerminal_effect _ _
  | forgetTerminalToken => exact .terminalRevoked _
  | authenticate => exact authenticate_effect _
  | reauthenticate => exact reauthenticate_effect _ _ _
  | beginPasskeyRegistration => exact beginPasskeyRegistration_effect _ _ _
  | confirmPasskeyRegistration => exact confirmPasskeyRegistration_effect _ _ _ _ _ _ _
  | removePasskey => exact removePasskey_effect _ _ _ _
  | changePassword => exact changePassword_effect _ _ _ _ _ _
  | disableMfa => exact disableMfa_effect _ _ _
  | beginMfaReplacement => exact beginMfaReplacement_effect _ _ _
  | confirmMfaReplacement => exact confirmMfaReplacement_effect _ _ _ _ _ _
  | cancelMfaReplacement => exact cancelMfaReplacement_effect _
  | regenerateRecoveryCodes => exact regenerateRecoveryCodes_effect _ _ _
  | beginRecovery => exact beginRecovery_effect _ _ _ _
  | completeRecovery => exact completeRecovery_effect _ _ _
  | revokeSession => exact revokeSession_effect _ _ _
  | revokeOtherSessions | logout => exact .sessionsKept _ (.filter _ _)

/-! ### What the service leaves to the directory -/

/-- The service of the accounts does not touch what the directory keeps for itself. -/
structure Apart (w w' : World) : Prop where
  invitations : w'.state.invitations = w.state.invitations
  pendingInvitees : w'.state.pendingInvitees = w.state.pendingInvitees
  births : w'.births = w.births
  history : w.history ⊆ w'.history

theorem Apart.of_quiet {w₁ : World} (h : Quiet w₁ w') (hinvitations : w₁.state.invitations = w.state.invitations)
    (hpending : w₁.state.pendingInvitees = w.state.pendingInvitees) (hhistory : w₁.history = w.history) : Apart w w' := by
  refine ⟨?_, ?_, ?_, ?_⟩
  · rw [h.state, hinvitations]
  · rw [h.state, hpending]
  · rw [h.births]
    unfold World.births
    rw [hhistory]
  · rw [← hhistory]
    exact h.history

theorem Apart.trans (h : Apart w w') (h' : Apart w' w'') : Apart w w'' :=
  ⟨h'.invitations.trans h.invitations, h'.pendingInvitees.trans h.pendingInvitees, h'.births.trans h.births,
    List.Subset.trans h.history h'.history⟩

theorem Apart.of_same (hinvitations : w'.state.invitations = w.state.invitations)
    (hpending : w'.state.pendingInvitees = w.state.pendingInvitees) (es : List Event) (hhistory : w'.history = w.history ++ es)
    (hborn : ∀ invitationId, es.countP (bornOf invitationId) = 0) : Apart w w' := by
  refine ⟨hinvitations, hpending, ?_, hhistory ▸ List.subset_append_left _ _⟩
  funext invitationId
  simp only [World.births, hhistory, List.countP_append, hborn, Nat.add_zero]

theorem AuthEffect.apart (h : AuthEffect p now w call w') : Apart w w' := by
  have hsame {w w₁ : World} (hinvitations : w₁.state.invitations = w.state.invitations)
      (hpending : w₁.state.pendingInvitees = w.state.pendingInvitees) (hhistory : w₁.history = w.history) : Apart w w₁ :=
    .of_same hinvitations hpending [] (by rw [hhistory, List.append_nil]) fun _ ↦ rfl
  cases h with
  | refused hw | changed userId f k hf hw => exact .of_quiet hw rfl rfl rfl
  | took => exact .of_same rfl rfl _ rfl fun _ ↦ rfl
  | tookNone | sessionsKept => exact hsame rfl rfl rfl
  | seeded => exact .of_same rfl rfl _ rfl fun _ ↦ rfl
  | setupBegun => exact hsame rfl rfl rfl
  | setupConfirmed => exact .of_same rfl rfl _ rfl fun _ ↦ rfl
  | loggedIn w₁ user hw | challenged w₁ user record hw =>
    exact (Apart.of_quiet hw rfl rfl rfl).trans (hsame rfl rfl rfl)
  | completed w₁ item user secret step hw =>
    exact (Apart.of_quiet hw rfl rfl rfl).trans (.of_same rfl rfl [.accepted secret step] rfl fun _ ↦ rfl)
  | completedWithPasskey | minted => exact hsame rfl rfl rfl
  | burned codes hcodes hw => exact .of_quiet hw rfl rfl rfl
  | redeemed w₁ codes hcodes hw =>
    have hburned : Apart w w₁ := .of_quiet hw rfl rfl rfl
    exact hburned.trans (hsame rfl rfl rfl)
  | remembered => exact hsame rfl rfl rfl
  | slid digest found hfound hrevoked hexpiry hw => exact .of_quiet hw rfl rfl rfl
  | resumed w₁ digest found user hfound hrevoked hexpiry hw =>
    have hslid : Apart w w₁ := .of_quiet hw rfl rfl rfl
    exact hslid.trans (hsame rfl rfl rfl)
  | terminalRevoked => exact hsame rfl rfl rfl
  | mfaDisabled | mfaConfirmed => exact .of_same rfl rfl _ rfl fun _ ↦ rfl
  | recoveryBegun w₁ pending hw => exact (Apart.of_quiet hw rfl rfl rfl).trans (hsame rfl rfl rfl)
  | recovered => exact .of_same rfl rfl _ rfl fun _ ↦ rfl

/-! ### Who the accounts are -/

def who (user : User) : String × String × Role × Option Status := (user.id, user.username, user.role, user.status)

theorem Gentle.who {k : ℕ} (h : Gentle p w k f) (user : User) : who (f user) = who user := by
  simp only [Accounts.who, h.id, h.username, h.role, h.status]

/-- The accounts are the same, or there is the first owner, or an owner in the place of the owners. -/
inductive AccountsFrom (w : World) (users : List User) : Prop
  | same (h : users.map who = w.state.users.map who)
  | first (user : User) (hrole : user.role = .owner) (hstatus : user.status = none) (h : users = [user])
  | owner (pending : PendingOwner) (user : User) (hpending : w.state.pendingOwner = some pending)
      (hwho : who user = who pending.user) (h : users = w.state.users.filter (·.role ≠ .owner) ++ [user])

/-- The record of an owner that no one has used yet. -/
structure FirstOwner (user : User) : Prop where
  role : user.role = .owner
  status : user.status = none
  passkeys : user.passkeys = []
  codes : user.recoveryCodes = []

/-- The recovery codes of a record are some that it had, or those that the call draws. -/
def CodesFrom (p : Platform) (w w' : World) (user user' : User) : Prop :=
  user'.recoveryCodes ⊆ user.recoveryCodes ∨ w.drawn + 10 ≤ w'.drawn ∧ user'.recoveryCodes = recoveryDigests p w.drawn

/-- What a call makes of the accounts: one of them at most is changed, or there is a new owner. -/
inductive UsersFrom (p : Platform) (call : AuthCall) (w w' : World) : Prop
  | same (h : w'.state.users = w.state.users) (howner : w'.state.pendingOwner = w.state.pendingOwner)
  | begun (pending : PendingOwner) (h : w'.state.users = w.state.users) (howner : w'.state.pendingOwner = some pending)
      (hnew : FirstOwner pending.user)
  | modified (userId : String) (f : User → User) (h : w'.state.users = modifyFirst (·.id = userId) f w.state.users)
      (howner : w'.state.pendingOwner = w.state.pendingOwner) (hwho : ∀ user, Accounts.who (f user) = Accounts.who user)
      (hkeys : KeepsKeys call userId f) (hcodes : ∀ user, CodesFrom p w w' user (f user))
  | first (hcall : call = .seedDefaultOwnerIfNeeded) (user : User) (h : w'.state.users = [user])
      (howner : w'.state.pendingOwner = w.state.pendingOwner) (hnew : FirstOwner user)
  | owner (challenge totpCode : String) (hcall : call = .confirmSetup challenge totpCode) (pending : PendingOwner)
      (user : User) (h : w'.state.users = w.state.users.filter (·.role ≠ .owner) ++ [user])
      (howner : w'.state.pendingOwner = none) (hpending : w.state.pendingOwner = some pending)
      (hwho : Accounts.who user = Accounts.who pending.user) (hkeys : user.passkeys = pending.user.passkeys)
      (hcodes : CodesFrom p w w' pending.user user)

theorem Gentle.codesFrom {k : ℕ} (h : Gentle p w k f) (hdrawn : w.drawn + k ≤ w'.drawn) (user : User) :
    CodesFrom p w w' user (f user) := by
  rcases h.recoveryCodes user with hsame | ⟨hk, hnew⟩
  · exact .inl (hsame ▸ List.Subset.refl _)
  · exact .inr ⟨by omega, hnew⟩

theorem UsersFrom.rest {v : World} (hv : v.state = w.state) (userId : String) (f : User → User)
    (h : w'.state.users = modifyFirst (·.id = userId) f v.state.users)
    (howner : w'.state.pendingOwner = v.state.pendingOwner) (hwho : ∀ user, Accounts.who (f user) = Accounts.who user)
    (hkeys : ∀ user, (f user).passkeys = user.passkeys) (hcodes : ∀ user, (f user).recoveryCodes = user.recoveryCodes) :
    UsersFrom p call w w' :=
  .modified userId f (hv ▸ h) (hv ▸ howner) hwho (.of_same hkeys) fun user ↦ .inl (hcodes user ▸ List.Subset.refl _)

theorem AuthEffect.users (h : AuthEffect p now w call w') : UsersFrom p call w w' := by
  cases h with
  | refused hw => exact .same (by rw [hw.state]) (by rw [hw.state])
  | changed userId f k hf hw hkeys =>
    exact .modified userId f (by rw [hw.state]; rfl) (by rw [hw.state]; rfl) hf.who hkeys (hf.codesFrom hw.drawn.ge)
  | took userId user taken f k sessions hf hsessions huser hsecret hstep hkeys
  | tookNone userId user f k sessions hf hsessions huser hsecret hkeys =>
    exact .modified userId _ rfl rfl (fun target ↦ hf.who target) (hkeys.congr fun _ ↦ rfl) (hf.codesFrom le_rfl)
  | seeded user password huser hcall => exact .first hcall user rfl rfl (huser ▸ ⟨rfl, rfl, rfl, rfl⟩)
  | setupBegun pending username displayName password huser =>
    exact .begun pending rfl rfl (huser ▸ ⟨rfl, rfl, rfl, rfl⟩)
  | setupConfirmed challenge totpCode hcall pending secret step user hpending hsecret hstep huser =>
    subst huser
    exact .owner challenge totpCode hcall pending _ rfl rfl hpending rfl rfl (.inr ⟨Nat.le_add_right _ 3, rfl⟩)
  | loggedIn w₁ user hw | challenged w₁ user record hw =>
    exact .rest hw.state user.id _ rfl rfl (fun _ ↦ rfl) (fun _ ↦ rfl) fun _ ↦ rfl
  | completed w₁ item user secret step hw =>
    exact .rest hw.state user.id _ rfl rfl (fun _ ↦ rfl) (fun _ ↦ rfl) fun _ ↦ rfl
  | completedWithPasskey item user f hf hitem hlive huser hkeys =>
    exact .modified user.id f rfl rfl hf.who hkeys (hf.codesFrom (Nat.le_add_right _ 3))
  | burned codes hcodes hw => exact .same (by rw [hw.state]; rfl) (by rw [hw.state]; rfl)
  | redeemed w₁ codes hcodes hw =>
    exact .same (congrArg AuthState.users hw.state :) (congrArg AuthState.pendingOwner hw.state :)
  | slid digest found hfound hrevoked hexpiry hw => exact .same (by rw [hw.state]; rfl) (by rw [hw.state]; rfl)
  | resumed w₁ digest found user hfound hrevoked hexpiry hw =>
    exact .same (congrArg AuthState.users hw.state :) (congrArg AuthState.pendingOwner hw.state :)
  | mfaDisabled userId =>
    exact .modified userId _ rfl rfl (fun _ ↦ rfl) (.of_same fun _ ↦ rfl) fun _ ↦ .inl (List.nil_subset _)
  | mfaConfirmed userId =>
    exact .modified userId _ rfl rfl (fun _ ↦ rfl) (.of_same fun _ ↦ rfl) fun _ ↦ .inr ⟨le_rfl, rfl⟩
  | recoveryBegun w₁ pending hw => exact .same (congrArg AuthState.users hw.state :) (congrArg AuthState.pendingOwner hw.state :)
  | recovered challenge password totpCode hcall pending =>
    exact .modified pending.userId _ rfl rfl (fun _ ↦ rfl) (.of_same fun _ ↦ rfl) fun _ ↦
      .inr ⟨Nat.le_add_right (w.drawn + 10) 4, rfl⟩
  | _ => exact .same rfl rfl

theorem AuthEffect.pendingOwner (h : AuthEffect p now w call w') : w'.state.pendingOwner = w.state.pendingOwner ∨
    w'.state.pendingOwner = none ∨ ∃ pending, w'.state.pendingOwner = some pending ∧ pending.user.role = .owner ∧
      pending.user.status = none := by
  cases h.users with
  | same h howner => exact .inl howner
  | begun pending h howner hnew => exact .inr (.inr ⟨pending, howner, hnew.role, hnew.status⟩)
  | modified userId f h howner | first hcall user h howner => exact .inl howner
  | owner challenge totpCode hcall pending user h howner => exact .inr (.inl howner)

theorem AuthEffect.accounts (h : AuthEffect p now w call w') : AccountsFrom w w'.state.users := by
  cases h.users with
  | same h | begun pending h => exact .same (by rw [h])
  | modified userId f h howner hwho =>
    refine .same ?_
    rw [h]
    exact map_modifyFirst _ fun user _ ↦ hwho user
  | first hcall user h howner hnew => exact .first user hnew.role hnew.status h
  | owner challenge totpCode hcall pending user h howner hpending hwho => exact .owner pending user hpending hwho h

def authStep (p : Platform) (w : World) (call : ℕ × AuthCall) : World := call.2.perform p call.1 w

end

end Noesar.Accounts
