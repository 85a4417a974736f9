import Noesar.Accounts.Records

namespace Noesar.Accounts.SingleUse

open Lib World

def stepsOf (log : List (String × ℕ)) (secret : String) : List ℕ := (log.filter (·.1 = secret)).map (·.2)

def named (secret : String) (x : Option String) : ℕ := if x = some secret then 1 else 0

def holds (secret : String) (user : User) : ℕ :=
  named secret user.totp + named secret (user.pendingTotp.map (·.secret))

def awaited (w : World) (secret : String) : ℕ := named secret (w.state.pendingRecovery.map (·.totp))

def secretWeight (w : World) (secret : String) : ℕ := weigh (holds secret) w.held + awaited w secret

/-- The mark of a record is not behind a code of its secret that was taken, and of the secret that waits to be confirmed
none was. -/
structure Covers (log : List (String × ℕ)) (user : User) : Prop where
  mark : ∀ secret, user.totp = some secret → ∀ step, (secret, step) ∈ log → step ≤ user.lastTotpStep.getD 0
  pending : ∀ pending, user.pendingTotp = some pending → ∀ step, (pending.secret, step) ∉ log

structure Marked (p : Platform) (w : World) : Prop where
  supplied : Supplied p.createTotpSecret w.drawn (secretWeight w)
  logged : ∀ entry ∈ w.acceptedCodes, ∃ m < w.drawn, p.createTotpSecret m = entry.1
  covers : ∀ user ∈ w.held, Covers w.acceptedCodes user
  recovery : ∀ pending, w.state.pendingRecovery = some pending → ∀ step, (pending.totp, step) ∉ w.acceptedCodes
  increasing : ∀ secret, (stepsOf w.acceptedCodes secret).Pairwise (· < ·)

def threw {α : Type} (x : World × Except Refusal α) : Bool := !x.2.isOk

section

variable (p : Platform)

def fails (now : ℕ) (w : World) : Call → Bool
  | .auth .seedDefaultOwnerIfNeeded => false
  | .auth (.beginSetup digest token username displayName password) =>
    threw (w.attempt (w.beginSetup p now digest token username displayName password))
  | .auth (.confirmSetup challenge totpCode) => threw (w.attempt (w.confirmSetup p now challenge totpCode))
  | .auth (.beginLogin username password ip) => threw (w.beginLogin p now username password ip)
  | .auth (.completeLogin challenge totpCode ip) => threw (w.completeLogin p now challenge totpCode ip)
  | .auth (.completeLoginWithPasskey challenge credentialId response ip rpId origin) =>
    threw (w.completeLoginWithPasskey p now challenge credentialId response ip rpId origin)
  | .auth (.mintAttachCode userId sessionId) => threw (w.attempt (w.mintAttachCode p now userId sessionId))
  | .auth (.redeemAttachCode code ip) => threw (w.redeemAttachCode p now code ip)
  | .auth (.rememberTerminal userId sessionId label) => threw (w.attempt (w.rememberTerminal p now userId sessionId label))
  | .auth (.resumeTerminal token ip) => threw (w.resumeTerminal p now token ip)
  | .auth (.revokeRememberedTerminal userId id) => threw (w.attempt (w.revokeRememberedTerminal now userId id))
  | .auth (.forgetTerminalToken _) => false
  | .auth (.authenticate token) => (w.authenticate p now token).2.isNone
  | .auth (.reauthenticate sessionId password totpCode) =>
    threw (w.attempt (w.reauthenticate p now sessionId password totpCode))
  | .auth (.beginPasskeyRegistration userId password totpCode) =>
    threw (w.attempt (w.beginPasskeyRegistration p now userId password totpCode))
  | .auth (.confirmPasskeyRegistration userId challenge credentialId response name rpId origin) =>
    threw (w.attempt (w.confirmPasskeyRegistration p now userId challenge credentialId response name rpId origin))
  | .auth (.removePasskey userId password totpCode credentialId) =>
    threw (w.removePasskey p now userId password totpCode credentialId)
  | .auth (.changePassword userId sessionId currentPassword totpCode newPassword revokeOthers) =>
    threw (w.attempt (w.changePassword p now userId sessionId currentPassword totpCode newPassword revokeOthers))
  | .auth (.disableMfa userId password totpCode) => threw (w.attempt (w.disableMfa p now userId password totpCode))
  | .auth (.beginMfaReplacement userId password totpCode) =>
    threw (w.attempt (w.beginMfaReplacement p now userId password totpCode))
  | .auth (.confirmMfaReplacement userId sessionId challenge firstCode secondCode revokeOthers) =>
    threw (w.attempt (w.confirmMfaReplacement p now userId sessionId challenge firstCode secondCode revokeOthers))
  | .auth (.cancelMfaReplacement _) => false
  | .auth (.regenerateRecoveryCodes userId password totpCode) =>
    threw (w.attempt (w.regenerateRecoveryCodes p now userId password totpCode))
  | .auth (.beginRecovery username recoveryCode viaProof ip) => threw (w.beginRecovery p now username recoveryCode viaProof ip)
  | .auth (.completeRecovery challenge password totpCode) =>
    threw (w.attempt (w.completeRecovery p now challenge password totpCode))
  | .auth (.revokeSession userId sessionId target) => threw (w.attempt (w.revokeSession userId sessionId target))
  | .auth (.revokeOtherSessions _ _) => false
  | .auth (.logout _) => false
  | .directory (.createInvitation actorId username displayName role) =>
    threw (w.attempt (w.createInvitation p now actorId username displayName role))
  | .directory (.revokeInvitation actorId invitationId) => threw (w.attempt (w.revokeInvitation p now actorId invitationId))
  | .directory (.acceptInvitation token password displayName) =>
    threw (w.attempt (w.acceptInvitation p now token password displayName))
  | .directory (.confirmInvitationMfa challenge totpCode) =>
    threw (w.attempt (w.confirmInvitationMfa p now challenge totpCode))
  | .directory (.setRole actorId userId role) => threw (w.attempt (w.setRole p actorId userId role))
  | .directory (.disableUser actorId userId reason) => threw (w.attempt (w.disableUser p now actorId userId reason))
  | .directory (.revokeUser actorId userId reason) => threw (w.attempt (w.revokeUser p now actorId userId reason))
  | .directory (.reinstateUser actorId userId) => threw (w.attempt (w.reinstateUser p now actorId userId))
  | .directory (.createServiceAccount actorId username displayName) =>
    threw (w.attempt (w.createServiceAccount p now actorId username displayName))
  | .directory (.issueServiceToken actorId userId name ttlDays) =>
    threw (w.attempt (w.issueServiceToken p now actorId userId name ttlDays))
  | .directory (.revokeServiceToken actorId tokenId) => threw (w.attempt (w.revokeServiceToken p now actorId tokenId))
  | .directory (.eraseUser actorId userId reason) => threw (w.attempt (w.eraseUser p now actorId userId reason))

def FailsQuietly (w : World) (call : ℕ × Call) : Prop :=
  fails p call.1 w call.2 = true → (step p w call).acceptedCodes = w.acceptedCodes

/-- Where presence is proved for the removal of a passkey, the account has that passkey. -/
def KnownPasskey (w : World) (call : ℕ × Call) : Prop :=
  ∀ userId password totpCode credentialId user taken, call.2 = .auth (.removePasskey userId password totpCode credentialId) →
    w.user userId = some user → present p call.1 user password totpCode = .ok taken →
      user.passkeys.any (·.id = credentialId) = true

end

section

variable {p : Platform} {w w' : World} {x x' : User} {es : List (String × ℕ)}

/-! ### Where the secrets are -/

variable {secret : String} {user : User}

theorem named_some : named secret (some secret) = 1 := if_pos rfl

theorem named_none : named secret none = 0 := rfl

theorem named_pending (h : PendingFrom p w w' x x') (secret : String) :
    named secret (x'.pendingTotp.map (·.secret)) ≤ named secret (x.pendingTotp.map (·.secret)) +
      if w.drawn < w'.drawn ∧ p.createTotpSecret w.drawn = secret then 1 else 0 := by
  rcases h with hkept | hnone | ⟨hdrawn, digest, expiresAt, hnew⟩
  · rw [hkept]
    omega
  · rw [hnone, Option.map_none, named_none]
    omega
  · simp only [hnew, Option.map_some, named, Option.some.injEq, hdrawn, true_and]
    omega

theorem Codes.weight (h : Codes p w w' x x' es)
    (hrecovery : w'.state.pendingRecovery = w.state.pendingRecovery ∨ w'.state.pendingRecovery = none) (secret : String) :
    holds secret x' + awaited w' secret ≤ holds secret x + awaited w secret +
      if w.drawn < w'.drawn ∧ p.createTotpSecret w.drawn = secret then 1 else 0 := by
  have hawaited : awaited w' secret ≤ awaited w secret := by
    unfold awaited
    rcases hrecovery with hsame | hnone
    · rw [hsame]
    · rw [hnone, Option.map_none, named_none]
      exact Nat.zero_le _
  unfold holds
  cases h with
  | kept htotp hmark hpending =>
    have hle := named_pending hpending secret
    rw [htotp]
    omega
  | lost htotp hpending =>
    have hle := named_pending hpending secret
    rw [htotp, named_none]
    omega
  | taken taken step hsecret hstep htotp hpending =>
    have hle := named_pending hpending secret
    have htotp' : named secret x'.totp ≤ named secret x.totp := by
      rcases htotp with hnone | ⟨hsame, _⟩
      · rw [hnone, named_none]
        exact Nat.zero_le _
      · rw [hsame, hsecret]
    omega
  | replaced pending first hpending htotp hmark hnone =>
    rw [htotp, hnone, hpending, Option.map_some, Option.map_none, named_none]
    omega
  | recovered pending step hpending hnone htotp hmark hkept =>
    unfold awaited
    rw [htotp, hnone, hkept, hpending, Option.map_some, Option.map_none, named_none]
    omega

theorem Records.secrets (h : Records p w w') :
    Grows p.createTotpSecret w.drawn w'.drawn (secretWeight w) (secretWeight w') := by
  obtain ⟨hlater, hrecorded⟩ := h
  cases hrecorded with
  | kept hheld hlog hrecovery =>
    refine .of_next hlater ?_
    intro secret
    have hle : weigh (holds secret) w'.held ≤ weigh (holds secret) w.held := weigh_subperm hheld
    unfold secretWeight awaited
    rcases hrecovery with hsame | ⟨hdrawn, pending, hnew, htotp⟩
    · rw [hsame]
      omega
    · simp only [hnew, Option.map_some, htotp, named, Option.some.injEq, hdrawn, true_and]
      omega
  | added user m hfrom hto hid hsecret hpending hheld hlog hrecovery =>
    have hadded (secret : String) : secretWeight w' secret ≤ secretWeight w secret + named secret user.totp := by
      have hle : weigh (holds secret) w'.held ≤ weigh (holds secret) (user :: w.held) := weigh_subperm hheld
      rw [weigh_cons, holds, hpending, Option.map_none, named_none] at hle
      unfold secretWeight awaited
      rw [hrecovery]
      omega
    rcases hsecret with hnone | ⟨k, hk, hk', hdrawn⟩
    · refine .of_le hlater ?_
      intro secret
      have hle := hadded secret
      rw [hnone, named_none] at hle
      exact hle
    · refine .of_drawn hk hk' ?_
      intro secret
      have hle := hadded secret
      simp only [hdrawn, named, Option.some.injEq] at hle
      exact hle
  | changed x x' rest es hbefore hafter hid hcodes hlog hrecovery =>
    refine .of_next hlater ?_
    intro secret
    have hle : weigh (holds secret) w'.held ≤ weigh (holds secret) (x' :: rest) := weigh_subperm hafter
    have heq : weigh (holds secret) w.held = weigh (holds secret) (x :: rest) := weigh_perm hbefore
    have hchange := Codes.weight hcodes hrecovery secret
    rw [weigh_cons] at hle heq
    unfold secretWeight
    omega

/-! ### What was taken -/

theorem mem_stepsOf {log : List (String × ℕ)} {step : ℕ} :
    step ∈ stepsOf log secret ↔ (secret, step) ∈ log := by
  simp [stepsOf]

theorem stepsOf_append (log es : List (String × ℕ)) (secret : String) :
    stepsOf (log ++ es) secret = stepsOf log secret ++ stepsOf es secret := by
  simp [stepsOf]

theorem holds_of_totp (h : user.totp = some secret) : 1 ≤ holds secret user := by
  rw [holds, h, named_some]
  omega

theorem holds_of_pending {pending : PendingTotp} (h : user.pendingTotp = some pending) :
    1 ≤ holds pending.secret user := by
  rw [holds, h, Option.map_some, named_some]
  omega

theorem Codes.source (h : Codes p w w' x x' es) : ∀ e ∈ es, 1 ≤ holds e.1 x ∨
    ∃ pending, w.state.pendingRecovery = some pending ∧ w'.state.pendingRecovery = none ∧ pending.totp = e.1 := by
  intro e he
  cases h with
  | kept => cases he
  | lost => cases he
  | taken secret step hsecret =>
    rw [List.mem_singleton.mp he]
    exact .inl (holds_of_totp hsecret)
  | replaced pending first hpending =>
    refine .inl ?_
    rcases List.mem_cons.mp he with rfl | he
    · exact holds_of_pending hpending
    · rw [List.mem_singleton.mp he]
      exact holds_of_pending hpending
  | recovered pending step hpending hnone =>
    rw [List.mem_singleton.mp he]
    exact .inr ⟨pending, hpending, hnone, rfl⟩

theorem Covers.append {log : List (String × ℕ)} (h : Covers log user) (hnot : ∀ e ∈ es, holds e.1 user = 0) :
    Covers (log ++ es) user := by
  constructor
  · intro secret hsecret step hstep
    rcases List.mem_append.mp hstep with hold | hnew
    · exact h.mark secret hsecret step hold
    · have hzero : holds secret user = 0 := hnot _ hnew
      have hone := holds_of_totp hsecret
      omega
  · intro pending hpending step hstep
    rcases List.mem_append.mp hstep with hold | hnew
    · exact h.pending pending hpending step hold
    · have hzero : holds pending.secret user = 0 := hnot _ hnew
      have hone := holds_of_pending hpending
      omega

theorem Marked.unlogged (hfresh : p.Fresh) (h : Marked p w) {m : ℕ} (hm : w.drawn ≤ m) (step : ℕ) :
    (p.createTotpSecret m, step) ∉ w.acceptedCodes := by
  intro hmem
  obtain ⟨k, hk, hsame⟩ := h.logged _ hmem
  have heq : k = m := hfresh.secret hsame
  omega

theorem Marked.pendingFrom (hfresh : p.Fresh) (h : Marked p w) (hx : Covers w.acceptedCodes x)
    (hpending : PendingFrom p w w' x x') {pending : PendingTotp} (hfound : x'.pendingTotp = some pending) (step : ℕ) :
    (pending.secret, step) ∉ w.acceptedCodes := by
  rcases hpending with hkept | hnone | ⟨_, digest, expiresAt, hnew⟩
  · exact hx.pending pending (hkept ▸ hfound) step
  · rw [hnone] at hfound
    cases hfound
  · rw [hnew, Option.some.injEq] at hfound
    rw [← hfound]
    exact h.unlogged hfresh le_rfl step

/-- The codes that are taken come after those of their secret that were, and the record they are taken from covers them. -/
structure Follows (log es : List (String × ℕ)) (x' : User) : Prop where
  after : ∀ e ∈ es, ∀ step, (e.1, step) ∈ log → step < e.2
  sorted : es.Pairwise fun a b ↦ a.2 < b.2
  covers : Covers (log ++ es) x'

theorem Codes.follows (hfresh : p.Fresh) (h : Codes p w w' x x' es) (hmarked : Marked p w) (hx : x ∈ w.held) :
    Follows w.acceptedCodes es x' := by
  have hcovers := hmarked.covers x hx
  have honce (secret : String) : holds secret x + awaited w secret ≤ 1 := by
    have hle := weigh_mem (c := holds secret) hx
    have hweight := hmarked.supplied.once secret
    unfold secretWeight at hweight
    omega
  cases h with
  | kept htotp hmark hpending =>
    refine ⟨fun e he ↦ absurd he List.not_mem_nil, .nil, ?_⟩
    rw [List.append_nil]
    refine ⟨?_, fun pending hfound step ↦ hmarked.pendingFrom hfresh hcovers hpending hfound step⟩
    rw [htotp, hmark]
    exact hcovers.mark
  | lost htotp hpending =>
    refine ⟨fun e he ↦ absurd he List.not_mem_nil, .nil, ?_⟩
    rw [List.append_nil]
    refine ⟨?_, fun pending hfound step ↦ hmarked.pendingFrom hfresh hcovers hpending hfound step⟩
    intro secret hsecret
    rw [htotp] at hsecret
    cases hsecret
  | taken secret step hsecret hstep htotp hpending =>
    refine ⟨?_, List.pairwise_singleton _ _, ?_, ?_⟩
    · intro e he earlier hmem
      rw [List.mem_singleton.mp he] at hmem ⊢
      exact (hcovers.mark secret hsecret earlier hmem).trans_lt hstep
    · intro other hother earlier hmem
      rcases htotp with hnone | ⟨hsame, hmark⟩
      · rw [hnone] at hother
        cases hother
      · rw [hsame, Option.some.injEq] at hother
        subst hother
        rw [hmark, Option.getD_some]
        rcases List.mem_append.mp hmem with hold | hnew
        · exact (hcovers.mark secret hsecret earlier hold).trans hstep.le
        · cases List.mem_singleton.mp hnew
          exact le_rfl
    · intro pending hfound earlier hmem
      rcases List.mem_append.mp hmem with hold | hnew
      · exact hmarked.pendingFrom hfresh hcovers hpending hfound earlier hold
      · -- The secret of the code is held once, and it is not the one that waits.
        have hsame : pending.secret = secret := congrArg Prod.fst (List.mem_singleton.mp hnew)
        rcases hpending with hkept | hnone | ⟨_, digest, expiresAt, hdrawn⟩
        · have hone := honce secret
          rw [holds, hsecret, ← hkept, hfound, Option.map_some, hsame, named_some] at hone
          omega
        · rw [hnone] at hfound
          cases hfound
        · rw [hdrawn, Option.some.injEq] at hfound
          have hpos : 0 < secretWeight w secret := by
            have hle := weigh_mem (c := holds secret) hx
            have hone := holds_of_totp hsecret
            unfold secretWeight
            omega
          obtain ⟨k, hk, hold⟩ := hmarked.supplied.drawn secret hpos
          rw [← hfound] at hsame
          have heq : k = w.drawn := hfresh.secret (hold.trans hsame.symm)
          omega
  | replaced pending first hpending htotp hmark hnone =>
    refine ⟨?_, List.Pairwise.cons ?_ (List.pairwise_singleton _ _), ?_, ?_⟩
    · intro e he earlier hmem
      have hsecret : e.1 = pending.secret := by
        rcases List.mem_cons.mp he with rfl | he
        · rfl
        · rw [List.mem_singleton.mp he]
      rw [hsecret] at hmem
      exact absurd hmem (hcovers.pending pending hpending earlier)
    · intro e he
      rw [List.mem_singleton.mp he]
      exact Nat.lt_succ_self first
    · intro secret hsecret step hmem
      rw [htotp, Option.some.injEq] at hsecret
      subst hsecret
      rw [hmark, Option.getD_some]
      rcases List.mem_append.mp hmem with hold | hnew
      · exact absurd hold (hcovers.pending pending hpending step)
      · rcases List.mem_cons.mp hnew with hfirst | hsecond
        · cases hfirst
          exact Nat.le_succ first
        · cases List.mem_singleton.mp hsecond
          exact le_rfl
    · intro other hother
      rw [hnone] at hother
      cases hother
  | recovered pending step hpending hnone htotp hmark hkept =>
    have hunlogged := hmarked.recovery pending hpending
    refine ⟨?_, List.pairwise_singleton _ _, ?_, ?_⟩
    · intro e he earlier hmem
      rw [List.mem_singleton.mp he] at hmem
      exact absurd hmem (hunlogged earlier)
    · intro secret hsecret earlier hmem
      rw [htotp, Option.some.injEq] at hsecret
      subst hsecret
      rw [hmark, Option.getD_some]
      rcases List.mem_append.mp hmem with hold | hnew
      · exact absurd hold (hunlogged earlier)
      · cases List.mem_singleton.mp hnew
        exact le_rfl
    · intro other hother earlier hmem
      rw [hkept] at hother
      rcases List.mem_append.mp hmem with hold | hnew
      · exact hcovers.pending other hother earlier hold
      · have hsame : other.secret = pending.totp := congrArg Prod.fst (List.mem_singleton.mp hnew)
        have hone := honce pending.totp
        have hheld := holds_of_pending hother
        rw [awaited, hpending, Option.map_some, named_some, ← hsame] at hone
        omega

theorem Marked.records (hfresh : p.Fresh) (h : Marked p w) (hrecords : Records p w w') : Marked p w' := by
  have hsupplied := h.supplied.grows hfresh.secret (Records.secrets hrecords)
  obtain ⟨hlater, hrecorded⟩ := hrecords
  have hlogged : ∀ entry ∈ w.acceptedCodes, ∃ m < w'.drawn, p.createTotpSecret m = entry.1 := by
    intro entry hentry
    obtain ⟨m, hm, hsame⟩ := h.logged entry hentry
    exact ⟨m, by omega, hsame⟩
  cases hrecorded with
  | kept hheld hlog hrecovery =>
    refine ⟨hsupplied, hlog ▸ hlogged, ?_, ?_, hlog ▸ h.increasing⟩
    · intro user huser
      rw [hlog]
      exact h.covers user (hheld.subset huser)
    · intro pending hpending
      rw [hlog]
      rcases hrecovery with hsame | ⟨_, other, hother, htotp⟩
      · exact h.recovery pending (hsame ▸ hpending)
      · rw [hother, Option.some.injEq] at hpending
        rw [← hpending, htotp]
        exact h.unlogged hfresh le_rfl
  | added user m hfrom hto hid hsecret hpending hheld hlog hrecovery =>
    refine ⟨hsupplied, hlog ▸ hlogged, ?_, ?_, hlog ▸ h.increasing⟩
    · intro other hother
      rw [hlog]
      rcases List.mem_cons.mp (hheld.subset hother) with rfl | hold
      · constructor
        · intro secret htotp step hstep
          rcases hsecret with hnone | ⟨k, hk, _, hdrawn⟩
          · rw [hnone] at htotp
            cases htotp
          · rw [hdrawn, Option.some.injEq] at htotp
            rw [← htotp] at hstep
            exact absurd hstep (h.unlogged hfresh hk step)
        · intro pending hfound
          rw [hpending] at hfound
          cases hfound
      · exact h.covers other hold
    · intro pending hfound
      rw [hlog]
      exact h.recovery pending (hrecovery ▸ hfound)
  | changed x x' rest es hbefore hafter hid hcodes hlog hrecovery =>
    have hx : x ∈ w.held := hbefore.mem_iff.mpr List.mem_cons_self
    have hfollows := Codes.follows hfresh hcodes h hx
    have hsource := Codes.source hcodes
    have hsum (secret : String) : holds secret x + weigh (holds secret) rest + awaited w secret ≤ 1 := by
      have heq : weigh (holds secret) w.held = weigh (holds secret) (x :: rest) := weigh_perm hbefore
      have honce := h.supplied.once secret
      rw [weigh_cons] at heq
      unfold secretWeight at honce
      omega
    have hawaited {pending : PendingRecovery} (hpending : w.state.pendingRecovery = some pending) :
        awaited w pending.totp = 1 := by
      rw [awaited, hpending, Option.map_some, named_some]
    refine ⟨hsupplied, ?_, ?_, ?_, ?_⟩
    · intro entry hentry
      rw [hlog] at hentry
      rcases List.mem_append.mp hentry with hold | hnew
      · exact hlogged entry hold
      · have hpos : 0 < secretWeight w entry.1 := by
          have heq : weigh (holds entry.1) w.held = weigh (holds entry.1) (x :: rest) := weigh_perm hbefore
          rw [weigh_cons] at heq
          unfold secretWeight
          rcases hsource entry hnew with hheld | ⟨pending, hpending, _, htotp⟩
          · omega
          · have hone := hawaited hpending
            rw [htotp] at hone
            omega
        obtain ⟨m, hm, hsame⟩ := h.supplied.drawn entry.1 hpos
        exact ⟨m, by omega, hsame⟩
    · intro user huser
      rw [hlog]
      rcases List.mem_cons.mp (hafter.subset huser) with rfl | hrest
      · exact hfollows.covers
      · refine (h.covers user (hbefore.mem_iff.mpr (List.mem_cons_of_mem _ hrest))).append ?_
        intro e he
        have hle := weigh_mem (c := holds e.1) hrest
        have hone := hsum e.1
        rcases hsource e he with hheld | ⟨pending, hpending, _, htotp⟩
        · omega
        · have hrecovering := hawaited hpending
          rw [htotp] at hrecovering
          omega
    · intro pending hpending step hmem
      rw [hlog] at hmem
      rcases hrecovery with hsame | hnone
      · rw [hsame] at hpending
        rcases List.mem_append.mp hmem with hold | hnew
        · exact h.recovery pending hpending step hold
        · rcases hsource _ hnew with hheld | ⟨other, hother, hgone, _⟩
          · have hone := hsum pending.totp
            have hrecovering := hawaited hpending
            simp only at hheld
            omega
          · rw [hsame, hpending] at hgone
            cases hgone
      · rw [hnone] at hpending
        cases hpending
    · intro secret
      rw [hlog, stepsOf_append]
      refine List.pairwise_append.mpr ⟨h.increasing secret, ?_, ?_⟩
      · exact List.Pairwise.map _ (fun _ _ hlt ↦ hlt) (hfollows.sorted.filter _)
      · intro earlier hearlier step hstep
        exact hfollows.after _ (mem_stepsOf.mp hstep) earlier (mem_stepsOf.mp hearlier)

theorem marked_initial (p : Platform) : Marked p World.initial := by
  have hzero (secret : String) : secretWeight World.initial secret = 0 := rfl
  refine ⟨⟨?_, ?_⟩, ?_, ?_, ?_, ?_⟩
  · intro secret
    rw [hzero]
    exact Nat.zero_le 1
  · intro secret hpos
    rw [hzero] at hpos
    exact absurd hpos (lt_irrefl 0)
  · intro entry hentry
    cases hentry
  · intro user huser
    cases huser
  · intro pending hpending
    cases hpending
  · intro secret
    exact .nil

/-! ### What fails -/

theorem attempt_threw {α : Type} {x : Except Refusal (World × α)} (h : threw (w.attempt x) = true) :
    (w.attempt x).1.acceptedCodes = w.acceptedCodes := by
  cases x with
  | error => rfl
  | ok => cases h

@[simp] theorem accepted_update (f : AuthState → AuthState) : (w.update f).acceptedCodes = w.acceptedCodes := rfl

@[simp] theorem accepted_updateUser (id : String) (f : User → User) :
    (w.updateUser id f).acceptedCodes = w.acceptedCodes := rfl

@[simp] theorem accepted_draw (n : ℕ) : (w.draw n).acceptedCodes = w.acceptedCodes := rfl

@[simp] theorem accepted_rateState (now : ℕ) (ip username : String) :
    (w.rateState now ip username).acceptedCodes = w.acceptedCodes := rfl

@[simp] theorem accepted_recordFailure (now : ℕ) (ip username : String) :
    (w.recordFailure now ip username).acceptedCodes = w.acceptedCodes := (Quiet.recordFailure ip username).accepted

@[simp] theorem accepted_countFailedLogin (now : ℕ) (id : String) :
    (w.countFailedLogin now id).acceptedCodes = w.acceptedCodes := rfl

@[simp] theorem accepted_createSession (now : ℕ) (user : User) (mfa : Bool) :
    (w.createSession p now user mfa).1.acceptedCodes = w.acceptedCodes := rfl

theorem accepted_passwordVerified (now : ℕ) (user : User) (ip : String) :
    (w.passwordVerified p now user ip).1.acceptedCodes = w.acceptedCodes := by
  unfold passwordVerified
  split
  · rfl
  · rfl

theorem beginLogin_accepted (now : ℕ) (username password ip : String) :
    (w.beginLogin p now username password ip).1.acceptedCodes = w.acceptedCodes := by
  unfold beginLogin
  split
  · exact accepted_recordFailure _ _ _
  · dsimp only
    split
    · rfl
    · split
      · rfl
      · split
        · simp
        · split
          · simp
          · split
            · simp
            · split
              · simp [accepted?]
              · simp [accepted_passwordVerified, accepted?]

theorem authenticate_accepted (now : ℕ) (token : Option String) :
    (w.authenticate p now token).1.acceptedCodes = w.acceptedCodes := by
  unfold authenticate
  split
  · rfl
  · split
    · rfl
    · split
      · rfl
      · split
        · rfl
        · split
          · rfl
          · rfl

theorem completeLogin_threw {now : ℕ} {challenge totpCode ip : String}
    (h : threw (w.completeLogin p now challenge totpCode ip) = true) :
    (w.completeLogin p now challenge totpCode ip).1.acceptedCodes = w.acceptedCodes := by
  unfold completeLogin at h ⊢
  split
  · rfl
  · split
    · rfl
    · simp [accepted?]
    · simp [accepted?]
    · rename_i hawaiting _ _ hconsumed
      rw [hawaiting] at h
      simp only [hconsumed] at h
      cases h

theorem completeLoginWithPasskey_accepted (now : ℕ) (challenge credentialId response ip rpId origin : String) :
    (w.completeLoginWithPasskey p now challenge credentialId response ip rpId origin).1.acceptedCodes = w.acceptedCodes := by
  unfold completeLoginWithPasskey
  split
  · rfl
  · split
    · simp
    · split
      · simp
      · rfl

theorem redeemAttachCode_accepted (now : ℕ) (code ip : String) :
    (w.redeemAttachCode p now code ip).1.acceptedCodes = w.acceptedCodes := by
  unfold redeemAttachCode
  dsimp only
  split
  · rfl
  · split
    · simp
    · split
      · rfl
      · split
        · rfl
        · split
          · rfl
          · split
            · rfl
            · rfl

theorem resumeTerminal_accepted (now : ℕ) (token ip : String) :
    (w.resumeTerminal p now token ip).1.acceptedCodes = w.acceptedCodes := by
  unfold resumeTerminal
  dsimp only
  split
  · rfl
  · split
    · simp
    · split
      · simp
      · split
        · simp
        · split
          · simp
          · rfl

theorem beginRecovery_accepted (now : ℕ) (username recoveryCode : String) (viaProof : Bool) (ip : String) :
    (w.beginRecovery p now username recoveryCode viaProof ip).1.acceptedCodes = w.acceptedCodes := by
  unfold beginRecovery
  dsimp only
  split
  · rfl
  · split
    · simp
    · split
      · simp
      · rfl

theorem removePasskey_quiet {now : ℕ} {userId password totpCode credentialId : String} :
    (threw (w.removePasskey p now userId password totpCode credentialId) = true →
      (w.removePasskey p now userId password totpCode credentialId).1.acceptedCodes = w.acceptedCodes) ↔
    ∀ user taken, w.user userId = some user → present p now user password totpCode = .ok taken →
      user.passkeys.any (·.id = credentialId) = true := by
  cases huser : w.user userId with
  | none =>
    have hrefused : w.removePasskey p now userId password totpCode credentialId =
        (w, .error (fail "Account not found." 404)) := by
      unfold removePasskey requireUser
      rw [huser]
      rfl
    rw [hrefused]
    constructor
    · intro _ user taken h
      cases h
    · intro _ _
      rfl
  | some user =>
    cases hpresent : present p now user password totpCode with
    | error refusal =>
      have hrefused : w.removePasskey p now userId password totpCode credentialId = (w, .error refusal) := by
        unfold removePasskey requireUser
        rw [huser]
        simp only [demand, bind, Except.bind, hpresent]
      rw [hrefused]
      constructor
      · intro _ other taken h htaken
        cases h
        rw [hpresent] at htaken
        cases htaken
      · intro _ _
        rfl
    | ok taken =>
      have htaken : w.removePasskey p now userId password totpCode credentialId =
          (w.take userId taken fun target ↦ { target with passkeys := target.passkeys.filter (·.id ≠ credentialId) },
            require (user.passkeys.any (·.id = credentialId) = true) (fail "That passkey no longer exists." 404)) := by
        unfold removePasskey requireUser
        rw [huser]
        simp only [demand, bind, Except.bind, hpresent, pure, Except.pure]
      rw [htaken]
      constructor
      · intro hquiet other other' h _
        cases h
        by_contra hnot
        have hthrew : threw ((w.take userId taken fun target ↦
            { target with passkeys := target.passkeys.filter (·.id ≠ credentialId) }),
              require (user.passkeys.any (·.id = credentialId) = true) (fail "That passkey no longer exists." 404)) = true := by
          rw [require, if_neg hnot]
          rfl
        have hsame := hquiet hthrew
        have hlonger : (w.take userId taken fun target ↦
            { target with passkeys := target.passkeys.filter (·.id ≠ credentialId) }).acceptedCodes =
              w.acceptedCodes ++ [taken] := by simp [World.take, accepted?]
        have hlength := congrArg List.length (hlonger.symm.trans hsame)
        rw [List.length_append, List.length_singleton] at hlength
        omega
      · intro hknown hthrew
        have hok : threw ((w.take userId taken fun target ↦
            { target with passkeys := target.passkeys.filter (·.id ≠ credentialId) }),
              require (user.passkeys.any (·.id = credentialId) = true) (fail "That passkey no longer exists." 404)) = false := by
          rw [require, if_pos (hknown user taken rfl hpresent)]
          rfl
        rw [hok] at hthrew
        cases hthrew

theorem failsQuietly_iff (call : ℕ × Call) : FailsQuietly p w call ↔ KnownPasskey p w call := by
  obtain ⟨now, call⟩ := call
  have hother (hquiet : FailsQuietly p w (now, call))
      (hnot : ∀ userId password totpCode credentialId, call ≠ .auth (.removePasskey userId password totpCode credentialId)) :
      FailsQuietly p w (now, call) ↔ KnownPasskey p w (now, call) := by
    refine ⟨?_, fun _ ↦ hquiet⟩
    intro _ userId password totpCode credentialId user taken hcall
    exact absurd hcall (hnot userId password totpCode credentialId)
  cases call with
  | auth c =>
    cases c with
    | removePasskey userId password totpCode credentialId =>
      constructor
      · intro hquiet userId' password' totpCode' credentialId' user taken hcall
        cases hcall
        exact removePasskey_quiet.mp hquiet user taken
      · intro hknown
        exact removePasskey_quiet.mpr fun user taken ↦ hknown userId password totpCode credentialId user taken rfl
    | beginLogin => exact hother (fun _ ↦ beginLogin_accepted _ _ _ _) (by rintro _ _ _ _ ⟨⟩)
    | completeLogin => exact hother completeLogin_threw (by rintro _ _ _ _ ⟨⟩)
    | completeLoginWithPasskey =>
      exact hother (fun _ ↦ completeLoginWithPasskey_accepted _ _ _ _ _ _ _) (by rintro _ _ _ _ ⟨⟩)
    | redeemAttachCode => exact hother (fun _ ↦ redeemAttachCode_accepted _ _ _) (by rintro _ _ _ _ ⟨⟩)
    | resumeTerminal => exact hother (fun _ ↦ resumeTerminal_accepted _ _ _) (by rintro _ _ _ _ ⟨⟩)
    | beginRecovery => exact hother (fun _ ↦ beginRecovery_accepted _ _ _ _ _) (by rintro _ _ _ _ ⟨⟩)
    | authenticate => exact hother (fun _ ↦ authenticate_accepted _ _) (by rintro _ _ _ _ ⟨⟩)
    | seedDefaultOwnerIfNeeded => exact hother (fun h ↦ by cases h) (by rintro _ _ _ _ ⟨⟩)
    | forgetTerminalToken | cancelMfaReplacement | revokeOtherSessions | logout =>
      exact hother (fun _ ↦ rfl) (by rintro _ _ _ _ ⟨⟩)
    | _ => exact hother attempt_threw (by rintro _ _ _ _ ⟨⟩)
  | directory c =>
    cases c with
    | _ => exact hother attempt_threw (by rintro _ _ _ _ ⟨⟩)

/-- The steps of the codes of a secret increase along every run; and no call that fails takes a code exactly where no
passkey is removed that is not there. -/
theorem codes_single_use (p : Platform) (hfresh : p.Fresh) (calls : List (ℕ × Call)) :
    (∀ secret, (stepsOf (Run.after (step p) World.initial calls).acceptedCodes secret).Pairwise (· < ·)) ∧
      (Run.Along (step p) (FailsQuietly p) World.initial calls ↔
        Run.Along (step p) (KnownPasskey p) World.initial calls) := by
  constructor
  · have hmarked : Marked p (Run.after (step p) World.initial calls) :=
      Run.invariant (fun w call h ↦ h.records hfresh (records_step p w call)) (marked_initial p) calls
    exact hmarked.increasing
  · constructor
    · intro hquiet
      exact hquiet.mono fun w call ↦ (failsQuietly_iff call).mp
    · intro hknown
      exact hknown.mono fun w call ↦ (failsQuietly_iff call).mpr

end

def enrolled : List (ℕ × Call) :=
  [(90000, .auth .seedDefaultOwnerIfNeeded), (90000, .directory (.createInvitation "" "alice" none "user")),
    (90000, .directory (.acceptInvitation "tt" "correct horse battery" none)),
    (90000, .directory (.confirmInvitationMfa "tttttttt" "123456"))]

def unknownRemoval : ℕ × Call := (150000, .auth (.removePasskey "uuuuu" "correct horse battery" "123456" "key"))

theorem codes_single_use_alice :
    (∀ secret, (stepsOf (Run.after (step .tallying) World.initial (enrolled ++ [unknownRemoval])).acceptedCodes
      secret).Pairwise (· < ·)) ∧
      (Run.Along (step .tallying) (FailsQuietly .tallying) World.initial (enrolled ++ [unknownRemoval]) ↔
        Run.Along (step .tallying) (KnownPasskey .tallying) World.initial (enrolled ++ [unknownRemoval])) :=
  codes_single_use .tallying Platform.tallying_fresh (enrolled ++ [unknownRemoval])

/-- The removal fails, and the code is gone. -/
theorem failed_removal_takes_code : ¬∀ (p : Platform) (_ : p.Fresh) (calls : List (ℕ × Call)),
    (∀ secret, (stepsOf (Run.after (step p) World.initial calls).acceptedCodes secret).Pairwise (· < ·)) ∧
      Run.Along (step p) (FailsQuietly p) World.initial calls := by
  intro h
  have hquiet := (Run.Along.append.mp (h .tallying Platform.tallying_fresh (enrolled ++ [unknownRemoval])).2).2.1
  have hfails : fails .tallying unknownRemoval.1 (Run.after (step .tallying) World.initial enrolled) unknownRemoval.2 = true := by
    decide
  have hlength := congrArg List.length (hquiet hfails)
  have hbefore : (Run.after (step .tallying) World.initial enrolled).acceptedCodes.length = 1 := by decide
  have hafter : (step .tallying (Run.after (step .tallying) World.initial enrolled) unknownRemoval).acceptedCodes.length = 2 := by
    decide
  rw [hbefore, hafter] at hlength
  cases hlength

end Noesar.Accounts.SingleUse
