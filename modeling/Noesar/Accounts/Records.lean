import Noesar.Accounts.DirectoryEffects
import Noesar.Lib.Supply

namespace Noesar.Accounts

open Lib World

def World.held (w : World) : List User :=
  w.state.users ++ ((w.state.pendingOwner.map (·.user)).toList ++ w.state.pendingInvitees.map (·.user))

section

variable (p : Platform) (w w' : World)

/-- The authenticator that waits to be confirmed is the same, or there is none, or its secret was drawn. -/
def PendingFrom (x x' : User) : Prop :=
  x'.pendingTotp = x.pendingTotp ∨ x'.pendingTotp = none ∨
    w.drawn < w'.drawn ∧ ∃ digest expiresAt, x'.pendingTotp = some ⟨digest, p.createTotpSecret w.drawn, expiresAt⟩

/-- What becomes of the secrets of a record and of its mark, and the codes that were taken. -/
inductive Codes (x x' : User) : List (String × ℕ) → Prop
  | kept (htotp : x'.totp = x.totp) (hmark : x'.lastTotpStep = x.lastTotpStep) (hpending : PendingFrom p w w' x x') :
      Codes x x' []
  | lost (htotp : x'.totp = none) (hpending : PendingFrom p w w' x x') : Codes x x' []
  | taken (secret : String) (step : ℕ) (hsecret : x.totp = some secret) (hstep : x.lastTotpStep.getD 0 < step)
      (htotp : x'.totp = none ∨ x'.totp = some secret ∧ x'.lastTotpStep = some step) (hpending : PendingFrom p w w' x x') :
      Codes x x' [(secret, step)]
  | replaced (pending : PendingTotp) (first : ℕ) (hpending : x.pendingTotp = some pending)
      (htotp : x'.totp = some pending.secret) (hmark : x'.lastTotpStep = some (first + 1)) (hnone : x'.pendingTotp = none) :
      Codes x x' [(pending.secret, first), (pending.secret, first + 1)]
  | recovered (pending : PendingRecovery) (step : ℕ) (hpending : w.state.pendingRecovery = some pending)
      (hnone : w'.state.pendingRecovery = none) (htotp : x'.totp = some pending.totp) (hmark : x'.lastTotpStep = some step)
      (hkept : x'.pendingTotp = x.pendingTotp) : Codes x x' [(pending.totp, step)]

/-- What a call does to the records: it adds one at most, or changes one. -/
inductive Recorded : Prop
  | kept (hheld : w'.held.Subperm w.held) (hlog : w'.acceptedCodes = w.acceptedCodes)
      (hrecovery : w'.state.pendingRecovery = w.state.pendingRecovery ∨ w.drawn < w'.drawn ∧
        ∃ pending, w'.state.pendingRecovery = some pending ∧ pending.totp = p.createTotpSecret w.drawn)
  | added (user : User) (m : ℕ) (hfrom : w.drawn ≤ m) (hto : m < w'.drawn) (hid : user.id = p.randomUUID m)
      (hsecret : user.totp = none ∨ ∃ k, w.drawn ≤ k ∧ k < w'.drawn ∧ user.totp = some (p.createTotpSecret k))
      (hpending : user.pendingTotp = none) (hheld : w'.held.Subperm (user :: w.held))
      (hlog : w'.acceptedCodes = w.acceptedCodes) (hrecovery : w'.state.pendingRecovery = w.state.pendingRecovery)
  | changed (x x' : User) (rest : List User) (es : List (String × ℕ)) (hbefore : w.held.Perm (x :: rest))
      (hafter : w'.held.Subperm (x' :: rest)) (hid : x'.id = x.id) (hcodes : Codes p w w' x x' es)
      (hlog : w'.acceptedCodes = w.acceptedCodes ++ es)
      (hrecovery : w'.state.pendingRecovery = w.state.pendingRecovery ∨ w'.state.pendingRecovery = none)

structure Records : Prop where
  later : w.drawn ≤ w'.drawn
  recorded : Recorded p w w'

end

section

variable {p : Platform} {w w₁ w' : World} {now : ℕ}

theorem Records.of_kept (hlater : w.drawn ≤ w'.drawn) (husers : w'.state.users = w.state.users)
    (howner : w'.state.pendingOwner = w.state.pendingOwner) (hinvitees : w'.state.pendingInvitees = w.state.pendingInvitees)
    (hrecovery : w'.state.pendingRecovery = w.state.pendingRecovery) (hlog : w'.acceptedCodes = w.acceptedCodes) :
    Records p w w' := by
  refine ⟨hlater, .kept ?_ hlog (.inl hrecovery)⟩
  unfold held
  rw [husers, howner, hinvitees]

theorem Records.of_opened {user : User} {mfa : Bool} (hlater : w.drawn ≤ w₁.drawn) (husers : w₁.state.users = w.state.users)
    (howner : w₁.state.pendingOwner = w.state.pendingOwner) (hinvitees : w₁.state.pendingInvitees = w.state.pendingInvitees)
    (hrecovery : w₁.state.pendingRecovery = w.state.pendingRecovery) (hlog : w₁.acceptedCodes = w.acceptedCodes) :
    Records p w (w₁.createSession p now user mfa).1 :=
  .of_kept (hlater.trans (Nat.le_add_right _ 3)) husers howner hinvitees hrecovery hlog

theorem Records.of_changed {sought : User → Bool} {f : User → User} {x : User} {es : List (String × ℕ)}
    (hlater : w.drawn ≤ w'.drawn) (hfind : w.state.users.find? sought = some x)
    (husers : w'.state.users = modifyFirst sought f w.state.users)
    (howner : w'.state.pendingOwner = w.state.pendingOwner) (hinvitees : w'.state.pendingInvitees = w.state.pendingInvitees)
    (hrecovery : w'.state.pendingRecovery = w.state.pendingRecovery ∨ w'.state.pendingRecovery = none)
    (hid : (f x).id = x.id) (hcodes : Codes p w w' x (f x) es) (hlog : w'.acceptedCodes = w.acceptedCodes ++ es) :
    Records p w w' := by
  obtain ⟨rest, hbefore, hafter⟩ := modifyFirst_perm (f := f) hfind
  refine ⟨hlater, .changed x (f x) _ es (hbefore.append_right _) ?_ hid hcodes hlog hrecovery⟩
  unfold held
  rw [husers, howner, hinvitees]
  exact (hafter.append_right _).subperm

theorem Records.of_gentle {sought : User → Bool} {f : User → User} {k : ℕ} (hf : Gentle p w k f)
    (hdrawn : w.drawn + k ≤ w'.drawn) (husers : w'.state.users = modifyFirst sought f w.state.users)
    (howner : w'.state.pendingOwner = w.state.pendingOwner) (hinvitees : w'.state.pendingInvitees = w.state.pendingInvitees)
    (hrecovery : w'.state.pendingRecovery = w.state.pendingRecovery) (hlog : w'.acceptedCodes = w.acceptedCodes) :
    Records p w w' := by
  cases hfind : w.state.users.find? sought with
  | none =>
    rw [modifyFirst_of_find?_none hfind] at husers
    exact .of_kept (by omega) husers howner hinvitees hrecovery hlog
  | some x =>
    have hnone : w'.acceptedCodes = w.acceptedCodes ++ [] := by rw [hlog, List.append_nil]
    refine .of_changed (by omega) hfind husers howner hinvitees (.inl hrecovery) (hf.id x)
      (.kept (hf.totp x) (hf.lastTotpStep x) ?_) hnone
    rcases hf.pendingTotp x with hkept | hnone | ⟨hk, hnew⟩
    · exact .inl hkept
    · exact .inr (.inl hnone)
    · exact .inr (.inr ⟨by omega, hnew⟩)

theorem Records.of_quiet (h : Quiet w w₁) (h' : Records p w₁ w') : Records p w w' := by
  obtain ⟨hlater, hrecorded⟩ := h'
  have hheld : w₁.held = w.held := by
    unfold held
    rw [h.state]
  refine ⟨h.drawn ▸ hlater, ?_⟩
  cases hrecorded with
  | kept hsub hlog hrecovery =>
    rw [hheld] at hsub
    rw [h.accepted] at hlog
    rw [h.state, h.drawn] at hrecovery
    exact .kept hsub hlog hrecovery
  | added user m hfrom hto hid hsecret hpending hsub hlog hrecovery =>
    rw [hheld] at hsub
    rw [h.accepted] at hlog
    rw [h.state] at hrecovery
    rw [h.drawn] at hfrom hsecret
    exact .added user m hfrom hto hid hsecret hpending hsub hlog hrecovery
  | changed x x' rest es hbefore hafter hid hcodes hlog hrecovery =>
    rw [hheld] at hbefore
    rw [h.accepted] at hlog
    refine .changed x x' rest es hbefore hafter hid ?_ hlog ?_
    · have hpendings (hpending : PendingFrom p w₁ w' x x') : PendingFrom p w w' x x' := by
        unfold PendingFrom at hpending
        rw [h.drawn] at hpending
        exact hpending
      cases hcodes with
      | kept htotp hmark hpending => exact .kept htotp hmark (hpendings hpending)
      | lost htotp hpending => exact .lost htotp (hpendings hpending)
      | taken secret step hsecret hstep htotp hpending => exact .taken secret step hsecret hstep htotp (hpendings hpending)
      | replaced pending first hpending htotp hmark hnone => exact .replaced pending first hpending htotp hmark hnone
      | recovered pending step hpending hnone htotp hmark hkept =>
        rw [h.state] at hpending
        exact .recovered pending step hpending hnone htotp hmark hkept
    · rw [h.state] at hrecovery
      exact hrecovery

theorem Records.quiet (h : Quiet w w') : Records p w w' :=
  .of_kept h.drawn.ge (by rw [h.state]) (by rw [h.state]) (by rw [h.state]) (by rw [h.state]) h.accepted

theorem acceptedCodes_of_history (events : List Event) (h : w'.history = w.history ++ events) :
    w'.acceptedCodes = w.acceptedCodes ++ events.filterMap accepted? := by
  unfold acceptedCodes
  rw [h, List.filterMap_append]

theorem pendingFrom_of_gentle {f : User → User} {k : ℕ} (hf : Gentle p w k f) (hdrawn : w.drawn + k ≤ w'.drawn)
    (user : User) : PendingFrom p w w' user (f user) := by
  rcases hf.pendingTotp user with hkept | hnone | ⟨hk, hnew⟩
  · exact .inl hkept
  · exact .inr (.inl hnone)
  · exact .inr (.inr ⟨by omega, hnew⟩)

theorem AuthEffect.records {call : AuthCall} (h : AuthEffect p now w call w') : Records p w w' := by
  cases h with
  | refused hw => exact .quiet hw
  | changed userId f k hf hw =>
    exact .of_gentle hf hw.drawn.ge (by rw [hw.state]; rfl) (by rw [hw.state]; rfl) (by rw [hw.state]; rfl)
      (by rw [hw.state]; rfl) hw.accepted
  | took userId user taken f k sessions hf hsessions huser hsecret hstep =>
    refine .of_changed (Nat.le_add_right _ k) huser rfl rfl rfl (.inl rfl) (hf.id user) ?_ (acceptedCodes_of_history _ rfl)
    exact .taken taken.1 taken.2 hsecret hstep (.inr ⟨(hf.totp user).trans hsecret, rfl⟩) (pendingFrom_of_gentle hf le_rfl user)
  | tookNone userId user f k sessions hf hsessions huser hsecret =>
    refine .of_changed (Nat.le_add_right _ k) huser rfl rfl rfl (.inl rfl) (hf.id user) ?_ (List.append_nil _).symm
    exact .lost ((hf.totp user).trans hsecret) (pendingFrom_of_gentle hf le_rfl user)
  | sessionsKept => exact .of_kept le_rfl rfl rfl rfl rfl rfl
  | seeded user password huser =>
    have hlog : (w.note [.created user.id none false]).acceptedCodes = w.acceptedCodes ++ [] :=
      acceptedCodes_of_history [.created user.id none false] rfl
    have hid : user.id = p.randomUUID w.drawn := by rw [huser]; rfl
    have htotp : user.totp = none := by rw [huser]; rfl
    have hpending : user.pendingTotp = none := by rw [huser]; rfl
    refine ⟨Nat.le_add_right _ 2, .added user w.drawn le_rfl (Nat.lt_add_of_pos_right (by decide)) hid (.inl htotp) hpending ?_
      (hlog.trans (List.append_nil _)) rfl⟩
    exact (List.sublist_append_right w.state.users _).cons_cons user |>.subperm
  | setupBegun pending username displayName password huser =>
    have hid : pending.user.id = p.randomUUID (w.drawn + 2) := by rw [huser]; rfl
    have htotp : pending.user.totp = some (p.createTotpSecret w.drawn) := by rw [huser]; rfl
    have hpending : pending.user.pendingTotp = none := by rw [huser]; rfl
    refine ⟨Nat.le_add_right _ 4, .added pending.user (w.drawn + 2) (Nat.le_add_right _ _) (Nat.add_lt_add_left (by decide) _)
      hid (.inr ⟨w.drawn, le_rfl, Nat.lt_add_of_pos_right (by decide), htotp⟩) hpending ?_ rfl rfl⟩
    refine List.perm_middle.subperm.trans ((List.subperm_cons _).mpr ?_)
    exact ((List.sublist_append_right _ _).append_left _).subperm
  | setupConfirmed challenge totpCode hcall pending secret step user hpending hsecret hstep huser =>
    have hid : user.id = pending.user.id := by rw [huser]
    have htotp : user.totp = some secret := by rw [huser]; exact hsecret
    have hmark : user.lastTotpStep = some step := by rw [huser]
    have hkept : user.pendingTotp = pending.user.pendingTotp := by rw [huser]
    refine ⟨Nat.le_add_right _ 13, .changed pending.user user (w.state.users ++ w.state.pendingInvitees.map (·.user)) _ ?_ ?_
      hid (.taken secret step hsecret hstep (.inr ⟨htotp, hmark⟩) (.inl hkept))
      (acceptedCodes_of_history [.accepted secret step, .created user.id none true] rfl) (.inl rfl)⟩
    · unfold held
      rw [hpending]
      exact List.perm_middle
    · have hmoved : (w.state.users.filter (·.role ≠ .owner) ++ [user] ++ w.state.pendingInvitees.map (·.user)).Perm
          (user :: (w.state.users.filter (·.role ≠ .owner) ++ w.state.pendingInvitees.map (·.user))) := by
        rw [List.append_assoc]
        exact List.perm_middle
      exact hmoved.subperm.trans ((List.subperm_cons _).mpr (List.filter_sublist.append_right _).subperm)
  | loggedIn w₁ user hw =>
    refine .of_quiet hw (.of_gentle (k := 3) (.of_kept ?_) le_rfl rfl rfl rfl rfl rfl)
    intro target
    rfl
  | challenged w₁ user record hw =>
    refine .of_quiet hw (.of_gentle (k := 2) (.of_kept ?_) le_rfl rfl rfl rfl rfl rfl)
    intro target
    rfl
  | completed w₁ item user secret step hw hitem hlive huser hsecret hstep =>
    have hfound : w₁.user user.id = some user := by
      have hid : user.id = item.userId := by simpa using List.find?_some huser
      unfold World.user
      rw [hw.state, hid]
      exact huser
    refine .of_quiet hw (.of_changed (Nat.le_add_right _ 3) hfound rfl rfl rfl (.inl rfl) rfl ?_ (acceptedCodes_of_history _ rfl))
    exact .taken secret step hsecret hstep (.inr ⟨hsecret, rfl⟩) (.inl rfl)
  | completedWithPasskey item user f hf => exact .of_gentle hf (Nat.le_add_right _ 3) rfl rfl rfl rfl rfl
  | minted => exact .of_kept (Nat.le_add_right _ 2) rfl rfl rfl rfl rfl
  | burned codes hcodes hw =>
    exact .of_kept hw.drawn.ge (by rw [hw.state]; rfl) (by rw [hw.state]; rfl) (by rw [hw.state]; rfl) (by rw [hw.state]; rfl)
      hw.accepted
  | redeemed w₁ codes hcodes hw =>
    exact .of_opened hw.drawn.ge (by rw [hw.state]; rfl) (by rw [hw.state]; rfl) (by rw [hw.state]; rfl)
      (by rw [hw.state]; rfl) hw.accepted
  | remembered => exact .of_kept (Nat.le_add_right _ 2) rfl rfl rfl rfl rfl
  | slid digest found hfound hrevoked hexpiry hw =>
    exact .of_kept hw.drawn.ge (by rw [hw.state]; rfl) (by rw [hw.state]; rfl) (by rw [hw.state]; rfl) (by rw [hw.state]; rfl)
      hw.accepted
  | resumed w₁ digest found user hfound hrevoked hexpiry hw =>
    exact .of_opened hw.drawn.ge (by rw [hw.state]; rfl) (by rw [hw.state]; rfl) (by rw [hw.state]; rfl)
      (by rw [hw.state]; rfl) hw.accepted
  | terminalRevoked => exact .of_kept le_rfl rfl rfl rfl rfl rfl
  | mfaDisabled userId user taken huser hsecret hstep =>
    refine .of_changed le_rfl huser rfl rfl rfl (.inl rfl) rfl ?_ (acceptedCodes_of_history _ rfl)
    exact .taken taken.1 taken.2 hsecret hstep (.inl rfl) (.inr (.inl rfl))
  | mfaConfirmed userId user pending first sessions huser hpending =>
    refine .of_changed (Nat.le_add_right _ 10) huser rfl rfl rfl (.inl rfl) rfl ?_ (acceptedCodes_of_history _ rfl)
    exact .replaced pending first hpending rfl rfl rfl
  | recoveryBegun w₁ pending hw hsecret =>
    refine .of_quiet hw ⟨Nat.le_add_right _ 2, .kept (List.Subperm.refl _) rfl (.inr ⟨Nat.lt_add_of_pos_right (by decide),
      pending, rfl, ?_⟩)⟩
    rw [hw.drawn]
    exact hsecret
  | recovered challenge password totpCode hcall pending user step hpending huser =>
    refine .of_changed (Nat.le_add_right _ 14) huser rfl rfl rfl (.inr rfl) rfl ?_ (acceptedCodes_of_history _ rfl)
    exact .recovered pending step hpending rfl rfl rfl rfl

theorem acceptedCodes_append (events : List Event) (h : w'.history = w.history ++ events)
    (hnone : events.filterMap accepted? = []) : w'.acceptedCodes = w.acceptedCodes := by
  rw [acceptedCodes_of_history events h, hnone, List.append_nil]

theorem DirectoryEffect.records {call : DirectoryCall} (h : DirectoryEffect p now w call w') : Records p w w' := by
  have hmoved (user : User) (users invitees : List User) : (users ++ [user] ++ invitees).Perm (user :: (users ++ invitees)) := by
    rw [List.append_assoc]
    exact List.perm_middle
  cases h with
  | refused => exact .of_kept le_rfl rfl rfl rfl rfl rfl
  | invited actorId username displayName role actor invitation =>
    exact .of_kept (Nat.le_add_right _ 3) rfl rfl rfl rfl
      (acceptedCodes_append [.invited invitation.id actor.role] rfl rfl)
  | invitationRevoked => exact .of_kept (Nat.le_add_right _ 1) rfl rfl rfl rfl rfl
  | joined token password displayName invitation =>
    refine ⟨Nat.le_add_right _ 3, .added (w.invitedUser p invitation password displayName) w.drawn le_rfl
      (Nat.lt_add_of_pos_right (Nat.succ_pos 2)) rfl (.inl rfl) rfl (hmoved _ _ _).subperm (acceptedCodes_append _ rfl rfl) rfl⟩
  | claimed token password displayName invitation pending hfind hrevoked haccepted hrole hdigest hinvitation huser =>
    have hid : pending.user.id = p.randomUUID w.drawn := by rw [huser]; rfl
    have htotp : pending.user.totp = some (p.createTotpSecret (w.drawn + 2)) := by rw [huser]
    have hpending : pending.user.pendingTotp = none := by rw [huser]; rfl
    refine ⟨Nat.le_add_right _ 4, .added pending.user w.drawn le_rfl (Nat.lt_add_of_pos_right (by decide)) hid
      (.inr ⟨w.drawn + 2, Nat.le_add_right _ _, Nat.add_lt_add_left (by decide) _, htotp⟩) hpending ?_ rfl rfl⟩
    -- Of those who wait, some are forgotten.
    have hsub : ((w.state.pendingInvitees.filter fun item ↦ now < item.expiresAt && item.invitationId ≠ invitation.id).map
        (·.user)).Sublist (w.state.pendingInvitees.map (·.user)) := List.filter_sublist.map _
    have hlast (users owner : List User) (invitees : List PendingInvitee) :
        (users ++ (owner ++ (invitees ++ [pending]).map (·.user))).Perm
          (pending.user :: (users ++ (owner ++ invitees.map (·.user)))) := by
      rw [List.map_append, List.map_singleton, ← List.append_assoc owner, ← List.append_assoc users]
      exact List.perm_append_singleton _ _
    refine (hlast _ _ _).subperm.trans ((List.subperm_cons _).mpr ?_)
    exact ((hsub.append_left _).append_left _).subperm
  | confirmed challenge totpCode pending secret step hfind hsecret hstep =>
    obtain ⟨before, after, hinvitees⟩ := List.append_of_mem (List.mem_of_find?_eq_some hfind)
    have hdigest : pending.challengeDigest = p.tokenDigest challenge := by simpa using List.find?_some hfind
    have hsub : ((w.state.pendingInvitees.filter (·.challengeDigest ≠ p.tokenDigest challenge)).map (·.user)).Sublist
        ((before ++ after).map (·.user)) := by
      apply List.Sublist.map
      rw [hinvitees, List.filter_append, List.filter_cons_of_neg (by simp [hdigest])]
      exact List.filter_sublist.append List.filter_sublist
    refine ⟨Nat.le_add_right _ 1, .changed pending.user { pending.user with lastTotpStep := some step }
      (w.state.users ++ ((w.state.pendingOwner.map (·.user)).toList ++ (before ++ after).map (·.user))) _ ?_ ?_ rfl
      (.taken secret step hsecret hstep (.inr ⟨hsecret, rfl⟩) (.inl rfl))
      (acceptedCodes_of_history [.accepted secret step, .created _ _ true] (List.append_assoc _ _ _)) (.inl rfl)⟩
    · unfold held
      rw [hinvitees]
      simp only [List.map_append, List.map_cons, ← List.append_assoc]
      exact List.perm_middle
    · refine (hmoved _ _ _).subperm.trans ((List.subperm_cons _).mpr ?_)
      exact ((hsub.append_left _).append_left _).subperm
  | roleChanged actorId userId name actor target role hactor hnamed hgranted htarget
  | statusChanged _ actorId userId status reason actor target hcall hactor htarget =>
    exact .of_changed (Nat.le_add_right _ 1) htarget rfl rfl rfl (.inl rfl) rfl (.kept rfl rfl (.inl rfl))
      (List.append_nil _).symm
  | serviceAccountCreated actorId username displayName actor record token hactor hname hfree hrecord =>
    have hid : record.id = p.randomUUID w.drawn := by rw [hrecord]; rfl
    have htotp : record.totp = none := by rw [hrecord]; rfl
    have hpending : record.pendingTotp = none := by rw [hrecord]; rfl
    exact ⟨Nat.le_add_right _ 5, .added record w.drawn le_rfl (Nat.lt_add_of_pos_right (Nat.succ_pos 4)) hid (.inl htotp) hpending
      (hmoved _ _ _).subperm (acceptedCodes_append _ rfl rfl) rfl⟩
  | tokenIssued => exact .of_kept (Nat.le_add_right _ 3) rfl rfl rfl rfl rfl
  | tokenRevoked => exact .of_kept (Nat.le_add_right _ 1) rfl rfl rfl rfl rfl
  | erased actorId userId reason actor target hactor htarget =>
    exact .of_changed (Nat.le_add_right _ 1) htarget rfl rfl rfl (.inl rfl) rfl (.lost rfl (.inl rfl)) (List.append_nil _).symm

theorem records_step (p : Platform) (w : World) (call : ℕ × Call) : Records p w (step p w call) := by
  obtain ⟨now, call⟩ := call
  cases call with
  | auth c => exact (perform_effect p now w c).records
  | directory c => exact (c.perform_effect p now w).records

end

end Noesar.Accounts
