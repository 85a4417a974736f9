import Noesar.Accounts.Holdings
import Noesar.Accounts.Inactive

namespace Noesar.Accounts.Recovery

open Lib World Inactive

section

variable (p : Platform)

def Recovers (w : World) (call : ℕ × Call) (userId : String) : Prop :=
  ∃ challenge password totpCode w' issued codes, call.2 = .auth (.completeRecovery challenge password totpCode) ∧
    w.completeRecovery p call.1 challenge password totpCode = .ok (w', issued, codes) ∧ issued.session.userId = userId

structure Bare (w : World) (now : ℕ) (userId : String) : Prop where
  passkeys : ∀ user ∈ w.state.users, user.id = userId → user.passkeys = []
  challenges : ∀ item ∈ w.state.loginChallenges, item.userId = userId → item.expiresAt < now
  terminals : ∀ terminal ∈ w.state.terminals, terminal.userId = userId → terminal.Spent now

/-- The clock does not go back, and an account that is recovered has nothing that the recovery leaves. -/
structure Thorough (s : World × ℕ) (call : ℕ × Call) : Prop where
  clock : s.2 ≤ call.1
  bare : ∀ userId, Recovers p s.1 call userId → Bare s.1 call.1 userId

/-- What there was before an account was recovered opens nothing of it afterwards, unless it is issued again. -/
def CutOff (calls : List (ℕ × Call)) : Prop :=
  ∀ first second recovery later userId, calls = first ++ (second ++ recovery :: later) →
    Recovers p (worldAfter p (first ++ second)) recovery userId →
    let early := (worldAfter p first).state
    let final := worldAfter p calls
    (∀ session ∈ early.sessions, ∀ token clock, p.tokenDigest token = session.tokenDigest →
      (final.authenticate p clock (some token)).2 = none) ∧
    (∀ item ∈ early.loginChallenges, item.userId = userId → ∀ challenge clock ip, recovery.1 ≤ clock →
      p.tokenDigest challenge = item.challengeDigest →
        (∀ totpCode, (final.completeLogin p clock challenge totpCode ip).2 = .error badChallenge) ∧
        ∀ credentialId response rpId origin,
          (final.completeLoginWithPasskey p clock challenge credentialId response ip rpId origin).2 = .error badChallenge) ∧
    (∀ code clock ip, (∀ record ∈ final.state.attachCodes, record.codeDigest = p.tokenDigest (normalizeAttachCode p code) →
      record ∈ (worldAfter p (first ++ (second ++ [recovery]))).state.attachCodes) →
        ∃ refusal, (final.redeemAttachCode p clock code ip).2 = .error refusal) ∧
    (∀ terminal ∈ early.terminals, terminal.userId = userId → ∀ token clock ip, recovery.1 ≤ clock →
      p.tokenDigest token = terminal.tokenDigest → ∃ refusal, (final.resumeTerminal p clock token ip).2 = .error refusal) ∧
    (∀ credentialId, (∀ call ∈ later, ¬call.2.Registers userId credentialId) →
      ∀ challenge response ip rpId origin clock issued,
        (final.completeLoginWithPasskey p clock challenge credentialId response ip rpId origin).2 = .ok issued →
          issued.session.userId ≠ userId) ∧
    ∀ user ∈ early.users, user.id = userId → ∀ item ∈ user.recoveryCodes, ∀ code,
      p.tokenDigest (p.toUpperCase (trim code)) = item.digest → ∀ username ip clock,
        ∃ refusal, (final.beginRecovery p clock username code false ip).2 = .error refusal

structure Kept (s : World × ℕ) : Prop where
  identified : s.1.Identified p
  issuance : Issuance p s.1
  minting : Minting p 0 (fun _ ↦ False) s.1
  terminals : Drawn Terminal.tokenDigest p.digestAt Terminal.userId s.1.drawn s.1.state.terminals
  codes : Drawn (·.2.digest) p.codeAt (·.1) s.1.drawn s.1.recoveryCodes

end

section

variable {p : Platform} {w w' : World} {now : ℕ}

theorem Kept.tick (hfresh : p.Fresh) {s : World × ℕ} (h : Kept p s) (call : ℕ × Call) : Kept p (tick p s call) := by
  obtain ⟨newTerminal, hsame, hterminals⟩ := terminals_step p s.1 call
  obtain ⟨newCode, howner, hcodes⟩ := codes_step p s.1 call
  refine ⟨Identified.step hfresh h.identified call, h.issuance.step hfresh call, h.minting.step (Nat.zero_le _) call, ?_, ?_⟩
  · refine h.terminals.step hfresh.token hterminals ?_ ?_
    · exact fun y x hlingers ↦ hlingers.1
    · exact fun x y hx hy _ ↦ congrArg Terminal.userId (hsame x y hx hy)
  · refine h.codes.step hfresh.recoveryCode hcodes ?_ ?_
    · exact fun y x heq ↦ heq
    · exact fun x y hx hy _ ↦ howner x y hx hy

theorem kept_started (p : Platform) : Kept p started := by
  refine ⟨identified_initial p, issuance_initial p, ⟨?_, ?_⟩, ⟨?_, ?_⟩, ?_, ?_⟩
  · intro s hs
    cases hs
  · intro code hcode
    cases hcode
  · intro terminal hterminal
    cases hterminal
  · intro terminal hterminal
    cases hterminal
  · intro item hitem
    cases hitem
  · intro item hitem
    cases hitem

/-! ### What is refused -/

theorem redeem_refused {code ip : String} (h : ∀ found ∈ w.state.attachCodes,
    found.codeDigest = p.tokenDigest (normalizeAttachCode p code) → ∀ s ∈ w.state.sessions, s.id ≠ found.sessionId) :
    ∃ refusal, (w.redeemAttachCode p now code ip).2 = .error refusal := by
  unfold redeemAttachCode
  dsimp only
  split
  · exact ⟨_, rfl⟩
  · split
    · exact ⟨_, rfl⟩
    · rename_i found hfound
      split
      · exact ⟨_, rfl⟩
      · rename_i minting hminting
        refine absurd ?_ (h found ?_ ?_ minting (List.mem_of_find?_eq_some hminting))
        · simpa using List.find?_some hminting
        · exact (List.mem_filter.mp (List.mem_of_find?_eq_some hfound)).1
        · simpa using List.find?_some hfound

theorem resume_refused {token ip : String}
    (h : ∀ terminal ∈ w.state.terminals, terminal.tokenDigest = p.tokenDigest token → terminal.Spent now) :
    ∃ refusal, (w.resumeTerminal p now token ip).2 = .error refusal := by
  unfold resumeTerminal
  dsimp only
  split
  · exact ⟨_, rfl⟩
  · split
    · exact ⟨_, rfl⟩
    · rename_i found hfound
      have hspent := h found (List.mem_of_find?_eq_some hfound) (by simpa using List.find?_some hfound)
      have hdead : (found.revokedAt.isSome || decide (found.expiresAt ≤ now)) = true := by
        simpa [Terminal.Spent] using hspent
      rw [if_pos hdead]
      exact ⟨_, rfl⟩

theorem passkey_refused {userId challenge credentialId response ip rpId origin : String} {issued : Issued}
    (h : ∀ user ∈ w.state.users, user.id = userId → ∀ key ∈ user.passkeys, key.id ≠ credentialId)
    (hok : (w.completeLoginWithPasskey p now challenge credentialId response ip rpId origin).2 = .ok issued) :
    issued.session.userId ≠ userId := by
  unfold completeLoginWithPasskey at hok
  split at hok
  · cases hok
  · rename_i item user hfound
    split at hok
    · cases hok
    · rename_i passkey hpasskey
      split at hok
      · cases hok
      · cases hok
        simp only [challengedUser, bind_ok, demand_ok] at hfound
        obtain ⟨_, _, account, huser, heq⟩ := hfound
        cases heq
        intro hid
        exact h user (user_mem huser) hid passkey (List.mem_of_find?_eq_some hpasskey) (by simpa using List.find?_some hpasskey)

theorem recovery_refused {username code ip : String}
    (h : ∀ user ∈ w.state.users, ∀ item ∈ user.recoveryCodes, item.digest ≠ p.tokenDigest (p.toUpperCase (trim code))) :
    ∃ refusal, (w.beginRecovery p now username code false ip).2 = .error refusal := by
  unfold beginRecovery
  dsimp only
  split
  · exact ⟨_, rfl⟩
  · split
    · exact ⟨_, rfl⟩
    · rename_i user hfound
      have hnone : recoveryProved p user code false = false := by
        have hcodes := h user (List.mem_of_find?_eq_some hfound)
        simp only [recoveryProved, Bool.false_or, Bool.and_eq_false_iff]
        right
        rw [List.any_eq_false]
        intro item hitem
        simp [hcodes item hitem]
      rw [if_pos (by rw [hnone]; rfl)]
      exact ⟨_, rfl⟩

/-! ### What a recovery does -/

theorem recovers_ok {call : ℕ × Call} {userId : String} (h : Recovers p w call userId) :
    ∃ pending password step user, w.user userId = some user ∧
      Accounts.step p w call = (((((w.updateUser userId (w.recovered p pending password step)).update fun next ↦
        { next with pendingRecovery := none, sessions := [] }).note [.accepted pending.totp step]).draw 11).createSession p
          call.1 (w.recovered p pending password step user) true).1 := by
  obtain ⟨challenge, password, totpCode, w', issued, codes, hcall, hok, hid⟩ := h
  obtain ⟨clock, call⟩ := call
  cases hcall
  have hperform : Accounts.step p w (clock, .auth (.completeRecovery challenge password totpCode)) = w' := by
    change (w.attempt (w.completeRecovery p clock challenge password totpCode)).1 = w'
    rw [hok]
    rfl
  rw [hperform]
  simp only [completeRecovery, bind_ok, demand_ok, exists_unit, require_ok, Option.filter_eq_some_iff] at hok
  obtain ⟨pending, _, _, user, huser, _, consumed, _, hok⟩ := hok
  cases consumed with
  | invalid => cases hok
  | replayed => cases hok
  | accepted step =>
    cases hok
    have hsame : pending.userId = userId := (user_id huser).symm.trans hid
    rw [hsame] at huser
    exact ⟨pending, password, step, user, huser, by rw [hsame]⟩

theorem recovered_sessions {call : ℕ × Call} {userId : String} (h : Recovers p w call userId) :
    ∀ s ∈ (Accounts.step p w call).state.sessions, NewSession p w.drawn (Accounts.step p w call).drawn s := by
  obtain ⟨pending, password, step, user, _, hstep⟩ := recovers_ok h
  rw [hstep]
  intro s hs
  rcases createSession_sessions hs with hold | rfl
  · cases hold
  · exact nextSession_new (Nat.le_add_right _ 11)

section

variable {call : ℕ × Call} {userId : String} (h : Recovers p w call userId)

include h

theorem recovered_record (hidentified : w.Identified p) {user' : User} (huser' : user' ∈ (Accounts.step p w call).held)
    (hid : user'.id = userId) : user'.recoveryCodes = recoveryDigests p w.drawn ∧ ∃ user ∈ w.state.users, user.id =
    userId ∧ user'.passkeys = user.passkeys := by
  obtain ⟨pending, password, step, user, huser, hstep⟩ := recovers_ok h
  rw [hstep] at huser'
  have hcases : user' = w.recovered p pending password step user ∨ user' ∈ w.held ∧ user'.id ≠ userId := by
    refine Identified.modified hidentified huser ?_ ?_ ?_ huser'
    · rfl
    · rfl
    · rfl
  rcases hcases with rfl | ⟨_, hne⟩
  · exact ⟨rfl, user, user_mem huser, user_id huser, rfl⟩
  · exact absurd hid hne

theorem recovered_minting : Minting p w.drawn (· ∈ (Accounts.step p w call).state.attachCodes) (Accounts.step p w call)
    :=
  ⟨fun s hs ↦ (recovered_sessions h s hs).id, fun _ hcode ↦ .inl hcode⟩

theorem recovered_attachCodes : (Accounts.step p w call).state.attachCodes = w.state.attachCodes := by
  obtain ⟨pending, password, step, user, _, hstep⟩ := recovers_ok h
  rw [hstep]
  rfl

/-! ### What is cut off -/

end

theorem kept_after (hfresh : p.Fresh) (calls : List (ℕ × Call)) : Kept p (Run.after (tick p) started calls) :=
  Run.invariant (I := Kept p) (fun _ call h ↦ h.tick hfresh call) (kept_started p) calls

/-- What `keep` says of the terminals with a digest. -/
def TerminalsOnly (p : Platform) (digest : String) (keep : Terminal → Prop) (s : World × ℕ) : Prop :=
  Only Terminal.tokenDigest p.digestAt digest keep s.1.drawn s.1.state.terminals

/-- What `keep` says of whose the recovery codes with a digest are. -/
def CodesOnly (p : Platform) (digest : String) (keep : String → Prop) (s : World × ℕ) : Prop :=
  Only (·.2.digest) p.codeAt digest (fun item ↦ keep item.1) s.1.drawn s.1.recoveryCodes

def NoKey (userId key : String) (w : World) : Prop := ∀ user ∈ w.held, user.id = userId → ∀ passkey ∈ user.passkeys, passkey.id ≠ key

variable {s : World × ℕ} {call : ℕ × Call} {digest userId : String}

theorem TerminalsOnly.tick (hfresh : p.Fresh) {keep : Terminal → Prop} (h : TerminalsOnly p digest keep s)
    (hkeep : ∀ y x, Lingers call.1 y x → keep y → keep x) : TerminalsOnly p digest keep (tick p s call) := by
  obtain ⟨new, _, hissue⟩ := terminals_step p s.1 call
  exact h.step hfresh.token hissue hkeep

theorem CodesOnly.tick (hfresh : p.Fresh) {keep : String → Prop} (h : CodesOnly p digest keep s) (call : ℕ × Call) :
    CodesOnly p digest keep (tick p s call) := by
  obtain ⟨new, _, hissue⟩ := codes_step p s.1 call
  refine h.step hfresh.recoveryCode hissue ?_
  intro y x howner hkeep
  rw [← howner]
  exact hkeep

theorem NoKey.step {key : String} (h : NoKey userId key w) (hcall : ¬call.2.Registers userId key) :
    NoKey userId key (Accounts.step p w call) := by
  intro user huser hid passkey hpasskey hsame
  rcases keys_step p w call huser hpasskey with ⟨old, hold, holdId, entry, hentry, hkey⟩ | hnew
  · exact h old hold (holdId.trans hid) entry hentry (hkey.trans hsame)
  · rw [hid, hsame] at hnew
    exact hcall hnew

theorem sessions_gone (hfresh : p.Fresh) {keep : String → Prop} (h : SessionsOnly p digest keep s)
    (hrecovers : Recovers p s.1 call userId) : SessionsOnly p digest (fun _ ↦ False) (Inactive.tick p s call) := by
  refine ⟨(h.tick hfresh call).drawn, ?_⟩
  intro t ht hsame
  obtain ⟨m, hm, hdraw⟩ := h.drawn
  obtain ⟨k, hk, _, hdraw'⟩ := (recovered_sessions hrecovers t ht).token
  have hdrawn : m = k := hfresh.token (hdraw.trans (hsame.symm.trans hdraw'.symm))
  omega

theorem codes_gone (hfresh : p.Fresh) (hidentified : s.1.Identified p) (h : CodesOnly p digest (· = userId) s)
    (hrecovers : Recovers p s.1 call userId) : CodesOnly p digest (fun _ ↦ False) (Inactive.tick p s call) := by
  refine (h.tick hfresh call).mono ?_
  rintro ⟨owner, code⟩ hmem hdigest howner
  obtain ⟨user, huser, hid, hcode⟩ := mem_recoveryCodes.mp hmem
  rw [(recovered_record hrecovers hidentified huser (hid.trans howner)).1] at hcode
  obtain ⟨m, hm, hdraw⟩ := h.drawn
  obtain ⟨k, hk, _, hdraw'⟩ := mem_recoveryDigests hcode
  have hsame : m = k := hfresh.recoveryCode (hdraw.trans (hdigest.symm.trans hdraw'.symm))
  omega

theorem terminals_spent (hfresh : p.Fresh) {now : ℕ} (h : TerminalsOnly p digest (Terminal.Spent now) s) (hnow : now ≤ s.2)
    {calls : List (ℕ × Call)} (hcalls : Run.Along (Inactive.tick p) (Thorough p) s calls) :
    TerminalsOnly p digest (Terminal.Spent now) (Run.after (Inactive.tick p) s calls) := by
  refine (hcalls.invariant (I := fun s ↦ now ≤ s.2 ∧ TerminalsOnly p digest (Terminal.Spent now) s) ?_ ⟨hnow, h⟩).2
  intro s call hs hcall
  have hlater : now ≤ call.1 := hs.1.trans hcall.clock
  exact ⟨hlater, hs.2.tick hfresh fun y x hlingers hspent ↦ hlingers.2 now hlater hspent⟩

theorem minted_before (hfresh : p.Fresh) (hminting : Minting p 0 (fun _ ↦ False) s.1) (hrecovers : Recovers p s.1 call userId)
    (later : List (ℕ × Call)) {found : AttachCode}
    (hfound : found ∈ (Inactive.tick p s call).1.state.attachCodes) :
    ∀ t ∈ (Run.after (Inactive.tick p) (Inactive.tick p s call) later).1.state.sessions, t.id ≠ found.sessionId := by
  have hlater : s.1.drawn ≤ (Run.after (Inactive.tick p) (Inactive.tick p s call) later).1.drawn ∧
      Minting p s.1.drawn (· ∈ (Accounts.step p s.1 call).state.attachCodes)
        (Run.after (Inactive.tick p) (Inactive.tick p s call) later).1 := by
    refine Run.invariant (I := fun v : World × ℕ ↦ s.1.drawn ≤ v.1.drawn ∧
      Minting p s.1.drawn (· ∈ (Accounts.step p s.1 call).state.attachCodes) v.1) ?_
      ⟨drawn_step call, recovered_minting hrecovers⟩ later
    exact fun v next hv ↦ ⟨hv.1.trans (drawn_step next), hv.2.step hv.1 next⟩
  intro t ht hid
  have hmem : found ∈ s.1.state.attachCodes := recovered_attachCodes hrecovers ▸ hfound
  rcases hminting.codes found hmem with hnone | ⟨m, _, hm, hdraw⟩
  · exact hnone
  · obtain ⟨k, hk, _, hdraw'⟩ := hlater.2.sessions t ht
    have hsame : m = k := hfresh.uuid (hdraw.trans (hid.symm.trans hdraw'.symm))
    omega

/-- Where an account that is recovered has nothing that the recovery leaves, what there was before opens nothing of it. -/
theorem recovery_cuts_off (p : Platform) (hfresh : p.Fresh) (calls : List (ℕ × Call))
    (h : Run.Along (tick p) (Thorough p) started calls) : CutOff p calls := by
  intro first second recovery later userId hcalls hrecovers
  subst hcalls
  obtain ⟨_, hrest⟩ := Run.Along.append.mp h
  obtain ⟨_, hthorough, hlater⟩ := Run.Along.append.mp hrest
  have hearly := kept_after hfresh first
  have hbefore := kept_after hfresh (first ++ second)
  unfold worldAfter at hrecovers ⊢
  simp only [Run.after_append, Run.after_cons, Run.after_nil] at hbefore hrecovers ⊢
  generalize Run.after (tick p) started first = s₁ at *
  have hbare := hthorough.bare userId hrecovers
  refine ⟨?_, ?_, ?_, ?_, ?_, ?_⟩
  · intro session hsession token clock htoken
    have hmine : SessionsOnly p session.tokenDigest (fun _ ↦ True) (Run.after (tick p) s₁ second) :=
      Run.invariant (I := SessionsOnly p session.tokenDigest fun _ ↦ True) (fun s call hs ↦ hs.tick hfresh call)
        ⟨hearly.issuance.sessions session hsession, fun _ _ _ ↦ trivial⟩ second
    have hend := Run.invariant (I := SessionsOnly p session.tokenDigest fun _ ↦ False) (fun s call hs ↦ hs.tick hfresh call)
      (sessions_gone hfresh hmine hrecovers) later
    apply authenticate_none
    intro t ht hsame
    exact hend.sessions t ht (hsame.trans htoken)
  · intro item hitem huser challenge clock ip hclock hchallenge
    have hmine : ChallengesOnly p item.challengeDigest (· = item) (Run.after (tick p) s₁ second) := by
      refine Run.invariant (fun s call hs ↦ hs.tick hfresh call) ⟨hearly.issuance.challenges item hitem, ?_⟩ second
      intro other hother hsame
      exact hearly.issuance.single other hother item hitem hsame
    have hexpired : ChallengesOnly p item.challengeDigest (·.expiresAt < recovery.1) (Run.after (tick p) s₁ second) := by
      refine ⟨hmine.drawn, ?_⟩
      intro other hother hsame
      have heq := hmine.challenges other hother hsame
      subst heq
      exact hbare.challenges other hother huser
    have hend := Run.invariant (I := ChallengesOnly p item.challengeDigest (·.expiresAt < recovery.1))
      (fun s call hs ↦ hs.tick hfresh call) hexpired (recovery :: later)
    apply refused_completions
    intro other hother hsame
    exact (hend.challenges other hother (hsame.trans hchallenge)).trans_le hclock
  · intro code clock ip hold
    apply redeem_refused
    intro found hfound hdigest
    exact minted_before hfresh hbefore.minting hrecovers later (hold found hfound hdigest)
  · intro terminal hterminal huser token clock ip hclock htoken
    have hmine : TerminalsOnly p terminal.tokenDigest (·.userId = terminal.userId) (Run.after (tick p) s₁ second) :=
      Run.invariant (I := TerminalsOnly p terminal.tokenDigest (·.userId = terminal.userId))
        (fun s call hs ↦ hs.tick hfresh fun y x hlingers howner ↦ hlingers.1.symm.trans howner)
        (hearly.terminals.only hterminal) second
    have hspent : TerminalsOnly p terminal.tokenDigest (Terminal.Spent recovery.1) (Run.after (tick p) s₁ second) :=
      hmine.mono fun other hother _ howner ↦ hbare.terminals other hother (howner.trans huser)
    have hkept : TerminalsOnly p terminal.tokenDigest (Terminal.Spent recovery.1)
        (tick p (Run.after (tick p) s₁ second) recovery) :=
      hspent.tick hfresh fun y x hlingers hy ↦ hlingers.2 recovery.1 le_rfl hy
    have hend := terminals_spent hfresh hkept le_rfl hlater
    apply resume_refused
    intro other hother hsame
    exact (hend.all other hother (hsame.trans htoken)).imp_right fun hexpired ↦ hexpired.trans hclock
  · intro credentialId hregisters challenge response ip rpId origin clock issued hok
    have hstart : NoKey userId credentialId (tick p (Run.after (tick p) s₁ second) recovery).1 := by
      intro user huser hid passkey hpasskey
      obtain ⟨_, before, hmem, hbeforeId, hsame⟩ := recovered_record hrecovers hbefore.identified huser hid
      rw [hsame, hbare.passkeys before hmem hbeforeId] at hpasskey
      cases hpasskey
    have hend : NoKey userId credentialId (Run.after (tick p) (tick p (Run.after (tick p) s₁ second) recovery) later).1 := by
      have hnone : Run.Along (tick p) (fun _ call ↦ ¬call.2.Registers userId credentialId)
          (tick p (Run.after (tick p) s₁ second) recovery) later := Run.Along.of_mem hregisters
      exact hnone.invariant (I := fun s ↦ NoKey userId credentialId s.1) (fun s call hs hcall ↦ hs.step hcall) hstart
    exact passkey_refused (fun user huser hid ↦ hend user (held_user huser) hid) hok
  · intro user huser hid item hitem code hcode username ip clock
    have hmem : (user.id, item) ∈ s₁.1.recoveryCodes := mem_recoveryCodes.mpr ⟨user, held_user huser, rfl, hitem⟩
    have hmine : CodesOnly p item.digest (· = userId) (Run.after (tick p) s₁ second) := by
      refine Run.invariant (I := CodesOnly p item.digest (· = userId)) (fun s call hs ↦ hs.tick hfresh call) ?_ second
      exact (hearly.codes.only hmem).mono fun _ _ _ howner ↦ howner.trans hid
    have hend := Run.invariant (I := CodesOnly p item.digest fun _ ↦ False) (fun s call hs ↦ hs.tick hfresh call)
      (codes_gone hfresh hbefore.identified hmine hrecovers) later
    apply recovery_refused
    intro other hother entry hentry hsame
    exact hend.all (other.id, entry) (mem_recoveryCodes.mpr ⟨other, held_user hother, rfl, hentry⟩) (hsame.trans hcode)

end

def founded : List (ℕ × Call) :=
  [(90000, .auth (.beginSetup (some "token") "token" "alice" none "correct horse battery")),
    (90000, .auth (.confirmSetup (tally 't' 1) "123456"))]

/-- The owner recovers the account with one of its codes, after `n` values were made. -/
def recovering (n : ℕ) : List (ℕ × Call) :=
  [(90000, .auth (.beginRecovery "alice" (tally 'r' 4) false "ip")),
    (90000, .auth (.completeRecovery (tally 't' (n + 1)) "another long password" "123456"))]

theorem Thorough.of_nothing {p : Platform} {s : World × ℕ} {call : ℕ × Call} (hclock : s.2 ≤ call.1)
    (hpasskeys : ∀ user ∈ s.1.state.users, user.passkeys = []) (hchallenges : s.1.state.loginChallenges = [])
    (hterminals : s.1.state.terminals = []) : Thorough p s call := by
  refine ⟨hclock, ?_⟩
  intro userId _
  refine ⟨fun user huser _ ↦ hpasskeys user huser, ?_, ?_⟩
  · intro item hitem
    rw [hchallenges] at hitem
    cases hitem
  · intro terminal hterminal
    rw [hterminals] at hterminal
    cases hterminal

theorem recovery_cuts_off_alice : CutOff .tallying (founded ++ recovering 17) := by
  apply recovery_cuts_off .tallying Platform.tallying_fresh
  exact ⟨.of_nothing (by decide) (by decide) (by decide) (by decide), .of_nothing (by decide) (by decide) (by decide) (by decide),
    .of_nothing (by decide) (by decide) (by decide) (by decide), .of_nothing (by decide) (by decide) (by decide) (by decide),
    trivial⟩

def remembering : ℕ × Call := (90000, .auth (.rememberTerminal "uu" (tally 'u' 16) none))

/-- A terminal that was remembered before the recovery opens a session after it. -/
theorem terminal_outlives_recovery : ¬∀ (p : Platform) (_ : p.Fresh) (calls : List (ℕ × Call)), CutOff p calls := by
  intro h
  have hremembered : ∃ terminal ∈ (worldAfter .tallying (founded ++ [remembering])).state.terminals,
      terminal.userId = "uu" ∧ terminal.tokenDigest = tally 't' 17 := by decide
  obtain ⟨record, hrecord, huser, hdigest⟩ := hremembered
  have hrecovers : Recovers .tallying (worldAfter .tallying ((founded ++ [remembering]) ++ (recovering 19).take 1))
      (90000, .auth (.completeRecovery (tally 't' 20) "another long password" "123456")) "uu" :=
    ⟨_, _, _, _, _, _, rfl, rfl, rfl⟩
  obtain ⟨_, _, _, hterminals, _⟩ := h .tallying Platform.tallying_fresh (founded ++ [remembering] ++ recovering 19)
    (founded ++ [remembering]) ((recovering 19).take 1) _ [] "uu" rfl hrecovers
  obtain ⟨refusal, hrefused⟩ := hterminals record hrecord huser (tally 't' 17) 90000 "ip" le_rfl hdigest.symm
  have hopened : ((worldAfter .tallying (founded ++ [remembering] ++ recovering 19)).resumeTerminal .tallying 90000
      (tally 't' 17) "ip").2.isOk = true := by decide
  rw [hrefused] at hopened
  cases hopened

end Noesar.Accounts.Recovery
