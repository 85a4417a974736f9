import Noesar.Accounts.Origins

namespace Noesar.Accounts.Inactive

open Lib World

def opens : AuthCall → Bool
  | .beginLogin _ _ _ => true
  | .completeLogin _ _ _ => true
  | .completeLoginWithPasskey _ _ _ _ _ _ => true
  | .redeemAttachCode _ _ => true
  | .resumeTerminal _ _ => true
  | _ => false

def closes : DirectoryCall → Option String
  | .disableUser _ userId _ => some userId
  | .revokeUser _ userId _ => some userId
  | .eraseUser _ userId _ => some userId
  | _ => none

section

variable (p : Platform)

def Accepted (w : World) (now : ℕ) (call : DirectoryCall) : Prop := call.perform p now w ≠ w

def tick (s : World × ℕ) (call : ℕ × Call) : World × ℕ := (step p s.1 call, call.1)

def started : World × ℕ := (World.initial, 0)

def worldAfter (calls : List (ℕ × Call)) : World := (Run.after (tick p) started calls).1

/-- The clock does not go back, and an account that is disabled, revoked or erased has no login challenge that lasts. -/
structure Vacated (s : World × ℕ) (call : ℕ × Call) : Prop where
  clock : s.2 ≤ call.1
  challenges : ∀ c userId, call.2 = .directory c → closes c = some userId → Accepted p s.1 call.1 c →
    ∀ item ∈ s.1.state.loginChallenges, item.userId = userId → item.expiresAt < call.1

def Guarded (s : World × ℕ) (call : ℕ × Call) : Prop :=
  ∀ c, call.2 = .auth c → opens c = true → ∀ session ∈ (tick p s call).1.state.sessions,
    (∀ old ∈ s.1.state.sessions, old.tokenDigest ≠ session.tokenDigest) →
      ∃ user, s.1.user session.userId = some user ∧ isActive user = true

def ClosedForGood (calls : List (ℕ × Call)) : Prop :=
  ∀ first second now c later userId, calls = first ++ (second ++ (now, .directory c) :: later) →
    closes c = some userId → Accepted p (worldAfter p (first ++ second)) now c →
    (∀ session ∈ (worldAfter p first).state.sessions, session.userId = userId →
      ∀ token clock, p.tokenDigest token = session.tokenDigest →
        ((worldAfter p calls).authenticate p clock (some token)).2 = none) ∧
    ∀ item ∈ (worldAfter p first).state.loginChallenges, item.userId = userId →
      ∀ challenge clock ip, now ≤ clock → p.tokenDigest challenge = item.challengeDigest →
        (∀ totpCode, ((worldAfter p calls).completeLogin p clock challenge totpCode ip).2 = .error badChallenge) ∧
        ∀ credentialId response rpId origin, ((worldAfter p calls).completeLoginWithPasskey p clock challenge credentialId
          response ip rpId origin).2 = .error badChallenge

/-- Who is about to be an account will be an active one. -/
structure Entrants (w : World) : Prop where
  owner : ∀ pending, w.state.pendingOwner = some pending → isActive pending.user = true
  invitees : ∀ pending ∈ w.state.pendingInvitees, isActive pending.user = true

structure Vacant (s : World × ℕ) : Prop where
  identified : s.1.Identified p
  issuance : Issuance p s.1
  entrants : Entrants s.1
  challenges : ∀ item ∈ s.1.state.loginChallenges, s.2 ≤ item.expiresAt →
    ∀ user ∈ s.1.state.users, user.id = item.userId → isActive user = true

end

section

variable {p : Platform} {w w' : World} {now : ℕ}

theorem isActive_of_status {user user' : User} (h : user'.status = user.status) : isActive user' = isActive user := by
  simp only [isActive, h]

def Remains (w w' : World) : Prop := ∀ user' ∈ w'.state.users, isActive user' = false →
  ∃ user ∈ w.state.users, user.id = user'.id ∧ isActive user = false

theorem Remains.of_modify {sought : User → Bool} {f : User → User}
    (h : w'.state.users = modifyFirst sought f w.state.users)
    (hf : ∀ user, (f user).id = user.id ∧ (f user).status = user.status) : Remains w w' := by
  intro user' huser' hinactive
  rw [h] at huser'
  rcases mem_modifyFirst huser' with huser' | ⟨user, hfind, rfl⟩
  · exact ⟨user', huser', rfl, hinactive⟩
  · obtain ⟨hid, hstatus⟩ := hf user
    exact ⟨user, List.mem_of_find?_eq_some hfind, hid.symm, (isActive_of_status hstatus).symm.trans hinactive⟩

theorem Remains.of_append {users : List User} {record : User} (h : w'.state.users = users ++ [record])
    (hold : ∀ user ∈ users, user ∈ w.state.users) (hactive : isActive record = true) : Remains w w' := by
  intro user' huser' hinactive
  rw [h] at huser'
  rcases List.mem_append.mp huser' with huser' | huser'
  · exact ⟨user', hold user' huser', rfl, hinactive⟩
  · rw [List.mem_singleton.mp huser', hactive] at hinactive
    cases hinactive

theorem remains_of_auth {call : AuthCall} (h : AuthEffect p now w call w') (hentrants : Entrants w) : Remains w w' := by
  intro user' huser' hinactive
  cases h.accounts with
  | same hwho =>
    obtain ⟨user, huser, hsame⟩ := List.mem_map.mp (hwho ▸ List.mem_map_of_mem huser')
    simp only [who, Prod.mk.injEq] at hsame
    exact ⟨user, huser, hsame.1, (isActive_of_status hsame.2.2.2).trans hinactive⟩
  | first user hrole hstatus husers =>
    refine Remains.of_append (w := w) (List.nil_append [user] ▸ husers) ?_ (by rw [isActive, hstatus]; rfl) user' huser' hinactive
    intro old hold
    cases hold
  | owner pending user hpending hwho husers =>
    simp only [who, Prod.mk.injEq] at hwho
    refine Remains.of_append husers (fun old hold ↦ (List.mem_filter.mp hold).1) ?_ user' huser' hinactive
    exact (isActive_of_status hwho.2.2.2).trans (hentrants.owner pending hpending)

variable {call : DirectoryCall} {s : World × ℕ}

theorem remains_of_directory (h : DirectoryEffect p now w call w') (hentrants : Entrants w) {user' : User}
    (huser' : user' ∈ w'.state.users) (hinactive : isActive user' = false) :
    (∃ user ∈ w.state.users, user.id = user'.id ∧ isActive user = false) ∨
      closes call = some user'.id ∧ w.drawn < w'.drawn := by
  cases h with
  | joined =>
    exact .inl (Remains.of_append rfl (fun user huser ↦ huser) rfl user' huser' hinactive)
  | confirmed challenge totpCode pending secret step hfind =>
    refine .inl (Remains.of_append rfl (fun user huser ↦ huser) ?_ user' huser' hinactive)
    exact hentrants.invitees pending (List.mem_of_find?_eq_some hfind)
  | serviceAccountCreated actorId username displayName actor record token hactor hname hfree hrecord =>
    refine .inl (Remains.of_append rfl (fun user huser ↦ huser) ?_ user' huser' hinactive)
    rw [hrecord]
    rfl
  | roleChanged =>
    refine .inl (Remains.of_modify rfl ?_ user' huser' hinactive)
    intro user
    exact ⟨rfl, rfl⟩
  | statusChanged _ actorId userId status reason actor target hcall =>
    rcases mem_modifyFirst huser' with huser' | ⟨user, hfind, rfl⟩
    · exact .inl ⟨user', huser', rfl, hinactive⟩
    · have hid : user.id = userId := by simpa using List.find?_some hfind
      refine .inr ⟨?_, Nat.lt_succ_self _⟩
      cases call with
      | disableUser | revokeUser =>
        cases hcall
        exact congrArg some hid.symm
      | reinstateUser =>
        cases hcall
        cases hinactive
      | _ => cases hcall
  | erased actorId userId =>
    rcases mem_modifyFirst huser' with huser' | ⟨user, hfind, rfl⟩
    · exact .inl ⟨user', huser', rfl, hinactive⟩
    · have hid : user.id = userId := by simpa using List.find?_some hfind
      exact .inr ⟨congrArg some hid.symm, Nat.lt_succ_self _⟩
  | _ => exact .inl ⟨user', huser', rfl, hinactive⟩

theorem Entrants.auth {call : AuthCall} (h : Entrants w) (heffect : AuthEffect p now w call w') : Entrants w' := by
  refine ⟨?_, ?_⟩
  · intro pending hpending
    rcases heffect.pendingOwner with hsame | hnone | ⟨begun, hbegun, _, hstatus⟩
    · exact h.owner pending (hsame ▸ hpending)
    · rw [hnone] at hpending
      cases hpending
    · rw [hbegun, Option.some.injEq] at hpending
      rw [← hpending, isActive, hstatus]
      rfl
  · intro pending hpending
    rw [heffect.apart.pendingInvitees] at hpending
    exact h.invitees pending hpending

theorem Entrants.directory (h : Entrants w) (heffect : DirectoryEffect p now w call w') :
    Entrants w' := by
  cases heffect with
  | claimed token password displayName invitation pending hfind hrevoked haccepted hrole hdigest hid huser =>
    refine ⟨h.owner, ?_⟩
    intro other hother
    rcases List.mem_append.mp hother with hother | hother
    · exact h.invitees other (List.mem_filter.mp hother).1
    · rw [List.mem_singleton.mp hother, huser]
      rfl
  | confirmed => exact ⟨h.owner, fun other hother ↦ h.invitees other (List.mem_filter.mp hother).1⟩
  | _ => exact ⟨h.owner, h.invitees⟩

theorem Vacant.tick (hfresh : p.Fresh) (h : Vacant p s) {call : ℕ × Call} (hcall : Vacated p s call) :
    Vacant p (tick p s call) := by
  refine ⟨Identified.step hfresh h.identified call, h.issuance.step hfresh call, ?_, ?_⟩
  · obtain ⟨now, call⟩ := call
    cases call with
    | auth c => exact h.entrants.auth (perform_effect p now s.1 c)
    | directory c => exact h.entrants.directory (c.perform_effect p now s.1)
  · intro item hitem hlive user' huser' hid
    by_contra hnot
    have hinactive : isActive user' = false := by simpa using hnot
    obtain ⟨now, call⟩ := call
    have hclock : s.2 ≤ now := hcall.clock
    cases call with
    | auth c =>
      have heffect := perform_effect p now s.1 c
      obtain ⟨user, huser, hsame, hwas⟩ := remains_of_auth heffect h.entrants user' huser' hinactive
      rcases heffect.loginChallenges hitem with hold | ⟨_, _, owner, howner, hactive, howned⟩
      · rw [h.challenges item hold (hclock.trans hlive) user huser (hsame.trans hid)] at hwas
        cases hwas
      · -- The challenge was given to an active account, and no other has its id.
        have hfound := Identified.user_eq h.identified howner
        rw [← howned, ← hid, ← hsame, Identified.user_eq h.identified huser] at hfound
        cases hfound
        rw [hactive] at hwas
        cases hwas
    | directory c =>
      have heffect := c.perform_effect p now s.1
      have hold : item ∈ s.1.state.loginChallenges := heffect.loginChallenges ▸ hitem
      rcases remains_of_directory heffect h.entrants huser' hinactive with ⟨user, huser, hsame, hwas⟩ | ⟨hcloses, hdrawn⟩
      · rw [h.challenges item hold (hclock.trans hlive) user huser (hsame.trans hid)] at hwas
        cases hwas
      · have haccepted : Accepted p s.1 now c := by
          intro hsame
          rw [hsame] at hdrawn
          exact lt_irrefl _ hdrawn
        have hexpired := hcall.challenges c user'.id rfl hcloses haccepted item hold hid.symm
        exact absurd hlive (Nat.not_le.mpr hexpired)

theorem vacant_started (p : Platform) : Vacant p started := by
  refine ⟨identified_initial p, issuance_initial p, ⟨?_, ?_⟩, ?_⟩
  · intro pending hpending
    cases hpending
  · intro pending hpending
    cases hpending
  · intro item hitem
    cases hitem

theorem vacant_after (hfresh : p.Fresh) {calls : List (ℕ × Call)} (h : Run.Along (tick p) (Vacated p) started calls) :
    Vacant p (Run.after (tick p) started calls) :=
  h.invariant (fun _ _ hs hcall ↦ hs.tick hfresh hcall) (vacant_started p)

/-! ### What is opened -/

theorem opened_active (h : Vacant p s) {call : AuthCall} (hclock : s.2 ≤ now) (hopens : opens call = true)
    {userId : String} (hopened : Opened p now s.1 call userId) :
    ∃ user, s.1.user userId = some user ∧ isActive user = true := by
  cases hopened with
  | password user huser hactive hid => exact ⟨user, hid ▸ Identified.user_eq h.identified huser, hactive⟩
  | challenge item user hitem hlive huser hid =>
    refine ⟨user, hid ▸ huser, ?_⟩
    exact h.challenges item hitem (hclock.trans hlive) user (user_mem huser) (user_id huser)
  | attachCode found minting user hfound hminting hsession huser hactive hid
  | terminal found user hfound hrevoked hexpiry huser hactive hid =>
    exact ⟨user, hid ▸ huser, hactive⟩
  | setup challenge totpCode hcall | recovery challenge password totpCode hcall =>
    rw [hcall] at hopens
    cases hopens

/-! ### What is closed -/

/-- Every session with a token that was drawn is of an account that `keep` holds of. -/
structure SessionsOnly (p : Platform) (digest : String) (keep : String → Prop) (s : World × ℕ) : Prop where
  drawn : ∃ m < s.1.drawn, p.tokenDigest (p.randomToken m) = digest
  sessions : ∀ t ∈ s.1.state.sessions, t.tokenDigest = digest → keep t.userId

theorem SessionsOnly.tick (hfresh : p.Fresh) {digest : String} {keep : String → Prop}
    (h : SessionsOnly p digest keep s) (call : ℕ × Call) : SessionsOnly p digest keep (tick p s call) := by
  obtain ⟨m, hm, hdigest⟩ := h.drawn
  refine ⟨⟨m, lt_of_lt_of_le hm (drawn_step call), hdigest⟩, ?_⟩
  intro t ht htoken
  obtain ⟨t', ht', _, hdigest', huser⟩ := old_session hfresh ht hm (hdigest.trans htoken.symm)
  rw [← huser]
  exact h.sessions t' ht' (hdigest'.trans htoken)

/-- Every challenge that was drawn with a digest is the one. -/
structure ChallengesOnly (p : Platform) (digest : String) (keep : LoginChallenge → Prop) (s : World × ℕ) : Prop where
  drawn : ∃ m < s.1.drawn, p.tokenDigest (p.randomToken m) = digest
  challenges : ∀ item ∈ s.1.state.loginChallenges, item.challengeDigest = digest → keep item

theorem ChallengesOnly.tick (hfresh : p.Fresh) {digest : String} {keep : LoginChallenge → Prop}
    (h : ChallengesOnly p digest keep s) (call : ℕ × Call) : ChallengesOnly p digest keep (tick p s call) := by
  obtain ⟨m, hm, hdigest⟩ := h.drawn
  refine ⟨⟨m, lt_of_lt_of_le hm (drawn_step call), hdigest⟩, ?_⟩
  intro item hitem htoken
  exact h.challenges item (old_challenge hfresh hitem hm (hdigest.trans htoken.symm)) htoken

theorem closed_sessions (h : DirectoryEffect p now w call w') (hchanged : w' ≠ w) {userId : String}
    (hcloses : closes call = some userId) : ∀ s ∈ w'.state.sessions, s.userId ≠ userId := by
  intro s hs
  cases h with
  | refused => exact absurd rfl hchanged
  | statusChanged _ actorId target status reason actor account hcall =>
    have hfilter := (List.mem_filter.mp hs).2
    cases call with
    | disableUser | revokeUser =>
      cases hcall
      cases hcloses
      simpa using hfilter
    | eraseUser => cases hcall
    | _ => cases hcloses
  | erased =>
    have hfilter := (List.mem_filter.mp hs).2
    cases hcloses
    simpa using hfilter
  | _ => cases hcloses

theorem authenticate_none {token : String} (h : ∀ t ∈ w.state.sessions, t.tokenDigest ≠ p.tokenDigest token) :
    (w.authenticate p now (some token)).2 = none := by
  have hfind : w.state.sessions.find? (·.tokenDigest = p.tokenDigest token) = none := by
    rw [List.find?_eq_none]
    intro t ht
    simpa using h t ht
  simp only [authenticate, hfind]

theorem loginChallenge_refused {challenge ip : String}
    (h : ∀ item ∈ w.state.loginChallenges, item.challengeDigest = p.tokenDigest challenge → item.expiresAt < now) :
    w.loginChallenge p now challenge ip = .error badChallenge := by
  unfold loginChallenge
  cases hfind : w.state.loginChallenges.find? (·.challengeDigest = p.tokenDigest challenge) with
  | none => rfl
  | some item =>
    have hexpired := h item (List.mem_of_find?_eq_some hfind) (by simpa using List.find?_some hfind)
    have hnot : ¬(now ≤ item.expiresAt ∧ item.ip = ip) := fun hlive ↦ Nat.not_le.mpr hexpired hlive.1
    change (if now ≤ item.expiresAt ∧ item.ip = ip then Except.ok () else Except.error badChallenge) >>=
      (fun _ ↦ Except.ok item) = _
    rw [if_neg hnot]
    rfl

theorem refused_completions {challenge ip : String}
    (h : ∀ item ∈ w.state.loginChallenges, item.challengeDigest = p.tokenDigest challenge → item.expiresAt < now) :
    (∀ totpCode, (w.completeLogin p now challenge totpCode ip).2 = .error badChallenge) ∧
      ∀ credentialId response rpId origin,
        (w.completeLoginWithPasskey p now challenge credentialId response ip rpId origin).2 = .error badChallenge := by
  have hrefused : w.loginChallenge p now challenge ip = .error badChallenge := loginChallenge_refused h
  constructor
  · intro totpCode
    have hawaiting : w.awaitingCode p now challenge ip = .error badChallenge := by
      unfold awaitingCode
      rw [hrefused]
      rfl
    simp only [completeLogin, hawaiting]
  · intro credentialId response rpId origin
    unfold completeLoginWithPasskey
    rw [hrefused]
    rfl

/-- Where no account is made inactive while a challenge of it lasts, no session is opened for an inactive account, and
what an account had when it was made inactive is of no use any more, whatever becomes of the account. -/
theorem inactive_get_nothing (p : Platform) (hfresh : p.Fresh) (calls : List (ℕ × Call))
    (h : Run.Along (tick p) (Vacated p) started calls) :
    Run.Along (tick p) (Guarded p) started calls ∧ ClosedForGood p calls := by
  constructor
  · refine Run.Along.imp (I := Vacant p) ?_ h (vacant_started p)
    intro s call hs hcall
    refine ⟨hs.tick hfresh hcall, ?_⟩
    obtain ⟨now, call⟩ := call
    intro c hc hopens session hsession hnew
    cases hc
    rcases (perform_effect p now s.1 c).sessions hsession with ⟨old, hold, _, hdigest, _⟩ | ⟨hopened, _⟩
    · exact absurd hdigest (hnew old hold)
    · exact opened_active hs hcall.clock hopens hopened
  · intro first second now c later userId hcalls hcloses haccepted
    subst hcalls
    obtain ⟨hfirst, hrest⟩ := Run.Along.append.mp h
    obtain ⟨hsecond, hclosing, _⟩ := Run.Along.append.mp hrest
    have hissuance := (vacant_after hfresh hfirst).issuance
    unfold worldAfter at haccepted ⊢
    rw [Run.after_append] at haccepted
    rw [Run.after_append, Run.after_append]
    constructor
    · intro session hsession huser token clock htoken
      have hmine : SessionsOnly p session.tokenDigest (· = userId)
          (Run.after (tick p) (Run.after (tick p) started first) second) := by
        refine Run.invariant (fun s call hs ↦ hs.tick hfresh call) ⟨hissuance.sessions session hsession, ?_⟩ second
        intro t ht hsame
        rw [← huser]
        exact hissuance.owner t ht session hsession hsame
      have hgone : SessionsOnly p session.tokenDigest (fun _ ↦ False)
          (tick p (Run.after (tick p) (Run.after (tick p) started first) second) (now, .directory c)) := by
        have hkept := hmine.tick hfresh (now, .directory c)
        refine ⟨hkept.drawn, ?_⟩
        intro t ht hsame
        exact closed_sessions (c.perform_effect p now _) haccepted hcloses t ht (hkept.sessions t ht hsame)
      have hend := Run.invariant (I := SessionsOnly p session.tokenDigest fun _ ↦ False) (fun s call hs ↦ hs.tick hfresh call)
        hgone later
      apply authenticate_none
      intro t ht hsame
      exact hend.sessions t ht (hsame.trans htoken)
    · intro item hitem huser challenge clock ip hclock hchallenge
      have hmine : ChallengesOnly p item.challengeDigest (· = item)
          (Run.after (tick p) (Run.after (tick p) started first) second) := by
        refine Run.invariant (fun s call hs ↦ hs.tick hfresh call) ⟨hissuance.challenges item hitem, ?_⟩ second
        intro other hother hsame
        exact hissuance.single other hother item hitem hsame
      have hexpired : ChallengesOnly p item.challengeDigest (·.expiresAt < now)
          (Run.after (tick p) (Run.after (tick p) started first) second) := by
        refine ⟨hmine.drawn, ?_⟩
        intro other hother hsame
        have heq := hmine.challenges other hother hsame
        subst heq
        exact hclosing.challenges c userId rfl hcloses haccepted other hother huser
      have hend := Run.invariant (I := ChallengesOnly p item.challengeDigest (·.expiresAt < now))
        (fun s call hs ↦ hs.tick hfresh call) hexpired ((now, .directory c) :: later)
      apply refused_completions
      intro other hother hsame
      exact (hend.challenges other hother (hsame.trans hchallenge)).trans_le hclock

end

def enlisted : List (ℕ × Call) :=
  [(90000, .auth .seedDefaultOwnerIfNeeded), (90000, .directory (.createInvitation "" "alice" none "user")),
    (90000, .directory (.acceptInvitation "tt" "correct horse battery" none)),
    (90000, .directory (.confirmInvitationMfa "tttttttt" "123456"))]

def disabledBetween : List (ℕ × Call) :=
  enlisted ++ [(150000, .auth (.beginLogin "alice" "correct horse battery" "ip")),
    (150000, .directory (.disableUser "" "uuuuu" none))]

theorem Vacated.of_no_challenges {p : Platform} {s : World × ℕ} {call : ℕ × Call} (hclock : s.2 ≤ call.1)
    (h : s.1.state.loginChallenges = []) : Vacated p s call := by
  refine ⟨hclock, ?_⟩
  intro c userId _ _ _ item hitem
  rw [h] at hitem
  cases hitem

theorem inactive_get_nothing_alice :
    let calls := enlisted ++ [(150000, .directory (.disableUser "" "uuuuu" none))]
    Run.Along (tick .tallying) (Guarded .tallying) started calls ∧ ClosedForGood .tallying calls := by
  apply inactive_get_nothing .tallying Platform.tallying_fresh
  exact ⟨.of_no_challenges (by decide) (by decide), .of_no_challenges (by decide) (by decide),
    .of_no_challenges (by decide) (by decide), .of_no_challenges (by decide) (by decide),
    .of_no_challenges (by decide) (by decide), trivial⟩

/-- The second stage of the login looks at no status. -/
theorem disabled_account_logs_in : ¬∀ (p : Platform) (_ : p.Fresh) (calls : List (ℕ × Call)),
    Run.Along (tick p) (Guarded p) started calls ∧ ClosedForGood p calls := by
  intro h
  have hguarded := (h .tallying Platform.tallying_fresh
    (disabledBetween ++ [(150000, .auth (.completeLogin "tttttttttt" "123456" "ip"))])).1
  have hlast := (Run.Along.append.mp hguarded).2.1
  have hopened : ∃ session ∈ (worldAfter .tallying (disabledBetween ++
      [(150000, .auth (.completeLogin "tttttttttt" "123456" "ip"))])).state.sessions, session.userId = "uuuuu" := by decide
  obtain ⟨session, hsession, huser⟩ := hopened
  have hnone : (worldAfter .tallying disabledBetween).state.sessions = [] := by decide
  have hdisabled : ((worldAfter .tallying disabledBetween).user "uuuuu").map isActive = some false := by decide
  obtain ⟨user, hfound, hactive⟩ := hlast _ rfl rfl session hsession (by
    intro old hold
    rw [show (Run.after (tick .tallying) started disabledBetween).1.state.sessions = [] from hnone] at hold
    cases hold)
  rw [huser] at hfound
  rw [show (worldAfter .tallying disabledBetween).user "uuuuu" = some user from hfound, Option.map_some, hactive] at hdisabled
  cases hdisabled

end Noesar.Accounts.Inactive
