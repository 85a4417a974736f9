import Noesar.Accounts.Records

namespace Noesar.Accounts

open Lib World

def hasId (id : String) (user : User) : ℕ := if user.id = id then 1 else 0

def World.idWeight (w : World) (id : String) : ℕ := weigh (hasId id) w.held

abbrev World.Identified (p : Platform) (w : World) : Prop := Supplied p.randomUUID w.drawn w.idWeight

section

variable {p : Platform} {w w' : World}

theorem Records.ids (h : Records p w w') : Grows p.randomUUID w.drawn w'.drawn w.idWeight w'.idWeight := by
  obtain ⟨hlater, hrecorded⟩ := h
  cases hrecorded with
  | kept hheld => exact .of_le hlater fun id ↦ weigh_subperm hheld
  | added user m hfrom hto hid hsecret hpending hheld =>
    refine .of_drawn hfrom hto ?_
    intro id
    have hle : w'.idWeight id ≤ weigh (hasId id) (user :: w.held) := weigh_subperm hheld
    rw [weigh_cons, hasId, hid] at hle
    unfold idWeight at hle ⊢
    omega
  | changed x x' rest es hbefore hafter hid =>
    refine .of_le hlater ?_
    intro id
    have hle : w'.idWeight id ≤ weigh (hasId id) (x' :: rest) := weigh_subperm hafter
    have heq : w.idWeight id = weigh (hasId id) (x :: rest) := weigh_perm hbefore
    have hsame : hasId id x' = hasId id x := by simp only [hasId, hid]
    rw [weigh_cons] at hle heq
    omega

theorem Identified.step (hfresh : p.Fresh) (h : w.Identified p) (call : ℕ × Call) : (step p w call).Identified p :=
  h.grows hfresh.uuid (records_step p w call).ids

theorem identified_initial (p : Platform) : World.initial.Identified p := by
  have hzero (id : String) : World.initial.idWeight id = 0 := rfl
  constructor
  · intro id
    rw [hzero]
    exact Nat.zero_le 1
  · intro id hpos
    rw [hzero] at hpos
    exact absurd hpos (lt_irrefl 0)

theorem Identified.user_eq (h : w.Identified p) {user : User} (huser : user ∈ w.state.users) : w.user user.id = some user := by
  unfold World.user
  cases hfind : w.state.users.find? (·.id = user.id) with
  | none =>
    have hnot := List.find?_eq_none.mp hfind user huser
    simp at hnot
  | some other =>
    by_cases hsame : other = user
    · rw [hsame]
    · -- Two records with one id would weigh two.
      exfalso
      have hid : other.id = user.id := by simpa using List.find?_some hfind
      have hother : other ∈ w.state.users := List.mem_of_find?_eq_some hfind
      have hle : weigh (hasId user.id) (w.state.users.filter fun u ↦ decide (u ≠ user)) + hasId user.id user ≤
          weigh (hasId user.id) w.state.users := weigh_filter_add huser (by simp)
      have hmem := weigh_mem (c := hasId user.id) (List.mem_filter.mpr ⟨hother, by simpa using hsame⟩ :
        other ∈ w.state.users.filter fun u ↦ decide (u ≠ user))
      have honce := h.once user.id
      have hone : hasId user.id user = 1 := if_pos rfl
      have htwo : hasId user.id other = 1 := if_pos hid
      have hall : w.idWeight user.id = weigh (hasId user.id) w.state.users + _ := weigh_append
      omega

theorem Identified.modified (h : w.Identified p) {userId : String} {target : User} (htarget : w.user userId = some target)
    {f : User → User} (husers : w'.state.users = modifyFirst (·.id = userId) f w.state.users)
    (howner : w'.state.pendingOwner = w.state.pendingOwner) (hinvitees : w'.state.pendingInvitees = w.state.pendingInvitees)
    {user : User} (huser : user ∈ w'.held) : user = f target ∨ user ∈ w.held ∧ user.id ≠ userId := by
  obtain ⟨rest, hbefore, hafter⟩ := modifyFirst_perm (f := f) htarget
  let others := (w.state.pendingOwner.map (·.user)).toList ++ w.state.pendingInvitees.map (·.user)
  have hheld : w.held.Perm (target :: (rest ++ others)) := hbefore.append_right others
  have hheld' : w'.held.Perm (f target :: (rest ++ others)) := by
    unfold held
    rw [husers, howner, hinvitees]
    exact hafter.append_right _
  rcases List.mem_cons.mp (hheld'.mem_iff.mp huser) with hsame | hrest
  · exact .inl hsame
  · refine .inr ⟨hheld.mem_iff.mpr (List.mem_cons_of_mem _ hrest), ?_⟩
    intro hid
    have htargetId : target.id = userId := by simpa using List.find?_some htarget
    have honce : weigh (hasId userId) w.held ≤ 1 := h.once userId
    have hmem := weigh_mem (c := hasId userId) hrest
    rw [weigh_perm hheld, weigh_cons, hasId, if_pos htargetId] at honce
    rw [hasId, if_pos hid] at hmem
    omega

end

end Noesar.Accounts

namespace Noesar.Accounts

open Lib World

inductive Opened (p : Platform) (now : ℕ) (w : World) (call : AuthCall) (userId : String) : Prop
  | password (user : User) (huser : user ∈ w.state.users) (hactive : isActive user = true) (hid : user.id = userId)
  | challenge (item : LoginChallenge) (user : User) (hitem : item ∈ w.state.loginChallenges)
      (hlive : now ≤ item.expiresAt) (huser : w.user item.userId = some user) (hid : item.userId = userId)
  | attachCode (found : AttachCode) (minting : Session) (user : User) (hfound : found ∈ w.state.attachCodes)
      (hminting : minting ∈ w.state.sessions) (hsession : minting.id = found.sessionId)
      (huser : w.user found.userId = some user) (hactive : isActive user = true) (hid : found.userId = userId)
  | terminal (found : Terminal) (user : User) (hfound : found ∈ w.state.terminals) (hrevoked : found.revokedAt = none)
      (hexpiry : now < found.expiresAt) (huser : w.user found.userId = some user) (hactive : isActive user = true)
      (hid : found.userId = userId)
  | setup (challenge totpCode : String) (hcall : call = .confirmSetup challenge totpCode)
  | recovery (challenge password totpCode : String) (hcall : call = .completeRecovery challenge password totpCode)

/-- The token and the id of a session were drawn between two worlds. -/
structure NewSession (p : Platform) (n n' : ℕ) (session : Session) : Prop where
  token : ∃ m, n ≤ m ∧ m < n' ∧ p.tokenDigest (p.randomToken m) = session.tokenDigest
  id : ∃ m, n ≤ m ∧ m < n' ∧ p.randomUUID m = session.id

section

variable {p : Platform} {w w' v : World} {now : ℕ} {call : AuthCall}

variable {user : User} {mfa : Bool} {s : Session}

theorem user_id {userId : String} (h : w.user userId = some user) : user.id = userId := by
  simpa using List.find?_some h

theorem user_mem {userId : String} (h : w.user userId = some user) : user ∈ w.state.users :=
  List.mem_of_find?_eq_some h

theorem createSession_sessions (h : s ∈ (v.createSession p now user mfa).1.state.sessions) :
    s ∈ v.state.sessions ∨ s = v.nextSession p now user mfa := by
  rcases List.mem_append.mp h with h | h
  · exact .inl (List.mem_filter.mp h).1
  · exact .inr (List.mem_singleton.mp h)

theorem nextSession_new {n : ℕ} (h : n ≤ v.drawn) :
    NewSession p n (v.drawn + 3) (v.nextSession p now user mfa) :=
  ⟨⟨v.drawn, h, by omega, rfl⟩, ⟨v.drawn + 2, by omega, by omega, rfl⟩⟩

/-- The sessions after a call were there before, but for one that it may have opened. -/
structure SessionsFrom (p : Platform) (now : ℕ) (w : World) (call : AuthCall) (w' : World) (opened : Option Session) :
    Prop where
  kept : ∀ s ∈ w'.state.sessions,
    (∃ t ∈ w.state.sessions, t.id = s.id ∧ t.tokenDigest = s.tokenDigest ∧ t.userId = s.userId) ∨ opened = some s
  opened : ∀ s, opened = some s → Opened p now w call s.userId ∧ NewSession p w.drawn w'.drawn s

theorem SessionsFrom.of_kept (h : KeptSessions w.state.sessions w'.state.sessions) :
    SessionsFrom p now w call w' none := by
  refine ⟨fun s hs ↦ .inl (h s hs), ?_⟩
  intro s hs
  cases hs

theorem SessionsFrom.of_created (hkept : KeptSessions w.state.sessions v.state.sessions)
    (hopened : Opened p now w call user.id) (hdrawn : w.drawn ≤ v.drawn) :
    SessionsFrom p now w call (v.createSession p now user mfa).1 (some (v.nextSession p now user mfa)) := by
  constructor
  · intro s hs
    rcases createSession_sessions hs with hs | rfl
    · exact .inl (hkept s hs)
    · exact .inr rfl
  · intro s hs
    cases hs
    exact ⟨hopened, nextSession_new hdrawn⟩

theorem KeptSessions.of_eq {sessions sessions' : List Session} (h : sessions' = sessions) :
    KeptSessions sessions sessions' := h ▸ .refl sessions

theorem AuthEffect.sessions_from (h : AuthEffect p now w call w') : ∃ opened, SessionsFrom p now w call w' opened := by
  cases h with
  | refused hw => exact ⟨none, .of_kept (.of_eq (by rw [hw.state]))⟩
  | changed userId f k hf hw => exact ⟨none, .of_kept (.of_eq (by rw [hw.state]; rfl))⟩
  | took userId user taken f k sessions hf hsessions | tookNone userId user f k sessions hf hsessions
  | sessionsKept sessions hsessions =>
    exact ⟨none, .of_kept hsessions⟩
  | seeded | setupBegun => exact ⟨none, .of_kept (.refl _)⟩
  | setupConfirmed challenge totpCode hcall =>
    exact ⟨_, .of_created (.refl _) (.setup challenge totpCode hcall) (Nat.le_add_right _ _)⟩
  | loggedIn w₁ user hw huser hactive =>
    exact ⟨_, .of_created (.of_eq (by rw [← hw.state]; rfl)) (.password user huser hactive rfl) hw.drawn.ge⟩
  | challenged w₁ user record hw => exact ⟨none, .of_kept (.of_eq (by rw [← hw.state]; rfl))⟩
  | completed w₁ item user secret step hw hitem hlive huser =>
    exact ⟨_, .of_created (.of_eq (by rw [← hw.state]; rfl))
      (.challenge item user hitem hlive huser (user_id huser).symm) hw.drawn.ge⟩
  | completedWithPasskey item user f hf hitem hlive huser =>
    exact ⟨_, .of_created (.refl _) (.challenge item user hitem hlive huser (user_id huser).symm) le_rfl⟩
  | minted => exact ⟨none, .of_kept (.refl _)⟩
  | burned codes hcodes hw => exact ⟨none, .of_kept (.of_eq (by rw [hw.state]; rfl))⟩
  | redeemed w₁ codes hcodes hw found minting user hfound hminting hid huser hactive =>
    exact ⟨_, .of_created (.of_eq (by rw [hw.state]; rfl)) (.attachCode found minting user hfound hminting hid huser hactive
      (user_id huser).symm) hw.drawn.ge⟩
  | remembered => exact ⟨none, .of_kept (.refl _)⟩
  | slid digest found hfound hrevoked hexpiry hw => exact ⟨none, .of_kept (.of_eq (by rw [hw.state]; rfl))⟩
  | resumed w₁ digest found user hfound hrevoked hexpiry hw huser hactive =>
    exact ⟨_, .of_created (.of_eq (by rw [hw.state]; rfl)) (.terminal found user (List.mem_of_find?_eq_some hfound) hrevoked
      hexpiry huser hactive (user_id huser).symm) hw.drawn.ge⟩
  | terminalRevoked | mfaDisabled => exact ⟨none, .of_kept (.refl _)⟩
  | mfaConfirmed userId user pending first sessions huser hpending hsessions => exact ⟨none, .of_kept hsessions⟩
  | recoveryBegun w₁ pending hw => exact ⟨none, .of_kept (.of_eq (by rw [← hw.state]; rfl))⟩
  | recovered challenge password totpCode hcall pending user step =>
    have hid : (w.recovered p pending password step user).id = user.id := rfl
    refine ⟨_, .of_created ?_ (.recovery challenge password totpCode hcall) (Nat.le_add_right _ _)⟩
    intro s hs
    cases hs

theorem AuthEffect.sessions (h : AuthEffect p now w call w') (hs : s ∈ w'.state.sessions) :
    (∃ t ∈ w.state.sessions, t.id = s.id ∧ t.tokenDigest = s.tokenDigest ∧ t.userId = s.userId) ∨
      Opened p now w call s.userId ∧ NewSession p w.drawn w'.drawn s := by
  obtain ⟨opened, hfrom⟩ := h.sessions_from
  rcases hfrom.kept s hs with hold | hnew
  · exact .inl hold
  · exact .inr (hfrom.opened s hnew)

/-- The challenges after a call were there before, but for one that it may have given to an active account. -/
structure ChallengesFrom (p : Platform) (w w' : World) (given : Option LoginChallenge) : Prop where
  kept : ∀ item ∈ w'.state.loginChallenges, item ∈ w.state.loginChallenges ∨ given = some item
  given : ∀ item, given = some item → w.drawn < w'.drawn ∧
    item.challengeDigest = p.tokenDigest (p.randomToken w.drawn) ∧
      ∃ user ∈ w.state.users, isActive user = true ∧ item.userId = user.id

theorem ChallengesFrom.of_kept (h : ∀ item ∈ w'.state.loginChallenges, item ∈ w.state.loginChallenges) :
    ChallengesFrom p w w' none := by
  refine ⟨fun item hitem ↦ .inl (h item hitem), ?_⟩
  intro item hitem
  cases hitem

theorem AuthEffect.challenges_from (h : AuthEffect p now w call w') : ∃ given, ChallengesFrom p w w' given := by
  have hkept (h : ∀ item ∈ w'.state.loginChallenges, item ∈ w.state.loginChallenges) :
      ∃ given, ChallengesFrom p w w' given := ⟨none, .of_kept h⟩
  cases h with
  | refused hw => exact hkept fun item hitem ↦ hw.state ▸ hitem
  | changed userId f k hf hw =>
    apply hkept
    rw [hw.state]
    exact fun item hitem ↦ hitem
  | loggedIn w₁ user hw => exact hkept fun item hitem ↦ hw.state ▸ hitem
  | challenged w₁ user record hw huser hactive hid hdigest =>
    refine ⟨some record, ?_, ?_⟩
    · intro item hitem
      rcases List.mem_append.mp hitem with hitem | hitem
      · exact .inl (hw.state ▸ (List.mem_filter.mp hitem).1)
      · exact .inr (congrArg some (List.mem_singleton.mp hitem).symm)
    · intro item hitem
      cases hitem
      refine ⟨?_, hdigest, user, huser, hactive, hid⟩
      change w.drawn < w₁.drawn + 2
      rw [hw.drawn]
      omega
  | completed w₁ item user secret step hw => exact hkept fun item hitem ↦ hw.state ▸ (List.mem_filter.mp hitem).1
  | completedWithPasskey => exact hkept fun item hitem ↦ (List.mem_filter.mp hitem).1
  | burned codes hcodes hw =>
    apply hkept
    rw [hw.state]
    exact fun item hitem ↦ hitem
  | redeemed w₁ codes hcodes hw =>
    apply hkept
    intro item hitem
    change item ∈ w₁.state.loginChallenges at hitem
    rw [hw.state] at hitem
    exact hitem
  | slid digest found hfound hrevoked hexpiry hw =>
    apply hkept
    rw [hw.state]
    exact fun item hitem ↦ hitem
  | resumed w₁ digest found user hfound hrevoked hexpiry hw =>
    apply hkept
    intro item hitem
    change item ∈ w₁.state.loginChallenges at hitem
    rw [hw.state] at hitem
    exact hitem
  | recoveryBegun w₁ pending hw => exact hkept fun item hitem ↦ hw.state ▸ hitem
  | _ => exact hkept fun item hitem ↦ hitem

theorem AuthEffect.loginChallenges (h : AuthEffect p now w call w') {item : LoginChallenge}
    (hitem : item ∈ w'.state.loginChallenges) : item ∈ w.state.loginChallenges ∨
      w.drawn < w'.drawn ∧ item.challengeDigest = p.tokenDigest (p.randomToken w.drawn) ∧
        ∃ user ∈ w.state.users, isActive user = true ∧ item.userId = user.id := by
  obtain ⟨given, hfrom⟩ := h.challenges_from
  rcases hfrom.kept item hitem with hold | hnew
  · exact .inl hold
  · exact .inr (hfrom.given item hnew)

theorem DirectoryEffect.sessions {call : DirectoryCall} (h : DirectoryEffect p now w call w')
    (hs : s ∈ w'.state.sessions) : s ∈ w.state.sessions := by
  cases h with
  | statusChanged | erased => exact (List.mem_filter.mp hs).1
  | _ => exact hs

theorem DirectoryEffect.loginChallenges {call : DirectoryCall} (h : DirectoryEffect p now w call w') :
    w'.state.loginChallenges = w.state.loginChallenges := by
  cases h with
  | _ => rfl

theorem DirectoryEffect.terminals {call : DirectoryCall} (h : DirectoryEffect p now w call w') :
    w'.state.terminals = w.state.terminals := by
  cases h with
  | _ => rfl

/-! ### What was drawn before does not come again -/

theorem drawn_step (call : ℕ × Call) : w.drawn ≤ (step p w call).drawn :=
  (records_step p w call).later

theorem old_session (hfresh : p.Fresh) {call : ℕ × Call} (hs : s ∈ (step p w call).state.sessions) {m : ℕ}
    (hm : m < w.drawn) (hdigest : p.tokenDigest (p.randomToken m) = s.tokenDigest) :
    ∃ t ∈ w.state.sessions, t.id = s.id ∧ t.tokenDigest = s.tokenDigest ∧ t.userId = s.userId := by
  obtain ⟨now, call⟩ := call
  cases call with
  | auth c =>
    rcases (perform_effect p now w c).sessions hs with hold | ⟨_, hnew⟩
    · exact hold
    · obtain ⟨k, hk, _, htoken⟩ := hnew.token
      have hsame : m = k := hfresh.token (hdigest.trans htoken.symm)
      omega
  | directory c => exact ⟨s, (c.perform_effect p now w).sessions hs, rfl, rfl, rfl⟩

theorem old_challenge (hfresh : p.Fresh) {call : ℕ × Call} {item : LoginChallenge}
    (hitem : item ∈ (step p w call).state.loginChallenges) {m : ℕ} (hm : m < w.drawn)
    (hdigest : p.tokenDigest (p.randomToken m) = item.challengeDigest) : item ∈ w.state.loginChallenges := by
  obtain ⟨now, call⟩ := call
  cases call with
  | auth c =>
    rcases (perform_effect p now w c).loginChallenges hitem with hold | ⟨_, htoken, _⟩
    · exact hold
    · have hsame : m = w.drawn := hfresh.token (hdigest.trans htoken)
      omega
  | directory c => exact (c.perform_effect p now w).loginChallenges ▸ hitem

/-- The tokens of sessions and challenges were drawn, and a token is of one account. -/
structure Issuance (p : Platform) (w : World) : Prop where
  sessions : ∀ s ∈ w.state.sessions, ∃ m < w.drawn, p.tokenDigest (p.randomToken m) = s.tokenDigest
  owner : ∀ s ∈ w.state.sessions, ∀ t ∈ w.state.sessions, s.tokenDigest = t.tokenDigest → s.userId = t.userId
  challenges : ∀ item ∈ w.state.loginChallenges,
    ∃ m < w.drawn, p.tokenDigest (p.randomToken m) = item.challengeDigest
  single : ∀ item ∈ w.state.loginChallenges, ∀ other ∈ w.state.loginChallenges,
    item.challengeDigest = other.challengeDigest → item = other

theorem Issuance.auth (hfresh : p.Fresh) (h : Issuance p w) (heffect : AuthEffect p now w call w') : Issuance p w' := by
  have hlater : w.drawn ≤ w'.drawn := heffect.records.later
  obtain ⟨opened, hsessions⟩ := heffect.sessions_from
  obtain ⟨given, hchallenges⟩ := heffect.challenges_from
  -- What is new has a digest that nothing old has.
  have hnewSession {s t : Session} (hs : s ∈ w.state.sessions) (ht : opened = some t) : s.tokenDigest ≠ t.tokenDigest := by
    intro hsame
    obtain ⟨m, hm, htoken⟩ := h.sessions s hs
    obtain ⟨k, hk, _, htoken'⟩ := (hsessions.opened t ht).2.token
    have heq : m = k := hfresh.token ((htoken.trans hsame).trans htoken'.symm)
    omega
  have hnewChallenge {item other : LoginChallenge} (hitem : item ∈ w.state.loginChallenges) (hother : given = some other) :
      item.challengeDigest ≠ other.challengeDigest := by
    intro hsame
    obtain ⟨m, hm, htoken⟩ := h.challenges item hitem
    have heq : m = w.drawn := hfresh.token ((htoken.trans hsame).trans (hchallenges.given other hother).2.1)
    omega
  refine ⟨?_, ?_, ?_, ?_⟩
  · intro s hs
    rcases hsessions.kept s hs with ⟨t, ht, _, hdigest, _⟩ | hnew
    · obtain ⟨m, hm, htoken⟩ := h.sessions t ht
      exact ⟨m, by omega, htoken.trans hdigest⟩
    · obtain ⟨m, _, hm, htoken⟩ := (hsessions.opened s hnew).2.token
      exact ⟨m, hm, htoken⟩
  · intro s hs t ht hsame
    rcases hsessions.kept s hs with ⟨s', hs', _, hdigest, huser⟩ | hnew
    · rcases hsessions.kept t ht with ⟨t', ht', _, hdigest', huser'⟩ | hnew'
      · rw [← huser, ← huser']
        exact h.owner s' hs' t' ht' ((hdigest.trans hsame).trans hdigest'.symm)
      · exact absurd (hdigest.trans hsame) (hnewSession hs' hnew')
    · rcases hsessions.kept t ht with ⟨t', ht', _, hdigest', huser'⟩ | hnew'
      · exact absurd (hdigest'.trans hsame.symm) (hnewSession ht' hnew)
      · rw [hnew, Option.some.injEq] at hnew'
        rw [hnew']
  · intro item hitem
    rcases hchallenges.kept item hitem with hold | hnew
    · obtain ⟨m, hm, htoken⟩ := h.challenges item hold
      exact ⟨m, by omega, htoken⟩
    · obtain ⟨hdrawn, htoken, _⟩ := hchallenges.given item hnew
      exact ⟨w.drawn, hdrawn, htoken.symm⟩
  · intro item hitem other hother hsame
    rcases hchallenges.kept item hitem with hold | hnew
    · rcases hchallenges.kept other hother with hold' | hnew'
      · exact h.single item hold other hold' hsame
      · exact absurd hsame (hnewChallenge hold hnew')
    · rcases hchallenges.kept other hother with hold' | hnew'
      · exact absurd hsame.symm (hnewChallenge hold' hnew)
      · rw [hnew, Option.some.injEq] at hnew'
        exact hnew'

theorem Issuance.directory {call : DirectoryCall} (h : Issuance p w) (heffect : DirectoryEffect p now w call w') :
    Issuance p w' := by
  have hlater : w.drawn ≤ w'.drawn := heffect.records.later
  refine ⟨?_, ?_, ?_, ?_⟩
  · intro s hs
    obtain ⟨m, hm, htoken⟩ := h.sessions s (heffect.sessions hs)
    exact ⟨m, by omega, htoken⟩
  · intro s hs t ht
    exact h.owner s (heffect.sessions hs) t (heffect.sessions ht)
  · intro item hitem
    obtain ⟨m, hm, htoken⟩ := h.challenges item (heffect.loginChallenges ▸ hitem)
    exact ⟨m, by omega, htoken⟩
  · intro item hitem other hother
    exact h.single item (heffect.loginChallenges ▸ hitem) other (heffect.loginChallenges ▸ hother)

theorem Issuance.step (hfresh : p.Fresh) (h : Issuance p w) (call : ℕ × Call) : Issuance p (step p w call) := by
  obtain ⟨now, call⟩ := call
  cases call with
  | auth c => exact h.auth hfresh (perform_effect p now w c)
  | directory c => exact h.directory (c.perform_effect p now w)

theorem issuance_initial (p : Platform) : Issuance p World.initial := by
  refine ⟨?_, ?_, ?_, ?_⟩
  · intro s hs
    cases hs
  · intro s hs
    cases hs
  · intro item hitem
    cases hitem
  · intro item hitem
    cases hitem

end

end Noesar.Accounts
