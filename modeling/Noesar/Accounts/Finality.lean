import Noesar.Accounts.Origins

namespace Noesar.Accounts.Finality

open Lib World

/-! ### What a caller said, wherever it is stored -/

def userTexts (user : User) : List String :=
  [user.username, user.displayName] ++ user.disabledReason.toList ++ user.passkeys.map (·.name)

def detailTexts (details : List (String × Option String)) : List String :=
  details.filterMap fun detail ↦ if detail.1 ∈ ["username", "reason", "name"] then detail.2 else none

structure Unmentioned (name : String) (state : AuthState) : Prop where
  users : ∀ user ∈ state.users, name ∉ userTexts user
  pendingOwner : ∀ pending, state.pendingOwner = some pending → name ∉ userTexts pending.user
  pendingInvitees : ∀ pending ∈ state.pendingInvitees, name ∉ userTexts pending.user
  invitations : ∀ invitation ∈ state.invitations, name ∉ [invitation.username, invitation.displayName]
  terminals : ∀ terminal ∈ state.terminals, name ≠ terminal.label
  serviceTokens : ∀ token ∈ state.serviceTokens, name ≠ token.name
  loginChallenges : ∀ item ∈ state.loginChallenges, name ≠ item.ip
  events : ∀ event ∈ state.administrativeEvents, name ∉ detailTexts event.details

/-- The account holds nothing to know it by, or to sign in with. -/
structure Stripped (user : User) : Prop where
  revoked : user.status = some .revoked
  password : user.password = none
  totp : user.totp = none
  pendingTotp : user.pendingTotp = none
  passkeys : user.passkeys = []
  recoveryCodes : user.recoveryCodes = []

/-- What is stored once an account is erased that had these names. -/
structure Gone (userId : String) (names : List String) (state : AuthState) : Prop where
  record : ∀ user ∈ state.users, user.id = userId → Stripped user
  terminals : ∀ terminal ∈ state.terminals, terminal.userId ≠ userId
  sessions : ∀ session ∈ state.sessions, session.userId ≠ userId
  serviceTokens : ∀ token ∈ state.serviceTokens, token.userId ≠ userId
  loginChallenges : ∀ item ∈ state.loginChallenges, item.userId ≠ userId
  names : ∀ name ∈ names, Unmentioned name state

/-- What is stored besides an account, the invitation it came from and its service tokens. -/
def besides (userId : String) (state : AuthState) : AuthState :=
  { state with
    users := state.users.filter (·.id ≠ userId)
    invitations := state.invitations.filter (·.acceptedUserId ≠ some userId)
    serviceTokens := state.serviceTokens.filter (·.userId ≠ userId) }

section

variable (p : Platform)

def supplied (w : World) : DirectoryCall → List String
  | .createInvitation _ username displayName _ =>
    match normalizeUsername p username with
    | .ok normalized => [normalized, p.head 100 (trim (displayName.getD normalized))]
    | .error _ => []
  | .acceptInvitation token _ displayName =>
    (w.state.invitations.filter (·.tokenDigest = p.tokenDigest token)).map fun invitation ↦
      p.head 100 (trim (displayName.getD invitation.displayName))
  | .createServiceAccount _ username displayName =>
    match normalizeUsername p username with
    | .ok normalized => [normalized, p.head 100 (trim (displayName.getD normalized)), p.head 64 "initial"]
    | .error _ => []
  | .issueServiceToken _ _ name _ => [p.head 64 name]
  | .disableUser _ _ reason => reason.toList
  | .revokeUser _ _ reason => reason.toList
  | .eraseUser _ userId reason => ["erased-" ++ p.head 8 userId, "Erased account", "erased"] ++ reason.toList
  | _ => []

def NoRelapse (w : World) (call : ℕ × DirectoryCall) : Prop :=
  ∀ actorId userId reason user, call.2 = .disableUser actorId userId reason → directoryStep p w call ≠ w →
    w.user userId = some user → user.status ≠ some .revoked

def Unsaid (names : List String) (w : World) (call : ℕ × DirectoryCall) : Prop := ∀ name ∈ names, name ∉ supplied p w call.2

/-- Before an account is erased it has nothing that the erasure leaves, and its names are nowhere else. -/
structure Erasable (w : World) (user : User) (call : DirectoryCall) : Prop where
  pendingTotp : user.pendingTotp = none
  passkeys : user.passkeys = []
  recoveryCodes : user.recoveryCodes = []
  terminals : ∀ terminal ∈ w.state.terminals, terminal.userId ≠ user.id
  loginChallenges : ∀ item ∈ w.state.loginChallenges, item.userId ≠ user.id
  names : ∀ name ∈ [user.username, user.displayName], Unmentioned name (besides user.id w.state) ∧ name ∉ supplied p w call

end

section

variable {p : Platform} {w w' : World} {now : ℕ} {call : DirectoryCall}

/-! ### What becomes of an account -/

/-- What a call of the directory makes of the record of an account. -/
inductive Change (p : Platform) (now : ℕ) (w w' : World) (call : DirectoryCall) (user : User) : User → Prop
  | same : Change p now w w' call user user
  | role (role : Role) : Change p now w w' call user { user with role }
  | status (actorId : String) (status : Status) (reason disabledReason : Option String)
      (hcall : call.status? = some (actorId, user.id, status, reason)) (huser : w.user user.id = some user)
      (hrevoked : ¬(user.status = some .revoked ∧ status = .active)) (hchanged : w' ≠ w) :
      Change p now w w' call user { user with status := some status, disabledReason }
  | erased : Change p now w w' call user (World.erased p now user.id user)

theorem ne_of_drawn (h : w.drawn < w'.drawn) : w' ≠ w := by
  intro hsame
  rw [hsame] at h
  exact lt_irrefl _ h

variable {user : User} {name userId : String}

theorem DirectoryEffect.change (h : DirectoryEffect p now w call w') (huser : user ∈ w.state.users) :
    ∃ user' ∈ w'.state.users, user'.id = user.id ∧ Change p now w w' call user user' := by
  cases h with
  | joined | confirmed | serviceAccountCreated => exact ⟨user, List.mem_append_left _ huser, rfl, .same⟩
  | roleChanged actorId userId name actor target role =>
    rcases mem_of_modifyFirst huser with hmem | ⟨_, hmem⟩
    · exact ⟨user, hmem, rfl, .same⟩
    · exact ⟨_, hmem, rfl, .role role⟩
  | statusChanged _ actorId userId status reason actor target hcall hactor htarget hreach hlast hrevoked =>
    rcases mem_of_modifyFirst huser with hmem | ⟨hfind, hmem⟩
    · exact ⟨user, hmem, rfl, .same⟩
    · have hid : user.id = userId := by simpa using List.find?_some hfind
      have hsame : target = user := Option.some.inj (htarget.symm.trans hfind)
      subst hid hsame
      exact ⟨_, hmem, rfl, .status actorId status reason _ hcall hfind hrevoked (ne_of_drawn (Nat.lt_succ_self _))⟩
  | erased actorId userId =>
    rcases mem_of_modifyFirst huser with hmem | ⟨hfind, hmem⟩
    · exact ⟨user, hmem, rfl, .same⟩
    · have hid : user.id = userId := by simpa using List.find?_some hfind
      subst hid
      exact ⟨_, hmem, rfl, .erased⟩
  | _ => exact ⟨user, huser, rfl, .same⟩

theorem Change.revoked {user' : User} (h : Change p now w w' call user user')
    (hcall : ∀ actorId userId reason found, call = .disableUser actorId userId reason → w' ≠ w →
      w.user userId = some found → found.status ≠ some .revoked) (hrevoked : user.status = some .revoked) :
    user'.status = some .revoked := by
  cases h with
  | same | role => exact hrevoked
  | status actorId status reason disabledReason hstatus huser hactive hchanged =>
    cases call with
    | disableUser =>
      cases hstatus
      exact absurd hrevoked (hcall _ _ _ user rfl hchanged huser)
    | revokeUser =>
      cases hstatus
      rfl
    | reinstateUser =>
      cases hstatus
      exact absurd ⟨hrevoked, rfl⟩ hactive
    | _ => cases hstatus
  | erased => rfl

theorem Change.stripped {user' : User} (h : Change p now w w' call user user')
    (hcall : ∀ actorId userId reason found, call = .disableUser actorId userId reason → w' ≠ w →
      w.user userId = some found → found.status ≠ some .revoked) (hstripped : Stripped user) : Stripped user' := by
  have hrevoked := Change.revoked h hcall hstripped.revoked
  obtain ⟨_, hpassword, htotp, hpending, hpasskeys, hcodes⟩ := hstripped
  cases h with
  | same | role | status => exact ⟨hrevoked, hpassword, htotp, hpending, hpasskeys, hcodes⟩
  | erased => exact ⟨hrevoked, rfl, rfl, hpending, hpasskeys, hcodes⟩

/-! ### What is stored of a name -/

theorem forall_append {α : Type} {P : α → Prop} {xs : List α} {x : α} (h : ∀ y ∈ xs, P y) (hx : P x) :
    ∀ y ∈ xs ++ [x], P y := by
  intro y hy
  rcases List.mem_append.mp hy with hy | hy
  · exact h y hy
  · rw [List.mem_singleton.mp hy]
    exact hx

theorem adminEvent_state (actorId subjectId : Option String) (action : String) (details : List (String × Option String)) :
    ∃ events, (w.adminEvent p actorId subjectId action details).state = { w.state with administrativeEvents := events } ∧
      ∀ event ∈ events, event ∈ w.state.administrativeEvents ∨ event.details = details := by
  refine ⟨_, by simp only [World.adminEvent, draw, update]; rfl, ?_⟩
  intro event hevent
  rcases List.mem_append.mp (List.mem_of_mem_drop hevent) with hold | hlast
  · exact .inl hold
  · exact .inr (congrArg AdministrativeEvent.details (List.mem_singleton.mp hlast))

theorem Unmentioned.adminEvent (h : Unmentioned name w.state) {actorId subjectId : Option String} {action : String}
    {details : List (String × Option String)} (hnew : name ∉ detailTexts details) :
    Unmentioned name (w.adminEvent p actorId subjectId action details).state := by
  obtain ⟨events, hstate, hevents⟩ := adminEvent_state (p := p) (w := w) actorId subjectId action details
  rw [hstate]
  refine { h with events := fun event hevent ↦ ?_ }
  rcases hevents event hevent with hold | hlast
  · exact h.events event hold
  · rw [hlast]
    exact hnew

theorem mem_supplied_invitation {token password : String} {displayName : Option String} {invitation : Invitation}
    (hfind : invitation ∈ w.state.invitations) (htoken : invitation.tokenDigest = p.tokenDigest token) :
    p.head 100 (trim (displayName.getD invitation.displayName)) ∈ supplied p w (.acceptInvitation token password displayName) :=
  List.mem_map_of_mem (List.mem_filter.mpr ⟨hfind, by simpa using htoken⟩)

theorem Unmentioned.commitUser (h : Unmentioned name w.state) {record : User} {invitationId : Option String}
    {verified : Bool} (hrecord : name ∉ userTexts record) :
    Unmentioned name (w.commitUser p now record invitationId verified).state := by
  have hname : name ≠ record.username := by
    rintro rfl
    exact hrecord (by simp [userTexts])
  have hcommitted : Unmentioned name ((w.update fun next ↦ { next with
      users := next.users ++ [record]
      invitations := modifyFirst (fun item ↦ invitationId = some item.id)
        (fun item ↦ { item with acceptedAt := some now, acceptedUserId := some record.id }) next.invitations }).note
          [.created record.id invitationId verified]).state :=
    { h with
      users := forall_append h.users hrecord
      invitations := forall_modifyFirst h.invitations fun item hitem _ ↦ h.invitations item hitem }
  exact hcommitted.adminEvent (by simpa [detailTexts] using hname)

theorem invitedUser_texts {password : String} {displayName : Option String} {invitation : Invitation}
    (hinvitation : name ∉ [invitation.username, invitation.displayName])
    (hshown : name ≠ p.head 100 (trim (displayName.getD invitation.displayName))) :
    name ∉ userTexts (w.invitedUser p invitation password displayName) := by
  have husername : name ≠ invitation.username := fun hsame ↦ hinvitation (by simp [hsame])
  simp [userTexts, invitedUser, User.made, husername, hshown]

theorem erased_texts (hname : name ∉ ["erased-" ++ p.head 8 userId, "Erased account", "erased"])
    (hpasskeys : name ∉ user.passkeys.map (·.name)) : name ∉ userTexts (World.erased p now userId user) := by
  intro hmem
  rcases List.mem_append.mp hmem with hmem | hmem
  · exact hname hmem
  · exact hpasskeys hmem

theorem forall_revoked {P : ServiceToken → Prop} {tokens : List ServiceToken} {status : Status}
    (h : ∀ token ∈ tokens, P token) (hP : ∀ token ∈ tokens, P { token with revokedAt := some now }) :
    ∀ token ∈ (if status = .active then tokens else tokens.map fun item ↦
      if item.userId = userId ∧ item.revokedAt = none then { item with revokedAt := some now } else item), P token := by
  intro token htoken
  split at htoken
  · exact h token htoken
  · obtain ⟨item, hitem, rfl⟩ := List.mem_map.mp htoken
    split
    · exact hP item hitem
    · exact h item hitem

theorem Unmentioned.directory (h : Unmentioned name w.state) (heffect : DirectoryEffect p now w call w')
    (hsaid : name ∉ supplied p w call) : Unmentioned name w'.state := by
  cases heffect with
  | refused => exact h
  | invited actorId username displayName role actor invitation hactor hgranted hrole hname hshown =>
    have htexts : name ∉ [invitation.username, invitation.displayName] := by
      rw [hshown]
      simpa only [supplied, hname] using hsaid
    have hinvited : Unmentioned name (((w.update fun next ↦ { next with
        invitations := next.invitations ++ [invitation] }).draw 2).note [.invited invitation.id actor.role]).state :=
      { h with invitations := forall_append h.invitations htexts }
    exact hinvited.adminEvent fun hmem ↦ htexts (by simp [detailTexts] at hmem; simp [hmem])
  | invitationRevoked actorId invitationId actor invitation hactor hfind =>
    have htexts := h.invitations invitation (List.mem_of_find?_eq_some hfind)
    have hrevoked : Unmentioned name (w.update fun next ↦ { next with
        invitations := modifyFirst (·.id = invitationId) (fun target ↦ { target with revokedAt := some now })
          next.invitations }).state :=
      { h with invitations := forall_modifyFirst h.invitations fun item hitem _ ↦ h.invitations item hitem }
    exact hrevoked.adminEvent fun hmem ↦ htexts (by simp [detailTexts] at hmem; simp [hmem])
  | joined token password displayName invitation hfind hrevoked haccepted hrole htoken =>
    refine Unmentioned.commitUser (w := w.draw 2) h (invitedUser_texts (h.invitations invitation hfind) ?_)
    exact fun hsame ↦ hsaid (hsame ▸ mem_supplied_invitation hfind htoken)
  | claimed token password displayName invitation pending hfind hrevoked haccepted hrole hdigest hid huser htoken =>
    have htexts : name ∉ userTexts pending.user := by
      rw [huser]
      change name ∉ userTexts (w.invitedUser p invitation password displayName)
      apply invitedUser_texts (h.invitations invitation hfind)
      exact fun hsame ↦ hsaid (hsame ▸ mem_supplied_invitation hfind htoken)
    exact { h with
      pendingInvitees := forall_append (fun item hitem ↦ h.pendingInvitees item (List.mem_filter.mp hitem).1) htexts
      invitations := forall_modifyFirst h.invitations fun item hitem _ ↦ h.invitations item hitem }
  | confirmed challenge totpCode pending secret step hfind =>
    have htexts := h.pendingInvitees pending (List.mem_of_find?_eq_some hfind)
    have hcommitted : Unmentioned name ((w.note [.accepted secret step]).commitUser p now
        { pending.user with lastTotpStep := some step } (some pending.invitationId) true).state :=
      Unmentioned.commitUser (w := w.note [.accepted secret step]) h htexts
    generalize (w.note [.accepted secret step]).commitUser p now { pending.user with lastTotpStep := some step }
      (some pending.invitationId) true = v at hcommitted ⊢
    exact { hcommitted with
      pendingInvitees := fun item hitem ↦ hcommitted.pendingInvitees item (List.mem_filter.mp hitem).1 }
  | roleChanged actorId userId other actor target role =>
    refine Unmentioned.adminEvent (w := w.withRole userId role) ?_ (by simp [detailTexts])
    exact { h with users := forall_modifyFirst h.users fun user huser _ ↦ h.users user huser }
  | statusChanged _ actorId userId status reason actor target hcall =>
    have hreason : name ∉ reason.toList := by
      cases call with
      | disableUser | revokeUser =>
        cases hcall
        exact hsaid
      | reinstateUser =>
        cases hcall
        exact List.not_mem_nil
      | _ => cases hcall
    refine Unmentioned.adminEvent (w := w.withStatus now userId status reason) ?_ ?_
    · refine { h with users := forall_modifyFirst h.users ?_, serviceTokens := ?_ }
      · intro user huser _
        have htexts := h.users user huser
        simp only [userTexts, List.mem_append, not_or] at htexts ⊢
        refine ⟨⟨htexts.1.1, ?_⟩, htexts.2⟩
        split
        · exact List.not_mem_nil
        · exact hreason
      · exact forall_revoked h.serviceTokens fun token htoken ↦ h.serviceTokens token htoken
    · simpa [detailTexts, Option.mem_toList] using hreason
  | serviceAccountCreated actorId username displayName actor record token hactor hname hfree hrecord htoken hlabel =>
    have htexts : name ∉ [record.username, p.head 100 (trim (displayName.getD record.username)), p.head 64 "initial"] := by
      simpa only [supplied, hname] using hsaid
    have hrecordTexts : name ∉ userTexts record := by
      rw [hrecord]
      simp only [List.mem_cons, List.not_mem_nil, or_false, not_or] at htexts
      simp [userTexts, User.made, htexts]
    have hcommitted : Unmentioned name ((w.draw 1).commitUser p now record none false).state :=
      Unmentioned.commitUser (w := w.draw 1) h hrecordTexts
    have hissued : name ≠ token.name := by
      rw [hlabel]
      exact fun hsame ↦ htexts (by simp [hsame])
    generalize (w.draw 1).commitUser p now record none false = v at hcommitted ⊢
    refine Unmentioned.adminEvent (w := (v.update fun next ↦ { next with
      serviceTokens := next.serviceTokens ++ [token] }).draw 2) ?_ (by simpa [detailTexts] using hissued)
    exact { hcommitted with serviceTokens := forall_append hcommitted.serviceTokens hissued }
  | tokenIssued actorId userId label ttlDays actor target token hactor htarget hactive htoken hlabel =>
    have hissued : name ≠ token.name := by
      rw [hlabel]
      exact fun hsame ↦ hsaid (by simp [supplied, hsame])
    refine Unmentioned.adminEvent (w := (w.update fun next ↦ { next with
      serviceTokens := next.serviceTokens ++ [token] }).draw 2) ?_ (by simpa [detailTexts] using hissued)
    exact { h with serviceTokens := forall_append h.serviceTokens hissued }
  | tokenRevoked actorId tokenId =>
    refine Unmentioned.adminEvent (w := w.update fun next ↦ { next with
      serviceTokens := modifyFirst (·.id = tokenId) (fun target ↦ { target with revokedAt := some now })
        next.serviceTokens }) ?_ (by simp [detailTexts])
    exact { h with serviceTokens := forall_modifyFirst h.serviceTokens fun token htoken _ ↦ h.serviceTokens token htoken }
  | erased actorId userId =>
    simp only [supplied, List.mem_append, not_or] at hsaid
    refine Unmentioned.adminEvent (w := w.withErased p now userId) ?_ ?_
    · refine { h with
        users := forall_modifyFirst h.users fun user huser _ ↦ ?_
        invitations := fun item hitem ↦ h.invitations item (List.mem_filter.mp hitem).1
        serviceTokens := fun token htoken ↦ h.serviceTokens token (List.mem_filter.mp htoken).1 }
      exact erased_texts hsaid.1 fun hmem ↦ h.users user huser (List.mem_append_right _ hmem)
    · simpa [detailTexts, Option.mem_toList] using hsaid.2

/-! ### What is stored of an account that was erased -/

theorem besides_users (h : w.Identified p) {target : User} (htarget : w.user userId = some target) {f : User → User}
    (huser : user ∈ modifyFirst (fun u ↦ decide (u.id = userId)) f w.state.users) :
    user = f target ∨ user ∈ w.state.users ∧ user.id ≠ userId := by
  obtain ⟨rest, hbefore, hafter⟩ := modifyFirst_perm (f := f) htarget
  rcases List.mem_cons.mp (hafter.mem_iff.mp huser) with hsame | hrest
  · exact .inl hsame
  · refine .inr ⟨hbefore.mem_iff.mpr (List.mem_cons_of_mem _ hrest), ?_⟩
    -- No two records have one id.
    intro hid
    have htargetId : target.id = userId := by simpa using List.find?_some htarget
    have honce := h.once userId
    have hweight : weigh (hasId userId) w.state.users = hasId userId target + weigh (hasId userId) rest :=
      (weigh_perm hbefore).trans (weigh_cons target)
    have hmem := weigh_mem (c := hasId userId) hrest
    have hall : w.idWeight userId = weigh (hasId userId) w.state.users + _ := weigh_append
    simp only [hasId, htargetId, hid, if_true] at hweight hmem
    omega

theorem gone_of_erased (h : w.Identified p) {reason : Option String} {actorId : String}
    (huser : w.user userId = some user) (herasable : Erasable p w user (.eraseUser actorId userId reason)) :
    Gone userId [user.username, user.displayName] (w.withErased p now userId).state := by
  have hid : user.id = userId := by simpa using List.find?_some huser
  obtain ⟨hpending, hpasskeys, hcodes, hterminals, hchallenges, hnames⟩ := herasable
  rw [hid] at hterminals hchallenges hnames
  refine ⟨?_, hterminals, ?_, ?_, hchallenges, ?_⟩
  · intro other hother hsame
    rcases besides_users h huser hother with rfl | ⟨_, hne⟩
    · exact ⟨rfl, rfl, rfl, hpending, hpasskeys, hcodes⟩
    · exact absurd hsame hne
  · intro session hsession
    simpa using (List.mem_filter.mp hsession).2
  · intro token htoken
    simpa using (List.mem_filter.mp htoken).2
  · intro name hname
    obtain ⟨hrest, hsaid⟩ := hnames name hname
    simp only [supplied, List.mem_append, not_or] at hsaid
    refine ⟨?_, hrest.pendingOwner, hrest.pendingInvitees, hrest.invitations, hrest.terminals, hrest.serviceTokens,
      hrest.loginChallenges, hrest.events⟩
    intro other hother
    rcases besides_users h huser hother with rfl | ⟨hold, hne⟩
    · exact erased_texts hsaid.1 (by rw [hpasskeys]; exact List.not_mem_nil)
    · exact hrest.users other (List.mem_filter.mpr ⟨hold, by simpa using hne⟩)

theorem Gone.adminEvent {names : List String} (h : Gone userId names w.state) {actorId subjectId : Option String}
    {action : String} {details : List (String × Option String)} (hnew : ∀ name ∈ names, name ∉ detailTexts details) :
    Gone userId names (w.adminEvent p actorId subjectId action details).state := by
  have hnames : ∀ name ∈ names, Unmentioned name (w.adminEvent p actorId subjectId action details).state :=
    fun name hname ↦ (h.names name hname).adminEvent (hnew name hname)
  obtain ⟨events, hstate, _⟩ := adminEvent_state (p := p) (w := w) actorId subjectId action details
  rw [hstate] at hnames ⊢
  exact { h with names := hnames }

theorem DirectoryEffect.serviceTokens (h : DirectoryEffect p now w call w') {token : ServiceToken}
    (htoken : token ∈ w'.state.serviceTokens) : (∃ old ∈ w.state.serviceTokens, old.userId = token.userId) ∨
      (∃ target, w.user token.userId = some target ∧ isActive target = true) ∨ token.userId = p.randomUUID w.drawn := by
  cases h with
  | statusChanged _ =>
    refine .inl (forall_revoked (P := fun token ↦ ∃ old ∈ w.state.serviceTokens, old.userId = token.userId) ?_ ?_ token htoken)
    · exact fun old hold ↦ ⟨old, hold, rfl⟩
    · exact fun old hold ↦ ⟨old, hold, rfl⟩
  | serviceAccountCreated actorId username displayName actor record issued hactor hname hfree hrecord hissued =>
    rcases List.mem_append.mp htoken with hold | hnew
    · exact .inl ⟨token, hold, rfl⟩
    · refine .inr (.inr ?_)
      rw [List.mem_singleton.mp hnew, hissued, hrecord]
      rfl
  | tokenIssued actorId userId name ttlDays actor target issued hactor htarget hactive hissued =>
    rcases List.mem_append.mp htoken with hold | hnew
    · exact .inl ⟨token, hold, rfl⟩
    · refine .inr (.inl ⟨target, ?_, hactive⟩)
      rw [List.mem_singleton.mp hnew, hissued]
      exact htarget
  | tokenRevoked =>
    refine .inl (forall_modifyFirst (P := fun token ↦ ∃ old ∈ w.state.serviceTokens, old.userId = token.userId) ?_ ?_ token
      htoken)
    · exact fun old hold ↦ ⟨old, hold, rfl⟩
    · exact fun old hold _ ↦ ⟨old, hold, rfl⟩
  | erased => exact .inl ⟨token, (List.mem_filter.mp htoken).1, rfl⟩
  | _ => exact .inl ⟨token, htoken, rfl⟩

/-- The account that was erased is still there, by its id, and nothing of it is. -/
structure Rests (p : Platform) (userId : String) (names : List String) (w : World) : Prop where
  identified : w.Identified p
  present : ∃ user ∈ w.state.users, user.id = userId
  gone : Gone userId names w.state

theorem drawn_of_mem (h : w.Identified p) (huser : user ∈ w.state.users) :
    ∃ m < w.drawn, p.randomUUID m = user.id := by
  apply h.drawn
  have hone := weigh_mem (c := hasId user.id) huser
  have hall : w.idWeight user.id = weigh (hasId user.id) w.state.users + _ := weigh_append
  rw [hasId, if_pos rfl] at hone
  omega

theorem Identified.eq_of_id (h : w.Identified p) {other : User} (huser : user ∈ w.state.users)
    (hother : other ∈ w.state.users) (hid : user.id = other.id) : user = other := by
  have hfound := Identified.user_eq h huser
  rw [hid, Identified.user_eq h hother] at hfound
  exact (Option.some.inj hfound).symm

theorem Rests.step (hfresh : p.Fresh) {names : List String} (h : Rests p userId names w) {call : ℕ × DirectoryCall}
    (hrelapse : NoRelapse p w call) (hsaid : Unsaid p names w call) :
    Rests p userId names (directoryStep p w call) := by
  obtain ⟨now, call⟩ := call
  have heffect : DirectoryEffect p now w call (directoryStep p w (now, call)) := call.perform_effect p now w
  have hrelapse : ∀ actorId userId reason found, call = .disableUser actorId userId reason →
      directoryStep p w (now, call) ≠ w → w.user userId = some found → found.status ≠ some .revoked := hrelapse
  obtain ⟨hidentified, ⟨user, huser, hid⟩, hgone⟩ := h
  have hidentified' : (directoryStep p w (now, call)).Identified p := hidentified.grows hfresh.uuid heffect.records.ids
  generalize directoryStep p w (now, call) = w' at *
  obtain ⟨user', huser', hid', hchange⟩ := DirectoryEffect.change heffect huser
  refine ⟨hidentified', ⟨user', huser', hid'.trans hid⟩, ?_, ?_, ?_, ?_, ?_, ?_⟩
  · intro other hother hotherId
    have hsame : other = user' := Identified.eq_of_id hidentified' hother huser' (hotherId.trans (hid'.trans hid).symm)
    rw [hsame]
    exact Change.stripped hchange hrelapse (hgone.record user huser hid)
  · rw [DirectoryEffect.terminals heffect]
    exact hgone.terminals
  · exact fun session hsession ↦ hgone.sessions session (heffect.sessions hsession)
  · intro token htoken hmine
    rcases DirectoryEffect.serviceTokens heffect htoken with ⟨old, hold, hsame⟩ | ⟨target, htarget, hactive⟩ | hnew
    · exact hgone.serviceTokens old hold (hsame.trans hmine)
    · have hstripped := hgone.record target (user_mem htarget) ((user_id htarget).trans hmine)
      rw [isActive, hstripped.revoked] at hactive
      cases hactive
    · obtain ⟨m, hm, hdrawn⟩ := drawn_of_mem hidentified huser
      have heq : m = w.drawn := hfresh.uuid (hdrawn.trans (hid.trans (hmine.symm.trans hnew)))
      omega
  · rw [heffect.loginChallenges]
    exact hgone.loginChallenges
  · exact fun name hname ↦ (hgone.names name hname).directory heffect (hsaid name hname)

/-- The account that was revoked is there, and revoked. -/
structure StaysRevoked (p : Platform) (userId : String) (w : World) : Prop where
  identified : w.Identified p
  revoked : ∃ user ∈ w.state.users, user.id = userId ∧ user.status = some .revoked

theorem StaysRevoked.step (hfresh : p.Fresh) (h : StaysRevoked p userId w) {call : ℕ × DirectoryCall}
    (hrelapse : NoRelapse p w call) : StaysRevoked p userId (directoryStep p w call) := by
  obtain ⟨now, call⟩ := call
  have heffect : DirectoryEffect p now w call (directoryStep p w (now, call)) := call.perform_effect p now w
  obtain ⟨hidentified, user, huser, hid, hrevoked⟩ := h
  obtain ⟨user', huser', hid', hchange⟩ := DirectoryEffect.change heffect huser
  refine ⟨hidentified.grows hfresh.uuid heffect.records.ids, user', huser', hid'.trans hid, ?_⟩
  exact Change.revoked hchange hrelapse hrevoked

theorem identified_after (hfresh : p.Fresh) (before : List (ℕ × Call)) :
    (Run.after (Accounts.step p) World.initial before).Identified p :=
  Run.invariant (I := World.Identified p) (fun _ call h ↦ Identified.step hfresh h call) (identified_initial p) before

theorem identified_directory (hfresh : p.Fresh) (h : w.Identified p) (calls : List (ℕ × DirectoryCall)) :
    (Run.after (directoryStep p) w calls).Identified p :=
  Run.invariant (I := World.Identified p)
    (fun v call hv ↦ hv.grows hfresh.uuid (call.2.perform_effect p call.1 v).records.ids) h calls

/-- Where no revoked account is disabled, a revoked account is not active again; and where an account that is erased had
nothing that the erasure leaves, and its names were nowhere else and are not said again, nothing is left of it. -/
theorem revocation_erasure_final (p : Platform) (hfresh : p.Fresh) (before : List (ℕ × Call))
    (first : List (ℕ × DirectoryCall)) :
    let base := Run.after (directoryStep p) (Run.after (Accounts.step p) World.initial before) first
    (∀ later, Run.Along (directoryStep p) (NoRelapse p) base later → ∀ user ∈ base.state.users,
      user.status = some .revoked → ∀ user' ∈ (Run.after (directoryStep p) base later).state.users, user'.id = user.id →
        isActive user' = false) ∧
    ∀ now actorId userId reason user later, directoryStep p base (now, .eraseUser actorId userId reason) ≠ base →
      base.user userId = some user → Erasable p base user (.eraseUser actorId userId reason) →
      Run.Along (directoryStep p) (fun w call ↦ NoRelapse p w call ∧ Unsaid p [user.username, user.displayName] w call)
        (directoryStep p base (now, .eraseUser actorId userId reason)) later →
      Gone userId [user.username, user.displayName]
        (Run.after (directoryStep p) base ((now, .eraseUser actorId userId reason) :: later)).state := by
  intro base
  have hbase : base.Identified p := identified_directory hfresh (identified_after hfresh before) first
  constructor
  · intro later hlater user huser hrevoked user' huser' hid
    have hend : StaysRevoked p user.id (Run.after (directoryStep p) base later) :=
      hlater.invariant (fun w call h hcall ↦ h.step hfresh hcall) ⟨hbase, user, huser, rfl, hrevoked⟩
    obtain ⟨hidentified, found, hfound, hfoundId, hstatus⟩ := hend
    have hsame : user' = found := Identified.eq_of_id hidentified huser' hfound (hid.trans hfoundId.symm)
    rw [hsame, isActive, hstatus]
    rfl
  · intro now actorId userId reason user later hchanged huser herasable hlater
    have hrests : Rests p userId [user.username, user.displayName]
        (directoryStep p base (now, .eraseUser actorId userId reason)) := by
      have heffect : DirectoryEffect p now base (.eraseUser actorId userId reason)
          (directoryStep p base (now, .eraseUser actorId userId reason)) := DirectoryCall.perform_effect p now base _
      have hidentified := hbase.grows hfresh.uuid heffect.records.ids
      generalize directoryStep p base (now, .eraseUser actorId userId reason) = w' at *
      obtain ⟨user', huser', hid', _⟩ := DirectoryEffect.change heffect (user_mem huser)
      refine ⟨hidentified, ⟨user', huser', hid'.trans (user_id huser)⟩, ?_⟩
      cases heffect with
      | refused => exact absurd rfl hchanged
      | statusChanged _ _ _ _ _ _ _ hcall => cases hcall
      | erased _ _ _ =>
        refine Gone.adminEvent (w := base.withErased p now userId) (gone_of_erased hbase huser herasable) ?_
        intro name hname
        have hsaid := (herasable.names name hname).2
        simp only [supplied, List.mem_append, not_or] at hsaid
        simpa [detailTexts, Option.mem_toList] using hsaid.2
    exact (hlater.invariant (fun w call h hcall ↦ h.step hfresh hcall.1 hcall.2) hrests).gone

end

def joining (role : String) : List (ℕ × Call) :=
  [(90000, .auth .seedDefaultOwnerIfNeeded), (90000, .directory (.createInvitation "" "alice" none role)),
    (90000, .directory (.acceptInvitation "tt" "correct horse battery" none)),
    (90000, .directory (.confirmInvitationMfa "tttttttt" "123456"))]

def succeeded : World := Run.after (step .tallying) World.initial (joining "owner")

def erasure : DirectoryCall := .eraseUser "uuuuu" "" none

theorem succeeded_erasable (user : User) (huser : succeeded.user "" = some user) :
    [user.username, user.displayName] = ["root", "Owner"] ∧ Erasable .tallying succeeded user erasure := by
  have hroot : ∃ root, succeeded.user "" = some root ∧ root.id = "" ∧ root.username = "root" ∧ root.displayName = "Owner" ∧
      root.pendingTotp = none ∧ root.passkeys = [] ∧ root.recoveryCodes = [] := ⟨_, rfl, rfl, rfl, rfl, rfl, rfl, rfl⟩
  obtain ⟨root, hfound, hid, husername, hshown, hpending, hpasskeys, hcodes⟩ := hroot
  rw [huser, Option.some.injEq] at hfound
  subst hfound
  have hterminals : succeeded.state.terminals = [] := rfl
  have htokens : succeeded.state.serviceTokens = [] := rfl
  have hchallenges : succeeded.state.loginChallenges = [] := rfl
  have howner : succeeded.state.pendingOwner = none := rfl
  rw [husername, hshown]
  refine ⟨rfl, hpending, hpasskeys, hcodes, ?_, ?_, ?_⟩
  · simp [hterminals]
  · simp [hchallenges]
  · rw [hid, husername, hshown]
    intro name hname
    have husers : ∀ name ∈ ["root", "Owner"], ∀ user ∈ (besides "" succeeded.state).users, name ∉ userTexts user := by
      decide
    have hinvitees : ∀ name ∈ ["root", "Owner"], ∀ pending ∈ succeeded.state.pendingInvitees,
        name ∉ userTexts pending.user := by
      decide
    have hinvitations : ∀ name ∈ ["root", "Owner"], ∀ invitation ∈ (besides "" succeeded.state).invitations,
        name ∉ [invitation.username, invitation.displayName] := by
      decide
    have hevents : ∀ name ∈ ["root", "Owner"], ∀ event ∈ succeeded.state.administrativeEvents,
        name ∉ detailTexts event.details := by
      decide
    have hsaid : ∀ name ∈ ["root", "Owner"], name ∉ supplied .tallying succeeded erasure := by
      decide
    refine ⟨⟨husers name hname, ?_, hinvitees name hname, hinvitations name hname, ?_, ?_, ?_, hevents name hname⟩,
      hsaid name hname⟩
    · simp [besides, howner]
    · simp [besides, hterminals]
    · simp [besides, htokens]
    · simp [besides, hchallenges]

theorem revocation_erasure_final_root :
    (∀ user' ∈ (Run.after (directoryStep .tallying) succeeded
      [(90000, .revokeUser "uuuuu" "" none), (90000, .reinstateUser "uuuuu" "")]).state.users,
        user'.id = "" → isActive user' = false) ∧
    Gone "" ["root", "Owner"] (Run.after (directoryStep .tallying) succeeded [(90000, erasure)]).state := by
  constructor
  · have hroot : ∃ root ∈ (directoryStep .tallying succeeded (90000, .revokeUser "uuuuu" "" none)).state.users,
        root.id = "" ∧ root.status = some .revoked := by
      decide
    obtain ⟨root, hmem, hid, hstatus⟩ := hroot
    intro user' huser' hsame
    refine (revocation_erasure_final .tallying Platform.tallying_fresh (joining "owner") [(90000, .revokeUser "uuuuu" "" none)]).1
      [(90000, .reinstateUser "uuuuu" "")] ⟨?_, trivial⟩ root hmem hstatus user' huser' (hsame.trans hid.symm)
    intro actorId userId reason user hcall
    cases hcall
  · have hroot : ∃ root, succeeded.user "" = some root := ⟨_, rfl⟩
    obtain ⟨root, hfound⟩ := hroot
    obtain ⟨hnames, herasable⟩ := succeeded_erasable root hfound
    have hgone := (revocation_erasure_final .tallying Platform.tallying_fresh (joining "owner") []).2 90000 "uuuuu" "" none root []
      (ne_of_drawn (by decide)) hfound herasable trivial
    rw [hnames] at hgone
    exact hgone

/-- An account that is revoked, and then disabled, is reinstated; and the name of one that is erased is left in the
events. -/
theorem revoked_account_active_again : ¬((∀ before first later user user',
      user ∈ (Run.after (directoryStep .tallying) (Run.after (step .tallying) World.initial before) first).state.users →
      user.status = some .revoked →
      user' ∈ (Run.after (directoryStep .tallying) (Run.after (step .tallying) World.initial before)
        (first ++ later)).state.users → user'.id = user.id → isActive user' = false) ∨
    ∀ before actorId userId reason user,
      directoryStep .tallying (Run.after (step .tallying) World.initial before) (90000, .eraseUser actorId userId reason) ≠
        Run.after (step .tallying) World.initial before →
      (Run.after (step .tallying) World.initial before).user userId = some user →
      ∀ name ∈ [user.username, user.displayName], Unmentioned name
        (directoryStep .tallying (Run.after (step .tallying) World.initial before)
          (90000, .eraseUser actorId userId reason)).state) := by
  rintro (hactive | herased)
  · have hrevoked : ∃ user ∈ (Run.after (directoryStep .tallying) (Run.after (step .tallying) World.initial (joining "user"))
        [(90000, .revokeUser "" "uuuuu" none)]).state.users, user.id = "uuuuu" ∧ user.status = some .revoked := by
      decide
    have hagain : ∃ user ∈ (Run.after (directoryStep .tallying) (Run.after (step .tallying) World.initial (joining "user"))
        ([(90000, .revokeUser "" "uuuuu" none)] ++
          [(90000, .disableUser "" "uuuuu" none), (90000, .reinstateUser "" "uuuuu")])).state.users,
        user.id = "uuuuu" ∧ isActive user = true := by
      decide
    obtain ⟨user, huser, hid, hstatus⟩ := hrevoked
    obtain ⟨user', huser', hid', hagain⟩ := hagain
    rw [hactive (joining "user") _ _ user user' huser hstatus huser' (hid'.trans hid.symm)] at hagain
    cases hagain
  · have halice : ∃ user, (Run.after (step .tallying) World.initial (joining "user")).user "uuuuu" = some user ∧
        user.username = "alice" := ⟨_, rfl, rfl⟩
    obtain ⟨alice, hfound, husername⟩ := halice
    have hgone := herased (joining "user") "" "uuuuu" none alice (ne_of_drawn (by decide)) hfound alice.username List.mem_cons_self
    rw [husername] at hgone
    have hleft : ∃ event ∈ (directoryStep .tallying (Run.after (step .tallying) World.initial (joining "user"))
        (90000, .eraseUser "" "uuuuu" none)).state.administrativeEvents, "alice" ∈ detailTexts event.details := by
      decide
    obtain ⟨event, hevent, hmem⟩ := hleft
    exact hgone.events event hevent hmem

end Noesar.Accounts.Finality
