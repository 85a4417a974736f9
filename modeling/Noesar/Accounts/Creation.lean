import Noesar.Accounts.Records

namespace Noesar.Accounts.Creation

open Lib World

def liveNames (users : List User) : List String := (users.filter (·.erasedAt.isNone)).map (·.username)

/-- The account was there from the beginning, or it came to be with a second factor that was verified. -/
def CreatedVerified (base w : World) (userId : String) : Prop :=
  (∃ user ∈ base.state.users, user.id = userId) ∨ ∃ origin, .created userId origin true ∈ w.history

structure Exact (base w : World) : Prop where
  names : (liveNames w.state.users).Nodup
  single : ∀ invitationId, w.births invitationId ≤ 1
  verified : ∀ user ∈ w.state.users, user.role.nonInteractive = false → CreatedVerified base w user.id

def newEvents (w w' : World) : List Event := w'.history.drop w.history.length

section

variable (p : Platform) (base : World)

/-- After the call all is exact, and no account came of an invitation that was revoked by then. -/
def ExactStep (w : World) (call : ℕ × DirectoryCall) : Prop :=
  Exact base (directoryStep p w call) ∧
    ∀ userId invitationId verified, .created userId (some invitationId) verified ∈ newEvents w (directoryStep p w call) →
      ∀ invitation ∈ w.state.invitations, invitation.id = invitationId → invitation.revokedAt = none

/-- Where an enrolment ends, its name is free and its invitation is not revoked; and what becomes interactive was created
with a second factor. -/
structure Meets (w : World) (call : ℕ × DirectoryCall) : Prop where
  confirmed : ∀ challenge totpCode pending, call.2 = .confirmInvitationMfa challenge totpCode → directoryStep p w call ≠ w →
    w.state.pendingInvitees.find? (·.challengeDigest = p.tokenDigest challenge) = some pending →
      pending.user.username ∉ liveNames w.state.users ∧
        ∀ invitation ∈ w.state.invitations, invitation.id = pending.invitationId → invitation.revokedAt = none
  roles : ∀ actorId userId name role, call.2 = .setRole actorId userId name → directoryStep p w call ≠ w →
    Role.named name = some role → role.nonInteractive = false → CreatedVerified base w userId

end

def hasInvitationId (id : String) (invitation : Invitation) : ℕ := if invitation.id = id then 1 else 0

/-- What is known of invitations, and of who waits to be an account. -/
structure Orderly (p : Platform) (w : World) : Prop where
  supplied : Supplied p.randomUUID w.drawn fun id ↦ weigh (hasInvitationId id) w.state.invitations
  interactive : ∀ invitation ∈ w.state.invitations, invitation.role.nonInteractive = false
  drawn : ∀ id, 0 < w.births id → ∃ m < w.drawn, p.randomUUID m = id
  single : ∀ id, w.births id ≤ 1
  unused : ∀ invitation ∈ w.state.invitations, invitation.acceptedAt = none → w.births invitation.id = 0
  waiting : ∀ pending ∈ w.state.pendingInvitees, w.births pending.invitationId = 0 ∧ pending.user.erasedAt = none ∧
    ∃ m < w.drawn, p.randomUUID m = pending.invitationId
  apart : (w.state.pendingInvitees.map (·.invitationId)).Nodup

section

variable {p : Platform} {base w w' : World} {now : ℕ}

/-! ### Names -/

theorem liveNames_append (users more : List User) : liveNames (users ++ more) = liveNames users ++ liveNames more := by
  simp [liveNames]

theorem liveNames_modifyFirst {sought : User → Bool} {f : User → User} {users : List User}
    (hf : ∀ user, (f user).erasedAt.isNone = false ∨
      (f user).username = user.username ∧ (f user).erasedAt = user.erasedAt) :
    (liveNames (modifyFirst sought f users)).Sublist (liveNames users) := by
  obtain ⟨_, hsame⟩ | ⟨before, x, after, husers, _, _, hnew⟩ := modifyFirst_cases sought f users
  · rw [hsame]
  · rw [hnew, husers, liveNames_append, liveNames_append]
    apply List.Sublist.append (List.Sublist.refl _)
    rcases hf x with hgone | ⟨hname, herased⟩
    · have hnone : liveNames (f x :: after) = liveNames after := by
        unfold liveNames
        rw [List.filter_cons_of_neg (by simp [hgone])]
      rw [hnone]
      exact ((List.sublist_cons_self x after).filter _).map _
    · have hsame : liveNames (f x :: after) = liveNames (x :: after) := by
        unfold liveNames
        simp only [List.filter_cons, herased]
        split
        · rw [List.map_cons, List.map_cons, hname]
        · rfl
      rw [hsame]

theorem liveNames_single {user : User} (herased : user.erasedAt = none) : liveNames [user] = [user.username] := by
  simp [liveNames, herased]

theorem ne_of_drawn (h : w.drawn < w'.drawn) : w' ≠ w := by
  intro hsame
  rw [hsame] at h
  exact lt_irrefl _ h

/-! ### Invitations -/

theorem newEvents_of {es : List Event} (h : w'.history = w.history ++ es) : newEvents w w' = es := by
  simp [newEvents, h]

theorem births_of {es : List Event} (h : w'.history = w.history ++ es) (invitationId : String) :
    w'.births invitationId = w.births invitationId + es.countP (bornOf invitationId) := by
  simp only [births, h, List.countP_append]

theorem births_same {es : List Event} (h : w'.history = w.history ++ es) (hnone : ∀ id, es.countP (bornOf id) = 0) :
    w'.births = w.births := by
  funext id
  rw [births_of h, hnone, Nat.add_zero]

theorem weigh_invitations_le {sought : Invitation → Bool} {f : Invitation → Invitation} (hf : ∀ invitation, (f invitation).id = invitation.id)
    (invitations : List Invitation) (id : String) :
    weigh (hasInvitationId id) (modifyFirst sought f invitations) ≤ weigh (hasInvitationId id) invitations := by
  apply weigh_modifyFirst_le
  intro invitation
  simp only [hasInvitationId, hf]
  exact le_rfl

theorem Orderly.of_kept (h : Orderly p w) (hdrawn : w.drawn ≤ w'.drawn) (hbirths : w'.births = w.births)
    (hinvitees : w'.state.pendingInvitees = w.state.pendingInvitees)
    (hweight : ∀ id, weigh (hasInvitationId id) w'.state.invitations ≤ weigh (hasInvitationId id) w.state.invitations)
    (hinvitations : ∀ invitation ∈ w'.state.invitations, ∃ old ∈ w.state.invitations, old.id = invitation.id ∧
      old.role = invitation.role ∧ old.acceptedAt = invitation.acceptedAt) : Orderly p w' := by
  refine ⟨h.supplied.mono hdrawn hweight, ?_, ?_, ?_, ?_, ?_, ?_⟩
  · intro invitation hinvitation
    obtain ⟨old, hold, _, hrole, _⟩ := hinvitations invitation hinvitation
    rw [← hrole]
    exact h.interactive old hold
  · intro id hpos
    rw [hbirths] at hpos
    obtain ⟨m, hm, hid⟩ := h.drawn id hpos
    exact ⟨m, by omega, hid⟩
  · rw [hbirths]
    exact h.single
  · intro invitation hinvitation haccepted
    obtain ⟨old, hold, hid, _, hsame⟩ := hinvitations invitation hinvitation
    rw [hbirths, ← hid]
    exact h.unused old hold (hsame.trans haccepted)
  · intro pending hpending
    rw [hinvitees] at hpending
    obtain ⟨hzero, herased, m, hm, hid⟩ := h.waiting pending hpending
    exact ⟨hbirths ▸ hzero, herased, m, by omega, hid⟩
  · rw [hinvitees]
    exact h.apart

theorem Orderly.of_same (h : Orderly p w) (hdrawn : w.drawn ≤ w'.drawn) (hbirths : w'.births = w.births)
    (hinvitees : w'.state.pendingInvitees = w.state.pendingInvitees)
    (hinvitations : w'.state.invitations = w.state.invitations) : Orderly p w' := by
  refine h.of_kept hdrawn hbirths hinvitees (fun id ↦ by rw [hinvitations]) ?_
  intro invitation hinvitation
  exact ⟨invitation, hinvitations ▸ hinvitation, rfl, rfl, rfl⟩

theorem Orderly.of_modified (h : Orderly p w) {sought : Invitation → Bool} {f : Invitation → Invitation}
    (hdrawn : w.drawn ≤ w'.drawn) (hbirths : w'.births = w.births)
    (hinvitees : w'.state.pendingInvitees = w.state.pendingInvitees)
    (hinvitations : w'.state.invitations = modifyFirst sought f w.state.invitations)
    (hf : ∀ invitation, (f invitation).id = invitation.id ∧ (f invitation).role = invitation.role ∧
      (f invitation).acceptedAt = invitation.acceptedAt) : Orderly p w' := by
  refine h.of_kept hdrawn hbirths hinvitees ?_ ?_
  · rw [hinvitations]
    exact weigh_invitations_le (fun invitation ↦ (hf invitation).1) _
  · intro invitation hinvitation
    rw [hinvitations] at hinvitation
    rcases mem_modifyFirst hinvitation with hold | ⟨old, hfind, rfl⟩
    · exact ⟨invitation, hold, rfl, rfl, rfl⟩
    · obtain ⟨hid, hrole, haccepted⟩ := hf old
      exact ⟨old, List.mem_of_find?_eq_some hfind, hid.symm, hrole.symm, haccepted.symm⟩

theorem Orderly.of_invited (h : Orderly p w) {invitation : Invitation} (hdrawn : w.drawn ≤ w'.drawn)
    (hbirths : w'.births = w.births) (hinvitees : w'.state.pendingInvitees = w.state.pendingInvitees)
    (hinvitations : w'.state.invitations = w.state.invitations ++ [invitation])
    (hrole : invitation.role.nonInteractive = false) (hunborn : w.births invitation.id = 0)
    (hsupplied : Supplied p.randomUUID w'.drawn fun id ↦ weigh (hasInvitationId id) w'.state.invitations) :
    Orderly p w' := by
  refine ⟨hsupplied, ?_, ?_, ?_, ?_, ?_, ?_⟩
  · intro other hother
    rw [hinvitations] at hother
    rcases List.mem_append.mp hother with hold | hnew
    · exact h.interactive other hold
    · rw [List.mem_singleton.mp hnew]
      exact hrole
  · intro id hpos
    rw [hbirths] at hpos
    obtain ⟨m, hm, hid⟩ := h.drawn id hpos
    exact ⟨m, by omega, hid⟩
  · rw [hbirths]
    exact h.single
  · intro other hother haccepted
    rw [hinvitations] at hother
    rw [hbirths]
    rcases List.mem_append.mp hother with hold | hnew
    · exact h.unused other hold haccepted
    · rw [List.mem_singleton.mp hnew]
      exact hunborn
  · intro pending hpending
    rw [hinvitees] at hpending
    obtain ⟨hzero, herased, m, hm, hid⟩ := h.waiting pending hpending
    exact ⟨hbirths ▸ hzero, herased, m, by omega, hid⟩
  · rw [hinvitees]
    exact h.apart

theorem Orderly.confirmed (h : Orderly p w) {pending : PendingInvitee} (hpending : pending ∈ w.state.pendingInvitees)
    (keep : PendingInvitee → Bool) (hkeep : keep pending = false) (hdrawn : w.drawn ≤ w'.drawn)
    (hbirths : ∀ id, w'.births id = w.births id + if pending.invitationId = id then 1 else 0)
    (hinvitees : w'.state.pendingInvitees = w.state.pendingInvitees.filter keep) (f : Invitation → Invitation)
    (hf : ∀ invitation, (f invitation).id = invitation.id ∧ (f invitation).role = invitation.role ∧
      (f invitation).acceptedAt ≠ none)
    (hinvitations : w'.state.invitations =
      modifyFirst (fun item ↦ some pending.invitationId = some item.id) f w.state.invitations) :
    Orderly p w' := by
  have hother {other : PendingInvitee} (hmem : other ∈ w'.state.pendingInvitees) :
      other ∈ w.state.pendingInvitees ∧ other.invitationId ≠ pending.invitationId := by
    rw [hinvitees] at hmem
    obtain ⟨hold, hkept⟩ := List.mem_filter.mp hmem
    refine ⟨hold, ?_⟩
    intro hsame
    obtain rfl := List.inj_on_of_nodup_map h.apart hold hpending hsame
    rw [hkeep] at hkept
    cases hkept
  refine ⟨?_, ?_, ?_, ?_, ?_, ?_, ?_⟩
  · apply h.supplied.mono hdrawn
    rw [hinvitations]
    exact weigh_invitations_le (fun invitation ↦ (hf invitation).1) _
  · intro invitation hinvitation
    rw [hinvitations] at hinvitation
    rcases mem_modifyFirst hinvitation with hold | ⟨old, hfind, rfl⟩
    · exact h.interactive invitation hold
    · rw [(hf old).2.1]
      exact h.interactive old (List.mem_of_find?_eq_some hfind)
  · intro id hpos
    by_cases hid : pending.invitationId = id
    · obtain ⟨_, _, m, hm, hdraw⟩ := h.waiting pending hpending
      exact ⟨m, by omega, hdraw.trans hid⟩
    · rw [hbirths, if_neg hid] at hpos
      obtain ⟨m, hm, hdraw⟩ := h.drawn id hpos
      exact ⟨m, by omega, hdraw⟩
  · intro id
    have honce := h.single id
    rw [hbirths]
    split
    · rename_i hid
      have hzero := (h.waiting pending hpending).1
      rw [hid] at hzero
      omega
    · exact honce
  · intro invitation hinvitation haccepted
    rw [hinvitations] at hinvitation
    have hunused : invitation ∈ w.state.invitations ∧ pending.invitationId ≠ invitation.id := by
      cases hfind : w.state.invitations.find? fun item ↦ some pending.invitationId = some item.id with
      | none =>
        rw [modifyFirst_of_find?_none hfind] at hinvitation
        have hnot := List.find?_eq_none.mp hfind invitation hinvitation
        exact ⟨hinvitation, by simpa using hnot⟩
      | some accepted =>
        obtain ⟨rest, hbefore, hafter⟩ := modifyFirst_perm (f := f) hfind
        rcases List.mem_cons.mp (hafter.mem_iff.mp hinvitation) with rfl | hrest
        · exact absurd haccepted (hf accepted).2.2
        · refine ⟨hbefore.mem_iff.mpr (List.mem_cons_of_mem _ hrest), ?_⟩
          -- The one that is accepted has the id, and no other.
          intro hsame
          have hid : accepted.id = invitation.id := by
            have hfound := List.find?_some hfind
            simp only [Option.some.injEq, decide_eq_true_eq] at hfound
            exact hfound.symm.trans hsame
          have hone := h.supplied.once invitation.id
          have hweight := weigh_perm (c := hasInvitationId invitation.id) hbefore
          have hmem := weigh_mem (c := hasInvitationId invitation.id) hrest
          rw [weigh_cons] at hweight
          simp only [hasInvitationId, hid, if_true] at hone hweight hmem
          omega
    rw [hbirths, if_neg hunused.2, Nat.add_zero]
    exact h.unused invitation hunused.1 haccepted
  · intro other hmem
    obtain ⟨hold, hne⟩ := hother hmem
    obtain ⟨hzero, herased, m, hm, hid⟩ := h.waiting other hold
    refine ⟨?_, herased, m, by omega, hid⟩
    rw [hbirths, if_neg hne.symm]
    exact hzero
  · rw [hinvitees]
    exact h.apart.sublist (List.filter_sublist.map _)

theorem Orderly.directory (hfresh : p.Fresh) (h : Orderly p w) {call : DirectoryCall} (heffect : DirectoryEffect p now w call w') :
    Orderly p w' := by
  have hdrawn : w.drawn ≤ w'.drawn := heffect.records.later
  cases heffect with
  | refused => exact h
  | invited actorId username displayName role actor invitation hactor hgranted hrole hname hshown hfree hid =>
    -- The id is new, to the invitations and to the births.
    have hnew {id : String} {m : ℕ} (hm : m < w.drawn) (hdraw : p.randomUUID m = id) : id ≠ invitation.id := by
      intro hsame
      have heq : m = w.drawn + 1 := hfresh.uuid ((hdraw.trans hsame).trans hid)
      omega
    have hunborn : w.births invitation.id = 0 := by
      by_contra hpos
      obtain ⟨m, hm, hdraw⟩ := h.drawn invitation.id (Nat.pos_of_ne_zero hpos)
      exact hnew hm hdraw rfl
    apply Orderly.of_invited h hdrawn (@births_same w _ [.invited invitation.id actor.role] rfl fun _ ↦ rfl) rfl rfl hrole
      hunborn
    refine h.supplied.grows hfresh.uuid (.of_drawn (m := w.drawn + 1) (Nat.le_add_right _ 1)
      (Nat.add_lt_add_left (Nat.succ_lt_succ Nat.zero_lt_two) _) ?_)
    intro id
    have hweight : weigh (hasInvitationId id) (w.state.invitations ++ [invitation]) =
        weigh (hasInvitationId id) w.state.invitations + if p.randomUUID (w.drawn + 1) = id then 1 else 0 := by
      rw [weigh_append, weigh_cons, weigh_nil, hasInvitationId, hid, Nat.add_zero]
    exact hweight.le
  | invitationRevoked =>
    refine h.of_modified hdrawn rfl rfl rfl ?_
    intro invitation
    exact ⟨rfl, rfl, rfl⟩
  | joined token password displayName invitation hfind hrevoked haccepted hrole =>
    rw [h.interactive invitation hfind] at hrole
    cases hrole
  | claimed token password displayName invitation pending hfind hrevoked haccepted hrole hdigest hid huser =>
    have hinvitees : ((w.state.pendingInvitees.filter fun item ↦
        now < item.expiresAt && item.invitationId ≠ invitation.id).map (·.invitationId)).Sublist
          (w.state.pendingInvitees.map (·.invitationId)) := List.filter_sublist.map _
    have hpos : 0 < weigh (hasInvitationId invitation.id) w.state.invitations := by
      have hle := weigh_mem (c := hasInvitationId invitation.id) hfind
      rw [hasInvitationId, if_pos rfl] at hle
      exact hle
    obtain ⟨m, hm, hdraw⟩ := h.supplied.drawn invitation.id hpos
    have hclaimed : Orderly p ((w.update fun next ↦ { next with
        invitations := modifyFirst (·.id = invitation.id) (fun claimed ↦ { claimed with claimedAt := some now })
          next.invitations }).draw 4) := by
      refine h.of_modified (Nat.le_add_right _ 4) rfl rfl rfl ?_
      intro other
      exact ⟨rfl, rfl, rfl⟩
    refine ⟨hclaimed.supplied, hclaimed.interactive, hclaimed.drawn, hclaimed.single, hclaimed.unused, ?_, ?_⟩
    · intro other hother
      rcases List.mem_append.mp hother with hold | hnew
      · exact hclaimed.waiting other (List.mem_filter.mp hold).1
      · rw [List.mem_singleton.mp hnew, hid]
        refine ⟨h.unused invitation hfind haccepted, by rw [huser]; rfl, m, ?_, hdraw⟩
        exact hm.trans_le hdrawn
    · change (List.map _ (_ ++ [pending])).Nodup
      rw [List.map_append, List.map_singleton, hid]
      refine List.nodup_append.mpr ⟨h.apart.sublist hinvitees, List.nodup_singleton _, ?_⟩
      intro id hmem other hother hsame
      rw [List.mem_singleton.mp hother] at hsame
      obtain ⟨item, hitem, hitemId⟩ := List.mem_map.mp hmem
      have hkept := (List.mem_filter.mp hitem).2
      simp only [hitemId, hsame, ne_eq, not_true_eq_false, decide_false, Bool.and_false, Bool.false_eq_true] at hkept
  | confirmed challenge totpCode pending secret step hfind =>
    refine h.confirmed (List.mem_of_find?_eq_some hfind) (·.challengeDigest ≠ p.tokenDigest challenge) ?_ hdrawn
      ?_ rfl (fun item ↦ { item with acceptedAt := some now, acceptedUserId := some pending.user.id }) ?_ rfl
    · simpa using List.find?_some hfind
    · intro id
      rw [births_of (List.append_assoc _ _ _)]
      simp [bornOf, List.countP_cons]
    · intro invitation
      exact ⟨rfl, rfl, nofun⟩
  | roleChanged | statusChanged => exact h.of_same hdrawn rfl rfl rfl
  | serviceAccountCreated actorId username displayName actor record =>
    refine h.of_same hdrawn (@births_same w _ [.created record.id none false] rfl fun _ ↦ rfl) rfl ?_
    exact modifyFirst_of_find?_none (List.find?_eq_none.mpr fun _ _ ↦ by simp)
  | tokenIssued | tokenRevoked => exact h.of_same hdrawn rfl rfl rfl
  | erased =>
    refine h.of_kept hdrawn rfl rfl (fun id ↦ weigh_filter_le _) ?_
    intro invitation hinvitation
    exact ⟨invitation, (List.mem_filter.mp hinvitation).1, rfl, rfl, rfl⟩

/-! ### What a call leaves exact -/

theorem CreatedVerified.mono {userId : String} {es : List Event} (h : CreatedVerified base w userId)
    (hhistory : w'.history = w.history ++ es) : CreatedVerified base w' userId := by
  rcases h with hbase | ⟨origin, hcreated⟩
  · exact .inl hbase
  · exact .inr ⟨origin, hhistory ▸ List.mem_append_left _ hcreated⟩

theorem exactStep_of_kept {es : List Event} (hexact : Exact base w) (hsingle : ∀ id, w'.births id ≤ 1)
    (hhistory : w'.history = w.history ++ es) (hnone : ∀ userId origin verified, .created userId (some origin) verified ∉ es)
    (hnames : (liveNames w'.state.users).Sublist (liveNames w.state.users))
    (hroles : ∀ user' ∈ w'.state.users, user'.role.nonInteractive = false →
      CreatedVerified base w user'.id ∨ ∃ user ∈ w.state.users, user.id = user'.id ∧ user.role = user'.role) :
    Exact base w' ∧ ∀ userId invitationId verified, .created userId (some invitationId) verified ∈ newEvents w w' →
      ∀ invitation ∈ w.state.invitations, invitation.id = invitationId → invitation.revokedAt = none := by
  refine ⟨⟨hexact.names.sublist hnames, hsingle, ?_⟩, ?_⟩
  · intro user' huser' hrole
    rcases hroles user' huser' hrole with hcreated | ⟨user, huser, hid, hsame⟩
    · exact hcreated.mono hhistory
    · rw [← hid]
      exact (hexact.verified user huser (hsame ▸ hrole)).mono hhistory
  · intro userId invitationId verified hmem
    rw [newEvents_of hhistory] at hmem
    exact absurd hmem (hnone userId invitationId verified)

theorem exactStep_of_modified {es : List Event} {sought : User → Bool} {f : User → User} (hexact : Exact base w)
    (hsingle : ∀ id, w'.births id ≤ 1) (hhistory : w'.history = w.history ++ es)
    (hnone : ∀ userId origin verified, .created userId (some origin) verified ∉ es)
    (husers : w'.state.users = modifyFirst sought f w.state.users)
    (hnames : ∀ user, (f user).erasedAt.isNone = false ∨
      (f user).username = user.username ∧ (f user).erasedAt = user.erasedAt)
    (hroles : ∀ user, w.state.users.find? sought = some user → (f user).role.nonInteractive = false →
      CreatedVerified base w (f user).id ∨ (f user).id = user.id ∧ (f user).role = user.role) :
    Exact base w' ∧ ∀ userId invitationId verified, .created userId (some invitationId) verified ∈ newEvents w w' →
      ∀ invitation ∈ w.state.invitations, invitation.id = invitationId → invitation.revokedAt = none := by
  refine exactStep_of_kept hexact hsingle hhistory hnone ?_ ?_
  · rw [husers]
    exact liveNames_modifyFirst hnames
  · intro user' huser' hrole
    rw [husers] at huser'
    rcases mem_modifyFirst huser' with hold | ⟨user, hfind, rfl⟩
    · exact .inr ⟨user', hold, rfl, rfl⟩
    · rcases hroles user hfind hrole with hcreated | ⟨hid, hsame⟩
      · exact .inl hcreated
      · exact .inr ⟨user, List.mem_of_find?_eq_some hfind, hid.symm, hsame.symm⟩

theorem exactStep_of_meets (hfresh : p.Fresh) (h : Orderly p w) (hexact : Exact base w) {call : ℕ × DirectoryCall}
    (hmeets : Meets p base w call) : ExactStep p base w call := by
  unfold ExactStep
  obtain ⟨now, call⟩ := call
  obtain ⟨hconfirmed, hroles⟩ := hmeets
  have heffect : DirectoryEffect p now w call (directoryStep p w (now, call)) := call.perform_effect p now w
  have hsingle := (h.directory hfresh heffect).single
  generalize directoryStep p w (now, call) = w' at *
  have hquiet {es : List Event} (hhistory : w'.history = w.history ++ es)
      (hnone : ∀ userId origin verified, .created userId (some origin) verified ∉ es)
      (husers : w'.state.users = w.state.users) := exactStep_of_kept hexact hsingle hhistory hnone (by rw [husers])
    (fun user' huser' _ ↦ .inr ⟨user', husers ▸ huser', rfl, rfl⟩)
  cases heffect with
  | refused => exact hquiet (List.append_nil _).symm nofun rfl
  | invited => exact hquiet rfl (by simp) rfl
  | invitationRevoked => exact hquiet (List.append_nil _).symm nofun rfl
  | joined token password displayName invitation hfind hrevoked haccepted hrole =>
    rw [h.interactive invitation hfind] at hrole
    cases hrole
  | claimed => exact hquiet (List.append_nil _).symm nofun rfl
  | confirmed challenge totpCode pending secret step hfind =>
    obtain ⟨hname, hrevoked⟩ := hconfirmed challenge totpCode pending rfl (ne_of_drawn (Nat.lt_succ_self _)) hfind
    have herased := (h.waiting pending (List.mem_of_find?_eq_some hfind)).2.1
    refine ⟨⟨?_, hsingle, ?_⟩, ?_⟩
    · have hnew : liveNames [{ pending.user with lastTotpStep := some step }] = [pending.user.username] :=
        liveNames_single herased
      change (liveNames (w.state.users ++ [{ pending.user with lastTotpStep := some step }])).Nodup
      rw [liveNames_append, hnew]
      refine List.nodup_append.mpr ⟨hexact.names, List.nodup_singleton _, ?_⟩
      intro name hold other hother hsame
      rw [List.mem_singleton.mp hother] at hsame
      exact hname (hsame ▸ hold)
    · intro user huser hrole
      rcases List.mem_append.mp huser with hold | hnew
      · exact (hexact.verified user hold hrole).mono (List.append_assoc _ _ _)
      · rw [List.mem_singleton.mp hnew]
        exact .inr ⟨_, List.mem_append_right _ List.mem_cons_self⟩
    · intro userId invitationId verified hmem
      rw [newEvents_of (List.append_assoc _ _ _)] at hmem
      simp only [List.cons_append, List.nil_append, List.mem_cons, List.not_mem_nil, or_false, reduceCtorEq, false_or,
        Event.created.injEq, Option.some.injEq] at hmem
      rw [hmem.2.1]
      exact hrevoked
  | roleChanged actorId userId name actor target role hactor hnamed =>
    refine exactStep_of_modified hexact hsingle (List.append_nil _).symm nofun rfl ?_ ?_
    · intro user
      exact .inr ⟨rfl, rfl⟩
    · intro user huser hrole
      have hid : user.id = userId := by simpa using List.find?_some huser
      refine .inl ?_
      change CreatedVerified base w user.id
      rw [hid]
      exact hroles actorId userId name role rfl (ne_of_drawn (Nat.lt_succ_self _)) hnamed hrole
  | statusChanged =>
    refine exactStep_of_modified hexact hsingle (List.append_nil _).symm nofun rfl ?_ ?_
    · intro user
      exact .inr ⟨rfl, rfl⟩
    · intro user _ _
      exact .inr ⟨rfl, rfl⟩
  | serviceAccountCreated actorId username displayName actor record token hactor hname hfree hrecord =>
    have herased : record.erasedAt = none := by rw [hrecord]; rfl
    have hservice : record.role.nonInteractive = true := by rw [hrecord]; rfl
    refine ⟨⟨?_, hsingle, ?_⟩, ?_⟩
    · change (liveNames (w.state.users ++ [record])).Nodup
      rw [liveNames_append, liveNames_single herased]
      refine List.nodup_append.mpr ⟨hexact.names, List.nodup_singleton _, ?_⟩
      intro name hold other hother hsame
      rw [List.mem_singleton.mp hother] at hsame
      obtain ⟨user, huser, husername⟩ := List.mem_map.mp hold
      exact hfree user (List.mem_filter.mp huser).1 (husername.trans hsame)
    · intro user huser hrole
      rcases List.mem_append.mp huser with hold | hnew
      · exact (hexact.verified user hold hrole).mono rfl
      · rw [List.mem_singleton.mp hnew, hservice] at hrole
        cases hrole
    · intro userId invitationId verified hmem
      rw [@newEvents_of w _ [.created record.id none false] rfl] at hmem
      simp at hmem
  | tokenIssued | tokenRevoked => exact hquiet (List.append_nil _).symm nofun rfl
  | erased =>
    refine exactStep_of_modified hexact hsingle (List.append_nil _).symm nofun rfl ?_ ?_
    · intro user
      exact .inl rfl
    · intro user _ _
      exact .inr ⟨rfl, rfl⟩

theorem meets_of_exactStep (h : Orderly p w) {call : ℕ × DirectoryCall} (hexact : ExactStep p base w call) :
    Meets p base w call := by
  obtain ⟨now, call⟩ := call
  obtain ⟨⟨hnames, _, hverified⟩, hrevoked⟩ := hexact
  have heffect : DirectoryEffect p now w call (directoryStep p w (now, call)) := call.perform_effect p now w
  constructor
  · intro challenge totpCode pending hcall hchanged hfind
    change call = _ at hcall
    subst hcall
    generalize directoryStep p w (now, DirectoryCall.confirmInvitationMfa challenge totpCode) = w' at *
    cases heffect with
    | refused => exact absurd rfl hchanged
    | statusChanged _ _ _ _ _ _ _ hcall => cases hcall
    | confirmed _ _ found secret step hfound =>
      rw [hfind, Option.some.injEq] at hfound
      subst hfound
      have herased := (h.waiting pending (List.mem_of_find?_eq_some hfind)).2.1
      constructor
      · have hnew : liveNames [{ pending.user with lastTotpStep := some step }] = [pending.user.username] :=
          liveNames_single herased
        change (liveNames (w.state.users ++ [{ pending.user with lastTotpStep := some step }])).Nodup at hnames
        rw [liveNames_append, hnew] at hnames
        intro hmem
        exact (List.nodup_append.mp hnames).2.2 _ hmem _ (List.mem_singleton_self _) rfl
      · refine hrevoked pending.user.id pending.invitationId true ?_
        rw [newEvents_of (List.append_assoc _ _ _)]
        exact List.mem_cons_of_mem _ List.mem_cons_self
  · intro actorId userId name role hcall hchanged hnamed hrole
    change call = _ at hcall
    subst hcall
    generalize directoryStep p w (now, DirectoryCall.setRole actorId userId name) = w' at *
    cases heffect with
    | refused => exact absurd rfl hchanged
    | statusChanged _ _ _ _ _ _ _ hcall => cases hcall
    | roleChanged _ _ _ actor target granted hactor hgranted _ htarget =>
      rw [hnamed, Option.some.injEq] at hgranted
      subst hgranted
      obtain ⟨rest, _, hafter⟩ := modifyFirst_perm (f := fun record : User ↦ { record with role }) htarget
      have hid : target.id = userId := by simpa using List.find?_some htarget
      have hmem : ({ target with role } : User) ∈ (w.withRole userId role).state.users :=
        hafter.mem_iff.mpr List.mem_cons_self
      rw [← hid]
      exact (hverified { target with role } hmem hrole :)

/-! ### The beginning -/

/-- Before the directory is used there is one account at most, and it is an owner's. -/
structure Founded (w : World) : Prop where
  few : w.state.users.length ≤ 1
  owners : ∀ user ∈ w.state.users, user.role = .owner
  pendingOwner : ∀ pending, w.state.pendingOwner = some pending → pending.user.role = .owner
  invitations : w.state.invitations = []
  pendingInvitees : w.state.pendingInvitees = []
  births : ∀ invitationId, w.births invitationId = 0

theorem Founded.auth {call : AuthCall} (h : Founded w) (heffect : AuthEffect p now w call w') : Founded w' := by
  have hapart := heffect.apart
  refine ⟨?_, ?_, ?_, ?_, ?_, ?_⟩
  · cases heffect.accounts with
    | same hwho =>
      have hlength := congrArg List.length hwho
      rw [List.length_map, List.length_map] at hlength
      rw [hlength]
      exact h.few
    | first user hrole hstatus husers =>
      rw [husers]
      exact le_rfl
    | owner pending user hpending hwho husers =>
      rw [husers, List.filter_eq_nil_iff.mpr fun user huser ↦ by simp [h.owners user huser]]
      exact le_rfl
  · intro user' huser'
    cases heffect.accounts with
    | same hwho =>
      obtain ⟨user, huser, hsame⟩ := List.mem_map.mp (hwho ▸ List.mem_map_of_mem huser')
      simp only [who, Prod.mk.injEq] at hsame
      exact hsame.2.2.1.symm.trans (h.owners user huser)
    | first user hrole hstatus husers =>
      rw [husers] at huser'
      rw [List.mem_singleton.mp huser']
      exact hrole
    | owner pending user hpending hwho husers =>
      rw [husers] at huser'
      simp only [who, Prod.mk.injEq] at hwho
      rcases List.mem_append.mp huser' with hold | hnew
      · exact h.owners user' (List.mem_filter.mp hold).1
      · rw [List.mem_singleton.mp hnew]
        exact hwho.2.2.1.trans (h.pendingOwner pending hpending)
  · intro pending hpending
    rcases heffect.pendingOwner with hsame | hnone | ⟨begun, hbegun, hrole, _⟩
    · exact h.pendingOwner pending (hsame ▸ hpending)
    · rw [hnone] at hpending
      cases hpending
    · rw [hbegun, Option.some.injEq] at hpending
      rw [← hpending]
      exact hrole
  · rw [hapart.invitations]
    exact h.invitations
  · rw [hapart.pendingInvitees]
    exact h.pendingInvitees
  · rw [hapart.births]
    exact h.births

theorem founded_after (p : Platform) (before : List (ℕ × AuthCall)) : Founded (Run.after (authStep p) World.initial before) := by
  refine Run.invariant (fun w call h ↦ h.auth (perform_effect p call.1 w call.2)) ?_ before
  refine ⟨Nat.zero_le 1, ?_, ?_, rfl, rfl, fun _ ↦ rfl⟩
  · intro user huser
    cases huser
  · intro pending hpending
    cases hpending

theorem Founded.orderly (h : Founded w) : Orderly p w := by
  obtain ⟨_, _, _, hinvitations, hinvitees, hbirths⟩ := h
  refine ⟨⟨?_, ?_⟩, ?_, ?_, ?_, ?_, ?_, ?_⟩
  · intro id
    rw [hinvitations]
    exact Nat.zero_le 1
  · intro id hpos
    rw [hinvitations] at hpos
    exact absurd hpos (lt_irrefl 0)
  · rw [hinvitations]
    intro x hx
    cases hx
  · intro id hpos
    rw [hbirths] at hpos
    exact absurd hpos (lt_irrefl 0)
  · intro id
    rw [hbirths]
    exact Nat.zero_le 1
  · rw [hinvitations]
    intro x hx
    cases hx
  · rw [hinvitees]
    intro x hx
    cases hx
  · rw [hinvitees]
    exact List.nodup_nil

theorem Founded.exact (h : Founded w) : Exact w w := by
  refine ⟨?_, ?_, ?_⟩
  · have hlength : (liveNames w.state.users).length ≤ 1 := by
      unfold liveNames
      rw [List.length_map]
      exact (List.length_filter_le _ _).trans h.few
    cases hnames : liveNames w.state.users with
    | nil => exact List.nodup_nil
    | cons name names =>
      rw [hnames, List.length_cons] at hlength
      have hnil : names = [] := List.length_eq_zero_iff.mp (by omega)
      rw [hnil]
      exact List.nodup_singleton name
  · intro invitationId
    rw [h.births]
    exact Nat.zero_le 1
  · intro user huser _
    exact .inl ⟨user, huser, rfl⟩

/-- Once the service has its first owner, if any, all that the directory does leaves the accounts exact as long as it
meets the condition, and no longer. -/
theorem creation_exact (p : Platform) (hfresh : p.Fresh) (before : List (ℕ × AuthCall)) (calls : List (ℕ × DirectoryCall)) :
    let base := Run.after (authStep p) World.initial before
    Run.Along (directoryStep p) (ExactStep p base) base calls ↔ Run.Along (directoryStep p) (Meets p base) base calls := by
  intro base
  have hfounded := founded_after p before
  have hstart : Orderly p base ∧ Exact base base := ⟨hfounded.orderly, hfounded.exact⟩
  constructor
  · intro hexact
    refine hexact.imp (I := fun w ↦ Orderly p w ∧ Exact base w) ?_ hstart
    rintro w call ⟨horderly, _⟩ hstep
    exact ⟨⟨horderly.directory hfresh (call.2.perform_effect p call.1 w), hstep.1⟩, meets_of_exactStep horderly hstep⟩
  · intro hmeets
    refine hmeets.imp (I := fun w ↦ Orderly p w ∧ Exact base w) ?_ hstart
    rintro w call ⟨horderly, hexact⟩ hcall
    have hstep := exactStep_of_meets hfresh horderly hexact hcall
    exact ⟨⟨horderly.directory hfresh (call.2.perform_effect p call.1 w), hstep.1⟩, hstep⟩

end

def seeding : List (ℕ × AuthCall) := [(90000, .seedDefaultOwnerIfNeeded)]

def enrolment : List (ℕ × DirectoryCall) :=
  [(90000, .createInvitation "" "alice" none "user"), (90000, .acceptInvitation "tt" "correct horse battery" none)]

theorem creation_exact_enrolment : Run.Along (directoryStep .tallying)
    (ExactStep .tallying (Run.after (authStep .tallying) World.initial seeding))
    (Run.after (authStep .tallying) World.initial seeding) enrolment := by
  refine (creation_exact .tallying Platform.tallying_fresh seeding enrolment).mpr ⟨⟨?_, ?_⟩, ⟨?_, ?_⟩, trivial⟩
  · intro _ _ _ hcall
    cases hcall
  · intro _ _ _ _ hcall
    cases hcall
  · intro _ _ _ hcall
    cases hcall
  · intro _ _ _ _ hcall
    cases hcall

/-- The name is given to a robot between the acceptance and the end of the enrolment. -/
def namesake : List (ℕ × DirectoryCall) := enrolment ++ [(90000, .createServiceAccount "" "alice" none)]

/-- The end of an enrolment looks at no names. -/
theorem namesakes_created : ¬∀ (p : Platform) (_ : p.Fresh) (before : List (ℕ × AuthCall))
    (calls : List (ℕ × DirectoryCall)),
    Run.Along (directoryStep p) (ExactStep p (Run.after (authStep p) World.initial before))
      (Run.after (authStep p) World.initial before) calls := by
  intro h
  have hexact := (Run.Along.append.mp (h .tallying Platform.tallying_fresh seeding
    (namesake ++ [(90000, .confirmInvitationMfa "tttttttt" "123456")]))).2.1.1
  have htwice : liveNames (directoryStep .tallying (Run.after (directoryStep .tallying)
      (Run.after (authStep .tallying) World.initial seeding) namesake)
        (90000, .confirmInvitationMfa "tttttttt" "123456")).state.users = ["root", "alice", "alice"] := by decide
  have hnames := hexact.names
  rw [htwice] at hnames
  simp at hnames

end Noesar.Accounts.Creation
