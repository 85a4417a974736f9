import Noesar.Accounts.DirectoryEffects

namespace Noesar.Accounts.Administration

open Lib World

def AdminActs (w : World) (call : ℕ × DirectoryCall) : Prop :=
  ∀ actorId actor, call.2.actor? = some actorId → w.user actorId = some actor → actor.role = .admin

def privilegedRole (role : Role) : Bool := role = .owner || role = .admin

def privilegedUsers (users : List User) : List User := users.filter fun user ↦ privilegedRole user.role

def privileged (w : World) : List (String × Role × Status) :=
  (privilegedUsers w.state.users).map fun user ↦ (user.id, user.role, user.status.getD .active)

def FromOwner (w : World) (userId : String) : Prop :=
  ∃ invitationId verified, .created userId (some invitationId) verified ∈ w.history ∧
    .invited invitationId .owner ∈ w.history

/-- Only owners invite to the roles of owners and administrators. -/
structure Provenance (w : World) : Prop where
  invitations : ∀ invitation ∈ w.state.invitations, privilegedRole invitation.role = true →
    .invited invitation.id .owner ∈ w.history
  pending : ∀ pending ∈ w.state.pendingInvitees, privilegedRole pending.user.role = true →
    .invited pending.invitationId .owner ∈ w.history

section

variable {p : Platform} {w w' : World} {now : ℕ}

theorem Provenance.apart (h : Provenance w) (hw : Apart w w') : Provenance w' := by
  constructor
  · intro invitation hinvitation hrole
    exact hw.history (h.invitations invitation (hw.invitations ▸ hinvitation) hrole)
  · intro pending hpending hrole
    exact hw.history (h.pending pending (hw.pendingInvitees ▸ hpending) hrole)

theorem not_privileged_of_admin {role : Role} (h : role ∈ Role.admin.grantable) : privilegedRole role = false := by
  cases role with
  | owner | admin => simp [Role.grantable] at h
  | _ => rfl

variable {target : User} {call : DirectoryCall} {users : List User} {sought : User → Bool} {f : User → User}

theorem not_privileged_of_reach {actor : User} (hadmin : actor.role = .admin)
    (hreach : outOfReach actor target = false) : privilegedRole target.role = false := by
  simpa [outOfReach, hadmin, privilegedRole] using hreach

theorem Provenance.directory (h : Provenance w) (heffect : DirectoryEffect p now w call w') :
    Provenance w' := by
  obtain ⟨hinvitations, hpending⟩ := h
  cases heffect with
  | refused => exact ⟨hinvitations, hpending⟩
  | invited actorId username displayName role actor invitation hactor hgranted =>
    refine ⟨?_, ?_⟩
    · intro i hi hrole
      rcases List.mem_append.mp hi with hi | hi
      · exact List.mem_append_left _ (hinvitations i hi hrole)
      · rw [List.mem_singleton] at hi
        subst hi
        have howner : actor.role = .owner := by
          cases hcase : actor.role with
          | owner => rfl
          | admin =>
            rw [hcase] at hgranted
            rw [not_privileged_of_admin hgranted] at hrole
            cases hrole
          | _ =>
            rw [hcase] at hgranted
            cases hgranted
        apply List.mem_append_right
        rw [howner]
        exact List.mem_singleton_self _
    · intro pending hmem hrole
      exact List.mem_append_left _ (hpending pending hmem hrole)
  | invitationRevoked =>
    exact ⟨forall_modifyFirst hinvitations fun i hi _ ↦ hinvitations i hi, hpending⟩
  | joined =>
    refine ⟨?_, ?_⟩
    · refine fun i hi hrole ↦ List.mem_append_left _ (forall_modifyFirst hinvitations ?_ i hi hrole)
      exact fun j hj _ ↦ hinvitations j hj
    · intro pending hmem hrole
      exact List.mem_append_left _ (hpending pending hmem hrole)
  | claimed token password displayName invitation pending hfind hrevoked haccepted hinteractive hdigest hid huser =>
    refine ⟨?_, ?_⟩
    · exact forall_modifyFirst hinvitations fun i hi _ ↦ hinvitations i hi
    · intro q hq hrole
      rcases List.mem_append.mp hq with hq | hq
      · exact hpending q (List.mem_filter.mp hq).1 hrole
      · rw [List.mem_singleton] at hq
        subst hq
        rw [hid]
        rw [huser] at hrole
        exact hinvitations invitation hfind hrole
  | confirmed =>
    refine ⟨?_, ?_⟩
    · refine fun i hi hrole ↦ List.mem_append_left _ (List.mem_append_left _ (forall_modifyFirst hinvitations ?_ i hi hrole))
      exact fun j hj _ ↦ hinvitations j hj
    · intro q hq hrole
      apply List.mem_append_left
      apply List.mem_append_left
      exact hpending q (List.mem_filter.mp hq).1 hrole
  | roleChanged | statusChanged => exact ⟨hinvitations, hpending⟩
  | serviceAccountCreated =>
    refine ⟨?_, ?_⟩
    · refine fun i hi hrole ↦ List.mem_append_left _ (forall_modifyFirst hinvitations ?_ i hi hrole)
      exact fun j hj _ ↦ hinvitations j hj
    · intro pending hmem hrole
      exact List.mem_append_left _ (hpending pending hmem hrole)
  | tokenIssued | tokenRevoked => exact ⟨hinvitations, hpending⟩
  | erased =>
    refine ⟨?_, hpending⟩
    intro i hi hrole
    exact hinvitations i (List.mem_filter.mp hi).1 hrole

theorem provenance_step (w : World) (call : ℕ × Call) (h : Provenance w) : Provenance (step p w call) := by
  obtain ⟨now, call⟩ := call
  cases call with
  | auth c => exact h.apart ((perform_effect p now w c).apart)
  | directory c => exact h.directory (c.perform_effect p now w)

theorem provenance_reached (p : Platform) (calls : List (ℕ × Call)) :
    Provenance (Run.after (step p) World.initial calls) := by
  apply Run.invariant provenance_step
  constructor
  · intro invitation hinvitation
    cases hinvitation
  · intro pending hpending
    cases hpending

/-! ### What administrators can do -/

theorem privilegedUsers_modifyFirst (hfind : users.find? sought = some target)
    (hbefore : privilegedRole target.role = false) (hafter : privilegedRole (f target).role = false) :
    privilegedUsers (modifyFirst sought f users) = privilegedUsers users := by
  obtain ⟨hnone, _⟩ | ⟨before, x, after, husers, hx, _, hnew⟩ := modifyFirst_cases sought f users
  · rw [hnone] at hfind
    cases hfind
  · rw [hfind, Option.some.injEq] at hx
    subst hx
    rw [hnew, husers]
    simp [privilegedUsers, hbefore, hafter]

/-- What is added to the owners and administrators came from the acceptance of what an owner had offered. -/
structure Confined (w w' : World) : Prop where
  history : w.history ⊆ w'.history
  joined : ∃ joined, privileged w' = privileged w ++ joined ∧ ∀ account ∈ joined, FromOwner w' account.1

theorem Confined.of_same (hhistory : w.history ⊆ w'.history) (husers : privilegedUsers w'.state.users =
    privilegedUsers w.state.users) : Confined w w' := by
  refine ⟨hhistory, [], ?_, ?_⟩
  · simp [privileged, husers]
  · intro account haccount
    cases haccount

theorem FromOwner.mono {userId : String} (h : FromOwner w userId) (hhistory : w.history ⊆ w'.history) :
    FromOwner w' userId := by
  obtain ⟨invitationId, verified, hcreated, hinvited⟩ := h
  exact ⟨invitationId, verified, hhistory hcreated, hhistory hinvited⟩

theorem Confined.trans {w'' : World} (h : Confined w w') (h' : Confined w' w'') : Confined w w'' := by
  obtain ⟨joined, hjoined, howner⟩ := h.joined
  obtain ⟨more, hmore, howner'⟩ := h'.joined
  refine ⟨List.Subset.trans h.history h'.history, joined ++ more, ?_, ?_⟩
  · rw [hmore, hjoined, List.append_assoc]
  · intro account haccount
    rcases List.mem_append.mp haccount with haccount | haccount
    · exact (howner account haccount).mono h'.history
    · exact howner' account haccount

theorem confined_of_effect (heffect : DirectoryEffect p now w call w') (h : Provenance w)
    (hadmin : AdminActs w (now, call)) : Confined w w' := by
  cases heffect with
  | refused => exact .of_same (List.Subset.refl _) rfl
  | invited => exact .of_same (List.subset_append_left _ _) rfl
  | invitationRevoked => exact .of_same (List.Subset.refl _) rfl
  | joined token password displayName invitation hfind hrevoked haccepted hrole =>
    apply Confined.of_same (List.subset_append_left _ _)
    have hnot : privilegedRole (w.invitedUser p invitation password displayName).role = false := by
      change privilegedRole invitation.role = false
      cases hcase : invitation.role with
      | owner | admin => simp [hcase, Role.nonInteractive] at hrole
      | _ => rfl
    simp [privilegedUsers, commitUser, adminEvent, draw, update, note, hnot]
  | claimed => exact .of_same (List.Subset.refl _) rfl
  | confirmed challenge totpCode pending secret step hfind =>
    cases hrole : privilegedRole pending.user.role with
    | false =>
      refine .of_same ?_ ?_
      · exact List.Subset.trans (List.subset_append_left _ _) (List.subset_append_left _ _)
      · simp [privilegedUsers, commitUser, adminEvent, draw, update, note, hrole]
    | true =>
      have hpending : pending ∈ w.state.pendingInvitees := List.mem_of_find?_eq_some hfind
      refine ⟨List.Subset.trans (List.subset_append_left _ _) (List.subset_append_left _ _),
        [(pending.user.id, pending.user.role, pending.user.status.getD .active)], ?_, ?_⟩
      · simp [privileged, privilegedUsers, commitUser, adminEvent, draw, update, note, hrole]
      · intro account haccount
        rw [List.mem_singleton] at haccount
        subst haccount
        refine ⟨pending.invitationId, true, ?_, ?_⟩
        · exact List.mem_append_right _ (List.mem_singleton_self _)
        · exact List.mem_append_left _ (List.mem_append_left _ (h.pending pending hpending hrole))
  | roleChanged actorId userId name actor target role hactor hnamed hgranted htarget hother hlast hreach =>
    have hrole : actor.role = .admin := hadmin actorId actor rfl hactor.user
    refine .of_same (List.Subset.refl _) (privilegedUsers_modifyFirst htarget (not_privileged_of_reach hrole hreach) ?_)
    rw [hrole] at hgranted
    exact not_privileged_of_admin hgranted
  | statusChanged call actorId userId status reason actor target hcall hactor htarget hreach =>
    have hrole : actor.role = .admin := by
      refine hadmin actorId actor ?_ hactor.user
      cases call with
      | disableUser | revokeUser | reinstateUser => cases hcall; rfl
      | _ => cases hcall
    have hnot := not_privileged_of_reach hrole hreach
    exact .of_same (List.Subset.refl _) (privilegedUsers_modifyFirst htarget hnot hnot)
  | serviceAccountCreated actorId username displayName actor record token hactor hname hfree hrecord =>
    apply Confined.of_same (List.subset_append_left _ _)
    have hnot : privilegedRole record.role = false := by
      rw [hrecord]
      rfl
    simp [privilegedUsers, commitUser, adminEvent, draw, update, note, hnot]
  | tokenIssued | tokenRevoked => exact .of_same (List.Subset.refl _) rfl
  | erased actorId userId reason actor target hactor htarget hlast hreach =>
    have hrole : actor.role = .admin := hadmin actorId actor rfl hactor.user
    have hnot := not_privileged_of_reach hrole hreach
    exact .of_same (List.Subset.refl _) (privilegedUsers_modifyFirst htarget hnot hnot)

/-! ### The last active owner -/

theorem activeOwners_modifyFirst (hfind : users.find? sought = some target) (hsome : activeOwners users ≠ [])
    (hlast : ¬(target.role = .owner ∧ (activeOwners users).length ≤ 1)) :
    activeOwners (modifyFirst sought f users) ≠ [] := by
  obtain ⟨hnone, _⟩ | ⟨before, x, after, husers, hx, _, hnew⟩ := modifyFirst_cases sought f users
  · rw [hnone] at hfind
    cases hfind
  · rw [hfind, Option.some.injEq] at hx
    subst hx
    -- Beside the account that changes there is an active owner.
    have hothers : activeOwners before ++ activeOwners after ≠ [] := by
      intro hempty
      obtain ⟨hb, ha⟩ := List.append_eq_nil_iff.mp hempty
      rw [husers] at hsome hlast
      simp only [activeOwners, List.filter_append, List.filter_cons] at hb ha hsome hlast
      rw [hb, ha] at hsome hlast
      by_cases howner : target.role = .owner
      · apply hlast
        refine ⟨howner, ?_⟩
        split
        · exact le_rfl
        · exact Nat.zero_le 1
      · simp [howner] at hsome
    rw [hnew]
    intro hempty
    apply hothers
    simp only [activeOwners, List.filter_append, List.filter_cons, List.append_eq_nil_iff] at hempty ⊢
    refine ⟨hempty.1, ?_⟩
    have hafter := hempty.2
    split at hafter
    · cases hafter
    · exact hafter

theorem activeOwners_kept
    (hf : ∀ user, user.role = .owner → isActive user = true → (f user).role = .owner ∧ isActive (f user) = true)
    (h : activeOwners users ≠ []) : activeOwners (modifyFirst sought f users) ≠ [] := by
  obtain ⟨_, hsame⟩ | ⟨before, x, after, husers, _, _, hnew⟩ := modifyFirst_cases sought f users
  · rw [hsame]
    exact h
  · rw [husers] at h
    rw [hnew]
    intro hempty
    apply h
    simp only [activeOwners, List.filter_append, List.filter_cons, List.append_eq_nil_iff] at hempty ⊢
    refine ⟨hempty.1, ?_⟩
    have hafter := hempty.2
    by_cases hx : x.role = .owner ∧ isActive x = true
    · simp [hf x hx.1 hx.2] at hafter
    · split at hafter
      · cases hafter
      · rw [if_neg (by simpa using hx)]
        exact hafter

theorem activeOwners_append {more : List User} (h : activeOwners users ≠ []) : activeOwners (users ++ more) ≠ [] := by
  intro hempty
  rw [activeOwners, List.filter_append] at hempty
  exact h (List.append_eq_nil_iff.mp hempty).1

theorem activeOwners_of_effect (heffect : DirectoryEffect p now w call w') (h : activeOwners w.state.users ≠ []) :
    activeOwners w'.state.users ≠ [] := by
  cases heffect with
  | roleChanged actorId userId name actor target role hactor hnamed hgranted htarget hother hlast =>
    exact activeOwners_modifyFirst htarget h hlast
  | statusChanged call actorId userId status reason actor target hcall hactor htarget hreach hlast =>
    by_cases hactive : status = .active
    · subst hactive
      refine activeOwners_kept ?_ h
      intro user howner _
      exact ⟨howner, rfl⟩
    · exact activeOwners_modifyFirst htarget h (hlast hactive)
  | erased actorId userId reason actor target hactor htarget hlast => exact activeOwners_modifyFirst htarget h hlast
  | joined | confirmed | serviceAccountCreated => exact activeOwners_append h
  | _ => exact h

/-- Administrators leave the owners and administrators as they are, but for those an owner invited; and an active owner
is not lost, whoever acts. -/
theorem administration_confined (p : Platform) (before : List (ℕ × Call)) (calls : List (ℕ × DirectoryCall)) :
    let w := Run.after (step p) World.initial before
    let w' := Run.after (directoryStep p) w calls
    (Run.Along (directoryStep p) AdminActs w calls →
      ∃ joined, privileged w' = privileged w ++ joined ∧ ∀ account ∈ joined, FromOwner w' account.1) ∧
    (activeOwners w.state.users ≠ [] → activeOwners w'.state.users ≠ []) := by
  intro w w'
  constructor
  · intro hadmins
    have hrun : Provenance w' ∧ Confined w w' := by
      refine hadmins.invariant (I := fun v ↦ Provenance v ∧ Confined w v) ?_
        ⟨provenance_reached p before, .of_same (List.Subset.refl _) rfl⟩
      rintro v ⟨now, call⟩ ⟨hprovenance, hconfined⟩ hadmin
      have heffect := call.perform_effect p now v
      exact ⟨hprovenance.directory heffect, hconfined.trans (confined_of_effect heffect hprovenance hadmin)⟩
    exact hrun.2.joined
  · intro howner
    refine Run.invariant (I := fun v : World ↦ activeOwners v.state.users ≠ []) ?_ howner calls
    intro v call hv
    exact activeOwners_of_effect (call.2.perform_effect p call.1 v) hv

end

def enlisted : List (ℕ × Call) :=
  [(90000, .auth .seedDefaultOwnerIfNeeded), (90000, .directory (.createInvitation "" "alice" none "admin")),
    (90000, .directory (.acceptInvitation "tt" "correct horse battery" none)),
    (90000, .directory (.confirmInvitationMfa "tttttttt" "123456"))]

def byAlice : List (ℕ × DirectoryCall) := [(90000, .createServiceAccount "uuuuu" "robot" none)]

theorem administration_confined_alice :
    let w := Run.after (step .tallying) World.initial enlisted
    let w' := Run.after (directoryStep .tallying) w byAlice
    (∃ joined, privileged w' = privileged w ++ joined ∧ ∀ account ∈ joined, FromOwner w' account.1) ∧
      activeOwners w'.state.users ≠ [] := by
  intro w w'
  have h := administration_confined .tallying enlisted byAlice
  refine ⟨h.1 ⟨?_, trivial⟩, h.2 (by decide)⟩
  intro actorId actor hactor huser
  cases hactor
  have hadmin : (w.user "uuuuu").map (·.role) = some .admin := by decide
  rw [huser] at hadmin
  exact Option.some.inj hadmin

end Noesar.Accounts.Administration
