import Noesar.Accounts.Origins
import Noesar.Lib.Supply

namespace Noesar.Accounts

open Lib World

def Terminal.Spent (clock : ℕ) (terminal : Terminal) : Prop := terminal.revokedAt.isSome = true ∨ terminal.expiresAt ≤ clock

/-- What a call makes of a terminal: it is the same account's, and where it opened nothing it opens nothing. -/
def Lingers (now : ℕ) (old terminal : Terminal) : Prop :=
  old.userId = terminal.userId ∧ ∀ clock ≤ now, old.Spent clock → terminal.Spent clock

def Platform.digestAt (p : Platform) (n : ℕ) : String := p.tokenDigest (p.randomToken n)

def Platform.codeAt (p : Platform) (n : ℕ) : String := p.tokenDigest (p.recoveryCode n)

def World.recoveryCodes (w : World) : List (String × RecoveryCode) :=
  w.held.flatMap fun user ↦ user.recoveryCodes.map (user.id, ·)

def Call.Registers : Call → String → String → Prop
  | .auth call, userId, key => call.Registers userId key
  | .directory _, _, _ => False

/-- What a record has to get in with: nothing where it is new, and else what it had, a passkey that the call registers
and the codes that one account is given. -/
inductive Furnished (p : Platform) (w w' : World) (call : Call) (given : String) (user' : User) : Prop
  | made (hkeys : user'.passkeys = []) (hcodes : user'.recoveryCodes = [])
  | held (user : User) (huser : user ∈ w.held) (hid : user.id = user'.id)
      (hkeys : ∀ key ∈ user'.passkeys, (∃ old ∈ user.passkeys, old.id = key.id) ∨ call.Registers user'.id key.id)
      (hcodes : ∀ code ∈ user'.recoveryCodes, code ∈ user.recoveryCodes ∨
        user'.id = given ∧ ∃ m, w.drawn ≤ m ∧ m < w'.drawn ∧ p.codeAt m = code.digest)

section

variable {p : Platform} {w w₁ w' : World} {now : ℕ} {call : AuthCall} {given : String}

/-! ### Terminals -/

theorem Lingers.refl (terminal : Terminal) : Lingers now terminal terminal := ⟨rfl, fun _ _ h ↦ h⟩

theorem lingers_modify {sought : Terminal → Bool} {f : Terminal → Terminal} {terminals : List Terminal}
    (hf : ∀ found, terminals.find? sought = some found → (f found).tokenDigest = found.tokenDigest ∧ Lingers now found (f found)) :
    ∀ x ∈ modifyFirst sought f terminals, ∃ y ∈ terminals, y.tokenDigest = x.tokenDigest ∧ Lingers now y x := by
  intro x hx
  rcases mem_modifyFirst hx with hold | ⟨found, hfind, rfl⟩
  · exact ⟨x, hold, rfl, .refl x⟩
  · obtain ⟨hdigest, hlingers⟩ := hf found hfind
    exact ⟨found, List.mem_of_find?_eq_some hfind, hdigest.symm, hlingers⟩

theorem slide_lingers {digest : String} {found : Terminal}
    (hfound : w.state.terminals.find? (·.tokenDigest = digest) = some found) (hrevoked : found.revokedAt = none)
    (hexpiry : now < found.expiresAt) :
    ∀ x ∈ (w.slide now digest).state.terminals, ∃ y ∈ w.state.terminals, y.tokenDigest = x.tokenDigest ∧ Lingers now y x := by
  refine lingers_modify ?_
  intro other hother
  cases hfound.symm.trans hother
  refine ⟨rfl, rfl, ?_⟩
  -- What slides was not spent.
  rintro clock hclock (hspent | hspent)
  · rw [hrevoked] at hspent
    cases hspent
  · omega

theorem AuthEffect.terminals (h : AuthEffect p now w call w') : ∃ new : Terminal → Prop, (∀ x y, new x → new y → x = y) ∧
    Issue Terminal.tokenDigest p.digestAt (Lingers now) new w.drawn w'.drawn w.state.terminals w'.state.terminals := by
  have hlater : w.drawn ≤ w'.drawn := h.records.later
  have hkept (hlingers : ∀ x ∈ w'.state.terminals, ∃ y ∈ w.state.terminals, y.tokenDigest = x.tokenDigest ∧ Lingers now y x) :
      ∃ new : Terminal → Prop, (∀ x y, new x → new y → x = y) ∧
        Issue Terminal.tokenDigest p.digestAt (Lingers now) new w.drawn w'.drawn w.state.terminals w'.state.terminals :=
    ⟨_, fun _ _ hx ↦ hx.elim, .of_kept hlater hlingers⟩
  have hsame (hterminals : w'.state.terminals = w.state.terminals) :
      ∀ x ∈ w'.state.terminals, ∃ y ∈ w.state.terminals, y.tokenDigest = x.tokenDigest ∧ Lingers now y x := by
    rw [hterminals]
    exact fun x hx ↦ ⟨x, hx, rfl, .refl x⟩
  cases h with
  | refused hw => exact hkept (hsame (by rw [hw.state]))
  | changed userId f k hf hw => exact hkept (hsame (by rw [hw.state]; rfl))
  | loggedIn w₁ user hw | challenged w₁ user record hw | completed w₁ item user secret step hw =>
    exact hkept (hsame (congrArg AuthState.terminals hw.state :))
  | burned codes hcodes hw => exact hkept (hsame (by rw [hw.state]; rfl))
  | redeemed w₁ codes hcodes hw => exact hkept (hsame (congrArg AuthState.terminals hw.state :))
  | remembered terminal hdigest =>
    refine ⟨_, fun x y hx hy ↦ hx.trans hy.symm, .of_next (Nat.lt_add_of_pos_right (by decide)) hdigest ?_⟩
    intro x hx
    rcases List.mem_append.mp hx with hold | hnew
    · exact .inl ⟨x, (List.mem_filter.mp hold).1, rfl, .refl x⟩
    · exact .inr (List.mem_singleton.mp hnew)
  | slid digest found hfound hrevoked hexpiry hw =>
    apply hkept
    rw [hw.state]
    exact slide_lingers hfound hrevoked hexpiry
  | resumed w₁ digest found user hfound hrevoked hexpiry hw =>
    apply hkept
    have hterminals : w₁.state.terminals = (w.slide now digest).state.terminals := by rw [hw.state]
    change ∀ x ∈ w₁.state.terminals, _
    rw [hterminals]
    exact slide_lingers hfound hrevoked hexpiry
  | terminalRevoked =>
    refine hkept (lingers_modify ?_)
    intro found _
    exact ⟨rfl, rfl, fun _ _ _ ↦ .inl rfl⟩
  | recoveryBegun w₁ pending hw => exact hkept (hsame (congrArg AuthState.terminals hw.state :))
  | _ => exact hkept (hsame rfl)

theorem terminals_step (p : Platform) (w : World) (call : ℕ × Call) : ∃ new : Terminal → Prop,
    (∀ x y, new x → new y → x = y) ∧ Issue Terminal.tokenDigest p.digestAt (Lingers call.1) new w.drawn (step p w call).drawn
      w.state.terminals (step p w call).state.terminals := by
  obtain ⟨now, call⟩ := call
  cases call with
  | auth c => exact (perform_effect p now w c).terminals
  | directory c =>
    have heffect := c.perform_effect p now w
    refine ⟨_, fun _ _ hx ↦ hx.elim, .of_kept heffect.records.later ?_⟩
    rw [show (step p w (now, .directory c)).state.terminals = w.state.terminals from heffect.terminals]
    exact fun x hx ↦ ⟨x, hx, rfl, .refl x⟩

/-! ### Passkeys and recovery codes -/

theorem mem_recoveryDigests {n : ℕ} {code : RecoveryCode} (h : code ∈ recoveryDigests p n) :
    ∃ m, n ≤ m ∧ m < n + 10 ∧ p.codeAt m = code.digest := by
  simp only [recoveryDigests, recoveryTexts, List.map_map, List.mem_map, List.mem_range, Function.comp_apply] at h
  obtain ⟨i, hi, rfl⟩ := h
  exact ⟨n + i, Nat.le_add_right n i, Nat.add_lt_add_left hi n, rfl⟩

variable {user user' : User} {userId : String}

theorem Furnished.same {call : Call} (huser : user ∈ w.held) : Furnished p w w' call given user :=
  .held user huser rfl (fun key hkey ↦ .inl ⟨key, hkey, rfl⟩) fun _ hcode ↦ .inl hcode

theorem Furnished.of_same {call : Call} (h : Furnished p w w' call given user) (hid : user'.id = user.id)
    (hkeys : user'.passkeys = user.passkeys) (hcodes : user'.recoveryCodes = user.recoveryCodes) :
    Furnished p w w' call given user' := by
  cases h with
  | made hnone hnocode => exact .made (hkeys.trans hnone) (hcodes.trans hnocode)
  | held old hold hsame hold_keys hold_codes =>
    refine .held old hold (hsame.trans hid.symm) ?_ ?_
    · rw [hkeys, hid]
      exact hold_keys
    · rw [hcodes, hid]
      exact hold_codes

theorem Furnished.of_codes (huser : user ∈ w.held) (hid : user'.id = user.id)
    (hkeys : ∀ key ∈ user'.passkeys, (∃ old ∈ user.passkeys, old.id = key.id) ∨ call.Registers user'.id key.id)
    (hcodes : CodesFrom p w w' user user') : Furnished p w w' (.auth call) user.id user' := by
  refine .held user huser hid.symm hkeys ?_
  intro code hcode
  rcases hcodes with hsub | ⟨hdrawn, hnew⟩
  · exact .inl (hsub hcode)
  · obtain ⟨m, hfrom, hto, hdigest⟩ := mem_recoveryDigests (hnew ▸ hcode)
    exact .inr ⟨hid, m, hfrom, by omega, hdigest⟩

theorem held_user (h : user ∈ w.state.users) : user ∈ w.held := List.mem_append_left _ h

theorem held_owner {pending : PendingOwner} (h : w.state.pendingOwner = some pending) : pending.user ∈ w.held := by
  refine List.mem_append_right _ (List.mem_append_left _ ?_)
  rw [h]
  exact List.mem_singleton_self _

theorem held_invitee {pending : PendingInvitee} (h : pending ∈ w.state.pendingInvitees) : pending.user ∈ w.held :=
  List.mem_append_right _ (List.mem_append_right _ (List.mem_map_of_mem h))

theorem forall_held {P : User → Prop} (husers : ∀ user ∈ w.state.users, P user)
    (howner : ∀ pending, w.state.pendingOwner = some pending → P pending.user)
    (hinvitees : ∀ pending ∈ w.state.pendingInvitees, P pending.user) : ∀ user ∈ w.held, P user := by
  intro user huser
  rcases List.mem_append.mp huser with huser | huser
  · exact husers user huser
  · rcases List.mem_append.mp huser with hpending | hpending
    · obtain ⟨pending, hfound, rfl⟩ := Option.map_eq_some_iff.mp (Option.mem_toList.mp hpending)
      exact howner pending hfound
    · obtain ⟨pending, hfound, rfl⟩ := List.mem_map.mp hpending
      exact hinvitees pending hfound

theorem furnished_of_users {call : Call} (howner : w'.state.pendingOwner = w.state.pendingOwner)
    (hinvitees : w'.state.pendingInvitees = w.state.pendingInvitees)
    (husers : ∀ user ∈ w'.state.users, Furnished p w w' call given user) :
    ∀ user ∈ w'.held, Furnished p w w' call given user := by
  refine forall_held husers ?_ ?_
  · intro pending hpending
    exact .same (held_owner (howner ▸ hpending))
  · intro pending hpending
    exact .same (held_invitee (hinvitees ▸ hpending))

theorem furnished_of_modify {call : Call} {f : User → User} (howner : w'.state.pendingOwner = w.state.pendingOwner)
    (hinvitees : w'.state.pendingInvitees = w.state.pendingInvitees)
    (husers : w'.state.users = modifyFirst (·.id = userId) f w.state.users)
    (hf : ∀ user ∈ w.held, user.id = userId → Furnished p w w' call given (f user)) :
    ∀ user ∈ w'.held, Furnished p w w' call given user := by
  refine furnished_of_users howner hinvitees ?_
  rw [husers]
  refine forall_modifyFirst ?_ ?_
  · exact fun user huser ↦ .same (held_user huser)
  · exact fun user huser hid ↦ hf user (held_user huser) (by simpa using hid)

theorem furnished_of_held {call : Call} (hheld : w'.held = w.held) : ∀ user ∈ w'.held, Furnished p w w' call given user := by
  rw [hheld]
  exact fun user huser ↦ .same huser

theorem AuthEffect.furnished (h : AuthEffect p now w call w') :
    ∃ given, ∀ user ∈ w'.held, Furnished p w w' (.auth call) given user := by
  have hinvitees := h.apart.pendingInvitees
  cases h.users with
  | same husers howner =>
    refine ⟨"", furnished_of_held ?_⟩
    unfold held
    rw [husers, howner, hinvitees]
  | begun pending husers howner hnew =>
    refine ⟨"", forall_held ?_ ?_ fun pending hmem ↦ .same (held_invitee (hinvitees ▸ hmem))⟩
    · exact fun user hmem ↦ .same (held_user (husers ▸ hmem))
    · intro other hother
      cases howner.symm.trans hother
      exact .made hnew.passkeys hnew.codes
  | modified userId f husers howner hwho hkeys hcodes =>
    refine ⟨userId, furnished_of_modify howner hinvitees husers ?_⟩
    rintro user huser rfl
    have hid : (f user).id = user.id := congrArg Prod.fst (hwho user)
    refine .of_codes huser hid ?_ (hcodes user)
    rw [hid]
    exact hkeys.registered user
  | first hcall user husers howner hnew =>
    refine ⟨"", furnished_of_users howner hinvitees ?_⟩
    rw [husers]
    intro other hother
    rw [List.mem_singleton.mp hother]
    exact .made hnew.passkeys hnew.codes
  | owner challenge totpCode hcall pending user husers howner hpending hwho hkeys hcodes =>
    refine ⟨pending.user.id, forall_held ?_ ?_ fun pending hmem ↦ .same (held_invitee (hinvitees ▸ hmem))⟩
    · rw [husers]
      intro other hother
      rcases List.mem_append.mp hother with hold | hnew
      · exact .same (held_user (List.mem_filter.mp hold).1)
      · rw [List.mem_singleton.mp hnew]
        refine .of_codes (held_owner hpending) (congrArg Prod.fst hwho) ?_ hcodes
        rw [hkeys]
        exact fun key hkey ↦ .inl ⟨key, hkey, rfl⟩
    · intro other hother
      cases howner.symm.trans hother

theorem DirectoryEffect.furnished {call : DirectoryCall} (h : DirectoryEffect p now w call w') :
    ∀ user ∈ w'.held, Furnished p w w' (.directory call) given user := by
  have hjoined {users : List User} {record : User} (hold : ∀ user ∈ users, user ∈ w.state.users)
      (hkeys : record.passkeys = []) (hcodes : record.recoveryCodes = []) :
      ∀ user ∈ users ++ [record], Furnished p w w' (.directory call) given user := by
    intro user huser
    rcases List.mem_append.mp huser with hmem | hnew
    · exact .same (held_user (hold user hmem))
    · rw [List.mem_singleton.mp hnew]
      exact .made hkeys hcodes
  cases h with
  | joined => exact furnished_of_users rfl rfl (hjoined (fun _ hmem ↦ hmem) rfl rfl)
  | claimed token password displayName invitation pending hfind hrevoked haccepted hrole hdigest hid huser =>
    refine forall_held (fun user hmem ↦ .same (held_user hmem)) (fun pending hmem ↦ .same (held_owner hmem)) ?_
    intro other hother
    rcases List.mem_append.mp hother with hold | hnew
    · exact .same (held_invitee (List.mem_filter.mp hold).1)
    · rw [List.mem_singleton.mp hnew, huser]
      exact .made rfl rfl
  | confirmed challenge totpCode pending secret step hfind =>
    refine forall_held ?_ (fun pending hmem ↦ .same (held_owner hmem)) ?_
    · intro other hother
      rcases List.mem_append.mp hother with hold | hnew
      · exact .same (held_user hold)
      · rw [List.mem_singleton.mp hnew]
        exact (Furnished.same (held_invitee (List.mem_of_find?_eq_some hfind))).of_same rfl rfl rfl
    · exact fun other hother ↦ .same (held_invitee (List.mem_filter.mp hother).1)
  | roleChanged | statusChanged =>
    refine furnished_of_modify rfl rfl rfl ?_
    exact fun user huser _ ↦ (Furnished.same huser).of_same rfl rfl rfl
  | serviceAccountCreated actorId username displayName actor record token hactor hname hfree hrecord =>
    refine furnished_of_users rfl rfl (hjoined (fun _ hmem ↦ hmem) ?_ ?_)
    · rw [hrecord]
      rfl
    · rw [hrecord]
      rfl
  | erased =>
    refine furnished_of_modify rfl rfl rfl ?_
    exact fun user huser _ ↦ (Furnished.same huser).of_same rfl rfl rfl
  | _ => exact furnished_of_held rfl

theorem furnished_step (p : Platform) (w : World) (call : ℕ × Call) :
    ∃ given, ∀ user ∈ (step p w call).held, Furnished p w (step p w call) call.2 given user := by
  obtain ⟨now, call⟩ := call
  cases call with
  | auth c => exact (perform_effect p now w c).furnished
  | directory c => exact ⟨"", (c.perform_effect p now w).furnished⟩

theorem mem_recoveryCodes {code : RecoveryCode} :
    (userId, code) ∈ w.recoveryCodes ↔ ∃ user ∈ w.held, user.id = userId ∧ code ∈ user.recoveryCodes := by
  simp only [World.recoveryCodes, List.mem_flatMap, List.mem_map, Prod.mk.injEq]
  constructor
  · rintro ⟨user, huser, _, hcode, rfl, rfl⟩
    exact ⟨user, huser, rfl, hcode⟩
  · rintro ⟨user, huser, rfl, hcode⟩
    exact ⟨user, huser, code, hcode, rfl, rfl⟩

theorem codes_step (p : Platform) (w : World) (call : ℕ × Call) : ∃ new : String × RecoveryCode → Prop,
    (∀ x y, new x → new y → x.1 = y.1) ∧ Issue (·.2.digest) p.codeAt (fun x y ↦ x.1 = y.1) new w.drawn
      (step p w call).drawn w.recoveryCodes (step p w call).recoveryCodes := by
  obtain ⟨given, hfurnished⟩ := furnished_step p w call
  refine ⟨fun x ↦ x.1 = given ∧ ∃ m, w.drawn ≤ m ∧ m < (step p w call).drawn ∧ p.codeAt m = x.2.digest, ?_, ?_⟩
  · exact fun x y hx hy ↦ hx.1.trans hy.1.symm
  · refine ⟨drawn_step call, ?_, fun x hx ↦ hx.2⟩
    rintro ⟨userId, code⟩ hmem
    obtain ⟨user', huser', rfl, hcode⟩ := mem_recoveryCodes.mp hmem
    cases hfurnished user' huser' with
    | made hkeys hcodes =>
      rw [hcodes] at hcode
      cases hcode
    | held user huser hid hkeys hcodes =>
      rcases hcodes code hcode with hold | hnew
      · exact .inl ⟨(user'.id, code), mem_recoveryCodes.mpr ⟨user, huser, hid, hold⟩, rfl, rfl⟩
      · exact .inr hnew

theorem keys_step (p : Platform) (w : World) (call : ℕ × Call) (huser' : user' ∈ (step p w call).held) {key : Passkey}
    (hkey : key ∈ user'.passkeys) :
    (∃ user ∈ w.held, user.id = user'.id ∧ ∃ old ∈ user.passkeys, old.id = key.id) ∨ call.2.Registers user'.id key.id := by
  obtain ⟨given, hfurnished⟩ := furnished_step p w call
  cases hfurnished user' huser' with
  | made hkeys =>
    rw [hkeys] at hkey
    cases hkey
  | held user huser hid hkeys =>
    rcases hkeys key hkey with hold | hnew
    · exact .inl ⟨user, huser, hid, hold⟩
    · exact .inr hnew

/-! ### Where attach codes come from -/

/-- The sessions, and those that attach codes were minted from, have ids that were drawn; but for some codes, after `n`. -/
structure Minting (p : Platform) (n : ℕ) (old : AttachCode → Prop) (w : World) : Prop where
  sessions : ∀ s ∈ w.state.sessions, ∃ m, n ≤ m ∧ m < w.drawn ∧ p.randomUUID m = s.id
  codes : ∀ code ∈ w.state.attachCodes, old code ∨ ∃ m, n ≤ m ∧ m < w.drawn ∧ p.randomUUID m = code.sessionId

theorem AuthEffect.attachCodes (h : AuthEffect p now w call w') {code : AttachCode} (hcode : code ∈ w'.state.attachCodes) :
    code ∈ w.state.attachCodes ∨ ∃ s ∈ w.state.sessions, code.sessionId = s.id := by
  cases h with
  | refused hw => exact .inl (hw.state ▸ hcode)
  | changed userId f k hf hw =>
    rw [hw.state] at hcode
    exact .inl hcode
  | loggedIn w₁ user hw | challenged w₁ user record hw | completed w₁ item user secret step hw =>
    exact .inl (hw.state ▸ (hcode : code ∈ w₁.state.attachCodes))
  | minted session minted hsession hid =>
    rcases List.mem_append.mp hcode with hold | hnew
    · exact .inl (List.mem_filter.mp hold).1
    · rw [List.mem_singleton.mp hnew]
      exact .inr ⟨session, hsession, hid⟩
  | burned codes hcodes hw =>
    rw [hw.state] at hcode
    exact .inl (hcodes code hcode)
  | redeemed w₁ codes hcodes hw =>
    change code ∈ w₁.state.attachCodes at hcode
    rw [hw.state] at hcode
    exact .inl (hcodes code hcode)
  | slid digest found hfound hrevoked hexpiry hw =>
    rw [hw.state] at hcode
    exact .inl hcode
  | resumed w₁ digest found user hfound hrevoked hexpiry hw =>
    change code ∈ w₁.state.attachCodes at hcode
    rw [hw.state] at hcode
    exact .inl hcode
  | recoveryBegun w₁ pending hw => exact .inl (hw.state ▸ (hcode : code ∈ w₁.state.attachCodes))
  | _ => exact .inl hcode

theorem DirectoryEffect.attachCodes {call : DirectoryCall} (h : DirectoryEffect p now w call w') :
    w'.state.attachCodes = w.state.attachCodes := by
  cases h with
  | _ => rfl

theorem Minting.step {n : ℕ} {old : AttachCode → Prop} (h : Minting p n old w) (hn : n ≤ w.drawn) (call : ℕ × Call) :
    Minting p n old (step p w call) := by
  have hlater : w.drawn ≤ (Accounts.step p w call).drawn := drawn_step call
  have hold : ∀ s ∈ w.state.sessions, ∃ m, n ≤ m ∧ m < (Accounts.step p w call).drawn ∧ p.randomUUID m = s.id := by
    intro s hs
    obtain ⟨m, hfrom, hm, hid⟩ := h.sessions s hs
    exact ⟨m, hfrom, by omega, hid⟩
  have hcodes : ∀ code ∈ w.state.attachCodes,
      old code ∨ ∃ m, n ≤ m ∧ m < (Accounts.step p w call).drawn ∧ p.randomUUID m = code.sessionId := by
    intro code hcode
    rcases h.codes code hcode with hkept | ⟨m, hfrom, hm, hid⟩
    · exact .inl hkept
    · exact .inr ⟨m, hfrom, by omega, hid⟩
  obtain ⟨now, call⟩ := call
  cases call with
  | auth c =>
    have heffect := perform_effect p now w c
    constructor
    · intro s hs
      rcases heffect.sessions hs with ⟨t, ht, hid, _⟩ | ⟨_, hnew⟩
      · rw [← hid]
        exact hold t ht
      · obtain ⟨m, hfrom, hm, hid⟩ := hnew.id
        exact ⟨m, hn.trans hfrom, hm, hid⟩
    · intro code hcode
      rcases heffect.attachCodes hcode with hkept | ⟨s, hs, hid⟩
      · exact hcodes code hkept
      · rw [hid]
        exact .inr (hold s hs)
  | directory c =>
    have heffect := c.perform_effect p now w
    exact ⟨fun s hs ↦ hold s (heffect.sessions hs), fun code hcode ↦ hcodes code (heffect.attachCodes ▸ hcode)⟩

end

end Noesar.Accounts
