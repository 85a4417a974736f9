import Noesar.Accounts.Origins
import Noesar.Webauthn.Verifier

namespace Noesar.Accounts

open Lib World

/-- How the texts that a call brings hold what a browser sent, and the text that a key is kept as. -/
structure Browser (κ : Type) where
  runtime : Webauthn.Runtime κ
  attestation : String → Webauthn.Attestation
  assertion : String → Webauthn.Assertion
  keyText : Webauthn.Jwk → String

def Platform.checking {κ : Type} (p : Platform) (browser : Browser κ) : Platform where
  __ := p
  verifyAssertion challenge origin rpId publicKeyJwk response lastSignCount :=
    (browser.runtime.verifyAssertion (browser.assertion response) ⟨challenge, origin, rpId⟩ publicKeyJwk
      lastSignCount).toOption
  verifyRegistration challenge origin rpId response :=
    (browser.runtime.verifyRegistration (browser.attestation response) ⟨challenge, origin, rpId⟩).toOption.map
      fun verified ↦ (verified.1, browser.keyText verified.2.1, verified.2.2)

namespace Counters

def countOf (credentialId : String) (user : User) : Option ℕ :=
  (user.passkeys.find? (·.id = credentialId)).map (·.signCount)

def keptCount (w : World) (userId credentialId : String) : Option ℕ := (w.user userId).bind (countOf credentialId)

section

variable (p : Platform) (w : World) (now : ℕ) (userId credentialId : String)

def granted : AuthCall → Option String
  | .completeLoginWithPasskey challenge key response ip rpId origin =>
    match (w.completeLoginWithPasskey p now challenge key response ip rpId origin).2 with
    | .ok issued => if issued.session.userId = userId ∧ key = credentialId then some response else none
    | .error _ => none
  | _ => none

/-- The count of an assertion of a passkey of an account that is in order, but for its count, which is not looked at. -/
def genuineCount : AuthCall → Option ℕ
  | .completeLoginWithPasskey challenge key response ip rpId origin =>
    match (do let item ← w.loginChallenge p now challenge ip; let user ← w.challengedUser item; return (item, user)) with
    | .error _ => none
    | .ok (_, user) =>
      if user.id = userId ∧ key = credentialId then
        (user.passkeys.find? (·.id = credentialId)).bind fun passkey ↦
          p.verifyAssertion challenge origin rpId passkey.publicKeyJwk response 0
      else none
  | _ => none

end

/-- The calls that leave a passkey where it is: all but its removal, and those by which the first owner comes to be. -/
def Keeps (userId credentialId : String) : AuthCall → Prop
  | .seedDefaultOwnerIfNeeded => False
  | .confirmSetup _ _ => False
  | .removePasskey user _ _ key => ¬(user = userId ∧ key = credentialId)
  | _ => True

/-! ### A count is kept -/

def Held (userId credentialId : String) (w w' : World) : Prop :=
  ∀ count, keptCount w userId credentialId = some count → keptCount w' userId credentialId = some count

section

variable {p : Platform} {w w' : World} {now : ℕ} {userId credentialId : String}

theorem Held.of_users (h : w'.state.users = w.state.users) : Held userId credentialId w w' := by
  intro count hcount
  rw [keptCount, World.user] at hcount ⊢
  rwa [h]

variable {id : String} {f : User → User}

theorem user_updateUser (hf : ∀ user, (f user).id = user.id) :
    (w.updateUser id f).user userId = (w.user userId).map fun user ↦ if userId = id then f user else user :=
  find?_modifyFirst User.id userId id fun user _ ↦ hf user

theorem keptCount_updateUser (hf : ∀ user, (f user).id = user.id) :
    keptCount (w.updateUser id f) userId credentialId =
      (w.user userId).bind fun user ↦ countOf credentialId (if userId = id then f user else user) := by
  rw [keptCount, user_updateUser hf, Option.bind_map]
  rfl

theorem Held.of_update (h : w'.state.users = (w.updateUser id f).state.users) (hf : ∀ user, (f user).id = user.id)
    (hkeeps : userId = id → ∀ user count, countOf credentialId user = some count → countOf credentialId (f user) = some count)
    :
    Held userId credentialId w w' := by
  intro count hcount
  have hsame : keptCount w' userId credentialId = keptCount (w.updateUser id f) userId credentialId := by
    rw [keptCount, keptCount, World.user, World.user, h]
  obtain ⟨user, huser, hcount⟩ := Option.bind_eq_some_iff.mp hcount
  rw [hsame, keptCount_updateUser hf, huser, Option.bind_some]
  split
  next hid => exact hkeeps hid user count hcount
  next => exact hcount

theorem held_of_effect {call : AuthCall} (h : AuthEffect p now w call w') (hkeeps : Keeps userId credentialId call)
    (huntouched : ∀ id, userId = id → ¬call.Touches id credentialId) : Held userId credentialId w w' := by
  cases h.users with
  | same h => exact .of_users h
  | begun pending h => exact .of_users h
  | modified id f h howner hwho hkeys =>
    refine .of_update h (fun user ↦ congrArg Prod.fst (hwho user)) fun hid user count hcount ↦ ?_
    obtain ⟨passkey, hfind, hcount⟩ := Option.map_eq_some_iff.mp hcount
    exact Option.map_eq_some_iff.mpr ⟨passkey, hkeys.found user _ passkey (huntouched id hid) hfind, hcount⟩
  | first hcall => exact (hcall ▸ hkeeps : Keeps userId credentialId .seedDefaultOwnerIfNeeded).elim
  | owner challenge totpCode hcall => exact (hcall ▸ hkeeps : Keeps userId credentialId (.confirmSetup _ _)).elim

/-! ### An assertion is answered -/

def counted (credentialId : String) (count : ℕ) (user : User) : User :=
  { user with
    passkeys := modifyFirst (·.id = credentialId) (fun entry ↦ { entry with signCount := count }) user.passkeys
    failedLoginCount := 0
    lockedUntil := 0 }

theorem countOf_counted {key : String} {count : ℕ} {user : User} : countOf credentialId (counted key count user) =
    (user.passkeys.find? (·.id = credentialId)).map fun passkey ↦ if credentialId = key then count else passkey.signCount := by
  have hfind := @find?_modifyFirst Passkey String (fun entry ↦ { entry with signCount := count }) user.passkeys _
    Passkey.id credentialId key fun _ _ ↦ rfl
  rw [countOf]
  dsimp only [counted]
  rw [hfind, Option.map_map]
  congr 1
  funext passkey
  rw [Function.comp_apply]
  split <;> rfl

section

variable {challenge key response ip rpId origin : String}

theorem completeLoginWithPasskey_refused {refusal : Refusal}
    (h : (w.completeLoginWithPasskey p now challenge key response ip rpId origin).2 = .error refusal) :
    (w.completeLoginWithPasskey p now challenge key response ip rpId origin).1.state.users = w.state.users := by
  unfold completeLoginWithPasskey at h ⊢
  split at h
  · rfl
  split at h
  · rfl
  split at h
  · rfl
  · cases h

theorem completeLoginWithPasskey_granted {issued : Issued}
    (h : (w.completeLoginWithPasskey p now challenge key response ip rpId origin).2 = .ok issued) :
    ∃ item user passkey count, w.loginChallenge p now challenge ip = .ok item ∧ w.user item.userId = some user ∧
      user.passkeys.find? (·.id = key) = some passkey ∧
      p.verifyAssertion challenge origin rpId passkey.publicKeyJwk response passkey.signCount = some count ∧
      issued.session.userId = user.id ∧
      (w.completeLoginWithPasskey p now challenge key response ip rpId origin).1.state.users =
        (w.updateUser user.id (counted key count)).state.users := by
  unfold completeLoginWithPasskey at h ⊢
  split at h
  · cases h
  next item user hfound =>
    simp only [challengedUser, bind_ok, demand_ok] at hfound
    obtain ⟨challenged, hitem, account, huser, hfound⟩ := hfound
    cases hfound
    split at h
    · cases h
    next passkey hpasskey =>
      split at h
      · cases h
      next count hcount =>
        cases h
        exact ⟨item, user, passkey, count, hitem, huser, hpasskey, hcount, rfl, rfl⟩

theorem completeLoginWithPasskey_grants {item : LoginChallenge} {user : User} {passkey : Passkey} {count : ℕ}
    (hitem : w.loginChallenge p now challenge ip = .ok item) (huser : w.user item.userId = some user)
    (hpasskey : user.passkeys.find? (·.id = key) = some passkey)
    (hcount : p.verifyAssertion challenge origin rpId passkey.publicKeyJwk response passkey.signCount = some count) :
    ∃ issued, (w.completeLoginWithPasskey p now challenge key response ip rpId origin).2 = .ok issued ∧
      issued.session.userId = user.id := by
  have hfound : (do let item ← w.loginChallenge p now challenge ip; let user ← w.challengedUser item; return (item, user)) =
      Except.ok (item, user) :=
    bind_ok.mpr ⟨item, hitem, bind_ok.mpr ⟨user, demand_ok.mpr huser, rfl⟩⟩
  unfold completeLoginWithPasskey
  rw [hfound]
  dsimp only
  rw [hpasskey]
  dsimp only
  rw [hcount]
  exact ⟨_, rfl, rfl⟩

end

end

/-! ### Runs -/

section

variable {κ : Type} (p : Platform) (browser : Browser κ) (userId credentialId : String)

def acceptedCount (w : World) (call : ℕ × AuthCall) : Option ℕ :=
  (granted (p.checking browser) w call.1 userId credentialId call.2).bind fun response ↦
    (browser.assertion response).signCount.toOption

abbrev Watched : Type := World × List ℕ

def watch (s : Watched) (call : ℕ × AuthCall) : Watched :=
  (call.2.perform (p.checking browser) call.1 s.1,
    s.2 ++ (acceptedCount p browser userId credentialId s.1 call).toList)

def acceptedCounts (w : World) (calls : List (ℕ × AuthCall)) : List ℕ :=
  (Run.after (watch p browser userId credentialId) (w, []) calls).2

/-- Once a count that is not zero was accepted, every count that is accepted is above all that were before it. -/
def ExposesClones (counts : List ℕ) : Prop :=
  ∀ before count after, counts = before ++ count :: after → (∃ earlier ∈ before, earlier ≠ 0) →
    ∀ earlier ∈ before, earlier < count

/-- An assertion without a count comes, in order otherwise, after one with a count was accepted. -/
def Blank (s : Watched) (call : ℕ × AuthCall) : Prop :=
  (∃ earlier ∈ s.2, earlier ≠ 0) ∧ genuineCount (p.checking browser) s.1 call.1 userId credentialId call.2 = some 0

end

section

variable {κ : Type} {p : Platform} {browser : Browser κ} {userId credentialId : String} {w : World} {call : ℕ × AuthCall}
  {count : ℕ}

theorem toOption_eq_some {ε α : Type} {x : Except ε α} {a : α} : x.toOption = some a ↔ x = .ok a := by
  cases x with
  | error => exact ⟨nofun, nofun⟩
  | ok => exact ⟨fun h ↦ congrArg Except.ok (Option.some.inj h), fun h ↦ congrArg some (Except.ok.inj h)⟩

theorem checking_eq_some {challenge origin rpId publicKeyJwk response : String} {last : ℕ} :
    (p.checking browser).verifyAssertion challenge origin rpId publicKeyJwk response last = some count ↔
      (p.checking browser).verifyAssertion challenge origin rpId publicKeyJwk response 0 = some count ∧
        (count ≠ 0 → last < count) := by
  simp only [Platform.checking, toOption_eq_some]
  exact Webauthn.Runtime.verifyAssertion_ok_iff

theorem checking_signCount {challenge origin rpId publicKeyJwk response : String} {last : ℕ}
    (h : (p.checking browser).verifyAssertion challenge origin rpId publicKeyJwk response last = some count) :
    (browser.assertion response).signCount = .ok count :=
  Webauthn.Runtime.verifyAssertion_signCount (toOption_eq_some.mp h)

theorem acceptedCount_spec (h : acceptedCount p browser userId credentialId w call = some count) :
    genuineCount (p.checking browser) w call.1 userId credentialId call.2 = some count ∧
      (∃ last, keptCount w userId credentialId = some last ∧ (count ≠ 0 → last < count)) ∧
        keptCount (call.2.perform (p.checking browser) call.1 w) userId credentialId = some count := by
  obtain ⟨now, call⟩ := call
  cases call with
  | completeLoginWithPasskey challenge key response ip =>
    obtain ⟨answered, hanswered, hcount⟩ := Option.bind_eq_some_iff.mp h
    rw [granted] at hanswered
    split at hanswered
    next issued hissued =>
      split at hanswered
      next hmine =>
        obtain ⟨huserId, rfl⟩ := hmine
        cases hanswered
        obtain ⟨item, user, passkey, found, hitem, huser, hpasskey, hverified, hsession, husers⟩ :=
          completeLoginWithPasskey_granted hissued
        rw [toOption_eq_some, checking_signCount hverified] at hcount
        cases hcount
        have hid : user.id = userId := hsession.symm.trans huserId
        have hitemId : item.userId = userId := (user_id huser).symm.trans hid
        have hfound : (do
            let item ← w.loginChallenge (p.checking browser) now challenge ip
            let user ← w.challengedUser item
            return (item, user)) = Except.ok (item, user) :=
          bind_ok.mpr ⟨item, hitem, bind_ok.mpr ⟨user, demand_ok.mpr huser, rfl⟩⟩
        rw [hitemId] at huser
        refine ⟨?_, ⟨passkey.signCount, ?_, (checking_eq_some.mp hverified).2⟩, ?_⟩
        · rw [genuineCount, hfound]
          dsimp only
          rw [if_pos ⟨hid, rfl⟩, hpasskey, Option.bind_some]
          exact (checking_eq_some.mp hverified).1
        · rw [keptCount, huser, Option.bind_some, countOf, hpasskey, Option.map_some]
        · have hsame (target : User) : (counted key count target).id = target.id := rfl
          have hkept : keptCount (w.updateUser user.id (counted key count)) userId key = some count := by
            rw [keptCount_updateUser hsame, huser, Option.bind_some, if_pos hid.symm, countOf_counted, hpasskey,
              Option.map_some, if_pos rfl]
          rw [keptCount, World.user] at hkept ⊢
          exact husers ▸ hkept
      next => cases hanswered
    next => cases hanswered
  | _ => cases h

theorem acceptedCount_of_genuine
    (h : genuineCount (p.checking browser) w call.1 userId credentialId call.2 = some count)
    (hcount : ∀ last, keptCount w userId credentialId = some last → count ≠ 0 → last < count) :
    acceptedCount p browser userId credentialId w call = some count := by
  obtain ⟨now, call⟩ := call
  cases call with
  | completeLoginWithPasskey challenge key response ip rpId origin =>
    rw [genuineCount] at h
    split at h
    · cases h
    next item user hfound =>
      simp only [challengedUser, bind_ok, demand_ok] at hfound
      obtain ⟨challenged, hitem, account, huser, hfound⟩ := hfound
      cases hfound
      split at h
      next hmine =>
        obtain ⟨rfl, rfl⟩ := hmine
        obtain ⟨passkey, hpasskey, hgenuine⟩ := Option.bind_eq_some_iff.mp h
        have hkept : keptCount w user.id key = some passkey.signCount := by
          rw [keptCount, user_id huser, huser, Option.bind_some, countOf, hpasskey, Option.map_some]
        have hverified := checking_eq_some.mpr ⟨hgenuine, hcount passkey.signCount hkept⟩
        obtain ⟨issued, hissued, hsession⟩ := completeLoginWithPasskey_grants hitem huser hpasskey hverified
        have hgranted : granted (p.checking browser) w now user.id key
            (.completeLoginWithPasskey challenge key response ip rpId origin) = some response := by
          rw [granted, hissued]
          exact if_pos ⟨hsession, rfl⟩
        rw [acceptedCount, hgranted, Option.bind_some, checking_signCount hgenuine]
        rfl
      next => cases h
  | _ => cases h

theorem held_of_not_accepted (hkeeps : Keeps userId credentialId call.2)
    (h : acceptedCount p browser userId credentialId w call = none) :
    Held userId credentialId w (call.2.perform (p.checking browser) call.1 w) := by
  obtain ⟨now, call⟩ := call
  cases call with
  | completeLoginWithPasskey challenge key response ip rpId origin =>
    cases hresult : (w.completeLoginWithPasskey (p.checking browser) now challenge key response ip rpId origin).2 with
    | error => exact .of_users (completeLoginWithPasskey_refused hresult)
    | ok =>
      obtain ⟨item, user, passkey, count, -, -, -, hverified, hsession, husers⟩ := completeLoginWithPasskey_granted hresult
      refine .of_update husers (fun _ ↦ rfl) fun hid target last hlast ↦ ?_
      have hother : credentialId ≠ key := by
        rintro rfl
        rw [acceptedCount, granted, hresult] at h
        dsimp only at h
        rw [if_pos ⟨hsession.trans hid.symm, rfl⟩, Option.bind_some, checking_signCount hverified] at h
        cases h
      rw [countOf_counted]
      rw [countOf] at hlast
      simpa only [if_neg hother] using hlast
  | removePasskey =>
    exact held_of_effect (perform_effect ..) hkeeps fun id hid htouched ↦ hkeeps ⟨htouched.1.trans hid.symm, htouched.2⟩
  | _ => exact held_of_effect (perform_effect ..) hkeeps fun _ _ ↦ id

/-! ### What is accepted along a run -/

theorem exposesClones_snoc {counts : List ℕ} : ExposesClones (counts ++ [count]) ↔
    ExposesClones counts ∧ ((∃ earlier ∈ counts, earlier ≠ 0) → ∀ earlier ∈ counts, earlier < count) := by
  constructor
  · intro h
    refine ⟨fun before found after hcounts ↦ ?_, h counts count [] rfl⟩
    exact h before found (after ++ [count]) (by rw [hcounts, List.append_assoc, List.cons_append])
  · rintro ⟨hcounts, hlast⟩ before found after hsplit
    rcases List.eq_nil_or_concat after with rfl | ⟨rest, last, rfl⟩
    · obtain ⟨rfl, hfound⟩ := List.append_inj' hsplit rfl
      cases hfound
      exact hlast
    · rw [List.concat_eq_append, ← List.cons_append, ← List.append_assoc] at hsplit
      obtain ⟨hrest, -⟩ := List.append_inj' hsplit rfl
      exact hcounts before found rest hrest

/-- Where a count was accepted that is not zero, the one that is kept is the highest; and clones show. -/
structure Sound (userId credentialId : String) (s : Watched) : Prop where
  kept : (∃ earlier ∈ s.2, earlier ≠ 0) →
    ∃ last, keptCount s.1 userId credentialId = some last ∧ ∀ earlier ∈ s.2, earlier ≤ last
  exposes : ExposesClones s.2

theorem Sound.watch {s : Watched} (h : Sound userId credentialId s) (hkeeps : Keeps userId credentialId call.2)
    (hblank : ¬Blank p browser userId credentialId s call) :
    Sound userId credentialId (watch p browser userId credentialId s call) := by
  cases haccepted : acceptedCount p browser userId credentialId s.1 call with
  | none =>
    rw [Counters.watch, haccepted, Option.toList_none, List.append_nil]
    refine ⟨fun hearlier ↦ ?_, h.exposes⟩
    obtain ⟨last, hlast, hmax⟩ := h.kept hearlier
    exact ⟨last, held_of_not_accepted hkeeps haccepted last hlast, hmax⟩
  | some count =>
    obtain ⟨hgenuine, ⟨last, hlast, habove⟩, hkept⟩ := acceptedCount_spec haccepted
    have hrises : (∃ earlier ∈ s.2, earlier ≠ 0) → ∀ earlier ∈ s.2, earlier < count := by
      intro hearlier earlier hmem
      obtain ⟨highest, hhighest, hmax⟩ := h.kept hearlier
      have hcount : count ≠ 0 := by
        rintro rfl
        exact hblank ⟨hearlier, hgenuine⟩
      obtain rfl : last = highest := Option.some.inj (hlast.symm.trans hhighest)
      exact Nat.lt_of_le_of_lt (hmax earlier hmem) (habove hcount)
    rw [Counters.watch, haccepted, Option.toList_some]
    refine ⟨fun _ ↦ ⟨count, hkept, ?_⟩, exposesClones_snoc.mpr ⟨h.exposes, hrises⟩⟩
    intro earlier hmem
    rcases List.mem_append.mp hmem with hmem | hmem
    · by_cases hearlier : ∃ earlier ∈ s.2, earlier ≠ 0
      · exact (hrises hearlier earlier hmem).le
      · rw [not_not.mp fun hne ↦ hearlier ⟨earlier, hmem, hne⟩]
        exact Nat.zero_le count
    · exact (List.mem_singleton.mp hmem).le

theorem not_exposes_of_blank {s : Watched} (h : Blank p browser userId credentialId s call) :
    ¬ExposesClones (watch p browser userId credentialId s call).2 := by
  obtain ⟨hearlier, hgenuine⟩ := h
  have haccepted := acceptedCount_of_genuine hgenuine fun _ _ hne ↦ absurd rfl hne
  intro hexposes
  rw [Counters.watch, haccepted, Option.toList_some] at hexposes
  have hrises := (exposesClones_snoc.mp hexposes).2 hearlier
  obtain ⟨earlier, hmem, -⟩ := hearlier
  exact Nat.not_lt_zero _ (hrises earlier hmem)

theorem ExposesClones.of_append {counts more : List ℕ} (h : ExposesClones (counts ++ more)) : ExposesClones counts := by
  intro before found after hcounts
  exact h before found (after ++ more) (by rw [hcounts, List.append_assoc, List.cons_append])

/-- From any world, and with all calls but those that take the passkey away: clones show in the counts that are accepted
exactly where, after an assertion with a count, none without a count comes that is in order otherwise. -/
theorem counters_expose_iff {calls : List (ℕ × AuthCall)} (hkeeps : ∀ call ∈ calls, Keeps userId credentialId call.2) :
    ExposesClones (acceptedCounts p browser userId credentialId w calls) ↔
      Run.Along (watch p browser userId credentialId) (fun s call ↦ ¬Blank p browser userId credentialId s call) (w, [])
        calls := by
  constructor
  · intro hexposes
    induction calls using List.reverseRecOn with
    | nil => trivial
    | append_singleton calls call ih =>
      rw [acceptedCounts, Run.after_snoc] at hexposes
      refine Run.Along.append.mpr ⟨?_, fun hblank ↦ not_exposes_of_blank hblank hexposes, trivial⟩
      exact ih (fun call hmem ↦ hkeeps call (List.mem_append_left _ hmem)) hexposes.of_append
  · intro halong
    have hstart : Sound userId credentialId (w, []) :=
      ⟨fun ⟨_, hmem, _⟩ ↦ absurd hmem List.not_mem_nil, fun before _ _ hsplit ↦ absurd hsplit.symm (by simp)⟩
    exact ((Run.Along.of_mem hkeeps).and halong |>.invariant (fun s call hsound h ↦ hsound.watch h.1 h.2) hstart).exposes

end

/-! ### A clone that has no counter -/

def plainRuntime : Webauthn.Runtime Unit where
  numbers := ⟨fun _ ↦ ['0'], fun _ ↦ none, rfl⟩
  sha256 _ := List.replicate 32 0
  createPublicKey _ := .ok ()
  verify _ signedData signature := signature = (signedData.drop 32).take 5

def plainClientData (challenge : String) : Framing.Bytes :=
  Framing.utf8 ("\x7b\"type\":\"webauthn.get\",\"challenge\":\"" ++ challenge ++ "\",\"origin\":\"\"\x7d")

def plainReport (count : ℕ) : Framing.Bytes := 0x05 :: BigEndian.bytes 4 count

def plainAssertion (count : ℕ) (challenge : String) : Webauthn.Assertion where
  clientDataJSON := Webauthn.bufferToBase64url (plainClientData challenge)
  authenticatorData := Webauthn.bufferToBase64url (List.replicate 32 0 ++ plainReport count)
  signature := Webauthn.bufferToBase64url (plainReport count)

/-- The count is the place of the first letter of a response, and the rest of it is the challenge. -/
def plainBrowser : Browser Unit where
  runtime := plainRuntime
  attestation _ := ⟨"", ""⟩
  assertion response := plainAssertion ((response.toList.headD 'a').toNat - 97) (String.ofList response.toList.tail)
  keyText jwk := jwk.x

def plainPlatform : Platform where
  __ := Platform.tallying
  randomToken n := String.ofList [Char.ofNat (97 + n)]

def ownerId : String := tally 'u' 2

def ownerPassword : String := "correct horse battery"

def enrolled : World :=
  (Run.after (fun w (call : ℕ × AuthCall) ↦ call.2.perform (plainPlatform.checking plainBrowser) call.1 w) .initial
    [(60000, .beginSetup (some "setup") "setup" "owner" none ownerPassword),
      (60000, .confirmSetup "b" "123456")]).updateUser ownerId
    fun user ↦ { user with passkeys := [⟨"AA", "key", 0, "Passkey"⟩] }

def login (challenge count : String) : List (ℕ × AuthCall) :=
  [(150000, .beginLogin "owner" ownerPassword "::1"),
    (150000, .completeLoginWithPasskey challenge "AA" (count ++ challenge) "::1" "noesar" "")]

def cloned : List (ℕ × AuthCall) := login "r" "f" ++ login "w" "a" ++ login "|" "d"

theorem cloned_keeps : ∀ call ∈ cloned, Keeps ownerId "AA" call.2 := by
  simp only [cloned, login, List.cons_append, List.nil_append, List.forall_mem_cons]
  exact ⟨trivial, trivial, trivial, trivial, trivial, trivial, nofun⟩

theorem counters_expose_iff_cloned :
    (∀ call ∈ cloned, Keeps ownerId "AA" call.2) ∧
      (ExposesClones (acceptedCounts plainPlatform plainBrowser ownerId "AA" enrolled cloned) ↔
        Run.Along (watch plainPlatform plainBrowser ownerId "AA")
          (fun s call ↦ ¬Blank plainPlatform plainBrowser ownerId "AA" s call) (enrolled, []) cloned) :=
  ⟨cloned_keeps, counters_expose_iff cloned_keeps⟩

/-- After the count five a clone signs in without a count, and then another with the count three. -/
theorem clone_unseen : (∀ call ∈ cloned, Keeps ownerId "AA" call.2) ∧
    acceptedCounts plainPlatform plainBrowser ownerId "AA" enrolled cloned = [5, 0, 3] ∧
    ¬ExposesClones (acceptedCounts plainPlatform plainBrowser ownerId "AA" enrolled cloned) := by
  have hcounts : acceptedCounts plainPlatform plainBrowser ownerId "AA" enrolled cloned = [5, 0, 3] := by
    unfold acceptedCounts watch acceptedCount Platform.checking plainBrowser
    simp only [Webauthn.Runtime.verifyAssertion, Webauthn.Runtime.clientData, plainAssertion,
      Webauthn.Assertion.signCount, Webauthn.decodeField_buffer]
    decide +kernel
  refine ⟨cloned_keeps, hcounts, fun hexposes ↦ ?_⟩
  rw [hcounts] at hexposes
  exact absurd (hexposes [5, 0] 3 [] rfl ⟨5, by simp, by decide⟩ 5 (by simp)) (by decide)

end Counters

end Noesar.Accounts
