import Noesar.Lib.Run
import Noesar.Reference.Evidence

namespace Noesar.Reference.Production

open Lib Lib.Framing Lib.Json Lib.Run

structure ExecutionAuthorization (φ : Type) extends Authorization φ where
  evidenceChainVerified : Bool := false
  evidenceSha256 : Option String := none

/-- A call of either entry point of the authority, with the files that are there while it runs. -/
structure Call (φ : Type) where
  principal : Principal
  plan : Entries φ
  approval : Entries φ
  sandboxProfileSha256 : String
  attestationPath : Option String := none
  expectedLauncherSha256 : Option String := none
  expectedSeccompSha256 : Option String := none
  developmentFixture : Bool := false
  now : ℤ
  site : Site

inductive Request (φ : Type)
  | authorize (c : Call φ)
  | authorizeProduction (c : Call φ) (productionEvidencePath : String)

def Request.call {φ : Type} : Request φ → Call φ
  | .authorize c | .authorizeProduction c _ => c

section

variable {φ : Type} (host : Capability.Host) (py : Interpreter φ)

def Call.attestation (c : Call φ) : Option (Except PyError Unit) := c.attestationPath.map fun path ↦ do
  let file ← c.site.read path
  let _ ← verifyProductionSandboxAttestation host py c.site file ⟨c.sandboxProfileSha256, field c.plan "capabilityId",
    field c.plan "version", c.expectedLauncherSha256, c.expectedSeccompSha256, none⟩

def Call.ordinary (c : Call φ) (developmentFixture : Bool) : AuthorizeCall φ :=
  ⟨c.principal, c.plan, c.approval, c.attestation host py, developmentFixture, c.now⟩

def subject (c : Call φ) (authorization : Authorization φ) : Subject φ :=
  ⟨authorization.capabilityId, authorization.capabilityVersion, authorization.planHash, c.sandboxProfileSha256⟩

/-- What is left to `authorize_production` when the ordinary path has gone through. -/
def completeProduction (c : Call φ) (productionEvidencePath : String) (authorization : Authorization φ) :
    Except PyError (ExecutionAuthorization φ) := do
  require (isString "os-isolated" authorization.sandboxProfile = true)
    (.permissionError "production capability authorization requires os-isolated")
  let evidence ← verifyCapabilityProductionEvidence host py c.site productionEvidencePath (subject c authorization)
  return ⟨{ authorization with productionEligible := true, attestationVerified := true }, true, some evidence.evidenceSha256⟩

def run (usedApprovalNonces : List (Value φ)) : Request φ → Except PyError (ExecutionAuthorization φ) × List (Value φ)
  | .authorize c =>
    match authorize py usedApprovalNonces (c.ordinary host py c.developmentFixture) with
    | .ok (authorization, used) => (.ok ⟨authorization, false, none⟩, used)
    | .error e => (.error e, usedApprovalNonces)
  | .authorizeProduction c productionEvidencePath =>
    match authorize py usedApprovalNonces (c.ordinary host py false) with
    | .ok (authorization, used) => (completeProduction host py c productionEvidencePath authorization, used)
    | .error e => (.error e, usedApprovalNonces)

def step (usedApprovalNonces : List (Value φ)) (r : Request φ) : List (Value φ) := (run host py usedApprovalNonces r).2

structure Admits (used : List (Value φ)) (c : AuthorizeCall φ) : Prop where
  approved : Approves py used c.principal c.plan c.approval c.now
  actor : InsertionMap.lookup "actorId" c.plan = some (.string c.principal.actorId)
  session : InsertionMap.lookup "sessionId" c.plan = some (.string c.principal.sessionId)
  decision : ∃ v, InsertionMap.lookup "decision" c.plan = some v ∧ v ≠ .string "deny"
  profile : ∃ profile, InsertionMap.lookup "sandboxProfile" c.plan = some (.string profile) ∧
    (profile = "declarative" ∨ profile = "process-restricted-development-fixture" ∧ c.developmentFixture = true ∨
      profile = "os-isolated" ∧ c.attestation = some (.ok ()))

def Free (used : List (Value φ)) (r : Request φ) : Prop := ∀ e, (run host py used r).1 = .error e → (run host py used r).2 = used

/-- The evidence for the capability, the version and the plan of a call verifies, for its profile. -/
def Evidenced (c : Call φ) (productionEvidencePath : String) : Prop :=
  ∃ evidence, verifyCapabilityProductionEvidence host py c.site productionEvidencePath
    ⟨field c.plan "capabilityId", field c.plan "version", field c.plan "planHash", c.sandboxProfileSha256⟩ = .ok evidence

/-- The ordinary path lets a plan through that is not for the isolated profile, or for which there is no evidence. -/
def Wasted (used : List (Value φ)) : Request φ → Prop
  | .authorize _ => False
  | .authorizeProduction c productionEvidencePath => Admits py used (c.ordinary host py false) ∧
      ¬(InsertionMap.lookup "sandboxProfile" c.plan = some (.string "os-isolated") ∧ Evidenced host py c productionEvidencePath)

def returns (nonce : Value φ) (used : List (Value φ)) (r : Request φ) : Bool :=
  (run host py used r).1.isOk && (InsertionMap.lookup "nonce" r.call.approval).any (equal py nonce)

/-- The evidence that has been read is for what it is expected to be for. -/
structure Certifies (c : Call φ) (productionEvidencePath : String) (a : ExecutionAuthorization φ) : Prop where
  isolated : a.sandboxProfile = .string "os-isolated"
  attested : c.attestation host py = some (.ok ())
  verified : ∃ evidence, verifyCapabilityProductionEvidence host py c.site productionEvidencePath (subject c a.toAuthorization) =
    .ok evidence ∧ a.evidenceSha256 = some evidence.evidenceSha256
  document : ∃ file value, c.site.read productionEvidencePath = .ok file ∧ load py file = .ok value ∧
    equal py (field value "capabilityId") a.capabilityId = true ∧
    equal py (field value "capabilityVersion") a.capabilityVersion = true ∧
    equal py (field value "planHash") a.planHash = true ∧ reads value "profileSha256" c.sandboxProfileSha256 = true

def Evident (used : List (Value φ)) (r : Request φ) : Prop :=
  ∀ a, (run host py used r).1 = .ok a → a.evidenceChainVerified = true →
    ∃ c productionEvidencePath, r = .authorizeProduction c productionEvidencePath ∧ Certifies host py c productionEvidencePath a

end

section

variable {φ : Type} {host : Capability.Host} {py : Interpreter φ} {used used' : List (Value φ)} {c : AuthorizeCall φ}
  {a : Authorization φ}

theorem profileGate_ok {attestation : Option (Except PyError Unit)} {developmentFixture : Bool} {profile : Value φ}
    {r : Bool × Bool} : profileGate attestation developmentFixture profile = .ok r ↔
      profile = .string "declarative" ∧ r = (false, true) ∨
      profile = .string "process-restricted-development-fixture" ∧ developmentFixture = true ∧ r = (false, false) ∨
      profile = .string "os-isolated" ∧ attestation = some (.ok ()) ∧ r = (true, false) := by
  unfold profileGate
  split
  next h =>
    rw [isString_iff.mp h]
    simp [pure, Except.pure, eq_comm]
  next hdeclarative =>
    rw [isString_iff] at hdeclarative
    split
    next h =>
      rw [isString_iff.mp h]
      simp only [bind_ok, require_ok, exists_unit, pure, Except.pure, Except.ok.injEq]
      simp [eq_comm]
    next hfixture =>
      rw [isString_iff] at hfixture
      split
      next h =>
        rw [isString_iff.mp h]
        simp only [bind_ok, demand_ok, exists_unit, pure, Except.pure, Except.ok.injEq]
        simp [eq_comm]
      next hisolated =>
        rw [isString_iff] at hisolated
        simp [hdeclarative, hfixture, hisolated, throw, throwThe, MonadExceptOf.throw]

structure Authorizes (py : Interpreter φ) (used : List (Value φ)) (c : AuthorizeCall φ) (a : Authorization φ)
    (used' : List (Value φ)) : Prop where
  admits : Admits py used c
  capability : InsertionMap.lookup "capabilityId" c.plan = some a.capabilityId
  version : InsertionMap.lookup "version" c.plan = some a.capabilityVersion
  hash : InsertionMap.lookup "planHash" c.plan = some a.planHash
  profile : InsertionMap.lookup "sandboxProfile" c.plan = some a.sandboxProfile
  consumes : ∃ nonce, InsertionMap.lookup "nonce" c.approval = some nonce ∧ hashable (some nonce) = true ∧
    used.any (equal py nonce) = false ∧ used' = nonce :: used

theorem authorize_ok (h : authorize py used c = .ok (a, used')) : Authorizes py used c a used' := by
  simp only [authorize, planField, approvalField, bind_ok, demand_ok, require_ok, exists_unit] at h
  obtain ⟨capabilityId, hcapability, version, hversion, actorId, hactor, sessionId, hsession, planHash, hhash, decision,
    hdecision, profile, hprofile, hdeny, hactorIs, hsessionIs, nonce, hnonce, approvedActor, happrovedActor, approvedSession,
    happrovedSession, approvedId, happrovedId, approvedVersion, happrovedVersion, approvedHash, happrovedHash, expiresAt,
    hexpiresAt, hhashable, hfresh, expiry, hexpiry, hunexpired, happrovedActorIs, happrovedSessionIs, hid, hversions, hhashes,
    gate, hgate, hresult⟩ := h
  cases hresult
  rw [isString_iff.mp hactorIs] at hactor
  rw [isString_iff.mp hsessionIs] at hsession
  rw [isString_iff.mp happrovedActorIs] at happrovedActor
  rw [isString_iff.mp happrovedSessionIs] at happrovedSession
  have happroves : Approves py used c.principal c.plan c.approval c.now :=
    ⟨⟨nonce, hnonce, hhashable, hfresh⟩, happrovedActor, happrovedSession, ⟨_, _, hcapability, happrovedId, hid⟩,
      ⟨_, _, hversion, happrovedVersion, hversions⟩, ⟨_, _, hhash, happrovedHash, hhashes⟩,
      ⟨_, _, hexpiresAt, hexpiry, hunexpired⟩⟩
  refine ⟨⟨happroves, hactor, hsession, ⟨decision, hdecision, ?_⟩, ?_⟩, hcapability, hversion, hhash, hprofile,
    ⟨nonce, hnonce, hhashable, hfresh, rfl⟩⟩
  · rintro rfl
    rw [isString_self] at hdeny
    cases hdeny
  · rcases profileGate_ok.mp hgate with ⟨rfl, -⟩ | ⟨rfl, hfixture, -⟩ | ⟨rfl, hattested, -⟩
    · exact ⟨_, hprofile, .inl rfl⟩
    · exact ⟨_, hprofile, .inr (.inl ⟨rfl, hfixture⟩)⟩
    · exact ⟨_, hprofile, .inr (.inr ⟨rfl, hattested⟩)⟩

theorem authorize_of_admits (h : Admits py used c) : ∃ a used', authorize py used c = .ok (a, used') := by
  obtain ⟨⟨⟨nonce, hnonce, hhashable, hfresh⟩, happrovedActor, happrovedSession, ⟨id, approvedId, hid, happrovedId, hidEq⟩,
    ⟨version, approvedVersion, hversion, happrovedVersion, hversionEq⟩, ⟨hash, approvedHash, hhash, happrovedHash, hhashEq⟩,
    ⟨expiresAt, expiry, hexpiresAt, hexpiry, hunexpired⟩⟩, hactor, hsession, ⟨decision, hdecision, hdeny⟩,
    ⟨profile, hprofile, hgate⟩⟩ := h
  obtain ⟨gate, hgate⟩ : ∃ gate, profileGate c.attestation c.developmentFixture (.string profile : Value φ) = .ok gate := by
    rcases hgate with rfl | ⟨rfl, hfixture⟩ | ⟨rfl, hattested⟩
    · exact ⟨_, profileGate_ok.mpr (.inl ⟨rfl, rfl⟩)⟩
    · exact ⟨_, profileGate_ok.mpr (.inr (.inl ⟨rfl, hfixture, rfl⟩))⟩
    · exact ⟨_, profileGate_ok.mpr (.inr (.inr ⟨rfl, hattested, rfl⟩))⟩
  refine ⟨⟨id, version, c.principal.actorId, c.principal.sessionId, hash, .string profile, gate.2, gate.1⟩, nonce :: used, ?_⟩
  simp only [authorize, planField, approvalField, bind_ok, demand_ok, require_ok, exists_unit]
  have hnot : isString "deny" decision = false := by
    rw [← Bool.not_eq_true, isString_iff]
    exact hdeny
  exact ⟨id, hid, version, hversion, _, hactor, _, hsession, hash, hhash, decision, hdecision, _, hprofile, hnot, isString_self _,
    isString_self _, nonce, hnonce, _, happrovedActor, _, happrovedSession, approvedId, happrovedId, approvedVersion,
    happrovedVersion, approvedHash, happrovedHash, expiresAt, hexpiresAt, hhashable, hfresh, expiry, hexpiry, hunexpired,
    isString_self _, isString_self _, hidEq, hversionEq, hhashEq, gate, hgate, rfl⟩

theorem equal_number {v : Value φ} {q : ℚ} (h : numberOf py v = some q) (u : Value φ) :
    equal py v u = decide (numberOf py u = some q) := by
  cases v with
  | bool =>
    cases h
    rfl
  | number n =>
    change decide (numberOf py u = numberOf py (.number n)) = _
    rw [h]
  | _ => cases h

theorem equal_trans {v w : Value φ} (hw : hashable (some w) = true) (h : equal py v w = true) (u : Value φ) :
    equal py w u = equal py v u := by
  have hnumber (q : ℚ) (hv : numberOf py v = some q) : equal py w u = equal py v u := by
    rw [equal_number hv, decide_eq_true_iff] at h
    rw [equal_number hv, equal_number h]
  cases v with
  | null =>
    cases w with
    | null => rfl
    | _ => cases h
  | bool => exact hnumber _ rfl
  | number n =>
    cases n with
    | int | float => exact hnumber _ rfl
  | string => rw [isString_iff.mp h]
  | array =>
    cases w with
    | array => cases hw
    | _ => cases h
  | object =>
    cases w with
    | object => cases hw
    | _ => cases h

theorem completeProduction_ok {c : Call φ} {path : String} {x : ExecutionAuthorization φ} :
    completeProduction host py c path a = .ok x ↔ a.sandboxProfile = .string "os-isolated" ∧
      ∃ evidence, verifyCapabilityProductionEvidence host py c.site path (subject c a) = .ok evidence ∧
        x = ⟨{ a with productionEligible := true, attestationVerified := true }, true, some evidence.evidenceSha256⟩ := by
  simp only [completeProduction, bind_ok, require_ok, exists_unit, isString_iff, pure, Except.pure, Except.ok.injEq]
  simp only [eq_comm]

theorem completeProduction_refused (c : Call φ) (path : String) (h : isString "os-isolated" a.sandboxProfile = false) :
    completeProduction host py c path a =
      .error (.permissionError "production capability authorization requires os-isolated") := by
  rw [completeProduction, require, if_neg (by rw [h]; exact Bool.false_ne_true)]
  rfl

theorem run_authorized {c : Call φ} (path : String) (h : authorize py used (c.ordinary host py false) = .ok (a, used')) :
    run host py used (.authorizeProduction c path) = (completeProduction host py c path a, used') := by
  simp only [run, h]

theorem Authorizes.subject_eq {c : Call φ} {fixture : Bool} (h : Authorizes py used (c.ordinary host py fixture) a used') :
    subject c a = ⟨field c.plan "capabilityId", field c.plan "version", field c.plan "planHash", c.sandboxProfileSha256⟩ := by
  have hcapability : InsertionMap.lookup "capabilityId" c.plan = some a.capabilityId := h.capability
  have hversion : InsertionMap.lookup "version" c.plan = some a.capabilityVersion := h.version
  have hhash : InsertionMap.lookup "planHash" c.plan = some a.planHash := h.hash
  rw [subject, field, hcapability, field, hversion, field, hhash]
  rfl

theorem free_iff (used : List (Value φ)) (r : Request φ) : Free host py used r ↔ ¬Wasted host py used r := by
  cases r with
  | authorize c =>
    refine iff_of_true (fun e he ↦ ?_) id
    cases hauthorize : authorize py used (c.ordinary host py c.developmentFixture) with
    | error => simp only [run, hauthorize]
    | ok =>
      simp only [run, hauthorize] at he
      cases he
  | authorizeProduction c path =>
    cases hauthorize : authorize py used (c.ordinary host py false) with
    | error e =>
      refine iff_of_true (fun e _ ↦ ?_) fun hwasted ↦ ?_
      · simp only [run, hauthorize]
      · obtain ⟨a, used', hok⟩ := authorize_of_admits hwasted.1
        rw [hauthorize] at hok
        cases hok
    | ok result =>
      obtain ⟨a, used'⟩ := result
      have hauthorizes := authorize_ok hauthorize
      obtain ⟨nonce, -, -, -, hused⟩ := hauthorizes.consumes
      have hprofile : InsertionMap.lookup "sandboxProfile" c.plan = some a.sandboxProfile := hauthorizes.profile
      rw [Free, run_authorized path hauthorize, Wasted, Evidenced, ← hauthorizes.subject_eq, hprofile, Option.some_inj]
      cases hcomplete : completeProduction host py c path a with
      | ok =>
        obtain ⟨hisolated, evidence, hevidence, -⟩ := completeProduction_ok.mp hcomplete
        exact iff_of_true (fun e he ↦ by cases he) fun hwasted ↦ hwasted.2 ⟨hisolated, evidence, hevidence⟩
      | error e =>
        refine iff_of_false (fun hfree ↦ ?_) fun hspared ↦ hspared ⟨hauthorizes.admits, fun hevidenced ↦ ?_⟩
        · have hsame := hfree e rfl
          rw [hused] at hsame
          exact List.cons_ne_self nonce used hsame
        · obtain ⟨hisolated, evidence, hevidence⟩ := hevidenced
          rw [completeProduction_ok.mpr ⟨hisolated, evidence, hevidence, rfl⟩] at hcomplete
          cases hcomplete

theorem step_cases (used : List (Value φ)) (r : Request φ) :
    (step host py used r = used ∧ (run host py used r).1.isOk = false) ∨
      ∃ nonce, InsertionMap.lookup "nonce" r.call.approval = some nonce ∧ hashable (some nonce) = true ∧
        used.any (equal py nonce) = false ∧ step host py used r = nonce :: used := by
  cases r with
  | authorize c =>
    cases hauthorize : authorize py used (c.ordinary host py c.developmentFixture) with
    | error =>
      left
      simp only [step, run, hauthorize]
      exact ⟨trivial, rfl⟩
    | ok =>
      right
      simp only [step, run, hauthorize]
      exact (authorize_ok hauthorize).consumes
  | authorizeProduction c =>
    cases hauthorize : authorize py used (c.ordinary host py false) with
    | error =>
      left
      simp only [step, run, hauthorize]
      exact ⟨trivial, rfl⟩
    | ok =>
      right
      simp only [step, run, hauthorize]
      exact (authorize_ok hauthorize).consumes

theorem used_step (nonce : Value φ) {r : Request φ} (h : used.any (equal py nonce) = true) :
    (step host py used r).any (equal py nonce) = true := by
  rcases @step_cases φ host py used r with ⟨hsame, -⟩ | ⟨approved, -, -, -, hstep⟩
  · rwa [hsame]
  · rw [hstep, List.any_cons, h, Bool.or_true]

theorem returns_step {nonce : Value φ} {r : Request φ} (h : returns host py nonce used r = true) :
    used.any (equal py nonce) = false ∧ (step host py used r).any (equal py nonce) = true := by
  rw [returns, Bool.and_eq_true] at h
  rcases @step_cases φ host py used r with ⟨-, hrefused⟩ | ⟨approved, happroved, hhashable, hfresh, hstep⟩
  · rw [hrefused] at h
    cases h.1
  · rw [happroved, Option.any_some] at h
    have hsame : equal py approved = equal py nonce := funext (equal_trans hhashable h.2)
    rw [hsame] at hfresh
    exact ⟨hfresh, by rw [hstep, List.any_cons, h.2, Bool.true_or]⟩

theorem evident (used : List (Value φ)) (r : Request φ) : Evident host py used r := by
  intro x hx hchain
  cases r with
  | authorize c =>
    cases hauthorize : authorize py used (c.ordinary host py c.developmentFixture) with
    | error =>
      simp only [run, hauthorize] at hx
      cases hx
    | ok =>
      simp only [run, hauthorize] at hx
      cases hx
      cases hchain
  | authorizeProduction c path =>
    cases hauthorize : authorize py used (c.ordinary host py false) with
    | error =>
      simp only [run, hauthorize] at hx
      cases hx
    | ok result =>
      obtain ⟨a, used'⟩ := result
      simp only [run, hauthorize] at hx
      obtain ⟨hisolated, evidence, hevidence, rfl⟩ := completeProduction_ok.mp hx
      refine ⟨c, path, rfl, hisolated, ?_, ⟨evidence, hevidence, rfl⟩, ?_⟩
      · obtain ⟨profile, hprofile, hgate⟩ := (authorize_ok hauthorize).admits.profile
        rw [(authorize_ok hauthorize).profile, hisolated] at hprofile
        cases hprofile
        rcases hgate with h | ⟨h, -⟩ | ⟨-, hattested⟩
        · exact absurd h (by decide)
        · exact absurd h (by decide)
        · exact hattested
      · simp only [verifyCapabilityProductionEvidence, bind_ok, require_ok, exists_unit] at hevidence
        obtain ⟨file, hfile, value, hvalue, -, hid, hversion, hhash, hprofile, -⟩ := hevidence
        exact ⟨file, value, hfile, hvalue, hid, hversion, hhash, hprofile⟩

end

/-- In every state that calls lead to, a refusal costs nothing unless the ordinary path has let through what production
then does not, and evidence is verified for production only. An approval is good for one authorization at most. -/
theorem refusal_free_iff {φ : Type} (host : Capability.Host) (py : Interpreter φ) (rs : List (Request φ)) :
    (∀ r, (Free host py (after (step host py) [] rs) r ↔ ¬Wasted host py (after (step host py) [] rs) r) ∧
      Evident host py (after (step host py) [] rs) r) ∧
    ∀ nonce, count (step host py) (returns host py nonce) [] rs ≤ 1 := by
  refine ⟨fun r ↦ ⟨free_iff _ r, evident _ r⟩, fun nonce ↦ ?_⟩
  exact Along.count_le_one (C := fun _ _ ↦ True) (fun used : List (Value φ) ↦ used.any (equal py nonce))
    (fun used r _ hused ↦ used_step nonce hused) (fun used r _ hreturns ↦ returns_step hreturns)
    (Along.of_forall (fun _ _ ↦ trivial) [] rs)

section Sample

def bare : Site := ⟨fun _ ↦ .error (.valueError "no such file"), fun _ ↦ .ok none, fun _ ↦ false⟩

/-- An approved plan, with nothing wrong but that it is for a profile that needs no isolation. -/
def declarative : Call Empty where
  principal := samplePrincipal
  plan := samplePlan [] allowed
  approval := (sampleCall [] allowed).approval
  sandboxProfileSha256 := "profile-1"
  now := 0
  site := bare

theorem declarative_admits : Admits integral [] (declarative.ordinary .sample integral false) where
  approved := sampleCall_approves [] allowed
  actor := rfl
  session := rfl
  decision := by
    have hne : "allow" ≠ "deny" := by decide
    exact ⟨_, rfl, fun heq ↦ hne (Json.string.inj heq)⟩
  profile := ⟨"declarative", rfl, .inl rfl⟩

theorem declarative_wastes_approval :
    run .sample integral [] (.authorizeProduction declarative "evidence.json") =
        (.error (.permissionError "production capability authorization requires os-isolated"), [.string "nonce-1"]) ∧
      ¬Free .sample integral [] (.authorizeProduction declarative "evidence.json") := by
  have hrun : run .sample integral [] (.authorizeProduction declarative "evidence.json") =
      (.error (.permissionError "production capability authorization requires os-isolated"), [.string "nonce-1"]) := by
    obtain ⟨a, used', hauthorize⟩ := authorize_of_admits declarative_admits
    have hauthorizes := authorize_ok hauthorize
    obtain ⟨nonce, hnonce, -, -, rfl⟩ := hauthorizes.consumes
    cases hnonce
    have hprofile := hauthorizes.profile
    have hdeclarative : a.sandboxProfile = .string "declarative" := (Option.some.inj hprofile).symm
    have hnot : isString "os-isolated" a.sandboxProfile = false := by
      rw [hdeclarative]
      decide
    rw [run_authorized _ hauthorize, completeProduction_refused _ _ hnot]
  refine ⟨hrun, fun hfree ↦ ?_⟩
  rw [Free, hrun] at hfree
  cases hfree _ rfl

end Sample

end Noesar.Reference.Production
