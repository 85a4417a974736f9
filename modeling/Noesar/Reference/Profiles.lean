import Noesar.Reference.Plans

namespace Noesar.Reference

open Lib Lib.Framing Lib.Json

section Values

variable {φ : Type} {py : Interpreter φ}

@[simp] theorem orRaise_ok {α : Type} {x : Except PyError α} {a : α} : orRaise x = .ok a ↔ x = .ok a := by
  cases x with
  | error => exact ⟨nofun, nofun⟩
  | ok => exact ⟨fun h ↦ by cases h; rfl, fun h ↦ by cases h; rfl⟩

theorem ok_bind {ε α β : Type} (a : α) (f : α → Except ε β) : (Except.ok a >>= f) = f a := rfl

theorem among_ok {texts : List String} {v : Value φ} {b : Bool} (h : among texts v = .ok b) :
    b = true ↔ ∃ text ∈ texts, v = .string text := by
  rw [among] at h
  split at h
  · cases h
    simp only [List.any_eq_true, isString_iff]
  · cases h

theorem shared_nil {permissions : List (Value φ)} {texts : List String} :
    shared permissions texts = [] ↔ ∀ text ∈ texts, .string text ∉ permissions := by
  simp only [shared, List.filter_eq_nil_iff, List.any_eq_true, isString_iff, exists_eq_right]

theorem setOf_ok {v : Value φ} {items : List (Value φ)} (h : setOf v = .ok items) : iterate v = .ok items := by
  simp only [setOf, bind_ok, exists_unit, require_ok] at h
  obtain ⟨items', hitems, _, heq⟩ := h
  cases heq
  exact hitems

end Values

section

variable {φ : Type}

/-- A manifest that the policy finds no reason in to ask for an approval. -/
structure Unremarkable (manifest : Value φ) : Prop where
  license : ∀ v, (subscript "license" manifest >>= subscript "spdx") = .ok v → ∃ text ∈ allowedLicenses, v = .string text
  trust : ∀ v, (subscript "publisher" manifest >>= subscript "trustLevel") = .ok v → v ≠ .string "community"
  permissions : ∀ items, (getOr "permissions" (.array []) manifest >>= iterate) = .ok items →
    ∀ text ∈ ownerOnly ++ highRisk ++ writeRisk, .string text ∉ items
  industry : subscript "kind" manifest = .ok (.string "industry-module") → ∀ risk,
    (getOr "industry" .null manifest >>= getOr "riskClass" (.string "standard")) = .ok risk →
      risk ≠ .string "high" ∧ risk ≠ .string "safety-critical"

variable {py : Interpreter φ} {principal : Principal} {reasons : List String}

theorem licenseGate_nil {v : Value φ} (h : licenseGate py v = .ok reasons) :
    reasons = [] ↔ ∃ text ∈ allowedLicenses, v = .string text := by
  simp only [licenseGate, bind_ok, orRaise_ok] at h
  obtain ⟨allowed, hallowed, h⟩ := h
  rw [← among_ok hallowed]
  cases allowed with
  | true =>
    cases h
    simp
  | false =>
    simp only [Bool.false_eq_true, if_false, bind_ok, orRaise_ok] at h
    obtain ⟨reviewed, _, h⟩ := h
    cases reviewed with
    | true =>
      cases h
      simp
    | false => cases h

theorem ownerGate_nil {permissions : List (Value φ)} (h : ownerGate principal permissions = .ok reasons) :
    reasons = [] ↔ shared permissions ownerOnly = [] := by
  rw [ownerGate] at h
  by_cases hnone : shared permissions ownerOnly = []
  · rw [if_pos hnone] at h
    cases h
    simp [hnone]
  · simp only [if_neg hnone, bind_ok, exists_unit, require_ok] at h
    obtain ⟨_, h⟩ := h
    cases h
    simp [hnone]

theorem highRiskGate_ne {trustLevel evidence : Value φ}
    (h : highRiskGate py principal trustLevel evidence = .ok reasons) : reasons ≠ [] := by
  simp only [highRiskGate, bind_ok, exists_unit, require_ok] at h
  obtain ⟨_, _, _, _, _, h⟩ := h
  cases h
  simp

theorem industryGate_nil {industry kind trustLevel : Value φ}
    (h : industryGate py principal industry kind trustLevel = .ok reasons) :
    reasons = [] ↔ (kind = .string "industry-module" → ∀ risk, getOr "riskClass" (.string "standard") industry = .ok risk →
      risk ≠ .string "high" ∧ risk ≠ .string "safety-critical") := by
  rw [industryGate] at h
  by_cases hkind : kind = .string "industry-module"
  · rw [if_neg (by simp [hkind, isString])] at h
    simp only [bind_ok, exists_unit, require_ok, orRaise_ok] at h
    obtain ⟨_, risk, hrisk, evidence, _, _, high, hhigh, h⟩ := h
    have hclass := among_ok hhigh
    have hcondition : (∀ risk', getOr "riskClass" (.string "standard") industry = .ok risk' →
        risk' ≠ .string "high" ∧ risk' ≠ .string "safety-critical") ↔ high = false := by
      rw [← Bool.not_eq_true, hclass]
      constructor
      · rintro hall ⟨text, htext, rfl⟩
        obtain ⟨hne, hne'⟩ := hall _ hrisk
        simp only [List.mem_cons, List.not_mem_nil, or_false] at htext
        rcases htext with rfl | rfl
        · exact hne rfl
        · exact hne' rfl
      · intro hnone risk' hrisk'
        have heq : risk = risk' := Except.ok.inj (hrisk.symm.trans hrisk')
        subst heq
        exact ⟨fun h ↦ hnone ⟨_, by simp, h⟩, fun h ↦ hnone ⟨_, by simp, h⟩⟩
    simp only [hkind, true_imp_iff, hcondition]
    cases high with
    | true => simpa using highRiskGate_ne h
    | false =>
      cases h
      simp
  · have hnot : isString "industry-module" kind = false := by
      rw [← Bool.not_eq_true, isString_iff]
      exact hkind
    rw [if_pos hnot] at h
    cases h
    simp [hkind]

theorem sensitiveReasons_nil {permissions : List (Value φ)} {trustLevel : Value φ} :
    sensitiveReasons permissions trustLevel = [] ↔ trustLevel ≠ .string "community" ∧
      shared permissions highRisk = [] ∧ shared permissions writeRisk = [] := by
  have htrust : isString "community" trustLevel = true ↔ trustLevel = .string "community" := isString_iff
  simp only [sensitiveReasons, List.append_eq_nil_iff, ite_eq_left_iff, ite_eq_right_iff, htrust, and_assoc]
  simp

theorem gates_nil {manifest : Value φ} {externalExecutionEnabled strongReauth : Bool}
    (h : gates py manifest principal externalExecutionEnabled = .ok (reasons, strongReauth)) :
    reasons = [] ↔ Unremarkable manifest := by
  simp only [gates, bind_ok, exists_unit, orRaise_ok] at h
  obtain ⟨permissions, ⟨declaredPermissions, hdeclared, hset⟩, trustLevel, ⟨publisher, hpublisher, htrust⟩, kind, hkind,
    entrypointType, _, licenseId, ⟨license, hlicense, hspdx⟩, _, licenseReasons, hlicenseGate, industry, hindustry,
    industryReasons, hindustryGate, ownerReasons, hownerGate, _, h⟩ := h
  obtain ⟨hreasons, _⟩ := Prod.mk.inj (Except.ok.inj h)
  rw [← hreasons, List.append_eq_nil_iff, List.append_eq_nil_iff, List.append_eq_nil_iff, licenseGate_nil hlicenseGate,
    industryGate_nil hindustryGate, ownerGate_nil hownerGate, sensitiveReasons_nil, shared_nil, shared_nil, shared_nil]
  have hitems : (getOr "permissions" (.array []) manifest >>= iterate) = .ok permissions :=
    bind_ok.mpr ⟨_, hdeclared, setOf_ok hset⟩
  constructor
  · rintro ⟨⟨⟨hallowed, hindustries⟩, howner⟩, hcommunity, hhigh, hwrite⟩
    refine ⟨?_, ?_, ?_, ?_⟩
    · intro v hv
      have heq := (bind_ok.mpr ⟨_, hlicense, hspdx⟩).symm.trans hv
      cases heq
      exact hallowed
    · intro v hv
      have heq := (bind_ok.mpr ⟨_, hpublisher, htrust⟩).symm.trans hv
      cases heq
      exact hcommunity
    · intro items hsome text htext
      have heq := hitems.symm.trans hsome
      cases heq
      rcases List.mem_append.mp htext with htext | htext
      · rcases List.mem_append.mp htext with htext | htext
        · exact howner text htext
        · exact hhigh text htext
      · exact hwrite text htext
    · intro hmodule risk hrisk
      obtain ⟨declared, hdecl, hclass⟩ := bind_ok.mp hrisk
      have heq := hindustry.symm.trans hdecl
      cases heq
      exact hindustries (Except.ok.inj (hkind.symm.trans hmodule)) risk hclass
  · rintro ⟨hlicenses, htrusts, hpermissions, hindustries⟩
    have hpermission := hpermissions permissions hitems
    refine ⟨⟨⟨hlicenses _ (bind_ok.mpr ⟨_, hlicense, hspdx⟩), ?_⟩, ?_⟩, htrusts _ (bind_ok.mpr ⟨_, hpublisher, htrust⟩), ?_, ?_⟩
    · rintro rfl risk hclass
      exact hindustries hkind risk (bind_ok.mpr ⟨_, hindustry, hclass⟩)
    · intro text htext
      exact hpermission text (by simp [htext])
    · intro text htext
      exact hpermission text (by simp [htext])
    · intro text htext
      exact hpermission text (by simp [htext])

theorem evaluatePolicy_profile {manifest : Value φ} {externalExecutionEnabled : Bool} {d : PolicyDecision}
    (h : evaluatePolicy py manifest principal externalExecutionEnabled = .ok d) (hdeny : d.decision ≠ .deny) :
    (Unremarkable manifest ∧ d.sandboxProfile = "declarative") ∨
      (¬Unremarkable manifest ∧ d.sandboxProfile = "isolated-brokered") := by
  rw [evaluatePolicy] at h
  cases hgates : gates py manifest principal externalExecutionEnabled with
  | error stop =>
    rw [hgates] at h
    cases stop with
    | raised => cases h
    | denied =>
      cases h
      exact absurd rfl hdeny
  | ok result =>
    obtain ⟨reasons, strongReauth⟩ := result
    have hnil := gates_nil hgates
    rw [hgates] at h
    cases reasons with
    | nil =>
      cases h
      exact .inl ⟨hnil.mp rfl, rfl⟩
    | cons =>
      cases h
      refine .inr ⟨?_, rfl⟩
      rw [← hnil]
      simp

end

section

variable {φ : Type} (py : Interpreter φ)

/-- An approval of a plan by the principal who has it, unexpired and with a nonce that has not been used. -/
structure Approves (used : List (Value φ)) (principal : Principal) (plan approval : Entries φ) (now : ℤ) : Prop where
  nonce : ∃ nonce, InsertionMap.lookup "nonce" approval = some nonce ∧ hashable (some nonce) = true ∧
    used.any (equal py nonce) = false
  actor : InsertionMap.lookup "actorId" approval = some (.string principal.actorId)
  session : InsertionMap.lookup "sessionId" approval = some (.string principal.sessionId)
  capability : ∃ v w, InsertionMap.lookup "capabilityId" plan = some v ∧
    InsertionMap.lookup "capabilityId" approval = some w ∧ equal py v w = true
  version : ∃ v w, InsertionMap.lookup "version" plan = some v ∧
    InsertionMap.lookup "version" approval = some w ∧ equal py v w = true
  hash : ∃ v w, InsertionMap.lookup "planHash" plan = some v ∧
    InsertionMap.lookup "planHash" approval = some w ∧ equal py v w = true
  unexpired : ∃ v t, InsertionMap.lookup "expiresAt" approval = some v ∧ toInt py v = .ok t ∧ now ≤ t

end

section

variable {φ : Type} {host : Capability.Host} {py : Interpreter φ} {principal : Principal} {now : ℤ}
  {verified : Except PyError (Inspection φ)} {externalExecutionEnabled : Bool} {entries : Entries φ}

theorem plan_ok (h : plan host py now principal verified externalExecutionEnabled = .ok entries) :
    ∃ inspected d, verified = .ok inspected ∧
      evaluatePolicy py inspected.manifest principal externalExecutionEnabled = .ok d ∧
      InsertionMap.lookup "decision" entries = some (.string d.decision.text) ∧
      InsertionMap.lookup "sandboxProfile" entries = some (.string d.sandboxProfile) ∧
      InsertionMap.lookup "actorId" entries = some (.string principal.actorId) ∧
      InsertionMap.lookup "sessionId" entries = some (.string principal.sessionId) := by
  simp only [plan, planOf, planWithoutHash, bind_ok, exists_unit] at h
  obtain ⟨_, inspected, hverified, d, hd, entries', ⟨id, _, version, _, kind, _, trustLevel, _, publisherId, _, permissions,
    _, network, _, filesystem, _, entrypoint, _, industry, _, rollbackSupported, _, hentries⟩, h⟩ := h
  cases hentries
  cases h
  exact ⟨inspected, d, hverified, hd, rfl, rfl, rfl, rfl⟩

variable {used : List (Value φ)} {c : AuthorizeCall φ}

theorem authorize_profile (hentries : c.plan = entries) (hprincipal : c.principal = principal)
    (hactor : InsertionMap.lookup "actorId" entries = some (.string principal.actorId))
    (hsession : InsertionMap.lookup "sessionId" entries = some (.string principal.sessionId))
    {decision profile : String} (hdecision : InsertionMap.lookup "decision" entries = some (.string decision))
    (hdeny : decision ≠ "deny") (hprofile : InsertionMap.lookup "sandboxProfile" entries = some (.string profile))
    (happroval : Approves py used principal entries c.approval c.now) :
    ∃ f : Bool × Bool → Authorization φ × List (Value φ), (∀ r, (f r).1.sandboxProfile = .string profile) ∧
      authorize py used c = (profileGate c.attestation c.developmentFixture (.string profile : Value φ)).map f := by
  subst hentries hprincipal
  obtain ⟨⟨nonce, hnonce, hhashable, hfresh⟩, happrovedActor, happrovedSession, ⟨id, approvedId, hid, happrovedId, hidEq⟩,
    ⟨version, approvedVersion, hversion, happrovedVersion, hversionEq⟩, ⟨hash, approvedHash, hhash, happrovedHash, hhashEq⟩,
    ⟨expiresAt, expiry, hexpiresAt, hexpiry, hunexpired⟩⟩ := happroval
  have hnot : isString "deny" (.string decision : Value φ) = false := by
    rw [← Bool.not_eq_true, isString_iff]
    intro heq
    cases heq
    exact hdeny rfl
  refine ⟨fun r ↦ (⟨id, version, c.principal.actorId, c.principal.sessionId, hash, .string profile, r.2, r.1⟩,
    nonce :: used), fun r ↦ rfl, ?_⟩
  have hrequire {p : Prop} [Decidable p] {e : PyError} (h : p) : require p e = .ok () := require_ok.mpr h
  simp only [authorize, planField, approvalField, demand, hid, hversion, hactor, hsession, hhash, hdecision, hprofile,
    hnonce, happrovedActor, happrovedSession, happrovedId, happrovedVersion, happrovedHash, hexpiresAt, hnot, hhashable,
    hfresh, hexpiry, hunexpired, hidEq, hversionEq, hhashEq, isString_self, hrequire, ok_bind]
  rfl

end

/-- A plan that is not denied is executed in the profile that the policy chose, whatever the authority is supplied with,
exactly where the policy found nothing remarkable in the manifest. -/
theorem plan_authorized_iff {φ : Type} (host : Capability.Host) (py : Interpreter φ) {principal : Principal} {now : ℤ}
    {inspected : Inspection φ} {externalExecutionEnabled : Bool} {entries : Entries φ}
    (hplan : plan host py now principal (.ok inspected) externalExecutionEnabled = .ok entries)
    (hdeny : InsertionMap.lookup "decision" entries ≠ some (.string "deny")) {used : List (Value φ)} {c : AuthorizeCall φ}
    (hentries : c.plan = entries) (hprincipal : c.principal = principal)
    (happroval : Approves py used principal entries c.approval c.now) (hfixture : c.developmentFixture = true)
    (hattestation : c.attestation = some (.ok ())) :
    (∃ a used', authorize py used c = .ok (a, used') ∧
      InsertionMap.lookup "sandboxProfile" entries = some a.sandboxProfile) ↔ Unremarkable inspected.manifest := by
  obtain ⟨_, d, hverified, hd, hdecision, hprofile, hactor, hsession⟩ := plan_ok hplan
  cases hverified
  have hlet : d.decision ≠ .deny := by
    intro heq
    rw [hdecision, heq] at hdeny
    exact hdeny rfl
  have htext : d.decision.text ≠ "deny" := by
    intro heq
    rw [hdecision, heq] at hdeny
    exact hdeny rfl
  obtain ⟨f, hf, hauthorize⟩ := authorize_profile hentries hprincipal hactor hsession hdecision htext hprofile happroval
  rw [hauthorize, hfixture, hattestation, hprofile]
  rcases evaluatePolicy_profile hd hlet with ⟨hplain, heq⟩ | ⟨hremarkable, heq⟩
  · rw [heq]
    refine ⟨fun _ ↦ hplain, fun _ ↦ ⟨(f (false, true)).1, (f (false, true)).2, rfl, ?_⟩⟩
    rw [hf, heq]
  · rw [heq]
    refine ⟨?_, fun hplain ↦ absurd hplain hremarkable⟩
    rintro ⟨a, used', hr, _⟩
    cases hr

section Sample

def sampleManifest (permissions : List String) : Value Empty :=
  .object [("id", .string "org.example.echo"), ("version", .string "1.0.0"), ("kind", .string "skill"),
    ("publisher", .object [("id", .string "publisher-1"), ("trustLevel", .string "noesar-official")]),
    ("license", .object [("spdx", .string "MIT")]),
    ("entrypoint", .object [("type", .string "builtin"), ("value", .string "echo")]), ("permissions", texts permissions)]

def samplePrincipal : Principal := ⟨"actor-1", .developer, "session-1", 0, "local", none, by decide⟩

def sampleInspection (permissions : List String) : Inspection Empty := ⟨sampleManifest permissions, [], [], "package-1"⟩

def sampleEntries (permissions : List String) (d : PolicyDecision) : Entries Empty :=
  [("capabilityId", .string "org.example.echo"), ("version", .string "1.0.0"), ("kind", .string "skill"),
    ("trustLevel", .string "noesar-official"), ("publisherId", .string "publisher-1"),
    ("permissions", texts permissions), ("network", .array []), ("filesystem", .array []),
    ("entrypoint", .object [("type", .string "builtin"), ("value", .string "echo")]), ("industry", .null),
    ("decision", .string d.decision.text), ("reasons", texts d.reasons), ("sandboxProfile", .string d.sandboxProfile),
    ("strongReauthRequired", .bool d.strongReauthRequired), ("packageSha256", .string "package-1"),
    ("backupRequired", .bool true), ("rollbackSupported", .bool false), ("actorId", .string "actor-1"),
    ("role", .string "developer"), ("sessionId", .string "session-1"), ("organizationId", .string "local"),
    ("projectId", .null)]

def samplePlan (permissions : List String) (d : PolicyDecision) : Entries Empty :=
  sampleEntries permissions d ++ [("planHash", .string (planHash .sample integral (sampleEntries permissions d)))]

def sampleCall (permissions : List String) (d : PolicyDecision) : AuthorizeCall Empty where
  principal := samplePrincipal
  plan := samplePlan permissions d
  approval := [("nonce", .string "nonce-1"), ("actorId", .string "actor-1"), ("sessionId", .string "session-1"),
    ("capabilityId", .string "org.example.echo"), ("version", .string "1.0.0"),
    ("planHash", .string (planHash .sample integral (sampleEntries permissions d))), ("expiresAt", .number (.int 300))]
  attestation := some (.ok ())
  developmentFixture := true
  now := 0

theorem sampleCall_approves (permissions : List String) (d : PolicyDecision) :
    Approves integral [] samplePrincipal (samplePlan permissions d) (sampleCall permissions d).approval 0 where
  nonce := ⟨_, rfl, rfl, rfl⟩
  actor := rfl
  session := rfl
  capability := ⟨_, _, rfl, rfl, equal_string_iff.mpr rfl⟩
  version := ⟨_, _, rfl, rfl, equal_string_iff.mpr rfl⟩
  hash := ⟨_, _, rfl, rfl, equal_string_iff.mpr rfl⟩
  unexpired := ⟨_, 300, rfl, rfl, by decide⟩

def allowed : PolicyDecision := ⟨.allow, ["no sensitive permissions requested"], "declarative", false⟩

def brokered : PolicyDecision :=
  ⟨.approvalRequired, ["sensitive permission requires scoped approval"], "isolated-brokered", false⟩

theorem sampleManifest_unremarkable : Unremarkable (sampleManifest []) where
  license v hv := by
    cases hv
    exact ⟨"MIT", by decide, rfl⟩
  trust v hv := by
    cases hv
    simp
  permissions items hitems text _ hmem := by
    cases hitems
    cases hmem
  industry hkind := by
    have hne : "skill" ≠ "industry-module" := by decide
    exact absurd (Json.string.inj (Except.ok.inj hkind)) hne

end Sample

theorem plan_authorized_iff_plain :
    plan .sample integral 0 samplePrincipal (.ok (sampleInspection [])) false = .ok (samplePlan [] allowed) ∧
      ∃ a used', authorize integral [] (sampleCall [] allowed) = .ok (a, used') ∧
        InsertionMap.lookup "sandboxProfile" (samplePlan [] allowed) = some a.sandboxProfile := by
  have hplan : plan .sample integral 0 samplePrincipal (.ok (sampleInspection [])) false = .ok (samplePlan [] allowed) := rfl
  have hdeny : InsertionMap.lookup "decision" (samplePlan [] allowed) ≠ some (.string "deny") := by
    have hne : "allow" ≠ "deny" := by decide
    exact fun heq ↦ hne (Json.string.inj (Option.some.inj heq))
  refine ⟨hplan, ?_⟩
  exact (plan_authorized_iff .sample integral hplan hdeny rfl rfl (sampleCall_approves [] allowed) rfl rfl).mpr
    sampleManifest_unremarkable

theorem brokered_plan_refused :
    plan .sample integral 0 samplePrincipal (.ok (sampleInspection ["network.external"])) false =
        .ok (samplePlan ["network.external"] brokered) ∧
      Approves integral [] samplePrincipal (samplePlan ["network.external"] brokered)
        (sampleCall ["network.external"] brokered).approval 0 ∧
      InsertionMap.lookup "decision" (samplePlan ["network.external"] brokered) = some (.string "approval-required") ∧
      (authorize integral [] (sampleCall ["network.external"] brokered)).map Prod.snd =
        .error (.permissionError "blocked or unknown sandbox profile") := by
  refine ⟨rfl, sampleCall_approves _ _, rfl, ?_⟩
  have hne : "approval-required" ≠ "deny" := by decide
  obtain ⟨f, _, hauthorize⟩ := authorize_profile (c := sampleCall _ brokered) rfl rfl rfl rfl rfl hne rfl
    (sampleCall_approves ["network.external"] brokered)
  rw [hauthorize]
  rfl

end Noesar.Reference
