import Noesar.Reference.Registry

namespace Noesar.Reference

open Lib Lib.Framing Lib.Json Manager

section Statements

variable {φ : Type} (host : Capability.Host) (py : Interpreter φ) (secret : Bytes) (loads : Bytes → Option (Value φ))
  (externalExecutionEnabled : Bool)

/-- The call consumes a signed and unexpired approval of the plan that is computed for its package and principal. -/
def Approved (s : Manager φ) (c : InstallCall φ) (inspected : Inspection φ) : Prop :=
  ∃ token payload plan hash expiresAt expiry, c.approvalToken = some token ∧
    openToken host secret loads token = some (.object payload) ∧
    planOf host py c.principal inspected externalExecutionEnabled = .ok plan ∧
    InsertionMap.lookup "planHash" plan = some hash ∧
    equal py ((InsertionMap.lookup "planHash" payload).getD .null) hash = true ∧
    InsertionMap.lookup "expiresAt" payload = some expiresAt ∧ toInt py expiresAt = .ok expiry ∧ c.now ≤ expiry ∧
    consumeApproval py s.usedNonces payload = .ok (s.install host py secret loads c).2.usedNonces

/-- An installation that goes through is one that the policy does not deny, and it is approved where it has to be. -/
def Lawful (s : Manager φ) (c : InstallCall φ) : Prop :=
  (s.install host py secret loads c).1.isOk = true → ∃ inspected decision, c.verified = .ok inspected ∧
    evaluatePolicy py inspected.manifest c.principal externalExecutionEnabled = .ok decision ∧ decision.decision ≠ .deny ∧
    (decision.decision = .approvalRequired → Approved host py secret loads externalExecutionEnabled s c inspected)

/-- The plan that is presented says what the policy says, where that is not to allow, and has the hash of the plan that is
computed where an approval is required. -/
def Honest (c : InstallCall φ) : Prop := ∀ inspected, c.verified = .ok inspected → ∃ decision,
  evaluatePolicy py inspected.manifest c.principal externalExecutionEnabled = .ok decision ∧
    (decision.decision = .deny → InsertionMap.lookup "decision" c.plan = some (.string "deny")) ∧
    (decision.decision = .approvalRequired → InsertionMap.lookup "decision" c.plan = some (.string "approval-required") ∧
      ∃ plan hash, planOf host py c.principal inspected externalExecutionEnabled = .ok plan ∧
        InsertionMap.lookup "planHash" plan = some hash ∧ InsertionMap.lookup "planHash" c.plan = some hash)

def Honestly : Command φ → Prop
  | .install call => Honest host py externalExecutionEnabled call
  | _ => True

def consumes (nonce : String) (s : Manager φ) : Command φ → Bool
  | .install call => match checkInstall host py secret loads call with
    | .ok checked => match checked.payload with
      | some payload => stringOf (InsertionMap.lookup "nonce" payload) = some nonce &&
          (consumeApproval py s.usedNonces payload).isOk
      | none => false
    | .error _ => false
  | _ => false

end Statements

section Calls

variable {φ : Type} {host : Capability.Host} {py : Interpreter φ} {secret : Bytes} {loads : Bytes → Option (Value φ)}
  {externalExecutionEnabled : Bool}

theorem checkApproval_ok {c : InstallCall φ} {id version : Value φ} {payload : Option (Entries φ)}
    (h : checkApproval host py secret loads c id version = .ok payload) :
    ∃ decision, InsertionMap.lookup "decision" c.plan = some decision ∧ isString "deny" decision = false ∧
      (isString "approval-required" decision = true → ∃ token planHash members, c.approvalToken = some token ∧
        InsertionMap.lookup "planHash" c.plan = some planHash ∧ payload = some members ∧
        verifyToken host py secret loads ⟨token, c.principal, id, version, planHash, c.now⟩ = .ok members) := by
  simp only [checkApproval, bind_ok, exists_unit, require_ok, item, demand_ok] at h
  obtain ⟨decision, hdecision, hdeny, h⟩ := h
  refine ⟨decision, hdecision, hdeny, fun hrequired ↦ ?_⟩
  rw [if_pos hrequired] at h
  simp only [bind_ok, demand_ok] at h
  obtain ⟨token, htoken, planHash, hhash, members, hverify, heq⟩ := h
  cases heq
  exact ⟨token, planHash, members, (Option.filter_eq_some_iff.mp htoken).1, hhash, rfl, hverify⟩

theorem install_ok {s : Manager φ} {c : InstallCall φ} (h : (s.install host py secret loads c).1.isOk = true) :
    ∃ checked, checkInstall host py secret loads c = .ok checked ∧
      consume py s.usedNonces checked.payload = .ok (s.install host py secret loads c).2.usedNonces := by
  unfold Manager.install at h ⊢
  cases hcheck : checkInstall host py secret loads c with
  | error =>
    rw [hcheck] at h
    cases h
  | ok checked =>
    refine ⟨checked, rfl, ?_⟩
    rw [hcheck] at h
    dsimp only at h ⊢
    cases hconsume : consume py s.usedNonces checked.payload with
    | error =>
      rw [hconsume] at h
      cases h
    | ok =>
      dsimp only
      unfold unpack
      cases c.extraction with
      | error => rfl
      | ok =>
        cases item c.plan "planHash" with
        | error | ok => rfl

theorem Honest.lawful {c : InstallCall φ} (h : Honest host py externalExecutionEnabled c) (s : Manager φ) :
    Lawful host py secret loads externalExecutionEnabled s c := by
  intro hok
  obtain ⟨checked, hcheck, hconsume⟩ := install_ok hok
  obtain ⟨hverified, -, -, -, hpayload⟩ := checkInstall_ok hcheck
  obtain ⟨presented, hpresented, hdeny, hrequired⟩ := checkApproval_ok hpayload
  obtain ⟨decision, hdecision, hdenied, hplanned⟩ := h _ hverified
  refine ⟨checked.inspected, decision, hverified, hdecision, fun heq ↦ ?_, fun heq ↦ ?_⟩
  · cases hpresented.symm.trans (hdenied heq)
    cases hdeny
  · obtain ⟨hsaid, plan, hash, hplan, hhash, hsame⟩ := hplanned heq
    cases hpresented.symm.trans hsaid
    obtain ⟨token, planHash, payload, htoken, hplanHash, hsome, hverify⟩ := hrequired rfl
    cases hsame.symm.trans hplanHash
    obtain ⟨hopened, hfields, expiresAt, expiry, hexpires, hexpiry, hnow⟩ := verifyToken_ok hverify
    have hbound := hfields ("planHash", hash) (by simp [Presented.expectedFields])
    rw [hsome] at hconsume
    exact ⟨token, payload, plan, hash, expiresAt, expiry, htoken, hopened, hplan, hhash, hbound, hexpires, hexpiry, hnow,
      hconsume⟩

end Calls

section Nonces

variable {φ : Type} {host : Capability.Host} {py : Interpreter φ} {secret : Bytes} {loads : Bytes → Option (Value φ)}

theorem consumeApproval_ok {used used' : List String} {payload : Entries φ}
    (h : consumeApproval py used payload = .ok used') : (∀ n ∈ used, n ∈ used') ∧
      ∀ nonce, stringOf (InsertionMap.lookup "nonce" payload) = some nonce → nonce ∉ used ∧ nonce ∈ used' := by
  simp only [consumeApproval, bind_ok, exists_unit, require_ok, item, demand_ok] at h
  obtain ⟨value, hvalue, -, h⟩ := h
  rw [hvalue]
  cases value with
  | string s =>
    simp only [bind_ok, exists_unit, require_ok] at h
    obtain ⟨hfree, heq⟩ := h
    cases heq
    refine ⟨fun n hn ↦ List.mem_cons_of_mem s hn, fun nonce hnonce ↦ ?_⟩
    cases hnonce
    exact ⟨hfree, List.mem_cons_self⟩
  | null | bool b | number n | array items | object members =>
    simp only [bind_ok, exists_unit, require_ok] at h
    obtain ⟨rfl, -⟩ := h
    exact ⟨nofun, nofun⟩

theorem consume_mono {used used' : List String} {payload : Option (Entries φ)} (h : consume py used payload = .ok used') :
    ∀ n ∈ used, n ∈ used' := by
  cases payload with
  | none =>
    cases h
    exact fun _ hn ↦ hn
  | some => exact (consumeApproval_ok h).1

theorem install_usedNonces (s : Manager φ) (c : InstallCall φ) :
    (s.install host py secret loads c).2.usedNonces = match checkInstall host py secret loads c with
      | .ok checked => match consume py s.usedNonces checked.payload with
        | .ok used => used
        | .error _ => s.usedNonces
      | .error _ => s.usedNonces := by
  unfold Manager.install
  cases checkInstall host py secret loads c with
  | error => rfl
  | ok checked =>
    dsimp only
    cases consume py s.usedNonces checked.payload with
    | error => rfl
    | ok =>
      dsimp only
      unfold unpack
      cases c.extraction with
      | error => rfl
      | ok =>
        cases item c.plan "planHash" with
        | error | ok => rfl

theorem step_usedNonces (s : Manager φ) (c : Command φ) :
    ∀ n ∈ s.usedNonces, n ∈ (step host py secret loads s c).usedNonces := by
  intro n hn
  cases c with
  | install call =>
    change n ∈ (s.install host py secret loads call).2.usedNonces
    rw [install_usedNonces]
    cases checkInstall host py secret loads call with
    | error => exact hn
    | ok checked =>
      dsimp only
      cases hconsume : consume py s.usedNonces checked.payload with
      | error => exact hn
      | ok => exact consume_mono hconsume n hn
  | activate principal id now =>
    change n ∈ (s.activate py principal id now).2.usedNonces
    unfold Manager.activate
    split <;> exact hn
  | disable principal id now =>
    change n ∈ (s.disable principal id now).2.usedNonces
    unfold Manager.disable
    split
    · exact hn
    · exact hn
    · split <;> exact hn
  | uninstall principal id now =>
    change n ∈ (s.uninstall principal id now).2.usedNonces
    unfold Manager.uninstall
    split <;> exact hn
  | rollback principal id now =>
    change n ∈ (s.rollback principal id now).2.usedNonces
    unfold Manager.rollback
    split <;> exact hn
  | registerPublisher principal publisherId trustLevel now =>
    change n ∈ (s.registerPublisher principal publisherId trustLevel now).2.usedNonces
    unfold registerPublisher
    split
    · exact hn
    · split <;> exact hn
  | revokePublisher principal publisherId now =>
    change n ∈ (s.revokePublisher principal publisherId now).2.usedNonces
    unfold revokePublisher
    split
    · exact hn
    · split <;> exact hn
  | revokePackage principal packageSha256 now =>
    change n ∈ (s.revokePackage principal packageSha256 now).2.usedNonces
    unfold revokePackage
    split <;> exact hn

theorem consumes_passes {nonce : String} {s : Manager φ} {c : Command φ}
    (h : consumes host py secret loads nonce s c = true) :
    nonce ∉ s.usedNonces ∧ nonce ∈ (step host py secret loads s c).usedNonces := by
  cases c with
  | install call =>
    change nonce ∉ s.usedNonces ∧ nonce ∈ (s.install host py secret loads call).2.usedNonces
    rw [install_usedNonces]
    unfold consumes at h
    cases hcheck : checkInstall host py secret loads call with
    | error =>
      simp only [hcheck] at h
      cases h
    | ok checked =>
      simp only [hcheck] at h
      dsimp only
      cases hpayload : checked.payload with
      | none =>
        simp only [hpayload] at h
        cases h
      | some payload =>
        simp only [hpayload, Bool.and_eq_true, decide_eq_true_eq] at h
        cases hconsume : consumeApproval py s.usedNonces payload with
        | error =>
          rw [hconsume] at h
          cases h.2
        | ok =>
          simp only [consume, hconsume]
          exact (consumeApproval_ok hconsume).2 nonce h.1
  | _ => cases h

end Nonces

section Runs

variable {φ : Type}

/-- In every run whose installations present honest plans, every installation is lawful; and in every run, each nonce is
consumed once at most. -/
theorem installed_by_policy (host : Capability.Host) (py : Interpreter φ) (secret : Bytes)
    (loads : Bytes → Option (Value φ)) (externalExecutionEnabled : Bool) (s : Manager φ) (cs : List (Command φ)) :
    (Run.Along (step host py secret loads) (fun _ c ↦ Honestly host py externalExecutionEnabled c) s cs →
      ∀ before call after, cs = before ++ .install call :: after →
        Lawful host py secret loads externalExecutionEnabled (Run.after (step host py secret loads) s before) call) ∧
    ∀ nonce, Run.count (step host py secret loads) (consumes host py secret loads nonce) s cs ≤ 1 := by
  constructor
  · rintro h before call after rfl
    rw [Run.Along.append] at h
    exact Honest.lawful h.2.1 _
  · intro nonce
    have hall : Run.Along (step host py secret loads) (fun _ _ ↦ True) s cs := .of_forall (fun _ _ ↦ trivial) s cs
    refine hall.count_le_one (fun s ↦ decide (nonce ∈ s.usedNonces)) (fun s c _ hused ↦ ?_) fun s c _ hgood ↦ ?_
    · rw [decide_eq_true_eq] at hused ⊢
      exact step_usedNonces s c nonce hused
    · obtain ⟨hfree, hused⟩ := consumes_passes hgood
      exact ⟨decide_eq_false hfree, decide_eq_true hused⟩

end Runs

section Sample

def actuator : Inspection Empty :=
  { versioned "1.0.0" with manifest := .object [("id", .string "org.example.echo"), ("version", .string "1.0.0"),
      ("kind", .string "skill"),
      ("publisher", .object [("id", .string "publisher-1"), ("trustLevel", .string "noesar-official")]),
      ("license", .object [("spdx", .string "MIT")]),
      ("entrypoint", .object [("type", .string "builtin"), ("value", .string "echo")]),
      ("permissions", .array [.string "physical.actuate"])] }

def rewritten (plan : Entries Empty) : Entries Empty :=
  plan.map fun field ↦ if field.1 = "decision" then (field.1, .string "allow") else field

/-- Its installation, with the plan that is made of it, where the word of the policy is replaced. -/
def actuatorInstallation : InstallCall Empty :=
  { installation "1.0.0" with
    verified := .ok actuator
    plan := rewritten (((plan .sample integral 0 administrator (.ok actuator) false).toOption).getD [])
    unpacked := .ok actuator.manifest }

end Sample

theorem actuator_installed : ¬Lawful .sample integral [] (loads integral) false Manager.initial actuatorInstallation := by
  intro h
  obtain ⟨inspected, decision, hverified, hdecision, hallowed, -⟩ := h (by decide +kernel)
  cases hverified
  have hdenied : (evaluatePolicy integral actuator.manifest administrator false).toOption.map PolicyDecision.decision =
      some .deny := by decide +kernel
  rw [show evaluatePolicy integral actuator.manifest administrator false = .ok decision from hdecision] at hdenied
  exact hallowed (Option.some.inj hdenied)

theorem installed_by_policy_installed :
    Lawful .sample integral [] (loads integral) false Manager.initial (installation "1.0.0") ∧
      ∀ nonce, Run.count sampleStep (consumes .sample integral [] (loads integral) nonce) Manager.initial
        (installed "1.0.0") ≤ 1 := by
  have hallowed : (evaluatePolicy integral (versioned "1.0.0").manifest administrator false).toOption.map
      PolicyDecision.decision = some .allow := by decide +kernel
  have hhonest : Honest .sample integral false (installation "1.0.0") := by
    intro inspected hverified
    cases hverified
    change ∃ decision, evaluatePolicy integral (versioned "1.0.0").manifest administrator false = .ok decision ∧ _
    cases hdecision : evaluatePolicy integral (versioned "1.0.0").manifest administrator false with
    | error =>
      rw [hdecision] at hallowed
      cases hallowed
    | ok decision =>
      rw [hdecision] at hallowed
      have hallow : decision.decision = .allow := Option.some.inj hallowed
      exact ⟨decision, rfl, fun h ↦ by simp [hallow] at h, fun h ↦ by simp [hallow] at h⟩
  have hrun := installed_by_policy .sample integral [] (loads integral) false Manager.initial (installed "1.0.0")
  exact ⟨hrun.1 ⟨hhonest, trivial, trivial⟩ [] _ _ rfl, hrun.2⟩

end Noesar.Reference
