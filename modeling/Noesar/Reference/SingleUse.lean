import Noesar.Reference.Tickets

namespace Noesar.Reference

open Lib Lib.Framing Lib.Json NonceStore

section

variable {φ : Type} (host : Capability.Host) (py : Interpreter φ) (secret : Secret)

def Signed (presented body : Dict φ) : Prop :=
  ∃ signature, stringOf (presented.get "signature") = some signature ∧
    Base64.decodeLenient signature.toList = some (mac host py secret body)

/-- The times of a body, and how they stand to the clock. -/
structure Timely (now skew : ℤ) (body : Dict φ) (expiresAt : ℤ) : Prop where
  expiry : intOf (body.get "expiresAt") = some expiresAt
  issue : ∃ issuedAt, intOf (body.get "issuedAt") = some issuedAt ∧ 1 ≤ expiresAt - issuedAt ∧
    expiresAt - issuedAt ≤ 30 ∧ issuedAt ≤ now + skew
  unexpired : now - skew ≤ expiresAt

/-- A ticket that nothing is wrong with, as far as this presentation goes. -/
structure Presentation.Correct (p : Presentation φ) (a : Accepted String (Dict φ)) : Prop where
  body : a.body = p.ticket.without "signature"
  signed : Signed host py secret p.ticket a.body
  schema : stringOf (a.body.get "schemaVersion") = some "1.0"
  kind : stringOf (a.body.get "kind") = some "capability-execution-ticket"
  release : stringOf (a.body.get "release") = some "0.5.0"
  eligible : isTrue (a.body.get "productionEligible") = true
  nonce : stringOf (a.body.get "nonce") = some a.nonce
  long : 16 ≤ a.nonce.length
  timely : Timely p.now p.maxClockSkewSeconds a.body a.expiresAt
  bindings : ∀ b ∈ p.bindings, stringOf (a.body.get b.1) = some b.2

/-- An envelope that nothing is wrong with, as far as this call goes. -/
structure EnvelopeCall.Correct (c : EnvelopeCall φ) (a : Accepted String (Dict φ)) : Prop where
  body : a.body = c.envelope.without "signature"
  signed : Signed host py secret c.envelope a.body
  schema : stringOf (a.body.get "schemaVersion") = some "1.0" ∨ stringOf (a.body.get "schemaVersion") = some "2.0"
  plain : hashable (a.body.get "schemaVersion") = true ∧
    (stringOf (a.body.get "schemaVersion") = some "2.0" → hashable (a.body.get "action") = true)
  action : stringOf (a.body.get "schemaVersion") = some "2.0" → ∃ name ∈ actions, stringOf (a.body.get "action") = some name
  actor : truthy py (a.body.get "actorId") = true
  session : truthy py (a.body.get "sessionId") = true
  nonce : stringOf (a.body.get "nonce") = some a.nonce
  long : 16 ≤ a.nonce.length
  timely : Timely c.now c.maxClockSkewSeconds a.body a.expiresAt
  bindings : ∀ b ∈ c.expectations, ∀ value, b.2 = some value → stringOf (a.body.get b.1) = some value

theorem Presentation.examine_guarded :
    Guarded (Presentation.examine host py secret) (Presentation.Correct host py secret) := by
  intro s p a
  simp only [examine, bind_ok, demand_ok, exists_unit, require_ok, forM_ok]
  constructor
  · rintro ⟨signature, hsignature, ⟨hschema, hkind, hrelease⟩, heligible, nonce, hnonce, hlong, hfresh, issuedAt, hissued,
      expiresAt, hexpires, ⟨hpositive, hlifetime⟩, hpast, hunexpired, supplied, hsupplied, rfl, hbindings, h⟩
    cases h
    exact ⟨⟨rfl, ⟨signature, hsignature, hsupplied⟩, hschema, hkind, hrelease, heligible, hnonce, hlong,
      ⟨hexpires, ⟨issuedAt, hissued, hpositive, hlifetime, hpast⟩, hunexpired⟩, hbindings⟩, hfresh⟩
  · obtain ⟨nonce, expiresAt, body⟩ := a
    rintro ⟨⟨hbody, ⟨signature, hsignature, hsupplied⟩, hschema, hkind, hrelease, heligible, hnonce, hlong,
      ⟨hexpires, ⟨issuedAt, hissued, hpositive, hlifetime, hpast⟩, hunexpired⟩, hbindings⟩, hfresh⟩
    subst hbody
    exact ⟨signature, hsignature, ⟨hschema, hkind, hrelease⟩, heligible, nonce, hnonce, hlong, hfresh, issuedAt, hissued,
      expiresAt, hexpires, ⟨hpositive, hlifetime⟩, hpast, hunexpired, _, hsupplied, rfl, hbindings, rfl⟩

theorem EnvelopeCall.examine_guarded :
    Guarded (EnvelopeCall.examine host py secret) (EnvelopeCall.Correct host py secret) := by
  intro s c a
  simp only [examine, bind_ok, demand_ok, exists_unit, require_ok, forM_ok]
  constructor
  · rintro ⟨signature, hsignature, hplain, hschema, hplain', haction, ⟨hactor, hsession⟩, nonce, hnonce, hlong, issuedAt,
      hissued, expiresAt, hexpires, ⟨hpositive, hlifetime⟩, hpast, hunexpired, hfresh, supplied, hsupplied, rfl, hbindings, h⟩
    cases h
    refine ⟨⟨rfl, ⟨signature, hsignature, hsupplied⟩, hschema, ⟨hplain, hplain'⟩, haction, hactor, hsession, hnonce, hlong,
      ⟨hexpires, ⟨issuedAt, hissued, hpositive, hlifetime, hpast⟩, hunexpired⟩, ?_⟩, hfresh⟩
    intro b hb value hvalue
    have hrequired := hbindings b hb
    rw [hvalue] at hrequired
    simpa using hrequired
  · obtain ⟨nonce, expiresAt, body⟩ := a
    rintro ⟨⟨hbody, ⟨signature, hsignature, hsupplied⟩, hschema, ⟨hplain, hplain'⟩, haction, hactor, hsession, hnonce, hlong,
      ⟨hexpires, ⟨issuedAt, hissued, hpositive, hlifetime, hpast⟩, hunexpired⟩, hbindings⟩, hfresh⟩
    subst hbody
    refine ⟨signature, hsignature, hplain, hschema, hplain', haction, ⟨hactor, hsession⟩, nonce, hnonce, hlong, issuedAt,
      hissued, expiresAt, hexpires, ⟨hpositive, hlifetime⟩, hpast, hunexpired, hfresh, _, hsupplied, rfl, ?_, rfl⟩
    intro b hb
    cases hvalue : b.2 with
    | none => rfl
    | some value => simpa using hbindings b hb value hvalue

end

section

variable {φ : Type} {host : Capability.Host} {py : Interpreter φ} {secret : Secret}

theorem Timely.retained {now skew expiresAt : ℤ} {body : Dict φ} (h : Timely now skew body expiresAt)
    (hskew : skew ≤ nonceRetention) : now ≤ expiresAt + nonceRetention := by
  have hunexpired := h.unexpired
  omega

theorem sign_without {body : Dict φ} (h : body.get "signature" = none) :
    (sign host py secret body).without "signature" = body := Dict.without_put h _ _

variable (host py secret) in
theorem signed_sign {body : Dict φ} (h : body.get "signature" = none) :
    Signed host py secret (sign host py secret body) ((sign host py secret body).without "signature") := by
  rw [sign_without h]
  refine ⟨signatureOf host py secret body, ?_, ?_⟩
  · rw [sign, Dict.get_put, if_pos rfl]
    rfl
  · rw [signatureOf, String.toList_ofList]
    exact Base64.decodeLenient_encode _

theorem issue_ok {i : Issuing} {ticket : Dict φ} : i.issue host py secret = .ok ticket ↔
    (i.authorization.productionEligible = true ∧ i.authorization.evidenceChainVerified = true ∧
      i.authorization.evidenceSha256 = some i.evidence.evidenceSha256 ∧ (1 ≤ i.ttlSeconds ∧ i.ttlSeconds ≤ 30) ∧
      16 ≤ i.chosenNonce.length) ∧ ticket = sign host py secret i.body := by
  simp only [Issuing.issue, bind_ok, exists_unit, require_ok]
  constructor
  · rintro ⟨heligible, hchain, hevidence, httl, hlong, h⟩
    cases h
    exact ⟨⟨heligible, hchain, hevidence, httl, hlong⟩, rfl⟩
  · rintro ⟨⟨heligible, hchain, hevidence, httl, hlong⟩, rfl⟩
    exact ⟨heligible, hchain, hevidence, httl, hlong, rfl⟩

theorem createEnvelope_ok {r : EnvelopeRequest φ} {envelope : Dict φ} : createEnvelope host py secret r = .ok envelope ↔
    (r.action ∈ actions ∧ (r.actorId ≠ "" ∧ r.sessionId ≠ "") ∧ 16 ≤ r.nonce.length ∧
      (1 ≤ r.ttlSeconds ∧ r.ttlSeconds ≤ 30) ∧ ∀ digest ∈ r.planHash, digest.length = 64) ∧
      envelope = sign host py secret r.body := by
  simp only [createEnvelope, bind_ok, exists_unit, require_ok]
  constructor
  · rintro ⟨haction, hids, hlong, httl, hdigest, h⟩
    cases h
    exact ⟨⟨haction, hids, hlong, httl, hdigest⟩, rfl⟩
  · rintro ⟨⟨haction, hids, hlong, httl, hdigest⟩, rfl⟩
    exact ⟨haction, hids, hlong, httl, hdigest, rfl⟩

theorem issued_correct {i : Issuing} {p : Presentation φ} (hissue : i.issue host py secret = .ok p.ticket)
    (hactor : p.expectedActorId = i.authorization.actorId) (hsession : p.expectedSessionId = i.authorization.sessionId)
    (hcapability : p.expectedCapabilityId = i.authorization.capabilityId)
    (hversion : p.expectedCapabilityVersion = i.authorization.capabilityVersion)
    (hplan : p.expectedPlanHash = i.authorization.planHash)
    (hevidence : p.expectedEvidenceSha256 = i.evidence.evidenceSha256)
    (hpast : i.now ≤ p.now + p.maxClockSkewSeconds) (hunexpired : p.now - p.maxClockSkewSeconds ≤ i.now + i.ttlSeconds) :
    p.Correct host py secret ⟨i.chosenNonce, i.now + i.ttlSeconds, i.body⟩ := by
  obtain ⟨⟨_, _, _, httl, hlong⟩, hticket⟩ := issue_ok.mp hissue
  have hnone : (i.body (φ := φ)).get "signature" = none := rfl
  have hbody : i.body = p.ticket.without "signature" := by rw [hticket, sign_without hnone]
  have hsigned : Signed host py secret p.ticket i.body := by
    have h := signed_sign host py secret hnone
    rwa [← hticket, ← hbody] at h
  refine ⟨hbody, hsigned, rfl, rfl, rfl, rfl, rfl, hlong, ⟨rfl, ⟨i.now, rfl, ?_, ?_, hpast⟩, hunexpired⟩, ?_⟩
  · dsimp only
    omega
  · dsimp only
    omega
  · intro b hb
    simp only [Presentation.bindings, List.mem_cons, List.not_mem_nil, or_false] at hb
    rcases hb with rfl | rfl | rfl | rfl | rfl | rfl
    · rw [hactor]; rfl
    · rw [hsession]; rfl
    · rw [hcapability]; rfl
    · rw [hversion]; rfl
    · rw [hplan]; rfl
    · rw [hevidence]; rfl

theorem created_correct {r : EnvelopeRequest φ} {c : EnvelopeCall φ} (hcreate : createEnvelope host py secret r = .ok c.envelope)
    (hactor : ∀ v, c.expectedActorId = some v → v = r.actorId) (hsession : ∀ v, c.expectedSessionId = some v → v = r.sessionId)
    (haction : ∀ v, c.expectedAction = some v → v = r.action)
    (hplan : ∀ v, c.expectedPlanHash = some v → r.planHash = some v)
    (hpast : r.now ≤ c.now + c.maxClockSkewSeconds) (hunexpired : c.now - c.maxClockSkewSeconds ≤ r.now + r.ttlSeconds) :
    c.Correct host py secret ⟨r.nonce, r.now + r.ttlSeconds, r.body⟩ := by
  obtain ⟨⟨hknown, ⟨hid, hid'⟩, hlong, httl, _⟩, henvelope⟩ := createEnvelope_ok.mp hcreate
  have hnone : r.body.get "signature" = none := rfl
  have hbody : r.body = c.envelope.without "signature" := by rw [henvelope, sign_without hnone]
  have hsigned : Signed host py secret c.envelope r.body := by
    have h := signed_sign host py secret hnone
    rwa [← henvelope, ← hbody] at h
  refine ⟨hbody, hsigned, .inr rfl, ⟨rfl, fun _ ↦ rfl⟩, fun _ ↦ ⟨r.action, hknown, rfl⟩, ?_, ?_, rfl, hlong,
    ⟨rfl, ⟨r.now, rfl, ?_, ?_, hpast⟩, hunexpired⟩, ?_⟩
  · change decide (r.actorId ≠ "") = true
    exact decide_eq_true hid
  · change decide (r.sessionId ≠ "") = true
    exact decide_eq_true hid'
  · dsimp only
    omega
  · dsimp only
    omega
  · intro b hb value hvalue
    simp only [EnvelopeCall.expectations, List.mem_cons, List.not_mem_nil, or_false] at hb
    rcases hb with rfl | rfl | rfl | rfl
    · rw [hactor value hvalue]; rfl
    · rw [hsession value hvalue]; rfl
    · rw [haction value hvalue]; rfl
    · change stringOf (some (optional r.planHash)) = some value
      rw [hplan value hvalue]
      rfl

end

section

variable {φ : Type} (host : Capability.Host) (py : Interpreter φ) (secret : Secret)

/-- A signature that verifies is of a body that was signed: one that `issue` signed in the calls before. -/
def Unforged (es : List (Issuing ⊕ Presentation φ)) (p : Presentation φ) : Prop :=
  Signed host py secret p.ticket (p.ticket.without "signature") → ∃ i, .inl i ∈ es ∧
    (i.issue host py secret).isOk = true ∧
    canonicalJson py (i.body (φ := φ)).value = canonicalJson py (p.ticket.without "signature").value

/-- What stands behind a body that is accepted: a call that signed it, for an authorization and an evidence that are
those the presentation expects. -/
structure Backed (es : List (Issuing ⊕ Presentation φ)) (p : Presentation φ) (body : Dict φ) (i : Issuing) : Prop where
  earlier : .inl i ∈ es
  ticket : ∃ ticket, i.issue host py secret = .ok ticket ∧ Same id (ticket.without "signature").value body.value
  eligible : i.authorization.productionEligible = true
  chain : i.authorization.evidenceChainVerified = true
  evidence : i.authorization.evidenceSha256 = some p.expectedEvidenceSha256
  digest : i.evidence.evidenceSha256 = p.expectedEvidenceSha256
  actor : i.authorization.actorId = p.expectedActorId
  session : i.authorization.sessionId = p.expectedSessionId
  capability : i.authorization.capabilityId = p.expectedCapabilityId
  version : i.authorization.capabilityVersion = p.expectedCapabilityVersion
  plan : i.authorization.planHash = p.expectedPlanHash

variable {host py secret}

theorem backed_of_correct {es : List (Issuing ⊕ Presentation φ)} {p : Presentation φ} {a : Accepted String (Dict φ)}
    (hunforged : Unforged host py secret es p) (h : p.Correct host py secret a) : ∃ i, Backed host py secret es p a.body i := by
  obtain ⟨i, hi, hok, hbytes⟩ := hunforged (h.body ▸ h.signed)
  rw [← h.body] at hbytes
  have hsame : Same id (i.body (φ := φ)).value a.body.value :=
    (canonicalJson_eq_iff (Dict.distinct _) a.body.distinct).mp hbytes
  cases hissue : i.issue host py secret with
  | error =>
    rw [hissue] at hok
    cases hok
  | ok =>
    obtain ⟨⟨heligible, hchain, hevidence, _, _⟩, rfl⟩ := issue_ok.mp hissue
    -- a binding that was compared with the body is the one that was signed
    have hbound (field expected : String) (hb : (field, expected) ∈ p.bindings) :
        stringOf ((i.body (φ := φ)).get field) = some expected :=
      (Dict.stringOf_same hsame field).trans (h.bindings _ hb)
    have hdigest : i.evidence.evidenceSha256 = p.expectedEvidenceSha256 :=
      Option.some.inj (hbound "evidenceSha256" _ (by simp [Presentation.bindings]))
    refine ⟨i, hi, ⟨_, hissue, ?_⟩, heligible, hchain, hdigest ▸ hevidence, hdigest, ?_, ?_, ?_, ?_, ?_⟩
    · rw [sign_without rfl]
      exact hsame
    · exact Option.some.inj (hbound "actorId" _ (by simp [Presentation.bindings]))
    · exact Option.some.inj (hbound "sessionId" _ (by simp [Presentation.bindings]))
    · exact Option.some.inj (hbound "capabilityId" _ (by simp [Presentation.bindings]))
    · exact Option.some.inj (hbound "capabilityVersion" _ (by simp [Presentation.bindings]))
    · exact Option.some.inj (hbound "planHash" _ (by simp [Presentation.bindings]))

end

section

variable {φ : Type} (host : Capability.Host) (py : Interpreter φ) (secret : Secret)

abbrev ticketStore : NonceStore String → List (Issuing ⊕ Presentation φ) → NonceStore String :=
  Run.after (step ticketTime (Presentation.examine host py secret) nonceRetention)

end

/-- After any calls, a ticket is accepted exactly when it is correct and its nonce is free: with a set, unless a ticket
with the nonce was accepted before; with a mapping, unless one was whose time has not been over for long, and then it
expires later than all of these. What is accepted was issued for what is expected, and what was issued is correct where
it is presented in its time; a refusal adds no nonce. Envelopes are accepted by the same law. -/
theorem tickets_single_use {φ : Type} (host : Capability.Host) (py : Interpreter φ) (secret : Secret) :
    (∀ (usedNonces : NonceStore String) (es : List (Issuing ⊕ Presentation φ)) (p : Presentation φ),
      (es ++ [Sum.inr p]).Pairwise (fun d e ↦ ticketTime d ≤ ticketTime e) →
      0 ≤ p.maxClockSkewSeconds → p.maxClockSkewSeconds ≤ 120 → Unforged host py secret es p →
      SingleUse ticketTime (Presentation.examine host py secret) nonceRetention (Presentation.Correct host py secret)
        usedNonces es p ∧
      ∀ a, (verifyExecutionTicket host py secret (ticketStore host py secret usedNonces es) p).1 = .ok a →
        ∃ i, Backed host py secret es p a.body i) ∧
    (∀ (i : Issuing) (p : Presentation φ), i.issue host py secret = .ok p.ticket →
      p.bindings = [("actorId", i.authorization.actorId), ("sessionId", i.authorization.sessionId),
        ("capabilityId", i.authorization.capabilityId), ("capabilityVersion", i.authorization.capabilityVersion),
        ("planHash", i.authorization.planHash), ("evidenceSha256", i.evidence.evidenceSha256)] →
      i.now ≤ p.now + p.maxClockSkewSeconds → p.now - p.maxClockSkewSeconds ≤ i.now + i.ttlSeconds →
      p.Correct host py secret ⟨i.chosenNonce, i.now + i.ttlSeconds, i.body⟩) ∧
    ∀ (usedNonces : NonceStore String) (es : List (EnvelopeRequest φ ⊕ EnvelopeCall φ)) (c : EnvelopeCall φ),
      (es ++ [Sum.inr c]).Pairwise (fun d e ↦ envelopeTime d ≤ envelopeTime e) →
      0 ≤ c.maxClockSkewSeconds → c.maxClockSkewSeconds ≤ 120 →
      SingleUse envelopeTime (EnvelopeCall.examine host py secret) nonceRetention (EnvelopeCall.Correct host py secret)
        usedNonces es c := by
  refine ⟨?_, ?_, ?_⟩
  · intro usedNonces es p hclock _ hskew hunforged
    refine ⟨?_, ?_⟩
    · apply singleUse (Presentation.examine_guarded host py secret) hclock
      intro a ha
      exact ha.timely.retained hskew
    · intro a ha
      exact backed_of_correct hunforged ((present_ok (Presentation.examine_guarded host py secret)).mp ha).1
  · intro i p hissue hbindings hpast hunexpired
    simp only [Presentation.bindings, List.cons.injEq, Prod.mk.injEq, true_and, and_true] at hbindings
    obtain ⟨hactor, hsession, hcapability, hversion, hplan, hevidence⟩ := hbindings
    exact issued_correct hissue hactor hsession hcapability hversion hplan hevidence hpast hunexpired
  · intro usedNonces es c hclock _ hskew
    apply singleUse (EnvelopeCall.examine_guarded host py secret) hclock
    intro a ha
    exact ha.timely.retained hskew

section Sample

def secret : Secret := ⟨List.replicate 32 7, Capability.Host.sampleKey_long⟩

def authorization : ExecutionAuthorization where
  capabilityId := "org.example.echo"
  capabilityVersion := "1.0.0"
  actorId := "actor-1"
  sessionId := "session-1"
  planHash := "plan-1"
  sandboxProfile := "restricted-process"
  productionEligible := true
  evidenceChainVerified := true
  evidenceSha256 := some "evidence-1"

def evidence : CapabilityProductionEvidence where
  evidenceSha256 := "evidence-1"
  authorityAttestationSha256 := "authority-1"
  postgresAttestationSha256 := "postgres-1"
  sandboxAttestationSha256 := "sandbox-1"
  policyDecisionSha256 := "policy-1"
  capabilityPackageSha256 := "package-1"
  runtimeReadinessSha256 := "readiness-1"

def issuing (now : ℤ) : Issuing := ⟨authorization, evidence, some "0123456789abcdef", 20, now, "drawn", "ticket-1"⟩

def issuedTicket (now : ℤ) : Dict Empty := sign .sample integral secret (issuing now).body

def presentation (now : ℤ) : Presentation Empty :=
  ⟨issuedTicket now, "actor-1", "session-1", "org.example.echo", "1.0.0", "plan-1", "evidence-1", now, 5⟩

def ticketCalls : List (Issuing ⊕ Presentation Empty) :=
  [.inl (issuing 0), .inr (presentation 0), .inl (issuing 1000), .inr (presentation 1000)]

theorem issuing_ok (now : ℤ) : (issuing now).issue .sample integral secret = .ok (issuedTicket now) := by
  have httl : (1 : ℤ) ≤ 20 ∧ (20 : ℤ) ≤ 30 := by decide
  have hlong : 16 ≤ "0123456789abcdef".length := by decide
  rw [issue_ok]
  exact ⟨⟨rfl, rfl, rfl, httl, hlong⟩, rfl⟩

theorem presentation_correct (now : ℤ) :
    (presentation now).Correct .sample integral secret ⟨"0123456789abcdef", now + 20, (issuing now).body⟩ := by
  have hpast : (issuing now).now ≤ (presentation now).now + (presentation now).maxClockSkewSeconds := by
    change now ≤ now + 5
    omega
  have hunexpired : (presentation now).now - (presentation now).maxClockSkewSeconds ≤
      (issuing now).now + (issuing now).ttlSeconds := by
    change now - 5 ≤ now + 20
    omega
  exact @issued_correct _ _ _ _ (issuing now) (presentation now) (issuing_ok now) rfl rfl rfl rfl rfl rfl hpast hunexpired

abbrev presentTicket :=
  present ticketTime (Presentation.examine .sample integral secret) nonceRetention

theorem presentation_accepted {s : NonceStore String} {now : ℤ} (hfree : ¬s.Holds "0123456789abcdef" now) :
    (presentTicket s (presentation now)).1 = .ok ⟨"0123456789abcdef", now + 20, (issuing now).body⟩ :=
  (present_ok (Presentation.examine_guarded .sample integral secret)).mpr ⟨presentation_correct now, hfree⟩

end Sample

theorem tickets_single_use_fresh :
    (presentation 0).Correct .sample integral secret ⟨"0123456789abcdef", 0 + 20, (issuing 0).body⟩ ∧
      SingleUse ticketTime (Presentation.examine .sample integral secret) nonceRetention
        (Presentation.Correct .sample integral secret) (.mapping .empty) [.inl (issuing 0)] (presentation 0) := by
  obtain ⟨huse, hcorrect, _⟩ := tickets_single_use .sample integral secret
  refine ⟨?_, ?_⟩
  · refine hcorrect (issuing 0) (presentation 0) (issuing_ok 0) rfl ?_ ?_
    · change (0 : ℤ) ≤ 0 + 5
      decide
    · change (0 : ℤ) - 5 ≤ 0 + 20
      decide
  · refine (huse (.mapping .empty) [.inl (issuing 0)] (presentation 0) ?_ ?_ ?_ ?_).1
    · simp [ticketTime, issuing, presentation]
    · change (0 : ℤ) ≤ 5
      decide
    · change (5 : ℤ) ≤ 120
      decide
    · intro _
      refine ⟨issuing 0, by simp, ?_, ?_⟩
      · rw [issuing_ok]
        rfl
      · change _ = canonicalJson integral ((issuedTicket 0).without "signature").value
        rw [issuedTicket, sign_without rfl]

theorem ticket_nonce_accepted_twice :
    ticketCalls.Pairwise (fun d e ↦ ticketTime d ≤ ticketTime e) ∧
      (∀ now, (issuing now).issue .sample integral secret = .ok (presentation now).ticket) ∧
      (accepted ticketTime (Presentation.examine .sample integral secret) nonceRetention (.mapping .empty)
        ticketCalls).map Accepted.nonce = ["0123456789abcdef", "0123456789abcdef"] := by
  refine ⟨?_, issuing_ok, ?_⟩
  · simp [ticketCalls, ticketTime, issuing, presentation]
  · have hempty (now : ℤ) : ¬(NonceStore.mapping .empty).Holds "0123456789abcdef" now := by
      rintro ⟨t, ht, _⟩
      cases ht
    have hfirst := presentation_accepted (hempty 0)
    have hstore : (presentTicket (.mapping .empty) (presentation 0)).2 =
        ((NonceStore.mapping .empty).prune 0).use "0123456789abcdef" 140 := by
      rw [present_store, hfirst]
      rfl
    have hfree : ¬(presentTicket (.mapping .empty) (presentation 0)).2.Holds "0123456789abcdef" 1000 := by
      rw [hstore, holds_use]
      rintro (⟨_, hlater⟩ | ⟨hne, _⟩)
      · have hle : (1000 : ℤ) ≤ 140 := hlater trivial
        omega
      · exact hne rfl
    have hsecond := presentation_accepted hfree
    rw [ticketCalls, accepted_inl, accepted_inr, hfirst, accepted_inl, accepted_inr, hsecond]
    rfl

end Noesar.Reference
