import Noesar.Authority.Envelope
import Noesar.Lib.Number

namespace Noesar.Authority.Rust

open Lib Lib.Framing Canonical

section

variable (m : Arithmetic)

/-- `validate_body` in the arithmetic of a build. There is no answer where the build panics. -/
def validateBodyIn (body : AuthorityEnvelopeBody) : Option (Except String Unit) :=
  if body.schemaVersion ≠ "1.1" then some (.error "unsupported schema version")
  else if body.actorId = "" ∨ body.sessionId = "" then some (.error "actor and session are required")
  else if body.action ∉ actions then some (.error "unsupported authority action")
  else if (utf8 body.nonce).length < 16 then some (.error "nonce is too short")
  else (m.sub body.expiresAt body.issuedAt).map fun lifetime ↦
    if ¬(1 ≤ lifetime ∧ lifetime ≤ 30) then .error "invalid authority envelope lifetime"
    else .ok ()

variable (host : Capability.Host)

/-- What `verify` checks once the times are in order. -/
def AuthorityVerifier.examineRest (v : AuthorityVerifier) (envelope : AuthorityEnvelope) (bindings : ExpectedBindings) :
    Except String Unit := do
  require (envelope.body.nonce ∉ v.usedNonces) "authority envelope replay detected"
  checkSignature host v.secret envelope
  checkBindings envelope.body bindings

/-- The two ends of the window, each computed only where the checks before it are passed. -/
def AuthorityVerifier.examineWindow (v : AuthorityVerifier) (envelope : AuthorityEnvelope) (nowSeconds : Int64)
    (bindings : ExpectedBindings) : Option (Except String Unit) :=
  (m.add nowSeconds v.maxClockSkewSeconds).bind fun latest ↦
    if latest < envelope.body.issuedAt.toInt then some (.error "authority envelope is from the future")
    else (m.sub nowSeconds v.maxClockSkewSeconds).map fun earliest ↦
      if envelope.body.expiresAt.toInt < earliest then .error "authority envelope expired"
      else v.examineRest host envelope bindings

def AuthorityVerifier.examineIn (v : AuthorityVerifier) (envelope : AuthorityEnvelope) (nowSeconds : Int64)
    (bindings : ExpectedBindings) : Option (Except String Unit) :=
  (validateBodyIn m envelope.body).bind fun
    | .error message => some (.error message)
    | .ok () => v.examineWindow m host envelope nowSeconds bindings

/-- What `verify` returns, and the verifier it leaves. -/
def AuthorityVerifier.verifyIn (v : AuthorityVerifier) (envelope : AuthorityEnvelope) (nowSeconds : Int64)
    (bindings : ExpectedBindings) : Option (Except String Unit × AuthorityVerifier) :=
  (v.examineIn m host envelope nowSeconds bindings).map fun
    | .error message => (.error message, v)
    | .ok () => (.ok (), { v with usedNonces := insert envelope.body.nonce v.usedNonces })

end

def FieldsPass (body : AuthorityEnvelopeBody) : Prop :=
  body.schemaVersion = "1.1" ∧ ¬(body.actorId = "" ∨ body.sessionId = "") ∧ body.action ∈ actions ∧
    16 ≤ (utf8 body.nonce).length

def lifetime (body : AuthorityEnvelopeBody) : ℤ := body.expiresAt.toInt - body.issuedAt.toInt

/-- Every sum and difference that is computed can be held. -/
structure WithinRange (v : AuthorityVerifier) (body : AuthorityEnvelopeBody) (nowSeconds : Int64) : Prop where
  lifetime : Fits (lifetime body)
  latest : 1 ≤ Rust.lifetime body → Rust.lifetime body ≤ 30 → Fits (nowSeconds.toInt + v.maxClockSkewSeconds.toInt)
  earliest : 1 ≤ Rust.lifetime body → Rust.lifetime body ≤ 30 →
    body.issuedAt.toInt ≤ nowSeconds.toInt + v.maxClockSkewSeconds.toInt →
    Fits (nowSeconds.toInt - v.maxClockSkewSeconds.toInt)

section

variable (host : Capability.Host) (v : AuthorityVerifier) (envelope : AuthorityEnvelope) (nowSeconds : Int64)
  (bindings : ExpectedBindings)

/-- A build with overflow checks does not panic, and with them or without them the answer is the one
that integers without bounds give. -/
structure TimesExact : Prop where
  checked : v.verifyIn .trapping host envelope nowSeconds bindings = v.verifyIn .unbounded host envelope nowSeconds bindings
  unchecked : some (v.verify host envelope nowSeconds bindings) = v.verifyIn .unbounded host envelope nowSeconds bindings

/-- An answer of `verify` and the verifier it leaves. -/
def AuthorityVerifier.record (answer : Except String Unit) : Except String Unit × AuthorityVerifier :=
  match answer with
  | .error message => (.error message, v)
  | .ok () => (.ok (), { v with usedNonces := insert envelope.body.nonce v.usedNonces })

variable {host v envelope nowSeconds bindings}

theorem verifyIn_eq (m : Arithmetic) :
    v.verifyIn m host envelope nowSeconds bindings = (v.examineIn m host envelope nowSeconds bindings).map (v.record envelope) := rfl

theorem verify_eq : v.verify host envelope nowSeconds bindings = v.record envelope (v.examine host envelope nowSeconds bindings) := rfl

variable {body : AuthorityEnvelopeBody}

theorem validateBodyIn_refused (h : ¬FieldsPass body) :
    ∃ message, validateBody body = .error message ∧ ∀ m, validateBodyIn m body = some (.error message) := by
  unfold validateBody validateBodyIn
  split
  · exact ⟨_, rfl, fun _ ↦ rfl⟩
  split
  · exact ⟨_, rfl, fun _ ↦ rfl⟩
  split
  · exact ⟨_, rfl, fun _ ↦ rfl⟩
  split
  · exact ⟨_, rfl, fun _ ↦ rfl⟩
  · rename_i hversion hnames haction hnonce
    exact absurd ⟨not_not.mp hversion, hnames, not_not.mp haction, not_lt.mp hnonce⟩ h

theorem validateBodyIn_passed (m : Arithmetic) (h : FieldsPass body) :
    validateBodyIn m body = (m.sub body.expiresAt body.issuedAt).map fun lifetime ↦
      if ¬(1 ≤ lifetime ∧ lifetime ≤ 30) then .error "invalid authority envelope lifetime" else .ok () := by
  obtain ⟨hversion, hnames, haction, hnonce⟩ := h
  rw [validateBodyIn, if_neg (not_not.mpr hversion), if_neg hnames, if_neg (not_not.mpr haction), if_neg (not_lt.mpr hnonce)]

theorem validateBody_passed (h : FieldsPass body) :
    validateBody body = if ¬(1 ≤ (body.expiresAt - body.issuedAt).toInt ∧ (body.expiresAt - body.issuedAt).toInt ≤ 30) then
      .error "invalid authority envelope lifetime" else .ok () := by
  obtain ⟨hversion, hnames, haction, hnonce⟩ := h
  rw [validateBody, if_neg (not_not.mpr hversion), if_neg hnames, if_neg (not_not.mpr haction), if_neg (not_lt.mpr hnonce)]
  simp only [Int64.le_iff_toInt_le]
  rfl

theorem examineIn_refused (h : ¬FieldsPass envelope.body) : ∃ message,
    v.examine host envelope nowSeconds bindings = .error message ∧
      ∀ m, v.examineIn m host envelope nowSeconds bindings = some (.error message) := by
  obtain ⟨message, hwrapped, hbuilds⟩ := validateBodyIn_refused h
  refine ⟨message, ?_, fun m ↦ ?_⟩
  · rw [AuthorityVerifier.examine, hwrapped]
    rfl
  · rw [AuthorityVerifier.examineIn, hbuilds]
    rfl

theorem examineIn_wrapping :
    v.examineIn .wrapping host envelope nowSeconds bindings = some (v.examine host envelope nowSeconds bindings) := by
  by_cases hfields : FieldsPass envelope.body
  · rw [AuthorityVerifier.examineIn, AuthorityVerifier.examine, validateBodyIn_passed _ hfields, validateBody_passed hfields]
    simp only [Arithmetic.wrapping, Option.map_some, Option.bind_some]
    by_cases hlife : 1 ≤ (envelope.body.expiresAt - envelope.body.issuedAt).toInt ∧
        (envelope.body.expiresAt - envelope.body.issuedAt).toInt ≤ 30
    · rw [if_neg (not_not.mpr hlife)]
      simp only [AuthorityVerifier.examineWindow, Option.bind_some, Option.map_some, bind, Except.bind, require,
        Int64.le_iff_toInt_le]
      by_cases hlatest : envelope.body.issuedAt.toInt ≤ (nowSeconds + v.maxClockSkewSeconds).toInt
      · rw [if_neg (not_lt.mpr hlatest), if_pos hlatest]
        by_cases hearliest : (nowSeconds - v.maxClockSkewSeconds).toInt ≤ envelope.body.expiresAt.toInt
        · rw [if_neg (not_lt.mpr hearliest), if_pos hearliest]
          rfl
        · rw [if_pos (not_le.mp hearliest), if_neg hearliest]
      · rw [if_pos (not_le.mp hlatest), if_neg hlatest]
    · rw [if_pos hlife]
      rfl
  · obtain ⟨message, hwrapped, hbuilds⟩ := @examineIn_refused host v envelope nowSeconds bindings hfields
    rw [hwrapped, hbuilds]

theorem examineWindow_faithful {m : Arithmetic} (hm : m.Faithful)
    (hlatest : Fits (nowSeconds.toInt + v.maxClockSkewSeconds.toInt))
    (hearliest : envelope.body.issuedAt.toInt ≤ nowSeconds.toInt + v.maxClockSkewSeconds.toInt →
      Fits (nowSeconds.toInt - v.maxClockSkewSeconds.toInt)) :
    v.examineWindow m host envelope nowSeconds bindings = v.examineWindow .unbounded host envelope nowSeconds bindings := by
  have hunbounded : Arithmetic.unbounded.add nowSeconds v.maxClockSkewSeconds =
      some (nowSeconds.toInt + v.maxClockSkewSeconds.toInt) := rfl
  simp only [AuthorityVerifier.examineWindow, hm.add _ _ hlatest, hunbounded, Option.bind_some]
  split
  · rfl
  · rename_i hissued
    rw [hm.sub _ _ (hearliest (not_lt.mp hissued))]

theorem examineIn_faithful {m : Arithmetic} (hm : m.Faithful)
    (h : FieldsPass envelope.body → WithinRange v envelope.body nowSeconds) :
    v.examineIn m host envelope nowSeconds bindings = v.examineIn .unbounded host envelope nowSeconds bindings := by
  by_cases hfields : FieldsPass envelope.body
  · have hrange := h hfields
    have hunbounded : Arithmetic.unbounded.sub envelope.body.expiresAt envelope.body.issuedAt =
        some (lifetime envelope.body) := rfl
    rw [AuthorityVerifier.examineIn, AuthorityVerifier.examineIn, validateBodyIn_passed _ hfields,
      validateBodyIn_passed _ hfields, hm.sub _ _ hrange.lifetime, hunbounded, Option.map_some, Option.bind_some, Option.bind_some]
    by_cases hlife : 1 ≤ lifetime envelope.body ∧ lifetime envelope.body ≤ 30
    · rw [if_neg (not_not.mpr hlife)]
      exact examineWindow_faithful hm (hrange.latest hlife.1 hlife.2) (hrange.earliest hlife.1 hlife.2)
    · rw [if_pos hlife]
  · obtain ⟨message, -, hbuilds⟩ := @examineIn_refused host v envelope nowSeconds bindings hfields
    rw [hbuilds, hbuilds]

theorem fits_of_sub {a b : Int64} {n : ℤ} (h : Arithmetic.trapping.sub a b = some n) : Fits (a.toInt - b.toInt) := by
  by_contra hfits
  rw [Arithmetic.trapping_sub_none hfits] at h
  cases h

theorem fits_of_add {a b : Int64} {n : ℤ} (h : Arithmetic.trapping.add a b = some n) : Fits (a.toInt + b.toInt) := by
  by_contra hfits
  rw [Arithmetic.trapping_add_none hfits] at h
  cases h

theorem withinRange_of_answer (hfields : FieldsPass envelope.body) {answer : Except String Unit}
    (h : v.examineIn .trapping host envelope nowSeconds bindings = some answer) : WithinRange v envelope.body nowSeconds := by
  rw [AuthorityVerifier.examineIn, validateBodyIn_passed _ hfields, Option.bind_eq_some_iff] at h
  obtain ⟨checked, hchecked, hwindow⟩ := h
  obtain ⟨n, hsub, hn⟩ := Option.map_eq_some_iff.mp hchecked
  have hlifetime := fits_of_sub hsub
  have hvalue : n = lifetime envelope.body := by
    rw [Arithmetic.faithful_trapping.sub _ _ hlifetime] at hsub
    exact (Option.some.inj hsub).symm
  subst hvalue
  refine ⟨hlifetime, ?_, ?_⟩
  · intro hlow hhigh
    rw [if_neg (not_not.mpr ⟨hlow, hhigh⟩)] at hn
    subst hn
    obtain ⟨latest, hadd, -⟩ := Option.bind_eq_some_iff.mp hwindow
    exact fits_of_add hadd
  · intro hlow hhigh hissued
    rw [if_neg (not_not.mpr ⟨hlow, hhigh⟩)] at hn
    subst hn
    obtain ⟨latest, hadd, hrest⟩ := Option.bind_eq_some_iff.mp hwindow
    have hlatest : latest = nowSeconds.toInt + v.maxClockSkewSeconds.toInt := by
      rw [Arithmetic.faithful_trapping.add _ _ (fits_of_add hadd)] at hadd
      exact (Option.some.inj hadd).symm
    rw [if_neg (by omega)] at hrest
    obtain ⟨earliest, hsub, -⟩ := Option.map_eq_some_iff.mp hrest
    exact fits_of_sub hsub

end

/-- The answer is there and is the right one exactly if, unless a check before the lifetime fails, the
lifetime can be held, and the two ends of the window can where they are computed. -/
theorem times_exact_iff (host : Capability.Host) (v : AuthorityVerifier) (envelope : AuthorityEnvelope) (nowSeconds : Int64)
    (bindings : ExpectedBindings) : TimesExact host v envelope nowSeconds bindings ↔
      (FieldsPass envelope.body → WithinRange v envelope.body nowSeconds) := by
  constructor
  · intro h hfields
    have hchecked := h.checked
    have hunchecked := h.unchecked
    rw [verifyIn_eq] at hchecked
    rw [← hunchecked] at hchecked
    obtain ⟨answer, hanswer, -⟩ := Option.map_eq_some_iff.mp hchecked
    exact withinRange_of_answer hfields hanswer
  · intro h
    constructor
    · rw [verifyIn_eq, verifyIn_eq, examineIn_faithful Arithmetic.faithful_trapping h]
    · rw [verifyIn_eq, verify_eq, ← examineIn_faithful Arithmetic.faithful_wrapping h, examineIn_wrapping]
      rfl

def endless : AuthorityEnvelope where
  body := ⟨"1.1", "alice", "session", "authority.health", .null, "0123456789abcdef", 1, Int64.minValue⟩
  signature := ""

theorem endless_panics : ¬TimesExact .sample ⟨List.replicate 32 7, ∅, 5⟩ endless 1800000000 ⟨none, none, none⟩ := by
  intro h
  have hchecked := h.checked
  rw [← h.unchecked, verifyIn_eq, AuthorityVerifier.examineIn] at hchecked
  have hpanic : validateBodyIn .trapping endless.body = none := by decide +kernel
  rw [hpanic] at hchecked
  cases hchecked

end Noesar.Authority.Rust
