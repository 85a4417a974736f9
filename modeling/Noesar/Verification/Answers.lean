import Noesar.Verification.Soundness

namespace Noesar.Verification

open Lib Lib.Utf16 Shadow
open Author (text text_injective)

variable {ν β : Type} {rt : Runtime ν β} {disk : Disk} {shadow : DiskShadow disk} {members : Members ν}

theorem mem_map_text {name : String} {names : List String} : text name ∈ names.map text ↔ name ∈ names :=
  List.mem_map_of_injective text_injective

section OneClaim

variable (rt shadow) in
def Answered (claim : Json Units ν) : Prop :=
  ∃ r, verifyClaim rt disk shadow.root claim = .ok r ∧ r.claim = claim ∧ Warranted rt shadow claim r.verdict

variable {claim : Json Units ν} {verdict : Verdict ν} {type : Units}

theorem answered_of_verdict (h : verifyClaim rt disk shadow.root claim = .ok ⟨claim, verdict⟩) :
    Answered rt shadow claim ↔ Warranted rt shadow claim verdict := by
  constructor
  · rintro ⟨r, hr, -, hwarranted⟩
    cases h.symm.trans hr
    exact hwarranted
  · intro hwarranted
    exact ⟨_, h, rfl, hwarranted⟩

theorem warranted_of_unrecomputed (h : verdict.recomputed ≠ some (.bool true)) :
    Warranted rt shadow claim verdict := fun hrecomputed ↦ absurd hrecomputed h

theorem answered_of_untyped
    (h : ∀ members type, claim = .object members → member members "type" ≠ some (.string type)) :
    Answered rt shadow claim := by
  have hverify : verifyClaim rt disk shadow.root claim = .ok ⟨claim, unrecomputed (text "claim has no `type`")⟩ := by
    unfold verifyClaim
    split
    next members =>
      split
      next type htype => exact absurd htype (h members type rfl)
      next => rfl
    next => rfl
  exact (answered_of_verdict hverify).mpr (warranted_of_unrecomputed nofun)

theorem verifyClaim_of_verifier {outcome : Except Thrown (Verdict ν)}
    (htype : member members "type" = some (.string type))
    (h : claimVerifier rt disk shadow.root members type = some outcome) :
    verifyClaim rt disk shadow.root (.object members) = outcome.map (⟨.object members, ·⟩) := by
  unfold verifyClaim
  simp only [htype, h]

theorem answered_of_verifier {type : String} {outcome : Except Thrown (Verdict ν)}
    (htype : member members "type" = some (.string (text type))) (hsupported : type ∈ supportedClaimTypes)
    (h : claimVerifier rt disk shadow.root members (text type) = some outcome) :
    Answered rt shadow (.object members) ↔ Good outcome (Holds rt shadow members type) := by
  have hverify := verifyClaim_of_verifier htype h
  cases outcome with
  | error =>
    refine iff_of_false ?_ good_error
    rintro ⟨r, hr, -⟩
    cases hverify.symm.trans hr
  | ok =>
    rw [answered_of_verdict hverify, good_ok]
    constructor
    · intro hwarranted hrecomputed hmatch
      obtain ⟨members', type', hmembers, htype', -, hholds⟩ := hwarranted hrecomputed
      cases hmembers
      rw [htype] at htype'
      cases text_injective (by simpa using htype')
      exact hholds hmatch
    · intro hgood hrecomputed
      exact ⟨members, type, rfl, htype, hsupported, hgood hrecomputed⟩

theorem answered_of_other (htype : member members "type" = some (.string type))
    (hother : type ∉ supportedClaimTypes.map text)
    (h : verifyClaim rt disk shadow.root (.object members) = .ok ⟨.object members, verdict⟩) :
    Answered rt shadow (.object members) ↔ verdict.recomputed ≠ some (.bool true) := by
  rw [answered_of_verdict h]
  refine ⟨fun hwarranted hrecomputed ↦ ?_, warranted_of_unrecomputed⟩
  obtain ⟨members', type', hmembers, htype', hsupported, -⟩ := hwarranted hrecomputed
  cases hmembers
  cases htype.symm.trans htype'
  exact hother (mem_map_text.mpr hsupported)

theorem sturdy_of_other (hother : type ∉ supportedClaimTypes.map text) :
    Sturdy rt shadow members type ↔
      type ∉ inheritedNames.map text ∧ (type = text "constructor" → member members "recomputed" ≠ some (.bool true)) := by
  have hne : ∀ name ∈ supportedClaimTypes, type ≠ text name := by
    intro name hname htype
    exact hother (htype ▸ mem_map_text.mpr hname)
  constructor
  · intro h
    exact ⟨h.called, h.forged⟩
  · rintro ⟨hcalled, hforged⟩
    exact ⟨hcalled, hforged, fun h ↦ absurd h (hne _ (by decide)), fun h ↦ absurd h (hne _ (by decide)),
      fun h ↦ absurd h (hne _ (by decide)), fun h ↦ absurd h (hne _ (by decide)), fun h ↦ absurd h (hne _ (by decide))⟩

theorem answered_iff_of_other (htype : member members "type" = some (.string type))
    (hother : type ∉ supportedClaimTypes.map text) :
    Answered rt shadow (.object members) ↔ Sturdy rt shadow members type := by
  rw [sturdy_of_other hother]
  have hne : ∀ name ∈ supportedClaimTypes, type ≠ text name := by
    intro name hname htype
    exact hother (htype ▸ mem_map_text.mpr hname)
  have hverifier : claimVerifier rt disk shadow.root members type =
      if type = text "behavioural" then some behavioural
      else if type = text "constructor" then
        some (.ok ⟨member members "recomputed", member members "matches", member members "reason"⟩)
      else if type = text "toString" then some (.ok ⟨none, none, none⟩)
      else if type ∈ inheritedNames.map text then some (.error .typeError)
      else none := by
    rw [claimVerifier, if_neg (hne _ (by decide)), if_neg (hne _ (by decide)), if_neg (hne _ (by decide)),
      if_neg (hne _ (by decide)), if_neg (hne _ (by decide)), if_neg (hne _ (by decide))]
  by_cases hinherited : type ∈ inheritedNames.map text
  · refine iff_of_false ?_ fun h ↦ h.1 hinherited
    have hcalled : ∀ name ∉ inheritedNames, type ≠ text name := by
      rintro name hname rfl
      exact hname (mem_map_text.mp hinherited)
    rw [if_neg (hcalled _ (by decide)), if_neg (hcalled _ (by decide)), if_neg (hcalled _ (by decide)),
      if_pos hinherited] at hverifier
    rintro ⟨r, hr, -⟩
    cases (verifyClaim_of_verifier htype hverifier).symm.trans hr
  rw [if_neg hinherited] at hverifier
  split_ifs at hverifier with hbehavioural hconstructor htoString
  · rw [answered_of_other htype hother (verifyClaim_of_verifier htype hverifier)]
    refine iff_of_true nofun ⟨hinherited, fun h ↦ absurd (text_injective (hbehavioural.symm.trans h)) (by decide)⟩
  · rw [answered_of_other htype hother (verifyClaim_of_verifier htype hverifier)]
    exact ⟨fun h ↦ ⟨hinherited, fun _ ↦ h⟩, fun h ↦ h.2 hconstructor⟩
  · rw [answered_of_other htype hother (verifyClaim_of_verifier htype hverifier)]
    refine iff_of_true nofun ⟨hinherited, fun h ↦ absurd (text_injective (htoString.symm.trans h)) (by decide)⟩
  · have hverify : verifyClaim rt disk shadow.root (.object members) =
        .ok ⟨.object members, unrecomputed (unsupported type)⟩ := by
      unfold verifyClaim
      simp only [htype, hverifier]
    rw [answered_of_other htype hother hverify]
    exact iff_of_true nofun ⟨hinherited, fun h ↦ absurd h hconstructor⟩

theorem answered_iff (htype : member members "type" = some (.string type)) :
    Answered rt shadow (.object members) ↔ Sturdy rt shadow members type := by
  by_cases hsupported : type ∈ supportedClaimTypes.map text
  · obtain ⟨name, hname, rfl⟩ := List.mem_map.mp hsupported
    have hsame {name name' : String} : text name = text name' ↔ name = name' := text_injective.eq_iff
    rw [sturdy_iff, mem_map_text]
    -- each of the other types has nothing to say of the one at hand
    rcases (by simpa [supportedClaimTypes] using hname : name = "file_exists" ∨ name = "file_absent" ∨ name = "file_equals" ∨
      name = "file_contains" ∨ name = "file_hash_equals" ∨ name = "json_field_equals") with
      rfl | rfl | rfl | rfl | rfl | rfl
    · have hverifier : claimVerifier rt disk shadow.root members (text "file_exists") =
          some (fileExists rt disk shadow.root members) := by simp [claimVerifier]
      rw [answered_of_verifier htype hname hverifier, holds_iff]
      simpa [hsame, inheritedNames] using fileExists_good
    · have hverifier : claimVerifier rt disk shadow.root members (text "file_absent") =
          some (fileAbsent rt disk shadow.root members) := by simp [claimVerifier, hsame]
      rw [answered_of_verifier htype hname hverifier, holds_iff]
      simpa [hsame, inheritedNames] using fileAbsent_good
    · have hverifier : claimVerifier rt disk shadow.root members (text "file_equals") =
          some (fileEquals rt disk shadow.root members) := by simp [claimVerifier, hsame]
      rw [answered_of_verifier htype hname hverifier, holds_iff]
      simpa [hsame, inheritedNames] using fileEquals_good
    · have hverifier : claimVerifier rt disk shadow.root members (text "file_contains") =
          some (fileContains rt disk shadow.root members) := by simp [claimVerifier, hsame]
      rw [answered_of_verifier htype hname hverifier, holds_iff]
      simpa [hsame, inheritedNames] using fileContains_good
    · have hverifier : claimVerifier rt disk shadow.root members (text "file_hash_equals") =
          some (fileHashEquals rt disk shadow.root members) := by simp [claimVerifier, hsame]
      rw [answered_of_verifier htype hname hverifier, holds_iff]
      simpa [hsame, inheritedNames] using fileHashEquals_good
    · have hverifier : claimVerifier rt disk shadow.root members (text "json_field_equals") =
          some (jsonFieldEquals rt disk shadow.root members) := by simp [claimVerifier, hsame]
      rw [answered_of_verifier htype hname hverifier, holds_iff]
      simpa [hsame, inheritedNames] using jsonFieldEquals_good
  · exact answered_iff_of_other htype hsupported

end OneClaim

section Runs

theorem verifyClaims_iff {claims : List (Json Units ν)} :
    (∃ results, verifyClaims rt disk shadow.root claims = .ok results ∧
      List.Forall₂ (fun claim r ↦ r.claim = claim ∧ Warranted rt shadow claim r.verdict) claims results) ↔
    ∀ claim ∈ claims, Answered rt shadow claim := by
  induction claims with
  | nil => exact iff_of_true ⟨[], rfl, .nil⟩ nofun
  | cons claim claims ih =>
    rw [List.forall_mem_cons, ← ih]
    constructor
    · rintro ⟨results, hresults, hanswers⟩
      cases hanswers with
      | @cons _ r _ rest hanswer hrest =>
        obtain ⟨hclaim, hclaims⟩ := List.forall₂_cons.mp (mapM_ok_iff.mp hresults)
        exact ⟨⟨r, hclaim, hanswer⟩, rest, mapM_ok_iff.mpr hclaims, hrest⟩
    · rintro ⟨⟨r, hclaim, hanswer⟩, rest, hclaims, hrest⟩
      exact ⟨r :: rest, mapM_ok_iff.mpr (.cons hclaim (mapM_ok_iff.mp hclaims)), .cons hanswer hrest⟩

theorem partitioned_projectionCoverage (results : List (Result ν)) :
    Partitioned rt results (projectionCoverage rt results) := by
  refine ⟨results.filter fun r ↦ truthy rt r.verdict.recomputed && truthy rt r.verdict.isMatch,
    results.filter fun r ↦ truthy rt r.verdict.recomputed && !truthy rt r.verdict.isMatch,
    results.filter fun r ↦ !truthy rt r.verdict.recomputed, ?_, ?_, ?_, ?_, rfl, rfl, rfl, rfl⟩
  · have hrecomputed := List.filter_append_perm (fun r : Result ν ↦ truthy rt r.verdict.isMatch)
      (results.filter fun r ↦ truthy rt r.verdict.recomputed)
    rw [List.filter_filter, List.filter_filter] at hrecomputed
    have hall := (hrecomputed.append_right _).trans
      (List.filter_append_perm (fun r : Result ν ↦ truthy rt r.verdict.recomputed) results)
    simpa only [Bool.and_comm] using hall
  · intro r hr
    simpa using (List.mem_filter.mp hr).2
  · intro r hr
    simpa using (List.mem_filter.mp hr).2
  · intro r hr
    simpa using (List.mem_filter.mp hr).2

theorem verified_iff_sturdy (claims : List (Json Units ν)) :
    Verified rt shadow claims ↔ ∀ claim ∈ claims, ∀ members type, claim = .object members →
      member members "type" = some (.string type) → Sturdy rt shadow members type := by
  have hverified : Verified rt shadow claims ↔ ∀ claim ∈ claims, Answered rt shadow claim := by
    rw [← verifyClaims_iff]
    constructor
    · rintro ⟨results, hresults, hanswers, -⟩
      exact ⟨results, hresults, hanswers⟩
    · rintro ⟨results, hresults, hanswers⟩
      exact ⟨results, hresults, hanswers, partitioned_projectionCoverage results⟩
  rw [hverified]
  refine forall₂_congr fun claim _ ↦ ?_
  constructor
  · rintro hanswered members type rfl htype
    exact (answered_iff htype).mp hanswered
  · intro hsturdy
    by_cases htyped : ∃ members type, claim = .object members ∧ member members "type" = some (.string type)
    · obtain ⟨members, type, rfl, htype⟩ := htyped
      exact (answered_iff htype).mpr (hsturdy members type rfl htype)
    · exact answered_of_untyped fun members type hclaim htype ↦ htyped ⟨members, type, hclaim, htype⟩

end Runs

section Counterexample

def plainRuntime : Runtime ℕ Empty where
  read := fun cs ↦ (String.ofList cs).toNat?
  same := fun n m ↦ n = m
  truthy := fun n ↦ n ≠ 0
  ofNat := id
  numberText := fun n ↦ text n.repr
  sha256 := fun _ ↦ text "0"
  inherited := fun _ _ ↦ .ok .undefined
  property := fun b _ ↦ b.elim
  stringify := fun _ ↦ []
  fsMessage := fun _ ↦ text "EISDIR"

def forged : Json Units ℕ :=
  .object [(text "type", .string (text "constructor")), (text "recomputed", .bool true), (text "matches", .bool true)]

theorem forged_believed : ¬Verified plainRuntime sampleShadow [forged] := by
  rintro ⟨results, hresults, hanswers, -⟩
  have hforged : verifyClaims plainRuntime sampleDisk sampleShadow.root [forged] =
      .ok [⟨forged, some (.bool true), some (.bool true), none⟩] := rfl
  cases hforged.symm.trans hresults
  cases hanswers with
  | cons hanswer =>
    obtain ⟨members, type, hmembers, htype, hsupported, -⟩ := hanswer.2 rfl
    cases hmembers
    have hconstructor : text "constructor" = text type := by
      have hsome : some (Json.string (text "constructor")) = some (Json.string (ν := ℕ) (text type)) := htype
      simpa using hsome
    cases text_injective hconstructor
    exact absurd hsupported (by decide)

end Counterexample

end Noesar.Verification
