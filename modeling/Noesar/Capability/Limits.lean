import Noesar.Capability.Format
import Noesar.Capability.Ids
import Noesar.Lib.Fallible

namespace Noesar.Capability

open Lib Lib.Framing

namespace Isolation

section

variable {host : Host} {members : List (String × RawLimit)} {limits : Limits} {granted : Option Limits}
  {ceiling : Option Limits}

def declares : Option RawLimits → Dimension → Bool
  | some (.object members), d => member members d.name ≠ .null
  | _, _ => false

theorem parseDimension_ok {d : Dimension} {value : Option ℕ} (h : parseDimension host members d = .ok value) :
    value = none ↔ member members d.name = .null := by
  unfold parseDimension at h
  split at h
  next hnull =>
    cases h
    simp [hnull]
  · cases h
  next n hnumber =>
    split at h
    · cases h
    · split at h
      · cases h
      · cases h
        simp [hnumber]

theorem parseDimensions_ok {dimensions : List Dimension} (h : parseDimensions host members dimensions = .ok limits)
    {d : Dimension} (hd : d ∈ dimensions) : limits d = none ↔ member members d.name = .null := by
  induction dimensions generalizing limits with
  | nil => cases hd
  | cons dimension rest ih =>
    simp only [parseDimensions, bind_ok] at h
    obtain ⟨value, hvalue, others, hothers, h⟩ := h
    cases h
    by_cases heq : d = dimension
    · subst heq
      dsimp only
      rw [if_pos rfl]
      exact parseDimension_ok hvalue
    · dsimp only
      rw [if_neg heq]
      exact ih hothers (List.mem_of_ne_of_mem heq hd)

theorem mem_all (d : Dimension) : d ∈ Dimension.all := by
  cases d <;> decide

theorem parseLimits_ok {declared : Option RawLimits} (h : parseLimits host declared = .ok granted) :
    (granted = none ∧ declared = none) ∨
      ∃ grant, granted = some grant ∧ (∀ d, declares declared d = (grant d).isSome) ∧ ∃ d, (grant d).isSome = true := by
  cases declared with
  | none =>
    cases h
    exact .inl ⟨rfl, rfl⟩
  | some declared =>
    cases declared with
    | notAnObject => cases h
    | object =>
      rw [parseLimits] at h
      split at h
      · cases h
      · obtain ⟨grant, hgrant, h⟩ := bind_ok.mp h
        split at h
        · cases h
        next hsome =>
          cases h
          refine .inr ⟨grant, rfl, ?_, ?_⟩
          · intro d
            have hnone := parseDimensions_ok hgrant (mem_all d)
            rw [declares, Bool.eq_iff_iff, decide_eq_true_iff, ne_eq, ← hnone, Option.isSome_iff_ne_none]
          · by_contra hall
            apply hsome
            rw [List.all_eq_true]
            intro d _
            rw [decide_eq_true_iff]
            by_contra hne
            exact hall ⟨d, Option.isSome_iff_ne_none.mpr hne⟩

theorem withinGrant_none {grant : Limits} : withinGrant none (some grant) = true ↔ ∀ d, grant d = none := by
  simp only [withinGrant, List.all_eq_true, Option.bind_none]
  constructor
  · intro h d
    have hd := h d (mem_all d)
    cases hgrant : grant d with
    | none => rfl
    | some =>
      rw [hgrant] at hd
      cases hd
  · intro h d _
    rw [h d]

theorem exceedsCeiling_none : exceedsCeiling limits ceiling = none ↔
    ∀ cap, ceiling = some cap → ∀ d most mine, cap d = some most → limits d = some mine → mine ≤ most := by
  cases ceiling with
  | none => simp [exceedsCeiling]
  | some cap =>
    simp only [exceedsCeiling, List.find?_eq_none, Option.some.injEq, forall_eq']
    constructor
    · intro h d most mine hmost hmine
      have hd := h d (mem_all d)
      rw [hmost, hmine] at hd
      simpa using hd
    · intro h d _
      cases hmine : limits d with
      | none => simp
      | some mine =>
        cases hmost : cap d with
        | none => simp
        | some most => simpa using h d most mine hmost hmine

theorem assertUsable_ok : assertUsable limits = .ok () ↔
    ∀ f ∈ Dimension.floor, ∀ mine, limits f.1 = some mine → f.2 ≤ mine := by
  rw [assertUsable]
  split
  next hnone =>
    rw [List.find?_eq_none] at hnone
    refine ⟨?_, fun _ ↦ rfl⟩
    intro _ f hf mine hmine
    have hfloor := hnone f hf
    rw [hmine] at hfloor
    simpa using hfloor
  next d floor hsome =>
    refine ⟨nofun, ?_⟩
    intro h
    have hbelow := List.find?_some hsome
    have hmem := List.mem_of_find?_eq_some hsome
    cases hmine : limits d with
    | none => simp [hmine] at hbelow
    | some mine =>
      have hfloor := h _ hmem mine hmine
      simp only [hmine, decide_eq_true_eq] at hbelow
      omega

end

end Isolation

namespace Js

open Isolation

variable {host : Host} {ceiling : Option Limits} {authorized : AuthorizedPlan host Number RawLimits}
  {request : Request String Number Number RawLimits} {nowUnix : Number} {limits : Option Limits}

theorem accept_limits (h : accept ceiling authorized request nowUnix = .ok limits) :
    ∃ step, authorized.plan.steps.find? (fun candidate ↦ candidate.id = request.stepId) = some step ∧
      parseLimits host request.limits = .ok limits ∧
      acceptLimits host ceiling step request.operations limits = .ok () := by
  unfold accept at h
  split at h
  · cases h
  next step hstep =>
    simp only [require_bind_ok, requireAll_bind_ok] at h
    obtain ⟨_, _, _, _, _, _, _, _, _, h⟩ := h
    obtain ⟨limits', hlimits, h⟩ := bind_ok.mp h
    obtain ⟨_, hchecked, h⟩ := bind_ok.mp h
    cases h
    exact ⟨step, hstep, hlimits, hchecked⟩

theorem acceptLimits_some {step : Step RawLimits} {operations : List String} {asked : Limits}
    (h : acceptLimits host ceiling step operations (some asked) = .ok ()) :
    (∃ granted, parseLimits host step.blastRadius.limits = .ok granted ∧ withinGrant (some asked) granted = true) ∧
      exceedsCeiling asked ceiling = none ∧ assertUsable asked = .ok () := by
  rw [acceptLimits] at h
  obtain ⟨granted, hgranted, h⟩ := bind_ok.mp h
  obtain ⟨hwithin, h⟩ := require_bind_ok.mp h
  split at h
  · cases h
  next hunder => exact ⟨⟨granted, hgranted, hwithin⟩, hunder, h⟩

theorem acceptLimits_none {step : Step RawLimits} {operations : List String}
    (h : acceptLimits host ceiling step operations none = .ok ()) : ceiling.isSome = true → "EXECUTE" ∉ operations := by
  simp only [acceptLimits] at h
  intro hceiling hexecute
  simp [require, hceiling, hexecute] at h

/-- The limits of a token stay within what a step declares. Where there are none, the step must not set any dimension. -/
def WithinDeclared (host : Host) (limits : Option Limits) (declared : Option RawLimits) : Prop :=
  (∀ granted, parseLimits host declared = .ok granted → withinGrant limits granted = true) ∧
    (limits = none → ∀ d, declares declared d = false)

/-- The limits of a token are no wider than the ceiling and none is below what can be used. -/
structure Bounded (ceiling : Option Limits) (limits : Limits) : Prop where
  ceiling : ∀ cap, ceiling = some cap → ∀ d most mine, cap d = some most → limits d = some mine → mine ≤ most
  floor : ∀ f ∈ Dimension.floor, ∀ mine, limits f.1 = some mine → f.2 ≤ mine

end Js

open Isolation

/-- The limits of a minted token stay within the grant of its step, the ceiling and the floor, and executing needs limits
where there is a ceiling: all of it exactly where limits were asked for, or the step sets none. -/
theorem minted_limits_iff {host : Host} {minter minter' : TokenMinter (Js.dialect host)}
    {authorized : AuthorizedPlan host Number RawLimits} {request : (Js.dialect host).Asked} {nowUnix : Number}
    {token : (Js.dialect host).Held} (h : minter.mint authorized request nowUnix = .ok (token, minter'))
    {step : Step RawLimits}
    (hstep : authorized.plan.steps.find? (fun candidate ↦ candidate.id = request.stepId) = some step) :
    (Js.WithinDeclared host token.limits step.blastRadius.limits ∧
      (∀ limits, token.limits = some limits → Js.Bounded minter.ceiling limits) ∧
      (minter.ceiling.isSome = true → "EXECUTE" ∈ token.operations → token.limits.isSome = true)) ↔
    request.limits ≠ none ∨ ∀ d, declares step.blastRadius.limits d = false := by
  obtain ⟨limits, haccept, rfl, _⟩ := TokenMinter.mint_ok h
  obtain ⟨step', hstep', hparsed, hchecked⟩ := Js.accept_limits haccept
  obtain rfl : step' = step := Option.some.inj (hstep'.symm.trans hstep)
  change (Js.WithinDeclared host limits _ ∧ (∀ l, limits = some l → _) ∧
    (_ → "EXECUTE" ∈ request.operations → limits.isSome = true)) ↔ _
  cases limits with
  | none =>
    have hasked : request.limits = none := by
      rcases parseLimits_ok hparsed with ⟨_, hnone⟩ | ⟨_, hsome, _⟩
      · exact hnone
      · cases hsome
    have hexecute := Js.acceptLimits_none hchecked
    constructor
    · rintro ⟨hwithin, _, _⟩
      exact .inr (hwithin.2 rfl)
    · rintro (hne | hnone)
      · exact absurd hasked hne
      · refine ⟨⟨?_, fun _ ↦ hnone⟩, nofun, fun hceiling hmem ↦ absurd hmem (hexecute hceiling)⟩
        intro granted hgranted
        rcases parseLimits_ok hgranted with ⟨rfl, _⟩ | ⟨grant, rfl, hdeclared, _⟩
        · rfl
        · rw [withinGrant_none]
          intro d
          have hd := hdeclared d
          rw [hnone d] at hd
          exact Option.isNone_iff_eq_none.mp (Option.isSome_eq_false_iff.mp hd.symm)
  | some =>
    obtain ⟨⟨granted, hgranted, hwithin⟩, hunder, husable⟩ := Js.acceptLimits_some hchecked
    have hne : request.limits ≠ none := by
      intro hnone
      rw [hnone] at hparsed
      cases hparsed
    refine ⟨fun _ ↦ .inl hne, fun _ ↦ ⟨⟨?_, nofun⟩, ?_, fun _ _ ↦ rfl⟩⟩
    · intro granted' hgranted'
      obtain rfl : granted = granted' := Except.ok.inj (hgranted.symm.trans hgranted')
      exact hwithin
    · intro limits hlimits
      cases hlimits
      exact ⟨exceedsCeiling_none.mp hunder, assertUsable_ok.mp husable⟩

section Sample

def limitedPlan : Plan RawLimits :=
  ⟨"safe", [], [⟨"s1", "run", ["src/a.rs"], [], [], ⟨true, false, some (.object [("memoryBytes", .number (.ofRat 4194304))])⟩⟩]⟩

def Js.limitedApproved : AuthorizedPlan Host.sample Number RawLimits := ⟨limitedPlan, ⟨"owner", .ofRat 0, .ofRat 900⟩, _, rfl⟩

def Js.limitedMinter : TokenMinter (Js.dialect Host.sample) :=
  ⟨List.replicate 32 7, .empty, 0, some fun d ↦ if d = .memoryBytes then some 8388608 else none, Host.sampleKey_long⟩

def Js.limitedRequest (limits : Option RawLimits) : (Js.dialect Host.sample).Asked :=
  ⟨"s1", ["src/a.rs"], ["READ"], .ofRat 1, .ofRat 600, limits⟩

def Js.askedLimits : Option RawLimits := some (.object [("memoryBytes", .number (.ofRat 2097152))])

end Sample

theorem minted_limits_iff_asked :
    ∃ token minter', TokenMinter.mint Js.limitedMinter Js.limitedApproved (Js.limitedRequest Js.askedLimits) (Number.ofRat 1) =
        .ok (token, minter') ∧
      Js.WithinDeclared Host.sample token.limits (some (.object [("memoryBytes", .number (.ofRat 4194304))])) ∧
      ∀ limits, token.limits = some limits → Js.Bounded Js.limitedMinter.ceiling limits := by
  have hok : (Js.limitedMinter.mint Js.limitedApproved (Js.limitedRequest Js.askedLimits) (Number.ofRat 1)).isOk = true := by
    decide +kernel
  cases hmint : Js.limitedMinter.mint Js.limitedApproved (Js.limitedRequest Js.askedLimits) (Number.ofRat 1) with
  | error =>
    rw [hmint] at hok
    cases hok
  | ok r =>
    obtain ⟨hwithin, hbounded, _⟩ := (minted_limits_iff hmint rfl).mpr (.inl (Option.some_ne_none _))
    exact ⟨r.1, r.2, rfl, hwithin, hbounded⟩

/-- Where no limits are asked for, a token without any is minted for the step that grants four mebibytes. -/
theorem minted_without_limits :
    ∃ token minter', TokenMinter.mint Js.limitedMinter Js.limitedApproved (Js.limitedRequest none) (Number.ofRat 1) =
        .ok (token, minter') ∧
      token.limits = none ∧ ∃ granted, parseLimits Host.sample (some (.object [("memoryBytes", .number (.ofRat 4194304))])) =
        .ok granted ∧ withinGrant token.limits granted = false := by
  have haccept : Js.accept Js.limitedMinter.ceiling Js.limitedApproved (Js.limitedRequest none) (.ofRat 1) = .ok none := by
    decide +kernel
  have hmint := @TokenMinter.mint_of_accept _ _ Js.limitedMinter Js.limitedApproved (Js.limitedRequest none)
    (Number.ofRat 1) none haccept
  have hparse : (parseLimits Host.sample (some (.object [("memoryBytes", .number (.ofRat 4194304))]))).isOk = true := by
    decide +kernel
  cases hgranted : parseLimits Host.sample (some (.object [("memoryBytes", .number (.ofRat 4194304))])) with
  | error =>
    rw [hgranted] at hparse
    cases hparse
  | ok granted =>
    refine ⟨_, _, hmint, rfl, granted, rfl, ?_⟩
    rcases parseLimits_ok hgranted with ⟨_, hnone⟩ | ⟨grant, rfl, _, d, hd⟩
    · cases hnone
    · change withinGrant none (some grant) = false
      rw [← Bool.not_eq_true, withinGrant_none]
      intro hall
      rw [hall d] at hd
      cases hd

end Noesar.Capability
