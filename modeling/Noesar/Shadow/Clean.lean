import Noesar.Shadow.Rust

namespace Noesar.Shadow

variable {expectation expectation' : Expectation} {observation observation' : Observation}

structure AsExpected (expectation : Expectation) (observation : Observation) : Prop where
  paths : ∀ path, path ∈ observation.changed.map Prod.fst ↔ path ∈ expectation.pathsTheDiffMustTouch ∧ path ≠ "."
  ran : ∀ name ∈ expectation.testsExpectedToPass ++ expectation.testsExpectedToFail,
    ∃ test ∈ observation.tests, test.name = name
  failing : ∀ test ∈ observation.tests, test.name ∈ expectation.testsExpectedToFail → test.passed = false
  passing : ∀ test ∈ observation.tests, test.name ∉ expectation.testsExpectedToFail → test.passed = true

/-- All of it but what is claimed of the tests that are expected to fail. -/
structure Orderly (expectation : Expectation) (observation : Observation) : Prop where
  paths : ∀ path, path ∈ observation.changed.map Prod.fst ↔ path ∈ expectation.pathsTheDiffMustTouch ∧ path ≠ "."
  ran : ∀ name ∈ expectation.testsExpectedToPass ++ expectation.testsExpectedToFail,
    ∃ test ∈ observation.tests, test.name = name
  passing : ∀ test ∈ observation.tests, test.name ∉ expectation.testsExpectedToFail → test.passed = true

structure SameEntries (expectation expectation' : Expectation) : Prop where
  paths : ∀ path, path ∈ expectation'.pathsTheDiffMustTouch ↔ path ∈ expectation.pathsTheDiffMustTouch
  pass : ∀ name, name ∈ expectation'.testsExpectedToPass ↔ name ∈ expectation.testsExpectedToPass
  fail : ∀ name, name ∈ expectation'.testsExpectedToFail ↔ name ∈ expectation.testsExpectedToFail

structure Reordered (observation observation' : Observation) : Prop where
  changed : observation'.changed.Perm observation.changed
  tests : observation'.tests.Perm observation.tests

/-- One finding twice, with the changed paths in the order of either map. -/
structure SameFindings (surprise surprise' : Surprise) : Prop where
  expectedAndAbsent : surprise'.expectedAndAbsent = surprise.expectedAndAbsent
  unexpected : surprise'.unexpected.Perm surprise.unexpected
  failed : surprise'.testsExpectedToPassThatFailed = surprise.testsExpectedToPassThatFailed
  passed : surprise'.testsExpectedToFailThatPassed = surprise.testsExpectedToFailThatPassed
  neverRun : surprise'.testsNeverRun = surprise.testsNeverRun
  commands : surprise'.declaredCommandsThatFailed = surprise.declaredCommandsThatFailed

structure MeansWhatItClaims (expectation : Expectation) (observation : Observation) : Prop where
  exact : ∃ surprise, compare expectation observation = .ok surprise ∧
    (surprise.clean = true ↔ AsExpected expectation observation)
  invariant : ∀ expectation' observation', SameEntries expectation expectation' → Reordered observation observation' →
    ∃ surprise surprise', compare expectation observation = .ok surprise ∧
      compare expectation' observation' = .ok surprise' ∧ surprise'.clean = surprise.clean
  agree : ∀ changed, changed.Perm observation.changed →
    ∃ surprise surprise', compare expectation observation = .ok surprise ∧
      Rust.compare expectation ⟨changed, observation.tests⟩ = .ok surprise' ∧ SameFindings surprise surprise'

def BothWays (expectation : Expectation) (observation : Observation) : Prop :=
  (∃ name ∈ expectation.testsExpectedToPass, name ∈ expectation.testsExpectedToFail) ∧
    ∀ test ∈ observation.tests, test.name ∈ expectation.testsExpectedToFail → test.passed = false

/-- No test is expected both ways, each that is expected to fail did so once, and one of them also passed. -/
def Flaky (expectation : Expectation) (observation : Observation) : Prop :=
  (∀ name ∈ expectation.testsExpectedToPass, name ∉ expectation.testsExpectedToFail) ∧
    (∀ name ∈ expectation.testsExpectedToFail, ∃ test ∈ observation.tests, test.name = name ∧ test.passed = false) ∧
    ∃ test ∈ observation.tests, test.name ∈ expectation.testsExpectedToFail ∧ test.passed = true

def firstOutcome (observation : Observation) (name : String) : Option Bool :=
  (observation.tests.find? fun test ↦ test.name = name).map TestOutcome.passed

variable {name : String} {surprise : Surprise}

theorem firstOutcome_mem {passed : Bool} (h : firstOutcome observation name = some passed) :
    ⟨name, passed⟩ ∈ observation.tests := by
  obtain ⟨test, hfind, rfl⟩ := Option.map_eq_some_iff.mp h
  have hname : test.name = name := by simpa using List.find?_some hfind
  have hmem := List.mem_of_find?_eq_some hfind
  rwa [← hname]

theorem firstOutcome_isSome :
    (firstOutcome observation name).isSome ↔ ∃ test ∈ observation.tests, test.name = name := by
  simp [firstOutcome]

theorem match_failed (name : String) :
    (match observation.tests.find? fun test ↦ test.name = name with
      | some test => !test.passed
      | none => false) = decide (firstOutcome observation name = some false) := by
  unfold firstOutcome
  cases observation.tests.find? fun test ↦ test.name = name with
  | none => rfl
  | some test =>
    obtain ⟨_, passed⟩ := test
    cases passed <;> rfl

theorem match_passed (name : String) :
    (match observation.tests.find? fun test ↦ test.name = name with
      | some test => test.passed
      | none => false) = decide (firstOutcome observation name = some true) := by
  unfold firstOutcome
  cases observation.tests.find? fun test ↦ test.name = name with
  | none => rfl
  | some test =>
    obtain ⟨_, passed⟩ := test
    cases passed <;> rfl

theorem compare_eq (hne : observationIsEmpty observation = false) (expectation : Expectation) :
    compare expectation observation = .ok
      { expectedAndAbsent := (expectation.pathsTheDiffMustTouch.filter (· ≠ ".")).filter
          (· ∉ observation.changed.map Prod.fst)
        unexpected := (observation.changed.map Prod.fst).filter (· ∉ expectation.pathsTheDiffMustTouch.filter (· ≠ "."))
        testsExpectedToPassThatFailed := expectation.testsExpectedToPass.filter (firstOutcome observation · = some false)
        testsExpectedToFailThatPassed := expectation.testsExpectedToFail.filter (firstOutcome observation · = some true)
        testsNeverRun := (expectation.testsExpectedToPass ++ expectation.testsExpectedToFail).filter
          (firstOutcome observation · = none)
        declaredCommandsThatFailed := (observation.tests.filter fun test ↦ !test.passed &&
          test.name ∉ expectation.testsExpectedToFail &&
          test.name ∉ expectation.testsExpectedToPass.filter (firstOutcome observation · = some false)).map
            TestOutcome.name } := by
  have hfailed := List.filter_congr fun name (_ : name ∈ expectation.testsExpectedToPass) ↦
    @match_failed observation name
  unfold compare
  rw [if_neg (by simp [hne])]
  refine congrArg Except.ok ((Surprise.mk.injEq ..).mpr ⟨rfl, rfl, hfailed, ?_, ?_, ?_⟩)
  · exact List.filter_congr fun name _ ↦ match_passed name
  · apply List.filter_congr
    intro name _
    unfold firstOutcome
    dsimp only
    cases observation.tests.find? fun test ↦ test.name = name with
    | none => rfl
    | some => rfl
  · exact congrArg (fun failed ↦ (observation.tests.filter fun test ↦ !test.passed &&
      test.name ∉ expectation.testsExpectedToFail && test.name ∉ failed).map TestOutcome.name) hfailed

theorem clean_lists (hne : observationIsEmpty observation = false)
    (h : compare expectation observation = .ok surprise) : surprise.clean = true ↔
      (∀ path ∈ expectation.pathsTheDiffMustTouch, path ≠ "." → path ∈ observation.changed.map Prod.fst) ∧
      (∀ path ∈ observation.changed.map Prod.fst, path ∈ expectation.pathsTheDiffMustTouch ∧ path ≠ ".") ∧
      (∀ name ∈ expectation.testsExpectedToPass, firstOutcome observation name ≠ some false) ∧
      (∀ name ∈ expectation.testsExpectedToFail, firstOutcome observation name ≠ some true) ∧
      (∀ name ∈ expectation.testsExpectedToPass ++ expectation.testsExpectedToFail, firstOutcome observation name ≠ none) ∧
      ∀ test ∈ observation.tests, test.passed = false → test.name ∈ expectation.testsExpectedToFail ∨
        test.name ∈ expectation.testsExpectedToPass ∧ firstOutcome observation test.name = some false := by
  rw [compare_eq hne] at h
  cases h
  simp only [Surprise.clean, Bool.and_eq_true, List.isEmpty_iff, List.filter_eq_nil_iff, List.map_eq_nil_iff, and_assoc]
  refine and_congr ?_ (and_congr ?_ (and_congr ?_ (and_congr ?_ (and_congr ?_ ?_))))
  · simp [List.mem_filter]
  · simp [List.mem_filter]
  · simp
  · simp
  · simp
  · apply forall₂_congr
    intro test _
    cases test.passed with
    | true => simp
    | false =>
      simp only [List.mem_filter, decide_eq_true_eq, Bool.not_false, true_and]
      tauto

theorem firstOutcome_of_all {passed : Bool} (hran : ∃ test ∈ observation.tests, test.name = name)
    (h : ∀ test ∈ observation.tests, test.name = name → test.passed = passed) :
    firstOutcome observation name = some passed := by
  cases hfirst : firstOutcome observation name with
  | none =>
    have hsome := firstOutcome_isSome.mpr hran
    rw [hfirst] at hsome
    cases hsome
  | some => rw [← h _ (firstOutcome_mem hfirst) rfl]

/-- A surprise is clean just when everything is in order, no test is expected both ways, and the first
outcome of each test that is expected to fail is a failure. -/
theorem clean_iff (hne : observationIsEmpty observation = false) (h : compare expectation observation = .ok surprise) :
    surprise.clean = true ↔ Orderly expectation observation ∧
      (∀ name ∈ expectation.testsExpectedToPass, name ∉ expectation.testsExpectedToFail) ∧
      ∀ name ∈ expectation.testsExpectedToFail, firstOutcome observation name = some false := by
  rw [clean_lists hne h]
  constructor
  · rintro ⟨habsent, hunexpected, hfailed, hpassed, hran, hcommands⟩
    have hfail : ∀ name ∈ expectation.testsExpectedToFail, firstOutcome observation name = some false := by
      intro name hname
      cases hfirst : firstOutcome observation name with
      | none => exact absurd hfirst (hran name (List.mem_append_right _ hname))
      | some passed =>
        cases passed with
        | false => rfl
        | true => exact absurd hfirst (hpassed name hname)
    refine ⟨⟨fun path ↦ ⟨hunexpected path, fun hp ↦ habsent path hp.1 hp.2⟩, ?_, ?_⟩, ?_, hfail⟩
    · intro name hname
      exact firstOutcome_isSome.mp (Option.isSome_iff_ne_none.mpr (hran name hname))
    · intro test htest hnot
      by_contra hpassed'
      rcases hcommands test htest (by simpa using hpassed') with hname | ⟨hname, hfirst⟩
      · exact hnot hname
      · exact hfailed _ hname hfirst
    · intro name hname hfail'
      exact hfailed name hname (hfail name hfail')
  · rintro ⟨⟨hpaths, hran, hpassing⟩, hdisjoint, hfail⟩
    refine ⟨fun path hp hdot ↦ (hpaths path).mpr ⟨hp, hdot⟩, fun path hp ↦ (hpaths path).mp hp, ?_, ?_, ?_, ?_⟩
    · intro name hname hfirst
      exact Bool.noConfusion (hpassing _ (firstOutcome_mem hfirst) (hdisjoint name hname))
    · intro name hname hfirst
      rw [hfail name hname] at hfirst
      cases hfirst
    · intro name hname hnone
      have hsome := firstOutcome_isSome.mpr (hran name hname)
      rw [hnone] at hsome
      cases hsome
    · intro test htest hfailed
      by_contra hnot
      rw [hpassing test htest fun hname ↦ hnot (.inl hname)] at hfailed
      cases hfailed

theorem asExpected_iff : AsExpected expectation observation ↔ Orderly expectation observation ∧
    ∀ test ∈ observation.tests, test.name ∈ expectation.testsExpectedToFail → test.passed = false :=
  ⟨fun h ↦ ⟨⟨h.paths, h.ran, h.passing⟩, h.failing⟩, fun h ↦ ⟨h.1.paths, h.1.ran, h.2, h.1.passing⟩⟩

theorem Orderly.reordered (h : Orderly expectation observation) (he : SameEntries expectation expectation')
    (ho : Reordered observation observation') : Orderly expectation' observation' := by
  refine ⟨?_, ?_, ?_⟩
  · intro path
    rw [he.paths, ← h.paths, (ho.changed.map Prod.fst).mem_iff]
  · intro name hname
    rw [List.mem_append, he.pass, he.fail, ← List.mem_append] at hname
    obtain ⟨test, htest, rfl⟩ := h.ran name hname
    exact ⟨test, ho.tests.mem_iff.mpr htest, rfl⟩
  · intro test htest hname
    exact h.passing test (ho.tests.mem_iff.mp htest) fun hfail ↦ hname ((he.fail _).mpr hfail)

theorem SameEntries.symm (h : SameEntries expectation expectation') : SameEntries expectation' expectation :=
  ⟨fun path ↦ (h.paths path).symm, fun name ↦ (h.pass name).symm, fun name ↦ (h.fail name).symm⟩

theorem Reordered.symm (h : Reordered observation observation') : Reordered observation' observation :=
  ⟨h.changed.symm, h.tests.symm⟩

theorem orderly_reordered (he : SameEntries expectation expectation') (ho : Reordered observation observation') :
    Orderly expectation' observation' ↔ Orderly expectation observation :=
  ⟨fun h ↦ h.reordered he.symm ho.symm, fun h ↦ h.reordered he ho⟩

theorem compare_ok (h : observationIsEmpty observation = false) (expectation : Expectation) :
    ∃ surprise, compare expectation observation = .ok surprise :=
  ⟨_, compare_eq h expectation⟩

theorem Reordered.isEmpty (h : Reordered observation observation') :
    observationIsEmpty observation' = observationIsEmpty observation := by
  rw [observationIsEmpty, observationIsEmpty, h.changed.isEmpty_eq, h.tests.isEmpty_eq]

def failuresFirst (tests : List TestOutcome) : List TestOutcome :=
  tests.filter (fun test ↦ !test.passed) ++ tests.filter TestOutcome.passed

theorem failuresFirst_perm (tests : List TestOutcome) : (failuresFirst tests).Perm tests := by
  have hperm := List.filter_append_perm (fun test : TestOutcome ↦ !test.passed) tests
  simpa [failuresFirst, Function.comp_def] using hperm

theorem firstOutcome_failuresFirst (h : ∃ test ∈ observation.tests, test.name = name ∧ test.passed = false) :
    firstOutcome ⟨observation.changed, failuresFirst observation.tests⟩ name = some false := by
  obtain ⟨test, htest, hname, hfailed⟩ := h
  have hsome : ((observation.tests.filter fun test ↦ !test.passed).find? fun test ↦ test.name = name).isSome := by
    rw [List.find?_isSome]
    exact ⟨test, by simp [htest, hfailed], by simpa using hname⟩
  obtain ⟨found, hfound⟩ := Option.isSome_iff_exists.mp hsome
  have hmem := List.mem_of_find?_eq_some hfound
  unfold firstOutcome failuresFirst
  rw [List.find?_append, hfound]
  simpa using (List.mem_filter.mp hmem).2

theorem clean_always_iff (hne : observationIsEmpty observation = false) :
    (∀ expectation' observation' surprise, SameEntries expectation expectation' → Reordered observation observation' →
      compare expectation' observation' = .ok surprise →
        (surprise.clean = true ↔ AsExpected expectation observation)) ↔
      (Orderly expectation observation → ¬BothWays expectation observation ∧ ¬Flaky expectation observation) := by
  constructor
  · intro h horderly
    constructor
    · rintro ⟨⟨name, hpass, hfail⟩, hfailing⟩
      obtain ⟨surprise, hsurprise⟩ := compare_ok hne expectation
      have hclean := (h expectation observation surprise ⟨fun _ ↦ .rfl, fun _ ↦ .rfl, fun _ ↦ .rfl⟩ ⟨.rfl, .rfl⟩
        hsurprise).mpr (asExpected_iff.mpr ⟨horderly, hfailing⟩)
      exact ((clean_iff hne hsurprise).mp hclean).2.1 name hpass hfail
    · rintro ⟨hdisjoint, hfailed, test, htest, hname, hpassed⟩
      let sorted : Observation := ⟨observation.changed, failuresFirst observation.tests⟩
      have hreordered : Reordered observation sorted := ⟨.rfl, failuresFirst_perm observation.tests⟩
      obtain ⟨surprise, hsurprise⟩ := compare_ok (hreordered.isEmpty.trans hne) expectation
      have hsame : SameEntries expectation expectation := ⟨fun _ ↦ .rfl, fun _ ↦ .rfl, fun _ ↦ .rfl⟩
      have hclean : surprise.clean = true := by
        rw [clean_iff (hreordered.isEmpty.trans hne) hsurprise]
        exact ⟨horderly.reordered hsame hreordered, hdisjoint, fun name hfail ↦ firstOutcome_failuresFirst (hfailed name hfail)⟩
      have hexpected := (h expectation sorted surprise hsame hreordered hsurprise).mp hclean
      rw [hexpected.failing test htest hname] at hpassed
      cases hpassed
  · intro h expectation' observation' surprise hsame hreordered hsurprise
    rw [clean_iff (hreordered.isEmpty.trans hne) hsurprise, asExpected_iff, orderly_reordered hsame hreordered]
    constructor
    · rintro ⟨horderly, hdisjoint, hfirst⟩
      refine ⟨horderly, ?_⟩
      by_contra hpassing
      push Not at hpassing
      obtain ⟨test, htest, hname, hpassed⟩ := hpassing
      refine (h horderly).2 ⟨?_, ?_, test, htest, hname, by simpa using hpassed⟩
      · intro name hpass hfail
        exact hdisjoint name ((hsame.pass name).mpr hpass) ((hsame.fail name).mpr hfail)
      · intro name hfail
        have hmem := firstOutcome_mem (hfirst name ((hsame.fail name).mpr hfail))
        exact ⟨_, hreordered.tests.mem_iff.mp hmem, rfl, rfl⟩
    · rintro ⟨horderly, hfailing⟩
      refine ⟨horderly, ?_, ?_⟩
      · intro name hpass hfail
        exact (h horderly).1 ⟨⟨name, (hsame.pass name).mp hpass, (hsame.fail name).mp hfail⟩, hfailing⟩
      · intro name hfail
        apply firstOutcome_of_all
        · obtain ⟨test, htest, hname⟩ := horderly.ran name (List.mem_append_right _ ((hsame.fail name).mp hfail))
          exact ⟨test, hreordered.tests.mem_iff.mpr htest, hname⟩
        · rintro test htest rfl
          exact hfailing test (hreordered.tests.mem_iff.mp htest) ((hsame.fail _).mp hfail)

theorem rust_compare_eq (hne : observationIsEmpty observation = false) (expectation : Expectation)
    (h : compare expectation observation = .ok surprise) {changed : List (String × Change)}
    (hperm : changed.Perm observation.changed) : Rust.compare expectation ⟨changed, observation.tests⟩ = .ok
      { surprise with
        expectedAndAbsent := (expectation.pathsTheDiffMustTouch.filter (· ≠ ".")).filter (· ∉ changed.map Prod.fst)
        unexpected := (changed.map Prod.fst).filter (· ∉ expectation.pathsTheDiffMustTouch) } := by
  have hreordered : Reordered observation ⟨changed, observation.tests⟩ := ⟨hperm, .rfl⟩
  have hempty := hreordered.isEmpty.trans hne
  unfold compare at h
  rw [if_neg (by simp [hne])] at h
  cases h
  unfold Rust.compare
  exact (if_neg (by simp [hempty])).trans rfl

theorem findings_iff (hne : observationIsEmpty observation = false) :
    (∀ changed, changed.Perm observation.changed →
      ∃ surprise surprise', compare expectation observation = .ok surprise ∧
        Rust.compare expectation ⟨changed, observation.tests⟩ = .ok surprise' ∧ SameFindings surprise surprise') ↔
      ¬("." ∈ observation.changed.map Prod.fst ∧ "." ∈ expectation.pathsTheDiffMustTouch) := by
  constructor
  · rintro h ⟨htouched, hdeclared⟩
    obtain ⟨surprise, surprise', hjs, hrust, hsame⟩ := h observation.changed .rfl
    rw [rust_compare_eq hne expectation hjs .rfl] at hrust
    rw [compare_eq hne] at hjs
    cases hjs
    cases hrust
    have hdot : "." ∈ (observation.changed.map Prod.fst).filter (· ∉ expectation.pathsTheDiffMustTouch) := by
      rw [hsame.unexpected.mem_iff, List.mem_filter]
      exact ⟨htouched, by simp⟩
    simpa [hdeclared] using (List.mem_filter.mp hdot).2
  · intro h changed hperm
    obtain ⟨surprise, hjs⟩ := compare_ok hne expectation
    have hmem (path : String) : path ∈ changed.map Prod.fst ↔ path ∈ observation.changed.map Prod.fst :=
      (hperm.map Prod.fst).mem_iff
    refine ⟨surprise, _, hjs, rust_compare_eq hne expectation hjs hperm, ?_, ?_, rfl, rfl, rfl, rfl⟩
    · rw [compare_eq hne] at hjs
      cases hjs
      exact List.filter_congr fun path _ ↦ by simp only [hmem]
    · rw [compare_eq hne] at hjs
      cases hjs
      refine ((hperm.map Prod.fst).filter _).trans (.of_eq (List.filter_congr ?_))
      intro path hpath
      have hdot : path = "." → path ∉ expectation.pathsTheDiffMustTouch := by
        rintro rfl hdeclared
        exact h ⟨hpath, hdeclared⟩
      by_cases hp : path = "."
      · simp [hp, hp ▸ hdot hp]
      · simp [hp]

/-- A clean comparison means exactly what it claims just when `.` was not both declared and changed and, all
else being in order, no test is expected both ways with nothing but failures of the tests that are expected to
fail, and no test that is expected to fail did both while each of them failed. -/
theorem means_what_it_claims_iff (expectation : Expectation) (observation : Observation)
    (hne : observationIsEmpty observation = false) : MeansWhatItClaims expectation observation ↔
      ¬("." ∈ observation.changed.map Prod.fst ∧ "." ∈ expectation.pathsTheDiffMustTouch) ∧
        (Orderly expectation observation → ¬BothWays expectation observation ∧ ¬Flaky expectation observation) := by
  rw [← clean_always_iff hne, ← findings_iff hne]
  constructor
  · rintro ⟨⟨surprise, hsurprise, hexact⟩, hinvariant, hagree⟩
    refine ⟨hagree, ?_⟩
    intro expectation' observation' surprise' hsame hreordered hsurprise'
    obtain ⟨first, second, hfirst, hsecond, hclean⟩ := hinvariant expectation' observation' hsame hreordered
    cases hfirst.symm.trans hsurprise
    cases hsecond.symm.trans hsurprise'
    rw [hclean, hexact]
  · rintro ⟨hagree, halways⟩
    obtain ⟨surprise, hsurprise⟩ := compare_ok hne expectation
    have hexact := halways expectation observation surprise ⟨fun _ ↦ .rfl, fun _ ↦ .rfl, fun _ ↦ .rfl⟩ ⟨.rfl, .rfl⟩
      hsurprise
    refine ⟨⟨surprise, hsurprise, hexact⟩, ?_, hagree⟩
    intro expectation' observation' hsame hreordered
    obtain ⟨surprise', hsurprise'⟩ := compare_ok (hreordered.isEmpty.trans hne) expectation'
    refine ⟨surprise, surprise', hsurprise, hsurprise', ?_⟩
    rw [Bool.eq_iff_iff, hexact]
    exact halways expectation' observation' surprise' hsame hreordered hsurprise'

theorem means_what_it_claims_iff_passed : MeansWhatItClaims ⟨["a"], ["t"], []⟩ ⟨[("a", .modified)], [⟨"t", true⟩]⟩ := by
  refine (means_what_it_claims_iff _ _ rfl).mpr ⟨by simp, fun _ ↦ ⟨?_, ?_⟩⟩
  · rintro ⟨⟨name, -, hname⟩, -⟩
    exact List.not_mem_nil hname
  · rintro ⟨-, -, test, -, hname, -⟩
    exact List.not_mem_nil hname

/-- A test that is expected to fail, and did so only at first, leaves the comparison clean. -/
theorem flaky_failure_clean : ¬∀ expectation observation, observationIsEmpty observation = false →
    MeansWhatItClaims expectation observation := by
  intro h
  obtain ⟨surprise, hsurprise, hexact⟩ := (h ⟨[], [], ["t"]⟩ ⟨[], [⟨"t", false⟩, ⟨"t", true⟩]⟩ rfl).exact
  cases hsurprise
  have hexpected := hexact.mp (by decide)
  exact Bool.noConfusion (hexpected.failing ⟨"t", true⟩ (by simp) (by simp))

end Noesar.Shadow
