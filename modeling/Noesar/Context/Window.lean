import Noesar.Context.Projection

namespace Noesar.Context

open Lib Lib.Utf16 Lib.Json Canonical
open Author (text)

/-- What is kept of some entries by rank: those at some places, and each one that is left out ranks lower than all of
them, or as high and was written before. -/
structure Ranked (rank : Fact → ℕ) (valid shown : List Fact) (kept : List ℕ) : Prop where
  increasing : kept.Pairwise (· < ·)
  entries : List.Forall₂ (fun i entry ↦ valid[i]? = some entry) kept shown
  foremost : ∀ i left, valid[i]? = some left → i ∉ kept → ∀ j ∈ kept, ∀ entry, valid[j]? = some entry →
    rank left < rank entry ∨ rank left = rank entry ∧ i < j

/-- A section shows the right ones of the values it has. -/
structure Shows (spec : SectionSpec) (valid : List Fact) (view : SectionView) : Prop where
  name : view.name = spec.name
  held : view.held = match spec.cardinality with
    | .one => min 1 valid.length
    | .many => valid.length
  shown : view.shown = min spec.shows view.held
  entries : view.entries.length = view.shown
  capped : view.capped = true ↔ view.shown < view.held
  ordered : view.entries.Sublist valid
  last : spec.cardinality = .one → view.entries = valid.drop (valid.length - 1)
  around : spec.window = some .active → ∃ start, view.entries = (valid.drop start).take spec.shows ∧
    ∀ i, valid.findIdx? isActive = some i → start ≤ i ∧ i < start + view.shown
  ranked : ∀ rank, spec.rank = some rank → ∃ kept, Ranked rank valid view.entries kept
  recent : spec.cardinality = .many → spec.window = none → spec.rank = none →
    view.entries = valid.drop (valid.length - spec.shows)

section Ranking

variable {rank : Fact → ℕ} {shows : ℕ} {entries : List Fact}

theorem nodup_zipIdx (entries : List Fact) : entries.zipIdx.Nodup := by
  have hplaces : (entries.zipIdx.map Prod.snd).Nodup := by
    rw [List.zipIdx_map_snd]
    exact List.nodup_range'
  exact hplaces.of_map _

theorem mem_best_of_place {entry : Fact × ℕ} (h : entry ∈ entries.zipIdx)
    (hplace : entry.2 ∈ (Selection.best (importance rank) shows entries.zipIdx).map Prod.snd) :
    entry ∈ Selection.best (importance rank) shows entries.zipIdx := by
  obtain ⟨other, hother, hsame⟩ := List.mem_map.mp hplace
  have hvalue := List.mem_zipIdx_iff_getElem?.mp (Selection.mem_of_best hother)
  rw [hsame, List.mem_zipIdx_iff_getElem?.mp h] at hvalue
  rwa [Prod.ext (Option.some.inj hvalue) hsame.symm]

theorem length_rankedWindow : (rankedWindow rank shows entries).length = min shows entries.length := by
  have hperm : (entries.zipIdx.filter fun entry ↦
      entry.2 ∈ (Selection.best (importance rank) shows entries.zipIdx).map Prod.snd).Perm
      (Selection.best (importance rank) shows entries.zipIdx) := by
    have hbest : (Selection.best (importance rank) shows entries.zipIdx).Nodup :=
      ((Selection.ranked_perm _ _).nodup_iff.mpr (nodup_zipIdx entries)).sublist (List.take_sublist _ _)
    rw [List.perm_ext_iff_of_nodup ((nodup_zipIdx entries).filter _) hbest]
    intro entry
    rw [List.mem_filter, decide_eq_true_eq]
    constructor
    · intro ⟨hmem, hplace⟩
      exact mem_best_of_place hmem hplace
    · intro hmem
      exact ⟨Selection.mem_of_best hmem, List.mem_map_of_mem hmem⟩
  rw [rankedWindow, List.length_map, hperm.length_eq, Selection.length_best, List.length_zipIdx]

theorem ranked_rankedWindow : ∃ kept, Ranked rank entries (rankedWindow rank shows entries) kept := by
  refine ⟨(entries.zipIdx.filter fun entry ↦
    entry.2 ∈ (Selection.best (importance rank) shows entries.zipIdx).map Prod.snd).map Prod.snd, ?_⟩
  constructor
  case increasing =>
    have hall : (entries.zipIdx.map Prod.snd).Pairwise (· < ·) := by
      rw [List.zipIdx_map_snd]
      exact List.pairwise_lt_range'
    exact hall.sublist (List.filter_sublist.map _)
  case entries =>
    rw [rankedWindow, List.forall₂_map_left_iff, List.forall₂_map_right_iff, List.forall₂_same]
    intro entry hentry
    exact List.mem_zipIdx_iff_getElem?.mp (List.mem_filter.mp hentry).1
  case foremost =>
    intro i left hleft hout j hj entry hentry
    have hi : (left, i) ∈ entries.zipIdx := List.mem_zipIdx_iff_getElem?.mpr hleft
    have hothers : (left, i) ∈ Selection.others (importance rank) shows entries.zipIdx := by
      have hsplit : (left, i) ∈ Selection.best (importance rank) shows entries.zipIdx ∨
          (left, i) ∈ Selection.others (importance rank) shows entries.zipIdx := Selection.mem_best_or_others.mp hi
      rcases hsplit with hbest | hothers
      · refine absurd (List.mem_map.mpr ⟨(left, i), List.mem_filter.mpr ⟨hi, ?_⟩, rfl⟩) hout
        exact decide_eq_true (List.mem_map_of_mem hbest)
      · exact hothers
    obtain ⟨kept, hkept, rfl⟩ := List.mem_map.mp hj
    rw [List.mem_filter, decide_eq_true_eq] at hkept
    have hvalue := List.mem_zipIdx_iff_getElem?.mp hkept.1
    obtain rfl := Option.some.inj (hvalue.symm.trans hentry)
    have hle : importance rank (left, i) ≤ importance rank kept :=
      Selection.others_le_best hothers (mem_best_of_place hkept.1 hkept.2)
    rcases Prod.Lex.toLex_le_toLex.mp hle with hlt | ⟨heq, hplace⟩
    · exact .inl hlt
    · refine .inr ⟨heq, lt_of_le_of_ne hplace ?_⟩
      rintro rfl
      exact hout hj

end Ranking

section Windows

variable {spec : SectionSpec} {entries : List Fact}

theorem length_windowFor (spec : SectionSpec) (entries : List Fact) :
    (windowFor spec entries).length = min spec.shows entries.length := by
  unfold windowFor
  split
  · omega
  · split
    · rename_i hactive
      split at hactive
      · obtain ⟨i, hi, rfl⟩ := Option.map_eq_some_iff.mp hactive
        rw [List.length_take, List.length_drop]
        omega
      · cases hactive
    · split
      · exact length_rankedWindow
      · rw [List.length_drop]
        omega

theorem windowFor_of_few (h : entries.length ≤ spec.shows) : windowFor spec entries = entries := by
  rw [windowFor, if_pos h]

theorem windowFor_of_active (hwindow : spec.window = some .active) (hmany : spec.shows < entries.length) {i : ℕ}
    (hactive : entries.findIdx? isActive = some i) : windowFor spec entries =
      (entries.drop (min (i - spec.shows / 2) (entries.length - spec.shows))).take spec.shows := by
  rw [windowFor, if_neg (not_le.mpr hmany), if_pos hwindow]
  simp [activeWindow, hactive]

theorem windowFor_of_inactive (hrank : spec.rank = none) (hactive : entries.findIdx? isActive = none) :
    windowFor spec entries = entries.drop (entries.length - spec.shows) := by
  unfold windowFor
  split
  · rename_i hfew
    rw [Nat.sub_eq_zero_of_le hfew, List.drop_zero]
  · simp [hrank, activeWindow, hactive]

theorem windowFor_active (entries : List Fact) (hwindow : spec.window = some .active) (hrank : spec.rank = none) (hshows : 0 < spec.shows) :
    ∃ start, windowFor spec entries = (entries.drop start).take spec.shows ∧
      ∀ i, entries.findIdx? isActive = some i → start ≤ i ∧ i < start + min spec.shows entries.length := by
  cases hactive : entries.findIdx? isActive with
  | none =>
    refine ⟨entries.length - spec.shows, ?_, nofun⟩
    rw [windowFor_of_inactive hrank hactive, List.take_of_length_le]
    rw [List.length_drop]
    omega
  | some active =>
    have hlt : active < entries.length := (List.findIdx?_eq_some_iff_findIdx_eq.mp hactive).1
    by_cases hmany : spec.shows < entries.length
    · refine ⟨_, windowFor_of_active hwindow hmany hactive, ?_⟩
      intro i hi
      obtain rfl := Option.some.inj hi
      omega
    · refine ⟨0, ?_, ?_⟩
      · rw [windowFor_of_few (not_lt.mp hmany), List.drop_zero, List.take_of_length_le (not_lt.mp hmany)]
      · intro i hi
        obtain rfl := Option.some.inj hi
        omega

theorem windowFor_recent (hwindow : spec.window = none) (hrank : spec.rank = none) :
    windowFor spec entries = entries.drop (entries.length - spec.shows) := by
  unfold windowFor
  split
  · rename_i hfew
    rw [Nat.sub_eq_zero_of_le hfew, List.drop_zero]
  · simp [hwindow, hrank]

theorem windowFor_ranked {rank : Fact → ℕ} (hwindow : spec.window = none) (hrank : spec.rank = some rank) :
    ∃ kept, Ranked rank entries (windowFor spec entries) kept := by
  unfold windowFor
  split
  · refine ⟨List.range entries.length, List.pairwise_lt_range, ?_, ?_⟩
    · rw [List.forall₂_iff_get]
      simp
    · intro i left hleft hout
      exact absurd (List.mem_range.mpr (List.getElem?_eq_some_iff.mp hleft).1) hout
  · simpa [hwindow, hrank] using ranked_rankedWindow

end Windows

/-- How the sections are made: each has one way of choosing what it shows. -/
structure Chooses (spec : SectionSpec) : Prop where
  shows : 0 < spec.shows
  few : spec.shows ≤ 10
  one : spec.cardinality = .one → spec.window = none ∧ spec.rank = none ∧ spec.shows = 1
  unranked : spec.window ≠ none → spec.rank = none

variable {spec : SectionSpec}

theorem chooses (h : spec ∈ contextSections) : Chooses spec := by
  simp only [contextSections, List.mem_cons, List.not_mem_nil, or_false] at h
  rcases h with rfl | rfl | rfl | rfl | rfl | rfl | rfl | rfl | rfl
  all_goals exact ⟨by decide, by decide, by simp [goalSpec, planSpec, evidenceSpec, questionsSpec, diffSpec, failuresSpec, tokensSpec,
    attemptsSpec, repositorySpec], by simp [goalSpec, planSpec, evidenceSpec, questionsSpec, diffSpec, failuresSpec,
    tokensSpec, attemptsSpec, repositorySpec]⟩

theorem current_many (h : spec.cardinality = .many) (all : List Fact) : current spec all = all := by
  rw [current, h]

theorem current_one (h : spec.cardinality = .one) (all : List Fact) :
    current spec all = all.drop (all.length - 1) := by
  rw [current, h]

theorem many_of (h : spec.cardinality ≠ .one) : spec.cardinality = .many := by
  cases hcardinality : spec.cardinality with
  | one => exact absurd hcardinality h
  | many => rfl

theorem viewOf_shows (h : Chooses spec) (valid : List Fact) : Shows spec valid (viewOf spec valid) := by
  constructor
  case name => rfl
  case held =>
    change (current spec valid).length = _
    cases hcardinality : spec.cardinality with
    | one =>
      rw [current_one hcardinality, List.length_drop]
      change valid.length - (valid.length - 1) = min 1 valid.length
      omega
    | many => rw [current_many hcardinality]
  case shown => exact length_windowFor spec _
  case entries => rfl
  case capped => exact decide_eq_true_iff
  case ordered => exact (windowFor_sublist _ _).trans (current_sublist _ _)
  case last =>
    intro hone
    change windowFor spec (current spec valid) = _
    rw [current_one hone, windowFor, if_pos]
    rw [List.length_drop, (h.one hone).2.2]
    omega
  case around =>
    intro hwindow
    have hmany : spec.cardinality = .many := many_of fun hone ↦ by simp [(h.one hone).1] at hwindow
    have hrank : spec.rank = none := h.unranked (by simp [hwindow])
    obtain ⟨start, hrun, hactive⟩ := windowFor_active valid hwindow hrank h.shows
    change ∃ start, windowFor spec (current spec valid) = _ ∧ ∀ i, _ → start ≤ i ∧ i < start + (windowFor spec (current spec valid)).length
    rw [current_many hmany, length_windowFor]
    exact ⟨start, hrun, hactive⟩
  case ranked =>
    intro rank hrank
    have hmany : spec.cardinality = .many := many_of fun hone ↦ by simp [(h.one hone).2.1] at hrank
    have hwindow : spec.window = none := by
      by_contra hwindow
      simp [h.unranked hwindow] at hrank
    change ∃ kept, Ranked rank valid (windowFor spec (current spec valid)) kept
    rw [current_many hmany]
    exact windowFor_ranked hwindow hrank
  case recent =>
    intro hmany hwindow hrank
    change windowFor spec (current spec valid) = _
    rw [current_many hmany]
    exact windowFor_recent hwindow hrank

def allValues (ns : Numbers) (facts : List JsValue) : ℕ := (contextSections.map fun spec ↦ (valuesIn ns spec facts).length).sum

theorem length_valuesIn_cons (ns : Numbers) (spec : SectionSpec) (fact : JsValue) (facts : List JsValue) :
    (valuesIn ns spec (fact :: facts)).length = (valuesIn ns spec [fact]).length + (valuesIn ns spec facts).length := by
  rw [← List.length_append]
  exact congrArg List.length (List.filterMap_append (l := [fact]))

theorem sum_named {named : SectionSpec} (h : named ∈ contextSections) (k : ℕ) :
    (contextSections.map fun spec ↦ if named.name = spec.name then k else 0).sum = k := by
  simp only [contextSections, List.mem_cons, List.not_mem_nil, or_false] at h
  rcases h with rfl | rfl | rfl | rfl | rfl | rfl | rfl | rfl | rfl
  all_goals simp [contextSections, goalSpec, planSpec, evidenceSpec, questionsSpec, diffSpec, failuresSpec, tokensSpec,
    attemptsSpec, repositorySpec]

theorem allValues_singleton (ns : Numbers) (fact : JsValue) : (sectionOf fact).isNone.toNat +
    ((sectionOf fact).any fun spec ↦ !(valueOf ns spec fact).isOk).toNat + allValues ns [fact] = 1 := by
  cases hsection : sectionOf fact with
  | none => simp [allValues, valuesIn, hsection]
  | some named =>
    have hlength (spec : SectionSpec) : (valuesIn ns spec [fact]).length =
        if named.name = spec.name then (valueOf ns named fact).isOk.toNat else 0 := by
      by_cases hname : named.name = spec.name
      · have hsame : valueOf ns spec fact = valueOf ns named fact := by rw [valueOf, valueOf, hname]
        cases hvalue : valueOf ns named fact <;>
          simp [valuesIn, hsection, hname, hsame, hvalue, Except.toOption, Except.isOk, Except.toBool]
      · simp [valuesIn, hsection, hname]
    simp only [allValues, hlength, sum_named (mem_of_sectionOf hsection)]
    cases hvalue : (valueOf ns named fact).isOk <;> simp [hvalue]

theorem accounted (ns : Numbers) (facts : List JsValue) : facts.countP (fun fact ↦ (sectionOf fact).isNone) +
    facts.countP (fun fact ↦ (sectionOf fact).any fun spec ↦ !(valueOf ns spec fact).isOk) + allValues ns facts = facts.length := by
  induction facts with
  | nil => rfl
  | cons fact facts =>
    have hone := allValues_singleton ns fact
    have hcount (p : JsValue → Bool) : (fact :: facts).countP p = (p fact).toNat + facts.countP p := by
      cases hp : p fact <;> simp [hp, Nat.add_comm]
    have hvalues : allValues ns (fact :: facts) = allValues ns [fact] + allValues ns facts := by
      simp only [allValues, length_valuesIn_cons ns _ fact facts, List.sum_map_add]
    rw [hcount, hcount, hvalues, List.length_cons]
    omega

/-- The view of any facts comes, shows the right ones in each section, and accounts for all of them. -/
theorem projection_shows (ns : Numbers) (facts : List JsValue) : ∃ projection, projectContext ns facts = .ok projection ∧
    List.Forall₂ (fun spec view ↦ Shows spec (valuesIn ns spec facts) view) contextSections projection.sections ∧
    projection.unknownSectionFacts + projection.rejectedFacts + allValues ns facts = facts.length := by
  refine ⟨_, projectContext_eq facts, ?_, ?_⟩
  · simp only [view_eq, List.forall₂_map_right_iff, List.forall₂_same]
    intro spec hspec
    exact viewOf_shows (chooses hspec) _
  · simp only [view_eq]
    exact accounted ns facts

end Noesar.Context
