import Noesar.Context.Window

namespace Noesar.Context

open Lib Lib.Utf16 Lib.Json Lib.InsertionMap Lib.Decimal Canonical
open Author (text text_inj text_injective trim)

def ShowSame (ns : Numbers) (facts others : List JsValue) : Prop :=
  (view ns facts).sections.map SectionView.entries = (view ns others).sections.map SectionView.entries

def identifier (ns : Numbers) (facts : List JsValue) : Except String Units := (projectContext ns facts).map Projection.digest

def Full (ns : Numbers) (spec : SectionSpec) (facts : List JsValue) : Prop :=
  spec.cardinality = .many ∧ spec.shows ≤ (valuesIn ns spec facts).length

section Texts

def Differ (a b : List Char) : Prop := ∃ front back, a = front ++ '1' :: back ∧ b = front ++ '2' :: back

variable {a b : List Char}

theorem Differ.around (h : Differ a b) (front back : List Char) : Differ (front ++ a ++ back) (front ++ b ++ back) := by
  obtain ⟨front', back', rfl, rfl⟩ := h
  exact ⟨front ++ front', back' ++ back, by simp, by simp⟩

theorem Differ.joined (h : Differ a b) (pre post : List (List Char)) : Differ (joined (pre ++ a :: post)) (joined (pre ++ b :: post)) := by
  induction pre with
  | nil =>
    cases post with
    | nil => exact h
    | cons t ts => exact h.around [] (',' :: Json.joined (t :: ts))
  | cons t pre ih =>
    have hcons (c : List Char) : Json.joined (t :: (pre ++ c :: post)) = t ++ ',' :: Json.joined (pre ++ c :: post) := by
      cases pre <;> rfl
    have htail := ih.around (t ++ [',']) []
    rw [List.cons_append, List.cons_append, hcons, hcons]
    simpa using htail

theorem hash_differ (h : Differ a b) : digestOfText a ≠ digestOfText b := by
  obtain ⟨front, back, rfl, rfl⟩ := h
  intro heq
  have hpadded := encode_injective (List.append_cancel_left heq)
  have hhash := UInt32.toNat_inj.mp (Fnv.padded_injective 8 hpadded)
  have hencode (c : Char) (u : UInt16) (hc : units c = [u]) :
      encode (front ++ c :: back) = encode front ++ u :: encode back := by
    simp [encode, hc]
  rw [hencode '1' 49 (by decide), hencode '2' 50 (by decide)] at hhash
  exact absurd (Fnv.hash_replace hhash) (by decide)

def ordered (ns : Numbers) (v : JsValue) : List Char := Json.print (writer ns) (norm unitRank Canonical.value v)

variable {ns : Numbers} {v w : JsValue}

theorem Differ.array (h : Differ (ordered ns v) (ordered ns w)) (pre post : List JsValue) :
    Differ (ordered ns (.array (pre ++ v :: post))) (ordered ns (.array (pre ++ w :: post))) := by
  have hjoined := (h.joined (pre.map (ordered ns)) (post.map (ordered ns))).around ['['] [']']
  have htext (u : JsValue) : ordered ns (.array (pre ++ u :: post)) =
      ['['] ++ Json.joined (pre.map (ordered ns) ++ ordered ns u :: post.map (ordered ns)) ++ [']'] := by
    rw [ordered, norm_array, print_array, List.map_map, List.map_append]
    rfl
  rw [htext, htext]
  exact hjoined

theorem ordered_object (ns : Numbers) {ι : Type} (members : List (Units × (ι → JsValue))) (i : ι) :
    ordered ns (.object (members.map fun m ↦ (m.1, m.2 i))) =
      ['{'] ++ Json.joined ((sortKeys unitRank members).map fun m ↦ quote m.1 ++ ':' :: ordered ns (m.2 i)) ++ ['}'] := by
  have hsort : sortKeys unitRank (members.map fun m ↦ (m.1, norm unitRank Canonical.value (m.2 i))) =
      (sortKeys unitRank members).map fun m ↦ (m.1, norm unitRank Canonical.value (m.2 i)) :=
    sortKeys_map (fun f : ι → JsValue ↦ norm unitRank Canonical.value (f i)) members
  rw [ordered, norm_object, List.map_map, print_object]
  change '{' :: (Json.joined ((sortKeys unitRank (members.map fun m ↦ (m.1, norm unitRank Canonical.value (m.2 i)))).map _) ++ _) = _
  rw [hsort, List.map_map]
  rfl

theorem Differ.object (h : Differ (ordered ns v) (ordered ns w)) (key : Units) (pre post : List (Units × JsValue)) :
    Differ (ordered ns (.object (pre ++ (key, v) :: post))) (ordered ns (.object (pre ++ (key, w) :: post))) := by
  -- the two objects as one whose values are chosen, all but one of them without a choice
  let still (members : List (Units × JsValue)) : List (Units × (Bool → JsValue)) := members.map fun m ↦ (m.1, fun _ ↦ m.2)
  let choice : Units × (Bool → JsValue) := (key, fun second ↦ if second then w else v)
  have hchosen (second : Bool) : ((still pre ++ choice :: still post).map fun m ↦ (m.1, m.2 second)) =
      pre ++ (key, if second then w else v) :: post := by
    simp [still, choice, Function.comp_def]
  have hperm : (sortKeys unitRank (still pre ++ choice :: still post)).Perm _ := sortKeys_perm _
  obtain ⟨front, back, hsplit⟩ := List.append_of_mem (hperm.mem_iff.mpr (List.mem_append_right _ List.mem_cons_self))
  have hrest : (front ++ back).Perm (still pre ++ still post) := by
    rw [hsplit] at hperm
    exact (List.perm_middle.symm.trans (hperm.trans List.perm_middle)).cons_inv
  have hstill : ∀ m ∈ front ++ back, m.2 true = m.2 false := by
    intro m hm
    have hmem := hrest.mem_iff.mp hm
    rw [List.mem_append, List.mem_map, List.mem_map] at hmem
    rcases hmem with ⟨_, _, rfl⟩ | ⟨_, _, rfl⟩ <;> rfl
  have htexts (members : List (Units × (Bool → JsValue))) (hmembers : ∀ m ∈ members, m.2 true = m.2 false) :
      (members.map fun m ↦ quote m.1 ++ ':' :: ordered ns (m.2 true)) =
        members.map fun m ↦ quote m.1 ++ ':' :: ordered ns (m.2 false) := by
    apply List.map_congr_left
    intro m hm
    rw [hmembers m hm]
  have hfirst := ordered_object ns (still pre ++ choice :: still post) false
  have hsecond := ordered_object ns (still pre ++ choice :: still post) true
  rw [hchosen, hsplit, List.map_append, List.map_cons] at hfirst hsecond
  rw [htexts front fun m hm ↦ hstill m (List.mem_append_left _ hm),
    htexts back fun m hm ↦ hstill m (List.mem_append_right _ hm)] at hsecond
  have hmember : Differ (quote key ++ ':' :: ordered ns v) (quote key ++ ':' :: ordered ns w) := by
    simpa using h.around (quote key ++ [':']) []
  obtain ⟨before, after, hbefore, hafter⟩ := (hmember.joined (front.map fun m ↦ quote m.1 ++ ':' :: ordered ns (m.2 false))
    (back.map fun m ↦ quote m.1 ++ ':' :: ordered ns (m.2 false))).around ['{'] ['}']
  exact ⟨before, after, hfirst.trans hbefore, hsecond.trans hafter⟩

theorem ordered_count (platform : Platform) {n : ℕ} (h : n ≤ 2 ^ 53) :
    ordered platform.toNumbers (count n) = integerText n := by
  have hval : (Binary64.ofRat n).val = n := round53_natCast h
  have hsmall : |(n : ℤ)| < 10 ^ 21 := by
    rw [abs_of_nonneg (by positivity)]
    exact_mod_cast h.trans_lt (by norm_num)
  have hinteger := platform.integer (Binary64.ofRat n)
  rw [hval, Rat.den_natCast, Rat.num_natCast] at hinteger
  exact hinteger rfl hsmall

theorem view_differ (platform : Platform) (shown : SectionView) : Differ
    (ordered platform.toNumbers { shown with held := 11 }.toJs) (ordered platform.toNumbers { shown with held := 12 }.toJs) := by
  have hcounts : Differ (ordered platform.toNumbers (count 11)) (ordered platform.toNumbers (count 12)) := by
    rw [ordered_count platform (by norm_num), ordered_count platform (by norm_num)]
    exact ⟨['1'], [], by decide +kernel, by decide +kernel⟩
  exact hcounts.object (text "held") [(text "name", .string (text shown.name)), (text "title", .string (text shown.title))]
    [(text "shown", count shown.shown), (text "capped", .bool shown.capped), (text "entries", .array (shown.entries.map Fact.toJs))]

theorem sections_differ (platform : Platform) (shown : SectionView) (pre post : List SectionView) : Differ
    (digestText platform.toNumbers (pre ++ { shown with held := 11 } :: post))
    (digestText platform.toNumbers (pre ++ { shown with held := 12 } :: post)) := by
  have harray := (view_differ platform shown).array (pre.map SectionView.toJs) (post.map SectionView.toJs)
  have hobject := harray.object (text "sections") [(text "version", .string (text contextProjectionVersion))] []
  have htext (view : SectionView) : digestText platform.toNumbers (pre ++ view :: post) = ordered platform.toNumbers
      (.object ([(text "version", .string (text contextProjectionVersion))] ++
        (text "sections", .array (pre.map SectionView.toJs ++ view.toJs :: post.map SectionView.toJs)) :: [])) := by
    rw [digestText, digested, List.map_append, List.map_cons]
    rfl
  rw [htext, htext]
  exact hobject

end Texts

section Extending

variable {spec : SectionSpec} {shown : List Fact}

def pendingStep : Fact :=
  [("step", .integer (.finite one)), ("verb", .string (text "x")), ("status", .string (text "pending"))]

def openQuestion : Fact := [("question", .string (text "x")), ("blocking", .boolean false)]

theorem fitText_x {max : ℕ} (h : 1 ≤ max) : FitText max (text "x") := ⟨by decide, by decide, h⟩

theorem pendingStep_inSchema : InSchema planSpec pendingStep := by
  refine ⟨.take "step" ⟨1, by decide +kernel, by decide, by decide⟩ (.take "verb" (fitText_x (by decide))
    (.skip _ (.take "status" ?_ .nil))), by decide⟩
  exact List.mem_cons_self

theorem openQuestion_inSchema : InSchema questionsSpec openQuestion :=
  ⟨.take "question" (fitText_x (by decide)) (.take "blocking" trivial .nil), by decide⟩

/-- More entries of a section that shows the same as before. -/
structure Extended (spec : SectionSpec) (shown longer : List Fact) (k : ℕ) : Prop where
  length : longer.length = shown.length + k
  inSchema : ∀ entry ∈ longer, InSchema spec entry
  window : windowFor spec longer = shown

theorem inSchema_replicate {filler : Fact} (hfiller : InSchema spec filler) (hshown : ∀ entry ∈ shown, InSchema spec entry) (k : ℕ) :
    (∀ entry ∈ List.replicate k filler ++ shown, InSchema spec entry) ∧
      ∀ entry ∈ shown ++ List.replicate k filler, InSchema spec entry := by
  have hboth : ∀ entry, entry ∈ List.replicate k filler ∨ entry ∈ shown → InSchema spec entry := by
    intro entry hmem
    rcases hmem with hmem | hmem
    · rw [List.eq_of_mem_replicate hmem]
      exact hfiller
    · exact hshown entry hmem
  exact ⟨fun entry hmem ↦ hboth entry (List.mem_append.mp hmem), fun entry hmem ↦ hboth entry (List.mem_append.mp hmem).symm⟩

theorem extended_recent (hwindow : spec.window = none) (hrank : spec.rank = none) (hshows : 0 < spec.shows)
    (hlength : shown.length = spec.shows) (hshown : ∀ entry ∈ shown, InSchema spec entry) (k : ℕ) :
    ∃ longer, Extended spec shown longer k := by
  obtain ⟨filler, hfiller⟩ := List.exists_mem_of_length_pos (hlength ▸ hshows)
  refine ⟨List.replicate k filler ++ shown, ?_, (inSchema_replicate (hshown filler hfiller) hshown k).1, ?_⟩
  · simp [Nat.add_comm]
  · rw [windowFor_recent hwindow hrank, List.length_append, hlength, Nat.add_sub_cancel, List.drop_left]

theorem extended_active (hlength : shown.length = planSpec.shows) (hshown : ∀ entry ∈ shown, InSchema planSpec entry) (k : ℕ) :
    ∃ longer, Extended planSpec shown longer k := by
  obtain ⟨hbefore, hafter⟩ := inSchema_replicate pendingStep_inSchema hshown k
  have hfiller : (List.replicate k pendingStep).findIdx? isActive = none := by
    rw [List.findIdx?_eq_none_iff]
    intro entry hentry
    rw [List.eq_of_mem_replicate hentry]
    decide
  by_cases hk : k = 0
  · subst hk
    exact ⟨shown, rfl, hshown, windowFor_of_few hlength.le⟩
  · have hlonger (entries : List Fact) (hentries : entries.length = shown.length + k) : planSpec.shows < entries.length := by
      omega
    cases hactive : shown.findIdx? isActive with
    | none =>
      refine ⟨List.replicate k pendingStep ++ shown, by simp [Nat.add_comm], hbefore, ?_⟩
      rw [windowFor_of_inactive rfl (by rw [List.findIdx?_append, hfiller, hactive]; rfl), List.length_append, hlength,
        Nat.add_sub_cancel, List.drop_left]
    | some active =>
      have hlt : active < shown.length := (List.findIdx?_eq_some_iff_findIdx_eq.mp hactive).1
      by_cases hlate : 4 ≤ active
      · -- the window has moved on with the active step, by what was put before it
        have hlength' : (List.replicate k pendingStep ++ shown).length = shown.length + k := by simp [Nat.add_comm]
        refine ⟨List.replicate k pendingStep ++ shown, hlength', hbefore, ?_⟩
        have hplace : (List.replicate k pendingStep ++ shown).findIdx? isActive = some (active + k) := by
          rw [List.findIdx?_append, hfiller, hactive]
          simp
        have hstart : min (active + k - planSpec.shows / 2) ((List.replicate k pendingStep ++ shown).length - planSpec.shows) =
            (List.replicate k pendingStep).length := by
          rw [hlength', hlength, List.length_replicate]
          change min (active + k - 4) (8 + k - 8) = k
          omega
        rw [windowFor_of_active rfl (hlonger _ hlength') hplace, hstart, List.drop_left, List.take_of_length_le hlength.le]
      · -- the window stays at the start, and what comes after it does not matter
        have hlength' : (shown ++ List.replicate k pendingStep).length = shown.length + k := by simp
        refine ⟨shown ++ List.replicate k pendingStep, hlength', hafter, ?_⟩
        have hplace : (shown ++ List.replicate k pendingStep).findIdx? isActive = some active := by
          rw [List.findIdx?_append, hactive]
          rfl
        have hstart : min (active - planSpec.shows / 2) ((shown ++ List.replicate k pendingStep).length - planSpec.shows) = 0 := by
          change min (active - 4) _ = 0
          omega
        rw [windowFor_of_active rfl (hlonger _ hlength') hplace, hstart, List.drop_zero, ← hlength, List.take_left]

theorem rankedWindow_behind {rank : Fact → ℕ} {shows : ℕ} {lows : List Fact} (hlength : shown.length = shows)
    (hlows : ∀ entry ∈ lows, rank entry = 0) : rankedWindow rank shows (lows ++ shown) = shown := by
  have hbest : (Selection.best (importance rank) shows (lows.zipIdx ++ shown.zipIdx lows.length)).Perm
      (shown.zipIdx lows.length) := by
    have hnodup := nodup_zipIdx (lows ++ shown)
    rw [List.zipIdx_append, Nat.zero_add] at hnodup
    refine Selection.best_perm hnodup (by rw [List.length_zipIdx, hlength]) ?_
    intro a ha b hb
    have hrank := hlows a.1 (List.fst_mem_of_mem_zipIdx ha)
    have hplace := List.snd_lt_of_mem_zipIdx ha
    have hlater := List.le_snd_of_mem_zipIdx hb
    refine Prod.Lex.toLex_lt_toLex.mpr ?_
    rw [hrank]
    omega
  have hplaces (i : ℕ) : i ∈ (Selection.best (importance rank) shows (lows.zipIdx ++ shown.zipIdx lows.length)).map Prod.snd ↔
      lows.length ≤ i ∧ i < lows.length + shown.length := by
    rw [(hbest.map Prod.snd).mem_iff, List.zipIdx_map_snd, List.mem_range'_1]
  rw [rankedWindow, List.zipIdx_append, Nat.zero_add]
  simp only [hplaces, List.filter_append, List.map_append]
  have hnone : (lows.zipIdx.filter fun entry ↦ decide (lows.length ≤ entry.2 ∧ entry.2 < lows.length + shown.length)) = [] := by
    rw [List.filter_eq_nil_iff]
    intro entry hentry
    have hplace := List.snd_lt_of_mem_zipIdx hentry
    simp only [decide_eq_true_eq]
    omega
  have hall : ((shown.zipIdx lows.length).filter fun entry ↦
      decide (lows.length ≤ entry.2 ∧ entry.2 < lows.length + shown.length)) = shown.zipIdx lows.length := by
    rw [List.filter_eq_self]
    intro entry hentry
    have hlater := List.le_snd_of_mem_zipIdx hentry
    have hplace := List.snd_lt_add_of_mem_zipIdx hentry
    simp only [decide_eq_true_eq]
    omega
  rw [hnone, hall, List.map_nil, List.nil_append, List.zipIdx_map_fst]

theorem extended_ranked (hlength : shown.length = questionsSpec.shows) (hshown : ∀ entry ∈ shown, InSchema questionsSpec entry)
    (k : ℕ) : ∃ longer, Extended questionsSpec shown longer k := by
  by_cases hk : k = 0
  · subst hk
    exact ⟨shown, rfl, hshown, windowFor_of_few hlength.le⟩
  · refine ⟨List.replicate k openQuestion ++ shown, by simp [Nat.add_comm],
      (inSchema_replicate openQuestion_inSchema hshown k).1, ?_⟩
    have hmany : ¬(List.replicate k openQuestion ++ shown).length ≤ questionsSpec.shows := by
      rw [List.length_append, hlength, List.length_replicate]
      omega
    rw [windowFor, if_neg hmany]
    exact rankedWindow_behind hlength fun entry hentry ↦ by
      rw [List.eq_of_mem_replicate hentry]
      decide

theorem extended {k : ℕ} (hspec : spec ∈ contextSections) (hmany : spec.cardinality = .many) (hlength : shown.length = spec.shows)
    (hshown : ∀ entry ∈ shown, InSchema spec entry) : ∃ longer, Extended spec shown longer k := by
  have hchooses := chooses hspec
  simp only [contextSections, List.mem_cons, List.not_mem_nil, or_false] at hspec
  rcases hspec with rfl | rfl | rfl | rfl | rfl | rfl | rfl | rfl | rfl
  · cases hmany
  · exact extended_active hlength hshown k
  · exact extended_recent rfl rfl hchooses.shows hlength hshown k
  · exact extended_ranked hlength hshown k
  all_goals exact extended_recent rfl rfl hchooses.shows hlength hshown k

end Extending

section Determined

variable {ns : Numbers} {spec : SectionSpec} {facts others : List JsValue}

theorem showSame_iff : ShowSame ns facts others ↔ ∀ spec ∈ contextSections,
    (viewOf spec (valuesIn ns spec facts)).entries = (viewOf spec (valuesIn ns spec others)).entries := by
  rw [ShowSame, view_sections, view_sections, List.map_map, List.map_map]
  exact List.map_inj_left

theorem identifier_eq (ns : Numbers) (facts : List JsValue) :
    identifier ns facts = .ok (digestOfText (digestText ns (view ns facts).sections)) := by
  rw [identifier, projectContext_eq]
  rfl

theorem length_shown (spec : SectionSpec) (valid : List Fact) :
    (viewOf spec valid).entries.length = min spec.shows (viewOf spec valid).held := length_windowFor spec _

theorem viewOf_shown (hspec : spec ∈ contextSections) (valid : List Fact) :
    (viewOf spec (viewOf spec valid).entries).entries = (viewOf spec valid).entries := by
  have hshown := (viewOf_shows (chooses hspec) valid).shown
  have hlength := length_shown spec valid
  have hcurrent : current spec (viewOf spec valid).entries = (viewOf spec valid).entries := by
    cases hcardinality : spec.cardinality with
    | many => exact current_many hcardinality _
    | one =>
      have hone := ((chooses hspec).one hcardinality).2.2
      rw [current_one hcardinality, Nat.sub_eq_zero_of_le (by omega), List.drop_zero]
  change windowFor spec (current spec (viewOf spec valid).entries) = _
  rw [hcurrent, windowFor_of_few (by omega)]

theorem held_eq (hspec : spec ∈ contextSections) (valid : List Fact) : (viewOf spec valid).held = match spec.cardinality with
    | .one => min 1 valid.length
    | .many => valid.length := (viewOf_shows (chooses hspec) valid).held

theorem sections_eq (h : ShowSame ns facts others) (hheld : ∀ spec ∈ contextSections,
    (viewOf spec (valuesIn ns spec facts)).held = (viewOf spec (valuesIn ns spec others)).held) :
    (view ns facts).sections = (view ns others).sections := by
  rw [view_sections, view_sections]
  apply List.map_congr_left
  intro spec hspec
  have hentries := showSame_iff.mp h spec hspec
  have hcounts := hheld spec hspec
  change SectionView.mk spec.name spec.title (viewOf spec (valuesIn ns spec facts)).held
      (viewOf spec (valuesIn ns spec facts)).entries.length
      (decide ((viewOf spec (valuesIn ns spec facts)).entries.length < (viewOf spec (valuesIn ns spec facts)).held))
      (viewOf spec (valuesIn ns spec facts)).entries =
    SectionView.mk spec.name spec.title (viewOf spec (valuesIn ns spec others)).held
      (viewOf spec (valuesIn ns spec others)).entries.length
      (decide ((viewOf spec (valuesIn ns spec others)).entries.length < (viewOf spec (valuesIn ns spec others)).held))
      (viewOf spec (valuesIn ns spec others)).entries
  rw [hentries, hcounts]

theorem held_of_shown (hspec : spec ∈ contextSections) (hfull : ¬Full ns spec facts)
    (hentries : (viewOf spec (valuesIn ns spec facts)).entries = (viewOf spec (valuesIn ns spec others)).entries) :
    (viewOf spec (valuesIn ns spec facts)).held = (viewOf spec (valuesIn ns spec others)).held := by
  have hlength := congrArg List.length hentries
  rw [length_shown, length_shown] at hlength
  have hheld := held_eq hspec (valuesIn ns spec facts)
  have hothers := held_eq hspec (valuesIn ns spec others)
  cases hcardinality : spec.cardinality with
  | one =>
    have hone := ((chooses hspec).one hcardinality).2.2
    rw [hcardinality] at hheld hothers
    simp only at hheld hothers
    omega
  | many =>
    rw [Full, not_and] at hfull
    have hfew := hfull hcardinality
    rw [hcardinality] at hheld hothers
    simp only at hheld hothers
    omega

def moreOf (ns : Numbers) (facts : List JsValue) (spec : SectionSpec) (longer : List Fact) (other : SectionSpec) : List Fact :=
  if other.name = spec.name then longer else (viewOf other (valuesIn ns other facts)).entries

variable {longer : List Fact} {k : ℕ}

theorem moreOf_inSchema (h : Extended spec (viewOf spec (valuesIn ns spec facts)).entries longer k) (hspec : spec ∈ contextSections) :
    ∀ other ∈ contextSections, ∀ entry ∈ moreOf ns facts spec longer other, InSchema other entry := by
  intro other hother entry hentry
  rw [moreOf] at hentry
  split at hentry
  · rename_i hname
    obtain rfl := List.inj_on_of_nodup_map nodup_names hother hspec hname
    exact h.inSchema entry hentry
  · exact inSchema_of_shown hother hentry

/-- The view of a section with more entries than it shows, but for how many they are. -/
def fullView (ns : Numbers) (facts : List JsValue) (spec : SectionSpec) : SectionView :=
  ⟨spec.name, spec.title, 0, (viewOf spec (valuesIn ns spec facts)).entries.length, true, (viewOf spec (valuesIn ns spec facts)).entries⟩

theorem viewOf_more (h : Extended spec (viewOf spec (valuesIn ns spec facts)).entries longer k) (hmany : spec.cardinality = .many)
    (hk : 0 < k) : viewOf spec longer =
      { fullView ns facts spec with held := (viewOf spec (valuesIn ns spec facts)).entries.length + k } := by
  have hlonger : (viewOf spec (valuesIn ns spec facts)).entries.length < longer.length := by
    have hlength := h.length
    omega
  have hentries : windowFor spec (current spec longer) = (viewOf spec (valuesIn ns spec facts)).entries := by
    rw [current_many hmany, h.window]
  change SectionView.mk spec.name spec.title (current spec longer).length (windowFor spec (current spec longer)).length
    (decide ((windowFor spec (current spec longer)).length < (current spec longer).length)) (windowFor spec (current spec longer)) = _
  rw [hentries, current_many hmany, decide_eq_true hlonger, h.length]
  rfl

theorem showSame_more (h : Extended spec (viewOf spec (valuesIn ns spec facts)).entries longer k) (hspec : spec ∈ contextSections)
    (hmany : spec.cardinality = .many) : ShowSame ns facts (factsOf (moreOf ns facts spec longer)) := by
  refine showSame_iff.mpr fun other hother ↦ ?_
  rw [valuesIn_factsOf (moreOf_inSchema h hspec) hother, moreOf]
  split
  · rename_i hname
    obtain rfl := List.inj_on_of_nodup_map nodup_names hother hspec hname
    change _ = windowFor other (current other longer)
    rw [current_many hmany, h.window]
  · exact (viewOf_shown hother _).symm

theorem identifiers_differ (platform : Platform) (hspec : spec ∈ contextSections) (hfull : Full platform.toNumbers spec facts) :
    ∃ others, AllInSchema platform.toNumbers others ∧ ShowSame platform.toNumbers facts others ∧
      identifier platform.toNumbers others ≠ identifier platform.toNumbers facts := by
  obtain ⟨hmany, hheld⟩ := hfull
  have hshows := (chooses hspec).few
  have hlength : (viewOf spec (valuesIn platform.toNumbers spec facts)).entries.length = spec.shows := by
    rw [length_shown, held_eq hspec, hmany]
    exact min_eq_left hheld
  have hextended (k : ℕ) := extended (k := k) hspec hmany hlength fun entry hentry ↦ inSchema_of_shown hspec hentry
  obtain ⟨eleven, h11⟩ := hextended (11 - spec.shows)
  obtain ⟨twelve, h12⟩ := hextended (12 - spec.shows)
  obtain ⟨pre, post, hsplit⟩ := List.append_of_mem hspec
  have hothers : ∀ other ∈ pre ++ post, other.name ≠ spec.name := by
    have hnodup := nodup_names
    rw [hsplit, List.map_append, List.map_cons, List.nodup_middle, List.nodup_cons, ← List.map_append] at hnodup
    intro other hother hname
    exact hnodup.1 (hname ▸ List.mem_map_of_mem hother)
  have hsections {longer : List Fact} {k : ℕ}
      (h : Extended spec (viewOf spec (valuesIn platform.toNumbers spec facts)).entries longer k) (hk : 0 < k) :
      (view platform.toNumbers (factsOf (moreOf platform.toNumbers facts spec longer))).sections =
        pre.map (fun other ↦ viewOf other (viewOf other (valuesIn platform.toNumbers other facts)).entries) ++
          { fullView platform.toNumbers facts spec with held := spec.shows + k } ::
          post.map (fun other ↦ viewOf other (viewOf other (valuesIn platform.toNumbers other facts)).entries) := by
    have hview : ∀ other ∈ contextSections, viewOf other (valuesIn platform.toNumbers other
        (factsOf (moreOf platform.toNumbers facts spec longer))) = viewOf other (moreOf platform.toNumbers facts spec longer other) := by
      intro other hother
      rw [valuesIn_factsOf (moreOf_inSchema h hspec) hother]
    have hrest : ∀ other ∈ pre ++ post, viewOf other (moreOf platform.toNumbers facts spec longer other) =
        viewOf other (viewOf other (valuesIn platform.toNumbers other facts)).entries := by
      intro other hother
      rw [moreOf, if_neg (hothers other hother)]
    have hhere : viewOf spec (moreOf platform.toNumbers facts spec longer spec) =
        { fullView platform.toNumbers facts spec with held := spec.shows + k } := by
      rw [moreOf, if_pos rfl, viewOf_more h hmany hk, hlength]
    rw [view_sections, List.map_congr_left hview, hsplit, List.map_append, List.map_cons, hhere,
      List.map_congr_left fun other hother ↦ hrest other (List.mem_append_left post hother),
      List.map_congr_left fun other hother ↦ hrest other (List.mem_append_right pre hother)]
  by_cases hsame : identifier platform.toNumbers (factsOf (moreOf platform.toNumbers facts spec eleven)) =
      identifier platform.toNumbers facts
  · refine ⟨_, allInSchema_factsOf (moreOf_inSchema h12 hspec), showSame_more h12 hspec hmany, ?_⟩
    rw [← hsame, identifier_eq, identifier_eq]
    intro heq
    have hdiffer := sections_differ platform (fullView platform.toNumbers facts spec)
      (pre.map fun other ↦ viewOf other (viewOf other (valuesIn platform.toNumbers other facts)).entries)
      (post.map fun other ↦ viewOf other (viewOf other (valuesIn platform.toNumbers other facts)).entries)
    have heleven := hsections h11 (by omega)
    have htwelve := hsections h12 (by omega)
    rw [Nat.add_sub_cancel' (by omega)] at heleven htwelve
    rw [heleven, htwelve] at heq
    exact hash_differ hdiffer (Except.ok.inj heq).symm
  · exact ⟨_, allInSchema_factsOf (moreOf_inSchema h11 hspec), showSame_more h11 hspec hmany, hsame⟩

/-- The identifier depends on nothing but what is shown exactly where no section with many entries is full; and where two
lists hold as many entries and show the same ones, they have the same identifier. -/
theorem identifier_determined_iff (platform : Platform) (facts : List JsValue) :
    ((∀ others, AllInSchema platform.toNumbers others → ShowSame platform.toNumbers facts others →
        identifier platform.toNumbers others = identifier platform.toNumbers facts) ↔
      ∀ spec ∈ contextSections, ¬Full platform.toNumbers spec facts) ∧
    ∀ others, ShowSame platform.toNumbers facts others → (∀ spec ∈ contextSections, spec.cardinality = .many →
        (valuesIn platform.toNumbers spec facts).length = (valuesIn platform.toNumbers spec others).length) →
      identifier platform.toNumbers others = identifier platform.toNumbers facts := by
  refine ⟨⟨?_, ?_⟩, ?_⟩
  · intro h spec hspec hfull
    obtain ⟨others, hschema, hsame, hdiffer⟩ := identifiers_differ platform hspec hfull
    exact hdiffer (h others hschema hsame)
  · intro h others _ hsame
    rw [identifier_eq, identifier_eq, sections_eq hsame]
    intro spec hspec
    exact held_of_shown hspec (h spec hspec) (showSame_iff.mp hsame spec hspec)
  · intro others hsame hmany
    rw [identifier_eq, identifier_eq, sections_eq hsame]
    intro spec hspec
    have hlength := congrArg List.length (showSame_iff.mp hsame spec hspec)
    rw [length_shown, length_shown] at hlength
    rw [held_eq hspec, held_eq hspec] at hlength ⊢
    cases hcardinality : spec.cardinality with
    | one =>
      have hone := ((chooses hspec).one hcardinality).2.2
      simp only [hcardinality] at hlength ⊢
      omega
    | many => exact hmany spec hspec hcardinality

def checked : Fact := [("claim", .string (text "x")), ("recomputed", .boolean true)]

theorem checked_inSchema : InSchema evidenceSpec checked :=
  ⟨.take "claim" (fitText_x (by decide)) (.skip _ (.take "recomputed" trivial .nil)), by decide⟩

def checkedTimes (times : ℕ) : List JsValue := List.replicate times (toFact evidenceSpec checked)

theorem valuesIn_checkedTimes (ns : Numbers) (hspec : spec ∈ contextSections) (times : ℕ) :
    valuesIn ns spec (checkedTimes times) = if spec.name = "evidence" then List.replicate times checked else [] := by
  rw [valuesIn, checkedTimes, List.filterMap_replicate, sectionOf_toFact mem_evidence]
  by_cases hname : spec.name = "evidence"
  · obtain rfl := List.inj_on_of_nodup_map nodup_names hspec mem_evidence hname
    have hsame : Option.map SectionSpec.name (some evidenceSpec) = some evidenceSpec.name := rfl
    rw [if_pos hname, if_pos hsame, valueOf_toFact mem_evidence checked_inSchema]
    rfl
  · have hother : Option.map SectionSpec.name (some evidenceSpec) ≠ some spec.name := fun h ↦ hname (Option.some.inj h).symm
    rw [if_neg hname, if_neg hother]

/-- Six of eleven facts and six of twelve are the same, and their identifiers are not. -/
theorem dropped_fact_identified :
    (AllInSchema wholeNumbers.toNumbers (checkedTimes 11) ∧ AllInSchema wholeNumbers.toNumbers (checkedTimes 12)) ∧
    ShowSame wholeNumbers.toNumbers (checkedTimes 11) (checkedTimes 12) ∧
    identifier wholeNumbers.toNumbers (checkedTimes 11) ≠ identifier wholeNumbers.toNumbers (checkedTimes 12) := by
  have hschema (times : ℕ) : AllInSchema wholeNumbers.toNumbers (checkedTimes times) := by
    intro fact hfact
    rw [List.eq_of_mem_replicate hfact]
    refine ⟨evidenceSpec, sectionOf_toFact mem_evidence checked, ?_⟩
    rw [valueOf_toFact mem_evidence checked_inSchema]
    rfl
  have hsections (times : ℕ) : (view wholeNumbers.toNumbers (checkedTimes times)).sections =
      [viewOf goalSpec [], viewOf planSpec []] ++ viewOf evidenceSpec (List.replicate times checked) ::
        [viewOf questionsSpec [], viewOf diffSpec [], viewOf failuresSpec [], viewOf tokensSpec [], viewOf attemptsSpec [],
          viewOf repositorySpec []] := by
    rw [view_sections, List.map_congr_left fun spec hspec ↦ by rw [valuesIn_checkedTimes _ hspec]]
    rfl
  have hdiffer := sections_differ wholeNumbers (viewOf evidenceSpec (List.replicate 11 checked))
    [viewOf goalSpec [], viewOf planSpec []] [viewOf questionsSpec [], viewOf diffSpec [], viewOf failuresSpec [],
      viewOf tokensSpec [], viewOf attemptsSpec [], viewOf repositorySpec []]
  refine ⟨⟨hschema 11, hschema 12⟩, ?_, ?_⟩
  · rw [ShowSame, hsections, hsections]
    rfl
  · rw [identifier_eq, identifier_eq, hsections, hsections]
    exact fun heq ↦ hash_differ hdiffer (Except.ok.inj heq)

end Determined

end Noesar.Context
