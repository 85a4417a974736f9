import Noesar.Context.Rendering

namespace Noesar.Context

open Lib Lib.Utf16 Lib.Json Lib.InsertionMap Lib.Decimal Canonical
open Author (text lines unlines newline)

abbrev JsArray (α : Type) := { items : List α // items.length < 2 ^ 32 }

def frame (projection : Projection) : List Units :=
  titleLine projection :: (heldBack projection.toView ++ projection.sections.flatMap fun shown ↦ [[], header shown])

def shownRows (ns : Numbers) (projection : Projection) : List Row :=
  projection.sections.flatMap fun shown ↦ shown.entries.flatMap (rowsOf ns shown.name)

def characters (ns : Numbers) (projection : Projection) : ℕ :=
  ((frame projection).map fun line ↦ byteLength line + 1).sum + ((shownRows ns projection).map (Row.size List.length)).sum

def extraBytes (ns : Numbers) (projection : Projection) : ℕ := ((shownRows ns projection).map Row.surplus).sum

section Sizes

variable {ns : Numbers}

theorem byteLength_ended (ls : List Units) (rest : Units) :
    byteLength ((ls.flatMap fun line ↦ line ++ [newline]) ++ rest) = (ls.map fun line ↦ byteLength line + 1).sum + byteLength rest := by
  have hnewline : [newline] = encode ['\n'] := by decide
  have hone : byteLength (encode ['\n']) = 1 := by decide
  induction ls with
  | nil => simp
  | cons line ls ih =>
    rw [hnewline] at ih ⊢
    rw [List.flatMap_cons, List.append_assoc, List.append_assoc, byteLength_append_encode _ (by decide), byteLength_encode_append,
      ih, hone, List.map_cons, List.sum_cons]
    omega

theorem byteLength_spelled {rows : List Row} (h : ∀ row ∈ rows, ∀ part ∈ row.parts, part.2 ≠ "") (rest : Units) :
    byteLength (rows.flatMap Row.spell ++ rest) = (rows.map (Row.size byteLength)).sum + byteLength rest := by
  induction rows with
  | nil => simp
  | cons row rows ih =>
    have ih := ih fun row hrow ↦ h row (List.mem_cons_of_mem _ hrow)
    rw [List.flatMap_cons, List.append_assoc, byteLength_spell (h row List.mem_cons_self), ih, List.map_cons, List.sum_cons,
      Nat.add_assoc]

theorem entries_spelled (ns : Numbers) (shown : SectionView) :
    ((shown.entries.flatMap fun value ↦ (renderValue ns shown.name value).map fun line ↦ text "  " ++ line).flatMap
      fun line ↦ line ++ [newline]) = (shown.entries.flatMap (rowsOf ns shown.name)).flatMap Row.spell := by
  rw [List.flatMap_assoc, List.flatMap_assoc]
  refine List.flatMap_congr fun value _ ↦ ?_
  rw [List.flatMap_map, List.flatMap_def, List.flatMap_def, rows_spelled]

theorem byteLength_sections (ns : Numbers) (sections : List SectionView) :
    byteLength ((sections.flatMap (sectionLines ns)).flatMap fun line ↦ line ++ [newline]) =
      ((sections.flatMap fun shown ↦ [[], header shown]).map fun line ↦ byteLength line + 1).sum +
        ((sections.flatMap fun shown ↦ shown.entries.flatMap (rowsOf ns shown.name)).map (Row.size byteLength)).sum := by
  induction sections with
  | nil => rfl
  | cons shown sections ih =>
    have hlabelled : ∀ row ∈ shown.entries.flatMap (rowsOf ns shown.name), ∀ part ∈ row.parts, part.2 ≠ "" := by
      intro row hrow
      obtain ⟨value, _, hrow⟩ := List.mem_flatMap.mp hrow
      exact labelled hrow
    rw [List.flatMap_cons, List.flatMap_append, sectionLines, List.flatMap_append, List.append_assoc, byteLength_ended,
      entries_spelled, byteLength_spelled hlabelled, ih, List.flatMap_cons, List.map_append, List.sum_append, List.flatMap_cons,
      List.map_append, List.sum_append]
    omega

theorem size_shownRows (ns : Numbers) (projection : Projection) : ((shownRows ns projection).map (Row.size byteLength)).sum =
    ((shownRows ns projection).map (Row.size List.length)).sum + extraBytes ns projection := by
  rw [extraBytes, ← List.sum_map_add]
  exact congrArg List.sum (List.map_congr_left fun row _ ↦ row.size_byteLength)

theorem byteLength_renderProjection (ns : Numbers) (projection : Projection) :
    byteLength (renderProjection ns projection) = characters ns projection + extraBytes ns projection := by
  have hrows := size_shownRows ns projection
  rw [renderProjection, unlines_ended (List.cons_ne_nil _ _), ← List.cons_append, List.flatMap_append, byteLength_ended,
    byteLength_sections, characters, frame, ← List.cons_append, List.map_append, List.sum_append, ← shownRows, hrows]
  omega

end Sizes

section Fields

variable {spec : SectionSpec} {value : Fact} {field : String} {fieldSpec : FieldSpec}

theorem length_integerShown {n k : ℕ} (hpos : 0 < k) (hk : k ≤ 15) (h : n < 10 ^ k) :
    (integerShown n).length ≤ k ∧ byteLength (integerShown n) ≤ k := by
  have hlimit : n < 2 ^ 53 := h.trans_le ((Nat.pow_le_pow_right (by norm_num) hk).trans (by norm_num))
  have hdigits : (Nat.toDigits 10 n).length ≤ k := (Nat.length_toDigits_le_iff (by norm_num) hpos).mpr h
  have hascii : ∀ c ∈ Nat.toDigits 10 n, c.toNat < 128 := by
    intro c hc
    have hrange := Char.isDigit_iff_toNat.mp (isDigit_of_mem hc)
    exact hrange.2.trans_lt (by decide)
  obtain ⟨hlength, hbytes⟩ := length_encode_ascii hascii
  rw [integerShown, integerText_natCast hlimit, hlength, hbytes]
  exact ⟨hdigits, hdigits⟩

theorem length_numberShown (platform : Platform) {leaf : Leaf} {n : ℤ} (hleaf : integerOf leaf = some n) (hmin : 0 ≤ n)
    (hmax : n < 10 ^ 15) : (numberShown platform.toNumbers leaf).length ≤ 24 := by
  have hnat : n.toNat < 10 ^ 15 := by omega
  have hlimit : n.toNat < 2 ^ 53 := hnat.trans (by norm_num)
  have hlength := (length_integerShown (by norm_num) le_rfl hnat).1
  rw [integerShown, integerText_natCast hlimit] at hlength
  rw [numberShown_eq platform hleaf hmin hmax]
  omega

theorem length_shownIn (platform : Platform) (hspec : spec ∈ contextSections) (h : InSchema spec value)
    (hfield : (field, fieldSpec) ∈ spec.fields) (hlist : ∀ max itemMax, fieldSpec ≠ .list max itemMax) :
    (shownIn platform.toNumbers field value).length ≤ fieldAllowance fieldSpec := by
  have hmodest := modest spec hspec _ hfield
  have hundefined : (text "undefined").length = 9 := by decide
  unfold shownIn
  cases hlookup : lookup field value with
  | none =>
    simp only [hundefined]
    cases fieldSpec with
    | string => exact hmodest
    | list max itemMax => exact absurd rfl (hlist max itemMax)
    | _ => exact Nat.le_of_ble_eq_true rfl
  | some checked =>
    have hfit := fit_of_lookup hspec h hfield hlookup
    cases fieldSpec with
    | string =>
      cases checked with
      | string => exact hfit.short
      | _ => cases hfit
    | integer =>
      cases checked with
      | integer =>
        obtain ⟨n, hn, hmin, hmax⟩ := hfit
        exact length_numberShown platform hn (hmodest.1.trans hmin) (hmax.trans_lt hmodest.2)
      | _ => cases hfit
    | boolean =>
      cases checked with
      | boolean b =>
        change (text (if b then "true" else "false")).length ≤ 24
        cases b <;> decide
      | _ => cases hfit
    | oneOf =>
      cases checked with
      | string =>
        obtain ⟨name, hname, rfl⟩ := List.mem_map.mp hfit
        exact hmodest name hname
      | _ => cases hfit
    | list max itemMax => exact absurd rfl (hlist max itemMax)

theorem length_itemsIn (hspec : spec ∈ contextSections) (h : InSchema spec value) {max itemMax : ℕ}
    (hfield : (field, .list max itemMax) ∈ spec.fields) :
    (itemsIn field value).length ≤ max ∧ ∀ item ∈ itemsIn field value, item.length ≤ itemMax := by
  unfold itemsIn
  split
  · rename_i items hlookup
    obtain ⟨hcount, hitems⟩ := fit_of_lookup hspec h hfield hlookup
    exact ⟨hcount, fun item hitem ↦ (hitems item hitem).short⟩
  · exact ⟨Nat.zero_le _, fun item hitem ↦ absurd hitem List.not_mem_nil⟩

def entryAllowance (spec : SectionSpec) : ℕ := (spec.fields.map fun field ↦ fieldAllowance field.2).sum + 16

theorem size_items (hspec : spec ∈ contextSections) (h : InSchema spec value) {max itemMax : ℕ}
    (hfield : (field, .list max itemMax) ∈ spec.fields) (label : String) (hlabel : labelBytes label ≤ 15) :
    (((itemsIn field value).map fun item ↦ (⟨label, [(item, "\n")]⟩ : Row)).map (Row.size List.length)).sum ≤
      max * (itemMax + 16) := by
  obtain ⟨hcount, hitems⟩ := length_itemsIn hspec h hfield
  have hend : labelBytes "\n" = 1 := by decide
  have heach : ∀ size ∈ ((itemsIn field value).map fun item ↦ (⟨label, [(item, "\n")]⟩ : Row)).map (Row.size List.length),
      size ≤ itemMax + 16 := by
    intro size hsize
    rw [List.map_map, List.mem_map] at hsize
    obtain ⟨item, hitem, rfl⟩ := hsize
    have hlength := hitems item hitem
    simp only [Function.comp_apply, Row.size, List.map_cons, List.map_nil, List.sum_cons, List.sum_nil, hend]
    omega
  refine (List.sum_le_card_nsmul _ _ heach).trans ?_
  rw [nsmul_eq_mul, List.length_map, List.length_map]
  exact Nat.mul_le_mul_right _ hcount

theorem size_entry (platform : Platform) (hspec : spec ∈ contextSections) (h : InSchema spec value) :
    ((rowsOf platform.toNumbers spec.name value).map (Row.size List.length)).sum ≤ entryAllowance spec := by
  have harrow : labelBytes " → " = 5 := by decide
  have htimes : labelBytes " ×" = 3 := by decide
  have hshown : ∀ field ∈ spec.fields, (∀ max itemMax, field.2 ≠ .list max itemMax) →
      (shownIn platform.toNumbers field.1 value).length ≤ fieldAllowance field.2 :=
    fun field hfield ↦ length_shownIn platform hspec h hfield
  have hitems {field : String} {max itemMax : ℕ} (hfield : (field, .list max itemMax) ∈ spec.fields) :=
    size_items hspec h hfield
  simp only [contextSections, List.mem_cons, List.not_mem_nil, or_false] at hspec
  rcases hspec with rfl | rfl | rfl | rfl | rfl | rfl | rfl | rfl | rfl
  · have hnonGoals := hitems (show ("nonGoals", .list 5 120) ∈ goalSpec.fields by simp [goalSpec]) "    not: " (by decide)
    have hcriteria := hitems (show ("criteria", .list 8 160) ∈ goalSpec.fields by simp [goalSpec]) "    done when: " (by decide)
    simp [rowsOf, goalSpec, entryAllowance, Row.size, labelBytes, byteLength_encode, Char.utf8Size, fieldAllowance]
      at hshown hnonGoals hcriteria ⊢
    omega
  all_goals
    simp [rowsOf, planSpec, evidenceSpec, questionsSpec, diffSpec, failuresSpec, tokensSpec, attemptsSpec, repositorySpec,
      entryAllowance, fieldAllowance] at hshown ⊢
    try split_ifs
    all_goals
      simp only [Row.size, List.map_cons, List.map_nil, List.sum_cons, List.sum_nil, harrow, htimes]
      simp [labelBytes, byteLength_encode, Char.utf8Size]
      omega

end Fields

section Frame

variable {ns : Numbers} {spec : SectionSpec}

theorem byteLength_text_append (s : String) (rest : Units) : byteLength (text s ++ rest) = labelBytes s + byteLength rest :=
  byteLength_encode_append _ _

theorem byteLength_digits_append (n : ℕ) (rest : Units) : byteLength (integerShown n ++ rest) = byteLength (integerShown n) + byteLength rest :=
  byteLength_encode_append _ _

theorem byteLength_titleLine (v : View) (canonical : List Char) :
    byteLength (titleLine { v with version := contextProjectionVersion, digest := digestOfText canonical }) = 46 := by
  have hdigit : ∀ d < 16, d.digitChar.toNat < 128 := by decide
  have hascii : ∀ c ∈ Fnv.padded 8 (Fnv.hash (encode canonical)).toNat, c.toNat < 128 := by
    intro c hc
    obtain ⟨d, hd, rfl⟩ := Fnv.mem_padded hc
    exact hdigit d hd
  have hdigest : byteLength (encode (Fnv.padded 8 (Fnv.hash (encode canonical)).toNat)) = 8 := by
    rw [(length_encode_ascii hascii).2, Fnv.length_padded_hash]
  have hend : byteLength (text ")") = 1 := by decide
  have hlabels : labelBytes "SESSION STATE (projection " = 26 ∧ labelBytes contextProjectionVersion = 5 ∧ labelBytes ", " = 2 ∧
      labelBytes "ctx-" = 4 := by decide
  obtain ⟨hstart, hversion, hcomma, hctx⟩ := hlabels
  rw [titleLine, digestOfText]
  simp only [List.append_assoc, byteLength_text_append, byteLength_encode_append, hstart, hversion, hcomma, hctx, hdigest, hend]

theorem byteLength_heldBack {v : View} (hrejected : v.rejectedFacts < 10 ^ 10) (hunknown : v.unknownSectionFacts < 10 ^ 10) :
    ((heldBack v).map fun line ↦ byteLength line + 1).sum ≤ 64 := by
  have hrejected := (length_integerShown (by decide) (by decide) hrejected).2
  have hunknown := (length_integerShown (by decide) (by decide) hunknown).2
  have hlabels : labelBytes "  held back: " = 13 ∧ labelBytes " out of schema, " = 16 ∧ byteLength (text " in no section") = 14 := by decide
  obtain ⟨hstart, hschema, hend⟩ := hlabels
  unfold heldBack
  split
  · simp only [List.append_assoc, byteLength_text_append, byteLength_digits_append, List.map_cons, List.map_nil, List.sum_cons,
      List.sum_nil, hstart, hschema, hend]
    omega
  · exact Nat.zero_le _

theorem byteLength_header (shown : SectionView) (hascii : byteLength (text shown.title) = (text shown.title).length)
    (hshown : shown.shown < 10 ^ 2) (hheld : shown.held < 10 ^ 10) :
    byteLength (header shown) ≤ (text shown.title).length + 29 := by
  have hshown := (length_integerShown (by decide) (by decide) hshown).2
  have hheld := (length_integerShown (by decide) (by decide) hheld).2
  have hlabels : labelBytes " — showing " = 13 ∧ labelBytes " of " = 4 ∧ byteLength (text " — none") = 9 := by decide
  obtain ⟨hshowing, hof, hnone⟩ := hlabels
  have htitle : labelBytes shown.title = (text shown.title).length := hascii
  unfold header
  split_ifs
  · simp only [List.append_assoc, byteLength_text_append, byteLength_digits_append, hshowing, hof, htitle]
    omega
  · rw [byteLength_text_append, hnone, htitle]
    omega
  · rw [List.append_nil, hascii]
    omega

end Frame

section Ceiling

theorem sum_flatMap {α β : Type} (f : β → ℕ) (g : α → List β) (items : List α) :
    ((items.flatMap g).map f).sum = (items.map fun item ↦ ((g item).map f).sum).sum := by
  induction items with
  | nil => rfl
  | cons item items ih => rw [List.flatMap_cons, List.map_append, List.sum_append, ih, List.map_cons, List.sum_cons]

def sectionSize (ns : Numbers) (shown : SectionView) : ℕ :=
  ([[], header shown].map fun line ↦ byteLength line + 1).sum +
    ((shown.entries.flatMap (rowsOf ns shown.name)).map (Row.size List.length)).sum

theorem characters_eq (ns : Numbers) (projection : Projection) : characters ns projection =
    byteLength (titleLine projection) + 1 + ((heldBack projection.toView).map fun line ↦ byteLength line + 1).sum +
      (projection.sections.map (sectionSize ns)).sum := by
  have hsections : (projection.sections.map (sectionSize ns)).sum = _ := List.sum_map_add
  rw [characters, frame, shownRows, List.map_cons, List.sum_cons, List.map_append, List.sum_append, sum_flatMap, sum_flatMap, hsections]
  omega

variable (platform : Platform) {spec : SectionSpec}

theorem size_section (hspec : spec ∈ contextSections) {valid : List Fact} (hlength : valid.length < 2 ^ 32)
    (hvalid : ∀ value ∈ valid, InSchema spec value) : sectionSize platform.toNumbers (viewOf spec valid) ≤
      (text spec.title).length + 32 + spec.shows * entryAllowance spec := by
  have hchooses := chooses hspec
  have hview := viewOf_shows hchooses valid
  have hcount := hview.shown
  have hshown := hview.entries
  have hheld : (viewOf spec valid).held ≤ valid.length := (current_sublist spec valid).length_le
  have hfew := hchooses.few
  have hascii : ∀ spec ∈ contextSections, byteLength (text spec.title) = (text spec.title).length := by decide +kernel
  have hheader : byteLength (header (viewOf spec valid)) ≤ (text spec.title).length + 29 :=
    byteLength_header (viewOf spec valid) (hascii spec hspec) (by omega) (by omega)
  have hentry : ∀ size ∈ (viewOf spec valid).entries.map fun value ↦
      ((rowsOf platform.toNumbers spec.name value).map (Row.size List.length)).sum, size ≤ entryAllowance spec := by
    intro size hsize
    obtain ⟨value, hvalue, rfl⟩ := List.mem_map.mp hsize
    exact size_entry platform hspec (hvalid value (hview.ordered.subset hvalue))
  have hentries := List.sum_le_card_nsmul _ _ hentry
  rw [nsmul_eq_mul, List.length_map, Nat.cast_id] at hentries
  have hmany : (viewOf spec valid).entries.length * entryAllowance spec ≤ spec.shows * entryAllowance spec :=
    Nat.mul_le_mul_right _ (by omega)
  have hempty : byteLength [] = 0 := rfl
  change ([[], header (viewOf spec valid)].map fun line ↦ byteLength line + 1).sum +
    (((viewOf spec valid).entries.flatMap (rowsOf platform.toNumbers spec.name)).map (Row.size List.length)).sum ≤ _
  rw [sum_flatMap]
  simp only [List.map_cons, List.map_nil, List.sum_cons, List.sum_nil, hempty]
  omega

theorem characters_le (facts : JsArray JsValue) :
    characters platform.toNumbers (projected platform.toNumbers facts.val) ≤ projectionByteCeiling := by
  have hlength := facts.property
  have htitle : byteLength (titleLine (projected platform.toNumbers facts.val)) = 46 := byteLength_titleLine _ _
  have hheldBack : ((heldBack (projected platform.toNumbers facts.val).toView).map fun line ↦ byteLength line + 1).sum ≤ 64 := by
    change ((heldBack (view platform.toNumbers facts.val)).map _).sum ≤ 64
    rw [view_eq]
    apply byteLength_heldBack
    · exact List.countP_le_length.trans_lt (hlength.trans (by norm_num))
    · exact List.countP_le_length.trans_lt (hlength.trans (by norm_num))
  have hsections : ∀ spec ∈ contextSections,
      sectionSize platform.toNumbers (viewOf spec (valuesIn platform.toNumbers spec facts.val)) ≤
        (text spec.title).length + 32 + spec.shows * entryAllowance spec := by
    intro spec hspec
    exact size_section platform hspec ((List.length_filterMap_le _ _).trans_lt hlength) fun value hvalue ↦
      inSchema_of_mem_valuesIn hspec hvalue
  have hsum : ((view platform.toNumbers facts.val).sections.map (sectionSize platform.toNumbers)).sum ≤
      (contextSections.map fun spec ↦ (text spec.title).length + 32 + spec.shows * entryAllowance spec).sum := by
    rw [view_sections, List.map_map]
    exact List.sum_le_sum hsections
  rw [characters_eq, htitle]
  exact Nat.add_le_add (show 46 + 1 + _ ≤ 128 from by omega) hsum

/-- A view is within the ceiling exactly where the characters of its entries take no more bytes beyond one each than their
number leaves, which they all do that are ASCII. -/
theorem within_ceiling_iff (facts : JsArray JsValue) :
    ∃ projection, projectContext platform.toNumbers facts.val = .ok projection ∧
      (byteLength (renderProjection platform.toNumbers projection) ≤ projectionByteCeiling ↔
        extraBytes platform.toNumbers projection ≤ projectionByteCeiling - characters platform.toNumbers projection) ∧
      characters platform.toNumbers projection ≤ projectionByteCeiling ∧
      ((∀ row ∈ shownRows platform.toNumbers projection, ∀ part ∈ row.parts, ∀ u ∈ part.1, u.toNat < 128) →
        byteLength (renderProjection platform.toNumbers projection) ≤ projectionByteCeiling) := by
  have hle := characters_le platform facts
  refine ⟨projected platform.toNumbers facts.val, projectContext_eq facts.val, ?_, hle, ?_⟩
  · rw [byteLength_renderProjection]
    omega
  · intro hascii
    have hnone : extraBytes platform.toNumbers (projected platform.toNumbers facts.val) = 0 := by
      rw [extraBytes, List.sum_eq_zero_iff]
      intro size hsize
      obtain ⟨row, hrow, rfl⟩ := List.mem_map.mp hsize
      rw [Row.surplus, List.sum_eq_zero_iff]
      intro size hsize
      obtain ⟨part, hpart, rfl⟩ := List.mem_map.mp hsize
      exact surplus_ascii (hascii row hrow part hpart)
    rw [byteLength_renderProjection, hnone, Nat.add_zero]
    exact hle

end Ceiling

section Wide

def wide (times : ℕ) : Units := List.replicate times 0x4E00

theorem byteLength_wide (times : ℕ) : byteLength (wide times) = 3 * times := by
  induction times with
  | zero => rfl
  | succ times ih =>
    have hpoint : pointBytes (point 0x4E00) = 3 := by decide
    have hhigh : isHigh 0x4E00 = false := by decide
    rw [wide, List.replicate_succ, byteLength, points_cons hhigh, List.map_cons, List.sum_cons, hpoint, ← byteLength, ← wide, ih]
    omega

theorem fitText_wide {times max : ℕ} (hpos : 0 < times) (hle : times ≤ max) : FitText max (wide times) := by
  have hspace : Author.isSpace 0x4E00 = false := by decide
  refine ⟨?_, ?_, ?_⟩
  · simp [Author.trim, Author.trimStart, Author.trimEnd, wide, hspace]
  · rw [wide, Ne, List.replicate_eq_nil_iff]
    omega
  · rwa [wide, List.length_replicate]

def wideEvidence : Fact := [("claim", .string (wide 240)), ("source", .string (wide 160)), ("recomputed", .boolean true)]

def wideQuestion : Fact := [("question", .string (wide 240)), ("blocking", .boolean true)]

def wideDiff : Fact := [("path", .string (wide 200)), ("added", .integer (.finite one)), ("removed", .integer (.finite one))]

def wideLists (spec : SectionSpec) : List Fact :=
  if spec.name = "evidence" then List.replicate 6 wideEvidence
  else if spec.name = "questions" then List.replicate 4 wideQuestion
  else if spec.name = "diff" then List.replicate 10 wideDiff
  else []

theorem wideLists_inSchema : ∀ spec ∈ contextSections, ∀ entry ∈ wideLists spec, InSchema spec entry := by
  have hone : Fit (.integer 0 1000000) (.integer (.finite one)) := ⟨1, by decide +kernel, by decide, by decide⟩
  have hevidence : InSchema evidenceSpec wideEvidence :=
    ⟨.take "claim" (fitText_wide (by decide) le_rfl) (.take "source" (fitText_wide (by decide) le_rfl) (.take "recomputed" trivial .nil)), by decide⟩
  have hquestion : InSchema questionsSpec wideQuestion :=
    ⟨.take "question" (fitText_wide (by decide) le_rfl) (.take "blocking" trivial .nil), by decide⟩
  have hdiff : InSchema diffSpec wideDiff :=
    ⟨.take "path" (fitText_wide (by decide) le_rfl) (.take "added" hone (.take "removed" hone .nil)), by decide⟩
  intro spec hspec entry hentry
  simp only [contextSections, List.mem_cons, List.not_mem_nil, or_false] at hspec
  rcases hspec with rfl | rfl | rfl | rfl | rfl | rfl | rfl | rfl | rfl
  case inr.inr.inl => exact List.eq_of_mem_replicate hentry ▸ hevidence
  case inr.inr.inr.inl => exact List.eq_of_mem_replicate hentry ▸ hquestion
  case inr.inr.inr.inr.inl => exact List.eq_of_mem_replicate hentry ▸ hdiff
  all_goals cases hentry

theorem size_wide (ns : Numbers) : 1200 ≤ ((rowsOf ns "evidence" wideEvidence).map (Row.size byteLength)).sum ∧
    720 ≤ ((rowsOf ns "questions" wideQuestion).map (Row.size byteLength)).sum ∧
    600 ≤ ((rowsOf ns "diff" wideDiff).map (Row.size byteLength)).sum := by
  have hnonempty : wide 160 ≠ [] := (fitText_wide (by decide) le_rfl).nonempty
  refine ⟨?_, ?_, ?_⟩
  · simp [rowsOf, shownIn, truthy, wideEvidence, lookup, Row.size, byteLength_wide, hnonempty]
    omega
  · simp [rowsOf, shownIn, truthy, wideQuestion, lookup, Row.size, byteLength_wide]
    omega
  · simp [rowsOf, shownIn, wideDiff, lookup, Row.size, byteLength_wide]
    omega

theorem size_replicate (ns : Numbers) (sectionName : String) (times : ℕ) (value : Fact) :
    (((List.replicate times value).flatMap (rowsOf ns sectionName)).map (Row.size byteLength)).sum =
      times * ((rowsOf ns sectionName value).map (Row.size byteLength)).sum := by
  rw [sum_flatMap, List.map_replicate, List.sum_replicate, nsmul_eq_mul, Nat.cast_id]

/-- Twenty entries of characters that take three bytes each are more than the ceiling. -/
theorem wide_view_exceeds : AllInSchema wholeNumbers.toNumbers (factsOf wideLists) ∧ ∃ projection,
    projectContext wholeNumbers.toNumbers (factsOf wideLists) = .ok projection ∧
      projectionByteCeiling < byteLength (renderProjection wholeNumbers.toNumbers projection) := by
  refine ⟨allInSchema_factsOf wideLists_inSchema, projected _ _, projectContext_eq _, ?_⟩
  have hsections : (projected wholeNumbers.toNumbers (factsOf wideLists)).sections = contextSections.map fun spec ↦
      viewOf spec (wideLists spec) := by
    refine view_sections.trans (List.map_congr_left fun spec hspec ↦ ?_)
    rw [valuesIn_factsOf wideLists_inSchema hspec]
  have hrows : shownRows wholeNumbers.toNumbers (projected wholeNumbers.toNumbers (factsOf wideLists)) =
      (List.replicate 6 wideEvidence).flatMap (rowsOf wholeNumbers.toNumbers "evidence") ++
        ((List.replicate 4 wideQuestion).flatMap (rowsOf wholeNumbers.toNumbers "questions") ++
          (List.replicate 10 wideDiff).flatMap (rowsOf wholeNumbers.toNumbers "diff")) := by
    rw [shownRows, hsections]
    rfl
  have hceiling : projectionByteCeiling = 15198 := by decide +kernel
  have hwide := congrArg (fun rows ↦ (rows.map (Row.size byteLength)).sum) hrows
  simp only [List.map_append, List.sum_append, size_replicate] at hwide
  rw [size_shownRows] at hwide
  obtain ⟨hevidence, hquestion, hdiff⟩ := size_wide wholeNumbers.toNumbers
  rw [byteLength_renderProjection, characters, hceiling]
  omega

end Wide

end Noesar.Context
