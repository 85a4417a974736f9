import Noesar.Egress.Gate
import Noesar.Lib.Json

namespace Noesar.Egress

open Lib Pattern

section

variable {ν : Type}

def gatedForm (r : Verdict) (s : Text) : Text := if r.outcome = .clean then r.sent.getD [] else s

def walk (gate : Text → Verdict) : Json Text ν → Json Text ν × List Verdict :=
  Json.fold ⟨(.null, []), fun b ↦ (.bool b, []), fun n ↦ (.number n, []), fun s ↦ (.string (gatedForm (gate s) s), [gate s]),
    fun items ↦ (.array (items.map Prod.fst), items.flatMap Prod.snd),
    fun members ↦ (.object (members.map fun m ↦ (m.1, m.2.1)), members.flatMap fun m ↦ m.2.2)⟩

structure GatedArguments (ν : Type) where
  value : Json Text ν
  worst : Verdict
  kinds : List String
  sent : List Text

def worstOf (results : List Verdict) : Verdict :=
  results.foldl (fun top r ↦ if top.outcome.rank < r.outcome.rank then r else top) ⟨.proceed, none, [], none, none⟩

def gateArguments (u : Unicode) (index : PrivateIndex) (options : Options) (value : Json Text ν) : GatedArguments ν :=
  let (gated, results) := walk (gate u index options) value
  ⟨gated, worstOf results, ((results.flatMap Verdict.removed).map Removed.kind).eraseDups,
    (results.map fun r ↦ r.sent.getD []).filter (· ≠ [])⟩

def labels : Json Text ν → List (Text ⊕ Text) :=
  Json.fold ⟨[], fun _ ↦ [], fun _ ↦ [], fun s ↦ [.inr s], List.flatten,
    fun members ↦ members.flatMap fun m ↦ .inl m.1 :: m.2⟩

def strings (value : Json Text ν) : List Text := (labels value).map (Sum.elim id id)

def skeleton : Json Text ν → Json Text ν :=
  Json.fold ⟨.null, .bool, .number, fun _ ↦ .string [], .array, .object⟩

def Window (index : PrivateIndex) (w : Text) : Prop := ∃ v ∈ index.values, w <:+: v.2 ∧ w.length = 6

variable (u : Unicode) (index : PrivateIndex) (options : Options)

structure Covered (value gated : Json Text ν) : Prop where
  each : ∀ s ∈ strings gated, (gate u index options s).outcome = .proceed
  same : skeleton gated = skeleton value
  together : ∀ w, Window index w → ¬w <:+: ((strings gated).map digitsOf).flatten

/-- The digits of the member names and of the strings, each string as the gate lets it out. -/
def parts (value : Json Text ν) : List Text :=
  (labels value).map fun label ↦ digitsOf (label.elim id fun s ↦ gatedForm (gate u index options s) s)

/-- The member names are let through, what is let out of a string would be let through again, and what the parts hold of a
sensitive value when they are put together, one of them holds alone. -/
structure Guarded (value : Json Text ν) : Prop where
  names : ∀ name, .inl name ∈ labels value → (gate u index options name).outcome = .proceed
  cleaned : ∀ s sent, .inr s ∈ labels value → (gate u index options s).outcome = .clean →
    (gate u index options s).sent = some sent → (gate u index options sent).outcome = .proceed
  joined : ∀ w, Window index w → w <:+: (parts u index options value).flatten →
    ∃ part ∈ parts u index options value, w <:+: part

end

section Digits

theorem not_white_of_isDigit {c : Char} (h : c.isDigit = true) : white c = false := by
  have hrange : 48 ≤ c.val.toNat ∧ c.val.toNat ≤ 57 := by
    simpa [Char.isDigit, UInt32.le_iff_toNat_le] using h
  simp only [white, Capability.isWhiteSpace, List.mem_cons, List.not_mem_nil, or_false, Bool.or_eq_false_iff,
    decide_eq_false_iff_not, Bool.and_eq_false_iff, UInt32.le_iff_toNat_le, ← UInt32.toNat_inj]
  refine ⟨?_, Or.inl ?_⟩
  · change ¬(c.val.toNat = 9 ∨ c.val.toNat = 10 ∨ c.val.toNat = 11 ∨ c.val.toNat = 12 ∨ c.val.toNat = 13 ∨ c.val.toNat = 32 ∨
      c.val.toNat = 160 ∨ c.val.toNat = 5760 ∨ c.val.toNat = 8232 ∨ c.val.toNat = 8233 ∨ c.val.toNat = 8239 ∨
      c.val.toNat = 8287 ∨ c.val.toNat = 12288 ∨ c.val.toNat = 65279)
    omega
  · change ¬(8192 ≤ c.val.toNat)
    omega

theorem filter_dropWhile {α : Type} {p q : α → Bool} (h : ∀ c, q c = true → p c = false) (xs : List α) :
    (xs.dropWhile p).filter q = xs.filter q := by
  induction xs with
  | nil => rfl
  | cons x xs ih =>
    rw [List.dropWhile_cons]
    split
    next hx =>
      have hq : q x = false := by
        cases hq : q x with
        | false => rfl
        | true => rw [h x hq] at hx; cases hx
      rw [ih, List.filter_cons_of_neg (by rw [hq]; decide)]
    next => rfl

theorem digitsOf_trim (s : Text) : digitsOf (Updates.trim s) = digitsOf s := by
  have hwhite : ∀ c : Char, c.isDigit = true → Capability.isWhiteSpace c = false := fun c ↦ not_white_of_isDigit
  rw [digitsOf, Updates.trim, List.filter_reverse, filter_dropWhile hwhite, List.filter_reverse, List.reverse_reverse,
    filter_dropWhile hwhite]
  rfl

theorem digitsOf_tidy (out : Text) : digitsOf (tidy out) = digitsOf out := by
  rw [tidy, digitsOf_trim]
  refine filter_replace fun m hm ↦ ?_
  have hm := findAll_within (within_run white) hm
  have hnone : m.filter Char.isDigit = [] := by
    refine List.filter_eq_nil_iff.mpr fun c hc hdigit ↦ ?_
    have hwhite := hm c hc
    rw [not_white_of_isDigit hdigit] at hwhite
    cases hwhite
  rw [hnone]
  rfl

theorem digitsOf_collapse (u : Unicode) (left : Left) : digitsOf (collapse u left).out = digitsOf left.out := by
  refine filter_replace fun m _ ↦ ?_
  rw [List.filter_filter]
  refine List.filter_congr fun c _ ↦ ?_
  cases hc : c.isDigit with
  | false => rfl
  | true => simp [not_white_of_isDigit hc]

theorem joinedDigits_eq (text : Text) : joinedDigits text = digitsOf text := flatten_findAll_run Char.isDigit text

end Digits

section Verdicts

variable {u : Unicode} {index : PrivateIndex} {options : Options}

variable {left : Left} {s : Text}

theorem Left.cut_removed_nil {pat : Pattern Char} {judge : Text → Option (Removed × Bool)}
    (h : (left.cut pat judge).removed = []) : left.removed = [] ∧ (left.cut pat judge).out = left.out := by
  obtain ⟨hbefore, hpieces⟩ := List.append_eq_nil_iff.mp h
  refine ⟨hbefore, replace_eq_self fun m hm ↦ ?_⟩
  have hnone := List.filterMap_eq_nil_iff.mp (List.map_eq_nil_iff.mp hpieces) m hm
  rw [hnone]
  rfl

theorem cutShapes_removed_nil (h : (cutShapes u options left).removed = []) :
    (cutShapes u options left).out = left.out := by
  unfold cutShapes at h ⊢
  generalize shapes u = all at h ⊢
  have hboth : left.removed = [] ∧ (all.foldl (fun left shape ↦ left.cut shape.pattern fun m ↦
      if shape.valid m then some (⟨shape.kind, some (Updates.trim m)⟩, ownDigits options (digitsOf m)) else none) left).out =
        left.out := by
    induction all generalizing left with
    | nil => exact ⟨h, rfl⟩
    | cons shape all ih =>
      rw [List.foldl_cons] at h ⊢
      obtain ⟨hremoved, hout⟩ := ih h
      obtain ⟨hbefore, hsame⟩ := Left.cut_removed_nil hremoved
      exact ⟨hbefore, hout.trans hsame⟩
  exact hboth.2

theorem digitsOf_cutRest (h : (cutRest u index options left).removed = []) :
    left.removed = [] ∧ digitsOf (cutRest u index options left).out = digitsOf left.out := by
  obtain ⟨hcollapsed, hwords⟩ := Left.cut_removed_nil h
  have hpaired : (cutPairs u options (cutPlaceholders left)).removed = [] := hcollapsed
  obtain ⟨hplaceholders, hpairs⟩ := Left.cut_removed_nil hpaired
  obtain ⟨hbefore, hout⟩ := Left.cut_removed_nil hplaceholders
  refine ⟨hbefore, ?_⟩
  calc digitsOf (cutRest u index options left).out
    _ = digitsOf (collapse u (cutPairs u options (cutPlaceholders left))).out := congrArg digitsOf hwords
    _ = digitsOf (cutPairs u options (cutPlaceholders left)).out := digitsOf_collapse u _
    _ = digitsOf left.out := congrArg digitsOf (hpairs.trans hout)

theorem digitsOf_pad (s : Text) : digitsOf (' ' :: s ++ [' ']) = digitsOf s := by
  simp [digitsOf]

theorem released_leaves (h : (released u index s left).outcome.rank ≤ 1) :
    released u index s left =
      ⟨if left.removed.isEmpty then .proceed else .clean, none, left.removed, some (tidy left.out), none⟩ := by
  unfold released at h ⊢
  dsimp only at h ⊢
  split at h
  · exact absurd h (show ¬2 ≤ 1 by decide)
  rw [if_neg ‹_›]
  split at h
  · exact absurd h (show ¬3 ≤ 1 by decide)
  rw [if_neg ‹_›]
  split at h
  · exact absurd h (show ¬2 ≤ 1 by decide)
  · rfl

theorem gate_leaves (h : (gate u index options s).outcome.rank ≤ 1) :
    ∃ left, left = cutRest u index options (cutShapes u options ⟨' ' :: s ++ [' '], [], false⟩) ∧
      rebuilds index ((options.history ++ [left.out]).map joinedDigits).flatten = false ∧
      gate u index options s =
        ⟨if left.removed.isEmpty then .proceed else .clean, none, left.removed, some (tidy left.out), none⟩ := by
  refine ⟨_, rfl, ?_⟩
  unfold gate at h ⊢
  dsimp only at h ⊢
  split at h
  · exact absurd h (show ¬3 ≤ 1 by decide)
  rw [if_neg ‹_›]
  split at h
  · exact absurd h (show ¬3 ≤ 1 by decide)
  rw [if_neg ‹_›]
  split at h
  · exact absurd h (show ¬3 ≤ 1 by decide)
  rw [if_neg ‹_›]
  split at h
  · exact absurd h (show ¬3 ≤ 1 by decide)
  next hrebuilds =>
    rw [if_neg hrebuilds]
    exact ⟨Bool.eq_false_iff.mpr hrebuilds, released_leaves h⟩

theorem digitsOf_gatedForm
    (hleft : left = cutRest u index options (cutShapes u options ⟨' ' :: s ++ [' '], [], false⟩))
    (h : gate u index options s =
      ⟨if left.removed.isEmpty then .proceed else .clean, none, left.removed, some (tidy left.out), none⟩) :
    digitsOf (gatedForm (gate u index options s) s) = digitsOf left.out := by
  rw [h]
  cases hremoved : left.removed with
  | nil =>
    change digitsOf s = digitsOf left.out
    rw [hleft] at hremoved ⊢
    obtain ⟨hshaped, hdigits⟩ := digitsOf_cutRest hremoved
    rw [hdigits, cutShapes_removed_nil hshaped, digitsOf_pad]
  | cons => exact digitsOf_tidy left.out

theorem infix_window {xs w : Text} (h : w <:+: xs) (hlength : w.length = 6) :
    6 ≤ xs.length ∧ ∃ i < xs.length - 5, (xs.drop i).take 6 = w := by
  obtain ⟨before, after, rfl⟩ := h
  simp only [List.length_append]
  refine ⟨by omega, before.length, by omega, ?_⟩
  rw [List.append_assoc, List.drop_left, ← hlength, List.take_left]

theorem rebuilds_iff {sentDigits : Text} :
    rebuilds index sentDigits = true ↔ ∃ w, Window index w ∧ w <:+: sentDigits := by
  simp only [rebuilds, includes, List.any_eq_true, Bool.and_eq_true, decide_eq_true_eq, List.mem_range]
  constructor
  · rintro ⟨v, hv, hlength, i, hi, hinfix⟩
    refine ⟨_, ⟨v, hv, ((List.take_prefix 6 _).isInfix).trans (List.drop_suffix i v.2).isInfix, ?_⟩, hinfix⟩
    rw [List.length_take, List.length_drop]
    omega
  · rintro ⟨w, ⟨v, hv, hw, hlength⟩, hinfix⟩
    obtain ⟨hsix, i, hi, heq⟩ := infix_window hw hlength
    exact ⟨v, hv, hsix, i, hi, heq ▸ hinfix⟩

theorem not_infix_gatedForm {w : Text} (h : (gate u index options s).outcome.rank ≤ 1) (hw : Window index w) :
    ¬w <:+: digitsOf (gatedForm (gate u index options s) s) := by
  intro hinfix
  obtain ⟨left, hleft, hrebuilds, hgate⟩ := gate_leaves h
  rw [digitsOf_gatedForm hleft hgate] at hinfix
  refine Bool.eq_false_iff.mp hrebuilds (rebuilds_iff.mpr ⟨w, hw, hinfix.trans ?_⟩)
  rw [List.map_append, List.flatten_append, List.map_singleton, List.flatten_singleton, joinedDigits_eq]
  exact (List.suffix_append _ _).isInfix

end Verdicts

section Walk

variable {ν : Type} (gate : Text → Verdict)

theorem labels_array (items : List (Json Text ν)) : labels (.array items) = items.flatMap labels :=
  Json.fold_array _ items

theorem labels_object (members : List (Text × Json Text ν)) :
    labels (.object members) = members.flatMap fun m ↦ .inl m.1 :: labels m.2 := by
  rw [labels, Json.fold_object]
  exact List.flatMap_map ..

theorem walk_array (items : List (Json Text ν)) : walk gate (.array items) =
    (.array (items.map fun v ↦ (walk gate v).1), items.flatMap fun v ↦ (walk gate v).2) := by
  rw [walk, Json.fold_array]
  exact Prod.ext (congrArg Json.array (List.map_map ..)) (List.flatMap_map ..)

theorem walk_object (members : List (Text × Json Text ν)) : walk gate (.object members) =
    (.object (members.map fun m ↦ (m.1, (walk gate m.2).1)), members.flatMap fun m ↦ (walk gate m.2).2) := by
  rw [walk, Json.fold_object]
  exact Prod.ext (congrArg Json.object (List.map_map ..)) (List.flatMap_map ..)

theorem walk_labels (value : Json Text ν) :
    labels (walk gate value).1 = (labels value).map (Sum.map id fun s ↦ gatedForm (gate s) s) := by
  induction value with
  | null | bool b | number n | string s => rfl
  | array items ih =>
    rw [walk_array, labels_array, labels_array, List.flatMap_map, List.map_flatMap]
    exact List.flatMap_congr fun v hv ↦ ih v hv
  | object members ih =>
    rw [walk_object, labels_object, labels_object, List.flatMap_map, List.map_flatMap]
    refine List.flatMap_congr fun m hm ↦ ?_
    rw [List.map_cons, ih m hm]
    rfl

theorem walk_results (value : Json Text ν) :
    (walk gate value).2 = (labels value).filterMap (Sum.elim (fun _ ↦ none) fun s ↦ some (gate s)) := by
  induction value with
  | null | bool b | number n | string s => rfl
  | array items ih =>
    rw [walk_array, labels_array, List.filterMap_flatMap]
    exact List.flatMap_congr fun v hv ↦ ih v hv
  | object members ih =>
    rw [walk_object, labels_object, List.filterMap_flatMap]
    exact List.flatMap_congr fun m hm ↦ ih m hm

theorem walk_skeleton (value : Json Text ν) : skeleton (walk gate value).1 = skeleton value := by
  induction value with
  | null | bool b | number n | string s => rfl
  | array items ih =>
    rw [walk_array, skeleton, Json.fold_array, Json.fold_array, List.map_map]
    exact congrArg Json.array (List.map_congr_left fun v hv ↦ ih v hv)
  | object members ih =>
    rw [walk_object, skeleton, Json.fold_object, Json.fold_object, List.map_map]
    exact congrArg Json.object (List.map_congr_left fun m hm ↦ Prod.ext rfl (ih m hm))

theorem foldl_worst_le (results : List Verdict) (top : Verdict) :
    ∀ r, r = top ∨ r ∈ results → r.outcome.rank ≤
      (results.foldl (fun top r ↦ if top.outcome.rank < r.outcome.rank then r else top) top).outcome.rank := by
  induction results generalizing top with
  | nil =>
    intro r hr
    rcases hr with rfl | hr
    · exact le_rfl
    · exact absurd hr List.not_mem_nil
  | cons first results ih =>
    intro r hr
    have hnext := ih (if top.outcome.rank < first.outcome.rank then first else top) _ (.inl rfl)
    rw [List.foldl_cons]
    rcases hr with rfl | hr
    · refine le_trans ?_ hnext
      split <;> omega
    rcases List.mem_cons.mp hr with rfl | hr
    · refine le_trans ?_ hnext
      split <;> omega
    · exact ih _ r (.inr hr)

theorem le_worstOf {results : List Verdict} {r : Verdict} (h : r ∈ results) :
    r.outcome.rank ≤ (worstOf results).outcome.rank := foldl_worst_le results _ r (.inr h)

end Walk

section Results

variable {ν : Type} {u : Unicode} {index : PrivateIndex} {options : Options} {value : Json Text ν}

theorem mem_strings_gated {t : Text} : t ∈ strings (gateArguments u index options value).value ↔
    .inl t ∈ labels value ∨ ∃ s, .inr s ∈ labels value ∧ gatedForm (gate u index options s) s = t := by
  change t ∈ (labels (walk (gate u index options) value).1).map (Sum.elim id id) ↔ _
  rw [walk_labels, List.map_map, List.mem_map]
  constructor
  · rintro ⟨label, hlabel, rfl⟩
    cases label with
    | inl => exact .inl hlabel
    | inr s => exact .inr ⟨s, hlabel, rfl⟩
  · rintro (h | ⟨s, hs, rfl⟩)
    · exact ⟨_, h, rfl⟩
    · exact ⟨_, hs, rfl⟩

theorem parts_eq : parts u index options value = (strings (gateArguments u index options value).value).map digitsOf := by
  change _ = ((labels (walk (gate u index options) value).1).map (Sum.elim id id)).map digitsOf
  rw [walk_labels, List.map_map, List.map_map]
  refine List.map_congr_left fun label _ ↦ ?_
  cases label with
  | inl => rfl
  | inr => rfl

theorem rank_of_worst (h : (gateArguments u index options value).worst.outcome ∈ [Outcome.proceed, .clean]) {s : Text}
    (hs : .inr s ∈ labels value) : (gate u index options s).outcome.rank ≤ 1 := by
  have hmem : gate u index options s ∈ (walk (gate u index options) value).2 := by
    rw [walk_results]
    exact List.mem_filterMap.mpr ⟨_, hs, rfl⟩
  have hle : (gate u index options s).outcome.rank ≤ (gateArguments u index options value).worst.outcome.rank :=
    le_worstOf hmem
  refine le_trans hle ?_
  rcases List.mem_cons.mp h with h | h
  · rw [h]
    decide
  · rw [List.mem_singleton.mp h]
    decide

theorem gatedForm_proceed {r : Verdict} (h : r.outcome = .proceed) (s : Text) : gatedForm r s = s := by
  rw [gatedForm, h]
  rfl

end Results

section Sample

def ascii : Unicode :=
  ⟨Char.isAlpha, Char.isDigit, Char.isUpper, Char.isLower, id, List.map Char.toLower, List.map Char.toUpper⟩

def noOptions : Options := ⟨[], []⟩

def search : Json Text Empty := .object [("q".toList, .string "iva casa".toList)]

def addressed : Json Text Empty := .object [("mario.rossi@gmail.com".toList, .bool true)]

end Sample

end Noesar.Egress
