import Mathlib
import Noesar.Author.Rules

namespace Noesar.Author

open Lib Lib.Utf16 Lib.Anchors

variable {ν : Type}

def Blank (t : Units) : Prop := ∀ u ∈ t, isSpace u = true

instance (t : Units) : Decidable (Blank t) := inferInstanceAs (Decidable (∀ u ∈ t, _))

variable {t path body after : Units} {edits : List Edit} {thrown : Thrown}

theorem dropWhile_eq_nil : t.dropWhile isSpace = [] ↔ Blank t := List.dropWhile_eq_nil_iff

theorem trim_eq_nil : trim t = [] ↔ Blank t := by
  rw [trim, trimEnd, List.reverse_eq_nil_iff, dropWhile_eq_nil, trimStart]
  constructor
  · intro h
    rw [← dropWhile_eq_nil, ← List.reverse_eq_nil_iff]
    by_contra hne
    rw [List.reverse_eq_nil_iff] at hne
    have hhead := List.head_dropWhile_not isSpace hne
    rw [h _ (List.mem_reverse.mpr (List.head_mem hne))] at hhead
    cases hhead
  · intro h u hu
    exact h u (List.dropWhile_subset _ (List.mem_reverse.mp hu))

theorem ne_nil_of_trim (h : trim t ≠ []) : t ≠ [] := by
  rintro rfl
  exact h rfl

/-- What an edit does to a text if it has a single place there. -/
inductive Chain : Units → List Edit → Units → Prop
  | nil (body : Units) : Chain body [] body
  | cons {edit : Edit} {edits : List Edit} {before mid after : Units}
      (first : ReplacesOnce edit.search edit.replace before mid) (rest : Chain mid edits after) :
      Chain before (edit :: edits) after

/-- No search text stands at two places that share some of their characters, in the content that
the edits before it leave. -/
def Apart : Units → List Edit → Prop
  | _, [] => True
  | body, edit :: edits => ¬Overlaps edit.search body ∧ Apart (replaceFirst edit.search edit.replace body) edits

/-- The edits of an answer lead, one after the other, from the current content to the result, up to
a newline at its end; and that is not blank. -/
structure TouchesOnce (answer current path : Units) (result : Applied ν) : Prop where
  edits : ∃ edits discarded last, readBlocks path (lines answer) = .ok (edits, discarded) ∧ Chain current edits last ∧
    (result.body = last ∨ result.body = last ++ [newline])
  notBlank : ¬Blank result.body

theorem applyEdit_ok {edit : Edit} (h : applyEdit path body edit = .ok after) :
    edit.search ≠ [] ∧ (split edit.search body).length = 2 ∧ after = replaceFirst edit.search edit.replace body := by
  unfold applyEdit at h
  dsimp only at h
  split_ifs at h with hempty hnone hmany
  · cases h
  · cases h
  · cases h
  · cases h
    exact ⟨ne_nil_of_trim hempty, by omega, rfl⟩

theorem apart_of_chain {last : Units} (h : edits.foldlM (applyEdit path) body = .ok after)
    (hchain : Chain body edits last) : Apart body edits := by
  induction hchain with
  | nil => trivial
  | @cons edit edits before mid last first rest ih =>
    rw [List.foldlM_cons] at h
    cases hfirst : applyEdit path before edit with
    | error =>
      rw [hfirst] at h
      cases h
    | ok =>
      rw [hfirst] at h
      obtain ⟨hne, htwo, rfl⟩ := applyEdit_ok hfirst
      obtain ⟨hapart, rfl⟩ := (replacesOnce_iff hne htwo).mp first
      exact ⟨hapart, ih h⟩

theorem chain_of_apart (h : edits.foldlM (applyEdit path) body = .ok after) (hapart : Apart body edits) :
    Chain body edits after := by
  induction edits generalizing body with
  | nil =>
    cases h
    exact .nil _
  | cons edit edits ih =>
    obtain ⟨hfirst, hrest⟩ := hapart
    rw [List.foldlM_cons] at h
    cases happly : applyEdit path body edit with
    | error =>
      rw [happly] at h
      cases h
    | ok =>
      rw [happly] at h
      obtain ⟨hne, htwo, rfl⟩ := applyEdit_ok happly
      exact .cons ((replacesOnce_iff hne htwo).mpr ⟨hfirst, rfl⟩) (ih h hrest)

theorem refuse_refused {β : Type} {code : String} {reason : Units}
    (h : (refuse code reason path : Except Thrown β) = .error thrown) : ∃ refusal, thrown = .refused refusal := by
  cases h
  exact ⟨_, rfl⟩

theorem readBlock_refused {ls : List Units} (h : readBlock path ls = .error thrown) :
    ∃ refusal, thrown = .refused refusal := by
  unfold readBlock at h
  dsimp only at h
  cases hsearch : searchLines ls with
  | none =>
    rw [hsearch] at h
    exact refuse_refused h
  | some r =>
    rw [hsearch] at h
    dsimp only at h
    cases hreplace : replaceLines r.2 with
    | ok =>
      rw [hreplace] at h
      cases h
    | error unclosed =>
      rw [hreplace] at h
      cases unclosed with
      | unterminated | leaked => exact refuse_refused h

theorem readBlocks_refused {ls : List Units} (h : readBlocks path ls = .error thrown) :
    ∃ refusal, thrown = .refused refusal := by
  induction ls using readBlocks.induct path with
  | case1 =>
    rw [readBlocks] at h
    cases h
  | case2 line rest hline ih =>
    rw [readBlocks, if_pos hline] at h
    cases hrest : readBlocks path rest with
    | error =>
      rw [hrest] at h
      cases h
      exact ih hrest
    | ok =>
      rw [hrest] at h
      cases h
  | case3 line rest hline thrown' hblock =>
    rw [readBlocks, if_neg hline] at h
    split at h
    next hblock' =>
      cases h
      exact readBlock_refused hblock'
    next hblock' =>
      rw [hblock] at hblock'
      cases hblock'
  | case4 line rest hline edit behind hblock ih =>
    rw [readBlocks, if_neg hline] at h
    split at h
    next hblock' =>
      cases h
      exact readBlock_refused hblock'
    next edit' behind' hblock' =>
      cases hblock.symm.trans hblock'
      cases hrest : readBlocks path behind with
      | error =>
        rw [hrest] at h
        cases h
        exact ih hrest
      | ok =>
        rw [hrest] at h
        cases h

theorem applyEdit_refused {edit : Edit} (h : applyEdit path body edit = .error thrown) :
    ∃ refusal, thrown = .refused refusal := by
  unfold applyEdit at h
  dsimp only at h
  split_ifs at h
  · exact refuse_refused h
  · exact refuse_refused h
  · exact refuse_refused h

theorem applyEdits_refused (h : edits.foldlM (applyEdit path) body = .error thrown) :
    ∃ refusal, thrown = .refused refusal := by
  induction edits generalizing body with
  | nil => cases h
  | cons edit edits ih =>
    rw [List.foldlM_cons] at h
    cases hfirst : applyEdit path body edit with
    | error =>
      rw [hfirst] at h
      cases h
      exact applyEdit_refused hfirst
    | ok =>
      rw [hfirst] at h
      exact ih h

theorem terminated_cases (body : Units) : terminated body = body ∨ terminated body = body ++ [newline] := by
  unfold terminated
  split
  · exact .inl rfl
  · exact .inr rfl

theorem blank_of_terminated (h : Blank (terminated body)) : Blank body := by
  rcases terminated_cases body with hbody | hbody
  · rwa [hbody] at h
  · rw [hbody] at h
    exact fun u hu ↦ h u (List.mem_append_left _ hu)

theorem applyEditBlocks_ok {answer current : Units} {result : Applied ν}
    (h : applyEditBlocks answer current path = .ok result) :
    ∃ edits discarded body, readBlocks path (lines answer) = .ok (edits, discarded) ∧
      edits.foldlM (applyEdit path) current = .ok body ∧ ¬Blank body ∧ result.body = terminated body := by
  unfold applyEditBlocks at h
  cases hread : readBlocks path (lines answer) with
  | error =>
    rw [hread] at h
    cases h
  | ok r =>
    obtain ⟨edits, discarded⟩ := r
    rw [hread] at h
    change (if edits = [] then _ else _) = _ at h
    split_ifs at h with hnone
    · cases h
    cases happlied : edits.foldlM (applyEdit path) current with
    | error =>
      rw [happlied] at h
      cases h
    | ok body =>
      rw [happlied] at h
      change (if trim body = [] then _ else _) = _ at h
      split_ifs at h with hblank
      · cases h
      cases h
      exact ⟨edits, discarded, body, rfl, happlied, fun hb ↦ hblank (trim_eq_nil.mpr hb), rfl⟩

theorem applyEditBlocks_refused {answer current : Units}
    (h : (applyEditBlocks answer current path : Except Thrown (Applied ν)) = .error thrown) :
    ∃ refusal, thrown = .refused refusal := by
  unfold applyEditBlocks at h
  cases hread : readBlocks path (lines answer) with
  | error =>
    rw [hread] at h
    cases h
    exact readBlocks_refused hread
  | ok r =>
    obtain ⟨edits, discarded⟩ := r
    rw [hread] at h
    change (if edits = [] then _ else _) = _ at h
    split_ifs at h with hnone
    · exact refuse_refused h
    cases happlied : edits.foldlM (applyEdit path) current with
    | error =>
      rw [happlied] at h
      cases h
      exact applyEdits_refused happlied
    | ok body =>
      rw [happlied] at h
      change (if trim body = [] then _ else _) = _ at h
      split_ifs at h with hblank
      · exact refuse_refused h
      · cases h

/-- What fails is refused; and what succeeds touches just what its edits name, once each, exactly
when no search text has two places that overlap. -/
theorem edits_touch_once_iff (answer current path : Units) :
    match (applyEditBlocks answer current path : Except Thrown (Applied ν)) with
    | .error thrown => ∃ refusal, thrown = .refused refusal
    | .ok result => TouchesOnce answer current path result ↔
        ∃ edits discarded, readBlocks path (lines answer) = .ok (edits, discarded) ∧ Apart current edits := by
  cases happly : (applyEditBlocks answer current path : Except Thrown (Applied ν)) with
  | error => exact applyEditBlocks_refused happly
  | ok =>
    obtain ⟨edits, discarded, body, hread, happlied, hblank, hbody⟩ := applyEditBlocks_ok happly
    constructor
    · rintro ⟨⟨edits', discarded', last, hread', hchain, hlast⟩, -⟩
      cases hread.symm.trans hread'
      exact ⟨edits, discarded, hread, apart_of_chain happlied hchain⟩
    · rintro ⟨edits', discarded', hread', hapart⟩
      cases hread.symm.trans hread'
      refine ⟨⟨edits, discarded, body, hread, chain_of_apart happlied hapart, ?_⟩, ?_⟩
      · rw [hbody]
        exact terminated_cases body
      · rw [hbody]
        exact fun h ↦ hblank (blank_of_terminated h)

/-- An edit of `aa` in `aaa`, which stands there twice. -/
def overlapping : Units := text "<<<<<<< SEARCH\naa\n=======\nb\n>>>>>>> REPLACE"

theorem overlapping_read : readBlocks [] (lines overlapping) = .ok ([⟨text "aa", text "b"⟩], []) := by
  have hlines : lines overlapping = [editOpen, text "aa", editSeparator, text "b", editClose] := by decide
  have hblock : readBlock [] [text "aa", editSeparator, text "b", editClose] = .ok (⟨text "aa", text "b"⟩, []) := by
    rfl
  rw [hlines, readBlocks, if_neg (by decide)]
  split
  next hblock' =>
    rw [hblock] at hblock'
    cases hblock'
  next edit behind hblock' =>
    cases hblock.symm.trans hblock'
    rw [readBlocks]
    rfl

theorem ambiguous_edit_applied : ¬∀ answer current path,
    match (applyEditBlocks answer current path : Except Thrown (Applied Empty)) with
    | .error thrown => ∃ refusal, thrown = .refused refusal
    | .ok result => TouchesOnce answer current path result := by
  intro h
  have hthis := h overlapping (text "aaa") []
  have happly : (applyEditBlocks overlapping (text "aaa") [] : Except Thrown (Applied Empty)) =
      .ok ⟨⟨text "ba\n", []⟩, 1⟩ := by
    unfold applyEditBlocks
    rw [overlapping_read]
    rfl
  rw [happly] at hthis
  obtain ⟨edits, discarded, last, hread, hchain, -⟩ := hthis.edits
  cases overlapping_read.symm.trans hread
  cases hchain with
  | cons first =>
    obtain ⟨front, back, -, -, hplaces⟩ := first
    have hzero : (0 : ℕ) = front.length := hplaces 0 (show text "aa" <+: (text "aaa").drop 0 by decide)
    have hone : (1 : ℕ) = front.length := hplaces 1 (show text "aa" <+: (text "aaa").drop 1 by decide)
    omega

end Noesar.Author
