import Mathlib
import Noesar.Lib.Utf16
import Noesar.Updates.Version

namespace Noesar.Updates

open Lib Lib.PosixPath Capability

namespace Version

def body (text : String) : List Char := trim text.toList

def unsigned (piece : List Char) : List Char :=
  match piece with
  | '+' :: cs => cs
  | cs => cs

def digits (piece : List Char) : List Char := (unsigned (piece.dropWhile isWhiteSpace)).takeWhile Char.isDigit

/-- The number that a component starts with. -/
def wholePart (piece : List Char) : ℕ := (digits piece).foldl (fun n c ↦ 10 * n + (c.toNat - '0'.toNat)) 0

/-- The numbers in front of the first hyphen. -/
def components (text : String) : List ℕ := (splitChars (· = '.') ((body text).takeWhile (· ≠ '-'))).map wholePart

/-- All that stands behind the first hyphen. -/
def preRelease (text : String) : List Char := ((body text).dropWhile (· ≠ '-')).tail

structure SameVersion (left right : String) : Prop where
  components : ∀ i, (components left).getD i 0 = (components right).getD i 0
  preRelease : preRelease left = preRelease right

/-- The comparison reads the same in both: the doubles of three components, and the text up to a second hyphen. -/
structure ReadAlike (left right : String) : Prop where
  components : ∀ i < 3, round53 ((Version.components left).getD i 0 : ℕ) = round53 ((Version.components right).getD i 0 : ℕ)
  preRelease : (Version.preRelease left).takeWhile (· ≠ '-') = (Version.preRelease right).takeWhile (· ≠ '-')

/-- They differ in what the comparison does not read: in digits that a double has no room for, in a component past the
third, or from a second hyphen on. -/
def DifferUnread (left right : String) : Prop :=
  (∃ i < 3, (components left).getD i 0 ≠ (components right).getD i 0) ∨
    (∃ i ≥ 3, (components left).getD i 0 ≠ (components right).getD i 0) ∨
      (preRelease left).dropWhile (· ≠ '-') ≠ (preRelease right).dropWhile (· ≠ '-')

theorem Reports.compare_eq {α : Type} [LinearOrder α] {o : Ordering} {a b : α} (h : Reports o a b) : compare a b = o := by
  cases o with
  | lt => exact compare_lt_iff_lt.mpr h
  | eq => exact compare_eq_iff_eq.mpr h
  | gt => exact compare_gt_iff_gt.mpr h

theorem rank_injective : Function.Injective rank := by
  intro p q h
  unfold rank at h
  split at h <;> split at h
  · exact ‹p = []›.trans ‹q = []›.symm
  · cases h
  · cases h
  · exact WithTop.coe_injective h

theorem key_eq_iff {a b : Version} : a.key = b.key ↔ (∀ i < 3, a.parts.getD i 0 = b.parts.getD i 0) ∧ a.pre = b.pre := by
  simp only [key, toLex_inj, Prod.mk.injEq, rank_injective.eq_iff]
  constructor
  · rintro ⟨h0, h1, h2, hpre⟩
    refine ⟨?_, hpre⟩
    intro i hi
    match i, hi with
    | 0, _ => exact h0
    | 1, _ => exact h1
    | 2, _ => exact h2
  · rintro ⟨h, hpre⟩
    exact ⟨h 0 (by omega), h 1 (by omega), h 2 (by omega), hpre⟩

theorem splitChars_eq (sep : Char → Bool) (cs : List Char) : splitChars sep cs = cs.takeWhile (!sep ·) ::
    match cs.dropWhile (!sep ·) with
    | [] => []
    | _ :: rest => splitChars sep rest := by
  induction cs with
  | nil => rfl
  | cons c cs ih =>
    cases hc : sep c with
    | true => simp [splitChars, hc]
    | false =>
      rw [splitChars, if_neg (by simp [hc]), ih]
      simp [hc]

theorem mem_of_mem_splitChars {sep : Char → Bool} {cs w : List Char} (hw : w ∈ splitChars sep cs) {c : Char} (hc : c ∈ w) :
    c ∈ cs := by
  induction cs generalizing w with
  | nil =>
    obtain rfl := List.mem_singleton.mp hw
    exact hc
  | cons d cs ih =>
    rw [splitChars] at hw
    split at hw
    · rcases List.mem_cons.mp hw with rfl | hw
      · cases hc
      · exact List.mem_cons_of_mem d (ih hw hc)
    · rw [splitChars_eq] at hw ih
      rcases List.mem_cons.mp hw with rfl | hw
      · rcases List.mem_cons.mp hc with rfl | hc
        · exact List.mem_cons_self
        · exact List.mem_cons_of_mem d (ih List.mem_cons_self hc)
      · exact List.mem_cons_of_mem d (ih (List.mem_cons_of_mem _ hw) hc)

theorem parseInt_getD {w : List Char} (h : '-' ∉ w) : (parseInt (String.ofList w)).getD 0 = round53 (wholePart w : ℕ) := by
  have hzero : round53 (0 : ℕ) = 0 := round53_natCast (by omega)
  have hread (cs : List Char) : (if cs.takeWhile Char.isDigit = [] then none else
      some (round53 ((cs.takeWhile Char.isDigit).foldl (fun n c ↦ 10 * n + (c.toNat - '0'.toNat)) 0 : ℕ))).getD 0 =
        round53 ((cs.takeWhile Char.isDigit).foldl (fun n c ↦ 10 * n + (c.toNat - '0'.toNat)) 0 : ℕ) := by
    split
    · rename_i hnone
      rw [hnone]
      exact hzero.symm
    · rfl
  have hsub : w.dropWhile isWhiteSpace ⊆ w := (List.dropWhile_suffix _).subset
  rw [parseInt, String.toList_ofList, wholePart, digits]
  dsimp only
  split
  · rename_i heq
    rw [heq] at hsub
    exact absurd (hsub List.mem_cons_self) h
  · rename_i heq
    rw [heq]
    exact hread _
  · rename_i heq
    have hunsigned : unsigned (w.dropWhile isWhiteSpace) = w.dropWhile isWhiteSpace := by
      rw [unsigned]
      exact heq
    rw [hunsigned]
    exact hread _

theorem utf16_injective : Function.Injective utf16 := by
  have heq (s : String) : utf16 s = (Utf16.encode s.toList).map UInt16.toNat := by
    rw [utf16, Utf16.encode, List.map_flatMap]
    refine List.flatMap_congr fun c _ ↦ ?_
    have hvalid := Utf16.toNat_valid c
    rw [Utf16.units]
    split
    · rw [List.map_singleton, UInt16.toNat_ofNat_of_lt' (show _ < 65536 by omega)]
    · rw [List.map_cons, List.map_singleton, UInt16.toNat_ofNat_of_lt' (show _ < 65536 by omega), UInt16.toNat_ofNat_of_lt' (show _ < 65536 by omega)]
  intro s t h
  rw [heq, heq] at h
  exact String.toList_injective (Utf16.encode_injective (List.map_injective_iff.mpr (fun _ _ ↦ UInt16.toNat_inj.mp) h))

theorem splitOn_hyphen (t : List Char) :
    (splitOn (· = '-') (String.ofList t)).getD 0 "" = String.ofList (t.takeWhile (· ≠ '-')) ∧
      (splitOn (· = '-') (String.ofList t)).getD 1 "" = String.ofList ((t.dropWhile (· ≠ '-')).tail.takeWhile (· ≠ '-')) := by
  have hne : (fun c : Char ↦ !decide (c = '-')) = fun c ↦ decide (c ≠ '-') := by
    funext c
    simp
  rw [splitOn, String.toList_ofList, splitChars_eq, hne]
  refine ⟨rfl, ?_⟩
  cases t.dropWhile (· ≠ '-') with
  | nil => rfl
  | cons =>
    simp only [List.tail_cons]
    rw [splitChars_eq, hne]
    rfl

theorem parse_text {text : String} {v : Version} (h : parse (.text text) = .ok v) :
    (∀ i, v.parts.getD i 0 = round53 ((components text).getD i 0 : ℕ)) ∧
      v.pre = utf16 (String.ofList ((preRelease text).takeWhile (· ≠ '-'))) := by
  have hzero : round53 (0 : ℕ) = 0 := round53_natCast (by omega)
  obtain ⟨hcore, hpre⟩ := splitOn_hyphen (body text)
  have hcomponents : ((splitOn (· = '.') (String.ofList ((body text).takeWhile (· ≠ '-')))).map parseInt).map (·.getD 0) =
      (components text).map fun n : ℕ ↦ round53 n := by
    rw [splitOn, String.toList_ofList, components, List.map_map, List.map_map, List.map_map]
    refine List.map_congr_left fun w hw ↦ parseInt_getD fun hmem ↦ ?_
    simpa using List.mem_takeWhile_imp (mem_of_mem_splitChars hw hmem)
  rw [parse] at h
  simp only [Value.orElse, Value.string, bind, Except.bind] at h
  rw [show trim text.toList = body text from rfl, hcore, hpre, hcomponents] at h
  split at h
  · cases h
  · rw [Except.ok.injEq] at h
    subst h
    refine ⟨fun i ↦ ?_, by rw [preRelease]⟩
    dsimp only
    have hmap : ((components text).map fun n : ℕ ↦ round53 n).getD i 0 = round53 ((components text).getD i 0 : ℕ) := by
      rw [← hzero, List.getD_map]
    rw [← hmap]
    rcases Nat.lt_or_ge i ((components text).map fun n : ℕ ↦ round53 n).length with hlt | hge
    · rw [List.getD_append _ _ _ _ hlt]
    · rw [List.getD_append_right _ _ _ _ hge, List.getD_eq_default _ _ hge, List.getD_eq_getElem?_getD, List.getElem?_replicate]
      split <;> rfl

theorem key_eq_iff_readAlike {left right : String} {a b : Version} (ha : parse (.text left) = .ok a)
    (hb : parse (.text right) = .ok b) : a.key = b.key ↔ ReadAlike left right := by
  obtain ⟨hpartsA, hpreA⟩ := parse_text ha
  obtain ⟨hpartsB, hpreB⟩ := parse_text hb
  rw [key_eq_iff, hpreA, hpreB, utf16_injective.eq_iff, String.ofList_inj]
  constructor
  · rintro ⟨hparts, hpre⟩
    refine ⟨?_, hpre⟩
    intro i hi
    rw [← hpartsA, ← hpartsB, hparts i hi]
  · rintro ⟨hparts, hpre⟩
    refine ⟨?_, hpre⟩
    intro i hi
    rw [hpartsA, hpartsB, hparts i hi]

theorem ReadAlike.sameVersion_iff {left right : String} (h : ReadAlike left right) :
    SameVersion left right ↔ ¬DifferUnread left right := by
  have hsplit (text : String) : Version.preRelease text =
      (Version.preRelease text).takeWhile (· ≠ '-') ++ (Version.preRelease text).dropWhile (· ≠ '-') := by
    rw [List.takeWhile_append_dropWhile]
  constructor
  · rintro ⟨hcomponents, hpre⟩ (⟨i, -, hne⟩ | ⟨i, -, hne⟩ | hne)
    · exact hne (hcomponents i)
    · exact hne (hcomponents i)
    · exact hne (by rw [hpre])
  · intro hno
    simp only [DifferUnread, not_or, not_exists, not_and, not_not] at hno
    obtain ⟨hfirst, hlater, hbehind⟩ := hno
    constructor
    · intro i
      rcases Nat.lt_or_ge i 3 with hi | hi
      · exact hfirst i hi
      · exact hlater i hi
    · rw [hsplit left, hsplit right, h.preRelease, hbehind]

end Version

theorem compareVersions_eq {left right : Value} {order : Ordering} (h : compareVersions left right = .ok order) :
    ∃ a b, Version.parse left = .ok a ∧ Version.parse right = .ok b ∧ compare a.key b.key = order := by
  obtain ⟨a, b, ha, hb, hreports⟩ := compareVersions_ok h
  exact ⟨a, b, ha, hb, hreports.compare_eq⟩

theorem compareVersions_of_keys {left right : Value} {a b : Version} (ha : Version.parse left = .ok a)
    (hb : Version.parse right = .ok b) : compareVersions left right = .ok (compare a.key b.key) := by
  rw [compareVersions_of_parse ha hb, (Version.compareFrom_reports a b).compare_eq]

open Version

/-- The comparison is a total preorder of the version texts it takes, and two that it finds equal are one version exactly
if they do not differ only in what it does not read. -/
theorem versions_ordered_iff {left right : String} {order : Ordering}
    (h : compareVersions (.text left) (.text right) = .ok order) :
    compareVersions (.text right) (.text left) = .ok order.swap ∧
    (∀ third order', compareVersions (.text right) (.text third) = .ok order' → order ≠ .gt → order' ≠ .gt →
      ∃ whole, compareVersions (.text left) (.text third) = .ok whole ∧ whole ≠ .gt) ∧
    ((order = .eq → SameVersion left right) ↔ ¬(ReadAlike left right ∧ DifferUnread left right)) := by
  obtain ⟨a, b, ha, hb, rfl⟩ := compareVersions_eq h
  refine ⟨?_, ?_, ?_⟩
  · rw [compareVersions_of_keys hb ha, Std.OrientedOrd.eq_swap]
  · intro third order' h' hle hle'
    obtain ⟨b', c, hb', hc, rfl⟩ := compareVersions_eq h'
    obtain rfl := Except.ok.inj (hb.symm.trans hb')
    refine ⟨_, compareVersions_of_keys ha hc, ?_⟩
    rw [Ne, compare_gt_iff_gt, not_lt] at hle hle' ⊢
    exact hle.trans hle'
  · rw [compare_eq_iff_eq, key_eq_iff_readAlike ha hb, not_and]
    exact forall_congr' fun hread ↦ hread.sameVersion_iff

theorem versions_ordered_iff_preRelease :
    compareVersions (.text "1.0.0-rc1") (.text "1.0.0") = .ok .lt ∧
      ((Ordering.gt = .eq → SameVersion "1.0.0" "1.0.0-rc1") ↔
        ¬(ReadAlike "1.0.0" "1.0.0-rc1" ∧ DifferUnread "1.0.0" "1.0.0-rc1")) := by
  have habove : compareVersions (.text "1.0.0") (.text "1.0.0-rc1") = .ok .gt := by decide +kernel
  obtain ⟨hswap, -, hexact⟩ := versions_ordered_iff habove
  exact ⟨hswap, hexact⟩

theorem fourth_component_ignored : ¬∀ left right, compareVersions (.text left) (.text right) = .ok .eq → SameVersion left right := by
  intro h
  have hsame := (h "1.2.3.4" "1.2.3.5" (by decide +kernel)).components 3
  exact absurd hsame (by decide +kernel)

end Noesar.Updates
