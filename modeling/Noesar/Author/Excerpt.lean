import Mathlib
import Noesar.Author.Author
import Noesar.Lib.Number
import Noesar.Lib.Pattern

namespace Noesar.Author

open Lib Lib.Utf16 Lib.Pattern

abbrev Extended := WithBot (WithTop ℚ)

structure ExcerptOptions where
  radius : ℕ∞
  keepAtMost : Number
  budgetChars : Option Number

def isUpper (u : UInt16) : Bool := 65 ≤ u.toNat && u.toNat ≤ 90

def isLower (u : UInt16) : Bool := 97 ≤ u.toNat && u.toNat ≤ 122

def opensWord (u : UInt16) : Bool := isUpper u || isLower u || u = 95

def inWord (u : UInt16) : Bool := opensWord u || (48 ≤ u.toNat && u.toNat ≤ 57)

/-- `words.match(/[A-Za-z_][A-Za-z0-9_]{3,}/g)` -/
def tokens (words : Units) : List Units := (seq (one opensWord) (greedy 3 none (one inWord))).findAll words

/-- `CODE_NAME` -/
def codeName : Pattern UInt16 :=
  anyOf [one (· = 95), seq (one isLower) (one isUpper), seq (greedy 2 none (one isUpper)) (one isLower)]

/-- The lines within `radius` of the line `hit`, of which there are `count`. -/
def neighbourhood (count : ℕ) (radius : ℕ∞) (hit : ℕ) : List ℕ :=
  let first := ((hit : ℕ∞) - radius).toNat
  let last := min (count - 1) ((hit + radius : ℕ∞).untopD (count - 1))
  List.range' first (last + 1 - first)

def covered (count : ℕ) (radius : ℕ∞) (hits : List ℕ) : ℕ :=
  (hits.foldl (fun (total, next) hit ↦
    let first := max ((hit : ℕ∞) - radius).toNat next
    let last := min (count - 1) ((hit + radius : ℕ∞).untopD (count - 1))
    (total + (last + 1 - first), max next (last + 1))) (0, 0)).1

/-- `count * share` -/
def portion (count : ℕ) : Number → Number
  | .finite x => .ofRat (count * x.val)
  | .infinity => if count = 0 then .nan else .infinity
  | .negInfinity => if count = 0 then .nan else .negInfinity
  | .nan => .nan

def exceeds (n : ℕ) (limit : Option Extended) : Bool :=
  limit.any fun most ↦ decide (most < ((n : WithTop ℚ) : Extended))

def hitsOf (needle : Units) (lower : List Units) : List ℕ :=
  (List.range lower.length).filter fun i ↦ needle <:+: lower.getD i []

structure Ranked where
  needle : Units
  hits : List ℕ

section Choice

variable (toLowerCase : Units → Units) (options : ExcerptOptions) (ls : List Units)

def sizeOf (numbers : List ℕ) : ℕ := (numbers.map fun i ↦ (ls.getD i []).length + 1).sum

/-- `Math.min(budgetChars ?? Infinity, size * keepAtMost)`, which is no number where one of the two is none. -/
def budget : Option Extended := do
  let given ← (options.budgetChars.getD .infinity).position
  let share ← (portion (sizeOf ls (List.range ls.length)) options.keepAtMost).position
  return min given share

def ranked (tokens : List Units) : List Ranked :=
  let named := (tokens.filter codeName.test).map toLowerCase
  ((((tokens.map toLowerCase).eraseDups.map fun needle ↦ ⟨needle, hitsOf needle (ls.map toLowerCase)⟩).filter fun r ↦
      r.hits ≠ [] ∧ (portion ls.length options.keepAtMost).position.any fun most ↦
        decide (((covered ls.length options.radius r.hits : WithTop ℚ) : Extended) ≤ most)).insertionSort
    fun a b ↦ if (a.needle ∈ named) = (b.needle ∈ named) then a.hits.length ≤ b.hits.length else a.needle ∈ named)

structure Kept where
  keep : List ℕ
  used : ℕ

def keepRegion (kept : Kept) (hit : ℕ) : Kept :=
  let region := (neighbourhood ls.length options.radius hit).filter (· ∉ kept.keep)
  let cost := sizeOf ls region
  -- the first region is kept whatever it costs
  if kept.keep ≠ [] ∧ exceeds (kept.used + cost) (budget options ls) then kept
  else ⟨kept.keep ++ region, kept.used + cost⟩

end Choice

def excerptAround (toLowerCase : Units → Units) (contents words : Units) (options : ExcerptOptions) : Option Units :=
  if tokens words = [] then none
  else
    let ls := lines contents
    let kept := ((ranked toLowerCase options ls (tokens words)).flatMap Ranked.hits).foldl (keepRegion options ls) ⟨[], 0⟩
    if kept.keep = [] then none else some (renderKept contents (· ∈ kept.keep))

def literal (s : String) : Pattern UInt16 := cat ((text s).map fun u ↦ one (· = u))

def spaced (s : String) : Pattern UInt16 := optional (seq (literal s) (run isSpace))

/-- `DEFINITION` -/
def definition : Pattern UInt16 :=
  cat [look fun before _ ↦ before.isEmpty, many isSpace,
    anyOf [cat [spaced "async", literal "def", one isSpace], cat [literal "class", one isSpace],
      cat [spaced "export", spaced "default", spaced "async", literal "function",
        one fun u ↦ isSpace u || u = 42 || u = 40]]]

structure Region where
  start : ℕ
  last : ℕ

def Region.lines (r : Region) : List ℕ := List.range' r.start (r.last + 1 - r.start)

def regionsOf (contents : Units) : List Region :=
  let ls := lines contents
  let starts := 0 :: (List.range' 1 (ls.length - 1)).filter fun i ↦ definition.test (ls.getD i [])
  List.zipWith (fun start next ↦ ⟨start, next - 1⟩) starts (starts.tail ++ [ls.length])

/-- A piece of a view, by the numbers of its lines, which start at one: a line, or a gap that is only named. -/
inductive Part
  | line (n : ℕ)
  | gap (first last : ℕ)

namespace Part

def numbers : Part → List ℕ
  | line n => [n]
  | gap first last => List.range' first (last + 1 - first)

def units (ls : List Units) : Part → Units
  | line n => ls.getD (n - 1) []
  | gap first last => text "… lines " ++ shown first ++ text "-" ++ shown last ++ text " of this file are not shown …"

def isGap : Part → Bool
  | line _ => false
  | gap _ _ => true

def line? : Part → Option ℕ
  | line n => some n
  | gap _ _ => none

end Part

/-- An honest view: its parts name every line of the file once and in order, and its gaps are whole. -/
structure View (ls : List Units) where
  parts : List Part
  covers : parts.flatMap Part.numbers = List.range' 1 ls.length
  proper : ∀ first last, .gap first last ∈ parts → first ≤ last
  maximal : parts.IsChain fun a b ↦ ¬(a.isGap ∧ b.isGap)

namespace View

variable {ls : List Units}

def text (v : View ls) : Units := unlines (v.parts.map (Part.units ls))

def lines (v : View ls) : List ℕ := v.parts.filterMap Part.line?

def size (v : View ls) : ℕ := sizeOf ls (v.lines.map (· - 1))

end View

section Parts

variable (keep : ℕ → Bool)

def gapParts : Option ℕ → ℕ → List Part
  | none, _ => []
  | some first, next => [.gap (first + 1) next]

/-- The parts of the lines from `index` on, behind a gap that is still open. -/
def partsFrom : ℕ → Option ℕ → ℕ → List Part
  | index, gapFrom, 0 => gapParts gapFrom index
  | index, gapFrom, count + 1 =>
    if keep index then gapParts gapFrom index ++ .line (index + 1) :: partsFrom (index + 1) none count
    else partsFrom (index + 1) (gapFrom <|> some index) count

variable {keep}

theorem gapParts_units (ls : List Units) (gapFrom : Option ℕ) (next : ℕ) :
    (gapParts gapFrom next).map (Part.units ls) = closeGap gapFrom next := by
  cases gapFrom <;> rfl

theorem partsFrom_units (ls rest : List Units) (index : ℕ) (gapFrom : Option ℕ) (h : ls.drop index = rest) :
    (partsFrom keep index gapFrom rest.length).map (Part.units ls) = renderFrom keep index gapFrom rest := by
  induction rest generalizing index gapFrom with
  | nil => exact gapParts_units ls gapFrom index
  | cons line rest ih =>
    have hrest : ls.drop (index + 1) = rest := by rw [← List.drop_drop, h, List.drop_one, List.tail_cons]
    have hline : ls.getD index [] = line := by
      rw [List.getD_eq_getElem?_getD, ← List.head?_drop, h]
      rfl
    rw [List.length_cons, partsFrom, renderFrom]
    split
    · rw [List.map_append, List.map_cons, gapParts_units, ih _ _ hrest, Part.units, Nat.add_sub_cancel, hline]
    · exact ih _ _ hrest

variable {index count : ℕ} {gapFrom : Option ℕ}

/-- A gap that is open was opened before. -/
def Opened (gapFrom : Option ℕ) (index : ℕ) : Prop := ∀ first ∈ gapFrom, first < index

theorem Opened.none : Opened none index := fun _ hfirst ↦ by cases hfirst

theorem Opened.kept (h : Opened gapFrom index) : Opened (gapFrom <|> some index) (index + 1) := by
  intro first hfirst
  cases gapFrom with
  | none => cases hfirst; exact Nat.lt_succ_self _
  | some => exact Nat.lt_succ_of_lt (h first hfirst)

theorem gapParts_numbers (h : Opened gapFrom index) :
    (gapParts gapFrom index).flatMap Part.numbers =
      List.range' (gapFrom.getD index + 1) (index - gapFrom.getD index) := by
  cases gapFrom with
  | none => simp [gapParts]
  | some => simp [gapParts, Part.numbers]

theorem partsFrom_numbers (h : Opened gapFrom index) : (partsFrom keep index gapFrom count).flatMap Part.numbers =
    List.range' (gapFrom.getD index + 1) (index + count - gapFrom.getD index) := by
  induction count generalizing index gapFrom with
  | zero => exact gapParts_numbers h
  | succ count ih =>
    have hle : gapFrom.getD index ≤ index := by
      cases gapFrom with
      | none => exact le_rfl
      | some first => exact (h first rfl).le
    rw [partsFrom]
    split
    · rw [List.flatMap_append, List.flatMap_cons, gapParts_numbers h, ih .none, Part.numbers, Option.getD_none]
      have hsize : index + (count + 1) - gapFrom.getD index = (index - gapFrom.getD index) + (1 + count) := by omega
      have hnext : gapFrom.getD index + 1 + (index - gapFrom.getD index) = index + 1 := by omega
      rw [hsize, ← List.range'_append_1, hnext, ← List.range'_append_1, Nat.add_sub_cancel_left]
      rfl
    · have hgap : (gapFrom <|> some index).getD (index + 1) = gapFrom.getD index := by cases gapFrom <;> rfl
      rw [ih h.kept, hgap, Nat.add_right_comm, Nat.add_assoc]

theorem gapParts_proper (h : Opened gapFrom index) {first last : ℕ} (hmem : .gap first last ∈ gapParts gapFrom index) :
    first ≤ last := by
  cases gapFrom with
  | none => cases hmem
  | some start =>
    cases List.mem_singleton.mp hmem
    exact h start rfl

theorem partsFrom_proper (h : Opened gapFrom index) {first last : ℕ}
    (hmem : .gap first last ∈ partsFrom keep index gapFrom count) : first ≤ last := by
  induction count generalizing index gapFrom with
  | zero => exact gapParts_proper h hmem
  | succ count ih =>
    rw [partsFrom] at hmem
    split at hmem
    · rcases List.mem_append.mp hmem with hmem | hmem
      · exact gapParts_proper h hmem
      · exact ih .none ((List.mem_cons.mp hmem).resolve_left nofun)
    · exact ih h.kept hmem

theorem partsFrom_maximal : (partsFrom keep index gapFrom count).IsChain fun a b ↦ ¬(a.isGap ∧ b.isGap) := by
  induction count generalizing index gapFrom with
  | zero => cases gapFrom <;> simp [partsFrom, gapParts]
  | succ count ih =>
    rw [partsFrom]
    split
    · have hline : (.line (index + 1) :: partsFrom keep (index + 1) none count).IsChain fun a b ↦
          ¬(a.isGap ∧ b.isGap) := List.isChain_cons.mpr ⟨fun b _ ↦ by simp [Part.isGap], ih⟩
      cases gapFrom with
      | none => exact hline
      | some => exact List.isChain_cons_cons.mpr ⟨by simp [Part.isGap], hline⟩
    · exact ih

theorem partsFrom_lines : (partsFrom keep index gapFrom count).filterMap Part.line? =
    ((List.range' index count).filter keep).map (· + 1) := by
  have hgap (gapFrom : Option ℕ) (next : ℕ) : (gapParts gapFrom next).filterMap Part.line? = [] := by
    cases gapFrom <;> rfl
  induction count generalizing index gapFrom with
  | zero => exact hgap gapFrom index
  | succ count ih =>
    rw [partsFrom, List.range'_succ]
    cases hkeep : keep index with
    | true => rw [if_pos rfl, List.filterMap_append, hgap, List.filter_cons_of_pos hkeep, List.map_cons, ← ih]; rfl
    | false =>
      rw [if_neg Bool.false_ne_true, List.filter_cons_of_neg (by rw [hkeep]; exact Bool.false_ne_true)]
      exact ih

variable (keep)

def View.of (ls : List Units) : View ls where
  parts := partsFrom keep 0 none ls.length
  covers := by simp [partsFrom_numbers .none]
  proper _ _ := partsFrom_proper .none
  maximal := partsFrom_maximal

variable (contents : Units)

theorem renderKept_eq : renderKept contents keep = (View.of keep (lines contents)).text :=
  congrArg unlines (partsFrom_units _ _ 0 none rfl).symm

theorem View.of_lines (ls : List Units) :
    (View.of keep ls).lines = ((List.range ls.length).filter keep).map (· + 1) := by
  rw [View.lines, View.of, partsFrom_lines, List.range_eq_range']

end Parts

/-- A line that mentions a word of the request. -/
def Mentions (toLowerCase : Units → Units) (contents words : Units) (hit : ℕ) : Prop :=
  hit < (lines contents).length ∧
    ∃ token ∈ tokens words, toLowerCase token <:+: toLowerCase ((lines contents).getD hit [])

def Near (radius : ℕ∞) (i hit : ℕ) : Prop := (i : ℕ∞) ≤ hit + radius ∧ (hit : ℕ∞) ≤ i + radius

theorem mem_neighbourhood {count hit i : ℕ} {radius : ℕ∞} (h : hit < count) :
    i ∈ neighbourhood count radius hit ↔ i < count ∧ Near radius i hit := by
  rw [neighbourhood, List.mem_range'_1, Near]
  cases radius with
  | top =>
    have hlast : (⊤ : ℕ∞).untopD (count - 1) = count - 1 := rfl
    simp only [add_top, hlast, le_top, min_self, ENat.sub_top, ENat.toNat_zero]
    simp only [and_self, and_true]
    omega
  | coe r =>
    have hlast : ((hit + r : ℕ∞).untopD (count - 1)) = hit + r := rfl
    have hsub : ((hit : ℕ∞) - r) = (hit - r : ℕ) := rfl
    rw [hlast, hsub, ENat.toNat_natCast]
    norm_cast
    omega

section Chosen

variable (toLowerCase : Units → Units) (options : ExcerptOptions) (contents words : Units)

/-- The view shows some line, each line it shows is near one that mentions the request, and it shows no more than
it may, or one neighbourhood. -/
structure Honest (view : View (lines contents)) : Prop where
  shows : view.lines ≠ []
  near : ∀ n ∈ view.lines, ∃ hit, Mentions toLowerCase contents words hit ∧ Near options.radius (n - 1) hit
  fits : (∀ most ∈ budget options (lines contents), ((view.size : WithTop ℚ) : Extended) ≤ most) ∨
    ∃ hit, Mentions toLowerCase contents words hit ∧
      ∀ n, n ∈ view.lines ↔ 1 ≤ n ∧ n ≤ (lines contents).length ∧ Near options.radius (n - 1) hit

/-- What the loop keeps: lines near a mention, and no more of them than the budget allows, or one neighbourhood. -/
structure Chosen (kept : Kept) : Prop where
  nodup : kept.keep.Nodup
  near : ∀ i ∈ kept.keep, i < (lines contents).length ∧ ∃ hit, Mentions toLowerCase contents words hit ∧ Near options.radius i hit
  used : kept.used = sizeOf (lines contents) kept.keep
  fits : kept.keep = [] ∨ exceeds kept.used (budget options (lines contents)) = false ∨
    ∃ hit, Mentions toLowerCase contents words hit ∧
      ∀ i, i ∈ kept.keep ↔ i < (lines contents).length ∧ Near options.radius i hit

variable {toLowerCase options contents words}

theorem Chosen.keepRegion {kept : Kept} (h : Chosen toLowerCase options contents words kept) {hit : ℕ}
    (hhit : Mentions toLowerCase contents words hit) :
    Chosen toLowerCase options contents words (keepRegion options (lines contents) kept hit) := by
  have hregion (i : ℕ) : i ∈ neighbourhood (lines contents).length options.radius hit ↔
      i < (lines contents).length ∧ Near options.radius i hit := mem_neighbourhood hhit.1
  rw [Author.keepRegion]
  split
  next => exact h
  next hroom =>
    have hdisjoint : kept.keep.Disjoint
        ((neighbourhood (lines contents).length options.radius hit).filter (· ∉ kept.keep)) := by
      intro i hi hi'
      exact absurd hi (by simpa using (List.mem_filter.mp hi').2)
    refine ⟨?_, ?_, ?_, ?_⟩
    · exact h.nodup.append ((List.nodup_range' ..).filter _) hdisjoint
    · intro i hi
      rcases List.mem_append.mp hi with hi | hi
      · exact h.near i hi
      · obtain ⟨hlt, hnear⟩ := (hregion i).mp (List.mem_of_mem_filter hi)
        exact ⟨hlt, hit, hhit, hnear⟩
    · rw [h.used, sizeOf, sizeOf, sizeOf, List.map_append, List.sum_append]
    · right
      by_cases hnil : kept.keep = []
      · right
        refine ⟨hit, hhit, fun i ↦ ?_⟩
        rw [← hregion i, hnil]
        simp
      · left
        exact Bool.eq_false_of_not_eq_true fun hmore ↦ hroom ⟨hnil, hmore⟩

theorem Chosen.foldl {hits : List ℕ} (hhits : ∀ hit ∈ hits, Mentions toLowerCase contents words hit) {kept : Kept}
    (h : Chosen toLowerCase options contents words kept) :
    Chosen toLowerCase options contents words (hits.foldl (Author.keepRegion options (lines contents)) kept) := by
  induction hits generalizing kept with
  | nil => exact h
  | cons hit hits ih =>
    rw [List.foldl_cons]
    exact ih (fun hit hhit ↦ hhits hit (List.mem_cons_of_mem _ hhit)) (h.keepRegion (hhits hit List.mem_cons_self))

theorem Chosen.mem_lines {kept : Kept} (h : Chosen toLowerCase options contents words kept) {n : ℕ} :
    n ∈ (View.of (· ∈ kept.keep) (lines contents)).lines ↔ 1 ≤ n ∧ n - 1 ∈ kept.keep := by
  rw [View.of_lines, List.mem_map]
  constructor
  · rintro ⟨i, hi, rfl⟩
    exact ⟨Nat.le_add_left _ _, by simpa using (List.mem_filter.mp hi).2⟩
  · rintro ⟨hpos, hn⟩
    exact ⟨n - 1, List.mem_filter.mpr ⟨List.mem_range.mpr (h.near _ hn).1, by simpa using hn⟩, by omega⟩

theorem Chosen.size {kept : Kept} (h : Chosen toLowerCase options contents words kept) :
    (View.of (· ∈ kept.keep) (lines contents)).size = kept.used := by
  have hperm : ((List.range (lines contents).length).filter (· ∈ kept.keep)).Perm kept.keep := by
    refine (List.perm_ext_iff_of_nodup (List.nodup_range.filter _) h.nodup).mpr fun i ↦ ?_
    simpa using fun hi ↦ (h.near i hi).1
  have hlines : ((View.of (· ∈ kept.keep) (lines contents)).lines.map (· - 1)) =
      (List.range (lines contents).length).filter (· ∈ kept.keep) := by
    rw [View.of_lines, List.map_map]
    exact List.map_id _
  rw [View.size, hlines, h.used]
  exact (hperm.map _).sum_eq

theorem Chosen.honest {kept : Kept} (h : Chosen toLowerCase options contents words kept) (hkept : kept.keep ≠ []) :
    Honest toLowerCase options contents words (View.of (· ∈ kept.keep) (lines contents)) where
  shows := by
    obtain ⟨i, hi⟩ := List.exists_mem_of_ne_nil _ hkept
    exact List.ne_nil_of_mem (h.mem_lines.mpr ⟨Nat.le_add_left 1 i, hi⟩)
  near n hn := (h.near _ (h.mem_lines.mp hn).2).2
  fits := by
    rcases h.fits with hnil | hfits | ⟨hit, hhit, hall⟩
    · exact absurd hnil hkept
    · left
      intro most hmost
      rw [hmost, exceeds, Option.any_some, decide_eq_false_iff_not, not_lt] at hfits
      rw [h.size]
      exact hfits
    · right
      refine ⟨hit, hhit, fun n ↦ ?_⟩
      rw [h.mem_lines, hall]
      constructor
      · rintro ⟨hpos, hlt, hnear⟩
        exact ⟨hpos, by omega, hnear⟩
      · rintro ⟨hpos, hle, hnear⟩
        exact ⟨hpos, by omega, hnear⟩

theorem mentions_of_ranked {hit : ℕ}
    (h : hit ∈ (ranked toLowerCase options (lines contents) (tokens words)).flatMap Ranked.hits) :
    Mentions toLowerCase contents words hit := by
  obtain ⟨r, hr, hhit⟩ := List.mem_flatMap.mp h
  rw [ranked, List.mem_insertionSort] at hr
  obtain ⟨needle, hneedle, rfl⟩ := List.mem_map.mp (List.mem_of_mem_filter hr)
  obtain ⟨token, htoken, rfl⟩ := List.mem_map.mp (List.mem_eraseDups.mp hneedle)
  obtain ⟨hlt, hin⟩ := List.mem_filter.mp hhit
  rw [List.mem_range, List.length_map] at hlt
  refine ⟨hlt, token, htoken, ?_⟩
  simpa [List.getD_eq_getElem?_getD, hlt] using hin

end Chosen

theorem zipWith_regions {count start : ℕ} {rest : List ℕ} (hsorted : (start :: rest).IsChain (· < ·))
    (hlt : ∀ i ∈ start :: rest, i < count) :
    (List.zipWith (fun start next ↦ Region.mk start (next - 1)) (start :: rest) (rest ++ [count])).flatMap Region.lines =
        List.range' start (count - start) ∧
      ∀ region ∈ List.zipWith (fun start next ↦ Region.mk start (next - 1)) (start :: rest) (rest ++ [count]),
        region.start ≤ region.last := by
  induction rest generalizing start with
  | nil =>
    have hstart := hlt start List.mem_cons_self
    have hsize : count - 1 + 1 - start = count - start := by omega
    refine ⟨by simp [Region.lines, hsize], fun region hregion ↦ ?_⟩
    cases List.mem_singleton.mp hregion
    exact Nat.le_sub_one_of_lt hstart
  | cons next rest ih =>
    obtain ⟨hnext, hrest⟩ := List.isChain_cons_cons.mp hsorted
    obtain ⟨hcover, hproper⟩ := ih hrest fun i hi ↦ hlt i (List.mem_cons_of_mem _ hi)
    have hcount := hlt next (List.mem_cons_of_mem _ List.mem_cons_self)
    have hsize : count - start = (next - start) + (count - next) := by omega
    have hstart : start + (next - start) = next := by omega
    have hlast : next - 1 + 1 - start = next - start := by omega
    rw [List.cons_append, List.zipWith_cons_cons]
    constructor
    · rw [List.flatMap_cons, hcover, Region.lines, hlast, hsize, ← List.range'_append_1, hstart]
    · intro region hregion
      rcases List.mem_cons.mp hregion with rfl | hregion
      · exact Nat.le_sub_one_of_lt hnext
      · exact hproper region hregion

theorem regionsOf_partition (contents : Units) :
    (regionsOf contents).flatMap Region.lines = List.range (lines contents).length ∧
      ∀ region ∈ regionsOf contents, region.start ≤ region.last := by
  have hpos : 0 < (lines contents).length := List.length_pos_of_ne_nil (List.splitOnP_ne_nil _ contents)
  have hsorted : (0 :: (List.range' 1 ((lines contents).length - 1)).filter fun i ↦
      definition.test ((lines contents).getD i [])).IsChain (· < ·) := by
    refine List.Pairwise.isChain (List.pairwise_cons.mpr ⟨fun i hi ↦ ?_, ?_⟩)
    · exact (List.mem_range'_1.mp (List.mem_of_mem_filter hi)).1
    · exact List.Pairwise.filter _ (List.pairwise_lt_range' ..)
  rw [regionsOf, List.tail_cons, List.range_eq_range']
  refine zipWith_regions hsorted fun i hi ↦ ?_
  rcases List.mem_cons.mp hi with rfl | hi
  · exact hpos
  · have hbound := List.mem_range'_1.mp (List.mem_of_mem_filter hi)
    omega

/-- A text that comes back is the text of an honest view, and the regions cut a file up. -/
theorem excerpt_honest (toLowerCase : Units → Units) (contents words : Units) (options : ExcerptOptions) :
    (∀ shown, excerptAround toLowerCase contents words options = some shown →
      ∃ view : View (lines contents), shown = view.text ∧ Honest toLowerCase options contents words view) ∧
    (regionsOf contents).flatMap Region.lines = List.range (lines contents).length ∧
      ∀ region ∈ regionsOf contents, region.start ≤ region.last := by
  refine ⟨fun shown h ↦ ?_, regionsOf_partition contents⟩
  have hempty : Chosen toLowerCase options contents words ⟨[], 0⟩ := ⟨.nil, nofun, rfl, .inl rfl⟩
  have hmentions : ∀ hit ∈ (ranked toLowerCase options (lines contents) (tokens words)).flatMap Ranked.hits,
      Mentions toLowerCase contents words hit := fun _ hhit ↦ mentions_of_ranked hhit
  have hchosen := hempty.foldl hmentions
  rw [excerptAround] at h
  split at h
  · cases h
  · dsimp only at h
    split at h
    next => cases h
    next hkept =>
      generalize ((ranked toLowerCase options (lines contents) (tokens words)).flatMap Ranked.hits).foldl
        (keepRegion options (lines contents)) ⟨[], 0⟩ = kept at h hchosen hkept
      cases h
      exact ⟨_, renderKept_eq _ _, hchosen.honest hkept⟩

theorem excerpt_honest_gaps : ∃ view : View (lines (text "a\nb_word\nc")),
    text "… lines 1-1 of this file are not shown …\nb_word\n… lines 3-3 of this file are not shown …" = view.text ∧
      Honest id ⟨0, .infinity, none⟩ (text "a\nb_word\nc") (text "b_word") view :=
  (excerpt_honest id (text "a\nb_word\nc") (text "b_word") ⟨0, .infinity, none⟩).1 _ (by decide +kernel)

end Noesar.Author
