import Noesar.Lib.JsonReading
import Noesar.Lib.JsonOrder
import Noesar.Lib.Numeral
import Noesar.Lib.Fallible

namespace Noesar.Canonical

open Lib Lib.Utf16 Lib.Json

/-- What is no string, boolean, array or plain object: a number, a value of another type by
its `typeof`, or an object of a class by the name of its constructor. -/
inductive Leaf
  | finite (x : Binary64)
  | negZero
  | infinity
  | negInfinity
  | nan
  | other (type : String)
  | made (constructor : Option String)
  deriving DecidableEq

abbrev JsValue := Json Units Leaf

theorem zero_dyadic : ∃ k e : ℤ, |k| ≤ 2 ^ 53 ∧ (0 : ℚ) = k * 2 ^ e := ⟨0, 0, by norm_num, by norm_num⟩

def zero : Binary64 := ⟨0, zero_dyadic⟩

/-- The numbers of the platform's own JSON: the text of a finite one, and what a numeral is read as. -/
structure Numbers where
  stringify : Binary64 → List Char
  parse : List Char → Option Leaf
  stringify_zero : stringify zero = ['0']

def canonicalLeaf (ns : Numbers) : Leaf → Except String (List Char)
  | .finite x => .ok (ns.stringify x)
  | .negZero => .ok ['0']
  | .infinity | .negInfinity | .nan => .error "canonical JSON rejects non-finite numbers"
  | .other type => .error s!"canonical JSON rejects {type}"
  | .made constructor =>
    let name := constructor.getD "a non-plain object"
    .error s!"canonical JSON rejects {name}: only plain objects, arrays, strings, finite numbers, booleans and null are JSON values"

def unitRank (us : Units) : List ℕ := us.map UInt16.toNat

/-- The text, or the message of the `TypeError` where the first value that has none is met. -/
def canonicalJson (ns : Numbers) : JsValue → Except String (List Char) :=
  fold ⟨.ok "null".toList, fun b ↦ .ok (if b then "true" else "false").toList, canonicalLeaf ns, fun s ↦ .ok (quote s),
    fun items ↦ (items.mapM id).map fun texts ↦ '[' :: joined texts ++ [']'],
    fun members ↦ ((sortKeys unitRank members).mapM fun m : Units × Except String (List Char) ↦
      m.2.map fun text ↦ quote m.1 ++ ':' :: text).map fun entries ↦ '{' :: joined entries ++ ['}']⟩

/-- `JSON.parse`: strings are read as they are, and nothing limits how deep the text is nested. -/
def reader (ns : Numbers) : Reader Units Leaf := ⟨some, ns.parse, none⟩

def isFinite : Leaf → Prop
  | .finite _ | .negZero => True
  | _ => False

def value : Leaf → Leaf
  | .negZero => .finite zero
  | leaf => leaf

/-- A value the format has: its numbers are finite and the keys of its objects are distinct. -/
structure Plain (v : JsValue) : Prop where
  distinct : v.Distinct
  finite : v.EachNumber isFinite

/-- The text of a number is a numeral that is read as the number. -/
structure Legible (ns : Numbers) (leaf : Leaf) : Prop where
  inverted : ∀ x, value leaf = .finite x → ns.parse (ns.stringify x) = some (.finite x)
  numeral : ∀ x, value leaf = .finite x → Numeric (ns.stringify x)

def leafText (ns : Numbers) : Leaf → List Char
  | .finite x => ns.stringify x
  | _ => []

def writer (ns : Numbers) : Json.Writer Units Leaf := ⟨id, leafText ns⟩

theorem unitRank_injective : Function.Injective unitRank := List.map_injective_iff.mpr fun _ _ ↦ UInt16.toNat_inj.mp

theorem mapM_ok {α β ε : Type} {f : α → Except ε β} {g : α → β} {xs : List α} (h : ∀ x ∈ xs, f x = .ok (g x)) :
    xs.mapM f = .ok (xs.map g) := by
  induction xs with
  | nil => rfl
  | cons x xs ih =>
    rw [List.mapM_cons, h x (by simp), ih fun x hx ↦ h x (by simp [hx])]
    rfl

section

variable (ns : Numbers)

theorem canonicalJson_eq {v : JsValue} (h : v.EachNumber isFinite) :
    canonicalJson ns v = .ok (print (writer ns) (norm unitRank value v)) := by
  induction v using ofParts with
  | null => rfl
  | bool => rfl
  | number leaf =>
    cases leaf with
    | finite => rfl
    | negZero => exact congrArg Except.ok ns.stringify_zero.symm
    | _ => exact absurd h id
  | string => rfl
  | array items ih =>
    rw [eachNumber_array] at h
    have hitems : (items.map (canonicalJson ns)).mapM id =
        .ok (items.map fun v ↦ print (writer ns) (norm unitRank value v)) := by
      rw [List.mapM_map]
      exact mapM_ok fun v hv ↦ ih v hv (h v hv)
    rw [norm_array, print_array, List.map_map, canonicalJson, fold_array]
    change ((items.map (canonicalJson ns)).mapM id).map _ = _
    rw [hitems]
    rfl
  | object members ih =>
    rw [eachNumber_object] at h
    have hmembers : (sortKeys unitRank (members.map fun m ↦ (m.1, canonicalJson ns m.2))).mapM
          (fun m ↦ m.2.map fun text ↦ quote m.1 ++ ':' :: text) =
        .ok ((sortKeys unitRank members).map fun m ↦
          quote m.1 ++ ':' :: print (writer ns) (norm unitRank value m.2)) := by
      rw [sortKeys_map, List.mapM_map]
      apply mapM_ok
      intro m hm
      have hm := (sortKeys_perm members).mem_iff.mp hm
      simp only [Function.comp_apply, ih m hm (h m hm)]
      rfl
    rw [norm_object, print_object, canonicalJson, fold_object]
    change Except.map _ ((sortKeys unitRank (members.map fun m ↦ (m.1, canonicalJson ns m.2))).mapM _) = _
    rw [hmembers, sortKeys_map, List.map_map]
    rfl

theorem finite_of_canonicalJson {v : JsValue} {cs : List Char} (h : canonicalJson ns v = .ok cs) : v.EachNumber isFinite := by
  induction v using ofParts generalizing cs with
  | null => trivial
  | bool => trivial
  | number leaf =>
    cases leaf with
    | finite => trivial
    | negZero => trivial
    | _ => cases h
  | string => trivial
  | array items ih =>
    rw [canonicalJson, fold_array] at h
    obtain ⟨texts, htexts, -⟩ := map_ok.mp h
    rw [List.mapM_map, mapM_ok_iff] at htexts
    rw [eachNumber_array]
    intro v hv
    obtain ⟨i, hi, rfl⟩ := List.mem_iff_getElem.mp hv
    exact ih _ hv (htexts.get hi (htexts.length_eq ▸ hi))
  | object members ih =>
    rw [canonicalJson, fold_object] at h
    obtain ⟨entries, hentries, -⟩ := map_ok.mp h
    rw [sortKeys_map, List.mapM_map, mapM_ok_iff] at hentries
    rw [eachNumber_object]
    intro m hm
    obtain ⟨i, hi, rfl⟩ := List.mem_iff_getElem.mp ((@sortKeys_perm _ _ unitRank members).mem_iff.mpr hm)
    obtain ⟨text, htext, -⟩ := map_ok.mp (hentries.get hi (hentries.length_eq ▸ hi))
    exact ih _ hm htext

def Written (leaf : Leaf) : Prop := Legible ns leaf ∧ ∃ x, leaf = .finite x

theorem written_value {leaf : Leaf} (hfinite : isFinite leaf) (h : Legible ns leaf) : Written ns (value leaf) := by
  cases leaf with
  | finite x => exact ⟨h, x, rfl⟩
  | negZero => exact ⟨⟨h.inverted, h.numeral⟩, zero, rfl⟩
  | _ => exact absurd hfinite id

theorem understands : Understands (writer ns) (reader ns) id id (Written ns) where
  string _ := rfl
  number leaf h := by
    obtain ⟨h, x, rfl⟩ := h
    exact h.inverted x rfl
  numeral leaf h := by
    obtain ⟨h, x, rfl⟩ := h
    exact h.numeral x rfl

variable {ns} {a b : JsValue}

theorem parse_norm (ha : Plain a) (hlegible : a.EachNumber (Legible ns)) :
    parse (reader ns) (print (writer ns) (norm unitRank value a)) = some (norm unitRank value a) := by
  have hwritten : (norm unitRank value a).EachNumber (Written ns) :=
    norm_eachNumber (fun leaf h ↦ written_value ns h.1 h.2) (ha.finite.and hlegible)
  have hdistinct : ((norm unitRank value a).map id id).Distinct := by
    rw [map_id]
    exact norm_distinct ha.distinct
  rw [parse_print (understands ns) _ hdistinct hwritten (fun _ h ↦ by cases h), map_id]

theorem value_value (leaf : Leaf) : value (value leaf) = value leaf := by
  cases leaf <;> rfl

theorem norm_same (ha : Plain a) : Same value (norm unitRank value a) a := by
  rw [same_iff_norm unitRank_injective (norm_distinct ha.distinct) ha.distinct, norm_norm]
  congr 1
  funext leaf
  exact value_value leaf

theorem isFinite_value {leaf : Leaf} (h : isFinite leaf) : isFinite (value leaf) := by
  cases leaf <;> trivial

end

/-- The encoding determines a value and nothing more: two values have one encoding exactly
when they are the same, and the platform reads from it a value that is the same and has the
same encoding. -/
theorem canonicalJson_determines (ns : Numbers) {a b : JsValue} (ha : Plain a) (hb : Plain b)
    (hla : a.EachNumber (Legible ns)) (hlb : b.EachNumber (Legible ns)) :
    (canonicalJson ns a = canonicalJson ns b ↔ Same value a b) ∧
    ∃ text a', canonicalJson ns a = .ok text ∧ parse (reader ns) text = some a' ∧ Same value a' a ∧
      canonicalJson ns a' = canonicalJson ns a := by
  constructor
  · rw [canonicalJson_eq ns ha.finite, canonicalJson_eq ns hb.finite,
      same_iff_norm unitRank_injective ha.distinct hb.distinct]
    constructor
    · intro h
      have hparse := congrArg (parse (reader ns)) (Except.ok.inj h)
      rw [parse_norm ha hla, parse_norm hb hlb] at hparse
      exact Option.some.inj hparse
    · intro h
      rw [h]
  · refine ⟨_, _, canonicalJson_eq ns ha.finite, parse_norm ha hla, norm_same ha, ?_⟩
    rw [canonicalJson_eq ns ha.finite, canonicalJson_eq ns (norm_eachNumber (fun _ ↦ isFinite_value) ha.finite), norm_norm]
    congr 3
    funext leaf
    exact value_value leaf

/-- The platform's numbers, with its texts of integers; the others are written as they may be. -/
def platform (fraction : Binary64 → List Char) (parse : List Char → Option Leaf) : Numbers where
  stringify x := if x.val.den = 1 then Decimal.integerText x.val.num else fraction x
  parse := parse
  stringify_zero := by
    have htext : Decimal.integerText 0 = ['0'] := by decide +kernel
    exact htext

section Sample

def one : Binary64 := ⟨1, 1, 0, by norm_num, by norm_num⟩

def zeroAndOne : Numbers :=
  platform (fun _ ↦ []) fun cs ↦ if cs = ['0'] then some (.finite zero) else if cs = ['1'] then some (.finite one) else none

theorem legible_zeroAndOne {leaf : Leaf} (h : value leaf = .finite zero ∨ value leaf = .finite one) :
    Legible zeroAndOne leaf := by
  have hzero : zeroAndOne.stringify zero = ['0'] := zeroAndOne.stringify_zero
  have hone : zeroAndOne.stringify one = ['1'] := by decide +kernel
  constructor
  · intro x hx
    rcases h with h | h
    · cases h.symm.trans hx
      rw [hzero]
      rfl
    · cases h.symm.trans hx
      rw [hone]
      rfl
  · intro x hx
    rcases h with h | h
    · cases h.symm.trans hx
      exact ⟨'0', [], hzero, .inr rfl, by simp⟩
    · cases h.symm.trans hx
      exact ⟨'1', [], hone, .inr rfl, by simp⟩

/-- `{"b":-0,"a":[1]}` -/
def unordered : JsValue :=
  .object [(encode ['b'], .number .negZero), (encode ['a'], .array [.number (.finite one)])]

/-- `{"a":[1],"b":0}` -/
def ordered : JsValue :=
  .object [(encode ['a'], .array [.number (.finite one)]), (encode ['b'], .number (.finite zero))]

end Sample

theorem canonicalJson_determines_order :
    (canonicalJson zeroAndOne unordered = canonicalJson zeroAndOne ordered ↔ Same value unordered ordered) ∧
    ∃ text a', canonicalJson zeroAndOne unordered = .ok text ∧ parse (reader zeroAndOne) text = some a' ∧
      Same value a' unordered ∧ canonicalJson zeroAndOne a' = canonicalJson zeroAndOne unordered := by
  have hone : Legible zeroAndOne (.finite one) := legible_zeroAndOne (.inr rfl)
  have hzero : Legible zeroAndOne (.finite zero) := legible_zeroAndOne (.inl rfl)
  have hneg : Legible zeroAndOne .negZero := legible_zeroAndOne (.inl rfl)
  have hkeys : (encode ['a'] : Units) ≠ encode ['b'] := by decide
  apply canonicalJson_determines
  · constructor
    · simp [unordered, distinct_object, distinct_array, hkeys.symm]
    · simp [unordered, eachNumber_object, eachNumber_array, isFinite]
  · constructor
    · simp [ordered, distinct_object, distinct_array, hkeys]
    · simp [ordered, eachNumber_object, eachNumber_array, isFinite]
  · simp [unordered, eachNumber_object, eachNumber_array, hone, hneg]
  · simp [ordered, eachNumber_object, eachNumber_array, hone, hzero]

end Noesar.Canonical
