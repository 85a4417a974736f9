import Noesar.Canonical.Rust
import Noesar.Lib.JsonOrder
import Noesar.Lib.Utf8

namespace Noesar.Reference

open Lib Lib.Utf16 Lib.Framing Lib.Json Lib.Decimal

/-- A number of the interpreter's values, with its floats from any type. -/
inductive PyNumber (φ : Type)
  | int (z : ℤ)
  | float (x : φ)
  deriving DecidableEq

/-- What the interpreter has of its own: its finite floats, whose texts are never those of integers, and what it reads
from a text where `int` is called with it. -/
structure Interpreter (φ : Type) where
  repr : φ → List Char
  read : List Char → Option φ
  value : φ → ℚ
  parseInt : String → Option ℤ
  numeric : ∀ x, Numeric (repr x)
  fractional : ∀ x, '.' ∈ repr x ∨ 'e' ∈ repr x
  read_repr : ∀ x, read (repr x) = some x

abbrev Value (φ : Type) := Json String (PyNumber φ)

section

variable {φ : Type} (py : Interpreter φ)

def PyNumber.text : PyNumber φ → List Char
  | int z => (toString z).toList
  | float x => py.repr x

def readInt : List Char → Option ℤ
  | '-' :: cs => (Canonical.readDigits cs).map fun n ↦ -(n : ℤ)
  | cs => (Canonical.readDigits cs).map fun n ↦ (n : ℤ)

def readNumber (cs : List Char) : Option (PyNumber φ) :=
  match readInt cs with
  | some z => some (.int z)
  | none => (py.read cs).map .float

def pointRank (s : String) : List ℕ := s.toList.map Char.toNat

def writer : Json.Writer String (PyNumber φ) := ⟨fun s ↦ encode s.toList, PyNumber.text py⟩

def reader : Reader String (PyNumber φ) := ⟨fun us ↦ (decode us).map String.ofList, readNumber py, none⟩

/-- `json.dumps` with sorted keys, without blanks and without escapes for what is not ASCII. -/
def canonicalJson (v : Value φ) : Bytes := utf8 (String.ofList (print (writer py) (norm pointRank id v)))

def decodeUtf8 (bytes : Bytes) : Option (List Char) :=
  if Utf8.encode (Utf8.decode bytes) = bytes then some (Utf8.decode bytes) else none

/-- `json.loads` -/
def loads (bytes : Bytes) : Option (Value φ) := (decodeUtf8 bytes).bind (parse (reader py))

theorem pointRank_injective : Function.Injective pointRank := by
  intro s t h
  have hinj : Function.Injective Char.toNat := fun _ _ ↦ Char.toNat_inj.mp
  exact String.toList_injective (List.map_injective_iff.mpr hinj h)

theorem readInt_of_ne {cs : List Char} (h : ∀ ds, cs ≠ '-' :: ds) :
    readInt cs = (Canonical.readDigits cs).map fun n ↦ (n : ℤ) := by
  unfold readInt
  split
  next ds => exact absurd rfl (h ds)
  · rfl

theorem readInt_toString (z : ℤ) : readInt (toString z).toList = some z := by
  obtain ⟨n, rfl | rfl⟩ := z.eq_nat_or_neg
  · rw [toString_natCast, readInt_of_ne, Canonical.readDigits_toDigits]
    · rfl
    · intro ds hds
      have hminus : '-' ∈ Nat.toDigits 10 n := by rw [hds]; exact List.mem_cons_self
      cases isDigit_of_mem hminus
  · rcases Nat.eq_zero_or_pos n with rfl | hpos
    · rfl
    · rw [toString_neg hpos, readInt, Canonical.readDigits_toDigits]
      rfl

theorem readDigits_fractional {cs : List Char} (h : '.' ∈ cs ∨ 'e' ∈ cs) : Canonical.readDigits cs = none := by
  rcases h with h | h
  · exact Canonical.readDigits_none h rfl
  · exact Canonical.readDigits_none h rfl

theorem readInt_repr (x : φ) : readInt (py.repr x) = none := by
  have hmark := py.fractional x
  unfold readInt
  split
  next ds hds =>
    rw [hds] at hmark
    rw [readDigits_fractional (by simpa using hmark)]
    rfl
  next cs =>
    rw [readDigits_fractional hmark]
    rfl

theorem understands : Understands (writer py) (reader py) id id (fun _ ↦ True) where
  string s := by
    have hdecode : decode (encode s.toList) = some s.toList := decode_encode s.toList
    change (decode (encode s.toList)).map String.ofList = some s
    rw [hdecode, Option.map_some, String.ofList_toList]
  number n _ := by
    cases n with
    | int z =>
      change readNumber py (toString z).toList = some (.int z)
      rw [readNumber, readInt_toString]
    | float x =>
      change readNumber py (py.repr x) = some (.float x)
      rw [readNumber, readInt_repr]
      change (py.read (py.repr x)).map PyNumber.float = some (.float x)
      rw [py.read_repr]
      rfl
  numeral n _ := by
    cases n with
    | int z => exact numeric_toString z
    | float x => exact py.numeric x

theorem decodeUtf8_utf8 (cs : List Char) : decodeUtf8 (utf8 (String.ofList cs)) = some cs := by
  have hdecode : Utf8.decode (Utf8.encode cs) = cs := by
    have h := Utf8.decode_encode_append cs []
    rwa [List.append_nil, show Utf8.decode [] = [] from rfl, List.append_nil] at h
  rw [Utf8.utf8_ofList, decodeUtf8, hdecode, if_pos rfl]

variable {py} {a b : Value φ}

theorem loads_canonicalJson (h : a.Distinct) : loads py (canonicalJson py a) = some (norm pointRank id a) := by
  have hdistinct : ((norm pointRank id a).map id id).Distinct := by
    rw [map_id]
    exact norm_distinct h
  have hparse := parse_print (understands py) (norm pointRank id a) hdistinct (eachNumber_of_forall (fun _ ↦ trivial) _)
    (fun _ h ↦ by cases h)
  rw [map_id] at hparse
  rw [loads, canonicalJson, decodeUtf8_utf8, Option.bind_some, hparse]

theorem canonicalJson_eq_iff (ha : a.Distinct) (hb : b.Distinct) : canonicalJson py a = canonicalJson py b ↔ Same id a b := by
  rw [same_iff_norm pointRank_injective ha hb]
  constructor
  · intro h
    have hloads := congrArg (loads py) h
    rw [loads_canonicalJson ha, loads_canonicalJson hb] at hloads
    exact Option.some.inj hloads
  · intro h
    rw [canonicalJson, h]
    rfl

end

@[simp] theorem distinct_bool {φ : Type} (b : Bool) : (Json.bool b : Value φ).Distinct := trivial

theorem distinct_text {φ : Type} (s : String) : (Json.string s : Value φ).Distinct := trivial

/-- The exceptions that the code raises, or that the interpreter raises in it. -/
inductive PyError
  | valueError (message : String)
  | permissionError (message : String)
  | typeError (message : String)
  | keyError (key : String)
  | attributeError (name : String)
  deriving DecidableEq

/-- A dictionary: no key stands twice, in it or inside of it. -/
structure Dict (φ : Type) where
  entries : List (String × Value φ)
  distinct : (Json.object entries : Value φ).Distinct

section

variable {φ : Type}

def Dict.value (d : Dict φ) : Value φ := .object d.entries

/-- `dict.get` -/
def Dict.get (d : Dict φ) (key : String) : Option (Value φ) := InsertionMap.lookup key d.entries

def Dict.without (d : Dict φ) (key : String) : Dict φ where
  entries := d.entries.filter fun m ↦ m.1 ≠ key
  distinct := by
    have h := d.distinct
    rw [distinct_object] at h ⊢
    exact ⟨h.1.sublist (List.filter_sublist.map _), fun m hm ↦ h.2 m (List.filter_sublist.subset hm)⟩

/-- `dict[key] = value` -/
def Dict.put (d : Dict φ) (key : String) (v : Value φ) (hv : v.Distinct) : Dict φ where
  entries := InsertionMap.put key v d.entries
  distinct := by
    have h := d.distinct
    rw [distinct_object] at h ⊢
    refine ⟨?_, ?_⟩
    · rw [InsertionMap.put_keys]
      split
      · exact h.1
      next hnew => exact List.nodup_append.mpr ⟨h.1, by simp, fun a ha b hb ↦ by rintro rfl; simp_all⟩
    · intro m hm
      rcases InsertionMap.mem_put hm with hold | rfl
      · exact h.2 m hold
      · exact hv

def stringOf : Option (Value φ) → Option String
  | some (.string s) => some s
  | _ => none

/-- What `isinstance` takes for an integer, which is a boolean too. -/
def intOf : Option (Value φ) → Option ℤ
  | some (.number (.int z)) => some z
  | some (.bool b) => some (if b then 1 else 0)
  | _ => none

/-- Lists and dictionaries are no members of a set, nor can it be asked whether they are. -/
def hashable : Option (Value φ) → Bool
  | some (.array _) | some (.object _) => false
  | _ => true

def isTrue : Option (Value φ) → Bool
  | some (.bool b) => b
  | _ => false

def truthy (py : Interpreter φ) : Option (Value φ) → Bool
  | none | some .null => false
  | some (.bool b) => b
  | some (.number (.int z)) => z ≠ 0
  | some (.number (.float x)) => py.value x ≠ 0
  | some (.string s) => s ≠ ""
  | some (.array items) => !items.isEmpty
  | some (.object members) => !members.isEmpty

def isString (text : String) : Value φ → Bool
  | .string s => s = text
  | _ => false

/-- `value[key]` with a string for the key -/
def subscript (key : String) : Value φ → Except PyError (Value φ)
  | .object members => demand (InsertionMap.lookup key members) (.keyError key)
  | _ => .error (.typeError "not subscriptable with a string")

/-- `value.get(key, default)` -/
def getOr (key : String) (default : Value φ) : Value φ → Except PyError (Value φ)
  | .object members => .ok ((InsertionMap.lookup key members).getD default)
  | _ => .error (.attributeError "get")

def iterate : Value φ → Except PyError (List (Value φ))
  | .array items => .ok items
  | .object members => .ok (members.map fun m ↦ .string m.1)
  | .string s => .ok (s.toList.map fun c ↦ .string (String.singleton c))
  | _ => .error (.typeError "not iterable")

/-- `value in {…}` for a set of strings -/
def among (texts : List String) (v : Value φ) : Except PyError Bool :=
  if hashable (some v) then .ok (texts.any fun text ↦ isString text v) else .error (.typeError "unhashable type")

def setOf (v : Value φ) : Except PyError (List (Value φ)) := do
  let items ← iterate v
  require (∀ item ∈ items, hashable (some item) = true) (.typeError "unhashable type")
  return items

/-- `str` of what can be a member of a set -/
def format (py : Interpreter φ) : Value φ → String
  | .null => "None"
  | .bool b => if b then "True" else "False"
  | .number n => String.ofList (n.text py)
  | .string s => s
  | _ => ""

def numberOf (py : Interpreter φ) : Value φ → Option ℚ
  | .bool b => some (if b then 1 else 0)
  | .number (.int z) => some z
  | .number (.float x) => some (py.value x)
  | _ => none

/-- `sorted` of what can be in a set: nothing is compared with a value of another type. -/
def sorted (py : Interpreter φ) (items : List (Value φ)) : Except PyError (List (Value φ)) :=
  if items.length ≤ 1 then .ok items
  else if items.all fun v ↦ (stringOf (some v)).isSome then
    .ok (items.insertionSort fun a b ↦ pointRank ((stringOf (some a)).getD "") ≤ pointRank ((stringOf (some b)).getD ""))
  else if items.all fun v ↦ (numberOf py v).isSome then
    .ok (items.insertionSort fun a b ↦ (numberOf py a).getD 0 ≤ (numberOf py b).getD 0)
  else .error (.typeError "'<' not supported between instances")

/-- `int(value)` -/
def toInt (py : Interpreter φ) : Value φ → Except PyError ℤ
  | .number (.int z) => .ok z
  | .number (.float x) => .ok (if 0 ≤ py.value x then ⌊py.value x⌋ else ⌈py.value x⌉)
  | .bool b => .ok (if b then 1 else 0)
  | .string s => demand (py.parseInt s) (.valueError "invalid literal for int()")
  | _ => .error (.typeError "int() argument must be a string or a number")

/-- `==`, in which numbers and booleans are compared as numbers and dictionaries without their order. -/
def equal (py : Interpreter φ) : Value φ → Value φ → Bool :=
  fold ⟨fun v ↦ match v with | .null => true | _ => false, fun b v ↦ numberOf py v = some (if b then 1 else 0),
    fun n v ↦ numberOf py v = numberOf py (.number n), isString,
    fun parts v ↦ match v with
      | .array items => parts.length = items.length ∧ (parts.zip items).all fun p ↦ p.1 p.2
      | _ => false,
    fun parts v ↦ match v with
      | .object members => parts.length = members.length ∧
        parts.all fun p ↦ (InsertionMap.lookup p.1 members).any p.2
      | _ => false⟩

theorem equal_string (py : Interpreter φ) (s : String) (v : Value φ) : equal py (.string s) v = isString s v := rfl

theorem isString_iff {text : String} {v : Value φ} : isString text v = true ↔ v = .string text := by
  cases v with
  | string =>
    rw [isString, decide_eq_true_iff]
    exact ⟨fun h ↦ by rw [h], fun h ↦ by cases h; rfl⟩
  | _ => exact ⟨nofun, nofun⟩

theorem isString_self (text : String) : isString text (.string text : Value φ) = true := isString_iff.mpr rfl

theorem equal_string_iff {py : Interpreter φ} {s t : String} : equal py (.string s) (.string t : Value φ) = true ↔ s = t := by
  rw [equal_string, isString_iff]
  exact ⟨fun h ↦ by cases h; rfl, fun h ↦ by rw [h]⟩

theorem stringOf_of_same {v w : Value φ} (h : Same id v w) : stringOf (some v) = stringOf (some w) := by
  cases v with
  | array =>
    obtain ⟨others, rfl, _⟩ := same_array.mp h
    rfl
  | object =>
    obtain ⟨others, rfl, _⟩ := same_object.mp h
    rfl
  | number =>
    obtain ⟨m, rfl, _⟩ := h
    rfl
  | _ =>
    cases h
    rfl

theorem Dict.without_put {d : Dict φ} {key : String} (h : d.get key = none) (v : Value φ) (hv : v.Distinct) :
    (d.put key v hv).without key = d := by
  obtain ⟨entries, hdistinct⟩ := d
  have hentries : (InsertionMap.put key v entries).filter (fun m ↦ m.1 ≠ key) = entries := by
    have hnone : InsertionMap.lookup key entries = none := h
    clear hdistinct h
    induction entries with
    | nil => simp [InsertionMap.put]
    | cons e es ih =>
      obtain ⟨j, w⟩ := e
      by_cases hj : j = key
      · simp [InsertionMap.lookup, hj] at hnone
      · rw [InsertionMap.lookup, if_neg hj] at hnone
        rw [InsertionMap.put, if_neg hj, List.filter_cons_of_pos (by simpa using hj), ih hnone]
  simp only [Dict.without, Dict.put, hentries]

theorem Dict.get_put (d : Dict φ) (key j : String) (v : Value φ) (hv : v.Distinct) :
    (d.put key v hv).get j = if key = j then some v else d.get j := InsertionMap.lookup_put _ _ _ _

theorem Dict.stringOf_same {d e : Dict φ} (h : Same id d.value e.value) (key : String) :
    stringOf (d.get key) = stringOf (e.get key) := by
  have hd := ((distinct_object _).mp d.distinct).1
  have he := ((distinct_object _).mp e.distinct).1
  have hrel := (same_object_iff hd he).mp h key
  rw [Dict.get, Dict.get]
  generalize InsertionMap.lookup key d.entries = v at hrel
  generalize InsertionMap.lookup key e.entries = w at hrel
  cases hrel with
  | none => rfl
  | some hsame => exact stringOf_of_same hsame

end

section Sample

def integral : Interpreter Empty where
  repr := Empty.elim
  read _ := none
  value := Empty.elim
  parseInt _ := none
  numeric x := x.elim
  fractional x := x.elim
  read_repr x := x.elim

end Sample

end Noesar.Reference
