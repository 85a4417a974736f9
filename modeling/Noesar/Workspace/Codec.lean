import Noesar.Author.Rules
import Noesar.Lib.Base64
import Noesar.Lib.InsertionMap
import Noesar.Lib.JsonDistinct
import Noesar.Lib.JsonReading

namespace Noesar.Workspace.RunStore

open Lib Lib.Utf16
open Author (text)

/-- What a run record can hold: the values the codec knows, instances of other classes, and anything else. -/
inductive Value (ν δ : Type)
  | undefined
  | null
  | bool (b : Bool)
  | number (n : ν)
  | string (s : Units)
  | array (items : List (Value ν δ))
  | map (entries : List (Option Units × Value ν δ))
  | set (values : List (Value ν δ))
  | date (d : δ)
  | buffer (bytes : List UInt8)
  | object (members : List (Units × Value ν δ))
  | classInstance (className : Units)
  | other (type : Units)

namespace Value

variable {ν δ : Type}

section

variable {P : Value ν δ → Prop} (undefined : P .undefined) (null : P .null) (bool : ∀ b, P (.bool b))
  (number : ∀ n, P (.number n)) (string : ∀ s, P (.string s))
  (array : ∀ items, (∀ v ∈ items, P v) → P (.array items))
  (map : ∀ entries, (∀ e ∈ entries, P e.2) → P (.map entries))
  (set : ∀ values, (∀ v ∈ values, P v) → P (.set values)) (date : ∀ d, P (.date d)) (buffer : ∀ bytes, P (.buffer bytes))
  (object : ∀ members, (∀ m ∈ members, P m.2) → P (.object members)) (classInstance : ∀ name, P (.classInstance name))
  (other : ∀ type, P (.other type))

include undefined null bool number string array map set date buffer object classInstance other

mutual

@[induction_eliminator]
theorem ofParts : ∀ v : Value ν δ, P v
  | .undefined => undefined
  | .null => null
  | .bool b => bool b
  | .number n => number n
  | .string s => string s
  | .array items => array items (ofParts.items items)
  | .map entries => map entries (ofParts.entries entries)
  | .set values => set values (ofParts.items values)
  | .date d => date d
  | .buffer bytes => buffer bytes
  | .object members => object members (ofParts.members members)
  | .classInstance name => classInstance name
  | .other type => other type

theorem ofParts.items : ∀ items : List (Value ν δ), ∀ v ∈ items, P v
  | [], _, h => absurd h List.not_mem_nil
  | _ :: items, w, h => (List.mem_cons.mp h).elim (fun hw ↦ hw ▸ ofParts _) (ofParts.items items w)

theorem ofParts.entries : ∀ entries : List (Option Units × Value ν δ), ∀ e ∈ entries, P e.2
  | [], _, h => absurd h List.not_mem_nil
  | (_, v) :: entries, e, h => (List.mem_cons.mp h).elim (fun he ↦ he ▸ ofParts v) (ofParts.entries entries e)

theorem ofParts.members : ∀ members : List (Units × Value ν δ), ∀ m ∈ members, P m.2
  | [], _, h => absurd h List.not_mem_nil
  | (_, v) :: members, m, h => (List.mem_cons.mp h).elim (fun hm ↦ hm ▸ ofParts v) (ofParts.members members m)

end

end

/-- What to make of each kind of value, given its parts and what was made of them. -/
structure Algebra (ν δ β : Type) where
  undefined : β
  null : β
  bool : Bool → β
  number : ν → β
  string : Units → β
  array : List (Value ν δ × β) → β
  map : List (Option Units × Value ν δ × β) → β
  set : List (Value ν δ × β) → β
  date : δ → β
  buffer : List UInt8 → β
  object : List (Units × Value ν δ × β) → β
  classInstance : Units → β
  other : Units → β

section

variable {β : Type} (a : Algebra ν δ β)

mutual

def fold : Value ν δ → β
  | .undefined => a.undefined
  | .null => a.null
  | .bool b => a.bool b
  | .number n => a.number n
  | .string s => a.string s
  | .array items => a.array (fold.items items)
  | .map entries => a.map (fold.entries entries)
  | .set values => a.set (fold.items values)
  | .date d => a.date d
  | .buffer bytes => a.buffer bytes
  | .object members => a.object (fold.members members)
  | .classInstance name => a.classInstance name
  | .other type => a.other type

def fold.items : List (Value ν δ) → List (Value ν δ × β)
  | [] => []
  | v :: items => (v, fold v) :: fold.items items

def fold.entries : List (Option Units × Value ν δ) → List (Option Units × Value ν δ × β)
  | [] => []
  | (k, v) :: entries => (k, v, fold v) :: fold.entries entries

def fold.members : List (Units × Value ν δ) → List (Units × Value ν δ × β)
  | [] => []
  | (k, v) :: members => (k, v, fold v) :: fold.members members

end

theorem fold_items (items : List (Value ν δ)) : fold.items a items = items.map fun v ↦ (v, fold a v) := by
  induction items with
  | nil => rfl
  | cons v items ih => rw [fold.items, ih, List.map_cons]

theorem fold_entries (entries : List (Option Units × Value ν δ)) :
    fold.entries a entries = entries.map fun e ↦ (e.1, e.2, fold a e.2) := by
  induction entries with
  | nil => rfl
  | cons e entries ih =>
    obtain ⟨k, v⟩ := e
    rw [fold.entries, ih, List.map_cons]

theorem fold_members (members : List (Units × Value ν δ)) :
    fold.members a members = members.map fun m ↦ (m.1, m.2, fold a m.2) := by
  induction members with
  | nil => rfl
  | cons m members ih =>
    obtain ⟨k, v⟩ := m
    rw [fold.members, ih, List.map_cons]

theorem fold_array (items : List (Value ν δ)) : fold a (.array items) = a.array (items.map fun v ↦ (v, fold a v)) := by
  rw [fold, fold_items]

theorem fold_map (entries : List (Option Units × Value ν δ)) :
    fold a (.map entries) = a.map (entries.map fun e ↦ (e.1, e.2, fold a e.2)) := by
  rw [fold, fold_entries]

theorem fold_set (values : List (Value ν δ)) : fold a (.set values) = a.set (values.map fun v ↦ (v, fold a v)) := by
  rw [fold, fold_items]

theorem fold_object (members : List (Units × Value ν δ)) :
    fold a (.object members) = a.object (members.map fun m ↦ (m.1, m.2, fold a m.2)) := by
  rw [fold, fold_members]

end

end Value

/-- What `JSON.stringify` is handed: `encode` makes nothing else. -/
inductive Encoded (ν : Type)
  | undefined
  | null
  | bool (b : Bool)
  | number (n : ν)
  | string (s : Units)
  | array (items : List (Encoded ν))
  | object (members : List (Units × Encoded ν))

inductive Thrown
  | store (kind : String) (reason : Units)
  | other (name : String)
  deriving DecidableEq

structure Platform (ν δ : Type) where
  finite : ν → Bool
  shown : ν → Units
  write : ν → List Char
  read : List Char → Option ν
  /-- `Object.is` on numbers, but for the sign of zero. -/
  same : ν → ν → Bool
  toISOString : δ → Option Units
  negativeZero : ν → Bool
  zero : ν
  date : Option (Json Units ν) → δ
  /-- `Buffer.from(value, 'base64')` and `String(value)` of what is no string. -/
  buffer : Option (Json Units ν) → Except Thrown (List UInt8)
  display : Json Units ν → Except Thrown Units

variable {ν δ : Type}

def tag : Units := text "$noesar$"

def protoKey : Units := text "__proto__"

def unsupported {β : Type} (reason : Units) : Except Thrown β := .error (.store "UNSUPPORTED_VALUE" reason)

/-- `${n}` -/
def shownIndex (n : ℕ) : Units := encode n.repr.toList

/-- An assignment `out[key] = value` to a fresh object. That of `__proto__` makes no member. -/
def assign {β : Type} (out : List (Units × β)) (key : Units) (value : β) : List (Units × β) :=
  if key = protoKey then out else out ++ [(key, value)]

/-- What `encode` does, by the path of a value. -/
def encoder (platform : Platform ν δ) : Value.Algebra ν δ (Units → Except Thrown (Encoded ν)) where
  undefined := fun _ ↦ .ok .undefined
  null := fun _ ↦ .ok .null
  bool := fun b _ ↦ .ok (.bool b)
  number := fun n path ↦
    if platform.finite n then .ok (.number n)
    else unsupported (path ++ text " is " ++ platform.shown n ++ text ", which JSON cannot carry")
  string := fun s _ ↦ .ok (.string s)
  array := fun items path ↦ do
    let encoded ← items.zipIdx.mapM fun (item, index) ↦ item.2 (path ++ text "[" ++ shownIndex index ++ text "]")
    pure (.array encoded)
  map := fun entries path ↦ do
    let encoded ← entries.zipIdx.mapM fun (entry, index) ↦
      match entry.1 with
      | none => unsupported (path ++ text " is a Map with a non-string key at " ++ shownIndex index)
      | some key => do
        let item ← entry.2.2 (path ++ text ".get(" ++ key ++ text ")")
        pure (.array [.string key, item])
    pure (.object [(tag, .string (text "Map")), (text "entries", .array encoded)])
  set := fun values path ↦ do
    let encoded ← values.zipIdx.mapM fun (item, index) ↦ item.2 (path ++ text "<" ++ shownIndex index ++ text ">")
    pure (.object [(tag, .string (text "Set")), (text "values", .array encoded)])
  date := fun d _ ↦
    match platform.toISOString d with
    | some iso => .ok (.object [(tag, .string (text "Date")), (text "iso", .string iso)])
    | none => .error (.other "RangeError")
  buffer := fun bytes _ ↦
    .ok (.object [(tag, .string (text "Buffer")), (text "base64", .string (encode (Base64Padded.encode bytes)))])
  object := fun members path ↦
    if tag ∈ members.map Prod.fst then unsupported (path ++ text " carries the reserved key `" ++ tag ++ text "`")
    else do
      let out ← members.foldlM (fun out member ↦ do
        match ← member.2.2 (path ++ text "." ++ member.1) with
        | .undefined => pure out
        | encoded => pure (assign out member.1 encoded)) []
      pure (.object out)
  classInstance := fun name path ↦ unsupported (path ++ text " is a " ++ name ++ text " instance, which cannot round-trip")
  other := fun type path ↦ unsupported (path ++ text " is a " ++ type ++ text ", which cannot be stored")

def encodeValue (platform : Platform ν δ) (value : Value ν δ) (path : Units) : Except Thrown (Encoded ν) :=
  value.fold (encoder platform) path

mutual

/-- What `JSON.stringify` writes of a value: nothing of `undefined`, which is `null` in an array. -/
def Encoded.toJson : Encoded ν → Option (Json Units ν)
  | .undefined => none
  | .null => some .null
  | .bool b => some (.bool b)
  | .number n => some (.number n)
  | .string s => some (.string s)
  | .array items => some (.array (Encoded.toJson.items items))
  | .object members => some (.object (Encoded.toJson.members members))

def Encoded.toJson.items : List (Encoded ν) → List (Json Units ν)
  | [] => []
  | item :: items => (Encoded.toJson item).getD .null :: Encoded.toJson.items items

def Encoded.toJson.members : List (Units × Encoded ν) → List (Units × Json Units ν)
  | [] => []
  | (key, item) :: members =>
    match Encoded.toJson item with
    | some v => (key, v) :: Encoded.toJson.members members
    | none => Encoded.toJson.members members

end

def stringify (platform : Platform ν δ) (encoded : Encoded ν) : Option (List Char) :=
  encoded.toJson.map (Json.print ⟨id, platform.write⟩)

def parse (platform : Platform ν δ) (t : List Char) : Option (Json Units ν) := Json.parse ⟨some, platform.read, none⟩ t

/-- `SameValueZero` of two values that are not one: only primitives can be the same. -/
def sameValue (platform : Platform ν δ) : Value ν δ → Value ν δ → Bool
  | .undefined, .undefined => true
  | .null, .null => true
  | .bool b, .bool c => b = c
  | .number n, .number m => platform.same n m
  | .string s, .string t => s = t
  | _, _ => false

/-- `new Set(values)` -/
def newSet (platform : Platform ν δ) (values : List (Value ν δ)) : List (Value ν δ) :=
  values.foldl (fun seen v ↦ if seen.any (sameValue platform v) then seen else seen ++ [v]) []

/-- `new Map(entries)` -/
def newMap (entries : List (Option Units × Value ν δ)) : List (Option Units × Value ν δ) :=
  entries.foldl (fun seen e ↦
    if e.1 ∈ seen.map Prod.fst then seen.map fun e' ↦ if e'.1 = e.1 then e else e' else seen ++ [e]) []

def typeError {β : Type} : Except Thrown β := .error (.other "TypeError")

def unknownTag {β : Type} (kind : Units) : Except Thrown β :=
  .error (.store "UNKNOWN_TAG" (text "stored value carries unknown tag `" ++ kind ++ text "`"))

/-- `Buffer.from(value, 'base64')` -/
def bufferFrom (platform : Platform ν δ) : Option (Json Units ν) → Except Thrown (List UInt8)
  | some (.string s) => .ok (Base64Padded.decode (s.map fun u ↦ Char.ofNat u.toNat))
  | value => platform.buffer value

mutual

def decode (platform : Platform ν δ) : Json Units ν → Except Thrown (Value ν δ)
  | .null => .ok .null
  | .bool b => .ok (.bool b)
  | .number n => .ok (.number n)
  | .string s => .ok (.string s)
  | .array items => (decode.items platform items).map .array
  | .object members =>
    match InsertionMap.lookup tag members with
    | none => (decode.members platform members).map fun decoded ↦
        .object (decoded.foldl (fun out m ↦ assign out m.1 m.2) [])
    | some (.string kind) =>
      if kind = text "Map" then (decode.entries platform members).map fun entries ↦ .map (newMap entries)
      else if kind = text "Set" then (decode.values platform members).map fun values ↦ .set (newSet platform values)
      else if kind = text "Date" then .ok (.date (platform.date (InsertionMap.lookup (text "iso") members)))
      else if kind = text "Buffer" then (bufferFrom platform (InsertionMap.lookup (text "base64") members)).map .buffer
      else unknownTag kind
    | some kind => (platform.display kind).bind unknownTag

def decode.items (platform : Platform ν δ) : List (Json Units ν) → Except Thrown (List (Value ν δ))
  | [] => .ok []
  | item :: items => do
    let v ← decode platform item
    let vs ← decode.items platform items
    pure (v :: vs)

def decode.members (platform : Platform ν δ) : List (Units × Json Units ν) → Except Thrown (List (Units × Value ν δ))
  | [] => .ok []
  | (key, item) :: members => do
    let v ← decode platform item
    let vs ← decode.members platform members
    pure ((key, v) :: vs)

/-- `value.entries.map(([key, item]) => [key, decode(item)])` -/
def decode.entries (platform : Platform ν δ) : List (Units × Json Units ν) → Except Thrown (List (Option Units × Value ν δ))
  | [] => typeError
  | (key, item) :: members =>
    if key = text "entries" then
      match item with
      | .array pairs => decode.pairs platform pairs
      | _ => typeError
    else decode.entries platform members

def decode.pairs (platform : Platform ν δ) : List (Json Units ν) → Except Thrown (List (Option Units × Value ν δ))
  | [] => .ok []
  | .array [.string key, item] :: pairs => do
    let v ← decode platform item
    let vs ← decode.pairs platform pairs
    pure ((some key, v) :: vs)
  | _ :: _ => typeError

/-- `value.values.map(decode)` -/
def decode.values (platform : Platform ν δ) : List (Units × Json Units ν) → Except Thrown (List (Value ν δ))
  | [] => typeError
  | (key, item) :: members =>
    if key = text "values" then
      match item with
      | .array items => decode.items platform items
      | _ => typeError
    else decode.values platform members

end

/-- `decode(JSON.parse(JSON.stringify(encode(value))))` -/
def reload (platform : Platform ν δ) (value : Value ν δ) : Except Thrown (Value ν δ) := do
  let encoded ← encodeValue platform value (text "run")
  match (stringify platform encoded).bind (parse platform) with
  | none => .error (.other "SyntaxError")
  | some stored => decode platform stored

end Noesar.Workspace.RunStore
