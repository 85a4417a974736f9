import Noesar.Author.Rules
import Noesar.Canonical.Encoding
import Noesar.Lib.JsonOrder

namespace Noesar.Acquisition.Schema

open Lib Lib.Utf16 Lib.Json Lib.InsertionMap Canonical
open Author (text)

def inert : List Units := ["$schema", "$id", "title", "description", "examples", "default"].map text

def supported : List Units := ["type", "required", "properties", "additionalProperties", "items", "const", "enum"].map text

structure SchemaSupportError where
  keyword : Units
  path : Units

def SchemaSupportError.message (e : SchemaSupportError) : Units :=
  text "this validator does not implement the JSON Schema keyword \"" ++ e.keyword ++ text "\" (at " ++
    (if e.path = [] then text "#" else e.path) ++ text "), so it cannot state that a document satisfies this schema"

structure SchemaError where
  path : Units
  message : Units

def typeOfLeaf : Leaf → String
  | .finite _ | .negZero | .infinity | .negInfinity | .nan => "number"
  | .other type => type
  | .made _ => "object"

def typeOf : JsValue → Units
  | .null => text "null"
  | .bool _ => text "boolean"
  | .number leaf => text (typeOfLeaf leaf)
  | .string _ => text "string"
  | .array _ => text "array"
  | .object _ => text "object"

/-- `Number.isInteger` -/
def isInteger : JsValue → Bool
  | .number (.finite x) => x.val.den = 1
  | .number .negZero => true
  | _ => false

/-- `Number.isFinite` -/
def isFiniteNumber : JsValue → Bool
  | .number (.finite _) | .number .negZero => true
  | _ => false

def matchesType (value type : JsValue) : Bool :=
  match type with
  | .string name =>
    if name = text "integer" then isInteger value
    else if name = text "number" then isFiniteNumber value
    else typeOf value = name
  | _ => false

/-- `===` on two numbers -/
def sameLeaf : Leaf → Leaf → Bool
  | .nan, _ => false
  | a, b => value a = value b

/-- `===`. An array or an object is the same as itself only, and no part of a document is part of a schema. -/
def strictEqual : JsValue → JsValue → Bool
  | .null, .null => true
  | .bool a, .bool b => a = b
  | .number a, .number b => sameLeaf a b
  | .string a, .string b => a = b
  | _, _ => false

def indexText (n : ℕ) : Units := encode n.repr.toList

def keywordAllowed (keyword : Units) : Bool := keyword ∈ inert || keyword ∈ supported

def assertKeywords (members : List (Units × JsValue)) (path : Units) : Except SchemaSupportError Unit :=
  match members.find? fun m ↦ !keywordAllowed m.1 with
  | some m => .error ⟨m.1, path⟩
  | none => .ok ()

mutual

def assertSchemaSupported : JsValue → Units → Except SchemaSupportError Unit
  | .bool _, _ => .ok ()
  | .object members, path => do
    assertKeywords members path
    assertSchemaSupported.properties members path
    assertSchemaSupported.items members path
    assertSchemaSupported.additionalProperties members path
  | .null, path => .error ⟨text "null", path⟩
  | .number leaf, path => .error ⟨typeOf (.number leaf), path⟩
  | .string _, path => .error ⟨text "string", path⟩
  | .array _, path => .error ⟨text "array", path⟩

/-- `Object.entries(schema.properties ?? {})`, each of them walked through -/
def assertSchemaSupported.properties : List (Units × JsValue) → Units → Except SchemaSupportError Unit
  | [], _ => .ok ()
  | (key, entry) :: members, path =>
    if key = text "properties" then
      match entry with
      | .object entries => assertSchemaSupported.entries entries path
      | .array values => assertSchemaSupported.values values path 0
      | .string (_ :: _) => .error ⟨text "string", path ++ text "/0"⟩
      | .string [] | .null | .bool _ | .number _ => .ok ()
    else assertSchemaSupported.properties members path

def assertSchemaSupported.entries : List (Units × JsValue) → Units → Except SchemaSupportError Unit
  | [], _ => .ok ()
  | (key, entry) :: entries, path => do
    assertSchemaSupported entry (path ++ text "/" ++ key)
    assertSchemaSupported.entries entries path

def assertSchemaSupported.values : List JsValue → Units → ℕ → Except SchemaSupportError Unit
  | [], _, _ => .ok ()
  | entry :: values, path, index => do
    assertSchemaSupported entry (path ++ text "/" ++ indexText index)
    assertSchemaSupported.values values path (index + 1)

def assertSchemaSupported.items : List (Units × JsValue) → Units → Except SchemaSupportError Unit
  | [], _ => .ok ()
  | (key, entry) :: members, path =>
    if key = text "items" then assertSchemaSupported entry (path ++ text "/*")
    else assertSchemaSupported.items members path

def assertSchemaSupported.additionalProperties : List (Units × JsValue) → Units → Except SchemaSupportError Unit
  | [], _ => .ok ()
  | (key, entry) :: members, path =>
    if key = text "additionalProperties" then
      match entry with
      | .object inner => assertSchemaSupported (.object inner) (path ++ text "/*")
      | .array values => assertSchemaSupported (.array values) (path ++ text "/*")
      | .null | .bool _ | .number _ | .string _ => .ok ()
    else assertSchemaSupported.additionalProperties members path

end

section

variable (ns : Numbers)

/-- `JSON.stringify` -/
def stringify (v : JsValue) : Units := encode (print (writer ns) v)

/-- The names of a `type` keyword. -/
def typesOf : JsValue → List JsValue
  | .array types => types
  | type => [type]

def nameOf : JsValue → Units
  | .string name => name
  | _ => []

def separated (separator : Units) : List Units → Units
  | [] => []
  | [t] => t
  | t :: u :: ts => t ++ separator ++ separated separator (u :: ts)

def constError (value : JsValue) (members : List (Units × JsValue)) (path : Units) : Option SchemaError :=
  match lookup (text "const") members with
  | some constant =>
    if strictEqual value constant then none
    else some ⟨path, text "must be " ++ stringify ns constant ++ text ", not " ++ stringify ns value⟩
  | none => none

def enumError (value : JsValue) (members : List (Units × JsValue)) (path : Units) : Option SchemaError :=
  match lookup (text "enum") members with
  | some (.array candidates) =>
    if candidates.any (fun candidate ↦ strictEqual candidate value) then none
    else some ⟨path, text "must be one of " ++ separated (text ", ") (candidates.map (stringify ns))⟩
  | _ => none

def typeError (value : JsValue) (members : List (Units × JsValue)) (path : Units) : Option SchemaError :=
  match lookup (text "type") members with
  | some type =>
    if (typesOf type).any (matchesType value) then none
    else some ⟨path, text "must be " ++ separated (text " or ") ((typesOf type).map nameOf) ++ text ", not " ++ typeOf value⟩
  | none => none

def stopped (value : JsValue) (members : List (Units × JsValue)) (path : Units) : Option SchemaError :=
  (constError ns value members path).or ((enumError ns value members path).or (typeError value members path))

/-- `schema.required ?? []` -/
def requiredOf (members : List (Units × JsValue)) : List Units :=
  match lookup (text "required") members with
  | some (.array keys) => keys.map nameOf
  | _ => []

/-- `schema.properties ?? {}` -/
def propertiesOf (members : List (Units × JsValue)) : List (Units × JsValue) :=
  match lookup (text "properties") members with
  | some (.object properties) => properties
  | _ => []

def missing (entries members : List (Units × JsValue)) (path : Units) : List SchemaError :=
  (requiredOf members).filterMap fun key ↦
    if key ∈ entries.map Prod.fst then none else some ⟨path ++ text "/" ++ key, text "is required and missing"⟩

inductive Placed
  | governed (schema : JsValue)
  | refused
  | free

def placed (members : List (Units × JsValue)) (key : Units) : Placed :=
  match lookup key (propertiesOf members) with
  | some schema => .governed schema
  | none =>
    match lookup (text "additionalProperties") members with
    | some (.bool false) => .refused
    | some (.object inner) => .governed (.object inner)
    | _ => .free

/-- A node of the document against a node of the schema. The walk has let no other schema pass. -/
def checkNode (value schema : JsValue) (path : Units) (nested : List (Units × JsValue) → List SchemaError) : List SchemaError :=
  match schema with
  | .bool false => [⟨path, text "no value is allowed here"⟩]
  | .object members =>
    match stopped ns value members path with
    | some error => [error]
    | none => nested members
  | _ => []

mutual

def check : JsValue → JsValue → Units → List SchemaError
  | .object entries, schema, path => checkNode ns (.object entries) schema path fun members ↦
      missing entries members path ++ check.entries entries members path
  | .array items, schema, path => checkNode ns (.array items) schema path fun members ↦
      match lookup (text "items") members with
      | some inner => check.items items inner path 0
      | none => []
  | .null, schema, path => checkNode ns .null schema path fun _ ↦ []
  | .bool b, schema, path => checkNode ns (.bool b) schema path fun _ ↦ []
  | .number leaf, schema, path => checkNode ns (.number leaf) schema path fun _ ↦ []
  | .string s, schema, path => checkNode ns (.string s) schema path fun _ ↦ []

def check.entries : List (Units × JsValue) → List (Units × JsValue) → Units → List SchemaError
  | [], _, _ => []
  | (key, entry) :: entries, members, path =>
    (match placed members key with
      | .governed inner => check entry inner (path ++ text "/" ++ key)
      | .refused => [⟨path ++ text "/" ++ key, text "is not a field this schema defines"⟩]
      | .free => []) ++ check.entries entries members path

def check.items : List JsValue → JsValue → Units → ℕ → List SchemaError
  | [], _, _, _ => []
  | entry :: items, inner, path, index =>
    check entry inner (path ++ text "/" ++ indexText index) ++ check.items items inner path (index + 1)

end

def validateAgainstSchema (document schema : JsValue) : Except SchemaSupportError (List SchemaError) :=
  (assertSchemaSupported schema []).map fun _ ↦ check ns document schema []

end

end Noesar.Acquisition.Schema
