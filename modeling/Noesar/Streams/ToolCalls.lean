import Noesar.Author.Rules
import Noesar.Authority.Envelope

namespace Noesar.Streams.ToolCalls

open Lib Lib.Utf16 Lib.Json Canonical Authority

inductive Style
  | openaiChat
  | anthropicMessages
  | openaiResponses
  deriving DecidableEq

inductive ToolCallDefect
  | malformedArguments
  | oversizedArguments
  | noName
  deriving DecidableEq

def maxCalls : ℕ := 32

def maxArgumentChars : ℕ := 64 * 1024

structure Entry where
  id : Option Units := none
  name : Option Units := none
  argumentText : Units := []
  truncated : Bool := false
  deriving DecidableEq

/-- A key of a map: a primitive value, or an object, which is no key but its own. -/
inductive Key
  | bool (b : Bool)
  | number (leaf : Leaf)
  | string (us : Units)
  | identity (n : ℕ)
  deriving DecidableEq

abbrev State : Type := InsertionMap Key Entry

/-- An object that has been read is a key that the map does not have, as so many entries as it has. -/
def Key.of (state : State) : JsValue → Key
  | .bool b => .bool b
  | .number leaf => .number (value leaf)
  | .string us => .string us
  | _ => .identity state.entries.length

/-- `v ?? 0` -/
def orZero : Option JsValue → JsValue
  | none | some .null => .number (.finite zero)
  | some v => v

def slot (state : State) (key : Key) : Option Entry :=
  match state.get key with
  | some entry => some entry
  | none => if maxCalls ≤ state.entries.length then none else some {}

def appendArguments (entry : Entry) : Option JsValue → Entry
  | some (.string us) =>
    if us = [] then entry
    else if maxArgumentChars < entry.argumentText.length + us.length then { entry with truncated := true }
    else { entry with argumentText := entry.argumentText ++ us }
  | _ => entry

def noPrimitive : String := "Cannot convert object to primitive value"

section

variable (ns : Numbers)

def numberText : Leaf → Units
  | .finite x => encode (ns.stringify x)
  | .negZero => text "0"
  | .infinity => text "Infinity"
  | .negInfinity => text "-Infinity"
  | .nan => text "NaN"
  | .other type => text type
  | .made _ => text "[object Object]"

/-- The text of a value in an array, where `null` has none. An object whose own member stands before the method that
makes a text of it has no text at all. -/
def itemText : JsValue → Except String (Option Units) :=
  fold ⟨.ok none, fun b ↦ .ok (some (text (if b then "true" else "false"))), fun leaf ↦ .ok (some (numberText ns leaf)),
    fun s ↦ .ok (some s),
    fun items ↦ (items.mapM id).map fun texts ↦ some ((text ",").intercalate (texts.map (·.getD []))),
    fun members ↦ if text "toString" ∈ members.map Prod.fst then .error noPrimitive else .ok (some (text "[object Object]"))⟩

/-- `String(v)` -/
def toText (v : JsValue) : Except String Units := (itemText ns v).map (·.getD (text "null"))

/-- `v ? String(v) : held` -/
def textOr (held : Option Units) (v : Option JsValue) : Except String (Option Units) :=
  match v with
  | some v => if truthy (some v) then (toText ns v).map some else .ok held
  | none => .ok held

def heldOr (held : Option Units) (v : Option JsValue) : Except String (Option Units) :=
  if held = none ∨ held = some [] then textOr ns held v else .ok held

def first : JsValue → Option JsValue
  | .array items => items.head?
  | v => property "0" v

def fragmentsOf (event : JsValue) : Option JsValue :=
  (((property "choices" event).bind first).bind (property "delta")).bind (property "tool_calls")

def isNull : JsValue → Bool
  | .null => true
  | _ => false

/-- The function goes on with the next fragment, or ends where there is no room for another call. -/
def observeFragment (fragment : JsValue) (state : State) : Except String (Option State) :=
  let key := Key.of state (orZero (property "index" fragment))
  match slot state key with
  | none => .ok none
  | some entry => do
    require (¬isNull fragment) "Cannot read properties of null (reading 'id')"
    let function := property "function" fragment
    let id ← heldOr ns entry.id (property "id" fragment)
    let name ← heldOr ns entry.name (function.bind (property "name"))
    return some (state.set key (appendArguments { entry with id, name } (function.bind (property "arguments"))))

def observeFragments : List JsValue → State → Except String State
  | [], state => .ok state
  | fragment :: fragments, state => do
    match ← observeFragment ns fragment state with
    | none => return state
    | some state => observeFragments fragments state

def isType (name : String) (v : Option JsValue) : Bool :=
  match v.bind (property "type") with
  | some (.string s) => s = text name
  | _ => false

def numbered (label : String) (index : Option JsValue) : Except String Key :=
  (toText ns (orZero index)).map fun number ↦ .string (text label ++ number)

def goOn (state : State) (key : Key) (piece : Option JsValue) : State :=
  match state.get key with
  | some entry => state.set key (appendArguments entry piece)
  | none => state

def observeBlock (event : JsValue) (state : State) : Except String State :=
  if isType "content_block_start" (some event) ∧ isType "tool_use" (property "content_block" event) then do
    let block := property "content_block" event
    let key ← numbered ns "block:" (property "index" event)
    match slot state key with
    | none => return state
    | some entry =>
      let id ← textOr ns entry.id (block.bind (property "id"))
      let name ← textOr ns entry.name (block.bind (property "name"))
      return state.set key { entry with id, name }
  else if isType "content_block_delta" (some event) ∧ isType "input_json_delta" (property "delta" event) then do
    let key ← numbered ns "block:" (property "index" event)
    return goOn state key ((property "delta" event).bind (property "partial_json"))
  else .ok state

def observeItem (event : JsValue) (state : State) : Except String State :=
  if isType "response.output_item.added" (some event) ∧ isType "function_call" (property "item" event) then do
    let item := property "item" event
    let key ← numbered ns "out:" (property "output_index" event)
    match slot state key with
    | none => return state
    | some entry =>
      let callId := item.bind (property "call_id")
      let id ← textOr ns entry.id (if truthy callId then callId else item.bind (property "id"))
      let name ← textOr ns entry.name (item.bind (property "name"))
      return state.set key (appendArguments { entry with id, name } (item.bind (property "arguments")))
  else if isType "response.function_call_arguments.delta" (some event) then do
    let key ← numbered ns "out:" (property "output_index" event)
    return goOn state key (property "delta" event)
  else .ok state

def isObject : JsValue → Bool
  | .array _ | .object _ => true
  | _ => false

def observeToolCallFrame (style : Style) (event : JsValue) (state : State) : Except String State :=
  if isObject event then
    match style with
    | .openaiChat =>
      match fragmentsOf event with
      | some (.array fragments) => observeFragments ns fragments state
      | _ => .ok state
    | .anthropicMessages => observeBlock ns event state
    | .openaiResponses => observeItem ns event state
  else .ok state

structure Call where
  id : Units
  name : Option Units
  arguments : Option JsValue
  defect : Option ToolCallDefect
  raw : Units

/-- `call_${index}` -/
def idFor (index : ℕ) : Units := text s!"call_{index}"

def stepPoint (s : Json.State Units Leaf) : Point → Option (Json.State Units Leaf)
  | .inl c => Json.step (Canonical.reader ns) s c
  | .inr u =>
    match s with
    | (.text place us, stack) => some (.text place (us ++ [u]), stack)
    | _ => none

/-- `JSON.parse` -/
def parseUnits (us : Units) : Option JsValue :=
  ((points us).foldlM (stepPoint ns) (.value, [])).bind (Json.finish (Canonical.reader ns))

def finishCall (index : ℕ) (entry : Entry) : Call :=
  let id := entry.id.getD (idFor index)
  match entry.name with
  | none | some [] => ⟨id, none, none, some .noName, entry.argumentText⟩
  | some name =>
    if entry.truncated then ⟨id, some name, none, some .oversizedArguments, []⟩
    else
      let trimmed := Author.trim entry.argumentText
      if trimmed = [] then ⟨id, some name, some (.object []), none, []⟩
      else match parseUnits ns trimmed with
      | some (.object members) => ⟨id, some name, some (.object members), none, trimmed⟩
      | _ => ⟨id, some name, none, some .malformedArguments, trimmed⟩

def finishToolCalls (state : State) : List Call := state.entries.mapIdx fun index e ↦ finishCall ns index e.2

def newToolCallState : State := .empty

def reassemble (style : Style) (events : List JsValue) : Except String (List Call) :=
  (events.foldlM (fun state event ↦ observeToolCallFrame ns style event state) newToolCallState).map (finishToolCalls ns)

end

end Noesar.Streams.ToolCalls
