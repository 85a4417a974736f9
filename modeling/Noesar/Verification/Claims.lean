import Noesar.Author.Rules
import Noesar.Lib.Utf8
import Noesar.Shadow.Containment

namespace Noesar.Verification

open Lib Lib.Utf16 Shadow
open Author (text)

/-- What reading a property comes to: nothing, a value of the format, or a part of the language. -/
inductive Item (ν β : Type)
  | undefined
  | json (v : Json Units ν)
  | builtin (b : β)

inductive Thrown
  | typeError
  deriving DecidableEq

/-- What the language and the system bring: numbers, digests, the texts of values and of errors, and the properties that
every value of a kind inherits. -/
structure Runtime (ν β : Type) where
  read : List Char → Option ν
  same : ν → ν → Bool
  truthy : ν → Bool
  ofNat : ℕ → ν
  numberText : ν → Units
  sha256 : List UInt8 → Units
  inherited : Json Units ν → Units → Except Thrown (Item ν β)
  property : β → Units → Except Thrown (Item ν β)
  stringify : Item ν β → Units
  fsMessage : List String → Units

variable {ν β : Type}

def shown (n : ℕ) : Units := encode n.repr.toList

def pathOf (s : Units) : String := String.ofList ((points s).map (Sum.elim id fun _ ↦ Utf8.replacement))

inductive Read
  | refused (reason : Units)
  | absent
  | content (chars : List Char)

def readShadowFile (rt : Runtime ν β) (disk : Disk) (shadowRoot : List String) (path : Option (Json Units ν)) : Read :=
  match path with
  | some (.string s) =>
    match contained shadowRoot (pathOf s) with
    | .error error => .refused (text error.reason)
    | .ok names =>
      if '\x00' ∈ (pathOf s).toList then .refused (rt.fsMessage names)
      else match disk.resolve names with
        | .here p => match disk.get p with
          | some (.file bytes) => .content (Utf8.decode bytes)
          | _ => .refused (rt.fsMessage names)
        | .missing _ _ => .absent
        | _ => .refused (rt.fsMessage names)
  | _ => .refused (text "a path is required")

def field : Json Units ν → Units → Option (Json Units ν)
  | .object members, key => InsertionMap.lookup key members
  | .array items, key => (items.zipIdx.find? fun p ↦ shown p.2 = key).map Prod.fst
  | _, _ => none

def ownProperty (rt : Runtime ν β) (v : Json Units ν) (key : Units) : Option (Item ν β) :=
  match field v key with
  | some u => some (.json u)
  | none => match v with
    | .array items => if key = text "length" then some (.json (.number (rt.ofNat items.length))) else none
    | .string s =>
      if key = text "length" then some (.json (.number (rt.ofNat s.length)))
      else (s.zipIdx.find? fun p ↦ shown p.2 = key).map fun p ↦ .json (.string [p.1])
    | _ => none

/-- `acc === null || acc === undefined ? undefined : acc[key]` -/
def get (rt : Runtime ν β) (acc : Item ν β) (key : Units) : Except Thrown (Item ν β) :=
  match acc with
  | .undefined => .ok .undefined
  | .json .null => .ok .undefined
  | .json v => match ownProperty rt v key with
    | some item => .ok item
    | none => rt.inherited v key
  | .builtin b => rt.property b key

def dot : UInt16 := 46

def getJsonPath (rt : Runtime ν β) (value : Json Units ν) (dottedPath : Option (Json Units ν)) :
    Except Thrown (Item ν β) :=
  match dottedPath with
  | some (.string path) => (path.splitOn dot).foldlM (get rt) (.json value)
  | _ => .error .typeError

/-- `actual === value`, for a value of a claim: two objects are never the same one. -/
def strictEquals (rt : Runtime ν β) : Item ν β → Option (Json Units ν) → Bool
  | .undefined, none => true
  | .json .null, some .null => true
  | .json (.bool b), some (.bool c) => b = c
  | .json (.number n), some (.number m) => rt.same n m
  | .json (.string s), some (.string t) => s = t
  | _, _ => false

def piece (item : Bool × Except Thrown Units) : Except Thrown Units := if item.1 then .ok [] else item.2

/-- A value as a string, and whether it is `null`, which is nothing between the commas of an array. -/
def asString (rt : Runtime ν β) : Json Units ν → Bool × Except Thrown Units :=
  Json.fold (⟨(true, .ok (text "null")), fun b ↦ (false, .ok (text (if b then "true" else "false"))),
    fun n ↦ (false, .ok (rt.numberText n)), fun s ↦ (false, .ok s),
    fun items ↦ (false, (items.mapM piece).map fun pieces ↦ (text ",").intercalate pieces),
    fun members ↦ (false,
      if text "toString" ∈ members.map Prod.fst then .error .typeError else .ok (text "[object Object]"))⟩ :
    Json.Algebra Units ν (Bool × Except Thrown Units))

/-- `String(value)` -/
def toText (rt : Runtime ν β) : Option (Json Units ν) → Except Thrown Units
  | none => .ok (text "undefined")
  | some v => (asString rt v).2

/-- What a verifier answers. What is missing of it is `undefined`. -/
structure Verdict (ν : Type) where
  recomputed : Option (Json Units ν)
  isMatch : Option (Json Units ν)
  reason : Option (Json Units ν)

def unrecomputed (reason : Units) : Verdict ν := ⟨some (.bool false), some (.bool false), some (.string reason)⟩

def recomputed (isMatch : Bool) (reason : Option Units) : Verdict ν :=
  ⟨some (.bool true), some (.bool isMatch), some (match reason with | some r => .string r | none => .null)⟩

def noFile : Verdict ν := recomputed false (some (text "file does not exist"))

abbrev Members (ν : Type) := List (Units × Json Units ν)

def member (claim : Members ν) (name : String) : Option (Json Units ν) := InsertionMap.lookup (text name) claim

def withContent (rt : Runtime ν β) (disk : Disk) (shadowRoot : List String) (claim : Members ν)
    (check : List Char → Except Thrown (Verdict ν)) : Except Thrown (Verdict ν) :=
  match readShadowFile rt disk shadowRoot (member claim "path") with
  | .refused reason => .ok (unrecomputed reason)
  | .absent => .ok noFile
  | .content chars => check chars

def fileExists (rt : Runtime ν β) (disk : Disk) (shadowRoot : List String) (claim : Members ν) : Except Thrown (Verdict ν) :=
  match readShadowFile rt disk shadowRoot (member claim "path") with
  | .refused reason => .ok (unrecomputed reason)
  | .absent => .ok (recomputed false none)
  | .content _ => .ok (recomputed true none)

def fileAbsent (rt : Runtime ν β) (disk : Disk) (shadowRoot : List String) (claim : Members ν) : Except Thrown (Verdict ν) :=
  match readShadowFile rt disk shadowRoot (member claim "path") with
  | .refused reason => .ok (unrecomputed reason)
  | .absent => .ok (recomputed true none)
  | .content _ => .ok (recomputed false none)

def fileEquals (rt : Runtime ν β) (disk : Disk) (shadowRoot : List String) (claim : Members ν) : Except Thrown (Verdict ν) :=
  withContent rt disk shadowRoot claim fun content ↦
    .ok (recomputed (strictEquals rt (.json (.string (encode content))) (member claim "value")) none)

def fileContains (rt : Runtime ν β) (disk : Disk) (shadowRoot : List String) (claim : Members ν) :
    Except Thrown (Verdict ν) :=
  withContent rt disk shadowRoot claim fun content ↦
    (toText rt (member claim "value")).map fun value ↦ recomputed (decide (value <:+: encode content)) none

def fileHashEquals (rt : Runtime ν β) (disk : Disk) (shadowRoot : List String) (claim : Members ν) :
    Except Thrown (Verdict ν) :=
  withContent rt disk shadowRoot claim fun content ↦
    let digest := rt.sha256 (Utf8.encode content)
    .ok (if strictEquals rt (.json (.string digest)) (member claim "value") then recomputed true none
      else recomputed false (some (text "recomputed sha256 is " ++ digest)))

def jsonFieldEquals (rt : Runtime ν β) (disk : Disk) (shadowRoot : List String) (claim : Members ν) :
    Except Thrown (Verdict ν) :=
  withContent rt disk shadowRoot claim fun content ↦
    match Json.parse ⟨some, rt.read, none⟩ content with
    | none => .ok (unrecomputed (text "file is not valid JSON"))
    | some parsed => (getJsonPath rt parsed (member claim "field")).map fun actual ↦
        if strictEquals rt actual (member claim "value") then recomputed true none
        else recomputed false (some (text "recomputed field is " ++ rt.stringify actual))

def behavioural : Except Thrown (Verdict ν) :=
  .ok (unrecomputed (text "behavioural claims require executing code; EXECUTE is permanently refused (executor.mjs) — declared unrecomputed by design, not silently skipped"))

def supportedClaimTypes : List String :=
  ["file_exists", "file_absent", "file_equals", "file_contains", "file_hash_equals", "json_field_equals"]

def inheritedNames : List String :=
  ["__defineGetter__", "__defineSetter__", "hasOwnProperty", "__lookupGetter__", "__lookupSetter__", "isPrototypeOf",
    "propertyIsEnumerable", "valueOf", "__proto__", "toLocaleString"]

/-- `CLAIM_VERIFIERS[claim.type]`, called. `Object` gives the claim itself back, and the other inherited functions have
nothing to be called on, of which `toString` alone makes a string. -/
def claimVerifier (rt : Runtime ν β) (disk : Disk) (shadowRoot : List String) (claim : Members ν) (type : Units) :
    Option (Except Thrown (Verdict ν)) :=
  if type = text "file_exists" then some (fileExists rt disk shadowRoot claim)
  else if type = text "file_absent" then some (fileAbsent rt disk shadowRoot claim)
  else if type = text "file_equals" then some (fileEquals rt disk shadowRoot claim)
  else if type = text "file_contains" then some (fileContains rt disk shadowRoot claim)
  else if type = text "file_hash_equals" then some (fileHashEquals rt disk shadowRoot claim)
  else if type = text "json_field_equals" then some (jsonFieldEquals rt disk shadowRoot claim)
  else if type = text "behavioural" then some behavioural
  else if type = text "constructor" then
    some (.ok ⟨member claim "recomputed", member claim "matches", member claim "reason"⟩)
  else if type = text "toString" then some (.ok ⟨none, none, none⟩)
  else if type ∈ inheritedNames.map text then some (.error .typeError)
  else none

structure Result (ν : Type) where
  claim : Json Units ν
  verdict : Verdict ν

def unsupported (type : Units) : Units :=
  text "unsupported claim type \"" ++ type ++ text "\" — supported: " ++ text (", ".intercalate supportedClaimTypes) ++
    text ", plus \"behavioural\" (always declared unrecomputed)"

def verifyClaim (rt : Runtime ν β) (disk : Disk) (shadowRoot : List String) (claim : Json Units ν) :
    Except Thrown (Result ν) :=
  match claim with
  | .object members =>
    match member members "type" with
    | some (.string type) =>
      match claimVerifier rt disk shadowRoot members type with
      | some verdict => verdict.map (⟨claim, ·⟩)
      | none => .ok ⟨claim, unrecomputed (unsupported type)⟩
    | _ => .ok ⟨claim, unrecomputed (text "claim has no `type`")⟩
  | _ => .ok ⟨claim, unrecomputed (text "claim has no `type`")⟩

def verifyClaims (rt : Runtime ν β) (disk : Disk) (shadowRoot : List String) (claims : List (Json Units ν)) :
    Except Thrown (List (Result ν)) :=
  claims.mapM (verifyClaim rt disk shadowRoot)

def truthy (rt : Runtime ν β) : Option (Json Units ν) → Bool
  | none => false
  | some .null => false
  | some (.bool b) => b
  | some (.number n) => rt.truthy n
  | some (.string s) => s ≠ []
  | some _ => true

structure Coverage (ν : Type) where
  total : ℕ
  recomputed : ℕ
  matched : ℕ
  contradicted : List (Json Units ν × Option (Json Units ν))
  unrecomputed : List (Json Units ν × Option (Json Units ν))
  coverageFraction : Option ℚ
  complete : Bool
  declaration : String

def projectionCoverage (rt : Runtime ν β) (results : List (Result ν)) : Coverage ν :=
  let isRecomputed (r : Result ν) : Bool := truthy rt r.verdict.recomputed
  let isMatched (r : Result ν) : Bool := truthy rt r.verdict.isMatch
  let total := results.length
  let recomputed := (results.filter isRecomputed).length
  let matched := (results.filter fun r ↦ isRecomputed r && isMatched r).length
  let contradicted := results.filter fun r ↦ isRecomputed r && !isMatched r
  let unrecomputed := results.filter fun r ↦ !isRecomputed r
  { total, recomputed, matched
    contradicted := contradicted.map fun r ↦ (r.claim, r.verdict.reason)
    unrecomputed := unrecomputed.map fun r ↦ (r.claim, r.verdict.reason)
    coverageFraction := if total = 0 then none else some (recomputed / total)
    complete := decide (0 < total ∧ recomputed = total ∧ matched = total)
    declaration :=
      if total = 0 then "no claims were declared for this change"
      else s!"{recomputed}/{total} claims recomputed, {matched}/{total} matched" ++
        (if 0 < contradicted.length then s!" — {contradicted.length} CONTRADICTED" else "") ++
        if 0 < unrecomputed.length then s!" — {unrecomputed.length} not recomputed (see unrecomputed[])" else "" }

end Noesar.Verification
