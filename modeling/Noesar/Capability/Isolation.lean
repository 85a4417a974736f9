import Mathlib
import Noesar.Lib.Number

namespace Noesar.Capability

open Lib

/-- What the engine takes from its platform: the hash and the keyed hash of
`node:crypto` (of the `sha2` and `hmac` crates), and the two conversions of the
language whose tables are not part of the program. -/
structure Host where
  sha256 : List UInt8 → Vector UInt8 32
  hmac : List UInt8 → List UInt8 → Vector UInt8 32
  toLowerCase : String → String
  numberToString : Number → String

namespace Host

def sumBytes : ℕ → Vector UInt8 32
  | 0 => Vector.replicate 32 0
  | n + 1 => Vector.ofFn fun i ↦ UInt8.ofNat ((n + 1) / 256 ^ i.val)

def checksum (bytes : List UInt8) : Vector UInt8 32 :=
  sumBytes (bytes.foldl (fun n b ↦ (n * 257 + b.toNat + 1) % 2 ^ 256) 0)

/-- A host for concrete runs, with a positional checksum where the platform has
its hashes. -/
def sample : Host where
  sha256 := checksum
  hmac key message := checksum (key ++ message)
  toLowerCase s := s.toLower
  numberToString
    | .finite x => toString x.val
    | .infinity => "Infinity"
    | .negInfinity => "-Infinity"
    | .nan => "NaN"

theorem sampleKey_long : 32 ≤ (List.replicate 32 (7 : UInt8)).length := by simp

end Host

inductive ErrorKind
  | notAuthorized
  | outOfScope
  | refused
  | invalid
  deriving DecidableEq, Repr

inductive ErrorClass
  | capabilityError
  | isolationError
  deriving DecidableEq, Repr

/-- `CapabilityError` and `IsolationError`, told apart by their class. Only the
invalid requests of the Rust crate name a field. -/
structure Refusal where
  thrownAs : ErrorClass
  kind : ErrorKind
  field : Option String
  reason : String
  deriving DecidableEq, Repr

inductive Dimension
  | memoryBytes
  | cpuSeconds
  | openFiles
  | processes
  | fileSizeBytes
  | coreDumpBytes
  deriving DecidableEq, Repr

namespace Dimension

def name : Dimension → String
  | memoryBytes => "memoryBytes"
  | cpuSeconds => "cpuSeconds"
  | openFiles => "openFiles"
  | processes => "processes"
  | fileSizeBytes => "fileSizeBytes"
  | coreDumpBytes => "coreDumpBytes"

/-- `LIMIT_DIMENSIONS`, in the order the signature reads them. -/
def all : List Dimension :=
  [memoryBytes, cpuSeconds, openFiles, processes, fileSizeBytes, coreDumpBytes]

instance : Fintype Dimension :=
  ⟨⟨all, by decide⟩, by intro d; cases d <;> decide⟩

/-- `FLOOR`: the dimensions that have a usable minimum. -/
def floor : List (Dimension × ℕ) :=
  [(memoryBytes, 1024 * 1024), (cpuSeconds, 1), (openFiles, 8), (processes, 1)]

end Dimension

abbrev Limits := Dimension → Option ℕ

/-- A member of a limits object as it arrives, before it is checked. `other` is
any value that is neither `null` nor a number, with the text it prints as. -/
inductive RawLimit
  | null
  | number (n : Number)
  | other (shown : String)
  deriving DecidableEq

inductive RawLimits
  | object (members : List (String × RawLimit))
  | notAnObject
  deriving DecidableEq

namespace Isolation

def invalid (reason : String) : Refusal := ⟨.isolationError, .invalid, none, reason⟩

def outOfScope (reason : String) : Refusal := ⟨.isolationError, .outOfScope, none, reason⟩

def member (members : List (String × RawLimit)) (name : String) : RawLimit :=
  match members.reverse.find? (fun m ↦ m.1 = name) with
  | some m => m.2
  | none => .null

/-- A whole number that is not negative, as `Number.isInteger` and `< 0` decide. -/
def wholeOf : Number → Option ℕ
  | .finite x => if x.val.den = 1 ∧ 0 ≤ x.val.num then some x.val.num.toNat else none
  | _ => none

def parseDimension (host : Host) (members : List (String × RawLimit)) (dimension : Dimension) :
    Except Refusal (Option ℕ) :=
  let refuse (shown : String) := invalid
    s!"limit `{dimension.name}` must be a non-negative integer, got `{shown}`"
  match member members dimension.name with
  | .null => .ok none
  | .other shown => .error (refuse shown)
  | .number n =>
    match wholeOf n with
    | none => .error (refuse (host.numberToString n))
    | some value =>
      if 2 ^ 53 - 1 < value then
        .error (invalid s!"limit `{dimension.name}` exceeds the exactly representable range")
      else .ok (some value)

def parseDimensions (host : Host) (members : List (String × RawLimit)) :
    List Dimension → Except Refusal Limits
  | [] => .ok fun _ ↦ none
  | dimension :: rest => do
    let value ← parseDimension host members dimension
    let limits ← parseDimensions host members rest
    pure fun d ↦ if d = dimension then value else limits d

def parseLimits (host : Host) : Option RawLimits → Except Refusal (Option Limits)
  | none => .ok none
  | some .notAnObject => .error (invalid "limits must be an object naming byte and second counts")
  | some (.object members) =>
    match members.find? (fun m ↦ m.1 ∉ Dimension.all.map Dimension.name) with
    | some m => .error (invalid s!"unknown limit `{m.1}`")
    | none => do
      let limits ← parseDimensions host members Dimension.all
      if Dimension.all.all (fun d ↦ limits d = none) then
        .error (invalid "a limits object constraining no dimension confines nothing")
      else pure (some limits)

def canonicalLimits : Option Limits → String
  | none => "none"
  | some limits => ";".intercalate (Dimension.all.map fun d ↦
      d.name ++ "=" ++ match limits d with
        | none => "-"
        | some value => toString value)

def exceedsCeiling (limits : Limits) : Option Limits → Option Dimension
  | none => none
  | some ceiling => Dimension.all.find? fun d ↦
      match limits d, ceiling d with
      | some mine, some cap => cap < mine
      | _, _ => false

def withinGrant (limits : Option Limits) : Option Limits → Bool
  | none => true
  | some grant => Dimension.all.all fun d ↦
      match grant d, limits.bind (· d) with
      | none, _ => true
      | some _, none => false
      | some cap, some mine => mine ≤ cap

def assertUsable (limits : Limits) : Except Refusal Unit :=
  match Dimension.floor.find? (fun f ↦ match limits f.1 with
      | some value => value < f.2
      | none => false) with
  | none => .ok ()
  | some (d, floor) => .error (outOfScope (s!"limit `{d.name}`={(limits d).getD 0} is below the usable floor of " ++
      s!"{floor}: a capability that cannot run is not a capability"))

end Isolation

end Noesar.Capability
