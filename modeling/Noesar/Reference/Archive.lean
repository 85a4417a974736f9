import Noesar.Lib.FileTree
import Noesar.Reference.Plans

namespace Noesar.Reference

open Lib Lib.Framing Lib.Json

/-- A member of an archive: its name, the file type of its mode, and its content. -/
structure Member where
  filename : String
  mode : ℕ
  content : Bytes

/-- A package: its members, and the bytes of the file it is. -/
structure Archive where
  members : List Member
  bytes : Bytes

/-- `PurePosixPath(name).parts`, of a name that is not absolute. -/
def parts (name : List Char) : List (List Char) := (name.splitOn '/').filter fun part ↦ part ≠ [] ∧ part ≠ ['.']

def isAbsolute : List Char → Bool
  | '/' :: _ => true
  | _ => false

def parent : List Char := ['.', '.']

/-- `name.replace("\\", "/")` -/
def normalized (name : String) : List Char := name.toList.map fun c ↦ if c = '\\' then '/' else c

def unsafePath (name : String) : Prop := isAbsolute (normalized name) = true ∨ parent ∈ parts (normalized name)

instance (name : String) : Decidable (unsafePath name) := inferInstanceAs (Decidable (_ ∨ _))

def listed (names : List String) : String := "[" ++ ", ".intercalate (names.map fun name ↦ "'" ++ name ++ "'") ++ "]"

def lowerOrDigit (c : Char) : Bool := c.isLower || c.isDigit

/-- `^[a-z0-9][a-z0-9._-]{2,127}$` -/
def idPattern : List Char → Bool
  | [] => false
  | c :: rest => lowerOrDigit c && rest.all (fun d ↦ lowerOrDigit d || d ∈ ['.', '_', '-']) && 2 ≤ rest.length &&
      rest.length ≤ 127

def afterDigits (cs : List Char) : Option (List Char) :=
  if (cs.takeWhile Char.isDigit).isEmpty then none else some (cs.dropWhile Char.isDigit)

def afterDot : List Char → Option (List Char)
  | '.' :: rest => some rest
  | _ => none

/-- `^[0-9]+\.[0-9]+\.[0-9]+(?:[-+][A-Za-z0-9.-]+)?$` -/
def versionPattern (cs : List Char) : Bool :=
  match ((((afterDigits cs).bind afterDot).bind afterDigits).bind afterDot).bind afterDigits with
  | none => false
  | some [] => true
  | some (c :: rest) => (c = '-' || c = '+') && !rest.isEmpty && rest.all fun d ↦ d.isAlphanum || d = '.' || d = '-'

def requiredFields : List String :=
  ["schemaVersion", "id", "version", "kind", "publisher", "license", "entrypoint", "permissions", "payload"]

def trustLevels : List String := ["noesar-official", "certified-partner", "customer-private", "community"]

section

variable {φ : Type} (py : Interpreter φ)

/-- `re.fullmatch(value)` -/
def fullmatch (pattern : List Char → Bool) : Value φ → Except PyError Bool
  | .string s => .ok (pattern s.toList)
  | _ => .error (.typeError "expected string or bytes-like object")

def isList : Value φ → Bool
  | .array _ => true
  | _ => false

def allDifferent : List (Value φ) → Bool
  | [] => true
  | v :: rest => !(rest.any (equal py v)) && allDifferent rest

def validateManifest (manifest : Value φ) : Except PyError Unit := do
  let names ← setOf manifest
  let missing := requiredFields.filter fun field ↦ !(names.any (isString field))
  require (missing = []) (.valueError ("manifest missing required fields: " ++
    listed (missing.mergeSort fun a b ↦ pointRank a ≤ pointRank b)))
  let schemaVersion ← subscript "schemaVersion" manifest
  require (isString "4.0" schemaVersion = true) (.valueError "unsupported manifest schema version")
  let id ← subscript "id" manifest >>= fullmatch idPattern
  require (id = true) (.valueError "invalid capability id")
  let version ← subscript "version" manifest >>= fullmatch versionPattern
  require (version = true) (.valueError "invalid capability version")
  let trusted ← subscript "publisher" manifest >>= getOr "trustLevel" .null >>= among trustLevels
  require (trusted = true) (.valueError "invalid publisher trust level")
  let permissions ← subscript "permissions" manifest
  require (isList permissions = true) (.valueError "permissions must be an array")
  let items ← subscript "payload" manifest >>= iterate
  let payloadPaths ← items.mapM (getOr "path" .null)
  require (∀ path ∈ payloadPaths, hashable (some path) = true) (.typeError "unhashable type")
  require (allDifferent py payloadPaths = true) (.valueError "duplicate payload path")
  payloadPaths.forM fun path ↦
    require (¬unsafePath (format py path)) (.valueError s!"unsafe payload path: {format py path}")

/-- The loop of `validate_archive_members`, after the names that it has seen. -/
def checkMembers (seen : List (List Char)) : List Member → Except PyError Unit
  | [] => .ok ()
  | info :: rest => do
    let name := String.ofList (normalized info.filename)
    require (¬unsafePath info.filename) (.valueError s!"unsafe archive path: {name}")
    require (normalized info.filename ∉ seen) (.valueError s!"duplicate archive path: {name}")
    require (info.mode ≠ 0o120000) (.valueError s!"symbolic link rejected: {name}")
    checkMembers (normalized info.filename :: seen) rest

def Archive.validateMembers (archive : Archive) : Except PyError Unit := checkMembers [] archive.members

def Archive.namelist (archive : Archive) : List String := archive.members.map Member.filename

/-- `archive.read(name)` -/
def Archive.read (archive : Archive) (name : String) : Except PyError Bytes :=
  demand ((archive.members.reverse.find? fun info ↦ info.filename = name).map Member.content) (.keyError name)

def payloadEntries (manifest : Value φ) : Except PyError (List (Value φ × Value φ)) := do
  let items ← getOr "payload" (.array []) manifest >>= iterate
  items.mapM fun item ↦ do
    let path ← subscript "path" item
    return (path, item)

variable (host : Capability.Host)

def sha256 (bytes : Bytes) : String := hex (host.sha256 bytes).toList

/-- What `inspect` does for one entry of the payload. -/
def checkPayload (archive : Archive) (entry : Value φ × Value φ) : Except PyError Unit := do
  let path ← demand ((stringOf (some entry.1)).filter fun path ↦ path ∈ archive.namelist)
    (.valueError s!"missing payload: {format py entry.1}")
  let content ← archive.read path
  let size ← subscript "bytes" entry.2
  require (equal py (.number (.int content.length)) size = true) (.valueError s!"payload size mismatch: {path}")
  let digest ← subscript "sha256" entry.2
  require (equal py (.string (sha256 host content)) digest = true) (.valueError s!"payload SHA-256 mismatch: {path}")

def endsWithSlash (name : String) : Bool := name.toList.getLast? = some '/'

def undeclared (archive : Archive) (payload : List (Value φ × Value φ)) : List String :=
  archive.namelist.filter fun name ↦ !endsWithSlash name && name ≠ "manifest.json" && name ≠ "manifest.sig" &&
    !(payload.any fun entry ↦ isString name entry.1)

/-- `CapabilityManager.inspect`, after its principal has been checked. -/
def inspectArchive (loads : Bytes → Except PyError (Value φ)) (archive : Archive) : Except PyError (Inspection φ) := do
  archive.validateMembers
  require ("manifest.json" ∈ archive.namelist ∧ "manifest.sig" ∈ archive.namelist)
    (.valueError "package requires manifest.json and manifest.sig")
  let manifestBytes ← archive.read "manifest.json"
  let manifest ← loads manifestBytes
  validateManifest py manifest
  let payload ← payloadEntries manifest
  payload.forM (checkPayload py host archive)
  require (undeclared archive payload = []) (.valueError ("undeclared package files: " ++
    listed ((undeclared archive payload).mergeSort fun a b ↦ pointRank a ≤ pointRank b)))
  let signature ← archive.read "manifest.sig"
  return ⟨manifest, manifestBytes, signature, sha256 host archive.bytes⟩

/-- `(destination / name).resolve()`, where no link is on the way. -/
def resolveIn (destination : List String) (name : String) : List String :=
  (parts name.toList).foldl (fun p part ↦ if part = parent then p.dropLast else p ++ [String.ofList part])
    (if isAbsolute name.toList then [] else destination)

def location (name : String) : List String :=
  ((name.toList.splitOn '/').filter fun part ↦ part ∉ [[], ['.'], parent]).map String.ofList

def Member.entry (destination : List String) (info : Member) : FileTree.Entry Bytes :=
  ⟨destination ++ location info.filename, if endsWithSlash info.filename then none else some info.content⟩

def Archive.entries (archive : Archive) (destination : List String) : List (FileTree.Entry Bytes) :=
  archive.members.map (Member.entry destination)

/-- `safe_extract`, which the operating system may end as well. -/
def safeExtract (archive : Archive) (destination : List String) (t : FileTree Bytes) :
    Except (Option PyError) (FileTree Bytes) := do
  let t ← demand (t.makeDirs destination) none
  archive.validateMembers.mapError some
  archive.members.forM fun info ↦ require (destination <+: resolveIn destination info.filename)
    (some (.valueError s!"archive escaped destination: {info.filename}"))
  demand (t.addAll (archive.entries destination)) none

end

end Noesar.Reference
