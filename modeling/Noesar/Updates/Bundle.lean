import Mathlib
import Noesar.Lib.Framing
import Noesar.Lib.InsertionMap
import Noesar.Lib.Listing
import Noesar.Updates.Version

namespace Noesar.Updates

open Lib Lib.Framing Lib.PosixPath

/-- An entry that is not a directory. A symbolic link is kept by the place it leads to, which
is what a copy of it leads to as well. -/
inductive Leaf (σ : Type)
  | file (bytes : Bytes)
  | link (place : String)
  | special (kind : σ)
  deriving DecidableEq, Repr

def Leaf.isFile {σ : Type} : Leaf σ → Bool
  | .file _ => true
  | _ => false

/-- A directory tree whose names are proper and, in each directory, all different. -/
structure Directory (σ : Type) where
  listing : Listing (Leaf σ)
  formed : listing.Formed
  deriving DecidableEq

/-- What `cpSync` makes of a pipe, a socket or a device. -/
inductive Handling
  | refused
  | skipped
  | copied (bytes : Bytes)
  deriving DecidableEq, Repr

abbrev Bundle := Directory Handling

abbrev Slot := Directory Empty

def Slot.empty : Slot := ⟨.nil, trivial⟩

def Leaf.copied : Leaf Handling → Option (Option (Leaf Empty))
  | .file bytes => some (some (.file bytes))
  | .link place => some (some (.link place))
  | .special .refused => none
  | .special .skipped => some none
  | .special (.copied bytes) => some (some (.file bytes))

/-- `cpSync(source, target, { recursive: true })` into an empty directory; `none` where it throws. -/
def cpSync (bundle : Bundle) : Option Slot :=
  match h : bundle.listing.copy Leaf.copied with
  | none => none
  | some landed => some ⟨landed, bundle.formed.copy h⟩

structure FileEntry where
  path : Value
  sha256 : Value
  deriving DecidableEq, Repr

/-- The fields of a manifest that are read. `files` is `none` where it is not an array, and an
element of it is `none` where it is `null`. -/
structure Manifest where
  channel : Value
  version : Value
  expiresUtc : Value
  minUpgradeFrom : Value
  requiresMigration : Value
  security : Value
  files : Option (List (Option FileEntry))
  deriving DecidableEq, Repr

/-- The runtime the manager stands on. `parseJson` is `none` where the text is not JSON, and
`some none` where it is the JSON text of `null`; `parseDate` is `none` for `NaN`. -/
structure Host (Key : Type) where
  sha256 : Bytes → String
  verifySignature : Bytes → Key → Bytes → Bool
  decodeUtf8 : Bytes → String
  decodeBase64 : String → Bytes
  parseJson : String → Option (Option Manifest)
  parseDate : String → Option ℤ

inductive Pinned (Key : Type)
  | missing
  | unreadable
  | key (key : Key)

inductive Read
  | missing
  | unreadable (e : Thrown)
  | bytes (b : Bytes)
  deriving DecidableEq, Repr

/-- What one verification finds outside the bundle: the time, the pinned keys, and what lies
behind the bundle's links and special entries. -/
structure Surroundings (Key : Type) where
  now : ℤ
  pinned : String → Pinned Key
  beyond : List String → Bool → Read
  filesBehind : Option (List (List String))

inductive Found
  | missing
  | directory
  | file (bytes : Bytes)
  | special
  | away
  deriving DecidableEq, Repr

section

variable {Key σ : Type}

/-- The walk along a path inside a bundle. It leaves the bundle at a link, wherever on the path
the link stands. -/
def find : Listing (Leaf σ) → List String → Found
  | _, [] => .directory
  | listing, name :: more =>
    match listing.lookup name with
    | none => .missing
    | some (.directory inside) => find inside more
    | some (.leaf (.file bytes)) => if more = [] then .file bytes else .missing
    | some (.leaf (.link _)) => .away
    | some (.leaf (.special _)) => if more = [] then .special else .missing

def isDirectoryError : Thrown := .error "EISDIR: illegal operation on a directory, read" (some (.host "EISDIR")) none

def notDirectoryError : Thrown := .error "ENOTDIR: not a directory, scandir" (some (.host "ENOTDIR")) none

/-- What `existsSync` and `readFileSync` say of a path; `trailing` where it ends in a slash. -/
def read (around : Surroundings Key) (listing : Listing (Leaf σ)) (names : List String) (trailing : Bool) : Read :=
  match find listing names with
  | .missing => .missing
  | .directory => .unreadable isDirectoryError
  | .file bytes => if trailing then .missing else .bytes bytes
  | .special => if trailing then .missing else around.beyond names false
  | .away => around.beyond names trailing

def sorted (paths : List String) : List String := paths.insertionSort fun a b ↦ utf16 a ≤ utf16 b

/-- `listFiles` of a directory, as paths relative to it. -/
def listFiles (listing : Listing (Leaf σ)) : List String :=
  sorted ((listing.leaves.filter (·.2.isFile)).map fun e ↦ joined e.1)

def listPayload (around : Surroundings Key) (listing : Listing (Leaf σ)) : Except Thrown (List String) :=
  match listing.lookup "payload" with
  | none => .ok []
  | some (.directory inside) => .ok (listFiles inside)
  | some (.leaf (.link _)) =>
    match around.filesBehind with
    | none => .error notDirectoryError
    | some files => .ok (sorted (files.map joined))
  | some (.leaf _) => .error notDirectoryError

def safeRelativePath (value : Value) : Except Thrown Bool := do
  let raw ← (value.orElse (.text "")).string
  if raw = "" ∨ isAbsolute raw ∨ '\x00' ∈ raw.toList ∨ '\\' ∈ raw.toList then .ok false
  else .ok (decide (".." ∉ segments raw))

def channelKey (around : Surroundings Key) (channel : String) : Except Thrown Key :=
  match around.pinned channel with
  | .missing => .error (fail s!"No pinned public key for channel \"{channel}\"." .noChannelKey 412)
  | .unreadable => .error (fail s!"The pinned public key for channel \"{channel}\" is unreadable." .badChannelKey 412)
  | .key key => .ok key

def signatureBytes (host : Host Key) (bytes : Bytes) : Bytes :=
  let text := trim (host.decodeUtf8 bytes).toList
  let pre := "ed25519:".toList
  host.decodeBase64 (String.ofList (if text.take pre.length = pre then text.drop pre.length else text))

def declareFile (declared : InsertionMap Value Value) : Option FileEntry → Except Thrown (InsertionMap Value Value)
  | none => .error (typeError "Cannot read properties of null (reading 'path')")
  | some entry => do
    let safe ← safeRelativePath entry.path
    if !safe then
      let shown ← entry.path.string
      .error (fail s!"Unsafe path in manifest: {shown}" .unsafePath 422)
    else .ok (declared.set entry.path entry.sha256)

/-- One turn of the loop over the declared files. A path that is not a string stops `join`. -/
def checkDeclared (host : Host Key) (around : Surroundings Key) (listing : Listing (Leaf σ)) :
    Value × Value → Except Thrown Unit
  | (.text path, expected) =>
    let names := normalize path
    if (joined names).toList.take 2 = ['.', '.'] then
      .error (fail s!"Path escapes the payload: {path}" .unsafePath 422)
    else
      match read around listing ("payload" :: names) (path.toList.getLast? = some '/') with
      | .missing => .error (fail s!"Manifest lists a missing file: {path}" .missingPayloadFile 422)
      | .unreadable e => .error e
      | .bytes bytes =>
        if .text (host.sha256 bytes) ≠ expected then
          .error (fail s!"Payload hash mismatch for {path}." .payloadHashMismatch 422)
        else .ok ()
  | _ => .error (.error "The \"path\" argument must be of type string." (some (.host "ERR_INVALID_ARG_TYPE")) none)

def checkUndeclared (declared : InsertionMap Value Value) (rel : String) : Except Thrown Unit :=
  if declared.has (.text rel) then .ok ()
  else .error (fail s!"Payload contains an undeclared file: {rel}" .undeclaredPayloadFile 422)

/-- The versions the state holds while a bundle is verified. -/
structure Standing where
  installedVersion : Value
  highestEverInstalled : Value
  deriving DecidableEq, Repr

structure Verified where
  manifest : Manifest
  version : Value
  security : Bool
  requiresMigration : Bool
  fileCount : ℕ
  deriving DecidableEq, Repr

def readManifest (host : Host Key) (around : Surroundings Key) (channel : String) (listing : Listing (Leaf σ)) :
    Except Thrown Manifest :=
  match read around listing ["manifest.json"] false, read around listing ["manifest.sig"] false with
  | .missing, _ => .error (fail "Update package has no manifest.json." .noManifest 422)
  | _, .missing => .error (fail "Update package is not signed." .packageUnsigned 422)
  | .unreadable _, _ => .error (fail "Update manifest is not valid JSON." .manifestMalformed 422)
  | .bytes bytes, sig =>
    match host.parseJson (host.decodeUtf8 bytes) with
    | none => .error (fail "Update manifest is not valid JSON." .manifestMalformed 422)
    | some parsed => do
      let key ← channelKey around channel
      match sig with
      | .unreadable e => .error e
      | .missing => .error (fail "Update package is not signed." .packageUnsigned 422)
      | .bytes signature =>
        if !host.verifySignature bytes key (signatureBytes host signature) then
          .error (fail "Update package signature is invalid." .packageSignatureInvalid 422)
        else
          match parsed with
          | none => .error (typeError "Cannot read properties of null (reading 'channel')")
          | some manifest => do
            let named ← manifest.channel.string
            if named ≠ channel then
              .error (fail s!"Package is for channel \"{named}\", not \"{channel}\"." .packageChannelMismatch 422)
            else if manifest.expiresUtc.truthy then
              let expires ← manifest.expiresUtc.string
              match host.parseDate expires with
              | none => .ok manifest
              | some time =>
                if time ≤ around.now then .error (fail "Update package metadata has expired." .packageExpired 422)
                else .ok manifest
            else .ok manifest

def checkVersion (standing : Standing) (manifest : Manifest) : Except Thrown Unit := do
  let fromVersion := standing.installedVersion
  let highest := standing.highestEverInstalled.orElse fromVersion
  let order ← compareVersions manifest.version fromVersion
  if order ≠ .gt then
    let version ← manifest.version.string
    let installed ← fromVersion.string
    .error (fail s!"Refusing to install {version} over {installed}: downgrades are not an update path."
      .downgradeRefused 409)
  else
    let order ← compareVersions manifest.version highest
    if order ≠ .gt then
      let version ← manifest.version.string
      let above ← highest.string
      .error (fail s!"Refusing {version}: version {above} has already been installed." .antiRollback 409)
    else if manifest.minUpgradeFrom.truthy then
      let order ← compareVersions fromVersion manifest.minUpgradeFrom
      if order = .lt then
        let needed ← manifest.minUpgradeFrom.string
        let installed ← fromVersion.string
        .error (fail s!"Update requires at least {needed}; this installation is {installed}." .minUpgradeFrom 409)
      else .ok ()
    else .ok ()

def checkPayload (host : Host Key) (around : Surroundings Key) (listing : Listing (Leaf σ)) (manifest : Manifest) :
    Except Thrown (InsertionMap Value Value) :=
  match manifest.files with
  | none => .error (fail "Update manifest lists no files." .manifestNoFiles 422)
  | some files =>
    if files = [] then .error (fail "Update manifest lists no files." .manifestNoFiles 422)
    else do
      let declared ← files.foldlM declareFile .empty
      declared.entries.forM (checkDeclared host around listing)
      let present ← listPayload around listing
      present.forM (checkUndeclared declared)
      .ok declared

def verifyBundle (host : Host Key) (around : Surroundings Key) (standing : Standing) (channel : String)
    (dir : Directory σ) : Except Thrown Verified := do
  let manifest ← readManifest host around channel dir.listing
  checkVersion standing manifest
  let declared ← checkPayload host around dir.listing manifest
  .ok ⟨manifest, manifest.version, manifest.security.truthy, manifest.requiresMigration.truthy, declared.entries.length⟩

end

end Noesar.Updates
