import Noesar.Lib.Fallible
import Noesar.Updates.Bundle

namespace Noesar.Updates

open Lib Lib.Framing Lib.PosixPath

def Manifest.Lists (manifest : Manifest) (entry : FileEntry) : Prop :=
  ∃ files, manifest.files = some files ∧ some entry ∈ files

section Declared

variable {files : List (Option FileEntry)} {declared : InsertionMap Value Value}

theorem declareFile_ok {declared declared' : InsertionMap Value Value} {file : Option FileEntry}
    (h : declareFile declared file = .ok declared') :
    ∃ entry, file = some entry ∧ safeRelativePath entry.path = .ok true ∧
      declared' = declared.set entry.path entry.sha256 := by
  cases file with
  | none => cases h
  | some entry =>
    simp only [declareFile, bind_ok] at h
    obtain ⟨safe, hsafe, h⟩ := h
    cases safe with
    | false =>
      simp only [Bool.not_false, if_true, bind_ok] at h
      obtain ⟨_, _, h⟩ := h
      cases h
    | true =>
      cases h
      exact ⟨entry, rfl, hsafe, rfl⟩

theorem declared_of_listed (h : files.foldlM declareFile .empty = .ok declared) {entry : FileEntry}
    (hentry : some entry ∈ files) :
    safeRelativePath entry.path = .ok true ∧ (declared.get entry.path).isSome := by
  suffices hs : ∀ (files : List (Option FileEntry)) (before : InsertionMap Value Value),
      files.foldlM declareFile before = .ok declared →
        (∀ path, (before.get path).isSome → (declared.get path).isSome) ∧
          ∀ entry, some entry ∈ files →
            safeRelativePath entry.path = .ok true ∧ (declared.get entry.path).isSome from
    (hs files .empty h).2 entry hentry
  intro files
  induction files with
  | nil =>
    intro before h
    cases h
    exact ⟨fun _ hp ↦ hp, fun _ he ↦ by cases he⟩
  | cons file files ih =>
    intro before h
    rw [List.foldlM_cons, bind_ok] at h
    obtain ⟨next, hnext, h⟩ := h
    obtain ⟨e, rfl, hsafe, rfl⟩ := declareFile_ok hnext
    obtain ⟨hkept, hin⟩ := ih _ h
    have hset : ∀ path, path = e.path ∨ (before.get path).isSome → (declared.get path).isSome := by
      intro path hp
      apply hkept
      rw [InsertionMap.get_set]
      split
      · rfl
      next hne => exact hp.resolve_left (Ne.symm hne)
    refine ⟨fun path hp ↦ hset path (.inr hp), fun entry he ↦ ?_⟩
    rcases List.mem_cons.mp he with he | he
    · cases he
      exact ⟨hsafe, hset e.path (.inl rfl)⟩
    · exact hin entry he

theorem listed_of_declared (h : files.foldlM declareFile .empty = .ok declared) {path expected : Value}
    (hget : declared.get path = some expected) : some ⟨path, expected⟩ ∈ files := by
  revert path expected
  refine foldlM_ok (I := fun declared ↦ ∀ {path expected : Value}, declared.get path = some expected →
    some ⟨path, expected⟩ ∈ files) h (fun hget ↦ by cases hget) ?_
  intro declared declared' file hfile hstep hI path expected hget
  obtain ⟨entry, rfl, -, rfl⟩ := declareFile_ok hstep
  rw [InsertionMap.get_set] at hget
  split at hget
  next he =>
    cases hget
    exact he ▸ hfile
  · exact hI hget

end Declared

section Walk

variable {σ : Type}

theorem find_file {listing : Listing (Leaf σ)} {names : List String} {bytes : Bytes} :
    find listing names = .file bytes ↔ listing.entryAt names = some (.leaf (.file bytes)) := by
  induction names generalizing listing with
  | nil => simp [find, Listing.entryAt]
  | cons name more ih =>
    cases hl : listing.lookup name with
    | none => simp [find, Listing.entryAt, hl]
    | some entry =>
      cases entry with
      | directory => simp [find, Listing.entryAt, hl, ih]
      | leaf leaf => cases leaf <;> by_cases hm : more = [] <;> simp [find, Listing.entryAt, hl, hm]

theorem find_special {listing : Listing (Leaf σ)} {names : List String} (h : find listing names = .special) :
    ∃ kind, listing.entryAt names = some (.leaf (.special kind)) := by
  induction names generalizing listing with
  | nil => cases h
  | cons name more ih =>
    cases hl : listing.lookup name with
    | none => simp [find, hl] at h
    | some entry =>
      cases entry with
      | directory =>
        simp only [find, hl] at h
        simpa [Listing.entryAt, hl] using ih h
      | leaf leaf =>
        cases leaf with
        | file => by_cases hm : more = [] <;> simp [find, hl, hm] at h
        | link => simp [find, hl] at h
        | special kind =>
          by_cases hm : more = []
          · exact ⟨kind, by simp [Listing.entryAt, hl, hm]⟩
          · simp [find, hl, hm] at h

theorem find_away {listing : Listing (Leaf σ)} {names : List String} (h : find listing names = .away) :
    ∃ upto place, upto <+: names ∧ listing.entryAt upto = some (.leaf (.link place)) := by
  induction names generalizing listing with
  | nil => cases h
  | cons name more ih =>
    cases hl : listing.lookup name with
    | none => simp [find, hl] at h
    | some entry =>
      cases entry with
      | directory =>
        simp only [find, hl] at h
        obtain ⟨upto, place, hpre, hat⟩ := ih h
        exact ⟨name :: upto, place, List.cons_prefix_cons.mpr ⟨rfl, hpre⟩, by simpa [Listing.entryAt, hl] using hat⟩
      | leaf leaf =>
        cases leaf with
        | file => by_cases hm : more = [] <;> simp [find, hl, hm] at h
        | link place => exact ⟨[name], place, by simp, by simp [Listing.entryAt, hl]⟩
        | special => by_cases hm : more = [] <;> simp [find, hl, hm] at h

end Walk

section Accepted

variable {Key σ : Type} {host : Host Key} {around : Surroundings Key} {listing : Listing (Leaf σ)}

theorem checkDeclared_ok {path expected : Value} (h : checkDeclared host around listing (path, expected) = .ok ()) :
    ∃ p bytes, path = .text p ∧ expected = .text (host.sha256 bytes) ∧
      read around listing ("payload" :: normalize p) (p.toList.getLast? = some '/') = .bytes bytes := by
  cases path with
  | text p =>
    simp only [checkDeclared] at h
    split at h
    · cases h
    split at h
    · cases h
    · cases h
    next bytes hread =>
      split at h
      · cases h
      next hne => exact ⟨p, bytes, rfl, (not_not.mp hne).symm, hread⟩
  | _ => cases h

structure Checked (host : Host Key) (around : Surroundings Key) (listing : Listing (Leaf σ)) (manifest : Manifest)
    (declared : InsertionMap Value Value) : Prop where
  files : ∃ files, manifest.files = some files ∧ files.foldlM declareFile .empty = .ok declared
  hashes : ∀ path expected, declared.get path = some expected → checkDeclared host around listing (path, expected) = .ok ()
  listed : ∃ present, listPayload around listing = .ok present ∧ ∀ rel ∈ present, declared.has (.text rel)

theorem checkPayload_ok {manifest : Manifest} {declared : InsertionMap Value Value}
    (h : checkPayload host around listing manifest = .ok declared) : Checked host around listing manifest declared := by
  unfold checkPayload at h
  split at h
  · cases h
  next files hfiles =>
    split at h
    · cases h
    simp only [bind_ok] at h
    obtain ⟨declared', hdeclared, _, hhashes, present, hpresent, _, hlisted, h⟩ := h
    cases h
    refine ⟨⟨files, hfiles, hdeclared⟩, fun path expected hget ↦ ?_, present, hpresent, fun rel hrel ↦ ?_⟩
    · exact forM_ok.mp hhashes _ (InsertionMap.mem_entries hget)
    · have := forM_ok.mp hlisted rel hrel
      unfold checkUndeclared at this
      split at this
      next hhas => exact hhas
      · cases this

theorem verifyBundle_ok {standing : Standing} {channel : String} {dir : Directory σ} {verified : Verified}
    (h : verifyBundle host around standing channel dir = .ok verified) :
    readManifest host around channel dir.listing = .ok verified.manifest ∧ checkVersion standing verified.manifest = .ok () ∧
      verified.version = verified.manifest.version ∧ ∃ declared, Checked host around dir.listing verified.manifest declared := by
  simp only [verifyBundle, bind_ok] at h
  obtain ⟨manifest, hmanifest, _, hversion, declared, hpayload, h⟩ := h
  cases h
  exact ⟨hmanifest, hversion, rfl, declared, checkPayload_ok hpayload⟩

theorem checkVersion_ok {standing : Standing} {manifest : Manifest} (h : checkVersion standing manifest = .ok ()) :
    Above manifest.version standing.installedVersion ∧
      Above manifest.version (standing.highestEverInstalled.orElse standing.installedVersion) := by
  simp only [checkVersion, bind_ok] at h
  obtain ⟨order, horder, h⟩ := h
  split at h
  · simp only [bind_ok] at h
    obtain ⟨_, _, _, _, h⟩ := h
    cases h
  next hgt =>
    rw [bind_ok] at h
    obtain ⟨order', horder', h⟩ := h
    split at h
    · simp only [bind_ok] at h
      obtain ⟨_, _, _, _, h⟩ := h
      cases h
    next hgt' =>
      rw [not_not.mp hgt] at horder
      rw [not_not.mp hgt'] at horder'
      exact ⟨horder, horder'⟩

theorem readManifest_ok {channel : String} {manifest : Manifest} (h : readManifest host around channel listing = .ok manifest) :
    ∃ key bytes signature, around.pinned channel = .key key ∧
      read around listing ["manifest.json"] false = .bytes bytes ∧
      host.parseJson (host.decodeUtf8 bytes) = some (some manifest) ∧ host.verifySignature bytes key signature := by
  unfold readManifest at h
  split at h
  · cases h
  · cases h
  · cases h
  next bytes hbytes _ =>
    split at h
    · cases h
    next parsed hparsed =>
      rw [bind_ok] at h
      obtain ⟨key, hkey, h⟩ := h
      split at h
      · cases h
      · cases h
      next signature =>
        split at h
        · cases h
        next hverify =>
          split at h
          · cases h
          next manifest' =>
            have hm : manifest' = manifest := by
              rw [bind_ok] at h
              obtain ⟨named, -, h⟩ := h
              split at h
              · cases h
              split at h
              · rw [bind_ok] at h
                obtain ⟨expires, -, h⟩ := h
                split at h
                · cases h
                  rfl
                split at h
                · cases h
                · cases h
                  rfl
              · cases h
                rfl
            subst hm
            refine ⟨key, bytes, _, ?_, hbytes, hparsed, by simpa using hverify⟩
            unfold channelKey at hkey
            split at hkey
            · cases hkey
            · cases hkey
            next hpinned =>
              cases hkey
              exact hpinned

end Accepted

def Leaf.Carried (leaf : Leaf Handling) : Prop := ∃ made, leaf.copied = some (some made)

/-- The bundle is what its signed manifest says: all that is carried under `payload/` are regular
files that it lists with their hashes, all that it lists stands inside `payload/`, and it says one
thing about each place. -/
structure Exact {Key : Type} (host : Host Key) (Signed : Key → Bytes → Prop) (around : Surroundings Key)
    (channel : String) (bundle : Bundle) (manifest : Manifest) : Prop where
  signed : ∃ key bytes, around.pinned channel = .key key ∧
    read around bundle.listing ["manifest.json"] false = .bytes bytes ∧
    host.parseJson (host.decodeUtf8 bytes) = some (some manifest) ∧ Signed key bytes
  carried : ∀ p leaf, ("payload" :: p, leaf) ∈ bundle.listing.leaves → leaf.Carried →
    ∃ bytes, leaf = .file bytes ∧ manifest.Lists ⟨.text (joined p), .text (host.sha256 bytes)⟩
  present : ∀ entry, manifest.Lists entry → ∃ path, entry.path = .text path ∧ ".." ∉ segments path ∧
    (bundle.listing.entryAt ("payload" :: normalize path)).isSome
  agree : ∀ entry entry' path path', manifest.Lists entry → manifest.Lists entry' → entry.path = .text path →
    entry'.path = .text path' → normalize path = normalize path' → entry.sha256 = entry'.sha256

section Payload

variable {Key : Type} {host : Host Key} {around : Surroundings Key} {bundle : Bundle} {manifest : Manifest}
  {declared : InsertionMap Value Value}

/-- No link among the entries the copies take along under `payload/`. -/
def FilesOnly (bundle : Bundle) : Prop :=
  ∀ p leaf, ("payload" :: p, leaf) ∈ bundle.listing.leaves → leaf.Carried → leaf.isFile

def Consistent (manifest : Manifest) : Prop :=
  ∀ entry entry', manifest.Lists entry → manifest.Lists entry' → entry.path = entry'.path → entry.sha256 = entry'.sha256

theorem FilesOnly.find_ne_away (h : FilesOnly bundle) (names : List String) :
    find bundle.listing ("payload" :: names) ≠ .away := by
  intro haway
  obtain ⟨upto, place, hpre, hat⟩ := find_away haway
  have hm := (Listing.mem_leaves_iff bundle.formed).mpr hat
  cases upto with
  | nil => exact Listing.leaves_ne_nil _ hm rfl
  | cons name more =>
    obtain ⟨rfl, -⟩ := List.cons_prefix_cons.mp hpre
    exact Bool.false_ne_true (h more _ hm ⟨_, rfl⟩)

theorem FilesOnly.read_bytes (h : FilesOnly bundle) {names : List String} {trailing : Bool} {bytes : Bytes}
    (hread : read around bundle.listing ("payload" :: names) trailing = .bytes bytes) :
    trailing = false ∧ (bundle.listing.entryAt ("payload" :: names)).isSome := by
  unfold read at hread
  split at hread
  · cases hread
  · cases hread
  next hfound =>
    cases trailing with
    | true => cases hread
    | false => exact ⟨rfl, by rw [find_file.mp hfound]; rfl⟩
  next hfound =>
    obtain ⟨kind, hat⟩ := find_special hfound
    cases trailing with
    | true => cases hread
    | false => exact ⟨rfl, by rw [hat]; rfl⟩
  next hfound => exact absurd hfound (h.find_ne_away names)

section

variable (h : Checked host around bundle.listing manifest declared)

include h

theorem Checked.get_of_lists {entry : FileEntry} (hentry : manifest.Lists entry) : safeRelativePath entry.path = .ok
    true ∧ ∃ expected, declared.get entry.path = some expected := by
  obtain ⟨files, hfiles, hdeclared⟩ := h.files
  obtain ⟨files', hfiles', hin⟩ := hentry
  rw [hfiles] at hfiles'
  cases hfiles'
  obtain ⟨hsafe, hget⟩ := declared_of_listed hdeclared hin
  exact ⟨hsafe, Option.isSome_iff_exists.mp hget⟩

theorem Checked.lists_of_get {path expected : Value} (hget : declared.get path = some expected) : manifest.Lists ⟨path,
    expected⟩ := by
  obtain ⟨files, hfiles, hdeclared⟩ := h.files
  exact ⟨files, hfiles, listed_of_declared hdeclared hget⟩

theorem Checked.read_of_lists {entry : FileEntry} (hentry : manifest.Lists entry) : ∃ path bytes, entry.path = .text
    path ∧ manifest.Lists ⟨entry.path, .text (host.sha256 bytes)⟩ ∧ read around bundle.listing ("payload" :: normalize
    path) (path.toList.getLast? = some '/') = .bytes bytes := by
  obtain ⟨-, expected, hget⟩ := h.get_of_lists hentry
  obtain ⟨path, bytes, hpath, rfl, hread⟩ := checkDeclared_ok (h.hashes _ _ hget)
  exact ⟨path, bytes, hpath, h.lists_of_get hget, hread⟩

end

theorem segments_of_safe {path : String} (h : safeRelativePath (.text path) = .ok true) : ".." ∉ segments path := by
  simp only [safeRelativePath, Value.orElse, Value.string, bind, Except.bind] at h
  split at h
  · cases h
  · simpa using h

section

variable (h : Checked host around bundle.listing manifest declared)

include h

theorem Checked.present (hfiles : FilesOnly bundle) {entry : FileEntry} (hentry : manifest.Lists entry) : ∃ path,
    entry.path = .text path ∧ ".." ∉ segments path ∧ (bundle.listing.entryAt ("payload" :: normalize path)).isSome := by
  obtain ⟨path, bytes, hpath, -, hread⟩ := h.read_of_lists hentry
  obtain ⟨hsafe, -⟩ := h.get_of_lists hentry
  rw [hpath] at hsafe
  exact ⟨path, hpath, segments_of_safe hsafe, (hfiles.read_bytes hread).2⟩

theorem Checked.agree (hfiles : FilesOnly bundle) (hconsistent : Consistent manifest) {entry entry' : FileEntry} {path
    path' : String} (hentry : manifest.Lists entry) (hentry' : manifest.Lists entry') (hpath : entry.path = .text path)
    (hpath' : entry'.path = .text path') (hplace : normalize path = normalize path') : entry.sha256 = entry'.sha256 :=
    by
  obtain ⟨p, bytes, hp, hlast, hread⟩ := h.read_of_lists hentry
  obtain ⟨p', bytes', hp', hlast', hread'⟩ := h.read_of_lists hentry'
  rw [hpath] at hp
  rw [hpath'] at hp'
  cases hp
  cases hp'
  have hbytes : bytes = bytes' := by
    rw [(hfiles.read_bytes hread).1, hplace] at hread
    rw [(hfiles.read_bytes hread').1, hread] at hread'
    cases hread'
    rfl
  calc
    entry.sha256 = .text (host.sha256 bytes) := hconsistent _ _ hentry hlast rfl
    _ = .text (host.sha256 bytes') := by rw [hbytes]
    _ = entry'.sha256 := hconsistent _ _ hlast' hentry' rfl

theorem Checked.lists_of_file {p : List String} {bytes : Bytes} (hleaf : ("payload" :: p, Leaf.file bytes) ∈
    bundle.listing.leaves) : manifest.Lists ⟨.text (joined p), .text (host.sha256 bytes)⟩ := by
  obtain ⟨present, hpresent, hlisted⟩ := h.listed
  rcases (Listing.mem_leaves_cons bundle.formed).mp hleaf with ⟨-, hlookup⟩ | ⟨inside, hlookup, hin⟩
  · simp [listPayload, hlookup] at hpresent
  simp only [listPayload, hlookup, Except.ok.injEq] at hpresent
  subst hpresent
  have hmem : joined p ∈ listFiles inside := by
    rw [listFiles, sorted, List.mem_insertionSort]
    exact List.mem_map.mpr ⟨(p, .file bytes), by simp [hin, Leaf.isFile], rfl⟩
  obtain ⟨expected, hget⟩ := (InsertionMap.has_iff _ _).mp (hlisted _ hmem)
  obtain ⟨path, bytes', hpath, rfl, hread⟩ := checkDeclared_ok (h.hashes _ _ hget)
  cases hpath
  have hformed := bundle.formed.lookup hlookup
  have hproper := Listing.proper_of_mem_leaves hformed hin
  have hnames : normalize (joined p) = p := by
    apply normalize_joined (Listing.leaves_ne_nil _ hin)
    intro n hn
    obtain ⟨h₁, h₂, h₃, h₄⟩ := hproper n hn
    exact ⟨⟨h₁, h₂, h₃⟩, h₄⟩
  have hfound : find bundle.listing ("payload" :: p) = .file bytes :=
    find_file.mpr ((Listing.mem_leaves_iff bundle.formed).mp hleaf)
  rw [hnames] at hread
  simp only [read, hfound] at hread
  split at hread
  · cases hread
  · cases hread
    exact h.lists_of_get hget

end

end Payload

namespace Sample

def ascii (s : String) : Bytes := s.toList.map fun c ↦ UInt8.ofNat c.toNat

def emptySha256 : String := "e3b0c44298fc1c149afbf4c8996fb92427ae41e4649b934ca495991b7852b855"

/-- The text of a manifest that lists one empty file, `app.txt`. -/
def manifestText (version : String) : String :=
  "\x7b\"channel\":\"offline\",\"version\":\"" ++ version ++
    "\",\"files\":[\x7b\"path\":\"app.txt\",\"sha256\":\"" ++ emptySha256 ++ "\"\x7d]\x7d"

def manifest (version : String) : Manifest where
  channel := .text "offline"
  version := .text version
  expiresUtc := .undefined
  minUpgradeFrom := .undefined
  requiresMigration := .undefined
  security := .undefined
  files := some [some ⟨.text "app.txt", .text emptySha256⟩]

def versions : List String := ["0.7.0", "0.8.0", "0.9.0"]

/-- A runtime on the inputs below: the one key has signed the manifests of the three versions. -/
def host : Host Unit where
  sha256 bytes := if bytes = [] then emptySha256 else ""
  verifySignature bytes _ signature := signature = [0] ∧ bytes ∈ versions.map fun v ↦ ascii (manifestText v)
  decodeUtf8 bytes := String.ofList (bytes.map fun b ↦ Char.ofNat b.toNat)
  decodeBase64 text := if text = "AA==" then [0] else []
  parseJson text := (versions.find? fun v ↦ manifestText v = text).map fun v ↦ some (manifest v)
  parseDate _ := none

def around : Surroundings Unit where
  now := 0
  pinned _ := .key ()
  beyond _ _ := .missing
  filesBehind := none

def standing : Standing := ⟨.text "0.6.0", .text "0.6.0"⟩

/-- A signed package of the version whose payload holds `app.txt` and what else is given. -/
def listing (version : String) (more : Listing (Leaf Handling)) : Listing (Leaf Handling) :=
  .leaf "manifest.json" (.file (ascii (manifestText version)))
    (.leaf "manifest.sig" (.file (ascii "AA=="))
      (.directory "payload" (.leaf "app.txt" (.file []) more) .nil))

def bundle : Bundle := ⟨listing "0.7.0" .nil, by decide⟩

def verified : Verified := ⟨manifest "0.7.0", .text "0.7.0", false, false, 1⟩

def linked : Bundle := ⟨listing "0.7.0" (.leaf "passwd" (.link "/etc/passwd") .nil), by decide⟩

theorem verifyBundle_ok : verifyBundle host around standing "offline" bundle = .ok verified ∧
    verifyBundle host around standing "offline" linked = .ok verified := by
  decide +kernel

end Sample

end Noesar.Updates
