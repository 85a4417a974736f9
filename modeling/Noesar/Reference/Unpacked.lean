import Noesar.Reference.Archive

namespace Noesar.Reference

open Lib Lib.Framing Lib.Json FileTree

section Statements

variable {φ : Type} (host : Capability.Host) (py : Interpreter φ)

structure Vacant (t : FileTree Bytes) (destination : List String) : Prop where
  rooted : Rooted t destination
  empty : ∀ p, destination <+: p → p ≠ destination → t p = none

def Declares (manifest : Value φ) (path : String) (descriptor : Value φ) : Prop :=
  ∃ payload, payloadEntries manifest = .ok payload ∧ (.string path, descriptor) ∈ payload

def Described (descriptor : Value φ) (content : Bytes) : Prop :=
  ∃ size digest, subscript "bytes" descriptor = .ok size ∧ equal py (.number (.int content.length)) size = true ∧
    subscript "sha256" descriptor = .ok digest ∧ equal py (.string (sha256 host content)) digest = true

def IsDeclared (manifest : Value φ) (name : String) : Prop :=
  name = "manifest.json" ∨ name = "manifest.sig" ∨ ∃ descriptor, Declares manifest name descriptor

/-- What is unpacked is what was verified: the files are those declared, nothing outside changed, and each has the
content that was checked. -/
structure Verified (t t' : FileTree Bytes) (destination : List String) (inspection : Inspection φ) : Prop where
  regular : ∀ p, destination <+: p →
    ((bytesAt t' p).isSome = true ↔ ∃ name, IsDeclared inspection.manifest name ∧ p = destination ++ location name)
  inside : ∀ p, ¬destination <+: p → t' p = t p
  payload : ∀ path descriptor, Declares inspection.manifest path descriptor →
    ∃ content, bytesAt t' (destination ++ location path) = some content ∧ Described host py descriptor content
  manifest : bytesAt t' (destination ++ location "manifest.json") = some inspection.manifestBytes

/-- The content of the last of the members, other than directories, that have a location. -/
def Archive.lastAt (archive : Archive) (p : List String) : Option Bytes := lastWritten (archive.entries []) p

/-- No payload path is that of a directory, and where several members have one location, the last of them has the
content that was checked for each. -/
structure Undisturbed (archive : Archive) (inspection : Inspection φ) : Prop where
  files : ∀ path descriptor, Declares inspection.manifest path descriptor → endsWithSlash path = false
  payload : ∀ path descriptor, Declares inspection.manifest path descriptor →
    ∀ content, archive.lastAt (location path) = some content → Described host py descriptor content
  manifest : ∀ content, archive.lastAt (location "manifest.json") = some content → content = inspection.manifestBytes

end Statements

section Inspection

variable {φ : Type} {host : Capability.Host} {py : Interpreter φ} {loads : Bytes → Except PyError (Value φ)}
  {archive : Archive} {inspection : Inspection φ}

theorem read_mem {name : String} {content : Bytes} (h : archive.read name = .ok content) :
    ∃ info ∈ archive.members, info.filename = name ∧ info.content = content := by
  obtain ⟨info, hfind, hcontent⟩ := Option.map_eq_some_iff.mp (demand_ok.mp h)
  have hname := List.find?_some hfind
  exact ⟨info, List.mem_reverse.mp (List.mem_of_find?_eq_some hfind), of_decide_eq_true hname, hcontent⟩

theorem inspectArchive_ok (h : inspectArchive py host loads archive = .ok inspection) :
    ∃ payload, payloadEntries inspection.manifest = .ok payload ∧ archive.validateMembers = .ok () ∧
      archive.read "manifest.json" = .ok inspection.manifestBytes ∧ "manifest.sig" ∈ archive.namelist ∧
      (∀ entry ∈ payload, checkPayload py host archive entry = .ok ()) ∧ undeclared archive payload = [] := by
  simp only [inspectArchive, bind_ok, exists_unit, require_ok] at h
  obtain ⟨hmembers, ⟨-, hsig⟩, manifestBytes, hread, manifest, -, -, payload, hpayload, hchecked, hnone, signature, -, heq⟩ := h
  cases heq
  exact ⟨payload, hpayload, hmembers, hread, hsig, forM_ok.mp hchecked, hnone⟩

theorem checkPayload_ok {entry : Value φ × Value φ} (h : checkPayload py host archive entry = .ok ()) :
    ∃ path content, entry.1 = .string path ∧ archive.read path = .ok content ∧ Described host py entry.2 content := by
  simp only [checkPayload, bind_ok, exists_unit, require_ok, demand_ok] at h
  obtain ⟨path, hpath, content, hcontent, size, hsize, hlength, digest, hdigest, hsha⟩ := h
  obtain ⟨hstring, -⟩ := Option.filter_eq_some_iff.mp hpath
  refine ⟨path, content, ?_, hcontent, size, digest, hsize, hlength, hdigest, hsha⟩
  unfold stringOf at hstring
  split at hstring
  next s hs =>
    cases hstring
    exact Option.some.inj hs
  · cases hstring

theorem declared_read (h : inspectArchive py host loads archive = .ok inspection) {path : String} {descriptor : Value φ}
    (hdeclared : Declares inspection.manifest path descriptor) :
    ∃ content, archive.read path = .ok content ∧ Described host py descriptor content := by
  obtain ⟨payload, hpayload, -, -, -, hchecked, -⟩ := inspectArchive_ok h
  obtain ⟨payload', hpayload', hmem⟩ := hdeclared
  cases hpayload.symm.trans hpayload'
  obtain ⟨path', content, hpath, hcontent, hdescribed⟩ := checkPayload_ok (hchecked _ hmem)
  cases hpath
  exact ⟨content, hcontent, hdescribed⟩

theorem isDeclared_of_mem (h : inspectArchive py host loads archive = .ok inspection) {info : Member}
    (hinfo : info ∈ archive.members) (hfile : endsWithSlash info.filename = false) :
    IsDeclared inspection.manifest info.filename := by
  obtain ⟨payload, hpayload, -, -, -, -, hnone⟩ := inspectArchive_ok h
  by_contra hundeclared
  have hmem : info.filename ∈ undeclared archive payload := by
    refine List.mem_filter.mpr ⟨List.mem_map_of_mem hinfo, ?_⟩
    simp only [hfile, Bool.not_false, Bool.true_and, Bool.and_eq_true, Bool.not_eq_true', decide_eq_true_eq,
      List.any_eq_false, isString_iff]
    refine ⟨⟨fun hname ↦ hundeclared (.inl hname), fun hname ↦ hundeclared (.inr (.inl hname))⟩, fun entry hentry hpath ↦ ?_⟩
    exact hundeclared (.inr (.inr ⟨entry.2, payload, hpayload, hpath ▸ hentry⟩))
  rw [hnone] at hmem
  cases hmem

theorem mem_of_isDeclared (h : inspectArchive py host loads archive = .ok inspection) {name : String}
    (hname : IsDeclared inspection.manifest name) : ∃ info ∈ archive.members, info.filename = name := by
  obtain ⟨-, -, -, hread, hsig, -, -⟩ := inspectArchive_ok h
  rcases hname with rfl | rfl | ⟨descriptor, hdeclared⟩
  · obtain ⟨info, hinfo, hname, -⟩ := read_mem hread
    exact ⟨info, hinfo, hname⟩
  · obtain ⟨info, hinfo, hname⟩ := List.mem_map.mp hsig
    exact ⟨info, hinfo, hname⟩
  · obtain ⟨content, hcontent, -⟩ := declared_read h hdeclared
    obtain ⟨info, hinfo, hname, -⟩ := read_mem hcontent
    exact ⟨info, hinfo, hname⟩

end Inspection

section Extraction

variable {archive : Archive} {destination : List String} {t t' : FileTree Bytes}

theorem lastWritten_entries (p : List String) :
    lastWritten (archive.entries destination) (destination ++ p) = archive.lastAt p := by
  unfold Archive.lastAt Archive.entries lastWritten
  rw [← List.map_reverse, ← List.map_reverse, List.findSome?_map, List.findSome?_map]
  congr 1
  funext info
  by_cases hplace : location info.filename = p
  · simp [Member.entry, hplace]
  · simp [Member.entry, hplace]

theorem lastAt_isSome {p : List String} : (archive.lastAt p).isSome = true ↔
    ∃ info ∈ archive.members, endsWithSlash info.filename = false ∧ location info.filename = p := by
  unfold Archive.lastAt Archive.entries lastWritten
  rw [List.findSome?_isSome_iff]
  simp only [← List.map_reverse, List.mem_map, List.mem_reverse, Member.entry, List.nil_append]
  constructor
  · rintro ⟨_, ⟨info, hinfo, rfl⟩, hsome⟩
    dsimp only at hsome
    split_ifs at hsome with hplace hslash
    · cases hsome
    · exact ⟨info, hinfo, Bool.eq_false_of_not_eq_true hslash, hplace⟩
    · cases hsome
  · rintro ⟨info, hinfo, hfile, hplace⟩
    refine ⟨_, ⟨info, hinfo, rfl⟩, ?_⟩
    rw [if_pos hplace, hfile]
    rfl

theorem safeExtract_ok (hroot : Rooted t destination) (h : safeExtract archive destination t = .ok t') :
    t.addAll (archive.entries destination) = some t' := by
  simp only [safeExtract, bind_ok, demand_ok] at h
  obtain ⟨t₁, hdirs, -, -, -, -, hadd⟩ := h
  have hsame : t₁ = t := by
    funext q
    rcases makeDirsFrom_at hdirs q with hq | ⟨hnone, -, r, hr, rfl⟩
    · exact hq
    · rw [hroot _ hr] at hnone
      cases hnone
  rw [← hsame]
  exact hadd

theorem safeExtract_bytesAt (hempty : Vacant t destination) (h : safeExtract archive destination t = .ok t') (p : List String) :
    bytesAt t' (destination ++ p) = archive.lastAt p := by
  have hnone : bytesAt t (destination ++ p) = none := by
    rw [bytesAt]
    by_cases hp : p = []
    · rw [hp, List.append_nil, hempty.rooted _ (List.prefix_refl _)]
    · rw [hempty.empty _ (List.prefix_append _ _) (by simpa using hp)]
  rw [addAll_bytesAt (safeExtract_ok hempty.rooted h), lastWritten_entries, hnone, Option.or_none]

end Extraction

section Main

variable {φ : Type} {host : Capability.Host} {py : Interpreter φ} {loads : Bytes → Except PyError (Value φ)}
  {archive : Archive} {inspection : Inspection φ} {destination : List String} {t t' : FileTree Bytes}

theorem verified_of_undisturbed (hinspect : inspectArchive py host loads archive = .ok inspection)
    (hempty : Vacant t destination) (hextract : safeExtract archive destination t = .ok t')
    (h : Undisturbed host py archive inspection) : Verified host py t t' destination inspection := by
  have hfile {name : String} (hname : IsDeclared inspection.manifest name) : endsWithSlash name = false := by
    rcases hname with rfl | rfl | ⟨descriptor, hdeclared⟩
    · decide
    · decide
    · exact h.files name descriptor hdeclared
  -- a declared name is that of a member, so that some member is the last at its location
  have hlast {name : String} (hname : IsDeclared inspection.manifest name) :
      ∃ content, archive.lastAt (location name) = some content := by
    obtain ⟨info, hinfo, rfl⟩ := mem_of_isDeclared hinspect hname
    exact Option.isSome_iff_exists.mp (lastAt_isSome.mpr ⟨info, hinfo, hfile hname, rfl⟩)
  constructor
  · rintro _ ⟨p, rfl⟩
    rw [safeExtract_bytesAt hempty hextract, lastAt_isSome]
    constructor
    · rintro ⟨info, hinfo, hslash, hplace⟩
      exact ⟨info.filename, isDeclared_of_mem hinspect hinfo hslash, by rw [hplace]⟩
    · rintro ⟨name, hname, hp⟩
      obtain ⟨info, hinfo, rfl⟩ := mem_of_isDeclared hinspect hname
      exact ⟨info, hinfo, hfile hname, (List.append_cancel_left hp).symm⟩
  · intro p hp
    refine addAll_frame (safeExtract_ok hempty.rooted hextract) hempty.rooted ?_ hp
    intro entry hentry
    obtain ⟨info, -, rfl⟩ := List.mem_map.mp hentry
    exact List.prefix_append _ _
  · intro path descriptor hdeclared
    obtain ⟨content, hcontent⟩ := hlast (.inr (.inr ⟨descriptor, hdeclared⟩))
    refine ⟨content, ?_, h.payload path descriptor hdeclared content hcontent⟩
    rw [safeExtract_bytesAt hempty hextract, hcontent]
  · obtain ⟨content, hcontent⟩ := hlast (.inl rfl)
    rw [safeExtract_bytesAt hempty hextract, hcontent, h.manifest content hcontent]

theorem undisturbed_of_verified (hinspect : inspectArchive py host loads archive = .ok inspection)
    (hempty : Vacant t destination) (hextract : safeExtract archive destination t = .ok t')
    (h : Verified host py t t' destination inspection) : Undisturbed host py archive inspection := by
  constructor
  · intro path descriptor hdeclared
    by_contra hslash
    rw [Bool.not_eq_false] at hslash
    have hname : IsDeclared inspection.manifest path := .inr (.inr ⟨descriptor, hdeclared⟩)
    obtain ⟨info, hinfo, rfl⟩ := mem_of_isDeclared hinspect hname
    have hthere := (h.regular _ (List.prefix_append destination (location info.filename))).mpr ⟨_, hname, rfl⟩
    have hmade := addAll_made (safeExtract_ok hempty.rooted hextract) (hempty.rooted [] List.nil_prefix)
      (List.mem_map_of_mem hinfo) (if_pos hslash)
    rw [bytesAt, show t' (destination ++ location info.filename) = _ from hmade] at hthere
    cases hthere
  · intro path descriptor hdeclared content hcontent
    obtain ⟨content', hcontent', hdescribed⟩ := h.payload path descriptor hdeclared
    rw [safeExtract_bytesAt hempty hextract, hcontent] at hcontent'
    cases hcontent'
    exact hdescribed
  · intro content hcontent
    have hmanifest := h.manifest
    rw [safeExtract_bytesAt hempty hextract, hcontent] at hmanifest
    exact Option.some.inj hmanifest

theorem verified_iff_undisturbed (hinspect : inspectArchive py host loads archive = .ok inspection)
    (hempty : Vacant t destination) (hextract : safeExtract archive destination t = .ok t') :
    Verified host py t t' destination inspection ↔ Undisturbed host py archive inspection := by
  constructor
  · exact undisturbed_of_verified hinspect hempty hextract
  · exact verified_of_undisturbed hinspect hempty hextract

end Main

section Sample

def unpackedManifest (paths : List String) (content : Bytes) : Value Empty :=
  .object [("entrypoint", .object [("type", .string "builtin"), ("value", .string "echo")]),
    ("id", .string "org.example.echo"), ("kind", .string "skill"), ("license", .object [("spdx", .string "MIT")]),
    ("payload", .array (paths.map fun path ↦ .object [("bytes", .number (.int content.length)), ("path", .string path),
      ("sha256", .string (sha256 .sample content))])),
    ("permissions", .array []), ("publisher", .object [("id", .string "publisher-1"), ("trustLevel", .string "community")]),
    ("schemaVersion", .string "4.0"), ("version", .string "1.0.0")]

def unpackedArchive (paths : List String) (content : Bytes) : Archive where
  members := [⟨"manifest.json", 0, canonicalJson integral (unpackedManifest paths content)⟩, ⟨"manifest.sig", 0, [1]⟩] ++
    paths.map fun path ↦ ⟨path, 0, content⟩
  bytes := [2]

def loadsIntegral (bytes : Bytes) : Except PyError (Value Empty) :=
  demand (loads integral bytes) (.valueError "Expecting value")

def vacantTree : FileTree Bytes := fun p ↦ if p <+: ["d"] then some .directory else none

theorem vacantTree_vacant : Vacant vacantTree ["d"] := by
  refine ⟨fun p hp ↦ if_pos hp, fun p hp hne ↦ if_neg fun habove ↦ hne ?_⟩
  exact habove.eq_of_length (le_antisymm habove.length_le hp.length_le)

theorem unpackedManifest_distinct (paths : List String) (content : Bytes) : (unpackedManifest paths content).Distinct := by
  simp only [unpackedManifest, Json.distinct_object, Json.distinct_array, List.map_cons, List.map_nil, List.forall_mem_cons,
    List.forall_mem_map]
  simp

theorem accepted {paths : List String} {content : Bytes} (hread : (unpackedArchive paths content).read "manifest.json" =
      .ok (canonicalJson integral (unpackedManifest paths content)))
    (h : ((inspectArchive integral .sample (fun _ ↦ .ok (Json.norm pointRank id (unpackedManifest paths content)))
      (unpackedArchive paths content)).isOk, (safeExtract (unpackedArchive paths content) ["d"] vacantTree).isOk) =
        (true, true)) :
    ∃ inspection t', inspectArchive integral .sample loadsIntegral (unpackedArchive paths content) = .ok inspection ∧
      safeExtract (unpackedArchive paths content) ["d"] vacantTree = .ok t' := by
  have hloads : inspectArchive integral .sample loadsIntegral (unpackedArchive paths content) = inspectArchive integral
      .sample (fun _ ↦ .ok (Json.norm pointRank id (unpackedManifest paths content))) (unpackedArchive paths content) := by
    simp only [inspectArchive, hread, Except.bind, bind, loadsIntegral,
      loads_canonicalJson (unpackedManifest_distinct paths content)]
    rfl
  rw [← hloads, Prod.mk.injEq] at h
  cases hinspect : inspectArchive integral .sample loadsIntegral (unpackedArchive paths content) with
  | error =>
    rw [hinspect] at h
    cases h.1
  | ok inspection =>
    cases hextract : safeExtract (unpackedArchive paths content) ["d"] vacantTree with
    | error =>
      rw [hextract] at h
      cases h.2
    | ok t' => exact ⟨inspection, t', rfl, rfl⟩

theorem verified_iff_undisturbed_one_file :
    ∃ inspection t', inspectArchive integral .sample loadsIntegral (unpackedArchive ["a.txt"] [7]) = .ok inspection ∧
      safeExtract (unpackedArchive ["a.txt"] [7]) ["d"] vacantTree = .ok t' ∧
      (Verified .sample integral vacantTree t' ["d"] inspection ↔
        Undisturbed .sample integral (unpackedArchive ["a.txt"] [7]) inspection) := by
  obtain ⟨inspection, t', hinspect, hextract⟩ := @accepted ["a.txt"] [7]
    (by simp [Archive.read, unpackedArchive, demand]) (by decide +kernel)
  exact ⟨inspection, t', hinspect, hextract, verified_iff_undisturbed hinspect vacantTree_vacant hextract⟩

/-- The manifest is spelt in two ways. -/
theorem manifest_overwritten :
    ∃ inspection t', inspectArchive integral .sample loadsIntegral (unpackedArchive ["./manifest.json"] [7]) = .ok inspection ∧
      safeExtract (unpackedArchive ["./manifest.json"] [7]) ["d"] vacantTree = .ok t' ∧
      ¬Verified .sample integral vacantTree t' ["d"] inspection := by
  obtain ⟨inspection, t', hinspect, hextract⟩ := @accepted ["./manifest.json"] [7]
    (by simp [Archive.read, unpackedArchive, demand]) (by decide +kernel)
  refine ⟨inspection, t', hinspect, hextract, fun h ↦ ?_⟩
  obtain ⟨-, -, -, hread, -⟩ := inspectArchive_ok hinspect
  have hlast : (unpackedArchive ["./manifest.json"] [7]).lastAt (location "manifest.json") = some [7] := by decide +kernel
  have hmanifest := h.manifest
  rw [safeExtract_bytesAt vacantTree_vacant hextract, hlast] at hmanifest
  rw [← Option.some.inj hmanifest] at hread
  have hbytes : (unpackedArchive ["./manifest.json"] [7]).read "manifest.json" ≠ .ok [7] := by decide +kernel
  exact hbytes hread

end Sample

end Noesar.Reference
