import Mathlib
import Noesar.Lib.Fallible
import Noesar.Lib.Occurrence
import Noesar.Verification.Claims

namespace Noesar.Verification

open Lib Lib.Utf16 Shadow
open Author (text)

variable {ν β : Type} (rt : Runtime ν β) {disk : Disk} (shadow : DiskShadow disk)

section Statements

def Leads (claim : Members ν) (p : List String) (bytes : List UInt8) : Prop :=
  ∃ s names, member claim "path" = some (.string s) ∧ contained shadow.root (pathOf s) = .ok names ∧
    '\x00' ∉ (pathOf s).toList ∧ disk.resolve names = .here p ∧ disk.get p = some (.file bytes)

def HasBytes (claim : Members ν) (bytes : List UInt8) : Prop := ∃ p, Leads shadow claim p bytes ∧ shadow.real <+: p

def LeadsNowhere (claim : Members ν) : Prop :=
  ∃ s names, member claim "path" = some (.string s) ∧ contained shadow.root (pathOf s) = .ok names ∧
    ∀ p, disk.resolve names ≠ .here p

def ownPath (v : Json Units ν) (keys : List Units) : Option (Json Units ν) := keys.foldlM field v

/-- The file is a text of the format that has the claimed value at the claimed field path. -/
def HasField (claim : Members ν) (bytes : List UInt8) : Prop :=
  ∃ cs parsed path v, bytes = Utf8.encode cs ∧ Json.parse ⟨some, rt.read, none⟩ cs = some parsed ∧
    member claim "field" = some (.string path) ∧ ownPath parsed (path.splitOn dot) = some v ∧
    (member claim "value").isSome = true ∧ strictEquals rt (.json v) (member claim "value") = true

@[mk_iff] structure Holds (claim : Members ν) (type : String) : Prop where
  file_exists : type = "file_exists" → ∃ bytes, HasBytes shadow claim bytes
  file_absent : type = "file_absent" → LeadsNowhere shadow claim
  file_equals : type = "file_equals" → ∃ cs, HasBytes shadow claim (Utf8.encode cs) ∧
    member claim "value" = some (.string (encode cs))
  file_contains : type = "file_contains" → ∃ bytes cs, HasBytes shadow claim bytes ∧
    member claim "value" = some (.string (encode cs)) ∧ Utf8.encode cs <:+: bytes
  file_hash_equals : type = "file_hash_equals" → ∃ bytes, HasBytes shadow claim bytes ∧
    member claim "value" = some (.string (rt.sha256 bytes))
  json_field_equals : type = "json_field_equals" → ∃ bytes, HasBytes shadow claim bytes ∧ HasField rt claim bytes

def Warranted (claim : Json Units ν) (verdict : Verdict ν) : Prop :=
  verdict.recomputed = some (.bool true) → ∃ members type, claim = .object members ∧
    member members "type" = some (.string (text type)) ∧ type ∈ supportedClaimTypes ∧
    (verdict.isMatch = some (.bool true) → Holds rt shadow members type)

/-- The results fall into those that matched, those contradicted and those not recomputed. -/
def Partitioned (results : List (Result ν)) (coverage : Coverage ν) : Prop :=
  ∃ matched contradicted unrecomputed : List (Result ν), (matched ++ contradicted ++ unrecomputed).Perm results ∧
    (∀ r ∈ matched, truthy rt r.verdict.recomputed = true ∧ truthy rt r.verdict.isMatch = true) ∧
    (∀ r ∈ contradicted, truthy rt r.verdict.recomputed = true ∧ truthy rt r.verdict.isMatch = false) ∧
    (∀ r ∈ unrecomputed, truthy rt r.verdict.recomputed = false) ∧ coverage.total = results.length ∧
    coverage.matched = matched.length ∧
    coverage.contradicted = contradicted.map (fun r ↦ (r.claim, r.verdict.reason)) ∧
    coverage.unrecomputed = unrecomputed.map fun r ↦ (r.claim, r.verdict.reason)

/-- The claims are all answered, in order, with no more than is so, and counted right. -/
def Verified (claims : List (Json Units ν)) : Prop :=
  ∃ results, verifyClaims rt disk shadow.root claims = .ok results ∧
    List.Forall₂ (fun claim r ↦ r.claim = claim ∧ Warranted rt shadow claim r.verdict) claims results ∧
    Partitioned rt results (projectionCoverage rt results)

def Valid (bytes : List UInt8) : Prop := Utf8.encode (Utf8.decode bytes) = bytes

/-- What keeps a claim of a type from being answered wrong: it is not of a type that every object inherits, a file it
leads to and that matches lies in the shadow and is a text, a value looked for in a text is a string, and the field path
leads from member to member. -/
@[mk_iff] structure Sturdy (claim : Members ν) (type : Units) : Prop where
  called : type ∉ inheritedNames.map text
  forged : type = text "constructor" → member claim "recomputed" ≠ some (.bool true)
  file_exists : type = text "file_exists" → ∀ p bytes, Leads shadow claim p bytes → shadow.real <+: p
  file_equals : type = text "file_equals" → ∀ p bytes, Leads shadow claim p bytes →
    member claim "value" = some (.string (encode (Utf8.decode bytes))) → shadow.real <+: p ∧ Valid bytes
  file_contains : type = text "file_contains" → ∀ p bytes, Leads shadow claim p bytes →
    ∃ s, toText rt (member claim "value") = .ok s ∧ (s <:+: encode (Utf8.decode bytes) →
      shadow.real <+: p ∧ member claim "value" = some (.string s) ∧
      ∃ cs, s = encode cs ∧ (Valid bytes ∨ Utf8.replacement ∉ cs ∨ Utf8.encode cs <:+: bytes))
  file_hash_equals : type = text "file_hash_equals" → ∀ p bytes, Leads shadow claim p bytes →
    member claim "value" = some (.string (rt.sha256 (Utf8.encode (Utf8.decode bytes)))) →
    shadow.real <+: p ∧ rt.sha256 (Utf8.encode (Utf8.decode bytes)) = rt.sha256 bytes
  json_field_equals : type = text "json_field_equals" → ∀ p bytes, Leads shadow claim p bytes →
    ∀ parsed, Json.parse ⟨some, rt.read, none⟩ (Utf8.decode bytes) = some parsed →
    ∃ path, member claim "field" = some (.string path) ∧
      (ownPath parsed (path.splitOn dot) = none → ∃ actual,
        (path.splitOn dot).foldlM (get rt) (.json parsed) = .ok actual ∧
        strictEquals rt actual (member claim "value") = false) ∧
      ∀ v, ownPath parsed (path.splitOn dot) = some v → strictEquals rt (.json v) (member claim "value") = true →
        shadow.real <+: p ∧ Valid bytes

end Statements

variable {rt shadow} {claim : Members ν}

section Reading

theorem Leads.unique {p p' : List String} {bytes bytes' : List UInt8} (h : Leads shadow claim p bytes)
    (h' : Leads shadow claim p' bytes') : p = p' ∧ bytes = bytes' := by
  obtain ⟨s, names, hs, hnames, -, hp, hbytes⟩ := h
  obtain ⟨s', names', hs', hnames', -, hp', hbytes'⟩ := h'
  cases hs.symm.trans hs'
  cases hnames.symm.trans hnames'
  cases hp.symm.trans hp'
  cases hbytes.symm.trans hbytes'
  exact ⟨rfl, rfl⟩

theorem readShadowFile_cases (claim : Members ν) :
    (∃ p bytes, Leads shadow claim p bytes ∧
      readShadowFile rt disk shadow.root (member claim "path") = .content (Utf8.decode bytes)) ∨
    (∀ p bytes, ¬Leads shadow claim p bytes) ∧
      ((∃ reason, readShadowFile rt disk shadow.root (member claim "path") = .refused reason) ∨
        LeadsNowhere shadow claim ∧ readShadowFile rt disk shadow.root (member claim "path") = .absent) := by
  by_cases hpath : ∃ s, member claim "path" = some (.string s)
  · obtain ⟨s, hs⟩ := hpath
    have hunleads (h : ∀ names p bytes, contained shadow.root (pathOf s) = .ok names → '\x00' ∉ (pathOf s).toList →
        disk.resolve names = .here p → disk.get p ≠ some (.file bytes)) : ∀ p bytes, ¬Leads shadow claim p bytes := by
      rintro p bytes ⟨s', names, hs', hnames, hnul, hp, hbytes⟩
      cases hs.symm.trans hs'
      exact h names p bytes hnames hnul hp hbytes
    rw [hs]
    dsimp only [readShadowFile]
    cases hnames : contained shadow.root (pathOf s) with
    | error =>
      refine .inr ⟨hunleads fun names p bytes h ↦ ?_, .inl ⟨_, rfl⟩⟩
      rw [hnames] at h
      cases h
    | ok names =>
      have hfile (h : ∀ p bytes, disk.resolve names = .here p → disk.get p ≠ some (.file bytes)) :
          ∀ p bytes, ¬Leads shadow claim p bytes := by
        refine hunleads fun names' p bytes hnames' _ ↦ ?_
        cases hnames.symm.trans hnames'
        exact h p bytes
      dsimp only
      by_cases hnul : '\x00' ∈ (pathOf s).toList
      · rw [if_pos hnul]
        exact .inr ⟨hunleads fun _ _ _ _ h ↦ absurd hnul h, .inl ⟨_, rfl⟩⟩
      rw [if_neg hnul]
      cases hresolve : disk.resolve names with
      | here p =>
        have hnot (h : ∀ bytes, disk.get p ≠ some (.file bytes)) : ∀ p bytes, ¬Leads shadow claim p bytes := by
          refine hfile fun p' bytes hp' ↦ ?_
          cases hresolve.symm.trans hp'
          exact h bytes
        dsimp only
        cases hget : disk.get p with
        | none => exact .inr ⟨hnot fun bytes h ↦ (by rw [hget] at h; cases h), .inl ⟨_, rfl⟩⟩
        | some node =>
          cases node with
          | file bytes => exact .inl ⟨p, bytes, ⟨s, names, hs, hnames, hnul, hresolve, hget⟩, rfl⟩
          | directory | link => exact .inr ⟨hnot fun bytes h ↦ (by rw [hget] at h; cases h), .inl ⟨_, rfl⟩⟩
      | missing =>
        refine .inr ⟨hfile fun p' bytes hp' ↦ ?_, .inr ⟨⟨s, names, hs, hnames, fun p' hp' ↦ ?_⟩, rfl⟩⟩
        · cases hresolve.symm.trans hp'
        · cases hresolve.symm.trans hp'
      | blocked | follow =>
        refine .inr ⟨hfile fun p' bytes hp' ↦ ?_, .inl ⟨_, rfl⟩⟩
        cases hresolve.symm.trans hp'
  · refine .inr ⟨?_, .inl ⟨text "a path is required", ?_⟩⟩
    · rintro p bytes ⟨s, names, hs, -⟩
      exact hpath ⟨s, hs⟩
    · unfold readShadowFile
      split
      next s hs => exact absurd ⟨s, hs⟩ hpath
      next => rfl

def Good (outcome : Except Thrown (Verdict ν)) (fact : Prop) : Prop :=
  ∃ verdict, outcome = .ok verdict ∧
    (verdict.recomputed = some (.bool true) → verdict.isMatch = some (.bool true) → fact)

theorem good_ok {verdict : Verdict ν} {fact : Prop} : Good (.ok verdict) fact ↔
    (verdict.recomputed = some (.bool true) → verdict.isMatch = some (.bool true) → fact) := by
  constructor
  · rintro ⟨_, h, hfact⟩
    cases h
    exact hfact
  · intro h
    exact ⟨verdict, rfl, h⟩

theorem good_error {thrown : Thrown} {fact : Prop} : ¬Good (ν := ν) (.error thrown) fact := by
  rintro ⟨_, h, -⟩
  cases h

theorem good_unrecomputed {reason : Units} {fact : Prop} : Good (ν := ν) (.ok (unrecomputed reason)) fact :=
  good_ok.mpr fun h ↦ by cases h

theorem good_recomputed {isMatch : Bool} {reason : Option Units} {fact : Prop} :
    Good (ν := ν) (.ok (recomputed isMatch reason)) fact ↔ (isMatch = true → fact) := by
  rw [good_ok]
  constructor
  · intro h hmatch
    exact h rfl (by rw [hmatch]; rfl)
  · intro h _ hmatch
    exact h (by simpa [recomputed] using hmatch)

theorem good_withContent {check : List Char → Except Thrown (Verdict ν)} {fact : Prop} :
    Good (withContent rt disk shadow.root claim check) fact ↔
      ∀ p bytes, Leads shadow claim p bytes → Good (check (Utf8.decode bytes)) fact := by
  unfold withContent
  rcases @readShadowFile_cases ν β rt disk shadow claim with ⟨p, bytes, hleads, hread⟩ | ⟨hnone, hread⟩
  · rw [hread]
    constructor
    · intro h p' bytes' hleads'
      obtain ⟨-, rfl⟩ := hleads.unique hleads'
      exact h
    · intro h
      exact h p bytes hleads
  · refine iff_of_true ?_ fun p bytes hleads ↦ absurd hleads (hnone p bytes)
    rcases hread with ⟨reason, hread⟩ | ⟨-, hread⟩
    · rw [hread]
      exact good_unrecomputed
    · rw [hread]
      exact good_recomputed.mpr nofun

end Reading

section Verifiers

theorem hasBytes_iff {p : List String} {bytes bytes' : List UInt8} (h : Leads shadow claim p bytes) :
    HasBytes shadow claim bytes' ↔ shadow.real <+: p ∧ bytes' = bytes := by
  constructor
  · rintro ⟨p', hleads, hreal⟩
    obtain ⟨rfl, rfl⟩ := h.unique hleads
    exact ⟨hreal, rfl⟩
  · rintro ⟨hreal, rfl⟩
    exact ⟨p, h, hreal⟩

theorem fileExists_good : Good (fileExists rt disk shadow.root claim) (∃ bytes, HasBytes shadow claim bytes) ↔
    ∀ p bytes, Leads shadow claim p bytes → shadow.real <+: p := by
  unfold fileExists
  rcases @readShadowFile_cases ν β rt disk shadow claim with ⟨p, bytes, hleads, hread⟩ | ⟨hnone, hread⟩
  · rw [hread]
    dsimp only
    rw [good_recomputed, imp_iff_right rfl]
    constructor
    · rintro ⟨bytes', hbytes⟩ p' bytes'' hleads'
      obtain ⟨rfl, -⟩ := hleads.unique hleads'
      exact ((hasBytes_iff hleads).mp hbytes).1
    · intro h
      exact ⟨bytes, p, hleads, h p bytes hleads⟩
  · refine iff_of_true ?_ fun p bytes hleads ↦ absurd hleads (hnone p bytes)
    rcases hread with ⟨reason, hread⟩ | ⟨-, hread⟩
    · rw [hread]
      exact good_unrecomputed
    · rw [hread]
      exact good_recomputed.mpr nofun

theorem fileAbsent_good : Good (fileAbsent rt disk shadow.root claim) (LeadsNowhere shadow claim) := by
  unfold fileAbsent
  rcases @readShadowFile_cases ν β rt disk shadow claim with ⟨p, bytes, -, hread⟩ | ⟨-, ⟨reason, hread⟩ | ⟨hnowhere, hread⟩⟩
  · rw [hread]
    exact good_recomputed.mpr nofun
  · rw [hread]
    exact good_unrecomputed
  · rw [hread]
    exact good_recomputed.mpr fun _ ↦ hnowhere

theorem strictEquals_string {s : Units} {value : Option (Json Units ν)} :
    strictEquals rt (.json (.string s)) value = true ↔ value = some (.string s) := by
  cases value with
  | none => exact iff_of_false nofun nofun
  | some v =>
    cases v with
    | string t =>
      change decide (s = t) = true ↔ _
      rw [decide_eq_true_eq]
      simp [eq_comm]
    | null | bool b | number n | array items | object members => exact iff_of_false nofun nofun

theorem valid_encode (cs : List Char) : Utf8.decode (Utf8.encode cs) = cs := by
  have h := Utf8.decode_encode_append cs []
  rw [List.append_nil] at h
  rw [h]
  exact List.append_nil cs

theorem fileEquals_good : Good (fileEquals rt disk shadow.root claim)
      (∃ cs, HasBytes shadow claim (Utf8.encode cs) ∧ member claim "value" = some (.string (encode cs))) ↔
    ∀ p bytes, Leads shadow claim p bytes → member claim "value" = some (.string (encode (Utf8.decode bytes))) →
      shadow.real <+: p ∧ Valid bytes := by
  unfold fileEquals
  rw [good_withContent]
  refine forall₃_congr fun p bytes hleads ↦ ?_
  rw [good_recomputed, strictEquals_string]
  refine imp_congr_right fun hvalue ↦ ?_
  constructor
  · rintro ⟨cs, hbytes, -⟩
    obtain ⟨hreal, rfl⟩ := (hasBytes_iff hleads).mp hbytes
    exact ⟨hreal, by rw [Valid, valid_encode]⟩
  · rintro ⟨hreal, hvalid⟩
    exact ⟨Utf8.decode bytes, (hasBytes_iff hleads).mpr ⟨hreal, hvalid⟩, hvalue⟩

theorem fileContains_good : Good (fileContains rt disk shadow.root claim)
      (∃ bytes cs, HasBytes shadow claim bytes ∧ member claim "value" = some (.string (encode cs)) ∧ Utf8.encode cs <:+: bytes) ↔
    ∀ p bytes, Leads shadow claim p bytes →
      ∃ s, toText rt (member claim "value") = .ok s ∧ (s <:+: encode (Utf8.decode bytes) →
        shadow.real <+: p ∧ member claim "value" = some (.string s) ∧
        ∃ cs, s = encode cs ∧ (Valid bytes ∨ Utf8.replacement ∉ cs ∨ Utf8.encode cs <:+: bytes)) := by
  unfold fileContains
  rw [good_withContent]
  refine forall₃_congr fun p bytes hleads ↦ ?_
  cases htext : toText rt (member claim "value") with
  | error =>
    refine iff_of_false good_error ?_
    rintro ⟨s, hs, -⟩
    cases hs
  | ok s =>
    rw [Except.map, good_recomputed, decide_eq_true_eq]
    constructor
    · intro h
      refine ⟨s, rfl, fun hin ↦ ?_⟩
      obtain ⟨bytes', cs, hbytes, hvalue, hinside⟩ := h hin
      obtain ⟨hreal, rfl⟩ := (hasBytes_iff hleads).mp hbytes
      have hs : s = encode cs := by
        rw [hvalue] at htext
        cases htext
        rfl
      exact ⟨hreal, hs ▸ hvalue, cs, hs, .inr (.inr hinside)⟩
    · rintro ⟨s', hs', h⟩ hin
      cases hs'
      obtain ⟨hreal, hvalue, cs, rfl, hcs⟩ := h hin
      refine ⟨bytes, cs, (hasBytes_iff hleads).mpr ⟨hreal, rfl⟩, hvalue, ?_⟩
      have hchars := infix_of_encode hin
      rcases hcs with hvalid | hreplacement | hinside
      · rw [← hvalid]
        obtain ⟨before, after, hsplit⟩ := hchars
        refine ⟨Utf8.encode before, Utf8.encode after, ?_⟩
        rw [← hsplit, Utf8.encode, Utf8.encode, Utf8.encode, Utf8.encode, List.flatMap_append, List.flatMap_append]
      · exact Utf8.infix_of_decode hchars hreplacement
      · exact hinside

theorem fileHashEquals_good : Good (fileHashEquals rt disk shadow.root claim)
      (∃ bytes, HasBytes shadow claim bytes ∧ member claim "value" = some (.string (rt.sha256 bytes))) ↔
    ∀ p bytes, Leads shadow claim p bytes →
      member claim "value" = some (.string (rt.sha256 (Utf8.encode (Utf8.decode bytes)))) →
      shadow.real <+: p ∧ rt.sha256 (Utf8.encode (Utf8.decode bytes)) = rt.sha256 bytes := by
  unfold fileHashEquals
  rw [good_withContent]
  refine forall₃_congr fun p bytes hleads ↦ ?_
  dsimp only
  by_cases hvalue : member claim "value" = some (.string (rt.sha256 (Utf8.encode (Utf8.decode bytes))))
  · rw [if_pos (strictEquals_string.mpr hvalue), good_recomputed, imp_iff_right rfl, imp_iff_right hvalue]
    constructor
    · rintro ⟨bytes', hbytes, hvalue'⟩
      obtain ⟨hreal, rfl⟩ := (hasBytes_iff hleads).mp hbytes
      rw [hvalue] at hvalue'
      exact ⟨hreal, by simpa using hvalue'⟩
    · rintro ⟨hreal, hdigest⟩
      exact ⟨bytes, (hasBytes_iff hleads).mpr ⟨hreal, rfl⟩, hdigest ▸ hvalue⟩
  · rw [if_neg fun h ↦ hvalue (strictEquals_string.mp h)]
    exact iff_of_true (good_recomputed.mpr nofun) fun h ↦ absurd h hvalue

theorem get_field {v u : Json Units ν} {key : Units} (h : field v key = some u) : get rt (.json v) key = .ok (.json u) := by
  cases v with
  | null | bool b | number n | string s => cases h
  | array items =>
    have hown : ownProperty rt (.array items) key = some (.json u) := by
      unfold ownProperty
      rw [h]
    simp only [get, hown]
  | object members =>
    have hown : ownProperty rt (.object members) key = some (.json u) := by
      unfold ownProperty
      rw [h]
    simp only [get, hown]

theorem follow_ownPath {keys : List Units} {v u : Json Units ν} (h : ownPath v keys = some u) :
    keys.foldlM (get rt) (.json v) = .ok (.json u) := by
  induction keys generalizing v with
  | nil =>
    cases h
    rfl
  | cons key keys ih =>
    rw [ownPath, List.foldlM_cons] at h
    obtain ⟨w, hw, h⟩ := Option.bind_eq_some_iff.mp h
    rw [List.foldlM_cons, get_field hw]
    exact ih h

theorem strictEquals_none (v : Json Units ν) : strictEquals rt (.json v) none = false := by
  cases v <;> rfl

theorem jsonFieldEquals_good : Good (jsonFieldEquals rt disk shadow.root claim)
      (∃ bytes, HasBytes shadow claim bytes ∧ HasField rt claim bytes) ↔
    ∀ p bytes, Leads shadow claim p bytes →
      ∀ parsed, Json.parse ⟨some, rt.read, none⟩ (Utf8.decode bytes) = some parsed →
      ∃ path, member claim "field" = some (.string path) ∧
        (ownPath parsed (path.splitOn dot) = none → ∃ actual,
          (path.splitOn dot).foldlM (get rt) (.json parsed) = .ok actual ∧
          strictEquals rt actual (member claim "value") = false) ∧
        ∀ v, ownPath parsed (path.splitOn dot) = some v → strictEquals rt (.json v) (member claim "value") = true →
          shadow.real <+: p ∧ Valid bytes := by
  unfold jsonFieldEquals
  rw [good_withContent]
  refine forall₃_congr fun p bytes hleads ↦ ?_
  cases hparse : Json.parse ⟨some, rt.read, none⟩ (Utf8.decode bytes) with
  | none => exact iff_of_true good_unrecomputed nofun
  | some parsed =>
    dsimp only
    have hverdict (actual : Item ν β) (fact : Prop) :
        Good (.ok (if strictEquals rt actual (member claim "value") then (recomputed true none : Verdict ν)
          else recomputed false (some (text "recomputed field is " ++ rt.stringify actual)))) fact ↔
        (strictEquals rt actual (member claim "value") = true → fact) := by
      split_ifs with hequal
      · rw [good_recomputed, imp_iff_right rfl, imp_iff_right hequal]
      · exact iff_of_true (good_recomputed.mpr nofun) fun h ↦ absurd h hequal
    by_cases hpath : ∃ path, member claim "field" = some (.string path)
    · obtain ⟨path, hpath⟩ := hpath
      have hwalk : getJsonPath rt parsed (member claim "field") = (path.splitOn dot).foldlM (get rt) (.json parsed) := by
        rw [hpath]
        rfl
      have hfact : (∃ bytes, HasBytes shadow claim bytes ∧ HasField rt claim bytes) ↔
          shadow.real <+: p ∧ Valid bytes ∧ ∃ v, ownPath parsed (path.splitOn dot) = some v ∧
            strictEquals rt (.json v) (member claim "value") = true := by
        constructor
        · rintro ⟨bytes', hbytes, cs, parsed', path', v, hcs, hparsed', hpath', hv, -, hequal⟩
          obtain ⟨hreal, rfl⟩ := (hasBytes_iff hleads).mp hbytes
          rw [hcs, valid_encode, hparsed'] at hparse
          cases hparse
          cases hpath.symm.trans hpath'
          exact ⟨hreal, by rw [Valid, hcs, valid_encode], v, hv, hequal⟩
        · rintro ⟨hreal, hvalid, v, hv, hequal⟩
          refine ⟨bytes, (hasBytes_iff hleads).mpr ⟨hreal, rfl⟩, Utf8.decode bytes, parsed, path, v, hvalid.symm, hparse,
            hpath, hv, ?_, hequal⟩
          cases hvalue : member claim "value" with
          | none =>
            rw [hvalue, strictEquals_none] at hequal
            cases hequal
          | some => rfl
      rw [hwalk, hfact]
      cases hown : ownPath parsed (path.splitOn dot) with
      | some v =>
        rw [follow_ownPath hown, Except.map, hverdict]
        constructor
        · intro h parsed' hparsed'
          cases hparsed'
          refine ⟨path, hpath, fun hnone ↦ (by rw [hown] at hnone; cases hnone), fun v' hv' hequal ↦ ?_⟩
          rw [hown] at hv'
          cases hv'
          obtain ⟨hreal, hvalid, -⟩ := h hequal
          exact ⟨hreal, hvalid⟩
        · intro h hequal
          obtain ⟨path', hpath', -, hfound⟩ := h parsed rfl
          cases hpath.symm.trans hpath'
          obtain ⟨hreal, hvalid⟩ := hfound v hown hequal
          exact ⟨hreal, hvalid, v, rfl, hequal⟩
      | none =>
        have hno : ¬∃ v, (none : Option (Json Units ν)) = some v ∧ strictEquals rt (.json v) (member claim "value") = true := by
          rintro ⟨v, hv, -⟩
          cases hv
        constructor
        · intro h parsed' hparsed'
          cases hparsed'
          refine ⟨path, hpath, fun _ ↦ ?_, fun v hv ↦ (by rw [hown] at hv; cases hv)⟩
          cases hactual : (path.splitOn dot).foldlM (get rt) (.json parsed) with
          | error =>
            rw [hactual] at h
            exact absurd h good_error
          | ok actual =>
            rw [hactual, Except.map, hverdict] at h
            refine ⟨actual, rfl, ?_⟩
            rw [← Bool.not_eq_true]
            exact fun hequal ↦ hno (h hequal).2.2
        · intro h
          obtain ⟨path', hpath', hmissed, -⟩ := h parsed rfl
          cases hpath.symm.trans hpath'
          obtain ⟨actual, hactual, hunequal⟩ := hmissed hown
          rw [hactual, Except.map, hverdict]
          intro hequal
          rw [hunequal] at hequal
          cases hequal
    · have hwalk : getJsonPath rt parsed (member claim "field") = .error .typeError := by
        unfold getJsonPath
        split
        next path hfield => exact absurd ⟨path, hfield⟩ hpath
        next => rfl
      rw [hwalk]
      refine iff_of_false good_error fun h ↦ ?_
      obtain ⟨path, hfield, -⟩ := h parsed rfl
      exact hpath ⟨path, hfield⟩

end Verifiers

end Noesar.Verification
