import Mathlib
import Noesar.Canonical.Encoding
import Noesar.Lib.Conversion
import Noesar.Lib.Lists
import Noesar.Lib.Utf8
import Noesar.Workspace.Codec

namespace Noesar.Workspace.RunStore

open Lib Lib.Utf16 Lib.Framing
open Author (text)
open Canonical (unitRank mapM_ok)

abbrev Document := Json Units Number

abbrev Directory := InsertionMap Units Bytes

/-- `document.name`, where the document is not `null` -/
def memberOf (name : String) : Document → Option Document
  | .object members => InsertionMap.lookup (text name) members
  | _ => none

def whole (us : Units) : String := String.ofList ((points us).map (Sum.elim id fun _ ↦ Utf8.replacement))

/-- `Number(value)`, which throws where an object cannot be shown. -/
def toNumber (ns : Numerals) : Option Document → Except Thrown Number
  | none => .ok .nan
  | some v => (JsonValue.asNumber ns (v.map whole id)).mapError fun _ ↦ .other "TypeError"

/-- `n || 0`, as the place of the number among the numbers -/
def timeOf (n : Number) : WithBot (WithTop ℚ) := n.position.getD ((0 : WithTop ℚ) : WithBot (WithTop ℚ))

def isJson (name : Units) : Bool := (text ".json").isSuffixOf name

structure Candidate where
  name : Units
  runId : Option Document
  savedAtUnix : WithBot (WithTop ℚ)

/-- What `prune` makes of one file. -/
inductive Verdict
  | damaged
  | shielded
  | candidate (c : Candidate)

def Verdict.candidate? : Verdict → Option Candidate
  | candidate c => some c
  | damaged | shielded => none

def Verdict.isDamaged : Verdict → Bool
  | damaged => true
  | shielded | candidate _ => false

def Verdict.isShielded : Verdict → Bool
  | shielded => true
  | damaged | candidate _ => false

/-- `protectedRunIds.has(runId)` -/
def isProtected (protectedRunIds : List Units) : Option Document → Bool
  | some (.string id) => id ∈ protectedRunIds
  | _ => false

/-- The order of the candidates: by what they say of their time, and by name where that is the same. -/
def recency (c : Candidate) : Lex (WithBot (WithTop ℚ) × List ℕ) := toLex (c.savedAtUnix, unitRank c.name)

structure PruneResult where
  removed : List (Option Document)
  kept : ℕ
  protectedCount : ℕ
  damagedSkipped : ℕ

section

variable {δ : Type} (platform : Platform Number δ) (ns : Numerals) (protectedRunIds : List Units)

def judge (file : Units × Bytes) : Except Thrown Verdict :=
  match parse platform (Utf8.decode file.2) with
  | none => .ok .damaged
  | some .null => typeError
  | some document =>
    if isProtected protectedRunIds (memberOf "runId" document) then .ok .shielded
    else (toNumber ns (memberOf "savedAtUnix" document)).map fun n ↦
      .candidate ⟨file.1, memberOf "runId" document, timeOf n⟩

/-- The result, and what is left in the directory. `keep` has passed its check, which is for a whole number. -/
def prune (keep : ℕ) (files : Directory) : Except Thrown (PruneResult × Directory) := do
  let verdicts ← (files.entries.filter fun file ↦ isJson file.1).mapM (judge platform ns protectedRunIds)
  let candidates := verdicts.filterMap Verdict.candidate?
  let victims := Selection.others recency keep candidates
  return (⟨victims.map Candidate.runId, min candidates.length keep, verdicts.countP Verdict.isShielded,
    verdicts.countP Verdict.isDamaged⟩, victims.foldl (fun files victim ↦ files.delete victim.name) files)

def idUnit (u : UInt16) : Bool := (Char.ofNat u.toNat).isAlphanum || u ∈ text "._-"

/-- What `fileNameFor` lets pass. -/
def storableId (id : Units) : Bool := id ≠ [] && id.all idUnit && id ≠ text "." && id ≠ text ".."

/-- The id and the time of a document as `save` writes it. -/
def completeRun (document : Document) : Option (Units × Binary64) :=
  match memberOf "version" document, memberOf "runId" document, memberOf "savedAtUnix" document, memberOf "run" document with
  | some (.number version), some (.string id), some (.number (.finite saved)), some _ =>
    if version = .ofRat 1 ∧ storableId id then some (id, saved) else none
  | _, _, _, _ => none

/-- The run that a file holds, where it is a `.json` file with a complete run document. -/
def runOf (file : Units × Bytes) : Option (Units × Binary64) :=
  if isJson file.1 then (parse platform (Utf8.decode file.2)).bind completeRun else none

def unprotectedRun (file : Units × Bytes) : Bool := (runOf platform file).any fun run ↦ run.1 ∉ protectedRunIds

def unprotectedRuns (files : Directory) : List (Units × Bytes) :=
  files.entries.filter (unprotectedRun platform protectedRunIds)

end

section Claim

variable {δ : Type} (platform : Platform Number δ) (ns : Numerals) (protectedRunIds : List Units)

structure Pruned (keep : ℕ) (files files' : Directory) (result : PruneResult) : Prop where
  unchanged : files'.entries.Sublist files.entries
  safe : ∀ file ∈ files.entries, file ∉ files'.entries → unprotectedRun platform protectedRunIds file = true
  exact : (unprotectedRuns platform protectedRunIds files').length =
    min keep (unprotectedRuns platform protectedRunIds files).length
  newest : ∀ file ∈ files.entries, file ∉ files'.entries → ∀ other ∈ unprotectedRuns platform protectedRunIds files',
    ∀ run ∈ runOf platform file, ∀ newer ∈ runOf platform other, run.2.val ≤ newer.2.val
  removed : result.removed.length + files'.entries.length = files.entries.length
  counted : result.removed.length + result.kept + result.protectedCount + result.damagedSkipped =
    files.entries.countP fun file ↦ isJson file.1
  damaged : result.damagedSkipped =
    files.entries.countP fun file ↦ isJson file.1 && (parse platform (Utf8.decode file.2)).isNone
  shielded : result.protectedCount = files.entries.countP fun file ↦
    isJson file.1 && (parse platform (Utf8.decode file.2)).any fun document ↦
      isProtected protectedRunIds (memberOf "runId" document)

def PrunesOnly (keep : ℕ) (files : Directory) : Prop := ∃ result files',
  prune platform ns protectedRunIds keep files = .ok (result, files') ∧
    Pruned platform protectedRunIds keep files files' result

def isCandidate (file : Units × Bytes) : Bool :=
  isJson file.1 && (parse platform (Utf8.decode file.2)).any fun document ↦
    !isProtected protectedRunIds (memberOf "runId" document)

/-- No `.json` file holds `null`, and the time of each one that is not protected can be taken for a number. -/
def Judgeable (files : Directory) : Prop := ∀ file ∈ files.entries, isJson file.1 = true → ∀ document,
  parse platform (Utf8.decode file.2) = some document → document ≠ .null ∧
    (isProtected protectedRunIds (memberOf "runId" document) = false →
      ∃ n, toNumber ns (memberOf "savedAtUnix" document) = .ok n)

variable {platform ns protectedRunIds} {files : Directory} {file : Units × Bytes}

theorem judge_ok_iff : (∃ verdict, judge platform ns protectedRunIds file = .ok verdict) ↔ ∀ document,
    parse platform (Utf8.decode file.2) = some document → document ≠ .null ∧
      (isProtected protectedRunIds (memberOf "runId" document) = false →
        ∃ n, toNumber ns (memberOf "savedAtUnix" document) = .ok n) := by
  unfold judge
  cases parse platform (Utf8.decode file.2) with
  | none => simp
  | some document =>
    cases document with
    | null => simp [typeError]
    | _ =>
      simp only [Option.some.injEq, forall_eq', ne_eq, reduceCtorEq, not_false_eq_true, true_and]
      split
      · rename_i hprotected
        simp [hprotected]
      · rename_i hprotected
        simp only [map_ok, Bool.not_eq_true] at hprotected ⊢
        simp only [hprotected, true_implies]
        constructor
        · intro ⟨_, n, hn, _⟩
          exact ⟨n, hn⟩
        · intro ⟨n, hn⟩
          exact ⟨_, n, hn, rfl⟩

structure Judged (platform : Platform Number δ) (protectedRunIds : List Units) (file : Units × Bytes) (verdict : Verdict) : Prop where
  damaged : verdict.isDamaged = (parse platform (Utf8.decode file.2)).isNone
  shielded : verdict.isShielded = (parse platform (Utf8.decode file.2)).any fun document ↦
    isProtected protectedRunIds (memberOf "runId" document)
  candidate : verdict.candidate?.isSome = (parse platform (Utf8.decode file.2)).any fun document ↦
    !isProtected protectedRunIds (memberOf "runId" document)
  named : ∀ c, verdict.candidate? = some c → c.name = file.1
  time : ∀ c, verdict.candidate? = some c → ∀ document, parse platform (Utf8.decode file.2) = some document →
    ∀ saved, memberOf "savedAtUnix" document = some (.number (.finite saved)) →
    c.savedAtUnix = ((saved.val : WithTop ℚ) : WithBot (WithTop ℚ))

theorem toNumber_number (n : Number) : toNumber ns (some (.number n)) = .ok n := rfl

theorem judged {verdict : Verdict} (h : judge platform ns protectedRunIds file = .ok verdict) :
    Judged platform protectedRunIds file verdict := by
  unfold judge at h
  cases hparse : parse platform (Utf8.decode file.2) with
  | none =>
    rw [hparse] at h
    obtain rfl := Except.ok.inj h
    exact ⟨by simp [hparse, Verdict.isDamaged], by simp [hparse, Verdict.isShielded],
      by simp [hparse, Verdict.candidate?], by simp [Verdict.candidate?], by simp [Verdict.candidate?]⟩
  | some document =>
    have hcase : (if isProtected protectedRunIds (memberOf "runId" document) then .ok .shielded
        else (toNumber ns (memberOf "savedAtUnix" document)).map fun n ↦
          Verdict.candidate ⟨file.1, memberOf "runId" document, timeOf n⟩) = Except.ok verdict := by
      rw [hparse] at h
      cases document with
      | null => cases h
      | _ => exact h
    split at hcase
    · rename_i hprotected
      obtain rfl := Except.ok.inj hcase
      exact ⟨by simp [hparse, Verdict.isDamaged], by simp [hparse, Verdict.isShielded, hprotected],
        by simp [hparse, Verdict.candidate?, hprotected], by simp [Verdict.candidate?], by simp [Verdict.candidate?]⟩
    · rename_i hprotected
      rw [Bool.not_eq_true] at hprotected
      obtain ⟨n, hn, rfl⟩ := map_ok.mp hcase
      refine ⟨by simp [hparse, Verdict.isDamaged], by simp [hparse, Verdict.isShielded, hprotected],
        by simp [hparse, Verdict.candidate?, hprotected], ?_, ?_⟩
      · intro c hc
        obtain rfl := Option.some.inj hc
        rfl
      · intro c hc document' hdocument saved hsaved
        obtain rfl := Option.some.inj hc
        obtain rfl := Option.some.inj (hparse.symm.trans hdocument)
        rw [hsaved, toNumber_number] at hn
        obtain rfl := Except.ok.inj hn
        rfl

def verdictOf (platform : Platform Number δ) (ns : Numerals) (protectedRunIds : List Units) (file : Units × Bytes) : Verdict :=
  match judge platform ns protectedRunIds file with
  | .ok verdict => verdict
  | .error _ => .damaged

def candidates (platform : Platform Number δ) (ns : Numerals) (protectedRunIds : List Units) (files : Directory) :
    List Candidate :=
  ((files.entries.filter fun file ↦ isJson file.1).map (verdictOf platform ns protectedRunIds)).filterMap Verdict.candidate?

def victimNames (platform : Platform Number δ) (ns : Numerals) (protectedRunIds : List Units) (keep : ℕ) (files : Directory) :
    List Units :=
  (Selection.others recency keep (candidates platform ns protectedRunIds files)).map Candidate.name

theorem judged_of_judgeable (h : Judgeable platform ns protectedRunIds files) (hfile : file ∈ files.entries)
    (hjson : isJson file.1 = true) : Judged platform protectedRunIds file
      (verdictOf platform ns protectedRunIds file) ∧
      judge platform ns protectedRunIds file = .ok (verdictOf platform ns protectedRunIds file) := by
  obtain ⟨verdict, hverdict⟩ := judge_ok_iff.mpr (h file hfile hjson)
  have heq : verdictOf platform ns protectedRunIds file = verdict := by rw [verdictOf, hverdict]
  rw [heq]
  exact ⟨judged hverdict, hverdict⟩

theorem savedAt_of_completeRun {document : Document} {run : Units × Binary64} (h : completeRun document = some run) :
    memberOf "savedAtUnix" document = some (.number (.finite run.2)) := by
  unfold completeRun at h
  split at h
  · rename_i hsaved _
    split at h
    · obtain rfl := Option.some.inj h
      exact hsaved
    · cases h
  · cases h

theorem id_of_completeRun {document : Document} {run : Units × Binary64} (h : completeRun document = some run) :
    memberOf "runId" document = some (.string run.1) := by
  unfold completeRun at h
  split at h
  · rename_i hid _ _
    split at h
    · obtain rfl := Option.some.inj h
      exact hid
    · cases h
  · cases h

theorem isCandidate_of_unprotectedRun (h : unprotectedRun platform protectedRunIds file = true) :
    isCandidate platform protectedRunIds file = true := by
  obtain ⟨run, hrun, hid⟩ := (Option.any_eq_true _ _).mp h
  unfold runOf at hrun
  split at hrun
  · rename_i hjson
    obtain ⟨document, hparse, hrun⟩ := Option.bind_eq_some_iff.mp hrun
    simpa [isCandidate, hjson, hparse, id_of_completeRun hrun, isProtected] using hid
  · cases hrun

variable {α : Type} {keep : ℕ}

theorem countP_split {p q r s : α → Bool} (h : ∀ a, (p a).toNat + (q a).toNat + (r a).toNat = (s a).toNat)
    (xs : List α) : xs.countP p + xs.countP q + xs.countP r = xs.countP s := by
  induction xs with
  | nil => rfl
  | cons x xs =>
    have hcount (f : α → Bool) : (x :: xs).countP f = xs.countP f + (f x).toNat := by
      cases hx : f x <;> simp [hx]
    have hx := h x
    simp only [hcount]
    omega

theorem count_json (platform : Platform Number δ) (protectedRunIds : List Units) (entries : List (Units × Bytes)) : entries.countP (isCandidate platform protectedRunIds) +
    (entries.countP fun file ↦ isJson file.1 && (parse platform (Utf8.decode file.2)).any fun document ↦
      isProtected protectedRunIds (memberOf "runId" document)) +
    (entries.countP fun file ↦ isJson file.1 && (parse platform (Utf8.decode file.2)).isNone) =
      entries.countP fun file ↦ isJson file.1 := by
  apply countP_split
  intro file
  unfold isCandidate
  cases isJson file.1 with
  | false => rfl
  | true =>
    cases parse platform (Utf8.decode file.2) with
    | none => rfl
    | some document => cases hprotected : isProtected protectedRunIds (memberOf "runId" document) <;> simp [hprotected]

theorem length_filter_not_mem {entries : List (Units × Bytes)} {names : List Units} (hentries : (entries.map Prod.fst).Nodup)
    (hnames : names.Nodup) (hsub : names ⊆ entries.map Prod.fst) :
    (entries.filter fun file ↦ file.1 ∉ names).length + names.length = entries.length := by
  have hperm : ((entries.map Prod.fst).filter fun name ↦ name ∈ names).Perm names := by
    rw [List.perm_ext_iff_of_nodup (hentries.filter _) hnames]
    intro name
    simp only [List.mem_filter, decide_eq_true_eq, and_iff_right_iff_imp]
    exact fun hname ↦ hsub hname
  have hlength : (entries.filter fun file ↦ file.1 ∈ names).length = names.length := by
    rw [← hperm.length_eq, List.filter_map, List.length_map]
    rfl
  have hsplit := List.length_eq_countP_add_countP (fun file : Units × Bytes ↦ decide (file.1 ∈ names)) (l := entries)
  rw [List.countP_eq_length_filter, List.countP_eq_length_filter, hlength] at hsplit
  have hnot : (fun file : Units × Bytes ↦ !decide (file.1 ∈ names)) = fun file ↦ decide (file.1 ∉ names) := by
    funext file
    rw [decide_not]
  simp only [decide_eq_true_eq] at hsplit
  omega

theorem deleteAll_entries (name : α → Units) (victims : List α) (files : Directory) :
    (victims.foldl (fun files victim ↦ files.delete (name victim)) files).entries =
      files.entries.filter fun file ↦ file.1 ∉ victims.map name := by
  induction victims generalizing files with
  | nil => simp
  | cons victim victims ih =>
    rw [List.foldl_cons, ih, InsertionMap.delete, List.filter_filter]
    apply List.filter_congr
    intro file _
    rw [← Bool.decide_and]
    simp only [List.map_cons, List.mem_cons, not_or, and_comm, ne_eq]

theorem prune_eq (keep : ℕ) (h : Judgeable platform ns protectedRunIds files) : ∃ files',
    prune platform ns protectedRunIds keep files = .ok (⟨(Selection.others recency keep
        (candidates platform ns protectedRunIds files)).map Candidate.runId,
      min (candidates platform ns protectedRunIds files).length keep,
      files.entries.countP fun file ↦ isJson file.1 && (parse platform (Utf8.decode file.2)).any fun document ↦
        isProtected protectedRunIds (memberOf "runId" document),
      files.entries.countP fun file ↦ isJson file.1 && (parse platform (Utf8.decode file.2)).isNone⟩, files') ∧
    files'.entries = files.entries.filter fun file ↦ file.1 ∉ victimNames platform ns protectedRunIds keep files := by
  have hverdicts : (files.entries.filter fun file ↦ isJson file.1).mapM (judge platform ns protectedRunIds) =
      .ok ((files.entries.filter fun file ↦ isJson file.1).map (verdictOf platform ns protectedRunIds)) := by
    apply mapM_ok
    intro file hfile
    rw [List.mem_filter] at hfile
    exact (judged_of_judgeable h hfile.1 hfile.2).2
  have hshielded : ((files.entries.filter fun file ↦ isJson file.1).map (verdictOf platform ns protectedRunIds)).countP
      Verdict.isShielded = files.entries.countP fun file ↦ isJson file.1 &&
        (parse platform (Utf8.decode file.2)).any fun document ↦ isProtected protectedRunIds (memberOf "runId" document) := by
    rw [List.countP_map, List.countP_filter]
    apply List.countP_congr
    intro file hfile
    cases hjson : isJson file.1 with
    | false => simp
    | true => simp [(judged_of_judgeable h hfile hjson).1.shielded]
  have hdamaged : ((files.entries.filter fun file ↦ isJson file.1).map (verdictOf platform ns protectedRunIds)).countP
      Verdict.isDamaged = files.entries.countP fun file ↦ isJson file.1 && (parse platform (Utf8.decode file.2)).isNone := by
    rw [List.countP_map, List.countP_filter]
    apply List.countP_congr
    intro file hfile
    cases hjson : isJson file.1 with
    | false => simp
    | true => simp [(judged_of_judgeable h hfile hjson).1.damaged]
  refine ⟨_, ?_, deleteAll_entries Candidate.name _ files⟩
  rw [prune, hverdicts, ← hshielded, ← hdamaged]
  rfl

theorem candidate_names (h : Judgeable platform ns protectedRunIds files) :
    (candidates platform ns protectedRunIds files).map Candidate.name =
      (files.entries.filter (isCandidate platform protectedRunIds)).map Prod.fst := by
  have hcandidate : ∀ file ∈ files.entries, isJson file.1 = true →
      (verdictOf platform ns protectedRunIds file).candidate?.map Candidate.name =
        if isCandidate platform protectedRunIds file then some file.1 else none := by
    intro file hfile hjson
    have hjudged := (judged_of_judgeable h hfile hjson).1
    have hsome := hjudged.candidate
    cases hc : (verdictOf platform ns protectedRunIds file).candidate? with
    | none =>
      rw [hc] at hsome
      simp [isCandidate, hjson, ← hsome]
    | some c =>
      rw [hc] at hsome
      simp [isCandidate, hjson, ← hsome, hjudged.named c hc]
  rw [candidates, List.map_filterMap, List.filterMap_map, List.filterMap_filter, ← List.filterMap_eq_map,
    List.filterMap_filter]
  apply List.filterMap_congr
  intro file hfile
  cases hjson : isJson file.1 with
  | false => simp [isCandidate, hjson]
  | true => simpa using hcandidate file hfile hjson

theorem candidate_of (h : Judgeable platform ns protectedRunIds files) (hfile : file ∈ files.entries)
    (hcandidate : isCandidate platform protectedRunIds file = true) :
    ∃ c ∈ candidates platform ns protectedRunIds files, c.name = file.1 ∧
      ∀ run ∈ runOf platform file, c.savedAtUnix = ((run.2.val : WithTop ℚ) : WithBot (WithTop ℚ)) := by
  obtain ⟨hjson, hdocument⟩ := Bool.and_eq_true_iff.mp hcandidate
  have hjudged := (judged_of_judgeable h hfile hjson).1
  obtain ⟨c, hc⟩ := Option.isSome_iff_exists.mp (hjudged.candidate.trans hdocument)
  refine ⟨c, ?_, hjudged.named c hc, ?_⟩
  · rw [candidates, List.mem_filterMap]
    exact ⟨_, List.mem_map_of_mem (List.mem_filter.mpr ⟨hfile, hjson⟩), hc⟩
  · intro run hrun
    rw [runOf, if_pos hjson] at hrun
    obtain ⟨document, hparse, hrun⟩ := Option.bind_eq_some_iff.mp hrun
    exact hjudged.time c hc document hparse run.2 (savedAt_of_completeRun hrun)

theorem names_nodup (h : Judgeable platform ns protectedRunIds files) :
    ((candidates platform ns protectedRunIds files).map Candidate.name).Nodup := by
  rw [candidate_names h]
  exact files.nodup.sublist (List.filter_sublist.map _)

theorem victimNames_spec (keep : ℕ) (h : Judgeable platform ns protectedRunIds files) :
    (victimNames platform ns protectedRunIds keep files).Nodup ∧
      victimNames platform ns protectedRunIds keep files ⊆
        (files.entries.filter (isCandidate platform protectedRunIds)).map Prod.fst ∧
      (victimNames platform ns protectedRunIds keep files).length =
        (files.entries.filter (isCandidate platform protectedRunIds)).length - keep := by
  have hranked := (Selection.ranked_perm recency (candidates platform ns protectedRunIds files)).map Candidate.name
  refine ⟨(hranked.nodup_iff.mpr (names_nodup h)).sublist ((List.drop_sublist keep _).map _), ?_, ?_⟩
  · rw [← candidate_names h]
    intro name hname
    obtain ⟨c, hc, rfl⟩ := List.mem_map.mp hname
    exact List.mem_map_of_mem (Selection.mem_of_others hc)
  · rw [victimNames, List.length_map, Selection.length_others]
    have hlength := congrArg List.length (candidate_names h)
    simp only [List.length_map] at hlength
    omega

theorem eq_of_name (hfile : file ∈ files.entries) {other : Units × Bytes} (hother : other ∈ files.entries)
    (hname : file.1 = other.1) : file = other :=
  List.inj_on_of_nodup_map files.nodup hfile hother hname

theorem isCandidate_of_removed (h : Judgeable platform ns protectedRunIds files) (hfile : file ∈ files.entries)
    (hremoved : file.1 ∈ victimNames platform ns protectedRunIds keep files) :
    isCandidate platform protectedRunIds file = true := by
  obtain ⟨other, hother, hname⟩ := List.mem_map.mp ((victimNames_spec keep h).2.1 hremoved)
  rw [List.mem_filter] at hother
  rw [← eq_of_name hother.1 hfile hname]
  exact hother.2

theorem removed_le_kept {other : Units × Bytes} (h : Judgeable platform ns protectedRunIds files)
    (hfile : file ∈ files.entries) (hremoved : file.1 ∈ victimNames platform ns protectedRunIds keep files)
    (hother : other ∈ files.entries) (hkept : other.1 ∉ victimNames platform ns protectedRunIds keep files)
    (hcandidate : isCandidate platform protectedRunIds other = true) :
    ∀ run ∈ runOf platform file, ∀ newer ∈ runOf platform other, run.2.val ≤ newer.2.val := by
  intro run hrun newer hnewer
  obtain ⟨c, hc, hcname, hctime⟩ := candidate_of h hfile (isCandidate_of_removed h hfile hremoved)
  obtain ⟨d, hd, hdname, hdtime⟩ := candidate_of h hother hcandidate
  have hcothers : c ∈ Selection.others recency keep (candidates platform ns protectedRunIds files) := by
    obtain ⟨c', hc', hname⟩ := List.mem_map.mp hremoved
    rwa [← List.inj_on_of_nodup_map (names_nodup h) (Selection.mem_of_others hc') hc (hname.trans hcname.symm)]
  have hdbest : d ∈ Selection.best recency keep (candidates platform ns protectedRunIds files) := by
    have hsplit : d ∈ Selection.best recency keep _ ∨ d ∈ Selection.others recency keep _ := Selection.mem_best_or_others.mp hd
    rcases hsplit with hbest | hothers
    · exact hbest
    · exact absurd (hdname ▸ List.mem_map_of_mem hothers) hkept
  have hle : c.savedAtUnix ≤ d.savedAtUnix := by
    have hrecency : recency c ≤ recency d := Selection.others_le_best hcothers hdbest
    rcases Prod.Lex.toLex_le_toLex.mp hrecency with hlt | heq
    · exact hlt.le
    · exact heq.1.le
  rw [hctime run hrun, hdtime newer hnewer] at hle
  exact_mod_cast hle

theorem judgeable_of_prune {outcome : PruneResult × Directory}
    (h : prune platform ns protectedRunIds keep files = .ok outcome) : Judgeable platform ns protectedRunIds files := by
  intro file hfile hjson
  obtain ⟨verdicts, hverdicts, _⟩ := bind_ok.mp h
  have hmem : file ∈ files.entries.filter fun file ↦ isJson file.1 := List.mem_filter.mpr ⟨hfile, hjson⟩
  obtain ⟨verdict, _, hverdict⟩ := ok_of_mapM_ok hverdicts hmem
  exact judge_ok_iff.mp ⟨verdict, hverdict⟩

theorem prunesOnly_of (h : Judgeable platform ns protectedRunIds files)
    (hsafe : ∀ file ∈ files.entries, file.1 ∈ victimNames platform ns protectedRunIds keep files →
      unprotectedRun platform protectedRunIds file = true)
    (hexact : (files.entries.filter fun file ↦ unprotectedRun platform protectedRunIds file ∧
        file.1 ∉ victimNames platform ns protectedRunIds keep files).length =
      min keep (unprotectedRuns platform protectedRunIds files).length) :
    PrunesOnly platform ns protectedRunIds keep files := by
  obtain ⟨files', hprune, hentries⟩ := prune_eq keep h
  have hspec := victimNames_spec keep h
  have hlength := length_filter_not_mem files.nodup hspec.1
    (List.Subset.trans hspec.2.1 (List.map_subset _ (List.filter_subset_self _)))
  have hremoved : ∀ file ∈ files.entries, file ∉ files'.entries →
      file.1 ∈ victimNames platform ns protectedRunIds keep files := by
    intro file hfile hnot
    rw [hentries, List.mem_filter] at hnot
    simpa [hfile] using hnot
  have hcandidates := congrArg List.length (candidate_names h)
  rw [List.length_map, List.length_map] at hcandidates
  have hvictims : ((Selection.others recency keep (candidates platform ns protectedRunIds files)).map Candidate.runId).length =
      (victimNames platform ns protectedRunIds keep files).length := by
    simp [victimNames]
  refine ⟨_, files', hprune, ?_⟩
  constructor
  case unchanged =>
    rw [hentries]
    exact List.filter_sublist
  case safe =>
    intro file hfile hnot
    exact hsafe file hfile (hremoved file hfile hnot)
  case exact =>
    rw [← hexact, unprotectedRuns, hentries, List.filter_filter]
    simp only [Bool.decide_and, Bool.decide_eq_true]
  case newest =>
    intro file hfile hnot other hother
    obtain ⟨hother, hrun⟩ := List.mem_filter.mp hother
    rw [hentries, List.mem_filter, decide_eq_true_eq] at hother
    exact removed_le_kept h hfile (hremoved file hfile hnot) hother.1 hother.2 (isCandidate_of_unprotectedRun hrun)
  case removed =>
    rw [hvictims, hentries]
    omega
  case counted =>
    have hcount := count_json platform protectedRunIds files.entries
    rw [List.countP_eq_length_filter] at hcount
    simp only [hvictims, hspec.2.2]
    omega
  case damaged => rfl
  case shielded => rfl

def keptCandidates (platform : Platform Number δ) (ns : Numerals) (protectedRunIds : List Units) (keep : ℕ) (files : Directory) :
    List (Units × Bytes) :=
  files.entries.filter fun file ↦ isCandidate platform protectedRunIds file ∧
    file.1 ∉ victimNames platform ns protectedRunIds keep files

theorem length_keptCandidates (keep : ℕ) (h : Judgeable platform ns protectedRunIds files) :
    (keptCandidates platform ns protectedRunIds keep files).length =
      min keep (files.entries.filter (isCandidate platform protectedRunIds)).length := by
  have hspec := victimNames_spec keep h
  have hlength := length_filter_not_mem (files.nodup.sublist (List.filter_sublist.map _)) hspec.1 hspec.2.1
  rw [List.filter_filter] at hlength
  have heq : keptCandidates platform ns protectedRunIds keep files =
      files.entries.filter fun file ↦ decide (file.1 ∉ victimNames platform ns protectedRunIds keep files) &&
        isCandidate platform protectedRunIds file := by
    simp only [keptCandidates, Bool.decide_and, Bool.decide_eq_true, Bool.and_comm]
  rw [heq]
  omega

theorem length_lt_of_sublist {a : α} {xs ys : List α} (h : xs.Sublist ys) (hy : a ∈ ys) (hx : a ∉ xs) :
    xs.length < ys.length := by
  by_contra hge
  rw [not_lt] at hge
  exact hx ((h.eq_of_length_le hge).symm ▸ hy)

/-- Pruning does what it may and no more exactly where no `.json` file holds `null` and the time of each unprotected
document is one that `Number` takes, and where the candidates are complete runs or are too few to lose one. -/
theorem prunes_only_iff (keep : ℕ) (files : Directory) : PrunesOnly platform ns protectedRunIds keep files ↔
    Judgeable platform ns protectedRunIds files ∧
      ((∀ file ∈ files.entries, isCandidate platform protectedRunIds file = true →
          unprotectedRun platform protectedRunIds file = true) ∨
        (files.entries.filter (isCandidate platform protectedRunIds)).length ≤ keep) := by
  constructor
  · intro ⟨result, files', hprune, hpruned⟩
    have hjudgeable := judgeable_of_prune hprune
    refine ⟨hjudgeable, ?_⟩
    obtain ⟨other', hprune', hentries⟩ := prune_eq keep hjudgeable
    obtain rfl : files' = other' := (Prod.mk.inj (Except.ok.inj (hprune.symm.trans hprune'))).2
    have hspec := victimNames_spec keep hjudgeable
    by_contra hneither
    rw [not_or] at hneither
    obtain ⟨hsome, hmany⟩ := hneither
    push Not at hsome hmany
    obtain ⟨foreign, hforeign, hcandidate, hnotrun⟩ := hsome
    -- what is left of the runs is less than the candidates that are left, for one of these is no run
    have hleft : (unprotectedRuns platform protectedRunIds files').length < keep := by
      have hforeign' : foreign ∈ files'.entries := by
        by_contra hremoved
        exact hnotrun (hpruned.safe foreign hforeign hremoved)
      have hsub : (unprotectedRuns platform protectedRunIds files').Sublist
          (keptCandidates platform ns protectedRunIds keep files) := by
        rw [unprotectedRuns, hentries, List.filter_filter, keptCandidates]
        apply List.monotone_filter_right
        intro file hfile
        rw [Bool.and_eq_true_iff, decide_eq_true_eq] at hfile
        exact decide_eq_true ⟨isCandidate_of_unprotectedRun hfile.1, hfile.2⟩
      have hmem : foreign ∈ keptCandidates platform ns protectedRunIds keep files := by
        rw [hentries, List.mem_filter, decide_eq_true_eq] at hforeign'
        exact List.mem_filter.mpr ⟨hforeign, decide_eq_true ⟨hcandidate, hforeign'.2⟩⟩
      have hlt := length_lt_of_sublist hsub hmem fun hrun ↦ hnotrun (List.mem_filter.mp hrun).2
      rw [length_keptCandidates keep hjudgeable] at hlt
      omega
    -- and less than the runs there were, for one of them is removed
    have hlost : (unprotectedRuns platform protectedRunIds files').length <
        (unprotectedRuns platform protectedRunIds files).length := by
      obtain ⟨name, hname⟩ : ∃ name, name ∈ victimNames platform ns protectedRunIds keep files := by
        apply List.exists_mem_of_length_pos
        rw [hspec.2.2]
        omega
      obtain ⟨file, hfile, rfl⟩ := List.mem_map.mp (hspec.2.1 hname)
      rw [List.mem_filter] at hfile
      have hremoved : file ∉ files'.entries := by
        rw [hentries, List.mem_filter, decide_eq_true_eq]
        exact fun hkept ↦ hkept.2 hname
      exact length_lt_of_sublist (hpruned.unchanged.filter _)
        (List.mem_filter.mpr ⟨hfile.1, hpruned.safe file hfile.1 hremoved⟩)
        fun hrun ↦ hremoved (List.mem_filter.mp hrun).1
    have hexact := hpruned.exact
    omega
  · intro ⟨hjudgeable, hcase⟩
    have hspec := victimNames_spec keep hjudgeable
    rcases hcase with hall | hfew
    · apply prunesOnly_of hjudgeable
      · intro file hfile hremoved
        exact hall file hfile (isCandidate_of_removed hjudgeable hfile hremoved)
      · have hsame : ∀ file ∈ files.entries,
            unprotectedRun platform protectedRunIds file = isCandidate platform protectedRunIds file := by
          intro file hfile
          rw [Bool.eq_iff_iff]
          exact ⟨isCandidate_of_unprotectedRun, hall file hfile⟩
        rw [unprotectedRuns, List.filter_congr hsame, ← length_keptCandidates keep hjudgeable, keptCandidates]
        congr 1
        apply List.filter_congr
        intro file hfile
        rw [hsame file hfile]
    · have hnone : victimNames platform ns protectedRunIds keep files = [] := by
        rw [← List.length_eq_zero_iff, hspec.2.2]
        omega
      apply prunesOnly_of hjudgeable
      · intro file _ hremoved
        rw [hnone] at hremoved
        cases hremoved
      · have hle : (unprotectedRuns platform protectedRunIds files).length ≤
            (files.entries.filter (isCandidate platform protectedRunIds)).length :=
          (List.monotone_filter_right _ fun file ↦ isCandidate_of_unprotectedRun).length_le
        simp only [hnone, List.not_mem_nil, not_false_eq_true, and_true, Bool.decide_eq_true]
        rw [← unprotectedRuns]
        omega

end Claim

section Sample

def zeroOnly : Platform Number Unit where
  finite n := n.position.isSome
  shown _ := text "0"
  write _ := ['0']
  read cs := if cs = ['0'] then some .zero else none
  same n m := n = m
  toISOString _ := some (text "1970-01-01T00:00:00.000Z")
  negativeZero _ := false
  zero := .zero
  date _ := ()
  buffer _ := .ok []
  display _ := .ok (text "[object Object]")

def zeroNumerals : Numerals := ⟨fun _ ↦ "0", fun t ↦ if t = "0" ∨ t = "" then .zero else .nan⟩

def holding (name t : String) : Directory := ⟨[(text name, Utf8.encode t.toList)], List.nodup_singleton _⟩

/-- A file that holds `null` makes pruning throw, and one that holds some other document is removed. -/
theorem foreign_documents : ¬PrunesOnly zeroOnly zeroNumerals [] 500 (holding "a.json" "null") ∧
    ¬PrunesOnly zeroOnly zeroNumerals [] 0 (holding "a.json" "{}") := by
  constructor
  · intro ⟨result, files', hprune, _⟩
    have htext : Utf8.decode (Utf8.encode "null".toList) = "null".toList := by decide +kernel
    have hparse : parse zeroOnly (Utf8.decode (Utf8.encode "null".toList)) = some .null := by
      rw [htext]
      rfl
    exact (judgeable_of_prune hprune _ List.mem_cons_self (by decide) .null hparse).1 rfl
  · intro ⟨result, files', hprune, hpruned⟩
    have hempty : files'.entries = [] := by
      have hleft : (prune zeroOnly zeroNumerals [] 0 (holding "a.json" "{}")).map (fun outcome ↦ outcome.2.entries) = .ok [] := by
        decide +kernel
      rw [hprune] at hleft
      exact Except.ok.inj hleft
    have hrun := hpruned.safe _ List.mem_cons_self (hempty ▸ List.not_mem_nil)
    revert hrun
    decide +kernel

end Sample

end Noesar.Workspace.RunStore
