import Noesar.Author.Author
import Noesar.Capability.Isolation
import Noesar.Lib.Fallible

namespace Noesar.Author

open Lib Lib.Utf16

variable {ν : Type} {host : Host ν} {model : Option Units} {task : Task} {file : File} {turn : Turn ν}
  {files : List (File × Turn ν)}

/-- What the generator answers about a file, shown all of it or an excerpt, unless it refuses. -/
def Turn.answer (turn : Turn ν) (contents : Contents) : Option (Answer ν) :=
  match turn.first with
  | .answered answer => some answer
  | .threw (.refused refusal) =>
    if refusal.code ≠ "CONTEXT_EXCEEDED" then none
    else
      match turn.narrowing with
      | .error _ => none
      | .ok (keep, _) =>
        match keep.map (renderKept contents.orEmpty) with
        | none | some [] => none
        | some _ =>
          match turn.second with
          | .answered answer => some answer
          | .threw _ => none
  | .threw _ => none

def Turn.viewed (turn : Turn ν) (contents : Contents) : Contents × Bool :=
  match turn.first with
  | .threw (.refused refusal) =>
    if refusal.code ≠ "CONTEXT_EXCEEDED" then (contents, false)
    else
      match turn.narrowing with
      | .ok (some keep, _) =>
        match renderKept contents.orEmpty keep with
        | [] => (contents, false)
        | view => (.given view, true)
      | _ => (contents, false)
  | _ => (contents, false)

/-- A checked answer that names paths, and nothing else that is not blank. What is left of it goes
into the file. -/
def Hollow (answer : Answer ν) (left : Units) : Prop :=
  ∃ o contents, answer.structured = some (o, contents) ∧ ¬Blank contents ∧
    Blank (unlines (stripDirectives (lines contents)).2) ∧ left = terminated (unlines (stripDirectives (lines contents)).2)

/-- The result is about the files that were handed in, each of them once, and deletes none. -/
structure Closed (files : List (File × Turn ν)) (result : Authored ν) : Prop where
  partition : (result.contents.keys ++ result.unchanged ++ result.refusals.map Prod.fst).Perm
    (files.map fun entry ↦ entry.1.path)
  notBlank : ∀ path body, result.contents.get path = some body → ¬Blank body
  differs : ∀ entry ∈ files, ∀ body, result.contents.get entry.1.path = some body → entry.1.contents ≠ .given body
  fixtures : result.fixtures.map Fixture.path = files.map fun entry ↦ entry.1.path
  calls : result.calls.map Call.path = files.map fun entry ↦ entry.1.path

theorem ask_ok {asked : Asked ν} (h : ask task file turn = .ok asked) :
    asked.prompt =
      buildAuthoringPrompt task file.path (turn.viewed file.contents).1 (turn.viewed file.contents).2 ∧
    (match asked.answer with
      | .ok answer => some answer
      | .error _ => none) = turn.answer file.contents := by
  generalize hshown : buildAuthoringPrompt task file.path = build at h ⊢
  unfold ask at h
  rw [hshown] at h
  unfold Turn.viewed Turn.answer
  cases hfirst : turn.first with
  | answered =>
    rw [hfirst] at h
    cases h
    exact ⟨rfl, rfl⟩
  | threw thrown =>
    rw [hfirst] at h
    cases thrown with
    | unavailable | other => cases h
    | refused =>
      dsimp only at h ⊢
      split_ifs at h ⊢ with hcode
      · cases h
        exact ⟨rfl, rfl⟩
      · cases hnarrow : turn.narrowing with
        | error =>
          rw [hnarrow] at h
          cases h
        | ok r =>
          obtain ⟨keep, excerpt⟩ := r
          rw [hnarrow] at h
          cases keep with
          | none =>
            cases h
            exact ⟨rfl, rfl⟩
          | some keep =>
            dsimp only [Option.map_some] at h ⊢
            cases hview : renderKept file.contents.orEmpty keep with
            | nil =>
              rw [hview] at h
              cases h
              exact ⟨rfl, rfl⟩
            | cons =>
              rw [hview] at h
              dsimp only at h ⊢
              cases hsecond : turn.second with
              | answered =>
                rw [hsecond] at h
                cases h
                exact ⟨rfl, rfl⟩
              | threw thrown =>
                rw [hsecond] at h
                cases thrown with
                | refused =>
                  cases h
                  exact ⟨rfl, rfl⟩
                | unavailable | other => cases h

variable {path : Units} {extracted : Extracted ν} {write : ν → List Char} {members : Members ν} {contents : Units}

theorem extractBody_ok {answer : Units} (h : extractBody answer path = .ok extracted) :
    ¬Blank extracted.body := by
  unfold extractBody at h
  split at h
  · cases h
  next block _ =>
    dsimp only at h
    split_ifs at h with hblank
    · cases h
    cases h
    exact fun hb ↦ hblank (trim_eq_nil.mpr (blank_of_terminated hb))
  · cases h

theorem blank_terminated {body : Units} (h : Blank body) : Blank (terminated body) := by
  rcases terminated_cases body with hbody | hbody
  · rwa [hbody]
  · rw [hbody]
    intro u hu
    rcases List.mem_append.mp hu with hu | hu
    · exact h u hu
    · cases List.mem_singleton.mp hu
      rfl

section

variable (hcontents : InsertionMap.lookup (text "contents") members = some (.string contents))

include hcontents

theorem normaliseAuthored_eq (h : trim contents ≠ []) : normaliseAuthored write (.object members) path = (spread
    (InsertionMap.lookup (text "discardedPaths") members)).map fun claimed ↦ ⟨terminated (unlines (stripDirectives
    (lines contents)).2), claimed ++ (stripDirectives (lines contents)).1.map .string⟩ := by
  have hproperty : property "contents" (.object members) = .ok (some (.string contents)) := by
    rw [property, hcontents]
  have hbody : asString write (some (.string contents)) = contents := rfl
  unfold normaliseAuthored
  rw [hproperty]
  dsimp only [bind, Except.bind]
  rw [hbody, if_neg h, property]
  dsimp only
  cases spread (InsertionMap.lookup (text "discardedPaths") members) with
  | error | ok => rfl

theorem normaliseAuthored_blank (h : trim contents = []) : normaliseAuthored write (.object members) path = refuse
    "EMPTY" (text "the provider returned an empty file, which is a deletion asked for as a write") path := by
  have hproperty : property "contents" (.object members) = .ok (some (.string contents)) := by
    rw [property, hcontents]
  have hbody : asString write (some (.string contents)) = contents := rfl
  unfold normaliseAuthored
  rw [hproperty]
  dsimp only [bind, Except.bind]
  rw [hbody, if_pos h]

theorem normaliseAuthored_ok (h : normaliseAuthored write (.object members) path = .ok extracted) : ¬Blank contents ∧
    extracted.body = terminated (unlines (stripDirectives (lines contents)).2) := by
  by_cases hblank : trim contents = []
  · rw [normaliseAuthored_blank hcontents hblank] at h
    cases h
  · rw [normaliseAuthored_eq hcontents hblank] at h
    obtain ⟨claimed, -, he⟩ := map_ok.mp h
    rw [← he]
    exact ⟨fun hb ↦ hblank (trim_eq_nil.mpr hb), rfl⟩

end

theorem spread_error {value : Option (Json Units ν)} {thrown : Thrown} (h : spread value = .error thrown) :
    thrown = .other (text "TypeError") := by
  unfold spread at h
  split at h
  all_goals cases h
  rfl

theorem structured_some {answer : Answer ν} {o : AnswerObject ν} (h : answer.structured = some (o, contents)) :
    answer = .object o ∧ InsertionMap.lookup (text "contents") o.members = some (.string contents) := by
  unfold Answer.structured at h
  split at h
  next o' =>
    split at h
    next contents' hlookup =>
      cases h
      exact ⟨rfl, hlookup⟩
    · cases h
  · cases h

theorem extract_blank {answer : Answer ν} (h : extract host file answer = .ok extracted) :
    Blank extracted.body ↔ Hollow answer extracted.body := by
  unfold extract at h
  cases hstructured : answer.structured with
  | some r =>
    obtain ⟨o, contents⟩ := r
    rw [hstructured] at h
    obtain ⟨hblank, hbody⟩ := normaliseAuthored_ok (structured_some hstructured).2 h
    constructor
    · intro hb
      refine ⟨o, contents, hstructured, hblank, ?_, hbody⟩
      rw [hbody] at hb
      exact blank_of_terminated hb
    · rintro ⟨o', contents', hstructured', -, hb, -⟩
      cases hstructured.symm.trans hstructured'
      rw [hbody]
      exact blank_terminated hb
  | none =>
    rw [hstructured] at h
    have hnot : ¬Blank extracted.body := by
      dsimp only at h
      split_ifs at h with hediting
      · cases happly : (applyEditBlocks answer.string file.contents.orEmpty file.path : Except Thrown (Applied ν)) with
        | error =>
          rw [happly] at h
          cases h
        | ok =>
          rw [happly] at h
          cases h
          obtain ⟨edits, discarded, body, -, -, hblank, hbody⟩ := applyEditBlocks_ok happly
          rw [hbody]
          exact fun hb ↦ hblank (blank_of_terminated hb)
      · exact extractBody_ok h
    constructor
    · exact fun hb ↦ absurd hb hnot
    · rintro ⟨o, contents, hstructured', -⟩
      rw [hstructured] at hstructured'
      cases hstructured'

/-- What one file comes to: it is refused, left as it was, or written. -/
inductive Came (host : Host ν) (file : File) (turn : Turn ν) (piece : Piece ν) : Prop
  | refused (refusal : Refusal) (h : piece.fixture.refusal = some refusal) (hwritten : piece.written = none)
      (houtcome : piece.fixture.outcome = .refused)
      (hleft : ∀ answer, turn.answer file.contents = some answer →
        ∃ refusal, extract host file answer = .error (.refused refusal))
  | unchanged (answer : Answer ν) (extracted : Extracted ν) (hanswer : turn.answer file.contents = some answer)
      (hextract : extract host file answer = .ok extracted) (hsame : file.contents = .given extracted.body)
      (h : piece.fixture.refusal = none) (hwritten : piece.written = none) (houtcome : piece.fixture.outcome = .unchanged)
  | written (answer : Answer ν) (extracted : Extracted ν) (hanswer : turn.answer file.contents = some answer)
      (hextract : extract host file answer = .ok extracted) (hchanged : file.contents ≠ .given extracted.body)
      (h : piece.fixture.refusal = none) (hwritten : piece.written = some extracted.body)
      (houtcome : piece.fixture.outcome = .written)

theorem authorFile_ok {piece : Piece ν} (h : authorFile host model task file turn = .ok piece) :
    piece.fixture.path = file.path ∧ piece.call.path = file.path ∧ Came host file turn piece := by
  unfold authorFile at h
  cases hask : ask task file turn with
  | error =>
    rw [hask] at h
    cases h
  | ok asked =>
    have hanswer := (ask_ok hask).2
    rw [hask] at h
    obtain ⟨prompt, excerpt, outcome⟩ := asked
    cases outcome with
    | error =>
      cases h
      refine ⟨rfl, rfl, .refused _ rfl rfl rfl ?_⟩
      intro answer hsome
      rw [← hanswer] at hsome
      cases hsome
    | ok answer =>
      replace hanswer : some answer = turn.answer file.contents := hanswer
      dsimp only [bind, Except.bind] at h
      cases hextract : extract host file answer with
      | error thrown =>
        rw [hextract] at h
        cases thrown with
        | unavailable | other => cases h
        | refused refusal =>
          cases h
          refine ⟨rfl, rfl, .refused _ rfl rfl rfl ?_⟩
          intro answer' hsome
          cases hanswer.trans hsome
          exact ⟨refusal, hextract⟩
      | ok extracted =>
        rw [hextract] at h
        cases h
        by_cases hsame : file.contents = .given extracted.body
        · exact ⟨rfl, rfl, .unchanged answer extracted hanswer.symm hextract hsame rfl (by simp [hsame]) (by simp [hsame])⟩
        · exact ⟨rfl, rfl, .written answer extracted hanswer.symm hextract hsame rfl (by simp [hsame]) (by simp [hsame])⟩

def Wrote (host : Host ν) (entry : File × Turn ν) (body : Units) : Prop :=
  ∃ answer extracted, entry.2.answer entry.1.contents = some answer ∧ extract host entry.1 answer = .ok extracted ∧
    entry.1.contents ≠ .given extracted.body ∧ body = extracted.body

def Settled (host : Host ν) (entry : File × Turn ν) : Prop :=
  ∀ answer, entry.2.answer entry.1.contents = some answer →
    (∃ extracted, extract host entry.1 answer = .ok extracted) ∨
      ∃ refusal, extract host entry.1 answer = .error (.refused refusal)

/-- What has been gathered is about the files that are done. -/
structure Tidy (host : Host ν) (gathered : Gathered ν) (done : List (File × Turn ν)) : Prop where
  partition : (gathered.contents.keys ++ gathered.unchanged ++ gathered.refusals.map Prod.fst).Perm
    (done.map fun entry ↦ entry.1.path)
  held : ∀ path body, gathered.contents.get path = some body → ∃ entry ∈ done, entry.1.path = path ∧ Wrote host entry body
  wrote : ∀ entry ∈ done, ∀ body, Wrote host entry body → gathered.contents.get entry.1.path = some body
  settled : ∀ entry ∈ done, Settled host entry
  fixtures : gathered.fixtures.map Fixture.path = done.map fun entry ↦ entry.1.path
  calls : gathered.calls.map Call.path = done.map fun entry ↦ entry.1.path

theorem Tidy.empty : Tidy host Gathered.empty [] where
  partition := List.Perm.refl _
  held _ _ h := by cases h
  wrote _ h := absurd h List.not_mem_nil
  settled _ h := absurd h List.not_mem_nil
  fixtures := rfl
  calls := rfl

theorem keys_set {m : InsertionMap Units Units} {body : Units} (h : path ∉ m.keys) :
    (m.set path body).keys = m.keys ++ [path] :=
  (InsertionMap.put_keys path body m.entries).trans (if_neg h)

theorem Tidy.add {gathered : Gathered ν} {done : List (File × Turn ν)} {piece : Piece ν} (h : Tidy host gathered done)
    (hpiece : authorFile host model task file turn = .ok piece) (hnew : file.path ∉ done.map fun entry ↦ entry.1.path) :
    Tidy host (gathered.add piece) (done ++ [(file, turn)]) := by
  obtain ⟨hpath, hcall, hcame⟩ := authorFile_ok hpiece
  have hfresh : file.path ∉ gathered.contents.keys := by
    intro hmem
    refine hnew (h.partition.mem_iff.mp ?_)
    exact List.mem_append_left _ (List.mem_append_left _ hmem)
  have hdone : ((done ++ [(file, turn)]).map fun entry ↦ entry.1.path) =
      (done.map fun entry ↦ entry.1.path) ++ [file.path] := List.map_append
  have hfixtures : (gathered.add piece).fixtures.map Fixture.path =
      (done ++ [(file, turn)]).map fun entry ↦ entry.1.path := by
    rw [hdone, ← h.fixtures, Gathered.add, List.map_append, List.map_singleton, hpath]
  have hcalls : (gathered.add piece).calls.map Call.path = (done ++ [(file, turn)]).map fun entry ↦ entry.1.path := by
    rw [hdone, ← h.calls, Gathered.add, List.map_append, List.map_singleton, hcall]
  have hperm : ∀ {keys unchanged refusals : List Units}, (keys ++ unchanged ++ refusals).Perm
      (gathered.contents.keys ++ gathered.unchanged ++ gathered.refusals.map Prod.fst ++ [file.path]) →
      (keys ++ unchanged ++ refusals).Perm ((done ++ [(file, turn)]).map fun entry ↦ entry.1.path) := by
    intro keys unchanged refusals hall
    rw [hdone]
    exact hall.trans (h.partition.append_right _)
  have hsettled : Settled host (file, turn) → ∀ entry ∈ done ++ [(file, turn)], Settled host entry := by
    intro hthis entry hentry
    rcases List.mem_append.mp hentry with hentry | hentry
    · exact h.settled entry hentry
    · cases List.mem_singleton.mp hentry
      exact hthis
  -- A file that is not written leaves the contents as they were.
  have hheld : (gathered.add piece).contents = gathered.contents → (∀ body, ¬Wrote host (file, turn) body) →
      (∀ path body, (gathered.add piece).contents.get path = some body →
        ∃ entry ∈ done ++ [(file, turn)], entry.1.path = path ∧ Wrote host entry body) ∧
      ∀ entry ∈ done ++ [(file, turn)], ∀ body, Wrote host entry body →
        (gathered.add piece).contents.get entry.1.path = some body := by
    intro hsame hnot
    rw [hsame]
    constructor
    · intro path body hget
      obtain ⟨entry, hentry, hrest⟩ := h.held path body hget
      exact ⟨entry, List.mem_append_left _ hentry, hrest⟩
    · intro entry hentry body hwrote
      rcases List.mem_append.mp hentry with hentry | hentry
      · exact h.wrote entry hentry body hwrote
      · cases List.mem_singleton.mp hentry
        exact absurd hwrote (hnot body)
  cases hcame with
  | refused refusal hrefusal hwritten houtcome hleft =>
    have hcontents : (gathered.add piece).contents = gathered.contents := by rw [Gathered.add, hwritten]
    have hunchanged : (gathered.add piece).unchanged = gathered.unchanged := by rw [Gathered.add, houtcome, if_neg nofun]
    have hrefusals : (gathered.add piece).refusals = gathered.refusals ++ [(file.path, refusal)] := by
      rw [Gathered.add, hrefusal, hpath]
    obtain ⟨hheld, hwrote⟩ := hheld hcontents fun body ⟨answer, extracted, hanswer, hextract, _⟩ ↦ by
      obtain ⟨refusal', herror⟩ := hleft answer hanswer
      cases hextract.symm.trans herror
    refine ⟨hperm ?_, hheld, hwrote, hsettled ?_, hfixtures, hcalls⟩
    swap
    · exact fun answer hanswer ↦ .inr (hleft answer hanswer)
    rw [hcontents, hunchanged, hrefusals, List.map_append, List.map_singleton, List.append_assoc, List.append_assoc,
      List.append_assoc]
  | unchanged answer extracted hanswer hextract hsame hrefusal hwritten houtcome =>
    have hcontents : (gathered.add piece).contents = gathered.contents := by rw [Gathered.add, hwritten]
    have hunchanged : (gathered.add piece).unchanged = gathered.unchanged ++ [file.path] := by
      rw [Gathered.add, houtcome, if_pos rfl, hpath]
    have hrefusals : (gathered.add piece).refusals = gathered.refusals := by rw [Gathered.add, hrefusal]
    obtain ⟨hheld, hwrote⟩ := hheld hcontents fun body ⟨answer', extracted', hanswer', hextract', hchanged, _⟩ ↦ by
      cases hanswer.symm.trans hanswer'
      cases hextract.symm.trans hextract'
      exact hchanged hsame
    refine ⟨hperm ?_, hheld, hwrote, hsettled ?_, hfixtures, hcalls⟩
    swap
    · intro answer' hanswer'
      cases hanswer.symm.trans hanswer'
      exact .inl ⟨extracted, hextract⟩
    rw [hcontents, hunchanged, hrefusals]
    simp only [List.append_assoc]
    exact (List.perm_append_comm.append_left _).append_left _
  | written answer extracted hanswer hextract hchanged hrefusal hwritten houtcome =>
    have hcontents : (gathered.add piece).contents = gathered.contents.set file.path extracted.body := by
      rw [Gathered.add, hwritten, hpath]
    have hunchanged : (gathered.add piece).unchanged = gathered.unchanged := by rw [Gathered.add, houtcome, if_neg nofun]
    have hrefusals : (gathered.add piece).refusals = gathered.refusals := by rw [Gathered.add, hrefusal]
    have hthis : Wrote host (file, turn) extracted.body := ⟨answer, extracted, hanswer, hextract, hchanged, rfl⟩
    refine ⟨hperm ?_, ?_, ?_, hsettled ?_, hfixtures, hcalls⟩
    · rw [hcontents, keys_set hfresh, hunchanged, hrefusals]
      rw [List.append_assoc, List.append_assoc, List.append_assoc, List.append_assoc, ← List.append_assoc gathered.unchanged]
      exact List.perm_append_comm.append_left _
    · intro path body hget
      rw [hcontents, InsertionMap.get_set] at hget
      split_ifs at hget with hpath'
      · cases hget
        exact ⟨(file, turn), by simp, hpath', hthis⟩
      · obtain ⟨entry, hentry, hrest⟩ := h.held path body hget
        exact ⟨entry, List.mem_append_left _ hentry, hrest⟩
    · intro entry hentry body hwrote
      rw [hcontents, InsertionMap.get_set]
      rcases List.mem_append.mp hentry with hentry | hentry
      · rw [if_neg]
        · exact h.wrote entry hentry body hwrote
        · intro hsame
          exact hnew (hsame ▸ List.mem_map_of_mem hentry)
      · cases List.mem_singleton.mp hentry
        rw [if_pos rfl]
        obtain ⟨answer', extracted', hanswer', hextract', -, rfl⟩ := hwrote
        cases hanswer.symm.trans hanswer'
        cases hextract.symm.trans hextract'
        rfl
    · intro answer' hanswer'
      cases hanswer.symm.trans hanswer'
      exact .inl ⟨extracted, hextract⟩

theorem Tidy.run {gathered gathered' : Gathered ν} {done : List (File × Turn ν)} (h : Tidy host gathered done)
    (hdistinct : ((done ++ files).map fun entry ↦ entry.1.path).Nodup)
    (hrun : authorFiles host model task gathered files = .ok gathered') : Tidy host gathered' (done ++ files) := by
  induction files generalizing gathered done with
  | nil =>
    cases hrun
    rwa [List.append_nil]
  | cons entry files ih =>
    unfold authorFiles at hrun
    rw [List.foldlM_cons] at hrun
    cases hpiece : authorFile host model task entry.1 entry.2 with
    | error =>
      rw [hpiece] at hrun
      cases hrun
    | ok =>
      rw [hpiece] at hrun
      have hnew : entry.1.path ∉ done.map fun entry ↦ entry.1.path := by
        rw [List.map_append, List.map_cons] at hdistinct
        exact fun hmem ↦ List.disjoint_of_nodup_append hdistinct hmem List.mem_cons_self
      have hthis := ih (h.add hpiece hnew) (by rwa [List.append_assoc]) hrun
      rwa [List.append_assoc] at hthis

theorem author_ok {available : Bool} {previous : List Units} {result : Authored ν}
    (h : author host available model task previous files = .ok result) :
    authorFiles host model task .empty files = .ok result.toGathered := by
  unfold author at h
  split_ifs at h
  cases hfiles : authorFiles host model task .empty files with
  | error =>
    rw [hfiles] at h
    cases h
  | ok =>
    rw [hfiles] at h
    cases h
    rfl

theorem Hollow.extract {answer : Answer ν} {left : Units} (h : Hollow answer left) :
    (∃ extracted, extract host file answer = .ok extracted ∧ extracted.body = left) ∨
      extract host file answer = .error (.other (text "TypeError")) := by
  obtain ⟨o, contents, hstructured, hblank, -, rfl⟩ := h
  rw [Author.extract, hstructured]
  dsimp only
  rw [normaliseAuthored_eq (structured_some hstructured).2 fun ht ↦ hblank (trim_eq_nil.mp ht)]
  cases hspread : spread (InsertionMap.lookup (text "discardedPaths") o.members) with
  | ok => exact .inl ⟨_, rfl, rfl⟩
  | error =>
    right
    rw [spread_error hspread]
    rfl

/-- The author stays inside its closed set, and deletes no file just when every hollow answer leaves
its file as it was. -/
theorem closed_iff {available : Bool} {previous : List Units} {result : Authored ν}
    (hdistinct : (files.map fun entry ↦ entry.1.path).Nodup)
    (h : author host available model task previous files = .ok result) :
    Closed files result ↔ ∀ entry ∈ files, ∀ answer left, entry.2.answer entry.1.contents = some answer →
      Hollow answer left → entry.1.contents = .given left := by
  have htidy : Tidy host result.toGathered files := Tidy.empty.run hdistinct (author_ok h)
  constructor
  · intro hclosed entry hentry answer left hanswer hhollow
    by_contra hchanged
    have hextract : ∃ extracted, extract host entry.1 answer = .ok extracted ∧ extracted.body = left := by
      rcases hhollow.extract with hok | herror
      · exact hok
      · rcases htidy.settled entry hentry answer hanswer with ⟨extracted, hok⟩ | ⟨refusal, hrefused⟩
        · cases hok.symm.trans herror
        · cases hrefused.symm.trans herror
    obtain ⟨extracted, hok, rfl⟩ := hextract
    have hget := htidy.wrote entry hentry extracted.body ⟨answer, extracted, hanswer, hok, hchanged, rfl⟩
    exact hclosed.notBlank entry.1.path extracted.body hget ((extract_blank hok).mpr hhollow)
  · intro hhollow
    refine ⟨htidy.partition, ?_, ?_, htidy.fixtures, htidy.calls⟩
    · intro path body hget hblank
      obtain ⟨entry, hentry, -, answer, extracted, hanswer, hextract, hchanged, rfl⟩ := htidy.held path body hget
      exact hchanged (hhollow entry hentry answer extracted.body hanswer ((extract_blank hextract).mp hblank))
    · intro entry hentry body hget
      obtain ⟨entry', hentry', hpath, answer, extracted, -, -, hchanged, rfl⟩ := htidy.held entry.1.path body hget
      cases List.inj_on_of_nodup_map hdistinct hentry' hentry hpath
      exact hchanged

def sampleHost : Host Empty := ⟨Capability.Host.checksum, nofun, fun _ ↦ none, nofun⟩

def sampleTask : Task := ⟨text "greet", text "greet", [], [], [], []⟩

def answering (answer : Answer Empty) : Turn Empty := ⟨.answered answer, .ok (none, none), .answered answer⟩

def newFile : List (File × Turn Empty) :=
  [(⟨text "hello.txt", .given []⟩, answering (.other (text "```\nhello\n```")))]

theorem newFile_authored : ∃ result, author sampleHost true none sampleTask [] newFile = .ok result := ⟨_, rfl⟩

theorem closed_iff_fenced : ∃ result, author sampleHost true none sampleTask [] newFile = .ok result ∧
    Closed newFile result := by
  obtain ⟨result, h⟩ := newFile_authored
  refine ⟨result, h, (closed_iff (by decide) h).mpr ?_⟩
  rintro entry hentry answer left hanswer ⟨o, contents, hstructured, -⟩
  cases List.mem_singleton.mp hentry
  cases hanswer
  cases hstructured

def namedOnly : List (File × Turn Empty) :=
  [(⟨text "hello.txt", .given (text "hello\n")⟩,
    answering (.object ⟨[(text "contents", .string (text "file: hello.txt"))], by simp [Json.distinct_object]⟩))]

theorem namedOnly_authored : ∃ result, author sampleHost true none sampleTask [] namedOnly = .ok result ∧
    result.contents.get (text "hello.txt") = some [newline] := ⟨_, rfl, rfl⟩

theorem file_blanked : ¬∀ (files : List (File × Turn Empty)) result,
    (files.map fun entry ↦ entry.1.path).Nodup → author sampleHost true none sampleTask [] files = .ok result →
      Closed files result := by
  intro h
  obtain ⟨result, hauthor, hget⟩ := namedOnly_authored
  refine (h namedOnly result (by decide) hauthor).notBlank _ _ hget ?_
  intro u hu
  cases List.mem_singleton.mp hu
  rfl

end Noesar.Author
