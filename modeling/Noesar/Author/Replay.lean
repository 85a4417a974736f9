import Noesar.Author.ClosedSet
import Noesar.Lib.JsonDistinct

namespace Noesar.Author

open Lib Lib.Utf16

variable {ν : Type}

def lastIndexOf (line : Units) (ls : List Units) : Option ℕ :=
  (ls.reverse.findIdx? (· = line)).map (ls.length - 1 - ·)

/-- The contents a recorded prompt carries: what stands between the first line that opens them and
the last one that closes them. -/
def contentsInPrompt (prompt : Units) : Option Units :=
  match (lines prompt).findIdx? (· = contentsOpen), lastIndexOf contentsClose (lines prompt) with
  | some opened, some closed =>
    if closed ≤ opened then none
    else some (unlines (((lines prompt).drop (opened + 1)).take (closed - (opened + 1))))
  | _, _ => none

inductive ReplayKind
  | unresolvable
  | portRefusal
  | reApplied
  deriving DecidableEq

structure Decision (ν : Type) where
  outcome : Outcome
  refusal : Option Refusal
  contentsDigest : Option Units
  discarded : List (Json Units ν)

inductive Diff
  | outcome (was now : Outcome)
  | refusalCode (was : Option String) (now : String)
  | contentsDigest (was now : Units)
  deriving DecidableEq

structure Replay (ν : Type) where
  kind : ReplayKind
  faithful : Bool
  decision : Option (Decision ν)
  diffs : List Diff
  reason : Option Units

def unresolvable (reason : Units) : Replay ν := ⟨.unresolvable, false, none, [], some reason⟩

/-- What re-applying the rules comes to, unless the record does not allow it. -/
inductive Rebuilt (ν : Type)
  | extracted (e : Extracted ν)
  | unresolvable (reason : Units)

def rebuild (host : Host ν) (fixture : Fixture ν) (prompt answer : Units) : Except Thrown (Rebuilt ν) :=
  if fixture.answerKind = .structured then
    match host.parse answer with
    | none => .ok (.unresolvable (text "the recorded structured answer is not readable JSON"))
    | some parsed => (normaliseAuthored host.write parsed fixture.path).map .extracted
  else
    match contentsInPrompt prompt with
    | none => (extractBody answer fixture.path).map .extracted
    | some before =>
      if trim before = [] then (extractBody answer fixture.path).map .extracted
      else if fixture.beforeDigest.any (host.digest before ≠ ·) then
        .ok (.unresolvable (text "the contents inside the recorded prompt do not hash to `beforeDigest`"))
      else (applyEditBlocks answer before fixture.path).map fun applied ↦ .extracted applied.toExtracted

def mismatch (host : Host ν) (what : String) (held : Units) (named : Option Units) : Units :=
  text s!"the recorded {what} does not match its digest (store holds " ++ (host.digest held).take 12 ++
    text "…, fixture names " ++ (named.getD (text "null")).take 12 ++ text "…)"

def judge (host : Host ν) (fixture : Fixture ν) (rebuilt : Extracted ν) : Replay ν :=
  match fixture.beforeDigest with
  | none => unresolvable (text "the fixture predates `beforeDigest` and cannot reproduce unchanged-vs-written")
  | some beforeDigest =>
    let contentsDigest := host.digest rebuilt.body
    let outcome : Outcome := if contentsDigest = beforeDigest then .unchanged else .written
    let diffs := (if outcome ≠ fixture.outcome then [.outcome fixture.outcome outcome] else []) ++
      match fixture.contentsDigest with
      | some was => if was ≠ contentsDigest then [.contentsDigest was contentsDigest] else []
      | none => []
    ⟨.reApplied, diffs.isEmpty, some ⟨outcome, none, some contentsDigest, rebuilt.discarded⟩, diffs, none⟩

def judgeRefusal (fixture : Fixture ν) (refusal : AuthoringRefused) : Replay ν :=
  let diffs :=
    if fixture.outcome ≠ .refused then [.outcome fixture.outcome .refused]
    else if fixture.refusal.map Refusal.code ≠ some refusal.code then
      [.refusalCode (fixture.refusal.map Refusal.code) refusal.code]
    else []
  ⟨.reApplied, diffs.isEmpty, some ⟨.refused, some ⟨refusal.code, refusal.reason⟩, none, []⟩, diffs, none⟩

def replayAuthoringCall (host : Host ν) (fixture : Fixture ν) (prompt answer : Option Units) :
    Except Thrown (Replay ν) :=
  match prompt with
  | none => .ok (unresolvable (text "the recorded prompt is not in the store"))
  | some prompt =>
    if host.digest prompt ≠ fixture.promptDigest then
      .ok (unresolvable (mismatch host "prompt" prompt (some fixture.promptDigest)))
    else if fixture.answerKind = .none ∨ fixture.answerRecordDigest = none then
      match fixture.outcome, fixture.refusal with
      | .refused, some refusal =>
        .ok ⟨.portRefusal, true, some ⟨.refused, some refusal, none, []⟩, [], none⟩
      | _, _ => .ok (unresolvable (text "the fixture records no answer but does not record a refusal either"))
    else
      match answer with
      | none => .ok (unresolvable (text "the recorded answer is not in the store"))
      | some answer =>
        if some (host.digest answer) ≠ fixture.answerRecordDigest then
          .ok (unresolvable (mismatch host "answer" answer fixture.answerRecordDigest))
        else
          match rebuild host fixture prompt answer with
          | .error (.refused refusal) => .ok (judgeRefusal fixture refusal)
          | .error thrown => .error thrown
          | .ok (.unresolvable reason) => .ok (unresolvable reason)
          | .ok (.extracted rebuilt) => .ok (judge host fixture rebuilt)

/-- The replay is faithful, to the outcome, the code of the refusal and the digest of the contents. -/
structure Reproduces (fixture : Fixture ν) (replay : Replay ν) : Prop where
  faithful : replay.faithful = true
  decision : ∃ d, replay.decision = some d ∧ d.outcome = fixture.outcome ∧
    d.refusal.map Refusal.code = fixture.refusal.map Refusal.code ∧ d.contentsDigest = fixture.contentsDigest

def Replayed (host : Host ν) (fixture : Fixture ν) (call : Call) : Prop :=
  ∃ replay, replayAuthoringCall host fixture (some call.prompt) call.answer = .ok replay ∧ Reproduces fixture replay

section Prompts

theorem lines_append (a b : Units) : lines (a ++ newline :: b) = lines a ++ lines b :=
  List.splitOnP_append_cons a b (beq_self_eq_true newline)

theorem unlines_cons (x : Units) {xs : List Units} (h : xs ≠ []) : unlines (x :: xs) = x ++ newline :: unlines xs := by
  rw [unlines, List.intercalate_cons_of_ne_nil h, List.append_assoc]
  rfl

theorem unlines_append {xs ys : List Units} (hx : xs ≠ []) (hy : ys ≠ []) :
    unlines (xs ++ ys) = unlines xs ++ newline :: unlines ys := by
  induction xs with
  | nil => exact absurd rfl hx
  | cons x xs ih =>
    cases xs with
    | nil =>
      rw [List.singleton_append, unlines_cons x hy]
      congr 1
      rw [unlines, List.intercalate_singleton]
    | cons =>
      rw [List.cons_append, unlines_cons x (by simp), ih (by simp), unlines_cons x (by simp), List.append_assoc]
      rfl

theorem lines_unlines {xs : List Units} (h : xs ≠ []) : lines (unlines xs) = xs.flatMap lines := by
  induction xs with
  | nil => exact absurd rfl h
  | cons x xs ih =>
    cases xs with
    | nil =>
      rw [unlines, List.intercalate_singleton, List.flatMap_singleton]
    | cons =>
      rw [unlines_cons x (by simp), lines_append, ih (by simp)]
      rfl

theorem unlines_lines (t : Units) : unlines (lines t) = t := List.intercalate_splitOn newline

theorem lines_ne_nil (t : Units) : lines t ≠ [] := List.splitOnP_ne_nil _ t

theorem mem_unlines {u : UInt16} {x : Units} {xs : List Units} (hx : x ∈ xs) (hu : u ∈ x) : u ∈ unlines xs := by
  induction xs with
  | nil => cases hx
  | cons z zs ih =>
    cases zs with
    | nil =>
      rw [unlines, List.intercalate_singleton]
      cases List.mem_singleton.mp hx
      exact hu
    | cons =>
      rw [unlines_cons z (by simp)]
      rcases List.mem_cons.mp hx with rfl | hx
      · exact List.mem_append_left _ hu
      · exact List.mem_append_right _ (List.mem_cons_of_mem _ (ih hx))

def behindOpening (ls : List Units) : List Units := ls.drop (ls.findIdx (· = contentsOpen) + 1)

theorem behindOpening_append {before rest : List Units} (h : contentsOpen ∉ before) :
    behindOpening (before ++ contentsOpen :: rest) = rest := by
  have hindex : (before ++ contentsOpen :: rest).findIdx (· = contentsOpen) = before.length := by
    rw [List.findIdx_append, if_neg]
    · rw [List.findIdx_cons]
      simp
    · rw [List.findIdx_lt_length]
      rintro ⟨x, hx, hopen⟩
      exact h (of_decide_eq_true hopen ▸ hx)
  rw [behindOpening, hindex, ← List.drop_drop, List.drop_left]
  rfl

theorem contentsInPrompt_eq {before rest : List Units} {prompt : Units}
    (hlines : lines prompt = before ++ contentsOpen :: rest ++ [contentsClose]) :
    contentsInPrompt prompt = some (unlines (behindOpening (before ++ contentsOpen :: rest))) := by
  have hfound : (before ++ contentsOpen :: rest).findIdx (· = contentsOpen) < (before ++ contentsOpen :: rest).length :=
    List.findIdx_lt_length.mpr ⟨contentsOpen, by simp, by simp⟩
  have hopened : (lines prompt).findIdx? (· = contentsOpen) =
      some ((before ++ contentsOpen :: rest).findIdx (· = contentsOpen)) := by
    rw [hlines, List.findIdx?_append, List.findIdx?_eq_guard_findIdx_lt, Option.guard, if_pos (by simpa using hfound)]
    rfl
  have hclosed : lastIndexOf contentsClose (lines prompt) = some (before ++ contentsOpen :: rest).length := by
    rw [lastIndexOf, hlines, List.reverse_append, List.reverse_singleton, List.singleton_append, List.findIdx?_cons,
      if_pos (by simp)]
    simp
  unfold contentsInPrompt
  rw [hopened, hclosed]
  dsimp only
  rw [if_neg (by omega), hlines, behindOpening, List.drop_append_of_le_length (by omega), List.take_append_of_le_length]
  · rw [List.take_of_length_le]
    rw [List.length_drop]
  · rw [List.length_drop]

end Prompts

section Views

variable {host : Host ν} {task : Task} {file : File} {turn : Turn ν} {path : Units} {contents view : Contents}
  {partialView : Bool}

/-- The lines that stand above the contents, with what the request, the skills, the conventions and
the attempts bring. -/
def headerLines (task : Task) (path : Units) (view : Contents) (partialView : Bool) : List Units :=
  (promptHeader task path view partialView).flatMap lines

def carried (task : Task) (path : Units) (view : Contents) (partialView : Bool) : Units :=
  unlines (behindOpening (headerLines task path view partialView ++ contentsOpen :: lines view.string))

theorem lines_prompt : lines (buildAuthoringPrompt task path view partialView) =
    headerLines task path view partialView ++ contentsOpen :: lines view.string ++ [contentsClose] := by
  have hopen : lines contentsOpen = [contentsOpen] := by decide
  have hclose : lines contentsClose = [contentsClose] := by decide
  rw [buildAuthoringPrompt, lines_unlines (by simp), List.flatMap_append, List.flatMap_cons, List.flatMap_cons,
    List.flatMap_singleton, hopen, hclose, List.append_assoc]
  rfl

theorem contentsInPrompt_prompt : contentsInPrompt (buildAuthoringPrompt task path view partialView) =
    some (carried task path view partialView) :=
  contentsInPrompt_eq lines_prompt

theorem carried_eq (h : contentsOpen ∉ headerLines task path view partialView) :
    carried task path view partialView = view.string := by
  rw [carried, behindOpening_append h, unlines_lines]

theorem carried_more (h : contentsOpen ∈ headerLines task path view partialView) :
    view.string.length < (carried task path view partialView).length ∧ ¬Blank (carried task path view partialView) := by
  obtain ⟨before, behind, hheader, hfirst⟩ := List.eq_append_cons_of_mem h
  have hcarried : carried task path view partialView = unlines (behind ++ contentsOpen :: lines view.string) := by
    rw [carried, hheader, List.append_assoc, List.cons_append, behindOpening_append hfirst]
  constructor
  · have hsplit : behind ++ contentsOpen :: lines view.string = (behind ++ [contentsOpen]) ++ lines view.string := by
      simp
    rw [hcarried, hsplit, unlines_append (by simp) (lines_ne_nil _), unlines_lines, List.length_append,
      List.length_cons]
    omega
  · rw [hcarried]
    intro hblank
    have hmem : (60 : UInt16) ∈ unlines (behind ++ contentsOpen :: lines view.string) :=
      @mem_unlines 60 contentsOpen _ (by simp) (by decide)
    have hspace := hblank _ hmem
    revert hspace
    decide

theorem carried_whole_iff : carried task path contents false = contents.orEmpty ↔
    (∃ t, contents = .given t) ∧ contentsOpen ∉ headerLines task path contents false := by
  by_cases h : contentsOpen ∈ headerLines task path contents false
  · constructor
    · intro he
      obtain ⟨hlonger, hblank⟩ := carried_more h
      rw [he] at hlonger hblank
      cases contents with
      | given => exact absurd hlonger (Nat.lt_irrefl _)
      | undefined | null => exact absurd (fun u hu ↦ by cases hu) hblank
    · exact fun hright ↦ absurd h hright.2
  · rw [carried_eq h]
    cases contents with
    | given t => exact ⟨fun _ ↦ ⟨⟨t, rfl⟩, h⟩, fun _ ↦ rfl⟩
    | undefined | null =>
      exact ⟨fun he ↦ absurd he (by decide), fun hright ↦ by obtain ⟨⟨t, ht⟩, -⟩ := hright; cases ht⟩

theorem renderFrom_gap (keep : ℕ → Bool) (index first : ℕ) (ls : List Units) :
    ∃ last, ∀ line ∈ closeGap (some first) last, line ∈ renderFrom keep index (some first) ls := by
  induction ls generalizing index with
  | nil => exact ⟨index, fun line hline ↦ hline⟩
  | cons l ls ih =>
    rw [renderFrom]
    split
    · exact ⟨index, fun line hline ↦ List.mem_append_left _ hline⟩
    · exact ih (index + 1)

theorem renderFrom_cases (keep : ℕ → Bool) (index : ℕ) (ls : List Units) : renderFrom keep index none ls = ls ∨
    ∃ first last, ∀ line ∈ closeGap (some first) last, line ∈ renderFrom keep index none ls := by
  induction ls generalizing index with
  | nil => exact .inl rfl
  | cons l ls ih =>
    rw [renderFrom]
    split
    · rcases ih (index + 1) with hall | ⟨first, last, hgap⟩
      · exact .inl (congrArg (l :: ·) hall)
      · exact .inr ⟨first, last, fun line hline ↦ List.mem_cons_of_mem l (hgap line hline)⟩
    · obtain ⟨last, hgap⟩ := renderFrom_gap keep (index + 1) index ls
      exact .inr ⟨index, last, hgap⟩

theorem renderKept_cases (t : Units) (keep : ℕ → Bool) : renderKept t keep = t ∨ ¬Blank (renderKept t keep) := by
  rcases renderFrom_cases keep 0 (lines t) with hall | ⟨first, last, hgap⟩
  · left
    rw [renderKept, hall, unlines_lines]
  · right
    intro hblank
    have hline : text "… lines " ++ shown (first + 1) ++ text "-" ++ shown last ++
        text " of this file are not shown …" ∈ renderFrom keep 0 none (lines t) := hgap _ (List.mem_singleton_self _)
    have hmem : (108 : UInt16) ∈ text "… lines " := by decide
    have hspace := hblank _ (mem_unlines hline (List.mem_append_left _ (List.mem_append_left _
      (List.mem_append_left _ (List.mem_append_left _ hmem)))))
    revert hspace
    decide

theorem carried_cases (turn : Turn ν) (contents : Contents) :
    carried task path (turn.viewed contents).1 (turn.viewed contents).2 = contents.orEmpty ∨
      ¬Blank (carried task path (turn.viewed contents).1 (turn.viewed contents).2) := by
  by_cases h : contentsOpen ∈ headerLines task path (turn.viewed contents).1 (turn.viewed contents).2
  · exact .inr (carried_more h).2
  · rw [carried_eq h]
    have hwhole : contents.string = contents.orEmpty ∨ ¬Blank contents.string := by
      cases contents with
      | given => exact .inl rfl
      | undefined | null => exact .inr (by decide +kernel)
    unfold Turn.viewed
    split
    · split
      · exact hwhole
      · split
        next keep excerpt hnarrowing =>
          split
          · exact hwhole
          · exact renderKept_cases contents.orEmpty keep
        · exact hwhole
    · exact hwhole

end Views

/-- What the platform's JSON does with numbers: each is written as a numeral that is read again. -/
structure Host.Rereads (host : Host ν) : Prop where
  numeral : ∀ n, Json.Numeric (host.write n)
  reread : ∀ n, ∃ m, host.read (host.write n) = some m

/-- The hash tells what a prompt carries, and what an answer comes to, from the contents of the file. -/
structure TellsApart (host : Host ν) (task : Task) (entry : File × Turn ν) : Prop where
  carried : let view := entry.2.viewed entry.1.contents
    host.digest (carried task entry.1.path view.1 view.2) = host.digest entry.1.contents.orEmpty →
      carried task entry.1.path view.1 view.2 = entry.1.contents.orEmpty
  body : ∀ answer extracted, entry.2.answer entry.1.contents = some answer →
    extract host entry.1 answer = .ok extracted →
      host.digest extracted.body = host.digest entry.1.contents.orEmpty → extracted.body = entry.1.contents.orEmpty

/-- Where a text is answered, what the prompt carries is all of the file: it was shown whole, under no line
that opens contents, or an excerpt of it reads the same. -/
def Recoverable (host : Host ν) (task : Task) (entry : File × Turn ν) : Prop :=
  ∀ answer, entry.2.answer entry.1.contents = some answer → answer.structured = none → answer.record host ≠ none →
    let view := entry.2.viewed entry.1.contents
    if view.2 then carried task entry.1.path view.1 view.2 = entry.1.contents.orEmpty
    else (∃ t, entry.1.contents = .given t) ∧ contentsOpen ∉ headerLines task entry.1.path view.1 view.2

section Records

variable {host : Host ν} {model : Option Units} {task : Task} {file : File} {turn : Turn ν}

theorem viewed_cases (turn : Turn ν) (contents : Contents) : turn.viewed contents = (contents, false) ∨
    ∃ view, turn.viewed contents = (.given view, true) := by
  unfold Turn.viewed
  split
  · split
    · exact .inl rfl
    · split
      · split
        · exact .inl rfl
        · exact .inr ⟨_, rfl⟩
      · exact .inl rfl
  · exact .inl rfl

theorem viewed_whole {contents : Contents} (h : (turn.viewed contents).2 = false) :
    (turn.viewed contents).1 = contents := by
  rcases viewed_cases turn contents with hwhole | ⟨view, hview⟩
  · rw [hwhole]
  · rw [hview] at h
    cases h

theorem recoverable_iff : Recoverable host task (file, turn) ↔
    ∀ answer, turn.answer file.contents = some answer → answer.structured = none → answer.record host ≠ none →
      carried task file.path (turn.viewed file.contents).1 (turn.viewed file.contents).2 = file.contents.orEmpty := by
  unfold Recoverable
  apply forall_congr'
  intro answer
  apply imp_congr_right
  intro _
  apply imp_congr_right
  intro _
  apply imp_congr_right
  intro _
  dsimp only
  cases hpartial : (turn.viewed file.contents).2 with
  | true => exact Iff.rfl
  | false =>
    rw [if_neg Bool.false_ne_true, viewed_whole hpartial]
    exact carried_whole_iff.symm

theorem parse_record (hjson : host.Rereads) (o : AnswerObject ν) : ∃ g : ν → ν,
    host.parse (host.stringify (.object o.members)) = some (.object (o.members.map fun m ↦ (m.1, m.2.map id g))) := by
  choose g hg using hjson.reread
  have hu : Json.Understands (⟨id, host.write⟩ : Json.Writer Units ν) (⟨some, host.read, none⟩ : Json.Reader Units ν)
      id g fun _ ↦ True := ⟨fun _ ↦ rfl, fun n _ ↦ hg n, fun n _ ↦ hjson.numeral n⟩
  refine ⟨g, ?_⟩
  rw [Host.parse, Host.stringify, decode_encode, Option.bind_some, Json.parse_print hu _ (Json.distinct_map o.distinct g)
    (Json.eachNumber_of_forall (fun _ ↦ trivial) _) nofun, Json.map_object]
  rfl

theorem spread_map (g : ν → ν) {value : Option (Json Units ν)} {claimed : List (Json Units ν)}
    (h : spread value = .ok claimed) : ∃ claimed', spread (value.map (Json.map id g)) = .ok claimed' := by
  unfold spread at h
  split at h
  · exact ⟨_, rfl⟩
  · exact ⟨_, rfl⟩
  · rw [Option.map_some, Json.map_array]
    exact ⟨_, rfl⟩
  · exact ⟨_, rfl⟩
  · cases h

theorem normaliseAuthored_reread (g : ν → ν) {members : Members ν} {contents path : Units}
    (hcontents : InsertionMap.lookup (text "contents") members = some (.string contents)) :
    match normaliseAuthored host.write (.object members) path with
    | .ok extracted => ∃ rebuilt, normaliseAuthored host.write (.object (members.map fun m ↦ (m.1, m.2.map id g))) path =
        .ok rebuilt ∧ rebuilt.body = extracted.body
    | .error (.refused refusal) =>
      normaliseAuthored host.write (.object (members.map fun m ↦ (m.1, m.2.map id g))) path = .error (.refused refusal)
    | .error _ => True := by
  have hcontents' : InsertionMap.lookup (text "contents") (members.map fun m ↦ (m.1, m.2.map id g)) =
      some (.string contents) := by
    rw [InsertionMap.lookup_map, hcontents]
    rfl
  by_cases hblank : trim contents = []
  · rw [normaliseAuthored_blank hcontents hblank, normaliseAuthored_blank hcontents' hblank]
    rfl
  · rw [normaliseAuthored_eq hcontents hblank, normaliseAuthored_eq hcontents' hblank, InsertionMap.lookup_map]
    cases hspread : spread (InsertionMap.lookup (text "discardedPaths") members) with
    | ok =>
      obtain ⟨claimed', hclaimed'⟩ := spread_map g hspread
      rw [hclaimed']
      exact ⟨_, rfl, rfl⟩
    | error =>
      rw [spread_error hspread]
      trivial

theorem terminated_ne_nil (body : Units) : terminated body ≠ [] := by
  unfold terminated
  split
  next h =>
    rintro rfl
    exact absurd (List.suffix_nil.mp h) (by simp)
  · simp

theorem extract_ne_nil {answer : Answer ν} {extracted : Extracted ν} (h : extract host file answer = .ok extracted) :
    extracted.body ≠ [] := by
  intro hnil
  have hblank : Blank extracted.body := by
    rw [hnil]
    exact nofun
  obtain ⟨o, contents, -, -, -, hleft⟩ := (extract_blank h).mp hblank
  exact terminated_ne_nil _ (hleft.symm.trans hnil)

theorem unchanged_iff (hsha : TellsApart host task (file, turn)) {answer : Answer ν} {extracted : Extracted ν}
    (hanswer : turn.answer file.contents = some answer) (hextract : extract host file answer = .ok extracted) :
    host.digest extracted.body = host.digest file.contents.orEmpty ↔ file.contents = .given extracted.body := by
  constructor
  · intro hdigest
    have hbody : extracted.body = file.contents.orEmpty := hsha.body answer extracted hanswer hextract hdigest
    cases hcontents : file.contents with
    | given =>
      rw [hcontents] at hbody
      rw [hbody]
      rfl
    | undefined | null =>
      rw [hcontents] at hbody
      exact absurd hbody (extract_ne_nil hextract)
  · intro hsame
    rw [hsame]
    rfl

theorem judge_reproduces {fixture : Fixture ν} {rebuilt : Extracted ν} {before : Units}
    (hbefore : fixture.beforeDigest = some before) (hcontents : fixture.contentsDigest = some (host.digest rebuilt.body))
    (houtcome : fixture.outcome = if host.digest rebuilt.body = before then .unchanged else .written)
    (hrefusal : fixture.refusal = none) : Reproduces fixture (judge host fixture rebuilt) := by
  unfold judge
  rw [hbefore]
  dsimp only
  rw [hcontents]
  dsimp only
  rw [if_neg (not_not.mpr houtcome.symm), if_neg (not_not.mpr rfl)]
  exact ⟨rfl, _, rfl, houtcome.symm, by rw [hrefusal], hcontents.symm⟩

theorem judgeRefusal_reproduces {fixture : Fixture ν} {refusal : AuthoringRefused} (houtcome : fixture.outcome = .refused)
    (hrefusal : fixture.refusal = some ⟨refusal.code, refusal.reason⟩) (hcontents : fixture.contentsDigest = none) :
    Reproduces fixture (judgeRefusal fixture refusal) := by
  unfold judgeRefusal
  dsimp only
  rw [if_neg (not_not.mpr houtcome), hrefusal, Option.map_some, if_neg (not_not.mpr rfl)]
  exact ⟨rfl, _, rfl, houtcome.symm, by rw [hrefusal], hcontents.symm⟩

theorem replay_rebuild {fixture : Fixture ν} {prompt record : Units} (hprompt : fixture.promptDigest = host.digest prompt)
    (hkind : fixture.answerKind ≠ .none) (hrecord : fixture.answerRecordDigest = some (host.digest record)) :
    replayAuthoringCall host fixture (some prompt) (some record) =
      match rebuild host fixture prompt record with
      | .error (.refused refusal) => .ok (judgeRefusal fixture refusal)
      | .error thrown => .error thrown
      | .ok (.unresolvable reason) => .ok (unresolvable reason)
      | .ok (.extracted rebuilt) => .ok (judge host fixture rebuilt) := by
  unfold replayAuthoringCall
  dsimp only
  rw [if_neg (not_not.mpr hprompt.symm), if_neg, if_neg (not_not.mpr hrecord.symm)]
  rintro (hnone | hnone)
  · exact hkind hnone
  · rw [hrecord] at hnone
    cases hnone

def Agrees (host : Host ν) (file : File) (fixture : Fixture ν) (prompt record : Units) (answer : Answer ν) : Prop :=
  match extract host file answer with
  | .ok extracted => ∃ rebuilt, rebuild host fixture prompt record = .ok (.extracted rebuilt) ∧ rebuilt.body = extracted.body
  | .error (.refused refusal) => rebuild host fixture prompt record = .error (.refused refusal)
  | .error _ => True

theorem answered_kind {asked : Asked ν} {answer : Answer ν} :
    (answered host model file asked answer).answerKind ≠ .none := by
  unfold answered
  dsimp only
  split
  · exact nofun
  · exact nofun

theorem replayed_of_agrees (hsha : TellsApart host task (file, turn)) {asked : Asked ν} {answer : Answer ν} {record : Units}
    {piece : Piece ν} (hask : ask task file turn = .ok asked) (hanswer : asked.answer = .ok answer)
    (hrecord : answer.record host = some record) (h : authorFile host model task file turn = .ok piece)
    (hagrees : Agrees host file (answered host model file asked answer) asked.prompt record answer) :
    Replayed host piece.fixture piece.call := by
  have hturn : turn.answer file.contents = some answer := by rw [← (ask_ok hask).2, hanswer]
  have hdigest : (answered host model file asked answer).answerRecordDigest = some (host.digest record) := by
    rw [answered, hrecord]
    rfl
  have hkind : (answered host model file asked answer).answerKind ≠ .none := answered_kind
  unfold authorFile at h
  rw [hask] at h
  dsimp only [bind, Except.bind] at h
  rw [hanswer] at h
  dsimp only at h
  unfold Agrees at hagrees
  cases hextract : extract host file answer with
  | error thrown =>
    rw [hextract] at h hagrees
    cases thrown with
    | unavailable | other => cases h
    | refused refusal =>
      let fixture : Fixture ν := { answered host model file asked answer with refusal := some ⟨refusal.code, refusal.reason⟩ }
      have hrebuild : rebuild host fixture asked.prompt record = .error (.refused refusal) := hagrees
      have hreplay := @replay_rebuild ν host fixture asked.prompt record rfl hkind hdigest
      rw [hrebuild] at hreplay
      cases h
      refine ⟨judgeRefusal fixture refusal, ?_, judgeRefusal_reproduces rfl rfl rfl⟩
      dsimp only
      rw [hrecord]
      exact hreplay
  | ok extracted =>
    rw [hextract] at h hagrees
    obtain ⟨rebuilt, hrebuilt, hbody⟩ := hagrees
    let fixture : Fixture ν := { answered host model file asked answer with
      outcome := if (decide (file.contents = .given extracted.body)) = true then .unchanged else .written
      contentsDigest := some (host.digest extracted.body) }
    have hrebuild : rebuild host fixture asked.prompt record = .ok (.extracted rebuilt) := hrebuilt
    have hreplay := @replay_rebuild ν host fixture asked.prompt record rfl hkind hdigest
    rw [hrebuild] at hreplay
    cases h
    refine ⟨judge host fixture rebuilt, ?_, judge_reproduces rfl (by rw [hbody]) ?_ rfl⟩
    · dsimp only
      rw [hrecord]
      exact hreplay
    · dsimp only
      rw [hbody]
      by_cases hsame : file.contents = .given extracted.body
      · rw [if_pos (decide_eq_true hsame), if_pos ((unchanged_iff hsha hturn hextract).mpr hsame)]
      · rw [if_neg (by simpa using hsame), if_neg fun hd ↦ hsame ((unchanged_iff hsha hturn hextract).mp hd)]

theorem record_text {answer : Answer ν} (hstructured : answer.structured = none) (h : answer.record host ≠ none) :
    answer.record host = some answer.string := by
  unfold Answer.record at h ⊢
  rw [hstructured] at h ⊢
  dsimp only at h ⊢
  split
  · exact absurd rfl h
  · rfl

theorem agrees_structured (hjson : host.Rereads) {asked : Asked ν} {answer : Answer ν} {o : AnswerObject ν} {contents : Units}
    (hstructured : answer.structured = some (o, contents)) : answer.record host = some (host.stringify (.object o.members)) ∧
      Agrees host file (answered host model file asked answer) asked.prompt (host.stringify (.object o.members)) answer := by
  have hrecord : answer.record host = some (host.stringify (.object o.members)) := by
    unfold Answer.record
    rw [hstructured]
  refine ⟨hrecord, ?_⟩
  obtain ⟨g, hparse⟩ := parse_record hjson o
  have hkind : (answered host model file asked answer).answerKind = .structured := by
    rw [answered, hstructured]
    rfl
  have hrebuild : rebuild host (answered host model file asked answer) asked.prompt (host.stringify (.object o.members)) =
      (normaliseAuthored host.write (.object (o.members.map fun m ↦ (m.1, m.2.map id g))) file.path).map .extracted := by
    rw [rebuild, if_pos hkind, hparse]
    rfl
  have hextract : extract host file answer = normaliseAuthored host.write (.object o.members) file.path := by
    rw [extract, hstructured]
  have hsame := @normaliseAuthored_reread ν host g o.members contents file.path (structured_some hstructured).2
  unfold Agrees
  rw [hextract, hrebuild]
  cases hnormal : normaliseAuthored host.write (.object o.members) file.path with
  | ok =>
    rw [hnormal] at hsame
    obtain ⟨rebuilt, hrebuilt, hbody⟩ := hsame
    refine ⟨rebuilt, ?_, hbody⟩
    rw [hrebuilt]
    rfl
  | error thrown =>
    rw [hnormal] at hsame
    cases thrown with
    | refused =>
      dsimp only at hsame ⊢
      rw [hsame]
      rfl
    | unavailable | other => trivial

section Texts

variable {asked : Asked ν} {answer : Answer ν}

theorem rebuild_text (hask : ask task file turn = .ok asked) (hstructured : answer.structured = none) :
    rebuild host (answered host model file asked answer) asked.prompt answer.string =
      let before := carried task file.path (turn.viewed file.contents).1 (turn.viewed file.contents).2
      if trim before = [] then (extractBody answer.string file.path).map .extracted
      else if host.digest before ≠ host.digest file.contents.orEmpty then
        .ok (.unresolvable (text "the contents inside the recorded prompt do not hash to `beforeDigest`"))
      else (applyEditBlocks answer.string before file.path).map fun applied ↦ .extracted applied.toExtracted := by
  have hkind : (answered host model file asked answer).answerKind = .text := by
    rw [answered, hstructured]
    rfl
  have hprompt : contentsInPrompt asked.prompt =
      some (carried task file.path (turn.viewed file.contents).1 (turn.viewed file.contents).2) := by
    rw [(ask_ok hask).1, contentsInPrompt_prompt]
  have hbefore : (answered host model file asked answer).beforeDigest = some (host.digest file.contents.orEmpty) := rfl
  rw [rebuild, hkind, if_neg nofun, hprompt, hbefore]
  simp only [Option.any_some, decide_eq_true_eq]
  rfl

theorem agrees_text (hask : ask task file turn = .ok asked) (hstructured : answer.structured = none)
    (hcarried : carried task file.path (turn.viewed file.contents).1 (turn.viewed file.contents).2 = file.contents.orEmpty) :
    Agrees host file (answered host model file asked answer) asked.prompt answer.string answer := by
  have hrebuild := @rebuild_text ν host model task file turn asked answer hask hstructured
  rw [hcarried] at hrebuild
  dsimp only at hrebuild
  have hextract : rebuild host (answered host model file asked answer) asked.prompt answer.string =
      (extract host file answer).map .extracted := by
    rw [hrebuild, extract, hstructured]
    dsimp only
    unfold Contents.editing
    by_cases hblank : trim file.contents.orEmpty = []
    · rw [if_pos hblank, if_neg (by simpa using hblank)]
    · rw [if_neg hblank, if_neg (not_not.mpr rfl), if_pos (by simpa using hblank)]
      cases applyEditBlocks answer.string file.contents.orEmpty file.path with
      | error | ok => rfl
  unfold Agrees
  rw [hextract]
  cases extract host file answer with
  | ok extracted => exact ⟨extracted, rfl, rfl⟩
  | error thrown =>
    cases thrown with
    | refused => rfl
    | unavailable | other => trivial

theorem not_replayed (hsha : TellsApart host task (file, turn)) {piece : Piece ν} (hask : ask task file turn = .ok asked)
    (hanswer : asked.answer = .ok answer) (hstructured : answer.structured = none)
    (hrecord : answer.record host = some answer.string) (h : authorFile host model task file turn = .ok piece)
    (hcarried : carried task file.path (turn.viewed file.contents).1 (turn.viewed file.contents).2 ≠ file.contents.orEmpty) :
    ¬Replayed host piece.fixture piece.call := by
  have hrebuild := @rebuild_text ν host model task file turn asked answer hask hstructured
  dsimp only at hrebuild
  have hblank := (@carried_cases ν task file.path turn file.contents).resolve_left hcarried
  rw [if_neg fun ht ↦ hblank (trim_eq_nil.mp ht), if_pos fun hd ↦ hcarried (hsha.carried hd)] at hrebuild
  have hdigest : (answered host model file asked answer).answerRecordDigest = some (host.digest answer.string) := by
    rw [answered, hrecord]
    rfl
  have hkind : (answered host model file asked answer).answerKind ≠ .none := answered_kind
  have hfields : piece.fixture.promptDigest = host.digest asked.prompt ∧ piece.fixture.answerKind ≠ .none ∧
      piece.fixture.answerRecordDigest = some (host.digest answer.string) ∧
      rebuild host piece.fixture asked.prompt answer.string =
        rebuild host (answered host model file asked answer) asked.prompt answer.string ∧
      piece.call = ⟨file.path, asked.prompt, some answer.string⟩ := by
    unfold authorFile at h
    rw [hask] at h
    dsimp only [bind, Except.bind] at h
    rw [hanswer] at h
    dsimp only at h
    rw [hrecord] at h
    cases hextract : extract host file answer with
    | ok =>
      rw [hextract] at h
      cases h
      exact ⟨rfl, hkind, hdigest, rfl, rfl⟩
    | error thrown =>
      rw [hextract] at h
      cases thrown with
      | refused =>
        cases h
        exact ⟨rfl, hkind, hdigest, rfl, rfl⟩
      | unavailable | other => cases h
  obtain ⟨hprompt, hkind', hdigest', hsame, hcall⟩ := hfields
  rintro ⟨replay, hreplay, hfaithful, -⟩
  rw [hcall, replay_rebuild hprompt hkind' hdigest', hsame, hrebuild] at hreplay
  cases hreplay
  cases hfaithful

end Texts

theorem extract_nothing : ∃ refusal, extract host file (Answer.nothing : Answer ν) = .error (.refused refusal) := by
  have hlines : lines [] = [[]] := rfl
  unfold extract Answer.structured Answer.string
  dsimp only
  split
  · have hread : readBlocks file.path (lines []) = .ok ([], []) := by
      rw [hlines, readBlocks, if_pos (by decide), readBlocks]
      rfl
    unfold applyEditBlocks
    rw [hread]
    exact ⟨_, rfl⟩
  · exact ⟨_, rfl⟩

theorem replayed_of_refusal {fixture : Fixture ν} {call : Call} {refusal : Refusal}
    (hprompt : fixture.promptDigest = host.digest call.prompt)
    (hnone : fixture.answerKind = .none ∨ fixture.answerRecordDigest = none) (houtcome : fixture.outcome = .refused)
    (hrefusal : fixture.refusal = some refusal) (hcontents : fixture.contentsDigest = none) :
    Replayed host fixture call := by
  refine ⟨⟨.portRefusal, true, some ⟨.refused, some refusal, none, []⟩, [], none⟩, ?_,
    ⟨rfl, _, rfl, houtcome.symm, by rw [hrefusal], hcontents.symm⟩⟩
  unfold replayAuthoringCall
  dsimp only
  rw [if_neg (not_not.mpr hprompt.symm), if_pos hnone, houtcome, hrefusal]

theorem replayed_iff (hjson : host.Rereads) (hsha : TellsApart host task (file, turn)) {piece : Piece ν}
    (h : authorFile host model task file turn = .ok piece) :
    Replayed host piece.fixture piece.call ↔ Recoverable host task (file, turn) := by
  rw [recoverable_iff]
  cases hask : ask task file turn with
  | error =>
    unfold authorFile at h
    rw [hask] at h
    cases h
  | ok asked =>
    have hturn := (ask_ok hask).2
    cases hanswer : asked.answer with
    | error =>
      rw [hanswer] at hturn
      constructor
      · intro _ answer hsome
        rw [← hturn] at hsome
        cases hsome
      · intro _
        unfold authorFile at h
        rw [hask] at h
        dsimp only [bind, Except.bind] at h
        rw [hanswer] at h
        cases h
        exact replayed_of_refusal rfl (.inl rfl) rfl rfl rfl
    | ok answer =>
      rw [hanswer] at hturn
      replace hturn : turn.answer file.contents = some answer := hturn.symm
      cases hstructured : answer.structured with
      | some r =>
        obtain ⟨o, contents⟩ := r
        obtain ⟨hrecord, hagrees⟩ := @agrees_structured ν host model file hjson asked answer o contents hstructured
        constructor
        · intro _ answer' hsome hnone
          cases hturn.symm.trans hsome
          rw [hstructured] at hnone
          cases hnone
        · exact fun _ ↦ replayed_of_agrees hsha hask hanswer hrecord h hagrees
      | none =>
        by_cases hrecord : answer.record host = none
        · constructor
          · intro _ answer' hsome _ hkept
            cases hturn.symm.trans hsome
            exact absurd hrecord hkept
          · intro _
            have hnothing : answer = .nothing := by
              unfold Answer.record at hrecord
              rw [hstructured] at hrecord
              dsimp only at hrecord
              split at hrecord
              · rfl
              · cases hrecord
            subst hnothing
            obtain ⟨refusal, hextract⟩ := @extract_nothing ν host file
            unfold authorFile at h
            rw [hask] at h
            dsimp only [bind, Except.bind] at h
            rw [hanswer] at h
            dsimp only at h
            rw [hextract] at h
            cases h
            exact replayed_of_refusal rfl (.inr rfl) rfl rfl rfl
        · have hkept := record_text hstructured hrecord
          constructor
          · intro hreplayed answer' hsome _ _
            cases hturn.symm.trans hsome
            by_contra hcarried
            exact not_replayed hsha hask hanswer hstructured hkept h hcarried hreplayed
          · intro hcarried
            exact replayed_of_agrees hsha hask hanswer hkept h
              (agrees_text hask hstructured (hcarried answer hturn hstructured hrecord))

theorem authorFiles_pieces {gathered gathered' : Gathered ν} {files : List (File × Turn ν)}
    (h : authorFiles host model task gathered files = .ok gathered') :
    ∃ pieces, List.Forall₂ (fun entry piece ↦ authorFile host model task entry.1 entry.2 = .ok piece) files pieces ∧
      gathered'.fixtures = gathered.fixtures ++ pieces.map Piece.fixture ∧
      gathered'.calls = gathered.calls ++ pieces.map Piece.call := by
  induction files generalizing gathered with
  | nil =>
    cases h
    exact ⟨[], .nil, by simp, by simp⟩
  | cons entry files ih =>
    unfold authorFiles at h
    rw [List.foldlM_cons] at h
    cases hpiece : authorFile host model task entry.1 entry.2 with
    | error =>
      rw [hpiece] at h
      cases h
    | ok piece =>
      rw [hpiece] at h
      obtain ⟨pieces, hpieces, hfixtures, hcalls⟩ := ih h
      refine ⟨piece :: pieces, .cons hpiece hpieces, ?_, ?_⟩
      · rw [hfixtures, Gathered.add, List.append_assoc]
        rfl
      · rw [hcalls, Gathered.add, List.append_assoc]
        rfl

/-- Every call of an authoring is replayed from its record just when every file that was answered by a text
can be recovered from its prompt. -/
theorem calls_replayed_iff {available : Bool} {previous : List Units} {files : List (File × Turn ν)} {result : Authored ν}
    (hjson : host.Rereads) (hsha : ∀ entry ∈ files, TellsApart host task entry)
    (h : author host available model task previous files = .ok result) :
    (∀ record ∈ result.fixtures.zip result.calls, Replayed host record.1 record.2) ↔
      ∀ entry ∈ files, Recoverable host task entry := by
  obtain ⟨pieces, hpieces, hfixtures, hcalls⟩ := authorFiles_pieces (author_ok h)
  have hrecords : result.fixtures.zip result.calls = pieces.map fun piece ↦ (piece.fixture, piece.call) := by
    rw [hfixtures, hcalls]
    exact List.zip_map'
  rw [hrecords, List.forall_mem_map]
  clear hrecords hfixtures hcalls h
  induction hpieces with
  | nil => simp
  | @cons entry piece files pieces hpiece _ ih =>
    rw [List.forall_mem_cons, List.forall_mem_cons]
    exact and_congr (replayed_iff hjson (hsha entry List.mem_cons_self) hpiece)
      (ih fun entry hentry ↦ hsha entry (List.mem_cons_of_mem _ hentry))

end Records

theorem newFile_extracted {extracted : Extracted Empty}
    (h : extract sampleHost ⟨text "hello.txt", .given []⟩ (.other (text "```\nhello\n```")) = .ok extracted) :
    extracted.body = text "hello\n" := by
  cases h
  rfl

theorem calls_replayed_iff_fenced : ∃ result, author sampleHost true none sampleTask [] newFile = .ok result ∧
    ∀ record ∈ result.fixtures.zip result.calls, Replayed sampleHost record.1 record.2 := by
  obtain ⟨result, h⟩ := newFile_authored
  have hheader : contentsOpen ∉ headerLines sampleTask (text "hello.txt") (.given []) false := by
    unfold headerLines promptHeader editingLines writingLines contentsOpen sampleTask
    repeat rw [text_ofList]
    decide +kernel
  have hapart : ∀ entry ∈ newFile, TellsApart sampleHost sampleTask entry := by
    intro entry hentry
    cases List.mem_singleton.mp hentry
    refine ⟨fun _ ↦ carried_whole_iff.mpr ⟨⟨[], rfl⟩, hheader⟩, ?_⟩
    intro answer extracted hanswer hextract hdigest
    cases hanswer
    rw [newFile_extracted hextract] at hdigest
    exact absurd hdigest (by decide)
  refine ⟨result, h, (calls_replayed_iff ⟨nofun, nofun⟩ hapart h).mpr ?_⟩
  intro entry hentry answer hanswer _ _
  cases List.mem_singleton.mp hentry
  exact ⟨⟨[], rfl⟩, hheader⟩

def narrowed : File × Turn Empty :=
  (⟨text "hello.txt", .given (text "hello\nworld\n")⟩,
    ⟨.threw (.refused ⟨"CONTEXT_EXCEEDED", [], none⟩), .ok (some (· = 0), none),
      .answered (.other (text "<<<<<<< SEARCH\nhello\n=======\ngoodbye\n>>>>>>> REPLACE"))⟩)

theorem narrowed_read : readBlocks (text "hello.txt") (lines (text "<<<<<<< SEARCH\nhello\n=======\ngoodbye\n>>>>>>> REPLACE")) =
    .ok ([⟨text "hello", text "goodbye"⟩], []) := by
  have hlines : lines (text "<<<<<<< SEARCH\nhello\n=======\ngoodbye\n>>>>>>> REPLACE") =
      [editOpen, text "hello", editSeparator, text "goodbye", editClose] := by decide
  have hblock : readBlock (text "hello.txt") [text "hello", editSeparator, text "goodbye", editClose] =
      .ok (⟨text "hello", text "goodbye"⟩, []) := by
    rfl
  rw [hlines, readBlocks, if_neg (by decide)]
  split
  next hblock' =>
    rw [hblock] at hblock'
    cases hblock'
  next edit behind hblock' =>
    cases hblock.symm.trans hblock'
    rw [readBlocks]
    rfl

theorem narrowed_extracted : extract sampleHost narrowed.1
    (.other (text "<<<<<<< SEARCH\nhello\n=======\ngoodbye\n>>>>>>> REPLACE")) = .ok ⟨text "goodbye\nworld\n", []⟩ := by
  have happly : (applyEditBlocks (text "<<<<<<< SEARCH\nhello\n=======\ngoodbye\n>>>>>>> REPLACE")
      (text "hello\nworld\n") (text "hello.txt") : Except Thrown (Applied Empty)) = .ok ⟨⟨text "goodbye\nworld\n", []⟩, 1⟩ := by
    unfold applyEditBlocks
    rw [narrowed_read]
    rfl
  have hediting : narrowed.1.contents.editing = true := by decide
  unfold extract
  have hstring : (Answer.other (text "<<<<<<< SEARCH\nhello\n=======\ngoodbye\n>>>>>>> REPLACE") : Answer Empty).string =
    text "<<<<<<< SEARCH\nhello\n=======\ngoodbye\n>>>>>>> REPLACE" := rfl
  dsimp only [Answer.structured]
  rw [if_pos hediting, hstring]
  exact congrArg (Except.map Applied.toExtracted) happly

theorem narrowed_carried : carried sampleTask narrowed.1.path (narrowed.2.viewed narrowed.1.contents).1
    (narrowed.2.viewed narrowed.1.contents).2 = text "hello\n… lines 2-3 of this file are not shown …" := by
  have hview : narrowed.2.viewed narrowed.1.contents =
      (.given (text "hello\n… lines 2-3 of this file are not shown …"), true) := by decide
  have hheader : contentsOpen ∉ headerLines sampleTask (text "hello.txt")
      (.given (text "hello\n… lines 2-3 of this file are not shown …")) true := by
    unfold headerLines promptHeader editingLines writingLines excerptLines contentsOpen sampleTask
    repeat rw [text_ofList]
    decide +kernel
  rw [hview]
  exact carried_eq hheader

theorem narrowed_asked : ∃ asked, ask sampleTask narrowed.1 narrowed.2 = .ok asked ∧
    asked.answer = .ok (.other (text "<<<<<<< SEARCH\nhello\n=======\ngoodbye\n>>>>>>> REPLACE")) := by
  have hview : renderKept (text "hello\nworld\n") (· = 0) = text "hello\n… lines 2-3 of this file are not shown …" := by
    decide
  have hnonempty : text "hello\n… lines 2-3 of this file are not shown …" ≠ [] := by decide
  unfold ask narrowed
  dsimp only [Option.map_some, Contents.orEmpty]
  rw [if_neg (not_not.mpr rfl), hview]
  split
  next h => cases h
  next h => exact absurd (Option.some.inj h) hnonempty
  next h =>
    cases h
    exact ⟨_, rfl, rfl⟩

theorem narrowed_authored : ∃ piece, authorFile sampleHost none sampleTask narrowed.1 narrowed.2 = .ok piece := by
  obtain ⟨asked, hask, hanswer⟩ := narrowed_asked
  unfold authorFile
  rw [hask]
  dsimp only [bind, Except.bind]
  rw [hanswer]
  dsimp only
  rw [narrowed_extracted]
  dsimp only [pure, Except.pure]
  exact ⟨_, rfl⟩

theorem narrowed_call_unresolvable : ¬∀ (files : List (File × Turn Empty)) result,
    author sampleHost true none sampleTask [] files = .ok result →
      ∀ record ∈ result.fixtures.zip result.calls, Replayed sampleHost record.1 record.2 := by
  intro h
  obtain ⟨asked, hask, hanswer⟩ := narrowed_asked
  obtain ⟨piece, hpiece⟩ := narrowed_authored
  have hapart : TellsApart sampleHost sampleTask narrowed := by
    constructor
    · dsimp only
      rw [narrowed_carried]
      intro hdigest
      exact absurd hdigest (by decide +kernel)
    · intro answer extracted hanswer hextract hdigest
      cases hanswer
      rw [narrowed_extracted] at hextract
      cases hextract
      exact absurd hdigest (by decide)
  have hauthored : ∃ result, author sampleHost true none sampleTask [] [narrowed] = .ok result ∧
      result.fixtures.zip result.calls = [(piece.fixture, piece.call)] := by
    have hfiles : authorFiles sampleHost none sampleTask .empty [narrowed] = .ok (Gathered.empty.add piece) := by
      unfold authorFiles
      rw [List.foldlM_cons, hpiece]
      rfl
    unfold author
    rw [hfiles]
    exact ⟨_, rfl, rfl⟩
  obtain ⟨result, hresult, hrecords⟩ := hauthored
  have hreplayed := h [narrowed] result hresult (piece.fixture, piece.call) (hrecords ▸ List.mem_singleton_self _)
  have hother : carried sampleTask narrowed.1.path (narrowed.2.viewed narrowed.1.contents).1
      (narrowed.2.viewed narrowed.1.contents).2 ≠ narrowed.1.contents.orEmpty := by
    rw [narrowed_carried]
    decide
  exact not_replayed hapart hask hanswer rfl rfl hpiece hother hreplayed

end Noesar.Author
