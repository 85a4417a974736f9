import Noesar.Lib.Anchors
import Noesar.Lib.InsertionMap
import Noesar.Lib.JsonText

namespace Noesar.Author

open Lib Lib.Utf16 Lib.Anchors

def text (s : String) : Units := encode s.toList

/-- A literal is a list of characters already, where a decision would decode it. -/
theorem text_ofList (cs : List Char) : text (String.ofList cs) = encode cs := congrArg encode String.toList_ofList

theorem text_injective : Function.Injective text := fun _ _ h ↦ String.toList_inj.mp (encode_injective h)

theorem text_inj {s t : String} : text s = text t ↔ s = t := text_injective.eq_iff

def isSpace (u : UInt16) : Bool :=
  u.toNat ∈ [9, 10, 11, 12, 13, 32, 0xA0, 0x1680, 0x2028, 0x2029, 0x202F, 0x205F, 0x3000, 0xFEFF] ||
    (0x2000 ≤ u.toNat && u.toNat ≤ 0x200A)

def trimStart (t : Units) : Units := t.dropWhile isSpace

def trimEnd (t : Units) : Units := (t.reverse.dropWhile isSpace).reverse

def trim (t : Units) : Units := trimEnd (trimStart t)

def newline : UInt16 := 10

/-- `t.split('\n')` -/
def lines (t : Units) : List Units := t.splitOn newline

/-- `ls.join('\n')` -/
def unlines (ls : List Units) : Units := [newline].intercalate ls

structure AuthoringRefused where
  code : String
  reason : Units
  path : Option Units
  deriving DecidableEq

inductive Thrown
  | refused (refusal : AuthoringRefused)
  | unavailable (reason : Units)
  | other (name : Units)
  deriving DecidableEq

def refuse {β : Type} (code : String) (reason : Units) (path : Units) : Except Thrown β :=
  .error (.refused ⟨code, reason, some path⟩)

def lower (u : UInt16) : UInt16 := if 65 ≤ u.toNat ∧ u.toNat ≤ 90 then u + 32 else u

def dropWord (word : String) (t : Units) : Option Units :=
  if (t.take (text word).length).map lower = text word then some (t.drop (text word).length) else none

/-- `PATH_DIRECTIVE`: the word it has behind its colon. No other way of matching the expression is
longer or shorter, as each part begins with what the part before it cannot end with. -/
def pathDirective (line : Units) : Option Units := do
  let start := trimStart line
  let opened := ["//", "#", "<!--", "/*"].findSome? fun opening ↦
    if text opening <+: start then some (start.drop (text opening).length) else none
  let rest ← ["filename", "file", "path"].findSome? fun word ↦
    (dropWord word (trimStart (opened.getD start))).bind fun rest ↦
      match trimStart rest with
      | u :: rest => if u = 58 then some rest else none
      | [] => none
  let claimed := (trimStart rest).takeWhile fun u ↦ !isSpace u
  if claimed = [] then none else some claimed

def stripDirectives : List Units → List Units × List Units
  | [] => ([], [])
  | line :: rest =>
    match pathDirective line with
    | some claimed => (claimed :: (stripDirectives rest).1, (stripDirectives rest).2)
    | none => ([], line :: rest)

def terminated (body : Units) : Units := if [newline] <:+ body then body else body ++ [newline]

/-- What an answer comes to: the contents of a file, and the paths that were named in it. -/
structure Extracted (ν : Type) where
  body : Units
  discarded : List (Json Units ν)

def fence : Units := text "```"

def untilFence : Units → Option (Units × ℕ)
  | [] => none
  | u :: t =>
    if fence <+: u :: t then some ([], fence.length)
    else (untilFence t).map fun (body, used) ↦ (u :: body, used + 1)

def fenceAt (t : Units) : Option (Units × ℕ) :=
  if fence <+: t then
    match (t.drop fence.length).dropWhile (· ≠ newline) with
    | [] => none
    | _ :: rest => (untilFence rest).map fun (body, used) ↦ (body, t.length - rest.length + used)
  else none

def fencesFrom : ℕ → Units → List Units
  | _, [] => []
  | 0, u :: t =>
    match fenceAt (u :: t) with
    | some (body, used) => body :: fencesFrom (used - 1) t
    | none => fencesFrom 0 t
  | k + 1, _ :: t => fencesFrom k t

def fences (t : Units) : List Units := fencesFrom 0 t

def shown (n : ℕ) : Units := text (toString n)

variable {ν : Type}

def extractBody (answer path : Units) : Except Thrown (Extracted ν) :=
  match fences answer with
  | [] =>
    refuse "NO_FENCE"
      (text "the answer contained no fenced block, so nothing in it can be taken as the contents of a file") path
  | [block] =>
    let (discarded, rest) := stripDirectives (lines block)
    let body := unlines rest
    if trim body = [] then
      refuse "EMPTY" (text "the answer was an empty file, which is a deletion asked for as a write") path
    else .ok ⟨terminated body, discarded.map .string⟩
  | blocks =>
    refuse "MANY_FENCES" (text "the answer contained " ++ shown blocks.length ++
      text " fenced blocks; one file is asked for and one is expected") path

def editOpen : Units := text "<<<<<<< SEARCH"

def editSeparator : Units := text "======="

def editClose : Units := text ">>>>>>> REPLACE"

structure Edit where
  search : Units
  replace : Units
  deriving DecidableEq

/-- The lines of a block up to its separator, and those behind it. A block that is opened inside it,
or the end of the answer, leaves it open. -/
def searchLines : List Units → Option (List Units × List Units)
  | [] => none
  | line :: rest =>
    if trimEnd line = editOpen then none
    else if trimEnd line = editSeparator then some ([], rest)
    else (searchLines rest).map fun (search, rest) ↦ (line :: search, rest)

inductive Unclosed
  | unterminated
  | leaked

def replaceLines : List Units → Except Unclosed (List Units × List Units)
  | [] => .error .unterminated
  | line :: rest =>
    if trimEnd line = editOpen then .error .unterminated
    else if trimEnd line = editClose then .ok ([], rest)
    else if trimEnd line = editSeparator then .error .leaked
    else (replaceLines rest).map fun (replace, rest) ↦ (line :: replace, rest)

def readBlock (path : Units) (ls : List Units) : Except Thrown (Edit × List Units) :=
  let unterminated := refuse "EDIT_UNTERMINATED" (text "an edit block was opened and never closed with `" ++
    editSeparator ++ text "` and `" ++ editClose ++ text "`") path
  match searchLines ls with
  | none => unterminated
  | some (search, rest) =>
    match replaceLines rest with
    | .ok (replace, rest) => .ok (⟨unlines search, unlines replace⟩, rest)
    | .error .unterminated => unterminated
    | .error .leaked =>
      refuse "EDIT_MARKER_LEAKED" (text "an edit block's replacement contains a second `" ++ editSeparator ++
        text "`, which means the answer is malformed rather than merely large") path

theorem searchLines_length {ls search rest : List Units} (h : searchLines ls = some (search, rest)) :
    rest.length < ls.length := by
  induction ls generalizing search with
  | nil => cases h
  | cons line ls ih =>
    rw [searchLines] at h
    split_ifs at h
    · cases h
      exact Nat.lt_succ_self _
    · obtain ⟨⟨search', rest'⟩, hread, he⟩ := Option.map_eq_some_iff.mp h
      cases he
      exact Nat.lt_succ_of_lt (ih hread)

theorem replaceLines_length {ls replace rest : List Units} (h : replaceLines ls = .ok (replace, rest)) :
    rest.length < ls.length := by
  induction ls generalizing replace with
  | nil => cases h
  | cons line ls ih =>
    rw [replaceLines] at h
    split_ifs at h
    · cases h
      exact Nat.lt_succ_self _
    · cases hread : replaceLines ls with
      | error =>
        rw [hread] at h
        cases h
      | ok =>
        rw [hread] at h
        cases h
        exact Nat.lt_succ_of_lt (ih hread)

theorem readBlock_ok {path : Units} {ls rest : List Units} {edit : Edit} (h : readBlock path ls = .ok (edit, rest)) :
    ∃ search behind replace, searchLines ls = some (search, behind) ∧ replaceLines behind = .ok (replace, rest) ∧
      edit = ⟨unlines search, unlines replace⟩ := by
  unfold readBlock at h
  dsimp only at h
  cases hsearch : searchLines ls with
  | none =>
    rw [hsearch] at h
    cases h
  | some r =>
    rw [hsearch] at h
    dsimp only at h
    cases hreplace : replaceLines r.2 with
    | error unclosed =>
      rw [hreplace] at h
      cases unclosed <;> cases h
    | ok r' =>
      rw [hreplace] at h
      cases h
      exact ⟨r.1, r.2, r'.1, rfl, hreplace, rfl⟩

theorem readBlock_length {path : Units} {ls rest : List Units} {edit : Edit} (h : readBlock path ls = .ok (edit, rest)) :
    rest.length < ls.length := by
  obtain ⟨search, behind, replace, hsearch, hreplace, -⟩ := readBlock_ok h
  exact (replaceLines_length hreplace).trans (searchLines_length hsearch)

/-- The edit blocks of an answer in their order, and the paths that it names outside of them. -/
def readBlocks (path : Units) : List Units → Except Thrown (List Edit × List Units)
  | [] => .ok ([], [])
  | line :: rest =>
    if trimEnd line ≠ editOpen then do
      let (edits, discarded) ← readBlocks path rest
      pure (edits, (pathDirective line).toList ++ discarded)
    else
      match hblock : readBlock path rest with
      | .error thrown => .error thrown
      | .ok (edit, behind) => do
        let (edits, discarded) ← readBlocks path behind
        pure (edit :: edits, discarded)
termination_by ls => ls.length
decreasing_by
  · exact Nat.lt_succ_self _
  · exact Nat.lt_succ_of_lt (readBlock_length hblock)

/-- `JSON.stringify(edit.search.slice(0, 120))` -/
def excerptOf (search : Units) : Units := encode (Json.quote (search.take 120))

def applyEdit (path body : Units) (edit : Edit) : Except Thrown Units :=
  if trim edit.search = [] then
    refuse "EDIT_EMPTY_ANCHOR"
      (text "an edit block searched for nothing, which would put its replacement anywhere") path
  else
    let hits := (split edit.search body).length - 1
    if hits = 0 then
      refuse "EDIT_NOT_FOUND" (text "an edit block searched for text that does not appear in the file: " ++
        excerptOf edit.search) path
    else if hits > 1 then
      refuse "EDIT_NOT_UNIQUE" (text "an edit block searched for text that appears " ++ shown hits ++
        text " times; it has to appear once, so the edit names one place and not several") path
    else .ok (replaceFirst edit.search edit.replace body)

structure Applied (ν : Type) extends Extracted ν where
  edits : ℕ

def applyEditBlocks (answer current path : Units) : Except Thrown (Applied ν) := do
  let (edits, discarded) ← readBlocks path (lines answer)
  if edits = [] then
    refuse "NO_EDITS"
      (text "the answer contained no edit block, and the complete contents of a file is not what was asked for") path
  else
    let body ← edits.foldlM (applyEdit path) current
    if trim body = [] then
      refuse "EMPTY" (text "the edits emptied the file, which is a deletion asked for as a write") path
    else pure ⟨⟨terminated body, discarded.map .string⟩, edits.length⟩

variable (write : ν → List Char)

/-- `String(value)`; in a list, `null` is shown as nothing. -/
def asString : Option (Json Units ν) → Units
  | none => text "undefined"
  | some value => (value.fold ⟨(text "null", true), fun b ↦ (text (if b then "true" else "false"), false),
      fun n ↦ (encode (write n), false), fun s ↦ (s, false),
      fun items ↦ ((text ",").intercalate (items.map fun item ↦ if item.2 then [] else item.1), false),
      fun _ ↦ (text "[object Object]", false)⟩).1

def typeError {β : Type} : Except Thrown β := .error (.other (text "TypeError"))

/-- `value[name]` -/
def property (name : String) : Json Units ν → Except Thrown (Option (Json Units ν))
  | .null => typeError
  | .object members => .ok (InsertionMap.lookup (text name) members)
  | _ => .ok none

/-- `[...(value ?? [])]` -/
def spread : Option (Json Units ν) → Except Thrown (List (Json Units ν))
  | none | some .null => .ok []
  | some (.array items) => .ok items
  | some (.string s) => .ok ((points s).map fun p ↦ .string (unitsOf p))
  | some _ => typeError

def normaliseAuthored (structured : Json Units ν) (path : Units) : Except Thrown (Extracted ν) := do
  let body := asString write (← property "contents" structured)
  if trim body = [] then
    refuse "EMPTY" (text "the provider returned an empty file, which is a deletion asked for as a write") path
  else
    let claimed ← spread (← property "discardedPaths" structured)
    let (stripped, rest) := stripDirectives (lines body)
    pure ⟨terminated (unlines rest), claimed ++ stripped.map .string⟩

end Noesar.Author
