import Mathlib
import Noesar.Lib.Number
import Noesar.Lib.PosixPath
import Noesar.Capability.Plan

namespace Noesar.Updates

open Lib Lib.PosixPath Capability

inductive Code
  | unknownChannel
  | noChannelKey
  | badChannelKey
  | malformedVersion
  | noManifest
  | packageUnsigned
  | manifestMalformed
  | packageSignatureInvalid
  | packageChannelMismatch
  | packageExpired
  | downgradeRefused
  | antiRollback
  | minUpgradeFrom
  | manifestNoFiles
  | unsafePath
  | missingPayloadFile
  | payloadHashMismatch
  | undeclaredPayloadFile
  | unknownBundle
  | nothingStaged
  | confirmationRequired
  | notApproved
  | backupFailed
  | backupUnverified
  | candidateUnhealthy
  | postPromotionUnhealthy
  | updateFailed
  | host (name : String)
  deriving DecidableEq, Repr

/-- What can be thrown: a value that has properties, or `null` and `undefined`, on which
reading one throws again. -/
inductive Thrown
  | error (message : String) (code : Option Code) (status : Option ℕ)
  | nullish
  deriving DecidableEq, Repr

def fail (message : String) (code : Code) (status : ℕ) : Thrown := .error message (some code) (some status)

def typeError (message : String) : Thrown := .error message none none

/-- A value read out of a JSON text, or the absence of one. A number is kept by its text, an
array or object by what `String` makes of it, which fails where it has a `toString` of its own. -/
inductive Value
  | undefined
  | null
  | bool (b : Bool)
  | number (shown : String)
  | text (s : String)
  | object (shown : Option String)
  deriving DecidableEq, Repr

namespace Value

/-- `value ?? other` -/
def orElse : Value → Value → Value
  | undefined, other => other
  | null, other => other
  | value, _ => value

def truthy : Value → Bool
  | undefined => false
  | null => false
  | bool b => b
  | number shown => shown ≠ "0"
  | .text s => s ≠ ""
  | object _ => true

/-- `String(value)`, and what a template shows of it. -/
def string : Value → Except Thrown String
  | undefined => .ok "undefined"
  | null => .ok "null"
  | bool b => .ok (if b then "true" else "false")
  | number shown => .ok shown
  | .text s => .ok s
  | object (some shown) => .ok shown
  | object none => .error (typeError "Cannot convert object to primitive value")

end Value

def utf16 (s : String) : List ℕ :=
  s.toList.flatMap fun c ↦
    if c.toNat < 0x10000 then [c.toNat]
    else [0xD800 + (c.toNat - 0x10000) / 0x400, 0xDC00 + (c.toNat - 0x10000) % 0x400]

def trim (cs : List Char) : List Char := ((cs.dropWhile isWhiteSpace).reverse.dropWhile isWhiteSpace).reverse

/-- `Number.parseInt(piece, 10)`; `none` is `NaN`. -/
def parseInt (piece : String) : Option ℚ :=
  let read (cs : List Char) : Option ℚ :=
    let digits := cs.takeWhile Char.isDigit
    if digits = [] then none
    else some (round53 (digits.foldl (fun n c ↦ 10 * n + (c.toNat - '0'.toNat)) 0 : ℕ))
  match piece.toList.dropWhile isWhiteSpace with
  | '-' :: cs => (read cs).map (-·)
  | '+' :: cs => read cs
  | cs => read cs

/-- `Number.isInteger` of what `parseInt` gives: what is past the largest double is infinite. -/
def isInteger : Option ℚ → Bool
  | none => false
  | some q => |q| < 2 ^ 1024

structure Version where
  parts : List ℚ
  pre : List ℕ

namespace Version

def parse (value : Value) : Except Thrown Version := do
  let text ← (value.orElse (.text "")).string
  -- `split('-', 2)` drops what follows a second hyphen.
  let pieces := splitOn (· = '-') (String.ofList (trim text.toList))
  let core := pieces.getD 0 ""
  let pre := pieces.getD 1 ""
  let parts := (splitOn (· = '.') core).map parseInt
  if parts.any fun piece ↦ !isInteger piece then
    let shown ← value.string
    .error (fail s!"Malformed version: {shown}" .malformedVersion 400)
  else
    let parts := parts.map (·.getD 0)
    .ok ⟨parts ++ List.replicate (3 - parts.length) 0, utf16 pre⟩

def comparePre (a b : List ℕ) : Ordering :=
  if a = b then .eq
  else if a = [] then .gt
  else if b = [] then .lt
  else if a < b then .lt
  else .gt

def compareFrom (a b : Version) : List ℕ → Ordering
  | [] => comparePre a.pre b.pre
  | index :: more =>
    if a.parts.getD index 0 ≠ b.parts.getD index 0 then
      if a.parts.getD index 0 < b.parts.getD index 0 then .lt else .gt
    else compareFrom a b more

end Version

def compareVersions (left right : Value) : Except Thrown Ordering := do
  let a ← Version.parse left
  let b ← Version.parse right
  .ok (Version.compareFrom a b [0, 1, 2])

namespace Version

def rank (pre : List ℕ) : WithTop (List ℕ) := if pre = [] then ⊤ else (pre : WithTop (List ℕ))

def key (v : Version) : Lex (ℚ × Lex (ℚ × Lex (ℚ × WithTop (List ℕ)))) :=
  toLex (v.parts.getD 0 0, toLex (v.parts.getD 1 0, toLex (v.parts.getD 2 0, rank v.pre)))

def Reports {α : Type} [LinearOrder α] (o : Ordering) (a b : α) : Prop :=
  match o with
  | .lt => a < b
  | .eq => a = b
  | .gt => b < a

theorem Reports.toLex_of_eq {β : Type} [LinearOrder β] {o : Ordering} {x x' : ℚ} {y y' : β} (hx : x = x')
    (h : Reports o y y') : Reports o (toLex (x, y)) (toLex (x', y')) := by
  subst hx
  cases o with
  | lt => exact Prod.Lex.toLex_lt_toLex.mpr (.inr ⟨rfl, h⟩)
  | eq => exact congrArg (fun z ↦ toLex (x, z)) h
  | gt => exact Prod.Lex.toLex_lt_toLex.mpr (.inr ⟨rfl, h⟩)

theorem comparePre_reports (a b : List ℕ) : Reports (comparePre a b) (rank a) (rank b) := by
  unfold comparePre
  by_cases hab : a = b
  · rw [if_pos hab, hab]
    exact rfl
  by_cases ha : a = []
  · have hb : b ≠ [] := fun hb ↦ hab (ha.trans hb.symm)
    simp only [ha, if_true, if_false, Ne.symm hb]
    simp [Reports, rank, hb]
  by_cases hb : b = []
  · simp only [ha, hb, if_true, if_false]
    simp [Reports, rank, ha]
  simp only [hab, ha, hb, if_false]
  by_cases hlt : a < b
  · rw [if_pos hlt]
    simpa [Reports, rank, ha, hb] using hlt
  · rw [if_neg hlt]
    simpa [Reports, rank, ha, hb] using lt_of_le_of_ne (not_lt.mp hlt) (Ne.symm hab)

theorem compare_part_reports {β : Type} [LinearOrder β] {o : Ordering} {x x' : ℚ} {y y' : β} (h : Reports o y y') :
    Reports (if x ≠ x' then (if x < x' then .lt else .gt) else o) (toLex (x, y)) (toLex (x', y')) := by
  by_cases hx : x = x'
  · rw [if_neg (not_not.mpr hx)]
    exact h.toLex_of_eq hx
  rw [if_pos hx]
  by_cases hlt : x < x'
  · rw [if_pos hlt]
    exact Prod.Lex.toLex_lt_toLex.mpr (.inl hlt)
  · rw [if_neg hlt]
    exact Prod.Lex.toLex_lt_toLex.mpr (.inl (lt_of_le_of_ne (not_lt.mp hlt) (Ne.symm hx)))

theorem compareFrom_reports (a b : Version) : Reports (compareFrom a b [0, 1, 2]) a.key b.key :=
  compare_part_reports (compare_part_reports (compare_part_reports (comparePre_reports a.pre b.pre)))

theorem Reports.gt_iff {α : Type} [LinearOrder α] {o : Ordering} {a b : α} (h : Reports o a b) : o = .gt ↔ b < a := by
  cases o with
  | lt =>
    refine ⟨fun he ↦ Ordering.noConfusion he, fun hlt ↦ ?_⟩
    exact absurd h (not_lt_of_gt hlt)
  | eq =>
    refine ⟨fun he ↦ Ordering.noConfusion he, fun hlt ↦ ?_⟩
    exact absurd h (ne_of_gt hlt)
  | gt => exact ⟨fun _ ↦ h, fun _ ↦ rfl⟩

end Version

/-- `later` is a version above `earlier`. -/
def Above (later earlier : Value) : Prop := compareVersions later earlier = .ok .gt

instance (later earlier : Value) : Decidable (Above later earlier) :=
  match h : compareVersions later earlier with
  | .ok .gt => .isTrue h
  | .ok .eq => .isFalse (by simp [Above, h])
  | .ok .lt => .isFalse (by simp [Above, h])
  | .error _ => .isFalse (by simp [Above, h])

theorem compareVersions_ok {left right : Value} {order : Ordering} (h : compareVersions left right = .ok order) :
    ∃ a b, Version.parse left = .ok a ∧ Version.parse right = .ok b ∧ Version.Reports order a.key b.key := by
  unfold compareVersions at h
  cases ha : Version.parse left with
  | error => simp [ha, bind, Except.bind] at h
  | ok a =>
    cases hb : Version.parse right with
    | error => simp [ha, hb, bind, Except.bind] at h
    | ok b =>
      simp only [ha, hb, bind, Except.bind, Except.ok.injEq] at h
      exact ⟨a, b, rfl, rfl, h ▸ Version.compareFrom_reports a b⟩

theorem compareVersions_of_parse {left right : Value} {a b : Version} (ha : Version.parse left = .ok a)
    (hb : Version.parse right = .ok b) : compareVersions left right = .ok (Version.compareFrom a b [0, 1, 2]) := by
  simp [compareVersions, ha, hb, bind, Except.bind]

theorem above_iff {later earlier : Value} :
    Above later earlier ↔ ∃ a b, Version.parse later = .ok a ∧ Version.parse earlier = .ok b ∧ b.key < a.key := by
  constructor
  · intro h
    obtain ⟨a, b, ha, hb, ho⟩ := compareVersions_ok h
    exact ⟨a, b, ha, hb, ho⟩
  · rintro ⟨a, b, ha, hb, hlt⟩
    rw [Above, compareVersions_of_parse ha hb, (Version.compareFrom_reports a b).gt_iff.mpr hlt]

example : compareVersions (.text "1.0.0") (.text "1.0.0-rc1") = .ok .gt := by decide +kernel

end Noesar.Updates
