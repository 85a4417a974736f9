import Noesar.Capability.Js

namespace Noesar.Capability.Format

open Lib Lib.Framing

/-- The refusals of the published format that signing and verifying can raise. -/
inductive TokenFormatError
  | secretTooShort
  | unknownOperation (operation : String)
  deriving DecidableEq, Repr

def TokenFormatError.reason : TokenFormatError → String
  | secretTooShort => "a capability signing secret must be at least 32 bytes"
  | unknownOperation operation => s!"unknown operation `{operation}`"

abbrev FormatToken := Token String Number Number

def operations : List String := ["READ", "WRITE", "DELETE", "EXECUTE"]

/-- The fields of the pre-image, in their order. Every operation is one of the four, so
its letters are lower-cased one by one. -/
def fields (host : Host) (token : FormatToken) : List String :=
  [token.id, token.planDigest, token.stepId] ++ token.paths ++ token.operations.map String.toLower ++
    [host.numberToString token.expiresAtUnix, host.numberToString token.usesGranted,
      Isolation.canonicalLimits token.limits]

def feedToken (host : Host) (token : FormatToken) : Except TokenFormatError Bytes :=
  match token.operations.find? (· ∉ operations) with
  | some operation => .error (.unknownOperation operation)
  | none => .ok (feedAll (fields host token))

def sign (host : Host) (token : FormatToken) (secret : Bytes) : Except TokenFormatError String :=
  if secret.length < 32 then .error .secretTooShort
  else (feedToken host token).map fun bytes ↦ hex (host.hmac secret bytes).toList

/-- The comparison in constant time, after that of the lengths, is the comparison of the bytes. -/
def verify (host : Host) (token : FormatToken) (secret : Bytes) : Except TokenFormatError Bool :=
  if secret.length < 32 then .error .secretTooShort
  else (sign host token secret).map fun expected ↦ utf8 expected = utf8 token.mac

/-- The members of a token that its signature covers are the same in two tokens. -/
structure SameScope (t t' : FormatToken) : Prop where
  id : t.id = t'.id
  planDigest : t.planDigest = t'.planDigest
  stepId : t.stepId = t'.stepId
  paths : t.paths = t'.paths
  operations : t.operations = t'.operations
  expiresAtUnix : t.expiresAtUnix = t'.expiresAtUnix
  usesGranted : t.usesGranted = t'.usesGranted
  limits : t.limits = t'.limits

/-- The first operations of one token are, in lower case, the last paths of the other, and
nothing else tells the two apart. -/
structure Moved (t t' : FormatToken) : Prop where
  id : t.id = t'.id
  planDigest : t.planDigest = t'.planDigest
  stepId : t.stepId = t'.stepId
  boundary : ∃ moved : List String, moved ≠ [] ∧
    (t'.paths = t.paths ++ moved.map String.toLower ∧ t.operations = moved ++ t'.operations ∨
      t.paths = t'.paths ++ moved.map String.toLower ∧ t'.operations = moved ++ t.operations)
  expiresAtUnix : t.expiresAtUnix = t'.expiresAtUnix
  usesGranted : t.usesGranted = t'.usesGranted
  limits : t.limits = t'.limits

def limitsText (text : Dimension → String) : String :=
  (String.singleton ';').intercalate (Dimension.all.map fun d ↦ d.name ++ "=" ++ text d)

section

variable {host : Host} {t t' : FormatToken} {secret : Bytes} {text text' : Dimension → String}

theorem toLower_inj {a b : String} (ha : a ∈ operations) (hb : b ∈ operations) (h : a.toLower = b.toLower) : a = b := by
  have hall : ∀ a ∈ operations, ∀ b ∈ operations, a.toLower = b.toLower → a = b := by decide +kernel
  exact hall a ha b hb h

theorem map_toLower_inj {as bs : List String} (ha : ∀ o ∈ as, o ∈ operations) (hb : ∀ o ∈ bs, o ∈ operations)
    (h : as.map String.toLower = bs.map String.toLower) : as = bs := by
  induction as generalizing bs with
  | nil => exact (List.map_eq_nil_iff.mp h.symm).symm
  | cons a as ih =>
    cases bs with
    | nil => cases h
    | cons b =>
      obtain ⟨hhead, htail⟩ := List.cons.inj h
      rw [toLower_inj (ha a (by simp)) (hb b (by simp)) hhead,
        ih (fun o ho ↦ ha o (by simp [ho])) (fun o ho ↦ hb o (by simp [ho])) htail]

def countText : Option ℕ → String
  | none => "-"
  | some value => toString value

theorem countText_digits (count : Option ℕ) : ∀ c ∈ (countText count).toList, c = '-' ∨ c.isDigit = true := by
  intro c hc
  cases count with
  | none =>
    left
    simpa [countText] using hc
  | some =>
    right
    rw [countText, Nat.toString_eq_repr, Nat.toList_repr] at hc
    exact Nat.isDigit_of_mem_toDigits (by decide) (by decide) hc

theorem countText_injective : Function.Injective countText := by
  have hnumber : ∀ value : ℕ, (toString value) ≠ "-" := by
    intro value h
    have hmem : '-' ∈ (toString value).toList := by
      rw [h]
      decide
    rw [Nat.toString_eq_repr, Nat.toList_repr] at hmem
    exact absurd (Nat.isDigit_of_mem_toDigits (by decide) (by decide) hmem) (by decide)
  intro a b h
  cases a with
  | none =>
    cases b with
    | none => rfl
    | some value => exact absurd h.symm (hnumber value)
  | some value =>
    cases b with
    | none => exact absurd h (hnumber value)
    | some value' =>
      have hdigits : Nat.toDigits 10 value = Nat.toDigits 10 value' := by
        rw [← Nat.toList_repr, ← Nat.toList_repr]
        exact congrArg String.toList h
      have hvalue := congrArg (fun digits ↦ Nat.ofDigitChars 10 digits 0) hdigits
      simpa using hvalue

theorem limitsText_parts (h : ∀ d, ';' ∉ (text d).toList) : (limitsText text).toList.splitOn ';' =
    Dimension.all.map fun d ↦ (d.name ++ "=" ++ text d).toList := by
  rw [limitsText, String.toList_intercalate, String.toList_singleton, List.splitOn_intercalate]
  · simp
  · intro part hpart hmem
    simp only [List.map_map, List.mem_map] at hpart
    obtain ⟨d, -, rfl⟩ := hpart
    simp only [Function.comp, String.toList_append, List.mem_append] at hmem
    rcases hmem with (hname | hequals) | htext
    · revert hname
      cases d <;> decide
    · revert hequals
      decide
    · exact h d htext
  · simp [Dimension.all]

theorem limitsText_inj (h : ∀ d, ';' ∉ (text d).toList) (h' : ∀ d, ';' ∉ (text' d).toList)
    (heq : limitsText text = limitsText text') (d : Dimension) : text d = text' d := by
  have hparts := limitsText_parts h
  rw [heq, limitsText_parts h'] at hparts
  have hd : d ∈ Dimension.all := by cases d <;> decide
  have hpart := List.map_inj_left.mp hparts d hd
  rw [String.toList_inj] at hpart
  exact ((String.append_right_inj _).mp hpart).symm

theorem limitsText_ne_none (h : ∀ d, ';' ∉ (text d).toList) : limitsText text ≠ "none" := by
  intro heq
  have hparts := limitsText_parts h
  rw [heq] at hparts
  have hlength := congrArg List.length hparts
  rw [List.length_map] at hlength
  exact absurd hlength (by decide)

theorem canonicalLimits_some (limits : Limits) :
    Isolation.canonicalLimits (some limits) = limitsText fun d ↦ countText (limits d) := by
  rw [Isolation.canonicalLimits]
  rfl

theorem countText_plain (count : Option ℕ) : ';' ∉ (countText count).toList := by
  intro hmem
  rcases countText_digits count _ hmem with h | h
  · exact absurd h (by decide)
  · exact absurd h (by decide)

theorem canonicalLimits_injective : Function.Injective Isolation.canonicalLimits := by
  intro a b h
  cases a with
  | none =>
    cases b with
    | none => rfl
    | some limits =>
      rw [canonicalLimits_some] at h
      exact absurd h.symm (limitsText_ne_none fun d ↦ countText_plain (limits d))
  | some limits =>
    cases b with
    | none =>
      rw [canonicalLimits_some] at h
      exact absurd h (limitsText_ne_none fun d ↦ countText_plain (limits d))
    | some limits' =>
      rw [canonicalLimits_some, canonicalLimits_some] at h
      congr 1
      funext d
      exact countText_injective
        (limitsText_inj (fun d ↦ countText_plain (limits d)) (fun d ↦ countText_plain (limits' d)) h d)

theorem feedToken_ok (hops : ∀ o ∈ t.operations, o ∈ operations) :
    feedToken host t = .ok (feedAll (fields host t)) := by
  have hnone : t.operations.find? (· ∉ operations) = none := by
    rw [List.find?_eq_none]
    intro o ho
    simp [hops o ho]
  rw [feedToken, hnone]

theorem sign_ok (hsecret : 32 ≤ secret.length) (hops : ∀ o ∈ t.operations, o ∈ operations) :
    sign host t secret = .ok (hex (host.hmac secret (feedAll (fields host t))).toList) := by
  rw [sign, if_neg (by omega), feedToken_ok hops]
  rfl

theorem verify_iff (hsecret : 32 ≤ secret.length) (hops : ∀ o ∈ t.operations, o ∈ operations)
    (hops' : ∀ o ∈ t'.operations, o ∈ operations) (hfits : ∀ x ∈ fields host t, Fits x)
    (hfits' : ∀ x ∈ fields host t', Fits x)
    (hhmac : host.hmac secret (feedAll (fields host t')) = host.hmac secret (feedAll (fields host t)) →
      feedAll (fields host t') = feedAll (fields host t)) :
    (∃ mac, sign host t secret = .ok mac ∧ verify host { t' with mac := mac } secret = .ok true) ↔
      fields host t' = fields host t := by
  have hsign' : ∀ mac, sign host { t' with mac := mac } secret =
      .ok (hex (host.hmac secret (feedAll (fields host t'))).toList) := fun mac ↦ sign_ok hsecret hops'
  have hverify : ∀ mac, verify host { t' with mac := mac } secret =
      .ok (decide (utf8 (hex (host.hmac secret (feedAll (fields host t'))).toList) = utf8 mac)) := by
    intro mac
    rw [verify, if_neg (by omega), hsign']
    rfl
  constructor
  · rintro ⟨mac, hmac, htrue⟩
    rw [sign_ok hsecret hops] at hmac
    cases hmac
    rw [hverify, Except.ok.injEq, decide_eq_true_eq] at htrue
    apply feedAll_inj hfits' hfits
    apply hhmac
    exact Vector.toList_inj.mp (hex_injective (utf8_injective htrue))
  · intro h
    refine ⟨_, sign_ok hsecret hops, ?_⟩
    rw [hverify, h]
    simp

theorem fields_eq_iff (hops : ∀ o ∈ t.operations, o ∈ operations) (hops' : ∀ o ∈ t'.operations, o ∈ operations)
    (hexpiry : host.numberToString t.expiresAtUnix = host.numberToString t'.expiresAtUnix →
      t.expiresAtUnix = t'.expiresAtUnix)
    (huses : host.numberToString t.usesGranted = host.numberToString t'.usesGranted →
      t.usesGranted = t'.usesGranted) :
    fields host t' = fields host t ↔ SameScope t t' ∨ Moved t t' := by
  constructor
  · intro h
    have h' : [t'.id, t'.planDigest, t'.stepId] ++ ((t'.paths ++ t'.operations.map String.toLower) ++
          [host.numberToString t'.expiresAtUnix, host.numberToString t'.usesGranted,
            Isolation.canonicalLimits t'.limits]) =
        [t.id, t.planDigest, t.stepId] ++ ((t.paths ++ t.operations.map String.toLower) ++
          [host.numberToString t.expiresAtUnix, host.numberToString t.usesGranted,
            Isolation.canonicalLimits t.limits]) := by
      simpa [fields] using h
    obtain ⟨hhead, hrest⟩ := List.append_inj h' rfl
    obtain ⟨hlists, htail⟩ := List.append_inj' hrest rfl
    simp only [List.cons.injEq, and_true] at hhead htail
    obtain ⟨hid, hdigest, hstep⟩ := hhead
    obtain ⟨htime, hcount, hlimits⟩ := htail
    have hexpires := hexpiry htime.symm
    have hgranted := huses hcount.symm
    have hlimits := canonicalLimits_injective hlimits.symm
    rcases List.append_eq_append_iff.mp hlists with ⟨moved, hpaths, hoperations⟩ | ⟨moved, hpaths, hoperations⟩
    · obtain ⟨front, back, hsplit, hfront, hback⟩ := List.map_eq_append_iff.mp hoperations
      have hsame : back = t.operations := by
        apply map_toLower_inj _ hops hback
        intro o ho
        exact hops' o (by rw [hsplit]; simp [ho])
      subst hsame
      by_cases hfront' : front = []
      · subst hfront'
        rw [List.map_nil] at hfront
        rw [← hfront, List.append_nil] at hpaths
        exact .inl ⟨hid.symm, hdigest.symm, hstep.symm, hpaths, hsplit.symm, hexpires, hgranted, hlimits⟩
      · refine .inr ⟨hid.symm, hdigest.symm, hstep.symm, ⟨front, hfront', .inr ⟨?_, hsplit⟩⟩, hexpires, hgranted,
          hlimits⟩
        rw [hpaths, hfront]
    · obtain ⟨front, back, hsplit, hfront, hback⟩ := List.map_eq_append_iff.mp hoperations
      have hsame : back = t'.operations := by
        apply map_toLower_inj _ hops' hback
        intro o ho
        exact hops o (by rw [hsplit]; simp [ho])
      subst hsame
      by_cases hfront' : front = []
      · subst hfront'
        rw [List.map_nil] at hfront
        rw [← hfront, List.append_nil] at hpaths
        exact .inl ⟨hid.symm, hdigest.symm, hstep.symm, hpaths.symm, hsplit, hexpires, hgranted, hlimits⟩
      · refine .inr ⟨hid.symm, hdigest.symm, hstep.symm, ⟨front, hfront', .inl ⟨?_, hsplit⟩⟩, hexpires, hgranted,
          hlimits⟩
        rw [hpaths, hfront]
  · rintro (h | h)
    · simp [fields, h.id, h.planDigest, h.stepId, h.paths, h.operations, h.expiresAtUnix, h.usesGranted, h.limits]
    · obtain ⟨moved, -, ⟨hpaths, hoperations⟩ | ⟨hpaths, hoperations⟩⟩ := h.boundary
      · simp [fields, h.id, h.planDigest, h.stepId, hpaths, hoperations, h.expiresAtUnix, h.usesGranted, h.limits]
      · simp [fields, h.id, h.planDigest, h.stepId, hpaths, hoperations, h.expiresAtUnix, h.usesGranted, h.limits]

theorem Moved.not_same (h : Moved t t') : ¬ SameScope t t' := by
  intro hsame
  obtain ⟨moved, hne, ⟨-, hoperations⟩ | ⟨-, hoperations⟩⟩ := h.boundary
  · rw [hsame.operations] at hoperations
    exact hne (List.append_left_eq_self.mp hoperations.symm)
  · rw [hsame.operations] at hoperations
    exact hne (List.append_left_eq_self.mp hoperations.symm)

end

section Sample

def sampleSecret : Bytes := List.replicate 32 7

def sampleToken (paths operations : List String) : FormatToken :=
  ⟨"t1", "plan", "s1", paths, operations, .ofRat 900, .ofRat 1, none, ""⟩

end Sample

end Noesar.Capability.Format
