import Noesar.Lib.Framing

namespace Noesar.Lib.Utf8

open Framing

def replacement : Char := Char.ofNat 0xFFFD

/-- A character that has been begun: the bytes it still needs, its bits up to here, and the
bounds of its next byte. -/
structure Partial where
  needed : ℕ
  point : ℕ
  lower : ℕ
  upper : ℕ
  outside : 0x80 ≤ lower

theorem lower_outside {p : Prop} [Decidable p] {n : ℕ} (h : 0x80 ≤ n) : 0x80 ≤ if p then n else 0x80 := by
  split
  · exact h
  · exact le_refl _

def start (b : ℕ) : List Char × Option Partial :=
  if b < 0x80 then ([Char.ofNat b], none)
  else if 0xC2 ≤ b ∧ b ≤ 0xDF then ([], some ⟨1, b - 0xC0, 0x80, 0xBF, le_refl _⟩)
  else if 0xE0 ≤ b ∧ b ≤ 0xEF then
    ([], some ⟨2, b - 0xE0, if b = 0xE0 then 0xA0 else 0x80, if b = 0xED then 0x9F else 0xBF, lower_outside (by decide)⟩)
  else if 0xF0 ≤ b ∧ b ≤ 0xF4 then
    ([], some ⟨3, b - 0xF0, if b = 0xF0 then 0x90 else 0x80, if b = 0xF4 then 0x8F else 0xBF, lower_outside (by decide)⟩)
  else ([replacement], none)

def step : Option Partial → ℕ → List Char × Option Partial
  | none, b => start b
  | some p, b =>
    if p.lower ≤ b ∧ b ≤ p.upper then
      if p.needed = 1 then ([Char.ofNat (p.point * 64 + (b - 0x80))], none)
      else ([], some ⟨p.needed - 1, p.point * 64 + (b - 0x80), 0x80, 0xBF, le_refl _⟩)
    else (replacement :: (start b).1, (start b).2)

def decodeFrom : Option Partial → Bytes → List Char
  | none, [] => []
  | some _, [] => [replacement]
  | s, b :: bs => (step s b.toNat).1 ++ decodeFrom (step s b.toNat).2 bs

def decode (bs : Bytes) : List Char := decodeFrom none bs

def encode (cs : List Char) : Bytes := cs.flatMap String.utf8EncodeChar

theorem utf8_ofList (cs : List Char) : utf8 (String.ofList cs) = encode cs := by
  rw [utf8, String.toByteArray_ofList, List.utf8Encode, encode, List.toList_data_toByteArray]

theorem decodeFrom_cons (s : Option Partial) (b : UInt8) (bs : Bytes) :
    decodeFrom s (b :: bs) = (step s b.toNat).1 ++ decodeFrom (step s b.toNat).2 bs := by
  cases s <;> rfl

theorem toNat_ofNat {n : ℕ} (h : n < 256) : (UInt8.ofNat n).toNat = n := by
  rw [UInt8.toNat_ofNat', Nat.mod_eq_of_lt h]

inductive Completes : Option Partial → Bytes → Char → Prop
  | last {s : Option Partial} {b : UInt8} {c : Char} (h : step s b.toNat = ([c], none)) : Completes s [b] c
  | more {s : Option Partial} {b : UInt8} {p : Partial} {bs : Bytes} {c : Char} (h : step s b.toNat = ([], some p))
      (hrest : Completes (some p) bs c) : Completes s (b :: bs) c

theorem Completes.decode {s : Option Partial} {bs : Bytes} {c : Char} (h : Completes s bs c) (rest : Bytes) :
    decodeFrom s (bs ++ rest) = c :: decodeFrom none rest := by
  induction h with
  | last h =>
    rw [List.singleton_append, decodeFrom_cons, h]
    rfl
  | more h _ ih =>
    rw [List.cons_append, decodeFrom_cons, h]
    exact ih

theorem Completes.torn {p : Partial} {front back : Bytes} {c : Char} (h : Completes (some p) (front ++ back) c)
    (hback : back ≠ []) : decodeFrom (some p) front = [replacement] := by
  induction front generalizing p with
  | nil => rfl
  | cons b front ih =>
    rw [List.cons_append] at h
    generalize hbs : front ++ back = bs at h
    cases h with
    | last => exact absurd (List.append_eq_nil_iff.mp hbs).2 hback
    | more h hrest =>
      rw [decodeFrom_cons, h]
      rw [← hbs] at hrest
      exact ih hrest

theorem step_last {p : Partial} {b : ℕ} (hneeded : p.needed = 1) (h : p.lower ≤ b ∧ b ≤ p.upper) :
    step (some p) b = ([Char.ofNat (p.point * 64 + (b - 0x80))], none) := by
  rw [step, if_pos h, if_pos hneeded]

theorem step_more {p : Partial} {b : ℕ} (hneeded : p.needed ≠ 1) (h : p.lower ≤ b ∧ b ≤ p.upper) :
    step (some p) b = ([], some ⟨p.needed - 1, p.point * 64 + (b - 0x80), 0x80, 0xBF, le_refl _⟩) := by
  rw [step, if_pos h, if_neg hneeded]

theorem start_two {b : ℕ} (h : 0xC2 ≤ b ∧ b ≤ 0xDF) : step none b = ([], some ⟨1, b - 0xC0, 0x80, 0xBF, le_refl _⟩) := by
  rw [step, start, if_neg (by omega), if_pos h]

theorem start_three {b : ℕ} (h : 0xE0 ≤ b ∧ b ≤ 0xEF) : step none b =
    ([], some ⟨2, b - 0xE0, if b = 0xE0 then 0xA0 else 0x80, if b = 0xED then 0x9F else 0xBF, lower_outside (by decide)⟩) := by
  rw [step, start, if_neg (by omega), if_neg (by omega), if_pos h]

theorem start_four {b : ℕ} (h : 0xF0 ≤ b ∧ b ≤ 0xF4) : step none b =
    ([], some ⟨3, b - 0xF0, if b = 0xF0 then 0x90 else 0x80, if b = 0xF4 then 0x8F else 0xBF, lower_outside (by decide)⟩) := by
  rw [step, start, if_neg (by omega), if_neg (by omega), if_neg (by omega), if_pos h]

theorem ofNat_toNat_eq {c : Char} {n : ℕ} (h : n = c.toNat) : Char.ofNat n = c := by
  rw [h, Char.ofNat_toNat]

theorem completes_encode (c : Char) : Completes none (String.utf8EncodeChar c) c := by
  have hvalid : c.toNat < 0xD800 ∨ 0xDFFF < c.toNat ∧ c.toNat < 0x110000 := c.valid
  have hval : c.val.toNat = c.toNat := rfl
  rw [String.utf8EncodeChar, hval]
  generalize hn : c.toNat = n at hvalid
  split
  next h =>
    apply Completes.last
    rw [toNat_ofNat (by omega), step, start, if_pos (by omega), ofNat_toNat_eq hn.symm]
  split
  next h1 h2 =>
    apply Completes.more
    · rw [toNat_ofNat (by omega), start_two (by omega)]
    · apply Completes.last
      rw [toNat_ofNat (by omega), step_last rfl (by dsimp only; omega)]
      rw [@ofNat_toNat_eq c _ (by rw [hn]; dsimp only; omega)]
  split
  next h1 h2 h3 =>
    apply Completes.more
    · rw [toNat_ofNat (by omega), start_three (by omega)]
    · apply Completes.more
      · rw [toNat_ofNat (by omega), step_more (by simp) (by dsimp only; split <;> split <;> omega)]
      · apply Completes.last
        rw [toNat_ofNat (by omega), step_last rfl (by dsimp only; omega)]
        rw [@ofNat_toNat_eq c _ (by rw [hn]; dsimp only; omega)]
  next h1 h2 h3 =>
    apply Completes.more
    · rw [toNat_ofNat (by omega), start_four (by omega)]
    · apply Completes.more
      · rw [toNat_ofNat (by omega), step_more (by simp) (by dsimp only; split <;> split <;> omega)]
      · apply Completes.more
        · rw [toNat_ofNat (by omega), step_more (by simp) (by dsimp only; omega)]
        · apply Completes.last
          rw [toNat_ofNat (by omega), step_last rfl (by dsimp only; omega)]
          rw [@ofNat_toNat_eq c _ (by rw [hn]; dsimp only; omega)]

theorem decode_encode_append (cs : List Char) (bs : Bytes) : decode (encode cs ++ bs) = cs ++ decode bs := by
  induction cs with
  | nil => rfl
  | cons c cs ih =>
    rw [encode, List.flatMap_cons, List.append_assoc, decode, (completes_encode c).decode, List.cons_append]
    exact congrArg (c :: ·) ih

theorem decode_torn {c : Char} {front back : Bytes} (hsplit : String.utf8EncodeChar c = front ++ back)
    (hfront : front ≠ []) (hback : back ≠ []) : decode front = [replacement] ∧ 0x80 ≤ c.toNat := by
  have hcompletes := completes_encode c
  constructor
  · rw [hsplit] at hcompletes
    cases front with
    | nil => exact absurd rfl hfront
    | cons b front =>
      rw [List.cons_append] at hcompletes
      generalize hbs : front ++ back = bs at hcompletes
      cases hcompletes with
      | last => exact absurd (List.append_eq_nil_iff.mp hbs).2 hback
      | more h hrest =>
        rw [decode, decodeFrom_cons, h]
        rw [← hbs] at hrest
        exact hrest.torn hback
  · by_contra hascii
    have hone : String.utf8EncodeChar c = [UInt8.ofNat c.toNat] := if_pos (by have : c.val.toNat = c.toNat := rfl; omega)
    have hlength := congrArg List.length (hone.symm.trans hsplit)
    have := List.length_pos_iff.mpr hfront
    have := List.length_pos_iff.mpr hback
    rw [List.length_append, List.length_singleton] at hlength
    omega

theorem take_encode (cs : List Char) (k : ℕ) : ∃ front back, cs = front ++ back ∧
    ((encode cs).take k = encode front ∨
      ∃ c rest torn left, back = c :: rest ∧ String.utf8EncodeChar c = torn ++ left ∧ torn ≠ [] ∧ left ≠ [] ∧
        (encode cs).take k = encode front ++ torn) := by
  induction cs generalizing k with
  | nil => exact ⟨[], [], rfl, .inl (by simp [encode])⟩
  | cons c cs ih =>
    have hcons : encode (c :: cs) = String.utf8EncodeChar c ++ encode cs := rfl
    rcases Nat.eq_zero_or_pos k with rfl | hpos
    · exact ⟨[], c :: cs, rfl, .inl (by simp [encode])⟩
    by_cases hk : k < (String.utf8EncodeChar c).length
    · refine ⟨[], c :: cs, rfl, .inr ⟨c, cs, (String.utf8EncodeChar c).take k, (String.utf8EncodeChar c).drop k, rfl,
        (List.take_append_drop k _).symm, ?_, ?_, ?_⟩⟩
      · rw [← List.length_pos_iff, List.length_take]
        omega
      · rw [← List.length_pos_iff, List.length_drop]
        omega
      · rw [hcons, List.take_append_of_le_length hk.le]
        rfl
    · obtain ⟨front, back, rfl, htake⟩ := ih (k - (String.utf8EncodeChar c).length)
      have hsplit : (encode (c :: (front ++ back))).take k =
          String.utf8EncodeChar c ++ (encode (front ++ back)).take (k - (String.utf8EncodeChar c).length) := by
        rw [hcons, List.take_append, List.take_of_length_le (by omega)]
      refine ⟨c :: front, back, rfl, ?_⟩
      rcases htake with htake | ⟨d, rest, torn, left, hback, hchar, htorn, hleft, htake⟩
      · left
        rw [hsplit, htake]
        rfl
      · right
        refine ⟨d, rest, torn, left, hback, hchar, htorn, hleft, ?_⟩
        rw [hsplit, htake, ← List.append_assoc]
        rfl

def newline : UInt8 := 10

theorem decodeFrom_newline (s : Option Partial) :
    ∃ cs, ∀ bs, decodeFrom s (newline :: bs) = cs ++ '\n' :: decode bs := by
  cases s with
  | none => exact ⟨[], fun bs ↦ rfl⟩
  | some p =>
    have houtside := p.outside
    refine ⟨[replacement], fun bs ↦ ?_⟩
    rw [decodeFrom_cons, step, if_neg (show ¬(p.lower ≤ newline.toNat ∧ _) by change ¬(p.lower ≤ 10 ∧ _); omega)]
    rfl

theorem decode_newline (bs : Bytes) : ∃ cs, ∀ rest, decode (bs ++ newline :: rest) = cs ++ '\n' :: decode rest := by
  suffices h : ∀ s, ∃ cs, ∀ rest, decodeFrom s (bs ++ newline :: rest) = cs ++ '\n' :: decode rest from h none
  induction bs with
  | nil => exact decodeFrom_newline
  | cons b bs ih =>
    intro s
    obtain ⟨cs, hcs⟩ := ih (step s b.toNat).2
    refine ⟨(step s b.toNat).1 ++ cs, fun rest ↦ ?_⟩
    rw [List.cons_append, decodeFrom_cons, hcs, List.append_assoc]

end Noesar.Lib.Utf8
