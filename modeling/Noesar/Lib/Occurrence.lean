import Noesar.Lib.Utf16
import Noesar.Lib.Utf8

/-! Where a text occurs in another, its characters and its bytes do. -/

namespace Noesar.Lib

namespace Utf16

theorem units_head_not_low (c : Char) : ∃ u us, units c = u :: us ∧ isLow u = false ∧ us.length ≤ 1 := by
  have hvalid := toNat_valid c
  rw [units]
  split
  next h =>
    refine ⟨_, [], rfl, ?_, by decide⟩
    have hnat : (UInt16.ofNat c.toNat).toNat = c.toNat := UInt16.toNat_ofNat_of_lt h
    simp only [isLow, hnat, Bool.and_eq_false_iff, decide_eq_false_iff_not]
    omega
  next h =>
    refine ⟨_, [_], rfl, ?_, le_rfl⟩
    have hu : (UInt16.ofNat (0xD800 + (c.toNat - 0x10000) / 0x400)).toNat = 0xD800 + (c.toNat - 0x10000) / 0x400 := by
      apply UInt16.toNat_ofNat_of_lt
      simp only [UInt16.size]
      omega
    simp only [isLow, hu, Bool.and_eq_false_iff, decide_eq_false_iff_not]
    omega

theorem units_tail_low {c : Char} {u v : UInt16} {us : Units} (h : units c = u :: v :: us) : isLow v = true ∧ us = [] := by
  have hvalid := toNat_valid c
  rw [units] at h
  split at h
  next => cases h
  next hlarge =>
    obtain ⟨hv', hus⟩ := List.cons.inj (List.cons.inj h).2
    subst hv'
    have hv : (UInt16.ofNat (0xDC00 + (c.toNat - 0x10000) % 0x400)).toNat = 0xDC00 + (c.toNat - 0x10000) % 0x400 := by
      apply UInt16.toNat_ofNat_of_lt
      simp only [UInt16.size]
      omega
    refine ⟨?_, hus.symm⟩
    simp only [isLow, hv, Bool.and_eq_true, decide_eq_true_eq]
    omega

theorem encode_cons (c : Char) (cs : List Char) : encode (c :: cs) = units c ++ encode cs := rfl

theorem prefix_of_encode {cs ds : List Char} {rest : Units} (h : encode ds = encode cs ++ rest) : cs <+: ds := by
  induction cs generalizing ds with
  | nil => exact List.nil_prefix
  | cons c cs ih =>
    cases ds with
    | nil =>
      obtain ⟨u, us, hu, -, -⟩ := units_head_not_low c
      rw [encode_cons, hu] at h
      cases h
    | cons =>
      have hpoints := congrArg points h
      rw [encode_cons, encode_cons, List.append_assoc, points_units, points_units] at hpoints
      cases (Sum.inl.inj (List.cons.inj hpoints).1)
      rw [encode_cons, encode_cons, List.append_assoc] at h
      exact List.cons_prefix_cons.mpr ⟨rfl, ih (List.append_cancel_left h)⟩

theorem infix_of_encode {cs ds : List Char} (h : encode cs <:+: encode ds) : cs <:+: ds := by
  obtain ⟨before, after, h⟩ := h
  by_cases hcs : cs = []
  · exact hcs ▸ List.nil_infix
  induction ds generalizing before with
  | nil =>
    have hnil := (List.append_eq_nil_iff.mp (List.append_eq_nil_iff.mp h).1).2
    cases cs with
    | nil => exact absurd rfl hcs
    | cons c =>
      obtain ⟨u, us, hu, -, -⟩ := units_head_not_low c
      rw [encode_cons, hu] at hnil
      cases hnil
  | cons d ds ih =>
    obtain ⟨u, us, hu, hlow, hlength⟩ := units_head_not_low d
    cases before with
    | nil =>
      rw [List.nil_append] at h
      exact (prefix_of_encode h.symm).isInfix
    | cons v before =>
      rw [encode_cons, hu, List.cons_append, List.cons_append, List.cons_append] at h
      obtain ⟨rfl, hrest⟩ := List.cons.inj h
      have hinside : ∃ before', before' ++ encode cs ++ after = encode ds := by
        cases us with
        | nil => exact ⟨before, hrest⟩
        | cons =>
          obtain ⟨hw, rfl⟩ := units_tail_low hu
          cases before with
          | nil =>
            cases cs with
            | nil => exact absurd rfl hcs
            | cons c =>
              obtain ⟨x, xs, hx, hxlow, -⟩ := units_head_not_low c
              rw [encode_cons, hx] at hrest
              rw [(List.cons.inj hrest).1, hw] at hxlow
              cases hxlow
          | cons x before => exact ⟨before, (List.cons.inj hrest).2⟩
      obtain ⟨before', hinside⟩ := hinside
      exact (ih before' hinside).trans (List.suffix_cons d ds).isInfix

end Utf16

namespace Utf8

open Framing

inductive Begun : Bytes → Partial → Prop
  | two {a : UInt8} (ha : 0xC2 ≤ a.toNat ∧ a.toNat ≤ 0xDF) : Begun [a] ⟨1, a.toNat - 0xC0, 0x80, 0xBF, le_refl _⟩
  | three {a : UInt8} (ha : 0xE0 ≤ a.toNat ∧ a.toNat ≤ 0xEF) :
    Begun [a] ⟨2, a.toNat - 0xE0, if a.toNat = 0xE0 then 0xA0 else 0x80, if a.toNat = 0xED then 0x9F else 0xBF,
      lower_outside (by decide)⟩
  | three' {a b : UInt8} (ha : 0xE0 ≤ a.toNat ∧ a.toNat ≤ 0xEF) (hb : (if a.toNat = 0xE0 then 0xA0 else 0x80) ≤ b.toNat ∧
      b.toNat ≤ if a.toNat = 0xED then 0x9F else 0xBF) :
    Begun [a, b] ⟨1, (a.toNat - 0xE0) * 64 + (b.toNat - 0x80), 0x80, 0xBF, le_refl _⟩
  | four {a : UInt8} (ha : 0xF0 ≤ a.toNat ∧ a.toNat ≤ 0xF4) :
    Begun [a] ⟨3, a.toNat - 0xF0, if a.toNat = 0xF0 then 0x90 else 0x80, if a.toNat = 0xF4 then 0x8F else 0xBF,
      lower_outside (by decide)⟩
  | four' {a b : UInt8} (ha : 0xF0 ≤ a.toNat ∧ a.toNat ≤ 0xF4) (hb : (if a.toNat = 0xF0 then 0x90 else 0x80) ≤ b.toNat ∧
      b.toNat ≤ if a.toNat = 0xF4 then 0x8F else 0xBF) :
    Begun [a, b] ⟨2, (a.toNat - 0xF0) * 64 + (b.toNat - 0x80), 0x80, 0xBF, le_refl _⟩
  | four'' {a b c : UInt8} (ha : 0xF0 ≤ a.toNat ∧ a.toNat ≤ 0xF4) (hb : (if a.toNat = 0xF0 then 0x90 else 0x80) ≤ b.toNat ∧
      b.toNat ≤ if a.toNat = 0xF4 then 0x8F else 0xBF) (hc : 0x80 ≤ c.toNat ∧ c.toNat ≤ 0xBF) :
    Begun [a, b, c] ⟨1, ((a.toNat - 0xF0) * 64 + (b.toNat - 0x80)) * 64 + (c.toNat - 0x80), 0x80, 0xBF, le_refl _⟩

variable {b : UInt8} {p : Partial} {front : Bytes}

theorem start_begun (h : (start b.toNat).2 = some p) : (start b.toNat).1 = [] ∧ Begun [b] p := by
  have hstart : start b.toNat = step none b.toNat := rfl
  rw [hstart] at h ⊢
  by_cases h2 : 0xC2 ≤ b.toNat ∧ b.toNat ≤ 0xDF
  · rw [start_two h2] at h ⊢
    cases h
    exact ⟨rfl, .two h2⟩
  by_cases h3 : 0xE0 ≤ b.toNat ∧ b.toNat ≤ 0xEF
  · rw [start_three h3] at h ⊢
    cases h
    exact ⟨rfl, .three h3⟩
  by_cases h4 : 0xF0 ≤ b.toNat ∧ b.toNat ≤ 0xF4
  · rw [start_four h4] at h ⊢
    cases h
    exact ⟨rfl, .four h4⟩
  rw [step, start] at h
  by_cases h1 : b.toNat < 0x80
  · rw [if_pos h1] at h
    cases h
  · rw [if_neg h1, if_neg h2, if_neg h3, if_neg h4] at h
    cases h

theorem begun_more (h : Begun front p) (hb : p.lower ≤ b.toNat ∧ b.toNat ≤ p.upper) (hneeded : p.needed ≠ 1) :
    Begun (front ++ [b]) ⟨p.needed - 1, p.point * 64 + (b.toNat - 0x80), 0x80, 0xBF, le_refl _⟩ := by
  cases h with
  | two => exact absurd rfl hneeded
  | three ha => exact .three' ha hb
  | three' => exact absurd rfl hneeded
  | four ha => exact .four' ha hb
  | four' ha hb' => exact .four'' ha hb' hb
  | four'' => exact absurd rfl hneeded

theorem byte_eq {a : UInt8} {n : ℕ} (h : n = a.toNat) : UInt8.ofNat n = a := by
  rw [h, UInt8.ofNat_toNat]

theorem begun_last (h : Begun front p) (hb : p.lower ≤ b.toNat ∧ b.toNat ≤ p.upper) (hneeded : p.needed = 1) :
    String.utf8EncodeChar (Char.ofNat (p.point * 64 + (b.toNat - 0x80))) = front ++ [b] := by
  have hval (n : ℕ) (hn : n < 0xD800 ∨ 0xDFFF < n ∧ n < 0x110000) : (Char.ofNat n).val.toNat = n :=
    Utf16.toNat_ofNat_of_valid hn
  cases h with
  | @two a ha =>
    dsimp only at hb ⊢
    rw [String.utf8EncodeChar, hval _ (by omega)]
    rw [if_neg (by omega), if_pos (by omega), byte_eq (a := a) (by omega), byte_eq (a := b) (by omega)]
    rfl
  | three => cases hneeded
  | @three' a c ha hc =>
    dsimp only at hb ⊢
    have hvalid : ((a.toNat - 0xE0) * 64 + (c.toNat - 0x80)) * 64 + (b.toNat - 0x80) < 0xD800 ∨
        0xDFFF < ((a.toNat - 0xE0) * 64 + (c.toNat - 0x80)) * 64 + (b.toNat - 0x80) ∧
          ((a.toNat - 0xE0) * 64 + (c.toNat - 0x80)) * 64 + (b.toNat - 0x80) < 0x110000 := by
      split_ifs at hc <;> omega
    have hlarge : 0x800 ≤ ((a.toNat - 0xE0) * 64 + (c.toNat - 0x80)) * 64 + (b.toNat - 0x80) := by
      split_ifs at hc <;> omega
    rw [String.utf8EncodeChar, hval _ hvalid]
    rw [if_neg (by omega), if_neg (by omega), if_pos (by split_ifs at hc <;> omega),
      byte_eq (a := a) (by split_ifs at hc <;> omega), byte_eq (a := c) (by split_ifs at hc <;> omega), byte_eq (a := b) (by omega)]
    rfl
  | four => cases hneeded
  | four' => cases hneeded
  | @four'' a c d ha hc hd =>
    dsimp only at hb ⊢
    have hvalid : 0xFFFF < (((a.toNat - 0xF0) * 64 + (c.toNat - 0x80)) * 64 + (d.toNat - 0x80)) * 64 + (b.toNat - 0x80) ∧
        (((a.toNat - 0xF0) * 64 + (c.toNat - 0x80)) * 64 + (d.toNat - 0x80)) * 64 + (b.toNat - 0x80) < 0x110000 := by
      split_ifs at hc <;> omega
    rw [String.utf8EncodeChar, hval _ (by omega)]
    rw [if_neg (by omega), if_neg (by omega), if_neg (by omega), byte_eq (a := a) (by split_ifs at hc <;> omega),
      byte_eq (a := c) (by split_ifs at hc <;> omega), byte_eq (a := d) (by omega), byte_eq (a := b) (by omega)]
    rfl

theorem begun_decode (h : Begun front p) (bs : Bytes) :
    (∃ c tail rest, bs = tail ++ rest ∧ String.utf8EncodeChar c = front ++ tail ∧
      decodeFrom (some p) bs = c :: decode rest) ∨
    ∃ junk rest, bs = junk ++ rest ∧ decodeFrom (some p) bs = replacement :: decode rest := by
  induction bs generalizing front p with
  | nil => exact .inr ⟨[], [], rfl, rfl⟩
  | cons b bs ih =>
    rw [decodeFrom_cons]
    by_cases hb : p.lower ≤ b.toNat ∧ b.toNat ≤ p.upper
    · by_cases hneeded : p.needed = 1
      · rw [step_last hneeded hb]
        exact .inl ⟨_, [b], bs, rfl, begun_last h hb hneeded, rfl⟩
      · rw [step_more hneeded hb]
        rcases ih (begun_more h hb hneeded) with ⟨c, tail, rest, rfl, hc, hdecode⟩ | ⟨junk, rest, rfl, hdecode⟩
        · refine .inl ⟨c, b :: tail, rest, rfl, ?_, hdecode⟩
          rw [hc, List.append_assoc]
          rfl
        · exact .inr ⟨b :: junk, rest, rfl, hdecode⟩
    · rw [step, if_neg hb]
      exact .inr ⟨[], b :: bs, rfl, rfl⟩

theorem decode_cons (b : UInt8) (bs : Bytes) :
    (∃ c rest, b :: bs = String.utf8EncodeChar c ++ rest ∧ decode (b :: bs) = c :: decode rest) ∨
      ∃ rest, rest <:+ bs ∧ decode (b :: bs) = replacement :: decode rest := by
  have hstep : decode (b :: bs) = (start b.toNat).1 ++ decodeFrom (start b.toNat).2 bs := decodeFrom_cons none b bs
  cases hs : (start b.toNat).2 with
  | some =>
    obtain ⟨hnone, hbegun⟩ := start_begun hs
    rw [hstep, hnone, hs]
    rcases begun_decode hbegun bs with ⟨c, tail, rest, rfl, hc, hdecode⟩ | ⟨junk, rest, rfl, hdecode⟩
    · refine .inl ⟨c, rest, ?_, hdecode⟩
      rw [hc]
      rfl
    · exact .inr ⟨rest, List.suffix_append _ _, hdecode⟩
  | none =>
    by_cases hascii : b.toNat < 0x80
    · refine .inl ⟨Char.ofNat b.toNat, bs, ?_, ?_⟩
      · rw [String.utf8EncodeChar, show (Char.ofNat b.toNat).val.toNat = b.toNat from
          Utf16.toNat_ofNat_of_valid (.inl (by omega))]
        rw [if_pos (by omega), byte_eq (a := b) rfl]
        rfl
      · rw [hstep, hs, start, if_pos hascii]
        rfl
    · refine .inr ⟨bs, List.suffix_rfl, ?_⟩
      rw [hstep, hs]
      unfold start at hs ⊢
      rw [if_neg hascii] at hs ⊢
      split_ifs at hs ⊢
      rfl

theorem prefix_of_decode {bs : Bytes} {cs rest : List Char} (h : decode bs = cs ++ rest) (hcs : replacement ∉ cs) :
    encode cs <+: bs := by
  induction cs generalizing bs with
  | nil => exact List.nil_prefix
  | cons c cs ih =>
    cases bs with
    | nil => cases h
    | cons b bs =>
      rcases decode_cons b bs with ⟨d, tail, hbytes, hdecode⟩ | ⟨tail, -, hdecode⟩
      · rw [hdecode] at h
        obtain ⟨rfl, hrest⟩ := List.cons.inj h
        obtain ⟨last, hlast⟩ := ih hrest fun hmem ↦ hcs (List.mem_cons_of_mem _ hmem)
        refine ⟨last, ?_⟩
        rw [hbytes, ← hlast, encode, List.flatMap_cons, List.append_assoc]
        rfl
      · rw [hdecode] at h
        exact absurd (List.mem_cons.mpr (.inl (List.cons.inj h).1)) hcs

theorem infix_of_decode {bs : Bytes} {cs : List Char} (h : cs <:+: decode bs) (hcs : replacement ∉ cs) :
    encode cs <:+: bs := by
  obtain ⟨before, after, h⟩ := h
  induction hlength : bs.length using Nat.strong_induction_on generalizing bs before with
  | _ n ih =>
    cases before with
    | nil =>
      rw [List.nil_append] at h
      exact (prefix_of_decode h.symm hcs).isInfix
    | cons c before =>
      cases bs with
      | nil => cases h
      | cons b bs =>
        rcases decode_cons b bs with ⟨d, tail, hbytes, hdecode⟩ | ⟨tail, hsuffix, hdecode⟩
        · rw [hdecode] at h
          have hshort : tail.length < n := by
            have hpos : 0 < (String.utf8EncodeChar d).length := String.length_utf8EncodeChar d ▸ d.utf8Size_pos
            have htotal := congrArg List.length hbytes
            rw [List.length_append] at htotal
            omega
          rw [hbytes]
          exact (ih _ hshort before (List.cons.inj h).2 rfl).trans (List.suffix_append _ _).isInfix
        · rw [hdecode] at h
          have hshort : tail.length < n := by
            rw [← hlength, List.length_cons]
            exact Nat.lt_succ_of_le hsuffix.length_le
          exact (ih _ hshort before (List.cons.inj h).2 rfl).trans (hsuffix.isInfix.trans (List.suffix_cons b bs).isInfix)

end Utf8

end Noesar.Lib
