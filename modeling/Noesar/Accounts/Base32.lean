import Mathlib
import Noesar.Capability.Plan
import Noesar.Lib.Accumulator
import Noesar.Lib.Fallible

namespace Noesar.Accounts.Base32

open Lib Lib.Accumulator Capability

def alphabet : List Char := "ABCDEFGHIJKLMNOPQRSTUVWXYZ234567".toList

def digit (n : ℕ) : Char := alphabet.getD n 'A'

/-- The `bits`, the `value` of 32 bits and the `output` of the loop over the bytes. -/
structure Encoder where
  bits : ℕ
  value : BitVec 32
  output : List Char

def drain (bits : ℕ) (value : BitVec 32) (output : List Char) : Encoder :=
  if 5 ≤ bits then drain (bits - 5) value (output ++ [digit (value >>> (bits - 5) &&& 31).toNat]) else ⟨bits, value, output⟩

def encodeByte (s : Encoder) (byte : UInt8) : Encoder :=
  drain (s.bits + 8) (s.value <<< 8 ||| BitVec.ofNat 32 byte.toNat) s.output

def base32Encode (buffer : List UInt8) : List Char :=
  let s := buffer.foldl encodeByte ⟨0, 0, []⟩
  if 0 < s.bits then s.output ++ [digit (s.value <<< (5 - s.bits) &&& 31).toNat] else s.output

/-- `toUpperCase`. Of the characters beyond ASCII only these become letters of it. -/
def upper (c : Char) : List Char :=
  match c with
  | 'ß' => "SS".toList
  | 'ı' => "I".toList
  | 'ſ' => "S".toList
  | 'ﬀ' => "FF".toList
  | 'ﬁ' => "FI".toList
  | 'ﬂ' => "FL".toList
  | 'ﬃ' => "FFI".toList
  | 'ﬄ' => "FFL".toList
  | 'ﬅ' | 'ﬆ' => "ST".toList
  | c => [c.toUpper]

/-- `replace(/=+$/, '')` -/
def unpadded (text : List Char) : List Char := text.rdropWhile (· = '=')

def normalized (text : List Char) : List Char := ((unpadded text).filter fun c ↦ !isWhiteSpace c).flatMap upper

structure Decoder where
  bits : ℕ
  value : BitVec 32
  bytes : List UInt8

def decodeCharacter (s : Decoder) (character : Char) : Except String Decoder :=
  match alphabet.findIdx? (· = character) with
  | none => .error "Invalid base32 secret"
  | some index =>
    let value := s.value <<< 5 ||| BitVec.ofNat 32 index
    let bits := s.bits + 5
    if 8 ≤ bits then .ok ⟨bits - 8, value, s.bytes ++ [UInt8.ofNat (value >>> (bits - 8) &&& 255).toNat]⟩
    else .ok ⟨bits, value, s.bytes⟩

def base32Decode (text : List Char) : Except String (List UInt8) := do
  let s ← (normalized text).foldlM decodeCharacter ⟨0, 0, []⟩
  return s.bytes

/-- A text with white space put in, a letter in lower case or padding behind it. -/
inductive Dressing : List Char → List Char → Prop
  | space (before after : List Char) (c : Char) (hspace : isWhiteSpace c = true) :
    Dressing (before ++ after) (before ++ c :: after)
  | lower (before after : List Char) (c : Char) (hupper : c.isUpper = true) :
    Dressing (before ++ c :: after) (before ++ c.toLower :: after)
  | padding (text : List Char) : Dressing text (text ++ ['='])

def Dressed : List Char → List Char → Prop := Relation.ReflTransGen Dressing

/-- The padding stands at the very end. -/
def PaddedLast (text : List Char) : Prop := '=' ∉ unpadded text

theorem digit_spec {n : ℕ} (h : n < 32) : alphabet.findIdx? (· = digit n) = some n ∧ upper (digit n) = [digit n] ∧
    isWhiteSpace (digit n) = false ∧ digit n ≠ '=' := by
  have hall : ∀ n < 32, alphabet.findIdx? (· = digit n) = some n ∧ upper (digit n) = [digit n] ∧
      isWhiteSpace (digit n) = false ∧ digit n ≠ '=' := by decide +kernel
  exact hall n h

section Encode

variable {ins outs : List ℕ} {bits pending : ℕ} {value : BitVec 32} {output : List Char}

/-- The loop holds less than a digit, and has given out the digits of all the rest. -/
def Encoded (ins : List ℕ) (s : Encoder) : Prop :=
  s.bits < 5 ∧ ∃ outs pending, s.output = outs.map digit ∧ Carries 8 5 ins outs s.value s.bits pending

theorem drain_encoded (h : Carries 8 5 ins outs value bits pending) (houtput : output = outs.map digit) :
    Encoded ins (drain bits value output) := by
  induction bits using Nat.strong_induction_on generalizing outs output pending with
  | _ bits ih =>
    rw [drain]
    split
    · rename_i hbits
      obtain ⟨rest, rfl⟩ := Nat.exists_eq_add_of_le' hbits
      rw [Nat.add_sub_cancel]
      refine ih rest (by omega) h.emit ?_
      rw [houtput, List.map_append, ← h.holds.top (by omega)]
      rfl
    · exact ⟨by simpa using ‹¬5 ≤ bits›, outs, pending, houtput, h⟩

theorem encodeByte_encoded {s : Encoder} (h : Encoded ins s) (byte : UInt8) :
    Encoded (ins ++ [byte.toNat]) (encodeByte s byte) := by
  obtain ⟨hbits, outs, pending, houtput, hcarries⟩ := h
  exact drain_encoded (hcarries.push (by omega) byte.toNat_lt) houtput

theorem encode_encoded (buffer : List UInt8) : Encoded (buffer.map UInt8.toNat) (buffer.foldl encodeByte ⟨0, 0, []⟩) := by
  induction buffer using List.reverseRecOn with
  | nil => exact ⟨by simp, [], 0, rfl, .empty 8 5 0⟩
  | append_singleton buffer byte ih =>
    rw [List.foldl_append, List.map_append]
    exact encodeByte_encoded ih byte

/-- The digits are those of the bytes as one number, with zero bits behind it up to a whole digit. -/
theorem base32Encode_spec (buffer : List UInt8) : ∃ outs pad, base32Encode buffer = outs.map digit ∧ pad < 5 ∧
    (∀ d ∈ outs, d < 32) ∧ number 32 outs = number 256 (buffer.map UInt8.toNat) * 2 ^ pad ∧
      5 * outs.length = 8 * buffer.length + pad := by
  obtain ⟨hbits, outs, pending, houtput, hcarries⟩ := encode_encoded buffer
  have hnumber : number 256 (buffer.map UInt8.toNat) = number 32 outs * 2 ^ _ + pending := hcarries.number
  have hlength := hcarries.length
  rw [List.length_map] at hlength
  unfold base32Encode
  generalize buffer.foldl encodeByte ⟨0, 0, []⟩ = s at *
  dsimp only
  split
  · have hpow : 2 ^ s.bits * 2 ^ (5 - s.bits) = 32 := by
      rw [← pow_add, show s.bits + (5 - s.bits) = 5 by omega]
      rfl
    have hlast : pending * 2 ^ (5 - s.bits) < 32 := by
      rw [← hpow]
      exact Nat.mul_lt_mul_of_pos_right hcarries.holds.lt (by positivity)
    refine ⟨outs ++ [pending * 2 ^ (5 - s.bits)], 5 - s.bits, ?_, by omega, ?_, ?_, ?_⟩
    · rw [houtput, List.map_append, ← hcarries.holds.last (k := 5) hbits.le (by omega)]
      rfl
    · intro d hd
      rcases List.mem_append.mp hd with hold | hnew
      · exact hcarries.small d hold
      · rwa [List.mem_singleton.mp hnew]
    · rw [number_snoc, hnumber, Nat.add_mul, Nat.mul_assoc, hpow]
    · rw [List.length_append, List.length_singleton]
      omega
  · have hzero : s.bits = 0 := by omega
    have hlt := hcarries.holds.lt
    rw [hzero, pow_zero] at hlt hnumber
    refine ⟨outs, 0, houtput, by omega, hcarries.small, ?_, by omega⟩
    rw [hnumber, show pending = 0 by omega, Nat.mul_one, Nat.add_zero, pow_zero, Nat.mul_one]

end Encode

section Decode

/-- The loop holds less than a byte, and has given out the bytes of all the rest. -/
def Decoded (ins : List ℕ) (s : Decoder) : Prop :=
  s.bits < 8 ∧ ∃ outs pending, s.bytes.map UInt8.toNat = outs ∧ Carries 5 8 ins outs s.value s.bits pending

theorem decodeCharacter_decoded {ins : List ℕ} {s : Decoder} (h : Decoded ins s) {d : ℕ} (hd : d < 32) :
    ∃ s', decodeCharacter s (digit d) = .ok s' ∧ Decoded (ins ++ [d]) s' := by
  obtain ⟨hbits, outs, pending, hbytes, hcarries⟩ := h
  have hpushed := hcarries.push (d := d) (by omega) hd
  rw [decodeCharacter, (digit_spec hd).1]
  dsimp only
  split
  · rename_i hfull
    obtain ⟨rest, hrest⟩ := Nat.exists_eq_add_of_le' hfull
    rw [hrest, Nat.add_sub_cancel]
    rw [hrest] at hpushed
    have htop := hpushed.holds.top (by omega)
    have hsmall := hpushed.emit.small
    refine ⟨_, rfl, show rest < 8 by omega, _, _, ?_, hpushed.emit⟩
    rw [List.map_append, hbytes, List.map_singleton, show (255 : BitVec 32) = BitVec.ofNat 32 (2 ^ 8 - 1) from rfl, htop,
      UInt8.toNat_ofNat_of_lt' (hsmall _ (by simp))]
  · exact ⟨_, rfl, show s.bits + 5 < 8 by omega, _, _, hbytes, hpushed⟩

theorem decode_decoded {ds : List ℕ} (hds : ∀ d ∈ ds, d < 32) :
    ∃ s, (ds.map digit).foldlM decodeCharacter ⟨0, 0, []⟩ = .ok s ∧ Decoded ds s := by
  induction ds using List.reverseRecOn with
  | nil => exact ⟨_, rfl, by simp, [], 0, rfl, .empty 5 8 0⟩
  | append_singleton ds d ih =>
    obtain ⟨s, hs, hdecoded⟩ := ih fun d hd ↦ hds d (List.mem_append_left _ hd)
    obtain ⟨s', hs', hdecoded'⟩ := decodeCharacter_decoded hdecoded (hds d (by simp))
    refine ⟨s', ?_, hdecoded'⟩
    rw [List.map_append, List.foldlM_append, hs]
    show ([digit d].foldlM decodeCharacter s : Except String Decoder) = .ok s'
    rw [List.foldlM_cons, hs']
    rfl

theorem normalized_digits {ds : List ℕ} (hds : ∀ d ∈ ds, d < 32) : normalized (ds.map digit) = ds.map digit := by
  have hunpadded : unpadded (ds.map digit) = ds.map digit := by
    rw [unpadded, List.rdropWhile_eq_self_iff]
    intro hne heq
    obtain ⟨d, hd, hdigit⟩ := List.mem_map.mp (List.getLast_mem hne)
    exact (digit_spec (hds d hd)).2.2.2 (hdigit.trans (of_decide_eq_true heq))
  have hfiltered : (ds.map digit).filter (fun c ↦ !isWhiteSpace c) = ds.map digit := by
    rw [List.filter_eq_self]
    intro c hc
    obtain ⟨d, hd, rfl⟩ := List.mem_map.mp hc
    simp [(digit_spec (hds d hd)).2.2.1]
  rw [normalized, hunpadded, hfiltered, List.flatMap_map]
  rw [List.flatMap_congr fun d hd ↦ (digit_spec (hds d hd)).2.1, ← List.map_eq_flatMap]

theorem base32Decode_base32Encode (bytes : List UInt8) : base32Decode (base32Encode bytes) = .ok bytes := by
  obtain ⟨ds, pad, hencode, hpad, hds, hnumber, hlength⟩ := base32Encode_spec bytes
  obtain ⟨s, hs, hbits, outs, pending, rfl, hcarries⟩ := decode_decoded hds
  have hcount := hcarries.length
  have hvalue := hcarries.number
  rw [List.length_map] at hcount
  -- As many bytes come out as went in, and the zero bits behind them are what is left.
  obtain ⟨hsame, hleft⟩ : s.bytes.length = bytes.length ∧ s.bits = pad := by omega
  have hlt := hcarries.holds.lt
  rw [hleft] at hlt hvalue
  have hnumbers : number 256 (s.bytes.map UInt8.toNat) = number 256 (bytes.map UInt8.toNat) := by
    have hdiv := congrArg (· / 2 ^ pad) (hvalue.symm.trans hnumber)
    simpa [Nat.mul_add_div, Nat.add_comm, Nat.add_mul_div_right, Nat.div_eq_of_lt hlt] using hdiv
  have hbyte (bs : List UInt8) : ∀ d ∈ bs.map UInt8.toNat, d < 256 := by
    intro d hd
    obtain ⟨b, -, rfl⟩ := List.mem_map.mp hd
    exact b.toNat_lt
  have hbytes : s.bytes = bytes := by
    refine List.map_injective_iff.mpr (fun _ _ ↦ UInt8.toNat_inj.mp) ?_
    exact number_inj (by omega) (by simpa using hsame) (hbyte _) (hbyte _) hnumbers
  rw [base32Decode, hencode, normalized_digits hds, hs, ← hbytes]
  rfl

end Decode

section Dressed

variable {text dressed : List Char} {bytes : List UInt8}

def meant (c : Char) : Bool := !isWhiteSpace c && c ≠ '='

theorem upper_spec {c : Char} (h : c.isUpper = true) : meant c.toLower = meant c ∧ upper c.toLower = upper c := by
  have hall : ∀ n < 26, meant (Char.ofNat (65 + n)).toLower = meant (Char.ofNat (65 + n)) ∧
      upper (Char.ofNat (65 + n)).toLower = upper (Char.ofNat (65 + n)) := by decide +kernel
  simp only [Char.isUpper, decide_eq_true_eq] at h
  have hlow : 65 ≤ c.toNat := UInt32.le_iff_toNat_le.mp h.1
  have hhigh : c.toNat ≤ 90 := UInt32.le_iff_toNat_le.mp h.2
  have hc := hall (c.toNat - 65) (by omega)
  rwa [show 65 + (c.toNat - 65) = c.toNat by omega, Char.ofNat_toNat] at hc

theorem normalized_eq (h : PaddedLast text) : normalized text = (text.filter meant).flatMap upper := by
  have hpadding : (text.rtakeWhile (· = '=')).filter meant = [] := by
    rw [List.filter_eq_nil_iff]
    intro c hc
    obtain rfl : c = '=' := by simpa using List.mem_rtakeWhile_imp hc
    decide
  have hfront : (unpadded text).filter (fun c ↦ !isWhiteSpace c) = (unpadded text).filter meant := by
    refine List.filter_congr fun c hc ↦ ?_
    have hne : c ≠ '=' := fun heq ↦ h (heq ▸ hc)
    simp [meant, hne]
  have hwhole : text.filter meant = (unpadded text).filter meant := by
    conv_lhs => rw [← List.rdropWhile_append_rtakeWhile (p := (· = '=')) (l := text)]
    rw [List.filter_append, hpadding, List.append_nil]
    rfl
  rw [normalized, hfront, hwhole]

theorem Dressed.meant_eq (h : Dressed text dressed) :
    (dressed.filter meant).flatMap upper = (text.filter meant).flatMap upper := by
  induction h with
  | refl => rfl
  | tail _ hstep ih =>
    rw [← ih]
    cases hstep with
    | space before after c hspace => simp [meant, hspace]
    | lower before after c hupper =>
      obtain ⟨hmeant, hsame⟩ := upper_spec hupper
      simp only [List.filter_append, List.filter_cons, hmeant, List.flatMap_append]
      split <;> simp [hsame]
    | padding => simp [meant]

theorem accepted_known {s s' : Decoder} {cs : List Char} (h : cs.foldlM decodeCharacter s = .ok s') :
    ∀ c ∈ cs, (alphabet.findIdx? (· = c)).isSome = true := by
  induction cs generalizing s with
  | nil => simp
  | cons c cs ih =>
    rw [List.foldlM_cons, bind_ok] at h
    obtain ⟨t, ht, h⟩ := h
    intro x hx
    rcases List.mem_cons.mp hx with rfl | hx
    · rw [decodeCharacter] at ht
      cases hindex : alphabet.findIdx? (· = x) with
      | none =>
        rw [hindex] at ht
        cases ht
      | some => rfl
    · exact ih h x hx

theorem paddedLast_of_accepted (h : base32Decode text = .ok bytes) : PaddedLast text := by
  rw [base32Decode, bind_ok] at h
  obtain ⟨s, hs, -⟩ := h
  intro hmem
  have hknown := accepted_known hs '=' (List.mem_flatMap.mpr ⟨'=', List.mem_filter.mpr ⟨hmem, rfl⟩, by decide⟩)
  cases hknown

/-- The bytes come back whatever their number, and a text read as these bytes still is when it is dressed up exactly
if the padding stays at the very end: white space in it or behind it is taken out too late. -/
theorem base32_survives_iff (secret : List UInt8) (haccepted : base32Decode text = .ok bytes) (hdressed : Dressed text dressed) :
    base32Decode (base32Encode secret) = .ok secret ∧ (base32Decode dressed = .ok bytes ↔ PaddedLast dressed) := by
  refine ⟨base32Decode_base32Encode secret, paddedLast_of_accepted, ?_⟩
  intro hlast
  rw [base32Decode, normalized_eq (paddedLast_of_accepted haccepted)] at haccepted
  rw [base32Decode, normalized_eq hlast, hdressed.meant_eq, haccepted]

def secretF : List UInt8 := [102]

theorem base32Encode_secretF : base32Encode secretF = ['M', 'Y'] := by
  simp [base32Encode, secretF, encodeByte, drain]
  decide

theorem base32_survives_iff_dressed :
    base32Decode (base32Encode secretF) = .ok secretF ∧
      (base32Decode ['m', ' ', 'Y', '='] = .ok secretF ↔ PaddedLast ['m', ' ', 'Y', '=']) := by
  refine base32_survives_iff secretF (base32Decode_base32Encode secretF) ?_
  rw [base32Encode_secretF]
  have hlower := Dressing.lower [] ['Y'] 'M' rfl
  have hspace := Dressing.space ['m'] ['Y'] ' ' rfl
  exact ((Relation.ReflTransGen.single hlower).tail hspace).tail (.padding _)

theorem padded_then_spaced : ¬∀ bytes dressed, Dressed (base32Encode bytes) dressed → base32Decode dressed = .ok bytes := by
  intro h
  have hdressed : Dressed (base32Encode secretF) ['M', 'Y', '=', ' '] := by
    rw [base32Encode_secretF]
    exact (Relation.ReflTransGen.single (.padding _)).tail (.space ['M', 'Y', '='] [] ' ' rfl)
  have hdecoded := h secretF _ hdressed
  have hlast := paddedLast_of_accepted hdecoded
  exact hlast (by decide)

end Dressed

end Noesar.Accounts.Base32
