import Mathlib

namespace Noesar.Lib.Base64

def alphabet : List Char := "ABCDEFGHIJKLMNOPQRSTUVWXYZabcdefghijklmnopqrstuvwxyz0123456789-_".toList

def digit (n : ℕ) : Char := alphabet.getD n 'A'

def undigit (c : Char) : Option ℕ := alphabet.findIdx? (· = c)

def encode : List UInt8 → List Char
  | [] => []
  | [a] => [digit (a.toNat / 4), digit (a.toNat % 4 * 16)]
  | [a, b] => [digit (a.toNat / 4), digit (a.toNat % 4 * 16 + b.toNat / 16), digit (b.toNat % 16 * 4)]
  | a :: b :: c :: rest =>
    digit (a.toNat / 4) :: digit (a.toNat % 4 * 16 + b.toNat / 16) :: digit (b.toNat % 16 * 4 + c.toNat / 64) ::
      digit (c.toNat % 64) :: encode rest

def decode : List Char → Option (List UInt8)
  | [] => some []
  | [_] => none
  | [w, x] => do
    let w ← undigit w
    let x ← undigit x
    if x % 16 = 0 then some [UInt8.ofNat (w * 4 + x / 16)] else none
  | [w, x, y] => do
    let w ← undigit w
    let x ← undigit x
    let y ← undigit y
    if y % 4 = 0 then some [UInt8.ofNat (w * 4 + x / 16), UInt8.ofNat (x % 16 * 16 + y / 4)] else none
  | w :: x :: y :: z :: rest => do
    let w ← undigit w
    let x ← undigit x
    let y ← undigit y
    let z ← undigit z
    let bytes ← decode rest
    some (UInt8.ofNat (w * 4 + x / 16) :: UInt8.ofNat (x % 16 * 16 + y / 4) :: UInt8.ofNat (y % 4 * 64 + z) :: bytes)

theorem findIdx?_getD {l : List Char} (hdistinct : l.Nodup) {n : ℕ} (h : n < l.length) (c : Char) :
    l.findIdx? (· = l.getD n c) = some n := by
  rw [List.getD_eq_getElem _ _ h, List.findIdx?_eq_some_iff_getElem]
  refine ⟨h, decide_eq_true rfl, fun j hj heq ↦ ?_⟩
  exact hj.ne (hdistinct.getElem_inj_iff.mp (of_decide_eq_true heq))

theorem codes_nodup {x y : ℕ} (hx : x < 48) (hy : y < 48 ∨ y = 95) (hxy : x ≠ y) :
    ((List.range' 65 26 ++ List.range' 97 26) ++ (List.range' 48 10 ++ [x, y])).Nodup := by
  simp only [List.nodup_append, List.mem_append, List.mem_range'_1, List.mem_cons, List.not_mem_nil, or_false]
  refine ⟨⟨List.nodup_range', List.nodup_range', ?_⟩, ⟨List.nodup_range', by simpa using hxy, ?_⟩, ?_⟩ <;> omega

theorem codes_alphabet :
    alphabet.map Char.toNat = (List.range' 65 26 ++ List.range' 97 26) ++ (List.range' 48 10 ++ [45, 95]) := by
  unfold alphabet
  rw [String.toList_ofList]
  rfl

theorem length_alphabet : alphabet.length = 64 := by
  simpa using congrArg List.length codes_alphabet

theorem alphabet_spec : ∀ c ∈ alphabet, c ≠ '=' ∧ c ≠ '+' ∧ c ≠ '/' ∧ c.toNat < 128 := by
  have hall : alphabet.all (fun c ↦ c ≠ '=' ∧ c ≠ '+' ∧ c ≠ '/' ∧ c.toNat < 128) = true := by
    unfold alphabet
    rw [String.toList_ofList]
    decide +kernel
  exact fun c hc ↦ of_decide_eq_true (List.all_eq_true.mp hall c hc)

theorem digit_mem {n : ℕ} (h : n < 64) : digit n ∈ alphabet := by
  rw [← length_alphabet] at h
  rw [digit, List.getD_eq_getElem _ _ h]
  exact List.getElem_mem h

theorem undigit_digit {n : ℕ} (h : n < 64) : undigit (digit n) = some n := by
  have hdistinct : alphabet.Nodup := by
    refine .of_map Char.toNat ?_
    rw [codes_alphabet]
    exact codes_nodup (by omega) (by omega) (by omega)
  exact findIdx?_getD hdistinct (by rwa [length_alphabet]) 'A'

theorem ofNat_eq {a : UInt8} {n : ℕ} (h : n = a.toNat) : UInt8.ofNat n = a := by
  rw [h, UInt8.ofNat_toNat]

theorem decode_encode (bytes : List UInt8) : decode (encode bytes) = some bytes := by
  induction bytes using encode.induct with
  | case1 => rfl
  | case2 a =>
    have ha := a.toNat_lt
    simp only [encode, decode, undigit_digit (show a.toNat / 4 < 64 by omega),
      undigit_digit (show a.toNat % 4 * 16 < 64 by omega), Option.bind_eq_bind, Option.bind_some]
    rw [if_pos (by omega), ofNat_eq (a := a) (by omega)]
  | case3 a b =>
    have ha := a.toNat_lt
    have hb := b.toNat_lt
    simp only [encode, decode, undigit_digit (show a.toNat / 4 < 64 by omega),
      undigit_digit (show a.toNat % 4 * 16 + b.toNat / 16 < 64 by omega),
      undigit_digit (show b.toNat % 16 * 4 < 64 by omega), Option.bind_eq_bind, Option.bind_some]
    rw [if_pos (by omega), ofNat_eq (a := a) (by omega), ofNat_eq (a := b) (by omega)]
  | case4 a b c rest ih =>
    have ha := a.toNat_lt
    have hb := b.toNat_lt
    have hc := c.toNat_lt
    simp only [encode, decode, undigit_digit (show a.toNat / 4 < 64 by omega),
      undigit_digit (show a.toNat % 4 * 16 + b.toNat / 16 < 64 by omega),
      undigit_digit (show b.toNat % 16 * 4 + c.toNat / 64 < 64 by omega),
      undigit_digit (show c.toNat % 64 < 64 by omega), ih, Option.bind_eq_bind, Option.bind_some]
    rw [ofNat_eq (a := a) (by omega), ofNat_eq (a := b) (by omega), ofNat_eq (a := c) (by omega)]

def sextet (c : Char) : Option ℕ := if c = '+' then some 62 else if c = '/' then some 63 else undigit c

/-- A reader that leaves out what is no digit, and stops where a group is filled up with padding: the place in the
group, the bits that are left of the last digit, and the padding since. -/
def scan (place left pads : ℕ) : List Char → Option (List UInt8)
  | [] => if place = 0 then some [] else none
  | c :: cs =>
    if c = '=' then
      if place < 2 then scan place left pads cs
      else if 4 ≤ place + (pads + 1) then some []
      else scan place left (pads + 1) cs
    else match sextet c with
      | none => scan place left pads cs
      | some n =>
        if place = 0 then scan 1 n 0 cs
        else if place = 1 then (scan 2 (n % 16) 0 cs).map (UInt8.ofNat (left * 4 + n / 16) :: ·)
        else if place = 2 then (scan 3 (n % 4) 0 cs).map (UInt8.ofNat (left * 16 + n / 4) :: ·)
        else (scan 0 0 0 cs).map (UInt8.ofNat (left * 64 + n) :: ·)

def decodeLenient (cs : List Char) : Option (List UInt8) :=
  if cs.all fun c ↦ c.toNat < 128 then scan 0 0 0 (cs ++ List.replicate ((4 - cs.length % 4) % 4) '=') else none

theorem digit_spec {n : ℕ} (h : n < 64) : digit n ≠ '=' ∧ sextet (digit n) = some n ∧ (digit n).toNat < 128 := by
  obtain ⟨hpad, hplus, hslash, hascii⟩ := alphabet_spec _ (digit_mem h)
  exact ⟨hpad, by rw [sextet, if_neg hplus, if_neg hslash, undigit_digit h], hascii⟩

section

variable {n : ℕ} (h : n < 64) (left pads : ℕ) (cs : List Char)

include h

theorem scan_first : scan 0 left pads (digit n :: cs) = scan 1 n 0 cs := by
  simp only [scan, if_neg (digit_spec h).1, (digit_spec h).2.1]
  exact if_pos trivial

theorem scan_second :
    scan 1 left pads (digit n :: cs) = (scan 2 (n % 16) 0 cs).map (UInt8.ofNat (left * 4 + n / 16) :: ·) := by
  simp only [scan, if_neg (digit_spec h).1, (digit_spec h).2.1]
  simp only [one_ne_zero, if_false, if_true]

theorem scan_third :
    scan 2 left pads (digit n :: cs) = (scan 3 (n % 4) 0 cs).map (UInt8.ofNat (left * 16 + n / 4) :: ·) := by
  simp only [scan, if_neg (digit_spec h).1, (digit_spec h).2.1]
  simp only [OfNat.ofNat_ne_zero, OfNat.ofNat_ne_one, if_false, if_true]

theorem scan_fourth : scan 3 left pads (digit n :: cs) = (scan 0 0 0 cs).map (UInt8.ofNat (left * 64 + n) :: ·) := by
  simp only [scan, if_neg (digit_spec h).1, (digit_spec h).2.1]
  simp only [OfNat.ofNat_ne_zero, OfNat.ofNat_ne_one, Nat.reduceEqDiff, if_false]

end

theorem scan_encode (bytes : List UInt8) :
    scan 0 0 0 (encode bytes ++ List.replicate ((4 - (encode bytes).length % 4) % 4) '=') = some bytes := by
  induction bytes using encode.induct with
  | case1 => rfl
  | case2 a =>
    have ha := a.toNat_lt
    rw [encode, List.cons_append, List.cons_append, scan_first (by omega), scan_second (by omega)]
    rw [ofNat_eq (a := a) (by omega)]
    rfl
  | case3 a b =>
    have ha := a.toNat_lt
    have hb := b.toNat_lt
    rw [encode, List.cons_append, List.cons_append, List.cons_append, scan_first (by omega), scan_second (by omega),
      scan_third (by omega)]
    rw [ofNat_eq (a := a) (by omega), ofNat_eq (a := b) (by omega)]
    rfl
  | case4 a b c rest ih =>
    have ha := a.toNat_lt
    have hb := b.toNat_lt
    have hc := c.toNat_lt
    have hpads (k : ℕ) : (4 - (k + 1 + 1 + 1 + 1) % 4) % 4 = (4 - k % 4) % 4 := by omega
    simp only [encode, List.cons_append, List.length_cons, hpads]
    rw [scan_first (by omega), scan_second (by omega), scan_third (by omega), scan_fourth (by omega), ih]
    rw [ofNat_eq (a := a) (by omega), ofNat_eq (a := b) (by omega), ofNat_eq (a := c) (by omega)]
    rfl

theorem encode_ascii (bytes : List UInt8) : ∀ c ∈ encode bytes, c.toNat < 128 := by
  induction bytes using encode.induct with
  | case1 => simp [encode]
  | case2 a =>
    have ha := a.toNat_lt
    simp only [encode, List.forall_mem_cons]
    exact ⟨(digit_spec (by omega)).2.2, (digit_spec (by omega)).2.2, by simp⟩
  | case3 a b =>
    have ha := a.toNat_lt
    have hb := b.toNat_lt
    simp only [encode, List.forall_mem_cons]
    exact ⟨(digit_spec (by omega)).2.2, (digit_spec (by omega)).2.2, (digit_spec (by omega)).2.2, by simp⟩
  | case4 a b c rest ih =>
    have ha := a.toNat_lt
    have hb := b.toNat_lt
    have hc := c.toNat_lt
    simp only [encode, List.forall_mem_cons]
    exact ⟨(digit_spec (by omega)).2.2, (digit_spec (by omega)).2.2, (digit_spec (by omega)).2.2,
      (digit_spec (by omega)).2.2, ih⟩

theorem decodeLenient_encode (bytes : List UInt8) : decodeLenient (encode bytes) = some bytes := by
  have hascii : (encode bytes).all (fun c ↦ c.toNat < 128) = true := by
    rw [List.all_eq_true]
    intro c hc
    exact decide_eq_true (encode_ascii bytes c hc)
  rw [decodeLenient, if_pos hascii, scan_encode]

end Noesar.Lib.Base64

/-! Base64 with padding, and the reading of it that skips what it does not know. -/

namespace Noesar.Lib.Base64Padded

def alphabet : List Char := "ABCDEFGHIJKLMNOPQRSTUVWXYZabcdefghijklmnopqrstuvwxyz0123456789+/".toList

def digit (n : ℕ) : Char := alphabet.getD n 'A'

def undigit (c : Char) : Option ℕ :=
  if c = '-' then some 62 else if c = '_' then some 63 else alphabet.findIdx? (· = c)

def encode : List UInt8 → List Char
  | [] => []
  | [a] => [digit (a.toNat / 4), digit (a.toNat % 4 * 16), '=', '=']
  | [a, b] => [digit (a.toNat / 4), digit (a.toNat % 4 * 16 + b.toNat / 16), digit (b.toNat % 16 * 4), '=']
  | a :: b :: c :: rest =>
    digit (a.toNat / 4) :: digit (a.toNat % 4 * 16 + b.toNat / 16) :: digit (b.toNat % 16 * 4 + c.toNat / 64) ::
      digit (c.toNat % 64) :: encode rest

def bytesOf : List ℕ → List UInt8
  | w :: x :: y :: z :: rest =>
    UInt8.ofNat (w * 4 + x / 16) :: UInt8.ofNat (x % 16 * 16 + y / 4) :: UInt8.ofNat (y % 4 * 64 + z) :: bytesOf rest
  | [w, x, y] => [UInt8.ofNat (w * 4 + x / 16), UInt8.ofNat (x % 16 * 16 + y / 4)]
  | [w, x] => [UInt8.ofNat (w * 4 + x / 16)]
  | _ => []

def decode (cs : List Char) : List UInt8 := bytesOf ((cs.takeWhile (· ≠ '=')).filterMap undigit)

theorem codes_alphabet :
    alphabet.map Char.toNat = (List.range' 65 26 ++ List.range' 97 26) ++ (List.range' 48 10 ++ [43, 47]) := by
  unfold alphabet
  rw [String.toList_ofList]
  rfl

theorem length_alphabet : alphabet.length = 64 := by
  simpa using congrArg List.length codes_alphabet

theorem alphabet_spec : ∀ c ∈ alphabet, c ≠ '=' ∧ c ≠ '-' ∧ c ≠ '_' ∧ c.toNat < 128 := by
  have hall : alphabet.all (fun c ↦ c ≠ '=' ∧ c ≠ '-' ∧ c ≠ '_' ∧ c.toNat < 128) = true := by
    unfold alphabet
    rw [String.toList_ofList]
    decide +kernel
  exact fun c hc ↦ of_decide_eq_true (List.all_eq_true.mp hall c hc)

theorem digit_spec {n : ℕ} (h : n < 64) : undigit (digit n) = some n ∧ digit n ≠ '=' := by
  have hdistinct : alphabet.Nodup := by
    refine .of_map Char.toNat ?_
    rw [codes_alphabet]
    exact Base64.codes_nodup (by omega) (by omega) (by omega)
  have hlt : n < alphabet.length := by rwa [length_alphabet]
  have hmem : digit n ∈ alphabet := by
    rw [digit, List.getD_eq_getElem _ _ hlt]
    exact List.getElem_mem hlt
  obtain ⟨hpad, hminus, hlow, -⟩ := alphabet_spec _ hmem
  exact ⟨by rw [undigit, if_neg hminus, if_neg hlow]; exact Base64.findIdx?_getD hdistinct hlt 'A', hpad⟩

theorem decode_digit {n : ℕ} (h : n < 64) (cs : List Char) :
    ((digit n :: cs).takeWhile (· ≠ '=')).filterMap undigit = n :: (cs.takeWhile (· ≠ '=')).filterMap undigit := by
  obtain ⟨hread, hne⟩ := digit_spec h
  rw [List.takeWhile_cons_of_pos (by simpa using hne), List.filterMap_cons, hread]

theorem ofNat_eq {a : UInt8} {n : ℕ} (h : n = a.toNat) : UInt8.ofNat n = a := by
  rw [h, UInt8.ofNat_toNat]

theorem decode_encode (bytes : List UInt8) : decode (encode bytes) = bytes := by
  unfold decode
  induction bytes using encode.induct with
  | case1 => rfl
  | case2 a =>
    have ha := a.toNat_lt
    rw [encode, decode_digit (by omega), decode_digit (by omega), List.takeWhile_cons_of_neg (by decide), List.filterMap_nil,
      bytesOf, ofNat_eq (a := a) (by omega)]
  | case3 a b =>
    have ha := a.toNat_lt
    have hb := b.toNat_lt
    rw [encode, decode_digit (by omega), decode_digit (by omega), decode_digit (by omega),
      List.takeWhile_cons_of_neg (by decide), List.filterMap_nil, bytesOf, ofNat_eq (a := a) (by omega),
      ofNat_eq (a := b) (by omega)]
  | case4 a b c rest ih =>
    have ha := a.toNat_lt
    have hb := b.toNat_lt
    have hc := c.toNat_lt
    rw [encode, decode_digit (by omega), decode_digit (by omega), decode_digit (by omega), decode_digit (by omega),
      bytesOf, ofNat_eq (a := a) (by omega), ofNat_eq (a := b) (by omega), ofNat_eq (a := c) (by omega), ih]

theorem digit_eq {n : ℕ} (h : n < 62) : Base64.digit n = digit n := by
  have htake : Base64.alphabet.take 62 = alphabet.take 62 := by
    unfold Base64.alphabet alphabet
    rw [String.toList_ofList, String.toList_ofList]
    rfl
  have hnth := congrArg (fun l : List Char ↦ l.getD n 'A') htake
  simpa only [Base64.digit, digit, List.getD_eq_getElem?_getD, List.getElem?_take_of_lt h] using hnth

theorem urlDigit_spec {n : ℕ} (h : n < 64) : undigit (Base64.digit n) = some n ∧ Base64.digit n ≠ '=' := by
  by_cases hlast : n < 62
  · rw [digit_eq hlast]
    exact digit_spec h
  have hcases : n = 62 ∨ n = 63 := by omega
  refine ⟨?_, (Base64.alphabet_spec _ (Base64.digit_mem h)).1⟩
  have hdigits : Base64.alphabet.drop 62 = ['-', '_'] := by
    unfold Base64.alphabet
    rw [String.toList_ofList]
    rfl
  have hnth (i : ℕ) : Base64.digit (62 + i) = ['-', '_'].getD i 'A' := by
    rw [← hdigits, Base64.digit, List.getD_eq_getElem?_getD, List.getD_eq_getElem?_getD, List.getElem?_drop]
  obtain rfl | rfl := hcases
  · rw [hnth 0]
    rfl
  · rw [hnth 1]
    rfl

theorem decode_urlDigit {n : ℕ} (h : n < 64) (cs : List Char) :
    ((Base64.digit n :: cs).takeWhile (· ≠ '=')).filterMap undigit = n :: (cs.takeWhile (· ≠ '=')).filterMap undigit := by
  obtain ⟨hread, hne⟩ := urlDigit_spec h
  rw [List.takeWhile_cons_of_pos (by simpa using hne), List.filterMap_cons, hread]

/-- The reader takes both alphabets, and no padding. -/
theorem decode_urlEncode (bytes : List UInt8) : decode (Base64.encode bytes) = bytes := by
  unfold decode
  induction bytes using Base64.encode.induct with
  | case1 => rfl
  | case2 a =>
    have ha := a.toNat_lt
    rw [Base64.encode, decode_urlDigit (by omega), decode_urlDigit (by omega), List.takeWhile_nil, List.filterMap_nil,
      bytesOf, ofNat_eq (a := a) (by omega)]
  | case3 a b =>
    have ha := a.toNat_lt
    have hb := b.toNat_lt
    rw [Base64.encode, decode_urlDigit (by omega), decode_urlDigit (by omega), decode_urlDigit (by omega),
      List.takeWhile_nil, List.filterMap_nil, bytesOf, ofNat_eq (a := a) (by omega), ofNat_eq (a := b) (by omega)]
  | case4 a b c rest ih =>
    have ha := a.toNat_lt
    have hb := b.toNat_lt
    have hc := c.toNat_lt
    rw [Base64.encode, decode_urlDigit (by omega), decode_urlDigit (by omega), decode_urlDigit (by omega),
      decode_urlDigit (by omega), bytesOf, ofNat_eq (a := a) (by omega), ofNat_eq (a := b) (by omega),
      ofNat_eq (a := c) (by omega), ih]

theorem digit_ascii (n : ℕ) : (digit n).toNat < 128 := by
  rw [digit, List.getD_eq_getElem?_getD]
  cases hn : alphabet[n]? with
  | none => decide
  | some c => exact (alphabet_spec c (List.mem_of_getElem? hn)).2.2.2

theorem encode_ascii (bytes : List UInt8) : ∀ c ∈ encode bytes, c.toNat < 128 := by
  induction bytes using encode.induct with
  | case1 => exact nofun
  | case2 | case3 => simp [encode, digit_ascii]
  | case4 a b c rest ih => simpa [encode, digit_ascii] using ih

end Noesar.Lib.Base64Padded
