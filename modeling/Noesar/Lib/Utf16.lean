import Mathlib

namespace Noesar.Lib.Utf16

abbrev Units := List UInt16

instance : LawfulBEq Units := inferInstance

def isHigh (u : UInt16) : Bool := 0xD800 ≤ u.toNat && u.toNat < 0xDC00

def isLow (u : UInt16) : Bool := 0xDC00 ≤ u.toNat && u.toNat < 0xE000

def units (c : Char) : Units :=
  if c.toNat < 0x10000 then [UInt16.ofNat c.toNat]
  else [UInt16.ofNat (0xD800 + (c.toNat - 0x10000) / 0x400), UInt16.ofNat (0xDC00 + (c.toNat - 0x10000) % 0x400)]

def pair (u v : UInt16) : Char := Char.ofNat (0x10000 + (u.toNat - 0xD800) * 0x400 + (v.toNat - 0xDC00))

abbrev Point := Char ⊕ UInt16

def point (u : UInt16) : Point := if isHigh u || isLow u then .inr u else .inl (Char.ofNat u.toNat)

def points : Units → List Point
  | [] => []
  | [u] => [point u]
  | u :: v :: rest => if isHigh u && isLow v then .inl (pair u v) :: points rest else point u :: points (v :: rest)

def unitsOf : Point → Units
  | .inl c => units c
  | .inr u => [u]

def encode (cs : List Char) : Units := cs.flatMap units

def decode (us : Units) : Option (List Char) := (points us).mapM Sum.getLeft?

theorem toNat_ofNat_of_valid {n : ℕ} (h : n < 0xD800 ∨ 0xDFFF < n ∧ n < 0x110000) : (Char.ofNat n).toNat = n := by
  rw [Char.ofNat, dif_pos h]
  rfl

theorem toNat_valid (c : Char) : c.toNat < 0xD800 ∨ 0xDFFF < c.toNat ∧ c.toNat < 0x110000 := c.valid

theorem ofNat_toNat_unit {u : UInt16} {n : ℕ} (h : n = u.toNat) : UInt16.ofNat n = u := by
  rw [h, UInt16.ofNat_toNat]

theorem units_pair {u v : UInt16} (hu : isHigh u) (hv : isLow v) : units (pair u v) = [u, v] := by
  simp only [isHigh, isLow, Bool.and_eq_true, decide_eq_true_eq] at hu hv
  have hnat : (pair u v).toNat = 0x10000 + (u.toNat - 0xD800) * 0x400 + (v.toNat - 0xDC00) := by
    apply toNat_ofNat_of_valid
    omega
  rw [units, hnat, if_neg (by omega), ofNat_toNat_unit (u := u) (by omega), ofNat_toNat_unit (u := v) (by omega)]

theorem unitsOf_point (u : UInt16) : unitsOf (point u) = [u] := by
  rw [point]
  split
  · rfl
  next h =>
    simp only [isHigh, isLow, Bool.or_eq_true, Bool.and_eq_true, decide_eq_true_eq, not_or, not_and] at h
    have hlt := u.toNat_lt
    have hnat : (Char.ofNat u.toNat).toNat = u.toNat := by
      apply toNat_ofNat_of_valid
      omega
    rw [unitsOf, units, hnat, if_pos (by omega), UInt16.ofNat_toNat]

theorem flatMap_points (us : Units) : (points us).flatMap unitsOf = us := by
  induction us using points.induct with
  | case1 => rfl
  | case2 => simp [points, unitsOf_point]
  | case3 u v rest h ih =>
    rw [points, if_pos h, List.flatMap_cons, ih, unitsOf]
    rw [Bool.and_eq_true] at h
    rw [units_pair h.1 h.2]
    rfl
  | case4 u v rest h ih =>
    rw [points, if_neg h, List.flatMap_cons, ih, unitsOf_point]
    rfl

theorem points_cons {u : UInt16} (h : isHigh u = false) (rest : Units) :
    points (u :: rest) = point u :: points rest := by
  cases rest with
  | nil => rfl
  | cons =>
    rw [points, h, Bool.false_and]
    rfl

theorem points_units (c : Char) (rest : Units) : points (units c ++ rest) = .inl c :: points rest := by
  have hvalid := toNat_valid c
  rw [units]
  split
  next h =>
    have hnat : (UInt16.ofNat c.toNat).toNat = c.toNat := UInt16.toNat_ofNat_of_lt h
    have hhigh : isHigh (UInt16.ofNat c.toNat) = false := by
      simp only [isHigh, hnat, Bool.and_eq_false_iff, decide_eq_false_iff_not]
      omega
    have hlow : isLow (UInt16.ofNat c.toNat) = false := by
      simp only [isLow, hnat, Bool.and_eq_false_iff, decide_eq_false_iff_not]
      omega
    rw [List.singleton_append, points_cons hhigh, point, hhigh, hlow, hnat, Char.ofNat_toNat]
    rfl
  next h =>
    have hu : (UInt16.ofNat (0xD800 + (c.toNat - 0x10000) / 0x400)).toNat = 0xD800 + (c.toNat - 0x10000) / 0x400 := by
      apply UInt16.toNat_ofNat_of_lt
      simp only [UInt16.size]
      omega
    have hv : (UInt16.ofNat (0xDC00 + (c.toNat - 0x10000) % 0x400)).toNat = 0xDC00 + (c.toNat - 0x10000) % 0x400 := by
      apply UInt16.toNat_ofNat_of_lt
      simp only [UInt16.size]
      omega
    have hpair : isHigh (UInt16.ofNat (0xD800 + (c.toNat - 0x10000) / 0x400)) &&
        isLow (UInt16.ofNat (0xDC00 + (c.toNat - 0x10000) % 0x400)) := by
      simp only [isHigh, isLow, hu, hv, Bool.and_eq_true, decide_eq_true_eq]
      omega
    have hchar : pair (UInt16.ofNat (0xD800 + (c.toNat - 0x10000) / 0x400))
        (UInt16.ofNat (0xDC00 + (c.toNat - 0x10000) % 0x400)) = c := by
      rw [pair, hu, hv]
      have hsum : 0x10000 + (0xD800 + (c.toNat - 0x10000) / 0x400 - 0xD800) * 0x400 +
          (0xDC00 + (c.toNat - 0x10000) % 0x400 - 0xDC00) = c.toNat := by
        omega
      rw [hsum, Char.ofNat_toNat]
    rw [List.cons_append, List.singleton_append, points, if_pos hpair, hchar]

theorem points_encode (cs : List Char) : points (encode cs) = cs.map .inl := by
  induction cs with
  | nil => rfl
  | cons c cs ih =>
    rw [encode, List.flatMap_cons, points_units, ← encode, ih]
    rfl

theorem decode_encode (cs : List Char) : decode (encode cs) = some cs := by
  rw [decode, points_encode]
  induction cs with
  | nil => rfl
  | cons c cs ih =>
    rw [List.map_cons, List.mapM_cons, ih]
    rfl

theorem encode_injective : Function.Injective encode := by
  intro cs ds h
  have hdecode := congrArg decode h
  rw [decode_encode, decode_encode] at hdecode
  exact Option.some.inj hdecode

/-- The bytes of a character in UTF-8. What is half of one is written as the character of three bytes that stands for it. -/
def pointBytes : Point → ℕ
  | .inl c => c.utf8Size
  | .inr _ => 3

def byteLength (t : Units) : ℕ := ((points t).map pointBytes).sum

def surplus (t : Units) : ℕ := byteLength t - t.length

/-- A text as labels and other texts by turns: a label, and then each text with the label after it. -/
structure Row where
  label : String
  parts : List (Units × String)

def Row.spell (row : Row) : Units := encode row.label.toList ++ row.parts.flatMap fun part ↦ part.1 ++ encode part.2.toList

def labelBytes (label : String) : ℕ := byteLength (encode label.toList)

def Row.size (measure : Units → ℕ) (row : Row) : ℕ :=
  labelBytes row.label + (row.parts.map fun part ↦ measure part.1 + labelBytes part.2).sum

def Row.surplus (row : Row) : ℕ := (row.parts.map fun part ↦ Utf16.surplus part.1).sum

theorem isLow_head (c : Char) (rest : Units) : ∃ u tail, units c ++ rest = u :: tail ∧ isLow u = false := by
  have hvalid := toNat_valid c
  rw [units]
  split
  next h =>
    have hnat : (UInt16.ofNat c.toNat).toNat = c.toNat := UInt16.toNat_ofNat_of_lt h
    refine ⟨_, rest, rfl, ?_⟩
    simp only [isLow, hnat, Bool.and_eq_false_iff, decide_eq_false_iff_not]
    omega
  next h =>
    have hnat : (UInt16.ofNat (0xD800 + (c.toNat - 0x10000) / 0x400)).toNat = 0xD800 + (c.toNat - 0x10000) / 0x400 := by
      apply UInt16.toNat_ofNat_of_lt
      simp only [UInt16.size]
      omega
    refine ⟨_, _, rfl, ?_⟩
    simp only [isLow, hnat, Bool.and_eq_false_iff, decide_eq_false_iff_not]
    omega

theorem points_append_units (t : Units) (c : Char) (rest : Units) :
    points (t ++ (units c ++ rest)) = points t ++ points (units c ++ rest) := by
  obtain ⟨v, tail, hunits, hlow⟩ := isLow_head c rest
  rw [hunits]
  induction t using points.induct with
  | case1 => rfl
  | case2 => simp [points, hlow]
  | case3 u w t h ih | case4 u w t h ih => simpa [points, h] using ih

theorem byteLength_append_encode (t : Units) {label : List Char} (h : label ≠ []) (rest : Units) :
    byteLength (t ++ (encode label ++ rest)) = byteLength t + byteLength (encode label ++ rest) := by
  obtain ⟨c, cs, rfl⟩ := List.exists_cons_of_ne_nil h
  rw [encode, List.flatMap_cons, List.append_assoc, byteLength, points_append_units, List.map_append, List.sum_append]
  rfl

theorem byteLength_encode_append (cs : List Char) (rest : Units) :
    byteLength (encode cs ++ rest) = byteLength (encode cs) + byteLength rest := by
  induction cs with
  | nil => simp [encode, byteLength, points]
  | cons c cs ih =>
    have hcons (tail : Units) : byteLength (units c ++ tail) = c.utf8Size + byteLength tail := by
      rw [byteLength, points_units]
      rfl
    rw [encode, List.flatMap_cons, ← encode, List.append_assoc, hcons, hcons, ih, Nat.add_assoc]

theorem byteLength_encode (cs : List Char) : byteLength (encode cs) = (cs.map Char.utf8Size).sum := by
  rw [byteLength, points_encode, List.map_map]
  rfl

theorem byteLength_spell {row : Row} (h : ∀ part ∈ row.parts, part.2 ≠ "") (rest : Units) :
    byteLength (row.spell ++ rest) = row.size byteLength + byteLength rest := by
  obtain ⟨label, parts⟩ := row
  have hparts : byteLength ((parts.flatMap fun part ↦ part.1 ++ encode part.2.toList) ++ rest) =
      (parts.map fun part ↦ byteLength part.1 + labelBytes part.2).sum + byteLength rest := by
    induction parts with
    | nil => simp
    | cons part parts ih =>
      have ih := ih fun part hpart ↦ h part (List.mem_cons_of_mem _ hpart)
      have hlabel : part.2.toList ≠ [] := fun hnil ↦ h part List.mem_cons_self (String.toList_eq_nil_iff.mp hnil)
      rw [List.flatMap_cons, List.append_assoc, List.append_assoc, byteLength_append_encode _ hlabel,
        byteLength_encode_append, ih, List.map_cons, List.sum_cons, labelBytes]
      omega
  rw [Row.spell, List.append_assoc, byteLength_encode_append, hparts, ← Nat.add_assoc]
  rfl

theorem length_unitsOf_le (p : Point) : (unitsOf p).length ≤ pointBytes p := by
  cases p with
  | inl c =>
    have hsize : c.toNat < 0x10000 ∨ 4 ≤ c.utf8Size := by
      unfold Char.utf8Size
      have hval : c.val.toNat = c.toNat := rfl
      simp only [UInt32.le_iff_toNat_le, hval]
      split_ifs <;> simp_all <;> omega
    have hpos := c.utf8Size_pos
    change (units c).length ≤ c.utf8Size
    rw [units]
    split
    · exact hpos
    · simp only [List.length_cons, List.length_nil]
      omega
  | inr => exact Nat.le_add_left 1 2

theorem length_le_byteLength (t : Units) : t.length ≤ byteLength t := by
  conv_lhs => rw [← flatMap_points t]
  rw [List.length_flatMap]
  exact List.sum_le_sum fun p _ ↦ length_unitsOf_le p

theorem byteLength_eq (t : Units) : byteLength t = t.length + surplus t := by
  have hle := length_le_byteLength t
  rw [surplus]
  omega

theorem Row.size_byteLength (row : Row) : row.size byteLength = row.size List.length + row.surplus := by
  obtain ⟨label, parts⟩ := row
  have hparts : (parts.map fun part ↦ byteLength part.1 + labelBytes part.2).sum =
      (parts.map fun part ↦ part.1.length + labelBytes part.2).sum + (parts.map fun part ↦ Utf16.surplus part.1).sum := by
    rw [← List.sum_map_add]
    refine congrArg List.sum (List.map_congr_left fun part _ ↦ ?_)
    rw [byteLength_eq]
    omega
  rw [Row.size, Row.size, hparts, Row.surplus, Nat.add_assoc]

theorem surplus_ascii {t : Units} (h : ∀ u ∈ t, u.toNat < 128) : surplus t = 0 := by
  have hbytes : byteLength t = t.length := by
    induction t with
    | nil => rfl
    | cons u t ih =>
      have hu := h u List.mem_cons_self
      have hhigh : isHigh u = false := by
        simp only [isHigh, Bool.and_eq_false_iff, decide_eq_false_iff_not]
        omega
      have hlow : isLow u = false := by
        simp only [isLow, Bool.and_eq_false_iff, decide_eq_false_iff_not]
        omega
      have hnat : (Char.ofNat u.toNat).toNat = u.toNat := toNat_ofNat_of_valid (by omega)
      have hsize : (Char.ofNat u.toNat).utf8Size = 1 := by
        rw [Char.utf8Size_eq_one_iff, UInt32.le_iff_toNat_le]
        change (Char.ofNat u.toNat).toNat ≤ 127
        omega
      have ih := ih fun v hv ↦ h v (List.mem_cons_of_mem _ hv)
      rw [byteLength, points_cons hhigh, List.map_cons, List.sum_cons, ← byteLength, ih, point, hhigh, hlow]
      change (Char.ofNat u.toNat).utf8Size + t.length = t.length + 1
      rw [hsize, Nat.add_comm]
  rw [surplus, hbytes, Nat.sub_self]

theorem length_encode_ascii {cs : List Char} (h : ∀ c ∈ cs, c.toNat < 128) :
    (encode cs).length = cs.length ∧ byteLength (encode cs) = cs.length := by
  rw [byteLength_encode]
  induction cs with
  | nil => exact ⟨rfl, rfl⟩
  | cons c cs ih =>
    obtain ⟨ihlength, ihbytes⟩ := ih fun d hd ↦ h d (List.mem_cons_of_mem _ hd)
    have hc := h c List.mem_cons_self
    have hsize : c.utf8Size = 1 := by
      rw [Char.utf8Size_eq_one_iff, UInt32.le_iff_toNat_le]
      change c.toNat ≤ 127
      omega
    have hunits : (units c).length = 1 := by
      rw [units, if_pos (by omega)]
      rfl
    rw [encode, List.flatMap_cons, ← encode, List.length_append, ihlength, hunits, List.map_cons, List.sum_cons, ihbytes, hsize,
      List.length_cons, Nat.add_comm]
    exact ⟨rfl, rfl⟩

end Noesar.Lib.Utf16

namespace Noesar.Lib.Fnv

open Utf16

def prime : UInt32 := 0x01000193

def step (hash : UInt32) (u : UInt16) : UInt32 := (hash ^^^ u.toUInt32) * prime

def hash (us : Units) : UInt32 := us.foldl step 0x811c9dc5

theorem prime_cancel : prime * 0x359c449b = 1 := by decide

theorem mul_prime_injective {a b : UInt32} (h : a * prime = b * prime) : a = b := by
  have hcancel := congrArg (· * (0x359c449b : UInt32)) h
  simpa only [UInt32.mul_assoc, prime_cancel, UInt32.mul_one] using hcancel

theorem step_injective (u : UInt16) : Function.Injective fun hash ↦ step hash u := by
  intro a b h
  have hxor := mul_prime_injective h
  simpa [UInt32.xor_assoc] using congrArg (· ^^^ u.toUInt32) hxor

theorem step_unit_injective (hash : UInt32) : Function.Injective (step hash) := by
  intro u v h
  have hxor := congrArg (hash ^^^ ·) (mul_prime_injective h)
  simp only [← UInt32.xor_assoc, UInt32.xor_self, UInt32.zero_xor] at hxor
  exact UInt16.toUInt32_inj.mp hxor

theorem foldl_injective (us : Units) : Function.Injective fun hash ↦ us.foldl step hash := by
  induction us with
  | nil => exact fun a b h ↦ h
  | cons u us ih => exact fun a b h ↦ step_injective u (ih h)

theorem hash_replace {front back : Units} {u v : UInt16} (h : hash (front ++ u :: back) = hash (front ++ v :: back)) : u = v := by
  simp only [hash, List.foldl_append, List.foldl_cons] at h
  exact step_unit_injective _ (foldl_injective back h)

def digitValue (c : Char) : ℕ := if c.isDigit then c.toNat - 48 else c.toNat - 87

def value (cs : List Char) : ℕ := cs.foldl (fun n c ↦ n * 16 + digitValue c) 0

/-- `n.toString(16).padStart(width, '0')` -/
def padded (width n : ℕ) : List Char := (Nat.toDigits 16 n).leftpad width '0'

theorem value_toDigits (n : ℕ) : value (Nat.toDigits 16 n) = n := by
  induction n using Nat.strong_induction_on with
  | _ n ih =>
    have hdigit : ∀ d < 16, digitValue d.digitChar = d := by decide
    by_cases hlt : n < 16
    · simp [Nat.toDigits_of_lt_base hlt, value, hdigit n hlt]
    · have hrest := ih (n / 16) (by omega)
      rw [value] at hrest
      rw [Nat.toDigits_of_base_le (by decide) (by omega), value, List.foldl_append, hrest]
      simp only [List.foldl_cons, List.foldl_nil, hdigit _ (Nat.mod_lt n (by decide))]
      omega

theorem value_zeros (k : ℕ) (cs : List Char) : value (List.replicate k '0' ++ cs) = value cs := by
  induction k with
  | zero => rfl
  | succ k ih => simpa [List.replicate_succ, value, digitValue] using ih

theorem padded_injective (width : ℕ) : Function.Injective (padded width) := by
  intro m n h
  have hvalue := congrArg value h
  simpa only [padded, List.leftpad, value_zeros, value_toDigits] using hvalue

theorem mem_toDigits {n : ℕ} {c : Char} (h : c ∈ Nat.toDigits 16 n) : ∃ d < 16, c = d.digitChar := by
  induction n using Nat.strong_induction_on with
  | _ n ih =>
    by_cases hlt : n < 16
    · rw [Nat.toDigits_of_lt_base hlt, List.mem_singleton] at h
      exact ⟨n, hlt, h⟩
    · rw [Nat.toDigits_of_base_le (by decide) (by omega), List.mem_append, List.mem_singleton] at h
      rcases h with h | h
      · exact ih (n / 16) (by omega) h
      · exact ⟨n % 16, Nat.mod_lt n (by decide), h⟩

theorem mem_padded {width n : ℕ} {c : Char} (h : c ∈ padded width n) : ∃ d < 16, c = d.digitChar := by
  rcases List.mem_append.mp h with h | h
  · exact ⟨0, by decide, List.eq_of_mem_replicate h⟩
  · exact mem_toDigits h

theorem length_padded_hash (us : Units) : (padded 8 (hash us).toNat).length = 8 := by
  have hdigits : (Nat.toDigits 16 (hash us).toNat).length ≤ 8 :=
    (Nat.length_toDigits_le_iff (by decide) (by decide)).mpr (hash us).toNat_lt
  rw [padded, List.length_leftpad]
  omega

end Noesar.Lib.Fnv
