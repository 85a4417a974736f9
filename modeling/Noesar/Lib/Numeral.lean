import Mathlib
import Noesar.Lib.Number
import Noesar.Lib.JsonText

namespace Noesar.Lib.Decimal

theorem nat_toString_injective {m n : ℕ} (h : toString m = toString n) : m = n := by
  have hdigits : Nat.toDigits 10 m = Nat.toDigits 10 n := by
    rw [← Nat.toList_repr, ← Nat.toList_repr]
    exact congrArg String.toList h
  rw [← @Nat.ofDigitChars_ten_toDigits m, hdigits, Nat.ofDigitChars_ten_toDigits]

theorem nat_toString_ne_neg (m n : ℕ) : toString m ≠ "-" ++ toString n := by
  intro h
  have hmem : '-' ∈ Nat.toDigits 10 m := by
    rw [← Nat.toList_repr]
    rw [Nat.toString_eq_repr] at h
    rw [h]
    simp
  have hdigit := Nat.isDigit_of_mem_toDigits (by decide) le_rfl hmem
  cases hdigit

theorem int_toString_injective {a b : ℤ} (h : toString a = toString b) : a = b := by
  rw [Int.toString_eq_repr, Int.toString_eq_repr, Int.repr_eq_if, Int.repr_eq_if] at h
  split at h <;> split at h
  · have hnat := nat_toString_injective h
    omega
  · exact absurd h (nat_toString_ne_neg _ _)
  · exact absurd h.symm (nat_toString_ne_neg _ _)
  · have hlists := congrArg String.toList h
    rw [String.toList_append, String.toList_append] at hlists
    have hneg := nat_toString_injective (String.toList_inj.mp (List.append_cancel_left hlists))
    omega

theorem head_toDigits {n : ℕ} (h : 0 < n) : (Nat.toDigits 10 n).head? ≠ some '0' := by
  induction n using Nat.strong_induction_on with
  | _ n ih =>
    by_cases hlt : n < 10
    · rw [Nat.toDigits_of_lt_base hlt]
      have hall : ∀ n < 10, 0 < n → [n.digitChar].head? ≠ some '0' := by decide
      exact hall n hlt h
    · have hrest := ih (n / 10) (by omega) (by omega)
      rw [Nat.toDigits_of_base_le (by decide) (by omega)]
      cases hdigits : Nat.toDigits 10 (n / 10) with
      | nil => exact absurd hdigits Nat.toDigits_ne_nil
      | cons =>
        rw [hdigits] at hrest
        exact hrest

end Noesar.Lib.Decimal

namespace Noesar.Lib.Decimal

open Json

/-- Of the two multiples of the unit around `n`, the one nearer to it, of those that round to `n`. -/
def candidate (n unit : ℕ) : Option ℕ :=
  let low := n / unit * unit
  let high := low + unit
  if round53 low = n then
    if round53 high = n then
      if n - low < high - n then some low
      else if high - n < n - low then some high
      else if n / unit % 2 = 0 then some low else some high
    else some low
  else if round53 high = n then some high
  else none

def shortestFrom (n : ℕ) : ℕ → ℕ
  | 0 => n
  | power + 1 => (candidate n (10 ^ (power + 1))).getD (shortestFrom n power)

/-- The integer with the fewest digits before its zeros that rounds to `n`. -/
def shortest (n : ℕ) : ℕ := shortestFrom n ((Nat.toDigits 10 n).length - 1)

def scientific (n : ℕ) : List Char :=
  let digits := Nat.toDigits 10 n
  let exponent := 'e' :: '+' :: Nat.toDigits 10 (digits.length - 1)
  match (digits.reverse.dropWhile (· = '0')).reverse with
  | [] => exponent
  | [d] => d :: exponent
  | d :: ds => d :: '.' :: ds ++ exponent

def magnitudeText (n : ℕ) : List Char :=
  if shortest n < 10 ^ 21 then Nat.toDigits 10 (shortest n) else scientific (shortest n)

def integerText (z : ℤ) : List Char := if z < 0 then '-' :: magnitudeText z.natAbs else magnitudeText z.natAbs

variable {n : ℕ} {q : ℚ} {m : ℕ}

theorem candidate_rounds {unit r : ℕ} (h : candidate n unit = some r) : round53 r = n := by
  simp only [candidate] at h
  split_ifs at h <;> cases h <;> assumption

theorem shortestFrom_rounds (h : round53 n = n) (power : ℕ) : round53 (shortestFrom n power) = n := by
  induction power with
  | zero => exact h
  | succ power ih =>
    rw [shortestFrom]
    cases hc : candidate n (10 ^ (power + 1)) with
    | none => exact ih
    | some => exact candidate_rounds hc

theorem shortest_rounds (h : round53 n = n) : round53 (shortest n) = n := shortestFrom_rounds h _

example : shortest (2 ^ 60) = 1152921504606847000 := by decide +kernel

theorem round53_neg (h : round53 q = q) : round53 (-q) = -q := by
  apply round53_of_multiple (-roundHalfEven (q / 2 ^ lastPlace q))
  have hplace : lastPlace (-q) = lastPlace q := by rw [lastPlace, lastPlace, abs_neg]
  rw [hplace, Int.cast_neg, neg_mul, neg_inj]
  exact h.symm

theorem round53_intCast {z : ℤ} (h : |z| ≤ 2 ^ 53) : round53 z = z := by
  rw [Int.abs_eq_natAbs] at h
  have hnat : round53 z.natAbs = z.natAbs := round53_natCast (by omega)
  rcases Int.natAbs_eq z with hz | hz
  · rw [hz, Int.cast_natCast]
    exact hnat
  · rw [hz, Int.cast_neg, Int.cast_natCast]
    exact round53_neg hnat

theorem le_roundHalfEven {k : ℤ} (h : k ≤ q) : k ≤ roundHalfEven q := by
  have hfloor : k ≤ ⌊q⌋ := Int.le_floor.mpr h
  rw [roundHalfEven]
  split_ifs <;> omega

theorem two_pow_le_round53 (h : 2 ^ m ≤ q) : 2 ^ m ≤ round53 q := by
  have hq : 0 < q := lt_of_lt_of_le (by positivity) h
  have hlog : (2 : ℚ) ^ Int.log 2 q ≤ q := by
    have := Int.zpow_log_le_self (b := 2) (by norm_num) hq
    exact_mod_cast this
  have hm : (m : ℤ) ≤ Int.log 2 q := by
    rw [← Int.zpow_le_iff_le_log (by norm_num) hq]
    simpa using h
  have hplace : lastPlace q = Int.log 2 q - 52 := by rw [lastPlace, abs_of_pos hq]
  have hscaled : ((2 ^ 52 : ℤ) : ℚ) ≤ q / 2 ^ lastPlace q := by
    rw [le_div_iff₀ (two_zpow_pos _), hplace]
    refine le_trans (le_of_eq ?_) hlog
    rw [Int.cast_pow, Int.cast_ofNat, ← zpow_natCast, ← zpow_add₀ (by norm_num)]
    norm_num
  have hround : ((2 ^ 52 : ℤ) : ℚ) ≤ roundHalfEven (q / 2 ^ lastPlace q) := by
    exact_mod_cast le_roundHalfEven hscaled
  calc (2 : ℚ) ^ m = 2 ^ (m : ℤ) := (zpow_natCast _ _).symm
    _ ≤ 2 ^ Int.log 2 q := zpow_le_zpow_right₀ (by norm_num) hm
    _ = ((2 ^ 52 : ℤ) : ℚ) * 2 ^ lastPlace q := by
      rw [hplace, Int.cast_pow, Int.cast_ofNat, ← zpow_natCast, ← zpow_add₀ (by norm_num)]
      norm_num
    _ ≤ round53 q := mul_le_mul_of_nonneg_right hround (two_zpow_pos _).le

theorem round53_le_two_pow (hq : 0 < q) (h : q < 2 ^ m) : round53 q ≤ 2 ^ m := by
  have hlog : Int.log 2 q + 1 ≤ m := by
    have hlt : Int.log 2 q < (m : ℤ) := by
      rw [← Int.lt_zpow_iff_log_lt (by norm_num) hq]
      simpa using h
    omega
  have hround : (roundHalfEven (q / 2 ^ lastPlace q) : ℚ) ≤ ((2 ^ 53 : ℕ) : ℚ) := by
    exact_mod_cast le_trans (le_abs_self _) (roundHalfEven_bound (scaled_lt q))
  calc round53 q ≤ ((2 ^ 53 : ℕ) : ℚ) * 2 ^ lastPlace q := mul_le_mul_of_nonneg_right hround (two_zpow_pos _).le
    _ = 2 ^ (Int.log 2 q + 1) := by
      rw [lastPlace, abs_of_pos hq, Nat.cast_pow, Nat.cast_ofNat, ← zpow_natCast, ← zpow_add₀ (by norm_num)]
      congr 1
      push_cast
      ring
    _ ≤ 2 ^ (m : ℤ) := zpow_le_zpow_right₀ (by norm_num) hlog
    _ = 2 ^ m := zpow_natCast _ _

theorem shortest_lt (h : round53 n = n) (hlt : n < 2 ^ m) : shortest n < 2 ^ m := by
  by_contra hge
  have hround := two_pow_le_round53 (q := shortest n) (m := m) (by exact_mod_cast not_lt.mp hge)
  rw [shortest_rounds h] at hround
  have : 2 ^ m ≤ n := by exact_mod_cast hround
  omega

theorem shortest_eq (h : n < 2 ^ 53) : shortest n = n := by
  have hexact := round53_natCast h.le
  have hround := shortest_rounds hexact
  rw [round53_natCast (shortest_lt hexact h).le] at hround
  exact_mod_cast hround

theorem integerText_natCast (h : n < 2 ^ 53) : integerText n = Nat.toDigits 10 n := by
  have hdigits : shortest n < 10 ^ 21 := (shortest_eq h).trans_lt (h.trans (by norm_num))
  rw [integerText, if_neg (by omega), Int.natAbs_natCast, magnitudeText, if_pos hdigits, shortest_eq h]

theorem lt_shortest (h : round53 n = n) (hexact : round53 (2 ^ m) = 2 ^ m) (hlimit : 2 ^ m < shortest (2 ^ m))
    (hge : 2 ^ m ≤ n) : 2 ^ m < shortest n := by
  by_contra hle
  have hpos : 0 < n := lt_of_lt_of_le (by positivity) hge
  have hround : (n : ℚ) ≤ 2 ^ m := by
    rw [← shortest_rounds h]
    rcases Nat.lt_or_ge (shortest n) (2 ^ m) with hlt | hge'
    · rcases Nat.eq_zero_or_pos (shortest n) with hzero | hpos'
      · rw [hzero, Nat.cast_zero, show round53 0 = 0 by simp [round53, roundHalfEven]]
        positivity
      · exact round53_le_two_pow (by exact_mod_cast hpos') (by exact_mod_cast hlt)
    · have heq : shortest n = 2 ^ m := le_antisymm (not_lt.mp hle) hge'
      rw [heq, Nat.cast_pow, Nat.cast_ofNat, hexact]
  have heq : n = 2 ^ m := le_antisymm (by exact_mod_cast hround) hge
  rw [heq] at hle
  exact hle hlimit

theorem shortest_lt_u64 (h : round53 n = n) : shortest n < 2 ^ 64 ↔ n < 2 ^ 64 := by
  constructor
  · intro hlt
    by_contra hge
    have := lt_shortest h (by decide +kernel) (by decide +kernel) (not_lt.mp hge)
    omega
  · exact shortest_lt h

theorem shortest_le_i64 (h : round53 n = n) : shortest n ≤ 2 ^ 63 ↔ n < 2 ^ 63 := by
  constructor
  · intro hle
    by_contra hge
    have := lt_shortest h (by decide +kernel) (by decide +kernel) (not_lt.mp hge)
    omega
  · intro hlt
    exact (shortest_lt h hlt).le

section Shape

variable {c : Char} {n : ℕ}

theorem isNumeral_of_isDigit (h : c.isDigit = true) : isNumeral c = true := by
  simp [isNumeral, h]

theorem isDigit_of_mem (h : c ∈ Nat.toDigits 10 n) : c.isDigit = true :=
  Nat.isDigit_of_mem_toDigits (by decide) le_rfl h

theorem numeric_digits : Numeric (Nat.toDigits 10 n) := by
  cases hdigits : Nat.toDigits 10 n with
  | nil => exact absurd hdigits Nat.toDigits_ne_nil
  | cons c ds =>
    refine ⟨c, ds, rfl, .inr (isDigit_of_mem (n := n) (by simp [hdigits])), fun d hd ↦ ?_⟩
    exact isNumeral_of_isDigit (isDigit_of_mem (n := n) (by simp [hdigits, hd]))

def leading (n : ℕ) : List Char := ((Nat.toDigits 10 n).reverse.dropWhile (· = '0')).reverse

theorem leading_ne_nil (h : 0 < n) : leading n ≠ [] := by
  intro hnil
  have hdrop : (Nat.toDigits 10 n).reverse.dropWhile (· = '0') = [] := List.reverse_eq_nil_iff.mp hnil
  rw [List.dropWhile_eq_nil_iff] at hdrop
  have hzeros : Nat.toDigits 10 n = List.replicate (Nat.toDigits 10 n).length '0' := by
    rw [List.eq_replicate_iff]
    exact ⟨rfl, fun c hc ↦ by simpa using hdrop c (List.mem_reverse.mpr hc)⟩
  have hvalue := @Nat.ofDigitChars_ten_toDigits n
  rw [hzeros, Nat.ofDigitChars_replicate_zero, Nat.mul_zero] at hvalue
  omega

theorem mem_leading (h : c ∈ leading n) : c.isDigit = true := by
  apply isDigit_of_mem (n := n)
  exact List.mem_reverse.mp ((List.dropWhile_sublist _).subset (List.mem_reverse.mp h))

theorem scientific_eq (h : 0 < n) : ∃ d ds, leading n = d :: ds ∧
    scientific n = d :: ((if ds = [] then [] else '.' :: ds) ++
      'e' :: '+' :: Nat.toDigits 10 ((Nat.toDigits 10 n).length - 1)) := by
  cases hleading : leading n with
  | nil => exact absurd hleading (leading_ne_nil h)
  | cons d ds =>
    refine ⟨d, ds, rfl, ?_⟩
    simp only [scientific]
    rw [← leading, hleading]
    cases ds <;> rfl

theorem numeric_scientific (h : 0 < n) : Numeric (scientific n) := by
  obtain ⟨d, ds, hleading, htext⟩ := scientific_eq h
  have hdigit {c : Char} (hc : c ∈ d :: ds) : c.isDigit = true := mem_leading (n := n) (by rw [hleading]; exact hc)
  refine ⟨d, _, htext, .inr (hdigit (by simp)), fun c hc ↦ ?_⟩
  rcases List.mem_append.mp hc with hc | hc
  · split at hc
    · cases hc
    · rcases List.mem_cons.mp hc with rfl | hc
      · rfl
      · exact isNumeral_of_isDigit (hdigit (by simp [hc]))
  · rcases List.mem_cons.mp hc with rfl | hc
    · rfl
    · rcases List.mem_cons.mp hc with rfl | hc
      · rfl
      · exact isNumeral_of_isDigit (isDigit_of_mem hc)

theorem plus_mem_scientific (h : 0 < n) : '+' ∈ scientific n := by
  obtain ⟨d, ds, -, htext⟩ := scientific_eq h
  rw [htext]
  simp

theorem numeric_magnitudeText (n : ℕ) : Numeric (magnitudeText n) := by
  rw [magnitudeText]
  split
  · exact numeric_digits
  next h => exact numeric_scientific (by omega)

theorem numeric_integerText (z : ℤ) : Numeric (integerText z) := by
  rw [integerText]
  split
  · obtain ⟨c, ds, htext, hc, hds⟩ := numeric_magnitudeText z.natAbs
    refine ⟨'-', _, rfl, .inl rfl, fun d hd ↦ ?_⟩
    rw [htext] at hd
    rcases List.mem_cons.mp hd with rfl | hd
    · rcases hc with rfl | hc
      · rfl
      · exact isNumeral_of_isDigit hc
    · exact hds d hd
  · exact numeric_magnitudeText z.natAbs

end Shape

theorem toString_natCast (n : ℕ) : (toString (n : ℤ)).toList = Nat.toDigits 10 n := by
  rw [Int.toString_eq_repr, Int.repr_eq_if, if_pos (by omega), Int.toNat_natCast, Nat.toList_repr]

theorem toString_neg (h : 0 < n) : (toString (-(n : ℤ))).toList = '-' :: Nat.toDigits 10 n := by
  rw [Int.toString_eq_repr, Int.repr_eq_if, if_neg (by omega), neg_neg, Int.toNat_natCast, String.toList_append,
    Nat.toList_repr]
  rfl

theorem numeric_toString (z : ℤ) : Numeric (toString z).toList := by
  obtain ⟨n, rfl | rfl⟩ := z.eq_nat_or_neg
  · rw [toString_natCast]
    exact numeric_digits
  · rcases Nat.eq_zero_or_pos n with rfl | hpos
    · exact numeric_digits (n := 0)
    · rw [toString_neg hpos]
      obtain ⟨c, ds, htext, hc, hds⟩ := numeric_digits (n := n)
      exact ⟨'-', _, rfl, .inl rfl, fun d hd ↦ isNumeral_of_isDigit (isDigit_of_mem hd)⟩

end Noesar.Lib.Decimal
