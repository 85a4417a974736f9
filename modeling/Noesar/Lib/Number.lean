import Mathlib

namespace Noesar.Lib

def roundHalfEven (q : ℚ) : ℤ :=
  if q - ⌊q⌋ < 1 / 2 then ⌊q⌋
  else if 1 / 2 < q - ⌊q⌋ then ⌊q⌋ + 1
  else if ⌊q⌋ % 2 = 0 then ⌊q⌋ else ⌊q⌋ + 1

@[simp] theorem roundHalfEven_intCast (k : ℤ) : roundHalfEven k = k := by
  simp [roundHalfEven]

theorem roundHalfEven_bound {q : ℚ} {n : ℕ} (h : |q| < n) : |roundHalfEven q| ≤ n := by
  obtain ⟨hl, hu⟩ := abs_lt.mp h
  have hfl : (-n : ℤ) ≤ ⌊q⌋ := Int.le_floor.mpr (by push_cast; exact hl.le)
  have hfu : ⌊q⌋ < (n : ℤ) := Int.floor_lt.mpr (by push_cast; exact hu)
  rw [abs_le, roundHalfEven]
  split
  · omega
  · split
    · omega
    · split <;> omega

/-- The power of two that 53 significant bits leave as the last place of `q`. -/
def lastPlace (q : ℚ) : ℤ := Int.log 2 |q| - 52

def round53 (q : ℚ) : ℚ := roundHalfEven (q / 2 ^ lastPlace q) * 2 ^ lastPlace q

theorem two_zpow_pos (e : ℤ) : (0 : ℚ) < 2 ^ e := zpow_pos (by norm_num) e

theorem round53_of_multiple {q : ℚ} (k : ℤ) (h : q = k * 2 ^ lastPlace q) : round53 q = q := by
  have hk : q / 2 ^ lastPlace q = k := by rw [div_eq_iff (two_zpow_pos _).ne']; exact h
  rw [round53, hk, roundHalfEven_intCast, ← h]

/-- A finite binary64 value: an integer of at most 53 bits times a power of two. -/
structure Binary64 where
  val : ℚ
  dyadic : ∃ k e : ℤ, |k| ≤ 2 ^ 53 ∧ val = k * 2 ^ e
  deriving DecidableEq

theorem scaled_lt (q : ℚ) : |q / 2 ^ lastPlace q| < (2 ^ 53 : ℕ) := by
  have hlt := Int.lt_zpow_succ_log_self (b := 2) (by norm_num) |q|
  have hp := two_zpow_pos (lastPlace q)
  rw [abs_div, abs_of_pos hp, div_lt_iff₀ hp]
  have he : ((2 ^ 53 : ℕ) : ℚ) * 2 ^ lastPlace q = 2 ^ (Int.log 2 |q| + 1) := by
    rw [lastPlace, Nat.cast_pow, Nat.cast_ofNat, ← zpow_natCast, ← zpow_add₀ (by norm_num)]
    congr 1
    push_cast
    ring
  rw [he]
  simpa using hlt

theorem round53_dyadic (q : ℚ) : ∃ k e : ℤ, |k| ≤ 2 ^ 53 ∧ round53 q = k * 2 ^ e := by
  refine ⟨roundHalfEven (q / 2 ^ lastPlace q), lastPlace q, ?_, rfl⟩
  exact_mod_cast roundHalfEven_bound (scaled_lt q)

def Binary64.ofRat (q : ℚ) : Binary64 := ⟨round53 q, round53_dyadic q⟩

theorem round53_natCast {n : ℕ} (h : n ≤ 2 ^ 53) : round53 n = n := by
  rcases Nat.eq_zero_or_pos n with rfl | hn
  · simp [round53, roundHalfEven]
  have hlog : Int.log 2 |(n : ℚ)| = Nat.log 2 n := by
    rw [abs_of_nonneg (by positivity)]; exact Int.log_natCast 2 n
  by_cases hl : Nat.log 2 n ≤ 52
  · apply round53_of_multiple (n * 2 ^ (52 - Nat.log 2 n) : ℤ)
    rw [lastPlace, hlog]
    push_cast
    rw [mul_assoc, ← zpow_natCast, ← zpow_add₀ (by norm_num : (2 : ℚ) ≠ 0)]
    have he : ((52 - Nat.log 2 n : ℕ) : ℤ) + ((Nat.log 2 n : ℤ) - 52) = 0 := by omega
    rw [he, zpow_zero, mul_one]
  · -- the only such number is `2 ^ 53` itself
    have hle : 2 ^ 53 ≤ n := by
      refine le_trans (Nat.pow_le_pow_right (by norm_num) (by omega)) (Nat.pow_log_le_self 2 (by omega))
    have hn' : n = 2 ^ 53 := le_antisymm h hle
    have hlog' : Nat.log 2 n = 53 := by rw [hn']; exact Nat.log_pow (by norm_num) 53
    apply round53_of_multiple (2 ^ 52 : ℤ)
    rw [lastPlace, hlog, hlog', hn']
    norm_num

theorem round53_succ_limit : round53 (2 ^ 53 + 1) = 2 ^ 53 := by
  have hlog : Int.log 2 |(2 ^ 53 + 1 : ℚ)| = 53 := by
    have h := Int.log_natCast (R := ℚ) 2 (2 ^ 53 + 1)
    have hn : Nat.log 2 (2 ^ 53 + 1) = 53 :=
      Nat.log_eq_iff (by norm_num) |>.mpr ⟨by norm_num, by norm_num⟩
    rw [hn, Nat.cast_add, Nat.cast_pow, Nat.cast_ofNat, Nat.cast_one] at h
    rw [abs_of_nonneg (by positivity), h]
    rfl
  have hfloor : ⌊((2 ^ 53 + 1 : ℚ)) / 2⌋ = 2 ^ 52 := by
    rw [Int.floor_eq_iff]; norm_num
  have hround : roundHalfEven ((2 ^ 53 + 1 : ℚ) / 2) = 2 ^ 52 := by
    rw [roundHalfEven, hfloor]; norm_num
  have hplace : lastPlace (2 ^ 53 + 1) = 1 := by rw [lastPlace, hlog]; norm_num
  rw [round53, hplace, zpow_one, hround]
  norm_num

theorem round53_nonpos {q : ℚ} (h : q ≤ 0) : round53 q ≤ 0 := by
  have hp := two_zpow_pos (lastPlace q)
  have hs : q / 2 ^ lastPlace q ≤ 0 := div_nonpos_of_nonpos_of_nonneg h hp.le
  have hround : roundHalfEven (q / 2 ^ lastPlace q) ≤ 0 := by
    rcases hs.eq_or_lt with hzero | hneg
    · rw [hzero]
      simp [roundHalfEven]
    · have hfloor : ⌊q / 2 ^ lastPlace q⌋ < 0 := Int.floor_lt.mpr (by exact_mod_cast hneg)
      rw [roundHalfEven]
      split
      · omega
      · split
        · omega
        · split <;> omega
  rw [round53]
  exact mul_nonpos_of_nonpos_of_nonneg (by exact_mod_cast hround) hp.le

theorem round53_pos {q : ℚ} (h : 0 < q) : 0 < round53 q := by
  have hp := two_zpow_pos (lastPlace q)
  have hlog := Int.zpow_log_le_self (b := 2) (by norm_num) h
  have hs : (1 : ℚ) ≤ q / 2 ^ lastPlace q := by
    rw [le_div_iff₀ hp, one_mul]
    refine le_trans ?_ hlog
    rw [lastPlace, abs_of_pos h]
    exact zpow_le_zpow_right₀ (by norm_num) (by omega)
  have hfloor : 1 ≤ ⌊q / 2 ^ lastPlace q⌋ := Int.le_floor.mpr (by exact_mod_cast hs)
  have hround : 0 < roundHalfEven (q / 2 ^ lastPlace q) := by
    rw [roundHalfEven]
    split
    · omega
    · split
      · omega
      · split <;> omega
  rw [round53]
  exact mul_pos (by exact_mod_cast hround) hp

/-- A number of the language. Every comparison treats a missing or non-numeric
value as it treats `nan`. -/
inductive Number
  | finite (x : Binary64)
  | infinity
  | negInfinity
  | nan
  deriving DecidableEq

namespace Number

def ofRat (q : ℚ) : Number := .finite (Binary64.ofRat q)

/-- The position on the extended line, which `nan` has none of. -/
def position : Number → Option (WithBot (WithTop ℚ))
  | finite x => some ((x.val : WithTop ℚ) : WithBot (WithTop ℚ))
  | infinity => some ((⊤ : WithTop ℚ) : WithBot (WithTop ℚ))
  | negInfinity => some ⊥
  | nan => none

def lt (a b : Number) : Bool :=
  match a.position, b.position with
  | some x, some y => decide (x < y)
  | _, _ => false

def le (a b : Number) : Bool :=
  match a.position, b.position with
  | some x, some y => decide (x ≤ y)
  | _, _ => false

def zero : Number := .finite ⟨0, 0, 0, by norm_num, by norm_num⟩

def decrement : Number → Number
  | finite x => ofRat (x.val - 1)
  | n => n

theorem lt_of_not_le {a b : Number} (ha : a ≠ nan) (hb : b ≠ nan) (h : le b a = false) :
    lt a b = true := by
  have hp (n : Number) (hn : n ≠ nan) : ∃ x, n.position = some x := by
    cases n <;> simp_all [position]
  obtain ⟨x, hx⟩ := hp a ha
  obtain ⟨y, hy⟩ := hp b hb
  simp only [le, lt, hx, hy, decide_eq_false_iff_not, not_le, decide_eq_true_eq] at h ⊢
  exact h

theorem le_zero_decrement {n : Number} : n.decrement.le zero = true ↔ n.le (ofRat 1) = true := by
  cases n with
  | finite x =>
    have hone : round53 1 = 1 := by exact_mod_cast round53_natCast (n := 1) (by norm_num)
    have hle : (decrement (finite x)).le zero = true ↔ round53 (x.val - 1) ≤ 0 := by
      simp [decrement, le, position, zero, ofRat, Binary64.ofRat]
    have hone' : (finite x).le (ofRat 1) = true ↔ x.val ≤ 1 := by
      simp [le, position, ofRat, Binary64.ofRat, hone]
    rw [hle, hone']
    constructor
    · intro h
      by_contra hlt
      exact absurd h (not_le.mpr (round53_pos (by linarith)))
    · intro h
      exact round53_nonpos (by linarith)
  | infinity =>
    simp only [decrement, le, position, zero, ofRat]
    decide
  | negInfinity => simp [decrement, le, position, zero, ofRat]
  | nan => simp [decrement, le, position]

theorem not_le_zero {n : Number} (h : zero.lt n = true) : n.le zero = false := by
  cases n with
  | finite => simpa [lt, le, position, zero] using h
  | infinity => rfl
  | negInfinity => simp [lt, position, zero] at h
  | nan => rfl

end Number

end Noesar.Lib

namespace Noesar.Lib

/-- How the sums and differences of 64-bit integers come out, where they come out at all. -/
structure Arithmetic where
  add : Int64 → Int64 → Option ℤ
  sub : Int64 → Int64 → Option ℤ

def Fits (n : ℤ) : Prop := -2 ^ 63 ≤ n ∧ n < 2 ^ 63

instance (n : ℤ) : Decidable (Fits n) := inferInstanceAs (Decidable (_ ∧ _))

namespace Arithmetic

def wrapping : Arithmetic where
  add a b := some (a + b).toInt
  sub a b := some (a - b).toInt

def trapping : Arithmetic where
  add a b := if Fits (a.toInt + b.toInt) then some (a.toInt + b.toInt) else none
  sub a b := if Fits (a.toInt - b.toInt) then some (a.toInt - b.toInt) else none

def unbounded : Arithmetic where
  add a b := some (a.toInt + b.toInt)
  sub a b := some (a.toInt - b.toInt)

theorem bmod_of_fits {n : ℤ} (h : Fits n) : n.bmod (2 ^ 64) = n := by
  obtain ⟨hl, hu⟩ := h
  apply Int.bmod_eq_of_le
  · omega
  · omega

variable {a b : Int64}

theorem wrapping_add (h : Fits (a.toInt + b.toInt)) : wrapping.add a b = unbounded.add a b := by
  simp only [wrapping, unbounded, Int64.toInt_add, bmod_of_fits h]

theorem wrapping_sub (h : Fits (a.toInt - b.toInt)) : wrapping.sub a b = unbounded.sub a b := by
  simp only [wrapping, unbounded, Int64.toInt_sub, bmod_of_fits h]

theorem trapping_add_none (h : ¬Fits (a.toInt + b.toInt)) : trapping.add a b = none := if_neg h

theorem trapping_sub_none (h : ¬Fits (a.toInt - b.toInt)) : trapping.sub a b = none := if_neg h

structure Faithful (m : Arithmetic) : Prop where
  add : ∀ a b, Fits (a.toInt + b.toInt) → m.add a b = unbounded.add a b
  sub : ∀ a b, Fits (a.toInt - b.toInt) → m.sub a b = unbounded.sub a b

theorem faithful_wrapping : Faithful wrapping := ⟨fun _ _ ↦ wrapping_add, fun _ _ ↦ wrapping_sub⟩

theorem faithful_trapping : Faithful trapping := ⟨fun _ _ h ↦ if_pos h, fun _ _ h ↦ if_pos h⟩

end Arithmetic

end Noesar.Lib
