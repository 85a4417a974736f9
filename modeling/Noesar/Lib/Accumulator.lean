import Mathlib

/-!
Numbers of one width regrouped into numbers of another by way of a register that is never masked: what is pushed into
it moves the bits above out of its width, and only the lowest ones are still looked at.
-/

namespace Noesar.Lib.Accumulator

/-- The lowest bits of the register are these. -/
structure Holds {w : ℕ} (value : BitVec w) (bits pending : ℕ) : Prop where
  fits : bits ≤ w
  low : value.toNat % 2 ^ bits = pending

variable {w bits k pending d : ℕ} {value : BitVec w}

theorem Holds.lt (h : Holds value bits pending) : pending < 2 ^ bits := by
  rw [← h.low]
  exact Nat.mod_lt _ (by positivity)

theorem Holds.empty (value : BitVec w) : Holds value 0 0 := ⟨Nat.zero_le w, by rw [pow_zero, Nat.mod_one]⟩

theorem shift_or (value : BitVec w) (hk : k ≤ w) (hd : d < 2 ^ k) :
    (value <<< k ||| BitVec.ofNat w d).toNat = (value.toNat * 2 ^ k + d) % 2 ^ w := by
  have hpow : 2 ^ w = 2 ^ (w - k) * 2 ^ k := by rw [← pow_add, Nat.sub_add_cancel hk]
  have hdw : d < 2 ^ w := hd.trans_le (Nat.pow_le_pow_right (by omega) hk)
  have hshift : value.toNat <<< k % 2 ^ w = (value.toNat % 2 ^ (w - k)) <<< k := by
    rw [Nat.shiftLeft_eq, Nat.shiftLeft_eq, hpow, Nat.mul_mod_mul_right]
  rw [BitVec.toNat_or, BitVec.toNat_shiftLeft, BitVec.toNat_ofNat, Nat.mod_eq_of_lt hdw, hshift,
    ← Nat.shiftLeft_add_eq_or_of_lt hd, ← hshift, Nat.shiftLeft_eq]
  have hle : value.toNat * 2 ^ k % 2 ^ w + d < 2 ^ w := by
    rw [← Nat.shiftLeft_eq, hshift, Nat.shiftLeft_eq, hpow]
    have hlt : value.toNat % 2 ^ (w - k) < 2 ^ (w - k) := Nat.mod_lt _ (by positivity)
    nlinarith [Nat.mul_le_mul_right (2 ^ k) (Nat.succ_le_of_lt hlt)]
  rw [Nat.add_mod, Nat.mod_eq_of_lt hdw, Nat.mod_eq_of_lt hle]

theorem Holds.push (h : Holds value bits pending) (hfits : bits + k ≤ w) (hd : d < 2 ^ k) :
    Holds (value <<< k ||| BitVec.ofNat w d) (bits + k) (pending * 2 ^ k + d) := by
  refine ⟨hfits, ?_⟩
  have hdvd : 2 ^ (bits + k) ∣ 2 ^ w := Nat.pow_dvd_pow 2 hfits
  have hlt : pending * 2 ^ k + d < 2 ^ (bits + k) := by
    rw [pow_add]
    nlinarith [Nat.mul_le_mul_right (2 ^ k) (Nat.succ_le_of_lt h.lt)]
  have hmul : value.toNat * 2 ^ k % 2 ^ (bits + k) = pending * 2 ^ k := by
    rw [pow_add, Nat.mul_mod_mul_right, h.low]
  rw [shift_or value (by omega) hd, Nat.mod_mod_of_dvd _ hdvd, Nat.add_mod, hmul,
    Nat.mod_eq_of_lt (show d < 2 ^ (bits + k) by omega), Nat.mod_eq_of_lt hlt]

theorem Holds.drop (h : Holds value (bits + k) pending) : Holds value bits (pending % 2 ^ bits) := by
  refine ⟨by have := h.fits; omega, ?_⟩
  rw [← h.low, Nat.mod_mod_of_dvd _ (Nat.pow_dvd_pow 2 (Nat.le_add_right bits k))]

theorem Holds.top (h : Holds value (bits + k) pending) (hk : k < w) :
    (value >>> bits &&& BitVec.ofNat w (2 ^ k - 1)).toNat = pending / 2 ^ bits := by
  have hmask : 2 ^ k - 1 < 2 ^ w := by
    have hle : 2 ^ k ≤ 2 ^ w := Nat.pow_le_pow_right (by omega) hk.le
    have hpos : 0 < 2 ^ k := by positivity
    omega
  rw [BitVec.toNat_and, BitVec.toNat_ushiftRight, BitVec.toNat_ofNat, Nat.mod_eq_of_lt hmask, Nat.and_two_pow_sub_one_eq_mod,
    Nat.shiftRight_eq_div_pow, ← h.low, pow_add, Nat.mod_mul_right_div_self]

/-- Less than a whole number of `k` bits, with zeros behind it. -/
theorem Holds.last (h : Holds value bits pending) (hbits : bits ≤ k) (hk : k < w) :
    (value <<< (k - bits) &&& BitVec.ofNat w (2 ^ k - 1)).toNat = pending * 2 ^ (k - bits) := by
  have hpush := h.push (k := k - bits) (d := 0) (by omega) (by positivity)
  rw [BitVec.or_zero, Nat.add_zero, show bits + (k - bits) = 0 + k by omega] at hpush
  have htop := hpush.top hk
  rwa [BitVec.ushiftRight_zero, pow_zero, Nat.div_one] at htop

def number (base : ℕ) (ds : List ℕ) : ℕ := Nat.ofDigits base ds.reverse

theorem number_nil (base : ℕ) : number base [] = 0 := rfl

theorem number_snoc (base d : ℕ) (ds : List ℕ) : number base (ds ++ [d]) = number base ds * base + d := by
  rw [number, number, List.reverse_append, List.reverse_singleton, List.singleton_append, Nat.ofDigits_cons]
  ring

theorem number_inj {base : ℕ} {xs ys : List ℕ} (hbase : 1 < base) (hlength : xs.length = ys.length) (hx : ∀ d ∈ xs, d < base)
    (hy : ∀ d ∈ ys, d < base) (h : number base xs = number base ys) : xs = ys := by
  refine List.reverse_injective (Nat.ofDigits_inj_of_len_eq hbase (by simpa using hlength) ?_ ?_ h)
  · exact fun d hd ↦ hx d (List.mem_reverse.mp hd)
  · exact fun d hd ↦ hy d (List.mem_reverse.mp hd)

/-- What came in, as numbers of `k` bits, is what went out, as numbers of `m` bits, and what the register holds. -/
structure Carries (k m : ℕ) (ins outs : List ℕ) {w : ℕ} (value : BitVec w) (bits pending : ℕ) : Prop where
  holds : Holds value bits pending
  number : Accumulator.number (2 ^ k) ins = Accumulator.number (2 ^ m) outs * 2 ^ bits + pending
  length : k * ins.length = m * outs.length + bits
  small : ∀ d ∈ outs, d < 2 ^ m

variable {m : ℕ} {ins outs : List ℕ}

theorem Carries.empty (k m : ℕ) (value : BitVec w) : Carries k m [] [] value 0 0 :=
  ⟨.empty value, by rw [number_nil, number_nil, Nat.zero_mul], by simp, by simp⟩

theorem Carries.push (h : Carries k m ins outs value bits pending) (hfits : bits + k ≤ w) (hd : d < 2 ^ k) :
    Carries k m (ins ++ [d]) outs (value <<< k ||| BitVec.ofNat w d) (bits + k) (pending * 2 ^ k + d) := by
  refine ⟨h.holds.push hfits hd, ?_, ?_, h.small⟩
  · rw [number_snoc, h.number, pow_add]
    ring
  · rw [List.length_append, List.length_singleton, Nat.mul_add, h.length]
    omega

theorem Carries.emit (h : Carries k m ins outs value (bits + m) pending) :
    Carries k m ins (outs ++ [pending / 2 ^ bits]) value bits (pending % 2 ^ bits) := by
  refine ⟨h.holds.drop, ?_, ?_, ?_⟩
  · have hdiv := Nat.div_add_mod pending (2 ^ bits)
    rw [number_snoc, h.number, pow_add, Nat.add_mul, Nat.mul_comm (pending / 2 ^ bits), Nat.add_assoc, hdiv]
    ring
  · rw [List.length_append, List.length_singleton, Nat.mul_add, h.length]
    omega
  · intro d hd
    rcases List.mem_append.mp hd with hold | hnew
    · exact h.small d hold
    · rw [List.mem_singleton.mp hnew, Nat.div_lt_iff_lt_mul (by positivity), ← pow_add, Nat.add_comm]
      exact h.holds.lt

end Noesar.Lib.Accumulator
