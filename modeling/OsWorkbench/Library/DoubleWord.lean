import OsWorkbench.Library.BitCount

namespace OsWorkbench.Library.DoubleWord

open BitCount

variable {w k : ℕ}

/-- A word with the halves high and low, as a number. -/
theorem toNat_append (high low : BitVec w) :
    (high ++ low).toNat = high.toNat * 2 ^ w + low.toNat := by
  rw [BitVec.toNat_append, ← Nat.shiftLeft_add_eq_or_of_lt low.isLt, Nat.shiftLeft_eq]

theorem append_zero_left (low : BitVec w) : (0#w ++ low).toNat = low.toNat := by
  rw [toNat_append, BitVec.toNat_ofNat, Nat.zero_mod, Nat.zero_mul, Nat.zero_add]

/-- A shift to the right by less than a half: the low half takes the bits that leave the high
half. -/
theorem append_ushiftRight (high low : BitVec w) (hk : k ≤ w) :
    (high ++ low) >>> k = (high >>> k) ++ (high <<< (w - k) ||| low >>> k) := by
  apply BitVec.eq_of_getLsbD_eq
  intro i hi
  simp only [BitVec.getLsbD_ushiftRight, BitVec.getLsbD_append, BitVec.getLsbD_or,
    BitVec.getLsbD_shiftLeft]
  by_cases hlow : k + i < w
  · have hout : i < w - k := by omega
    have hin : i < w := by omega
    simp [hlow, hout, hin]
  · by_cases hin : i < w
    · have hout : ¬ i < w - k := by omega
      have hbit : k + i - w = i - (w - k) := by omega
      have hzero : low.getLsbD (k + i) = false := BitVec.getLsbD_of_ge _ _ (by omega)
      simp [hlow, hin, hout, hbit, hzero]
    · have hbit : k + i - w = k + (i - w) := by omega
      simp [hlow, hin, hbit]

/-- A shift to the right by a half or more leaves nothing in the high half. -/
theorem append_ushiftRight_of_le (high low : BitVec w) (hk : w ≤ k) :
    (high ++ low) >>> k = 0#w ++ (high >>> (k - w)) := by
  apply BitVec.eq_of_getLsbD_eq
  intro i hi
  simp only [BitVec.getLsbD_ushiftRight, BitVec.getLsbD_append, BitVec.getLsbD_zero]
  have hlow : ¬ k + i < w := by omega
  have hbit : k + i - w = k - w + i := by omega
  by_cases hin : i < w
  · simp [hlow, hin, hbit]
  · have hzero : high.getLsbD (k + i - w) = false := BitVec.getLsbD_of_ge _ _ (by omega)
    simp [hlow, hin, hzero]

/-- A shift to the left by less than a half: the high half takes the bits that leave the low
half. -/
theorem append_shiftLeft (high low : BitVec w) (hk : k ≤ w) :
    (high ++ low) <<< k = (high <<< k ||| low >>> (w - k)) ++ (low <<< k) := by
  apply BitVec.eq_of_getLsbD_eq
  intro i hi
  simp only [BitVec.getLsbD_shiftLeft, BitVec.getLsbD_append, BitVec.getLsbD_or,
    BitVec.getLsbD_ushiftRight, hi, decide_true, Bool.true_and]
  by_cases hin : i < w
  · have hbit : i - k < w := by omega
    simp [hin, hbit]
  · have hbit : ¬ i < k := by omega
    by_cases hlow : i - k < w
    · have hout : i - w < w := by omega
      have hcarry : i - w < k := by omega
      have heq : w - k + (i - w) = i - k := by omega
      simp [hin, hbit, hlow, hout, hcarry, heq]
    · have hout : i - w < w := by omega
      have hcarry : ¬ i - w < k := by omega
      have hzero : low.getLsbD (w - k + (i - w)) = false := BitVec.getLsbD_of_ge _ _ (by omega)
      have heq : i - k - w = i - w - k := by omega
      simp [hin, hbit, hlow, hout, hcarry, hzero, heq]

/-- A shift to the left by a half or more leaves nothing in the low half. -/
theorem append_shiftLeft_of_le (high low : BitVec w) (hk : w ≤ k) :
    (high ++ low) <<< k = (low <<< (k - w)) ++ 0#w := by
  apply BitVec.eq_of_getLsbD_eq
  intro i hi
  simp only [BitVec.getLsbD_shiftLeft, BitVec.getLsbD_append, BitVec.getLsbD_zero, hi,
    decide_true, Bool.true_and]
  by_cases hin : i < w
  · have hbit : i < k := by omega
    simp [hin, hbit]
  · have hout : i - w < w := by omega
    by_cases hbit : i < k
    · have hcarry : i - w < k - w := by omega
      simp [hin, hbit, hcarry]
    · have hcarry : ¬ i - w < k - w := by omega
      have hlow : i - k < w := by omega
      have heq : i - w - (k - w) = i - k := by omega
      simp [hin, hbit, hout, hcarry, hlow, heq]

/-- Dividing by a word whose low half is zero is dividing the high half. -/
theorem div_high {a b l : ℕ} (hl : l < 2 ^ w) : (a * 2 ^ w + l) / (b * 2 ^ w) = a / b := by
  rw [Nat.mul_comm b, ← Nat.div_div_eq_div_mul, Nat.mul_comm a,
    Nat.mul_add_div (Nat.two_pow_pos w), Nat.div_eq_of_lt hl, Nat.add_zero]

theorem mod_high {a b l : ℕ} (hl : l < 2 ^ w) :
    (a * 2 ^ w + l) % (b * 2 ^ w) = a % b * 2 ^ w + l := by
  rw [Nat.mul_comm b, Nat.mod_mul, Nat.mul_comm a, Nat.mul_add_mod, Nat.mod_eq_of_lt hl,
    Nat.mul_add_div (Nat.two_pow_pos w), Nat.div_eq_of_lt hl, Nat.add_zero, Nat.add_comm,
    Nat.mul_comm]

/-- The leading zeros of a double word. -/
theorem toNat_clz_append (high low : BitVec w) :
    (high ++ low).clz.toNat = if high = 0#w then w + low.clz.toNat else high.clz.toNat := by
  by_cases hhigh : high = 0#w
  · rw [if_pos hhigh, hhigh]
    have hnat := append_zero_left low
    by_cases hlow : low = 0#w
    · have hzero : 0#w ++ low = 0#(w + w) := by
        apply BitVec.eq_of_toNat_eq
        rw [hnat, hlow, BitVec.toNat_ofNat, BitVec.toNat_ofNat, Nat.zero_mod, Nat.zero_mod]
      rw [hzero, hlow, clz_zero, clz_zero, BitVec.toNat_ofNat, BitVec.toNat_ofNat,
        Nat.mod_eq_of_lt Nat.lt_two_pow_self, Nat.mod_eq_of_lt Nat.lt_two_pow_self]
    · have hne : 0#w ++ low ≠ 0#(w + w) := by
        intro hzero
        rw [hzero, BitVec.toNat_ofNat, Nat.zero_mod] at hnat
        exact toNat_ne_zero hlow hnat.symm
      have hlong := clz_add_log2 hne
      have hshort := clz_add_log2 hlow
      rw [hnat] at hlong
      omega
  · rw [if_neg hhigh]
    have hpos := toNat_ne_zero hhigh
    have hle : 2 ^ w ≤ (high ++ low).toNat := by
      rw [toNat_append]
      exact Nat.le_add_right_of_le (Nat.le_mul_of_pos_left _ (Nat.pos_of_ne_zero hpos))
    have hne : high ++ low ≠ 0#(w + w) := by
      intro hzero
      rw [hzero, BitVec.toNat_ofNat, Nat.zero_mod] at hle
      exact absurd (Nat.two_pow_pos w) (Nat.not_lt.mpr hle)
    have hdiv : (high ++ low).toNat / 2 ^ w = high.toNat := by
      rw [toNat_append, Nat.mul_comm, Nat.mul_add_div (Nat.two_pow_pos w),
        Nat.div_eq_of_lt low.isLt, Nat.add_zero]
    have hlog := log2_div_two_pow hle
    rw [hdiv] at hlog
    have hlong := clz_add_log2 hne
    have hshort := clz_add_log2 hhigh
    omega

/-- The trailing zeros of a double word. -/
theorem toNat_ctz_append (high low : BitVec w) :
    (high ++ low).ctz.toNat = if low = 0#w then w + high.ctz.toNat else low.ctz.toNat := by
  by_cases hlow : low = 0#w
  · rw [if_pos hlow, hlow]
    by_cases hhigh : high = 0#w
    · have hzero : high ++ 0#w = 0#(w + w) := by
        rw [hhigh]
        apply BitVec.eq_of_toNat_eq
        rw [append_zero_left, BitVec.toNat_ofNat, BitVec.toNat_ofNat, Nat.zero_mod, Nat.zero_mod]
      rw [hzero, hhigh, ctz_zero, ctz_zero, BitVec.toNat_ofNat, BitVec.toNat_ofNat,
        Nat.mod_eq_of_lt Nat.lt_two_pow_self, Nat.mod_eq_of_lt Nat.lt_two_pow_self]
    · apply ctz_unique
      · have hge : ¬ w + high.ctz.toNat < w := by omega
        rw [BitVec.getLsbD_append, if_neg hge, Nat.add_sub_cancel_left]
        exact BitVec.getLsbD_true_ctz_of_ne_zero hhigh
      · intro j hj
        rw [BitVec.getLsbD_append]
        by_cases hlt : j < w
        · rw [if_pos hlt, BitVec.getLsbD_zero]
        · rw [if_neg hlt]
          exact BitVec.getLsbD_false_of_lt_ctz (by omega)
  · rw [if_neg hlow]
    have hlt := toNat_ctz_lt hlow
    apply ctz_unique
    · rw [BitVec.getLsbD_append, if_pos hlt]
      exact BitVec.getLsbD_true_ctz_of_ne_zero hlow
    · intro j hj
      rw [BitVec.getLsbD_append, if_pos (by omega)]
      exact BitVec.getLsbD_false_of_lt_ctz hj

end OsWorkbench.Library.DoubleWord
