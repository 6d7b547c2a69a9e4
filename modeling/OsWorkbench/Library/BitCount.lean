import OsWorkbench.Library.Words

namespace OsWorkbench.Library.BitCount

variable {w : ℕ}

theorem toNat_ne_zero {x : BitVec w} (hx : x ≠ 0#w) : x.toNat ≠ 0 := by
  intro hzero
  exact hx (BitVec.eq_of_toNat_eq (by rw [hzero, BitVec.toNat_ofNat, Nat.zero_mod]))

theorem toNat_pred {x : BitVec w} (hx : x ≠ 0#w) : (x - 1#w).toNat = x.toNat - 1 := by
  have hpos := toNat_ne_zero hx
  have hlt := x.isLt
  have hone : (1#w).toNat = 1 := by rw [BitVec.toNat_ofNat, Nat.mod_eq_of_lt (by omega)]
  rw [BitVec.toNat_sub_of_le (by rw [BitVec.le_def, hone]; omega), hone]

/-- A word with one bit is the power of two that its trailing zeros count. -/
theorem toNat_eq_two_pow_ctz {x : BitVec w} (hx : x ≠ 0#w) (hpow : x &&& (x - 1#w) = 0#w) :
    x.toNat = 2 ^ x.ctz.toNat := by
  have hand : x.toNat &&& (x.toNat - 1) = 0 := by
    rw [← toNat_pred hx, ← BitVec.toNat_and, hpow, BitVec.toNat_ofNat, Nat.zero_mod]
  obtain ⟨n, hn⟩ := (Nat.and_sub_one_eq_zero_iff_isPowerOfTwo (toNat_ne_zero hx)).mp hand
  have hbit := BitVec.getLsbD_true_ctz_of_ne_zero hx
  rw [BitVec.getLsbD, hn, Nat.testBit_two_pow, decide_eq_true_eq] at hbit
  rw [hn, hbit]

/-- Below a word with one bit the mask takes the remainder. -/
theorem toNat_and_pred (y : BitVec w) {x : BitVec w} (hx : x ≠ 0#w)
    (hpow : x &&& (x - 1#w) = 0#w) : (y &&& (x - 1#w)).toNat = y.toNat % x.toNat := by
  rw [BitVec.toNat_and, toNat_pred hx, toNat_eq_two_pow_ctz hx hpow,
    Nat.and_two_pow_sub_one_eq_mod]

theorem toNat_ctz_lt {x : BitVec w} (hx : x ≠ 0#w) : x.ctz.toNat < w := by
  have hlt := BitVec.ctz_lt_iff_ne_zero.mpr hx
  rw [BitVec.lt_def, BitVec.natCast_eq_ofNat, BitVec.toNat_ofNat, Nat.mod_eq_of_lt
    (Nat.lt_two_pow_self)] at hlt
  exact hlt

theorem toNat_clz_lt {x : BitVec w} (hx : x ≠ 0#w) : x.clz.toNat < w := by
  have hlt := BitVec.clz_lt_iff_ne_zero.mpr hx
  rw [BitVec.lt_def, BitVec.natCast_eq_ofNat, BitVec.toNat_ofNat, Nat.mod_eq_of_lt
    (Nat.lt_two_pow_self)] at hlt
  exact hlt

theorem clz_zero : (0#w).clz = BitVec.ofNat w w := BitVec.clz_eq_iff_eq_zero.mpr rfl

theorem ctz_zero : (0#w).ctz = BitVec.ofNat w w := by
  have hreverse : (0#w).reverse = 0#w := BitVec.reverse_eq_zero_iff.mpr rfl
  rw [BitVec.ctz_eq_reverse_clz, hreverse, clz_zero]

/-- Of a word that is not zero the leading zeros end where its logarithm says. -/
theorem clz_add_log2 {x : BitVec w} (hx : x ≠ 0#w) : x.clz.toNat + x.toNat.log2 + 1 = w := by
  have hlt := toNat_clz_lt hx
  have hlog : x.toNat.log2 = w - 1 - x.clz.toNat := by
    rw [Nat.log2_eq_iff (toNat_ne_zero hx)]
    have hhigh := @BitVec.toNat_lt_two_pow_sub_clz w x
    rw [show w - x.clz.toNat = w - 1 - x.clz.toNat + 1 by omega] at hhigh
    exact ⟨BitVec.two_pow_sub_clz_le_toNat_of_ne_zero (by omega) hx, hhigh⟩
  omega

theorem log2_div_two_pow {n h : ℕ} (hle : 2 ^ h ≤ n) : (n / 2 ^ h).log2 + h = n.log2 := by
  have hpos := Nat.two_pow_pos h
  have hn : n ≠ 0 := by omega
  have hlog := (Nat.le_log2 hn).mpr hle
  have hdiv : (n / 2 ^ h).log2 = n.log2 - h := by
    rw [Nat.log2_eq_iff (Nat.ne_of_gt (Nat.div_pos hle hpos)), Nat.le_div_iff_mul_le hpos,
      Nat.div_lt_iff_lt_mul hpos, ← Nat.pow_add, ← Nat.pow_add]
    rw [Nat.sub_add_cancel hlog, show n.log2 - h + 1 + h = n.log2 + 1 by omega]
    exact ⟨Nat.log2_self_le hn, Nat.lt_log2_self⟩
  omega

theorem toNat_clz_le (x : BitVec w) : x.clz.toNat ≤ w := by
  have hle := @BitVec.clz_le w x
  rw [BitVec.le_def, BitVec.natCast_eq_ofNat, BitVec.toNat_ofNat,
    Nat.mod_eq_of_lt Nat.lt_two_pow_self] at hle
  exact hle

theorem toNat_ctz_le (x : BitVec w) : x.ctz.toNat ≤ w := toNat_clz_le x.reverse

/-- The upper half of a window is clear when the word is below its middle. -/
theorem and_window_eq_zero {h : ℕ} {x : BitVec w} (hw : h + h ≤ w) (hx : x.toNat < 2 ^ (h + h)) :
    x &&& Words.low w h <<< h = 0#w ↔ x.toNat < 2 ^ h := by
  constructor
  · intro hzero
    have hfield := Words.toNat_field hw x
    have hhigh : x.toNat / 2 ^ h < 2 ^ h := by
      apply Nat.div_lt_of_lt_mul
      rwa [← Nat.pow_add]
    rw [hzero, BitVec.zero_ushiftRight, BitVec.toNat_ofNat, Nat.zero_mod,
      Nat.mod_eq_of_lt hhigh] at hfield
    exact (Nat.div_eq_zero_iff_lt (Nat.two_pow_pos h)).mp hfield.symm
  · intro hlt
    apply BitVec.eq_of_getLsbD_eq
    intro i hi
    rw [BitVec.getLsbD_and, BitVec.getLsbD_shiftLeft, BitVec.getLsbD_zero]
    by_cases hlow : i < h
    · simp [hlow]
    · have hbit : x.getLsbD i = false := by
        apply Nat.testBit_lt_two_pow
        exact Nat.lt_of_lt_of_le hlt (Nat.pow_le_pow_right Nat.two_pos (by omega))
      rw [hbit, Bool.false_and]

theorem ctz_unique {x : BitVec w} {i : ℕ} (hbit : x.getLsbD i = true)
    (hbelow : ∀ j < i, x.getLsbD j = false) : x.ctz.toNat = i := by
  have hx : x ≠ 0#w := by
    intro hzero
    rw [hzero, BitVec.getLsbD_zero] at hbit
    exact Bool.false_ne_true hbit
  cases Nat.lt_trichotomy x.ctz.toNat i with
  | inl hlt =>
    have htrue := BitVec.getLsbD_true_ctz_of_ne_zero hx
    rw [hbelow _ hlt] at htrue
    exact absurd htrue Bool.false_ne_true
  | inr hge =>
    cases hge with
    | inl heq => exact heq
    | inr hgt =>
      rw [BitVec.getLsbD_false_of_lt_ctz hgt] at hbit
      exact absurd hbit Bool.false_ne_true

/-- A window at the bottom is clear when the trailing zeros fill it. -/
theorem and_low_eq_zero {h : ℕ} {x : BitVec w} (hx : x ≠ 0#w) :
    x &&& Words.low w h = 0#w ↔ h ≤ x.ctz.toNat := by
  constructor
  · intro hzero
    apply Nat.le_of_not_lt
    intro hlt
    have hbit := congrArg (fun y ↦ y.getLsbD x.ctz.toNat) hzero
    rw [BitVec.getLsbD_and, BitVec.getLsbD_true_ctz_of_ne_zero hx, Words.getLsbD_low,
      BitVec.getLsbD_zero, decide_eq_true (toNat_ctz_lt hx), decide_eq_true hlt] at hbit
    exact Bool.false_ne_true hbit.symm
  · intro hle
    apply BitVec.eq_of_getLsbD_eq
    intro i hi
    rw [BitVec.getLsbD_and, Words.getLsbD_low, BitVec.getLsbD_zero]
    by_cases hlow : i < h
    · rw [BitVec.getLsbD_false_of_lt_ctz (by omega), Bool.false_and]
    · simp [hlow]

theorem ctz_ushiftRight {h : ℕ} {x : BitVec w} (hx : x ≠ 0#w) (hle : h ≤ x.ctz.toNat) :
    x >>> h ≠ 0#w ∧ (x >>> h).ctz.toNat = x.ctz.toNat - h := by
  have hbit : (x >>> h).getLsbD (x.ctz.toNat - h) = true := by
    rw [BitVec.getLsbD_ushiftRight, Nat.add_sub_cancel' hle]
    exact BitVec.getLsbD_true_ctz_of_ne_zero hx
  constructor
  · intro hzero
    rw [hzero, BitVec.getLsbD_zero] at hbit
    exact Bool.false_ne_true hbit
  · apply ctz_unique hbit
    intro j hj
    rw [BitVec.getLsbD_ushiftRight]
    exact BitVec.getLsbD_false_of_lt_ctz (by omega)

end OsWorkbench.Library.BitCount
