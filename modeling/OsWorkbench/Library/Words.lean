import Mathlib.Algebra.Group.Nat.Defs

namespace OsWorkbench.Library.Words

variable {w k : ℕ}

/-- The word with the lowest bits set. -/
def low (w k : ℕ) : BitVec w := BitVec.ofNat w (2 ^ k - 1)

theorem getLsbD_low (i : ℕ) : (low w k).getLsbD i = (decide (i < w) && decide (i < k)) := by
  rw [low, BitVec.getLsbD_ofNat, Nat.testBit_two_pow_sub_one]

/-- Clearing the lowest bits rounds down. -/
theorem toNat_and_not_low (x : BitVec w) : (x &&& ~~~low w k).toNat = x.toNat / 2 ^ k * 2 ^ k := by
  have hbits : x &&& ~~~low w k = x >>> k <<< k := by
    apply BitVec.eq_of_getLsbD_eq
    intro i hi
    simp only [BitVec.getLsbD_and, BitVec.getLsbD_not, getLsbD_low, BitVec.getLsbD_shiftLeft,
      BitVec.getLsbD_ushiftRight, hi, decide_true, Bool.true_and]
    by_cases hlow : i < k
    · simp [hlow]
    · simp [hlow, show k + (i - k) = i by omega]
  have hle : x.toNat / 2 ^ k * 2 ^ k < 2 ^ w := Nat.lt_of_le_of_lt (Nat.div_mul_le_self _ _) x.isLt
  rw [hbits, BitVec.toNat_shiftLeft, BitVec.toNat_ushiftRight, Nat.shiftRight_eq_div_pow,
    Nat.shiftLeft_eq, Nat.mod_eq_of_lt hle]

/-- A field of a word, cut out by its mask and its shift. -/
theorem toNat_field {bits shift : ℕ} (hw : shift + bits ≤ w) (x : BitVec w) :
    ((x &&& low w bits <<< shift) >>> shift).toNat = x.toNat / 2 ^ shift % 2 ^ bits := by
  have hbits : (x &&& low w bits <<< shift) >>> shift = (x >>> shift) &&& low w bits := by
    apply BitVec.eq_of_getLsbD_eq
    intro i hi
    simp only [BitVec.getLsbD_ushiftRight, BitVec.getLsbD_and, BitVec.getLsbD_shiftLeft, getLsbD_low]
    by_cases hlow : i < bits
    · have hlt : shift + i < w := by omega
      simp [hlow, hlt, hi]
    · simp [hlow]
  have hbw : 2 ^ bits ≤ 2 ^ w := Nat.pow_le_pow_right Nat.two_pos (by omega)
  have hpos := Nat.two_pow_pos bits
  rw [hbits, BitVec.toNat_and, low, BitVec.toNat_ofNat, Nat.mod_eq_of_lt (by omega),
    Nat.and_two_pow_sub_one_eq_mod, BitVec.toNat_ushiftRight, Nat.shiftRight_eq_div_pow]

theorem and_not_low_of_lt {f : BitVec w} (hf : f.toNat < 2 ^ k) : f &&& ~~~low w k = 0#w := by
  apply BitVec.eq_of_toNat_eq
  rw [toNat_and_not_low, Nat.div_eq_of_lt hf, Nat.zero_mul]
  rfl

/-- Bits set below the mask are cleared again. -/
theorem or_and_not_low {p f : BitVec w} (hp : p &&& ~~~low w k = p) (hf : f.toNat < 2 ^ k) :
    (p ||| f) &&& ~~~low w k = p := by
  rw [BitVec.and_comm, BitVec.and_or_distrib_left, BitVec.and_comm _ p, hp, BitVec.and_comm _ f,
    and_not_low_of_lt hf, BitVec.or_zero]

theorem and_not_low_and_not_low (x : BitVec w) :
    (x &&& ~~~low w k) &&& ~~~low w k = x &&& ~~~low w k := by
  rw [BitVec.and_assoc, BitVec.and_self]

theorem or_and_self (p f : BitVec w) : (p ||| f) &&& f = f := by
  apply BitVec.eq_of_getLsbD_eq
  intro i _
  simp only [BitVec.getLsbD_and, BitVec.getLsbD_or]
  cases p.getLsbD i <;> simp

/-- The sign of a word spread over all its bits. -/
theorem sshiftRight_sign (x : BitVec w) :
    x.sshiftRight (w - 1) = if x.msb then BitVec.allOnes w else 0#w := by
  apply BitVec.eq_of_getLsbD_eq
  intro i hi
  rw [BitVec.getLsbD_sshiftRight]
  have hin : ¬ w ≤ i := by omega
  have hbit : (if w - 1 + i < w then x.getLsbD (w - 1 + i) else x.msb) = x.msb := by
    by_cases hlt : w - 1 + i < w
    · rw [if_pos hlt, BitVec.msb_eq_getLsbD_last, show w - 1 + i = w - 1 by omega]
    · rw [if_neg hlt]
  rw [hbit]
  cases x.msb <;> simp [hi, hin]

end OsWorkbench.Library.Words
