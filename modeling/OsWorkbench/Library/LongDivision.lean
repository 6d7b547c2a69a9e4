import Mathlib.Algebra.Group.Nat.Defs

namespace OsWorkbench.Library.LongDivision

variable {n d k t r : ℕ}

/-- The division of n by d with the lowest k bits of n still to come: t is the quotient of the
bits consumed and r is their remainder. -/
structure Partial (n d k t r : ℕ) : Prop where
  split : n / 2 ^ k = t * d + r
  small : r < d

theorem Partial.start (hsmall : n / 2 ^ k < d) : Partial n d k 0 (n / 2 ^ k) where
  split := by rw [Nat.zero_mul, Nat.zero_add]
  small := hsmall

theorem consume (n k : ℕ) : n / 2 ^ k = 2 * (n / 2 ^ (k + 1)) + n / 2 ^ k % 2 := by
  rw [Nat.pow_succ, ← Nat.div_div_eq_div_mul]
  omega

/-- The next bit enters the remainder, which exceeds the divisor. -/
theorem Partial.subtract (h : Partial n d (k + 1) t r) (hle : d ≤ 2 * r + n / 2 ^ k % 2) :
    Partial n d k (2 * t + 1) (2 * r + n / 2 ^ k % 2 - d) where
  split := by
    have hbits := consume n k
    rw [h.split] at hbits
    have hmul : (2 * t + 1) * d = 2 * (t * d) + d := by
      rw [Nat.add_mul, Nat.mul_assoc, Nat.one_mul]
    omega
  small := by
    have hr := h.small
    omega

/-- The next bit enters the remainder, which stays below the divisor. -/
theorem Partial.keep (h : Partial n d (k + 1) t r) (hlt : 2 * r + n / 2 ^ k % 2 < d) :
    Partial n d k (2 * t) (2 * r + n / 2 ^ k % 2) where
  split := by
    have hbits := consume n k
    rw [h.split] at hbits
    have hmul : 2 * t * d = 2 * (t * d) := Nat.mul_assoc _ _ _
    omega
  small := hlt

theorem Partial.quotient_lt {w : ℕ} (h : Partial n d k t r) (hn : n < 2 ^ w) (hk : k ≤ w) :
    t < 2 ^ (w - k) := by
  have hdpos : 0 < d := Nat.lt_of_le_of_lt (Nat.zero_le _) h.small
  have hle : t ≤ t * d := Nat.le_mul_of_pos_right _ hdpos
  have hlt : n / 2 ^ k < 2 ^ (w - k) := by
    rw [Nat.div_lt_iff_lt_mul (Nat.two_pow_pos k), ← Nat.pow_add, Nat.sub_add_cancel hk]
    exact hn
  have hsplit := h.split
  omega

/-- With no bit to come the division is done. -/
theorem Partial.done (h : Partial n d 0 t r) : t = n / d ∧ r = n % d := by
  have hsplit := h.split
  rw [Nat.pow_zero, Nat.div_one] at hsplit
  have hdpos : 0 < d := Nat.lt_of_le_of_lt (Nat.zero_le _) h.small
  constructor
  · rw [hsplit, Nat.mul_comm, Nat.mul_add_div hdpos, Nat.div_eq_of_lt h.small, Nat.add_zero]
  · rw [hsplit, Nat.mul_comm, Nat.mul_add_mod, Nat.mod_eq_of_lt h.small]

/-- A register of k + j + 1 bits with the lowest k + 1 bits of n above a number p: its highest
bit is the next bit of n. -/
theorem register_split {j p : ℕ} (n k : ℕ) (hp : p < 2 ^ j) :
    n % 2 ^ (k + 1) * 2 ^ j + p = n / 2 ^ k % 2 * 2 ^ (k + j) + (n % 2 ^ k * 2 ^ j + p) ∧
      n % 2 ^ k * 2 ^ j + p < 2 ^ (k + j) := by
  constructor
  · have hmul : 2 ^ k * (n / 2 ^ k % 2) * 2 ^ j = n / 2 ^ k % 2 * 2 ^ (k + j) := by
      rw [Nat.pow_add, Nat.mul_comm (2 ^ k), Nat.mul_assoc]
    rw [Nat.mod_pow_succ, Nat.add_mul, hmul]
    omega
  · have hlt : n % 2 ^ k + 1 ≤ 2 ^ k := Nat.mod_lt _ (Nat.two_pow_pos k)
    calc n % 2 ^ k * 2 ^ j + p < n % 2 ^ k * 2 ^ j + 2 ^ j := Nat.add_lt_add_left hp _
      _ = (n % 2 ^ k + 1) * 2 ^ j := by rw [Nat.add_mul, Nat.one_mul]
      _ ≤ 2 ^ k * 2 ^ j := Nat.mul_le_mul_right _ hlt
      _ = 2 ^ (k + j) := (Nat.pow_add 2 k j).symm

end OsWorkbench.Library.LongDivision
