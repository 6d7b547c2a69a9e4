import OsWorkbench.Klib.Int64
import OsWorkbench.Library.LongDivision
import OsWorkbench.Library.BitCount

namespace OsWorkbench.Klib.Int64

open Library Library.BitCount Library.DoubleWord Library.LongDivision

variable {n k p : ℕ} {d : Udwords} {regs : Registers}

theorem Udwords.toNat_all (x : Udwords) : x.all.toNat = x.high.toNat * 2 ^ 32 + x.low.toNat :=
  toNat_append x.high x.low

theorem Udwords.all_ofAll (x : BitVec 64) : (Udwords.ofAll x).all = x := by
  have hjoin : x.extractLsb' 32 32 ++ x.extractLsb' 0 32 = x.extractLsb' 0 64 :=
    BitVec.extractLsb'_append_extractLsb'_eq_extractLsb' rfl
  exact hjoin.trans BitVec.extractLsb'_eq_self

theorem toNat_widen (x : BitVec 32) : (widen x).toNat = x.toNat := append_zero_left x

/-- The double word moves one place to the left and takes a word in below. -/
theorem append_shift_one (high low x : BitVec 32) :
    (high <<< 1 ||| low >>> 31) ++ (low <<< 1 ||| x) = (high ++ low) <<< 1 ||| widen x := by
  have hor := @BitVec.or_append 32 32 (high <<< 1 ||| low >>> 31) 0#32 (low <<< 1) x
  rw [BitVec.or_zero] at hor
  rw [append_shiftLeft high low (show 1 ≤ 32 by omega), widen, ← hor]

/-- A bit shifted in below. -/
theorem toNat_shift_one_or (x : BitVec 64) {b : BitVec 32} (hb : b.toNat ≤ 1) :
    (x <<< 1 ||| widen b).toNat = 2 * x.toNat % 2 ^ 64 + b.toNat := by
  have hshift : (x <<< 1).toNat = 2 * (x.toNat % 2 ^ 63) := by
    rw [BitVec.toNat_shiftLeft, Nat.shiftLeft_eq]
    omega
  have hor := Nat.two_pow_add_eq_or_of_lt (i := 1) (b := b.toNat) (by omega) (x.toNat % 2 ^ 63)
  rw [Nat.pow_one] at hor
  rw [BitVec.toNat_or, hshift, toNat_widen, ← hor]
  omega

/-- The highest bit of a double word. -/
theorem toNat_top (x : Udwords) : (x.high >>> 31).toNat = x.all.toNat / 2 ^ 63 := by
  have hlow := x.low.isLt
  rw [BitVec.toNat_ushiftRight, Nat.shiftRight_eq_div_pow, x.toNat_all]
  omega

/-- The sign of the difference tells whether the remainder reaches the divisor, when neither
exceeds the other by half the range. -/
theorem sign_sub {x r : BitVec 64} (hx : x.toNat ≤ r.toNat + 2 ^ 63)
    (hr : r.toNat < x.toNat + 2 ^ 63) :
    (x - r - 1).sshiftRight 63 = if x.toNat ≤ r.toNat then BitVec.allOnes 64 else 0 := by
  have hxlt := x.isLt
  have hrlt := r.isLt
  have hmsb : (x - r - 1).msb = decide (x.toNat ≤ r.toNat) := by
    rw [BitVec.msb_eq_decide, decide_eq_decide, BitVec.toNat_sub, BitVec.toNat_sub]
    have hone : (1 : BitVec 64).toNat = 1 := rfl
    omega
  rw [Words.sshiftRight_sign (x - r - 1), hmsb]
  by_cases hle : x.toNat ≤ r.toNat
  · rw [if_pos hle, if_pos (decide_eq_true hle)]
  · rw [if_neg hle, if_neg (by simp [hle])]
    rfl

/-- One step in numbers: a bit of `q` enters `r`, the carry enters `q`, and the divisor is
taken from `r` where it fits. -/
theorem divStep_spec (hcarry : regs.carry.toNat ≤ 1) {r : ℕ}
    (hbit : r = 2 * regs.r.all.toNat + regs.q.all.toNat / 2 ^ 63) (hrlt : r < 2 ^ 64)
    (hd : d.all.toNat ≤ r + 2 ^ 63) (hr : r < d.all.toNat + 2 ^ 63) :
    (divStep d regs).q.all.toNat = 2 * regs.q.all.toNat % 2 ^ 64 + regs.carry.toNat ∧
      (divStep d regs).r.all.toNat = (if d.all.toNat ≤ r then r - d.all.toNat else r) ∧
      (divStep d regs).carry.toNat = (if d.all.toNat ≤ r then 1 else 0) := by
  have hqlt := regs.q.all.isLt
  have hq : (divStep d regs).q.all = regs.q.all <<< 1 ||| widen regs.carry :=
    append_shift_one regs.q.high regs.q.low regs.carry
  have hrsum : ((regs.r.high <<< 1 ||| regs.r.low >>> 31) ++
      (regs.r.low <<< 1 ||| regs.q.high >>> 31)).toNat = r := by
    have htop := toNat_top regs.q
    rw [append_shift_one, toNat_shift_one_or _ (by omega), htop]
    have hall : (regs.r.high ++ regs.r.low).toNat = regs.r.all.toNat := rfl
    omega
  obtain ⟨rWord, hrWord⟩ : ∃ x : BitVec 64, x = (regs.r.high <<< 1 ||| regs.r.low >>> 31) ++
      (regs.r.low <<< 1 ||| regs.q.high >>> 31) := ⟨_, rfl⟩
  rw [← hrWord] at hrsum
  have hsign := sign_sub (x := d.all) (r := rWord) (by omega) (by omega)
  have hrstep : (divStep d regs).r.all =
      rWord - (d.all &&& (d.all - rWord - 1).sshiftRight 63) := by
    rw [hrWord]
    exact Udwords.all_ofAll _
  have hcstep : (divStep d regs).carry =
      ((d.all - rWord - 1).sshiftRight 63 &&& 1).extractLsb' 0 32 := by
    rw [hrWord]
    rfl
  rw [hq, toNat_shift_one_or _ hcarry, hrstep, hcstep, hsign, hrsum]
  refine ⟨rfl, ?_⟩
  by_cases hle : d.all.toNat ≤ r
  · simp only [hle, if_true]
    rw [BitVec.and_allOnes, BitVec.toNat_sub_of_le (by rw [BitVec.le_def, hrsum]; exact hle), hrsum]
    exact ⟨rfl, by decide⟩
  · simp only [hle, if_false]
    constructor
    · rw [show (0 : BitVec 64) = 0#64 from rfl, BitVec.and_zero, BitVec.sub_zero, hrsum]
    · decide

/-- The registers with k bits still to come: `q` holds these bits above the p found so far. -/
structure Dividing (n d k p : ℕ) (regs : Registers) : Prop where
  carry_le : regs.carry.toNat ≤ 1
  q_eq : regs.q.all.toNat = n % 2 ^ k * 2 ^ (64 - k) + p
  rest : Partial n d k (2 * p + regs.carry.toNat) regs.r.all.toNat

/-- The sign test is right for divisors up to half the range, and for greater ones when the
dividend is as great and only its last bit is to come. -/
def SignSafe (n d k : ℕ) : Prop := d ≤ 2 ^ 63 ∨ k ≤ 1 ∧ 2 ^ 63 ≤ n

theorem SignSafe.pred (h : SignSafe n p (k + 1)) : SignSafe n p k := by
  cases h with
  | inl hle => exact Or.inl hle
  | inr hlast => exact Or.inr ⟨by omega, hlast.2⟩

theorem Dividing.step (h : Dividing n d.all.toNat (k + 1) p regs) (hn : n < 2 ^ 64)
    (hk : k + 1 ≤ 64) (hsafe : SignSafe n d.all.toNat (k + 1)) :
    Dividing n d.all.toNat k (2 * p + regs.carry.toNat) (divStep d regs) := by
  obtain ⟨j, hj⟩ : ∃ j, k + j = 63 := ⟨63 - k, by omega⟩
  have hq := h.q_eq
  rw [show 64 - (k + 1) = j by omega] at hq
  have htlt := h.rest.quotient_lt hn hk
  rw [show 64 - (k + 1) = j by omega] at htlt
  obtain ⟨hsplit, hlow⟩ := register_split n k (show p < 2 ^ j by omega)
  rw [← hq, hj] at hsplit
  rw [hj] at hlow
  have hbit : regs.q.all.toNat / 2 ^ 63 = n / 2 ^ k % 2 := by omega
  -- The consumed bits, and with them the remainder, are below half the range.
  have hconsume := consume n k
  have hle : n / 2 ^ k ≤ n := Nat.div_le_self _ _
  have hrest := h.rest.split
  have hsmall := h.rest.small
  have hdlt := d.all.isLt
  have hrange : d.all.toNat ≤ 2 * regs.r.all.toNat + n / 2 ^ k % 2 + 2 ^ 63 ∧
      2 * regs.r.all.toNat + n / 2 ^ k % 2 < d.all.toNat + 2 ^ 63 := by
    cases hsafe with
    | inl hhalf => omega
    | inr hlast =>
      obtain ⟨hkle, hnle⟩ := hlast
      obtain rfl : k = 0 := by omega
      rw [Nat.pow_zero, Nat.div_one] at hconsume ⊢
      -- No bit of the quotient is set yet: the divisor exceeds what is consumed.
      have hzero : 2 * p + regs.carry.toNat = 0 ∨ d.all.toNat ≤ 2 ^ 63 := by
        by_cases ht : 2 * p + regs.carry.toNat = 0
        · exact Or.inl ht
        · have hge := Nat.le_mul_of_pos_left d.all.toNat (Nat.pos_of_ne_zero ht)
          omega
      cases hzero with
      | inl ht =>
        rw [ht, Nat.zero_mul] at hrest
        omega
      | inr hhalf => omega
  obtain ⟨hq', hr', hc'⟩ := divStep_spec h.carry_le (r := 2 * regs.r.all.toNat + n / 2 ^ k % 2)
    (by rw [hbit]) (by omega) hrange.1 hrange.2
  have hshift : n % 2 ^ k * 2 ^ (64 - k) = 2 * (n % 2 ^ k * 2 ^ j) := by
    rw [show 64 - k = j + 1 by omega, Nat.pow_succ, Nat.mul_comm 2, Nat.mul_assoc]
  have hqEq : (divStep d regs).q.all.toNat =
      n % 2 ^ k * 2 ^ (64 - k) + (2 * p + regs.carry.toNat) := by
    rw [hq', hshift]
    omega
  by_cases hfit : d.all.toNat ≤ 2 * regs.r.all.toNat + n / 2 ^ k % 2
  · rw [if_pos hfit] at hr' hc'
    refine ⟨by omega, hqEq, ?_⟩
    rw [hr', hc']
    exact h.rest.subtract hfit
  · rw [if_neg hfit] at hr' hc'
    refine ⟨by omega, hqEq, ?_⟩
    rw [hr', hc', Nat.add_zero]
    exact h.rest.keep (by omega)

theorem Dividing.run (h : Dividing n d.all.toNat k p regs) (hn : n < 2 ^ 64) (hk : k ≤ 64)
    (hsafe : SignSafe n d.all.toNat k) :
    ∃ p', Dividing n d.all.toNat 0 p' (divLoop d k regs) := by
  induction k generalizing p regs with
  | zero => exact ⟨p, h⟩
  | succ k ih => exact ih (h.step hn hk hsafe) (by omega) hsafe.pred

/-- The carry of the last step completes the quotient. -/
theorem Dividing.done (h : Dividing n d.all.toNat 0 p regs) (hn : n < 2 ^ 64) :
    (regs.q.all <<< 1 ||| widen regs.carry).toNat = n / d.all.toNat ∧
      regs.r.all.toNat = n % d.all.toNat := by
  obtain ⟨ht, hr⟩ := h.rest.done
  have hq := h.q_eq
  rw [Nat.pow_zero, Nat.mod_one, Nat.zero_mul, Nat.zero_add] at hq
  have hle := Nat.div_le_self n d.all.toNat
  refine ⟨?_, hr⟩
  rw [toNat_shift_one_or _ h.carry_le]
  omega

end OsWorkbench.Klib.Int64
