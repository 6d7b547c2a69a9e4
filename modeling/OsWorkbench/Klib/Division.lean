import OsWorkbench.Klib.DivisionSetup

namespace OsWorkbench.Klib.Int64

open Library Library.BitCount Library.DoubleWord Library.LongDivision

variable {a b : BitVec 64}

theorem Setup.Correct.finish {s : Setup} {n d : Udwords} (h : s.Correct n.all.toNat d.all.toNat) :
    ∃ q rem, (match s with
      | .done q rem => some (q, rem)
      | .loop sr q r =>
        let regs := divLoop d sr.toNat ⟨q, r, 0⟩
        some (regs.q.all <<< 1 ||| widen regs.carry, regs.r.all)) = some (q, rem) ∧
      q = n.all / d.all ∧ rem = n.all % d.all := by
  cases s with
  | done q rem =>
    obtain ⟨hq, hrem⟩ := h
    exact ⟨q, rem, rfl, BitVec.eq_of_toNat_eq (by rw [hq, BitVec.toNat_udiv]),
      BitVec.eq_of_toNat_eq (by rw [hrem, BitVec.toNat_umod])⟩
  | loop sr q r =>
    obtain ⟨hpos, hlt, hq, hr, hsmall, hsafe⟩ := h
    have hstart : Dividing n.all.toNat d.all.toNat sr.toNat 0 ⟨q, r, 0⟩ := by
      refine ⟨Nat.zero_le _, hq, ?_⟩
      have hpartial := Partial.start hsmall
      rw [← hr] at hpartial
      exact hpartial
    obtain ⟨p, hdone⟩ := hstart.run n.all.isLt (by omega) hsafe
    obtain ⟨hquot, hrem⟩ := hdone.done n.all.isLt
    exact ⟨_, _, rfl, BitVec.eq_of_toNat_eq (by rw [hquot, BitVec.toNat_udiv]),
      BitVec.eq_of_toNat_eq (by rw [hrem, BitVec.toNat_umod])⟩

theorem udivmoddi4_of_ne_zero (a : BitVec 64) (hb : b ≠ 0) :
    udivmoddi4 a b = some (a / b, a % b) := by
  have hall : (Udwords.ofAll b).all ≠ 0 := by rwa [Udwords.all_ofAll]
  obtain ⟨s, hs, hcorrect⟩ := setup_correct (n := Udwords.ofAll a) hall
  obtain ⟨q, rem, hfinish, hq, hrem⟩ := hcorrect.finish
  rw [Udwords.all_ofAll, Udwords.all_ofAll] at hq hrem
  rw [udivmoddi4, hs, ← hq, ← hrem, ← hfinish]
  cases s <;> rfl

theorem udivmoddi4_zero (a : BitVec 64) : udivmoddi4 a 0 = none := by
  have hnone : setup (Udwords.ofAll a) (Udwords.ofAll 0) = none := by
    rw [setup]
    by_cases hn : (Udwords.ofAll a).high = 0
    · rw [if_pos hn, if_pos (by rfl)]
      rfl
    · rw [if_neg hn, if_pos (by rfl)]
      rfl
  rw [udivmoddi4, hnone]

/-- `__udivmoddi4` and the two functions over it divide, and no shift in them is by a word or
more. -/
theorem unsigned_division (a b : BitVec 64) :
    udivmoddi4 a b = (if b = 0 then none else some (a / b, a % b)) ∧
      udivdi3 a b = (if b = 0 then none else some (a / b)) ∧
      umoddi3 a b = (if b = 0 then none else some (a % b)) := by
  by_cases hb : b = 0
  · subst hb
    rw [udivdi3, umoddi3, udivmoddi4_zero]
    exact ⟨rfl, rfl, rfl⟩
  · rw [udivdi3, umoddi3, udivmoddi4_of_ne_zero a hb, if_neg hb, if_neg hb, if_neg hb]
    exact ⟨rfl, rfl, rfl⟩

theorem negateBy_allOnes (a : BitVec 64) : negateBy (BitVec.allOnes 64) a = -a := by
  rw [negateBy, BitVec.xor_allOnes, BitVec.neg_eq_not_add, BitVec.sub_eq_add_neg]
  rfl

theorem negateBy_zero (a : BitVec 64) : negateBy 0#64 a = a := by
  rw [negateBy, BitVec.xor_zero, BitVec.sub_zero]

theorem negateBy_sign (a b : BitVec 64) :
    negateBy (a.sshiftRight 63) b = if a.msb then -b else b := by
  rw [Words.sshiftRight_sign a]
  cases a.msb with
  | true => exact negateBy_allOnes b
  | false => exact negateBy_zero b

theorem negateBy_signs (a b c : BitVec 64) :
    negateBy (a.sshiftRight 63 ^^^ b.sshiftRight 63) c = if a.msb = b.msb then c else -c := by
  rw [Words.sshiftRight_sign a, Words.sshiftRight_sign b]
  cases a.msb with
  | true =>
    cases b.msb with
    | true => exact negateBy_zero c
    | false => exact negateBy_allOnes c
  | false =>
    cases b.msb with
    | true => exact negateBy_allOnes c
    | false => exact negateBy_zero c

/-- The magnitude of a divisor that is not zero is not zero. -/
theorem magnitude_ne_zero (hb : b ≠ 0) : (if b.msb then -b else b) ≠ 0 := by
  cases b.msb with
  | true =>
    intro hzero
    exact hb (BitVec.neg_eq_zero_iff.mp hzero)
  | false => exact hb

theorem divdi3_of_ne_zero (a : BitVec 64) (hb : b ≠ 0) : divdi3 a b = some (a.sdiv b) := by
  have hmag := magnitude_ne_zero hb
  simp only [divdi3, negateBy_sign]
  rw [udivdi3, udivmoddi4_of_ne_zero _ hmag, BitVec.sdiv_eq]
  simp only [Option.map_some, negateBy_signs]
  cases a.msb <;> cases b.msb <;> rfl

theorem moddi3_of_ne_zero (a : BitVec 64) (hb : b ≠ 0) : moddi3 a b = some (a.srem b) := by
  have hmag := magnitude_ne_zero hb
  simp only [moddi3, negateBy_sign]
  rw [umoddi3, udivmoddi4_of_ne_zero _ hmag, BitVec.srem_eq]
  simp only [Option.map_some, negateBy_sign]
  cases a.msb <;> cases b.msb <;> rfl

/-- Also where the quotient wraps around, its product is taken off to the remainder. -/
theorem sub_sdiv_mul (a b : BitVec 64) : a - a.sdiv b * b = a.srem b := by
  apply BitVec.eq_of_toInt_eq
  have hrange := BitVec.toInt_bmod_cancel (a.srem b)
  rw [BitVec.toInt_srem] at hrange
  rw [BitVec.toInt_sub, BitVec.toInt_mul, BitVec.toInt_sdiv, BitVec.toInt_srem,
    Int.bmod_mul_bmod, Int.sub_bmod_bmod, Int.mul_comm, ← Int.tmod_def, hrange]

/-- The signed functions truncate towards zero, and the remainder takes the sign of the dividend.
The one quotient out of range wraps around. -/
theorem signed_division (a : BitVec 64) (hb : b ≠ 0) :
    ∃ q r, divdi3 a b = some q ∧ moddi3 a b = some r ∧ divmoddi4 a b = some (q, r) ∧
      r.toInt = a.toInt.tmod b.toInt ∧
      (a ≠ BitVec.intMin 64 ∨ b ≠ -1 → q.toInt = a.toInt.tdiv b.toInt) ∧
      (a = BitVec.intMin 64 → b = -1 → q = a) := by
  refine ⟨a.sdiv b, a.srem b, divdi3_of_ne_zero a hb, moddi3_of_ne_zero a hb, ?_,
    BitVec.toInt_srem a b, BitVec.toInt_sdiv_of_ne_or_ne a b, ?_⟩
  · rw [divmoddi4, divdi3_of_ne_zero a hb, Option.map_some, sub_sdiv_mul]
  · intro ha hneg
    rw [ha, hneg]
    exact BitVec.intMin_sdiv_neg_one

theorem sample_signed : (2 : BitVec 64) ≠ 0 ∧ ∃ q r, divdi3 (-7) 2 = some q ∧
    moddi3 (-7) 2 = some r ∧ divmoddi4 (-7) 2 = some (q, r) ∧
    r.toInt = Int.tmod (BitVec.toInt (-7 : BitVec 64)) (BitVec.toInt (2 : BitVec 64)) ∧
    ((-7 : BitVec 64) ≠ BitVec.intMin 64 ∨ (2 : BitVec 64) ≠ -1 →
      q.toInt = Int.tdiv (BitVec.toInt (-7 : BitVec 64)) (BitVec.toInt (2 : BitVec 64))) ∧
    ((-7 : BitVec 64) = BitVec.intMin 64 → (2 : BitVec 64) = -1 → q = -7) :=
  ⟨by decide, signed_division (-7) (by decide)⟩

end OsWorkbench.Klib.Int64
