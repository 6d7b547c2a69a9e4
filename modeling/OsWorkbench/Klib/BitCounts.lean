import OsWorkbench.Klib.DivisionLoop

namespace OsWorkbench.Klib.Int64

open Library Library.BitCount Library.DoubleWord

variable {a : BitVec 32} {k : ℕ} {xr : BitVec 32 × BitVec 32}

/-- The highest bit of a is in the window of w bits at the bottom of the word, and the zeros
above the window are counted. -/
structure ClzWindow (a : BitVec 32) (w : ℕ) (xr : BitVec 32 × BitVec 32) : Prop where
  ne_zero : xr.1 ≠ 0
  lt : xr.1.toNat < 2 ^ w
  count : a.clz.toNat + xr.1.toNat.log2 + 1 = xr.2.toNat + w

theorem toNat_truth_shift {p : Bool} (hk : k < 32) :
    (truth p <<< k).toNat = if p then 2 ^ k else 0 := by
  have hlt : 2 ^ k < 2 ^ 32 := Nat.pow_lt_pow_right (by decide) hk
  cases p with
  | true =>
    have hone : (1 : BitVec 32).toNat = 1 := rfl
    rw [truth, if_pos rfl, BitVec.toNat_shiftLeft, hone, Nat.shiftLeft_eq, Nat.one_mul,
      Nat.mod_eq_of_lt hlt, if_pos rfl]
  | false =>
    have hzero : (0 : BitVec 32).toNat = 0 := rfl
    rw [truth, if_neg Bool.false_ne_true, BitVec.toNat_shiftLeft, hzero, Nat.zero_shiftLeft,
      Nat.zero_mod, if_neg Bool.false_ne_true]

theorem ClzWindow.step (mask half : BitVec 32) (hS : ClzWindow a (2 ^ k + 2 ^ k) xr)
    (hk : k ≤ 4) (hmask : mask = Words.low 32 (2 ^ k) <<< 2 ^ k) (hhalf : half.toNat = 2 ^ k) :
    ∃ xr', clzHalf mask half k xr = some xr' ∧ ClzWindow a (2 ^ k) xr' := by
  obtain ⟨x, r⟩ := xr
  have hw : 2 ^ k ≤ 2 ^ 4 := Nat.pow_le_pow_right Nat.two_pos hk
  have hne : x.toNat ≠ 0 := toNat_ne_zero hS.ne_zero
  have hcount : a.clz.toNat + x.toNat.log2 + 1 = r.toNat + (2 ^ k + 2 ^ k) := hS.count
  have hclz := toNat_clz_le a
  have hwindow : x &&& mask = 0 ↔ x.toNat < 2 ^ 2 ^ k := by
    rw [hmask]
    exact and_window_eq_zero (by omega) hS.lt
  have htruth := toNat_truth_shift (p := decide (x &&& mask = 0)) (show k < 32 by omega)
  by_cases hclear : x &&& mask = 0
  · rw [decide_eq_true hclear, if_pos rfl] at htruth
    have hlt := hwindow.mp hclear
    have hlog := (Nat.log2_lt hne).mpr hlt
    have hzero : (half - truth true <<< k).toNat = 0 := by
      rw [BitVec.toNat_sub, htruth, hhalf, Nat.sub_add_cancel (by omega), Nat.mod_self]
    refine ⟨(x, r + truth true <<< k), ?_, hS.ne_zero, hlt, ?_⟩
    · simp only [clzHalf, hclear, decide_true]
      rw [shr, hzero, if_pos (by omega), BitVec.ushiftRight_zero, Option.map_some]
    · show a.clz.toNat + x.toNat.log2 + 1 = (r + truth true <<< k).toNat + 2 ^ k
      rw [BitVec.toNat_add, htruth]
      omega
  · rw [decide_eq_false hclear, if_neg Bool.false_ne_true] at htruth
    have hle : 2 ^ 2 ^ k ≤ x.toNat := Nat.le_of_not_lt fun hlt ↦ hclear (hwindow.mpr hlt)
    have hlog := log2_div_two_pow hle
    have hshift : (half - truth false <<< k).toNat = 2 ^ k := by
      rw [BitVec.toNat_sub, htruth, hhalf]
      omega
    have hquot : (x >>> 2 ^ k).toNat = x.toNat / 2 ^ 2 ^ k := by
      rw [BitVec.toNat_ushiftRight, Nat.shiftRight_eq_div_pow]
    refine ⟨(x >>> 2 ^ k, r + truth false <<< k), ?_, ?_, ?_, ?_⟩
    · simp only [clzHalf, hclear, decide_false]
      rw [shr, hshift, if_pos (by omega), Option.map_some]
    · intro hzero
      have hdiv := Nat.div_pos hle (Nat.two_pow_pos _)
      rw [← hquot, show x >>> 2 ^ k = 0 from hzero] at hdiv
      exact Nat.lt_irrefl 0 hdiv
    · show (x >>> 2 ^ k).toNat < 2 ^ 2 ^ k
      rw [hquot]
      apply Nat.div_lt_of_lt_mul
      rw [← Nat.pow_add]
      exact hS.lt
    · show a.clz.toNat + (x >>> 2 ^ k).toNat.log2 + 1 = (r + truth false <<< k).toNat + 2 ^ k
      rw [hquot, BitVec.toNat_add, htruth]
      omega

/-- In a window of two bits the last step counts without a branch. -/
theorem ClzWindow.last (hS : ClzWindow a 2 xr) :
    xr.2 + ((2 - xr.1) &&& -truth (xr.1 &&& 2 = 0)) = a.clz := by
  obtain ⟨x, r⟩ := xr
  have hcount : a.clz.toNat + x.toNat.log2 + 1 = r.toNat + 2 := hS.count
  have hne : x.toNat ≠ 0 := toNat_ne_zero hS.ne_zero
  have hlt : x.toNat < 4 := hS.lt
  have hclz := toNat_clz_le a
  have hcases : x = 1 ∨ x = 2 ∨ x = 3 := by
    have hnat : x.toNat = 1 ∨ x.toNat = 2 ∨ x.toNat = 3 := by omega
    exact hnat.imp BitVec.eq_of_toNat_eq (Or.imp BitVec.eq_of_toNat_eq BitVec.eq_of_toNat_eq)
  show r + ((2 - x) &&& -truth (x &&& 2 = 0)) = a.clz
  apply BitVec.eq_of_toNat_eq
  obtain rfl | rfl | rfl := hcases
  · have hlog : (1 : BitVec 32).toNat.log2 = 0 := by decide
    have hval : (((2 : BitVec 32) - 1) &&& -truth ((1 : BitVec 32) &&& 2 = 0)).toNat = 1 := by
      decide
    rw [BitVec.toNat_add, hval]
    omega
  · have hlog : (2 : BitVec 32).toNat.log2 = 1 := by decide
    have hval : (((2 : BitVec 32) - 2) &&& -truth ((2 : BitVec 32) &&& 2 = 0)).toNat = 0 := by
      decide
    rw [BitVec.toNat_add, hval]
    omega
  · have hlog : (3 : BitVec 32).toNat.log2 = 1 := by decide
    have hval : (((2 : BitVec 32) - 3) &&& -truth ((3 : BitVec 32) &&& 2 = 0)).toNat = 0 := by
      decide
    rw [BitVec.toNat_add, hval]
    omega

theorem clzsi2_eq (a : BitVec 32) : clzsi2 a = some a.clz := by
  by_cases ha : a = 0
  · have hzero : (0 : BitVec 32).clz = 32 := clz_zero
    rw [ha, hzero]
    decide
  · have hlog := clz_add_log2 ha
    have hstart : ClzWindow a (2 ^ 4 + 2 ^ 4) (a, 0) := ⟨ha, a.isLt, by
      show a.clz.toNat + a.toNat.log2 + 1 = (0 : BitVec 32).toNat + 32
      rw [hlog]
      rfl⟩
    obtain ⟨xr, h16, hS⟩ := hstart.step 0xFFFF0000 16 (by decide) (by decide) (by decide)
    obtain ⟨xr, h8, hS⟩ := hS.step (k := 3) 0xFF00 8 (by decide) (by decide) (by decide)
    obtain ⟨xr, h4, hS⟩ := hS.step (k := 2) 0xF0 4 (by decide) (by decide) (by decide)
    obtain ⟨xr, h2, hS⟩ := hS.step (k := 1) 0xC 2 (by decide) (by decide) (by decide)
    rw [clzsi2, h16]
    simp only [Option.bind_eq_bind, Option.bind_some]
    rw [h8, Option.bind_some, h4, Option.bind_some, h2, Option.bind_some, hS.last]

/-- The lowest bit of a is in the window of w bits at the bottom of the word, and the zeros
shifted out are counted. -/
structure CtzWindow (a : BitVec 32) (w : ℕ) (xr : BitVec 32 × BitVec 32) : Prop where
  ne_zero : xr.1 ≠ 0
  lt : xr.1.ctz.toNat < w
  count : a.ctz.toNat = xr.2.toNat + xr.1.ctz.toNat

theorem CtzWindow.step (mask : BitVec 32) (hS : CtzWindow a (2 ^ k + 2 ^ k) xr) (hk : k ≤ 4)
    (hmask : mask = Words.low 32 (2 ^ k)) :
    ∃ xr', ctzHalf mask k xr = some xr' ∧ CtzWindow a (2 ^ k) xr' := by
  obtain ⟨x, r⟩ := xr
  have hw : 2 ^ k ≤ 2 ^ 4 := Nat.pow_le_pow_right Nat.two_pos hk
  have hx : x ≠ 0 := hS.ne_zero
  have hlt : x.ctz.toNat < 2 ^ k + 2 ^ k := hS.lt
  have hcount : a.ctz.toNat = r.toNat + x.ctz.toNat := hS.count
  have hwindow : x &&& mask = 0 ↔ 2 ^ k ≤ x.ctz.toNat := by
    rw [hmask]
    exact and_low_eq_zero hx
  have htruth := toNat_truth_shift (p := decide (x &&& mask = 0)) (show k < 32 by omega)
  by_cases hclear : x &&& mask = 0
  · rw [decide_eq_true hclear, if_pos rfl] at htruth
    obtain ⟨hne, hctz⟩ := ctz_ushiftRight hx (hwindow.mp hclear)
    have hle := toNat_ctz_le a
    refine ⟨(x >>> 2 ^ k, r + truth true <<< k), ?_, hne, ?_, ?_⟩
    · simp only [ctzHalf, hclear, decide_true]
      rw [shr, htruth, if_pos (by omega), Option.map_some]
    · show (x >>> 2 ^ k).ctz.toNat < 2 ^ k
      omega
    · show a.ctz.toNat = (r + truth true <<< k).toNat + (x >>> 2 ^ k).ctz.toNat
      have hmin := hwindow.mp hclear
      rw [hctz, BitVec.toNat_add, htruth]
      omega
  · rw [decide_eq_false hclear, if_neg Bool.false_ne_true] at htruth
    refine ⟨(x, r + truth false <<< k), ?_, hx, ?_, ?_⟩
    · simp only [ctzHalf, hclear, decide_false]
      rw [shr, htruth, if_pos (by omega), BitVec.ushiftRight_zero, Option.map_some]
    · exact Nat.lt_of_not_le fun hle ↦ hclear (hwindow.mpr hle)
    · show a.ctz.toNat = (r + truth false <<< k).toNat + x.ctz.toNat
      have hr := r.isLt
      rw [BitVec.toNat_add, htruth]
      omega

theorem CtzWindow.last (hS : CtzWindow a 2 xr) :
    xr.2 + ((2 - (xr.1 &&& 3) >>> 1) &&& -truth (xr.1 &&& 3 &&& 1 = 0)) = a.ctz := by
  obtain ⟨x, r⟩ := xr
  have hx : x ≠ 0 := hS.ne_zero
  have hcount : a.ctz.toNat = r.toNat + x.ctz.toNat := hS.count
  have hlt : x.ctz.toNat < 2 := hS.lt
  have hle := toNat_ctz_le a
  have hlow : (x &&& 3).toNat = x.toNat % 2 ^ 2 := by
    rw [BitVec.toNat_and]
    exact Nat.and_two_pow_sub_one_eq_mod x.toNat 2
  have hfirst : x.toNat.testBit x.ctz.toNat = true := BitVec.getLsbD_true_ctz_of_ne_zero hx
  show r + ((2 - (x &&& 3) >>> 1) &&& -truth (x &&& 3 &&& 1 = 0)) = a.ctz
  by_cases hzero : x.ctz.toNat = 0
  · rw [hzero, Nat.testBit_zero, decide_eq_true_eq] at hfirst
    have hcases : x &&& 3 = 1 ∨ x &&& 3 = 3 := by
      have hnat : (x &&& 3).toNat = 1 ∨ (x &&& 3).toNat = 3 := by omega
      exact hnat.imp BitVec.eq_of_toNat_eq BitVec.eq_of_toNat_eq
    have hval : ((2 - (x &&& 3) >>> 1) &&& -truth (x &&& 3 &&& 1 = 0)) = 0#32 := by
      cases hcases with
      | inl hone =>
        rw [hone]
        decide
      | inr hthree =>
        rw [hthree]
        decide
    rw [hval, BitVec.add_zero]
    exact BitVec.eq_of_toNat_eq (by omega)
  · have hone : x.ctz.toNat = 1 := by omega
    have hclear : x.toNat.testBit 0 = false :=
      BitVec.getLsbD_false_of_lt_ctz (Nat.pos_of_ne_zero hzero)
    rw [hone, Nat.testBit_succ, Nat.testBit_zero, decide_eq_true_eq] at hfirst
    rw [Nat.testBit_zero, decide_eq_false_iff_not] at hclear
    have htwo : x &&& 3 = 2 := BitVec.eq_of_toNat_eq (by
      have hnat : (x &&& 3).toNat = 2 := by omega
      exact hnat)
    have hval : (2 - (2 : BitVec 32) >>> 1 &&& -truth ((2 : BitVec 32) &&& 1 = 0)).toNat = 1 := by
      decide
    apply BitVec.eq_of_toNat_eq
    rw [htwo, BitVec.toNat_add, hval]
    omega

theorem ctzsi2_eq (a : BitVec 32) : ctzsi2 a = some a.ctz := by
  by_cases ha : a = 0
  · have hzero : (0 : BitVec 32).ctz = 32 := ctz_zero
    rw [ha, hzero]
    decide
  · have hstart : CtzWindow a (2 ^ 4 + 2 ^ 4) (a, 0) := by
      refine ⟨ha, toNat_ctz_lt ha, ?_⟩
      show a.ctz.toNat = (0 : BitVec 32).toNat + a.ctz.toNat
      exact (Nat.zero_add _).symm
    obtain ⟨xr, h16, hS⟩ := hstart.step 0x0000FFFF (by decide) (by decide)
    obtain ⟨xr, h8, hS⟩ := hS.step (k := 3) 0x00FF (by decide) (by decide)
    obtain ⟨xr, h4, hS⟩ := hS.step (k := 2) 0x0F (by decide) (by decide)
    obtain ⟨xr, h2, hS⟩ := hS.step (k := 1) 0x3 (by decide) (by decide)
    rw [ctzsi2, h16]
    simp only [Option.bind_eq_bind, Option.bind_some]
    rw [h8, Option.bind_some, h4, Option.bind_some, h2, Option.bind_some, hS.last]

theorem truth_mask (p : Prop) [Decidable p] :
    -truth (decide p) = if p then BitVec.allOnes 32 else 0#32 := by
  by_cases hp : p
  · rw [decide_eq_true hp, if_pos hp]
    rfl
  · rw [decide_eq_false hp, if_neg hp]
    rfl

theorem clzdi2_eq (a : BitVec 64) : clzdi2 a = some (BitVec.ofNat 32 a.clz.toNat) := by
  have hall := Udwords.all_ofAll a
  obtain ⟨x, hx⟩ : ∃ x, x = Udwords.ofAll a := ⟨_, rfl⟩
  rw [← hx] at hall
  have happend : a.clz.toNat =
      if x.high = 0 then 32 + x.low.clz.toNat else x.high.clz.toNat := by
    rw [← hall]
    exact toNat_clz_append x.high x.low
  rw [clzdi2, ← hx]
  simp only [truth_mask]
  by_cases hhigh : x.high = 0
  · have hzero : x.high = 0#32 := hhigh
    rw [if_pos hhigh] at happend
    rw [if_pos hhigh, hzero, BitVec.and_allOnes, BitVec.zero_and, BitVec.zero_or, clzsi2_eq,
      Option.map_some, happend, BitVec.ofNat_add, BitVec.ofNat_toNat, BitVec.setWidth_eq,
      BitVec.add_comm]
    rfl
  · rw [if_neg hhigh] at happend
    rw [if_neg hhigh, BitVec.not_zero, BitVec.and_allOnes, BitVec.and_zero, BitVec.or_zero,
      clzsi2_eq, Option.map_some, happend, BitVec.ofNat_toNat, BitVec.setWidth_eq,
      BitVec.zero_and, BitVec.add_zero]

theorem ctzdi2_eq (a : BitVec 64) : ctzdi2 a = some (BitVec.ofNat 32 a.ctz.toNat) := by
  have hall := Udwords.all_ofAll a
  obtain ⟨x, hx⟩ : ∃ x, x = Udwords.ofAll a := ⟨_, rfl⟩
  rw [← hx] at hall
  have happend : a.ctz.toNat =
      if x.low = 0 then 32 + x.high.ctz.toNat else x.low.ctz.toNat := by
    rw [← hall]
    exact toNat_ctz_append x.high x.low
  rw [ctzdi2, ← hx]
  simp only [truth_mask]
  by_cases hlow : x.low = 0
  · have hzero : x.low = 0#32 := hlow
    rw [if_pos hlow] at happend
    rw [if_pos hlow, hzero, BitVec.and_allOnes, BitVec.zero_and, BitVec.or_zero, ctzsi2_eq,
      Option.map_some, happend, BitVec.ofNat_add, BitVec.ofNat_toNat, BitVec.setWidth_eq,
      BitVec.add_comm]
    rfl
  · rw [if_neg hlow] at happend
    rw [if_neg hlow, BitVec.not_zero, BitVec.and_allOnes, BitVec.and_zero, BitVec.zero_or,
      ctzsi2_eq, Option.map_some, happend, BitVec.ofNat_toNat, BitVec.setWidth_eq,
      BitVec.zero_and, BitVec.add_zero]

/-- The searches without a branch count the zeros of every word, and `__builtin_clz` and
`__builtin_ctz` may be compiled to them. -/
theorem bit_counts (a : BitVec 32) (b : BitVec 64) :
    clzsi2 a = some a.clz ∧ ctzsi2 a = some a.ctz ∧
      (a ≠ 0 → clzsi2 a = builtinClz a ∧ ctzsi2 a = builtinCtz a) ∧
      clzdi2 b = some (BitVec.ofNat 32 b.clz.toNat) ∧
      ctzdi2 b = some (BitVec.ofNat 32 b.ctz.toNat) := by
  refine ⟨clzsi2_eq a, ctzsi2_eq a, ?_, clzdi2_eq b, ctzdi2_eq b⟩
  intro ha
  rw [clzsi2_eq, ctzsi2_eq, builtinClz, builtinCtz, if_neg ha, if_neg ha]
  exact ⟨rfl, rfl⟩

end OsWorkbench.Klib.Int64
