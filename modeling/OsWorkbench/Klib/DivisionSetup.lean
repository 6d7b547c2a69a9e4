import OsWorkbench.Klib.DivisionLoop

namespace OsWorkbench.Klib.Int64

open Library Library.BitCount Library.DoubleWord Library.LongDivision

variable {n d : Udwords} {sr : BitVec 32}

/-- A result is the division's, and registers hold the dividend shifted by as many places as the
loop has steps. -/
def Setup.Correct (n d : ℕ) : Setup → Prop
  | .done q rem => q.toNat = n / d ∧ rem.toNat = n % d
  | .loop sr q r => 1 ≤ sr.toNat ∧ sr.toNat ≤ 63 ∧
      q.all.toNat = n % 2 ^ sr.toNat * 2 ^ (64 - sr.toNat) ∧ r.all.toNat = n / 2 ^ sr.toNat ∧
      n / 2 ^ sr.toNat < d ∧ SignSafe n d sr.toNat

theorem shl_of_lt {x k : BitVec 32} (hk : k.toNat < 32) : shl x k = some (x <<< k.toNat) :=
  if_pos hk

theorem shr_of_lt {x k : BitVec 32} (hk : k.toNat < 32) : shr x k = some (x >>> k.toNat) :=
  if_pos hk

/-- The two halves of the registers hold the shifted dividend. -/
def Loaded (n : Udwords) (sr : BitVec 32) : Setup → Prop
  | .done _ _ => False
  | .loop sr' q r => sr' = sr ∧ q.all = n.all <<< (64 - sr.toNat) ∧ r.all = n.all >>> sr.toNat

theorem shiftBelow_loaded (n : Udwords) (sr : BitVec 32) (hpos : 1 ≤ sr.toNat) (hlt : sr.toNat ≤ 31) :
    ∃ s, shiftBelow n sr = some s ∧ Loaded n sr s := by
  have hsub : (32 - sr).toNat = 32 - sr.toNat :=
    BitVec.toNat_sub_of_le (by rw [BitVec.le_def]; exact Nat.le_trans hlt (by decide))
  refine ⟨.loop sr ⟨n.low <<< (32 - sr.toNat), 0⟩
    ⟨n.high >>> sr.toNat, n.high <<< (32 - sr.toNat) ||| n.low >>> sr.toNat⟩, ?_, rfl, ?_, ?_⟩
  · rw [shiftBelow, shl_of_lt (by omega), shr_of_lt (by omega), shl_of_lt (by omega),
      shr_of_lt (by omega), hsub]
    rfl
  · have hshift := append_shiftLeft_of_le n.high n.low (show 32 ≤ 64 - sr.toNat by omega)
    rw [show 64 - sr.toNat - 32 = 32 - sr.toNat by omega] at hshift
    exact hshift.symm
  · exact (append_ushiftRight n.high n.low (show sr.toNat ≤ 32 by omega)).symm

theorem shiftWord_loaded (hsr : sr.toNat = 32) : Loaded n sr (shiftWord n sr) := by
  have hleft := append_shiftLeft_of_le n.high n.low (Nat.le_refl 32)
  have hright := append_ushiftRight_of_le n.high n.low (Nat.le_refl 32)
  rw [Nat.sub_self, BitVec.shiftLeft_zero] at hleft
  rw [Nat.sub_self, BitVec.ushiftRight_zero] at hright
  refine ⟨rfl, ?_, ?_⟩
  · rw [hsr]
    exact hleft.symm
  · rw [hsr]
    exact hright.symm

theorem shiftAbove_loaded (n : Udwords) (sr : BitVec 32) (hpos : 33 ≤ sr.toNat) (hlt : sr.toNat ≤ 63) :
    ∃ s, shiftAbove n sr = some s ∧ Loaded n sr s := by
  have hup : (64 - sr).toNat = 64 - sr.toNat :=
    BitVec.toNat_sub_of_le (by rw [BitVec.le_def]; exact Nat.le_trans hlt (by decide))
  have hdown : (sr - 32).toNat = sr.toNat - 32 :=
    BitVec.toNat_sub_of_le (by rw [BitVec.le_def]; exact Nat.le_trans (by decide) hpos)
  refine ⟨.loop sr ⟨n.high <<< (64 - sr.toNat) ||| n.low >>> (sr.toNat - 32),
    n.low <<< (64 - sr.toNat)⟩ ⟨0, n.high >>> (sr.toNat - 32)⟩, ?_, rfl, ?_, ?_⟩
  · rw [shiftAbove, shl_of_lt (by omega), shl_of_lt (by omega), shr_of_lt (by omega),
      shr_of_lt (by omega), hup, hdown]
    rfl
  · have hshift := append_shiftLeft n.high n.low (show 64 - sr.toNat ≤ 32 by omega)
    rw [show 32 - (64 - sr.toNat) = sr.toNat - 32 by omega] at hshift
    exact hshift.symm
  · exact (append_ushiftRight_of_le n.high n.low (show 32 ≤ sr.toNat by omega)).symm

theorem Loaded.correct {s : Setup} (h : Loaded n sr s) (hpos : 1 ≤ sr.toNat)
    (hlt : sr.toNat ≤ 63) (hsmall : n.all.toNat / 2 ^ sr.toNat < d.all.toNat)
    (hsafe : SignSafe n.all.toNat d.all.toNat sr.toNat) :
    s.Correct n.all.toNat d.all.toNat := by
  cases s with
  | done => exact h.elim
  | loop sr' q r =>
    obtain ⟨rfl, hq, hr⟩ := h
    refine ⟨hpos, hlt, ?_, ?_, hsmall, hsafe⟩
    · rw [hq, BitVec.toNat_shiftLeft, Nat.shiftLeft_eq]
      have hpow : 2 ^ 64 = 2 ^ sr'.toNat * 2 ^ (64 - sr'.toNat) := by
        rw [← Nat.pow_add, Nat.add_sub_cancel' (by omega)]
      calc n.all.toNat * 2 ^ (64 - sr'.toNat) % 2 ^ 64
          = n.all.toNat * 2 ^ (64 - sr'.toNat) % (2 ^ sr'.toNat * 2 ^ (64 - sr'.toNat)) := by
            rw [← hpow]
        _ = n.all.toNat % 2 ^ sr'.toNat * 2 ^ (64 - sr'.toNat) := Nat.mul_mod_mul_right _ _ _
    · rw [hr, BitVec.toNat_ushiftRight, Nat.shiftRight_eq_div_pow]

theorem builtinClz_spec {x : BitVec 32} (hx : x ≠ 0) : ∃ z, builtinClz x = some z ∧
    z.toNat ≤ 31 ∧ 2 ^ (31 - z.toNat) ≤ x.toNat ∧ x.toNat < 2 ^ (32 - z.toNat) :=
  ⟨x.clz, if_neg hx, Nat.le_of_lt_succ (toNat_clz_lt hx),
    BitVec.two_pow_sub_clz_le_toNat_of_ne_zero (by decide) hx, BitVec.toNat_lt_two_pow_sub_clz⟩

/-- The dividend and the divisor lie between powers of two that their leading zeros count. -/
theorem Udwords.lt_of_high_lt {x : Udwords} {z : ℕ} (hx : x.high.toNat < 2 ^ z) :
    x.all.toNat < 2 ^ (32 + z) := by
  have hlow := x.low.isLt
  rw [x.toNat_all, Nat.pow_add]
  calc x.high.toNat * 2 ^ 32 + x.low.toNat < x.high.toNat * 2 ^ 32 + 2 ^ 32 :=
        Nat.add_lt_add_left hlow _
    _ = (x.high.toNat + 1) * 2 ^ 32 := by rw [Nat.add_mul, Nat.one_mul]
    _ ≤ 2 ^ z * 2 ^ 32 := Nat.mul_le_mul_right _ hx
    _ = 2 ^ 32 * 2 ^ z := Nat.mul_comm _ _

theorem Udwords.le_of_le_high {x : Udwords} {z : ℕ} (hx : 2 ^ z ≤ x.high.toNat) :
    2 ^ (32 + z) ≤ x.all.toNat := by
  rw [x.toNat_all, Nat.pow_add, Nat.mul_comm]
  exact Nat.le_add_right_of_le (Nat.mul_le_mul_right _ hx)

theorem div_two_pow_lt {a b k e : ℕ} (ha : a < 2 ^ (k + e)) (hb : 2 ^ e ≤ b) : a / 2 ^ k < b := by
  rw [Nat.pow_add] at ha
  exact Nat.lt_of_lt_of_le (Nat.div_lt_of_lt_mul ha) hb

/-- The shift that aligns the highest bits of a dividend and of a divisor with z and w leading
zeros. -/
structure Aligned (n d : Udwords) (dz nz : BitVec 32) : Prop where
  dz_le : dz.toNat ≤ 31
  nz_le : nz.toNat ≤ 31
  le_d : 2 ^ (32 + (31 - dz.toNat)) ≤ d.all.toNat
  n_lt : n.all.toNat < 2 ^ (32 + (32 - nz.toNat))
  le_n : 2 ^ (32 + (31 - nz.toNat)) ≤ n.all.toNat
  d_lt : d.all.toNat < 2 ^ (32 + (32 - dz.toNat))

theorem exists_aligned (hn : n.high ≠ 0) (hd : d.high ≠ 0) :
    ∃ dz nz, builtinClz d.high = some dz ∧ builtinClz n.high = some nz ∧ Aligned n d dz nz := by
  obtain ⟨dz, hdz, hdle, hdlow, hdhigh⟩ := builtinClz_spec hd
  obtain ⟨nz, hnz, hnle, hnlow, hnhigh⟩ := builtinClz_spec hn
  exact ⟨dz, nz, hdz, hnz, hdle, hnle, Udwords.le_of_le_high hdlow,
    Udwords.lt_of_high_lt hnhigh, Udwords.le_of_le_high hnlow, Udwords.lt_of_high_lt hdhigh⟩

variable {dz nz : BitVec 32}

theorem Aligned.toNat_sub (h : Aligned n d dz nz) :
    nz.toNat ≤ dz.toNat ∧ (dz - nz).toNat = dz.toNat - nz.toNat ∨
      dz.toNat < nz.toNat ∧ 31 < (dz - nz).toNat := by
  have hd := h.dz_le
  have hn := h.nz_le
  rw [BitVec.toNat_sub]
  omega

/-- A divisor with fewer leading zeros exceeds the dividend. -/
theorem Aligned.done (h : Aligned n d dz nz) (hlt : dz.toNat < nz.toNat) :
    (Setup.done 0 n.all).Correct n.all.toNat d.all.toNat := by
  have hnz := h.nz_le
  have hpow : 2 ^ (32 + (32 - nz.toNat)) ≤ 2 ^ (32 + (31 - dz.toNat)) :=
    Nat.pow_le_pow_right Nat.two_pos (by omega)
  have hexceeds : n.all.toNat < d.all.toNat :=
    Nat.lt_of_lt_of_le h.n_lt (Nat.le_trans hpow h.le_d)
  exact ⟨(Nat.div_eq_of_lt hexceeds).symm, (Nat.mod_eq_of_lt hexceeds).symm⟩

theorem Aligned.small (h : Aligned n d dz nz) (hle : nz.toNat ≤ dz.toNat)
    (hsr : sr.toNat = dz.toNat - nz.toNat + 1) :
    n.all.toNat / 2 ^ sr.toNat < d.all.toNat := by
  have hdz := h.dz_le
  apply div_two_pow_lt _ h.le_d
  have hn := h.n_lt
  rw [show 32 + (32 - nz.toNat) = sr.toNat + (32 + (31 - dz.toNat)) by omega] at hn
  exact hn

theorem Aligned.safe (h : Aligned n d dz nz) (hle : nz.toNat ≤ dz.toNat)
    (hsr : sr.toNat = dz.toNat - nz.toNat + 1) :
    SignSafe n.all.toNat d.all.toNat sr.toNat := by
  by_cases hzero : dz.toNat = 0
  · have hn := h.le_n
    rw [show 32 + (31 - nz.toNat) = 63 by omega] at hn
    exact Or.inr ⟨by omega, hn⟩
  · have hpow : 2 ^ (32 + (32 - dz.toNat)) ≤ 2 ^ 63 :=
      Nat.pow_le_pow_right Nat.two_pos (by omega)
    exact Or.inl (Nat.le_of_lt (Nat.lt_of_lt_of_le h.d_lt hpow))

/-- The registers that an aligned pair starts the loop with. -/
theorem Aligned.loop (h : Aligned n d dz nz) (hle : nz.toNat ≤ dz.toNat)
    (hsr : sr.toNat = dz.toNat - nz.toNat + 1) {s : Setup} (hs : Loaded n sr s) :
    s.Correct n.all.toNat d.all.toNat := by
  have hdz := h.dz_le
  exact hs.correct (by omega) (by omega) (h.small hle hsr) (h.safe hle hsr)

theorem Aligned.toNat_succ (h : Aligned n d dz nz)
    (hsub : (dz - nz).toNat = dz.toNat - nz.toNat) :
    (dz - nz + 1).toNat = dz.toNat - nz.toNat + 1 := by
  have hdz := h.dz_le
  have hone : (1 : BitVec 32).toNat = 1 := rfl
  rw [BitVec.toNat_add, hsub, hone]
  omega

theorem divideLarge_correct (hn : n.high ≠ 0) (hd : d.high ≠ 0) :
    ∃ s, divideLarge n d = some s ∧ s.Correct n.all.toNat d.all.toNat := by
  obtain ⟨dz, nz, hdz, hnz, h⟩ := exists_aligned hn hd
  rw [divideLarge, hdz, hnz]
  simp only [Option.bind_eq_bind, Option.bind_some]
  cases h.toNat_sub with
  | inr hexceeds =>
    have hlarge : 31 < dz - nz := BitVec.lt_def.mpr hexceeds.2
    exact ⟨_, if_pos hlarge, h.done hexceeds.1⟩
  | inl hfit =>
    obtain ⟨hle, hsub⟩ := hfit
    have hsr := h.toNat_succ hsub
    have hdle := h.dz_le
    have hlarge : ¬ 31 < dz - nz := by
      intro hlt
      have hnat : 31 < (dz - nz).toNat := BitVec.lt_def.mp hlt
      omega
    rw [if_neg hlarge]
    by_cases hword : dz - nz + 1 = 32
    · exact ⟨_, if_pos hword, h.loop hle hsr (shiftWord_loaded (by rw [hword]; rfl))⟩
    · rw [if_neg hword]
      have hne : (dz - nz + 1).toNat ≠ 32 := fun heq ↦ hword (BitVec.eq_of_toNat_eq heq)
      obtain ⟨s, hs, hloaded⟩ := shiftBelow_loaded n (dz - nz + 1) (by omega) (by omega)
      exact ⟨s, hs, h.loop hle hsr hloaded⟩

theorem builtinCtz_spec {x : BitVec 32} (hx : x ≠ 0) (hpow : x &&& (x - 1) = 0) :
    ∃ z, builtinCtz x = some z ∧ z.toNat < 32 ∧ x.toNat = 2 ^ z.toNat :=
  ⟨x.ctz, if_neg hx, toNat_ctz_lt hx, toNat_eq_two_pow_ctz hx hpow⟩

theorem divideLow_correct (hn : n.high = 0) (hd : d.high = 0) (h : d.low ≠ 0) :
    ∃ s, divideLow n d = some s ∧ s.Correct n.all.toNat d.all.toNat := by
  refine ⟨.done (widen (n.low / d.low)) (widen (n.low % d.low)), ?_, ?_, ?_⟩
  · rw [divideLow, udiv, umod, if_neg h, if_neg h]
    rfl
  · rw [toNat_widen, n.toNat_all, d.toNat_all, hn, hd, BitVec.toNat_udiv]
    simp
  · rw [toNat_widen, n.toNat_all, d.toNat_all, hn, hd, BitVec.toNat_umod]
    simp

theorem divideHigh_correct (hn : n.high ≠ 0) (hd : d.high ≠ 0) (hlow : d.low = 0) :
    ∃ s, divideHigh n d = some s ∧ s.Correct n.all.toNat d.all.toNat := by
  have hD : d.all.toNat = d.high.toNat * 2 ^ 32 := by
    have hzero : (0 : BitVec 32).toNat = 0 := rfl
    rw [d.toNat_all, hlow, hzero, Nat.add_zero]
  have hdiv : n.all.toNat / d.all.toNat = n.high.toNat / d.high.toNat := by
    rw [hD, n.toNat_all, div_high n.low.isLt]
  have hmod : n.all.toNat % d.all.toNat = n.high.toNat % d.high.toNat * 2 ^ 32 + n.low.toNat := by
    rw [hD, n.toNat_all, mod_high n.low.isLt]
  rw [divideHigh, if_neg hd]
  by_cases hzero : n.low = 0
  · rw [if_pos hzero, udiv, umod, if_neg hd, if_neg hd]
    refine ⟨.done (widen (n.high / d.high)) (Udwords.all ⟨n.high % d.high, 0⟩), rfl, ?_, ?_⟩
    · rw [hdiv, toNat_widen, BitVec.toNat_udiv]
    · rw [hmod, Udwords.toNat_all, BitVec.toNat_umod, hzero]
  · rw [if_neg hzero]
    by_cases hpow : d.high &&& (d.high - 1) = 0
    · obtain ⟨z, hz, hlt, hdz⟩ := builtinCtz_spec hd hpow
      rw [if_pos hpow, hz]
      refine ⟨.done (widen (n.high >>> z.toNat))
        (Udwords.all ⟨n.high &&& (d.high - 1), n.low⟩), ?_, ?_, ?_⟩
      · simp only [Option.bind_eq_bind, Option.bind_some, shr_of_lt hlt]
      · rw [hdiv, toNat_widen, BitVec.toNat_ushiftRight, Nat.shiftRight_eq_div_pow, hdz]
      · rw [hmod, Udwords.toNat_all]
        exact congrArg (· * 2 ^ 32 + n.low.toNat) (toNat_and_pred n.high hd hpow)
    · rw [if_neg hpow]
      obtain ⟨dz, nz, hdz, hnz, h⟩ := exists_aligned hn hd
      rw [hdz, hnz]
      simp only [Option.bind_eq_bind, Option.bind_some]
      cases h.toNat_sub with
      | inr hexceeds =>
        have hlarge : 30 < dz - nz := BitVec.lt_def.mpr (Nat.lt_of_succ_lt hexceeds.2)
        exact ⟨_, if_pos hlarge, h.done hexceeds.1⟩
      | inl hfit =>
        obtain ⟨hle, hsub⟩ := hfit
        have hsr := h.toNat_succ hsub
        have hdle := h.dz_le
        -- A divisor word with 31 leading zeros is one, which is a power of two.
        have hdz : dz.toNat ≠ 31 := by
          intro hlast
          have hlt := h.d_lt
          rw [hlast, hD] at hlt
          have hone : d.high = 1 := by
            apply BitVec.eq_of_toNat_eq
            have hpos := toNat_ne_zero hd
            have heq : d.high.toNat = 1 := by omega
            exact heq
          exact hpow (by rw [hone]; rfl)
        have hlarge : ¬ 30 < dz - nz := by
          intro hlt
          have hnat : 30 < (dz - nz).toNat := BitVec.lt_def.mp hlt
          omega
        rw [if_neg hlarge]
        obtain ⟨s, hs, hloaded⟩ := shiftBelow_loaded n (dz - nz + 1) (by omega) (by omega)
        exact ⟨s, hs, h.loop hle hsr hloaded⟩

theorem divideSmall_correct (hn : n.high ≠ 0) (hd : d.high = 0) (hlow : d.low ≠ 0) :
    ∃ s, divideSmall n d = some s ∧ s.Correct n.all.toNat d.all.toNat := by
  have hD : d.all.toNat = d.low.toNat := by
    have hzero : (0 : BitVec 32).toNat = 0 := rfl
    rw [d.toNat_all, hd, hzero, Nat.zero_mul, Nat.zero_add]
  rw [divideSmall]
  by_cases hpow : d.low &&& (d.low - 1) = 0
  · obtain ⟨z, hz, hlt, hdz⟩ := builtinCtz_spec hlow hpow
    have hrem : (widen (n.low &&& (d.low - 1))).toNat = n.all.toNat % d.all.toNat := by
      have hmask : (n.low &&& (d.low - 1)).toNat = n.low.toNat % d.low.toNat :=
        toNat_and_pred n.low hlow hpow
      have hdvd : d.low.toNat ∣ n.high.toNat * 2 ^ 32 := by
        rw [hdz]
        exact Nat.dvd_mul_left_of_dvd (Nat.pow_dvd_pow 2 (Nat.le_of_lt hlt)) _
      rw [toNat_widen, hmask, hD, n.toNat_all, Nat.add_mod, Nat.mod_eq_zero_of_dvd hdvd,
        Nat.zero_add, Nat.mod_mod]
    rw [if_pos hpow]
    by_cases hone : d.low = 1
    · refine ⟨.done n.all (widen (n.low &&& (d.low - 1))), if_pos hone, ?_, hrem⟩
      have hdiv : d.all.toNat = 1 := by rw [hD, hone]; rfl
      rw [hdiv, Nat.div_one]
    · have hpos : z.toNat ≠ 0 := by
        intro hzero
        rw [hzero, Nat.pow_zero] at hdz
        exact hone (BitVec.eq_of_toNat_eq hdz)
      have hsub : (32 - z).toNat = 32 - z.toNat :=
        BitVec.toNat_sub_of_le (by rw [BitVec.le_def]; exact Nat.le_of_lt hlt)
      refine ⟨.done (Udwords.all ⟨n.high >>> z.toNat,
        n.high <<< (32 - z.toNat) ||| n.low >>> z.toNat⟩)
        (widen (n.low &&& (d.low - 1))), ?_, ?_, hrem⟩
      · rw [if_neg hone, hz]
        simp only [Option.bind_eq_bind, Option.bind_some]
        rw [shr_of_lt hlt, shl_of_lt (by omega), shr_of_lt hlt, hsub]
        rfl
      · have hshift := append_ushiftRight n.high n.low (Nat.le_of_lt hlt)
        have hall : n.high ++ n.low = n.all := rfl
        rw [hall] at hshift
        rw [Udwords.all, ← hshift, BitVec.toNat_ushiftRight, Nat.shiftRight_eq_div_pow, hD, hdz]
  · rw [if_neg hpow]
    obtain ⟨dz, hdz, hdle, hdlow, hdhigh⟩ := builtinClz_spec hlow
    obtain ⟨nz, hnz, hnle, hnlow, hnhigh⟩ := builtinClz_spec hn
    rw [hdz, hnz]
    simp only [Option.bind_eq_bind, Option.bind_some]
    have hdlt : dz.toNat ≠ 31 := by
      intro hlast
      rw [hlast] at hdhigh
      have hone : d.low = 1 := by
        apply BitVec.eq_of_toNat_eq
        have hpos := toNat_ne_zero hlow
        have heq : d.low.toNat = 1 := by omega
        exact heq
      exact hpow (by rw [hone]; rfl)
    obtain ⟨sr, hsrEq⟩ : ∃ sr, sr = 1 + 32 + dz - nz := ⟨_, rfl⟩
    have hsr : sr.toNat = 33 + dz.toNat - nz.toNat := by
      have hbase : (1 + 32 : BitVec 32).toNat = 33 := rfl
      rw [hsrEq, BitVec.toNat_sub, BitVec.toNat_add, hbase]
      omega
    rw [← hsrEq]
    have hsmall : n.all.toNat / 2 ^ sr.toNat < d.all.toNat := by
      rw [hD]
      apply div_two_pow_lt _ hdlow
      have hnlt := Udwords.lt_of_high_lt hnhigh
      rw [show 32 + (32 - nz.toNat) = sr.toNat + (31 - dz.toNat) by omega] at hnlt
      exact hnlt
    have hsafe : SignSafe n.all.toNat d.all.toNat sr.toNat := by
      have hlt := d.low.isLt
      exact Or.inl (by omega)
    by_cases hword : sr = 32
    · refine ⟨_, if_pos hword, ?_⟩
      have hnat : sr.toNat = 32 := by rw [hword]; rfl
      exact (shiftWord_loaded hnat).correct (by omega) (by omega) hsmall hsafe
    · have hne : sr.toNat ≠ 32 := fun heq ↦ hword (BitVec.eq_of_toNat_eq heq)
      rw [if_neg hword]
      by_cases hbelow : sr < 32
      · have hnat : sr.toNat < 32 := BitVec.lt_def.mp hbelow
        rw [if_pos hbelow]
        obtain ⟨s, hs, hloaded⟩ := shiftBelow_loaded n sr (by omega) (by omega)
        exact ⟨s, hs, hloaded.correct (by omega) (by omega) hsmall hsafe⟩
      · have hnat : ¬ sr.toNat < 32 := fun hlt ↦ hbelow (BitVec.lt_def.mpr hlt)
        rw [if_neg hbelow]
        obtain ⟨s, hs, hloaded⟩ := shiftAbove_loaded n sr (by omega) (by omega)
        exact ⟨s, hs, hloaded.correct (by omega) (by omega) hsmall hsafe⟩

/-- Every branch before the loop, for a divisor that is not zero. -/
theorem setup_correct (h : d.all ≠ 0) :
    ∃ s, setup n d = some s ∧ s.Correct n.all.toNat d.all.toNat := by
  rw [setup]
  by_cases hn : n.high = 0
  · rw [if_pos hn]
    by_cases hd : d.high = 0
    · rw [if_pos hd]
      refine divideLow_correct hn hd ?_
      intro hlow
      exact h (by rw [Udwords.all, hd, hlow]; rfl)
    · refine ⟨.done 0 (widen n.low), if_neg hd, ?_⟩
      have hN : n.all.toNat = n.low.toNat := by
        have hzero : (0 : BitVec 32).toNat = 0 := rfl
        rw [n.toNat_all, hn, hzero, Nat.zero_mul, Nat.zero_add]
      have hexceeds : n.low.toNat < d.all.toNat := by
        have hlt := n.low.isLt
        have hpos := toNat_ne_zero hd
        rw [d.toNat_all]
        omega
      rw [hN]
      exact ⟨(Nat.div_eq_of_lt hexceeds).symm,
        (toNat_widen _).trans (Nat.mod_eq_of_lt hexceeds).symm⟩
  · rw [if_neg hn]
    by_cases hlow : d.low = 0
    · rw [if_pos hlow]
      refine divideHigh_correct hn ?_ hlow
      intro hd
      exact h (by rw [Udwords.all, hd, hlow]; rfl)
    · rw [if_neg hlow]
      by_cases hd : d.high = 0
      · rw [if_pos hd]
        exact divideSmall_correct hn hd hlow
      · rw [if_neg hd]
        exact divideLarge_correct hn hd

end OsWorkbench.Klib.Int64
