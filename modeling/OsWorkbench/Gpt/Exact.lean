import OsWorkbench.Gpt.Transformer
import Mathlib.Algebra.BigOperators.Ring.List
import Mathlib.Algebra.Order.BigOperators.Group.List
import Mathlib.Algebra.Order.Field.Basic
import Mathlib.Algebra.Order.Ring.Rat
import Mathlib.Algebra.Field.Rat
import Mathlib.Tactic.FieldSimp
import Mathlib.Tactic.Linarith

namespace OsWorkbench.Gpt

open CFloat

/-- The functions of math.h over numbers that are not rounded. -/
structure Exact (K : Type) [Field K] [LinearOrder K] where
  sqrtf : K → K
  expf : K → K
  tanhf : K → K
  twoDivPi : K
  expf_pos : ∀ x, 0 < expf x

variable {K : Type} [Field K] [LinearOrder K]

/-- `float` without rounding. -/
@[reducible] def Exact.toCFloat (E : Exact K) : CFloat K where
  sqrtf := E.sqrtf
  expf := E.expf
  tanhf := E.tanhf
  lt a b := decide (a < b)
  eq a b := decide (a = b)
  lit n d := n / d
  twoDivPi := E.twoDivPi

variable [IsStrictOrderedRing K] (E : Exact K)

section Weights

variable {x : List K}

omit [IsStrictOrderedRing K] in
theorem exact_sum (x : List K) : @sum K E.toCFloat x = x.sum := List.sum_eq_foldl.symm

omit [IsStrictOrderedRing K] in
theorem exps_pos : ∀ a ∈ @exps K E.toCFloat x, 0 < a := by
  intro a ha
  obtain ⟨b, -, rfl⟩ := List.mem_map.mp ha
  exact E.expf_pos _

theorem sum_exps_pos (hx : x ≠ []) : 0 < (@exps K E.toCFloat x).sum := by
  apply List.sum_pos _ (exps_pos E)
  simpa [exps] using hx

/-- The results of `softmax_forward` are probabilities. -/
theorem softmax_distribution (hx : x ≠ []) :
    (∀ p ∈ @softmax K E.toCFloat x, 0 < p) ∧ (@softmax K E.toCFloat x).sum = 1 := by
  have hpos := sum_exps_pos E hx
  have hsoftmax : @softmax K E.toCFloat x =
      (@exps K E.toCFloat x).map fun a ↦ a * (@exps K E.toCFloat x).sum⁻¹ := by
    unfold softmax
    rw [exact_sum]
    apply List.map_congr_left
    intro a _
    exact div_eq_mul_inv a _
  rw [hsoftmax]
  refine ⟨?_, ?_⟩
  · intro p hp
    obtain ⟨a, ha, rfl⟩ := List.mem_map.mp hp
    exact mul_pos (exps_pos E a ha) (inv_pos.mpr hpos)
  · rw [List.sum_map_mul_right, List.map_id', mul_inv_cancel₀ hpos.ne']

/-- The branch for a sum of zero is never taken. -/
theorem attentionWeights_distribution (hx : x ≠ []) :
    (∀ p ∈ @attentionWeights K E.toCFloat x, 0 < p) ∧ (@attentionWeights K E.toCFloat x).sum = 1 := by
  have hpos := sum_exps_pos E hx
  have hweights : @attentionWeights K E.toCFloat x =
      (@exps K E.toCFloat x).map fun a ↦ a * (1 / (@exps K E.toCFloat x).sum) := by
    unfold attentionWeights
    rw [exact_sum]
    apply List.map_congr_left
    intro a _
    congr 1
    exact if_neg fun h ↦ hpos.ne' (of_decide_eq_true h)
  rw [hweights]
  refine ⟨?_, ?_⟩
  · intro p hp
    obtain ⟨a, ha, rfl⟩ := List.mem_map.mp hp
    exact mul_pos (exps_pos E a ha) (one_div_pos.mpr hpos)
  · rw [List.sum_map_mul_right, List.map_id', mul_one_div_cancel hpos.ne']

end Weights

section Sampling

variable {ps : List K}

theorem sampleLoop_crosses {coin cdf : K} {i : ℕ} (hlow : cdf ≤ coin) (hhigh : coin < cdf + ps.sum) :
    ∃ k < ps.length, @sampleLoop K E.toCFloat coin cdf i ps = some (i + k) ∧
      cdf + (ps.take k).sum ≤ coin ∧ coin < cdf + (ps.take (k + 1)).sum := by
  induction ps generalizing cdf i with
  | nil =>
    rw [List.sum_nil, add_zero] at hhigh
    exact absurd hhigh (not_lt.mpr hlow)
  | cons p ps ih =>
    rw [List.sum_cons] at hhigh
    rcases lt_or_ge coin (cdf + p) with hlt | hge
    · refine ⟨0, Nat.succ_pos _, ?_, ?_, ?_⟩
      · unfold sampleLoop
        exact if_pos (decide_eq_true hlt)
      · simpa using hlow
      · simpa using hlt
    · obtain ⟨k, hk, hloop, hbelow, habove⟩ := ih (i := i + 1) hge (by linarith)
      refine ⟨k + 1, Nat.succ_lt_succ hk, ?_, ?_, ?_⟩
      · unfold sampleLoop
        refine (if_neg fun h ↦ not_lt.mpr hge (of_decide_eq_true h)).trans ?_
        rw [Nat.add_right_comm] at hloop
        exact hloop
      · rw [List.take_succ_cons, List.sum_cons]
        linarith
      · rw [List.take_succ_cons, List.sum_cons]
        linarith

/-- The return behind the loop of `sample_mult` is not reached. -/
theorem sampleMult_median (hsum : ps.sum = 1) :
    @sampleMult K E.toCFloat ps < ps.length ∧
      (ps.take (@sampleMult K E.toCFloat ps)).sum ≤ 1 / 2 ∧
        1 / 2 < (ps.take (@sampleMult K E.toCFloat ps + 1)).sum := by
  have hcoin : E.toCFloat.lit 1 2 = 1 / 2 := by
    change ((1 : ℤ) : K) / ((2 : ℕ) : K) = 1 / 2
    norm_num
  have hlow : (0 : K) ≤ E.toCFloat.lit 1 2 := by
    rw [hcoin]
    positivity
  have hhigh : E.toCFloat.lit 1 2 < 0 + ps.sum := by
    rw [hcoin, hsum]
    norm_num
  obtain ⟨k, hk, hloop, hbelow, habove⟩ := sampleLoop_crosses E (i := 0) hlow hhigh
  have hsample : @sampleMult K E.toCFloat ps = k := by
    unfold sampleMult
    refine (congrArg (Option.getD · (ps.length - 1)) hloop).trans ?_
    exact Nat.zero_add k
  rw [hsample]
  rw [hcoin, zero_add] at hbelow habove
  exact ⟨hk, hbelow, habove⟩

/-- Without rounding the program continues with the median of the distribution. -/
theorem probs_median (W : Weights K) (hwte : W.wte ≠ []) (C NH : ℕ) (tok : ℕ → ℕ) (t : ℕ) :
    (∀ p ∈ @Weights.probs K E.toCFloat W C NH tok t, 0 < p) ∧
      (@Weights.probs K E.toCFloat W C NH tok t).sum = 1 ∧
      ∃ j < (@Weights.probs K E.toCFloat W C NH tok t).length,
        @sampleMult K E.toCFloat (@Weights.probs K E.toCFloat W C NH tok t) = j ∧
        ((@Weights.probs K E.toCFloat W C NH tok t).take j).sum ≤ 1 / 2 ∧
        1 / 2 < ((@Weights.probs K E.toCFloat W C NH tok t).take (j + 1)).sum := by
  have hne : @Weights.logits K E.toCFloat W C NH tok t ≠ [] := by
    apply List.ne_nil_of_length_pos
    simpa [Weights.logits, Dense.apply] using List.length_pos_iff.mpr hwte
  obtain ⟨hpos, hsum⟩ := softmax_distribution E hne
  obtain ⟨hlt, hbelow, habove⟩ := sampleMult_median E hsum
  exact ⟨hpos, hsum, _, hlt, rfl, hbelow, habove⟩

/-- All exponentials are the same. -/
def sampleExact : Exact ℚ := ⟨fun x ↦ x, fun _ ↦ 1, fun x ↦ x, 0, fun _ ↦ one_pos⟩

def sampleWeights : Weights ℚ := ⟨[[1], [2], [3]], [[0]], [], ⟨[1], [0]⟩⟩

/-- Three tokens that are equally likely. -/
theorem sample_median :
    ∃ j < (@Weights.probs ℚ sampleExact.toCFloat sampleWeights 1 1 (fun _ ↦ 0) 0).length,
      @sampleMult ℚ sampleExact.toCFloat
        (@Weights.probs ℚ sampleExact.toCFloat sampleWeights 1 1 (fun _ ↦ 0) 0) = j ∧
      ((@Weights.probs ℚ sampleExact.toCFloat sampleWeights 1 1 (fun _ ↦ 0) 0).take j).sum ≤ 1 / 2 ∧
      1 / 2 < ((@Weights.probs ℚ sampleExact.toCFloat sampleWeights 1 1 (fun _ ↦ 0) 0).take
        (j + 1)).sum :=
  (probs_median sampleExact sampleWeights (List.cons_ne_nil _ _) 1 1 (fun _ ↦ 0) 0).2.2

end Sampling

section Attention

variable {l : List (K × List K)} {i : ℕ}

/-- One turn of the loop over `t2` in the last pass. -/
def weighted (acc : List K) (p : K × List K) : List K := List.zipWith (fun o v ↦ o + p.1 * v) acc p.2

omit [LinearOrder K] [IsStrictOrderedRing K] in
theorem length_foldl_weighted (acc : List K) (hl : ∀ p ∈ l, p.2.length = acc.length) :
    (l.foldl weighted acc).length = acc.length := by
  induction l generalizing acc with
  | nil => rfl
  | cons p l ih =>
    have hlength : (weighted acc p).length = acc.length := by
      rw [weighted, List.length_zipWith, hl p List.mem_cons_self, Nat.min_self]
    rw [List.foldl_cons, ih _ fun q hq ↦ by rw [hlength, hl q (List.mem_cons_of_mem p hq)], hlength]

omit [LinearOrder K] [IsStrictOrderedRing K] in
theorem getD_foldl_weighted (acc : List K) (hl : ∀ p ∈ l, p.2.length = acc.length)
    (hi : i < acc.length) :
    (l.foldl weighted acc).getD i 0 = acc.getD i 0 + (l.map fun p ↦ p.1 * p.2.getD i 0).sum := by
  induction l generalizing acc with
  | nil => simp
  | cons p l ih =>
    have hp : p.2.length = acc.length := hl p List.mem_cons_self
    have hlength : (weighted acc p).length = acc.length := by
      rw [weighted, List.length_zipWith, hp, Nat.min_self]
    have hcell : (weighted acc p).getD i 0 = acc.getD i 0 + p.1 * p.2.getD i 0 := by
      simp [weighted, List.getD, hi, hp]
    rw [List.foldl_cons, ih _ (fun q hq ↦ by rw [hlength, hl q (List.mem_cons_of_mem p hq)])
      (by rwa [hlength]), hcell, List.map_cons, List.sum_cons, add_assoc]

theorem weighted_bounds (lo hi : K)
    (hl : ∀ p ∈ l, 0 ≤ p.1 ∧ lo ≤ p.2.getD i 0 ∧ p.2.getD i 0 ≤ hi) :
    (l.map Prod.fst).sum * lo ≤ (l.map fun p ↦ p.1 * p.2.getD i 0).sum ∧
      (l.map fun p ↦ p.1 * p.2.getD i 0).sum ≤ (l.map Prod.fst).sum * hi := by
  rw [← List.sum_map_mul_right, ← List.sum_map_mul_right]
  refine ⟨List.sum_le_sum ?_, List.sum_le_sum ?_⟩
  · intro p hp
    obtain ⟨hpos, hlo, -⟩ := hl p hp
    exact mul_le_mul_of_nonneg_left hlo hpos
  · intro p hp
    obtain ⟨hpos, -, hhi⟩ := hl p hp
    exact mul_le_mul_of_nonneg_left hhi hpos

variable {query : List K} {keys values : List (List K)}

omit [IsStrictOrderedRing K] in
theorem exact_head : @head K E.toCFloat query keys values =
    ((@attentionWeights K E.toCFloat (@scores K E.toCFloat query keys)).zip values).foldl weighted
      (List.replicate query.length 0) := rfl

omit [IsStrictOrderedRing K] in
theorem length_head (hvalues : ∀ v ∈ values, v.length = query.length) :
    (@head K E.toCFloat query keys values).length = query.length := by
  rw [exact_head, length_foldl_weighted, List.length_replicate]
  intro p hp
  rw [List.length_replicate, hvalues p.2 (List.of_mem_zip hp).2]

/-- A head mixes the values, without leaving their range. -/
theorem head_bounds (hlen : keys.length = values.length) (hne : keys ≠ [])
    (hvalues : ∀ v ∈ values, v.length = query.length) (hi : i < query.length) {lo hi' : K}
    (hbounds : ∀ v ∈ values, lo ≤ v.getD i 0 ∧ v.getD i 0 ≤ hi') :
    lo ≤ (@head K E.toCFloat query keys values).getD i 0 ∧
      (@head K E.toCFloat query keys values).getD i 0 ≤ hi' := by
  have hscores : @scores K E.toCFloat query keys ≠ [] := by
    simpa [scores] using hne
  obtain ⟨hpos, hsum⟩ := attentionWeights_distribution E hscores
  have hlength : (@attentionWeights K E.toCFloat (@scores K E.toCFloat query keys)).length =
      values.length := by
    rw [← hlen]
    simp [attentionWeights, exps, scores]
  rw [exact_head, getD_foldl_weighted _ (fun p hp ↦ by
    rw [List.length_replicate, hvalues p.2 (List.of_mem_zip hp).2]) (by rwa [List.length_replicate])]
  obtain ⟨hlow, hhigh⟩ := weighted_bounds lo hi' fun p hp ↦
    ⟨(hpos p.1 (List.of_mem_zip hp).1).le, hbounds p.2 (List.of_mem_zip hp).2⟩
  have hzero : (List.replicate query.length (0 : K)).getD i 0 = 0 := by simp [List.getD, hi]
  rw [List.map_fst_zip hlength.le, hsum, one_mul] at hlow hhigh
  rw [hzero, zero_add]
  exact ⟨hlow, hhigh⟩

omit [LinearOrder K] [IsStrictOrderedRing K] in
theorem getD_flatMap_range {f : ℕ → List K} {n w h : ℕ} (hf : ∀ h < n, (f h).length = w) (hh : h < n)
    (hi : i < w) : ((List.range n).flatMap f).getD (h * w + i) 0 = (f h).getD i 0 := by
  have hlength : ∀ k ≤ n, ((List.range k).flatMap f).length = k * w := by
    intro k
    induction k with
    | zero => simp
    | succ k ih =>
      intro hk
      rw [List.range_succ, List.flatMap_append, List.flatMap_singleton, List.length_append,
        ih (by omega), hf k hk, Nat.succ_mul]
  induction n with
  | zero => exact absurd hh (Nat.not_lt_zero h)
  | succ n ih =>
    rw [List.range_succ, List.flatMap_append, List.flatMap_singleton, List.getD, List.getD]
    rcases Nat.lt_succ_iff_lt_or_eq.mp hh with hlt | rfl
    · have hindex : h * w + i < n * w := by
        have hle := Nat.mul_le_mul_right w (Nat.succ_le_of_lt hlt)
        rw [Nat.succ_mul] at hle
        omega
      rw [List.getElem?_append_left (by rwa [hlength n (Nat.le_succ n)]), ← List.getD, ← List.getD]
      exact ih (fun k hk ↦ hf k (by omega)) hlt fun k hk ↦ hlength k (by omega)
    · rw [List.getElem?_append_right (by rw [hlength h (Nat.le_succ h)]; omega),
        hlength h (Nat.le_succ h), Nat.add_sub_cancel_left]

omit [Field K] [LinearOrder K] [IsStrictOrderedRing K] in
theorem length_part {x : List K} {a n : ℕ} (h : a + n ≤ x.length) : (part x a n).length = n := by
  rw [part, List.length_take, List.length_drop]
  omega

omit [LinearOrder K] [IsStrictOrderedRing K] in
theorem getD_part {x : List K} {a n : ℕ} (hi : i < n) : (part x a n).getD i 0 = x.getD (a + i) 0 := by
  simp [part, List.getD, hi]

/-- Every element that `attention` computes lies between the values of the position and
those before it. -/
theorem attention_bounds {C NH : ℕ} (hheads : NH * (C / NH) = C) {qkv : ℕ → List K} {t h : ℕ}
    (hqkv : ∀ s ≤ t, (qkv s).length = C * 3) (hh : h < NH) (hi : i < C / NH) {lo hi' : K}
    (hbounds : ∀ s ≤ t, lo ≤ (qkv s).getD (C * 2 + h * (C / NH) + i) 0 ∧
      (qkv s).getD (C * 2 + h * (C / NH) + i) 0 ≤ hi') :
    lo ≤ (@attention K E.toCFloat C NH qkv t).getD (h * (C / NH) + i) 0 ∧
      (@attention K E.toCFloat C NH qkv t).getD (h * (C / NH) + i) 0 ≤ hi' := by
  have hend : ∀ h < NH, h * (C / NH) + C / NH ≤ C := by
    intro h hh
    have hle := Nat.mul_le_mul_right (C / NH) (Nat.succ_le_of_lt hh)
    rwa [Nat.succ_mul, hheads] at hle
  have hlen : ∀ h < NH, ∀ s ≤ t, ∀ k ≤ 2,
      (part (qkv s) (C * k + h * (C / NH)) (C / NH)).length = C / NH := by
    intro h hh s hs k hk
    apply length_part
    rw [hqkv s hs]
    have hle := hend h hh
    have hthird := Nat.mul_le_mul_left C hk
    omega
  have hquery : ∀ h < NH, (part (qkv t) (h * (C / NH)) (C / NH)).length = C / NH := by
    intro h hh
    have hzero := hlen h hh t le_rfl 0 (by omega)
    rwa [Nat.mul_zero, Nat.zero_add] at hzero
  have hvalues : ∀ h < NH, ∀ v ∈ (List.range (t + 1)).map fun t2 ↦
      part (qkv t2) (C * 2 + h * (C / NH)) (C / NH),
      v.length = (part (qkv t) (h * (C / NH)) (C / NH)).length := by
    intro h hh v hv
    obtain ⟨s, hs, rfl⟩ := List.mem_map.mp hv
    have hs := List.mem_range.mp hs
    rw [hlen h hh s (by omega) 2 le_rfl, hquery h hh]
  unfold attention
  rw [getD_flatMap_range (fun h hh ↦ (length_head E (hvalues h hh)).trans (hquery h hh)) hh hi]
  apply head_bounds E
  · rw [List.length_map, List.length_map]
  · simp
  · exact hvalues h hh
  · rwa [hquery h hh]
  · intro v hv
    obtain ⟨s, hs, rfl⟩ := List.mem_map.mp hv
    have hs := List.mem_range.mp hs
    rw [getD_part hi]
    exact hbounds s (by omega)

theorem sample_bounds :
    0 ≤ (@attention ℚ sampleExact.toCFloat 1 1 (fun s ↦ [1, 2, s]) 1).getD (0 * (1 / 1) + 0) 0 ∧
      (@attention ℚ sampleExact.toCFloat 1 1 (fun s ↦ [1, 2, s]) 1).getD (0 * (1 / 1) + 0) 0 ≤ 1 := by
  apply attention_bounds sampleExact rfl (fun _ _ ↦ rfl) Nat.one_pos Nat.one_pos
  intro s hs
  obtain rfl | rfl : s = 0 ∨ s = 1 := by omega
  · exact ⟨le_rfl, zero_le_one⟩
  · exact ⟨zero_le_one, le_rfl⟩

end Attention

end OsWorkbench.Gpt
