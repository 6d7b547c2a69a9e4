import OsWorkbench.Gpt.Layers

namespace OsWorkbench.Gpt

open Library CFloat Cell

variable {V : Type} [Cell V] {mem : ℕ → V} {B T C b t : ℕ}

section Encoder

variable {out inp wte wpe vocab maxT : ℕ}

theorem encoderForward_rows (hinp : Separated inp (B * T) (tensor out (B * T * C)))
    (hwte : Separated wte (vocab * C) (tensor out (B * T * C)))
    (hwpe : Separated wpe (maxT * C) (tensor out (B * T * C)))
    (htok : ∀ j < B * T, token (mem (inp + j)) < vocab) (hT : T ≤ maxT) :
    (∀ b < B, ∀ t < T, slice (encoderForward out inp wte wpe B T C mem) (out + b * T * C + t * C) C =
      add (slice mem (wte + token (mem (inp + (b * T + t))) * C) C) (slice mem (wpe + t * C) C)) ∧
      ∀ x, x ∉ tensor out (B * T * C) → encoderForward out inp wte wpe B T C mem x = mem x := by
  apply rowLoop_rows
  · intro b t m x hx
    exact fill_of_notMem hx
  · intro b hb t ht m hm
    have hrow : b * T + t < B * T := mul_add_lt hb ht
    have hwteEnd : token (mem (inp + (b * T + t))) * C + C ≤ vocab * C := by
      have hle := Nat.mul_le_mul_right C (Nat.succ_le_of_lt (htok _ hrow))
      rwa [Nat.succ_mul] at hle
    have hwpeEnd : t * C + C ≤ maxT * C := by
      have hle := Nat.mul_le_mul_right C (Nat.succ_le_of_lt (ht.trans_le hT))
      rwa [Nat.succ_mul] at hle
    rw [hinp.eq hm hrow, encoderRow, slice_fill, ← zipWith_slice, add,
      hwte.slice_eq hm (by omega) (by omega), hwpe.slice_eq hm (by omega) (by omega)]
    apply ReadsAhead.of_congr
    intro i hi mem' hmem'
    have houtside : ∀ y, y ∉ tensor out (B * T * C) → mem' y = m y := fun y hy ↦
      hmem' y fun hin ↦ hy (rowOf_subset hb ht hin)
    rw [houtside _ (hwte _ (mem_tensor.mpr ⟨by omega, by omega⟩)),
      houtside _ (hwpe _ (mem_tensor.mpr ⟨by omega, by omega⟩))]

end Encoder

section Elementwise

variable {out inp inp1 inp2 N : ℕ}

theorem geluForward_slice (hinp : Separated inp N (tensor out N)) :
    slice (geluForward out inp N mem) out N = (slice mem inp N).map gelu := by
  rw [geluForward, slice_fill, slice, List.map_map]
  · rfl
  · apply ReadsAhead.of_congr
    intro i hi mem' hmem'
    rw [hinp.eq hmem' hi]

theorem residualForward_slice (hinp1 : Separated inp1 N (tensor out N))
    (hinp2 : Separated inp2 N (tensor out N)) :
    slice (residualForward out inp1 inp2 N mem) out N = add (slice mem inp1 N) (slice mem inp2 N) := by
  rw [residualForward, slice_fill, add, zipWith_slice]
  apply ReadsAhead.of_congr
  intro i hi mem' hmem'
  rw [hinp1.eq hmem' hi, hinp2.eq hmem' hi]

theorem geluForward_outside {x : ℕ} (hx : x ∉ tensor out N) : geluForward out inp N mem x = mem x :=
  fill_of_notMem hx

theorem residualForward_outside {x : ℕ} (hx : x ∉ tensor out N) :
    residualForward out inp1 inp2 N mem x = mem x :=
  fill_of_notMem hx

end Elementwise

section Softmax

variable {probs logits vocab : ℕ}

theorem softmaxRow_eq (mem : ℕ → V) (hlogits : Separated logits vocab (tensor probs vocab)) :
    softmaxRow probs logits vocab mem =
      fill (fun i mem' ↦ mem' (probs + i) / sum (exps (slice mem logits vocab))) probs vocab
        (fill (fun i mem' ↦ expf (mem' (logits + i) - maxval (slice mem logits vocab))) probs vocab
          mem) ∧
      slice (fill (fun i mem' ↦ expf (mem' (logits + i) - maxval (slice mem logits vocab))) probs
        vocab mem) probs vocab = exps (slice mem logits vocab) := by
  have hahead : ReadsAhead (fun i mem' ↦ expf (mem' (logits + i) - maxval (slice mem logits vocab)))
      probs vocab mem := by
    apply ReadsAhead.of_congr
    intro i hi mem' hmem'
    rw [hlogits.eq hmem' hi]
  have hexps := slice_fill hahead
  rw [← map_slice fun a ↦ expf (a - maxval (slice mem logits vocab)), ← exps] at hexps
  have hscan : scanFill (· + ·) (fun i mem' ↦ expf (mem' (logits + i) -
      maxval (slice mem logits vocab))) probs vocab (0, mem) = _ := scanFill_eq hahead
  rw [← slice_fill hahead, hexps] at hscan
  refine ⟨?_, hexps⟩
  unfold maxval at hscan
  rw [softmaxRow]
  simp only [hscan]
  rfl

theorem slice_softmaxRow (hlogits : Separated logits vocab (tensor probs vocab)) :
    slice (softmaxRow probs logits vocab mem) probs vocab = softmax (slice mem logits vocab) := by
  obtain ⟨hrow, hexps⟩ := softmaxRow_eq mem hlogits
  rw [hrow, slice_fill, ← map_slice (· / sum (exps (slice mem logits vocab))), hexps, softmax]
  intro i hi mem' hmem'
  have hcell := hmem' (probs + i) fun hin ↦ absurd hin.2 (Nat.lt_irrefl _)
  simp only [hcell]

theorem softmaxForward_rows (mem : ℕ → V)
    (hlogits : Separated logits (B * T * vocab) (tensor probs (B * T * vocab))) :
    (∀ b < B, ∀ t < T, slice (softmaxForward probs logits B T vocab mem)
      (probs + b * T * vocab + t * vocab) vocab =
        softmax (slice mem (logits + b * T * vocab + t * vocab) vocab)) ∧
      ∀ x, x ∉ tensor probs (B * T * vocab) →
        softmaxForward probs logits B T vocab mem x = mem x := by
  apply rowLoop_rows
  · intro b t m x hx
    rw [softmaxRow]
    exact (fill_of_notMem hx).trans (scanFill_of_notMem hx)
  · intro b hb t ht m hm
    have hbounds := row_bounds (p := logits) (C := vocab) hb ht
    rw [slice_softmaxRow (hlogits.mono hbounds.1 hbounds.2 fun x hx ↦ rowOf_subset hb ht hx),
      hlogits.slice_eq hm hbounds.1 hbounds.2]

end Softmax

section Layernorm

variable {out mean rstd inp weight bias : ℕ}

/-- The three tensors that `layernorm_forward` writes. -/
def layernormRegion (out mean rstd B T C : ℕ) : Set ℕ :=
  { x | x ∈ tensor out (B * T * C) ∨ x ∈ tensor mean (B * T) ∨ x ∈ tensor rstd (B * T) }

theorem slice_layernormRow {outBt meanBt rstdBt x : ℕ} (hx : Separated x C (tensor outBt C))
    (hweight : Separated weight C (tensor outBt C)) (hbias : Separated bias C (tensor outBt C))
    (hmean : meanBt ∉ tensor outBt C) (hrstd : rstdBt ∉ tensor outBt C) :
    slice (layernormRow outBt meanBt rstdBt x weight bias C mem) outBt C =
      Norm.apply ⟨slice mem weight C, slice mem bias C⟩ (slice mem x C) := by
  have hupdate : ∀ (f : ℕ → V) (a b : V), slice (Function.update (Function.update f meanBt a) rstdBt b)
      outBt C = slice f outBt C := by
    intro f a b
    apply slice_congr
    intro y hy
    rw [Function.update_of_ne fun he : y = rstdBt ↦ hrstd (he ▸ hy),
      Function.update_of_ne fun he : y = meanBt ↦ hmean (he ▸ hy)]
  rw [layernormRow, hupdate, slice_fill]
  · apply List.ext_getElem
    · simp [Norm.apply]
    · intro i hi hi'
      simp [Norm.apply, Gpt.rstd, Gpt.mean, variance, sum]
  · apply ReadsAhead.of_congr
    intro i hi mem' hmem'
    simp only [hx.eq hmem' hi, hweight.eq hmem' hi, hbias.eq hmem' hi]

theorem layernormForward_rows (mem : ℕ → V)
    (hinp : Separated inp (B * T * C) (layernormRegion out mean rstd B T C))
    (hweight : Separated weight C (layernormRegion out mean rstd B T C))
    (hbias : Separated bias C (layernormRegion out mean rstd B T C))
    (hmean : Separated mean (B * T) (tensor out (B * T * C)))
    (hrstd : Separated rstd (B * T) (tensor out (B * T * C)))
    (hcaches : Separated rstd (B * T) (tensor mean (B * T))) :
    (∀ b < B, ∀ t < T, slice (layernormForward out mean rstd inp weight bias B T C mem)
      (out + b * T * C + t * C) C =
        Norm.apply ⟨slice mem weight C, slice mem bias C⟩ (slice mem (inp + b * T * C + t * C) C)) ∧
      ∀ x, x ∉ layernormRegion out mean rstd B T C →
        layernormForward out mean rstd inp weight bias B T C mem x = mem x := by
  have hcell : ∀ p b t, b < B → t < T → p + (b * T + t) ∈ tensor p (B * T) := by
    intro p b t hb ht
    have hlt := mul_add_lt hb ht
    exact ⟨Nat.le_add_right _ _, by omega⟩
  have hout : ∀ b < B, ∀ t < T, ∀ x ∈ tensor (out + b * T * C + t * C) C,
      x ∈ layernormRegion out mean rstd B T C := fun b hb t ht x hx ↦ .inl (rowOf_subset hb ht hx)
  have hrow : ∀ b < B, ∀ t < T, ∀ m : ℕ → V,
      (∀ x, x ∉ layernormRegion out mean rstd B T C → m x = mem x) →
      slice (layernormRow (out + b * T * C + t * C) (mean + (b * T + t)) (rstd + (b * T + t))
        (inp + b * T * C + t * C) weight bias C m) (out + b * T * C + t * C) C =
        Norm.apply ⟨slice mem weight C, slice mem bias C⟩ (slice mem (inp + b * T * C + t * C) C) := by
    intro b hb t ht m hm
    have hbounds := row_bounds (p := inp) (C := C) hb ht
    rw [slice_layernormRow (hinp.mono hbounds.1 hbounds.2 (hout b hb t ht))
      (hweight.mono le_rfl le_rfl (hout b hb t ht)) (hbias.mono le_rfl le_rfl (hout b hb t ht))
      (fun hin ↦ hmean _ (hcell mean b t hb ht) (rowOf_subset hb ht hin))
      (fun hin ↦ hrstd _ (hcell rstd b t hb ht) (rowOf_subset hb ht hin)),
      hinp.slice_eq hm hbounds.1 hbounds.2, hweight.slice_eq hm le_rfl le_rfl,
      hbias.slice_eq hm le_rfl le_rfl]
  have hblocks := rowLoop_blocks (B := B) (T := T)
    (fun b t ↦ layernormRow (out + b * T * C + t * C) (mean + (b * T + t)) (rstd + (b * T + t))
      (inp + b * T * C + t * C) weight bias C)
    (fun b t ↦ { x | x ∈ rowOf out T C b t ∨ x = mean + (b * T + t) ∨ x = rstd + (b * T + t) })
    (layernormRegion out mean rstd B T C) mem ?_ ?_ ?_ ?_
  · refine ⟨?_, ?_⟩
    · intro b hb t ht
      rw [← hrow b hb t ht mem fun _ _ ↦ rfl]
      apply slice_congr
      intro x hx
      exact hblocks.foldl_written (fun _ _ ↦ rfl) (i := (b, t))
        (Grid.mem_rowMajor.mpr ⟨b, hb, t, ht, rfl⟩) (.inl hx)
    · intro x hx
      exact hblocks.foldl_outside hx
  · intro b t m x hx
    simp only [Set.mem_ofPred_eq, not_or] at hx
    rw [layernormRow, Function.update_of_ne hx.2.2, Function.update_of_ne hx.2.1,
      fill_of_notMem hx.1]
  · rintro b hb t ht x (hx | rfl | rfl)
    · exact .inl (rowOf_subset hb ht hx)
    · exact .inr (.inl (hcell mean b t hb ht))
    · exact .inr (.inr (hcell rstd b t hb ht))
  · intro b hb t ht m hm x hx
    have hbounds := row_bounds (p := inp) (C := C) hb ht
    by_cases hin : x ∈ rowOf out T C b t
    · apply eq_of_slice_eq _ hin
      rw [hrow b hb t ht m hm, hrow b hb t ht mem fun _ _ ↦ rfl]
    · rw [layernormRow, layernormRow, hinp.slice_eq hm hbounds.1 hbounds.2]
      rcases hx.resolve_left hin with rfl | rfl
      · have hne : mean + (b * T + t) ≠ rstd + (b * T + t) := fun he ↦
          hcaches _ (hcell rstd b t hb ht) (he ▸ hcell mean b t hb ht)
        rw [Function.update_of_ne hne, Function.update_self, Function.update_of_ne hne,
          Function.update_self]
      · rw [Function.update_self, Function.update_self]
  · rintro b hb t ht b' hb' t' ht' hne x hx hx'
    have hindex : ∀ p, p + (b * T + t) ≠ p + (b' * T + t') := by
      intro p he
      obtain ⟨rfl, rfl⟩ := mul_add_inj ht ht' (Nat.add_left_cancel he)
      exact hne rfl
    rcases hx with hx | rfl | rfl
    · rcases hx' with hx' | rfl | rfl
      · exact rowOf_apart ht ht' hne hx hx'
      · exact hmean _ (hcell mean b' t' hb' ht') (rowOf_subset hb ht hx)
      · exact hrstd _ (hcell rstd b' t' hb' ht') (rowOf_subset hb ht hx)
    · rcases hx' with hx' | he | he
      · exact hmean _ (hcell mean b t hb ht) (rowOf_subset hb' ht' hx')
      · exact hindex mean he
      · exact hcaches _ (hcell rstd b' t' hb' ht') (he ▸ hcell mean b t hb ht)
    · rcases hx' with hx' | he | he
      · exact hrstd _ (hcell rstd b t hb ht) (rowOf_subset hb' ht' hx')
      · exact hcaches _ (hcell rstd b t hb ht) (he ▸ hcell mean b' t' hb' ht')
      · exact hindex rstd he

end Layernorm

end OsWorkbench.Gpt
