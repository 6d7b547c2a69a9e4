import OsWorkbench.Gpt.BlockRows

namespace OsWorkbench.Gpt

open Library Cell

variable {V : Type} {c : Config} {B T l paramsMemory actsMemory inputs cache : ℕ} {mem m : ℕ → V}

/-- What `gpt2_forward` relies on. -/
structure Config.Placed (c : Config) (B T paramsMemory actsMemory inputs cache : ℕ) : Prop where
  layers : 0 < c.numLayers
  heads : 0 < c.numHeads
  heads_dvd : c.numHeads ∣ c.channels
  seq : T ≤ c.maxSeqLen
  params_acts : ∀ i ∈ c.paramsRegion paramsMemory, i ∉ c.actsRegion B T actsMemory
  params_cache : ∀ i ∈ c.paramsRegion paramsMemory, i ∉ tensor cache (B * T)
  inputs_acts : Separated inputs (B * T) (c.actsRegion B T actsMemory)
  inputs_cache : Separated inputs (B * T) (tensor cache (B * T))

/-- The cells that `gpt2_forward` writes. -/
def Config.writtenRegion (c : Config) (B T actsMemory cache : ℕ) : Set ℕ :=
  { i | i ∈ tensor cache (B * T) ∨ i ∈ c.actsRegion B T actsMemory }

section Placed

variable (h : c.Placed B T paramsMemory actsMemory inputs cache)

include h

theorem Config.Placed.param (p : Parameter) :
    Separated (c.mallocAndPointParameters paramsMemory p) (c.paramSizes p)
      (c.actsRegion B T actsMemory) :=
  fun i hi ↦ h.params_acts i (Config.mem_paramsRegion p hi)

theorem Config.Placed.layerParam (hl : l < c.numLayers) (p : Parameter) :
    Separated (c.layerParam (c.mallocAndPointParameters paramsMemory) l p) (c.layerParamSize p)
      (c.actsRegion B T actsMemory) :=
  fun i hi ↦ h.param p i (Config.mem_of_layerParam hl p hi)

omit h in
theorem layerRegion_subset (hl : l < c.numLayers) {i : ℕ}
    (hi : i ∈ layerRegion c B T (c.layerAct B T (c.mallocAndPointActivations B T actsMemory) l)) :
    i ∈ c.actsRegion B T actsMemory := by
  obtain ⟨a, -, hi⟩ := hi
  exact Config.mem_actsRegion a (Config.mem_of_layerAct hl a hi)

omit h in
theorem residual_apart (hl : l < c.numLayers) :
    Separated (layerResidual c B T (c.mallocAndPointActivations B T actsMemory) l)
      (B * T * c.channels)
      (layerRegion c B T (c.layerAct B T (c.mallocAndPointActivations B T actsMemory) l)) := by
  rintro i hi ⟨a, ha, hin⟩
  rw [layerResidual] at hi
  split_ifs at hi with hzero
  · exact Config.activations_apart ha.symm i hi (Config.mem_of_layerAct hl a hin)
  · have hprev : l - 1 < c.numLayers := by omega
    by_cases hres : a = .residual3
    · subst hres
      have hassoc : ∀ k, k * B * T * c.channels = k * (B * T * c.channels) := fun k ↦ by
        rw [Nat.mul_assoc k, Nat.mul_assoc k]
      simp only [Config.layerAct, Config.layerActSize] at hin
      rw [hassoc] at hi hin
      have hturn := part_inj hi hin
      omega
    · exact Config.activations_apart (Ne.symm hres) i
        (Config.mem_of_layerAct hprev .residual3 hi) (Config.mem_of_layerAct hl a hin)

theorem Config.Placed.layerApart (hl : l < c.numLayers) :
    LayerApart c B T (layerResidual c B T (c.mallocAndPointActivations B T actsMemory) l)
      (c.layerAct B T (c.mallocAndPointActivations B T actsMemory) l)
      (c.layerParam (c.mallocAndPointParameters paramsMemory) l) where
  heads := Nat.mul_div_cancel' h.heads_dvd
  acts a a' hne i hi hi' :=
    Config.activations_apart hne i (Config.mem_of_layerAct hl a hi) (Config.mem_of_layerAct hl a' hi')
  params p i hi hin := h.layerParam hl p i hi (layerRegion_subset hl hin)
  residual := residual_apart hl

variable [Cell V]

/-- The loop over the layers. -/
theorem layers_rows {x : ℕ → ℕ → List V}
    (hx : Rows (c.mallocAndPointActivations B T actsMemory .encoded) c.channels B T mem x) {k : ℕ}
    (hk : k ≤ c.numLayers) :
    Rows (layerResidual c B T (c.mallocAndPointActivations B T actsMemory) k) c.channels B T
        (runCommands dot ((List.range k).flatMap (layerCommands c B T
          (c.mallocAndPointParameters paramsMemory) (c.mallocAndPointActivations B T actsMemory))) mem)
        (fun b ↦ ((List.range k).map fun l ↦ blockAt c
          (c.layerParam (c.mallocAndPointParameters paramsMemory) l) mem).foldl
            (Block.apply c.channels c.numHeads) (x b)) ∧
      Agree (c.actsRegion B T actsMemory) mem
        (runCommands dot ((List.range k).flatMap (layerCommands c B T
          (c.mallocAndPointParameters paramsMemory) (c.mallocAndPointActivations B T actsMemory)))
            mem) := by
  induction k with
  | zero => exact ⟨hx, fun _ _ ↦ rfl⟩
  | succ k ih =>
    have hl : k < c.numLayers := hk
    obtain ⟨hrows, hm⟩ := ih (by omega)
    have happart := h.layerApart hl
    obtain ⟨hattend, hm₁⟩ := attend_rows happart hrows
    obtain ⟨hmlp, hm₂⟩ := mlp_rows happart hattend
    have hregion : ∀ i ∈ layerRegion c B T
        (c.layerAct B T (c.mallocAndPointActivations B T actsMemory) k),
        i ∈ c.actsRegion B T actsMemory := fun i ↦ layerRegion_subset hl
    have hblk := blockAt_agree (h.layerParam hl) hm
    have hblk₁ := blockAt_agree (h.layerParam hl) (hm.trans (hm₁.mono hregion))
    rw [hblk] at hmlp
    rw [hblk₁] at hmlp
    rw [List.range_succ, List.flatMap_append, List.flatMap_singleton, runCommands_append, layerCommands,
      runCommands_append]
    refine ⟨?_, (hm.trans (hm₁.mono hregion)).trans (hm₂.mono hregion)⟩
    simp only [List.map_append, List.foldl_append]
    exact hmlp

omit [Cell V] h in
/-- The weights are read from the memory of the parameters only. -/
theorem weightsAt_congr (hm : ∀ i ∈ c.paramsRegion paramsMemory, m i = mem i) :
    weightsAt c (c.mallocAndPointParameters paramsMemory) m =
      weightsAt c (c.mallocAndPointParameters paramsMemory) mem := by
  have hm : Agree { i | i ∉ c.paramsRegion paramsMemory } mem m := fun i hi ↦ hm i (not_not.mp hi)
  have hparam : ∀ p, Separated (c.mallocAndPointParameters paramsMemory p) (c.paramSizes p)
      { i | i ∉ c.paramsRegion paramsMemory } := fun p i hi hin ↦ hin (Config.mem_paramsRegion p hi)
  have htable : ∀ p k, c.paramSizes p = k * c.channels →
      ((List.range k).map fun o ↦
        slice m (c.mallocAndPointParameters paramsMemory p + o * c.channels) c.channels) =
      (List.range k).map fun o ↦
        slice mem (c.mallocAndPointParameters paramsMemory p + o * c.channels) c.channels := by
    intro p k hp
    apply List.map_congr_left
    intro o ho
    have hend := Nat.mul_le_mul_right c.channels (Nat.succ_le_of_lt (List.mem_range.mp ho))
    rw [Nat.succ_mul] at hend
    have hsep := hparam p
    rw [hp] at hsep
    exact hsep.slice_eq hm (by omega) (by omega)
  have hblocks : ((List.range c.numLayers).map fun l ↦
        blockAt c (c.layerParam (c.mallocAndPointParameters paramsMemory) l) m) =
      (List.range c.numLayers).map fun l ↦
        blockAt c (c.layerParam (c.mallocAndPointParameters paramsMemory) l) mem := by
    apply List.map_congr_left
    intro l hl
    apply blockAt_agree _ hm
    intro p i hi
    exact hparam p i (Config.mem_of_layerParam (List.mem_range.mp hl) p hi)
  have hnorm : normAt m (c.mallocAndPointParameters paramsMemory .lnfw)
        (c.mallocAndPointParameters paramsMemory .lnfb) c.channels =
      normAt mem (c.mallocAndPointParameters paramsMemory .lnfw)
        (c.mallocAndPointParameters paramsMemory .lnfb) c.channels :=
    normAt_agree hm (hparam .lnfw) (hparam .lnfb)
  rw [weightsAt, weightsAt, htable .wte _ rfl, htable .wpe _ rfl, hblocks, hnorm]

omit [Cell V] in
theorem weightsAt_agree (hm : Agree (c.writtenRegion B T actsMemory cache) mem m) :
    weightsAt c (c.mallocAndPointParameters paramsMemory) m =
      weightsAt c (c.mallocAndPointParameters paramsMemory) mem := by
  apply weightsAt_congr
  intro i hi
  apply hm
  rintro (hin | hin)
  · exact h.params_cache i hi hin
  · exact h.params_acts i hi hin

/-- The tokens of batch `b`. -/
def tokensAt (inputs T b : ℕ) (mem : ℕ → V) (t : ℕ) : ℕ := token (mem (inputs + (b * T + t)))

theorem embed_rows (htok : ∀ j < B * T, token (mem (inputs + j)) < c.vocabSize) :
    Rows (c.mallocAndPointActivations B T actsMemory .encoded) c.channels B T
        (encoderForward (c.mallocAndPointActivations B T actsMemory .encoded) inputs
          (c.mallocAndPointParameters paramsMemory .wte) (c.mallocAndPointParameters paramsMemory .wpe)
          B T c.channels mem)
        (fun b ↦ (weightsAt c (c.mallocAndPointParameters paramsMemory) mem).embed
          (tokensAt inputs T b mem)) ∧
      Agree (c.actsRegion B T actsMemory) mem
        (encoderForward (c.mallocAndPointActivations B T actsMemory .encoded) inputs
          (c.mallocAndPointParameters paramsMemory .wte) (c.mallocAndPointParameters paramsMemory .wpe)
          B T c.channels mem) := by
  have hsub : ∀ i ∈ tensor (c.mallocAndPointActivations B T actsMemory .encoded) (B * T * c.channels),
      i ∈ c.actsRegion B T actsMemory := fun i hi ↦ Config.mem_actsRegion .encoded hi
  obtain ⟨hrows, hframe⟩ := encoderForward_rows (h.inputs_acts.mono le_rfl le_rfl hsub)
    ((h.param .wte).mono le_rfl le_rfl hsub) ((h.param .wpe).mono le_rfl le_rfl hsub) htok h.seq
  refine ⟨?_, Agree.mono hframe hsub⟩
  intro b hb t ht
  have hix := htok _ (mul_add_lt hb ht)
  have hpos : t < c.maxSeqLen := ht.trans_le h.seq
  rw [hrows b hb t ht]
  simp [Weights.embed, weightsAt, tokensAt, List.getD, hix, hpos]

omit [Cell V] in
theorem separate_logits : MatmulArgs.Separate ⟨c.mallocAndPointActivations B T actsMemory .logits,
    c.mallocAndPointActivations B T actsMemory .lnf, c.mallocAndPointParameters paramsMemory .wte, none,
    B, T, c.channels, c.vocabSize⟩ := by
  have hne : Activation.lnf ≠ .logits := by decide
  apply MatmulArgs.separate_of
  · exact Config.activations_apart hne
  · intro i hi hin
    exact h.param .wte i hi (Config.mem_actsRegion .logits hin)
  · intro bias hbias
    cases hbias

theorem output_rows {x : ℕ → ℕ → List V}
    (hx : Rows (c.mallocAndPointActivations B T actsMemory .residual3 +
      (c.numLayers - 1) * B * T * c.channels) c.channels B T mem x) :
    Rows (c.mallocAndPointActivations B T actsMemory .probs) c.vocabSize B T
        (runCommands dot (outputCommands c B T (c.mallocAndPointActivations B T actsMemory .residual3 +
          (c.numLayers - 1) * B * T * c.channels) (c.mallocAndPointParameters paramsMemory)
          (c.mallocAndPointActivations B T actsMemory)) mem)
        (fun b t ↦ softmax (Dense.apply
          ⟨(weightsAt c (c.mallocAndPointParameters paramsMemory) mem).wte, none⟩
            ((weightsAt c (c.mallocAndPointParameters paramsMemory) mem).lnf.apply (x b t)))) ∧
      Agree (c.actsRegion B T actsMemory) mem
        (runCommands dot (outputCommands c B T (c.mallocAndPointActivations B T actsMemory .residual3 +
          (c.numLayers - 1) * B * T * c.channels) (c.mallocAndPointParameters paramsMemory)
          (c.mallocAndPointActivations B T actsMemory)) mem) := by
  have happart := h.layerApart h.layers
  have hsub : ∀ a, ∀ i ∈ tensor (c.mallocAndPointActivations B T actsMemory a) (c.actSizes B T a),
      i ∈ c.actsRegion B T actsMemory := fun a i hi ↦ Config.mem_actsRegion a hi
  have hlast : c.numLayers - 1 < c.numLayers := Nat.sub_lt h.layers Nat.one_pos
  have hother : ∀ a, Activation.residual3 ≠ a →
      Separated (c.mallocAndPointActivations B T actsMemory .residual3 +
        (c.numLayers - 1) * B * T * c.channels) (B * T * c.channels)
        (tensor (c.mallocAndPointActivations B T actsMemory a) (c.actSizes B T a)) :=
    fun a ha i hi ↦ Config.activations_apart ha i (Config.mem_of_layerAct hlast .residual3 hi)
  have hinp : Separated (c.mallocAndPointActivations B T actsMemory .residual3 +
        (c.numLayers - 1) * B * T * c.channels) (B * T * c.channels)
      (layernormRegion (c.mallocAndPointActivations B T actsMemory .lnf)
        (c.mallocAndPointActivations B T actsMemory .lnfMean)
        (c.mallocAndPointActivations B T actsMemory .lnfRstd) B T c.channels) := by
    rintro i hi (hin | hin | hin)
    · exact hother .lnf (by decide) i hi hin
    · exact hother .lnfMean (by decide) i hi hin
    · exact hother .lnfRstd (by decide) i hi hin
  have hnormSub : ∀ i ∈ layernormRegion (c.mallocAndPointActivations B T actsMemory .lnf)
        (c.mallocAndPointActivations B T actsMemory .lnfMean)
        (c.mallocAndPointActivations B T actsMemory .lnfRstd) B T c.channels,
      i ∈ c.actsRegion B T actsMemory := by
    rintro i (hi | hi | hi)
    · exact hsub .lnf i hi
    · exact hsub .lnfMean i hi
    · exact hsub .lnfRstd i hi
  obtain ⟨hx₁, hm₁⟩ := happart.norm_rows .lnf .lnfMean .lnfRstd .lnfw .lnfb ⟨by decide, rfl⟩
    ⟨by decide, rfl⟩ ⟨by decide, rfl⟩ (by decide) rfl rfl hinp hx
  have hm₁ := hm₁.mono hnormSub
  obtain ⟨hrows₂, hm₂⟩ := matmulLoop_rows (separate_logits h) (layernormForward _ _ _ _ _ _ B T _ mem)
  have hm₂ := hm₁.trans (Agree.mono hm₂ (hsub .logits))
  have hlogits : Separated (c.mallocAndPointActivations B T actsMemory .logits) (B * T * c.vocabSize)
      (tensor (c.mallocAndPointActivations B T actsMemory .probs) (B * T * c.vocabSize)) := by
    have hne : Activation.logits ≠ .probs := by decide
    exact Config.activations_apart hne
  obtain ⟨hrows₃, hm₃⟩ := softmaxForward_rows (matmulLoop dot (V := V) _ _) hlogits
  refine ⟨?_, hm₂.trans (Agree.mono hm₃ (hsub .probs))⟩
  intro b hb t ht
  have hwte := congrArg Weights.wte (weightsAt_agree h (hm₁.mono fun _ ↦ .inr))
  simp only [weightsAt] at hwte
  have hlogits := (hrows₂ b hb t ht).trans
    (congrArg₂ Dense.apply (congrArg (Dense.mk · none) hwte) (hx₁ b hb t ht))
  exact (hrows₃ b hb t ht).trans (congrArg softmax hlogits)

theorem gpt2Forward_rows (htok : ∀ j < B * T, token (mem (inputs + j)) < c.vocabSize) :
    (∀ b < B, ∀ t < T,
      slice (runCommands dot (gpt2Forward c (c.mallocAndPointParameters paramsMemory)
          (c.mallocAndPointActivations B T actsMemory) inputs cache B T) mem)
        (c.mallocAndPointActivations B T actsMemory .probs + b * T * c.vocabSize + t * c.vocabSize)
        c.vocabSize =
      (weightsAt c (c.mallocAndPointParameters paramsMemory) mem).probs c.channels c.numHeads
        (tokensAt inputs T b mem) t) ∧
      ∀ i, i ∉ tensor cache (B * T) → i ∉ c.actsRegion B T actsMemory →
        runCommands dot (gpt2Forward c (c.mallocAndPointParameters paramsMemory)
          (c.mallocAndPointActivations B T actsMemory) inputs cache B T) mem i = mem i := by
  have hcopy : Agree (tensor cache (B * T)) mem
      (fill (fun i mem ↦ mem (inputs + i)) cache (B * T) mem) := fun i hi ↦ fill_of_notMem hi
  have htokens : ∀ j < B * T, fill (fun i mem ↦ mem (inputs + i)) cache (B * T) mem (inputs + j) =
      mem (inputs + j) := fun j hj ↦ h.inputs_cache.eq hcopy hj
  have htok' : ∀ j < B * T,
      token (fill (fun i mem ↦ mem (inputs + i)) cache (B * T) mem (inputs + j)) < c.vocabSize := by
    intro j hj
    rw [htokens j hj]
    exact htok j hj
  obtain ⟨hx₁, hm₁⟩ := embed_rows h htok'
  obtain ⟨hx₂, hm₂⟩ := layers_rows h hx₁ le_rfl
  have hm₂ := hm₁.trans hm₂
  have hresidual : layerResidual c B T (c.mallocAndPointActivations B T actsMemory) c.numLayers =
      c.mallocAndPointActivations B T actsMemory .residual3 + (c.numLayers - 1) * B * T * c.channels :=
    if_neg (Nat.pos_iff_ne_zero.mp h.layers)
  rw [hresidual] at hx₂
  obtain ⟨hx₃, hm₃⟩ := output_rows h hx₂
  have hm₃ := hm₂.trans hm₃
  refine ⟨?_, ?_⟩
  · intro b hb t ht
    have hcopy' : Agree (c.writtenRegion B T actsMemory cache) mem _ := hcopy.mono fun _ ↦ .inl
    have hweights₀ := weightsAt_agree h hcopy'
    have hweights₁ := weightsAt_agree h (hcopy'.trans (hm₁.mono fun _ ↦ .inr))
    have hweights₂ := weightsAt_agree h (hcopy'.trans (hm₂.mono fun _ ↦ .inr))
    have hblocks := congrArg Weights.blocks hweights₁
    have hrow := hx₃ b hb t ht
    rw [hweights₂, hweights₀] at hrow
    rw [weightsAt] at hblocks
    dsimp only at hblocks
    rw [hblocks] at hrow
    rw [gpt2Forward, runCommands_append, runCommands_append]
    refine hrow.trans (Weights.probs_congr _ ?_)
    intro s hs
    rw [tokensAt, tokensAt, htokens _ (mul_add_lt hb (hs.trans_lt ht))]
  · intro i hcache hacts
    rw [gpt2Forward, runCommands_append, runCommands_append]
    exact (hm₃ i hacts).trans (hcopy i hcache)

theorem separate_of_forward {a : MatmulArgs}
    (ha : .matmulForward a ∈ gpt2Forward (V := V) c (c.mallocAndPointParameters paramsMemory)
      (c.mallocAndPointActivations B T actsMemory) inputs cache B T) : a.Separate := by
  rw [gpt2Forward, List.mem_append, List.mem_append] at ha
  rcases ha with (ha | ha) | ha
  · simp at ha
  · obtain ⟨l, hl, ha⟩ := List.mem_flatMap.mp ha
    exact separate_of_turn (h.layerApart (List.mem_range.mp hl)) ha
  · simp only [outputCommands, List.mem_cons, reduceCtorEq, false_or, Command.matmulForward.injEq,
      List.not_mem_nil, or_false] at ha
    rw [ha]
    exact separate_logits h

/-- `gpt2_forward` computes the transformer, writes nothing but the activations and the copy of
the inputs, and no `matmul_forward` in it writes what it reads. -/
theorem gpt2Forward_refines (htok : ∀ j < B * T, token (mem (inputs + j)) < c.vocabSize) :
    (∀ b < B, ∀ t < T,
      slice (runCommands dot (gpt2Forward c (c.mallocAndPointParameters paramsMemory)
          (c.mallocAndPointActivations B T actsMemory) inputs cache B T) mem)
        (c.mallocAndPointActivations B T actsMemory .probs + b * T * c.vocabSize + t * c.vocabSize)
        c.vocabSize =
      (weightsAt c (c.mallocAndPointParameters paramsMemory) mem).probs c.channels c.numHeads
        (tokensAt inputs T b mem) t) ∧
      (∀ i, i ∉ tensor cache (B * T) → i ∉ c.actsRegion B T actsMemory →
        runCommands dot (gpt2Forward c (c.mallocAndPointParameters paramsMemory)
          (c.mallocAndPointActivations B T actsMemory) inputs cache B T) mem i = mem i) ∧
      ∀ a, .matmulForward a ∈ gpt2Forward (V := V) c (c.mallocAndPointParameters paramsMemory)
        (c.mallocAndPointActivations B T actsMemory) inputs cache B T → a.Separate := by
  obtain ⟨hrows, hframe⟩ := gpt2Forward_rows h htok
  exact ⟨hrows, hframe, fun _ ha ↦ separate_of_forward h ha⟩

/-- Two calls agree on the rows of a common prefix, whatever follows it, whatever the batch, the
length and the place of the activations are, and whatever their memory holds. -/
theorem gpt2Forward_stable {B' T' actsMemory' inputs' cache' b b' t : ℕ} {mem' : ℕ → V}
    (h' : c.Placed B' T' paramsMemory actsMemory' inputs' cache')
    (hparams : ∀ i ∈ c.paramsRegion paramsMemory, mem' i = mem i)
    (htok : ∀ j < B * T, token (mem (inputs + j)) < c.vocabSize)
    (htok' : ∀ j < B' * T', token (mem' (inputs' + j)) < c.vocabSize)
    (hb : b < B) (hb' : b' < B') (ht : t < T) (ht' : t < T')
    (hsame : ∀ s ≤ t, tokensAt inputs T b mem s = tokensAt inputs' T' b' mem' s) :
    slice (runCommands dot (gpt2Forward c (c.mallocAndPointParameters paramsMemory)
        (c.mallocAndPointActivations B' T' actsMemory') inputs' cache' B' T') mem')
      (c.mallocAndPointActivations B' T' actsMemory' .probs + b' * T' * c.vocabSize +
        t * c.vocabSize) c.vocabSize =
    slice (runCommands dot (gpt2Forward c (c.mallocAndPointParameters paramsMemory)
        (c.mallocAndPointActivations B T actsMemory) inputs cache B T) mem)
      (c.mallocAndPointActivations B T actsMemory .probs + b * T * c.vocabSize + t * c.vocabSize)
      c.vocabSize := by
  rw [(gpt2Forward_rows h htok).1 b hb t ht, (gpt2Forward_rows h' htok').1 b' hb' t ht',
    weightsAt_congr hparams, Weights.probs_congr _ hsame]

end Placed

namespace Sample

/-- Integers as numbers, with functions that keep the run small. -/
scoped instance sampleCell : Cell ℤ where
  sqrtf x := x
  expf _ := 1
  tanhf x := x
  lt a b := decide (a < b)
  eq a b := decide (a = b)
  lit n d := n / d
  twoDivPi := 0
  token := Int.toNat
  ofToken n := n
  token_ofToken n _ := Int.toNat_natCast n

end Sample

section Sample

open Sample

def sampleConfig : Config := ⟨4, 2, 1, 1, 1⟩

theorem sample_total {t : ℕ} (ht : 1 ≤ t) (ht' : t ≤ 2) :
    totalSize (sampleConfig.actSizes 1 t) Activation.all ≤ 100 := by
  obtain rfl | rfl : t = 1 ∨ t = 2 := by omega
  · decide
  · decide

theorem sample_placed {t : ℕ} (ht : 1 ≤ t) (ht' : t ≤ 2) :
    sampleConfig.Placed 1 t 0 1000 500 600 := by
  have hparams : totalSize sampleConfig.paramSizes Parameter.all = 33 := by decide
  have hacts := sample_total ht ht'
  refine ⟨by decide, by decide, by decide, ht'.trans (by decide), ?_, ?_, ?_, ?_⟩
  all_goals
    intro i hi
    simp only [Config.paramsRegion, Config.actsRegion, mem_tensor] at hi ⊢
    omega

def sampleMem : ℕ → ℤ := fun _ ↦ 1

theorem sample_token (i : ℕ) : token (sampleMem i) < sampleConfig.vocabSize := Nat.one_lt_two

theorem sample_forward :
    slice (runCommands dot (gpt2Forward sampleConfig (sampleConfig.mallocAndPointParameters 0)
        (sampleConfig.mallocAndPointActivations 1 2 1000) 500 600 1 2) sampleMem)
      (sampleConfig.mallocAndPointActivations 1 2 1000 .probs + 0 * 2 * sampleConfig.vocabSize +
        1 * sampleConfig.vocabSize) sampleConfig.vocabSize =
    (weightsAt sampleConfig (sampleConfig.mallocAndPointParameters 0) sampleMem).probs
      sampleConfig.channels sampleConfig.numHeads (tokensAt 500 2 0 sampleMem) 1 :=
  (gpt2Forward_refines (sample_placed (by decide) le_rfl) fun _ _ ↦ sample_token _).1 0 Nat.one_pos 1
    (by decide)

/-- The first row of a sequence of two tokens and that of a sequence of one. -/
theorem sample_stable :
    slice (runCommands dot (gpt2Forward sampleConfig (sampleConfig.mallocAndPointParameters 0)
        (sampleConfig.mallocAndPointActivations 1 2 1000) 500 600 1 2) sampleMem)
      (sampleConfig.mallocAndPointActivations 1 2 1000 .probs + 0 * 2 * sampleConfig.vocabSize +
        0 * sampleConfig.vocabSize) sampleConfig.vocabSize =
    slice (runCommands dot (gpt2Forward sampleConfig (sampleConfig.mallocAndPointParameters 0)
        (sampleConfig.mallocAndPointActivations 1 1 1000) 500 600 1 1) sampleMem)
      (sampleConfig.mallocAndPointActivations 1 1 1000 .probs + 0 * 1 * sampleConfig.vocabSize +
        0 * sampleConfig.vocabSize) sampleConfig.vocabSize :=
  gpt2Forward_stable (sample_placed le_rfl (by decide)) (sample_placed (by decide) le_rfl)
    (fun _ _ ↦ rfl) (fun _ _ ↦ sample_token _) (fun _ _ ↦ sample_token _) Nat.one_pos Nat.one_pos Nat.one_pos
    (by decide) fun _ _ ↦ rfl

end Sample

end OsWorkbench.Gpt
