import OsWorkbench.Gpt.Forward

namespace OsWorkbench.Gpt

open Library Cell

variable {V : Type} {c : Config} {B T b t residual : ℕ} {act : Activation → ℕ}
  {param : Parameter → ℕ} {mem m : ℕ → V} {x y : ℕ → ℕ → List V}

/-- The rows of a tensor of vectors of `n` elements. -/
def Rows (p n B T : ℕ) (mem : ℕ → V) (x : ℕ → ℕ → List V) : Prop :=
  ∀ b < B, ∀ t < T, slice mem (p + b * T * n + t * n) n = x b t

/-- The cells that a turn may write. -/
def layerRegion (c : Config) (B T : ℕ) (act : Activation → ℕ) : Set ℕ :=
  { x | ∃ a, a ≠ .encoded ∧ x ∈ tensor (act a) (c.layerActSize B T a) }

/-- The tensors of a turn do not overlap, and it writes neither the weights nor the residual
stream that it starts from. -/
structure LayerApart (c : Config) (B T residual : ℕ) (act : Activation → ℕ)
    (param : Parameter → ℕ) : Prop where
  heads : c.numHeads * (c.channels / c.numHeads) = c.channels
  acts : ∀ a a', a ≠ a' →
    Separated (act a) (c.layerActSize B T a) (tensor (act a') (c.layerActSize B T a'))
  params : ∀ p, Separated (param p) (c.layerParamSize p) (layerRegion c B T act)
  residual : Separated residual (B * T * c.channels) (layerRegion c B T act)

theorem mem_layerRegion {a : Activation} {i : ℕ} (ha : a ≠ .encoded)
    (hi : i ∈ tensor (act a) (c.layerActSize B T a)) : i ∈ layerRegion c B T act := ⟨a, ha, hi⟩

/-- The memory differs in the tensors of the turn only. -/
def Agree (region : Set ℕ) (mem m : ℕ → V) : Prop := ∀ i, i ∉ region → m i = mem i

theorem Agree.trans {region : Set ℕ} {m' : ℕ → V} (h : Agree region mem m) (h' : Agree region m m') :
    Agree region mem m' := fun i hi ↦ (h' i hi).trans (h i hi)

theorem Agree.mono {region region' : Set ℕ} (h : Agree region mem m) (hsub : ∀ i ∈ region, i ∈ region') :
    Agree region' mem m := fun i hi ↦ h i fun hin ↦ hi (hsub i hin)

theorem Rows.agree {p n : ℕ} {region : Set ℕ} (h : Rows p n B T mem x) (hm : Agree region mem m)
    (hp : Separated p (B * T * n) region) : Rows p n B T m x := by
  intro b hb t ht
  have hbounds := row_bounds (p := p) (C := n) hb ht
  rw [hp.slice_eq hm hbounds.1 hbounds.2, h b hb t ht]

theorem row_part {p n : ℕ} (hb : b < B) (ht : t < T) :
    slice mem (p + b * T * n + t * n) n = part (slice mem p (B * T * n)) (b * T * n + t * n) n := by
  have hbounds := row_bounds (p := p) (C := n) hb ht
  rw [part, take_drop_slice (by omega), Nat.add_assoc]

theorem normAt_agree {region : Set ℕ} {w bias n : ℕ} (hm : Agree region mem m)
    (hw : Separated w n region) (hbias : Separated bias n region) :
    normAt m w bias n = normAt mem w bias n := by
  rw [normAt, normAt, hw.slice_eq hm le_rfl le_rfl, hbias.slice_eq hm le_rfl le_rfl]

theorem denseAt_agree {region : Set ℕ} {w bias n k : ℕ} (hm : Agree region mem m)
    (hw : Separated w (k * n) region) (hbias : Separated bias k region) :
    denseAt m w (some bias) n k = denseAt mem w (some bias) n k := by
  have hrows : ((List.range k).map fun o ↦ slice m (w + o * n) n) =
      (List.range k).map fun o ↦ slice mem (w + o * n) n := by
    apply List.map_congr_left
    intro o ho
    have hend := Nat.mul_le_mul_right n (Nat.succ_le_of_lt (List.mem_range.mp ho))
    rw [Nat.succ_mul] at hend
    exact hw.slice_eq hm (by omega) (by omega)
  rw [denseAt, denseAt, hrows, Option.map_some, Option.map_some, hbias.slice_eq hm le_rfl le_rfl]

theorem blockAt_agree {region : Set ℕ}
    (h : ∀ p, Separated (param p) (c.layerParamSize p) region) (hm : Agree region mem m) :
    blockAt c param m = blockAt c param mem := by
  have hnorm : ∀ w bias, c.layerParamSize w = c.channels → c.layerParamSize bias = c.channels →
      normAt m (param w) (param bias) c.channels = normAt mem (param w) (param bias) c.channels := by
    intro w bias hw hbias
    have hparam := h w
    have hparam' := h bias
    rw [hw] at hparam
    rw [hbias] at hparam'
    exact normAt_agree hm hparam hparam'
  have hdense : ∀ w bias n k, c.layerParamSize w = k * n → c.layerParamSize bias = k →
      denseAt m (param w) (some (param bias)) n k = denseAt mem (param w) (some (param bias)) n k := by
    intro w bias n k hw hbias
    have hparam := h w
    have hparam' := h bias
    rw [hw] at hparam
    rw [hbias] at hparam'
    exact denseAt_agree hm hparam hparam'
  rw [blockAt, blockAt, hnorm .ln1w .ln1b rfl rfl, hnorm .ln2w .ln2b rfl rfl,
    hdense .qkvw .qkvb _ _ rfl rfl, hdense .attprojw .attprojb _ _ rfl rfl,
    hdense .fcw .fcb _ _ rfl rfl, hdense .fcprojw .fcprojb _ _ rfl rfl]

variable [Cell V]

section Steps

/-! Each command of a turn, on rows. -/

variable (h : LayerApart c B T residual act param)

include h

theorem LayerApart.norm_rows (out mean rstd : Activation) {inp : ℕ} (w bias : Parameter)
    (hout : out ≠ .encoded ∧ c.layerActSize B T out = B * T * c.channels)
    (hmean : mean ≠ .encoded ∧ c.layerActSize B T mean = B * T)
    (hrstd : rstd ≠ .encoded ∧ c.layerActSize B T rstd = B * T)
    (hne : out ≠ mean ∧ out ≠ rstd ∧ mean ≠ rstd)
    (hw : c.layerParamSize w = c.channels) (hbias : c.layerParamSize bias = c.channels)
    (hinp : Separated inp (B * T * c.channels)
      (layernormRegion (act out) (act mean) (act rstd) B T c.channels))
    (hx : Rows inp c.channels B T mem x) :
    Rows (act out) c.channels B T
        (layernormForward (act out) (act mean) (act rstd) inp (param w) (param bias) B T c.channels
          mem)
        (fun b t ↦ (normAt mem (param w) (param bias) c.channels).apply (x b t)) ∧
      Agree (layernormRegion (act out) (act mean) (act rstd) B T c.channels) mem
        (layernormForward (act out) (act mean) (act rstd) inp (param w) (param bias) B T c.channels
          mem) := by
  have hregion : ∀ i ∈ layernormRegion (act out) (act mean) (act rstd) B T c.channels,
      i ∈ layerRegion c B T act := by
    rintro i (hi | hi | hi)
    · exact mem_layerRegion hout.1 (by rwa [hout.2])
    · exact mem_layerRegion hmean.1 (by rwa [hmean.2])
    · exact mem_layerRegion hrstd.1 (by rwa [hrstd.2])
  have hparam := h.params w
  have hparam' := h.params bias
  rw [hw] at hparam
  rw [hbias] at hparam'
  have hmeanOut := h.acts mean out hne.1.symm
  have hrstdOut := h.acts rstd out hne.2.1.symm
  have hrstdMean := h.acts rstd mean hne.2.2.symm
  rw [hmean.2, hout.2] at hmeanOut
  rw [hrstd.2, hout.2] at hrstdOut
  rw [hrstd.2, hmean.2] at hrstdMean
  obtain ⟨hrows, hframe⟩ := layernormForward_rows mem hinp
    (hparam.mono le_rfl le_rfl hregion) (hparam'.mono le_rfl le_rfl hregion) hmeanOut hrstdOut
    hrstdMean
  refine ⟨?_, hframe⟩
  intro b hb t ht
  rw [hrows b hb t ht, hx b hb t ht, normAt]

theorem LayerApart.separate (out inp : Activation) (w bias : Parameter) {C OC : ℕ}
    (hout : out ≠ .encoded ∧ c.layerActSize B T out = B * T * OC)
    (hinp : c.layerActSize B T inp = B * T * C) (hne : inp ≠ out)
    (hw : c.layerParamSize w = OC * C) (hbias : c.layerParamSize bias = OC) :
    MatmulArgs.Separate ⟨act out, act inp, param w, some (param bias), B, T, C, OC⟩ := by
  have hregion : ∀ i ∈ tensor (act out) (B * T * OC), i ∈ layerRegion c B T act := fun i hi ↦
    mem_layerRegion hout.1 (by rwa [hout.2])
  have hparam := h.params w
  have hparam' := h.params bias
  have hact := h.acts inp out hne
  rw [hw] at hparam
  rw [hbias] at hparam'
  rw [hinp, hout.2] at hact
  apply MatmulArgs.separate_of
  · exact hact
  · exact hparam.mono le_rfl le_rfl hregion
  · intro p hp
    rw [← Option.some.inj hp]
    exact hparam'.mono le_rfl le_rfl hregion

theorem LayerApart.dense_rows (out inp : Activation) (w bias : Parameter) {C OC : ℕ}
    (hout : out ≠ .encoded ∧ c.layerActSize B T out = B * T * OC)
    (hinp : c.layerActSize B T inp = B * T * C) (hne : inp ≠ out)
    (hw : c.layerParamSize w = OC * C) (hbias : c.layerParamSize bias = OC)
    (hx : Rows (act inp) C B T mem x) :
    Rows (act out) OC B T
        (matmulLoop dot ⟨act out, act inp, param w, some (param bias), B, T, C, OC⟩ mem)
        (fun b t ↦ (denseAt mem (param w) (some (param bias)) C OC).apply (x b t)) ∧
      Agree (tensor (act out) (B * T * OC)) mem
        (matmulLoop dot ⟨act out, act inp, param w, some (param bias), B, T, C, OC⟩ mem) := by
  obtain ⟨hrows, hframe⟩ := matmulLoop_rows (h.separate out inp w bias hout hinp hne hw hbias) mem
  refine ⟨?_, hframe⟩
  intro b hb t ht
  rw [hrows b hb t ht, hx b hb t ht]

theorem LayerApart.attention_rows (hx : Rows (act .qkv) (3 * c.channels) B T mem x) :
    Rows (act .atty) c.channels B T
        (AttentionArgs.forward ⟨act .atty, act .preatt, act .att, act .qkv, B, T, c.channels,
          c.numHeads⟩ mem)
        (fun b t ↦ attention c.channels c.numHeads (x b) t) ∧
      Agree (layerRegion c B T act) mem
        (AttentionArgs.forward ⟨act .atty, act .preatt, act .att, act .qkv, B, T, c.channels,
          c.numHeads⟩ mem) := by
  have hregion : ∀ i ∈ AttentionArgs.region ⟨act .atty, act .preatt, act .att, act .qkv, B, T,
      c.channels, c.numHeads⟩, i ∈ layerRegion c B T act := by
    rintro i (hi | hi | hi)
    · exact mem_layerRegion (a := .preatt) (by decide) hi
    · exact mem_layerRegion (a := .att) (by decide) hi
    · exact mem_layerRegion (a := .atty) (by decide) hi
  have happart : AttentionArgs.Apart ⟨act .atty, act .preatt, act .att, act .qkv, B, T, c.channels,
      c.numHeads⟩ := by
    refine ⟨h.heads, ?_, h.acts .preatt .att (by decide), h.acts .preatt .atty (by decide),
      h.acts .att .atty (by decide)⟩
    have hqkv : ∀ a, Activation.qkv ≠ a → Separated (act .qkv) (B * T * (c.channels * 3))
        (tensor (act a) (c.layerActSize B T a)) := by
      intro a ha
      rw [Nat.mul_comm c.channels 3]
      exact h.acts .qkv a ha
    rintro i hi (hin | hin | hin)
    · exact hqkv .preatt (by decide) i hi hin
    · exact hqkv .att (by decide) i hi hin
    · exact hqkv .atty (by decide) i hi hin
  obtain ⟨hrows, hframe⟩ := AttentionArgs.forward_rows happart mem
  refine ⟨?_, Agree.mono hframe hregion⟩
  intro b hb t ht
  rw [hrows b hb t ht]
  apply attention_congr
  intro s hs
  have hrow := hx b hb s (hs.trans_lt ht)
  rw [Nat.mul_comm 3] at hrow
  exact hrow

end Steps

omit [Cell V] in
theorem rows_of_slice {p n : ℕ} {f : ℕ → ℕ → List V} (z : List V)
    (hz : slice mem p (B * T * n) = z)
    (hf : ∀ b < B, ∀ t < T, part z (b * T * n + t * n) n = f b t) : Rows p n B T mem f := by
  intro b hb t ht
  rw [row_part hb ht, hz, hf b hb t ht]

theorem residual_rows {out inp1 inp2 n : ℕ}
    (hinp1 : Separated inp1 (B * T * n) (tensor out (B * T * n)))
    (hinp2 : Separated inp2 (B * T * n) (tensor out (B * T * n)))
    (hx : Rows inp1 n B T mem x) (hy : Rows inp2 n B T mem y) :
    Rows out n B T (residualForward out inp1 inp2 (B * T * n) mem) (fun b t ↦ add (x b t) (y b t)) ∧
      Agree (tensor out (B * T * n)) mem (residualForward out inp1 inp2 (B * T * n) mem) := by
  refine ⟨rows_of_slice _ (residualForward_slice hinp1 hinp2) ?_, fun _ ↦ residualForward_outside⟩
  intro b hb t ht
  rw [← hx b hb t ht, ← hy b hb t ht, row_part hb ht, row_part hb ht, part, add, List.drop_zipWith,
    List.take_zipWith, add, part, part]

theorem gelu_rows {out inp n : ℕ} (hinp : Separated inp (B * T * n) (tensor out (B * T * n)))
    (hx : Rows inp n B T mem x) :
    Rows out n B T (geluForward out inp (B * T * n) mem) (fun b t ↦ (x b t).map gelu) ∧
      Agree (tensor out (B * T * n)) mem (geluForward out inp (B * T * n) mem) := by
  refine ⟨rows_of_slice _ (geluForward_slice hinp) ?_, fun _ ↦ geluForward_outside⟩
  intro b hb t ht
  rw [← hx b hb t ht, row_part hb ht, part, ← List.map_drop, ← List.map_take, part]

section Turn

variable (h : LayerApart c B T residual act param)

include h

omit [Cell V] h in
theorem Agree.layer {a : Activation} {n : ℕ} (ha : a ≠ .encoded) (hn : c.layerActSize B T a = n)
    (hm : Agree (tensor (act a) n) mem m) : Agree (layerRegion c B T act) mem m :=
  hm.mono fun _ hi ↦ mem_layerRegion ha (by rwa [hn])

omit [Cell V] h in
theorem Agree.layer_norm {out mean rstd : Activation}
    (hout : out ≠ .encoded ∧ c.layerActSize B T out = B * T * c.channels)
    (hmean : mean ≠ .encoded ∧ c.layerActSize B T mean = B * T)
    (hrstd : rstd ≠ .encoded ∧ c.layerActSize B T rstd = B * T)
    (hm : Agree (layernormRegion (act out) (act mean) (act rstd) B T c.channels) mem m) :
    Agree (layerRegion c B T act) mem m := by
  apply hm.mono
  rintro i (hi | hi | hi)
  · exact mem_layerRegion hout.1 (by rwa [hout.2])
  · exact mem_layerRegion hmean.1 (by rwa [hmean.2])
  · exact mem_layerRegion hrstd.1 (by rwa [hrstd.2])

theorem attend_rows (hx : Rows residual c.channels B T mem x) :
    Rows (act .residual2) c.channels B T
        (runCommands dot (attendCommands c B T residual act param) mem)
        (fun b t ↦ (blockAt c param mem).attend c.channels c.numHeads (x b) t) ∧
      Agree (layerRegion c B T act) mem
        (runCommands dot (attendCommands c B T residual act param) mem) := by
  have hnormSub : ∀ i ∈ layernormRegion (act .ln1) (act .ln1Mean) (act .ln1Rstd) B T c.channels,
      i ∈ layerRegion c B T act := by
    rintro i (hi | hi | hi)
    · exact mem_layerRegion (a := .ln1) (by decide) hi
    · exact mem_layerRegion (a := .ln1Mean) (by decide) hi
    · exact mem_layerRegion (a := .ln1Rstd) (by decide) hi
  obtain ⟨hx₁, hm₁⟩ := h.norm_rows .ln1 .ln1Mean .ln1Rstd .ln1w .ln1b ⟨by decide, rfl⟩
    ⟨by decide, rfl⟩ ⟨by decide, rfl⟩ (by decide) rfl rfl (h.residual.mono le_rfl le_rfl hnormSub) hx
  have hm₁ := hm₁.mono hnormSub
  obtain ⟨hx₂, hm₂⟩ := h.dense_rows .qkv .ln1 .qkvw .qkvb ⟨by decide, rfl⟩ rfl (by decide) rfl rfl hx₁
  have hm₂ := hm₁.trans (hm₂.layer (by decide) rfl)
  obtain ⟨hx₃, hm₃⟩ := h.attention_rows hx₂
  have hm₃ := hm₂.trans hm₃
  obtain ⟨hx₄, hm₄⟩ := h.dense_rows .attproj .atty .attprojw .attprojb ⟨by decide, rfl⟩ rfl
    (by decide) rfl rfl hx₃
  have hm₄ := hm₃.trans (hm₄.layer (by decide) rfl)
  have hsub : ∀ i ∈ tensor (act .residual2) (B * T * c.channels), i ∈ layerRegion c B T act :=
    fun i hi ↦ mem_layerRegion (a := .residual2) (by decide) hi
  obtain ⟨hx₅, hm₅⟩ := residual_rows (h.residual.mono le_rfl le_rfl hsub)
    (h.acts .attproj .residual2 (by decide)) (hx.agree hm₄ h.residual) hx₄
  refine ⟨?_, hm₄.trans (hm₅.layer (a := .residual2) (by decide) rfl)⟩
  intro b hb t ht
  have hblk₁ := blockAt_agree h.params hm₁
  have hblk₃ := blockAt_agree h.params hm₃
  have hqkv := congrArg Block.qkv hblk₁
  have hproj := congrArg Block.attproj hblk₃
  have hrow := hx₅ b hb t ht
  simp only [blockAt] at hqkv hproj
  rw [hqkv, hproj] at hrow
  exact hrow

theorem mlp_rows (hy : Rows (act .residual2) c.channels B T mem y) :
    Rows (act .residual3) c.channels B T
        (runCommands dot (mlpCommands c B T act param) mem)
        (fun b t ↦ (blockAt c param mem).mlp (y b t)) ∧
      Agree (layerRegion c B T act) mem
        (runCommands dot (mlpCommands c B T act param) mem) := by
  have hfch : Separated (act .fch) (B * T * (4 * c.channels))
      (tensor (act .fchGelu) (B * T * (4 * c.channels))) := h.acts .fch .fchGelu (by decide)
  have hapart : ∀ a, a ≠ .residual2 → Separated (act .residual2) (B * T * c.channels)
      (tensor (act a) (c.layerActSize B T a)) := fun a ha ↦ h.acts .residual2 a ha.symm
  have hnorm : Separated (act .residual2) (B * T * c.channels)
      (layernormRegion (act .ln2) (act .ln2Mean) (act .ln2Rstd) B T c.channels) := by
    rintro i hi (hin | hin | hin)
    · exact hapart .ln2 (by decide) i hi hin
    · exact hapart .ln2Mean (by decide) i hi hin
    · exact hapart .ln2Rstd (by decide) i hi hin
  obtain ⟨hx₁, hm₁⟩ := h.norm_rows .ln2 .ln2Mean .ln2Rstd .ln2w .ln2b ⟨by decide, rfl⟩
    ⟨by decide, rfl⟩ ⟨by decide, rfl⟩ (by decide) rfl rfl hnorm hy
  have hy₁ := hy.agree hm₁ hnorm
  have hm₁ : Agree (layerRegion c B T act) mem _ :=
    hm₁.layer_norm ⟨by decide, rfl⟩ ⟨by decide, rfl⟩ ⟨by decide, rfl⟩
  obtain ⟨hx₂, hm₂⟩ := h.dense_rows .fch .ln2 .fcw .fcb ⟨by decide, rfl⟩ rfl (by decide) rfl rfl hx₁
  have hy₂ := hy₁.agree hm₂ (hapart .fch (by decide))
  have hm₂ := hm₁.trans (hm₂.layer (by decide) rfl)
  obtain ⟨hx₃, hm₃⟩ := gelu_rows hfch hx₂
  have hy₃ := hy₂.agree hm₃ (hapart .fchGelu (by decide))
  have hm₃ := hm₂.trans (hm₃.layer (a := .fchGelu) (by decide) rfl)
  obtain ⟨hx₄, hm₄⟩ := h.dense_rows .fcproj .fchGelu .fcprojw .fcprojb ⟨by decide, rfl⟩ rfl
    (by decide) rfl rfl hx₃
  have hy₄ := hy₃.agree hm₄ (hapart .fcproj (by decide))
  have hm₄ := hm₃.trans (hm₄.layer (by decide) rfl)
  obtain ⟨hx₅, hm₅⟩ := residual_rows (hapart .residual3 (by decide))
    (h.acts .fcproj .residual3 (by decide)) hy₄ hx₄
  have hassoc : B * T * 4 * c.channels = B * T * (4 * c.channels) := Nat.mul_assoc _ _ _
  simp only [mlpCommands, runCommands, List.foldl_cons, List.foldl_nil, Command.run, hassoc]
  refine ⟨?_, hm₄.trans (hm₅.layer (a := .residual3) (by decide) rfl)⟩
  intro b hb t ht
  have hblk₁ := blockAt_agree h.params hm₁
  have hblk₃ := blockAt_agree h.params hm₃
  have hfc := congrArg Block.fc hblk₁
  have hproj := congrArg Block.fcproj hblk₃
  have hrow := hx₅ b hb t ht
  simp only [blockAt] at hfc hproj
  rw [hfc, hproj] at hrow
  exact hrow

theorem separate_of_turn {a : MatmulArgs}
    (ha : .matmulForward a ∈ attendCommands (V := V) c B T residual act param ++
      mlpCommands c B T act param) : a.Separate := by
  simp only [attendCommands, mlpCommands, List.mem_append, List.mem_cons, reduceCtorEq, false_or,
    Command.matmulForward.injEq, List.not_mem_nil, or_false] at ha
  rcases ha with (rfl | rfl) | (rfl | rfl)
  · exact h.separate .qkv .ln1 .qkvw .qkvb ⟨by decide, rfl⟩ rfl (by decide) rfl rfl
  · exact h.separate .attproj .atty .attprojw .attprojb ⟨by decide, rfl⟩ rfl (by decide) rfl rfl
  · exact h.separate .fch .ln2 .fcw .fcb ⟨by decide, rfl⟩ rfl (by decide) rfl rfl
  · exact h.separate .fcproj .fchGelu .fcprojw .fcprojb ⟨by decide, rfl⟩ rfl (by decide) rfl rfl

end Turn

end OsWorkbench.Gpt
