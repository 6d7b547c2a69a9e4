import OsWorkbench.Gpt.Layers
import OsWorkbench.Library.Allocation

namespace OsWorkbench.Gpt

open Library

/-- The fields of `GPT2Config`. -/
structure Config where
  maxSeqLen : ℕ
  vocabSize : ℕ
  numLayers : ℕ
  numHeads : ℕ
  channels : ℕ
  deriving DecidableEq, Repr

/-- The fields of `ParameterTensors`. -/
inductive Parameter
  | wte | wpe | ln1w | ln1b | qkvw | qkvb | attprojw | attprojb
  | ln2w | ln2b | fcw | fcb | fcprojw | fcprojb | lnfw | lnfb
  deriving DecidableEq, Repr

/-- The fields of `ActivationTensors`. -/
inductive Activation
  | encoded | ln1 | ln1Mean | ln1Rstd | qkv | atty | preatt | att | attproj | residual2
  | ln2 | ln2Mean | ln2Rstd | fch | fchGelu | fcproj | residual3
  | lnf | lnfMean | lnfRstd | logits | probs | losses
  deriving DecidableEq, Repr

/-- `ptrs` in `malloc_and_point_parameters`. -/
def Parameter.all : List Parameter :=
  [wte, wpe, ln1w, ln1b, qkvw, qkvb, attprojw, attprojb, ln2w, ln2b, fcw, fcb, fcprojw, fcprojb,
    lnfw, lnfb]

/-- `ptrs` in `malloc_and_point_activations`. -/
def Activation.all : List Activation :=
  [encoded, ln1, ln1Mean, ln1Rstd, qkv, atty, preatt, att, attproj, residual2, ln2, ln2Mean, ln2Rstd,
    fch, fchGelu, fcproj, residual3, lnf, lnfMean, lnfRstd, logits, probs, losses]

theorem Parameter.mem_all (p : Parameter) : p ∈ Parameter.all := by cases p <;> decide

theorem Activation.mem_all (a : Activation) : a ∈ Activation.all := by cases a <;> decide

theorem Parameter.nodup_all : Parameter.all.Nodup := by decide

theorem Activation.nodup_all : Activation.all.Nodup := by decide

namespace Config

variable (c : Config)

def paramSizes : Parameter → ℕ
  | .wte => c.vocabSize * c.channels
  | .wpe => c.maxSeqLen * c.channels
  | .ln1w => c.numLayers * c.channels
  | .ln1b => c.numLayers * c.channels
  | .qkvw => c.numLayers * (3 * c.channels) * c.channels
  | .qkvb => c.numLayers * (3 * c.channels)
  | .attprojw => c.numLayers * c.channels * c.channels
  | .attprojb => c.numLayers * c.channels
  | .ln2w => c.numLayers * c.channels
  | .ln2b => c.numLayers * c.channels
  | .fcw => c.numLayers * (4 * c.channels) * c.channels
  | .fcb => c.numLayers * (4 * c.channels)
  | .fcprojw => c.numLayers * c.channels * (4 * c.channels)
  | .fcprojb => c.numLayers * c.channels
  | .lnfw => c.channels
  | .lnfb => c.channels

def actSizes (B T : ℕ) : Activation → ℕ
  | .encoded => B * T * c.channels
  | .ln1 => c.numLayers * B * T * c.channels
  | .ln1Mean => c.numLayers * B * T
  | .ln1Rstd => c.numLayers * B * T
  | .qkv => c.numLayers * B * T * 3 * c.channels
  | .atty => c.numLayers * B * T * c.channels
  | .preatt => c.numLayers * B * c.numHeads * T * T
  | .att => c.numLayers * B * c.numHeads * T * T
  | .attproj => c.numLayers * B * T * c.channels
  | .residual2 => c.numLayers * B * T * c.channels
  | .ln2 => c.numLayers * B * T * c.channels
  | .ln2Mean => c.numLayers * B * T
  | .ln2Rstd => c.numLayers * B * T
  | .fch => c.numLayers * B * T * 4 * c.channels
  | .fchGelu => c.numLayers * B * T * 4 * c.channels
  | .fcproj => c.numLayers * B * T * c.channels
  | .residual3 => c.numLayers * B * T * c.channels
  | .lnf => B * T * c.channels
  | .lnfMean => B * T
  | .lnfRstd => B * T
  | .logits => B * T * c.vocabSize
  | .probs => B * T * c.vocabSize
  | .losses => B * T

def mallocAndPointParameters (paramsMemory : ℕ) : Parameter → ℕ :=
  pointParts c.paramSizes Parameter.all paramsMemory fun _ ↦ 0

def mallocAndPointActivations (B T actsMemory : ℕ) : Activation → ℕ :=
  pointParts (c.actSizes B T) Activation.all actsMemory fun _ ↦ 0

/-- The pointers `l_ln1w` to `l_fcprojb` of turn `l`. -/
def layerParam (params : Parameter → ℕ) (l : ℕ) : Parameter → ℕ
  | .ln1w => params .ln1w + l * c.channels
  | .ln1b => params .ln1b + l * c.channels
  | .qkvw => params .qkvw + l * 3 * c.channels * c.channels
  | .qkvb => params .qkvb + l * 3 * c.channels
  | .attprojw => params .attprojw + l * c.channels * c.channels
  | .attprojb => params .attprojb + l * c.channels
  | .ln2w => params .ln2w + l * c.channels
  | .ln2b => params .ln2b + l * c.channels
  | .fcw => params .fcw + l * 4 * c.channels * c.channels
  | .fcb => params .fcb + l * 4 * c.channels
  | .fcprojw => params .fcprojw + l * c.channels * 4 * c.channels
  | .fcprojb => params .fcprojb + l * c.channels
  | p => params p

/-- The pointers `l_ln1` to `l_residual3` of turn `l`. -/
def layerAct (B T : ℕ) (acts : Activation → ℕ) (l : ℕ) : Activation → ℕ
  | .ln1 => acts .ln1 + l * B * T * c.channels
  | .ln1Mean => acts .ln1Mean + l * B * T
  | .ln1Rstd => acts .ln1Rstd + l * B * T
  | .qkv => acts .qkv + l * B * T * 3 * c.channels
  | .atty => acts .atty + l * B * T * c.channels
  | .preatt => acts .preatt + l * B * c.numHeads * T * T
  | .att => acts .att + l * B * c.numHeads * T * T
  | .attproj => acts .attproj + l * B * T * c.channels
  | .residual2 => acts .residual2 + l * B * T * c.channels
  | .ln2 => acts .ln2 + l * B * T * c.channels
  | .ln2Mean => acts .ln2Mean + l * B * T
  | .ln2Rstd => acts .ln2Rstd + l * B * T
  | .fch => acts .fch + l * B * T * 4 * c.channels
  | .fchGelu => acts .fchGelu + l * B * T * 4 * c.channels
  | .fcproj => acts .fcproj + l * B * T * c.channels
  | .residual3 => acts .residual3 + l * B * T * c.channels
  | a => acts a

/-- The elements of a parameter that one turn uses. -/
def layerParamSize : Parameter → ℕ
  | .wte => c.vocabSize * c.channels
  | .wpe => c.maxSeqLen * c.channels
  | .qkvw => 3 * c.channels * c.channels
  | .qkvb => 3 * c.channels
  | .attprojw => c.channels * c.channels
  | .fcw => 4 * c.channels * c.channels
  | .fcb => 4 * c.channels
  | .fcprojw => c.channels * (4 * c.channels)
  | _ => c.channels

/-- The elements of an activation that one turn writes. -/
def layerActSize (B T : ℕ) : Activation → ℕ
  | .ln1Mean => B * T
  | .ln1Rstd => B * T
  | .qkv => B * T * (3 * c.channels)
  | .preatt => B * c.numHeads * T * T
  | .att => B * c.numHeads * T * T
  | .ln2Mean => B * T
  | .ln2Rstd => B * T
  | .fch => B * T * (4 * c.channels)
  | .fchGelu => B * T * (4 * c.channels)
  | .lnfMean => B * T
  | .lnfRstd => B * T
  | .logits => B * T * c.vocabSize
  | .probs => B * T * c.vocabSize
  | .losses => B * T
  | _ => B * T * c.channels

variable {c} {B T l x : ℕ} {params : Parameter → ℕ} {acts : Activation → ℕ}

/-- The pointers of a turn stay in their tensors. -/
theorem mem_of_layerParam (hl : l < c.numLayers) (p : Parameter)
    (hx : x ∈ tensor (c.layerParam params l p) (c.layerParamSize p)) :
    x ∈ tensor (params p) (c.paramSizes p) := by
  cases p
  case wte => exact hx
  case wpe => exact hx
  case lnfw => exact hx
  case lnfb => exact hx
  all_goals
    simp only [layerParam, layerParamSize, paramSizes, Nat.mul_assoc] at hx ⊢
    exact mem_of_part hl hx

theorem mem_of_layerAct (hl : l < c.numLayers) (a : Activation)
    (hx : x ∈ tensor (c.layerAct B T acts l a) (c.layerActSize B T a)) :
    x ∈ tensor (acts a) (c.actSizes B T a) := by
  cases a
  case encoded => exact hx
  case lnf => exact hx
  case lnfMean => exact hx
  case lnfRstd => exact hx
  case logits => exact hx
  case probs => exact hx
  case losses => exact hx
  all_goals
    simp only [layerAct, layerActSize, actSizes, Nat.mul_assoc] at hx ⊢
    exact mem_of_part hl hx

def paramsRegion (c : Config) (paramsMemory : ℕ) : Set ℕ :=
  tensor paramsMemory (totalSize c.paramSizes Parameter.all)

def actsRegion (c : Config) (B T actsMemory : ℕ) : Set ℕ :=
  tensor actsMemory (totalSize (c.actSizes B T) Activation.all)

theorem mem_paramsRegion {paramsMemory : ℕ} (p : Parameter)
    (hx : x ∈ tensor (c.mallocAndPointParameters paramsMemory p) (c.paramSizes p)) :
    x ∈ c.paramsRegion paramsMemory := by
  have hbounds : paramsMemory ≤ c.mallocAndPointParameters paramsMemory p ∧
      c.mallocAndPointParameters paramsMemory p + c.paramSizes p ≤
        paramsMemory + totalSize c.paramSizes Parameter.all :=
    pointParts_bounds Parameter.nodup_all p.mem_all
  exact ⟨hbounds.1.trans hx.1, hx.2.trans_le hbounds.2⟩

theorem mem_actsRegion {actsMemory : ℕ} (a : Activation)
    (hx : x ∈ tensor (c.mallocAndPointActivations B T actsMemory a) (c.actSizes B T a)) :
    x ∈ c.actsRegion B T actsMemory := by
  have hbounds : actsMemory ≤ c.mallocAndPointActivations B T actsMemory a ∧
      c.mallocAndPointActivations B T actsMemory a + c.actSizes B T a ≤
        actsMemory + totalSize (c.actSizes B T) Activation.all :=
    pointParts_bounds Activation.nodup_all a.mem_all
  exact ⟨hbounds.1.trans hx.1, hx.2.trans_le hbounds.2⟩

/-- Two activations never overlap. -/
theorem activations_apart {actsMemory : ℕ} {a a' : Activation} (hne : a ≠ a') :
    Separated (c.mallocAndPointActivations B T actsMemory a) (c.actSizes B T a)
      (tensor (c.mallocAndPointActivations B T actsMemory a') (c.actSizes B T a')) := by
  intro x hx hx'
  have hapart : c.mallocAndPointActivations B T actsMemory a + c.actSizes B T a ≤
        c.mallocAndPointActivations B T actsMemory a' ∨
      c.mallocAndPointActivations B T actsMemory a' + c.actSizes B T a' ≤
        c.mallocAndPointActivations B T actsMemory a :=
    pointParts_apart Activation.nodup_all a.mem_all a'.mem_all hne
  rw [mem_tensor] at hx hx'
  omega

end Config

end OsWorkbench.Gpt
