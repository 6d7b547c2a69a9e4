import OsWorkbench.Gpt.AttentionRows
import OsWorkbench.Gpt.Tensors

namespace OsWorkbench.Gpt

open Library Cell

variable {V : Type}

/-- What a command does without the workers. -/
def Command.run (value : Value V) : Command V → (ℕ → V) → ℕ → V
  | .matmulForward m => matmulLoop value m
  | .user f => f

def runCommands (value : Value V) (cmds : List (Command V)) (mem : ℕ → V) : ℕ → V :=
  cmds.foldl (fun mem cmd ↦ cmd.run value mem) mem

theorem runCommands_append (value : Value V) (cmds cmds' : List (Command V)) (mem : ℕ → V) :
    runCommands value (cmds ++ cmds') mem = runCommands value cmds' (runCommands value cmds mem) :=
  List.foldl_append

variable [Cell V] {c : Config} {B T b t : ℕ} {residual : ℕ} {act : Activation → ℕ}
  {param : Parameter → ℕ} {mem m : ℕ → V}

/-- The first half of a turn of the loop over the layers. -/
def attendCommands (c : Config) (B T residual : ℕ) (act : Activation → ℕ) (param : Parameter → ℕ) :
    List (Command V) :=
  [.user (layernormForward (act .ln1) (act .ln1Mean) (act .ln1Rstd) residual (param .ln1w)
      (param .ln1b) B T c.channels),
    .matmulForward ⟨act .qkv, act .ln1, param .qkvw, some (param .qkvb), B, T, c.channels,
      3 * c.channels⟩,
    .user (AttentionArgs.forward ⟨act .atty, act .preatt, act .att, act .qkv, B, T, c.channels,
      c.numHeads⟩),
    .matmulForward ⟨act .attproj, act .atty, param .attprojw, some (param .attprojb), B, T,
      c.channels, c.channels⟩,
    .user (residualForward (act .residual2) residual (act .attproj) (B * T * c.channels))]

def mlpCommands (c : Config) (B T : ℕ) (act : Activation → ℕ) (param : Parameter → ℕ) :
    List (Command V) :=
  [.user (layernormForward (act .ln2) (act .ln2Mean) (act .ln2Rstd) (act .residual2) (param .ln2w)
      (param .ln2b) B T c.channels),
    .matmulForward ⟨act .fch, act .ln2, param .fcw, some (param .fcb), B, T, c.channels,
      4 * c.channels⟩,
    .user (geluForward (act .fchGelu) (act .fch) (B * T * 4 * c.channels)),
    .matmulForward ⟨act .fcproj, act .fchGelu, param .fcprojw, some (param .fcprojb), B, T,
      4 * c.channels, c.channels⟩,
    .user (residualForward (act .residual3) (act .residual2) (act .fcproj) (B * T * c.channels))]

def layerResidual (c : Config) (B T : ℕ) (acts : Activation → ℕ) (l : ℕ) : ℕ :=
  if l = 0 then acts .encoded else acts .residual3 + (l - 1) * B * T * c.channels

/-- One turn of the loop over the layers. -/
def layerCommands (c : Config) (B T : ℕ) (params : Parameter → ℕ) (acts : Activation → ℕ) (l : ℕ) :
    List (Command V) :=
  attendCommands c B T (layerResidual c B T acts l) (c.layerAct B T acts l) (c.layerParam params l) ++
    mlpCommands c B T (c.layerAct B T acts l) (c.layerParam params l)

/-- The calls behind the loop over the layers. -/
def outputCommands (c : Config) (B T residual : ℕ) (params : Parameter → ℕ)
    (acts : Activation → ℕ) : List (Command V) :=
  [.user (layernormForward (acts .lnf) (acts .lnfMean) (acts .lnfRstd) residual (params .lnfw)
      (params .lnfb) B T c.channels),
    .matmulForward ⟨acts .logits, acts .lnf, params .wte, none, B, T, c.channels, c.vocabSize⟩,
    .user (softmaxForward (acts .probs) (acts .logits) B T c.vocabSize)]

/-- `gpt2_forward` once the tensors have their places; `cache` is `model->inputs`. -/
def gpt2Forward (c : Config) (params : Parameter → ℕ) (acts : Activation → ℕ)
    (inputs cache B T : ℕ) : List (Command V) :=
  [.user (fill (fun i mem ↦ mem (inputs + i)) cache (B * T)),
    .user (encoderForward (acts .encoded) inputs (params .wte) (params .wpe) B T c.channels)] ++
  (List.range c.numLayers).flatMap (layerCommands c B T params acts) ++
  outputCommands c B T (acts .residual3 + (c.numLayers - 1) * B * T * c.channels) params acts

section Weights

/-- The weights that `matmul_forward` reads. -/
def denseAt (mem : ℕ → V) (weight : ℕ) (bias : Option ℕ) (C OC : ℕ) : Dense V where
  weight := (List.range OC).map fun o ↦ slice mem (weight + o * C) C
  bias := bias.map fun p ↦ slice mem p OC

def normAt (mem : ℕ → V) (weight bias C : ℕ) : Norm V := ⟨slice mem weight C, slice mem bias C⟩

def blockAt (c : Config) (param : Parameter → ℕ) (mem : ℕ → V) : Block V where
  ln1 := normAt mem (param .ln1w) (param .ln1b) c.channels
  qkv := denseAt mem (param .qkvw) (some (param .qkvb)) c.channels (3 * c.channels)
  attproj := denseAt mem (param .attprojw) (some (param .attprojb)) c.channels c.channels
  ln2 := normAt mem (param .ln2w) (param .ln2b) c.channels
  fc := denseAt mem (param .fcw) (some (param .fcb)) c.channels (4 * c.channels)
  fcproj := denseAt mem (param .fcprojw) (some (param .fcprojb)) (4 * c.channels) c.channels

def weightsAt (c : Config) (params : Parameter → ℕ) (mem : ℕ → V) : Weights V where
  wte := (List.range c.vocabSize).map fun ix ↦ slice mem (params .wte + ix * c.channels) c.channels
  wpe := (List.range c.maxSeqLen).map fun t ↦ slice mem (params .wpe + t * c.channels) c.channels
  blocks := (List.range c.numLayers).map fun l ↦ blockAt c (c.layerParam params l) mem
  lnf := normAt mem (params .lnfw) (params .lnfb) c.channels

end Weights

section Matmul

variable {a : MatmulArgs}

theorem MatmulArgs.separate_of (hinp : Separated a.inp (a.B * a.T * a.C) a.outRange)
    (hweight : Separated a.weight (a.OC * a.C) a.outRange)
    (hbias : ∀ bias, a.bias = some bias → Separated bias a.OC a.outRange) : a.Separate := by
  rintro x (hx | hx | ⟨bias, he, hx⟩)
  · exact hinp x hx
  · exact hweight x hx
  · exact hbias bias he x hx

theorem calc_val_eq (mem : ℕ → V) (args : CalcArgs) {o : ℕ} (ho : o < args.OC) :
    args.val dot mem o = dot ((denseAt mem args.weight args.bias args.C args.OC).bias.bind (·[o]?))
      (slice mem args.inpBt args.C) (slice mem (args.weight + o * args.C) args.C) := by
  rw [CalcArgs.val, slice, slice]
  congr 1
  rw [denseAt]
  cases args.bias with
  | none => rfl
  | some bias => exact (getElem?_slice ho).symm

theorem matmulLoop_rows (h : a.Separate) (mem : ℕ → V) :
    (∀ b < a.B, ∀ t < a.T, slice (matmulLoop dot a mem) (a.out + b * a.T * a.OC + t * a.OC) a.OC =
      (denseAt mem a.weight a.bias a.C a.OC).apply
        (slice mem (a.inp + b * a.T * a.C + t * a.C) a.C)) ∧
      ∀ x, x ∉ a.outRange → matmulLoop dot a mem x = mem x := by
  have hprogress : (writes dot).Progress a.outRange a.jobs mem (matmulLoop dot a mem) (· ∈ a.jobs) :=
    matmulLoop_progress h mem
  refine ⟨?_, hprogress.outside⟩
  intro b hb t ht
  have hargs : a.calcArgs b t ∈ a.tasks := MatmulArgs.mem_tasks.mpr ⟨b, hb, t, ht, rfl⟩
  have hcell : ∀ o < a.OC, matmulLoop dot a mem (a.out + b * a.T * a.OC + t * a.OC + o) =
      (a.calcArgs b t).val dot mem o := fun o ho ↦ hprogress.written (a.calcArgs b t, o) ⟨hargs, ho⟩
  rw [slice_eq_map hcell, Dense.apply]
  apply List.ext_getElem
  · simp [denseAt]
  · intro o ho ho'
    have ho : o < a.OC := by simpa using ho
    simp only [List.getElem_map, List.getElem_range, List.getElem_mapIdx,
      calc_val_eq mem (a.calcArgs b t) ho]
    simp [denseAt, MatmulArgs.calcArgs]

end Matmul

end OsWorkbench.Gpt
