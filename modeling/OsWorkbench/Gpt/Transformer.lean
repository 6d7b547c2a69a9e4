import OsWorkbench.Gpt.Model

namespace OsWorkbench.Gpt

/-- `float` with the functions of math.h. Nothing is assumed of the operations. -/
class CFloat (V : Type) extends Zero V, One V, Add V, Sub V, Mul V, Div V, NatCast V where
  sqrtf : V → V
  expf : V → V
  tanhf : V → V
  lt : V → V → Bool
  eq : V → V → Bool
  /-- The literal `n / d`. -/
  lit : ℤ → ℕ → V
  /-- `2.0f / M_PI` -/
  twoDivPi : V

open CFloat

variable {V : Type} [CFloat V]

/-! The layers on the vector of one position. -/

def sum (x : List V) : V := x.foldl (· + ·) 0

def mean (x : List V) : V := sum x / (x.length : V)

def variance (x : List V) : V :=
  x.foldl (fun v a ↦ v + (a - mean x) * (a - mean x)) 0 / (x.length : V)

def rstd (x : List V) : V := 1 / sqrtf (variance x + lit 1 100000)

structure Norm (V : Type) where
  weight : List V
  bias : List V

def Norm.apply (ln : Norm V) (x : List V) : List V :=
  List.zipWith (· + ·) (List.zipWith (fun a w ↦ rstd x * (a - mean x) * w) x ln.weight) ln.bias

structure Dense (V : Type) where
  weight : List (List V)
  bias : Option (List V)

def Dense.apply (layer : Dense V) (x : List V) : List V :=
  layer.weight.mapIdx fun o wrow ↦ dot (layer.bias.bind (·[o]?)) x wrow

def gelu (x : V) : V :=
  lit 1 2 * x * (1 + tanhf (sqrtf twoDivPi * (x + lit 44715 1000000 * x * x * x)))

def maxval (x : List V) : V := x.foldl (fun m a ↦ if lt m a then a else m) (lit (-10000) 1)

def exps (x : List V) : List V := x.map fun a ↦ expf (a - maxval x)

def softmax (x : List V) : List V := (exps x).map (· / sum (exps x))

def attentionWeights (scores : List V) : List V :=
  (exps scores).map (· * if eq (sum (exps scores)) 0 then 0 else 1 / sum (exps scores))

def weightedSum (hs : ℕ) (att : List V) (values : List (List V)) : List V :=
  (att.zip values).foldl (fun acc p ↦ List.zipWith (fun o v ↦ o + p.1 * v) acc p.2)
    (List.replicate hs 0)

def scores (query : List V) (keys : List (List V)) : List V :=
  keys.map fun key ↦ dot none query key * (1 / sqrtf (query.length : V))

def head (query : List V) (keys values : List (List V)) : List V :=
  weightedSum query.length (attentionWeights (scores query keys)) values

def part (x : List V) (a n : ℕ) : List V := (x.drop a).take n

/-- A position looks at itself and the positions before it. -/
def attention (C NH : ℕ) (qkv : ℕ → List V) (t : ℕ) : List V :=
  (List.range NH).flatMap fun h ↦
    head (part (qkv t) (h * (C / NH)) (C / NH))
      ((List.range (t + 1)).map fun t2 ↦ part (qkv t2) (C + h * (C / NH)) (C / NH))
      ((List.range (t + 1)).map fun t2 ↦ part (qkv t2) (C * 2 + h * (C / NH)) (C / NH))

structure Block (V : Type) where
  ln1 : Norm V
  qkv : Dense V
  attproj : Dense V
  ln2 : Norm V
  fc : Dense V
  fcproj : Dense V

def add (x y : List V) : List V := List.zipWith (· + ·) x y

def Block.attend (blk : Block V) (C NH : ℕ) (x : ℕ → List V) (t : ℕ) : List V :=
  add (x t) (blk.attproj.apply (attention C NH (fun s ↦ blk.qkv.apply (blk.ln1.apply (x s))) t))

def Block.mlp (blk : Block V) (x : List V) : List V :=
  add x (blk.fcproj.apply ((blk.fc.apply (blk.ln2.apply x)).map gelu))

def Block.apply (C NH : ℕ) (x : ℕ → List V) (blk : Block V) (t : ℕ) : List V :=
  blk.mlp (blk.attend C NH x t)

structure Weights (V : Type) where
  wte : List (List V)
  wpe : List (List V)
  blocks : List (Block V)
  lnf : Norm V

variable (W : Weights V) {C NH t : ℕ} {x y : ℕ → List V} {tok tok' : ℕ → ℕ}

def Weights.embed (tok : ℕ → ℕ) (t : ℕ) : List V := add (W.wte.getD (tok t) []) (W.wpe.getD t [])

/-- The residual stream after all the blocks. -/
def Weights.stream (C NH : ℕ) (tok : ℕ → ℕ) : ℕ → List V :=
  W.blocks.foldl (Block.apply C NH) (W.embed tok)

def Weights.logits (C NH : ℕ) (tok : ℕ → ℕ) (t : ℕ) : List V :=
  Dense.apply ⟨W.wte, none⟩ (W.lnf.apply (W.stream C NH tok t))

def Weights.probs (C NH : ℕ) (tok : ℕ → ℕ) (t : ℕ) : List V := softmax (W.logits C NH tok t)

theorem attention_congr (h : ∀ s ≤ t, x s = y s) : attention C NH x t = attention C NH y t := by
  have hparts : ∀ a n, ((List.range (t + 1)).map fun s ↦ part (x s) a n) =
      (List.range (t + 1)).map fun s ↦ part (y s) a n := by
    intro a n
    apply List.map_congr_left
    intro s hs
    rw [h s (Nat.lt_succ_iff.mp (List.mem_range.mp hs))]
  rw [attention, attention]
  simp only [hparts, h t (Nat.le_refl t)]

theorem Block.apply_congr {blk : Block V} (h : ∀ s ≤ t, x s = y s) :
    blk.apply C NH x t = blk.apply C NH y t := by
  rw [Block.apply, Block.apply, Block.attend, Block.attend, h t (Nat.le_refl t),
    attention_congr fun s hs ↦ by rw [h s hs]]

theorem foldl_apply_congr {blocks : List (Block V)} (h : ∀ s ≤ t, x s = y s) :
    ∀ s ≤ t, blocks.foldl (Block.apply C NH) x s = blocks.foldl (Block.apply C NH) y s := by
  induction blocks generalizing x y with
  | nil => exact h
  | cons blk blocks ih =>
    apply ih
    intro s hs
    exact Block.apply_congr fun r hr ↦ h r (Nat.le_trans hr hs)

/-- No layer looks at later tokens. -/
theorem Weights.stream_congr (h : ∀ s ≤ t, tok s = tok' s) :
    W.stream C NH tok t = W.stream C NH tok' t :=
  foldl_apply_congr (fun s hs ↦ by rw [Weights.embed, Weights.embed, h s hs]) t (Nat.le_refl t)

theorem Weights.probs_congr (h : ∀ s ≤ t, tok s = tok' s) :
    W.probs C NH tok t = W.probs C NH tok' t := by
  rw [Weights.probs, Weights.probs, Weights.logits, Weights.logits, W.stream_congr h]

/-! Sampling. -/

def sampleLoop (coin cdf : V) (i : ℕ) : List V → Option ℕ
  | [] => none
  | p :: ps => if lt coin (cdf + p) then some i else sampleLoop coin (cdf + p) (i + 1) ps

/-- The token where the sums of the probabilities pass one half. -/
def sampleMult (probabilities : List V) : ℕ :=
  (sampleLoop (lit 1 2) 0 0 probabilities).getD (probabilities.length - 1)

/-- The text continued by `k` tokens. -/
def generate (W : Weights V) (C NH : ℕ) (prompt : List ℕ) : ℕ → List ℕ
  | 0 => prompt
  | k + 1 => generate W C NH prompt k ++
      [sampleMult (W.probs C NH ((generate W C NH prompt k).getD · 0) (prompt.length + k - 1))]

theorem sampleLoop_lt {coin : V} {ps : List V} {cdf : V} {i j : ℕ}
    (h : sampleLoop coin cdf i ps = some j) : i ≤ j ∧ j < i + ps.length := by
  induction ps generalizing cdf i with
  | nil => cases h
  | cons p ps ih =>
    rw [sampleLoop] at h
    rw [List.length_cons]
    split_ifs at h
    · cases h
      omega
    · have hrest := ih h
      omega

/-- The sampled token is in the vocabulary. -/
theorem sampleMult_lt {ps : List V} (h : ps ≠ []) : sampleMult ps < ps.length := by
  have hpos := List.length_pos_iff.mpr h
  rw [sampleMult]
  cases hloop : sampleLoop (lit 1 2) 0 0 ps with
  | none =>
    rw [Option.getD_none]
    omega
  | some j =>
    have hlt := sampleLoop_lt hloop
    rw [Option.getD_some]
    omega

section Generate

variable (C NH : ℕ) (prompt : List ℕ)

theorem length_probs (tok : ℕ → ℕ) (t : ℕ) : (W.probs C NH tok t).length = W.wte.length := by
  simp [Weights.probs, softmax, exps, Weights.logits, Dense.apply]

theorem generate_lt {vocab : ℕ} (hpos : 0 < vocab) (hwte : W.wte.length = vocab)
    (hprompt : ∀ x ∈ prompt, x < vocab) (k : ℕ) : ∀ x ∈ generate W C NH prompt k, x < vocab := by
  induction k with
  | zero => exact hprompt
  | succ k ih =>
    intro x hx
    rcases List.mem_append.mp hx with hx | hx
    · exact ih x hx
    · rw [List.mem_singleton.mp hx]
      have hlength := length_probs W C NH ((generate W C NH prompt k).getD · 0) (prompt.length + k - 1)
      have hne : W.probs C NH ((generate W C NH prompt k).getD · 0) (prompt.length + k - 1) ≠ [] := by
        apply List.ne_nil_of_length_pos
        omega
      have hlt := sampleMult_lt hne
      omega

end Generate

end OsWorkbench.Gpt
