import OsWorkbench.Gpt.MatmulLoop
import OsWorkbench.Gpt.Transformer
import OsWorkbench.Library.Blocks
import OsWorkbench.Library.Grid
import OsWorkbench.Library.Segment

namespace OsWorkbench.Gpt

open Library CFloat

/-- A cell of four bytes holds a `float` or an `int`. -/
class Cell (V : Type) extends CFloat V where
  token : V → ℕ
  ofToken : ℕ → V
  token_ofToken : ∀ n, n < 2147483648 → token (ofToken n) = n

open Cell

variable {V : Type} {mem m : ℕ → V} {B T C b t x p q n k : ℕ}

/-- The loops over `b` and `t`. -/
def rowLoop (B T : ℕ) (body : ℕ → ℕ → (ℕ → V) → ℕ → V) (mem : ℕ → V) : ℕ → V :=
  (Grid.rowMajor B T Prod.mk).foldl (fun mem r ↦ body r.1 r.2 mem) mem

section Source

variable [Cell V]

def encoderRow (outBt wteIx wpeT C : ℕ) : (ℕ → V) → ℕ → V :=
  fill (fun i mem ↦ mem (wteIx + i) + mem (wpeT + i)) outBt C

def encoderForward (out inp wte wpe B T C : ℕ) : (ℕ → V) → ℕ → V :=
  rowLoop B T fun b t mem ↦
    encoderRow (out + b * T * C + t * C) (wte + token (mem (inp + (b * T + t))) * C) (wpe + t * C) C mem

def layernormRow (outBt meanBt rstdBt x weight bias C : ℕ) (mem : ℕ → V) : ℕ → V :=
  let m := (slice mem x C).foldl (· + ·) 0 / (C : V)
  let v := (slice mem x C).foldl (fun v a ↦ v + (a - m) * (a - m)) 0 / (C : V)
  let s := 1 / sqrtf (v + lit 1 100000)
  let normed :=
    fill (fun i mem ↦ s * (mem (x + i) - m) * mem (weight + i) + mem (bias + i)) outBt C mem
  Function.update (Function.update normed meanBt m) rstdBt s

def layernormForward (out mean rstd inp weight bias B T C : ℕ) : (ℕ → V) → ℕ → V :=
  rowLoop B T fun b t ↦
    layernormRow (out + b * T * C + t * C) (mean + (b * T + t)) (rstd + (b * T + t))
      (inp + b * T * C + t * C) weight bias C

def geluForward (out inp N : ℕ) : (ℕ → V) → ℕ → V :=
  fill (fun i mem ↦
    let x := mem (inp + i)
    let cube := lit 44715 1000000 * x * x * x
    lit 1 2 * x * (1 + tanhf (sqrtf twoDivPi * (x + cube)))) out N

def residualForward (out inp1 inp2 N : ℕ) : (ℕ → V) → ℕ → V :=
  fill (fun i mem ↦ mem (inp1 + i) + mem (inp2 + i)) out N

def softmaxRow (probsBt logitsBt vocab : ℕ) (mem : ℕ → V) : ℕ → V :=
  let maxval := (slice mem logitsBt vocab).foldl (fun m a ↦ if lt m a then a else m) (lit (-10000) 1)
  let s := scanFill (· + ·) (fun i mem ↦ expf (mem (logitsBt + i) - maxval)) probsBt vocab (0, mem)
  fill (fun i mem ↦ mem (probsBt + i) / s.1) probsBt vocab s.2

def softmaxForward (probs logits B T vocab : ℕ) : (ℕ → V) → ℕ → V :=
  rowLoop B T fun b t ↦
    softmaxRow (probs + b * T * vocab + t * vocab) (logits + b * T * vocab + t * vocab) vocab

end Source

/-- The cells of a tensor of `n` elements. -/
def tensor (p n : ℕ) : Set ℕ := Set.Ico p (p + n)

/-- The cells of row `(b, t)`. -/
def rowOf (p T C b t : ℕ) : Set ℕ := tensor (p + b * T * C + t * C) C

/-- The tensor is not written. -/
def Separated (p n : ℕ) (region : Set ℕ) : Prop := ∀ x ∈ tensor p n, x ∉ region

theorem mem_tensor : x ∈ tensor p n ↔ p ≤ x ∧ x < p + n := Iff.rfl

theorem row_eq (p T C b t : ℕ) : p + b * T * C + t * C = p + (b * T + t) * C := by ring

theorem row_end_le (hb : b < B) (ht : t < T) : (b * T + t) * C + C ≤ B * T * C := by
  have hle := Nat.mul_le_mul_right C (Nat.succ_le_of_lt (mul_add_lt hb ht))
  rwa [Nat.succ_mul] at hle

theorem row_bounds (hb : b < B) (ht : t < T) :
    p ≤ p + b * T * C + t * C ∧ p + b * T * C + t * C + C ≤ p + B * T * C := by
  have hend := row_end_le (C := C) hb ht
  rw [row_eq]
  exact ⟨Nat.le_add_right _ _, by omega⟩

/-- A part of a tensor of `k` parts. -/
theorem mem_of_part {i w : ℕ} (hi : i < k) (hx : x ∈ tensor (p + i * w) w) : x ∈ tensor p (k * w) := by
  have hend := Nat.mul_le_mul_right w (Nat.succ_le_of_lt hi)
  rw [Nat.succ_mul] at hend
  rw [mem_tensor] at hx ⊢
  omega

theorem part_inj {i j w : ℕ} (hx : x ∈ tensor (p + i * w) w) (hx' : x ∈ tensor (p + j * w) w) :
    i = j := by
  rw [mem_tensor] at hx hx'
  have hcell : i * w + (x - (p + i * w)) = j * w + (x - (p + j * w)) := by omega
  exact (mul_add_inj (by omega) (by omega) hcell).1

theorem rowOf_subset (hb : b < B) (ht : t < T) (hx : x ∈ rowOf p T C b t) :
    x ∈ tensor p (B * T * C) := by
  rw [rowOf, row_eq] at hx
  exact mem_of_part (mul_add_lt hb ht) hx

theorem rowOf_apart {b' t' : ℕ} (ht : t < T) (ht' : t' < T) (hne : (b, t) ≠ (b', t'))
    (hx : x ∈ rowOf p T C b t) : x ∉ rowOf p T C b' t' := by
  intro hx'
  rw [rowOf, row_eq] at hx hx'
  obtain ⟨rfl, rfl⟩ := mul_add_inj ht ht' (part_inj hx hx')
  exact hne rfl

theorem eq_of_slice_eq (h : slice mem p n = slice m p n) (hx : x ∈ tensor p n) : mem x = m x := by
  obtain ⟨hle, hlt⟩ := mem_tensor.mp hx
  have hget := congrArg (·[x - p]?) h
  simp only [getElem?_slice (show x - p < n by omega), Option.some.injEq] at hget
  rwa [Nat.add_sub_cancel' hle] at hget

theorem Separated.slice_eq {region : Set ℕ} (h : Separated p n region)
    (hm : ∀ x, x ∉ region → m x = mem x) (hq : p ≤ q) (hk : q + k ≤ p + n) :
    slice m q k = slice mem q k :=
  slice_congr fun x hx ↦ hm x (h x ⟨hq.trans hx.1, hx.2.trans_le hk⟩)

theorem Separated.eq {region : Set ℕ} (h : Separated p n region)
    (hm : ∀ x, x ∉ region → m x = mem x) (hk : k < n) : m (p + k) = mem (p + k) :=
  hm _ (h _ ⟨Nat.le_add_right p k, Nat.add_lt_add_left hk p⟩)

theorem Separated.mono {region region' : Set ℕ} (h : Separated p n region) (hq : p ≤ q)
    (hk : q + k ≤ p + n) (hsub : ∀ x ∈ region', x ∈ region) : Separated q k region' :=
  fun x hx hin ↦ h x ⟨hq.trans hx.1, hx.2.trans_le hk⟩ (hsub x hin)

section RowLoop

theorem rowLoop_blocks (body : ℕ → ℕ → (ℕ → V) → ℕ → V) (cells : ℕ → ℕ → Set ℕ) (region : Set ℕ)
    (mem : ℕ → V)
    (hframe : ∀ b t (m : ℕ → V) x, x ∉ cells b t → body b t m x = m x)
    (hinside : ∀ b < B, ∀ t < T, ∀ x ∈ cells b t, x ∈ region)
    (hcongr : ∀ b < B, ∀ t < T, ∀ m : ℕ → V, (∀ x, x ∉ region → m x = mem x) →
      ∀ x ∈ cells b t, body b t m x = body b t mem x)
    (hapart : ∀ b < B, ∀ t < T, ∀ b' < B, ∀ t' < T, (b, t) ≠ (b', t') →
      ∀ x ∈ cells b t, x ∉ cells b' t') :
    Blocks (fun r ↦ body r.1 r.2) (fun r ↦ cells r.1 r.2) region mem (Grid.rowMajor B T Prod.mk) := by
  have hmem : ∀ r ∈ Grid.rowMajor B T Prod.mk, r.1 < B ∧ r.2 < T := by
    intro r hr
    obtain ⟨b, hb, t, ht, rfl⟩ := Grid.mem_rowMajor.mp hr
    exact ⟨hb, ht⟩
  constructor
  · intro r _ m x
    exact hframe r.1 r.2 m x
  · intro r hr
    exact hinside r.1 (hmem r hr).1 r.2 (hmem r hr).2
  · intro r hr
    exact hcongr r.1 (hmem r hr).1 r.2 (hmem r hr).2
  · have hnodup : (Grid.rowMajor B T Prod.mk).Nodup :=
      Grid.nodup_rowMajor fun i j i' j' h ↦ Prod.mk.inj h
    apply List.Pairwise.imp_of_mem _ hnodup
    intro r r' hr hr' hne
    exact hapart r.1 (hmem r hr).1 r.2 (hmem r hr).2 r'.1 (hmem r' hr').1 r'.2 (hmem r' hr').2 hne

/-- The rule for a loop that writes one row in each turn. -/
theorem rowLoop_rows {body : ℕ → ℕ → (ℕ → V) → ℕ → V} {row : ℕ → ℕ → List V}
    (hframe : ∀ b t (m : ℕ → V) x, x ∉ rowOf p T C b t → body b t m x = m x)
    (hrow : ∀ b < B, ∀ t < T, ∀ m : ℕ → V, (∀ x, x ∉ tensor p (B * T * C) → m x = mem x) →
      slice (body b t m) (p + b * T * C + t * C) C = row b t) :
    (∀ b < B, ∀ t < T, slice (rowLoop B T body mem) (p + b * T * C + t * C) C = row b t) ∧
      ∀ x, x ∉ tensor p (B * T * C) → rowLoop B T body mem x = mem x := by
  have hblocks : Blocks (fun r ↦ body r.1 r.2) (fun r ↦ rowOf p T C r.1 r.2)
      (tensor p (B * T * C)) mem (Grid.rowMajor B T Prod.mk) := by
    apply rowLoop_blocks body (rowOf p T C) _ mem hframe
    · intro b hb t ht x hx
      exact rowOf_subset hb ht hx
    · intro b hb t ht m hm x hx
      apply eq_of_slice_eq _ hx
      rw [hrow b hb t ht m hm, hrow b hb t ht mem fun _ _ ↦ rfl]
    · intro b _ t ht b' _ t' ht' hne x hx
      exact rowOf_apart ht ht' hne hx
  refine ⟨?_, ?_⟩
  · intro b hb t ht
    rw [← hrow b hb t ht mem fun _ _ ↦ rfl]
    apply slice_congr
    intro x hx
    exact hblocks.foldl_written (fun _ _ ↦ rfl) (i := (b, t))
      (Grid.mem_rowMajor.mpr ⟨b, hb, t, ht, rfl⟩) hx
  · intro x hx
    exact hblocks.foldl_outside hx

end RowLoop

end OsWorkbench.Gpt
