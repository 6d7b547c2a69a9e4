import Mathlib.Data.List.Basic
import Mathlib.Logic.Function.Basic
import Mathlib.Data.Set.Lattice
import Mathlib.Order.CompletePartialOrder
import Mathlib.Order.Interval.Set.Defs

namespace OsWorkbench.Library

variable {V A : Type*} {mem mem' : ℕ → V} {p q n k i x : ℕ}

/-- The `n` cells from `p` on. -/
def slice (mem : ℕ → V) (p n : ℕ) : List V := (List.range n).map fun i ↦ mem (p + i)

@[simp] theorem length_slice : (slice mem p n).length = n := by simp [slice]

@[simp] theorem getElem_slice (h : i < (slice mem p n).length) : (slice mem p n)[i] = mem (p + i) := by
  simp [slice]

theorem getElem?_slice (h : i < n) : (slice mem p n)[i]? = some (mem (p + i)) := by
  rw [List.getElem?_eq_getElem (by rwa [length_slice]), getElem_slice]

theorem slice_congr (h : ∀ x ∈ Set.Ico p (p + n), mem x = mem' x) : slice mem p n = slice mem' p n :=
  List.map_congr_left fun i hi ↦ h _ ⟨Nat.le_add_right p i, by have := List.mem_range.mp hi; omega⟩

theorem slice_eq_map {f : ℕ → V} (h : ∀ i < n, mem (p + i) = f i) :
    slice mem p n = (List.range n).map f :=
  List.map_congr_left fun i hi ↦ h i (List.mem_range.mp hi)

theorem take_drop_slice (h : q + k ≤ n) : ((slice mem p n).drop q).take k = slice mem (p + q) k := by
  apply List.ext_getElem
  · simp only [List.length_take, List.length_drop, length_slice]
    omega
  · intro i hi hi'
    simp only [List.getElem_take, List.getElem_drop, getElem_slice, Nat.add_assoc]

theorem slice_append : slice mem p (n + k) = slice mem p n ++ slice mem (p + n) k := by
  rw [slice, List.range_add, List.map_append, List.map_map, slice, slice]
  congr 1
  exact List.map_congr_left fun i _ ↦ congrArg mem (Nat.add_assoc p n i).symm

/-- Equal parts of a range, one behind the other. -/
theorem slice_mul : slice mem p (n * k) = (List.range n).flatMap fun i ↦ slice mem (p + i * k) k := by
  induction n with
  | zero => simp [slice]
  | succ n ih =>
    rw [Nat.succ_mul, slice_append, ih, List.range_succ, List.flatMap_append,
      List.flatMap_singleton]

theorem map_slice {W : Type*} (f : V → W) :
    (slice mem p n).map f = (List.range n).map fun i ↦ f (mem (p + i)) := by
  rw [slice, List.map_map]
  rfl

theorem zipWith_slice (f : V → V → V) :
    List.zipWith f (slice mem p n) (slice mem q n) =
      (List.range n).map fun i ↦ f (mem (p + i)) (mem (q + i)) := by
  rw [slice, slice, List.zipWith_map, List.zipWith_self]

/-- A loop that stores a value at `p + i` in turn `i`. -/
def fill (g : ℕ → (ℕ → V) → V) (p n : ℕ) (mem : ℕ → V) : ℕ → V :=
  (List.range n).foldl (fun mem i ↦ Function.update mem (p + i) (g i mem)) mem

/-- The value of a turn does not depend on what the turns before it have stored. -/
def ReadsAhead (g : ℕ → (ℕ → V) → V) (p n : ℕ) (mem : ℕ → V) : Prop :=
  ∀ i < n, ∀ mem', (∀ x, x ∉ Set.Ico p (p + i) → mem' x = mem x) → g i mem' = g i mem

variable {g : ℕ → (ℕ → V) → V}

theorem fill_succ (g : ℕ → (ℕ → V) → V) (p n : ℕ) (mem : ℕ → V) :
    fill g p (n + 1) mem =
      Function.update (fill g p n mem) (p + n) (g n (fill g p n mem)) := by
  rw [fill, List.range_succ, List.foldl_concat, fill]

theorem fill_of_notMem (hx : x ∉ Set.Ico p (p + n)) : fill g p n mem x = mem x := by
  induction n with
  | zero => rfl
  | succ n ih =>
    rw [Set.mem_Ico] at hx
    rw [fill_succ, Function.update_of_ne (by omega), ih (by rw [Set.mem_Ico]; omega)]

theorem fill_self (h : ReadsAhead g p n mem) (hi : i < n) : fill g p n mem (p + i) = g i mem := by
  induction n with
  | zero => exact absurd hi (Nat.not_lt_zero i)
  | succ n ih =>
    rw [fill_succ]
    rcases Nat.lt_succ_iff_lt_or_eq.mp hi with hlt | rfl
    · rw [Function.update_of_ne (by omega), ih (fun j hj ↦ h j (by omega)) hlt]
    · rw [Function.update_self]
      exact h i hi _ fun x hx ↦ fill_of_notMem hx

theorem slice_fill (h : ReadsAhead g p n mem) :
    slice (fill g p n mem) p n = (List.range n).map fun i ↦ g i mem :=
  slice_eq_map fun _ hi ↦ fill_self h hi

theorem ReadsAhead.of_congr
    (h : ∀ i < n, ∀ mem', (∀ x, x ∉ Set.Ico p (p + n) → mem' x = mem x) → g i mem' = g i mem) :
    ReadsAhead g p n mem := by
  intro i hi mem' hmem
  apply h i hi mem'
  intro x hx
  apply hmem x
  intro hin
  exact hx ⟨hin.1, by have := hin.2; omega⟩

/-- The same loop with a running value. -/
def scanFill (step : A → V → A) (g : ℕ → (ℕ → V) → V) (p n : ℕ) (s : A × (ℕ → V)) : A × (ℕ → V) :=
  (List.range n).foldl
    (fun s i ↦ (step s.1 (g i s.2), Function.update s.2 (p + i) (g i s.2))) s

theorem scanFill_of_notMem {step : A → V → A} {s : A × (ℕ → V)} (hx : x ∉ Set.Ico p (p + n)) :
    (scanFill step g p n s).2 x = s.2 x := by
  induction n with
  | zero => rfl
  | succ n ih =>
    rw [Set.mem_Ico] at hx
    have hrest := ih (by rw [Set.mem_Ico]; omega)
    rw [scanFill] at hrest
    rw [scanFill, List.range_succ, List.foldl_concat, ← hrest]
    exact Function.update_of_ne (by omega) ..

theorem scanFill_eq {step : A → V → A} {a : A} (h : ReadsAhead g p n mem) :
    scanFill step g p n (a, mem) =
      (((List.range n).map fun i ↦ g i mem).foldl step a, fill g p n mem) := by
  induction n with
  | zero => rfl
  | succ n ih =>
    have hlast : g n (fill g p n mem) = g n mem := h n (Nat.lt_succ_self n) _ fun x hx ↦ fill_of_notMem hx
    have hrest := ih fun j hj ↦ h j (by omega)
    rw [scanFill] at hrest
    rw [scanFill, List.range_succ, List.foldl_concat, hrest, List.map_append, List.foldl_append,
      fill_succ, hlast]
    rfl

end OsWorkbench.Library
