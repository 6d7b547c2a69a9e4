import Mathlib.Data.List.Basic
import Mathlib.Data.List.Nodup

namespace OsWorkbench.Library.Grid

variable {α : Type*} {rows cols : ℕ}

/-- The entries of a table row by row. -/
def rowMajor (rows cols : ℕ) (entry : ℕ → ℕ → α) : List α :=
  (List.range rows).flatMap fun i ↦ (List.range cols).map (entry i)

theorem rowMajor_succ (rows cols : ℕ) (entry : ℕ → ℕ → α) :
    rowMajor (rows + 1) cols entry =
      rowMajor rows cols entry ++ (List.range cols).map (entry rows) := by
  rw [rowMajor, List.range_succ, List.flatMap_append, List.flatMap_singleton, rowMajor]

theorem length_rowMajor (rows cols : ℕ) (entry : ℕ → ℕ → α) :
    (rowMajor rows cols entry).length = rows * cols := by
  induction rows with
  | zero => simp [rowMajor]
  | succ rows ih =>
    rw [rowMajor_succ, List.length_append, ih, List.length_map, List.length_range, Nat.succ_mul]

theorem getElem?_rowMajor {entry : ℕ → ℕ → α} {i j : ℕ} (hi : i < rows) (hj : j < cols) :
    (rowMajor rows cols entry)[i * cols + j]? = some (entry i j) := by
  induction rows with
  | zero => exact absurd hi (Nat.not_lt_zero i)
  | succ rows ih =>
    rw [rowMajor_succ]
    rcases Nat.lt_succ_iff_lt_or_eq.mp hi with hlt | rfl
    · have hindex : i * cols + j < rows * cols := by
        calc
          i * cols + j < i * cols + cols := Nat.add_lt_add_left hj _
          _ = (i + 1) * cols := (Nat.succ_mul i cols).symm
          _ ≤ rows * cols := Nat.mul_le_mul_right cols hlt
      rw [List.getElem?_append_left (by rwa [length_rowMajor]), ih hlt]
    · rw [List.getElem?_append_right (by rw [length_rowMajor]; exact Nat.le_add_right _ _),
        length_rowMajor, Nat.add_sub_cancel_left]
      simp [hj]

theorem mem_rowMajor {entry : ℕ → ℕ → α} {a : α} :
    a ∈ rowMajor rows cols entry ↔ ∃ i < rows, ∃ j < cols, entry i j = a := by
  simp [rowMajor]

theorem nodup_rowMajor {entry : ℕ → ℕ → α}
    (hinj : ∀ i j i' j', entry i j = entry i' j' → i = i' ∧ j = j') :
    (rowMajor rows cols entry).Nodup := by
  rw [rowMajor, List.nodup_flatMap]
  constructor
  · intro i _
    exact List.nodup_range.map fun j j' h ↦ (hinj i j i j' h).2
  · apply List.nodup_range.imp
    intro i i' hne
    rw [Function.onFun_apply, List.disjoint_left]
    intro a ha ha'
    obtain ⟨j, -, rfl⟩ := List.mem_map.mp ha
    obtain ⟨j', -, h⟩ := List.mem_map.mp ha'
    exact hne (hinj _ _ _ _ h).1.symm

theorem map_rowMajor {β : Type*} (f : α → β) (entry : ℕ → ℕ → α) :
    (rowMajor rows cols entry).map f = rowMajor rows cols fun i j ↦ f (entry i j) := by
  rw [rowMajor, List.map_flatMap, rowMajor]
  simp only [List.map_map]
  rfl

/-- A scaled coordinate stays inside. -/
theorem scaled_lt {n w x : ℕ} (hx : x < w) (hn : 0 < n) : x * n / w < n := by
  apply Nat.div_lt_of_lt_mul
  exact Nat.mul_lt_mul_of_pos_right hx hn

/-- Scaling up leaves no coordinate out. -/
theorem exists_scaled {n w i : ℕ} (h : n ≤ w) (hi : i < n) : ∃ x < w, x * n / w = i := by
  -- the first `x` with `i * w ≤ x * n`
  obtain ⟨x, hx⟩ : ∃ x, x = (i * w + (n - 1)) / n := ⟨_, rfl⟩
  have hdiv : x * n + (i * w + (n - 1)) % n = i * w + (n - 1) := by
    rw [hx, Nat.mul_comm]
    exact Nat.div_add_mod _ _
  have hmod : (i * w + (n - 1)) % n < n := Nat.mod_lt _ (Nat.zero_lt_of_lt hi)
  have hlow : i * w ≤ x * n := by omega
  have hhigh : x * n < (i + 1) * w := by
    rw [Nat.succ_mul]
    omega
  refine ⟨x, ?_, Nat.div_eq_of_lt_le hlow hhigh⟩
  have hend : x * n < w * n := by
    calc
      x * n < (i + 1) * w := hhigh
      _ ≤ n * w := Nat.mul_le_mul_right w hi
      _ = w * n := Nat.mul_comm n w
  exact Nat.lt_of_mul_lt_mul_right hend

end OsWorkbench.Library.Grid
