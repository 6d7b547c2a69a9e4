import Mathlib.Data.List.Basic
import Mathlib.Data.Set.Defs

namespace OsWorkbench.Library

/-- Turns of a loop that write cells of their own in a region, and compute them from
the memory outside of it as it is in `m₀`. A turn may read back what it has written
itself. -/
structure Blocks {ι κ V : Type*} (f : ι → (κ → V) → κ → V) (cells : ι → Set κ) (region : Set κ)
    (m₀ : κ → V) (l : List ι) : Prop where
  frame : ∀ i ∈ l, ∀ (m : κ → V) (x : κ), x ∉ cells i → f i m x = m x
  inside : ∀ i ∈ l, ∀ x ∈ cells i, x ∈ region
  congr : ∀ i ∈ l, ∀ m : κ → V, (∀ x, x ∉ region → m x = m₀ x) → ∀ x ∈ cells i, f i m x = f i m₀ x
  apart : l.Pairwise fun i j ↦ ∀ x ∈ cells i, x ∉ cells j

namespace Blocks

variable {ι κ V : Type*} {f : ι → (κ → V) → κ → V} {cells : ι → Set κ} {region : Set κ} {l : List ι}
  {i : ι} {m₀ m : κ → V} {x : κ}

theorem tail (h : Blocks f cells region m₀ (i :: l)) : Blocks f cells region m₀ l where
  frame j hj := h.frame j (List.mem_cons_of_mem i hj)
  inside j hj := h.inside j (List.mem_cons_of_mem i hj)
  congr j hj := h.congr j (List.mem_cons_of_mem i hj)
  apart := h.apart.of_cons

theorem foldl_unwritten (h : Blocks f cells region m₀ l) (hx : ∀ i ∈ l, x ∉ cells i) :
    l.foldl (fun m i ↦ f i m) m x = m x := by
  induction l generalizing m with
  | nil => rfl
  | cons i l ih =>
    rw [List.foldl_cons, ih h.tail fun j hj ↦ hx j (List.mem_cons_of_mem i hj),
      h.frame i List.mem_cons_self m x (hx i List.mem_cons_self)]

theorem foldl_outside (h : Blocks f cells region m₀ l) (hx : x ∉ region) :
    l.foldl (fun m i ↦ f i m) m x = m x :=
  h.foldl_unwritten fun i hi hc ↦ hx (h.inside i hi x hc)

/-- Each turn does what it would have done as the first one. -/
theorem foldl_written (h : Blocks f cells region m₀ l) (hm : ∀ x, x ∉ region → m x = m₀ x)
    (hi : i ∈ l) (hx : x ∈ cells i) : l.foldl (fun m i ↦ f i m) m x = f i m₀ x := by
  induction l generalizing m with
  | nil => cases hi
  | cons j l ih =>
    rw [List.foldl_cons]
    rcases List.mem_cons.mp hi with rfl | hi'
    · rw [h.tail.foldl_unwritten fun k hk ↦ List.rel_of_pairwise_cons h.apart hk x hx]
      exact h.congr i hi m hm x hx
    · apply ih h.tail _ hi'
      intro y hy
      rw [h.frame j List.mem_cons_self m y fun hc ↦ hy (h.inside j List.mem_cons_self y hc), hm y hy]

end Blocks

end OsWorkbench.Library
