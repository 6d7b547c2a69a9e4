import Mathlib.Data.List.Basic
import Mathlib.Order.Lattice

namespace OsWorkbench.Library

variable {α : Type*}

/-- The half-open ranges `[r.1, r.2)` follow one another from `lo` to `hi`. -/
def Tiles [LE α] (lo : α) : List (α × α) → α → Prop
  | [], hi => lo = hi
  | r :: rs, hi => r.1 = lo ∧ r.1 ≤ r.2 ∧ Tiles r.2 rs hi

namespace Tiles

section Preorder

variable [Preorder α] {lo mid hi : α} {rs ss : List (α × α)}

theorem le (h : Tiles lo rs hi) : lo ≤ hi := by
  induction rs generalizing lo with
  | nil => exact le_of_eq h
  | cons r rs ih =>
    obtain ⟨rfl, hle, hrest⟩ := h
    exact hle.trans (ih hrest)

theorem append (h : Tiles lo rs mid) (h' : Tiles mid ss hi) : Tiles lo (rs ++ ss) hi := by
  induction rs generalizing lo with
  | nil =>
    cases h
    exact h'
  | cons r rs ih =>
    obtain ⟨hlo, hle, hrest⟩ := h
    exact ⟨hlo, hle, ih hrest⟩

theorem singleton (h : lo ≤ hi) : Tiles lo [(lo, hi)] hi := ⟨rfl, h, rfl⟩

end Preorder

/-- The ranges leave no gap. -/
theorem exists_mem [LinearOrder α] {lo hi a : α} {rs : List (α × α)} (h : Tiles lo rs hi)
    (hlo : lo ≤ a) (hhi : a < hi) : ∃ r ∈ rs, r.1 ≤ a ∧ a < r.2 := by
  induction rs generalizing lo with
  | nil =>
    cases h
    exact absurd hhi (not_lt.mpr hlo)
  | cons r rs ih =>
    obtain ⟨rfl, -, hrest⟩ := h
    rcases lt_or_ge a r.2 with hin | hafter
    · exact ⟨r, List.mem_cons_self, hlo, hin⟩
    · obtain ⟨s, hs, hmem⟩ := ih hrest hafter
      exact ⟨s, List.mem_cons_of_mem _ hs, hmem⟩

end Tiles

end OsWorkbench.Library
