import Mathlib.Data.List.Basic
import Mathlib.Logic.Function.Basic

namespace OsWorkbench.Library

variable {ι : Type*} [DecidableEq ι] (sizes : ι → ℕ)

/-- Parts of one allocation, one behind the other from `it` on. -/
def pointParts : List ι → ℕ → (ι → ℕ) → ι → ℕ
  | [], _, ptrs => ptrs
  | i :: is, it, ptrs => pointParts is (it + sizes i) (Function.update ptrs i it)

def totalSize (parts : List ι) : ℕ := parts.foldl (fun n i ↦ n + sizes i) 0

variable {sizes} {parts : List ι} {it : ℕ} {ptrs : ι → ℕ} {i j : ι}

omit [DecidableEq ι] in
theorem foldl_add_eq (parts : List ι) (n : ℕ) :
    parts.foldl (fun n i ↦ n + sizes i) n = n + totalSize sizes parts := by
  induction parts generalizing n with
  | nil => rfl
  | cons i is ih =>
    rw [totalSize, List.foldl_cons, List.foldl_cons, ih, ih (0 + sizes i)]
    omega

omit [DecidableEq ι] in
theorem totalSize_cons (i : ι) (is : List ι) :
    totalSize sizes (i :: is) = sizes i + totalSize sizes is := by
  rw [totalSize, List.foldl_cons, foldl_add_eq, Nat.zero_add]

theorem pointParts_of_notMem (hi : i ∉ parts) : pointParts sizes parts it ptrs i = ptrs i := by
  induction parts generalizing it ptrs with
  | nil => rfl
  | cons j is ih =>
    obtain ⟨hne, hrest⟩ := not_or.mp (mt List.mem_cons.mpr hi)
    rw [pointParts, ih hrest, Function.update_of_ne hne]

theorem pointParts_bounds (hnodup : parts.Nodup) (hi : i ∈ parts) :
    it ≤ pointParts sizes parts it ptrs i ∧
      pointParts sizes parts it ptrs i + sizes i ≤ it + totalSize sizes parts := by
  induction parts generalizing it ptrs with
  | nil => cases hi
  | cons j is ih =>
    obtain ⟨hj, hrest⟩ := List.nodup_cons.mp hnodup
    rw [totalSize_cons, pointParts]
    rcases List.mem_cons.mp hi with rfl | hi
    · rw [pointParts_of_notMem hj, Function.update_self]
      omega
    · have hbounds : it + sizes j ≤ pointParts sizes is (it + sizes j) (Function.update ptrs j it) i ∧
          pointParts sizes is (it + sizes j) (Function.update ptrs j it) i + sizes i ≤
            it + sizes j + totalSize sizes is := ih hrest hi
      omega

/-- Different parts do not overlap. -/
theorem pointParts_apart (hnodup : parts.Nodup) (hi : i ∈ parts) (hj : j ∈ parts) (hne : i ≠ j) :
    pointParts sizes parts it ptrs i + sizes i ≤ pointParts sizes parts it ptrs j ∨
      pointParts sizes parts it ptrs j + sizes j ≤ pointParts sizes parts it ptrs i := by
  induction parts generalizing it ptrs with
  | nil => cases hi
  | cons k is ih =>
    obtain ⟨hk, hrest⟩ := List.nodup_cons.mp hnodup
    have hfirst : pointParts sizes is (it + sizes k) (Function.update ptrs k it) k = it := by
      rw [pointParts_of_notMem hk, Function.update_self]
    rw [pointParts]
    rcases List.mem_cons.mp hi with rfl | hi'
    · rcases List.mem_cons.mp hj with rfl | hj'
      · exact absurd rfl hne
      · left
        rw [hfirst]
        exact (pointParts_bounds hrest hj').1
    · rcases List.mem_cons.mp hj with rfl | hj'
      · right
        rw [hfirst]
        exact (pointParts_bounds hrest hi').1
      · exact ih hrest hi' hj'

end OsWorkbench.Library
