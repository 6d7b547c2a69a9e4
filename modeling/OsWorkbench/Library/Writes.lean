import Mathlib.Logic.Function.Basic
import Mathlib.Data.Set.Defs

namespace OsWorkbench.Library

/-- Jobs that write one cell each, with a value computed from the memory. -/
structure Writes (ι κ V : Type) where
  cell : ι → κ
  val : ι → (κ → V) → V

namespace Writes

variable {ι κ V : Type} (W : Writes ι κ V) (region : Set κ) (jobs : Set ι)

/-- The jobs write different cells of a region that none of them reads. -/
structure Independent : Prop where
  cell_mem : ∀ i ∈ jobs, W.cell i ∈ region
  cell_inj : ∀ i ∈ jobs, ∀ j ∈ jobs, W.cell i = W.cell j → i = j
  val_congr : ∀ i ∈ jobs, ∀ m m' : κ → V, (∀ x, x ∉ region → m x = m' x) → W.val i m = W.val i m'

/-- `m` is the memory `m₀` with some of the jobs done. -/
structure Progress (m₀ m : κ → V) (done : ι → Prop) : Prop where
  outside : ∀ x, x ∉ region → m x = m₀ x
  mem_jobs : ∀ i, done i → i ∈ jobs
  written : ∀ i, done i → m (W.cell i) = W.val i m₀

variable {W region jobs} {m₀ m m' : κ → V} {done done' : ι → Prop} {i : ι}

theorem Progress.start (W : Writes ι κ V) (region : Set κ) (jobs : Set ι) (m₀ : κ → V) :
    W.Progress region jobs m₀ m₀ (fun _ ↦ False) :=
  ⟨fun _ _ ↦ rfl, fun _ h ↦ h.elim, fun _ h ↦ h.elim⟩

theorem Progress.mono (h : W.Progress region jobs m₀ m done) (hsub : ∀ i, done' i → done i) :
    W.Progress region jobs m₀ m done' :=
  ⟨h.outside, fun i hi ↦ h.mem_jobs i (hsub i hi), fun i hi ↦ h.written i (hsub i hi)⟩

/-- Where the region is written in full, the order of the jobs does not matter. -/
theorem Progress.eq (h : W.Progress region jobs m₀ m done)
    (h' : W.Progress region jobs m₀ m' done')
    (hcover : ∀ x ∈ region, ∃ i, done i ∧ done' i ∧ W.cell i = x) : m = m' := by
  funext x
  by_cases hx : x ∈ region
  · obtain ⟨i, hi, hi', rfl⟩ := hcover x hx
    rw [h.written i hi, h'.written i hi']
  · rw [h.outside x hx, h'.outside x hx]

variable [DecidableEq κ]

def write (W : Writes ι κ V) (m : κ → V) (i : ι) : κ → V :=
  Function.update m (W.cell i) (W.val i m)

theorem Progress.write (hw : W.Independent region jobs) (h : W.Progress region jobs m₀ m done)
    (hi : i ∈ jobs) : W.Progress region jobs m₀ (W.write m i) (fun j ↦ j = i ∨ done j) := by
  have hval : W.val i m = W.val i m₀ := hw.val_congr i hi m m₀ h.outside
  refine ⟨fun x hx ↦ ?_, fun j hj ↦ ?_, fun j hj ↦ ?_⟩
  · have hne : x ≠ W.cell i := fun he ↦ hx (he ▸ hw.cell_mem i hi)
    rw [Writes.write, Function.update_of_ne hne, h.outside x hx]
  · rcases hj with rfl | hj
    · exact hi
    · exact h.mem_jobs j hj
  · by_cases hji : j = i
    · rw [hji, Writes.write, Function.update_self, hval]
    · have hj' := hj.resolve_left hji
      have hne : W.cell j ≠ W.cell i := fun he ↦ hji (hw.cell_inj j (h.mem_jobs j hj') i hi he)
      rw [Writes.write, Function.update_of_ne hne, h.written j hj']

theorem Progress.foldl (hw : W.Independent region jobs) {l : List ι} (hl : ∀ i ∈ l, i ∈ jobs)
    (h : W.Progress region jobs m₀ m done) :
    W.Progress region jobs m₀ (l.foldl W.write m) (fun j ↦ j ∈ l ∨ done j) := by
  induction l generalizing m done with
  | nil => exact h.mono fun j hj ↦ hj.resolve_left List.not_mem_nil
  | cons i l ih =>
    obtain ⟨hi, hrest⟩ := List.forall_mem_cons.mp hl
    refine (ih hrest (h.write hw hi)).mono fun j hj ↦ ?_
    rw [List.mem_cons] at hj
    rcases hj with (hj | hj) | hj
    · exact .inr (.inl hj)
    · exact .inl hj
    · exact .inr (.inr hj)

end Writes

section Fold

variable {ι κ V : Type*} [DecidableEq κ] {cell : ι → κ} {val : ι → (κ → V) → V} {region : Set κ}
  {m₀ m : κ → V} {g : κ → V} {l : List ι}

open Classical in
/-- A loop that writes cells of a region with values that depend on the cell only. -/
theorem foldl_update (hcell : ∀ i ∈ l, cell i ∈ region)
    (hval : ∀ i ∈ l, ∀ m, (∀ x, x ∉ region → m x = m₀ x) → val i m = g (cell i))
    (hm : ∀ x, x ∉ region → m x = m₀ x) (x : κ) :
    l.foldl (fun m i ↦ Function.update m (cell i) (val i m)) m x =
      if ∃ i ∈ l, cell i = x then g x else m x := by
  induction l generalizing m with
  | nil => simp
  | cons i l ih =>
    have hwritten : ∀ y, y ∉ region → Function.update m (cell i) (val i m) y = m₀ y := by
      intro y hy
      have hne : y ≠ cell i := fun h ↦ hy (h ▸ hcell i List.mem_cons_self)
      rw [Function.update_of_ne hne, hm y hy]
    rw [List.foldl_cons, ih (fun j hj ↦ hcell j (List.mem_cons_of_mem i hj))
      (fun j hj ↦ hval j (List.mem_cons_of_mem i hj)) hwritten]
    by_cases hrest : ∃ j ∈ l, cell j = x
    · have hsome : ∃ j ∈ i :: l, cell j = x := by
        obtain ⟨j, hj, hx⟩ := hrest
        exact ⟨j, List.mem_cons_of_mem i hj, hx⟩
      rw [if_pos hrest, if_pos hsome]
    · rw [if_neg hrest]
      by_cases hx : cell i = x
      · subst hx
        rw [Function.update_self, hval i List.mem_cons_self m hm, if_pos ⟨i, List.mem_cons_self, rfl⟩]
      · have hnone : ¬∃ j ∈ i :: l, cell j = x := by
          intro h
          obtain ⟨j, hj, hjx⟩ := h
          rcases List.mem_cons.mp hj with rfl | hj
          · exact hx hjx
          · exact hrest ⟨j, hj, hjx⟩
        rw [Function.update_of_ne (Ne.symm hx), if_neg hnone]

end Fold

end OsWorkbench.Library
