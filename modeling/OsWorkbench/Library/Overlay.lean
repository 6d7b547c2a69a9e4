import Mathlib.Logic.Function.Basic
import Mathlib.Data.List.Range

namespace OsWorkbench.Library

variable {V : Type*}

/-- The memory `m` with `src` in the cells from `lo` below `hi`. -/
def overlay (lo hi : ℕ) (src m : ℕ → V) : ℕ → V :=
  fun x ↦ if lo ≤ x ∧ x < hi then src (x - lo) else m x

variable {lo mid hi x : ℕ} {src m : ℕ → V}

theorem overlay_inside (hlo : lo ≤ x) (hhi : x < hi) : overlay lo hi src m x = src (x - lo) :=
  if_pos ⟨hlo, hhi⟩

theorem overlay_outside (h : ¬ (lo ≤ x ∧ x < hi)) : overlay lo hi src m x = m x := if_neg h

theorem overlay_empty (h : hi ≤ lo) : overlay lo hi src m = m := by
  funext x
  exact overlay_outside (by omega)

/-- Neighbouring pieces of one source make one overlay. -/
theorem overlay_overlay (hlo : lo ≤ mid) (hhi : mid ≤ hi) (src m : ℕ → V) :
    overlay mid hi (fun k ↦ src (mid - lo + k)) (overlay lo mid src m) = overlay lo hi src m := by
  funext x
  by_cases hx : lo ≤ x ∧ x < hi
  · rw [overlay_inside hx.1 hx.2]
    by_cases hmid : mid ≤ x
    · have hk : mid - lo + (x - mid) = x - lo := by omega
      rw [overlay_inside hmid hx.2, hk]
    · rw [overlay_outside (by omega), overlay_inside hx.1 (by omega)]
  · rw [overlay_outside hx, overlay_outside (by omega), overlay_outside (by omega)]

/-- A cell that is written behind an overlay makes it longer. -/
theorem update_overlay (h : lo ≤ hi) (src m : ℕ → V) :
    Function.update (overlay lo hi src m) hi (src (hi - lo)) = overlay lo (hi + 1) src m := by
  funext x
  by_cases hx : x = hi
  · rw [hx, Function.update_self, overlay_inside h (Nat.lt_succ_self hi)]
  · rw [Function.update_of_ne hx]
    by_cases hin : lo ≤ x ∧ x < hi
    · rw [overlay_inside hin.1 hin.2, overlay_inside hin.1 (by omega)]
    · rw [overlay_outside hin, overlay_outside (by omega)]

theorem foldl_range_update (lo n : ℕ) (src m : ℕ → V) :
    (List.range n).foldl (fun m j ↦ Function.update m (lo + j) (src j)) m =
      overlay lo (lo + n) src m := by
  induction n with
  | zero => exact (overlay_empty (Nat.le_refl lo)).symm
  | succ n ih =>
    have hstep := update_overlay (Nat.le_add_right lo n) src m
    rw [Nat.add_sub_cancel_left] at hstep
    rw [List.range_succ, List.foldl_append, ih]
    exact hstep

section Runs

variable {S : Type*} {write : S → (ℕ → V) → ℕ → V} {touches : S → ℕ → Prop} {value : S → ℕ → V}

/-- Writers one after another keep a value that all of them agree on. -/
theorem foldl_write_of_agree (hkeep : ∀ s m x, ¬ touches s x → write s m x = m x)
    (hwrite : ∀ s m x, touches s x → write s m x = value s x) {l : List S} {v : V}
    (hx : ∀ s ∈ l, touches s x → value s x = v) (hm : m x = v) :
    l.foldl (fun m s ↦ write s m) m x = v := by
  induction l generalizing m with
  | nil => exact hm
  | cons s l ih =>
    obtain ⟨hs, hl⟩ := List.forall_mem_cons.mp hx
    refine ih hl ?_
    by_cases ht : touches s x
    · exact (hwrite s m x ht).trans (hs ht)
    · exact (hkeep s m x ht).trans hm

/-- What a writer owns stays, where the later ones agree with it. -/
theorem foldl_write_owned {owns : S → ℕ → Prop}
    (hkeep : ∀ s m x, ¬ touches s x → write s m x = m x)
    (hwrite : ∀ s m x, touches s x → write s m x = value s x)
    (howns : ∀ s x, owns s x → touches s x) {l : List S}
    (hl : l.Pairwise fun s t ↦ ∀ x, owns s x → touches t x → value t x = value s x) {s : S}
    (hs : s ∈ l) (hx : owns s x) : l.foldl (fun m s ↦ write s m) m x = value s x := by
  induction l generalizing m with
  | nil => cases hs
  | cons t l ih =>
    obtain ⟨hlater, hrest⟩ := List.pairwise_cons.mp hl
    rw [List.foldl_cons]
    cases List.mem_cons.mp hs with
    | inl hst =>
      subst hst
      exact foldl_write_of_agree hkeep hwrite (fun u hu ↦ hlater u hu x hx)
        (hwrite s m x (howns s x hx))
    | inr hmem => exact ih hrest hmem

end Runs

end OsWorkbench.Library
