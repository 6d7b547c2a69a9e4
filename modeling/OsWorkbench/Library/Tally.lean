import Mathlib.Algebra.BigOperators.Group.List.Basic
import Mathlib.Algebra.GroupWithZero.Nat
import Mathlib.Data.List.Nodup

namespace OsWorkbench.Library.Tally

variable {K A : Type*} [DecidableEq K] [AddCommMonoid A]

def sumOf (k : K) (seen : List (K × A)) : A := ((seen.filter (·.1 = k)).map Prod.snd).sum

/-- The table has one entry for each key seen, with the sum of its amounts. -/
structure Tallies (seen table : List (K × A)) : Prop where
  nodup : (table.map Prod.fst).Nodup
  keys : ∀ k, k ∈ table.map Prod.fst ↔ k ∈ seen.map Prod.fst
  amount : ∀ e ∈ table, e.2 = sumOf e.1 seen
  total : (table.map Prod.snd).sum = (seen.map Prod.snd).sum

variable {k k' : K} {a b : A} {seen table table' left right : List (K × A)}

theorem sumOf_append_self : sumOf k (seen ++ [(k, a)]) = sumOf k seen + a := by
  simp [sumOf, List.filter_append]

theorem sumOf_append_of_ne (h : k' ≠ k) : sumOf k (seen ++ [(k', a)]) = sumOf k seen := by
  simp [sumOf, List.filter_append, h]

theorem sumOf_of_notMem (h : k ∉ seen.map Prod.fst) : sumOf k seen = 0 := by
  have hnil : seen.filter (·.1 = k) = [] := by
    refine List.filter_eq_nil_iff.mpr fun e he hk ↦ h ?_
    exact List.mem_map.mpr ⟨e, he, by simpa using hk⟩
  rw [sumOf, hnil]
  rfl

theorem Tallies.nil : Tallies ([] : List (K × A)) [] :=
  ⟨List.nodup_nil, fun _ ↦ Iff.rfl, by simp, rfl⟩

theorem Tallies.perm (h : Tallies seen table) (hp : table.Perm table') : Tallies seen table' :=
  ⟨(hp.map _).nodup_iff.mp h.nodup, fun k ↦ (hp.map _).mem_iff.symm.trans (h.keys k),
    fun e he ↦ h.amount e (hp.mem_iff.mpr he), (hp.map _).sum_eq.symm.trans h.total⟩

theorem Tallies.append (h : Tallies seen table) (hk : k ∉ table.map Prod.fst) :
    Tallies (seen ++ [(k, a)]) (table ++ [(k, a)]) := by
  constructor
  · rw [List.map_append, List.nodup_append]
    refine ⟨h.nodup, List.nodup_singleton k, fun k₁ h₁ k₂ h₂ he ↦ hk ?_⟩
    rw [he, List.mem_singleton.mp h₂] at h₁
    exact h₁
  · intro k'
    simp only [List.map_append, List.mem_append, h.keys k']
  · intro e he
    rcases List.mem_append.mp he with he | he
    · have hne : k ≠ e.1 := fun heq ↦ hk (heq ▸ List.mem_map_of_mem he)
      rw [sumOf_append_of_ne hne, h.amount e he]
    · rw [List.mem_singleton.mp he, sumOf_append_self,
        sumOf_of_notMem fun hs ↦ hk ((h.keys k).mpr hs), zero_add]
  · simp only [List.map_append, List.sum_append, h.total]

theorem Tallies.update (h : Tallies seen (left ++ (k, b) :: right)) :
    Tallies (seen ++ [(k, a)]) (left ++ (k, b + a) :: right) := by
  have hkeys : (left ++ (k, b + a) :: right).map Prod.fst =
      (left ++ (k, b) :: right).map Prod.fst := by simp
  have hmem : k ∈ seen.map Prod.fst := (h.keys k).mp (by simp)
  have hother : ∀ e ∈ left ++ right, e.1 ≠ k := by
    have hnodup := h.nodup
    rw [List.map_append, List.map_cons, List.nodup_middle] at hnodup
    intro e he heq
    refine (List.nodup_cons.mp hnodup).1 ?_
    rw [← List.map_append]
    exact List.mem_map.mpr ⟨e, he, heq⟩
  have hkeep : ∀ e ∈ left ++ right, e ∈ left ++ (k, b) :: right := fun e he ↦ by
    rcases List.mem_append.mp he with he | he
    · exact List.mem_append_left _ he
    · exact List.mem_append_right _ (List.mem_cons_of_mem _ he)
  constructor
  · rw [hkeys]
    exact h.nodup
  · intro k'
    rw [hkeys, h.keys, List.map_append, List.mem_append]
    refine ⟨.inl, fun hk' ↦ hk'.elim id fun hk' ↦ ?_⟩
    rw [List.mem_singleton.mp hk']
    exact hmem
  · intro e he
    have hcases : e = (k, b + a) ∨ e ∈ left ++ right := by
      simp only [List.mem_append, List.mem_cons] at he ⊢
      rcases he with he | he | he
      · exact .inr (.inl he)
      · exact .inl he
      · exact .inr (.inr he)
    rcases hcases with rfl | he
    · have hold : b = sumOf k seen := h.amount (k, b) (by simp)
      rw [sumOf_append_self, ← hold]
    · rw [sumOf_append_of_ne (hother e he).symm, h.amount e (hkeep e he)]
  · have htotal := h.total
    simp only [List.map_append, List.map_cons, List.sum_append, List.sum_cons, List.map_nil,
      List.sum_nil, add_zero] at htotal ⊢
    rw [← htotal]
    simp only [add_assoc, add_comm a]

/-- The sum over a table whose rows read a function at their keys, where the function changes at
one key. -/
theorem sum_rows_update {α β γ : Type} [DecidableEq α] {rows : List (α × β)}
    (hnodup : (rows.map Prod.fst).Nodup) {x : α} {r : β} (hm : (x, r) ∈ rows) (g : β → γ → ℕ)
    (f : α → γ) (y : γ) :
    (rows.map fun w ↦ g w.2 (Function.update f x y w.1)).sum + g r (f x) =
      (rows.map fun w ↦ g w.2 (f w.1)).sum + g r y := by
  induction rows with
  | nil => cases hm
  | cons w rows ih =>
    obtain ⟨hw, hnodup⟩ := List.nodup_cons.mp hnodup
    simp only [List.map_cons, List.sum_cons]
    rcases List.mem_cons.mp hm with heq | hm
    · subst heq
      have hrest : (rows.map fun w ↦ g w.2 (Function.update f x y w.1)) =
          rows.map fun w ↦ g w.2 (f w.1) := by
        refine List.map_congr_left fun w hmem ↦ ?_
        have hne : w.1 ≠ x := fun he ↦ hw (List.mem_map.mpr ⟨w, hmem, he⟩)
        rw [Function.update_of_ne hne]
      rw [hrest]
      dsimp only
      rw [Function.update_self]
      omega
    · have hne : w.1 ≠ x := fun he ↦ hw (he ▸ List.mem_map_of_mem (f := Prod.fst) hm)
      have hih := ih hnodup hm
      rw [Function.update_of_ne hne]
      omega

end OsWorkbench.Library.Tally
