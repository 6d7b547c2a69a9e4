import OsWorkbench.Fsrecov.Partition

namespace OsWorkbench.Fsrecov

variable (img : Image)

/-- The address lies in the entries that a call of the walk passes to `handle`. -/
def HandleCall.Spans (a : ℤ) : HandleCall → Prop
  | .walked p len => p ≤ a ∧ a < p + entrySize * len
  | _ => False

def EntryPart.Spans (a : ℤ) (part : EntryPart) : Prop :=
  ∃ p, part.entry = some p ∧ p ≤ a ∧ a < p + entrySize * part.len

/-- The address lies in a part of the cluster that `search_cluster` queues as a
tail, passes to `handle`, or queues as a head. -/
def Examined (start a : ℤ) : Prop :=
  (∃ part ∈ frontPart img start, part.Spans a) ∨
  (∃ call ∈ (clusterWalk img start).calls, call.Spans a) ∨
  ∃ part ∈ backPart (clusterWalk img start), part.Spans a

theorem examined_of_lt {start a : ℤ} (ha : start ≤ a) (hap : a < (clusterWalk img start).p) :
    Examined img start a := by
  have hpart : ∀ part : EntryPart, ∀ r ∈ part.range, r.1 ≤ a → a < r.2 → part.Spans a := by
    intro part r hr hlo hhi
    obtain ⟨p, hp, rfl⟩ := Option.map_eq_some_iff.mp hr
    exact ⟨p, hp, hlo, hhi⟩
  obtain ⟨r, hr, hlo, hhi⟩ := (partRanges_tiles img start).exists_mem ha hap
  rcases List.mem_append.mp hr with hr | hr
  · rcases List.mem_append.mp hr with hr | hr
    · obtain ⟨part, hmem, hrange⟩ := List.mem_filterMap.mp hr
      exact .inl ⟨part, Option.mem_toList.mp hmem, hpart part r hrange hlo hhi⟩
    · obtain ⟨call, hmem, hrange⟩ := List.mem_filterMap.mp hr
      obtain ⟨p, len, rfl, -⟩ := (clusterWalk_walked img start).blocks call hmem
      cases hrange
      exact .inr (.inl ⟨_, hmem, hlo, hhi⟩)
  · obtain ⟨part, hmem, hrange⟩ := List.mem_filterMap.mp hr
    exact .inr (.inr ⟨part, Option.mem_toList.mp hmem, hpart part r hrange hlo hhi⟩)

theorem clusterWalk_reaches {start : ℤ} {n : ℕ} (hn : n ≤ slots img)
    (hkind : ∀ k < n, img.isBasic (start + entrySize * k) = true ∨
      img.isLong (start + entrySize * k) = true) :
    start + entrySize * n ≤ (clusterWalk img start).p := by
  have hbytes : 32 * slots img ≤ clusterBytes img := Nat.mul_div_le _ _
  obtain ⟨k, hp, -, hstop⟩ := clusterWalk_stops img start
  by_contra hlt
  rw [hp, not_le] at hlt
  simp only [entrySize] at hlt hstop
  obtain ⟨hl, hb⟩ := hstop (by omega)
  have hk := hkind (frontLen img start + k) (by omega)
  simp only [entrySize, hl, hb] at hk
  simp at hk

end OsWorkbench.Fsrecov
