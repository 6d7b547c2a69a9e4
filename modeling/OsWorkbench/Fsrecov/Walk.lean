import OsWorkbench.Fsrecov.Scan
import OsWorkbench.Library.Grouping
import Mathlib.Tactic.Ring

namespace OsWorkbench.Fsrecov

open Library.Grouping

namespace Image

variable (img : Image)

@[simp] theorem entries_zero (p : ℤ) : img.entries p 0 = [] := rfl

@[simp] theorem length_entries (p : ℤ) (n : ℕ) : (img.entries p n).length = n := by
  simp [entries]

theorem entries_add (p : ℤ) (m n : ℕ) :
    img.entries p (m + n) = img.entries p m ++ img.entries (p + entrySize * m) n := by
  simp only [entries, List.range_add, List.map_append, List.map_map]
  congr 1
  refine List.map_congr_left fun i _ ↦ ?_
  simp only [Function.comp_apply]
  congr 1
  push_cast
  ring

theorem entries_succ (p : ℤ) (n : ℕ) :
    img.entries p (n + 1) = img.entry p :: img.entries (p + entrySize) n := by
  rw [Nat.add_comm, entries_add]
  simp [entries]

theorem entries_snoc (p : ℤ) (n : ℕ) :
    img.entries p (n + 1) = img.entries p n ++ [img.entry (p + entrySize * n)] := by
  rw [entries_add]
  simp [entries]

theorem entries_drop (p : ℤ) (k n : ℕ) :
    (img.entries p n).drop k = img.entries (p + entrySize * k) (n - k) := by
  rcases Nat.le_total k n with h | h
  · obtain ⟨m, rfl⟩ := Nat.exists_eq_add_of_le h
    rw [entries_add, List.drop_left' (img.length_entries p k), Nat.add_sub_cancel_left]
  · rw [List.drop_eq_nil_of_le (by simpa using h), Nat.sub_eq_zero_of_le h, entries_zero]

theorem entries_take (p : ℤ) (k n : ℕ) (h : k ≤ n) : (img.entries p n).take k = img.entries p k := by
  obtain ⟨m, rfl⟩ := Nat.exists_eq_add_of_le h
  rw [entries_add, List.take_left' (img.length_entries p k)]

end Image

variable (img : Image)

/-- How `search_cluster` cuts a stretch of directory slots. -/
def groupEntries (pending es : List Entry) : Grouped Entry :=
  group (isDirentBasic img.totalClusters) isDirentLong pending es

/-- What the cursor of the walk says about the slots from `curr` on, once the
walk has stopped with the grouping `g`. -/
structure WalkEnd (stop : ℤ) (calls : List HandleCall) (g : Grouped Entry) (c : Cursor) : Prop where
  calls_entries : c.calls.map (HandleCall.entries img) =
    calls.map (HandleCall.entries img) ++ g.groups
  pending : img.entries c.curr c.currEntries = g.pending
  aligned : c.p = c.curr + entrySize * c.currEntries
  stops : c.p + entrySize * g.rest.length = stop

theorem walk_done {stop : ℤ} {c : Cursor} (h : stop ≤ c.p) (fuel : ℕ) :
    walk img stop fuel c = c := by
  cases fuel with
  | zero => rfl
  | succ fuel => rw [walk, if_neg (by omega)]

/-- The pointer walk computes the grouping of the slots in front of it. -/
theorem walk_refines (stop : ℤ) (n fuel : ℕ) (c : Cursor) (hfuel : n ≤ fuel)
    (haligned : c.p = c.curr + entrySize * c.currEntries) (hstop : c.p + entrySize * n = stop) :
    WalkEnd img stop c.calls (groupEntries img (img.entries c.curr c.currEntries) (img.entries c.p n))
      (walk img stop fuel c) := by
  induction n generalizing fuel c with
  | zero =>
    rw [walk_done img (by simp [← hstop])]
    exact ⟨by simp [groupEntries, group], by simp [groupEntries, group], haligned,
      by simpa [groupEntries, group] using hstop⟩
  | succ n ih =>
    obtain ⟨fuel, rfl⟩ : ∃ f, fuel = f + 1 := ⟨fuel - 1, by omega⟩
    have hlt : c.p < stop := by simp only [entrySize] at hstop; omega
    have hnext : c.p + entrySize + entrySize * n = stop := by
      rw [← hstop]
      push_cast
      ring
    rw [walk, if_pos hlt, Image.entries_succ, groupEntries, group]
    by_cases hb : img.isBasic c.p
    · have h := ih fuel ⟨c.p + entrySize, c.p + entrySize, 0,
        c.calls ++ [.walked c.curr (c.currEntries + 1)]⟩ (by omega) (by simp) hnext
      have hb' : isDirentBasic img.totalClusters (img.entry c.p) = true := hb
      rw [if_pos hb, if_pos hb']
      refine ⟨?_, h.pending, h.aligned, h.stops⟩
      rw [h.calls_entries, List.map_append, List.append_assoc]
      simp only [List.map_cons, List.map_nil, HandleCall.entries, Image.entries_snoc, ← haligned]
      rfl
    · have hb' : ¬ isDirentBasic img.totalClusters (img.entry c.p) = true := hb
      rw [if_neg hb, if_neg hb']
      by_cases hl : img.isLong c.p
      · have h := ih fuel ⟨c.p + entrySize, c.curr, c.currEntries + 1, c.calls⟩ (by omega)
          (by simp only [haligned]; push_cast; ring) hnext
        have hl' : isDirentLong (img.entry c.p) = true := hl
        rw [if_pos hl, if_pos hl']
        rw [Image.entries_snoc, ← haligned] at h
        exact h
      · have hl' : ¬ isDirentLong (img.entry c.p) = true := hl
        rw [if_neg hl, if_neg hl']
        exact ⟨by simp, rfl, haligned, by simpa using hstop⟩

def slots : ℕ := clusterBytes img / 32

def frontLen (clusterStart : ℤ) : ℕ := (frontPart img clusterStart).elim 0 EntryPart.len

theorem walkStart_eq (start : ℤ) : walkStart img start = start + entrySize * frontLen img start := rfl

/-- The grouping of the slots of a cluster behind the part queued as a tail. -/
def clusterGroups (clusterStart : ℤ) : Grouped Entry :=
  groupEntries img [] ((img.entries clusterStart (slots img)).drop (frontLen img clusterStart))

/-- The walk of `search_cluster` over a whole cluster. A tail that reaches past
the end of the cluster leaves nothing to walk over. -/
theorem clusterWalk_refines (h32 : 32 ∣ clusterBytes img) (start : ℤ) :
    WalkEnd img (max (start + clusterBytes img) (walkStart img start)) []
      (clusterGroups img start) (clusterWalk img start) := by
  have hbytes : (clusterBytes img : ℤ) = entrySize * slots img := by
    obtain ⟨k, hk⟩ := h32
    simp [slots, hk, entrySize]
  have hle : slots img ≤ clusterBytes img := Nat.div_le_self _ _
  rw [clusterGroups, Image.entries_drop, ← walkStart_eq]
  rcases Nat.le_total (frontLen img start) (slots img) with hf | hf
  · have hend : walkStart img start + entrySize * (slots img - frontLen img start : ℕ) =
        start + clusterBytes img := by
      rw [walkStart_eq, hbytes]
      push_cast [hf]
      ring
    have h := walk_refines img (start + clusterBytes img) (slots img - frontLen img start)
      (clusterBytes img) ⟨walkStart img start, walkStart img start, 0, []⟩ (by omega) (by simp) hend
    rw [max_eq_left (by simp only [entrySize] at hend; omega)]
    exact h
  · have hge : start + clusterBytes img ≤ walkStart img start := by
      simp only [walkStart_eq, hbytes, entrySize]
      omega
    rw [clusterWalk, walk_done img hge, max_eq_right hge, Nat.sub_eq_zero_of_le hf]
    exact ⟨by simp [groupEntries, group], by simp [groupEntries, group], by simp,
      by simp [groupEntries, group]⟩

end OsWorkbench.Fsrecov
