import OsWorkbench.Sperf.Statistics
import Mathlib.Data.List.Sort
import Mathlib.Tactic.NormNum

namespace OsWorkbench.Sperf

def compare (a b : SyscallLog) : ℤ :=
  let diff := b.time - a.time
  if 0 < diff then 1 else -1

/-- The laws of a comparison of three records. -/
structure Consistent (a b c : SyscallLog) : Prop where
  signs : (compare a b).sign = -(compare b a).sign
  self : compare a a = 0
  trans : compare a b ≤ 0 → compare b c ≤ 0 → compare a c ≤ 0

/-- The comparison orders the entries of an array one against another. -/
structure Agreed (logs : List SyscallLog) : Prop where
  signs : logs.Pairwise fun a b ↦ (compare a b).sign = -(compare b a).sign
  trans : ∀ a ∈ logs, ∀ b ∈ logs, ∀ c ∈ logs,
    compare a b ≤ 0 → compare b c ≤ 0 → compare a c ≤ 0

/-- An order into which `qsort` may bring the entries: any, unless `compare` orders them. -/
structure Qsort extends Sorter where
  ordered : ∀ logs, Agreed logs → (sort logs).Pairwise fun a b ↦ compare a b ≤ 0

def Descending (logs : List SyscallLog) : Prop := logs.Pairwise fun a b ↦ b.time ≤ a.time

variable {a b c : SyscallLog} {logs out : List SyscallLog}

theorem compare_nonpos : compare a b ≤ 0 ↔ b.time ≤ a.time := by
  rw [compare]
  split_ifs with h
  · simpa using h
  · simpa using h

theorem compare_sign_iff : (compare a b).sign = -(compare b a).sign ↔ a.time ≠ b.time := by
  rcases lt_trichotomy a.time b.time with h | h | h
  · simp [compare, h, h.not_gt, h.ne]
  · simp [compare, h]
  · simp [compare, h, h.not_gt, h.ne']

theorem compare_self (a : SyscallLog) : compare a a = -1 := by simp [compare]

theorem compare_trans (hab : compare a b ≤ 0) (hbc : compare b c ≤ 0) : compare a c ≤ 0 := by
  rw [compare_nonpos] at hab hbc ⊢
  exact hbc.trans hab

theorem agreed_iff : Agreed logs ↔ (logs.map SyscallLog.time).Nodup := by
  rw [List.Nodup, List.pairwise_map]
  constructor
  · intro h
    exact h.signs.imp compare_sign_iff.mp
  · intro h
    exact ⟨h.imp compare_sign_iff.mpr, fun _ _ _ _ _ _ ↦ compare_trans⟩

theorem descending_iff : Descending logs ↔ logs.Pairwise fun a b ↦ compare a b ≤ 0 := by
  simp only [Descending, compare_nonpos]

theorem Qsort.descending (q : Qsort) (h : (logs.map SyscallLog.time).Nodup) :
    Descending (q.sort logs) :=
  descending_iff.mpr (q.ordered logs (agreed_iff.mpr h))

def mergeSort : Qsort where
  sort logs := logs.mergeSort fun a b ↦ compare a b ≤ 0
  perm logs := List.mergeSort_perm _ _
  ordered := by
    intro logs _
    apply List.Pairwise.imp fun h ↦ of_decide_eq_true h
    apply List.pairwise_mergeSort
    · intro a b c hab hbc
      rw [decide_eq_true_eq] at hab hbc ⊢
      exact compare_trans hab hbc
    · intro a b
      simp only [compare_nonpos, Bool.or_eq_true, decide_eq_true_eq]
      exact le_total _ _

/-- Where two times are equal `qsort` may leave any order. -/
def Qsort.leaving (hties : ¬ (logs.map SyscallLog.time).Nodup) (hperm : out.Perm logs) : Qsort where
  sort logs' := if logs' = logs then out else mergeSort.sort logs'
  perm := by
    intro logs'
    split_ifs with h
    · exact h ▸ hperm
    · exact mergeSort.perm logs'
  ordered := by
    intro logs' hagreed
    have hne : logs' ≠ logs := by
      rintro rfl
      exact hties (agreed_iff.mp hagreed)
    simp only [if_neg hne]
    exact mergeSort.ordered logs' hagreed

theorem Qsort.leaving_sort (hties : ¬ (logs.map SyscallLog.time).Nodup) (hperm : out.Perm logs) :
    (leaving hties hperm).sort logs = out := if_pos rfl

theorem forall_qsort_iff (P : List SyscallLog → Prop) (hties : ¬ (logs.map SyscallLog.time).Nodup) :
    (∀ q : Qsort, P (q.sort logs)) ↔ ∀ out, out.Perm logs → P out := by
  constructor
  · intro h out hperm
    have hleft := h (Qsort.leaving hties hperm)
    rwa [Qsort.leaving_sort] at hleft
  · intro h q
    exact h _ (q.perm logs)

theorem descending_of_equal {t : ℚ} (h : ∀ log ∈ logs, log.time = t) : Descending logs := by
  rw [Descending, List.pairwise_iff_forall_sublist]
  intro a b hsub
  rw [h a (hsub.subset (by simp)), h b (hsub.subset (by simp))]

theorem equal_of_descending_reverse (h : Descending logs) (hrev : Descending logs.reverse) :
    ∃ t, ∀ log ∈ logs, log.time = t := by
  rw [Descending, List.pairwise_reverse] at hrev
  cases logs with
  | nil => exact ⟨0, by simp⟩
  | cons first logs =>
    refine ⟨first.time, List.forall_mem_cons.mpr ⟨rfl, fun log hlog ↦ ?_⟩⟩
    exact le_antisymm ((List.pairwise_cons.mp h).1 log hlog)
      ((List.pairwise_cons.mp hrev).1 log hlog)

/-- The laws fail for every record. Which of them does not depends on the times, and
the order of an array is only sure where no two times are equal, or all are. -/
theorem compare_laws (a b c : SyscallLog) (logs : List SyscallLog) :
    ¬ Consistent a b c ∧
    ((compare a b).sign = -(compare b a).sign ↔ a.time ≠ b.time) ∧
    (compare a b ≤ 0 → compare b c ≤ 0 → compare a c ≤ 0) ∧
    (Agreed logs ↔ (logs.map SyscallLog.time).Nodup) ∧
    ((∀ q : Qsort, Descending (q.sort logs)) ↔
      (logs.map SyscallLog.time).Nodup ∨ ∃ t, ∀ log ∈ logs, log.time = t) := by
  refine ⟨fun h ↦ ?_, compare_sign_iff, compare_trans, agreed_iff, ?_⟩
  · have hself := h.self
    rw [compare_self] at hself
    exact absurd hself (by decide)
  · by_cases hnodup : (logs.map SyscallLog.time).Nodup
    · exact iff_of_true (fun q ↦ q.descending hnodup) (.inl hnodup)
    · rw [forall_qsort_iff Descending hnodup, or_iff_right hnodup]
      constructor
      · intro h
        exact equal_of_descending_reverse (h _ (.refl _)) (h _ (List.reverse_perm _))
      · intro ⟨t, ht⟩ out hperm
        exact descending_of_equal fun log hlog ↦ ht log (hperm.mem_iff.mp hlog)

/-- Two calls of the same time are each put before the other, and a longer one may
stay behind them. -/
theorem tied_counterexample :
    compare (sampleLog 97 1) (sampleLog 98 1) = -1 ∧
    compare (sampleLog 98 1) (sampleLog 97 1) = -1 ∧
    ¬ Consistent (sampleLog 97 1) (sampleLog 98 1) (sampleLog 97 1) ∧
    ∃ q : Qsort, ¬ Descending (q.sort [sampleLog 97 1, sampleLog 98 1, sampleLog 99 2]) := by
  have htied : compare (sampleLog 97 1) (sampleLog 98 1) = -1 ∧
      compare (sampleLog 98 1) (sampleLog 97 1) = -1 := by
    simp [compare, sampleLog]
  have hties : ¬ ([sampleLog 97 1, sampleLog 98 1, sampleLog 99 2].map SyscallLog.time).Nodup := by
    simp [sampleLog]
  refine ⟨htied.1, htied.2, fun h ↦ ?_, Qsort.leaving hties (.refl _), fun h ↦ ?_⟩
  · have hsigns := h.signs
    rw [htied.1, htied.2] at hsigns
    exact absurd hsigns (by decide)
  · rw [Qsort.leaving_sort] at h
    norm_num [Descending, sampleLog] at h

end OsWorkbench.Sperf
