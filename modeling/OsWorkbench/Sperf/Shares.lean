import OsWorkbench.Sperf.Ordering
import Mathlib.Algebra.Order.BigOperators.Group.List
import Mathlib.Data.Rat.Floor

namespace OsWorkbench.Sperf

/-- The entries `logs[0..count)`. -/
def SyscallStats.table (stats : SyscallStats) : List SyscallLog :=
  (stats.logs.take stats.count.toNat).reduceOption

/-- Percentages that are all there, between 0 and 100 and not increasing, and no more than
100 together. -/
def Shares (shown : List (List UInt8 × Option ℤ)) : Prop :=
  ∃ shares : List ℤ, shown.map Prod.snd = shares.map some ∧ (∀ s ∈ shares, 0 ≤ s ∧ s ≤ 100) ∧
    shares.Pairwise (· ≥ ·) ∧ shares.sum ≤ 100

def share (total : ℚ) (log : SyscallLog) : ℤ := ⌊log.time / total * 100⌋

variable {table out logs seen : List SyscallLog} {log : SyscallLog} {stats : SyscallStats}
  {total : ℚ}

theorem Surveys.table_eq (h : Surveys seen stats table) : stats.table = table := by
  rw [SyscallStats.table, h.statistics.cells]
  change (table.map some).filterMap id = table
  rw [List.filterMap_map, Function.id_comp, List.filterMap_some]

theorem ratio_eq (htotal : 0 < total) (htime : 0 ≤ log.time) :
    ratio log.time total = some (share total log) := by
  have hnum : 0 ≤ (log.time / total * 100).num := Rat.num_nonneg.mpr (by positivity)
  rw [ratio, if_neg htotal.ne', share, Rat.floor_def', Int.tdiv_eq_ediv_of_nonneg hnum]

theorem share_nonneg (htotal : 0 < total) (htime : 0 ≤ log.time) : 0 ≤ share total log :=
  Int.floor_nonneg.mpr (by positivity)

theorem share_anti {a b : SyscallLog} (htotal : 0 < total) (h : b.time ≤ a.time) :
    share total b ≤ share total a := by
  apply Int.floor_le_floor
  gcongr

theorem time_le_totalTime (hnonneg : ∀ log ∈ table, 0 ≤ log.time) (hlog : log ∈ table) :
    log.time ≤ totalTime table := by
  apply List.single_le_sum
  · simpa using hnonneg
  · exact List.mem_map_of_mem hlog

theorem share_le (htotal : 0 < total) (h : log.time ≤ total) : share total log ≤ 100 := by
  have hle : log.time / total * 100 ≤ 100 := by
    have := (div_le_one htotal).mpr h
    linarith
  exact_mod_cast (Int.floor_le _).trans hle

theorem sum_share_le_totalTime (total : ℚ) (logs : List SyscallLog) :
    ((logs.map (share total)).sum : ℚ) ≤ totalTime logs / total * 100 := by
  induction logs with
  | nil => simp [totalTime]
  | cons log logs ih =>
    have hfloor : (share total log : ℚ) ≤ log.time / total * 100 := Int.floor_le _
    rw [totalTime] at ih ⊢
    rw [List.map_cons, List.sum_cons, List.map_cons, List.sum_cons, Int.cast_add, add_div, add_mul]
    exact add_le_add hfloor ih

theorem totalTime_take_le (hnonneg : ∀ log ∈ logs, 0 ≤ log.time) (n : ℕ) :
    totalTime (logs.take n) ≤ totalTime logs := by
  have hdrop : 0 ≤ totalTime (logs.drop n) := by
    apply List.sum_nonneg
    intro t ht
    obtain ⟨log, hlog, rfl⟩ := List.mem_map.mp ht
    exact hnonneg log (List.mem_of_mem_drop hlog)
  have hsplit : totalTime logs = totalTime (logs.take n) + totalTime (logs.drop n) := by
    rw [totalTime, totalTime, totalTime, ← List.sum_append, ← List.map_append,
      List.take_append_drop]
  rw [hsplit]
  exact le_add_of_nonneg_right hdrop

theorem sum_share_take_le (htotal : 0 < totalTime logs) (hnonneg : ∀ log ∈ logs, 0 ≤ log.time)
    (n : ℕ) : ((logs.take n).map (share (totalTime logs))).sum ≤ 100 := by
  have hle : (((logs.take n).map (share (totalTime logs))).sum : ℚ) ≤ 100 := by
    calc
      _ ≤ totalTime (logs.take n) / totalTime logs * 100 := sum_share_le_totalTime _ _
      _ ≤ 1 * 100 := by
        gcongr
        exact (div_le_one htotal).mpr (totalTime_take_le hnonneg n)
      _ = 100 := one_mul _
  exact_mod_cast hle

theorem shares_shownOf_iff (hperm : out.Perm table) (hnonneg : ∀ log ∈ table, 0 ≤ log.time)
    (htotal : 0 < totalTime table) :
    Shares (shownOf table out) ↔ ((out.take 5).map (share (totalTime table))).Pairwise (· ≥ ·) := by
  have hmem : ∀ log ∈ out.take 5, log ∈ table := fun log hlog ↦
    hperm.mem_iff.mp (List.mem_of_mem_take hlog)
  have hshown : (shownOf table out).map Prod.snd =
      ((out.take 5).map (share (totalTime table))).map some := by
    rw [shownOf, List.map_map, List.map_map]
    exact List.map_congr_left fun log hlog ↦ ratio_eq htotal (hnonneg log (hmem log hlog))
  have hsame : totalTime out = totalTime table := (hperm.map SyscallLog.time).sum_eq
  constructor
  · rintro ⟨shares, hshares, _, hdown, _⟩
    rw [hshown] at hshares
    rwa [List.map_injective_iff.mpr (Option.some_injective ℤ) hshares]
  · intro hdown
    refine ⟨_, hshown, fun s hs ↦ ?_, hdown, ?_⟩
    · obtain ⟨log, hlog, rfl⟩ := List.mem_map.mp hs
      have hlog := hmem log hlog
      exact ⟨share_nonneg htotal (hnonneg log hlog),
        share_le htotal (time_le_totalTime hnonneg hlog)⟩
    · rw [← hsame] at htotal ⊢
      exact sum_share_take_le htotal (fun log hlog ↦ hnonneg log (hperm.mem_iff.mp hlog)) 5

theorem not_shares_of_zero (hne : table ≠ []) (hperm : out.Perm table)
    (htotal : totalTime table = 0) : ¬ Shares (shownOf table out) := by
  rintro ⟨shares, hshares, -⟩
  cases out with
  | nil => exact hne (List.perm_nil.mp hperm.symm)
  | cons log out =>
    cases shares <;> simp [shownOf, ratio, htotal] at hshares

theorem share_eq_iff {k : ℤ} (htotal : 0 < total) :
    share total log = k ↔ k * total ≤ 100 * log.time ∧ 100 * log.time < (k + 1) * total := by
  rw [share, Int.floor_eq_iff, div_mul_eq_mul_div, le_div_iff₀ htotal, div_lt_iff₀ htotal,
    mul_comm log.time 100]

theorem share_eq_of_shares {a b : SyscallLog} (ha : a ∈ table) (hb : b ∈ table)
    (hall : ∀ out : List SyscallLog, out.Perm table →
      ((out.take 5).map (share total)).Pairwise (· ≥ ·)) :
    share total a = share total b := by
  by_cases hab : a = b
  · rw [hab]
  · have hfirst : ∀ a b : SyscallLog, a ≠ b → a ∈ table → b ∈ table →
        share total b ≤ share total a := by
      intro a b hab ha hb
      have hrest : b ∈ table.erase a := (List.mem_erase_of_ne (Ne.symm hab)).mpr hb
      have hperm : (a :: b :: (table.erase a).erase b).Perm table :=
        ((List.perm_cons_erase hrest).symm.cons a).trans (List.perm_cons_erase ha).symm
      have hdown := hall _ hperm
      rw [List.take_succ_cons, List.take_succ_cons, List.map_cons, List.map_cons,
        List.pairwise_cons] at hdown
      exact hdown.1 _ List.mem_cons_self
    exact le_antisymm (hfirst b a (Ne.symm hab) hb ha) (hfirst a b hab ha hb)

theorem forall_shares_iff (hne : table ≠ []) (hnonneg : ∀ log ∈ table, 0 ≤ log.time) :
    (∀ q : Qsort, Shares (shownOf table (q.sort table))) ↔
      0 < totalTime table ∧ ((table.map SyscallLog.time).Nodup ∨
        ∃ k, ∀ log ∈ table, share (totalTime table) log = k) := by
  have htimes : ∀ t ∈ table.map SyscallLog.time, 0 ≤ t := by simpa using hnonneg
  rcases (List.sum_nonneg htimes).eq_or_lt with hzero | htotal
  · refine iff_of_false (fun h ↦ ?_) fun h ↦ h.1.ne hzero
    exact not_shares_of_zero hne (mergeSort.perm table) hzero.symm (h mergeSort)
  · refine Iff.trans ?_ (and_iff_right htotal).symm
    have hdown : ∀ out, out.Perm table → (Shares (shownOf table out) ↔
        ((out.take 5).map (share (totalTime table))).Pairwise (· ≥ ·)) := fun out hperm ↦
      shares_shownOf_iff hperm hnonneg htotal
    by_cases hnodup : (table.map SyscallLog.time).Nodup
    · refine iff_of_true (fun q ↦ (hdown _ (q.perm table)).mpr ?_) (.inl hnodup)
      rw [List.pairwise_map]
      exact ((q.descending hnodup).take).imp fun h ↦ share_anti htotal h
    · rw [forall_qsort_iff (fun out ↦ Shares (shownOf table out)) hnodup, or_iff_right hnodup]
      constructor
      · intro h
        obtain ⟨first, rest, rfl⟩ := List.exists_cons_of_ne_nil hne
        exact ⟨_, fun log hlog ↦ share_eq_of_shares hlog List.mem_cons_self
          fun out hperm ↦ (hdown out hperm).mp (h out hperm)⟩
      · rintro ⟨k, hk⟩ out hperm
        rw [hdown out hperm, List.pairwise_map]
        apply List.pairwise_of_forall_mem_list
        intro a ha b hb
        rw [hk a (hperm.mem_iff.mp (List.mem_of_mem_take ha)),
          hk b (hperm.mem_iff.mp (List.mem_of_mem_take hb))]

theorem Surveys.nonneg (h : Surveys seen stats table) (hnonneg : ∀ log ∈ seen, 0 ≤ log.time) :
    ∀ log ∈ table, 0 ≤ log.time := by
  intro log hlog
  rw [h.statistics.time log hlog]
  apply List.sum_nonneg
  intro t ht
  obtain ⟨log', hlog', rfl⟩ := List.mem_map.mp ht
  exact hnonneg log' (List.mem_of_mem_filter hlog')

theorem Surveys.ne_nil (h : Surveys seen stats table) (hne : seen ≠ []) : table ≠ [] := by
  rintro rfl
  obtain ⟨log, rest, rfl⟩ := List.exists_cons_of_ne_nil hne
  simpa using (h.statistics.names log.text).mpr (by simp)

/-- The shares are right whatever `qsort` does with equal times, exactly when some time
is not 0 and either no two times are equal or all entries have the same whole
percentage. -/
theorem output_shares_iff {events : List Event} {outputs : List Output}
    (h : run events = .ok (stats, outputs)) (hne : records events ≠ [])
    (hnonneg : ∀ log ∈ records events, 0 ≤ log.time) (isEnd : Bool) :
    (∀ q : Qsort, ∃ printed stats', output q.toSorter isEnd stats = .ok (printed, stats') ∧
        Shares printed.shown) ↔
      0 < totalTime stats.table ∧ ((stats.table.map SyscallLog.time).Nodup ∨
        ∃ k : ℤ, ∀ log ∈ stats.table,
          k * totalTime stats.table ≤ 100 * log.time ∧
            100 * log.time < (k + 1) * totalTime stats.table) := by
  rcases run_surveys events with ⟨herr, -⟩ | ⟨_, _, table, hok, hsurveys, -⟩
  · rw [h] at herr
    cases herr
  · rw [h] at hok
    cases hok
    rw [hsurveys.table_eq]
    have hprints : (∀ q : Qsort, ∃ printed stats',
        output q.toSorter isEnd stats = .ok (printed, stats') ∧ Shares printed.shown) ↔
          ∀ q : Qsort, Shares (shownOf table (q.sort table)) := by
      apply forall_congr'
      intro q
      obtain ⟨stats', hout, -⟩ := hsurveys.output q.toSorter isEnd
      rw [hout]
      constructor
      · rintro ⟨_, _, hok, hshares⟩
        cases hok
        exact hshares
      · intro hshares
        exact ⟨_, _, rfl, hshares⟩
    rw [hprints, forall_shares_iff (hsurveys.ne_nil hne) (hsurveys.nonneg hnonneg)]
    apply and_congr_right
    intro htotal
    simp only [share_eq_iff htotal]

theorem two_calls_shares : ∃ stats outputs,
    run [.update generous (sampleLog 97 1), .update generous (sampleLog 98 3)] =
      .ok (stats, outputs) ∧
    ∀ q : Qsort, ∃ printed stats', output q.toSorter true stats = .ok (printed, stats') ∧
      Shares printed.shown := by
  have htimes : (run [.update generous (sampleLog 97 1),
      .update generous (sampleLog 98 3)]).toOption.map
        (fun r ↦ r.1.table.map SyscallLog.time) = some [1, 3] := by
    decide +kernel
  cases hrun : run [.update generous (sampleLog 97 1), .update generous (sampleLog 98 3)] with
  | error fault =>
    rw [hrun] at htimes
    cases htimes
  | ok result =>
    obtain ⟨stats, outputs⟩ := result
    rw [hrun] at htimes
    have htable : stats.table.map SyscallLog.time = [1, 3] := Option.some.inj htimes
    refine ⟨stats, outputs, rfl,
      (output_shares_iff hrun (by simp [records]) ?_ true).mpr ⟨?_, .inl ?_⟩⟩
    · simp [records, sampleLog]
    · norm_num [totalTime, htable]
    · norm_num [htable]

/-- One call that took no time that can be measured. -/
theorem zeroTime_counterexample : ∃ stats,
    run [.update generous (sampleLog 97 0)] = .ok (stats, []) ∧
    ∀ (q : Qsort) printed stats', output q.toSorter true stats = .ok (printed, stats') →
      printed.shown = [([97], none)] ∧ ¬ Shares printed.shown := by
  have hresult : (run [.update generous (sampleLog 97 0)]).toOption.map
      (fun r ↦ (r.1.table, r.2)) = some ([sampleLog 97 0], []) := by
    decide +kernel
  rcases run_surveys [.update generous (sampleLog 97 0)] with
    ⟨herr, -⟩ | ⟨stats, outputs, table, hrun, hsurveys, -⟩
  · rw [herr] at hresult
    cases hresult
  · rw [hrun] at hresult
    obtain ⟨htable, rfl⟩ : stats.table = [sampleLog 97 0] ∧ outputs = [] := by
      simpa [Except.toOption] using hresult
    rw [hsurveys.table_eq] at htable
    subst htable
    refine ⟨stats, hrun, fun q printed stats' hout ↦ ?_⟩
    obtain ⟨stats'', hout', -⟩ := hsurveys.output q.toSorter true
    rw [hout] at hout'
    cases hout'
    have hperm := q.perm [sampleLog 97 0]
    refine ⟨?_, not_shares_of_zero (by simp) hperm (by simp [totalTime, sampleLog])⟩
    rw [List.perm_singleton.mp hperm]
    decide +kernel

end OsWorkbench.Sperf
