import OsWorkbench.Fsrecov.Queue

namespace OsWorkbench.Fsrecov

open Library Grouping

variable (img : Image)

/-- The invariant of the walk: the open entries reach up to `p`, and each of them
is a long entry that cannot be read as a short one. -/
structure CursorOk (c : Cursor) : Prop where
  aligned : c.p = c.curr + entrySize * c.currEntries
  isOpen : ∀ e ∈ img.entries c.curr c.currEntries,
    Open (isDirentBasic img.totalClusters) isDirentLong e

theorem CursorOk.extend {c : Cursor} (hc : CursorOk img c) (hl : img.isLong c.p = true)
    (hb : ¬ img.isBasic c.p = true) :
    CursorOk img { c with p := c.p + entrySize, currEntries := c.currEntries + 1 } where
  aligned := by
    simp only [hc.aligned]
    push_cast
    ring
  isOpen := by
    intro e he
    rw [Image.entries_snoc, ← hc.aligned] at he
    rcases List.mem_append.mp he with he | he
    · exact hc.isOpen e he
    · rw [List.mem_singleton.mp he]
      exact ⟨hl, eq_false_of_ne_true hb⟩

theorem walk_cursorOk (stop : ℤ) (fuel : ℕ) {c : Cursor} (hc : CursorOk img c) :
    CursorOk img (walk img stop fuel c) := by
  induction fuel generalizing c with
  | zero => exact hc
  | succ fuel ih =>
    rw [walk]
    split_ifs with hlt hb hl
    · exact ih ⟨by simp, by simp⟩
    · exact ih (hc.extend img hl hb)
    · exact hc
    · exact hc

theorem clusterWalk_cursorOk (start : ℤ) : CursorOk img (clusterWalk img start) :=
  walk_cursorOk img _ _ ⟨by simp, by simp⟩

theorem backPart_isLong {start : ℤ} {part : EntryPart}
    (h : backPart (clusterWalk img start) = some part) :
    ∃ p, part.entry = some p ∧ img.isLong p = true := by
  have hc := clusterWalk_cursorOk img start
  simp only [backPart] at h
  split_ifs at h with hne
  cases h
  refine ⟨_, rfl, ?_⟩
  obtain ⟨n, hn⟩ : ∃ n, (clusterWalk img start).currEntries = n + 1 := by
    refine Nat.exists_eq_succ_of_ne_zero fun h0 ↦ hne ?_
    simpa [h0] using hc.aligned.symm
  refine (hc.isOpen (img.entry (clusterWalk img start).curr) ?_).1
  rw [hn, Image.entries_succ]
  exact List.mem_cons_self

theorem frontPart_kind {start : ℤ} {part : EntryPart} (h : frontPart img start = some part) :
    part.entry = some start ∧ (img.isLong start = true ∨ img.isBasic start = true) := by
  simp only [frontPart] at h
  split_ifs at h with hl hb
  · cases h
    exact ⟨rfl, .inl hl.1⟩
  · cases h
    exact ⟨rfl, .inr hb⟩

theorem queuePart_ok {parts parts' : List EntryPart} {part : Option EntryPart}
    (h : queuePart parts part = .ok parts') : parts' = parts ++ part.toList := by
  cases part with
  | none => cases h; simp
  | some part =>
    simp only [queuePart] at h
    split_ifs at h
    cases h
    rfl

theorem queuePart_fits {parts : List EntryPart} {part : Option EntryPart}
    (h : (parts ++ part.toList).length ≤ Waiting.capacity) :
    queuePart parts part = .ok (parts ++ part.toList) := by
  cases part with
  | none => simp [queuePart]
  | some part =>
    simp only [Option.toList, List.length_append, List.length_singleton] at h
    exact if_pos (by omega)

/-- What a call of `search_cluster` stores, when it stores inside the arrays. -/
theorem searchCluster_ok {w w' : Waiting} {start : ℤ} {calls : List HandleCall}
    (h : searchCluster img w start = .ok (calls, w')) :
    calls = (clusterWalk img start).calls ∧
    w'.heads = w.heads ++ (backPart (clusterWalk img start)).toList ∧
    w'.tails = w.tails ++ (frontPart img start).toList := by
  obtain ⟨tails, ht, h⟩ := bind_ok h
  obtain ⟨heads, hh, h⟩ := bind_ok h
  cases h
  exact ⟨rfl, queuePart_ok hh, queuePart_ok ht⟩

theorem searchCluster_fits (w : Waiting) (start : ℤ)
    (hh : (w.heads ++ (backPart (clusterWalk img start)).toList).length ≤ Waiting.capacity)
    (ht : (w.tails ++ (frontPart img start).toList).length ≤ Waiting.capacity) :
    searchCluster img w start = .ok ((clusterWalk img start).calls,
      ⟨w.heads ++ (backPart (clusterWalk img start)).toList,
        w.tails ++ (frontPart img start).toList⟩) := by
  rw [searchCluster, queuePart_fits ht]
  simp only [bind, Except.bind, queuePart_fits hh]
  rfl

/-- The contents of the waiting lists that calls of `search_cluster` can produce,
on any clusters and in any order. -/
inductive Produced : Waiting → Prop
  | empty : Produced Waiting.empty
  | search {w w' : Waiting} {start : ℤ} {calls : List HandleCall} :
      Produced w → searchCluster img w start = .ok (calls, w') → Produced w'

theorem Produced.queued {w : Waiting} (h : Produced img w) : Queued img w := by
  induction h with
  | empty => exact ⟨by simp [Waiting.empty], by simp [Waiting.empty]⟩
  | @search w w' start calls _ hs ih =>
    obtain ⟨_, hheads, htails⟩ := searchCluster_ok img hs
    constructor
    · intro part hm
      rw [hheads] at hm
      rcases List.mem_append.mp hm with hm | hm
      · exact ih.heads part hm
      · exact backPart_isLong img (Option.mem_toList.mp hm)
    · intro part hm
      rw [htails] at hm
      rcases List.mem_append.mp hm with hm | hm
      · exact ih.tails part hm
      · obtain ⟨he, hk⟩ := frontPart_kind img (Option.mem_toList.mp hm)
        exact ⟨start, he, hk⟩

/-- Every state of the waiting arrays that `full_scan` reaches is produced by
calls of `search_cluster`. -/
theorem scan_produced {nums : List ℤ} {calls calls' : List HandleCall} {w w' : Waiting}
    (hw : Produced img w) (h : nums.foldlM (scanStep img) (calls, w) = .ok (calls', w')) :
    Produced img w' := by
  induction nums generalizing calls w with
  | nil => cases h; exact hw
  | cons num nums ih =>
    rw [List.foldlM_cons] at h
    obtain ⟨⟨calls₁, w₁⟩, hs, h⟩ := bind_ok h
    refine ih ?_ h
    simp only [scanStep] at hs
    split_ifs at hs
    · obtain ⟨⟨calls₂, w₂⟩, hsearch, he⟩ := bind_ok hs
      cases he
      exact hw.search hsearch
    · cases hs
      exact hw

theorem scanClusters_produced {calls : List HandleCall} {w : Waiting}
    (h : scanClusters img = .ok (calls, w)) : Produced img w := by
  rw [scanClusters] at h
  exact scan_produced img .empty h

theorem fullScan_ok {calls calls' : List HandleCall} {w : Waiting}
    (hscan : scanClusters img = .ok (calls, w)) (hmatch : matchEntries img w = .ok calls') :
    fullScan img = .ok (calls ++ calls') := by
  rw [fullScan, hscan]
  simp only [bind, Except.bind, hmatch, pure, Except.pure]

def searched (nums : List ℤ) : List ℤ :=
  (nums.map img.firstBytePtrOfCluster).filter
    fun p ↦ isDirentClusterPossibly img.totalClusters (img.entry p)

def walkedCalls (starts : List ℤ) : List HandleCall :=
  starts.flatMap fun p ↦ (clusterWalk img p).calls

def backParts (starts : List ℤ) : List EntryPart :=
  starts.filterMap fun p ↦ backPart (clusterWalk img p)

def frontParts (starts : List ℤ) : List EntryPart := starts.filterMap (frontPart img)

theorem searched_cons_of_pos {num : ℤ} {nums : List ℤ}
    (hp : isDirentClusterPossibly img.totalClusters (img.entry (img.firstBytePtrOfCluster num)) = true) :
    searched img (num :: nums) = img.firstBytePtrOfCluster num :: searched img nums := by
  simp [searched, hp]

theorem searched_cons_of_neg {num : ℤ} {nums : List ℤ}
    (hp : ¬ isDirentClusterPossibly img.totalClusters (img.entry (img.firstBytePtrOfCluster num)) = true) :
    searched img (num :: nums) = searched img nums := by
  simp [searched, hp]

theorem backParts_cons (start : ℤ) (starts : List ℤ) : backParts img (start :: starts) =
    (backPart (clusterWalk img start)).toList ++ backParts img starts := by
  simp only [backParts, List.filterMap_cons]
  cases backPart (clusterWalk img start) <;> rfl

theorem frontParts_cons (start : ℤ) (starts : List ℤ) : frontParts img (start :: starts) =
    (frontPart img start).toList ++ frontParts img starts := by
  simp only [frontParts, List.filterMap_cons]
  cases frontPart img start <;> rfl

/-- Clusters do not influence one another during the scan: each adds its own
calls, its own head and its own tail. -/
theorem scan_fits (nums : List ℤ) (calls : List HandleCall) (w : Waiting)
    (hh : (w.heads ++ backParts img (searched img nums)).length ≤ Waiting.capacity)
    (ht : (w.tails ++ frontParts img (searched img nums)).length ≤ Waiting.capacity) :
    nums.foldlM (scanStep img) (calls, w) = .ok (calls ++ walkedCalls img (searched img nums),
      ⟨w.heads ++ backParts img (searched img nums),
        w.tails ++ frontParts img (searched img nums)⟩) := by
  induction nums generalizing calls w with
  | nil => simp [searched, walkedCalls, backParts, frontParts, pure, Except.pure]
  | cons num nums ih =>
    rw [List.foldlM_cons, scanStep]
    by_cases hp : isDirentClusterPossibly img.totalClusters
        (img.entry (img.firstBytePtrOfCluster num))
    · rw [searched_cons_of_pos img hp] at hh ht ⊢
      rw [backParts_cons, ← List.append_assoc] at hh
      rw [frontParts_cons, ← List.append_assoc] at ht
      have hfit := searchCluster_fits img w (img.firstBytePtrOfCluster num)
        (by simp only [List.length_append] at hh ⊢; omega)
        (by simp only [List.length_append] at ht ⊢; omega)
      rw [if_pos hp, hfit]
      simp only [bind, Except.bind, pure, Except.pure]
      rw [ih _ _ hh ht, backParts_cons, frontParts_cons]
      simp [walkedCalls]
    · rw [searched_cons_of_neg img hp] at hh ht ⊢
      rw [if_neg hp]
      exact ih calls w hh ht

theorem scan_from_empty (nums : List ℤ) (hh : (backParts img (searched img nums)).length ≤ Waiting.capacity)
    (ht : (frontParts img (searched img nums)).length ≤ Waiting.capacity) :
    nums.foldlM (scanStep img) ([], Waiting.empty) = .ok (walkedCalls img (searched img nums),
      ⟨backParts img (searched img nums), frontParts img (searched img nums)⟩) := by
  have h := scan_fits img nums [] Waiting.empty
  simp only [Waiting.empty, List.nil_append] at h ⊢
  exact h hh ht

theorem scanClusters_fits
    (hh : (backParts img (searched img (clusterNumbers img))).length ≤ Waiting.capacity)
    (ht : (frontParts img (searched img (clusterNumbers img))).length ≤ Waiting.capacity) :
    scanClusters img = .ok (walkedCalls img (searched img (clusterNumbers img)),
      ⟨backParts img (searched img (clusterNumbers img)),
        frontParts img (searched img (clusterNumbers img))⟩) :=
  scan_from_empty img (clusterNumbers img) hh ht

end OsWorkbench.Fsrecov
