import OsWorkbench.Fsrecov.ScanResult
import OsWorkbench.Fsrecov.Format
import OsWorkbench.Library.Tiling
import Mathlib.Order.Bounds.Defs

namespace OsWorkbench.Fsrecov

open Library Grouping

variable (img : Image)

/-- The bytes of the entries behind a call of the walk. -/
def HandleCall.range : HandleCall → Option (ℤ × ℤ)
  | .walked p len => some (p, p + entrySize * len)
  | _ => none

def EntryPart.range (part : EntryPart) : Option (ℤ × ℤ) :=
  part.entry.map fun p ↦ (p, p + entrySize * part.len)

/-- A long entry that is not a short one. -/
def Image.OpenAt (p : ℤ) : Prop := img.isLong p = true ∧ img.isBasic p = false

/-- An entry that ends the walk. -/
def Image.NeitherAt (p : ℤ) : Prop := img.isLong p = false ∧ img.isBasic p = false

/-- What a turn of the loop keeps true of the cursor that started at `first`. -/
structure Walked (first : ℤ) (c : Cursor) : Prop extends CursorOk img c where
  tiles : Tiles first (c.calls.filterMap HandleCall.range) c.curr
  blocks : ∀ call ∈ c.calls, ∃ p len, call = .walked p len ∧
    Block (isDirentBasic img.totalClusters) isDirentLong (img.entries p len)
  closed : c.curr = first ∨ img.isBasic (c.curr - entrySize) = true

theorem CursorOk.curr_le {c : Cursor} (hc : CursorOk img c) : c.curr ≤ c.p := by
  have h := hc.aligned
  simp only [entrySize] at h
  omega

theorem Walked.handle {first : ℤ} {c : Cursor} (hc : Walked img first c)
    (hb : img.isBasic c.p = true) :
    Walked img first ⟨c.p + entrySize, c.p + entrySize, 0,
      c.calls ++ [.walked c.curr (c.currEntries + 1)]⟩ where
  aligned := by simp
  isOpen := by simp
  tiles := by
    have hend : c.curr + entrySize * (c.currEntries + 1 : ℕ) = c.p + entrySize := by
      rw [hc.aligned]
      push_cast
      ring
    have hle : c.curr ≤ c.p + entrySize := by
      have := hc.curr_le
      simp only [entrySize]
      omega
    rw [List.filterMap_append]
    apply hc.tiles.append
    simp only [List.filterMap_cons, List.filterMap_nil, HandleCall.range, hend]
    exact .singleton hle
  blocks := by
    intro call hcall
    rcases List.mem_append.mp hcall with hold | hnew
    · exact hc.blocks call hold
    · refine ⟨_, _, List.mem_singleton.mp hnew, _, _, img.entries_snoc _ _, hc.isOpen, ?_⟩
      rwa [← hc.aligned]
  closed := by
    right
    simpa using hb

theorem Walked.extend {first : ℤ} {c : Cursor} (hc : Walked img first c)
    (hl : img.isLong c.p = true) (hb : ¬ img.isBasic c.p = true) :
    Walked img first { c with p := c.p + entrySize, currEntries := c.currEntries + 1 } where
  toCursorOk := hc.toCursorOk.extend img hl hb
  tiles := hc.tiles
  blocks := hc.blocks
  closed := hc.closed

theorem walk_walked {first : ℤ} (stop : ℤ) (fuel : ℕ) {c : Cursor} (hc : Walked img first c) :
    Walked img first (walk img stop fuel c) := by
  induction fuel generalizing c with
  | zero => exact hc
  | succ fuel ih =>
    rw [walk]
    split_ifs with hlt hb hl
    · exact ih (hc.handle img hb)
    · exact ih (hc.extend img hl hb)
    · exact hc
    · exact hc

theorem clusterWalk_walked (start : ℤ) :
    Walked img (walkStart img start) (clusterWalk img start) :=
  walk_walked img _ _ ⟨⟨by simp, by simp⟩, rfl, by simp, .inl rfl⟩

/-- The walk passes over the entries of the two kinds, up to `stop`. -/
theorem walk_stops (stop : ℤ) (fuel : ℕ) (c : Cursor) (hfuel : stop ≤ c.p + entrySize * fuel) :
    ∃ k : ℕ, (walk img stop fuel c).p = c.p + entrySize * k ∧
      (∀ i < k, c.p + entrySize * i < stop ∧ ¬ img.NeitherAt (c.p + entrySize * i)) ∧
      (c.p + entrySize * k < stop → img.NeitherAt (c.p + entrySize * k)) := by
  induction fuel generalizing c with
  | zero =>
    refine ⟨0, by simp [walk], by simp, fun hlt ↦ ?_⟩
    simp only [Nat.cast_zero] at hfuel hlt
    exact absurd hlt (not_lt.mpr hfuel)
  | succ fuel ih =>
    have hpass : ∀ c' : Cursor, c'.p = c.p + entrySize → c.p < stop → ¬ img.NeitherAt c.p →
        ∃ k : ℕ, (walk img stop fuel c').p = c.p + entrySize * k ∧
          (∀ i < k, c.p + entrySize * i < stop ∧ ¬ img.NeitherAt (c.p + entrySize * i)) ∧
          (c.p + entrySize * k < stop → img.NeitherAt (c.p + entrySize * k)) := by
      intro c' hp hlt hkind
      have hshift : ∀ i : ℕ, c'.p + entrySize * i = c.p + entrySize * (i + 1 : ℕ) := by
        intro i
        rw [hp]
        push_cast
        ring
      obtain ⟨k, hend, hrun, hstop⟩ := ih c' (by rw [hshift]; exact hfuel)
      rw [hshift] at hend hstop
      refine ⟨k + 1, hend, ?_, hstop⟩
      intro i hi
      cases i with
      | zero =>
        simp only [Nat.cast_zero, mul_zero, add_zero]
        exact ⟨hlt, hkind⟩
      | succ i =>
        rw [← hshift]
        exact hrun i (Nat.lt_of_succ_lt_succ hi)
    rw [walk]
    split_ifs with hlt hb hl
    · exact hpass _ rfl hlt (by simp [Image.NeitherAt, hb])
    · exact hpass _ rfl hlt (by simp [Image.NeitherAt, hl])
    · refine ⟨0, by simp, by simp, fun _ ↦ ?_⟩
      simp only [Nat.cast_zero, mul_zero, add_zero]
      exact ⟨eq_false_of_ne_true hl, eq_false_of_ne_true hb⟩
    · refine ⟨0, by simp, by simp, fun h ↦ ?_⟩
      exact absurd (by simpa using h) hlt

theorem clusterWalk_stops (start : ℤ) :
    ∃ k : ℕ, (clusterWalk img start).p = start + entrySize * (frontLen img start + k : ℕ) ∧
      (∀ i < k, start + entrySize * (frontLen img start + i : ℕ) < start + clusterBytes img ∧
        ¬ img.NeitherAt (start + entrySize * (frontLen img start + i : ℕ))) ∧
      (start + entrySize * (frontLen img start + k : ℕ) < start + clusterBytes img →
        img.NeitherAt (start + entrySize * (frontLen img start + k : ℕ))) := by
  have hindex : ∀ i : ℕ, walkStart img start + entrySize * i =
      start + entrySize * (frontLen img start + i : ℕ) := by
    intro i
    rw [walkStart_eq]
    push_cast
    ring
  have h := walk_stops img (start + clusterBytes img) (clusterBytes img)
    ⟨walkStart img start, walkStart img start, 0, []⟩ (by
      simp only [walkStart_eq, entrySize]
      omega)
  simp only [hindex] at h
  exact h

/-- The addresses of the entries that the loop of `search_cluster` looks at. -/
def walkProbes (stop : ℤ) : ℕ → Cursor → List ℤ
  | 0, _ => []
  | fuel + 1, c =>
    if c.p < stop then
      c.p ::
        if img.isBasic c.p then
          walkProbes stop fuel ⟨c.p + entrySize, c.p + entrySize, 0,
            c.calls ++ [.walked c.curr (c.currEntries + 1)]⟩
        else if img.isLong c.p then
          walkProbes stop fuel { c with p := c.p + entrySize, currEntries := c.currEntries + 1 }
        else []
    else []

/-- The addresses of the entries that `search_cluster` looks at. -/
def probes (start : ℤ) : List ℤ :=
  let p := walkStart img start
  start :: walkProbes img (start + clusterBytes img) (clusterBytes img) ⟨p, p, 0, []⟩

theorem walkProbes_lt {stop : ℤ} (fuel : ℕ) (c : Cursor) :
    ∀ a ∈ walkProbes img stop fuel c, ∃ i : ℕ, a = c.p + entrySize * i ∧ a < stop := by
  induction fuel generalizing c with
  | zero => simp [walkProbes]
  | succ fuel ih =>
    have hlater : ∀ c' : Cursor, c'.p = c.p + entrySize →
        ∀ a ∈ walkProbes img stop fuel c', ∃ i : ℕ, a = c.p + entrySize * i ∧ a < stop := by
      intro c' hp a ha
      obtain ⟨i, rfl, hlt⟩ := ih c' a ha
      refine ⟨i + 1, ?_, hlt⟩
      rw [hp]
      push_cast
      ring
    intro a ha
    rw [walkProbes] at ha
    split_ifs at ha with hlt hb hl
    · rcases List.mem_cons.mp ha with rfl | ha
      · exact ⟨0, by simp, hlt⟩
      · exact hlater _ rfl a ha
    · rcases List.mem_cons.mp ha with rfl | ha
      · exact ⟨0, by simp, hlt⟩
      · exact hlater _ rfl a ha
    · rw [List.mem_singleton.mp ha]
      exact ⟨0, by simp, hlt⟩
    · cases ha

theorem Image.kinds_congr {img img' : Image} (htotal : img'.totalClusters = img.totalClusters) {p : ℤ}
    (h : img'.entry p = img.entry p) :
    img'.isBasic p = img.isBasic p ∧ img'.isLong p = img.isLong p := by
  rw [Image.isBasic, Image.isBasic, Image.isLong, Image.isLong, h, htotal]
  exact ⟨rfl, rfl⟩

theorem walk_congr {img img' : Image} (htotal : img'.totalClusters = img.totalClusters) {stop : ℤ}
    (fuel : ℕ) (c : Cursor) (h : ∀ a ∈ walkProbes img stop fuel c, img'.entry a = img.entry a) :
    walk img' stop fuel c = walk img stop fuel c := by
  induction fuel generalizing c with
  | zero => rfl
  | succ fuel ih =>
    rw [walkProbes] at h
    rw [walk, walk]
    by_cases hlt : c.p < stop
    · rw [if_pos hlt] at h
      obtain ⟨hentry, hlater⟩ := List.forall_mem_cons.mp h
      obtain ⟨hbasic, hlong⟩ := Image.kinds_congr htotal hentry
      rw [if_pos hlt, if_pos hlt, hbasic, hlong]
      split_ifs at hlater ⊢
      · exact ih _ hlater
      · exact ih _ hlater
      · rfl
    · rw [if_neg hlt, if_neg hlt]

/-- What `search_cluster` does depends only on the entries that it looks at. -/
theorem searchCluster_congr {img img' : Image} (htotal : img'.totalClusters = img.totalClusters)
    (hbytes : clusterBytes img' = clusterBytes img) {start : ℤ}
    (h : ∀ a ∈ probes img start, img'.entry a = img.entry a) (w : Waiting) :
    searchCluster img' w start = searchCluster img w start := by
  obtain ⟨hentry, hlater⟩ := List.forall_mem_cons.mp h
  have hfront : frontPart img' start = frontPart img start := by
    obtain ⟨hbasic, hlong⟩ := Image.kinds_congr htotal hentry
    rw [frontPart, frontPart, hbasic, hlong, hentry]
  have hwalk : clusterWalk img' start = clusterWalk img start := by
    simp only [clusterWalk, walkStart, hfront, hbytes]
    exact walk_congr htotal _ _ hlater
  rw [searchCluster, searchCluster, hfront, hwalk]

/-- The ranges of a cluster, in order: the tail, the calls of `handle`, and the head. -/
def partRanges (start : ℤ) : List (ℤ × ℤ) :=
  (frontPart img start).toList.filterMap EntryPart.range ++
    (clusterWalk img start).calls.filterMap HandleCall.range ++
    (backPart (clusterWalk img start)).toList.filterMap EntryPart.range

theorem frontPart_tiles (start : ℤ) :
    Tiles start ((frontPart img start).toList.filterMap EntryPart.range) (walkStart img start) := by
  cases hf : frontPart img start with
  | none =>
    simp only [walkStart, hf, Option.elim, Nat.cast_zero, mul_zero, add_zero]
    rfl
  | some part =>
    have hentry := (frontPart_kind img hf).1
    have hle : start ≤ start + entrySize * part.len := by
      simp only [entrySize]
      omega
    simp only [Option.toList, List.filterMap_cons, List.filterMap_nil, EntryPart.range, hentry,
      Option.map_some, walkStart, hf, Option.elim]
    exact .singleton hle

theorem CursorOk.backPart_tiles {c : Cursor} (hc : CursorOk img c) :
    Tiles c.curr ((backPart c).toList.filterMap EntryPart.range) c.p := by
  rw [backPart]
  split_ifs with hne
  · simp only [Option.toList, List.filterMap_cons, List.filterMap_nil, EntryPart.range,
      Option.map_some, ← hc.aligned]
    exact .singleton (hc.curr_le img)
  · exact not_not.mp hne

theorem partRanges_tiles (start : ℤ) :
    Tiles start (partRanges img start) (clusterWalk img start).p :=
  ((frontPart_tiles img start).append (clusterWalk_walked img start).tiles).append
    (clusterWalk_cursorOk img start).backPart_tiles

/-- A head is queued exactly when the walk came past an entry that left a sequence open. -/
theorem Walked.backPart_isSome {first : ℤ} {c : Cursor} (hc : Walked img first c) :
    (backPart c).isSome ↔ first < c.p ∧ img.OpenAt (c.p - entrySize) := by
  have haligned := hc.aligned
  rw [backPart]
  split_ifs with hne
  · have hfirst := hc.tiles.le
    have hle := hc.curr_le
    obtain ⟨n, hn⟩ : ∃ n, c.currEntries = n + 1 := by
      refine Nat.exists_eq_succ_of_ne_zero fun h0 ↦ hne ?_
      simpa [h0] using haligned.symm
    have hlast : c.p - entrySize = c.curr + entrySize * n := by
      rw [haligned, hn]
      push_cast
      ring
    have hopen := hc.isOpen (img.entry (c.p - entrySize))
      (by rw [hn, Image.entries_snoc, hlast]; simp)
    simp only [Option.isSome_some, true_iff]
    exact ⟨by omega, hopen⟩
  · have heq : c.curr = c.p := not_not.mp hne
    simp only [Option.isSome_none, Bool.false_eq_true, false_iff, not_and]
    intro hlt hopen
    rcases hc.closed with hc | hb
    · omega
    · rw [heq, hopen.2] at hb
      cases hb

theorem frontPart_len {start : ℤ} {part : EntryPart} (h : frontPart img start = some part) :
    part.len = 1 ∨ part.len = (img.entry start).ldirOrd.toNat + 1 ∧ part.len ≤ 21 := by
  simp only [frontPart] at h
  split_ifs at h with hl hb
  · cases h
    exact .inr ⟨rfl, Nat.succ_le_succ (ldirOrd_of_isDirentLong hl.1 hl.2).2⟩
  · cases h
    exact .inl rfl

theorem frontLen_le (start : ℤ) : frontLen img start ≤ 21 := by
  rw [frontLen]
  cases hf : frontPart img start with
  | none => exact Nat.zero_le _
  | some part =>
    simp only [Option.elim]
    have h := frontPart_len img hf
    omega

/-- What `search_cluster` does with the entries `[0, e)` of the cluster at `start`, of which it has
`N`. It looks at none outside the cluster: what it does is the same on every image that has the
same entries where it looks. -/
structure Partition (start : ℤ) (N e : ℕ) : Prop where
  tiles : Tiles start (partRanges img start) (start + entrySize * e)
  front : ∀ part ∈ frontPart img start, part.entry = some start ∧
    (part.len = 1 ∨ part.len = (img.entry start).ldirOrd.toNat + 1)
  blocks : ∀ call ∈ (clusterWalk img start).calls, ∃ p len, call = .walked p len ∧
    Block (isDirentBasic img.totalClusters) isDirentLong (img.entries p len)
  head : ∀ part ∈ backPart (clusterWalk img start), ∃ p, part.entry = some p ∧ 0 < part.len ∧
    ∀ x ∈ img.entries p part.len, Open (isDirentBasic img.totalClusters) isDirentLong x
  head_isSome : (backPart (clusterWalk img start)).isSome ↔
    frontLen img start < e ∧ img.OpenAt (start + entrySize * (e - 1 : ℕ))
  inside : ∀ a ∈ probes img start, ∃ i < N, a = start + entrySize * i
  reads : ∀ img' : Image, img'.totalClusters = img.totalClusters →
    clusterBytes img' = clusterBytes img → (∀ a ∈ probes img start, img'.entry a = img.entry a) →
    ∀ w, searchCluster img' w start = searchCluster img w start
  fits : ∀ w : Waiting,
    (w.heads ++ (backPart (clusterWalk img start)).toList).length ≤ Waiting.capacity →
    (w.tails ++ (frontPart img start).toList).length ≤ Waiting.capacity →
    searchCluster img w start = .ok ((clusterWalk img start).calls,
      ⟨w.heads ++ (backPart (clusterWalk img start)).toList,
        w.tails ++ (frontPart img start).toList⟩)
  stores : ∀ w calls w', searchCluster img w start = .ok (calls, w') →
    calls = (clusterWalk img start).calls ∧
    w'.heads = w.heads ++ (backPart (clusterWalk img start)).toList ∧
    w'.tails = w.tails ++ (frontPart img start).toList

theorem probes_inside {N : ℕ} (hsize : clusterBytes img = 32 * N) (hN : 0 < N) (start : ℤ) :
    ∀ a ∈ probes img start, ∃ i < N, a = start + entrySize * i := by
  intro a ha
  rcases List.mem_cons.mp ha with rfl | ha
  · exact ⟨0, hN, by simp⟩
  · obtain ⟨i, rfl, hlt⟩ := walkProbes_lt img _ _ a ha
    simp only [walkStart_eq, hsize, entrySize] at hlt ⊢
    refine ⟨frontLen img start + i, by omega, ?_⟩
    push_cast
    ring

theorem backPart_open {start : ℤ} {part : EntryPart}
    (h : backPart (clusterWalk img start) = some part) : ∃ p, part.entry = some p ∧ 0 < part.len ∧
      ∀ x ∈ img.entries p part.len, Open (isDirentBasic img.totalClusters) isDirentLong x := by
  have hc := clusterWalk_cursorOk img start
  simp only [backPart] at h
  split_ifs at h with hne
  cases h
  refine ⟨_, rfl, Nat.pos_of_ne_zero fun h0 ↦ hne ?_, hc.isOpen⟩
  have h0' : (clusterWalk img start).currEntries = 0 := h0
  simpa [h0'] using hc.aligned.symm

theorem backPart_isSome_iff {start : ℤ} {e : ℕ}
    (hp : (clusterWalk img start).p = start + entrySize * e) :
    (backPart (clusterWalk img start)).isSome ↔
      frontLen img start < e ∧ img.OpenAt (start + entrySize * (e - 1 : ℕ)) := by
  rw [(clusterWalk_walked img start).backPart_isSome, hp, walkStart_eq]
  have hprev : 0 < e → start + entrySize * e - entrySize = start + entrySize * (e - 1 : ℕ) := by
    intro he
    simp only [entrySize]
    omega
  constructor
  · rintro ⟨hlt, hopen⟩
    have hlt' : frontLen img start < e := by
      simp only [entrySize] at hlt
      omega
    rw [hprev (Nat.zero_lt_of_lt hlt')] at hopen
    exact ⟨hlt', hopen⟩
  · rintro ⟨hlt, hopen⟩
    rw [hprev (Nat.zero_lt_of_lt hlt)]
    refine ⟨?_, hopen⟩
    simp only [entrySize]
    omega

/-- The walk stops at the first entry of neither kind. -/
theorem exists_stop {N : ℕ} (hsize : clusterBytes img = 32 * N) (hN : 21 ≤ N) (start : ℤ) :
    ∃ e, IsLeast {i | frontLen img start ≤ i ∧
        (i = N ∨ i < N ∧ img.NeitherAt (start + entrySize * i))} e ∧
      (clusterWalk img start).p = start + entrySize * e := by
  have hfront := frontLen_le img start
  obtain ⟨k, hp, hrun, hstop⟩ := clusterWalk_stops img start
  simp only [hsize] at hrun hstop
  have hle : frontLen img start + k ≤ N := by
    cases k with
    | zero => omega
    | succ k =>
      have hlast := (hrun k (Nat.lt_succ_self k)).1
      simp only [entrySize] at hlast
      omega
  refine ⟨frontLen img start + k, ⟨⟨Nat.le_add_right _ _, ?_⟩, ?_⟩, hp⟩
  · rcases Nat.lt_or_ge (frontLen img start + k) N with hlt | hge
    · exact .inr ⟨hlt, hstop (by simp only [entrySize]; omega)⟩
    · exact .inl (le_antisymm hle hge)
  · rintro i ⟨hi, hend⟩
    by_contra hlt
    obtain ⟨j, rfl⟩ := Nat.exists_eq_add_of_le hi
    obtain ⟨hin, hkind⟩ := hrun j (by omega)
    rcases hend with rfl | ⟨-, hneither⟩
    · simp only [entrySize] at hin
      omega
    · exact hkind hneither

/-- The walk of a cluster partitions its entries, up to the first one behind the tail that
is of neither kind. -/
theorem search_partition {N : ℕ} (hsize : clusterBytes img = 32 * N) (hN : 21 ≤ N) (start : ℤ) :
    ∃ e, IsLeast {i | frontLen img start ≤ i ∧
        (i = N ∨ i < N ∧ img.NeitherAt (start + entrySize * i))} e ∧ Partition img start N e := by
  obtain ⟨e, hleast, hp⟩ := exists_stop img hsize hN start
  refine ⟨e, hleast, ?_⟩
  constructor
  · rw [← hp]
    exact partRanges_tiles img start
  · intro part hpart
    exact ⟨(frontPart_kind img hpart).1, (frontPart_len img hpart).imp_right And.left⟩
  · exact (clusterWalk_walked img start).blocks
  · intro part hpart
    exact backPart_open img hpart
  · exact backPart_isSome_iff img hp
  · exact probes_inside img hsize (by omega) start
  · intro img' htotal hbytes hentries
    exact searchCluster_congr htotal hbytes hentries
  · exact fun w ↦ searchCluster_fits img w start
  · intro w calls w' hsearch
    exact searchCluster_ok img hsearch

/-- A cluster that begins with a deleted entry, an open name behind it. -/
def openImage : Image := pagedGeometry.format fun k ↦
  if k = 0 then slotOfBytes [0xE5]
  else if k = 1 then slotOfBytes (0x41 :: List.replicate 10 0x41 ++ [attrLongName])
  else slotOfBytes []

theorem open_partition : ∃ e, IsLeast {i | frontLen openImage 1024 ≤ i ∧
      (i = 32 ∨ i < 32 ∧ openImage.NeitherAt (1024 + entrySize * i))} e ∧
    Partition openImage 1024 32 e :=
  search_partition openImage (by decide +kernel) (by decide) 1024

end OsWorkbench.Fsrecov
