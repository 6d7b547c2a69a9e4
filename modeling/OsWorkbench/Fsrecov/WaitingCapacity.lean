import OsWorkbench.Fsrecov.Addressing
import OsWorkbench.Fsrecov.LegalRuns

namespace OsWorkbench.Fsrecov

open Library Grouping

variable (img : Image)

/-- The cluster begins with a short entry, or inside a long name. -/
def StartsInside (start : ℤ) : Prop :=
  img.isBasic start = true ∨
    (img.isLong start = true ∧ (img.entry start).ldirOrd &&& lastLongEntry = 0)

instance (start : ℤ) : Decidable (StartsInside img start) :=
  inferInstanceAs (Decidable (_ ∨ _ ∧ _))

/-- The entries of the cluster end inside a long name. -/
def EndsInside (start : ℤ) : Prop :=
  EndsOpen (isDirentBasic img.totalClusters) isDirentLong
    ((img.entries start (slots img)).drop (frontLen img start))

instance (start : ℤ) : Decidable (EndsInside img start) :=
  inferInstanceAs (Decidable (EndsOpen _ _ _))

theorem isSome_frontPart (start : ℤ) : (frontPart img start).isSome = decide (StartsInside img start) := by
  simp only [frontPart, StartsInside]
  split_ifs with hl hb
  · simp [hl]
  · simp [hb]
  · simp [hl, hb]

theorem isSome_backPart (h32 : 32 ∣ clusterBytes img) (start : ℤ) :
    (backPart (clusterWalk img start)).isSome = decide (EndsInside img start) := by
  have hw := clusterWalk_refines img h32 start
  have hpending : (clusterGroups img start).pending ≠ [] ↔ EndsInside img start := by
    rw [clusterGroups, groupEntries, group_pending_ne_nil]
    simp [EndsInside]
  have hlen : (clusterWalk img start).currEntries = (clusterGroups img start).pending.length := by
    rw [← hw.pending, Image.length_entries]
  have hp := hw.aligned
  rw [hlen] at hp
  rw [Bool.eq_iff_iff, decide_eq_true_eq, ← hpending, ← List.length_pos_iff, backPart]
  simp only [entrySize] at hp
  split_ifs with hne
  · exact ⟨fun _ ↦ by omega, fun _ ↦ rfl⟩
  · exact ⟨fun h ↦ by simp at h, fun h ↦ by omega⟩

def directoryClusters : List ℤ := searched img (clusterNumbers img)

theorem length_frontParts (starts : List ℤ) :
    (frontParts img starts).length = starts.countP (StartsInside img ·) := by
  rw [frontParts, List.length_filterMap_eq_countP]
  exact List.countP_congr fun p _ ↦ by rw [isSome_frontPart]

theorem length_backParts (h32 : 32 ∣ clusterBytes img) (starts : List ℤ) :
    (backParts img starts).length = starts.countP (EndsInside img ·) := by
  rw [backParts, List.length_filterMap_eq_countP]
  exact List.countP_congr fun p _ ↦ by rw [isSome_backPart img h32]

variable {img}

theorem queuePart_capacity {parts parts' : List EntryPart} {part : Option EntryPart}
    (hparts : parts.length ≤ Waiting.capacity) (h : queuePart parts part = .ok parts') :
    parts'.length ≤ Waiting.capacity := by
  cases part with
  | none =>
    cases h
    exact hparts
  | some part =>
    simp only [queuePart] at h
    split_ifs at h with hlt
    cases h
    simp only [List.length_append, List.length_singleton]
    omega

theorem queuePart_error {parts : List EntryPart} {part : Option EntryPart} {e : Fault}
    (h : queuePart parts part = .error e) : e = .arrayOverflow := by
  cases part with
  | none => cases h
  | some part =>
    simp only [queuePart] at h
    split_ifs at h
    cases h
    rfl

/-- The only fault of a call of `search_cluster` is a store behind an array. -/
theorem searchCluster_error {w : Waiting} {start : ℤ} {e : Fault}
    (h : searchCluster img w start = .error e) : e = .arrayOverflow := by
  rw [searchCluster] at h
  cases ht : queuePart w.tails (frontPart img start) with
  | error e' =>
    rw [ht] at h
    cases h
    exact queuePart_error ht
  | ok tails =>
    cases hh : queuePart w.heads (backPart (clusterWalk img start)) with
    | error e' =>
      rw [ht] at h
      simp only [bind, Except.bind, hh] at h
      cases h
      exact queuePart_error hh
    | ok heads =>
      rw [ht] at h
      simp only [bind, Except.bind, hh] at h
      cases h

theorem scanStep_error {acc : List HandleCall × Waiting} {num : ℤ} {e : Fault}
    (h : scanStep img acc num = .error e) : e = .arrayOverflow := by
  simp only [scanStep] at h
  split_ifs at h
  · cases hs : searchCluster img acc.2 (img.firstBytePtrOfCluster num) with
    | error e' =>
      rw [hs] at h
      cases h
      exact searchCluster_error hs
    | ok r =>
      rw [hs] at h
      cases h
  · cases h

theorem scan_error {nums : List ℤ} {acc : List HandleCall × Waiting} {e : Fault}
    (h : nums.foldlM (scanStep img) acc = .error e) : e = .arrayOverflow := by
  induction nums generalizing acc with
  | nil => cases h
  | cons num nums ih =>
    rw [List.foldlM_cons] at h
    cases hs : scanStep img acc num with
    | error e' =>
      rw [hs] at h
      cases h
      exact scanStep_error hs
    | ok acc' =>
      rw [hs] at h
      exact ih h

structure Waiting.Within (w : Waiting) : Prop where
  heads : w.heads.length ≤ Waiting.capacity
  tails : w.tails.length ≤ Waiting.capacity

/-- Stores that were all inside the arrays leave the counts within them. -/
theorem Produced.within {w : Waiting} (h : Produced img w) : w.Within := by
  induction h with
  | empty => exact ⟨by simp [Waiting.empty], by simp [Waiting.empty]⟩
  | @search w w' start calls _ hs ih =>
    obtain ⟨tails, ht, hs⟩ := bind_ok hs
    obtain ⟨heads, hh, hs⟩ := bind_ok hs
    cases hs
    exact ⟨queuePart_capacity ih.heads hh, queuePart_capacity ih.tails ht⟩

/-- A scan that stores inside the arrays has queued the parts of all the clusters. -/
theorem scan_waiting {nums : List ℤ} {calls calls' : List HandleCall} {w w' : Waiting}
    (h : nums.foldlM (scanStep img) (calls, w) = .ok (calls', w')) :
    w'.heads = w.heads ++ backParts img (searched img nums) ∧
    w'.tails = w.tails ++ frontParts img (searched img nums) := by
  induction nums generalizing calls w with
  | nil =>
    cases h
    simp [searched, backParts, frontParts]
  | cons num nums ih =>
    rw [List.foldlM_cons] at h
    obtain ⟨⟨calls₁, w₁⟩, hs, h⟩ := bind_ok h
    obtain ⟨hheads, htails⟩ := ih h
    simp only [scanStep] at hs
    split_ifs at hs with hp
    · obtain ⟨⟨calls₂, w₂⟩, hsearch, he⟩ := bind_ok hs
      cases he
      obtain ⟨-, hh, ht⟩ := searchCluster_ok img hsearch
      rw [searched_cons_of_pos img hp, backParts_cons, frontParts_cons, hheads, htails, hh, ht]
      simp
    · cases hs
      rw [searched_cons_of_neg img hp]
      exact ⟨hheads, htails⟩

theorem scan_waiting_empty {nums : List ℤ} {calls : List HandleCall} {w : Waiting}
    (h : nums.foldlM (scanStep img) ([], .empty) = .ok (calls, w)) :
    w.heads = backParts img (searched img nums) ∧ w.tails = frontParts img (searched img nums) := by
  have hw := scan_waiting h
  rwa [Waiting.empty, List.nil_append, List.nil_append] at hw

variable (img)

theorem waiting_le_of_fullScan (h : img.WellFormed) (hscan : fullScan img ≠ .error .arrayOverflow) :
    (directoryClusters img).countP (StartsInside img ·) ≤ Waiting.capacity ∧
      (directoryClusters img).countP (EndsInside img ·) ≤ Waiting.capacity := by
  rw [← length_frontParts, ← length_backParts img h.dvd_clusterBytes, directoryClusters]
  cases hc : scanClusters img with
  | error e =>
    rw [scan_error hc] at hc
    exact absurd (by rw [fullScan, hc]; rfl) hscan
  | ok r =>
    obtain ⟨hheads, htails⟩ := scan_waiting_empty hc
    have hw := (scanClusters_produced img hc).within
    exact ⟨htails ▸ hw.tails, hheads ▸ hw.heads⟩

/-- No store of `search_cluster` is behind the end of `heads` or of `tails` exactly
when at most ten directory clusters begin inside an entry sequence or with a short
entry, and at most ten end inside one. -/
theorem fullScan_storesInside_iff (h : img.WellFormed) :
    fullScan img ≠ .error .arrayOverflow ↔
      (directoryClusters img).countP (StartsInside img ·) ≤ Waiting.capacity ∧
      (directoryClusters img).countP (EndsInside img ·) ≤ Waiting.capacity := by
  refine ⟨waiting_le_of_fullScan img h, ?_⟩
  rw [← length_frontParts, ← length_backParts img h.dvd_clusterBytes, directoryClusters]
  rintro ⟨ht, hh⟩
  have hc := scanClusters_fits img hh ht
  have hm := matchEntries_spec img (scanClusters_produced img hc).queued
  rw [fullScan_ok img hc hm]
  exact nofun

/-- The two entries that every subdirectory begins with. -/
def dotSlot (clus : ℕ) : Entry :=
  slotOfBytes (0x2E :: List.replicate 10 0x20 ++ [0x10] ++ List.replicate 14 0 ++ [UInt8.ofNat clus])

def dotDotSlot : Entry := slotOfBytes (0x2E :: 0x2E :: List.replicate 9 0x20 ++ [0x10])

/-- The clusters 3 to 13 are eleven subdirectories of the root directory, otherwise empty. -/
def subdirectories : Image := wideGeometry.format fun k ↦
  if 16 ≤ k ∧ k < 192 ∧ k % 16 = 0 then dotSlot (k / 16 + 2)
  else if 16 ≤ k ∧ k < 192 ∧ k % 16 = 1 then dotDotSlot
  else slotOfBytes []

theorem read_wideGeometry (slot : ℕ → Entry) : (wideGeometry.format slot).bpbBytsPerSec = 512 ∧
    (wideGeometry.format slot).bpbSecPerClus = 1 ∧ (wideGeometry.format slot).bpbTotSec32 = 140000 ∧
    (wideGeometry.format slot).reservedSectors = 1101 := by
  obtain ⟨hb, hs, hr, hn, hf, ht⟩ := Geometry.read_format slot wideGeometry_fits
  exact ⟨hb, hs, ht, by rw [Image.reservedSectors, hr, hn, hf]; rfl⟩

theorem wideGeometry_wellFormed (slot : ℕ → Entry) : (wideGeometry.format slot).WellFormed := by
  obtain ⟨hb, hs, ht, hr⟩ := read_wideGeometry slot
  exact ⟨⟨9, by omega, by omega, hb⟩, ⟨0, hs⟩, by omega⟩

theorem wideGeometry_mapped (slot : ℕ → Entry) : (wideGeometry.format slot).Mapped 71680000 := by
  obtain ⟨hb, -, ht, -⟩ := read_wideGeometry slot
  refine ⟨Geometry.u16_format slot wideGeometry_fits (by decide), ?_⟩
  simp only [hb, ht, Nat.reduceMul, Nat.reducePow, Nat.reduceMod]

theorem firstBytePtrOfCluster_wideGeometry (slot : ℕ → Entry) {k : ℕ} (hk : k < 138899) :
    (wideGeometry.format slot).firstBytePtrOfCluster ((k : ℤ) + 2) =
      wideGeometry.dataStart + entrySize * (16 * k : ℕ) := by
  obtain ⟨hb, hs, -, hr⟩ := read_wideGeometry slot
  have hstart : wideGeometry.dataStart = 563712 := rfl
  have hexact : (wideGeometry.format slot).exactOffset ((k : ℤ) + 2) =
      wideGeometry.dataStart + entrySize * (16 * k : ℕ) := by
    rw [Image.exactOffset, hb, hs, hr, hstart, entrySize]
    omega
  have hlt : (wideGeometry.format slot).exactOffset ((k : ℤ) + 2) < 2 ^ 31 := by
    rw [hexact, hstart, entrySize]
    omega
  rw [Image.firstBytePtrOfCluster_exact (wideGeometry_wellFormed slot) (by omega) hlt, hexact]

theorem isBasic_subdirectories {k : ℕ} (hk : 1 ≤ k) (hk' : k ≤ 11) :
    subdirectories.isBasic (subdirectories.firstBytePtrOfCluster ((k : ℤ) + 2)) = true := by
  have hentry : subdirectories.entry (subdirectories.firstBytePtrOfCluster ((k : ℤ) + 2)) =
      dotSlot (k + 2) := by
    have hcase : 16 ≤ 16 * k ∧ 16 * k < 192 ∧ 16 * k % 16 = 0 := by omega
    rw [subdirectories, firstBytePtrOfCluster_wideGeometry _ (by omega), Geometry.entry_format,
      if_pos hcase, Nat.mul_div_cancel_left k (by decide)]
  rw [Image.isBasic, hentry]
  exact isDirentBasic_of_special ⟨(by decide : (0x2E : UInt8) ≠ 0),
    (by decide : (0x10 : UInt8) &&& 0b11000000 = 0), rfl⟩ (.inl rfl)

theorem subdirectories_count :
    11 ≤ (directoryClusters subdirectories).countP (StartsInside subdirectories ·) := by
  have hsub : (List.range' 1 11).Sublist (List.range subdirectories.totalClusters.toNat) := by
    rw [subdirectories, totalClusters_wideGeometry, List.range_eq_range',
      show (138899 : ℤ).toNat = 1 + (11 + 138887) from rfl, ← List.range'_append_1]
    exact (List.range'_sublist_right.mpr (by decide)).trans (List.sublist_append_right _ _)
  have hle := ((hsub.map (fun k : ℕ ↦ (k : ℤ) + 2)).map
    subdirectories.firstBytePtrOfCluster).filter
      fun p ↦ isDirentClusterPossibly subdirectories.totalClusters (subdirectories.entry p)
  refine le_trans ?_ hle.countP_le
  have hbasic : ∀ p ∈ ((List.range' 1 11).map (fun k : ℕ ↦ (k : ℤ) + 2)).map
      subdirectories.firstBytePtrOfCluster, subdirectories.isBasic p = true := by
    intro p hp
    obtain ⟨n, hn, rfl⟩ := List.mem_map.mp hp
    obtain ⟨k, hk, rfl⟩ := List.mem_map.mp hn
    rw [List.mem_range'_1] at hk
    exact isBasic_subdirectories (by omega) (by omega)
  have hpossibly : ∀ p ∈ ((List.range' 1 11).map (fun k : ℕ ↦ (k : ℤ) + 2)).map
      subdirectories.firstBytePtrOfCluster,
      isDirentClusterPossibly subdirectories.totalClusters (subdirectories.entry p) = true :=
    fun p hp ↦ (Bool.or_eq_true _ _).mpr (.inl (hbasic p hp))
  have hstarts : ∀ p ∈ ((List.range' 1 11).map (fun k : ℕ ↦ (k : ℤ) + 2)).map
      subdirectories.firstBytePtrOfCluster, decide (StartsInside subdirectories p) = true :=
    fun p hp ↦ decide_eq_true (Or.inl (hbasic p hp))
  rw [List.filter_eq_self.mpr hpossibly, List.countP_eq_length.mpr hstarts]
  simp

theorem subdirectories_overflow : subdirectories.Mapped 71680000 ∧ subdirectories.WellFormed ∧
    fullScan subdirectories = .error .arrayOverflow := by
  refine ⟨wideGeometry_mapped _, wideGeometry_wellFormed _, ?_⟩
  by_contra hne
  have hcount := (waiting_le_of_fullScan subdirectories (wideGeometry_wellFormed _) hne).1
  have h11 := subdirectories_count
  unfold Waiting.capacity at hcount
  omega

theorem subdirectories_storesInside_iff : fullScan subdirectories ≠ .error .arrayOverflow ↔
    (directoryClusters subdirectories).countP (StartsInside subdirectories ·) ≤ Waiting.capacity ∧
    (directoryClusters subdirectories).countP (EndsInside subdirectories ·) ≤ Waiting.capacity :=
  fullScan_storesInside_iff subdirectories (wideGeometry_wellFormed _)

end OsWorkbench.Fsrecov
