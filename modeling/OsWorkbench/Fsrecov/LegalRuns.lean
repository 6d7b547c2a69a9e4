import OsWorkbench.Fsrecov.Coverage

namespace OsWorkbench.Fsrecov

def Entry.firstCluster (e : Entry) : ℕ := 65536 * e.dirFstClusHI + e.dirFstClusLO

theorem Entry.clusNum_of_lt {e : Entry} (h : e.firstCluster < 2 ^ 28) :
    e.clusNum = e.firstCluster := by
  unfold firstCluster at h
  rw [clusNum_eq, firstCluster, toInt32_of_bounds (by omega) (by omega)]
  push_cast
  rfl

/-- What the format demands of a short entry, whatever it stands for. -/
structure Entry.ShortFields (e : Entry) : Prop where
  name : e.dirName0 ≠ 0
  attr : e.dirAttr &&& 0b11000000 = 0
  ntRes : e.dirNTRes = 0

/-- A short entry in use that is neither `.` nor `..`. -/
def Entry.Named (e : Entry) : Prop :=
  e.dirAttr ≠ attrLongName ∧ e.dirName0 ≠ 0xE5 ∧ e.dirName0 ≠ 0x2E

/-- The kinds of entries that the format allows in front of the end marker. A
file or a directory has clusters of the volume, an empty file or a volume label
has the first cluster 0. -/
inductive Legal (totalClusters : ℤ) (e : Entry) : Prop
  | deleted (hf : e.ShortFields) (hn : e.dirName0 = 0xE5)
  | dot (hf : e.ShortFields) (hn : e.dirName0 = 0x2E)
  | file (hf : e.ShortFields) (hn : e.Named) (hc : 2 ≤ e.firstCluster)
      (hc' : e.firstCluster ≤ totalClusters + 1) (h28 : e.firstCluster < 2 ^ 28)
  | empty (hf : e.ShortFields) (hn : e.Named) (hc : e.firstCluster = 0) (hs : e.dirFileSize = 0)
  | long (n : ℕ) (hn : 1 ≤ n) (hn' : n ≤ 20)
      (ho : e.ldirOrd = UInt8.ofNat n ∨ e.ldirOrd = UInt8.ofNat n ||| lastLongEntry)
      (ha : e.ldirAttr = attrLongName) (ht : e.ldirType = 0) (hc : e.ldirFstClusLO = 0)

theorem isDirentBasic_of_special {totalClusters : ℤ} {e : Entry} (hf : e.ShortFields)
    (hn : e.dirName0 = 0x2E ∨ e.dirName0 = 0xE5) : isDirentBasic totalClusters e = true := by
  simp [isDirentBasic, hf.name, hf.attr, hf.ntRes, hn]

theorem isDirentBasic_of_file {totalClusters : ℤ} {e : Entry} (hf : e.ShortFields)
    (hc : 2 ≤ e.firstCluster) (hc' : e.firstCluster ≤ totalClusters + 1)
    (h28 : e.firstCluster < 2 ^ 28) (hs : e.dirFileSize ≤ 64 * 1024 * 1024) :
    isDirentBasic totalClusters e = true := by
  have hclus := Entry.clusNum_of_lt h28
  have hrange : ¬ (e.clusNum < 2 ∨ totalClusters + 1 < e.clusNum) := by omega
  have hsize : ¬ 64 * 1024 * 1024 < e.dirFileSize := by omega
  simp only [isDirentBasic, hf.name, hf.attr, hf.ntRes, hrange, hsize, ne_eq, not_true_eq_false,
    if_false, ite_self]

/-- The two predicates cover the legal entries, up to the limits set for a named one. -/
theorem isDirentClusterPossibly_of_legal {totalClusters : ℤ} {e : Entry}
    (h : Legal totalClusters e)
    (hl : e.Named → e.firstCluster ≠ 0 ∧ e.dirFileSize ≤ 64 * 1024 * 1024) :
    isDirentClusterPossibly totalClusters e = true := by
  rw [isDirentClusterPossibly, Bool.or_eq_true]
  cases h with
  | deleted hf hn => exact .inl (isDirentBasic_of_special hf (.inr hn))
  | dot hf hn => exact .inl (isDirentBasic_of_special hf (.inl hn))
  | long n hn hn' ho ha ht hc => exact .inr (isDirentLong_of_ord hn hn' ho ha ht hc)
  | file hf hn hc hc' h28 => exact .inl (isDirentBasic_of_file hf hc hc' h28 (hl hn).2)
  | empty hf hn hc hs => exact absurd hc (hl hn).1

variable (img : Image)

/-- A cluster filled with `n` legal entries, up to its end or an end marker. -/
structure LegalRun (start : ℤ) (n : ℕ) : Prop where
  pos : 0 < n
  le : n ≤ slots img
  legal : ∀ i < n, Legal img.totalClusters (img.entry (start + entrySize * i))
  marker : n < slots img → (img.entry (start + entrySize * n)).dirName0 = 0

/-- The screen lets the cluster through, and the walk leaves none of its `n` entries out. -/
structure NothingMissed (start : ℤ) (n : ℕ) : Prop where
  accepted : isDirentClusterPossibly img.totalClusters (img.entry start) = true
  reaches : start + entrySize * n ≤ (clusterWalk img start).p
  examined : ∀ i < n, Examined img start (start + entrySize * i)

theorem nothingMissed_of_possibly {start : ℤ} {n : ℕ} (hpos : 0 < n) (hn : n ≤ slots img)
    (h : ∀ i < n, isDirentClusterPossibly img.totalClusters
      (img.entry (start + entrySize * i)) = true) : NothingMissed img start n := by
  have hreach : start + entrySize * n ≤ (clusterWalk img start).p := by
    apply clusterWalk_reaches img hn
    intro i hi
    exact (Bool.or_eq_true _ _).mp (h i hi)
  refine ⟨?_, hreach, fun i hi ↦ ?_⟩
  · simpa using h 0 hpos
  · simp only [entrySize] at hreach ⊢
    exact examined_of_lt img (by omega) (by omega)

/-- No entry of a legal run is missed when the named ones are at most 64 MiB
long and begin at a cluster other than 0. -/
theorem legalRun_nothingMissed {start : ℤ} {n : ℕ} (h : LegalRun img start n)
    (hl : ∀ i < n, (img.entry (start + entrySize * i)).Named →
      (img.entry (start + entrySize * i)).firstCluster ≠ 0 ∧
      (img.entry (start + entrySize * i)).dirFileSize ≤ 64 * 1024 * 1024) :
    NothingMissed img start n :=
  nothingMissed_of_possibly img h.pos h.le
    fun i hi ↦ isDirentClusterPossibly_of_legal (h.legal i hi) (hl i hi)

def wideGeometry : Geometry := ⟨512, 1, 1, 1, 1100, 140000⟩

/-- A short entry named `AAAAAAAAAAA`, with its first cluster and its size. -/
def fileSlot (clus size : ℕ) : Entry :=
  slotOfBytes (List.replicate 11 0x41 ++ [0x20] ++ List.replicate 14 0 ++
    [UInt8.ofNat clus, UInt8.ofNat (clus / 256)] ++
    [UInt8.ofNat size, UInt8.ofNat (size / 256), UInt8.ofNat (size / 65536),
      UInt8.ofNat (size / 16777216)])

/-- The first cluster holds a small file, the entry in question, and another small file. -/
def betweenFiles (e : Entry) : Image := wideGeometry.format fun k ↦
  if k = 0 then fileSlot 3 1 else if k = 1 then e else if k = 2 then fileSlot 4 1 else slotOfBytes []

def rootStart : ℤ := wideGeometry.dataStart

theorem wideGeometry_fits : wideGeometry.Fits := by
  constructor <;> decide

theorem totalClusters_wideGeometry (slot : ℕ → Entry) :
    (wideGeometry.format slot).totalClusters = 138899 := by
  obtain ⟨_, hspc, hrsvd, hfats, hsz, htot⟩ := Geometry.read_format slot wideGeometry_fits
  rw [Image.totalClusters, Image.firstDataSector, hspc, hrsvd, hfats, hsz, htot]
  decide

theorem slots_wideGeometry (slot : ℕ → Entry) : slots (wideGeometry.format slot) = 16 := by
  obtain ⟨hbps, hspc, _⟩ := Geometry.read_format slot wideGeometry_fits
  rw [slots, clusterBytes, hbps, hspc]
  decide

theorem fileSlot_fields (clus size : ℕ) :
    (fileSlot clus size).ShortFields ∧ (fileSlot clus size).Named := by
  have hname : (fileSlot clus size).dirName0 = 0x41 := rfl
  have hattr : (fileSlot clus size).dirAttr = 0x20 := rfl
  have hntRes : (fileSlot clus size).dirNTRes = 0 := rfl
  refine ⟨⟨?_, ?_, hntRes⟩, ?_, ?_, ?_⟩ <;> simp only [hname, hattr] <;> decide

theorem legal_fileSlot {clus size : ℕ} (hc : (fileSlot clus size).firstCluster = clus)
    (h : 2 ≤ clus) (h' : clus ≤ 100) : Legal 138899 (fileSlot clus size) :=
  .file (fileSlot_fields clus size).1 (fileSlot_fields clus size).2 (by omega) (by omega) (by omega)

theorem betweenFiles_legalRun {e : Entry} (he : Legal 138899 e) :
    LegalRun (betweenFiles e) rootStart 3 := by
  have hentry : ∀ k : ℕ, (betweenFiles e).entry (rootStart + entrySize * k) = _ :=
    wideGeometry.entry_format _
  have htc : (betweenFiles e).totalClusters = 138899 := totalClusters_wideGeometry _
  have hslots : slots (betweenFiles e) = 16 := slots_wideGeometry _
  refine ⟨by decide, by omega, fun i hi ↦ ?_, fun _ ↦ ?_⟩
  · rw [hentry, htc]
    split_ifs with h0 h1 h2
    · exact legal_fileSlot (by decide) (by decide) (by decide)
    · exact he
    · exact legal_fileSlot (by decide) (by decide) (by decide)
    · omega
  · rw [hentry]
    rfl

/-- A file of 64 MiB and one byte, and an empty file, each hide the file behind them. -/
theorem legalRun_missed :
    (LegalRun (betweenFiles (fileSlot 5 67108865)) rootStart 3 ∧
      ¬ NothingMissed (betweenFiles (fileSlot 5 67108865)) rootStart 3) ∧
    (LegalRun (betweenFiles (fileSlot 0 0)) rootStart 3 ∧
      ¬ NothingMissed (betweenFiles (fileSlot 0 0)) rootStart 3) := by
  have hempty : Legal 138899 (fileSlot 0 0) :=
    .empty (fileSlot_fields 0 0).1 (fileSlot_fields 0 0).2 (by decide) (by decide)
  have hlarge : Legal 138899 (fileSlot 5 67108865) :=
    legal_fileSlot (by decide) (by decide) (by decide)
  refine ⟨⟨betweenFiles_legalRun hlarge, fun h ↦ ?_⟩, betweenFiles_legalRun hempty, fun h ↦ ?_⟩
  · exact absurd h.reaches (by decide +kernel)
  · exact absurd h.reaches (by decide +kernel)

theorem fullSize_nothingMissed : NothingMissed (betweenFiles (fileSlot 5 67108864)) rootStart 3 := by
  apply legalRun_nothingMissed
  · exact betweenFiles_legalRun (legal_fileSlot (by decide) (by decide) (by decide))
  · have hlimits : ∀ i < 3,
        ((betweenFiles (fileSlot 5 67108864)).entry (rootStart + entrySize * (i : ℕ))).firstCluster ≠ 0 ∧
        ((betweenFiles (fileSlot 5 67108864)).entry (rootStart + entrySize * (i : ℕ))).dirFileSize ≤
          64 * 1024 * 1024 := by decide +kernel
    exact fun i hi _ ↦ hlimits i hi

end OsWorkbench.Fsrecov
