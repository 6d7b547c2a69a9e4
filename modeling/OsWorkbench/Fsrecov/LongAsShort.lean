import OsWorkbench.Fsrecov.Addressing
import OsWorkbench.Fsrecov.LongName
import OsWorkbench.Fsrecov.Partition

namespace OsWorkbench.Fsrecov

/-- A unit that may occur in a long name. -/
def LegalChar (u : ℕ) : Prop :=
  0x20 ≤ u ∧ u ∉ [0x22, 0x2A, 0x2F, 0x3A, 0x3C, 0x3E, 0x3F, 0x5C, 0x7C]

instance (u : ℕ) : Decidable (LegalChar u) := inferInstanceAs (Decidable (_ ∧ _))

/-- A long entry as VFAT writes it for 13 characters from the inside of a name. -/
structure LongNameEntry (e : Entry) : Prop where
  ord : ∃ n, 1 ≤ n ∧ n ≤ 20 ∧
    (e.ldirOrd = UInt8.ofNat n ∨ e.ldirOrd = UInt8.ofNat n ||| lastLongEntry)
  attr : e.ldirAttr = attrLongName
  type : e.ldirType = 0
  fstClusLO : e.ldirFstClusLO = 0
  chars : ∀ k < 13, LegalChar (e.nameUnit k)

variable {e : Entry}

theorem LongNameEntry.isDirentLong (h : LongNameEntry e) : isDirentLong e = true := by
  obtain ⟨n, hn, hn', hord⟩ := h.ord
  exact isDirentLong_of_ord hn hn' hord h.attr h.type h.fstClusLO

theorem LongNameEntry.dirName0 (h : LongNameEntry e) :
    e.dirName0 ≠ 0 ∧ e.dirName0 ≠ 0x2E ∧ e.dirName0 ≠ 0xE5 := by
  obtain ⟨n, hn, hn', hord⟩ := h.ord
  exact forall_ord (P := fun o ↦ o ≠ 0 ∧ o ≠ 0x2E ∧ o ≠ 0xE5) (by decide) hn hn' hord

/-- The ninth character of the entry is the high word of a cluster number. -/
theorem dirFstClusHI_eq_nameUnit (e : Entry) : e.dirFstClusHI = e.nameUnit 8 := rfl

/-- Its last two characters are the size of a file. -/
theorem dirFileSize_eq_nameUnit (e : Entry) :
    e.dirFileSize = e.nameUnit 11 + 65536 * e.nameUnit 12 := rfl

theorem nameUnit_lt (e : Entry) (k : ℕ) : e.nameUnit k < 65536 := by
  unfold Entry.nameUnit
  split_ifs
  · exact e.u16_lt _
  · exact e.u16_lt _
  · exact e.u16_lt _

theorem LongNameEntry.isDirentBasic_iff (h : LongNameEntry e) (totalClusters : ℤ) :
    isDirentBasic totalClusters e = true ↔
      e.nameUnit 8 < 0x8000 ∧ 65536 * e.nameUnit 8 ≤ totalClusters + 1 ∧ e.nameUnit 12 < 0x400 := by
  obtain ⟨hzero, hdot, hdel⟩ := h.dirName0
  have hattr : e.dirAttr &&& 0b11000000 = 0 := by
    have ha : e.dirAttr = attrLongName := h.attr
    rw [ha]
    rfl
  have hres : e.dirNTRes = 0 := h.type
  have hlo : e.dirFstClusLO = 0 := h.fstClusLO
  have hhi := nameUnit_lt e 8
  have hsize := nameUnit_lt e 11
  have hhi' := (h.chars 8 (by decide)).1
  have hsize' := (h.chars 11 (by decide)).1
  have hclus : e.clusNum = toInt32 (65536 * e.nameUnit 8) := by
    rw [e.clusNum_eq, hlo, dirFstClusHI_eq_nameUnit]
    simp
  have hrange : e.clusNum < 2 ∨ totalClusters + 1 < e.clusNum ↔
      ¬ (e.nameUnit 8 < 0x8000 ∧ 65536 * e.nameUnit 8 ≤ totalClusters + 1) := by
    rw [hclus, toInt32, Int.bmod_def]
    split_ifs <;> omega
  have hspecial : ¬ (e.dirName0 = 0x2E ∨ e.dirName0 = 0xE5) := not_or.mpr ⟨hdot, hdel⟩
  rw [isDirentBasic, if_neg hzero, if_neg (not_not.mpr hattr), if_neg (not_not.mpr hres),
    if_neg hspecial, dirFileSize_eq_nameUnit]
  split_ifs with hc hs
  · exact iff_of_false not_false (by omega)
  · exact iff_of_false not_false (by omega)
  · exact iff_of_true rfl (by omega)

variable {img : Image}

/-- A long entry can be taken for a short one exactly when its ninth character is the
high word of a cluster number of the volume, and its last one small. -/
theorem longName_openAt_iff {size : ℕ} (hm : img.Mapped size) (h : img.WellFormed)
    (hfile : img.bpbTotSec32 * img.bpbBytsPerSec = size) {p : ℤ}
    (he : LongNameEntry (img.entry p)) :
    img.OpenAt p ↔ img.clusterCount + 1 < 65536 * (img.entry p).nameUnit 8 ∨
      0x400 ≤ (img.entry p).nameUnit 12 := by
  have hlt : img.bpbTotSec32 * img.bpbBytsPerSec < 2 ^ 32 := by
    rw [hfile, ← hm.size]
    exact Nat.mod_lt _ (by decide)
  have hsec : img.bpbTotSec32 < 2 ^ 23 := by
    rcases h.bytsPerSec_cases with hb | hb | hb | hb <;> rw [hb] at hlt <;> omega
  have hcount : img.clusterCount < 2 ^ 23 :=
    ((Nat.div_le_self _ _).trans (Nat.sub_le _ _)).trans_lt hsec
  have htc := Image.totalClusters_eq h.reserved
  rw [toInt32_of_bounds (by omega) (by omega)] at htc
  have hbasic := he.isDirentBasic_iff img.totalClusters
  have hopen : img.OpenAt p ↔ ¬ isDirentBasic img.totalClusters (img.entry p) = true := by
    rw [Image.OpenAt, Image.isLong, Image.isBasic, he.isDirentLong, Bool.not_eq_true]
    simp
  rw [hopen, hbasic, htc]
  omega

/-- A volume of about 2 GB whose clusters are single sectors. -/
def sectorGeometry : Geometry := ⟨512, 1, 32, 1, 31250, 4000000⟩

/-- The first long entry of the name `picture_08.bmp`. -/
def pictureSlot : Entry :=
  longSlotOf 1 0 [0x70, 0x69, 0x63, 0x74, 0x75, 0x72, 0x65, 0x5F, 0x30, 0x38, 0x2E, 0x62, 0x6D]

def pictureImage : Image := sectorGeometry.format fun k ↦
  if k = 0 then pictureSlot else slotOfBytes []

theorem picture_longName : LongNameEntry pictureSlot where
  ord := ⟨1, by decide, by decide, .inl rfl⟩
  attr := rfl
  type := rfl
  fstClusLO := rfl
  chars := by decide +kernel

theorem entry_picture : pictureImage.entry sectorGeometry.dataStart = pictureSlot := by
  have h := sectorGeometry.entry_format (fun k ↦ if k = 0 then pictureSlot else slotOfBytes []) 0
  simp only [Nat.cast_zero, mul_zero, add_zero, if_true] at h
  exact h

theorem picture_volume : pictureImage.Mapped 2048000000 ∧ pictureImage.WellFormed ∧
    pictureImage.bpbTotSec32 * pictureImage.bpbBytsPerSec = 2048000000 ∧
    pictureImage.totalClusters = 3968718 := by
  have hfits : sectorGeometry.Fits := by constructor <;> decide
  obtain ⟨hb, hs, hr, hn, hf, ht⟩ := Geometry.read_format (fun k ↦
    if k = 0 then pictureSlot else slotOfBytes []) hfits
  have hsum : pictureImage.reservedSectors = 31282 := by
    rw [Image.reservedSectors, pictureImage, hr, hn, hf]
    rfl
  have hproduct : pictureImage.bpbTotSec32 * pictureImage.bpbBytsPerSec = 2048000000 := by
    rw [pictureImage, ht, hb]
    rfl
  have hres : pictureImage.reservedSectors ≤ pictureImage.bpbTotSec32 := by
    rw [hsum, pictureImage, ht]
    decide
  refine ⟨⟨?_, ?_⟩, ⟨⟨9, by decide, by decide, hb⟩, ⟨0, hs⟩, hres⟩, hproduct, ?_⟩
  · exact Geometry.u16_format (p := 510) _ hfits (by decide)
  · rw [hproduct]
    rfl
  · rw [Image.totalClusters_eq hres, Image.clusterCount, hsum, pictureImage, ht, hs]
    decide

theorem picture_openAt_iff : pictureImage.OpenAt sectorGeometry.dataStart ↔
    pictureImage.clusterCount + 1 <
        65536 * (pictureImage.entry sectorGeometry.dataStart).nameUnit 8 ∨
      0x400 ≤ (pictureImage.entry sectorGeometry.dataStart).nameUnit 12 := by
  obtain ⟨hm, hwf, hfile, -⟩ := picture_volume
  exact longName_openAt_iff hm hwf hfile (entry_picture ▸ picture_longName)

/-- The character `0` in ninth place makes the entry a file in cluster 3145728. -/
theorem picture_taken : pictureImage.Mapped 2048000000 ∧ pictureImage.WellFormed ∧
    pictureImage.bpbTotSec32 * pictureImage.bpbBytsPerSec = 2048000000 ∧
    LongNameEntry (pictureImage.entry sectorGeometry.dataStart) ∧
    ¬ pictureImage.OpenAt sectorGeometry.dataStart := by
  obtain ⟨hm, hwf, hfile, hcount⟩ := picture_volume
  refine ⟨hm, hwf, hfile, entry_picture ▸ picture_longName, ?_⟩
  have hbasic : pictureImage.isBasic sectorGeometry.dataStart = true := by
    rw [Image.isBasic, entry_picture, hcount, picture_longName.isDirentBasic_iff]
    decide
  intro hopen
  rw [hopen.2] at hbasic
  cases hbasic

end OsWorkbench.Fsrecov
