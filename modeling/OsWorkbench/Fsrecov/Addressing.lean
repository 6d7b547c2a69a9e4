import OsWorkbench.Fsrecov.Format
import Mathlib.Tactic.Linarith
import Mathlib.Tactic.Zify

namespace OsWorkbench.Fsrecov

theorem toInt32_emod (x : ℤ) : toInt32 x % 2 ^ 32 = x % 2 ^ 32 := Int.bmod_emod

theorem toInt32_lt (x : ℤ) : toInt32 x < 2 ^ 31 := Int.bmod_lt (by decide)

namespace Image

variable (img : Image)

theorem u16_lt (p : ℤ) : img.u16 p < 2 ^ 16 := by
  have h := (img.byte p).toNat_lt
  have h' := (img.byte (p + 1)).toNat_lt
  unfold u16
  omega

theorem u32_lt (p : ℤ) : img.u32 p < 2 ^ 32 := by
  have h := img.u16_lt p
  have h' := img.u16_lt (p + 2)
  unfold u32
  omega

def signatureWord : ℕ := img.u16 510

/-- The two assertions of `mmap_disk` on a file of `size` bytes. -/
structure Mapped (size : ℕ) : Prop where
  signature : img.signatureWord = 0xaa55
  size : img.bpbTotSec32 * img.bpbBytsPerSec % 2 ^ 32 = size

def reservedSectors : ℕ := img.bpbRsvdSecCnt + img.bpbNumFATs * img.bpbFATSz32

structure WellFormed : Prop where
  bytsPerSec : ∃ k, 9 ≤ k ∧ k ≤ 12 ∧ img.bpbBytsPerSec = 2 ^ k
  secPerClus : ∃ k, img.bpbSecPerClus = 2 ^ k
  reserved : img.reservedSectors ≤ img.bpbTotSec32

/-- The number of clusters, in exact arithmetic. -/
def clusterCount : ℕ := (img.bpbTotSec32 - img.reservedSectors) / img.bpbSecPerClus

def exactOffset (clusNum : ℤ) : ℤ :=
  (img.reservedSectors + (clusNum - 2) * img.bpbSecPerClus) * img.bpbBytsPerSec

structure AddressedExactly (size : ℕ) (clusNum : ℤ) : Prop where
  exact : img.firstBytePtrOfCluster clusNum = img.exactOffset clusNum
  inside : img.exactOffset clusNum + clusterBytes img ≤ size

def LastBelow2GiB : Prop := img.exactOffset (img.clusterCount + 1) < 2 ^ 31

variable {img}

theorem WellFormed.secPerClus_pos (h : img.WellFormed) : 0 < img.bpbSecPerClus := by
  obtain ⟨k, hk⟩ := h.secPerClus
  rw [hk]
  exact Nat.two_pow_pos k

theorem WellFormed.bytsPerSec_cases (h : img.WellFormed) : img.bpbBytsPerSec = 512 ∨
    img.bpbBytsPerSec = 1024 ∨ img.bpbBytsPerSec = 2048 ∨ img.bpbBytsPerSec = 4096 := by
  obtain ⟨k, hk, hk', he⟩ := h.bytsPerSec
  obtain rfl | rfl | rfl | rfl : k = 9 ∨ k = 10 ∨ k = 11 ∨ k = 12 := by omega
  all_goals simp [he]

theorem WellFormed.dvd_clusterBytes (h : img.WellFormed) : 32 ∣ clusterBytes img := by
  have hsec : 32 ∣ img.bpbBytsPerSec := by
    rcases h.bytsPerSec_cases with he | he | he | he <;> omega
  exact hsec.mul_right img.bpbSecPerClus

theorem firstDataSector_eq : img.firstDataSector = toInt32 img.reservedSectors := by
  simp [firstDataSector, reservedSectors]

/-- `total_clusters` is the exact number, converted to `int`. -/
theorem totalClusters_eq (h : img.reservedSectors ≤ img.bpbTotSec32) :
    img.totalClusters = toInt32 img.clusterCount := by
  have htot : img.bpbTotSec32 < 2 ^ 32 := img.u32_lt 32
  have hdiff : ((img.bpbTotSec32 : ℤ) - img.firstDataSector) % 2 ^ 32 =
      ((img.bpbTotSec32 - img.reservedSectors : ℕ) : ℤ) := by
    rw [firstDataSector_eq, Int.sub_emod, toInt32_emod, ← Int.sub_emod]
    omega
  rw [totalClusters, hdiff, clusterCount]
  push_cast
  rfl

theorem clusterCount_bounds (h : img.WellFormed) :
    img.reservedSectors + img.clusterCount * img.bpbSecPerClus ≤ img.bpbTotSec32 ∧
    img.bpbTotSec32 < img.reservedSectors + (img.clusterCount + 1) * img.bpbSecPerClus := by
  have hres := h.reserved
  have hle := Nat.div_mul_le_self (img.bpbTotSec32 - img.reservedSectors) img.bpbSecPerClus
  have hlt := Nat.lt_div_mul_add (a := img.bpbTotSec32 - img.reservedSectors) h.secPerClus_pos
  rw [← clusterCount] at hle hlt
  rw [Nat.add_mul]
  omega

theorem exactOffset_le {n m : ℤ} (hn : n ≤ m) :
    img.exactOffset n ≤ img.exactOffset m := by
  have hmul : (n - 2) * img.bpbSecPerClus ≤ (m - 2) * img.bpbSecPerClus :=
    mul_le_mul_of_nonneg_right (by omega) (by omega)
  exact mul_le_mul_of_nonneg_right (by omega) (by omega)

/-- No intermediate result overflows where the exact offset fits in an `int`. -/
theorem firstBytePtrOfCluster_exact (h : img.WellFormed) {n : ℤ} (hn : 2 ≤ n)
    (hlt : img.exactOffset n < 2 ^ 31) : img.firstBytePtrOfCluster n = img.exactOffset n := by
  have hspc := h.secPerClus_pos
  have hnonneg : 0 ≤ (n - 2) * img.bpbSecPerClus := mul_nonneg (by omega) (by omega)
  have hclus : n - 2 ≤ (n - 2) * img.bpbSecPerClus := le_mul_of_one_le_right (by omega) (by omega)
  have hsector : img.reservedSectors + (n - 2) * img.bpbSecPerClus ≤ img.exactOffset n := by
    refine le_mul_of_one_le_right (by omega) ?_
    rcases h.bytsPerSec_cases with he | he | he | he <;> omega
  have hoff : img.exactOffset n =
    (img.reservedSectors + (n - 2) * img.bpbSecPerClus) * img.bpbBytsPerSec := rfl
  rw [firstBytePtrOfCluster, firstDataSector_eq]
  rw [toInt32_of_bounds (x := n - 2) (by omega) (by omega),
    toInt32_of_bounds (x := (n - 2) * _) (by omega) (by omega),
    toInt32_of_bounds (x := (img.reservedSectors : ℤ)) (by omega) (by omega),
    toInt32_of_bounds (x := _ + _) (by omega) (by omega), ← hoff,
    toInt32_of_bounds (by omega) hlt]

theorem exactOffset_last (h : img.WellFormed) : img.exactOffset (img.clusterCount + 1) +
    clusterBytes img ≤ img.bpbTotSec32 * img.bpbBytsPerSec ∧
    img.bpbTotSec32 * img.bpbBytsPerSec <
      img.exactOffset (img.clusterCount + 1) + 2 * clusterBytes img := by
  obtain ⟨hle, hlt⟩ := clusterCount_bounds h
  have hpos : 0 < img.bpbBytsPerSec := by
    rcases h.bytsPerSec_cases with he | he | he | he <;> omega
  have hle' := Nat.mul_le_mul_right img.bpbBytsPerSec hle
  have hlt' := Nat.mul_lt_mul_of_pos_right hlt hpos
  zify at hle' hlt'
  simp only [exactOffset, clusterBytes]
  push_cast
  constructor <;> linarith

theorem Mapped.size_eq {size : ℕ} (hm : img.Mapped size) (h : img.WellFormed)
    (hlast : img.LastBelow2GiB) : size = img.bpbTotSec32 * img.bpbBytsPerSec := by
  have hbytes : clusterBytes img ≤ 2 ^ 20 := by
    have hspc : img.bpbSecPerClus < 256 := (img.byte 13).toNat_lt
    have hbps : img.bpbBytsPerSec ≤ 4096 := by
      rcases h.bytsPerSec_cases with he | he | he | he <;> omega
    have := Nat.mul_le_mul hbps (Nat.le_of_lt_succ hspc)
    unfold clusterBytes
    omega
  have hlt := (exactOffset_last h).2
  unfold LastBelow2GiB at hlast
  rw [← hm.size, Nat.mod_eq_of_lt]
  omega

theorem addressedExactly_of_below {size : ℕ} (hm : img.Mapped size) (h : img.WellFormed)
    (hlast : img.LastBelow2GiB) {n : ℤ} (hn : 2 ≤ n) (hn' : n ≤ img.clusterCount + 1) :
    img.AddressedExactly size n := by
  have hmono : img.exactOffset n ≤ img.exactOffset (img.clusterCount + 1) := exactOffset_le hn'
  have hend := (exactOffset_last h).1
  refine ⟨firstBytePtrOfCluster_exact h hn (hmono.trans_lt hlast), ?_⟩
  rw [hm.size_eq h hlast]
  push_cast
  linarith

/-- Addressing is exact for all clusters when there is none, when there are so many
that the `int` which counts them is negative, or when the last one begins below 2 GiB;
it is exact in no other volume. -/
theorem addressedExactly_iff {size : ℕ} (hm : img.Mapped size) (h : img.WellFormed) :
    (∀ n, 2 ≤ n → n ≤ img.totalClusters + 1 → img.AddressedExactly size n) ↔
      img.clusterCount = 0 ∨ 2 ^ 31 ≤ img.clusterCount ∨ img.LastBelow2GiB := by
  have hcount : img.clusterCount < 2 ^ 32 :=
    (Nat.div_le_self _ _).trans_lt ((Nat.sub_le _ _).trans_lt (img.u32_lt 32))
  have htc := totalClusters_eq h.reserved
  constructor
  · intro hall
    by_cases hbig : 2 ^ 31 ≤ img.clusterCount
    · exact .inr (.inl hbig)
    by_cases hzero : img.clusterCount = 0
    · exact .inl hzero
    rw [toInt32_of_bounds (by omega) (by omega)] at htc
    have hexact := (hall (img.clusterCount + 1) (by omega) (by omega)).exact
    refine .inr (.inr ?_)
    rw [LastBelow2GiB, ← hexact]
    exact toInt32_lt _
  · rintro (hzero | hbig | hlast) n hn hn'
    · rw [htc, hzero] at hn'
      exact absurd hn' (by simp [toInt32]; omega)
    · have hneg : img.totalClusters < 0 := by
        rw [htc, toInt32, Int.bmod_def]
        split_ifs <;> omega
      omega
    · refine addressedExactly_of_below hm h hlast hn (hn'.trans ?_)
      rw [htc, toInt32, Int.bmod_def]
      split_ifs <;> omega

end Image

/-- A volume of 65530 clusters of 32 KiB, a little larger than 2 GiB. -/
def largeGeometry : Geometry := ⟨512, 64, 64, 2, 512, 4195008⟩

def largeImage : Image := largeGeometry.format fun _ ↦ slotOfBytes []

theorem read_largeImage : largeImage.bpbBytsPerSec = 512 ∧ largeImage.bpbSecPerClus = 64 ∧
    largeImage.bpbRsvdSecCnt = 64 ∧ largeImage.bpbNumFATs = 2 ∧ largeImage.bpbFATSz32 = 512 ∧
    largeImage.bpbTotSec32 = 4195008 :=
  Geometry.read_format _ (by constructor <;> decide)

theorem largeImage_mapped : largeImage.Mapped 2147844096 := by
  obtain ⟨hb, -, -, -, -, ht⟩ := read_largeImage
  refine ⟨?_, by simp only [hb, ht, Nat.reduceMul, Nat.reducePow, Nat.reduceMod]⟩
  exact Geometry.u16_format (p := 510) _ (by constructor <;> decide) (by decide)

theorem largeImage_wellFormed : largeImage.WellFormed := by
  obtain ⟨hb, hs, hr, hn, hf, ht⟩ := read_largeImage
  refine ⟨⟨9, by omega, by omega, hb⟩, ⟨6, hs⟩, ?_⟩
  rw [Image.reservedSectors, hr, hn, hf, ht]
  decide

theorem largeImage_offset : largeImage.totalClusters = 65530 ∧
    largeImage.firstBytePtrOfCluster 65531 = -2147155968 ∧
    largeImage.exactOffset 65531 = 2147811328 := by
  obtain ⟨hb, hs, hr, hn, hf, ht⟩ := read_largeImage
  simp only [Image.totalClusters, Image.firstBytePtrOfCluster, Image.exactOffset,
    Image.reservedSectors, Image.firstDataSector, hb, hs, hr, hn, hf, ht]
  decide

theorem largeImage_not_exact : largeImage.Mapped 2147844096 ∧ largeImage.WellFormed ∧
    ¬ ∀ n, 2 ≤ n → n ≤ largeImage.totalClusters + 1 →
      largeImage.AddressedExactly 2147844096 n := by
  refine ⟨largeImage_mapped, largeImage_wellFormed, fun hall ↦ ?_⟩
  obtain ⟨hc, hcode, hexact⟩ := largeImage_offset
  have h := (hall 65531 (by omega) (by omega)).exact
  omega

theorem largeImage_addressedExactly_iff :
    (∀ n, 2 ≤ n → n ≤ largeImage.totalClusters + 1 → largeImage.AddressedExactly 2147844096 n) ↔
      largeImage.clusterCount = 0 ∨ 2 ^ 31 ≤ largeImage.clusterCount ∨ largeImage.LastBelow2GiB :=
  Image.addressedExactly_iff largeImage_mapped largeImage_wellFormed

end OsWorkbench.Fsrecov
