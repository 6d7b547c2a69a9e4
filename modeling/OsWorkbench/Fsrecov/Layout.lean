import OsWorkbench.Fsrecov.Rejoin
import OsWorkbench.Fsrecov.Format

namespace OsWorkbench.Fsrecov

open Library

variable (img : Image)

/-- A volume of less than 2 GiB with clusters of at least 21 slots. -/
structure SmallVolume : Prop where
  clusterSlots : 21 ≤ slots img
  aligned : 32 ∣ clusterBytes img
  clusters : img.totalClusters ≤ 65534
  dataArea : img.bpbRsvdSecCnt + img.bpbNumFATs * img.bpbFATSz32 ≤ img.bpbTotSec32
  size : img.bpbTotSec32 * img.bpbBytsPerSec < 2 ^ 31

/-- Where the format puts cluster number `c`. -/
def Image.clusterStart (c : ℤ) : ℤ :=
  (img.bpbRsvdSecCnt + img.bpbNumFATs * img.bpbFATSz32 + (c - 2) * img.bpbSecPerClus) *
    img.bpbBytsPerSec

variable {img}

theorem SmallVolume.bounds (hv : SmallVolume img) :
    0 < img.bpbBytsPerSec ∧ img.bpbTotSec32 < 2 ^ 31 := by
  have hslots := hv.clusterSlots
  have hsize := hv.size
  have hpos : 0 < img.bpbBytsPerSec := by
    refine Nat.pos_of_ne_zero fun h0 ↦ ?_
    simp [slots, clusterBytes, h0] at hslots
  exact ⟨hpos, lt_of_le_of_lt (Nat.le_mul_of_pos_right _ hpos) hsize⟩

theorem SmallVolume.firstDataSector (hv : SmallVolume img) :
    img.firstDataSector = img.bpbRsvdSecCnt + img.bpbNumFATs * img.bpbFATSz32 := by
  have hdata := hv.dataArea
  have hbound := hv.bounds.2
  rw [Image.firstDataSector, toInt32_of_bounds] <;> norm_cast <;> omega

theorem SmallVolume.firstDataSector_nonneg (hv : SmallVolume img) : 0 ≤ img.firstDataSector := by
  rw [hv.firstDataSector]
  exact_mod_cast Nat.zero_le (img.bpbRsvdSecCnt + img.bpbNumFATs * img.bpbFATSz32)

theorem SmallVolume.totalClusters (hv : SmallVolume img) :
    img.totalClusters = (img.bpbTotSec32 - img.firstDataSector) / img.bpbSecPerClus := by
  have hdata := hv.dataArea
  have hbound := hv.bounds.2
  have hfirst := hv.firstDataSector
  have hdata' : (img.bpbRsvdSecCnt : ℤ) + img.bpbNumFATs * img.bpbFATSz32 ≤ img.bpbTotSec32 := by
    exact_mod_cast hdata
  have hfirst0 := hv.firstDataSector_nonneg
  have hsub : 0 ≤ (img.bpbTotSec32 : ℤ) - img.firstDataSector := by omega
  have hlt : (img.bpbTotSec32 : ℤ) - img.firstDataSector < 2 ^ 31 := by omega
  have hquot := Int.ediv_le_self (img.bpbSecPerClus : ℤ) hsub
  have hnonneg := Int.ediv_nonneg hsub (Int.natCast_nonneg img.bpbSecPerClus)
  rw [Image.totalClusters, Int.emod_eq_of_lt hsub (by omega), toInt32_of_bounds] <;> omega

theorem SmallVolume.firstBytePtrOfCluster (hv : SmallVolume img) {c : ℤ} (h : 2 ≤ c)
    (h' : c < img.totalClusters + 2) : img.firstBytePtrOfCluster c = img.clusterStart c := by
  obtain ⟨hbps, htot⟩ := hv.bounds
  have hclusters := hv.clusters
  have hfirst := hv.firstDataSector
  have hfirst0 := hv.firstDataSector_nonneg
  have hoffset0 : 0 ≤ (c - 2) * (img.bpbSecPerClus : ℤ) :=
    Int.mul_nonneg (by omega) (Int.natCast_nonneg _)
  have hsector : img.firstDataSector + (c - 2) * img.bpbSecPerClus ≤ img.bpbTotSec32 := by
    have hquot := Int.ediv_mul_le (img.bpbTotSec32 - img.firstDataSector : ℤ)
      (b := img.bpbSecPerClus) (fun h0 ↦ by
        have htc := hv.totalClusters
        rw [h0, Int.ediv_zero] at htc
        omega)
    rw [← hv.totalClusters] at hquot
    have hmul : (c - 2) * (img.bpbSecPerClus : ℤ) ≤ img.totalClusters * img.bpbSecPerClus :=
      Int.mul_le_mul_of_nonneg_right (by omega) (Int.natCast_nonneg _)
    omega
  have hbyte : (img.firstDataSector + (c - 2) * img.bpbSecPerClus) * (img.bpbBytsPerSec : ℤ) <
      2 ^ 31 := by
    have hsize := hv.size
    have hmul := Int.mul_le_mul_of_nonneg_right hsector (Int.natCast_nonneg img.bpbBytsPerSec)
    calc _ ≤ (img.bpbTotSec32 : ℤ) * img.bpbBytsPerSec := hmul
      _ < 2 ^ 31 := by exact_mod_cast hsize
  have hbyte0 : 0 ≤ (img.firstDataSector + (c - 2) * img.bpbSecPerClus) * (img.bpbBytsPerSec : ℤ) :=
    Int.mul_nonneg (by omega) (Int.natCast_nonneg _)
  rw [Image.firstBytePtrOfCluster, toInt32_of_bounds (x := c - 2) (by omega) (by omega),
    toInt32_of_bounds (x := (c - 2) * img.bpbSecPerClus) (by omega) (by omega),
    toInt32_of_bounds (x := img.firstDataSector + _) (by omega) (by omega),
    toInt32_of_bounds (by omega) hbyte, Image.clusterStart, hfirst]

/-- The entry sets lie one after the other in the clusters `place`, the last one
filled up with zeros; nothing else in the volume looks like a directory. -/
structure Layout (sets : List (EntrySet img.totalClusters)) (place : List ℤ) : Prop where
  distinct : place.Nodup
  inVolume : ∀ c ∈ place, 2 ≤ c ∧ c < img.totalClusters + 2
  enough : (sets.flatMap EntrySet.entries).length ≤ place.length * slots img
  needed : place.length * slots img < (sets.flatMap EntrySet.entries).length + slots img
  content : ∀ i (hi : i < place.length), ∀ k < slots img,
    img.entry (img.clusterStart place[i] + entrySize * k) =
      (sets.flatMap EntrySet.entries).getD (i * slots img + k) zeroEntry
  others : ∀ c, 2 ≤ c → c < img.totalClusters + 2 → c ∉ place →
    isDirentClusterPossibly img.totalClusters (img.entry (img.clusterStart c)) = false

variable (img) in
/-- The sets that a cluster boundary cuts. -/
def cutSets (sets : List (EntrySet img.totalClusters)) : List (EntrySet img.totalClusters) :=
  Pages.cutItems EntrySet.entries (slots img) 0 sets

variable (img) in
/-- The sets of one short entry that stand first in a cluster. -/
def firstShorts (sets : List (EntrySet img.totalClusters)) : List (EntrySet img.totalClusters) :=
  (Pages.firstItems EntrySet.entries (slots img) 0 sets).filter (·.longs = [])

variable {sets : List (EntrySet img.totalClusters)} {place : List ℤ}

variable (img sets place) in
def layoutPages : List (EntryPage img.totalClusters) :=
  Pages.pages EntrySet.entries (slots img) place.length none sets

section

variable (hv : SmallVolume img)
include hv

theorem SmallVolume.entries_le (s : EntrySet img.totalClusters) : s.entries.length ≤ slots img :=
  s.length_le.trans hv.clusterSlots

theorem Layout.holds (hl : Layout sets place) (i : ℕ) (hi : i < place.length)
    (hp : i < (layoutPages img sets place).length) :
    Holds img (img.clusterStart place[i]) (layoutPages img sets place)[i] := by
  have hcontent : ((layoutPages img sets place)[i]).content =
      ((sets.flatMap EntrySet.entries).drop (i * slots img)).take (slots img) :=
    Pages.pages_content hv.entries_le place.length none sets i hp
  have hstart : i * slots img < (sets.flatMap EntrySet.entries).length := by
    have hmul : (i + 1) * slots img ≤ place.length * slots img := Nat.mul_le_mul_right _ hi
    have hsucc : (i + 1) * slots img = i * slots img + slots img := Nat.succ_mul _ _
    have hneeded := hl.needed
    omega
  have hslots := hv.clusterSlots
  rw [Holds, hcontent]
  constructor
  · apply List.ne_nil_of_length_pos
    rw [List.length_take, List.length_drop]
    omega
  · refine ⟨slots img - ((sets.flatMap EntrySet.entries).length - i * slots img), ?_⟩
    apply List.ext_getElem
    · simp only [Image.length_entries, List.length_append, List.length_take, List.length_drop,
        List.length_replicate]
      omega
    · intro k hk hk'
      rw [Image.length_entries] at hk
      have hentry := hl.content i hi k hk
      simp only [Image.entries, List.getElem_map, List.getElem_range, hentry]
      rcases Nat.lt_or_ge (i * slots img + k) (sets.flatMap EntrySet.entries).length with hin | hout
      · have hlen : k < (((sets.flatMap EntrySet.entries).drop (i * slots img)).take
            (slots img)).length := by
          rw [List.length_take, List.length_drop]
          omega
        rw [List.getD_eq_getElem _ _ hin, List.getElem_append_left hlen, List.getElem_take,
          List.getElem_drop]
      · rw [List.getD_eq_default _ _ hout, List.getElem_append_right, List.getElem_replicate]
        rw [List.length_take, List.length_drop]
        omega

end

theorem exists_set_of_mem_content {totalClusters : ℤ} {p : EntryPage totalClusters} {e : Entry}
    (he : e ∈ p.content) : ∃ s : EntrySet totalClusters, e ∈ s.entries := by
  rcases List.mem_append.mp he with he | he
  · rcases List.mem_append.mp he with he | he
    · cases hc : p.carry with
      | none => simp [hc, Pages.carried] at he
      | some c =>
        rw [hc] at he
        exact ⟨c.item, List.mem_of_mem_drop he⟩
    · obtain ⟨s, _, hs⟩ := List.mem_flatMap.mp he
      exact ⟨s, hs⟩
  · cases ho : p.opening with
    | none => simp [ho, Pages.opened] at he
    | some c =>
      rw [ho] at he
      exact ⟨c.item, List.mem_of_mem_take he⟩

theorem Holds.possibly {start : ℤ} {p : EntryPage img.totalClusters} (h : Holds img start p) :
    isDirentClusterPossibly img.totalClusters (img.entry start) = true := by
  obtain ⟨s, hs⟩ := exists_set_of_mem_content (List.mem_of_mem_head? h.head?)
  rw [isDirentClusterPossibly, Bool.or_eq_true]
  rcases List.mem_append.mp hs with hlong | hshort
  · exact .inr (s.isDirentLong_of_mem hlong)
  · rw [List.mem_singleton.mp hshort]
    exact .inl s.basic

theorem mem_clusterNumbers {c : ℤ} :
    c ∈ clusterNumbers img ↔ 2 ≤ c ∧ c < img.totalClusters + 2 := by
  simp only [clusterNumbers, List.mem_map, List.mem_range]
  constructor
  · rintro ⟨k, hk, rfl⟩
    omega
  · rintro ⟨h, h'⟩
    exact ⟨(c - 2).toNat, by omega, by omega⟩

theorem clusterNumbers_nodup : (clusterNumbers img).Nodup := by
  apply List.Nodup.map _ List.nodup_range
  intro j k hjk
  simp only at hjk
  omega

theorem layoutPages_length : (layoutPages img sets place).length = place.length :=
  Pages.length_pages _ _ _ _

/-- The scan searches the clusters of the layout, in the order of their numbers. -/
theorem Layout.searched_perm (hv : SmallVolume img) (hl : Layout sets place) :
    (searched img (clusterNumbers img)).Perm (place.map img.clusterStart) := by
  have hstart : ∀ c ∈ clusterNumbers img, img.firstBytePtrOfCluster c = img.clusterStart c := by
    intro c hc
    obtain ⟨h, h'⟩ := mem_clusterNumbers.mp hc
    exact hv.firstBytePtrOfCluster h h'
  have hpossibly : ∀ c ∈ place,
      isDirentClusterPossibly img.totalClusters (img.entry (img.clusterStart c)) = true := by
    intro c hc
    obtain ⟨i, hi, rfl⟩ := List.getElem_of_mem hc
    exact (hl.holds hv i hi (by rwa [layoutPages_length])).possibly
  rw [searched, List.map_congr_left hstart, List.filter_map]
  apply List.Perm.map
  rw [List.perm_ext_iff_of_nodup (clusterNumbers_nodup.filter _) hl.distinct]
  intro c
  rw [List.mem_filter, mem_clusterNumbers, Function.comp_apply]
  constructor
  · rintro ⟨⟨h, h'⟩, hp⟩
    by_contra hc
    rw [hl.others c h h' hc] at hp
    cases hp
  · exact fun hc ↦ ⟨hl.inVolume c hc, hpossibly c hc⟩

end OsWorkbench.Fsrecov
