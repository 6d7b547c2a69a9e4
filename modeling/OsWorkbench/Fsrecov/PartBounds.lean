import OsWorkbench.Fsrecov.Partition
import OsWorkbench.Fsrecov.WaitingCapacity
import OsWorkbench.Fsrecov.LongName

namespace OsWorkbench.Fsrecov

variable (img : Image)

/-- The parts that `search_cluster` stores. -/
def queuedParts (start : ℤ) : List EntryPart :=
  (frontPart img start).toList ++ (backPart (clusterWalk img start)).toList

/-- The entries of the part end in front of `stop`. -/
def EntryPart.Inside (stop : ℤ) (part : EntryPart) : Prop :=
  ∃ p, part.entry = some p ∧ p + entrySize * part.len ≤ stop

/-- The loop takes a head from in front of the end of the cluster. -/
theorem backPart_inside (h32 : 32 ∣ clusterBytes img) {start : ℤ} {part : EntryPart}
    (h : backPart (clusterWalk img start) = some part) :
    part.Inside (start + clusterBytes img) := by
  have hwalked := clusterWalk_walked img start
  have hfirst := hwalked.tiles.le
  have haligned := hwalked.aligned
  obtain ⟨k, hp, hrun, -⟩ := clusterWalk_stops img start
  simp only [backPart] at h
  split_ifs at h with hne
  cases h
  refine ⟨_, rfl, ?_⟩
  rw [← haligned, hp]
  have hle := hwalked.curr_le
  obtain ⟨j, rfl⟩ : ∃ j, k = j + 1 := by
    refine Nat.exists_eq_succ_of_ne_zero fun h0 ↦ hne ?_
    rw [h0, add_zero, ← walkStart_eq] at hp
    omega
  have hlast := (hrun j (Nat.lt_succ_self j)).1
  simp only [entrySize] at hlast ⊢
  omega

variable {img} in
theorem Image.WellFormed.clusterBytes_cases (h : img.WellFormed) :
    clusterBytes img = 512 ∨ 1024 ≤ clusterBytes img := by
  have hspc := h.secPerClus_pos
  rw [clusterBytes]
  rcases Nat.lt_or_ge img.bpbSecPerClus 2 with hone | htwo
  · have h1 : img.bpbSecPerClus = 1 := by omega
    rw [h1]
    rcases h.bytsPerSec_cases with hb | hb | hb | hb <;> omega
  · have hbps : 512 ≤ img.bpbBytsPerSec := by
      rcases h.bytsPerSec_cases with hb | hb | hb | hb <;> omega
    exact .inr (Nat.mul_le_mul hbps htwo)

theorem frontPart_inside_iff (h : img.WellFormed) (start : ℤ) :
    (∀ part ∈ frontPart img start, part.Inside (start + clusterBytes img)) ↔
      (clusterBytes img = 512 → img.isLong start = true →
        (img.entry start).ldirOrd &&& lastLongEntry = 0 → (img.entry start).ldirOrd.toNat < 16) := by
  have hsize := h.clusterBytes_cases
  constructor
  · intro hall hbytes hl hlast
    have hfront : frontPart img start = some ⟨some start, (img.entry start).ldirOrd.toNat + 1⟩ :=
      if_pos ⟨hl, hlast⟩
    obtain ⟨p, hp, hle⟩ := hall _ hfront
    cases hp
    simp only [entrySize, hbytes] at hle
    omega
  · intro hord part hpart
    refine ⟨start, (frontPart_kind img hpart).1, ?_⟩
    have hlen : 32 * part.len ≤ clusterBytes img := by
      simp only [frontPart] at hpart
      split_ifs at hpart with hl hb
      · cases hpart
        have hmax := (ldirOrd_of_isDirentLong hl.1 hl.2).2
        rcases hsize with hsmall | hlarge
        · have hlt := hord hsmall hl.1 hl.2
          simp only
          omega
        · simp only
          omega
      · cases hpart
        simp only
        omega
      · cases hpart
    simp only [entrySize]
    omega

/-- Every part stays inside its cluster, but for a tail in a cluster of 16 entries that
begins with an entry whose ordinal promises more. -/
theorem queuedParts_inside_iff (h : img.WellFormed) (start : ℤ) :
    (∀ part ∈ queuedParts img start, part.Inside (start + clusterBytes img)) ↔
      (clusterBytes img = 512 → img.isLong start = true →
        (img.entry start).ldirOrd &&& lastLongEntry = 0 → (img.entry start).ldirOrd.toNat < 16) := by
  rw [← frontPart_inside_iff img h]
  constructor
  · intro hall part hpart
    exact hall part (List.mem_append_left _ (Option.mem_toList.mpr hpart))
  · intro hfront part hpart
    rcases List.mem_append.mp hpart with hpart | hpart
    · exact hfront part (Option.mem_toList.mp hpart)
    · exact backPart_inside img h.dvd_clusterBytes (Option.mem_toList.mp hpart)

/-- The cluster begins with an entry from the middle of a name of 255 characters. -/
def longTailImage : Image := wideGeometry.format fun k ↦
  if k = 0 then longSlotOf 16 0 (List.replicate 13 0x61) else slotOfBytes []

theorem longTail_outside : longTailImage.Mapped 71680000 ∧ longTailImage.WellFormed ∧
    ∃ calls w, searchCluster longTailImage Waiting.empty rootStart = .ok (calls, w) ∧
      ∃ part ∈ w.tails, ¬ part.Inside (rootStart + clusterBytes longTailImage) := by
  have hsearch : searchCluster longTailImage Waiting.empty rootStart =
      .ok ([], ⟨[], [⟨some rootStart, 17⟩]⟩) := by decide +kernel
  have hbytes : clusterBytes longTailImage = 512 := by decide +kernel
  refine ⟨wideGeometry_mapped _, wideGeometry_wellFormed _, _, _, hsearch, _,
    List.mem_singleton_self _, ?_⟩
  rintro ⟨p, hp, hle⟩
  cases hp
  simp only [entrySize, hbytes] at hle
  omega

theorem longTail_inside_iff :
    (∀ part ∈ queuedParts longTailImage rootStart,
      part.Inside (rootStart + clusterBytes longTailImage)) ↔
      (clusterBytes longTailImage = 512 → longTailImage.isLong rootStart = true →
        (longTailImage.entry rootStart).ldirOrd &&& lastLongEntry = 0 →
        (longTailImage.entry rootStart).ldirOrd.toNat < 16) :=
  queuedParts_inside_iff longTailImage (wideGeometry_wellFormed _) rootStart

end OsWorkbench.Fsrecov
