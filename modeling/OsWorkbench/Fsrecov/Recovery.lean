import OsWorkbench.Fsrecov.Layout
import Mathlib.Data.Fintype.Basic

namespace OsWorkbench.Fsrecov

open Library

variable {img : Image} {sets : List (EntrySet img.totalClusters)} {place : List ℤ}

theorem filterMap_or_perm {α γ : Type*} {f g : α → Option γ} (h : ∀ a, f a = none ∨ g a = none)
    (l : List α) : (l.filterMap fun a ↦ (f a).or (g a)).Perm (l.filterMap f ++ l.filterMap g) := by
  have hflat : ∀ a, ((f a).or (g a)).toList = (f a).toList ++ (g a).toList := by
    intro a
    rcases h a with hf | hg
    · simp [hf]
    · cases f a <;> simp [hg]
  simp only [List.filterMap_eq_flatMap_toList, hflat]
  exact (List.flatMap_append_perm _ _ _).symm

/-- A function of the clusters, read off the pages that they hold. -/
theorem Layout.map_eq {γ : Type*} (hv : SmallVolume img) (hl : Layout sets place) {F : ℤ → γ}
    {G : EntryPage img.totalClusters → γ} (hFG : ∀ start p, Holds img start p → F start = G p) :
    (place.map img.clusterStart).map F = (layoutPages img sets place).map G := by
  apply List.ext_getElem
  · rw [List.length_map, List.length_map, List.length_map, layoutPages_length]
  · intro i hi hi'
    rw [List.getElem_map, List.getElem_map, List.getElem_map]
    exact hFG _ _ (hl.holds hv i (by simpa using hi) (by simpa using hi'))

theorem Layout.filterMap_eq {γ : Type*} (hv : SmallVolume img) (hl : Layout sets place)
    {F : ℤ → Option γ} {G : EntryPage img.totalClusters → Option γ}
    (hFG : ∀ start p, Holds img start p → F start = G p) :
    (place.map img.clusterStart).filterMap F = (layoutPages img sets place).filterMap G := by
  have h := congrArg (List.filterMap id) (hl.map_eq hv hFG)
  simpa only [List.filterMap_map, Function.id_comp] using h

variable (img sets place) in
def layoutCuts : List (EntryCut img.totalClusters) :=
  (layoutPages img sets place).filterMap Pages.Page.opening

variable (img sets place) in
def layoutSingles : List (EntrySet img.totalClusters) :=
  (layoutPages img sets place).filterMap EntryPage.single

section

variable (hv : SmallVolume img) (hl : Layout sets place)
include hv hl

theorem Layout.cutSets_eq : cutSets img sets = (layoutCuts img sets place).map Pages.Cut.item :=
  Pages.pages_cutItems EntrySet.length_pos hv.entries_le
    (lt_of_lt_of_le (by decide) hv.clusterSlots) place.length none sets hl.enough

theorem Layout.firstShorts_eq : firstShorts img sets = layoutSingles img sets place := by
  have hfirst := Pages.pages_firstItems EntrySet.length_pos hv.entries_le place.length none sets
    hl.enough
  rw [firstShorts, layoutSingles]
  refine (congrArg (List.filter _) hfirst).trans ?_
  rw [List.filter_filterMap]
  refine List.filterMap_congr fun p _ ↦ ?_
  rw [EntryPage.single]
  split_ifs <;> rfl

theorem Layout.walked_perm :
    ((walkedCalls img (searched img (clusterNumbers img))).map (HandleCall.entries img)).Perm
      (((layoutPages img sets place).flatMap EntryPage.inner).map EntrySet.entries) := by
  have hcalls : (place.map img.clusterStart).map
      (fun start ↦ (clusterWalk img start).calls.map (HandleCall.entries img)) =
      (layoutPages img sets place).map fun p ↦ (EntryPage.inner p).map EntrySet.entries :=
    hl.map_eq hv fun start p h ↦ h.calls hv.clusters hv.aligned
  have hflat : (place.map img.clusterStart).flatMap
      (fun start ↦ (clusterWalk img start).calls.map (HandleCall.entries img)) =
      ((layoutPages img sets place).flatMap EntryPage.inner).map EntrySet.entries := by
    rw [List.flatMap_def, hcalls, ← List.flatMap_def, List.map_flatMap]
  rw [walkedCalls, List.map_flatMap, ← hflat]
  exact (hl.searched_perm hv).flatMap_right _

theorem Layout.heads_perm :
    ((backParts img (searched img (clusterNumbers img))).filterMap
      (EntryPart.view (headOf img))).Perm
      ((layoutCuts img sets place).map fun c ↦ (c.item.chksum, c.front)) := by
  have hheads : (place.map img.clusterStart).filterMap
      (fun start ↦ (backPart (clusterWalk img start)).bind (EntryPart.view (headOf img))) =
      (layoutPages img sets place).filterMap
        fun p ↦ p.opening.map fun c ↦ (c.item.chksum, c.front) :=
    hl.filterMap_eq hv fun start p h ↦ h.head hv.clusters hv.aligned
  rw [backParts, List.filterMap_filterMap, layoutCuts, List.map_filterMap, ← hheads]
  exact (hl.searched_perm hv).filterMap _

theorem Layout.tails_perm :
    ((frontParts img (searched img (clusterNumbers img))).filterMap
      (EntryPart.view (tailOf img))).Perm
      ((layoutCuts img sets place).map (fun c ↦ (c.item.chksum, c.back)) ++
        (layoutSingles img sets place).map fun s ↦ (s.chksum, s.entries)) := by
  have htails : (place.map img.clusterStart).filterMap
      (fun start ↦ (frontPart img start).bind (EntryPart.view (tailOf img))) =
      (layoutPages img sets place).filterMap fun p ↦
        (p.carry.map fun c ↦ (c.item.chksum, c.back)).or
          ((EntryPage.single p).map fun s ↦ (s.chksum, s.entries)) :=
    hl.filterMap_eq hv fun start p h ↦ h.tail hv.clusters
  have hcarry : layoutCuts img sets place = (layoutPages img sets place).filterMap Pages.Page.carry :=
    Pages.pages_carry hv.entries_le place.length none sets hl.enough
  have hsplit := filterMap_or_perm
    (f := fun p : EntryPage img.totalClusters ↦ p.carry.map fun c ↦ (c.item.chksum, c.back))
    (g := fun p ↦ (EntryPage.single p).map fun s ↦ (s.chksum, s.entries))
    (fun p ↦ by
      cases hc : p.carry with
      | none => exact .inl rfl
      | some c => exact .inr (by simp [p.single_eq_none_of_carry (by simp [hc])]))
    (layoutPages img sets place)
  rw [hcarry, layoutSingles, List.map_filterMap, List.map_filterMap, frontParts,
    List.filterMap_filterMap]
  refine ((hl.searched_perm hv).filterMap _).trans ?_
  rw [htails]
  exact hsplit

theorem Layout.sets_perm :
    (((layoutPages img sets place).flatMap EntryPage.inner).map EntrySet.entries ++
      ((layoutCuts img sets place).map (fun c ↦ c.item.entries) ++
        (layoutSingles img sets place).map EntrySet.entries)).Perm (sets.map EntrySet.entries) := by
  have hitems : (layoutPages img sets place).flatMap
      (fun p ↦ p.whole ++ p.opening.toList.map Pages.Cut.item) = sets :=
    Pages.pages_items EntrySet.length_pos hv.entries_le place.length none sets hl.enough
  have hwhole : ((layoutPages img sets place).flatMap EntryPage.inner ++
      layoutSingles img sets place).Perm ((layoutPages img sets place).flatMap Pages.Page.whole) := by
    rw [layoutSingles, List.filterMap_eq_flatMap_toList]
    refine List.perm_append_comm.trans ((List.flatMap_append_perm _ _ _).trans ?_)
    simp only [EntryPage.single_append_inner]
    rfl
  have hopen : (layoutPages img sets place).flatMap (fun p ↦ p.opening.toList.map Pages.Cut.item) =
      (layoutCuts img sets place).map Pages.Cut.item := by
    rw [layoutCuts, List.filterMap_eq_flatMap_toList, List.map_flatMap]
  have hsets : ((layoutPages img sets place).flatMap EntryPage.inner ++
      (layoutSingles img sets place ++ (layoutCuts img sets place).map Pages.Cut.item)).Perm sets := by
    rw [← List.append_assoc, ← hopen]
    refine (hwhole.append_right _).trans ((List.flatMap_append_perm _ _ _).trans ?_)
    rw [hitems]
  have hmap := hsets.map EntrySet.entries
  rw [List.map_append, List.map_append, List.map_map] at hmap
  exact (List.perm_append_comm.append_left _).trans hmap

theorem Layout.queue_lengths :
    (backParts img (searched img (clusterNumbers img))).length = (cutSets img sets).length ∧
      (frontParts img (searched img (clusterNumbers img))).length =
        (cutSets img sets).length + (firstShorts img sets).length := by
  have hheads := (hl.heads_perm hv).length_eq
  have htails := (hl.tails_perm hv).length_eq
  have hback := (List.filterMap_length_eq_length (f := EntryPart.view (headOf img))
    (l := backParts img (searched img (clusterNumbers img)))).mpr (by
      intro part hpart
      obtain ⟨start, _, hb⟩ := List.mem_filterMap.mp hpart
      obtain ⟨q, hq, _⟩ := backPart_isLong img hb
      simp [EntryPart.view, hq])
  have hfront := (List.filterMap_length_eq_length (f := EntryPart.view (tailOf img))
    (l := frontParts img (searched img (clusterNumbers img)))).mpr (by
      intro part hpart
      obtain ⟨start, _, hf⟩ := List.mem_filterMap.mp hpart
      simp [EntryPart.view, (frontPart_kind img hf).1])
  rw [hl.cutSets_eq hv, hl.firstShorts_eq hv]
  simp only [List.length_map, List.length_append] at hheads htails ⊢
  omega

theorem Layout.scanClusters_eq (hheads : (cutSets img sets).length ≤ Waiting.capacity)
    (htails : (cutSets img sets).length + (firstShorts img sets).length ≤ Waiting.capacity) :
    scanClusters img = .ok (walkedCalls img (searched img (clusterNumbers img)),
      ⟨backParts img (searched img (clusterNumbers img)),
        frontParts img (searched img (clusterNumbers img))⟩) := by
  obtain ⟨hback, hfront⟩ := hl.queue_lengths hv
  rw [← hfront] at htails
  rw [← hback] at hheads
  exact scanClusters_fits img hheads htails

section

variable (hcut : ((cutSets img sets).map EntrySet.chksum).Nodup)
include hcut

theorem Layout.headKeys_nodup :
    (((backParts img (searched img (clusterNumbers img))).filterMap
      (EntryPart.view (headOf img))).map Prod.fst).Nodup := by
  rw [hl.cutSets_eq hv, List.map_map, Function.comp_def] at hcut
  rw [((hl.heads_perm hv).map Prod.fst).nodup_iff, List.map_map, Function.comp_def]
  exact hcut

variable (hfirst : ∀ s ∈ cutSets img sets, ∀ t ∈ firstShorts img sets, t.chksum ≠ s.chksum)
include hfirst

theorem Layout.rejoin_eq :
    rejoin ((layoutCuts img sets place).map fun c ↦ (c.item.chksum, c.front))
        ((layoutCuts img sets place).map (fun c ↦ (c.item.chksum, c.back)) ++
          (layoutSingles img sets place).map fun s ↦ (s.chksum, s.entries)) =
      (layoutCuts img sets place).map (fun c ↦ c.item.entries) ++
        (layoutSingles img sets place).map EntrySet.entries := by
  rw [hl.cutSets_eq hv, List.map_map, Function.comp_def] at hcut
  rw [hl.cutSets_eq hv, hl.firstShorts_eq hv] at hfirst
  have hsingle : ∀ c ∈ layoutCuts img sets place, ∀ t ∈ layoutSingles img sets place,
      t.chksum ≠ c.item.chksum :=
    fun c hc ↦ hfirst c.item (List.mem_map.mpr ⟨c, hc, rfl⟩)
  have hone : ∀ t ∈ layoutSingles img sets place, t.longs = [] := by
    intro t ht
    obtain ⟨p, _, hp⟩ := List.mem_filterMap.mp ht
    exact EntryPage.longs_of_single p hp
  exact rejoin_cuts hcut hsingle hone

theorem Layout.rejoin_perm :
    (rejoin
      ((backParts img (searched img (clusterNumbers img))).filterMap (EntryPart.view (headOf img)))
      ((frontParts img (searched img (clusterNumbers img))).filterMap
        (EntryPart.view (tailOf img)))).Perm
      ((layoutCuts img sets place).map (fun c ↦ c.item.entries) ++
        (layoutSingles img sets place).map EntrySet.entries) := by
  have hjoined := Fsrecov.rejoin_perm (hl.heads_perm hv) (hl.tails_perm hv)
    (hl.headKeys_nodup hv hcut)
  rw [hl.rejoin_eq hv hcut hfirst] at hjoined
  exact hjoined

/-- Every set of a layout reaches `handle` exactly once and as a whole, wherever
the cluster boundaries fall and in whatever order the clusters lie on the disk. -/
theorem fullScan_layout (hheads : (cutSets img sets).length ≤ Waiting.capacity)
    (htails : (cutSets img sets).length + (firstShorts img sets).length ≤ Waiting.capacity) :
    ∃ calls, fullScan img = .ok calls ∧
      (calls.map (HandleCall.entries img)).Perm (sets.map EntrySet.entries) := by
  have hscan := hl.scanClusters_eq hv hheads htails
  obtain ⟨calls, hcalls, hrejoin⟩ := matchEntries_rejoin img
    (scanClusters_produced img hscan).queued
  refine ⟨_, fullScan_ok img hscan hcalls, ?_⟩
  rw [List.map_append, hrejoin]
  exact ((hl.walked_perm hv).append (hl.rejoin_perm hv hcut hfirst)).trans (hl.sets_perm hv)

end

end

def letterSlot (letter : UInt8) : Entry :=
  slotOfBytes (List.replicate 11 letter ++ [0x20] ++ List.replicate 14 0 ++ [3])

def letterLong (letter : UInt8) : Entry :=
  longSlotOf 0x41 (calcChecksum (List.replicate 11 letter)) (97 :: 0 :: List.replicate 11 0xFFFF)

/-- 31 sets of one entry, and a set of two that the cluster boundary cuts. -/
def pagedEntries : List Entry :=
  List.replicate 31 (letterSlot 0x41) ++ [letterLong 0x42, letterSlot 0x42]

/-- The second cluster of the directory lies in front of the first one. -/
def pagedImage : Image := pagedGeometry.format fun k ↦
  if k < 32 then pagedEntries.getD (k + 32) zeroEntry
  else if k < 64 then zeroEntry else pagedEntries.getD (k - 64) zeroEntry

theorem letter_longSet : LongSet (letterSlot 0x42) [letterLong 0x42] where
  count := by decide
  ord := by decide +kernel
  attr := List.forall_mem_singleton.mpr (by decide +kernel)
  type := List.forall_mem_singleton.mpr (by decide +kernel)
  fstClusLO := List.forall_mem_singleton.mpr (by decide +kernel)
  chksum := List.forall_mem_singleton.mpr (by decide +kernel)

theorem LongSet.nil (short : Entry) : LongSet short [] := by
  constructor <;> simp

def pagedSets : List (EntrySet pagedImage.totalClusters) :=
  List.replicate 31 ⟨[], letterSlot 0x41, .nil _, by decide +kernel⟩ ++
    [⟨[letterLong 0x42], letterSlot 0x42, letter_longSet, by decide +kernel⟩]

theorem paged_small : SmallVolume pagedImage := by
  constructor <;> decide +kernel

theorem paged_layout : Layout pagedSets [4, 2] where
  distinct := by decide
  inVolume := by decide +kernel
  enough := by decide +kernel
  needed := by decide +kernel
  content := by decide +kernel
  others := by
    intro c h h' hc
    have htc : pagedImage.totalClusters = 3 := by decide +kernel
    rw [htc] at h'
    simp only [List.mem_cons, List.not_mem_nil, or_false, not_or] at hc
    have h3 : c = 3 := by omega
    subst h3
    decide +kernel

theorem paged_fullScan : ∃ calls, fullScan pagedImage = .ok calls ∧
    (calls.map (HandleCall.entries pagedImage)).Perm (pagedSets.map EntrySet.entries) :=
  fullScan_layout paged_small paged_layout (by decide +kernel) (by decide +kernel)
    (by decide +kernel) (by decide +kernel)

end OsWorkbench.Fsrecov
