import OsWorkbench.Fsrecov.HandleRoutes
import OsWorkbench.Fsrecov.Rejoin

namespace OsWorkbench.Fsrecov

open Library Grouping

variable (img : Image)

/-- The entries left open at the end of a cluster, with the checksum of the first one. -/
def openRun (start : ℤ) : Option (UInt8 × List Entry) :=
  (clusterGroups img start).pending.head?.map
    fun e ↦ (e.ldirChksum, (clusterGroups img start).pending)

/-- The entries in front of the first group of a cluster, with the checksum that the
first one carries or that its name has. -/
def frontRun (start : ℤ) : Option (UInt8 × List Entry) :=
  if StartsInside img start then
    some (if img.isLong start then (img.entry start).ldirChksum
      else calcChecksum (img.entry start).dirName, img.entries start (frontLen img start))
  else none

/-- The directory cluster at `start` is searched before an array is full. -/
def Reached (start : ℤ) : Prop :=
  ∃ starts rest, directoryClusters img = starts ++ start :: rest ∧
    starts.countP (EndsInside img ·) ≤ Waiting.capacity ∧
    (starts ++ [start]).countP (StartsInside img ·) ≤ Waiting.capacity

structure AllReached : Prop where
  heads : (directoryClusters img).countP (EndsInside img ·) ≤ Waiting.capacity
  tails : (directoryClusters img).countP (StartsInside img ·) ≤ Waiting.capacity

/-- The sequences of entries in an image: the groups inside a directory cluster, and what
the checksums make of the entries at the ends and at the beginnings of the clusters. -/
inductive Sequence (es : List Entry) : Prop
  | inside {start : ℤ} (hstart : Reached img start) (hmem : es ∈ (clusterGroups img start).groups)
  | across (hall : AllReached img) (hmem : es ∈ rejoin
      ((directoryClusters img).filterMap (openRun img))
      ((directoryClusters img).filterMap (frontRun img)))

theorem frontPart_view (start : ℤ) :
    (frontPart img start).bind (EntryPart.view (tailOf img)) = frontRun img start := by
  rw [frontRun]
  cases hf : frontPart img start with
  | none =>
    have hnot : ¬ StartsInside img start := by
      have h := isSome_frontPart img start
      rw [hf] at h
      simpa using h.symm
    rw [if_neg hnot]
    rfl
  | some part =>
    have hstarts : StartsInside img start := by
      have h := isSome_frontPart img start
      rw [hf] at h
      simpa using h.symm
    rw [if_pos hstarts, frontLen, hf]
    simp only [Option.bind_some, EntryPart.view, (frontPart_kind img hf).1, Option.map_some, tailOf,
      tailKey, Option.elim]

theorem backPart_view (h32 : 32 ∣ clusterBytes img) (start : ℤ) :
    (backPart (clusterWalk img start)).bind (EntryPart.view (headOf img)) = openRun img start := by
  have hw := clusterWalk_refines img h32 start
  have haligned := hw.aligned
  rw [openRun, ← hw.pending, backPart]
  cases hn : (clusterWalk img start).currEntries with
  | zero =>
    rw [hn] at haligned
    rw [if_neg (by simpa using haligned.symm)]
    rfl
  | succ n =>
    rw [if_pos (by simp only [hn, entrySize] at haligned; omega), Image.entries_succ]
    simp only [Option.bind_some, EntryPart.view, Option.map_some, headOf, headKey,
      Image.entries_succ, List.head?_cons]

theorem exists_split_of_searched {nums : List ℤ} {starts rest : List ℤ} {start : ℤ}
    (h : searched img nums = starts ++ start :: rest) :
    ∃ pre num post, nums = pre ++ num :: post ∧ searched img pre = starts ∧
      img.firstBytePtrOfCluster num = start ∧
      isDirentClusterPossibly img.totalClusters (img.entry start) = true := by
  induction nums generalizing starts with
  | nil => simp [searched] at h
  | cons num nums ih =>
    by_cases hp : isDirentClusterPossibly img.totalClusters
        (img.entry (img.firstBytePtrOfCluster num)) = true
    · rw [searched_cons_of_pos img hp] at h
      cases starts with
      | nil =>
        obtain ⟨rfl, -⟩ := List.cons.inj h
        exact ⟨[], num, nums, rfl, rfl, rfl, hp⟩
      | cons s starts =>
        obtain ⟨rfl, htail⟩ := List.cons.inj h
        obtain ⟨pre, num', post, rfl, rfl, hrest⟩ := ih htail
        exact ⟨num :: pre, num', post, rfl, searched_cons_of_pos img hp, hrest⟩
    · rw [searched_cons_of_neg img hp] at h
      obtain ⟨pre, num', post, rfl, rfl, hrest⟩ := ih h
      exact ⟨num :: pre, num', post, rfl, searched_cons_of_neg img hp, hrest⟩

theorem searched_append_cons {nums rest : List ℤ} {num : ℤ}
    (hp : isDirentClusterPossibly img.totalClusters
      (img.entry (img.firstBytePtrOfCluster num)) = true) :
    searched img (nums ++ num :: rest) =
      searched img nums ++ img.firstBytePtrOfCluster num :: searched img rest := by
  rw [← searched_cons_of_pos img hp]
  simp only [searched, List.map_append, List.filter_append]

variable {img}

theorem frontParts_concat (starts : List ℤ) (start : ℤ) :
    frontParts img (starts ++ [start]) = frontParts img starts ++ (frontPart img start).toList := by
  rw [frontParts, List.filterMap_append]
  congr 1

theorem Handled.sequence (h32 : 32 ∣ clusterBytes img) {call : HandleCall} (h : Handled img call) :
    Sequence img (call.entries img) := by
  cases h with
  | @walked nums rest num calls w tails hnums hscan hpossibly hqueue hmem =>
    have hw := (scan_produced img .empty hscan).within
    obtain ⟨hheads, htails⟩ := scan_waiting_empty hscan
    have hroom := queuePart_capacity hw.tails hqueue
    rw [queuePart_ok hqueue, htails, ← frontParts_concat, length_frontParts] at hroom
    have hback := hw.heads
    rw [hheads, length_backParts img h32] at hback
    have hgroups := (clusterWalk_refines img h32 (img.firstBytePtrOfCluster num)).calls_entries
    have hreached : Reached img (img.firstBytePtrOfCluster num) := by
      refine ⟨_, searched img rest, ?_, hback, hroom⟩
      rw [directoryClusters, hnums]
      exact searched_append_cons img hpossibly
    refine .inside hreached ?_
    rw [List.map_nil, List.nil_append] at hgroups
    rw [← hgroups]
    exact List.mem_map_of_mem hmem
  | @matched calls calls' w hscan hmatch hmem =>
    have hprod := scanClusters_produced img hscan
    obtain ⟨hheads, htails⟩ := scan_waiting_empty hscan
    obtain ⟨heads, tails⟩ := w
    simp only at hheads htails
    obtain ⟨calls₂, hcalls, hentries⟩ := matchEntries_rejoin img hprod.queued
    rw [hmatch] at hcalls
    cases hcalls
    refine .across ⟨?_, ?_⟩ ?_
    · rw [← length_backParts img h32, directoryClusters, ← hheads]
      exact hprod.within.heads
    · rw [← length_frontParts, directoryClusters, ← htails]
      exact hprod.within.tails
    · have hmem' := List.mem_map_of_mem (f := HandleCall.entries img) hmem
      rw [hentries, hheads, htails, backParts, frontParts, List.filterMap_filterMap,
        List.filterMap_filterMap] at hmem'
      simp only [backPart_view img h32, frontPart_view] at hmem'
      exact hmem'

theorem Sequence.handled (h32 : 32 ∣ clusterBytes img) {es : List Entry} (h : Sequence img es) :
    ∃ call, Handled img call ∧ call.entries img = es := by
  cases h with
  | @inside start hstart hmem =>
    obtain ⟨starts, rest, hsplit, hheads, htails⟩ := hstart
    obtain ⟨pre, num, post, hnums, rfl, rfl, hpossibly⟩ := exists_split_of_searched img hsplit
    rw [← length_frontParts, frontParts_concat] at htails
    rw [← length_backParts img h32] at hheads
    have hscan := scan_from_empty img pre hheads (by
      rw [List.length_append] at htails
      omega)
    have hgroups := (clusterWalk_refines img h32 (img.firstBytePtrOfCluster num)).calls_entries
    rw [List.map_nil, List.nil_append] at hgroups
    rw [← hgroups] at hmem
    obtain ⟨call, hcall, rfl⟩ := List.mem_map.mp hmem
    exact ⟨call, .walked hnums hscan hpossibly (queuePart_fits htails) hcall, rfl⟩
  | across hall hmem =>
    have hheads := hall.heads
    have htails := hall.tails
    rw [← length_backParts img h32] at hheads
    rw [← length_frontParts] at htails
    have hscan := scanClusters_fits img hheads htails
    obtain ⟨calls, hmatch, hentries⟩ :=
      matchEntries_rejoin img (scanClusters_produced img hscan).queued
    rw [backParts, frontParts, List.filterMap_filterMap, List.filterMap_filterMap] at hentries
    simp only [backPart_view img h32, frontPart_view] at hentries
    rw [directoryClusters, ← hentries] at hmem
    obtain ⟨call, hcall, rfl⟩ := List.mem_map.mp hmem
    exact ⟨call, .matched hscan hmatch hcall, rfl⟩

/-- `full_scan` calls `handle` on exactly the sequences of entries in the image. -/
theorem exists_handled_iff (h32 : 32 ∣ clusterBytes img) (es : List Entry) :
    (∃ call, Handled img call ∧ call.entries img = es) ↔ Sequence img es := by
  constructor
  · rintro ⟨call, hcall, rfl⟩
    exact hcall.sequence h32
  · exact fun h ↦ h.handled h32

theorem forall_handled_iff (h32 : 32 ∣ clusterBytes img) (P : List Entry → Prop) :
    (∀ call, Handled img call → P (call.entries img)) ↔ ∀ es, Sequence img es → P es := by
  simp only [← exists_handled_iff h32]
  constructor
  · rintro hall es ⟨call, hcall, rfl⟩
    exact hall call hcall
  · exact fun hall call hcall ↦ hall _ ⟨call, hcall, rfl⟩

theorem read_pagedGeometry (slot : ℕ → Entry) : (pagedGeometry.format slot).bpbBytsPerSec = 512 ∧
    (pagedGeometry.format slot).bpbSecPerClus = 2 ∧ (pagedGeometry.format slot).bpbTotSec32 = 8 ∧
    (pagedGeometry.format slot).reservedSectors = 2 := by
  obtain ⟨hb, hs, hr, hn, hf, ht⟩ := Geometry.read_format slot
    (g := pagedGeometry) (by constructor <;> decide)
  exact ⟨hb, hs, ht, by rw [Image.reservedSectors, hr, hn, hf]; rfl⟩

theorem pagedGeometry_wellFormed (slot : ℕ → Entry) : (pagedGeometry.format slot).WellFormed := by
  obtain ⟨hb, hs, ht, hr⟩ := read_pagedGeometry slot
  exact ⟨⟨9, by omega, by omega, hb⟩, ⟨1, hs⟩, by omega⟩

theorem pagedGeometry_mapped (slot : ℕ → Entry) : (pagedGeometry.format slot).Mapped 4096 := by
  obtain ⟨hb, -, ht, -⟩ := read_pagedGeometry slot
  refine ⟨Geometry.u16_format slot (by constructor <;> decide) (by decide), ?_⟩
  simp only [hb, ht, Nat.reduceMul, Nat.reducePow, Nat.reduceMod]

/-- The calls of `handle` for the first cluster of a volume of three. -/
theorem handled_pagedGeometry {slot : ℕ → Entry} {call : HandleCall}
    (tails : List EntryPart) (hpossibly : isDirentClusterPossibly (pagedGeometry.format slot).totalClusters
      ((pagedGeometry.format slot).entry 1024) = true)
    (hqueue : queuePart [] (frontPart (pagedGeometry.format slot) 1024) = .ok tails)
    (hmem : call ∈ (clusterWalk (pagedGeometry.format slot) 1024).calls) :
    Handled (pagedGeometry.format slot) call := by
  obtain ⟨hb, hs, ht, hr⟩ := read_pagedGeometry slot
  have hfirst : (pagedGeometry.format slot).firstBytePtrOfCluster 2 = 1024 := by
    rw [Image.firstBytePtrOfCluster, Image.firstDataSector_eq, hb, hs, hr]
    decide
  have hnums : clusterNumbers (pagedGeometry.format slot) = [] ++ 2 :: [3, 4] := by
    rw [clusterNumbers, Image.totalClusters_eq (pagedGeometry_wellFormed slot).reserved,
      Image.clusterCount, ht, hr, hs]
    decide
  rw [← hfirst] at hpossibly hqueue hmem
  exact .walked hnums rfl hpossibly hqueue hmem

end OsWorkbench.Fsrecov
