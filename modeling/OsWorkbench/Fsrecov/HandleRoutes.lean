import OsWorkbench.Fsrecov.HandleRange
import OsWorkbench.Fsrecov.Partition
import Mathlib.Data.List.Induction

namespace OsWorkbench.Fsrecov

open Library

variable (img : Image)

/-- The calls of `handle` that `full_scan` makes, also when a later store or call fails. -/
inductive Handled (call : HandleCall) : Prop
  | walked {nums rest : List ℤ} {num : ℤ} {calls : List HandleCall} {w : Waiting}
      {tails : List EntryPart} (hnums : clusterNumbers img = nums ++ num :: rest)
      (hscan : nums.foldlM (scanStep img) ([], Waiting.empty) = .ok (calls, w))
      (hpossibly : isDirentClusterPossibly img.totalClusters
        (img.entry (img.firstBytePtrOfCluster num)) = true)
      (hqueue : queuePart w.tails (frontPart img (img.firstBytePtrOfCluster num)) = .ok tails)
      (hmem : call ∈ (clusterWalk img (img.firstBytePtrOfCluster num)).calls)
  | matched {calls calls' : List HandleCall} {w : Waiting}
      (hscan : scanClusters img = .ok (calls, w)) (hmatch : matchEntries img w = .ok calls')
      (hmem : call ∈ calls')

variable {img}

theorem scan_calls {nums : List ℤ} {calls : List HandleCall} {w : Waiting} {call : HandleCall}
    (h : nums.foldlM (scanStep img) ([], Waiting.empty) = .ok (calls, w)) (hmem : call ∈ calls) :
    ∃ pre num post calls' w' tails, nums = pre ++ num :: post ∧
      pre.foldlM (scanStep img) ([], Waiting.empty) = .ok (calls', w') ∧
      isDirentClusterPossibly img.totalClusters (img.entry (img.firstBytePtrOfCluster num)) = true ∧
      queuePart w'.tails (frontPart img (img.firstBytePtrOfCluster num)) = .ok tails ∧
      call ∈ (clusterWalk img (img.firstBytePtrOfCluster num)).calls := by
  induction nums using List.reverseRecOn generalizing calls w with
  | nil =>
    cases h
    cases hmem
  | append_singleton nums num ih =>
    rw [List.foldlM_append] at h
    obtain ⟨⟨calls₁, w₁⟩, hpre, h⟩ := bind_ok h
    have hold : call ∈ calls₁ → _ := fun hm ↦ ih hpre hm
    rw [List.foldlM_cons] at h
    obtain ⟨acc, hs, h⟩ := bind_ok h
    cases h
    simp only [scanStep] at hs
    split_ifs at hs with hp
    · obtain ⟨⟨calls₂, w₂⟩, hsearch, he⟩ := bind_ok hs
      cases he
      rcases List.mem_append.mp hmem with hm | hm
      · obtain ⟨pre, n, post, calls', w', tails, rfl, hrest⟩ := hold hm
        exact ⟨pre, n, post ++ [num], calls', w', tails, by simp, hrest⟩
      · obtain ⟨tails, ht, -⟩ := bind_ok hsearch
        exact ⟨nums, num, [], calls₁, w₁, tails, rfl, hpre, hp, ht,
          (searchCluster_ok img hsearch).1 ▸ hm⟩
    · cases hs
      obtain ⟨pre, n, post, calls', w', tails, rfl, hrest⟩ := hold hmem
      exact ⟨pre, n, post ++ [num], calls', w', tails, by simp, hrest⟩

theorem handled_of_fullScan {calls : List HandleCall} (h : fullScan img = .ok calls) :
    ∀ call ∈ calls, Handled img call := by
  intro call hmem
  obtain ⟨⟨calls₁, w⟩, hscan, h⟩ := bind_ok h
  obtain ⟨calls₂, hmatch, h⟩ := bind_ok h
  cases h
  rcases List.mem_append.mp hmem with hm | hm
  · obtain ⟨pre, num, post, calls', w', tails, hnums, hpre, hp, ht, hwalk⟩ := scan_calls hscan hm
    exact .walked hnums hpre hp ht hwalk
  · exact .matched hscan hmatch hm

theorem Handled.totalClusters_nonneg {call : HandleCall} (h : Handled img call) : 0 ≤ img.totalClusters := by
  by_contra hneg
  have hnums : clusterNumbers img = [] := by
    rw [clusterNumbers, Int.toNat_of_nonpos (by omega)]
    rfl
  cases h with
  | walked hn =>
    rw [hnums] at hn
    simp at hn
  | matched hscan hmatch hmem =>
    rw [scanClusters, hnums] at hscan
    cases hscan
    cases hmatch
    cases hmem

theorem frontPart_single {start p : ℤ} (h : frontPart img start = some ⟨some p, 1⟩) :
    img.isBasic p = true := by
  simp only [frontPart] at h
  split_ifs at h with hl hb
  · obtain ⟨hp, hlen⟩ := EntryPart.mk.inj (Option.some.inj h)
    have hord : (img.entry start).ldirOrd = 0 := UInt8.toNat_inj.mp (by simpa using hlen)
    have hlong : isDirentLong (img.entry start) = true := hl.1
    simp [isDirentLong, hord] at hlong
  · cases h
    exact hb

theorem Produced.tails_front {w : Waiting} (h : Produced img w) :
    ∀ t ∈ w.tails, ∃ start, frontPart img start = some t := by
  induction h with
  | empty => simp [Waiting.empty]
  | @search w w' start calls _ hs ih =>
    intro t hm
    rw [(searchCluster_ok img hs).2.2] at hm
    rcases List.mem_append.mp hm with hm | hm
    · exact ih t hm
    · exact ⟨start, Option.mem_toList.mp hm⟩

theorem Produced.single_isBasic {w : Waiting} (h : Produced img w) {t : LivePart}
    (ht : t ∈ live 0 w.tails) (hlen : t.len = 1) : img.isBasic t.entry = true := by
  obtain ⟨start, hstart⟩ := h.tails_front _ (live_part t ht)
  rw [hlen] at hstart
  exact frontPart_single hstart

/-- A head joined with a tail of several entries, of which only the first was looked at. -/
def HandleCall.JoinsLongTail : HandleCall → Prop
  | .combined _ _ _ _ _ tailLen => tailLen ≠ 1
  | _ => False

theorem entries_last {p : ℤ} {n : ℕ} {init : List Entry} {e : Entry}
    (h : img.entries p (n + 1) = init ++ [e]) : e = img.entry (p + entrySize * n) := by
  rw [Image.entries_snoc] at h
  exact (List.append_inj_right' h rfl |> List.singleton_inj.mp).symm

/-- By which route ever the entries reach `handle`, the last one has passed
`is_dirent_basic`, except behind the first entry of a joined tail. -/
theorem Handled.last {call : HandleCall} (h : Handled img call) {init : List Entry} {e : Entry}
    (he : call.entries img = init ++ [e]) :
    isDirentBasic img.totalClusters e = true ∨ call.JoinsLongTail := by
  cases h with
  | walked _ _ _ _ hmem =>
    obtain ⟨p, len, rfl, _, last, hentries, -, hb⟩ :=
      (clusterWalk_walked img _).blocks call hmem
    rw [HandleCall.entries, hentries] at he
    exact .inl (List.singleton_inj.mp (List.append_inj_right' he rfl) ▸ hb)
  | @matched _ _ w hscan hmatch hmem =>
    have hw := scanClusters_produced img hscan
    rw [matchEntries_spec img hw.queued] at hmatch
    cases hmatch
    rcases List.mem_append.mp hmem with hm | hm
    · obtain ⟨⟨hd, tl⟩, hpair, rfl⟩ := List.mem_map.mp hm
      have htl : tl ∈ live 0 w.tails := Matching.snd_mem_of_mem_pairs hpair
      by_cases hlen : tl.len = 1
      · simp only [combine, HandleCall.entries, hlen, Image.entries_snoc, Image.entries_zero,
          List.nil_append] at he
        have heq := List.singleton_inj.mp (List.append_inj_right' he rfl)
        simp only [Nat.cast_zero, mul_zero, add_zero] at heq
        rw [← heq]
        exact .inl (hw.single_isBasic htl hlen)
      · exact .inr hlen
    · obtain ⟨t, ht, rfl⟩ := List.mem_map.mp hm
      obtain ⟨ht, hlen⟩ := List.mem_filter.mp ht
      have hlen : t.len = 1 := by simpa using hlen
      simp only [HandleCall.entries, hlen] at he
      have heq := entries_last (n := 0) he
      simp only [Nat.cast_zero, mul_zero, add_zero] at heq
      rw [heq]
      exact .inl (hw.single_isBasic (List.mem_of_mem_filter ht) hlen)

/-- An entry that has passed `is_dirent_basic` leads out of the image only under a name
that begins with a dot. -/
theorem LeavesImage.dot {init : List Entry} {e : Entry} (h : LeavesImage img init e)
    (hb : isDirentBasic img.totalClusters e = true) : e.dirName0 = 0x2E := by
  by_contra hdot
  have hclus := e.clusNum_eq_firstCluster
  have hlt := e.firstCluster_lt
  have hn : e.dirName0 ≠ 0xE5 := by
    cases h with
    | cluster _ hn => exact hn
    | size _ hn => exact hn
  simp only [isDirentBasic, hdot, hn, or_self, if_false] at hb
  split_ifs at hb with h0 hattr hres hc hs
  cases h with
  | cluster _ _ hc' =>
    rw [hclus] at hc
    split_ifs at hc <;> omega
  | size _ _ _ _ _ _ hs' => omega

/-- `handle` stays inside a volume in every call of a scan exactly when no entry that
reaches it without the checks of `is_dirent_basic` leads out of the image. These are the
entries with a name that begins with a dot, and those behind the first entry of a tail. -/
theorem handled_inside_iff {size : ℕ} (h : ExactVolume img size) :
    (∀ call, Handled img call → HandleInside img (call.entries img)) ↔
      ∀ call init e, Handled img call → call.entries img = init ++ [e] →
        e.dirName0 = 0x2E ∨ call.JoinsLongTail → ¬ LeavesImage img init e := by
  constructor
  · intro hall call init e hcall he _
    have hin := hall call hcall
    rw [he] at hin
    exact (handleInside_iff h hcall.totalClusters_nonneg init e).mp hin
  · intro hall call hcall
    rcases List.eq_nil_or_concat (call.entries img) with hnil | ⟨init, e, he⟩
    · rw [hnil]
      exact ⟨by simp, by simp⟩
    · rw [List.concat_eq_append] at he
      rw [he]
      refine (handleInside_iff h hcall.totalClusters_nonneg init e).mpr fun hleaves ↦ ?_
      refine hall call init e hcall he ?_ hleaves
      rcases hcall.last he with hb | hjoin
      · exact .inl (hleaves.dot hb)
      · exact .inr hjoin

theorem wideGeometry_exactVolume (slot : ℕ → Entry) :
    ExactVolume (wideGeometry.format slot) 71680000 := by
  obtain ⟨hb, hs, ht, hr⟩ := read_wideGeometry slot
  have hcount : (wideGeometry.format slot).clusterCount = 138899 := by
    rw [Image.clusterCount, ht, hr, hs]
  have hlast : (wideGeometry.format slot).LastBelow2GiB := by
    rw [Image.LastBelow2GiB, Image.exactOffset, hcount, hb, hs, hr]
    decide
  refine ⟨wideGeometry_mapped slot, wideGeometry_wellFormed slot, fun n hn hn' ↦ ?_⟩
  rw [totalClusters_wideGeometry] at hn'
  exact Image.addressedExactly_of_below (wideGeometry_mapped slot) (wideGeometry_wellFormed slot)
    hlast hn (by omega)

def dotFileSlot : Entry :=
  slotOfBytes (0x2E :: List.replicate 10 0x20 ++ [0x20] ++ List.replicate 14 0 ++ [1])

/-- The first cluster holds a small file, and a file whose name begins with a dot. -/
def dotFileImage : Image := wideGeometry.format fun k ↦
  if k = 0 then fileSlot 3 1 else if k = 1 then dotFileSlot else slotOfBytes []

theorem dotFile_handled : Handled dotFileImage (.walked (rootStart + 32) 1) := by
  have hnums : clusterNumbers dotFileImage =
      [] ++ 2 :: (List.range' 1 138898).map fun k : ℕ ↦ (k : ℤ) + 2 := by
    rw [clusterNumbers, dotFileImage, totalClusters_wideGeometry, List.range_eq_range']
    rfl
  have hqueue : queuePart Waiting.empty.tails
      (frontPart dotFileImage (dotFileImage.firstBytePtrOfCluster 2)) =
        .ok [⟨some rootStart, 1⟩] := by decide +kernel
  exact .walked hnums rfl (by decide +kernel) hqueue (by decide +kernel)

/-- `handle` reads the bytes in front of the data area, at the place of a cluster 1. -/
theorem dotFile_outside : ExactVolume dotFileImage 71680000 ∧
    ¬ ∀ call, Handled dotFileImage call → HandleInside dotFileImage (call.entries dotFileImage) := by
  refine ⟨wideGeometry_exactVolume _, fun hall ↦ ?_⟩
  have hin := hall _ dotFile_handled
  have hentry : dotFileImage.entry (rootStart + 32) = dotFileSlot := wideGeometry.entry_format _ 1
  have hlast : dotFileSlot ∈
      ((HandleCall.walked (rootStart + 32) 1).entries dotFileImage).getLast? := by
    simp [HandleCall.entries, Image.entries_succ, hentry]
  have hgo : GoesOn dotFileImage dotFileSlot := by
    rw [GoesOn, dotFileImage, totalClusters_wideGeometry]
    decide
  exact absurd (hin.clusNum _ hlast hgo).1 (by decide)

theorem dotFile_inside_iff :
    (∀ call, Handled dotFileImage call → HandleInside dotFileImage (call.entries dotFileImage)) ↔
      ∀ call init e, Handled dotFileImage call → call.entries dotFileImage = init ++ [e] →
        e.dirName0 = 0x2E ∨ call.JoinsLongTail → ¬ LeavesImage dotFileImage init e :=
  handled_inside_iff (wideGeometry_exactVolume _)

end OsWorkbench.Fsrecov
