import OsWorkbench.Fsrecov.WaitingCapacity
import OsWorkbench.Fsrecov.LongName

namespace OsWorkbench.Fsrecov

open Library

variable (img : Image)

def bytesLeft (start : ℤ) : ℤ := img.diskEnd - start + 1

/-- A call of `handle` that looks only at a cluster of the volume, and hands only a
range of the image to `outprint`. -/
structure HandleInside (es : List Entry) : Prop where
  clusNum : ∀ e ∈ es.getLast?, GoesOn img e → 2 ≤ e.clusNum ∧ e.clusNum ≤ img.totalClusters + 1
  output : ∀ e ∈ es.getLast?, ∀ file, handle img es = .ok (some file) →
    0 ≤ file.start ∧ file.start + file.size ≤ img.diskEnd + 1 ∧
    (file.size : ℤ) = min (e.dirFileSize : ℤ) (bytesLeft img file.start)

/-- A valid header whose cluster offsets fit in an `int`. -/
structure ExactVolume (size : ℕ) : Prop where
  mapped : img.Mapped size
  wellFormed : img.WellFormed
  exact : ∀ n, 2 ≤ n → n ≤ img.totalClusters + 1 → img.AddressedExactly size n

/-- A file entry, behind the long entries `init`, with which `handle` leaves the image:
its first cluster is 1 or has the sign bit set, or it is a bitmap of 2 GiB or more that
runs over the end of the image. -/
inductive LeavesImage (init : List Entry) (e : Entry) : Prop
  | cluster (hd : e.dirAttr &&& attrDirectory = 0) (hn : e.dirName0 ≠ 0xE5)
      (hc : e.firstCluster = 1 ∨ 2 ^ 31 ≤ e.firstCluster)
  | size (hd : e.dirAttr &&& attrDirectory = 0) (hn : e.dirName0 ≠ 0xE5)
      (hc : 2 ≤ e.firstCluster) (hc' : e.firstCluster ≤ img.totalClusters + 1)
      (hbmp : img.u16 (img.exactOffset e.firstCluster) = bmpSignature)
      (hname : (init.reverse.flatMap namePiece).length ≤ 255) (hs : 2 ^ 31 ≤ e.dirFileSize)
      (hend : img.diskEnd + 1 < img.exactOffset e.firstCluster + e.dirFileSize)

theorem Entry.u32_lt (e : Entry) (i : ℕ) : e.u32 i < 2 ^ 32 := by
  have h := e.u16_lt i
  have h' := e.u16_lt (i + 2)
  unfold u32
  omega

theorem Entry.firstCluster_lt (e : Entry) : e.firstCluster < 2 ^ 32 := by
  have h := e.u16_lt 20
  have h' := e.u16_lt 26
  unfold firstCluster dirFstClusHI dirFstClusLO
  omega

theorem Entry.clusNum_eq_firstCluster (e : Entry) :
    e.clusNum = if e.firstCluster < 2 ^ 31 then (e.firstCluster : ℤ) else e.firstCluster - 2 ^ 32 := by
  have hlt := e.firstCluster_lt
  have hc : e.clusNum = toInt32 e.firstCluster := by
    rw [Entry.clusNum_eq, Entry.firstCluster]
    push_cast
    rfl
  rw [hc, toInt32, Int.bmod_def]
  split_ifs <;> omega

variable {img}

theorem ExactVolume.diskEnd_eq {size : ℕ} (h : ExactVolume img size) : img.diskEnd + 1 = size := by
  rw [Image.diskEnd, ← h.mapped.size]
  push_cast
  omega

theorem ExactVolume.start {size : ℕ} (h : ExactVolume img size) {n : ℤ} (hn : 2 ≤ n)
    (hn' : n ≤ img.totalClusters + 1) : img.firstBytePtrOfCluster n = img.exactOffset n ∧
      0 ≤ img.exactOffset n ∧ img.exactOffset n ≤ img.diskEnd := by
  have hx := h.exact n hn hn'
  have hend := h.diskEnd_eq
  have hpos : 0 < clusterBytes img := by
    refine Nat.mul_pos ?_ h.wellFormed.secPerClus_pos
    rcases h.wellFormed.bytsPerSec_cases with he | he | he | he <;> omega
  have hoff : 0 ≤ img.exactOffset n :=
    mul_nonneg (add_nonneg (by omega) (mul_nonneg (by omega) (by omega))) (by omega)
  have hin := hx.inside
  exact ⟨hx.exact, hoff, by omega⟩

theorem ExactVolume.totalClusters_lt {size : ℕ} (h : ExactVolume img size) :
    img.totalClusters < 2 ^ 31 - 1 := by
  by_contra hge
  have hx := (h.exact (img.totalClusters + 1) (by omega) le_rfl).exact
  have hspc := h.wellFormed.secPerClus_pos
  have hsectors : img.totalClusters - 1 ≤ (img.totalClusters - 1) * img.bpbSecPerClus :=
    le_mul_of_one_le_right (by omega) (by omega)
  have hlt : img.firstBytePtrOfCluster (img.totalClusters + 1) < 2 ^ 31 := toInt32_lt _
  rw [hx, Image.exactOffset, show img.totalClusters + 1 - 2 = img.totalClusters - 1 by omega] at hlt
  rcases h.wellFormed.bytsPerSec_cases with he | he | he | he <;> rw [he] at hlt <;> omega

theorem goesOn_iff (e : Entry) : GoesOn img e ↔ e.clusNum ≠ 0 ∧ e.clusNum ≤ img.totalClusters + 1 ∧
    e.dirAttr &&& attrDirectory = 0 ∧ e.dirName0 ≠ 0xE5 := by
  simp only [GoesOn, not_or, not_not, not_lt, ne_eq]

theorem outputSize_eq {start : ℤ} {fileSize size : ℕ} (hsize : img.diskEnd + 1 = size)
    (hlt : size < 2 ^ 32) (hstart : 0 ≤ start) (hend : start ≤ img.diskEnd) (hf : fileSize < 2 ^ 32) :
    (outputSize img start fileSize : ℤ) =
      if fileSize < 2 ^ 31 then min (fileSize : ℤ) (bytesLeft img start) else fileSize := by
  have hint : toInt32 fileSize = if fileSize < 2 ^ 31 then (fileSize : ℤ) else fileSize - 2 ^ 32 := by
    rw [toInt32, Int.bmod_def]
    split_ifs <;> omega
  simp only [outputSize, bytesLeft, hint]
  split_ifs <;> omega

theorem ExactVolume.size_lt {size : ℕ} (h : ExactVolume img size) : size < 2 ^ 32 := by
  rw [← h.mapped.size]
  exact Nat.mod_lt _ (by decide)

/-- What `handle` hands on for a bitmap whose first cluster is in the volume. -/
theorem handle_bitmap {size : ℕ} (h : ExactVolume img size) {init : List Entry} {e : Entry}
    {file : OutputFile} (hgo : GoesOn img e) (h2 : 2 ≤ e.clusNum)
    (hfile : handle img (init ++ [e]) = .ok (some file)) :
    img.u16 (img.exactOffset e.clusNum) = bmpSignature ∧
    (init.reverse.flatMap namePiece).length ≤ 255 ∧ file.start = img.exactOffset e.clusNum ∧
    (file.size : ℤ) = if e.dirFileSize < 2 ^ 31 then
      min (e.dirFileSize : ℤ) (bytesLeft img file.start) else e.dirFileSize := by
  obtain ⟨-, hle, -⟩ := (goesOn_iff e).mp hgo
  obtain ⟨hstart, hpos, hend⟩ := h.start h2 hle
  obtain ⟨⟨-, hbmp⟩, name, hname, rfl⟩ := (handle_eq_some_iff img).mp hfile
  have hfits := fileName_isSome.mp (Option.isSome_of_eq_some hname)
  have hs : e.dirFileSize < 2 ^ 32 := e.u32_lt 28
  have hsize := outputSize_eq h.diskEnd_eq h.size_lt hpos hend hs
  rw [hstart] at hbmp ⊢
  refine ⟨hbmp, hfits, rfl, ?_⟩
  dsimp only
  exact hsize

theorem handle_runs {size : ℕ} (h : ExactVolume img size) {init : List Entry} {e : Entry}
    (hgo : GoesOn img e) (h2 : 2 ≤ e.clusNum)
    (hbmp : img.u16 (img.exactOffset e.clusNum) = bmpSignature)
    (hname : (init.reverse.flatMap namePiece).length ≤ 255) :
    ∃ file, handle img (init ++ [e]) = .ok (some file) := by
  obtain ⟨-, hle, -⟩ := (goesOn_iff e).mp hgo
  obtain ⟨name, hn⟩ := Option.isSome_iff_exists.mp (fileName_isSome (e := e).mpr hname)
  rw [← (h.start h2 hle).1] at hbmp
  exact ⟨_, (handle_eq_some_iff img).mpr ⟨⟨hgo, hbmp⟩, name, hn, rfl⟩⟩

theorem LeavesImage.outside {size : ℕ} (h : ExactVolume img size) (htc : 0 ≤ img.totalClusters)
    {init : List Entry} {e : Entry} (hout : LeavesImage img init e) :
    ¬ HandleInside img (init ++ [e]) := by
  intro hin
  have hclus := e.clusNum_eq_firstCluster
  have hmax := h.totalClusters_lt
  have hlast : e ∈ (init ++ [e]).getLast? := by simp
  cases hout with
  | cluster hd hn hc =>
    have hlt := e.firstCluster_lt
    have hgo : GoesOn img e := by
      refine (goesOn_iff e).mpr ⟨?_, ?_, hd, hn⟩ <;> rw [hclus] <;> split_ifs <;> omega
    have h2 := (hin.clusNum e hlast hgo).1
    rw [hclus] at h2
    split_ifs at h2 <;> omega
  | size hd hn hc hc' hbmp hname hs hend =>
    have heq : e.clusNum = e.firstCluster := by
      rw [hclus, if_pos (by omega)]
    rw [← heq] at hbmp hend
    have hgo : GoesOn img e := (goesOn_iff e).mpr ⟨by omega, by omega, hd, hn⟩
    obtain ⟨file, hfile⟩ := handle_runs h hgo (by omega) hbmp hname
    obtain ⟨-, -, hstart, hsize⟩ := handle_bitmap h hgo (by omega) hfile
    obtain ⟨-, hle, -⟩ := hin.output e hlast file hfile
    rw [if_neg (by omega)] at hsize
    omega

theorem handleInside_of_stays {size : ℕ} (h : ExactVolume img size) {init : List Entry} {e : Entry}
    (hout : ¬ LeavesImage img init e) : HandleInside img (init ++ [e]) := by
  have hclus := e.clusNum_eq_firstCluster
  have hmax := h.totalClusters_lt
  have hrange : GoesOn img e → 2 ≤ e.clusNum ∧ e.clusNum ≤ img.totalClusters + 1 := by
    intro hgo
    obtain ⟨hne, hle, hd, hn⟩ := (goesOn_iff e).mp hgo
    have hok : ¬ (e.firstCluster = 1 ∨ 2 ^ 31 ≤ e.firstCluster) := fun hc ↦ hout (.cluster hd hn hc)
    rw [hclus, if_pos (by omega)] at hne hle ⊢
    omega
  constructor
  · intro e' he' hgo
    rw [List.getLast?_concat] at he'
    cases he'
    exact hrange hgo
  · intro e' he' file hfile
    rw [List.getLast?_concat] at he'
    cases he'
    obtain ⟨⟨hgo, -⟩, -⟩ := (handle_eq_some_iff img).mp hfile
    obtain ⟨h2, hle⟩ := hrange hgo
    obtain ⟨hbmp, hname, hstart, hsize⟩ := handle_bitmap h hgo h2 hfile
    obtain ⟨-, -, hd, hn⟩ := (goesOn_iff e).mp hgo
    obtain ⟨-, hpos, hend⟩ := h.start h2 hle
    rw [hstart] at hsize ⊢
    have hleft : bytesLeft img (img.exactOffset e.clusNum) =
      img.diskEnd - img.exactOffset e.clusNum + 1 := rfl
    split_ifs at hsize with hlt
    · exact ⟨hpos, by omega, hsize⟩
    · have heq : e.clusNum = e.firstCluster := by
        rw [hclus]
        split_ifs with hc
        · rfl
        · rw [hclus, if_neg hc] at h2
          have := e.firstCluster_lt
          omega
      have hfit : img.exactOffset e.clusNum + e.dirFileSize ≤ img.diskEnd + 1 := by
        by_contra hover
        rw [heq] at hbmp hover h2 hle
        exact hout (.size hd hn (by omega) (by omega) hbmp hname (by omega) (by omega))
      exact ⟨hpos, by omega, by omega⟩

/-- A call of `handle` stays inside the image exactly when its last entry does not
lead out of it. -/
theorem handleInside_iff {size : ℕ} (h : ExactVolume img size) (htc : 0 ≤ img.totalClusters)
    (init : List Entry) (e : Entry) :
    HandleInside img (init ++ [e]) ↔ ¬ LeavesImage img init e :=
  ⟨fun hin hout ↦ hout.outside h htc hin, handleInside_of_stays h⟩

end OsWorkbench.Fsrecov
