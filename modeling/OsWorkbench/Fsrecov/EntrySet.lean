import OsWorkbench.Fsrecov.LongName
import OsWorkbench.Fsrecov.Queue
import OsWorkbench.Library.Pages

namespace OsWorkbench.Fsrecov

open Library

/-- The entries of one file or directory: its long entries and a short entry
that the program recognizes. -/
structure EntrySet (totalClusters : ℤ) where
  longs : List Entry
  short : Entry
  longSet : LongSet short longs
  basic : isDirentBasic totalClusters short = true

variable {totalClusters : ℤ}

namespace EntrySet

variable (s : EntrySet totalClusters)

def entries : List Entry := s.longs ++ [s.short]

def chksum : UInt8 := calcChecksum s.short.dirName

@[simp] theorem length_entries : s.entries.length = s.longs.length + 1 := by
  simp [entries]

theorem length_pos : 0 < s.entries.length := by
  simp

theorem length_le : s.entries.length ≤ 21 := by
  rw [length_entries]
  exact Nat.succ_le_succ s.longSet.count

theorem isDirentLong_get (i : ℕ) (hi : i < s.longs.length) : isDirentLong s.longs[i] = true := by
  have hcount := s.longSet.count
  have hmem := List.getElem_mem hi
  refine isDirentLong_of_ord (n := s.longs.length - i) (by omega) (by omega) ?_
    (s.longSet.attr _ hmem) (s.longSet.type _ hmem) (s.longSet.fstClusLO _ hmem)
  rw [s.longSet.ord i hi]
  split_ifs
  · exact .inr rfl
  · exact .inl (UInt8.or_zero)

theorem isDirentLong_of_mem {e : Entry} (he : e ∈ s.longs) : isDirentLong e = true := by
  obtain ⟨i, hi, rfl⟩ := List.getElem_of_mem he
  exact s.isDirentLong_get i hi

variable (htc : totalClusters ≤ 65534)
include htc

theorem isDirentLong_short : isDirentLong s.short = false := by
  by_contra h
  have hb := isDirentBasic_of_isDirentLong htc (eq_true_of_ne_false h)
  rw [s.basic] at hb
  cases hb

theorem open_of_mem {e : Entry} (he : e ∈ s.longs) :
    Grouping.Open (isDirentBasic totalClusters) isDirentLong e :=
  ⟨s.isDirentLong_of_mem he, isDirentBasic_of_isDirentLong htc (s.isDirentLong_of_mem he)⟩

theorem block : Grouping.Block (isDirentBasic totalClusters) isDirentLong s.entries :=
  ⟨s.longs, s.short, rfl, fun _ he ↦ s.open_of_mem htc he, s.basic⟩

end EntrySet

abbrev EntryCut (totalClusters : ℤ) := Pages.Cut (@EntrySet.entries totalClusters)

abbrev EntryPage (totalClusters : ℤ) := Pages.Page (@EntrySet.entries totalClusters)

theorem EntryCut.front_eq (c : EntryCut totalClusters) : c.front = c.item.longs.take c.point := by
  have hlt := c.lt
  rw [EntrySet.length_entries] at hlt
  rw [Pages.Cut.front, EntrySet.entries, List.take_append_of_le_length (by omega)]

variable (img : Image) {start : ℤ}

/-- Where a cluster begins inside an entry set, the tail is what is left of the set. -/
theorem frontPart_of_back (htc : img.totalClusters ≤ 65534) (c : EntryCut img.totalClusters)
    (h : c.back.head? = some (img.entry start)) :
    frontPart img start = some ⟨some start, c.back.length⟩ := by
  have hcount := c.item.longSet.count
  have hlt := c.lt
  have hpos := c.pos
  rw [EntrySet.length_entries] at hlt
  rw [Pages.Cut.length_back, EntrySet.length_entries]
  rw [Pages.Cut.back, List.head?_drop] at h
  rcases Nat.lt_or_ge c.point c.item.longs.length with hlong | hshort
  · have he : img.entry start = c.item.longs[c.point] := by
      rw [EntrySet.entries, List.getElem?_append_left hlong, List.getElem?_eq_getElem hlong] at h
      exact (Option.some.inj h).symm
    have hisLong : img.isLong start = true := by
      rw [Image.isLong, he]
      exact c.item.isDirentLong_get _ hlong
    have hord : (img.entry start).ldirOrd = UInt8.ofNat (c.item.longs.length - c.point) := by
      rw [he, c.item.longSet.ord _ hlong, if_neg (by omega), UInt8.or_zero]
    have hsmall : ∀ n < 21, UInt8.ofNat n &&& lastLongEntry = 0 ∧ (UInt8.ofNat n).toNat = n := by
      decide
    obtain ⟨hand, hnat⟩ := hsmall (c.item.longs.length - c.point) (by omega)
    simp only [frontPart, hisLong, hord, hand, hnat, and_self, if_true]
    congr 2
    omega
  · have he : img.entry start = c.item.short := by
      rw [EntrySet.entries, List.getElem?_append_right hshort,
        show c.point - c.item.longs.length = 0 by omega] at h
      exact (Option.some.inj h).symm
    have hisLong : img.isLong start = false := by
      rw [Image.isLong, he]
      exact c.item.isDirentLong_short htc
    have hisBasic : img.isBasic start = true := by
      rw [Image.isBasic, he]
      exact c.item.basic
    simp only [frontPart, hisLong, Bool.false_eq_true, false_and, if_false, hisBasic, if_true]
    congr 2
    omega

/-- Where a cluster begins with a set, only a set without long entries is queued. -/
theorem frontPart_of_set (htc : img.totalClusters ≤ 65534) (s : EntrySet img.totalClusters)
    (h : s.entries.head? = some (img.entry start)) :
    frontPart img start = if s.longs = [] then some ⟨some start, 1⟩ else none := by
  cases hlongs : s.longs with
  | nil =>
    have he : img.entry start = s.short := by
      rw [EntrySet.entries, hlongs] at h
      exact (Option.some.inj h).symm
    have hisLong : img.isLong start = false := by
      rw [Image.isLong, he]
      exact s.isDirentLong_short htc
    have hisBasic : img.isBasic start = true := by
      rw [Image.isBasic, he]
      exact s.basic
    simp only [frontPart, hisLong, Bool.false_eq_true, false_and, if_false, hisBasic, if_true]
  | cons e es =>
    have hlen : 0 < s.longs.length := by simp [hlongs]
    have he : img.entry start = s.longs[0] := by
      rw [EntrySet.entries, List.head?_append_of_ne_nil _ (by simp [hlongs]),
        List.head?_eq_getElem?, List.getElem?_eq_getElem hlen] at h
      exact (Option.some.inj h).symm
    have hnotBasic : img.isBasic start = false := by
      rw [Image.isBasic, he]
      exact (s.open_of_mem htc (List.getElem_mem hlen)).2
    have hord : (img.entry start).ldirOrd = UInt8.ofNat s.longs.length ||| lastLongEntry := by
      rw [he, s.longSet.ord 0 hlen, if_pos rfl, Nat.sub_zero]
    have hbit : ∀ n < 21, (UInt8.ofNat n ||| lastLongEntry) &&& lastLongEntry ≠ 0 := by decide
    have hand := hbit s.longs.length (by have := s.longSet.count; omega)
    simp only [frontPart, hord, hand, and_false, if_false, hnotBasic, Bool.false_eq_true,
      reduceCtorEq]

variable {img}

theorem headKey_of_mem {t : LivePart} (s : EntrySet img.totalClusters)
    (h : img.entry t.entry ∈ s.longs) : headKey img t = s.chksum :=
  s.longSet.chksum _ h

theorem tailKey_of_mem (htc : img.totalClusters ≤ 65534) {t : LivePart}
    (s : EntrySet img.totalClusters) (h : img.entry t.entry ∈ s.entries) :
    tailKey img t = s.chksum := by
  rcases List.mem_append.mp h with hlong | hshort
  · have hisLong : img.isLong t.entry = true := s.isDirentLong_of_mem hlong
    rw [tailKey, if_pos hisLong]
    exact s.longSet.chksum _ hlong
  · have he := List.mem_singleton.mp hshort
    have hisLong : img.isLong t.entry = false := by
      rw [Image.isLong, he]
      exact s.isDirentLong_short htc
    rw [tailKey, hisLong, he]
    rfl

end OsWorkbench.Fsrecov
