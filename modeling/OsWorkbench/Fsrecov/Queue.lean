import OsWorkbench.Fsrecov.Walk
import OsWorkbench.Library.Matching

namespace OsWorkbench.Fsrecov

open Library

variable (img : Image)

/-- A part of a waiting array that has not been consumed, with its position. -/
structure LivePart where
  index : ℕ
  entry : ℤ
  len : ℕ
  deriving DecidableEq, Repr

def live : ℕ → List EntryPart → List LivePart
  | _, [] => []
  | j, ⟨none, _⟩ :: parts => live (j + 1) parts
  | j, ⟨some p, len⟩ :: parts => ⟨j, p, len⟩ :: live (j + 1) parts

theorem live_index {j : ℕ} {parts : List EntryPart} : ∀ t ∈ live j parts, j ≤ t.index := by
  induction parts generalizing j with
  | nil => simp [live]
  | cons part parts ih =>
    intro t ht
    obtain ⟨_ | p, len⟩ := part
    · have h := ih t ht
      omega
    · rcases List.mem_cons.mp ht with rfl | ht
      · exact le_rfl
      · have h := ih t ht
        omega

theorem live_index_nodup (j : ℕ) (parts : List EntryPart) :
    ((live j parts).map LivePart.index).Nodup := by
  induction parts generalizing j with
  | nil => simp [live]
  | cons part parts ih =>
    obtain ⟨_ | p, len⟩ := part
    · exact ih (j + 1)
    · refine List.nodup_cons.mpr ⟨fun hm ↦ ?_, ih (j + 1)⟩
      obtain ⟨t, ht, he⟩ := List.mem_map.mp hm
      have h := live_index t ht
      simp only at he
      omega

theorem live_nodup (j : ℕ) (parts : List EntryPart) : (live j parts).Nodup :=
  List.Nodup.of_map _ (live_index_nodup j parts)

theorem live_part {j : ℕ} {parts : List EntryPart} :
    ∀ t ∈ live j parts, ⟨some t.entry, t.len⟩ ∈ parts := by
  induction parts generalizing j with
  | nil => simp [live]
  | cons part parts ih =>
    intro t ht
    obtain ⟨_ | p, len⟩ := part
    · exact List.mem_cons_of_mem _ (ih t ht)
    · rcases List.mem_cons.mp ht with rfl | ht
      · exact List.mem_cons_self
      · exact List.mem_cons_of_mem _ (ih t ht)

/-- The checksum by which a head is matched. -/
def headKey (t : LivePart) : UInt8 := (img.entry t.entry).ldirChksum

/-- The checksum by which a tail is matched: the one it carries when it begins
with a long entry, that of its own name otherwise. -/
def tailKey (t : LivePart) : UInt8 :=
  if img.isLong t.entry then (img.entry t.entry).ldirChksum
  else calcChecksum (img.entry t.entry).dirName

def combine (h t : LivePart) : HandleCall :=
  .combined h.index t.index h.entry h.len t.entry t.len

theorem matched_eq {head : ℤ} {t : LivePart} (hh : img.isLong head = true)
    (ht : img.isLong t.entry = true ∨ img.isBasic t.entry = true) :
    matched img (img.entry head) (img.entry t.entry) =
      .ok ((img.entry head).ldirChksum = tailKey img t) := by
  have hh' : isDirentLong (img.entry head) = true := hh
  rw [matched, if_pos hh', tailKey]
  by_cases hl : img.isLong t.entry = true
  · have hl' : isDirentLong (img.entry t.entry) = true := hl
    rw [if_pos hl', if_pos hl]
  · have hl' : ¬ isDirentLong (img.entry t.entry) = true := hl
    have hb' : isDirentBasic img.totalClusters (img.entry t.entry) = true := ht.resolve_left hl
    rw [if_neg hl', if_pos hb', if_neg hl]

/-- One head takes every live tail of its checksum and leaves the others alone. -/
theorem matchTails_spec {h : LivePart} (hh : img.isLong h.entry = true) (j : ℕ)
    (tails : List EntryPart)
    (ht : ∀ t ∈ live j tails, img.isLong t.entry = true ∨ img.isBasic t.entry = true) :
    ∃ rest, matchTails img h.index h.entry h.len j tails =
        .ok (((live j tails).filter (tailKey img · = headKey img h)).map (combine h), rest) ∧
      live j rest = (live j tails).filter (tailKey img · ≠ headKey img h) := by
  induction tails generalizing j with
  | nil => exact ⟨[], rfl, rfl⟩
  | cons part tails ih =>
    obtain ⟨_ | p, len⟩ := part
    · obtain ⟨rest, hr, hl⟩ := ih (j + 1) ht
      refine ⟨⟨none, len⟩ :: rest, ?_, hl⟩
      rw [matchTails, hr]
      rfl
    · have hp := matched_eq img (t := ⟨j, p, len⟩) hh (ht _ List.mem_cons_self)
      obtain ⟨rest, hr, hl⟩ := ih (j + 1) (fun t hm ↦ ht t (List.mem_cons_of_mem _ hm))
      rw [matchTails, hp, hr]
      by_cases hk : tailKey img ⟨j, p, len⟩ = headKey img h
      · have hk' : (img.entry h.entry).ldirChksum = tailKey img ⟨j, p, len⟩ := hk.symm
        refine ⟨⟨none, len⟩ :: rest, ?_, ?_⟩
        · simp only [live, List.filter_cons, hk, hk', decide_true, if_true, List.map_cons]
          rfl
        · simpa only [live, List.filter_cons, hk, ne_eq, not_true_eq_false, decide_false,
            Bool.false_eq_true, if_false] using hl
      · have hk' : ¬ (img.entry h.entry).ldirChksum = tailKey img ⟨j, p, len⟩ := fun he ↦ hk he.symm
        refine ⟨⟨some p, len⟩ :: rest, ?_, ?_⟩
        · simp only [live, List.filter_cons, hk, hk', decide_false, Bool.false_eq_true, if_false]
          rfl
        · simp only [live, List.filter_cons, hk, ne_eq, not_false_eq_true, decide_true, if_true, hl]

/-- The two nested loops of `match_entries` are the greedy matching by checksum. -/
theorem matchHeads_spec (i : ℕ) (heads tails : List EntryPart)
    (hh : ∀ h ∈ heads, ∃ p, h.entry = some p ∧ img.isLong p = true)
    (ht : ∀ t ∈ live 0 tails, img.isLong t.entry = true ∨ img.isBasic t.entry = true) :
    ∃ rest, matchHeads img i heads tails =
        .ok ((Matching.pairs (headKey img) (tailKey img) (live i heads) (live 0 tails)).map
          (fun p ↦ combine p.1 p.2), rest) ∧
      live 0 rest = Matching.left (headKey img) (tailKey img) (live i heads) (live 0 tails) := by
  induction heads generalizing i tails with
  | nil => exact ⟨tails, rfl, by simp [live, Matching.left]⟩
  | cons part heads ih =>
    obtain ⟨p, hp, hl⟩ := hh part List.mem_cons_self
    obtain ⟨_, len⟩ := part
    cases hp
    obtain ⟨rest, hr, hlive⟩ := matchTails_spec img (h := ⟨i, p, len⟩) hl 0 tails ht
    obtain ⟨rest', hr', hlive'⟩ := ih (i + 1) rest (fun h hm ↦ hh h (List.mem_cons_of_mem _ hm))
      (fun t hm ↦ ht t (List.mem_of_mem_filter (hlive ▸ hm)))
    refine ⟨rest', ?_, ?_⟩
    · simp only at hr
      rw [matchHeads, hr]
      simp only [bind, Except.bind, hr', live, Matching.pairs, List.map_append, List.map_map,
        hlive]
      rfl
    · rw [hlive', hlive, live, Matching.left_cons]

theorem handleAlone_eq (j : ℕ) (tails : List EntryPart) :
    handleAlone j tails =
      ((live j tails).filter (·.len = 1)).map fun t ↦ .alone t.index t.entry t.len := by
  induction tails generalizing j with
  | nil => rfl
  | cons part tails ih =>
    obtain ⟨_ | p, len⟩ := part
    · exact ih (j + 1)
    · rw [handleAlone, live, List.filter_cons, ih (j + 1)]
      by_cases hl : len = 1 <;> simp [hl]

/-- What the scan leaves in the waiting arrays: heads begin with a long entry,
tails with an entry of either kind, and nothing is consumed yet. -/
structure Queued (w : Waiting) : Prop where
  heads : ∀ h ∈ w.heads, ∃ p, h.entry = some p ∧ img.isLong p = true
  tails : ∀ t ∈ w.tails, ∃ p, t.entry = some p ∧ (img.isLong p = true ∨ img.isBasic p = true)

theorem Queued.live_tails {w : Waiting} (hw : Queued img w) :
    ∀ t ∈ live 0 w.tails, img.isLong t.entry = true ∨ img.isBasic t.entry = true := by
  intro t hm
  obtain ⟨p, hp, hk⟩ := hw.tails _ (live_part t hm)
  cases hp
  exact hk

theorem matchEntries_spec {w : Waiting} (hw : Queued img w) :
    matchEntries img w = .ok
      ((Matching.pairs (headKey img) (tailKey img) (live 0 w.heads) (live 0 w.tails)).map
          (fun p ↦ combine p.1 p.2) ++
        ((Matching.left (headKey img) (tailKey img) (live 0 w.heads) (live 0 w.tails)).filter
          (·.len = 1)).map fun t ↦ .alone t.index t.entry t.len) := by
  obtain ⟨rest, hr, hlive⟩ := matchHeads_spec img 0 w.heads w.tails hw.heads (hw.live_tails img)
  rw [matchEntries, hr, ← hlive, ← handleAlone_eq]
  rfl

end OsWorkbench.Fsrecov
