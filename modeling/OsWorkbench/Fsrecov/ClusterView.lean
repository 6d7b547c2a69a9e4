import OsWorkbench.Fsrecov.EntrySet
import OsWorkbench.Fsrecov.ScanResult

namespace OsWorkbench.Fsrecov

open Library

def zeroEntry : Entry := fun _ ↦ 0

namespace EntryPage

variable {totalClusters : ℤ} (p : EntryPage totalClusters)

/-- The set queued as a tail of one entry although it lies on the page as a whole. -/
def single : Option (EntrySet totalClusters) :=
  if p.carry.isSome then none else p.whole.head?.filter (·.longs = [])

/-- The sets that the walk over the page passes to `handle`. -/
def inner : List (EntrySet totalClusters) := p.whole.drop p.single.toList.length

theorem single_append_inner : p.single.toList ++ p.inner = p.whole := by
  simp only [inner, single]
  split_ifs with hc
  · rfl
  · cases p.whole with
    | nil => rfl
    | cons s ss => by_cases hs : s.longs = [] <;> simp [Option.filter, hs]

theorem single_eq_none_of_carry (h : p.carry.isSome) : p.single = none := if_pos h

theorem longs_of_single {s : EntrySet totalClusters} (h : s ∈ p.single) : s.longs = [] := by
  simp only [single] at h
  split_ifs at h with hc
  · cases h
  · simpa using (Option.mem_filter_iff.mp h).2

/-- The slots of the part queued as a tail, and the ones behind it. -/
def front : List Entry :=
  match p.carry with
  | some c => c.back
  | none => p.single.elim [] EntrySet.entries

theorem content_eq : p.content = p.front ++ (p.inner.flatMap EntrySet.entries ++ Pages.opened _ p.opening) := by
  rw [Pages.Page.content, front, ← p.single_append_inner]
  cases hc : p.carry with
  | some c =>
    have hsingle := p.single_eq_none_of_carry (by simp [hc])
    simp [hsingle, Pages.carried]
  | none =>
    cases hs : p.single <;> simp [Pages.carried]

end EntryPage

variable (img : Image) {start : ℤ}

/-- The cluster at `start` holds the page, with zeros behind it. -/
def Holds (start : ℤ) (p : EntryPage img.totalClusters) : Prop :=
  p.content ≠ [] ∧
    ∃ z, img.entries start (slots img) = p.content ++ List.replicate z zeroEntry

/-- What the matching and `handle` see of a queued head, of a queued tail. -/
def headOf (t : LivePart) : UInt8 × List Entry :=
  (headKey img t, img.entries t.entry t.len)

def tailOf (t : LivePart) : UInt8 × List Entry :=
  (tailKey img t, img.entries t.entry t.len)

def EntryPart.view {γ : Type} (f : LivePart → γ) (part : EntryPart) : Option γ :=
  part.entry.map fun q ↦ f ⟨0, q, part.len⟩

variable {img} {p : EntryPage img.totalClusters}

theorem Holds.head? (h : Holds img start p) : p.content.head? = some (img.entry start) := by
  obtain ⟨hne, z, hz⟩ := h
  obtain ⟨n, hn⟩ : ∃ n, slots img = n + 1 := by
    refine Nat.exists_eq_succ_of_ne_zero fun h0 ↦ hne ?_
    rw [h0, Image.entries_zero] at hz
    exact (List.append_eq_nil_iff.mp hz.symm).1
  rw [hn, Image.entries_succ] at hz
  have hhead : (p.content ++ List.replicate z zeroEntry).head? = p.content.head? :=
    List.head?_append_of_ne_nil _ hne
  rw [← hhead, ← hz]
  rfl

theorem EntryCut.longs_ne_nil {totalClusters : ℤ} (c : EntryCut totalClusters) :
    c.item.longs ≠ [] := by
  intro h
  have hpos := c.pos
  have hlt := c.lt
  rw [EntrySet.length_entries, h, List.length_nil] at hlt
  omega

variable (htc : img.totalClusters ≤ 65534)
include htc

theorem Holds.frontPart (h : Holds img start p) :
    frontPart img start = if p.front = [] then none else some ⟨some start, p.front.length⟩ := by
  have hhead := h.head?
  cases hc : p.carry with
  | some c =>
    have hback : c.back ≠ [] := by
      have hlt := c.lt
      refine List.ne_nil_of_length_pos ?_
      rw [Pages.Cut.length_back]
      omega
    have hfront : p.front = c.back := by simp [EntryPage.front, hc]
    have hfirst : c.back.head? = some (img.entry start) := by
      rwa [p.content_eq, hfront, List.head?_append_of_ne_nil _ hback] at hhead
    rw [frontPart_of_back img htc c hfirst, hfront, if_neg hback]
  | none =>
    cases hw : p.whole with
    | cons s ss =>
      have hne : s.entries ≠ [] := List.ne_nil_of_length_pos s.length_pos
      have hfirst : s.entries.head? = some (img.entry start) := by
        rwa [Pages.Page.content, hc, hw, List.flatMap_cons, Pages.carried, Option.elim,
          List.nil_append, List.append_assoc, List.head?_append_of_ne_nil _ hne] at hhead
      rw [frontPart_of_set img htc s hfirst]
      by_cases hs : s.longs = []
      · have hfront : p.front = s.entries := by
          simp [EntryPage.front, EntryPage.single, hc, hw, hs, Option.filter]
        rw [if_pos hs, hfront, if_neg hne, EntrySet.length_entries, hs, List.length_nil]
      · have hfront : p.front = [] := by
          simp [EntryPage.front, EntryPage.single, hc, hw, hs, Option.filter]
        rw [if_neg hs, if_pos hfront]
    | nil =>
      have hfront : p.front = [] := by
        simp [EntryPage.front, EntryPage.single, hc, hw, Option.filter]
      rw [if_pos hfront]
      cases ho : p.opening with
      | none =>
        simp [Pages.Page.content, hc, hw, ho, Pages.carried, Pages.opened] at hhead
      | some c =>
        have hfirst : c.item.entries.head? = some (img.entry start) := by
          have hpos : c.point ≠ 0 := c.pos.ne'
          simpa [Pages.Page.content, hc, hw, ho, Pages.carried, Pages.opened, Pages.Cut.front,
            List.head?_take, hpos] using hhead
        rw [frontPart_of_set img htc c.item hfirst, if_neg (EntryCut.longs_ne_nil c)]

theorem Holds.frontLen (h : Holds img start p) : frontLen img start = p.front.length := by
  rw [Fsrecov.frontLen, h.frontPart htc]
  split_ifs with hf
  · simp [hf]
  · rfl

omit htc in
theorem group_zeros (pending : List Entry) (z : ℕ) :
    groupEntries img pending (List.replicate z zeroEntry) =
      ⟨[], pending, List.replicate z zeroEntry⟩ := by
  cases z with
  | zero => rfl
  | succ z =>
    have hb : isDirentBasic img.totalClusters zeroEntry = false := by simp [isDirentBasic, zeroEntry,
      Entry.dirName0, Entry.u8]
    have hl : isDirentLong zeroEntry = false := by decide
    rw [List.replicate_succ, groupEntries, Grouping.group, hb, hl]
    rfl

theorem Holds.groups (h : Holds img start p) :
    (clusterGroups img start).groups = p.inner.map EntrySet.entries ∧
      (clusterGroups img start).pending = Pages.opened _ p.opening := by
  have hlen := h.frontLen htc
  obtain ⟨_, z, hz⟩ := h
  have hblocks : ∀ b ∈ p.inner.map EntrySet.entries,
      Grouping.Block (isDirentBasic img.totalClusters) isDirentLong b := by
    intro b hb
    obtain ⟨s, _, rfl⟩ := List.mem_map.mp hb
    exact s.block htc
  have hopen : ∀ e ∈ Pages.opened _ p.opening,
      Grouping.Open (isDirentBasic img.totalClusters) isDirentLong e := by
    intro e he
    cases ho : p.opening with
    | none => simp [Pages.opened, ho] at he
    | some c =>
      rw [ho, Pages.opened, Option.elim, EntryCut.front_eq] at he
      exact c.item.open_of_mem htc (List.mem_of_mem_take he)
  rw [clusterGroups, hlen, hz, p.content_eq, List.append_assoc, List.drop_left, List.append_assoc,
    List.flatMap_def, groupEntries, Grouping.group_blocks hblocks, Grouping.group_open hopen,
    List.nil_append, ← groupEntries, group_zeros]
  exact ⟨List.append_nil _, rfl⟩

theorem Holds.calls (h32 : 32 ∣ clusterBytes img) (h : Holds img start p) :
    (clusterWalk img start).calls.map (HandleCall.entries img) = p.inner.map EntrySet.entries := by
  have hwalk := clusterWalk_refines img h32 start
  rw [hwalk.calls_entries, (h.groups htc).1]
  rfl

theorem Holds.head (h32 : 32 ∣ clusterBytes img) (h : Holds img start p) :
    (backPart (clusterWalk img start)).bind (EntryPart.view (headOf img)) =
      p.opening.map fun c ↦ (c.item.chksum, c.front) := by
  have hwalk := clusterWalk_refines img h32 start
  have hpending := hwalk.pending
  rw [(h.groups htc).2] at hpending
  have hlen := congrArg List.length hpending
  rw [Image.length_entries] at hlen
  have haligned := hwalk.aligned
  simp only [entrySize] at haligned
  cases ho : p.opening with
  | none =>
    have h0 : (clusterWalk img start).currEntries = 0 := by simpa [ho, Pages.opened] using hlen
    rw [backPart, if_neg (by omega)]
    rfl
  | some c =>
    rw [ho, Pages.opened, Option.elim] at hpending hlen
    rw [Pages.Cut.length_front] at hlen
    have hpos := c.pos
    have hmem : img.entry (clusterWalk img start).curr ∈ c.item.longs := by
      obtain ⟨n, hn⟩ : ∃ n, (clusterWalk img start).currEntries = n + 1 :=
        ⟨_, (Nat.succ_pred_eq_of_pos (by omega)).symm⟩
      rw [hn, Image.entries_succ, EntryCut.front_eq] at hpending
      exact List.mem_of_mem_take (hpending ▸ List.mem_cons_self)
    rw [backPart, if_pos (by omega)]
    simp only [Option.bind_some, EntryPart.view, Option.map_some, headOf, hpending,
      headKey_of_mem (t := ⟨0, _, _⟩) c.item hmem]

theorem Holds.tail (h : Holds img start p) :
    (Fsrecov.frontPart img start).bind (EntryPart.view (tailOf img)) =
      (p.carry.map fun c ↦ (c.item.chksum, c.back)).or
        (p.single.map fun s ↦ (s.chksum, s.entries)) := by
  have hfront := h.frontPart htc
  have hhead := h.head?
  obtain ⟨_, z, hz⟩ := h
  have hentries : img.entries start p.front.length = p.front := by
    have hle : p.front.length ≤ slots img := by
      have hlen := congrArg List.length hz
      simp only [Image.length_entries, p.content_eq, List.length_append] at hlen
      omega
    rw [← img.entries_take start _ _ hle, hz, p.content_eq, List.append_assoc, List.take_left]
  have hview : ∀ s : EntrySet img.totalClusters, p.front ≠ [] → (∀ e ∈ p.front, e ∈ s.entries) →
      (Fsrecov.frontPart img start).bind (EntryPart.view (tailOf img)) = some (s.chksum, p.front) := by
    intro s hne hsub
    have hmem : img.entry start ∈ s.entries := by
      rw [p.content_eq, List.head?_append_of_ne_nil _ hne] at hhead
      exact hsub _ (List.mem_of_mem_head? hhead)
    rw [hfront, if_neg hne]
    simp only [Option.bind_some, EntryPart.view, Option.map_some, tailOf, hentries,
      tailKey_of_mem htc (t := ⟨0, _, _⟩) s hmem]
  cases hc : p.carry with
  | some c =>
    have hf : p.front = c.back := by simp [EntryPage.front, hc]
    have hlt := c.lt
    rw [hview c.item (List.ne_nil_of_length_pos (by rw [hf, Pages.Cut.length_back]; omega))
      (fun e he ↦ List.mem_of_mem_drop (hf ▸ he)), hf]
    rfl
  | none =>
    cases hs : p.single with
    | some s =>
      have hf : p.front = s.entries := by simp [EntryPage.front, hc, hs]
      rw [hview s (hf ▸ List.ne_nil_of_length_pos s.length_pos) (fun e he ↦ hf ▸ he), hf]
      rfl
    | none =>
      have hf : p.front = [] := by simp [EntryPage.front, hc, hs]
      rw [hfront, if_pos hf]
      rfl

end OsWorkbench.Fsrecov
