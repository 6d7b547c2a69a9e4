import OsWorkbench.Fsrecov.ClusterView

namespace OsWorkbench.Fsrecov

open Library

/-- What `match_entries` passes to `handle`, on the parts themselves: pairs by
checksum, then the tails of one entry that stay alone. -/
def rejoin (heads tails : List (UInt8 × List Entry)) : List (List Entry) :=
  (Matching.pairs Prod.fst Prod.fst heads tails).map (fun p ↦ p.1.2 ++ p.2.2) ++
    ((Matching.left Prod.fst Prod.fst heads tails).filter (·.2.length = 1)).map Prod.snd

theorem live_map {γ : Type} {f : LivePart → γ} (hf : ∀ j q len, f ⟨j, q, len⟩ = f ⟨0, q, len⟩)
    (j : ℕ) (parts : List EntryPart) :
    (live j parts).map f = parts.filterMap (EntryPart.view f) := by
  induction parts generalizing j with
  | nil => rfl
  | cons part parts ih =>
    obtain ⟨_ | q, len⟩ := part
    · rw [live, ih (j + 1)]
      rfl
    · rw [live, List.map_cons, ih (j + 1), hf]
      rfl

variable (img : Image)

theorem matchEntries_rejoin {heads tails : List EntryPart} (hw : Queued img ⟨heads, tails⟩) :
    ∃ calls, matchEntries img ⟨heads, tails⟩ = .ok calls ∧ calls.map (HandleCall.entries img) =
      rejoin (heads.filterMap (EntryPart.view (headOf img)))
        (tails.filterMap (EntryPart.view (tailOf img))) := by
  refine ⟨_, matchEntries_spec img hw, ?_⟩
  rw [← live_map (fun _ _ _ ↦ rfl) 0 heads, ← live_map (fun _ _ _ ↦ rfl) 0 tails, rejoin,
    Matching.pairs_map, Matching.left_map, List.map_append, List.map_map, List.map_map,
    List.map_map, List.filter_map, List.map_map]
  have hone : (fun q : UInt8 × List Entry ↦ decide (q.2.length = 1)) ∘ tailOf img =
      fun t : LivePart ↦ decide (t.len = 1) := by
    funext t
    simp [tailOf]
  rw [hone]
  rfl

theorem rejoin_perm {heads heads' tails tails' : List (UInt8 × List Entry)}
    (hh : heads.Perm heads') (ht : tails.Perm tails') (hd : (heads.map Prod.fst).Nodup) :
    (rejoin heads tails).Perm (rejoin heads' tails') :=
  ((Matching.pairs_perm_congr hh ht hd).map _).append
    (((Matching.left_perm_congr hh ht).filter _).map _)

variable {totalClusters : ℤ}

/-- The halves of the cut sets find each other, and the sets of one entry stay alone. -/
theorem rejoin_cuts {cuts : List (EntryCut totalClusters)} {singles : List (EntrySet totalClusters)}
    (hd : (cuts.map fun c ↦ c.item.chksum).Nodup)
    (hs : ∀ c ∈ cuts, ∀ s ∈ singles, s.chksum ≠ c.item.chksum)
    (hone : ∀ s ∈ singles, s.longs = []) :
    rejoin (cuts.map fun c ↦ (c.item.chksum, c.front))
        (cuts.map (fun c ↦ (c.item.chksum, c.back)) ++ singles.map fun s ↦ (s.chksum, s.entries)) =
      cuts.map (fun c ↦ c.item.entries) ++ singles.map EntrySet.entries := by
  have hpairs : Matching.pairs Prod.fst Prod.fst (cuts.map fun c ↦ (c.item.chksum, c.front))
      (cuts.map (fun c ↦ (c.item.chksum, c.back)) ++ singles.map fun s ↦ (s.chksum, s.entries)) =
      cuts.map fun c ↦ ((c.item.chksum, c.front), (c.item.chksum, c.back)) := by
    apply Matching.pairs_halves
    · exact fun _ ↦ rfl
    · exact fun _ ↦ rfl
    · exact hd
    · exact hs
  have hleft : Matching.left Prod.fst Prod.fst (cuts.map fun c ↦ (c.item.chksum, c.front))
      (cuts.map (fun c ↦ (c.item.chksum, c.back)) ++ singles.map fun s ↦ (s.chksum, s.entries)) =
      singles.map fun s ↦ (s.chksum, s.entries) := by
    apply Matching.left_halves
    · exact fun c ↦ rfl
    · exact fun c ↦ rfl
    · exact hs
  have hall : (singles.map fun s ↦ (s.chksum, s.entries)).filter (·.2.length = 1) =
      singles.map fun s ↦ (s.chksum, s.entries) := by
    apply List.filter_eq_self.mpr
    intro t ht
    obtain ⟨s, hm, rfl⟩ := List.mem_map.mp ht
    simp [hone s hm]
  rw [rejoin, hpairs, hleft, hall, List.map_map, List.map_map]
  congr 1
  refine List.map_congr_left fun c _ ↦ ?_
  exact List.take_append_drop _ _

end OsWorkbench.Fsrecov
