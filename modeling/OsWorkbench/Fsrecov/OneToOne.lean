import OsWorkbench.Fsrecov.ScanResult
import OsWorkbench.Fsrecov.Format

namespace OsWorkbench.Fsrecov

open Library

variable (img : Image)

def HandleCall.headIndex : HandleCall → Option ℕ
  | .combined i _ _ _ _ _ => some i
  | _ => none

def HandleCall.tailIndex : HandleCall → Option ℕ
  | .combined _ j _ _ _ _ => some j
  | .alone j _ _ => some j
  | .walked _ _ => none

/-- No head is combined with two tails, and no tail is passed on twice, whether
with a head or alone. -/
structure OneToOne (calls : List HandleCall) : Prop where
  heads : (calls.filterMap HandleCall.headIndex).Nodup
  tails : (calls.filterMap HandleCall.tailIndex).Nodup

def aloneCall (t : LivePart) : HandleCall := .alone t.index t.entry t.len

theorem headIndex_calls (ps : List (LivePart × LivePart)) (ts : List LivePart) :
    (ps.map (fun p ↦ combine p.1 p.2) ++ ts.map aloneCall).filterMap HandleCall.headIndex =
      (ps.map Prod.fst).map LivePart.index := by
  rw [List.filterMap_append, List.filterMap_map, List.filterMap_map, List.map_map]
  have hp : (HandleCall.headIndex ∘ fun p : LivePart × LivePart ↦ combine p.1 p.2) =
      some ∘ (LivePart.index ∘ Prod.fst) := rfl
  have ht : HandleCall.headIndex ∘ aloneCall = fun _ ↦ none := rfl
  rw [hp, ht, List.filterMap_eq_map]
  simp

theorem tailIndex_calls (ps : List (LivePart × LivePart)) (ts : List LivePart) :
    (ps.map (fun p ↦ combine p.1 p.2) ++ ts.map aloneCall).filterMap HandleCall.tailIndex =
      (ps.map Prod.snd ++ ts).map LivePart.index := by
  rw [List.filterMap_append, List.filterMap_map, List.filterMap_map, List.map_append, List.map_map]
  have hp : (HandleCall.tailIndex ∘ fun p : LivePart × LivePart ↦ combine p.1 p.2) =
      some ∘ (LivePart.index ∘ Prod.snd) := rfl
  have ht : HandleCall.tailIndex ∘ aloneCall = some ∘ LivePart.index := rfl
  rw [hp, ht, List.filterMap_eq_map, List.filterMap_eq_map]

/-- `match_entries` never passes a tail on twice. It uses a head for two tails
exactly when two queued tails carry the checksum of one queued head. -/
theorem matchEntries_oneToOne_iff {w : Waiting} (hw : Produced img w) :
    ∃ calls, matchEntries img w = .ok calls ∧
      (OneToOne calls ↔ ∀ h ∈ live 0 w.heads,
        ((live 0 w.tails).filter (tailKey img · = headKey img h)).length ≤ 1) := by
  refine ⟨_, matchEntries_spec img hw.queued, ?_⟩
  set ps := Matching.pairs (headKey img) (tailKey img) (live 0 w.heads) (live 0 w.tails) with hps
  set ts := (Matching.left (headKey img) (tailKey img) (live 0 w.heads) (live 0 w.tails)).filter
    (·.len = 1) with hts
  have hheads : ((ps.map Prod.fst).map LivePart.index).Nodup ↔ (ps.map Prod.fst).Nodup := by
    refine ⟨List.Nodup.of_map _, fun hd ↦ hd.map_on fun x hx y hy he ↦ ?_⟩
    obtain ⟨p, hp, rfl⟩ := List.mem_map.mp hx
    obtain ⟨q, hq, rfl⟩ := List.mem_map.mp hy
    exact List.inj_on_of_nodup_map (live_index_nodup 0 w.heads)
      (Matching.fst_mem_of_mem_pairs hp) (Matching.fst_mem_of_mem_pairs hq) he
  have htails : ((ps.map Prod.snd ++ ts).map LivePart.index).Nodup := by
    have hperm := Matching.pairs_perm (headKey img) (tailKey img)
      (live 0 w.heads) (live 0 w.tails)
    have hsub : (ps.map Prod.snd ++ ts).Sublist (ps.map Prod.snd ++
        Matching.left (headKey img) (tailKey img) (live 0 w.heads) (live 0 w.tails)) :=
      List.Sublist.append_left List.filter_sublist _
    exact (((hperm.map LivePart.index).nodup_iff).mpr (live_index_nodup 0 w.tails)).sublist
      (hsub.map _)
  rw [← Matching.pairs_fst_nodup (live_nodup 0 w.heads), ← hps, ← hheads,
    ← headIndex_calls ps ts]
  refine ⟨OneToOne.heads, fun h ↦ ⟨h, ?_⟩⟩
  exact (tailIndex_calls ps ts) ▸ htails

/-- A short entry named `AAAAAAAAAAA`. -/
def shortSlot (clus : UInt8) : Entry :=
  slotOfBytes (List.replicate 11 0x41 ++ [0x20] ++ List.replicate 14 0 ++ [clus])

def longSlot : Entry :=
  slotOfBytes ([0x41] ++ List.replicate 10 0 ++
    [0x0F, 0, calcChecksum (List.replicate 11 0x41)])

/-- The first cluster ends in a long entry; each of the two others begins with a
short entry of the name that the long entry belongs to. -/
def clashImage : Image := smallGeometry.format fun k ↦
  if k < 15 then slotOfBytes [0xE5] else if k = 15 then longSlot
  else if k = 16 then shortSlot 2 else if k = 32 then shortSlot 3 else slotOfBytes []

def clashWaiting : Waiting :=
  ⟨[⟨some 1504, 1⟩], [⟨some 1024, 1⟩, ⟨some 1536, 1⟩, ⟨some 2048, 1⟩]⟩

theorem clash_scan : ∃ calls, scanClusters clashImage = .ok (calls, clashWaiting) :=
  ⟨(List.range 14).map fun k : ℕ ↦ .walked (1056 + 32 * k) 1, by decide +kernel⟩

theorem clash_produced : Produced clashImage clashWaiting := by
  obtain ⟨calls, h⟩ := clash_scan
  exact scan_produced clashImage .empty h

/-- One long entry is used as the beginning of two names. -/
theorem clash_not_oneToOne : Produced clashImage clashWaiting ∧
    ∃ calls, matchEntries clashImage clashWaiting = .ok calls ∧ ¬ OneToOne calls := by
  refine ⟨clash_produced, [.combined 0 1 1504 1 1536 1, .combined 0 2 1504 1 2048 1,
    .alone 0 1024 1], by decide +kernel, fun h ↦ ?_⟩
  exact absurd h.heads (by decide)

theorem clash_oneToOne_iff : ∃ calls, matchEntries clashImage clashWaiting = .ok calls ∧
    (OneToOne calls ↔ ∀ h ∈ live 0 clashWaiting.heads,
      ((live 0 clashWaiting.tails).filter
        (tailKey clashImage · = headKey clashImage h)).length ≤ 1) :=
  matchEntries_oneToOne_iff clashImage clash_produced

end OsWorkbench.Fsrecov
