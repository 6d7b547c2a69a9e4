import OsWorkbench.Pstree.Print
import Mathlib.Algebra.GroupWithZero.Nat

namespace OsWorkbench.Pstree

open Library ChildSibling PointerTree

/-- The bytes that the columns of these levels take: six under a last sibling, eight under
another one. -/
def width (above : List Bool) : ℕ := (above.map fun last ↦ if last then 6 else 8).sum

theorem length_flatMap_unit (above : List Bool) : (above.flatMap unit).length = width above := by
  rw [List.length_flatMap, width]
  congr 1
  refine List.map_congr_left fun last _ ↦ ?_
  cases last <;> rfl

theorem fits_iff (above : List Bool) (t : BinaryTree Info) :
    Fits (above.length + 1) (above.flatMap unit) t ↔
      ∀ e ∈ heads above t, width (e.1 ++ [e.2.1]) < maxLen := by
  induction t generalizing above with
  | nil => simp [Fits, heads]
  | node i child sibling ihc ihs =>
    have hunit : 6 ≤ (unit (isLast sibling)).length := by cases isLast sibling <;> decide
    have habove : above.flatMap unit ++ unit (isLast sibling) =
        (above ++ [isLast sibling]).flatMap unit := by
      rw [List.flatMap_append, List.flatMap_singleton]
    have hlevel : above.length + 1 + 1 = (above ++ [isLast sibling]).length + 1 := by
      rw [List.length_append, List.length_singleton]
    have hwidth := congrArg List.length habove
    rw [List.length_append, length_flatMap_unit, length_flatMap_unit] at hwidth
    simp only [Fits, heads, if_pos (Nat.succ_pos _), List.forall_mem_cons, List.forall_mem_append]
    rw [habove, hlevel, ihc, ihs, length_flatMap_unit, hwidth]
    refine and_congr_left fun _ ↦ ?_
    unfold maxLen at *
    omega

/-- The prefix buffer holds the prefix of every call exactly when for every process the
columns of its ancestors below the root and its own take less than `MAX_LEN` bytes. -/
theorem printTree_fits_iff {h : Heap} {root : Addr} {i : Info} {child : BinaryTree Info}
    {fuel : ℕ} (showPid : Bool) (ht : h.IsTree root (.node i child .nil))
    (hf : (nodes (.node i child .nil)).length < fuel) :
    printTree showPid h fuel root 0 [] ≠ .error .bufferOverflow ↔
      ∀ e ∈ heads [] child, width (e.1 ++ [e.2.1]) < maxLen := by
  obtain ⟨cells, hl, -, hi⟩ := ht
  have hroot : Fits 0 [] (.node i child .nil) ↔ Fits 1 [] child := by
    simp [Fits, maxLen]
  rw [← fits_iff [] child]
  change _ ↔ Fits 1 [] child
  rw [← hroot]
  rcases printTree_cases showPid 0 [] hl hi hf with
    ⟨hfits, hok⟩ | ⟨hfits, herr⟩
  · rw [hok]
    refine iff_of_true (fun herr ↦ ?_) hfits
    cases herr
  · rw [herr]
    exact iff_of_false (fun hne ↦ hne rfl) hfits

theorem sample_fits : printTree false (sampleHeap 3 null) 4 1 0 [] ≠ .error .bufferOverflow := by
  refine (printTree_fits_iff false sampleHeap_below.tree (by decide)).mpr fun e he ↦ ?_
  revert e he
  decide

def chainInfo (p : Addr) : Info :=
  ⟨(p - 1 : ℕ), if p = 1 then idleName.bytes else [115, 104], (p - 2 : ℕ)⟩

/-- `idle` and shells at the addresses up to `n`, each one the only child of the one before. -/
def chainHeap (n : ℕ) : Heap := fun p ↦
  if 1 ≤ p ∧ p ≤ n then
    let i := chainInfo p
    some ⟨i.pid, i.name ++ [0], i.ppid, if p < n then p + 1 else null, null,
      List.mem_append_right _ List.mem_cons_self⟩
  else none

/-- Every node has the next one as its only child. -/
def path {α : Type} : List α → BinaryTree α
  | [] => .nil
  | a :: l => .node a (path l) .nil

theorem nodes_path {α : Type} (l : List α) : nodes (path l) = l := by
  induction l with
  | nil => rfl
  | cons a l ih => rw [path, nodes, ih, nodes, List.append_nil]

theorem map_path {α β : Type} (f : α → β) (l : List α) : (path l).map f = path (l.map f) := by
  induction l with
  | nil => rfl
  | cons a l ih => rw [path, List.map_cons, path, BinaryTree.map, ih, BinaryTree.map]

theorem chainHeap_linked {n p m : ℕ} (hp : 1 ≤ p) (hm : p + m = n + 1) :
    Linked null (chainHeap n).links (if p ≤ n then p else null) (path (List.range' p m)) := by
  induction m generalizing p with
  | zero => exact if_neg (by omega)
  | succ m ih =>
    have hpn : p ≤ n := by omega
    rw [List.range'_succ, path, if_pos hpn]
    refine ⟨rfl, Nat.ne_of_gt hp, if p + 1 ≤ n then p + 1 else null, null, ?_, ?_, rfl⟩
    · rw [Heap.links, chainHeap, if_pos (And.intro hp hpn)]
      rfl
    · exact ih (Nat.le_succ_of_le hp) (by omega)

theorem chainHeap_info {n p : ℕ} (hp : 1 ≤ p ∧ p ≤ n) :
    (chainHeap n).info p = some (chainInfo p) := by
  have hname : ∀ b ∈ (chainInfo p).name, b ≠ 0 := by
    unfold chainInfo
    dsimp only
    split_ifs
    · exact idleName.noNul
    · simp
  have hcell : chainHeap n p = some _ := if_pos hp
  rw [Heap.info, hcell, Option.map_some, Proc.info, CString.text_append_zero hname]

theorem chainHeap_isTree {n : ℕ} (hn : 1 ≤ n) :
    (chainHeap n).IsTree 1 (path ((List.range' 1 n).map chainInfo)) := by
  refine ⟨path (List.range' 1 n), ?_, ?_, ?_⟩
  · have hl := chainHeap_linked (n := n) (Nat.le_refl 1) (Nat.add_comm 1 n)
    rwa [if_pos hn] at hl
  · rw [nodes_path]
    exact List.nodup_range'
  · rw [map_path, map_path, List.map_map]
    refine congrArg path (List.map_congr_left fun p hp ↦ ?_)
    rw [List.mem_range'_1, Nat.lt_one_add_iff] at hp
    exact chainHeap_info hp

/-- Twenty-two levels of blanks below the root are too many. -/
theorem chain_overflow : (chainHeap 23).IsTree 1 (path ((List.range' 1 23).map chainInfo)) ∧
    printTree false (chainHeap 23) 24 1 0 [] = .error .bufferOverflow :=
  ⟨chainHeap_isTree (by decide), by decide +kernel⟩

end OsWorkbench.Pstree
