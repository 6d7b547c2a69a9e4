import Mathlib.Data.Tree.Basic
import Mathlib.Data.List.Nodup
import Mathlib.Data.List.Perm.Basic
import Mathlib.Data.List.TakeDrop
import Mathlib.Tactic.SplitIfs

namespace OsWorkbench.Library.ChildSibling

variable {α β K : Type*}

/-- In the binary tree of a forest the left subtree of a node are its children, and the
right one its further siblings. -/
def chain : BinaryTree α → List α
  | .nil => []
  | .node a _ sibling => a :: chain sibling

/-- The nodes in preorder. -/
def nodes : BinaryTree α → List α
  | .nil => []
  | .node a child sibling => a :: (nodes child ++ nodes sibling)

/-- Every node with its children. -/
def families : BinaryTree α → List (α × List α)
  | .nil => []
  | .node a child sibling => (a, chain child) :: (families child ++ families sibling)

/-- The nodes in preorder, each with its depth. -/
def levels : ℕ → BinaryTree α → List (ℕ × α)
  | _, .nil => []
  | d, .node a child sibling => (d, a) :: (levels (d + 1) child ++ levels d sibling)

def append (x : α) : BinaryTree α → BinaryTree α
  | .nil => .node x .nil .nil
  | .node a child sibling => .node a child (append x sibling)

/-- A new last child of the node `r`. -/
def adopt [DecidableEq α] (r x : α) : BinaryTree α → BinaryTree α
  | .nil => .nil
  | .node a child sibling =>
    if a = r then .node a (append x child) sibling
    else .node a (adopt r x child) (adopt r x sibling)

variable {t t' : BinaryTree α} {x r : α}

theorem map_fst_families (t : BinaryTree α) : (families t).map Prod.fst = nodes t := by
  induction t with
  | nil => rfl
  | node a child sibling ihc ihs => rw [families, nodes, List.map_cons, List.map_append, ihc, ihs]

theorem mem_nodes_of_mem_chain {a : α} (h : a ∈ chain t) : a ∈ nodes t := by
  induction t with
  | nil => exact h
  | node b child sibling _ ihs =>
    rcases List.mem_cons.mp h with rfl | h
    · exact List.mem_cons_self
    · exact List.mem_cons_of_mem _ (List.mem_append_right _ (ihs h))

theorem mem_nodes_of_mem_families {f : α × List α} (h : f ∈ families t) :
    f.1 ∈ nodes t ∧ ∀ a ∈ f.2, a ∈ nodes t := by
  induction t with
  | nil => cases h
  | node b child sibling ihc ihs =>
    rw [nodes]
    rcases List.mem_cons.mp h with rfl | h
    · refine ⟨List.mem_cons_self, fun a ha ↦ List.mem_cons_of_mem _ (List.mem_append_left _ ?_)⟩
      exact mem_nodes_of_mem_chain ha
    · rcases List.mem_append.mp h with h | h
      · exact ⟨List.mem_cons_of_mem _ (List.mem_append_left _ (ihc h).1),
          fun a ha ↦ List.mem_cons_of_mem _ (List.mem_append_left _ ((ihc h).2 a ha))⟩
      · exact ⟨List.mem_cons_of_mem _ (List.mem_append_right _ (ihs h).1),
          fun a ha ↦ List.mem_cons_of_mem _ (List.mem_append_right _ ((ihs h).2 a ha))⟩

section Map

variable (f : α → β)

theorem chain_map (t : BinaryTree α) : chain (t.map f) = (chain t).map f := by
  induction t with
  | nil => rfl
  | node a child sibling _ ihs => rw [BinaryTree.map, chain, chain, List.map_cons, ihs]

theorem nodes_map (t : BinaryTree α) : nodes (t.map f) = (nodes t).map f := by
  induction t with
  | nil => rfl
  | node a child sibling ihc ihs =>
    rw [BinaryTree.map, nodes, nodes, List.map_cons, List.map_append, ihc, ihs]

theorem families_map (t : BinaryTree α) :
    families (t.map f) = (families t).map fun e ↦ (f e.1, e.2.map f) := by
  induction t with
  | nil => rfl
  | node a child sibling ihc ihs =>
    rw [BinaryTree.map, families, families, List.map_cons, List.map_append, ihc, ihs, chain_map]

theorem map_congr {f g : α → β} (h : ∀ a ∈ nodes t, f a = g a) : t.map f = t.map g := by
  induction t with
  | nil => rfl
  | node a child sibling ihc ihs =>
    rw [BinaryTree.map, BinaryTree.map, h a List.mem_cons_self,
      ihc fun b hb ↦ h b (List.mem_cons_of_mem _ (List.mem_append_left _ hb)),
      ihs fun b hb ↦ h b (List.mem_cons_of_mem _ (List.mem_append_right _ hb))]

theorem levels_map (d : ℕ) (t : BinaryTree α) :
    levels d (t.map f) = (levels d t).map fun e ↦ (e.1, f e.2) := by
  induction t generalizing d with
  | nil => rfl
  | node a child sibling ihc ihs =>
    rw [BinaryTree.map, levels, levels, List.map_cons, List.map_append, ihc, ihs]

end Map

theorem chain_append (t : BinaryTree α) : chain (append x t) = chain t ++ [x] := by
  induction t with
  | nil => rfl
  | node a child sibling _ ihs => rw [append, chain, chain, ihs, List.cons_append]

theorem families_append (t : BinaryTree α) :
    families (append x t) = families t ++ [(x, [])] := by
  induction t with
  | nil => rfl
  | node a child sibling _ ihs =>
    rw [append, families, families, ihs, List.cons_append, List.append_assoc]

section Adopt

variable [DecidableEq α]

theorem chain_adopt (t : BinaryTree α) : chain (adopt r x t) = chain t := by
  induction t with
  | nil => rfl
  | node a child sibling _ ihs =>
    rw [adopt]
    split_ifs
    · rfl
    · rw [chain, chain, ihs]

theorem adopt_of_notMem (h : r ∉ nodes t) : adopt r x t = t := by
  induction t with
  | nil => rfl
  | node a child sibling ihc ihs =>
    rw [nodes, List.mem_cons, List.mem_append, not_or, not_or] at h
    rw [adopt, if_neg fun he ↦ h.1 he.symm, ihc h.2.1, ihs h.2.2]

def grown (r x : α) (f : α × List α) : α × List α := if f.1 = r then (f.1, f.2 ++ [x]) else f

theorem map_grown_of_notMem (h : r ∉ nodes t) : (families t).map (grown r x) = families t := by
  have hid : ∀ f ∈ families t, grown r x f = id f := by
    intro f hf
    have hne : f.1 ≠ r := fun he ↦ h (he ▸ (mem_nodes_of_mem_families hf).1)
    rw [grown, if_neg hne, id]
  rw [List.map_congr_left hid, List.map_id]

/-- A new child changes the family of its parent and of nobody else. -/
theorem families_adopt (hd : (nodes t).Nodup) (hr : r ∈ nodes t) :
    (families (adopt r x t)).Perm ((x, []) :: (families t).map (grown r x)) := by
  induction t with
  | nil => cases hr
  | node a child sibling ihc ihs =>
    rw [nodes, List.nodup_cons, List.nodup_append'] at hd
    obtain ⟨ha, hdc, hds, hdis⟩ := hd
    rw [List.mem_append, not_or] at ha
    rw [adopt]
    split_ifs with har
    · subst har
      rw [families, families, families_append, chain_append, List.map_cons, List.map_append,
        map_grown_of_notMem ha.1, map_grown_of_notMem ha.2, grown, if_pos rfl, List.append_assoc]
      exact (List.Perm.cons _ List.perm_middle).trans (List.Perm.swap _ _ _)
    · have hrest : r ∈ nodes child ++ nodes sibling := (List.mem_cons.mp hr).resolve_left (Ne.symm har)
      rw [families, families, chain_adopt, List.map_cons, List.map_append, grown,
        if_neg har]
      refine (List.Perm.cons _ ?_).trans (List.Perm.swap _ _ _)
      rcases List.mem_append.mp hrest with hrc | hrs
      · have hrs : r ∉ nodes sibling := fun hm ↦ hdis hrc hm
        rw [adopt_of_notMem hrs, map_grown_of_notMem hrs]
        exact (ihc hdc hrc).append_right _
      · have hrc : r ∉ nodes child := fun hm ↦ hdis hm hrs
        rw [adopt_of_notMem hrc, map_grown_of_notMem hrc]
        exact ((ihs hds hrs).append_left _).trans List.perm_middle

theorem nodes_adopt (hd : (nodes t).Nodup) (hr : r ∈ nodes t) :
    (nodes (adopt r x t)).Perm (x :: nodes t) := by
  have hperm := (families_adopt (x := x) hd hr).map Prod.fst
  have hfst : Prod.fst ∘ grown r x = (Prod.fst : α × List α → α) := by
    funext f
    simp only [Function.comp_apply, grown]
    split_ifs <;> rfl
  rwa [map_fst_families, List.map_cons, List.map_map, hfst, map_fst_families] at hperm

end Adopt

section Levels

theorem le_of_mem_levels {d : ℕ} {e : ℕ × α} (h : e ∈ levels d t) : d ≤ e.1 := by
  induction t generalizing d with
  | nil => cases h
  | node a child sibling ihc ihs =>
    rcases List.mem_cons.mp h with rfl | h
    · exact Nat.le_refl d
    · rcases List.mem_append.mp h with h | h
      · exact Nat.le_trans (Nat.le_succ d) (ihc h)
      · exact ihs h

/-- The nodes below the first one are those deeper than it. -/
theorem takeWhile_levels (d : ℕ) (child sibling : BinaryTree α) :
    (levels (d + 1) child ++ levels d sibling).takeWhile (d < ·.1) = levels (d + 1) child ∧
    (levels (d + 1) child ++ levels d sibling).dropWhile (d < ·.1) = levels d sibling := by
  have hdeep : ∀ e ∈ levels (d + 1) child, decide (d < e.1) = true := fun e he ↦
    decide_eq_true (le_of_mem_levels he)
  rw [List.takeWhile_append_of_pos hdeep, List.dropWhile_append_of_pos hdeep]
  cases sibling with
  | nil => simp [levels]
  | node a child' sibling' => simp [levels]

theorem levels_injective {d : ℕ} (h : levels d t = levels d t') : t = t' := by
  induction t generalizing d t' with
  | nil =>
    cases t' with
    | nil => rfl
    | node a child sibling => cases h
  | node a child sibling ihc ihs =>
    cases t' with
    | nil => cases h
    | node a' child' sibling' =>
      rw [levels, levels] at h
      obtain ⟨hhead, htail⟩ := List.cons.inj h
      obtain ⟨htake, hdrop⟩ := takeWhile_levels d child sibling
      obtain ⟨htake', hdrop'⟩ := takeWhile_levels d child' sibling'
      rw [htail] at htake hdrop
      have ha : a = a' := congrArg Prod.snd hhead
      rw [ha, ihc (htake.symm.trans htake'), ihs (hdrop.symm.trans hdrop')]

theorem map_snd_levels (d : ℕ) (t : BinaryTree α) : (levels d t).map Prod.snd = nodes t := by
  induction t generalizing d with
  | nil => rfl
  | node a child sibling ihc ihs => rw [levels, nodes, List.map_cons, List.map_append, ihc, ihs]

end Levels

end OsWorkbench.Library.ChildSibling
