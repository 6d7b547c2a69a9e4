import OsWorkbench.Am.PageWalk

namespace OsWorkbench.Am

open Library Library.Radix

variable {w : ℕ} {σ : Type*} {A : PageAllocator w σ} {s : Machine w σ} {pages : List (BitVec w)}
  {x : BitVec w}

/-- Every page of the list is in use, until it is freed. -/
theorem foldl_pgfree (hnodup : pages.Nodup) (hlive : ∀ p ∈ pages, p ∈ A.live s.heap) :
    A.live (pages.foldl (Machine.pgfree A) s).heap = A.live s.heap \ {p | p ∈ pages} ∧
      (pages.foldl (Machine.pgfree A) s).freed = s.freed ++ pages ∧
      ∀ x, baseof x ∉ A.arena ∨ baseof x ∈ A.live s.heap \ {p | p ∈ pages} →
        (pages.foldl (Machine.pgfree A) s).mem x = s.mem x := by
  induction pages generalizing s with
  | nil =>
    have hset : A.live s.heap \ {p | p ∈ ([] : List (BitVec w))} = A.live s.heap := by
      ext p
      simp
    exact ⟨hset.symm, (List.append_nil _).symm, fun _ _ ↦ rfl⟩
  | cons p pages ih =>
    obtain ⟨hp, hnodup⟩ := List.nodup_cons.mp hnodup
    obtain ⟨hplive, hrest⟩ := List.forall_mem_cons.mp hlive
    have hfreed : A.live (s.pgfree A p).heap = A.live s.heap \ {p} := A.freed p s.mem s.heap hplive
    have hlive' : ∀ q ∈ pages, q ∈ A.live (s.pgfree A p).heap := by
      intro q hq
      rw [hfreed]
      exact ⟨hrest q hq, fun heq ↦ hp (heq ▸ hq)⟩
    obtain ⟨h₁, h₂, h₃⟩ := ih hnodup hlive'
    have hset : (A.live s.heap \ {p}) \ {q | q ∈ pages} = A.live s.heap \ {q | q ∈ p :: pages} := by
      ext q
      simp only [Set.mem_sdiff, Set.mem_singleton_iff, Set.mem_ofPred_eq, List.mem_cons, not_or, and_assoc]
    rw [List.foldl_cons]
    rw [hfreed, hset] at h₁ h₃
    refine ⟨h₁, ?_, ?_⟩
    · rw [h₂, Machine.pgfree, List.append_assoc, List.singleton_append]
    · intro x hx
      rw [h₃ x hx]
      apply A.pgfree_mem p s.mem s.heap x hplive
      exact hx.imp_right fun hx ↦ ⟨hx.1, fun heq ↦ hx.2 (List.mem_cons.mpr (.inl heq))⟩

variable [hw : WordSize w]

/-- The pages that `teardown` frees below a table. -/
abbrev tablesOf (flags : BitVec w) (m : BitVec w → Fin (entries w) → BitVec w) (d : ℕ)
    (pt : BitVec w) : List (BitVec w) :=
  subtree (nextTable flags) m (List.finRange (entries w)) d pt

/-- Where `teardown` goes on below an entry, the entry leads to a table. -/
def Clean (flags : BitVec w) (m : BitVec w → Fin (entries w) → BitVec w) (d : ℕ) (pt : BitVec w) :
    Prop :=
  ∀ path t, path.length < d → follow (nextTable flags) m pt path = some t → ∀ j,
    if m t j &&& pteP ≠ 0#w ∧ m t j &&& pteU ≠ 0#w then
      nextTable flags (m t j) = some (baseof (m t j))
    else nextTable flags (m t j) = none

/-- The pages are in use and hold what they held in `m`. -/
def Held (A : PageAllocator w σ) (m : BitVec w → Fin (entries w) → BitVec w)
    (pages : List (BitVec w)) (s : Machine w σ) : Prop :=
  ∀ t ∈ pages, t ∈ A.live s.heap ∧ ∀ j, view s.mem t j = m t j

variable {flags pt : BitVec w} {m : BitVec w → Fin (entries w) → BitVec w} {d : ℕ}
  {info : PtInfo w} {infos : List (PtInfo w)} {level : ℕ}

theorem Held.foldl_pgfree {pages pages' : List (BitVec w)} (hnodup : (pages ++ pages').Nodup)
    (h : Held A m (pages ++ pages') s) : Held A m pages' (pages.foldl (Machine.pgfree A) s) := by
  obtain ⟨hpages, _, hdisjoint⟩ := List.nodup_append.mp hnodup
  obtain ⟨hlive, _, hmem⟩ := Am.foldl_pgfree hpages fun p hp ↦ (h p (List.mem_append_left _ hp)).1
  intro t ht
  obtain ⟨htlive, htview⟩ := h t (List.mem_append_right _ ht)
  have htkept : t ∈ A.live s.heap \ {p | p ∈ pages} := ⟨htlive, fun hp ↦ hdisjoint t hp t ht rfl⟩
  refine ⟨hlive ▸ htkept, fun j ↦ ?_⟩
  rw [← htview j, view, hmem _ (.inr _)]
  · rfl
  · rw [baseof_slot (A.live_page htlive) j.isLt]
    exact htkept

omit hw in
theorem Clean.child {i : Fin (entries w)} {u : BitVec w} (h : Clean flags m (d + 1) pt)
    (hnext : nextTable flags (m pt i) = some u) : Clean flags m d u := by
  intro path t hlen ht
  apply h (i :: path) t (Nat.succ_lt_succ hlen)
  rw [follow_cons, hnext]
  exact ht

/-- The pages below the entries of a table. -/
abbrev childTables (flags : BitVec w) (m : BitVec w → Fin (entries w) → BitVec w) (d : ℕ)
    (pt : BitVec w) (i : Fin (entries w)) : List (BitVec w) :=
  ((nextTable flags (m pt i)).map (tablesOf flags m d)).getD []

/-- `teardown` frees the pages of the tables below a table and the table itself, as the entries
are before the first of them is freed. -/
theorem teardown_eq (hbits : ∀ info ∈ infos, 2 ^ info.bits = entries w) (hlevel : 1 ≤ level)
    (hlen : infos.length = d + 1) (hheld : Held A m (tablesOf flags m d pt) s)
    (hnodup : (tablesOf flags m d pt).Nodup) (hclean : Clean flags m d pt) :
    teardown A infos level pt s = (tablesOf flags m d pt).foldl (Machine.pgfree A) s := by
  induction infos generalizing d level pt s with
  | nil => cases hlen
  | cons info rest ih =>
    obtain ⟨hinfo, hrest⟩ := List.forall_mem_cons.mp hbits
    rw [teardown]
    simp only [if_pos hlevel]
    cases d with
    | zero =>
      obtain rfl := List.length_eq_zero_iff.mp (Nat.succ.inj hlen)
      simp only [teardown, ite_self, List.foldl_fixed]
      rfl
    | succ d =>
      have hloop : ∀ (is : List (Fin (entries w))) (s : Machine w σ),
          Held A m (is.flatMap (childTables flags m d pt) ++ [pt]) s →
          (is.flatMap (childTables flags m d pt) ++ [pt]).Nodup →
          is.foldl (fun (s : Machine w σ) (i : Fin (entries w)) ↦
            if s.mem (slot pt i) &&& pteP ≠ 0#w ∧ s.mem (slot pt i) &&& pteU ≠ 0#w then
              teardown A rest (level + 1) (baseof (s.mem (slot pt i))) s
            else s) s = (is.flatMap (childTables flags m d pt)).foldl (Machine.pgfree A) s := by
        intro is
        induction is with
        | nil => exact fun _ _ _ ↦ rfl
        | cons i is ihis =>
          intro s hheld hnodup
          rw [List.flatMap_cons, List.append_assoc] at hheld hnodup
          rw [List.flatMap_cons, List.foldl_append, List.foldl_cons]
          have hread : s.mem (slot pt i) = m pt i :=
            (hheld pt (List.mem_append_right _ (List.mem_append_right _ List.mem_cons_self))).2 i
          have hstep : (if s.mem (slot pt i) &&& pteP ≠ 0#w ∧ s.mem (slot pt i) &&& pteU ≠ 0#w then
              teardown A rest (level + 1) (baseof (s.mem (slot pt i))) s else s) =
              (childTables flags m d pt i).foldl (Machine.pgfree A) s := by
            rw [hread]
            have hentry := hclean [] pt (Nat.succ_pos d) rfl i
            have hhere : Held A m (childTables flags m d pt i) s :=
              fun t ht ↦ hheld t (List.mem_append_left _ ht)
            have hnodup' := (List.nodup_append.mp hnodup).1
            split_ifs at hentry ⊢ with hgo
            · simp only [childTables, hentry, Option.map_some, Option.getD_some] at hhere hnodup' ⊢
              exact ih hrest (Nat.succ_le_succ (Nat.zero_le _)) (Nat.succ.inj hlen) hhere hnodup'
                (hclean.child hentry)
            · rw [childTables, hentry]
              rfl
          rw [hstep]
          exact ihis _ (hheld.foldl_pgfree hnodup) (List.nodup_append.mp hnodup).2.1
      have hrange : List.range (1 <<< info.bits) = (List.finRange (entries w)).map Fin.val := by
        rw [Nat.shiftLeft_eq, Nat.one_mul, hinfo]
        exact List.map_coe_finRange_eq_range.symm
      have hrun := hloop (List.finRange (entries w)) s hheld hnodup
      rw [hrange, List.foldl_map, hrun, tablesOf, subtree, List.foldl_append]
      rfl

end OsWorkbench.Am
