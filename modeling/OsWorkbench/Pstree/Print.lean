import OsWorkbench.Pstree.Build
import OsWorkbench.Library.Reading

namespace OsWorkbench.Pstree

open Library ChildSibling PointerTree Reading

def isLast {α : Type} : BinaryTree α → Bool
  | .nil => true
  | .node _ _ _ => false

/-- `"name(pid)"` -/
def entry (i : Info) : List UInt8 := i.name ++ 40 :: Delimited.decimal i.pid ++ [41]

/-- The prefixes of all the nodes can be built. -/
def Fits : ℕ → List UInt8 → BinaryTree Info → Prop
  | _, _, .nil => True
  | level, pfx, .node _ child sibling =>
    let u := if level > 0 then unit (isLast sibling) else []
    (pfx.length < maxLen - 1 ∧ pfx.length + u.length < maxLen) ∧
      Fits (level + 1) (pfx ++ u) child ∧ Fits level pfx sibling

/-- What stands behind the prefix in the line of a process. -/
def entryText (showPid : Bool) (i : Info) : List UInt8 := if showPid then entry i else i.name

/-- The lines below a prefix, in the order in which they are printed, with the pids or without. -/
def lines (showPid : Bool) : ℕ → List UInt8 → BinaryTree Info → List (List UInt8)
  | _, _, .nil => []
  | level, pfx, .node i child sibling =>
    (pfx ++ (if level > 0 then connector (isLast sibling) else []) ++ entryText showPid i) ::
      (lines showPid (level + 1) (pfx ++ if level > 0 then unit (isLast sibling) else []) child ++
        lines showPid level pfx sibling)

section Run

variable {h : Heap} {fuel : ℕ} {p : Addr} {level : ℕ} {pfx : List UInt8}
  {cells : BinaryTree Addr} {t : BinaryTree Info}

theorem printTree_node {n : Proc} {showPid : Bool} (hp : p ≠ null) (hn : h p = some n) :
    printTree showPid h (fuel + 1) p level pfx =
      newPrefix pfx (if level > 0 then unit (n.sibling = null) else []) >>= fun new ↦
        printTree showPid h fuel n.child (level + 1) new >>= fun below ↦
          printTree showPid h fuel n.sibling level pfx >>= fun after ↦
            .ok (pfx ++ (if level > 0 then connector (n.sibling = null) else []) ++
              label showPid (CString.text n.name) n.pid ++ below ++ after) := by
  simp only [printTree, if_neg hp, Heap.get, hn]
  rfl

theorem label_eq (showPid : Bool) (n : Proc) :
    label showPid (CString.text n.name) n.pid = entryText showPid n.info ++ [10] := by
  cases showPid with
  | true =>
    rw [label, if_pos rfl, entryText, if_pos rfl, entry, Proc.info]
    simp only [List.append_assoc, List.cons_append, List.nil_append]
  | false => rfl

theorem isLast_eq {sibling : BinaryTree Info} {s : Addr} (hl : Linked null h.links s cells)
    (hi : cells.map h.info = sibling.map some) : isLast sibling = decide (s = null) := by
  cases sibling with
  | nil =>
    cases cells with
    | nil => exact (decide_eq_true (p := s = null) hl).symm
    | node a child cells' => cases hi
  | node i child sibling' =>
    cases cells with
    | nil => cases hi
    | node a child cells' => exact (decide_eq_false (p := s = null) hl.2.1).symm

/-- Every line is printed with its newline behind it. The only thing that can go wrong is a prefix
that does not fit. -/
theorem printTree_cases (showPid : Bool) (level : ℕ) (pfx : List UInt8)
    (hl : Linked null h.links p cells) (hi : cells.map h.info = t.map some)
    (hf : (nodes t).length < fuel) :
    Fits level pfx t ∧ printTree showPid h fuel p level pfx =
      .ok (Delimited.unlines 10 (lines showPid level pfx t)) ∨
    ¬ Fits level pfx t ∧ printTree showPid h fuel p level pfx = .error .bufferOverflow := by
  induction t generalizing cells fuel p level pfx with
  | nil =>
    obtain ⟨fuel, rfl⟩ := Nat.exists_eq_add_one_of_ne_zero (Nat.ne_zero_of_lt hf)
    cases cells with
    | nil =>
      rw [printTree, if_pos (show p = null from hl)]
      exact .inl ⟨trivial, rfl⟩
    | node a child sibling => cases hi
  | node i child sibling ihc ihs =>
    obtain ⟨fuel, rfl⟩ := Nat.exists_eq_add_one_of_ne_zero (Nat.ne_zero_of_lt hf)
    rw [nodes, List.length_cons, List.length_append] at hf
    cases cells with
    | nil => cases hi
    | node a cc cs =>
      obtain ⟨rfl, hp, c, s, hlink, hc, hs⟩ := hl
      obtain ⟨n, hn, rfl, rfl⟩ := Heap.of_links hlink
      obtain ⟨hinfo, hic, his⟩ := BinaryTree.node.inj hi
      rw [Heap.info, hn] at hinfo
      obtain rfl : n.info = i := Option.some.inj hinfo
      have hlenc : (nodes child).length < fuel := by omega
      have hlens : (nodes sibling).length < fuel := by omega
      rw [printTree_node hp hn, Fits, lines, isLast_eq hs his, newPrefix]
      generalize (if level > 0 then unit (n.sibling = null) else []) = u
      by_cases hfit : pfx.length < maxLen - 1 ∧ pfx.length + u.length < maxLen
      swap
      · rw [if_neg hfit]
        exact .inr ⟨fun hfits ↦ hfit hfits.1, rfl⟩
      rw [if_pos hfit]
      simp only [Except.bind, bind]
      rcases ihc (level + 1) (pfx ++ u) hc hic hlenc with
        ⟨hfc, hbelow⟩ | ⟨hfc, hbelow⟩
      · rw [hbelow]
        rcases ihs level pfx hs his hlens with ⟨hfs, hafter⟩ | ⟨hfs, hafter⟩
        · rw [hafter]
          refine .inl ⟨⟨hfit, hfc, hfs⟩, ?_⟩
          rw [Delimited.unlines_cons, Delimited.unlines_append, label_eq]
          simp only [List.append_assoc, List.cons_append, List.nil_append]
        · rw [hafter]
          exact .inr ⟨fun hfits ↦ hfs hfits.2.2, rfl⟩
      · rw [hbelow]
        exact .inr ⟨fun hfits ↦ hfc hfits.2.1, rfl⟩

end Run

section Decode

/-- Every node with what the line in front of its name depends on: which of the nodes above it
are last siblings, and whether it is one. -/
def heads {α : Type} : List Bool → BinaryTree α → List (List Bool × Bool × α)
  | _, .nil => []
  | above, .node a child sibling =>
    (above, isLast sibling, a) ::
      (heads (above ++ [isLast sibling]) child ++ heads above sibling)

def headLine (e : List Bool × Bool × Info) : List UInt8 :=
  e.1.flatMap unit ++ connector e.2.1 ++ entry e.2.2

theorem levels_eq_heads {α : Type} (above : List Bool) (t : BinaryTree α) :
    levels above.length t = (heads above t).map fun e ↦ (e.1.length, e.2.2) := by
  induction t generalizing above with
  | nil => rfl
  | node a child sibling ihc ihs =>
    rw [levels, heads, List.map_cons, List.map_append, ← ihc, ← ihs, List.length_append,
      List.length_singleton]

theorem lines_eq_heads (above : List Bool) (t : BinaryTree Info) :
    lines true (above.length + 1) (above.flatMap unit) t = (heads above t).map headLine := by
  induction t generalizing above with
  | nil => rfl
  | node i child sibling ihc ihs =>
    have habove : above.flatMap unit ++ unit (isLast sibling) =
        (above ++ [isLast sibling]).flatMap unit := by
      rw [List.flatMap_append, List.flatMap_singleton]
    have hlevel : above.length + 1 + 1 = (above ++ [isLast sibling]).length + 1 := by
      rw [List.length_append, List.length_singleton]
    rw [lines, heads, List.map_cons, List.map_append, if_pos (Nat.succ_pos _),
      if_pos (Nat.succ_pos _), habove, hlevel, ihc, ihs, headLine, entryText, if_pos rfl]

/-- No column of bars and blanks is another one with a connector behind it. -/
theorem length_of_columns {bs bs' : List Bool} {b b' : Bool}
    (h : bs.flatMap unit ++ connector b = bs'.flatMap unit ++ connector b') :
    bs.length = bs'.length := by
  induction bs generalizing bs' with
  | nil =>
    cases bs' with
    | nil => rfl
    | cons c bs' =>
      rw [List.flatMap_cons, List.append_assoc] at h
      cases b <;> cases c <;> simp [connector, unit] at h
  | cons c bs ih =>
    cases bs' with
    | nil =>
      rw [List.flatMap_cons, List.append_assoc] at h
      cases b' <;> cases c <;> simp [connector, unit] at h
    | cons c' bs' =>
      rw [List.flatMap_cons, List.flatMap_cons, List.append_assoc, List.append_assoc] at h
      have hrest : bs.flatMap unit ++ connector b = bs'.flatMap unit ++ connector b' := by
        cases c <;> cases c' <;> simp [unit] at h ⊢
        · exact h
        · exact h
      rw [List.length_cons, List.length_cons, ih hrest]

def Info.NoSpace (i : Info) : Prop := ∀ b ∈ i.name, isBlank b = false

/-- What the output shows of a process. -/
def Info.shown (i : Info) : ℤ × List UInt8 := (i.pid, i.name)

variable {i j : Info} {e e' : List Bool × Bool × Info}

theorem isBlank_decimal {n : ℤ} {b : UInt8} (hb : b ∈ Delimited.decimal n) : isBlank b = false := by
  rcases Delimited.mem_decimal hb with rfl | hb
  · rfl
  · simp only [isBlank, decide_eq_false_iff_not, not_or, not_and_or, UInt8.le_iff_toNat_le,
      ← UInt8.toNat_inj, UInt8.reduceToNat]
    omega

theorem notMem_entry (hi : i.NoSpace) {b : UInt8} (hb : isBlank b = true) : b ∉ entry i := by
  intro hm
  have hfalse : isBlank b = false := by
    rcases List.mem_append.mp hm with hm | hm
    · rcases List.mem_append.mp hm with hm | hm
      · exact hi b hm
      · rcases List.mem_cons.mp hm with rfl | hm
        · rfl
        · exact isBlank_decimal hm
    · obtain rfl := List.mem_singleton.mp hm
      rfl
  rw [hfalse] at hb
  cases hb

/-- The last parenthesis ends the name. -/
theorem shown_of_entry (h : entry i = entry j) : i.shown = j.shown := by
  have hdec : ∀ n : ℤ, 40 ∉ Delimited.decimal n := by
    intro n hm
    rcases Delimited.mem_decimal hm with he | he
    · cases he
    · exact absurd he.1 (by decide)
  obtain ⟨hname, hpid⟩ := Delimited.split_last (hdec i.pid) (hdec j.pid)
    (List.append_cancel_right h)
  rw [Info.shown, Info.shown, hname, Delimited.decimal_injective hpid]

theorem connector_eq (b : Bool) : connector b = (connector b).dropLast ++ [32] := by
  cases b <;> rfl

theorem headLine_eq (e : List Bool × Bool × Info) :
    headLine e = (e.1.flatMap unit ++ (connector e.2.1).dropLast) ++ 32 :: entry e.2.2 := by
  rw [headLine, connector_eq, List.dropLast_concat]
  simp only [List.append_assoc, List.singleton_append]

/-- The last space of a line ends what stands in front of the name. -/
theorem of_headLine (he : e.2.2.NoSpace) (he' : e'.2.2.NoSpace) (h : headLine e = headLine e') :
    e.1.length = e'.1.length ∧ e.2.2.shown = e'.2.2.shown := by
  rw [headLine_eq, headLine_eq] at h
  obtain ⟨hhead, hentry⟩ := Delimited.split_last (notMem_entry he rfl) (notMem_entry he' rfl) h
  have hcolumns : e.1.flatMap unit ++ connector e.2.1 =
      e'.1.flatMap unit ++ connector e'.2.1 := by
    rw [connector_eq e.2.1, connector_eq e'.2.1, ← List.append_assoc, hhead, List.append_assoc]
  exact ⟨length_of_columns hcolumns, shown_of_entry hentry⟩

theorem newline_notMem_headLine (he : e.2.2.NoSpace) : 10 ∉ headLine e := by
  rw [headLine, List.mem_append, List.mem_append, not_or, not_or]
  refine ⟨⟨fun hm ↦ ?_, ?_⟩, notMem_entry he rfl⟩
  · obtain ⟨b, _, hb⟩ := List.mem_flatMap.mp hm
    cases b <;> simp [unit] at hb
  · cases e.2.1 <;> decide

end Decode

section Tree

variable {child child' : BinaryTree Info}

theorem lines_root (i : Info) (child : BinaryTree Info) :
    lines true 0 [] (.node i child .nil) = entry i :: (heads [] child).map headLine := by
  rw [← lines_eq_heads]
  simp [lines, entryText]

theorem mem_of_mem_heads {α : Type} {t : BinaryTree α} {above : List Bool}
    {e : List Bool × Bool × α} (he : e ∈ heads above t) : e.2.2 ∈ nodes t := by
  have hm : (e.1.length, e.2.2) ∈ levels above.length t := by
    rw [levels_eq_heads]
    exact List.mem_map.mpr ⟨e, he, rfl⟩
  rw [← map_snd_levels above.length t]
  exact List.mem_map.mpr ⟨_, hm, rfl⟩

theorem map_eq_of_map_eq {α β γ : Type} {f : α → β} {g : α → γ} {l l' : List α}
    (h : ∀ a ∈ l, ∀ b ∈ l', f a = f b → g a = g b) (heq : l.map f = l'.map f) :
    l.map g = l'.map g := by
  induction l generalizing l' with
  | nil => rw [List.map_eq_nil_iff.mp heq.symm]
  | cons a l ih =>
    cases l' with
    | nil => cases heq
    | cons b l' =>
      obtain ⟨hab, hrest⟩ := List.cons.inj heq
      rw [List.map_cons, List.map_cons, h a List.mem_cons_self b List.mem_cons_self hab]
      rw [ih (fun c hc d hd ↦ h c (List.mem_cons_of_mem _ hc) d (List.mem_cons_of_mem _ hd)) hrest]

/-- The lines below the root determine its subtrees. -/
theorem shown_of_heads (hc : ∀ i ∈ nodes child, i.NoSpace) (hc' : ∀ i ∈ nodes child', i.NoSpace)
    (h : (heads [] child).map headLine = (heads [] child').map headLine) :
    child.map Info.shown = child'.map Info.shown := by
  have hlevels : ∀ t : BinaryTree Info, levels 0 (t.map Info.shown) =
      (heads [] t).map fun e ↦ (e.1.length, e.2.2.shown) := by
    intro t
    rw [levels_map, show 0 = ([] : List Bool).length from rfl, levels_eq_heads, List.map_map]
    rfl
  apply levels_injective (d := 0)
  rw [hlevels, hlevels]
  refine map_eq_of_map_eq (fun e he e' he' hee ↦ ?_) h
  obtain ⟨hlen, hshown⟩ := of_headLine (hc _ (mem_of_mem_heads he)) (hc' _ (mem_of_mem_heads he')) hee
  rw [hlen, hshown]

end Tree

/-- A tree as `main` prints it: the root has no sibling, every prefix fits its buffer and no
name contains white space. -/
structure Printable (h : Heap) (root : Addr) (t : BinaryTree Info) : Prop where
  tree : h.IsTree root t
  single : ∃ i child, t = .node i child .nil
  fits : Fits 0 [] t
  names : ∀ i ∈ nodes t, i.NoSpace

namespace Printable

variable {h : Heap} {root : Addr} {t : BinaryTree Info}

theorem print (hp : Printable h root t) {fuel : ℕ} (hf : (nodes t).length < fuel) :
    printTree true h fuel root 0 [] = .ok (Delimited.unlines 10 (lines true 0 [] t)) := by
  obtain ⟨cells, hl, _, hi⟩ := hp.tree
  exact ((printTree_cases true 0 [] hl hi hf).resolve_right fun h ↦ h.1 hp.fits).2

/-- There is one line for each process, in preorder, and it ends with the name and the pid. -/
theorem lines_nodes (hp : Printable h root t) :
    List.Forall₂ (fun line i ↦ 10 ∉ line ∧ entry i <:+ line) (lines true 0 [] t) (nodes t) := by
  obtain ⟨i, child, rfl⟩ := hp.single
  have hnames : ∀ e ∈ heads [] child, e.2.2.NoSpace := fun e he ↦
    hp.names _ (List.mem_cons_of_mem _ (List.mem_append_left _ (mem_of_mem_heads he)))
  rw [lines_root, nodes, nodes, List.append_nil, ← map_snd_levels 0 child,
    show 0 = ([] : List Bool).length from rfl, levels_eq_heads, List.map_map]
  refine List.Forall₂.cons ⟨notMem_entry (hp.names i List.mem_cons_self) rfl, List.suffix_rfl⟩ ?_
  rw [List.forall₂_map_left_iff, List.forall₂_map_right_iff, List.forall₂_same]
  intro e he
  exact ⟨newline_notMem_headLine (hnames e he), List.suffix_append _ _⟩

theorem newline_notMem (hp : Printable h root t) : ∀ line ∈ lines true 0 [] t, 10 ∉ line :=
  ((List.forall₂_and_left _ _).mp hp.lines_nodes).1

end Printable

/-- Trees with the same output are the same in pids, names, parents and order of children. -/
theorem printTree_injective {h h' : Heap} {root root' : Addr} {t t' : BinaryTree Info}
    {fuel fuel' : ℕ} (hp : Printable h root t) (hp' : Printable h' root' t')
    (hf : (nodes t).length < fuel) (hf' : (nodes t').length < fuel') :
    (∃ lines, printTree true h fuel root 0 [] = .ok (Delimited.unlines 10 lines) ∧
      List.Forall₂ (fun line i ↦ 10 ∉ line ∧ entry i <:+ line) lines (nodes t)) ∧
    (printTree true h fuel root 0 [] = printTree true h' fuel' root' 0 [] →
      t.map Info.shown = t'.map Info.shown) := by
  refine ⟨⟨lines true 0 [] t, hp.print hf, hp.lines_nodes⟩, fun heq ↦ ?_⟩
  rw [hp.print hf, hp'.print hf'] at heq
  have hlines := Delimited.unlines_injective hp.newline_notMem hp'.newline_notMem
    (Except.ok.inj heq)
  obtain ⟨i, child, rfl⟩ := hp.single
  obtain ⟨i', child', rfl⟩ := hp'.single
  rw [lines_root, lines_root] at hlines
  obtain ⟨hroot, hheads⟩ := List.cons.inj hlines
  have hchild := shown_of_heads
    (fun j hj ↦ hp.names j (List.mem_cons_of_mem _ (List.mem_append_left _ hj)))
    (fun j hj ↦ hp'.names j (List.mem_cons_of_mem _ (List.mem_append_left _ hj))) hheads
  simp only [BinaryTree.map, shown_of_entry hroot, hchild]

/-- `idle` with the child `init`, and `sh` as what `init` points to. -/
def sampleHeap (child sibling : Addr) : Heap :=
  let h : Heap := fun _ ↦ none
  let h := h.set 1 ⟨0, [105, 100, 108, 101, 0], 0, 2, null, by decide⟩
  let h := h.set 2 ⟨1, [105, 110, 105, 116, 0], 0, child, sibling, by decide⟩
  h.set 3 ⟨7, [115, 104, 0], 1, null, null, by decide⟩

def sampleIdle : Info := ⟨0, [105, 100, 108, 101], 0⟩
def sampleInit : Info := ⟨1, [105, 110, 105, 116], 0⟩
def sampleShell : Info := ⟨7, [115, 104], 1⟩

theorem sampleHeap_below : Printable (sampleHeap 3 null) 1
    (.node sampleIdle (.node sampleInit (.node sampleShell .nil .nil) .nil) .nil) := by
  refine ⟨⟨.node 1 (.node 2 (.node 3 .nil .nil) .nil) .nil, ?_, by decide, rfl⟩, ⟨_, _, rfl⟩,
    by simp [Fits, maxLen, unit, isLast], by simp [nodes, Info.NoSpace, sampleIdle, sampleInit, sampleShell, isBlank]⟩
  exact ⟨rfl, by decide, 2, null, rfl, ⟨rfl, by decide, 3, null, rfl, ⟨rfl, by decide, null, null,
    rfl, rfl, rfl⟩, rfl⟩, rfl⟩

theorem sampleHeap_beside : Printable (sampleHeap null 3) 1
    (.node sampleIdle (.node sampleInit .nil (.node sampleShell .nil .nil)) .nil) := by
  refine ⟨⟨.node 1 (.node 2 .nil (.node 3 .nil .nil)) .nil, ?_, by decide, rfl⟩, ⟨_, _, rfl⟩,
    by simp [Fits, maxLen, unit, isLast], by simp [nodes, Info.NoSpace, sampleIdle, sampleInit, sampleShell, isBlank]⟩
  exact ⟨rfl, by decide, 2, null, rfl, ⟨rfl, by decide, null, 3, rfl, rfl, ⟨rfl, by decide, null,
    null, rfl, rfl, rfl⟩⟩, rfl⟩

theorem sample_outputs_differ : printTree true (sampleHeap 3 null) 4 1 0 [] ≠
    printTree true (sampleHeap null 3) 4 1 0 [] := by
  intro heq
  have hsame := (printTree_injective sampleHeap_below sampleHeap_beside
    (show _ < 4 by decide) (show _ < 4 by decide)).2 heq
  exact absurd hsame (by decide)

end OsWorkbench.Pstree
