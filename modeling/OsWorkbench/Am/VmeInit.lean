import Mathlib.Data.Fintype.Card
import OsWorkbench.Am.SpaceInvariant

namespace OsWorkbench.Am

open Library.Words

variable {σ : Type*} (A : PageAllocator 32 σ) (as : BitVec 32)

/-- `*ptwalk(&as, cur, PTE_W) = cur | PTE_P | PTE_W` -/
def mapKernelPage (s : Machine 32 σ) (cur : BitVec 32) : Option (Machine 32 σ) :=
  (ptwalk A i386 as cur pteW s).map fun r ↦ r.2.store r.1 (cur ||| pteP ||| pteW)

/-- The loops of `vme_init` over the pages of the areas of the kernel. -/
def mapKernel (vmas : List (VmArea 32)) (s : Machine 32 σ) : Option (Machine 32 σ) :=
  vmas.foldlM (fun s vma ↦
    if vma.kernel then
      (vma.loop (BitVec.ofNat 32 pgsize)).bind fun curs ↦ curs.foldlM (mapKernelPage A as) s
    else some s) s

/-- The tables that `vme_init` builds on a machine of 32 bits, and `kpt`; `as` is the address of
the field `ptr` of its local `AddrSpace`. -/
def vmeInit (s : Machine 32 σ) : Option (BitVec 32 × Machine 32 σ) :=
  (mapKernel A as i386.vmAreas (s.store as 0#32)).map fun s ↦ (baseof (s.mem as), s)

/-- The table of the kernel. Its entries are empty, or lead the supervisor to other pages. -/
structure KernelTable (kpt : BitVec 32) (s : Machine 32 σ) : Prop where
  cell : s.mem as = kpt ||| pteP ||| pteW
  live : kpt ∈ A.live s.heap
  entry : ∀ j, view s.mem kpt j = 0#32 ∨
    ∃ q ∈ A.live s.heap, q ≠ kpt ∧ view s.mem kpt j = q ||| pteP ||| pteW

variable {A as} {s s' : Machine 32 σ} {kpt q x v cur : BitVec 32} {curs : List (BitVec 32)}

theorem mapKernel_cons (vma : VmArea 32) (vmas : List (VmArea 32)) (s : Machine 32 σ) :
    mapKernel A as (vma :: vmas) s = (if vma.kernel then
      (vma.loop (BitVec.ofNat 32 pgsize)).bind fun curs ↦ curs.foldlM (mapKernelPage A as) s
    else some s).bind (mapKernel A as vmas) := List.foldlM_cons

/-- What `ptwalk` stores above a table leads to the table. -/
theorem tableEntry (hq : baseof q = q) : (q ||| pteP ||| pteW) &&& pteP ≠ 0#32 ∧
    (q ||| pteP ||| pteW) &&& pteU = 0#32 ∧ baseof (q ||| pteP ||| pteW) = q := by
  have hqU : q &&& pteU = 0#32 := and_flag hq (by decide)
  refine ⟨?_, ?_, ?_⟩
  · rw [BitVec.or_assoc, BitVec.or_comm pteP, ← BitVec.or_assoc, or_and_self]
    decide
  · rw [BitVec.or_assoc, BitVec.and_comm, BitVec.and_or_distrib_left, BitVec.and_comm pteU q, hqU]
    decide
  · rw [BitVec.or_assoc]
    exact or_and_not_low hq (by decide)

theorem KernelTable.new (has : baseof as ∉ A.arena) (hq : pgallocz A s = some (kpt, s')) :
    KernelTable A as kpt (s'.store as (kpt ||| pteP ||| pteW)) := by
  obtain ⟨⟨harena, _, hlive, _⟩, _, hzero⟩ := pgallocz_spec hq
  refine ⟨Function.update_self .., ?_, fun j ↦ .inl ?_⟩
  · rw [Machine.store_heap, hlive]
    exact Set.mem_insert ..
  · have hne : slot kpt j ≠ as := by
      intro heq
      rw [← heq, baseof_slot (A.arena_page kpt harena) j.isLt] at has
      exact has harena
    exact (Function.update_of_ne hne ..).trans (hzero j)

theorem KernelTable.view_store (h : KernelTable A as kpt s) (hne : baseof x ≠ kpt)
    (j : Fin (entries 32)) : view (s.store x v).mem kpt j = view s.mem kpt j := by
  apply Function.update_of_ne
  intro heq
  rw [← heq, baseof_slot (A.live_page h.live) j.isLt] at hne
  exact hne rfl

/-- A write to another page of the allocator leaves the table as it is. -/
theorem KernelTable.store (has : baseof as ∉ A.arena) (h : KernelTable A as kpt s)
    (hx : baseof x ∈ A.live s.heap) (hne : baseof x ≠ kpt) : KernelTable A as kpt (s.store x v) := by
  have hcell : as ≠ x := fun heq ↦ has (heq ▸ A.live_arena _ hx)
  refine ⟨(Function.update_of_ne hcell ..).trans h.cell, h.live, fun j ↦ ?_⟩
  rw [h.view_store hne]
  exact h.entry j

theorem KernelTable.view_hang (h : KernelTable A as kpt s) (hq : pgallocz A s = some (q, s'))
    (i j : Fin (entries 32)) :
    view (s'.store (slot kpt i) v).mem kpt j = if j = i then v else view s.mem kpt j := by
  have hpage := A.live_page h.live
  have hview : view s'.mem kpt j = view s.mem kpt j := by
    apply (pgallocz_spec hq).2.1
    rw [baseof_slot hpage j.isLt]
    exact .inr h.live
  rw [Machine.store_mem, Am.view_store hpage hpage, hview]
  simp only [true_and]

/-- A fresh page hangs below an entry of the table. -/
theorem KernelTable.hang (has : baseof as ∉ A.arena) (h : KernelTable A as kpt s)
    {i : Fin (entries 32)} (hq : pgallocz A s = some (q, s')) :
    KernelTable A as kpt (s'.store (slot kpt i) (q ||| pteP ||| pteW)) ∧
      q ∈ A.live s'.heap ∧ q ≠ kpt := by
  obtain ⟨⟨harena, hfresh, hlive, _⟩, hmem, _⟩ := pgallocz_spec hq
  have hpage := A.live_page h.live
  have hne : q ≠ kpt := fun heq ↦ hfresh (heq ▸ h.live)
  have hold : A.live s.heap ⊆ A.live s'.heap := by
    rw [hlive]
    exact Set.subset_insert ..
  have hqlive : q ∈ A.live s'.heap := by
    rw [hlive]
    exact Set.mem_insert ..
  have hcell : as ≠ slot kpt i := by
    intro heq
    rw [heq, baseof_slot hpage i.isLt] at has
    exact has (A.live_arena _ h.live)
  refine ⟨⟨?_, hold h.live, fun j ↦ ?_⟩, hqlive, hne⟩
  · rw [Machine.store_mem, Function.update_of_ne hcell, hmem as (.inl has)]
    exact h.cell
  · rw [h.view_hang hq]
    split_ifs with hslot
    · exact .inr ⟨q, hqlive, hne, rfl⟩
    · exact (h.entry j).imp_right fun ⟨p, hp, hentry⟩ ↦ ⟨p, hold hp, hentry⟩

theorem valid_pd : i386.pd.Valid := i386_lawful.valid _ List.mem_cons_self

theorem indexof_pt_lt (cur : BitVec 32) : indexof cur i386.pt < entries 32 := by
  have hvalid : i386.pt.Valid := i386_lawful.valid _ (List.mem_cons_of_mem _ List.mem_cons_self)
  rw [hvalid.indexof_eq]
  exact Nat.mod_lt _ (Nat.pos_of_neZero _)

theorem ptwalkLevels_eq (cur : BitVec 32) (s : Machine 32 σ) :
    ptwalkLoop A cur pteW i386.levels kpt s =
      if view s.mem kpt (index cur i386.pd) &&& pteP = 0#32 then
        (pgallocz A s).bind fun r ↦ some (slot r.1 (indexof cur i386.pt),
          r.2.store (slot kpt (index cur i386.pd)) (r.1 ||| pteP ||| pteW))
      else some (slot (baseof (view s.mem kpt (index cur i386.pd))) (indexof cur i386.pt), s) := by
  have hlevels : i386.levels = [i386.pd, i386.pt] := rfl
  rw [hlevels, ptwalkLoop_cons (List.cons_ne_nil _ _), mem_slot_index valid_pd s.mem kpt,
    ← valid_pd.val_index]
  rfl

/-- The walk from the table of the kernel comes to an entry of another page. -/
theorem KernelTable.walk (has : baseof as ∉ A.arena) (h : KernelTable A as kpt s)
    (hwalk : ptwalkLoop A cur pteW i386.levels kpt s = some (x, s')) :
    KernelTable A as kpt s' ∧ baseof x ∈ A.live s'.heap ∧ baseof x ≠ kpt := by
  rw [ptwalkLevels_eq] at hwalk
  split_ifs at hwalk with habsent
  · obtain ⟨⟨q, s₁⟩, hq, hwalk⟩ := Option.bind_eq_some_iff.mp hwalk
    obtain ⟨rfl, rfl⟩ := Prod.mk.inj (Option.some_inj.mp hwalk)
    obtain ⟨htable, hlive, hne⟩ := h.hang has (i := index cur i386.pd) hq
    rw [baseof_slot (A.live_page hlive) (indexof_pt_lt cur)]
    exact ⟨htable, hlive, hne⟩
  · obtain ⟨rfl, rfl⟩ := Prod.mk.inj (Option.some_inj.mp hwalk)
    rcases h.entry (index cur i386.pd) with hzero | ⟨q, hlive, hne, hentry⟩
    · rw [hzero] at habsent
      exact absurd BitVec.zero_and habsent
    · have hpage := A.live_page hlive
      rw [hentry, (tableEntry hpage).2.2, baseof_slot hpage (indexof_pt_lt cur)]
      exact ⟨h, hlive, hne⟩

theorem KernelTable.mapKernelPage (has : baseof as ∉ A.arena) (h : KernelTable A as kpt s)
    (hrun : mapKernelPage A as s cur = some s') : KernelTable A as kpt s' := by
  obtain ⟨⟨x, s₁⟩, hwalk, rfl⟩ := Option.map_eq_some_iff.mp hrun
  obtain ⟨hpresent, -, hbase⟩ := tableEntry (A.live_page h.live)
  rw [i386_lawful.ptwalk_eq, h.cell, if_neg hpresent, hbase] at hwalk
  obtain ⟨htable, hlive, hne⟩ := h.walk has hwalk
  exact htable.store has hlive hne

/-- The first page of the kernel brings its table, and is mapped as the other ones. -/
theorem mapKernelPage_eq (has : baseof as ∉ A.arena) (hptr : s.mem as = 0#32)
    (hq : pgallocz A s = some (q, s')) : mapKernelPage A as s cur =
      mapKernelPage A as (s'.store as (q ||| pteP ||| pteW)) cur := by
  have h := KernelTable.new has hq
  obtain ⟨hpresent, -, hbase⟩ := tableEntry (A.live_page h.live)
  rw [mapKernelPage, mapKernelPage, i386_lawful.ptwalk_eq, i386_lawful.ptwalk_eq, hptr,
    if_pos BitVec.zero_and, hq, h.cell, if_neg hpresent, hbase]
  rfl

theorem mapKernelPage_first (has : baseof as ∉ A.arena) (hptr : s.mem as = 0#32)
    (hrun : mapKernelPage A as s cur = some s') : ∃ kpt, KernelTable A as kpt s' := by
  cases hq : pgallocz A s with
  | none =>
    rw [mapKernelPage, i386_lawful.ptwalk_eq, hptr, if_pos BitVec.zero_and, hq] at hrun
    cases hrun
  | some r =>
    rw [mapKernelPage_eq has hptr hq] at hrun
    exact ⟨r.1, (KernelTable.new has hq).mapKernelPage has hrun⟩

theorem KernelTable.mapKernelPages (has : baseof as ∉ A.arena) (h : KernelTable A as kpt s)
    (hrun : curs.foldlM (Am.mapKernelPage A as) s = some s') : KernelTable A as kpt s' := by
  induction curs generalizing s with
  | nil =>
    obtain rfl := Option.some_inj.mp hrun
    exact h
  | cons cur curs ih =>
    rw [List.foldlM_cons] at hrun
    obtain ⟨s₁, hpage, hrest⟩ := Option.bind_eq_some_iff.mp hrun
    exact ih (h.mapKernelPage has hpage) hrest

theorem KernelTable.mapKernel (has : baseof as ∉ A.arena) {vmas : List (VmArea 32)}
    (h : KernelTable A as kpt s) (hrun : mapKernel A as vmas s = some s') :
    KernelTable A as kpt s' := by
  induction vmas generalizing s with
  | nil =>
    obtain rfl := Option.some_inj.mp hrun
    exact h
  | cons vma vmas ih =>
    rw [mapKernel_cons] at hrun
    obtain ⟨s₁, harea, hrest⟩ := Option.bind_eq_some_iff.mp hrun
    split_ifs at harea with hkernel
    · obtain ⟨curs, _, hpages⟩ := Option.bind_eq_some_iff.mp harea
      exact ih (h.mapKernelPages has hpages) hrest
    · obtain rfl := Option.some_inj.mp harea
      exact ih h hrest

theorem loopFrom_cons {w : ℕ} {stop step cur : BitVec w} {fuel : ℕ} {curs : List (BitVec w)}
    (hne : cur ≠ stop) (hloop : loopFrom stop step fuel cur = some curs) :
    ∃ rest, curs = cur :: rest := by
  cases fuel with
  | zero => cases hloop
  | succ fuel =>
    rw [loopFrom, if_neg hne] at hloop
    obtain ⟨rest, _, rfl⟩ := Option.map_eq_some_iff.mp hloop
    exact ⟨rest, rfl⟩

/-- The loops come to a page of the kernel, since its first area is not empty. -/
theorem mapKernel_first (has : baseof as ∉ A.arena) {user : Area 32} {vma : VmArea 32}
    {vmas : List (VmArea 32)} (hkernel : vma.kernel) (hne : vma.area.start ≠ vma.area.stop)
    (hptr : s.mem as = 0#32) (hrun : mapKernel A as (⟨user, false⟩ :: vma :: vmas) s = some s') :
    ∃ kpt, KernelTable A as kpt s' := by
  rw [mapKernel_cons, if_neg Bool.false_ne_true, Option.bind_some, mapKernel_cons,
    if_pos hkernel] at hrun
  obtain ⟨s₂, harea, hrest⟩ := Option.bind_eq_some_iff.mp hrun
  obtain ⟨curs, hloop, hpages⟩ := Option.bind_eq_some_iff.mp harea
  obtain ⟨rest, rfl⟩ := loopFrom_cons hne hloop
  rw [List.foldlM_cons] at hpages
  obtain ⟨s₃, hpage, hpages⟩ := Option.bind_eq_some_iff.mp hpages
  obtain ⟨kpt, h⟩ := mapKernelPage_first has hptr hpage
  exact ⟨kpt, (h.mapKernelPages has hpages).mapKernel has hrest⟩

/-- `vme_init` leaves a table for the kernel. -/
theorem vmeInit_kernelTable (has : baseof as ∉ A.arena) (hrun : vmeInit A as s = some (kpt, s')) :
    KernelTable A as kpt s' := by
  obtain ⟨s₁, hmap, heq⟩ := Option.map_eq_some_iff.mp hrun
  obtain ⟨rfl, rfl⟩ := Prod.mk.inj heq
  obtain ⟨kpt, h⟩ := mapKernel_first has rfl (by decide) (Function.update_self ..) hmap
  rw [h.cell, (tableEntry (A.live_page h.live)).2.2]
  exact h

/-- What the functions on spaces rest on. -/
theorem vmeInit_booted (has : baseof as ∉ A.arena) (hrun : vmeInit A as s = some (kpt, s')) :
    Booted i386 A kpt (A.live s'.heap) s' := by
  have h := vmeInit_kernelTable has hrun
  constructor
  · exact h.live
  · exact fun p hp ↦ A.live_page hp
  · exact fun p hp ↦ .inr hp
  · intro cur _
    rcases h.entry (index cur i386.pd) with hzero | ⟨q, hlive, -, hentry⟩
    · rw [hzero]
      exact BitVec.zero_and
    · rw [hentry]
      exact (tableEntry (A.live_page hlive)).2.1

section Room

/-- The entries of the table that still lead nowhere. -/
def absent (kpt : BitVec 32) (s : Machine 32 σ) : Finset (Fin (entries 32)) :=
  Finset.univ.filter fun j ↦ view s.mem kpt j &&& pteP = 0#32

theorem loopFrom_isSome {w : ℕ} {stop step cur : BitVec w} {fuel n : ℕ} (hn : n < fuel)
    (hstop : cur + BitVec.ofNat w n * step = stop) : (loopFrom stop step fuel cur).isSome := by
  induction n generalizing fuel cur with
  | zero =>
    obtain ⟨fuel, rfl⟩ := Nat.exists_eq_succ_of_ne_zero (Nat.ne_of_gt hn)
    rw [loopFrom, if_pos]
    · rfl
    · simpa using hstop
  | succ n ih =>
    obtain ⟨fuel, rfl⟩ := Nat.exists_eq_succ_of_ne_zero (Nat.ne_of_gt (Nat.zero_lt_of_lt hn))
    rw [loopFrom]
    split_ifs with hcur
    · rfl
    · rw [Option.isSome_map]
      apply ih (Nat.lt_of_succ_lt_succ hn)
      rw [← hstop, BitVec.ofNat_add, BitVec.add_mul, BitVec.one_mul, BitVec.add_assoc,
        BitVec.add_comm step]

theorem loops_isSome : ∀ vma ∈ i386.kernel, (vma.loop (BitVec.ofNat 32 pgsize)).isSome := by
  intro vma hvma
  rw [i386, List.mem_pair] at hvma
  rcases hvma with rfl | rfl
  · exact loopFrom_isSome (n := 0x40000) (by decide) (by decide)
  · exact loopFrom_isSome (n := 0x3000) (by decide) (by decide)

variable {room : σ → ℕ} (hroom : ∀ mem h, 0 < room h →
  (A.pgalloc mem h).1 ≠ 0#32 ∧ room h ≤ room (A.pgalloc mem h).2.2 + 1)
include hroom

theorem pgallocz_isSome (hleft : 0 < room s.heap) :
    ∃ q s', pgallocz A s = some (q, s') ∧ room s.heap ≤ room s'.heap + 1 := by
  obtain ⟨hpage, hmore⟩ := hroom s.mem s.heap hleft
  exact ⟨_, _, if_neg hpage, hmore⟩

variable (has : baseof as ∉ A.arena) (h : KernelTable A as kpt s)
  (hleft : (absent kpt s).card ≤ room s.heap)
include has h hleft

/-- A walk takes a page only for an entry that leads nowhere. -/
theorem KernelTable.walk_isSome (cur : BitVec 32) : ∃ x s',
    ptwalkLoop A cur pteW i386.levels kpt s = some (x, s') ∧
      (absent kpt s').card ≤ room s'.heap := by
  rw [ptwalkLevels_eq]
  split_ifs with habsent
  · have hmem : index cur i386.pd ∈ absent kpt s :=
      Finset.mem_filter.mpr ⟨Finset.mem_univ _, habsent⟩
    have hpos := Finset.card_pos.mpr ⟨_, hmem⟩
    obtain ⟨q, s₁, hq, hmore⟩ := pgallocz_isSome hroom (hpos.trans_le hleft)
    rw [hq]
    refine ⟨_, _, rfl, ?_⟩
    obtain ⟨-, hlive, -⟩ := h.hang has (i := index cur i386.pd) hq
    have hsub : absent kpt (s₁.store (slot kpt (index cur i386.pd)) (q ||| pteP ||| pteW)) ⊆
        (absent kpt s).erase (index cur i386.pd) := by
      intro j hj
      have hview := (Finset.mem_filter.mp hj).2
      rw [h.view_hang hq] at hview
      split_ifs at hview with hslot
      · exact absurd hview (tableEntry (A.live_page hlive)).1
      · exact Finset.mem_erase.mpr ⟨hslot, Finset.mem_filter.mpr ⟨Finset.mem_univ _, hview⟩⟩
    have hcard := Finset.card_le_card hsub
    rw [Finset.card_erase_of_mem hmem] at hcard
    dsimp only [Machine.store_heap]
    omega
  · exact ⟨_, _, rfl, hleft⟩

theorem KernelTable.mapKernelPage_isSome (cur : BitVec 32) :
    ∃ s', Am.mapKernelPage A as s cur = some s' ∧ (absent kpt s').card ≤ room s'.heap := by
  obtain ⟨hpresent, -, hbase⟩ := tableEntry (A.live_page h.live)
  obtain ⟨x, s₁, hwalk, hleft₁⟩ := h.walk_isSome hroom has hleft cur
  obtain ⟨htable, -, hne⟩ := h.walk has hwalk
  rw [Am.mapKernelPage, i386_lawful.ptwalk_eq, h.cell, if_neg hpresent, hbase, hwalk]
  refine ⟨_, rfl, ?_⟩
  simp only [absent, htable.view_store hne]
  exact hleft₁

theorem KernelTable.mapKernelPages_isSome (curs : List (BitVec 32)) :
    ∃ s', curs.foldlM (Am.mapKernelPage A as) s = some s' ∧ (absent kpt s').card ≤ room s'.heap := by
  induction curs generalizing s with
  | nil => exact ⟨s, rfl, hleft⟩
  | cons cur curs ih =>
    obtain ⟨s₁, hpage, hleft₁⟩ := h.mapKernelPage_isSome hroom has hleft cur
    obtain ⟨s₂, hpages, hleft₂⟩ := ih (h.mapKernelPage has hpage) hleft₁
    refine ⟨s₂, ?_, hleft₂⟩
    rw [List.foldlM_cons, hpage]
    exact hpages

theorem KernelTable.mapKernel_isSome {vmas : List (VmArea 32)}
    (hloops : ∀ vma ∈ vmas, (vma.loop (BitVec.ofNat 32 pgsize)).isSome) :
    (Am.mapKernel A as vmas s).isSome := by
  induction vmas generalizing s with
  | nil => rfl
  | cons vma vmas ih =>
    obtain ⟨hloop, hrest⟩ := List.forall_mem_cons.mp hloops
    rw [mapKernel_cons]
    split_ifs with hkernel
    · obtain ⟨curs, hcurs⟩ := Option.isSome_iff_exists.mp hloop
      obtain ⟨s₁, hpages, hleft₁⟩ := h.mapKernelPages_isSome hroom has hleft curs
      simp only [hcurs, Option.bind_some, hpages]
      exact ih (h.mapKernelPages has hpages) hleft₁ hrest
    · exact ih h hleft hrest

omit h hleft

theorem mapKernelPage_first_isSome (hptr : s.mem as = 0#32) (hleft : entries 32 < room s.heap)
    (cur : BitVec 32) : ∃ kpt s', mapKernelPage A as s cur = some s' ∧
      KernelTable A as kpt s' ∧ (absent kpt s').card ≤ room s'.heap := by
  obtain ⟨q, s₁, hq, hmore⟩ := pgallocz_isSome hroom (Nat.zero_lt_of_lt hleft)
  have h := KernelTable.new has hq
  have hcard : (absent q (s₁.store as (q ||| pteP ||| pteW))).card ≤ entries 32 :=
    (Finset.card_le_univ _).trans_eq (Fintype.card_fin _)
  have hleft₁ : (absent q (s₁.store as (q ||| pteP ||| pteW))).card ≤ room s₁.heap := by omega
  obtain ⟨s₂, hpage, hleft₂⟩ := h.mapKernelPage_isSome hroom has hleft₁ cur
  exact ⟨q, s₂, (mapKernelPage_eq has hptr hq).trans hpage, h.mapKernelPage has hpage, hleft₂⟩

theorem mapKernel_first_isSome {user : Area 32} {vma : VmArea 32} {vmas : List (VmArea 32)}
    (hkernel : vma.kernel) (hne : vma.area.start ≠ vma.area.stop)
    (hloops : ∀ v ∈ vma :: vmas, (v.loop (BitVec.ofNat 32 pgsize)).isSome)
    (hptr : s.mem as = 0#32) (hleft : entries 32 < room s.heap) :
    (mapKernel A as (⟨user, false⟩ :: vma :: vmas) s).isSome := by
  obtain ⟨hloop, hrest⟩ := List.forall_mem_cons.mp hloops
  obtain ⟨curs, hcurs⟩ := Option.isSome_iff_exists.mp hloop
  obtain ⟨rest, rfl⟩ := loopFrom_cons hne hcurs
  obtain ⟨kpt, s₁, hpage, h, hleft₁⟩ := mapKernelPage_first_isSome hroom has hptr hleft vma.area.start
  obtain ⟨s₂, hpages, hleft₂⟩ := h.mapKernelPages_isSome hroom has hleft₁ rest
  rw [mapKernel_cons, if_neg Bool.false_ne_true, Option.bind_some, mapKernel_cons, if_pos hkernel,
    hcurs, Option.bind_some, List.foldlM_cons, hpage, Option.bind_eq_bind, Option.bind_some, hpages]
  exact (h.mapKernelPages has hpages).mapKernel_isSome hroom has hleft₂ hrest

/-- `vme_init` does not panic when there are pages for the table of the kernel and for all of
its entries. -/
theorem vmeInit_isSome (hleft : entries 32 < room s.heap) : (vmeInit A as s).isSome := by
  rw [vmeInit, Option.isSome_map]
  exact mapKernel_first_isSome hroom has rfl (by decide) loops_isSome (Function.update_self ..) hleft

end Room

end OsWorkbench.Am
