import OsWorkbench.Am.SpaceRuns

namespace OsWorkbench.Am

open Library Library.Words Library.Radix

variable {w : ℕ} {σ : Type*} [hw : WordSize w] {A : PageAllocator w σ} {arch : Arch w}
  {kpt : BitVec w} {K : Set (BitVec w)} {s₀ s s' : Machine w σ} {R : BitVec w → BitVec w}
  {D : Set (BitVec w)} {a a' : Spaces w} {as va pa t : BitVec w} {req : Request w}

section Steps

variable (hlaw : arch.Lawful) (hboot : Booted arch A kpt K s₀) (h : Inv A arch kpt K s₀ R D s a)
  (hlegal : req.Legal A K a)
include hlaw hboot h hlegal

/-- A request that does not panic was a proper one. -/
theorem Inv.exec (hexec : req.exec arch A kpt s = some s') :
    ∃ a', req.apply arch a = some a' ∧ ∃ R D, Inv A arch kpt K s₀ R D s' a' := by
  cases req with
  | protect as =>
    obtain ⟨q, hp⟩ := protect_spec hlaw (hboot.page kpt hboot.mem) (h.kept kpt hboot.mem)
      hlegal.2.1 hexec
    exact ⟨_, rfl, _, _, h.protect hboot hlegal hp⟩
  | unprotect as =>
    obtain rfl := Option.some_inj.mp hexec
    exact ⟨_, rfl, R, _, h.unprotect hlaw hboot ((h.dom as).mpr hlegal)⟩
  | map as va pa prot =>
    obtain ⟨space, has⟩ := Option.ne_none_iff_exists'.mp hlegal
    have hmap : map A arch as va pa prot s = some s' := hexec
    have hva : inRange va arch.user := by
      by_contra hva
      rw [map, if_pos hva] at hmap
      cases hmap
    have hpages : va = baseof va ∧ pa = baseof pa := by
      by_contra hpages
      rw [map, if_neg (not_not.mpr hva), if_pos (not_and_or.mp hpages)] at hmap
      cases hmap
    obtain ⟨⟨x, s₁⟩, hwalk⟩ : ∃ r, ptwalk A arch as va (pteW ||| pteU) s = some r := by
      apply Option.ne_none_iff_exists'.mp
      intro hnone
      rw [map, if_neg (not_not.mpr hva),
        if_neg (not_or.mpr ⟨not_not.mpr hpages.1, not_not.mpr hpages.2⟩), hnone] at hmap
      cases hmap
    have hmapeq := @Inv.map_eq _ _ _ _ _ _ _ _ _ _ _ _ _ _ _ _ hlaw h x space prot has hva hpages hwalk
    obtain ⟨o, ho, hs'⟩ := Option.map_eq_some_iff.mp (hmapeq.1.symm.trans hmap)
    refine ⟨_, ?_, R, D, hs' ▸ hmapeq.2 o ho⟩
    rw [Request.apply, has, Option.bind_some, mapPage, if_neg (not_not.mpr hva),
      if_neg (not_or.mpr ⟨not_not.mpr hpages.1, not_not.mpr hpages.2⟩), ho]
    rfl

omit hboot in
/-- A proper request does not panic while there are pages left. -/
theorem Inv.exec_isSome {room : σ → ℕ} (hroom : ∀ mem h, 0 < room h →
      (A.pgalloc mem h).1 ≠ 0#w ∧ room h ≤ room (A.pgalloc mem h).2.2 + 1)
    (hleft : arch.upper.length ≤ room s.heap) (happly : (req.apply arch a).isSome) :
    (req.exec arch A kpt s).isSome := by
  cases req with
  | protect as =>
    have hpos : 0 < room s.heap := (Nat.succ_pos _).trans_le hleft
    rw [Request.exec, Am.protect, pgallocz]
    simp only [if_neg (hroom s.mem s.heap hpos).1, Option.bind_some, shareKernel_eq hlaw]
    rfl
  | unprotect as => rfl
  | map as va pa prot =>
    obtain ⟨space, has⟩ := Option.ne_none_iff_exists'.mp hlegal
    rw [Request.apply, has, Option.bind_some, Option.isSome_map, mapPage] at happly
    have hva : inRange va arch.user := by
      by_contra hva
      rw [if_pos hva] at happly
      cases happly
    have hpages : va = baseof va ∧ pa = baseof pa := by
      by_contra hpages
      rw [if_neg (not_not.mpr hva), if_pos (not_and_or.mp hpages)] at happly
      cases happly
    rw [if_neg (not_not.mpr hva), if_neg (not_or.mpr ⟨not_not.mpr hpages.1, not_not.mpr hpages.2⟩),
      Option.isSome_map] at happly
    have hD := (h.dom as).mpr hlegal
    have hsome : (ptwalk A arch as va (pteW ||| pteU) s).isSome := by
      rw [h.ptwalk_eq hlaw hD]
      exact ptwalkLoop_isSome hroom hleft
    obtain ⟨⟨x, s₁⟩, hwalk⟩ := Option.isSome_iff_exists.mp hsome
    rw [Request.exec, (h.map_eq hlaw has hva hpages hwalk).1, Option.isSome_map]
    exact happly

end Steps

theorem exists_inv (hlaw : arch.Lawful) (hboot : Booted arch A kpt K s₀)
    (hx : (paging arch A kpt K s₀).Reachable (s, a)) : ∃ R D, Inv A arch kpt K s₀ R D s a := by
  refine hx.invariant (I := fun x ↦ ∃ R D, Inv A arch kpt K s₀ R D x.1 x.2) ?_ ?_
  · intro x hinit
    cases hinit
    exact ⟨id, ∅, Inv.initial hboot⟩
  · intro x y _ hinv hstep
    obtain ⟨R, D, h⟩ := hinv
    obtain ⟨req, hlegal, hexec, happly⟩ := hstep
    obtain ⟨a', ha', hinv'⟩ := h.exec hlaw hboot hlegal hexec
    obtain rfl := Option.some_inj.mp (ha'.symm.trans happly)
    exact hinv'

/-- What the processor does with the entry of a page. -/
theorem Inv.translate_eq (hlaw : arch.Lawful) (h : Inv A arch kpt K s₀ R D s a) {space : Space w}
    (has : a as = some space) (hva : inRange va arch.user) :
    translate s.mem va arch.levels (R as) =
      (space (baseof va)).map fun m ↦ ⟨m.1, true, m.2⟩ := by
  have hD : as ∈ D := (h.dom as).mpr (by rw [has]; exact Option.some_ne_none _)
  have hindex : ∀ info ∈ arch.levels, index (baseof va) info = index va info := by
    intro info hinfo
    apply Fin.ext
    rw [(hlaw.valid info hinfo).val_index, (hlaw.valid info hinfo).val_index,
      (hlaw.valid info hinfo).indexof_baseof]
  have hpath : arch.path (baseof va) = arch.path va :=
    List.map_congr_left fun info hinfo ↦ hindex info (List.mem_append_left _ hinfo)
  have hentry := h.entry as space has (baseof va) (hlaw.page va hva) (baseof_baseof va)
  rw [hpath, hindex arch.pt (List.mem_append_right _ List.mem_cons_self)] at hentry
  have hskip : ([] : List (Fin (entries w))) = [] → ∀ info ∈ arch.upper.head?,
      index va info ∉ (arch.forest (R '' D)).skip := fun _ ↦ hlaw.head_notMem hva
  have hwrite : ((pteP : BitVec w) ||| (arch.forest (R '' D)).flags) &&& pteW = pteW := by
    rw [Arch.forest, BitVec.or_comm pteW, ← BitVec.or_assoc]
    exact or_and_self _ _
  have huser : ((pteP : BitVec w) ||| (arch.forest (R '' D)).flags) &&& pteU = pteU := by
    rw [Arch.forest, ← BitVec.or_assoc]
    exact or_and_self _ _
  have htranslate := Am.translate_eq hwrite huser hlaw.valid (Inv.root hD) h.tables follow_nil
    (Nat.zero_add _) hskip
  change _ = Option.map _ ((arch.forest (R '' D)).entryAt s.mem (R as) (arch.path va)
    (index va arch.pt)) at htranslate
  rw [hentry, Option.map_map] at htranslate
  apply htranslate.trans
  cases hm : space (baseof va) with
  | none => rfl
  | some m =>
    have hframe := h.frames as space has _ m hm
    have hw0 : (pteW : BitVec w) ≠ 0#w := flag_ne_zero (by decide) (by decide)
    have hu0 : (pteU : BitVec w) ≠ 0#w := flag_ne_zero (by decide) (by decide)
    obtain ⟨pa, writable⟩ := m
    rw [Option.map_some, Option.map_some, Function.comp_apply, baseof_entryOf hframe, entryOf_user,
      entryOf_writable hframe]
    cases writable
    · simp [hu0]
    · simp [hu0, hw0]

section Results

variable (hlaw : arch.Lawful) (hboot : Booted arch A kpt K s₀)
  (hx : (paging arch A kpt K s₀).Reachable (s, a))
include hlaw hboot hx

/-- In every run, the processor finds in the tables of a space what the requests have mapped
there, and the entries of the kernel as they were at boot. -/
theorem paging_refines {space : Space w} (has : a as = some space) :
    (∀ va, inRange va arch.user → translate s.mem va arch.levels (baseof (s.mem as)) =
      (space (baseof va)).map fun m ↦ ⟨m.1, true, m.2⟩) ∧
      (∀ cur ∈ arch.kernelCurs, s.mem (slot (baseof (s.mem as)) (indexof cur arch.pd)) =
        s₀.mem (slot kpt (indexof cur arch.pd))) ∧
      ∀ x, baseof x ∈ K → s.mem x = s₀.mem x := by
  obtain ⟨R, D, h⟩ := exists_inv hlaw hboot hx
  have hD : as ∈ D := (h.dom as).mpr (by rw [has]; exact Option.some_ne_none _)
  rw [h.baseof_cell hD]
  refine ⟨?_, ?_, h.kernelMem⟩
  · exact fun va hva ↦ h.translate_eq hlaw has hva
  · intro cur hcur
    have hvalid : arch.pd.Valid := hlaw.valid _ List.mem_cons_self
    rw [← hvalid.val_index]
    exact h.shared as hD _ ⟨cur, hcur, rfl⟩

/-- In every run, a request panics exactly where it must, or where no page is left. -/
theorem paging_panics (hlegal : req.Legal A K a) :
    ((req.exec arch A kpt s).isSome → (req.apply arch a).isSome) ∧
      ∀ room : σ → ℕ, (∀ mem h, 0 < room h →
        (A.pgalloc mem h).1 ≠ 0#w ∧ room h ≤ room (A.pgalloc mem h).2.2 + 1) →
      arch.upper.length ≤ room s.heap → (req.apply arch a).isSome →
        (req.exec arch A kpt s).isSome := by
  obtain ⟨R, D, h⟩ := exists_inv hlaw hboot hx
  refine ⟨?_, fun room hroom hleft ↦ h.exec_isSome hlaw hlegal hroom hleft⟩
  intro hexec
  obtain ⟨s', hs'⟩ := Option.isSome_iff_exists.mp hexec
  obtain ⟨a', ha', _⟩ := h.exec hlaw hboot hlegal hs'
  exact Option.isSome_iff_exists.mpr ⟨a', ha'⟩

/-- In every run, the pages in use are those of boot and the tables of the spaces, no table is
shared, and tearing a space down frees each of its tables once and nothing else. -/
theorem paging_accounts :
    (∀ t, t ∈ A.live s.heap ↔
      t ∈ A.live s₀.heap ∨ ∃ as, a as ≠ none ∧ t ∈ spaceTables arch s.mem as) ∧
      (∀ as, a as ≠ none → ∀ t ∈ spaceTables arch s.mem as, t ∉ A.live s₀.heap ∧
        ∀ as', a as' ≠ none → t ∈ spaceTables arch s.mem as' → as' = as) ∧
      ∀ as, a as ≠ none → (unprotect A arch as s).freed = s.freed ++ spaceTables arch s.mem as ∧
        (spaceTables arch s.mem as).Nodup ∧
        A.live (unprotect A arch as s).heap =
          A.live s.heap \ {t | t ∈ spaceTables arch s.mem as} := by
  obtain ⟨R, D, h⟩ := exists_inv hlaw hboot hx
  refine ⟨?_, ?_, ?_⟩
  · intro t
    rw [h.live]
    apply or_congr_right
    constructor
    · intro ht
      obtain ⟨_, ⟨as, has, rfl⟩, path, hlen, hpath⟩ := ht
      exact ⟨as, (h.dom as).mp has, (h.mem_spaceTables has).mpr ⟨path, hlen, hpath⟩⟩
    · intro ht
      obtain ⟨as, has, ht⟩ := ht
      exact h.reached_spaceTables ((h.dom as).mpr has) ht
  · intro as has t ht
    have hD := (h.dom as).mpr has
    refine ⟨h.own t (h.reached_spaceTables hD ht), fun as' has' ht' ↦ ?_⟩
    exact h.spaceTables_own hD ((h.dom as').mpr has') ht ht'
  · intro as has
    have hD := (h.dom as).mpr has
    have hnodup := h.nodup_spaceTables hD
    obtain ⟨hlive, hfreed, _⟩ := foldl_pgfree hnodup fun p hp ↦
      h.tables.live p (h.reached_spaceTables hD hp)
    rw [h.unprotect_eq hlaw hboot hD]
    exact ⟨hfreed, hnodup, hlive⟩

end Results

section Sample

def samplePage (i : ℕ) : BitVec 64 := BitVec.ofNat 64 (0x100000 + i * 4096)

theorem samplePage_inj {i j : ℕ} (hi : i < 16) (hj : j < 16) (h : samplePage i = samplePage j) :
    i = j := by
  have hnat := congrArg BitVec.toNat h
  rw [samplePage, samplePage, BitVec.toNat_ofNat, BitVec.toNat_ofNat] at hnat
  omega

/-- Sixteen pages, given out one after another. -/
def sampleAllocator : PageAllocator 64 (ℕ × List (BitVec 64)) where
  pgalloc mem h :=
    if h.1 < 16 then (samplePage h.1, mem, h.1 + 1, h.2.filter (· ≠ samplePage h.1)) else (0, mem, h)
  pgfree p mem h := (mem, h.1, p :: h.2)
  arena := {p | ∃ i < 16, samplePage i = p}
  live h := {p | (∃ i < 16, i < h.1 ∧ samplePage i = p) ∧ p ∉ h.2}
  arena_page p hp := by
    obtain ⟨i, hi, rfl⟩ := hp
    have hall : ∀ i < 16, baseof (samplePage i) = samplePage i := by decide
    exact hall i hi
  live_arena h p hp := by
    obtain ⟨⟨i, hi, _, rfl⟩, _⟩ := hp
    exact ⟨i, hi, rfl⟩
  fresh mem h hne := by
    split_ifs at hne ⊢ with hlt
    · refine ⟨⟨h.1, hlt, rfl⟩, ?_, ?_⟩
      · intro hlive
        obtain ⟨⟨i, hi, hih, heq⟩, _⟩ := hlive
        exact absurd (samplePage_inj hi hlt heq) hih.ne
      · ext p
        by_cases hp : p = samplePage h.1
        · subst hp
          simp only [Set.mem_ofPred_eq, Set.mem_insert_iff, true_or, iff_true]
          exact ⟨⟨h.1, hlt, Nat.lt_succ_self _, rfl⟩, by simp⟩
        · simp only [Set.mem_ofPred_eq, Set.mem_insert_iff, hp, false_or, List.mem_filter, ne_eq,
            decide_not, Bool.not_eq_true', decide_eq_false_iff_not, not_false_iff, and_true]
          apply and_congr_left'
          apply exists_congr
          intro i
          apply and_congr_right
          intro _
          apply and_congr_left
          intro heq
          have hi : i ≠ h.1 := fun hi ↦ hp (hi ▸ heq.symm)
          omega
    · exact absurd rfl hne
  pgalloc_mem mem h x _ := by
    split_ifs
    · rfl
    · rfl
  freed p mem h _ := by
    ext q
    simp only [Set.mem_ofPred_eq, Set.mem_sdiff, Set.mem_singleton_iff, List.mem_cons, not_or]
    rw [and_assoc, and_comm (a := ¬q = p)]
  pgfree_mem _ _ _ _ _ _ := rfl

def sampleBoot : Machine 64 (ℕ × List (BitVec 64)) where
  mem x := if x = 0x1000 then 0x2003 else 0
  heap := (0, [])
  freed := []

theorem sample_booted : Booted x86_64 sampleAllocator 0x1000 {0x1000} sampleBoot where
  mem := rfl
  page p hp := by
    rw [Set.mem_singleton_iff.mp hp]
    decide
  kept p hp := by
    left
    intro harena
    obtain ⟨i, hi, heq⟩ := harena
    have hall : ∀ i < 16, samplePage i ≠ 0x1000 := by decide
    exact hall i hi (heq.trans hp)
  supervisor cur hcur := by
    have hcurs : x86_64.kernelCurs = [0] := by decide +kernel
    rw [hcurs, List.mem_singleton] at hcur
    subst hcur
    decide

def sampleSpace : Space 64 := Function.update (fun _ ↦ none) 0x100000000000 (some (0x5000, true))

def sampleSpaces : Spaces 64 :=
  Function.update (Function.update (fun _ ↦ none) 0x8000 (some fun _ ↦ none)) 0x8000 (some sampleSpace)

/-- A space with one page, and more than half of the allocator's pages left. -/
theorem sample_reachable : ∃ s,
    (paging x86_64 sampleAllocator 0x1000 {0x1000} sampleBoot).Reachable (s, sampleSpaces) ∧
      s.heap.1 < 8 := by
  have hrun : ((protect sampleAllocator x86_64 0x1000 0x8000 sampleBoot).bind
      (map sampleAllocator x86_64 0x8000 0x100000000000 0x5000 MMAP_WRITE)).any
        (fun s ↦ decide (s.heap.1 < 8)) = true := by
    decide +kernel
  obtain ⟨s₂, hs, hheap⟩ := (Option.any_eq_true _ _).mp hrun
  obtain ⟨s₁, hs₁, hs₂⟩ := Option.bind_eq_some_iff.mp hs
  have hcell : baseof (0x8000 : BitVec 64) ∉ sampleAllocator.arena := by
    intro harena
    obtain ⟨i, hi, heq⟩ := harena
    have hall : ∀ i < 16, samplePage i ≠ baseof 0x8000 := by decide
    exact hall i hi heq
  have hkernel : baseof (0x8000 : BitVec 64) ∉ ({0x1000} : Set (BitVec 64)) := by
    intro heq
    exact absurd (Set.mem_singleton_iff.mp heq) (by decide)
  have hfirst : (paging x86_64 sampleAllocator 0x1000 {0x1000} sampleBoot).Reachable
      (s₁, Function.update (fun _ ↦ none) 0x8000 (some fun _ ↦ none)) :=
    .step (.init rfl) ⟨.protect 0x8000, ⟨rfl, hcell, hkernel⟩, hs₁, rfl⟩
  refine ⟨s₂, hfirst.step ⟨.map 0x8000 0x100000000000 0x5000 MMAP_WRITE, ?_, hs₂, ?_⟩,
    of_decide_eq_true hheap⟩
  · exact Option.some_ne_none _
  · rfl

theorem sample_translated : ∃ s : Machine 64 (ℕ × List (BitVec 64)),
    translate s.mem 0x100000000abc x86_64.levels (baseof (s.mem 0x8000)) =
      some ⟨0x5000, true, true⟩ := by
  obtain ⟨s, hs, -⟩ := sample_reachable
  have has : sampleSpaces 0x8000 = some sampleSpace := Function.update_self ..
  have hpage : baseof (0x100000000abc : BitVec 64) = 0x100000000000 := by decide
  refine ⟨s, ((paging_refines x86_64_lawful sample_booted hs has).1 _ (by decide)).trans ?_⟩
  rw [hpage, sampleSpace, Function.update_self]
  rfl

/-- The pages that have not been given out. -/
theorem sample_room (mem : Memory 64) (h : ℕ × List (BitVec 64)) (hroom : 0 < 16 - h.1) :
    (sampleAllocator.pgalloc mem h).1 ≠ 0#64 ∧
      16 - h.1 ≤ 16 - (sampleAllocator.pgalloc mem h).2.2.1 + 1 := by
  have hlt : h.1 < 16 := by omega
  have hpages : ∀ i < 16, samplePage i ≠ 0#64 := by decide
  simp only [sampleAllocator, if_pos hlt]
  exact ⟨hpages h.1 hlt, by omega⟩

/-- A page is not mapped twice, but another one is mapped, since there is room. -/
theorem sample_panics : ∃ s : Machine 64 (ℕ × List (BitVec 64)),
    ¬(map sampleAllocator x86_64 0x8000 0x100000000000 0x6000 MMAP_WRITE s).isSome ∧
      (map sampleAllocator x86_64 0x8000 0x100000001000 0x6000 MMAP_WRITE s).isSome := by
  obtain ⟨s, hs, hheap⟩ := sample_reachable
  have hlegal : ∀ va, (Request.map 0x8000 va 0x6000 MMAP_WRITE).Legal sampleAllocator {0x1000}
      sampleSpaces := fun _ ↦ Option.some_ne_none _
  have hleft : x86_64.upper.length ≤ 16 - s.heap.1 := by
    have hupper : x86_64.upper.length = 3 := rfl
    omega
  refine ⟨s, fun hexec ↦ ?_, ?_⟩
  · cases (paging_panics x86_64_lawful sample_booted hs (hlegal 0x100000000000)).1 hexec
  · exact (paging_panics x86_64_lawful sample_booted hs (hlegal 0x100000001000)).2
      (fun h ↦ 16 - h.1) sample_room hleft rfl

theorem sample_accounted : ∃ s : Machine 64 (ℕ × List (BitVec 64)),
    (unprotect sampleAllocator x86_64 0x8000 s).freed =
      s.freed ++ spaceTables x86_64 s.mem 0x8000 := by
  obtain ⟨s, hs, -⟩ := sample_reachable
  exact ⟨s, ((paging_accounts x86_64_lawful sample_booted hs).2.2 0x8000
    (Option.some_ne_none _)).1⟩

end Sample

end OsWorkbench.Am
