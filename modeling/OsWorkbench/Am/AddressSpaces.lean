import OsWorkbench.Am.Teardown
import OsWorkbench.Library.Transition

namespace OsWorkbench.Am

open Library

variable {w : ℕ} {σ : Type*}

/-- The values that `cur` takes in the loops over the areas of the kernel. -/
def Arch.kernelCurs (arch : Arch w) : List (BitVec w) :=
  arch.kernel.flatMap fun vma ↦ (vma.loop arch.step).getD []

/-- What the tables of levels and areas have to satisfy. -/
structure Arch.Lawful (arch : Arch w) : Prop where
  cr3 : arch.cr3 = ⟨0#w, 0, 0⟩
  valid : ∀ info ∈ arch.levels, info.Valid
  page : ∀ va, inRange va arch.user → inRange (baseof va) arch.user
  injective : ∀ va va', inRange va arch.user → inRange va' arch.user →
    (∀ info ∈ arch.levels, indexof va info = indexof va' info) → baseof va = baseof va'
  kernel : ∀ vma ∈ arch.kernel, vma.kernel ∧ (vma.loop arch.step).isSome
  apart : ∀ cur ∈ arch.kernelCurs, ∀ va, inRange va arch.user →
    indexof cur arch.pd ≠ indexof va arch.pd

theorem inRange_iff {va : BitVec w} {area : Area w} :
    inRange va area ↔ area.start.toNat ≤ va.toNat ∧ va.toNat < area.stop.toNat := by
  rw [inRange, Bool.and_eq_true, decide_eq_true_iff, decide_eq_true_iff, BitVec.le_def, BitVec.lt_def]

theorem forall_levels_x86_64 {p : PtInfo 64 → Prop} :
    (∀ info ∈ x86_64.levels, p info) ↔ p ⟨0xff8000000000, 39, 9⟩ ∧ p ⟨0x007fc0000000, 30, 9⟩ ∧
      p ⟨0x00003fe00000, 21, 9⟩ ∧ p ⟨0x0000001ff000, 12, 9⟩ := by
  simp [Arch.levels, x86_64]

theorem valid_x86_64 : ∀ info ∈ x86_64.levels, info.Valid := by
  rw [forall_levels_x86_64]
  refine ⟨?_, ?_, ?_, ?_⟩
  all_goals exact ⟨by decide, by decide, by decide, by decide⟩

theorem x86_64_lawful : x86_64.Lawful where
  cr3 := rfl
  valid := valid_x86_64
  page va hva := by
    rw [inRange_iff] at hva ⊢
    rw [toNat_baseof]
    change 0x100000000000 ≤ _ ∧ _ < 0x108000000000 at hva
    change 0x100000000000 ≤ _ ∧ _ < 0x108000000000
    omega
  injective va va' hva hva' h := by
    rw [inRange_iff] at hva hva'
    change 0x100000000000 ≤ _ ∧ _ < 0x108000000000 at hva hva'
    have hindex : ∀ info ∈ x86_64.levels,
        va.toNat / 2 ^ info.shift % 512 = va'.toNat / 2 ^ info.shift % 512 := by
      intro info hinfo
      have heq := h info hinfo
      rwa [(valid_x86_64 info hinfo).indexof_eq, (valid_x86_64 info hinfo).indexof_eq] at heq
    rw [forall_levels_x86_64] at hindex
    apply BitVec.eq_of_toNat_eq
    rw [toNat_baseof, toNat_baseof]
    dsimp only at hindex
    omega
  kernel := by decide +kernel
  apart cur hcur va hva := by
    have hzero : cur ∈ [(0 : BitVec 64)] := by
      have hcurs : x86_64.kernelCurs = [0] := by decide +kernel
      rwa [hcurs] at hcur
    obtain rfl := List.mem_singleton.mp hzero
    have hvalid : x86_64.pd.Valid := valid_x86_64 _ List.mem_cons_self
    rw [inRange_iff] at hva
    change 0x100000000000 ≤ _ ∧ _ < 0x108000000000 at hva
    rw [hvalid.indexof_eq, hvalid.indexof_eq]
    change 0 ≠ va.toNat / 2 ^ 39 % 512
    omega

theorem forall_levels_i386 {p : PtInfo 32 → Prop} :
    (∀ info ∈ i386.levels, p info) ↔ p ⟨0xffc00000, 22, 10⟩ ∧ p ⟨0x003ff000, 12, 10⟩ := by
  simp [Arch.levels, i386]

theorem valid_i386 : ∀ info ∈ i386.levels, info.Valid := by
  rw [forall_levels_i386]
  refine ⟨?_, ?_⟩
  all_goals exact ⟨by decide, by decide, by decide, by decide⟩

theorem kernelCurs_i386 :
    i386.kernelCurs.all fun cur ↦ indexof cur i386.pd < 256 ∨ 512 ≤ indexof cur i386.pd := by
  decide +kernel

theorem i386_lawful : i386.Lawful where
  cr3 := rfl
  valid := valid_i386
  page va hva := by
    rw [inRange_iff] at hva ⊢
    rw [toNat_baseof]
    change 0x40000000 ≤ _ ∧ _ < 0x80000000 at hva
    change 0x40000000 ≤ _ ∧ _ < 0x80000000
    omega
  injective va va' hva hva' h := by
    have hindex : ∀ info ∈ i386.levels,
        va.toNat / 2 ^ info.shift % 1024 = va'.toNat / 2 ^ info.shift % 1024 := by
      intro info hinfo
      have heq := h info hinfo
      rwa [(valid_i386 info hinfo).indexof_eq, (valid_i386 info hinfo).indexof_eq] at heq
    rw [forall_levels_i386] at hindex
    have hlt := va.isLt
    have hlt' := va'.isLt
    apply BitVec.eq_of_toNat_eq
    rw [toNat_baseof, toNat_baseof]
    dsimp only at hindex
    omega
  kernel := by decide +kernel
  apart cur hcur va hva := by
    have hvalid : i386.pd.Valid := valid_i386 _ List.mem_cons_self
    have hcur := of_decide_eq_true (List.all_eq_true.mp kernelCurs_i386 cur hcur)
    rw [inRange_iff] at hva
    change 0x40000000 ≤ _ ∧ _ < 0x80000000 at hva
    have hindex : indexof va i386.pd = va.toNat / 2 ^ 22 % 1024 := hvalid.indexof_eq va
    omega

/-- The walk begins at the field `ptr` of an `AddrSpace`. -/
theorem Arch.Lawful.ptwalk_eq {arch : Arch w} (hlaw : arch.Lawful) (A : PageAllocator w σ)
    (as addr flags : BitVec w) (s : Machine w σ) : ptwalk A arch as addr flags s =
      if s.mem as &&& pteP = 0#w then
        (pgallocz A s).bind fun r ↦ ptwalkLoop A addr flags arch.levels r.1
          (r.2.store as (r.1 ||| pteP ||| flags))
      else ptwalkLoop A addr flags arch.levels (baseof (s.mem as)) s := by
  have hslot : slot as (indexof addr arch.cr3) = as := by
    rw [hlaw.cr3]
    simp [indexof, slot]
  have hlevels : arch.levels ≠ [] := List.cons_ne_nil _ _
  rw [ptwalk, Arch.pgtables, ptwalkLoop_cons hlevels, hslot]

section Share

variable {arch : Arch w} {kpt q : BitVec w} {mem : Memory w}

/-- The entries that `protect` copies. -/
def copyKernel (arch : Arch w) (kpt upt : BitVec w) (curs : List (BitVec w)) (mem : Memory w) :
    Memory w :=
  curs.foldl (fun mem cur ↦ Function.update mem (slot upt (indexof cur arch.pd))
    (mem (slot kpt (indexof cur arch.pd)))) mem

theorem shareKernel_eq (hlaw : arch.Lawful) :
    shareKernel arch kpt q arch.vmAreas mem = some (copyKernel arch kpt q arch.kernelCurs mem) := by
  have hfold : ∀ (vmas : List (VmArea w)) (mem : Memory w),
      (∀ vma ∈ vmas, vma.kernel ∧ (vma.loop arch.step).isSome) →
      shareKernel arch kpt q vmas mem =
        some (copyKernel arch kpt q (vmas.flatMap fun vma ↦ (vma.loop arch.step).getD []) mem) := by
    intro vmas
    induction vmas with
    | nil => exact fun _ _ ↦ rfl
    | cons vma vmas ih =>
      intro mem hvmas
      obtain ⟨⟨hkernel, hloop⟩, hrest⟩ := List.forall_mem_cons.mp hvmas
      obtain ⟨curs, hcurs⟩ := Option.isSome_iff_exists.mp hloop
      rw [List.flatMap_cons, copyKernel, List.foldl_append, hcurs, shareKernel, List.foldlM_cons,
        if_pos hkernel, hcurs]
      exact ih _ hrest
  rw [Arch.vmAreas, shareKernel, List.foldlM_cons]
  exact hfold arch.kernel mem hlaw.kernel

variable [hw : WordSize w]

theorem Arch.Lawful.indexof_lt (hlaw : arch.Lawful) (cur : BitVec w) :
    indexof cur arch.pd < entries w := by
  have hvalid : arch.pd.Valid := hlaw.valid _ List.mem_cons_self
  rw [hvalid.indexof_eq]
  exact Nat.mod_lt _ (Nat.pos_of_neZero _)

/-- `protect` gives the entries of the kernel to a table, and writes nothing else. -/
theorem copyKernel_spec (hlaw : arch.Lawful) (hq : baseof q = q) (hkpt : baseof kpt = kpt)
    (hne : kpt ≠ q) :
    (∀ cur ∈ arch.kernelCurs, copyKernel arch kpt q arch.kernelCurs mem
      (slot q (indexof cur arch.pd)) = mem (slot kpt (indexof cur arch.pd))) ∧
      ∀ x, (∀ cur ∈ arch.kernelCurs, slot q (indexof cur arch.pd) ≠ x) →
        copyKernel arch kpt q arch.kernelCurs mem x = mem x := by
  have hoffset : ∀ i, kpt + (slot q i - q) = slot kpt i := by
    intro i
    rw [slot, slot, BitVec.add_comm q, BitVec.add_sub_cancel]
  have hcell : ∀ cur ∈ arch.kernelCurs, slot q (indexof cur arch.pd) ∈ {x | baseof x = q} :=
    fun cur _ ↦ baseof_slot hq (hlaw.indexof_lt cur)
  have hval : ∀ cur ∈ arch.kernelCurs, ∀ m : Memory w, (∀ x, x ∉ {x | baseof x = q} → m x = mem x) →
      m (slot kpt (indexof cur arch.pd)) = mem (kpt + (slot q (indexof cur arch.pd) - q)) := by
    intro cur _ m hm
    have hkeep : slot kpt (indexof cur arch.pd) ∉ {x | baseof x = q} := by
      intro h
      exact hne ((baseof_slot hkpt (hlaw.indexof_lt cur)).symm.trans h)
    rw [hm _ hkeep, hoffset]
  have hfold := foldl_update (g := fun x ↦ mem (kpt + (x - q))) hcell hval fun _ _ ↦ rfl
  constructor
  · intro cur hcur
    exact (hfold _).trans ((if_pos ⟨cur, hcur, rfl⟩).trans (congrArg mem (hoffset _)))
  · intro x hx
    apply (hfold x).trans (if_neg _)
    intro h
    obtain ⟨cur, hcur, heq⟩ := h
    exact hx cur hcur heq

end Share

/-- The pages of a user with their frames, and whether they may be written. -/
abbrev Space (w : ℕ) := BitVec w → Option (BitVec w × Bool)

/-- The spaces in use, by the address of the field `ptr` of their `AddrSpace`. -/
abbrev Spaces (w : ℕ) := BitVec w → Option (Space w)

inductive Request (w : ℕ)
  | protect (as : BitVec w)
  | unprotect (as : BitVec w)
  | map (as va pa : BitVec w) (prot : BitVec 32)

section Requests

/-- A page is unmapped only when it is mapped, and mapped only when it is not. -/
def newEntry (pa : BitVec w) (prot : BitVec 32) (old : Option (BitVec w × Bool)) :
    Option (Option (BitVec w × Bool)) :=
  if prot = MMAP_NONE then if old = none then none else some none
  else if old ≠ none then none
  else some (some (pa, prot &&& MMAP_WRITE ≠ 0))

variable (arch : Arch w)

/-- What `map` is for; `none` where it must not be called so. -/
def mapPage (va pa : BitVec w) (prot : BitVec 32) (space : Space w) : Option (Space w) :=
  if ¬inRange va arch.user then none
  else if va ≠ baseof va ∨ pa ≠ baseof pa then none
  else (newEntry pa prot (space va)).map (Function.update space va)

def Request.apply (a : Spaces w) : Request w → Option (Spaces w)
  | .protect as => some (Function.update a as (some fun _ ↦ none))
  | .unprotect as => some (Function.update a as none)
  | .map as va pa prot => (a as).bind fun space ↦
    (mapPage arch va pa prot space).map fun space ↦ Function.update a as (some space)

variable (A : PageAllocator w σ) (kpt : BitVec w) (K : Set (BitVec w))

def Request.exec (s : Machine w σ) : Request w → Option (Machine w σ)
  | .protect as => Am.protect A arch kpt as s
  | .unprotect as => some (Am.unprotect A arch as s)
  | .map as va pa prot => Am.map A arch as va pa prot s

/-- An `AddrSpace` lies outside of the pages of the allocator and of the pages `K` of the kernel,
and is protected once before it is used. -/
def Request.Legal (a : Spaces w) : Request w → Prop
  | .protect as => a as = none ∧ baseof as ∉ A.arena ∧ baseof as ∉ K
  | .unprotect as => a as ≠ none
  | .map as _ _ _ => a as ≠ none

def paging (s₀ : Machine w σ) : System (Machine w σ × Spaces w) where
  init x := x = (s₀, fun _ ↦ none)
  step x y := ∃ req : Request w,
    req.Legal A K x.2 ∧ req.exec arch A kpt x.1 = some y.1 ∧ req.apply arch x.2 = some y.2

variable [WordSize w]

/-- The pages `K` of the kernel are not the allocator's to give, and the entries that every
space gets are the supervisor's. -/
structure Booted (s₀ : Machine w σ) : Prop where
  mem : kpt ∈ K
  page : ∀ p ∈ K, baseof p = p
  kept : ∀ p ∈ K, p ∉ A.arena ∨ p ∈ A.live s₀.heap
  supervisor : ∀ cur ∈ arch.kernelCurs, view s₀.mem kpt (index cur arch.pd) &&& pteU = 0#w

end Requests

end OsWorkbench.Am
