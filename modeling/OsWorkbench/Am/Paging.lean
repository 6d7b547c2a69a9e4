import Mathlib.Data.Set.Insert
import Mathlib.Logic.Function.Basic
import OsWorkbench.Library.Words

namespace OsWorkbench.Am

open Library.Words

def pgsize : ℕ := 4096

/-- The words of a page of a machine whose `uintptr_t` has `w` bits. -/
abbrev entries (w : ℕ) : ℕ := pgsize / (w / 8)

abbrev Memory (w : ℕ) := BitVec w → BitVec w

variable {w : ℕ}

def pteP : BitVec w := 0x001#w

def pteW : BitVec w := 0x002#w

def pteU : BitVec w := 0x004#w

structure PtInfo (w : ℕ) where
  mask : BitVec w
  shift : ℕ
  bits : ℕ

structure Area (w : ℕ) where
  start : BitVec w
  stop : BitVec w

def inRange (ptr : BitVec w) (area : Area w) : Bool := area.start ≤ ptr && ptr < area.stop

structure VmArea (w : ℕ) where
  area : Area w
  kernel : Bool

def indexof (addr : BitVec w) (info : PtInfo w) : ℕ := ((addr &&& info.mask) >>> info.shift).toNat

def baseof (addr : BitVec w) : BitVec w := addr &&& ~~~low w 12

/-- The address of `pt[index]`. -/
def slot (pt : BitVec w) (index : ℕ) : BitVec w := pt + BitVec.ofNat w (index * (w / 8))

/-- The values of the variable of `for (cur = start; cur != end; cur += step)`, unless the loop
runs for ever. -/
def loopFrom (stop step : BitVec w) : ℕ → BitVec w → Option (List (BitVec w))
  | 0, _ => none
  | fuel + 1, cur =>
    if cur = stop then some [] else (loopFrom stop step fuel (cur + step)).map (cur :: ·)

def VmArea.loop (vma : VmArea w) (step : BitVec w) : Option (List (BitVec w)) :=
  loopFrom vma.area.stop step (2 ^ w) vma.area.start

/-- The configuration of a machine: the rows of `mmu.pgtables` from the one of CR3 on, and
`vm_areas`, the user's area first. -/
structure Arch (w : ℕ) where
  cr3 : PtInfo w
  pd : PtInfo w
  inner : List (PtInfo w)
  pt : PtInfo w
  user : Area w
  kernel : List (VmArea w)

namespace Arch

variable (arch : Arch w)

/-- The levels of the tables that the processor walks. -/
def levels : List (PtInfo w) := arch.pd :: arch.inner ++ [arch.pt]

def pgtables : List (PtInfo w) := arch.cr3 :: arch.levels

def vmAreas : List (VmArea w) := ⟨arch.user, false⟩ :: arch.kernel

/-- The step between two entries of the first table. -/
def step : BitVec w := 1#w <<< arch.pd.shift

end Arch

def x86_64 : Arch 64 where
  cr3 := ⟨0x000000000000, 0, 0⟩
  pd := ⟨0xff8000000000, 39, 9⟩
  inner := [⟨0x007fc0000000, 30, 9⟩, ⟨0x00003fe00000, 21, 9⟩]
  pt := ⟨0x0000001ff000, 12, 9⟩
  user := ⟨0x100000000000, 0x108000000000⟩
  kernel := [⟨⟨0x000000000000, 0x008000000000⟩, true⟩]

def i386 : Arch 32 where
  cr3 := ⟨0x00000000, 0, 0⟩
  pd := ⟨0xffc00000, 22, 10⟩
  inner := []
  pt := ⟨0x003ff000, 12, 10⟩
  user := ⟨0x40000000, 0x80000000⟩
  kernel := [⟨⟨0x00000000, 0x40000000⟩, true⟩, ⟨⟨0xfd000000, 0x00000000⟩, true⟩]

/-- The allocator that `vme_init` is given. It may use the pages that are not in use, and
no other memory. -/
structure PageAllocator (w : ℕ) (σ : Type*) where
  pgalloc : Memory w → σ → BitVec w × Memory w × σ
  pgfree : BitVec w → Memory w → σ → Memory w × σ
  arena : Set (BitVec w)
  live : σ → Set (BitVec w)
  arena_page : ∀ p ∈ arena, baseof p = p
  live_arena : ∀ h, live h ⊆ arena
  fresh : ∀ mem h, (pgalloc mem h).1 ≠ 0#w →
    (pgalloc mem h).1 ∈ arena ∧ (pgalloc mem h).1 ∉ live h ∧
      live (pgalloc mem h).2.2 = insert (pgalloc mem h).1 (live h)
  pgalloc_mem : ∀ mem h x, baseof x ∉ arena ∨ baseof x ∈ live h → (pgalloc mem h).2.1 x = mem x
  freed : ∀ p mem h, p ∈ live h → live (pgfree p mem h).2 = live h \ {p}
  pgfree_mem : ∀ p mem h x, p ∈ live h → baseof x ∉ arena ∨ baseof x ∈ live h \ {p} →
    (pgfree p mem h).1 x = mem x

/-- The memory, the state of the allocator and the pages handed to `pgfree` so far. -/
structure Machine (w : ℕ) (σ : Type*) where
  mem : Memory w
  heap : σ
  freed : List (BitVec w)

variable {σ : Type*}

def Machine.store (s : Machine w σ) (x v : BitVec w) : Machine w σ :=
  { s with mem := Function.update s.mem x v }

@[simp] theorem Machine.store_mem (s : Machine w σ) (x v : BitVec w) :
    (s.store x v).mem = Function.update s.mem x v := rfl

@[simp] theorem Machine.store_heap (s : Machine w σ) (x v : BitVec w) :
    (s.store x v).heap = s.heap := rfl

@[simp] theorem Machine.store_freed (s : Machine w σ) (x v : BitVec w) :
    (s.store x v).freed = s.freed := rfl

/-- `for (int i = 0; i < mmu.pgsize / sizeof(uintptr_t); i++) base[i] = 0` -/
def zeroPage (base : BitVec w) (mem : Memory w) : Memory w :=
  (List.range (entries w)).foldl (fun mem i ↦ Function.update mem (slot base i) 0#w) mem

def MMAP_NONE : BitVec 32 := 0

def MMAP_WRITE : BitVec 32 := 2

section

variable (A : PageAllocator w σ) (arch : Arch w)

/-- `none` is a panic, here and below. -/
def pgallocz (s : Machine w σ) : Option (BitVec w × Machine w σ) :=
  let r := A.pgalloc s.mem s.heap
  if r.1 = 0#w then none
  else some (r.1, ⟨zeroPage r.1 r.2.1, r.2.2, s.freed⟩)

/-- The loop of `ptwalk`, from the level at the head of the list on. -/
def ptwalkLoop (addr flags : BitVec w) :
    List (PtInfo w) → BitVec w → Machine w σ → Option (BitVec w × Machine w σ)
  | [], _, _ => none
  | [info], cur, s => some (slot cur (indexof addr info), s)
  | info :: rest, cur, s =>
    let pte := slot cur (indexof addr info)
    if s.mem pte &&& pteP = 0#w then
      (pgallocz A s).bind fun r ↦
        ptwalkLoop addr flags rest r.1 (r.2.store pte (r.1 ||| pteP ||| flags))
    else ptwalkLoop addr flags rest (baseof (s.mem pte)) s

/-- `as` is the address of the field `ptr` of the `AddrSpace`. -/
def ptwalk (as addr flags : BitVec w) (s : Machine w σ) : Option (BitVec w × Machine w σ) :=
  ptwalkLoop A addr flags arch.pgtables as s

def Machine.pgfree (s : Machine w σ) (pt : BitVec w) : Machine w σ :=
  let r := A.pgfree pt s.mem s.heap
  ⟨r.1, r.2, s.freed ++ [pt]⟩

/-- The levels from `level` on are those of the list. -/
def teardown : List (PtInfo w) → ℕ → BitVec w → Machine w σ → Machine w σ
  | [], _, _, s => s
  | info :: rest, level, pt, s =>
    let s := (List.range (1 <<< info.bits)).foldl (fun s index ↦
      let pte := s.mem (slot pt index)
      if pte &&& pteP ≠ 0#w ∧ pte &&& pteU ≠ 0#w then
        teardown rest (level + 1) (baseof pte) s
      else s) s
    if 1 ≤ level then s.pgfree A pt else s

/-- The loop of `protect` over the areas of the kernel. -/
def shareKernel (kpt upt : BitVec w) (vmas : List (VmArea w)) (mem : Memory w) : Option (Memory w) :=
  vmas.foldlM (fun mem vma ↦
    if vma.kernel then
      (vma.loop arch.step).map fun curs ↦ curs.foldl (fun mem cur ↦
        Function.update mem (slot upt (indexof cur arch.pd)) (mem (slot kpt (indexof cur arch.pd)))) mem
    else some mem) mem

def protect (kpt as : BitVec w) (s : Machine w σ) : Option (Machine w σ) :=
  (pgallocz A s).bind fun r ↦ (shareKernel arch kpt r.1 arch.vmAreas r.2.mem).map fun mem ↦
    Machine.store { r.2 with mem } as (r.1 ||| pteP ||| pteU)

def unprotect (as : BitVec w) (s : Machine w σ) : Machine w σ := teardown A arch.pgtables 0 as s

/-- The entry that `map` writes. -/
def leafEntry (pa : BitVec w) (prot : BitVec 32) : BitVec w :=
  pa ||| pteP ||| pteU ||| if prot &&& MMAP_WRITE ≠ 0 then pteW else 0#w

def map (as va pa : BitVec w) (prot : BitVec 32) (s : Machine w σ) : Option (Machine w σ) :=
  if ¬inRange va arch.user then none
  else if va ≠ baseof va ∨ pa ≠ baseof pa then none
  else (ptwalk A arch as va (pteW ||| pteU) s).bind fun r ↦
    (if prot = MMAP_NONE then
      if r.2.mem r.1 &&& pteP = 0#w then none else some (r.2.store r.1 0#w)
    else if r.2.mem r.1 &&& pteP ≠ 0#w then none
    else some (r.2.store r.1 (leafEntry pa prot))).bind fun s ↦
      (ptwalk A arch as va (pteW ||| pteU) s).map (·.2)

end

/-- What the processor allows at an address. -/
structure Access (w : ℕ) where
  frame : BitVec w
  user : Bool
  writable : Bool
deriving DecidableEq

/-- The walk of the processor through the tables of the levels. -/
def translate (mem : Memory w) (addr : BitVec w) : List (PtInfo w) → BitVec w → Option (Access w)
  | [], cur => some ⟨cur, true, true⟩
  | info :: rest, cur =>
    let pte := mem (slot cur (indexof addr info))
    if pte &&& pteP = 0#w then none
    else (translate mem addr rest (baseof pte)).map fun a ↦
      ⟨a.frame, a.user && pte &&& pteU ≠ 0#w, a.writable && pte &&& pteW ≠ 0#w⟩

end OsWorkbench.Am
