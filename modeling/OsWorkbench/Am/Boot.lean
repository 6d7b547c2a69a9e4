import OsWorkbench.Library.Overlay

namespace OsWorkbench.Am.Boot

open Library

def sectsize : ℕ := 512

def argsize : ℕ := 1024

/-- `MAINARG_ADDR` -/
def mainargAddr : ℕ := 0x10000

/-- Where `load_kernel` reads the header. -/
def elfAddr : ℕ := 0x8000

/-- Addresses and `uint32_t` have 32 bits. -/
def word : ℕ := 0x100000000

/-- The bytes of the two drives that bit 4 of port `0x1f6` selects. -/
abbrev Disk := ℕ → ℕ → UInt8

abbrev Mem := ℕ → UInt8

/-- `outb` sends 28 bits of the sector number and one that selects the drive; bit 29 and above
are overwritten or lost. -/
def readDisk (disk : Disk) (buf sect : ℕ) (mem : Mem) : Mem :=
  (List.range sectsize).foldl (fun mem j ↦ Function.update mem (buf + j)
    (disk (sect / 0x10000000 % 2) (sect % 0x10000000 * sectsize + j))) mem

/-- The loop of `copy_from_disk`, with `none` where it does not end. -/
def copyLoop (disk : Disk) (ed : ℕ) : ℕ → ℕ → ℕ → Mem → Option Mem
  | 0, _, _, _ => none
  | fuel + 1, cur, sect, mem =>
    if cur < ed then
      copyLoop disk ed fuel ((cur + sectsize) % word) ((sect + 1) % word)
        (readDisk disk cur sect mem)
    else some mem

/-- A division of `int` rounds towards zero. -/
def copyFromDisk (disk : Disk) (buf nbytes : ℕ) (diskOffset : ℤ) (mem : Mem) : Option Mem :=
  let cur := buf / sectsize * sectsize
  let ed := (buf + nbytes) % word
  let sect := ((diskOffset.tdiv sectsize + (argsize / sectsize : ℕ) + 1) % word).toNat
  copyLoop disk ed (word / sectsize + 1) cur sect mem

/-- `i` comes to `memsz` in fewer than `word` turns. -/
def bssLoop (memsz : ℕ) : ℕ → ℕ → ℕ → Mem → Mem
  | 0, _, _, mem => mem
  | fuel + 1, i, bss, mem =>
    if i ≠ memsz then
      bssLoop memsz fuel ((i + 1) % word) ((bss + 1) % word) (Function.update mem bss 0)
    else mem

/-- `offset` becomes an `int`. -/
def loadProgram (disk : Disk) (filesz memsz paddr offset : ℕ) (mem : Mem) : Option Mem :=
  (copyFromDisk disk paddr filesz (Int.bmod offset word) mem).map
    (bssLoop memsz word filesz ((paddr + filesz) % word))

def u16 (mem : Mem) (a : ℕ) : ℕ := (mem (a % word)).toNat + 256 * (mem ((a + 1) % word)).toNat

def u32 (mem : Mem) (a : ℕ) : ℕ := u16 mem a + 65536 * u16 mem (a + 2)

/-- Where the fields of `Elf32_Ehdr` and `Elf32_Phdr`, or of `Elf64_Ehdr` and `Elf64_Phdr`, are.
Of those with 64 bits the loader uses the lower 32. -/
structure ElfLayout where
  phoff : ℕ
  phnum : ℕ
  phentsize : ℕ
  offset : ℕ
  paddr : ℕ
  filesz : ℕ
  memsz : ℕ

def elf32 : ElfLayout := ⟨28, 44, 32, 4, 12, 16, 20⟩

def elf64 : ElfLayout := ⟨32, 56, 56, 8, 24, 32, 40⟩

/-- `EM_X86_64` is 62; `e_machine` and `e_entry` have one place in both headers. -/
def layoutAt (mem : Mem) (elf : ℕ) : ElfLayout := if u16 mem (elf + 18) = 62 then elf64 else elf32

def entryAt (mem : Mem) (elf : ℕ) : ℕ := u32 mem (elf + 24)

/-- The loop of `load_elf32` and `load_elf64`; `e_phnum` is read in every turn. -/
def loadLoop (disk : Disk) (layout : ElfLayout) (elf : ℕ) : ℕ → ℕ → ℕ → Mem → Option Mem
  | 0, _, _, _ => none
  | fuel + 1, i, ph, mem =>
    if i < u16 mem (elf + layout.phnum) then
      match loadProgram disk (u32 mem (ph + layout.filesz)) (u32 mem (ph + layout.memsz))
          (u32 mem (ph + layout.paddr)) (u32 mem (ph + layout.offset)) mem with
      | none => none
      | some mem => loadLoop disk layout elf fuel (i + 1) ((ph + layout.phentsize) % word) mem
    else some mem

/-- `load_elf32` and `load_elf64`; `e_phnum` has 16 bits. -/
def loadElf (disk : Disk) (layout : ElfLayout) (elf : ℕ) (mem : Mem) : Option Mem :=
  loadLoop disk layout elf 65536 0 ((elf + u32 mem (elf + layout.phoff)) % word) mem

/-- The memory and the address that `load_kernel` jumps to. -/
def loadKernel (disk : Disk) (isAp : Bool) (mem : Mem) : Option (Mem × ℕ) := do
  let mem ← if isAp then some mem else do
    let mem ← copyFromDisk disk mainargAddr 1024 (-1024) mem
    let mem ← copyFromDisk disk elfAddr 4096 0 mem
    loadElf disk (layoutAt mem elfAddr) elfAddr mem
  return (mem, entryAt mem elfAddr)

end OsWorkbench.Am.Boot
