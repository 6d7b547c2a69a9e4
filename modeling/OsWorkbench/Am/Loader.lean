import OsWorkbench.Am.Boot

namespace OsWorkbench.Am.Boot

open Library

variable {disk : Disk} {mem : Mem}

theorem readDisk_eq {sect : ℕ} (h : sect < 0x10000000) (buf : ℕ) :
    readDisk disk buf sect mem =
      overlay buf (buf + 512) (fun k ↦ disk 0 (sect * 512 + k)) mem := by
  have hdrive : sect / 0x10000000 % 2 = 0 := by omega
  have hsect : sect % 0x10000000 = sect := Nat.mod_eq_of_lt h
  rw [readDisk, hdrive, hsect]
  exact foldl_range_update buf 512 (fun k ↦ disk 0 (sect * 512 + k)) mem

/-- The loop copies `n` whole sectors, of which the last one reaches `ed`. -/
theorem copyLoop_eq {ed : ℕ} (n : ℕ) {fuel cur sect : ℕ} (hreach : ed ≤ cur + 512 * n)
    (hlast : n = 0 ∨ cur + 512 * n < ed + 512) (hend : cur + 512 * n < word)
    (hsect : sect + n < 0x10000000) (hfuel : n < fuel) :
    copyLoop disk ed fuel cur sect mem =
      some (overlay cur (cur + 512 * n) (fun k ↦ disk 0 (sect * 512 + k)) mem) := by
  induction n generalizing fuel cur sect mem with
  | zero =>
    obtain ⟨fuel, rfl⟩ := Nat.exists_eq_add_one_of_ne_zero (Nat.ne_zero_of_lt hfuel)
    rw [copyLoop, if_neg (by omega), overlay_empty (by omega)]
  | succ n ih =>
    obtain ⟨fuel, rfl⟩ := Nat.exists_eq_add_one_of_ne_zero (Nat.ne_zero_of_lt hfuel)
    have hword : word = 0x100000000 := rfl
    have hcur : (cur + sectsize) % word = cur + 512 := by
      rw [sectsize, hword]
      omega
    have hnext : (sect + 1) % word = sect + 1 := Nat.mod_eq_of_lt (by omega)
    have hrest := @ih (readDisk disk cur sect mem) fuel (cur + 512) (sect + 1) (by omega) (by omega)
      (by omega) (by omega) (by omega)
    have hshift : ∀ k, (sect + 1) * 512 + k = sect * 512 + (cur + 512 - cur + k) := by
      intro k
      omega
    rw [copyLoop, if_pos (by omega), hcur, hnext, hrest, readDisk_eq (by omega)]
    simp only [hshift]
    rw [overlay_overlay (by omega) (by omega) (fun k ↦ disk 0 (sect * 512 + k)),
      Nat.mul_succ, Nat.add_right_comm, Nat.add_assoc]
    rfl

/-- The ELF file begins behind the boot block and the arguments. -/
def file (disk : Disk) (k : ℕ) : UInt8 := disk 0 (1536 + k)

/-- The arguments, which the build writes to the second and the third sector. -/
def mainargs (disk : Disk) (k : ℕ) : UInt8 := disk 0 (512 + k)

theorem copyFromDisk_eq {buf nbytes sect : ℕ} {offset : ℤ}
    (hsect : ((offset.tdiv sectsize + (argsize / sectsize : ℕ) + 1) % word).toNat = sect)
    (hend : buf + nbytes + 512 ≤ word) (hlt : sect + 0x800000 < 0x10000000) :
    copyFromDisk disk buf nbytes offset mem =
      some (overlay (buf / 512 * 512) ((buf + nbytes + 511) / 512 * 512)
        (fun k ↦ disk 0 (sect * 512 + k)) mem) := by
  have hword : word = 0x100000000 := rfl
  have hed : (buf + nbytes) % word = buf + nbytes := Nat.mod_eq_of_lt (by omega)
  have hlen : buf / 512 * 512 + 512 * ((buf + nbytes + 511) / 512 - buf / 512) =
      (buf + nbytes + 511) / 512 * 512 := by
    omega
  have hfuel : word / sectsize + 1 = 0x800001 := rfl
  have hloop := @copyLoop_eq disk mem (buf + nbytes)
    ((buf + nbytes + 511) / 512 - buf / 512) 0x800001 (buf / 512 * 512) sect
  rw [hlen] at hloop
  rw [copyFromDisk, hsect, hed, hfuel]
  exact hloop (by omega) (by omega) (by omega) (by omega) (by omega)

theorem bssLoop_eq {memsz : ℕ} (n : ℕ) {fuel i bss : ℕ} (hi : i + n = memsz)
    (hmemsz : memsz < word) (hbss : bss + n < word) (hfuel : n < fuel) :
    bssLoop memsz fuel i bss mem = overlay bss (bss + n) (fun _ ↦ 0) mem := by
  induction n generalizing fuel i bss mem with
  | zero =>
    obtain ⟨fuel, rfl⟩ := Nat.exists_eq_add_one_of_ne_zero (Nat.ne_zero_of_lt hfuel)
    rw [bssLoop, if_neg (by omega), overlay_empty (by omega)]
  | succ n ih =>
    obtain ⟨fuel, rfl⟩ := Nat.exists_eq_add_one_of_ne_zero (Nat.ne_zero_of_lt hfuel)
    have hnext : (i + 1) % word = i + 1 := Nat.mod_eq_of_lt (by omega)
    have hcell : (bss + 1) % word = bss + 1 := Nat.mod_eq_of_lt (by omega)
    have hfirst : Function.update mem bss 0 = overlay bss (bss + 1) (fun _ ↦ 0) mem := by
      have hstep := update_overlay (Nat.le_refl bss) (fun _ ↦ (0 : UInt8)) mem
      rw [overlay_empty (Nat.le_refl bss)] at hstep
      exact hstep
    rw [bssLoop, if_pos (by omega), hnext, hcell,
      @ih (Function.update mem bss 0) fuel (i + 1) (bss + 1) (by omega) (by omega) (by omega),
      hfirst, Nat.add_right_comm, Nat.add_assoc bss n 1]
    exact overlay_overlay (by omega) (by omega) (fun _ ↦ 0) mem

structure Segment where
  offset : ℕ
  paddr : ℕ
  filesz : ℕ
  memsz : ℕ
deriving DecidableEq

namespace Segment

variable (s : Segment)

/-- A segment that a linker makes, away from the last sector of the addresses. -/
structure Fits : Prop where
  filesz_le : s.filesz ≤ s.memsz
  memsz_le : s.paddr + s.memsz + 512 ≤ word
  offset_lt : s.offset < 0x80000000

/-- Whole sectors are read, from the one where `paddr` is. -/
def InSectors (x : ℕ) : Prop :=
  s.paddr / 512 * 512 ≤ x ∧ x < (s.paddr + s.filesz + 511) / 512 * 512

def InBss (x : ℕ) : Prop := s.paddr + s.filesz ≤ x ∧ x < s.paddr + s.memsz

def Touches (x : ℕ) : Prop := s.InSectors x ∨ s.InBss x

def Owns (x : ℕ) : Prop := s.paddr ≤ x ∧ x < s.paddr + s.memsz

/-- What `load_program` writes: zeros behind the contents, and sectors of the file. -/
def value (disk : Disk) (x : ℕ) : UInt8 :=
  if s.paddr + s.filesz ≤ x ∧ x < s.paddr + s.memsz then 0
  else file disk (s.offset / 512 * 512 + (x - s.paddr / 512 * 512))

def load (disk : Disk) (mem : Mem) : Mem :=
  overlay (s.paddr + s.filesz) (s.paddr + s.memsz) (fun _ ↦ 0)
    (overlay (s.paddr / 512 * 512) ((s.paddr + s.filesz + 511) / 512 * 512)
      (fun k ↦ file disk (s.offset / 512 * 512 + k)) mem)

variable {s} {x : ℕ}

theorem load_outside (h : ¬ s.Touches x) : s.load disk mem x = mem x := by
  rw [Touches, not_or] at h
  rw [load, overlay_outside h.2, overlay_outside h.1]

theorem load_touched (h : s.Touches x) : s.load disk mem x = s.value disk x := by
  rw [load, value]
  by_cases hbss : s.paddr + s.filesz ≤ x ∧ x < s.paddr + s.memsz
  · rw [if_pos hbss, overlay_inside hbss.1 hbss.2]
  · obtain ⟨hlo, hhi⟩ := h.resolve_right hbss
    rw [if_neg hbss, overlay_outside hbss, overlay_inside hlo hhi]

theorem Owns.touches (h : s.Owns x) : s.Touches x := by
  obtain ⟨hlo, hhi⟩ := h
  by_cases hx : x < s.paddr + s.filesz
  · exact Or.inl ⟨by omega, by omega⟩
  · exact Or.inr ⟨by omega, hhi⟩

theorem value_of_contents {k : ℕ} (hk : k < s.filesz) :
    s.value disk (s.paddr + k) = file disk (s.offset / 512 * 512 + s.paddr % 512 + k) := by
  have hat : s.offset / 512 * 512 + (s.paddr + k - s.paddr / 512 * 512) =
      s.offset / 512 * 512 + s.paddr % 512 + k := by
    omega
  rw [value, if_neg (by omega), hat]

theorem value_of_bss {k : ℕ} (hlo : s.filesz ≤ k) (hhi : k < s.memsz) :
    s.value disk (s.paddr + k) = 0 := by
  rw [value, if_pos (by omega)]

theorem loadProgram_eq (h : s.Fits) :
    loadProgram disk s.filesz s.memsz s.paddr s.offset mem = some (s.load disk mem) := by
  obtain ⟨hfilesz, hmemsz, hoffset⟩ := h
  have hword : word = 0x100000000 := rfl
  have hint : Int.bmod s.offset word = s.offset := Int.bmod_eq_of_le (by omega) (by omega)
  have hsect : (((s.offset : ℤ).tdiv sectsize + (argsize / sectsize : ℕ) + 1) % word).toNat =
      s.offset / 512 + 3 := by
    have hdiv : (s.offset : ℤ).tdiv sectsize = ((s.offset / 512 : ℕ) : ℤ) := rfl
    have hargs : argsize / sectsize = 2 := rfl
    rw [hdiv, hargs, hword]
    omega
  have hfile : (fun k ↦ disk 0 ((s.offset / 512 + 3) * 512 + k)) =
      fun k ↦ file disk (s.offset / 512 * 512 + k) := by
    funext k
    rw [file, Nat.add_mul, Nat.add_right_comm, Nat.add_comm _ (3 * 512)]
  have hbss : (s.paddr + s.filesz) % word = s.paddr + s.filesz := Nat.mod_eq_of_lt (by omega)
  have hmem : s.paddr + s.filesz + (s.memsz - s.filesz) = s.paddr + s.memsz := by omega
  rw [loadProgram, hint, copyFromDisk_eq hsect (by omega) (by omega), hfile, hbss, Option.map_some,
    bssLoop_eq (s.memsz - s.filesz) (by omega) (by omega) (by omega) (by omega), hmem]
  rfl

end Segment

/-- The program header at `ph` of the file. -/
def segmentAt (layout : ElfLayout) (f : Mem) (ph : ℕ) : Segment where
  offset := u32 f (ph + layout.offset)
  paddr := u32 f (ph + layout.paddr)
  filesz := u32 f (ph + layout.filesz)
  memsz := u32 f (ph + layout.memsz)

def layoutOf (disk : Disk) : ElfLayout := layoutAt (file disk) 0

def phoff (disk : Disk) : ℕ := u32 (file disk) (layoutOf disk).phoff

def phnum (disk : Disk) : ℕ := u16 (file disk) (layoutOf disk).phnum

/-- The segments that the headers of the file describe. -/
def segments (disk : Disk) : List Segment :=
  (List.range (phnum disk)).map fun i ↦
    segmentAt (layoutOf disk) (file disk) (phoff disk + i * (layoutOf disk).phentsize)

/-- The addresses of the boot block, the header and the stack below `0xa000`. -/
def LoaderAt (x : ℕ) : Prop := 0x7c00 ≤ x ∧ x < 0xa000

/-- An image that a linker makes for this loader: the headers are in the first page of the file,
no segment comes near the loader, and the sectors and zeros that are written over an earlier one
are what it has there. -/
structure Loadable (disk : Disk) : Prop where
  headers : phoff disk + phnum disk * (layoutOf disk).phentsize ≤ 4096
  fits : ∀ s ∈ segments disk, s.Fits
  apart : ∀ s ∈ segments disk, ∀ x, LoaderAt x → ¬ s.Touches x
  agree : (segments disk).Pairwise fun s t ↦
    ∀ x, s.Owns x → t.Touches x → t.value disk x = s.value disk x

/-- The header page is in memory. -/
def HeaderIn (disk : Disk) (mem : Mem) : Prop := ∀ k < 4096, mem (elfAddr + k) = file disk k

section Fields

variable {a : ℕ}

theorem HeaderIn.u16_eq (h : HeaderIn disk mem) (ha : a + 2 ≤ 4096) :
    u16 mem (elfAddr + a) = u16 (file disk) a := by
  have hword : word = 0x100000000 := rfl
  have helf : elfAddr = 0x8000 := rfl
  have hfirst : (elfAddr + a) % word = elfAddr + a := Nat.mod_eq_of_lt (by omega)
  have hsecond : (elfAddr + a + 1) % word = elfAddr + (a + 1) := Nat.mod_eq_of_lt (by omega)
  have hfile : a % word = a := Nat.mod_eq_of_lt (by omega)
  have hnext : (a + 1) % word = a + 1 := Nat.mod_eq_of_lt (by omega)
  rw [u16, u16, hfirst, hsecond, hfile, hnext, h a (by omega), h (a + 1) (by omega)]

theorem HeaderIn.u32_eq (h : HeaderIn disk mem) (ha : a + 4 ≤ 4096) :
    u32 mem (elfAddr + a) = u32 (file disk) a := by
  rw [u32, u32, h.u16_eq (by omega), Nat.add_assoc elfAddr a 2, h.u16_eq (by omega)]

theorem u16_lt (mem : Mem) (a : ℕ) : u16 mem a < 65536 := by
  have hlow := (mem (a % word)).toNat_lt
  have hhigh := (mem ((a + 1) % word)).toNat_lt
  rw [u16]
  omega

/-- The fields of the layouts are in the ELF header and in a program header. -/
structure ElfLayout.Lawful (layout : ElfLayout) : Prop where
  phoff_le : layout.phoff + 4 ≤ 64
  phnum_le : layout.phnum + 2 ≤ 64
  offset_le : layout.offset + 4 ≤ layout.phentsize
  paddr_le : layout.paddr + 4 ≤ layout.phentsize
  filesz_le : layout.filesz + 4 ≤ layout.phentsize
  memsz_le : layout.memsz + 4 ≤ layout.phentsize

theorem layoutAt_lawful (mem : Mem) (elf : ℕ) : (layoutAt mem elf).Lawful := by
  rw [layoutAt]
  split
  · constructor <;> decide
  · constructor <;> decide

theorem HeaderIn.segmentAt_eq (h : HeaderIn disk mem) {layout : ElfLayout} (hlaw : layout.Lawful)
    {ph : ℕ} (hph : ph + layout.phentsize ≤ 4096) :
    segmentAt layout mem (elfAddr + ph) = segmentAt layout (file disk) ph := by
  obtain ⟨-, -, hoffset, hpaddr, hfilesz, hmemsz⟩ := hlaw
  have hoff := @HeaderIn.u32_eq disk mem (ph + layout.offset) h (by omega)
  have haddr := @HeaderIn.u32_eq disk mem (ph + layout.paddr) h (by omega)
  have hfile := @HeaderIn.u32_eq disk mem (ph + layout.filesz) h (by omega)
  have hmem := @HeaderIn.u32_eq disk mem (ph + layout.memsz) h (by omega)
  simp only [← Nat.add_assoc] at hoff haddr hfile hmem
  rw [segmentAt, segmentAt, hoff, haddr, hfile, hmem]

end Fields

theorem HeaderIn.load {s : Segment} (h : HeaderIn disk mem)
    (hs : ∀ x, LoaderAt x → ¬ s.Touches x) : HeaderIn disk (s.load disk mem) := by
  intro k hk
  have helf : elfAddr = 0x8000 := rfl
  rw [s.load_outside (hs _ ⟨by omega, by omega⟩), h k hk]

/-- The loop loads the segments whose headers are still to come. -/
theorem loadLoop_eq {layout : ElfLayout} (hlaw : layout.Lawful) {off num : ℕ}
    (hnum : u16 (file disk) layout.phnum = num) (hheaders : off + num * layout.phentsize ≤ 4096)
    (n : ℕ) {fuel i : ℕ} (hi : i + n = num) (hfuel : n < fuel) (h : HeaderIn disk mem)
    (hs : ∀ k, i ≤ k → k < num →
      (segmentAt layout (file disk) (off + k * layout.phentsize)).Fits ∧
        ∀ x, LoaderAt x →
          ¬ (segmentAt layout (file disk) (off + k * layout.phentsize)).Touches x) :
    loadLoop disk layout elfAddr fuel i (elfAddr + (off + i * layout.phentsize)) mem =
      some (((List.range' i n).map fun k ↦
        segmentAt layout (file disk) (off + k * layout.phentsize)).foldl
          (fun mem s ↦ s.load disk mem) mem) := by
  have hcount : u16 mem (elfAddr + layout.phnum) = num := by
    have := hlaw.phnum_le
    rw [h.u16_eq (by omega), hnum]
  induction n generalizing fuel i mem with
  | zero =>
    obtain ⟨fuel, rfl⟩ := Nat.exists_eq_add_one_of_ne_zero (Nat.ne_zero_of_lt hfuel)
    rw [loadLoop, hcount, if_neg (by omega)]
    rfl
  | succ n ih =>
    obtain ⟨fuel, rfl⟩ := Nat.exists_eq_add_one_of_ne_zero (Nat.ne_zero_of_lt hfuel)
    obtain ⟨hfits, hapart⟩ := hs i (Nat.le_refl i) (by omega)
    have hinside : off + i * layout.phentsize + layout.phentsize ≤ 4096 := by
      have hmono : (i + 1) * layout.phentsize ≤ num * layout.phentsize :=
        Nat.mul_le_mul_right _ (by omega)
      rw [Nat.add_one_mul] at hmono
      omega
    have hseg := h.segmentAt_eq hlaw hinside
    have hload := @Segment.loadProgram_eq disk mem _ hfits
    rw [← hseg] at hload
    have hnext : (elfAddr + (off + i * layout.phentsize) + layout.phentsize) % word =
        elfAddr + (off + (i + 1) * layout.phentsize) := by
      have helf : elfAddr = 0x8000 := rfl
      have hword : word = 0x100000000 := rfl
      rw [Nat.add_one_mul, hword]
      omega
    have hkept := h.load hapart
    have hcount' : u16 ((segmentAt layout (file disk) (off + i * layout.phentsize)).load disk mem)
        (elfAddr + layout.phnum) = num := by
      have := hlaw.phnum_le
      rw [hkept.u16_eq (by omega), hnum]
    have hrest := @ih _ fuel (i + 1) (by omega) (by omega) hkept
      (fun k hk ↦ hs k (by omega)) hcount'
    rw [loadLoop, hcount, if_pos (by omega)]
    simp only [segmentAt] at hload
    rw [hload]
    simp only [hnext]
    rw [List.range'_succ, List.map_cons, List.foldl_cons, ← hrest, ← hseg]
    rfl

/-- The memory before the segments are loaded: the arguments and the header page are in it. -/
def prepared (disk : Disk) (mem : Mem) : Mem :=
  overlay elfAddr (elfAddr + 4096) (file disk)
    (overlay mainargAddr (mainargAddr + 1024) (mainargs disk) mem)

theorem headerIn_prepared : HeaderIn disk (prepared disk mem) := by
  intro k hk
  rw [prepared, overlay_inside (Nat.le_add_right _ k) (by omega), Nat.add_sub_cancel_left]

/-- The segments loaded one after another. -/
def loaded (disk : Disk) (mem : Mem) : Mem :=
  (segments disk).foldl (fun mem s ↦ s.load disk mem) (prepared disk mem)

theorem loaded_outside {x : ℕ} (hx : ∀ s ∈ segments disk, ¬ s.Touches x) :
    loaded disk mem x = prepared disk mem x :=
  foldl_write_of_agree (fun _ _ _ ↦ Segment.load_outside) (fun _ _ _ ↦ Segment.load_touched)
    (fun s hs ht ↦ absurd ht (hx s hs)) rfl

theorem Loadable.loaded_owned (h : Loadable disk) {s : Segment} (hs : s ∈ segments disk) {x : ℕ}
    (hx : s.Owns x) : loaded disk mem x = s.value disk x :=
  foldl_write_owned (fun _ _ _ ↦ Segment.load_outside) (fun _ _ _ ↦ Segment.load_touched)
    (fun _ _ ↦ Segment.Owns.touches) h.agree hs hx

theorem Loadable.headerIn_loaded (h : Loadable disk) (mem : Mem) :
    HeaderIn disk (loaded disk mem) := by
  intro k hk
  have helf : elfAddr = 0x8000 := rfl
  rw [loaded_outside fun s hs ↦ h.apart s hs _ ⟨by omega, by omega⟩, headerIn_prepared k hk]

theorem HeaderIn.entryAt_eq (h : HeaderIn disk mem) :
    entryAt mem elfAddr = entryAt (file disk) 0 := by
  rw [entryAt, h.u32_eq (by decide), entryAt, Nat.zero_add]

theorem Loadable.loadKernel_eq (h : Loadable disk) :
    loadKernel disk false mem = some (loaded disk mem, entryAt (file disk) 0) := by
  have hargs : copyFromDisk disk mainargAddr 1024 (-1024) mem =
      some (overlay mainargAddr (mainargAddr + 1024) (mainargs disk) mem) :=
    @copyFromDisk_eq disk mem mainargAddr 1024 1 (-1024) rfl (by decide) (by decide)
  have hfile : ∀ m, copyFromDisk disk elfAddr 4096 0 m =
      some (overlay elfAddr (elfAddr + 4096) (file disk) m) :=
    fun m ↦ @copyFromDisk_eq disk m elfAddr 4096 3 0 rfl (by decide) (by decide)
  have hin := @headerIn_prepared disk mem
  have hlaw := layoutAt_lawful (file disk) 0
  have hlayout : layoutAt (prepared disk mem) elfAddr = layoutOf disk := by
    rw [layoutAt, hin.u16_eq (by decide), layoutOf, layoutAt, Nat.zero_add]
  have hphoff : u32 (prepared disk mem) (elfAddr + (layoutOf disk).phoff) = phoff disk := by
    have := hlaw.phoff_le
    exact hin.u32_eq (by rw [layoutOf]; omega)
  have hstart : (elfAddr + phoff disk) % word =
      elfAddr + (phoff disk + 0 * (layoutOf disk).phentsize) := by
    have hword : word = 0x100000000 := rfl
    have helf : elfAddr = 0x8000 := rfl
    have := h.headers
    rw [hword, Nat.zero_mul]
    omega
  have hmem : ∀ k < phnum disk, segmentAt (layoutOf disk) (file disk)
      (phoff disk + k * (layoutOf disk).phentsize) ∈ segments disk :=
    fun k hk ↦ List.mem_map_of_mem (List.mem_range.mpr hk)
  have hloop := @loadLoop_eq disk (prepared disk mem) (layoutOf disk) hlaw (phoff disk)
    (phnum disk) rfl h.headers (phnum disk) 65536 0 (Nat.zero_add _) (u16_lt _ _) hin
    (fun k _ hk ↦ ⟨h.fits _ (hmem k hk), h.apart _ (hmem k hk)⟩)
  rw [← List.range_eq_range'] at hloop
  have helf : loadElf disk (layoutOf disk) elfAddr (prepared disk mem) =
      some (loaded disk mem) := by
    rw [loadElf, hphoff, hstart, hloop]
    rfl
  have hentry := (h.headerIn_loaded mem).entryAt_eq
  have hprepared : overlay elfAddr (elfAddr + 4096) (file disk)
      (overlay mainargAddr (mainargAddr + 1024) (mainargs disk) mem) = prepared disk mem := rfl
  rw [loadKernel]
  simp only [Bool.false_eq_true, if_false, hargs, bind, Option.bind]
  rw [hfile]
  simp only [hprepared, hlayout, helf, hentry]
  rfl

/-- Every segment of a loadable image is in memory, its zeros included, from where its address
stands in a sector, which is its offset where the two are congruent; the rest of the memory holds
the arguments and the header and is kept elsewhere, and the entry is that of the image. The other
processors, which load nothing, jump to the same entry. -/
theorem loadKernel_spec (h : Loadable disk) (mem : Mem) :
    ∃ mem', loadKernel disk false mem = some (mem', entryAt (file disk) 0) ∧
      (∀ s ∈ segments disk,
        (∀ k, s.filesz ≤ k → k < s.memsz → mem' (s.paddr + k) = 0) ∧
        (∀ k < s.filesz,
          mem' (s.paddr + k) = file disk (s.offset / 512 * 512 + s.paddr % 512 + k)) ∧
        (s.paddr % 512 = s.offset % 512 →
          ∀ k < s.filesz, mem' (s.paddr + k) = file disk (s.offset + k))) ∧
      (∀ x, (∀ s ∈ segments disk, ¬ s.Touches x) → mem' x = prepared disk mem x) ∧
      ∀ mem'', (∀ x, LoaderAt x → mem'' x = mem' x) →
        loadKernel disk true mem'' = some (mem'', entryAt (file disk) 0) := by
  refine ⟨loaded disk mem, h.loadKernel_eq, ?_, fun x ↦ loaded_outside, ?_⟩
  · intro s hs
    have hcontents : ∀ k < s.filesz, loaded disk mem (s.paddr + k) =
        file disk (s.offset / 512 * 512 + s.paddr % 512 + k) := by
      intro k hk
      have hle := (h.fits s hs).filesz_le
      rw [h.loaded_owned hs ⟨by omega, by omega⟩, Segment.value_of_contents hk]
    refine ⟨?_, hcontents, ?_⟩
    · intro k hlo hhi
      rw [h.loaded_owned hs ⟨by omega, by omega⟩, Segment.value_of_bss hlo hhi]
    · intro hcong k hk
      have hat : s.offset / 512 * 512 + s.paddr % 512 + k = s.offset + k := by omega
      rw [hcontents k hk, hat]
  · intro mem'' hsame
    have hin : HeaderIn disk mem'' := by
      intro k hk
      have helf : elfAddr = 0x8000 := rfl
      rw [hsame _ ⟨by omega, by omega⟩, h.headerIn_loaded mem k hk]
    rw [loadKernel]
    simp only [if_true, bind, Option.bind, hin.entryAt_eq]
    rfl

def littleEndian (n : ℕ) : List UInt8 :=
  [UInt8.ofNat n, UInt8.ofNat (n / 256), UInt8.ofNat (n / 65536), UInt8.ofNat (n / 16777216)]

def sampleProgramHeader (s : Segment) : List UInt8 :=
  List.replicate 8 0 ++ littleEndian s.offset ++ List.replicate 12 0 ++ littleEndian s.paddr ++
    List.replicate 4 0 ++ littleEndian s.filesz ++ List.replicate 4 0 ++ littleEndian s.memsz ++
      List.replicate 12 0

/-- The data begin in the sector where the text ends. -/
def sampleSegments : List Segment :=
  [⟨0xb0, 0x1000b0, 0x250, 0x250⟩, ⟨0x300, 0x100300, 0x40, 0x1000⟩]

def sampleImage : List UInt8 :=
  List.replicate 18 0 ++ [62, 0, 0, 0, 0, 0] ++ littleEndian 0x1000b0 ++ List.replicate 4 0 ++
    littleEndian 64 ++ List.replicate 20 0 ++ [2, 0] ++ List.replicate 6 0 ++
      sampleSegments.flatMap sampleProgramHeader

def sampleDisk : Disk := fun _ k ↦ sampleImage.getD (k - 1536) 7

theorem segments_sampleDisk : segments sampleDisk = sampleSegments := by decide +kernel

theorem loadable_sampleDisk : Loadable sampleDisk := by
  have hword : word = 0x100000000 := rfl
  have hfits : ∀ s ∈ sampleSegments, s.Fits ∧ ∀ x, LoaderAt x → ¬ s.Touches x := by
    intro s hs
    simp only [sampleSegments, List.mem_cons, List.not_mem_nil, or_false] at hs
    obtain rfl | rfl := hs
    · refine ⟨⟨by decide, by decide, by decide⟩, ?_⟩
      simp only [LoaderAt, Segment.Touches, Segment.InSectors, Segment.InBss]
      omega
    · refine ⟨⟨by decide, by decide, by decide⟩, ?_⟩
      simp only [LoaderAt, Segment.Touches, Segment.InSectors, Segment.InBss]
      omega
  refine ⟨by decide +kernel, ?_, ?_, ?_⟩ <;> rw [segments_sampleDisk]
  · exact fun s hs ↦ (hfits s hs).1
  · exact fun s hs ↦ (hfits s hs).2
  · refine List.pairwise_pair.mpr fun x hx ht ↦ ?_
    simp only [Segment.Owns, Segment.Touches, Segment.InSectors, Segment.InBss] at hx ht
    simp only [Segment.value]
    rw [if_neg (by omega), if_neg (by omega)]
    refine congrArg (file sampleDisk) ?_
    omega

theorem sample_loadKernel : ∃ mem',
    loadKernel sampleDisk false (fun _ ↦ 1) = some (mem', 0x1000b0) ∧
      mem' 0x1002ff = file sampleDisk 0x2ff ∧ mem' 0x10033f = file sampleDisk 0x33f ∧
        mem' 0x100340 = 0 := by
  obtain ⟨mem', hrun, hsegments, -⟩ := loadKernel_spec loadable_sampleDisk fun _ ↦ 1
  have htext := (hsegments ⟨0xb0, 0x1000b0, 0x250, 0x250⟩ (by rw [segments_sampleDisk]; decide)).2.2
    rfl
  have hdata := hsegments ⟨0x300, 0x100300, 0x40, 0x1000⟩ (by rw [segments_sampleDisk]; decide)
  refine ⟨mem', hrun.trans ?_, htext 0x24f (by decide), hdata.2.2 rfl 0x3f (by decide),
    hdata.1 0x40 (by decide) (by decide)⟩
  have hentry : entryAt (file sampleDisk) 0 = 0x1000b0 := by decide +kernel
  rw [hentry]

end OsWorkbench.Am.Boot
