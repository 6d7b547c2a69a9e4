import OsWorkbench.Fsrecov.Walk

namespace OsWorkbench.Fsrecov

/-- The header fields that decide where things lie in a volume. -/
structure Geometry where
  bytsPerSec : ℕ
  secPerClus : ℕ
  rsvdSecCnt : ℕ
  numFATs : ℕ
  fatSz32 : ℕ
  totSec32 : ℕ

namespace Geometry

variable (g : Geometry)

def dataStart : ℕ := (g.rsvdSecCnt + g.numFATs * g.fatSz32) * g.bytsPerSec

/-- The bytes in front of the data area: the header, and empty FATs. -/
def headerByte : ℕ → UInt8
  | 11 => UInt8.ofNat g.bytsPerSec
  | 12 => UInt8.ofNat (g.bytsPerSec / 256)
  | 13 => UInt8.ofNat g.secPerClus
  | 14 => UInt8.ofNat g.rsvdSecCnt
  | 15 => UInt8.ofNat (g.rsvdSecCnt / 256)
  | 16 => UInt8.ofNat g.numFATs
  | 32 => UInt8.ofNat g.totSec32
  | 33 => UInt8.ofNat (g.totSec32 / 256)
  | 34 => UInt8.ofNat (g.totSec32 / 65536)
  | 35 => UInt8.ofNat (g.totSec32 / 16777216)
  | 36 => UInt8.ofNat g.fatSz32
  | 37 => UInt8.ofNat (g.fatSz32 / 256)
  | 38 => UInt8.ofNat (g.fatSz32 / 65536)
  | 39 => UInt8.ofNat (g.fatSz32 / 16777216)
  | 510 => 0x55
  | 511 => 0xAA
  | _ => 0

/-- A volume with this header, given slot by slot from the beginning of its data area. -/
def format (slot : ℕ → Entry) : Image where
  byte p :=
    if p < g.dataStart then g.headerByte p.toNat
    else (slot ((p - g.dataStart).toNat / 32)).u8 (p - g.dataStart).toNat

theorem entry_format (slot : ℕ → Entry) (k : ℕ) :
    (g.format slot).entry (g.dataStart + entrySize * k) = slot k := by
  funext i
  have hoff : ((g.dataStart : ℤ) + entrySize * k + i.val - g.dataStart).toNat = 32 * k + i.val := by
    simp only [entrySize]
    omega
  have hge : ¬ ((g.dataStart : ℤ) + entrySize * k + i.val < g.dataStart) := by
    simp only [entrySize]
    omega
  have hdiv : (32 * k + i.val) / 32 = k := by omega
  simp only [Image.entry, format, Entry.u8, hge, if_false, hoff, hdiv]
  congr 1
  exact Fin.ext (by simp [Fin.ofNat, Nat.add_mod, Nat.mod_eq_of_lt i.isLt])

structure Fits : Prop where
  bytsPerSec : g.bytsPerSec < 2 ^ 16
  secPerClus : g.secPerClus < 2 ^ 8
  rsvdSecCnt : g.rsvdSecCnt < 2 ^ 16
  numFATs : g.numFATs < 2 ^ 8
  fatSz32 : g.fatSz32 < 2 ^ 32
  totSec32 : g.totSec32 < 2 ^ 32
  header : 512 ≤ g.dataStart

variable {g} (slot : ℕ → Entry)

theorem byte_format (h : g.Fits) {p : ℕ} (hp : p < 512) :
    (g.format slot).byte p = g.headerByte p := by
  have := h.header
  simp only [format, Int.toNat_natCast]
  rw [if_pos (by omega)]

theorem u16_format (h : g.Fits) {p : ℕ} (hp : p + 1 < 512) :
    (g.format slot).u16 p = (g.headerByte p).toNat + 256 * (g.headerByte (p + 1)).toNat := by
  have h' := byte_format slot h hp
  rw [Image.u16, byte_format slot h (by omega), ← h']
  rfl

theorem u32_format (h : g.Fits) {p : ℕ} (hp : p + 3 < 512) :
    (g.format slot).u32 p = (g.headerByte p).toNat + 256 * (g.headerByte (p + 1)).toNat +
      65536 * ((g.headerByte (p + 2)).toNat + 256 * (g.headerByte (p + 3)).toNat) := by
  have h' := u16_format slot h (p := p + 2) (by omega)
  rw [Image.u32, u16_format slot h (by omega), ← h']
  rfl

theorem read_format (h : g.Fits) :
    (g.format slot).bpbBytsPerSec = g.bytsPerSec ∧ (g.format slot).bpbSecPerClus = g.secPerClus ∧
    (g.format slot).bpbRsvdSecCnt = g.rsvdSecCnt ∧ (g.format slot).bpbNumFATs = g.numFATs ∧
    (g.format slot).bpbFATSz32 = g.fatSz32 ∧ (g.format slot).bpbTotSec32 = g.totSec32 := by
  have h11 := u16_format slot h (p := 11) (by omega)
  have h13 := congrArg UInt8.toNat (byte_format slot h (p := 13) (by omega))
  have h14 := u16_format slot h (p := 14) (by omega)
  have h16 := congrArg UInt8.toNat (byte_format slot h (p := 16) (by omega))
  have h32 := u32_format slot h (p := 32) (by omega)
  have h36 := u32_format slot h (p := 36) (by omega)
  have hf := h
  obtain ⟨_, _, _, _, _, _, -⟩ := hf
  simp only [headerByte, UInt8.toNat_ofNat', Nat.reduceAdd, Nat.cast_ofNat] at h11 h13 h14 h16 h32 h36
  simp only [Image.bpbBytsPerSec, Image.bpbSecPerClus, Image.bpbRsvdSecCnt, Image.bpbNumFATs,
    Image.bpbFATSz32, Image.bpbTotSec32]
  omega

end Geometry

def smallGeometry : Geometry := ⟨512, 1, 1, 1, 1, 5⟩

def pagedGeometry : Geometry := ⟨512, 2, 1, 1, 1, 8⟩

def slotOfBytes (bytes : List UInt8) : Entry := fun i ↦ bytes.getD i 0

end OsWorkbench.Fsrecov
