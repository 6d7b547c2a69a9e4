import Mathlib.Data.List.Basic
import Mathlib.Data.Nat.Bitwise
import Mathlib.Data.Fin.Basic

namespace OsWorkbench.Fsrecov

/-- The 32 bytes of one directory slot; `struct fat32dent` and
`struct fat32lfn` are two readings of them. -/
abbrev Entry := Fin 32 → UInt8

def toInt32 (x : ℤ) : ℤ := Int.bmod x (2 ^ 32)

theorem toInt32_of_bounds {x : ℤ} (h : -2 ^ 31 ≤ x) (h' : x < 2 ^ 31) : toInt32 x = x := by
  unfold toInt32
  exact Int.bmod_eq_of_le (by omega) (by omega)

namespace Entry

def u8 (e : Entry) (i : ℕ) : UInt8 := e (Fin.ofNat 32 i)

def u16 (e : Entry) (i : ℕ) : ℕ := (e.u8 i).toNat + 256 * (e.u8 (i + 1)).toNat

def u32 (e : Entry) (i : ℕ) : ℕ := e.u16 i + 65536 * e.u16 (i + 2)

theorem u16_lt (e : Entry) (i : ℕ) : e.u16 i < 65536 := by
  have h := (e.u8 i).toNat_lt
  have h' := (e.u8 (i + 1)).toNat_lt
  unfold u16
  omega

def dirName (e : Entry) : List UInt8 := (List.range 11).map e.u8
def dirName0 (e : Entry) : UInt8 := e.u8 0
def dirAttr (e : Entry) : UInt8 := e.u8 11
def dirNTRes (e : Entry) : UInt8 := e.u8 12
def dirFstClusHI (e : Entry) : ℕ := e.u16 20
def dirFstClusLO (e : Entry) : ℕ := e.u16 26
def dirFileSize (e : Entry) : ℕ := e.u32 28

def ldirOrd (e : Entry) : UInt8 := e.u8 0
def ldirName1 (e : Entry) (i : ℕ) : ℕ := e.u16 (1 + 2 * i)
def ldirAttr (e : Entry) : UInt8 := e.u8 11
def ldirType (e : Entry) : UInt8 := e.u8 12
def ldirChksum (e : Entry) : UInt8 := e.u8 13
def ldirName2 (e : Entry) (i : ℕ) : ℕ := e.u16 (14 + 2 * i)
def ldirFstClusLO (e : Entry) : ℕ := e.u16 26
def ldirName3 (e : Entry) (i : ℕ) : ℕ := e.u16 (28 + 2 * i)

/-- `dent->DIR_FstClusHI << 16 | dent->DIR_FstClusLO`, computed in `int`. -/
def clusNum (e : Entry) : ℤ := toInt32 ((e.dirFstClusHI <<< 16 ||| e.dirFstClusLO : ℕ) : ℤ)

theorem clusNum_eq (e : Entry) :
    e.clusNum = toInt32 (65536 * e.dirFstClusHI + e.dirFstClusLO) := by
  have h : e.dirFstClusLO < 2 ^ 16 := e.u16_lt 26
  have hor := Nat.shiftLeft_add_eq_or_of_lt h e.dirFstClusHI
  rw [clusNum, ← hor, Nat.shiftLeft_eq, Nat.mul_comm]
  push_cast
  rfl

end Entry

def attrReadOnly : UInt8 := 0x01
def attrHidden : UInt8 := 0x02
def attrSystem : UInt8 := 0x04
def attrVolumeId : UInt8 := 0x08
def attrDirectory : UInt8 := 0x10
def attrLongName : UInt8 := attrReadOnly ||| attrHidden ||| attrSystem ||| attrVolumeId
def lastLongEntry : UInt8 := 0x40

variable (totalClusters : ℤ)

def isDirentBasic (e : Entry) : Bool :=
  if e.dirName0 = 0x00 then false
  else if e.dirAttr &&& 0b11000000 ≠ 0 then false
  else if e.dirNTRes ≠ 0 then false
  -- dot entries and deleted entries may carry cluster 0
  else if e.dirName0 = 0x2E ∨ e.dirName0 = 0xE5 then true
  else if e.clusNum < 2 ∨ totalClusters + 1 < e.clusNum then false
  else if 64 * 1024 * 1024 < e.dirFileSize then false
  else true

def isDirentLong (e : Entry) : Bool :=
  let ord := e.ldirOrd &&& ~~~lastLongEntry
  if ord = 0 ∨ 20 < ord then false
  else if e.ldirAttr ≠ attrLongName then false
  else if e.ldirType ≠ 0 then false
  else if e.ldirFstClusLO ≠ 0 then false
  else true

def isDirentClusterPossibly (e : Entry) : Bool :=
  isDirentBasic totalClusters e || isDirentLong e

theorem forall_ord {P : UInt8 → Prop}
    (hP : ∀ n < 21, 1 ≤ n → P (UInt8.ofNat n) ∧ P (UInt8.ofNat n ||| lastLongEntry))
    {n : ℕ} (hn : 1 ≤ n) (hn' : n ≤ 20) {o : UInt8}
    (ho : o = UInt8.ofNat n ∨ o = UInt8.ofNat n ||| lastLongEntry) : P o := by
  obtain ⟨hplain, hlast⟩ := hP n (Nat.lt_succ_of_le hn') hn
  rcases ho with rfl | rfl
  · exact hplain
  · exact hlast

theorem isDirentLong_of_ord {e : Entry} {n : ℕ} (hn : 1 ≤ n) (hn' : n ≤ 20)
    (ho : e.ldirOrd = UInt8.ofNat n ∨ e.ldirOrd = UInt8.ofNat n ||| lastLongEntry)
    (ha : e.ldirAttr = attrLongName) (ht : e.ldirType = 0) (hc : e.ldirFstClusLO = 0) :
    isDirentLong e = true := by
  have hord := forall_ord (P := fun o ↦
    ¬ (o &&& ~~~lastLongEntry = 0 ∨ 20 < o &&& ~~~lastLongEntry)) (by decide) hn hn' ho
  simp [isDirentLong, hord, ha, ht, hc]

/-- The ordinal of a long entry that does not begin a name. -/
theorem ldirOrd_of_isDirentLong {e : Entry} (h : isDirentLong e = true)
    (hlast : e.ldirOrd &&& lastLongEntry = 0) : 1 ≤ e.ldirOrd.toNat ∧ e.ldirOrd.toNat ≤ 20 := by
  have hmask : e.ldirOrd &&& ~~~lastLongEntry = e.ldirOrd := by
    calc e.ldirOrd &&& ~~~lastLongEntry
        = (e.ldirOrd &&& ~~~lastLongEntry) ||| (e.ldirOrd &&& lastLongEntry) := by simp [hlast]
      _ = e.ldirOrd &&& (~~~lastLongEntry ||| lastLongEntry) :=
        UInt8.toBitVec_inj.mp BitVec.and_or_distrib_left.symm
      _ = e.ldirOrd := by simp [show ~~~lastLongEntry ||| lastLongEntry = -1 by decide]
  simp only [isDirentLong, hmask] at h
  split_ifs at h with hord
  rw [not_or, UInt8.not_lt] at hord
  have hpos : e.ldirOrd.toNat ≠ 0 := fun h0 ↦ hord.1 (UInt8.toNat_inj.mp h0)
  have hle := UInt8.le_iff_toNat_le.mp hord.2
  exact ⟨Nat.pos_of_ne_zero hpos, hle⟩

/-- In a volume of this size a long entry, read as a short one, has a cluster
number out of range. -/
theorem isDirentBasic_of_isDirentLong {totalClusters : ℤ} (htc : totalClusters ≤ 65534) {e : Entry}
    (h : isDirentLong e = true) : isDirentBasic totalClusters e = false := by
  simp only [isDirentLong] at h
  split_ifs at h with hord hattr htype hclus
  have hname : ¬ (e.dirName0 = 0x2E ∨ e.dirName0 = 0xE5) := by
    intro hn
    have hn' : e.ldirOrd = 0x2E ∨ e.ldirOrd = 0xE5 := hn
    apply hord
    rcases hn' with hn' | hn' <;> rw [hn'] <;> decide
  have hrange : e.clusNum < 2 ∨ totalClusters + 1 < e.clusNum := by
    have hlo : e.dirFstClusLO = 0 := not_not.mp hclus
    have hhi : e.dirFstClusHI < 65536 := e.u16_lt 20
    rw [Entry.clusNum_eq, hlo, toInt32, Int.bmod_def]
    split_ifs <;> omega
  simp only [isDirentBasic, if_neg hname, if_pos hrange, ite_self]

def checksumStep (sum b : UInt8) : UInt8 :=
  (if sum &&& 1 ≠ 0 then (0x80 : UInt8) else 0) + (sum >>> 1) + b

/-- `calc_checksum`; the 11 bytes are consumed from the front of the name. -/
def calcChecksum (fcbName : List UInt8) : UInt8 := (fcbName.take 11).foldl checksumStep 0

end OsWorkbench.Fsrecov
