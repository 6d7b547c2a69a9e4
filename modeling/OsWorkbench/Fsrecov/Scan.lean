import OsWorkbench.Fsrecov.Dirent
import OsWorkbench.Library.CString
import OsWorkbench.Library.Fallible

namespace OsWorkbench.Fsrecov

open Library

/-- The mapped file. Pointers are offsets from `disk_base`; reading outside the
file gives arbitrary bytes. -/
structure Image where
  byte : ℤ → UInt8

/-- What the C code leaves undefined or ends by `assert`. -/
inductive Fault
  | arrayOverflow
  | assertion
  | nullPointer
  | bufferOverflow
  deriving DecidableEq, Repr

/-- `sizeof(struct fat32dent)`. -/
def entrySize : ℤ := 32

namespace Image

variable (img : Image)

def u16 (p : ℤ) : ℕ := (img.byte p).toNat + 256 * (img.byte (p + 1)).toNat
def u32 (p : ℤ) : ℕ := img.u16 p + 65536 * img.u16 (p + 2)

def entry (p : ℤ) : Entry := fun i ↦ img.byte (p + i.val)

def entries (p : ℤ) (len : ℕ) : List Entry :=
  (List.range len).map fun i : ℕ ↦ img.entry (p + entrySize * i)

def bpbBytsPerSec : ℕ := img.u16 11
def bpbSecPerClus : ℕ := (img.byte 13).toNat
def bpbRsvdSecCnt : ℕ := img.u16 14
def bpbNumFATs : ℕ := (img.byte 16).toNat
def bpbTotSec32 : ℕ := img.u32 32
def bpbFATSz32 : ℕ := img.u32 36

/-- The globals that `main` computes from the header; `unsigned` products and
differences are taken modulo `2 ^ 32` before they are stored in an `int`. -/
def firstDataSector : ℤ := toInt32 (img.bpbRsvdSecCnt + img.bpbNumFATs * img.bpbFATSz32)

def totalClusters : ℤ :=
  toInt32 ((img.bpbTotSec32 - img.firstDataSector) % 2 ^ 32 / img.bpbSecPerClus)

def diskEnd : ℤ := (img.bpbTotSec32 * img.bpbBytsPerSec : ℤ) % 2 ^ 32 - 1

def firstBytePtrOfCluster (clusNum : ℤ) : ℤ :=
  let firstSectorOfCluster :=
    toInt32 (img.firstDataSector + toInt32 (toInt32 (clusNum - 2) * img.bpbSecPerClus))
  toInt32 (firstSectorOfCluster * img.bpbBytsPerSec)

def isBasic (p : ℤ) : Bool := isDirentBasic img.totalClusters (img.entry p)

def isLong (p : ℤ) : Bool := isDirentLong (img.entry p)

end Image

/-- `struct entry_part`; `none` is the NULL that marks a consumed tail. -/
structure EntryPart where
  entry : Option ℤ
  len : ℕ
  deriving DecidableEq, Repr

/-- `struct waiting_entries`; the two counts are the lengths of the lists. -/
structure Waiting where
  heads : List EntryPart
  tails : List EntryPart
  deriving DecidableEq, Repr

def Waiting.empty : Waiting := ⟨[], []⟩

def Waiting.capacity : ℕ := 10

/-- `array[count++] = part` on an array of ten parts, when there is a part to queue. -/
def queuePart (parts : List EntryPart) : Option EntryPart → Except Fault (List EntryPart)
  | none => .ok parts
  | some part =>
    if parts.length < Waiting.capacity then .ok (parts ++ [part]) else .error .arrayOverflow

/-- A call of `handle`, with where its entries come from: a range of the image,
a head and a tail joined on the heap, or a tail that stayed alone. The numbers
are the positions in the waiting arrays. -/
inductive HandleCall
  | walked (entry : ℤ) (len : ℕ)
  | combined (i j : ℕ) (head : ℤ) (headLen : ℕ) (tail : ℤ) (tailLen : ℕ)
  | alone (j : ℕ) (entry : ℤ) (len : ℕ)
  deriving DecidableEq, Repr

/-- The entries that `handle` finds behind its first argument. -/
def HandleCall.entries (img : Image) : HandleCall → List Entry
  | .walked p len => img.entries p len
  | .combined _ _ head headLen tail tailLen => img.entries head headLen ++ img.entries tail tailLen
  | .alone _ p len => img.entries p len

variable (img : Image)

/-- The three variables of the loop of `search_cluster`, and the calls made so far. -/
structure Cursor where
  p : ℤ
  curr : ℤ
  currEntries : ℕ
  calls : List HandleCall

/-- The `while` loop of `search_cluster`. Any `fuel` of at least the bytes left
is enough, since every turn advances `p`. -/
def walk (stop : ℤ) : ℕ → Cursor → Cursor
  | 0, c => c
  | fuel + 1, c =>
    if c.p < stop then
      if img.isBasic c.p then
        walk stop fuel ⟨c.p + entrySize, c.p + entrySize, 0,
          c.calls ++ [.walked c.curr (c.currEntries + 1)]⟩
      else if img.isLong c.p then
        walk stop fuel { c with p := c.p + entrySize, currEntries := c.currEntries + 1 }
      else c
    else c

/-- The part of the first entries of a cluster that `search_cluster` queues as a tail. -/
def frontPart (p : ℤ) : Option EntryPart :=
  let ord := (img.entry p).ldirOrd
  if img.isLong p ∧ ord &&& lastLongEntry = 0 then some ⟨some p, ord.toNat + 1⟩
  else if img.isBasic p then some ⟨some p, 1⟩
  else none

def clusterBytes : ℕ := img.bpbBytsPerSec * img.bpbSecPerClus

/-- Where the walk of a cluster begins, after the part queued as a tail. -/
def walkStart (clusterStart : ℤ) : ℤ :=
  clusterStart + entrySize * ((frontPart img clusterStart).elim 0 EntryPart.len : ℕ)

def clusterWalk (clusterStart : ℤ) : Cursor :=
  let p := walkStart img clusterStart
  walk img (clusterStart + clusterBytes img) (clusterBytes img) ⟨p, p, 0, []⟩

/-- The entries left open at the end of the walk, queued as a head. -/
def backPart (c : Cursor) : Option EntryPart :=
  if c.curr ≠ c.p then some ⟨some c.curr, c.currEntries⟩ else none

def searchCluster (w : Waiting) (clusterStart : ℤ) : Except Fault (List HandleCall × Waiting) := do
  let tails ← queuePart w.tails (frontPart img clusterStart)
  let c := clusterWalk img clusterStart
  let heads ← queuePart w.heads (backPart c)
  return (c.calls, ⟨heads, tails⟩)

def matched (head tail : Entry) : Except Fault Bool :=
  if isDirentLong head then
    if isDirentLong tail then .ok (head.ldirChksum = tail.ldirChksum)
    else if isDirentBasic img.totalClusters tail then
      .ok (head.ldirChksum = calcChecksum tail.dirName)
    else .error .assertion
  else .error .assertion

/-- The inner loop of `match_entries` for head number `i`. -/
def matchTails (i : ℕ) (head : ℤ) (headLen : ℕ) :
    ℕ → List EntryPart → Except Fault (List HandleCall × List EntryPart)
  | _, [] => return ([], [])
  | j, ⟨none, len⟩ :: tails => do
    let (calls, tails) ← matchTails i head headLen (j + 1) tails
    return (calls, ⟨none, len⟩ :: tails)
  | j, ⟨some tail, len⟩ :: tails => do
    if ← matched img (img.entry head) (img.entry tail) then
      let (calls, tails) ← matchTails i head headLen (j + 1) tails
      return (.combined i j head headLen tail len :: calls, ⟨none, len⟩ :: tails)
    else
      let (calls, tails) ← matchTails i head headLen (j + 1) tails
      return (calls, ⟨some tail, len⟩ :: tails)

/-- The outer loop of `match_entries`. -/
def matchHeads : ℕ → List EntryPart → List EntryPart →
    Except Fault (List HandleCall × List EntryPart)
  | _, [], tails => return ([], tails)
  | _, ⟨none, _⟩ :: _, _ => .error .nullPointer
  | i, ⟨some head, len⟩ :: heads, tails => do
    let (calls, tails) ← matchTails img i head len 0 tails
    let (calls', tails) ← matchHeads (i + 1) heads tails
    return (calls ++ calls', tails)

/-- The last loop of `match_entries`, over the tails without a head. -/
def handleAlone : ℕ → List EntryPart → List HandleCall
  | _, [] => []
  | j, ⟨entry, len⟩ :: tails =>
    match entry with
    | some p => if len = 1 then .alone j p len :: handleAlone (j + 1) tails
        else handleAlone (j + 1) tails
    | none => handleAlone (j + 1) tails

def matchEntries (w : Waiting) : Except Fault (List HandleCall) := do
  let (calls, tails) ← matchHeads img 0 w.heads w.tails
  return calls ++ handleAlone 0 tails

/-- One turn of the loop of `full_scan`. -/
def scanStep (acc : List HandleCall × Waiting) (clusNum : ℤ) :
    Except Fault (List HandleCall × Waiting) := do
  let clusterStart := img.firstBytePtrOfCluster clusNum
  if isDirentClusterPossibly img.totalClusters (img.entry clusterStart) then
    let (calls, w) ← searchCluster img acc.2 clusterStart
    return (acc.1 ++ calls, w)
  else return acc

/-- `2, 3, ...` below `total_clusters + 2`. -/
def clusterNumbers : List ℤ := (List.range img.totalClusters.toNat).map fun k : ℕ ↦ (k : ℤ) + 2

def scanClusters : Except Fault (List HandleCall × Waiting) :=
  (clusterNumbers img).foldlM (scanStep img) ([], Waiting.empty)

/-- The calls of `handle` made by `full_scan`, in order. -/
def fullScan : Except Fault (List HandleCall) := do
  let (calls, w) ← scanClusters img
  let calls' ← matchEntries img w
  return calls ++ calls'

/-- The 14 bytes that `extract_name_from_lfn` stores. -/
def extractNameFromLfn (lfn : Entry) : List UInt8 :=
  (List.range 5).map (fun i ↦ UInt8.ofNat (lfn.ldirName1 i)) ++
  (List.range 6).map (fun i ↦ UInt8.ofNat (lfn.ldirName2 i)) ++
  (List.range 2).map (fun i ↦ UInt8.ofNat (lfn.ldirName3 i)) ++ [0]

/-- The loop of `handle` that fills `long_name[256]`, from the last long entry
to the first. -/
def longName (lfns : List Entry) : Option (List UInt8) :=
  lfns.reverse.foldlM (fun name lfn ↦ CString.strncat name (extractNameFromLfn lfn) 14)
    (List.replicate 256 0)

/-- `struct output_file`, as `outprint` receives it. -/
structure OutputFile where
  name : List UInt8
  start : ℤ
  size : ℕ
  deriving DecidableEq, Repr

def bmpSignature : ℕ := 0x4D42

/-- `handle` on the entries behind its pointer; `none` when it returns without
calling `outprint`. -/
def handle (es : List Entry) : Except Fault (Option OutputFile) := do
  let some basicEntry := es.getLast? | throw .nullPointer
  let clusNum := basicEntry.clusNum
  if clusNum = 0 ∨ img.totalClusters + 1 < clusNum ∨ basicEntry.dirAttr &&& attrDirectory ≠ 0 ∨
      basicEntry.dirName0 = 0xE5 then return none
  let bmpStart := img.firstBytePtrOfCluster clusNum
  if img.u16 bmpStart ≠ bmpSignature then return none
  let some name := longName es.dropLast | throw .bufferOverflow
  -- the copy runs over the end of `DIR_Name` into the two bytes behind it
  let some name := if CString.text name = [] then
      CString.strncpy name ((List.range 13).map basicEntry.u8) 13 else some name
    | throw .bufferOverflow
  let fileSize := toInt32 basicEntry.dirFileSize
  let fileSize := if img.diskEnd < bmpStart + fileSize then img.diskEnd - bmpStart + 1 else fileSize
  return some ⟨name, bmpStart, (fileSize % 2 ^ 32).toNat⟩

end OsWorkbench.Fsrecov
