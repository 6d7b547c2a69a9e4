import OsWorkbench.Library.CString
import OsWorkbench.Library.Delimited
import Mathlib.Logic.Function.Basic

namespace OsWorkbench.Pstree

open Library

abbrev Addr := ℕ

def null : Addr := 0

/-- `MAX_LEN`. -/
def maxLen : ℕ := 128

/-- The word that `sscanf` reads from a `Name:` line into `pname`. -/
structure Name where
  bytes : List UInt8
  noNul : ∀ b ∈ bytes, b ≠ 0
  fits : bytes.length < maxLen - 1
  deriving DecidableEq

/-- `proc_t` -/
structure Proc where
  pid : ℤ
  name : List UInt8
  ppid : ℤ
  child : Addr
  sibling : Addr
  terminated : 0 ∈ name
  deriving DecidableEq

abbrev Heap := Addr → Option Proc

inductive Fault
  | invalidPointer
  | assertion
  | bufferOverflow
  | exitFailure
  | diverges
  deriving DecidableEq, Repr

/-- What `malloc` returns on a heap, and what stood before in the `name` of the block. -/
structure Allocator where
  malloc : Heap → Addr
  name : Heap → List UInt8
  fresh : ∀ h, malloc h ≠ null → h (malloc h) = none
  size : ∀ h, (name h).length = maxLen

namespace Heap

variable (h : Heap)

def get (p : Addr) : Except Fault Proc :=
  match h p with
  | some proc => .ok proc
  | none => .error .invalidPointer

def set (p : Addr) (proc : Proc) : Heap := Function.update h p (some proc)

end Heap

theorem Name.text_take (name : Name) :
    CString.text (name.bytes.take (maxLen - 1)) = name.bytes := by
  rw [List.take_of_length_le (Nat.le_of_lt name.fits), CString.text_eq_self name.noNul]

theorem strncpy_name {buf out : List UInt8} {name : Name}
    (h : CString.strncpy buf name.bytes (maxLen - 1) = some out) :
    0 ∈ out ∧ CString.text out = name.bytes := by
  have hlen := name.fits
  rw [← name.text_take] at hlen
  have hspec := CString.strncpy_spec h hlen
  rwa [name.text_take] at hspec

def createProc (a : Allocator) (pid : ℤ) (name : Name) (ppid : ℤ) (h : Heap) :
    Except Fault (Addr × Heap) :=
  let proc := a.malloc h
  if proc = null then .error .exitFailure
  else
    match hs : CString.strncpy (a.name h) name.bytes (maxLen - 1) with
    | some buf => .ok (proc, h.set proc ⟨pid, buf, ppid, null, null, (strncpy_name hs).1⟩)
    | none => .error .bufferOverflow

def findProc (h : Heap) : ℕ → Addr → ℤ → Except Fault Addr
  | 0, _, _ => .error .diverges
  | fuel + 1, node, pid => do
    if node = null then return null
    let n ← h.get node
    if n.pid = pid then return node
    let proc ← findProc h fuel n.sibling pid
    if proc ≠ null then return proc
    findProc h fuel n.child pid

/-- The loop that looks for `last_one`. -/
def lastOne (h : Heap) : ℕ → Addr → Except Fault Addr
  | 0, _ => .error .diverges
  | fuel + 1, p => do
    let n ← h.get p
    if n.sibling = null then return p
    lastOne h fuel n.sibling

/-- An entry of `/proc`, and what its `status` file holds when it can be opened. -/
structure Dirent where
  isDir : Bool
  dName : List UInt8
  status : Option (Name × ℤ)

/-- `atoi` on a text that starts with a digit. -/
def atoi (s : List UInt8) : ℤ :=
  (s.takeWhile fun b ↦ 48 ≤ b ∧ b ≤ 57).foldl (fun n b ↦ 10 * n + (b.toNat - 48)) 0

/-- The new process is the result, or `null` where the file cannot be opened. -/
def readProcInfo (a : Allocator) (pid : ℤ) (status : Option (Name × ℤ)) (h : Heap) :
    Except Fault (Addr × Heap) :=
  match status with
  | none => .ok (null, h)
  | some (pname, ppid) => createProc a pid pname ppid h

/-- What the loop of `tranverse_proc_dir` does with a process it has read. -/
def insert (fuel : ℕ) (root proc : Addr) (h : Heap) : Except Fault Heap := do
  let p ← h.get proc
  let parent ← findProc h fuel root p.ppid
  if parent = null then throw .assertion
  let n ← h.get parent
  if n.child = null then return h.set parent { n with child := proc }
  let lastOne ← lastOne h fuel n.child
  let l ← h.get lastOne
  return h.set lastOne { l with sibling := proc }

/-- The body of the loop of `tranverse_proc_dir`. -/
def visit (a : Allocator) (fuel : ℕ) (root : Addr) (h : Heap) (entry : Dirent) :
    Except Fault Heap := do
  if ¬ entry.isDir then return h
  if entry.dName.headD 0 < 48 ∨ entry.dName.headD 0 > 57 then return h
  let (proc, h) ← readProcInfo a (atoi entry.dName) entry.status h
  if proc = null then return h
  insert fuel root proc h

def tranverseProcDir (a : Allocator) (fuel : ℕ) (root : Addr) (entries : List Dirent) (h : Heap) :
    Except Fault Heap :=
  entries.foldlM (visit a fuel root) h

/-- `"idle"` -/
def idleName : Name := ⟨[105, 100, 108, 101], by simp, by decide⟩

/-- `main` up to the call of `print_tree`. -/
def buildTree (a : Allocator) (fuel : ℕ) (entries : List Dirent) : Except Fault (Addr × Heap) := do
  let (root, h) ← createProc a 0 idleName 0 fun _ ↦ none
  let h ← tranverseProcDir a fuel root entries h
  return (root, h)

/-- `"└──── "` in front of a last sibling, otherwise `"├──── "`. -/
def connector (last : Bool) : List UInt8 :=
  [0xE2, 0x94, if last then 0x94 else 0x9C, 0xE2, 0x94, 0x80, 0xE2, 0x94, 0x80, 0xE2, 0x94, 0x80,
    0xE2, 0x94, 0x80, 0x20]

/-- What the lines below a node have in its column: `"      "` or `"│     "`. -/
def unit (last : Bool) : List UInt8 :=
  if last then [0x20, 0x20, 0x20, 0x20, 0x20, 0x20]
  else [0xE2, 0x94, 0x82, 0x20, 0x20, 0x20, 0x20, 0x20]

/-- `strncpy` of the prefix into `new_prefix` and `strcat` of the unit behind it. -/
def newPrefix (pfx unit : List UInt8) : Except Fault (List UInt8) :=
  if pfx.length < maxLen - 1 ∧ pfx.length + unit.length < maxLen then .ok (pfx ++ unit)
  else .error .bufferOverflow

/-- `"%s(%d)\n"` or `"%s\n"`. -/
def label (showPid : Bool) (name : List UInt8) (pid : ℤ) : List UInt8 :=
  if showPid then name ++ 40 :: Delimited.decimal pid ++ [41, 10] else name ++ [10]

def printTree (showPid : Bool) (h : Heap) :
    ℕ → Addr → ℕ → List UInt8 → Except Fault (List UInt8)
  | 0, _, _, _ => .error .diverges
  | fuel + 1, node, level, pfx => do
    if node = null then return []
    let n ← h.get node
    let last : Bool := n.sibling = null
    let line := pfx ++ (if level > 0 then connector last else []) ++
      label showPid (CString.text n.name) n.pid
    let new ← newPrefix pfx (if level > 0 then unit last else [])
    let below ← printTree showPid h fuel n.child (level + 1) new
    let after ← printTree showPid h fuel n.sibling level pfx
    return line ++ below ++ after

end OsWorkbench.Pstree
