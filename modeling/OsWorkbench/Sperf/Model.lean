import OsWorkbench.Library.CString
import Mathlib.Algebra.Field.Rat
import Mathlib.Data.List.Basic

namespace OsWorkbench.Sperf

open Library

/-- `char name[64]` holds a text and its NUL. -/
@[ext]
structure SyscallLog where
  name : List UInt8
  time : ℚ
  size : name.length = 64
  terminated : 0 ∈ name
  deriving Repr

instance : DecidableEq SyscallLog := fun _ _ ↦ decidable_of_iff _ SyscallLog.ext_iff.symm

def SyscallLog.text (log : SyscallLog) : List UInt8 := CString.text log.name

def SyscallLog.add (log : SyscallLog) (time : ℚ) : SyscallLog := { log with time := log.time + time }

/-- The cells of the allocated array, `none` where nothing has been written yet. -/
structure SyscallStats where
  logs : List (Option SyscallLog)
  count : ℤ
  capacity : ℤ
  deriving DecidableEq, Repr

def SyscallStats.empty : SyscallStats := ⟨[], 0, 0⟩

/-- A cell that is not allocated or not initialised is accessed, or an `assert` fails. -/
inductive Fault
  | outOfBounds
  | assertion
  deriving DecidableEq, Repr

/-- Which requests the allocator grants; none that `ptrdiff_t` cannot express. -/
structure Allocator where
  grants : ℕ → Bool
  bounded : ∀ size, grants size = true → size < 2 ^ 63

/-- An order into which `qsort` brings the entries. -/
structure Sorter where
  sort : List SyscallLog → List SyscallLog
  perm : ∀ logs, (sort logs).Perm logs

/-- `sizeof(SyscallLog)`. -/
def logSize : ℕ := 72

namespace SyscallStats

variable (stats : SyscallStats)

def get (i : ℕ) : Except Fault SyscallLog :=
  match stats.logs[i]? with
  | some (some log) => .ok log
  | _ => .error .outOfBounds

def set (i : ℤ) (log : SyscallLog) : Except Fault SyscallStats :=
  if 0 ≤ i ∧ i < stats.logs.length then
    .ok { stats with logs := stats.logs.set i.toNat (some log) }
  else .error .outOfBounds

end SyscallStats

def realloc (a : Allocator) (logs : List (Option SyscallLog)) (size : ℕ) :
    Option (List (Option SyscallLog)) :=
  if a.grants size then some ((logs.take (size / logSize)).rightpad (size / logSize) none) else none

/-- The loop of `update_stats` from `i` on; `some` when it returns. -/
def updateLoop (log : SyscallLog) (stats : SyscallStats) :
    ℕ → ℕ → Except Fault (Option SyscallStats)
  | _, 0 => return none
  | i, left + 1 => do
    let entry ← stats.get i
    if CString.strcmp entry.name log.name = 0 then
      let stats ← stats.set i (entry.add log.time)
      return some stats
    else updateLoop log stats (i + 1) left

/-- `int` products wrap, and `size_t` products too. -/
def grow (a : Allocator) (stats : SyscallStats) : Except Fault SyscallStats :=
  let capacity := if stats.capacity = 0 then 10 else (stats.capacity * 2).bmod (2 ^ 32)
  match realloc a stats.logs (capacity * logSize % 2 ^ 64).toNat with
  | some logs => .ok { stats with logs := logs, capacity := capacity }
  | none => .error .assertion

def updateStats (a : Allocator) (log : SyscallLog) (stats : SyscallStats) :
    Except Fault SyscallStats := do
  match ← updateLoop log stats 0 stats.count.toNat with
  | some stats => return stats
  | none =>
    let stats ← if stats.count = stats.capacity then grow a stats else pure stats
    let stats ← stats.set stats.count log
    return { stats with count := (stats.count + 1).bmod (2 ^ 32) }

structure Output where
  total : ℚ
  shown : List (List UInt8 × Option ℤ)
  more : Bool
  separator : Bool
  deriving DecidableEq, Repr

/-- The percentage, cut to an `int`; there is none of a total of 0. -/
def ratio (time total : ℚ) : Option ℤ :=
  let percent := time / total * 100
  if total = 0 then none else some (percent.num.tdiv percent.den)

def output (q : Sorter) (isEnd : Bool) (stats : SyscallStats) :
    Except Fault (Output × SyscallStats) := do
  let logs ← (List.range stats.count.toNat).mapM stats.get
  let sorted := q.sort logs
  let total := sorted.foldl (fun total log ↦ total + log.time) 0
  return ({ total := total
            shown := (sorted.take 5).map fun log ↦ (log.text, ratio log.time total)
            more := 5 ≤ sorted.length
            separator := !isEnd },
    { stats with logs := sorted.map some ++ stats.logs.drop stats.count.toNat })

inductive Event
  | update (a : Allocator) (log : SyscallLog)
  | output (q : Sorter) (isEnd : Bool)

def step (acc : SyscallStats × List Output) : Event → Except Fault (SyscallStats × List Output)
  | .update a log => do
    let stats ← updateStats a log acc.1
    return (stats, acc.2)
  | .output q isEnd => do
    let (printed, stats) ← output q isEnd acc.1
    return (stats, acc.2 ++ [printed])

def run (events : List Event) : Except Fault (SyscallStats × List Output) :=
  events.foldlM step (SyscallStats.empty, [])

end OsWorkbench.Sperf
