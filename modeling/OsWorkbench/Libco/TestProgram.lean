import OsWorkbench.Libco.TestQueue
import OsWorkbench.Libco.Threads

namespace OsWorkbench.Libco

open Library

inductive TestFn
  | producer
  | consumer
  deriving DecidableEq, Repr

/-- A place in the test, with the local variables. -/
inductive Place
  | test2
  | starting (queue : Addr) (thds : List Addr)
  | waiting (queue : Addr) (thds : List Addr) (i : ℕ)
  | producer (queue : Addr) (i : ℕ)
  | consumer (queue : Addr)
  deriving DecidableEq, Repr

/-- How many producers and consumers `test_2` starts, how many items each producer makes, the
capacity of the queue, and the allocator. -/
structure TestConfig where
  producers : ℕ
  consumers : ℕ
  items : ℕ
  cap : ℤ
  cap_pos : 1 ≤ cap
  alloc : TestAlloc

/-- The memory in which `test_2` begins, with the value of `g_count`. -/
def TestMem.initial (start : ℤ) : TestMem where
  links _ := none
  data _ := none
  sz := 0
  cap := 0
  gCount := start
  gRunning := true
  printed := []
  requests := 0
  produced := []
  failed := 0
  dropped := 0
  fault := none

abbrev TestCall : Type := TestMem × Call TestFn Addr Place

namespace TestConfig

variable (c : TestConfig)

/-- The functions of the coroutines of `test_2`, in the order in which they are started. -/
def functions : List TestFn :=
  List.replicate c.producers .producer ++ List.replicate c.consumers .consumer

def stop (m : TestMem) (e : TestFault) : TestCall := ({ m with fault := some e }, .ret)

def producer (queue : Addr) (i : ℕ) (m : TestMem) : TestCall :=
  if i < c.items then
    if m.qIsFull then (m, .coYield (.producer queue i))
    else
      match m.doProduce c.alloc queue with
      | .ok m => (m, .coYield (.producer queue (i + 1)))
      | .error e => stop m e
  else (m, .ret)

def consumer (queue : Addr) (m : TestMem) : TestCall :=
  if m.gRunning then
    match m.qIsEmpty queue with
    | .ok true => (m, .coYield (.consumer queue))
    | .ok false =>
      match m.doConsume queue with
      | .ok m => (m, .coYield (.consumer queue))
      | .error e => stop m e
    | .error e => stop m e
  else (m, .ret)

/-- The end of `test_2`, after the last `co_wait`. -/
def finish (queue : Addr) (m : TestMem) : TestCall :=
  match m.drain queue (m.sz.toNat + 1) with
  | .ok m =>
    match m.qFree queue with
    | .ok m => (m, .ret)
    | .error e => stop m e
  | .error e => stop m e

/-- `g_running` is cleared when the producers have been waited for. -/
def waitNext (queue : Addr) (thds : List Addr) (i : ℕ) (m : TestMem) : TestCall :=
  let m := if i = c.producers then { m with gRunning := false } else m
  match thds[i]? with
  | some co => (m, .coWait co (.waiting queue thds (i + 1)))
  | none => finish queue m

def startNext (queue : Addr) (thds : List Addr) (m : TestMem) : TestCall :=
  match c.functions[thds.length]? with
  | some fn => (m, .coStart fn queue fun co ↦ .starting queue (thds ++ [co]))
  | none => c.waitNext queue thds 0 m

def test2 (m : TestMem) : TestCall :=
  match m.qNew c.alloc c.cap with
  | .ok (queue, m) => c.startNext queue [] m
  | .error e => stop m e

def program : Program TestFn Addr Place TestMem where
  main := .test2
  enter
    | .producer, queue => .producer queue 0
    | .consumer, queue => .consumer queue
  call m
    | .test2 => c.test2 m
    | .starting queue thds => c.startNext queue thds m
    | .waiting queue thds i => c.waitNext queue thds i m
    | .producer queue i => c.producer queue i m
    | .consumer queue => TestConfig.consumer queue m

/-- The runs of `test_2`, under every schedule, until the process ends. -/
def system (start : ℤ) : System (State TestFn Addr Place TestMem) where
  init s := ∃ o, o.block ≠ null ∧ s = init c.program o (.initial start)
  step s s' := s.mem.fault = none ∧ (coSystem c.program).step s s'

end TestConfig

/-- The queue that a coroutine goes on with. -/
def Place.queue : Place → Option Addr
  | .test2 => none
  | .starting queue _ => some queue
  | .waiting queue _ _ => some queue
  | .producer queue _ => some queue
  | .consumer queue => some queue

def Thread.queue : Thread TestFn Addr Place → Option Addr
  | .fresh _ queue => some queue
  | .begun (.user k) => k.queue
  | .begun (.waiting _ k) => k.queue
  | .begun .finished => none
  | .exited => none

end OsWorkbench.Libco
