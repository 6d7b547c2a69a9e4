import OsWorkbench.Library.Transition
import OsWorkbench.Library.PointerChain
import Mathlib.Data.Nat.Notation
import Mathlib.Data.Int.Notation

namespace OsWorkbench.Libco

open Library

abbrev Addr := ℕ

def null : Addr := 0

inductive CoStatus
  | coNew
  | coRunning
  | coWaiting
  | coDead
  deriving DecidableEq, Repr

variable {Fn Arg K M : Type}

/-- Where a call of `co_yield` returns to: to user code, into the loop of
`co_wait`, or to the end of `wrapper`. -/
inductive Frame (K : Type)
  | user (k : K)
  | waiting (co : Addr) (k : K)
  | finished
  deriving DecidableEq, Repr

/-- `struct co`. The register context stands for the place where the coroutine
goes on; `K` is a place in user code. -/
structure Co (Fn Arg K : Type) where
  func : Fn
  arg : Arg
  status : CoStatus
  waiter : Addr
  context : Frame K
  next : Addr

/-- What user code does next. -/
inductive Call (Fn Arg K : Type)
  | coStart (func : Fn) (arg : Arg) (k : Addr → K)
  | coYield (k : K)
  | coWait (co : Addr) (k : K)
  | ret

/-- The user code: where `main` begins, where a call of a function begins, and
what happens from one place to the next, with the memory of the program. -/
structure Program (Fn Arg K M : Type) where
  main : K
  enter : Fn → Arg → K
  call : M → K → M × Call Fn Arg K

inductive Mode (Arg K : Type)
  | user (k : K)
  | wrapper (arg : Arg)
  | coYield (frame : Frame K)
  | coWait (co : Addr) (k : K)
  | exited
  deriving DecidableEq, Repr

inductive Fault
  | assertion
  | invalidPointer
  | wrapperReturned
  | diverges
  deriving DecidableEq, Repr

/-- The heap holds the coroutines that are allocated. `mainCo` and `waitedOn`,
the coroutines that `co_wait` has been called on, are not part of the program. -/
structure State (Fn Arg K M : Type) where
  heap : Addr → Option (Co Fn Arg K)
  coNum : ℤ
  current : Addr
  head : Addr
  mode : Mode Arg K
  mem : M
  mainCo : Addr
  waitedOn : List Addr

namespace State

variable (s : State Fn Arg K M)

def load (a : Addr) : Except Fault (Co Fn Arg K) :=
  match s.heap a with
  | some c => .ok c
  | none => .error .invalidPointer

def store (a : Addr) (c : Co Fn Arg K) : State Fn Arg K M :=
  { s with heap := Function.update s.heap a (some c) }

def modify (a : Addr) (f : Co Fn Arg K → Co Fn Arg K) : Except Fault (State Fn Arg K M) := do
  let c ← s.load a
  return s.store a (f c)

variable {s} {a b : Addr} {c : Co Fn Arg K}

theorem load_eq (h : s.heap a = some c) : s.load a = .ok c := by
  rw [load, h]

theorem modify_eq (h : s.heap a = some c) (f : Co Fn Arg K → Co Fn Arg K) :
    s.modify a f = .ok (s.store a (f c)) := by
  rw [modify, load_eq h]
  rfl

@[simp] theorem store_current : (s.store a c).current = s.current := rfl

@[simp] theorem store_heap_self : (s.store a c).heap a = some c := Function.update_self ..

theorem store_heap_ne (h : b ≠ a) : (s.store a c).heap b = s.heap b := Function.update_of_ne h ..

end State

/-- What a step takes from outside: the value of `rand`, and the address and the
bytes of the block that `malloc` returns. -/
structure Oracle (Fn Arg K : Type) where
  rand : ℕ
  block : Addr
  bytes : Co Fn Arg K

def insertCo (s : State Fn Arg K M) (co : Addr) : Except Fault (State Fn Arg K M) :=
  if s.current = null then do
    let s ← s.modify co fun c ↦ { c with next := null }
    return { s with current := co, coNum := s.coNum + 1 }
  else do
    let temp := (← s.load s.current).next
    let s ← s.modify s.current fun c ↦ { c with next := co }
    let s ← s.modify co fun c ↦ { c with next := temp }
    return { s with coNum := s.coNum + 1 }

/-- The loop of `remove_co`; a list of `fuel - 1` nodes is searched to its end. -/
def removeLoop (co : Addr) :
    ℕ → State Fn Arg K M → Addr → Addr → Except Fault (State Fn Arg K M)
  | 0, _, _, _ => .error .diverges
  | fuel + 1, s, prev, temp =>
    if temp = null then .ok s
    else do
      let next := (← s.load temp).next
      if temp = co then
        if prev = null then return { s with head := next }
        else s.modify prev fun c ↦ { c with next := next }
      else removeLoop co fuel s temp next

def free (s : State Fn Arg K M) (co : Addr) : Except Fault (State Fn Arg K M) := do
  let _ ← s.load co
  return { s with heap := Function.update s.heap co none }

def removeCo (s : State Fn Arg K M) (co : Addr) : Except Fault (State Fn Arg K M) :=
  if s.current = co then .error .assertion
  else if 0 < s.coNum then do
    let s ← removeLoop co (s.coNum.toNat + 1) s null s.head
    let s ← free s co
    return { s with coNum := s.coNum - 1 }
  else .error .assertion

/-- `while (num--) temp = temp->next`. -/
def selectLoop (s : State Fn Arg K M) : ℕ → Addr → Except Fault Addr
  | 0, temp => .ok temp
  | num + 1, temp => do selectLoop s num (← s.load temp).next

def randomSelectCo (s : State Fn Arg K M) (rand : ℕ) : Except Fault Addr :=
  if 0 < s.coNum then selectLoop s (rand % s.coNum.toNat) s.head else .error .assertion

def coStart (o : Oracle Fn Arg K) (func : Fn) (arg : Arg) (s : State Fn Arg K M) :
    Except Fault (State Fn Arg K M) :=
  if o.block = null then .error .assertion
  else do
    let s := s.store o.block
      { o.bytes with func := func, arg := arg, status := .coNew, waiter := null }
    let s ← insertCo s o.block
    return { s with waitedOn := s.waitedOn.filter (· ≠ o.block) }

/-- `wrapper` up to the call of the function. -/
def wrapper (P : Program Fn Arg K M) (arg : Arg) (s : State Fn Arg K M) :
    Except Fault (State Fn Arg K M) := do
  let c ← s.load s.current
  let s := if c.status = .coNew then s.store s.current { c with status := .coRunning } else s
  return { s with mode := .user (P.enter c.func arg) }

/-- `wrapper` from the return of the function on. -/
def wrapperEnd (s : State Fn Arg K M) : Except Fault (State Fn Arg K M) := do
  let s ← s.modify s.current fun c ↦ { c with status := .coDead }
  let c ← s.load s.current
  let s ← if c.waiter ≠ null then s.modify c.waiter fun c ↦ { c with status := .coRunning }
    else .ok s
  return { s with mode := .coYield .finished }

def Frame.mode : Frame K → Except Fault (Mode Arg K)
  | .user k => .ok (.user k)
  | .waiting co k => .ok (.coWait co k)
  | .finished => .error .wrapperReturned

/-- One turn of the loop of `co_yield`, with the switch when it ends the loop. -/
def coYield (o : Oracle Fn Arg K) (frame : Frame K) (s : State Fn Arg K M) :
    Except Fault (State Fn Arg K M) := do
  let choice ← randomSelectCo s o.rand
  let c ← s.load choice
  if c.status ≠ .coNew ∧ c.status ≠ .coRunning then return s
  else if s.current = null ∨ choice = null then .error .assertion
  else do
    let cur ← s.load s.current
    if cur.status = .coNew then .error .assertion
    else do
      let s := { s.store s.current { cur with context := frame } with current := choice }
      if c.status = .coNew then return { s with mode := .wrapper c.arg }
      else do
        let mode ← (← s.load choice).context.mode
        return { s with mode := mode }

/-- `co_wait` up to its loop. -/
def coWait (co : Addr) (k : K) (s : State Fn Arg K M) : Except Fault (State Fn Arg K M) :=
  if co = null then .error .assertion
  else do
    if (← s.load co).status = .coWaiting then .error .assertion
    else do
      let s ← s.modify s.current fun c ↦ { c with status := .coWaiting }
      let s ← s.modify co fun c ↦ { c with waiter := s.current }
      return { s with mode := .coWait co k, waitedOn := co :: s.waitedOn }

/-- One turn of the loop of `co_wait`, with `remove_co` when it ends the loop. -/
def coWaitLoop (co : Addr) (k : K) (s : State Fn Arg K M) : Except Fault (State Fn Arg K M) := do
  if (← s.load co).status ≠ .coDead then return { s with mode := .coYield (.waiting co k) }
  else do
    let s ← removeCo s co
    return { s with mode := .user k }

def step (P : Program Fn Arg K M) (o : Oracle Fn Arg K) (s : State Fn Arg K M) :
    Except Fault (State Fn Arg K M) :=
  match s.mode with
  | .user k =>
    let next := P.call s.mem k
    let s := { s with mem := next.1 }
    match next.2 with
    | .coStart func arg k => do
      let s ← coStart o func arg s
      return { s with mode := .user (k o.block) }
    | .coYield k => return { s with mode := .coYield (.user k) }
    | .coWait co k => coWait co k s
    | .ret => if s.current = s.mainCo then return { s with mode := .exited } else wrapperEnd s
  | .wrapper arg => wrapper P arg s
  | .coYield frame => coYield o frame s
  | .coWait co k => coWaitLoop co k s
  | .exited => return s

/-- The state after `init`, when `main` begins. -/
def init (P : Program Fn Arg K M) (o : Oracle Fn Arg K) (mem : M) : State Fn Arg K M where
  heap := Function.update (fun _ ↦ none) o.block (some { o.bytes with status := .coRunning })
  coNum := 1
  current := o.block
  head := o.block
  mode := .user P.main
  mem := mem
  mainCo := o.block
  waitedOn := []

/-- The loop of `fini`; a chain of `fuel - 1` nodes is freed to its end. -/
def finiLoop : ℕ → Addr → State Fn Arg K M → Except Fault (State Fn Arg K M)
  | 0, _, _ => .error .diverges
  | fuel + 1, temp, s =>
    if temp = null then .ok s
    else do
      let next := (← s.load temp).next
      let s ← free s temp
      finiLoop fuel next s

def fini (fuel : ℕ) (s : State Fn Arg K M) : Except Fault (State Fn Arg K M) :=
  finiLoop fuel s.head s

/-- `malloc` returns a block that is not allocated. -/
def coSystem (P : Program Fn Arg K M) : System (State Fn Arg K M) where
  init s := ∃ o mem, o.block ≠ null ∧ s = init P o mem
  step s s' := ∃ o : Oracle Fn Arg K, s.heap o.block = none ∧ step P o s = .ok s'

/-- The coroutine that `co_wait` is about to be called on. -/
def waitTarget (P : Program Fn Arg K M) (s : State Fn Arg K M) : Option Addr :=
  match s.mode with
  | .user k =>
    match (P.call s.mem k).2 with
    | .coWait co _ => some co
    | _ => none
  | _ => none

/-- `co_wait` is called on coroutines made by `co_start` only, and on each at most once. -/
def WaitsOnce (P : Program Fn Arg K M) (s : State Fn Arg K M) : Prop :=
  ∀ co ∈ waitTarget P s, (s.heap co).isSome ∧ co ≠ s.mainCo ∧ co ∉ s.waitedOn

instance (P : Program Fn Arg K M) : DecidablePred (WaitsOnce P) := fun s ↦
  inferInstanceAs (Decidable (∀ co ∈ waitTarget P s,
    (s.heap co).isSome ∧ co ≠ s.mainCo ∧ co ∉ s.waitedOn))

end OsWorkbench.Libco
