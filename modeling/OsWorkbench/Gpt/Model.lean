import OsWorkbench.Library.Monitor
import OsWorkbench.Library.Ring
import Mathlib.Data.List.Basic

namespace OsWorkbench.Gpt

open Library

/-- `calc_args`; an address is a number, `none` is a null pointer. -/
structure CalcArgs where
  outBt : ℕ
  inpBt : ℕ
  weight : ℕ
  bias : Option ℕ
  C : ℕ
  OC : ℕ
  deriving DecidableEq, Repr

structure MatmulArgs where
  out : ℕ
  inp : ℕ
  weight : ℕ
  bias : Option ℕ
  B : ℕ
  T : ℕ
  C : ℕ
  OC : ℕ
  deriving DecidableEq, Repr

def MatmulArgs.calcArgs (m : MatmulArgs) (b t : ℕ) : CalcArgs where
  outBt := m.out + b * m.T * m.OC + t * m.OC
  inpBt := m.inp + b * m.T * m.C + t * m.C
  weight := m.weight
  bias := m.bias
  C := m.C
  OC := m.OC

/-- The tasks in the order of the loops over `b` and `t`. -/
def MatmulArgs.tasks (m : MatmulArgs) : List CalcArgs :=
  (List.range m.B).flatMap fun b ↦ (List.range m.T).map fun t ↦ m.calcArgs b t

variable {V : Type}

/-- What `calc` makes of the bias, a row of `inp` and a row of `weight`. -/
abbrev Value (V : Type) := Option V → List V → List V → V

def dot [Zero V] [Add V] [Mul V] : Value V := fun bias inpRow wrow ↦
  (inpRow.zip wrow).foldl (fun val x ↦ val + x.1 * x.2) (bias.getD 0)

def CalcArgs.val (value : Value V) (args : CalcArgs) (mem : ℕ → V) (o : ℕ) : V :=
  value (args.bias.map fun bias ↦ mem (bias + o))
    ((List.range args.C).map fun i ↦ mem (args.inpBt + i))
    ((List.range args.C).map fun i ↦ mem (args.weight + o * args.C + i))

/-- One turn of the loop of `calc`. -/
def CalcArgs.step (value : Value V) (args : CalcArgs) (mem : ℕ → V) (o : ℕ) : ℕ → V :=
  Function.update mem (args.outBt + o) (args.val value mem o)

def CalcArgs.calc (value : Value V) (args : CalcArgs) (mem : ℕ → V) : ℕ → V :=
  (List.range args.OC).foldl (args.step value) mem

/-- The plain double loop. -/
def matmulLoop (value : Value V) (m : MatmulArgs) (mem : ℕ → V) : ℕ → V :=
  m.tasks.foldl (fun mem args ↦ args.calc value mem) mem

def bufferSize : ℕ := 10

/-- What the main thread does between the creation of the workers and the shutdown. -/
inductive Command (V : Type)
  | matmulForward (m : MatmulArgs)
  | user (f : (ℕ → V) → ℕ → V)

/-- `pushed`, `popped`, `computed` (the tasks that `calc` has run in the current
call) and `entryMem` (the memory at its entry) are not part of the program. -/
structure Shared (n : ℕ) (V : Type) where
  buffer : Ring bufferSize CalcArgs
  remaining : ℤ
  finished : Bool
  terminated : Fin n → Bool
  mem : ℕ → V
  pushed : List CalcArgs
  popped : List CalcArgs
  computed : List CalcArgs
  entryMem : ℕ → V

/-- A place in `main` or in `matmul_forward`, with the tasks that are still to be
pushed and the commands behind the call. -/
inductive Producer (V : Type)
  | idle (cmds : List (Command V))
  | entry (m : MatmulArgs) (cmds : List (Command V))
  | next (m : MatmulArgs) (todo : List CalcArgs) (cmds : List (Command V))
  | increment (m : MatmulArgs) (args : CalcArgs) (todo : List CalcArgs) (cmds : List (Command V))
  | testFull (m : MatmulArgs) (args : CalcArgs) (todo : List CalcArgs) (cmds : List (Command V))
  | push (m : MatmulArgs) (args : CalcArgs) (todo : List CalcArgs) (cmds : List (Command V))
  | unlock (m : MatmulArgs) (todo : List CalcArgs) (cmds : List (Command V))
  | testRemaining (m : MatmulArgs) (cmds : List (Command V))
  | unlockEnd (m : MatmulArgs) (cmds : List (Command V))
  | returned (m : MatmulArgs) (cmds : List (Command V))
  | setFinished
  | unlockFinished
  | join
  | exited

/-- A place in `worker`; `calc args o` is the head of the loop of `calc`. -/
inductive Worker
  | lock
  | test
  | finish
  | exit
  | exited
  | pop
  | unlock (args : CalcArgs)
  | calc (args : CalcArgs) (o : ℕ)
  | lockDone
  | decrement
  | unlockDone
  deriving DecidableEq, Repr

variable {n : ℕ}

def producerAct (p : Producer V) (sh : Shared n V) : Act (Shared n V) (Producer V) :=
  match p with
  | .idle [] => .lock .setFinished
  | .idle (.user f :: cmds) => .run { sh with mem := f sh.mem } (.idle cmds)
  | .idle (.matmulForward m :: cmds) => .run sh (.entry m cmds)
  | .entry m cmds =>
    if sh.remaining = 0 then
      .run { sh with computed := [], entryMem := sh.mem } (.next m m.tasks cmds)
    else .fail
  | .next m (args :: todo) cmds => .lock (.increment m args todo cmds)
  | .next m [] cmds => .lock (.testRemaining m cmds)
  | .increment m args todo cmds =>
    .run { sh with remaining := sh.remaining + 1 } (.testFull m args todo cmds)
  | .testFull m args todo cmds =>
    if sh.buffer.count = bufferSize then .wait (.testFull m args todo cmds)
    else .run sh (.push m args todo cmds)
  | .push m args todo cmds =>
    .notify { sh with buffer := sh.buffer.push args, pushed := sh.pushed ++ [args] }
      (.unlock m todo cmds)
  | .unlock m todo cmds => .unlock (.next m todo cmds)
  | .testRemaining m cmds =>
    if 0 < sh.remaining then .wait (.testRemaining m cmds) else .run sh (.unlockEnd m cmds)
  | .unlockEnd m cmds => .unlock (.returned m cmds)
  | .returned _ cmds => .run sh (.idle cmds)
  | .setFinished => .notify { sh with finished := true } .unlockFinished
  | .unlockFinished => .unlock .join
  | .join => if ∀ w, sh.terminated w then .run sh .exited else .stop
  | .exited => .stop

def workerAct (value : Value V) (w : Fin n) (p : Worker) (sh : Shared n V) :
    Act (Shared n V) Worker :=
  match p with
  | .lock => .lock .test
  | .test =>
    if sh.buffer.count = 0 ∧ ¬ sh.finished then .wait .test
    else if sh.finished then .run sh .finish
    else .run sh .pop
  | .finish => if sh.buffer.count = 0 ∧ sh.remaining = 0 then .unlock .exit else .fail
  | .exit => .run { sh with terminated := Function.update sh.terminated w true } .exited
  | .exited => .stop
  | .pop =>
    .notify { sh with buffer := sh.buffer.pop, popped := sh.popped ++ [sh.buffer.front] }
      (.unlock sh.buffer.front)
  | .unlock args => .unlock (.calc args 0)
  | .calc args o =>
    if o < args.OC then .run { sh with mem := args.step value sh.mem o } (.calc args (o + 1))
    else .run { sh with computed := sh.computed ++ [args] } .lockDone
  | .lockDone => .lock .decrement
  | .decrement => .notify { sh with remaining := sh.remaining - 1 } .unlockDone
  | .unlockDone => .unlock .lock

inductive Thread (n : ℕ)
  | producer
  | worker (w : Fin n)
  deriving DecidableEq, Repr

abbrev Place (V : Type) : Thread n → Type
  | .producer => Producer V
  | .worker _ => Worker

/-- The static values of the program; the memory and the slots hold anything. -/
structure Shared.Initial (sh : Shared n V) : Prop where
  head : sh.buffer.head = 0
  tail : sh.buffer.tail = 0
  count : sh.buffer.count = 0
  remaining : sh.remaining = 0
  finished : sh.finished = false
  terminated : ∀ w, sh.terminated w = false
  pushed : sh.pushed = []
  popped : sh.popped = []

/-- The worker pool, after the creation of the workers. -/
def pool (n : ℕ) (value : Value V) (cmds : List (Command V)) :
    Monitor (Thread n) (Shared n V) (Place V) where
  init := Shared.Initial
  start
    | .producer => .idle cmds
    | .worker _ => .lock
  act
    | .producer => producerAct
    | .worker w => workerAct value w

/-- The places where a thread holds `lk`. -/
def holds : ∀ t : Thread n, Place V t → Prop
  | .producer, p => match p with
    | .increment .. => True
    | .testFull .. => True
    | .push .. => True
    | .unlock .. => True
    | .testRemaining .. => True
    | .unlockEnd .. => True
    | .setFinished => True
    | .unlockFinished => True
    | _ => False
  | .worker _, p => match p with
    | .test => True
    | .finish => True
    | .pop => True
    | .unlock _ => True
    | .decrement => True
    | .unlockDone => True
    | _ => False

/-- The places where a thread may sleep in `cond_wait`. -/
def waits : ∀ t : Thread n, Place V t → Prop
  | .producer, p => match p with
    | .testFull .. => True
    | .testRemaining .. => True
    | _ => False
  | .worker _, p => p = .test

theorem pool_discipline (value : Value V) (cmds : List (Command V)) :
    (pool n value cmds).Discipline holds waits := by
  refine ⟨?_, ?_, ?_⟩
  · intro t
    cases t <;> exact id
  · intro t p sh
    cases t with
    | producer =>
      simp only [pool]
      unfold producerAct
      split <;> try split_ifs
      all_goals simp [Act.Keeps, holds, waits]
    | worker w =>
      simp only [pool]
      unfold workerAct
      split <;> try split_ifs
      all_goals simp [Act.Keeps, holds, waits]
  · intro t p hp
    cases t with
    | producer => cases p <;> simp [waits, holds] at hp ⊢
    | worker w =>
      cases hp
      trivial

end OsWorkbench.Gpt
