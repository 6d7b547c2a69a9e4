import OsWorkbench.Library.Stack
import OsWorkbench.Library.Overlay

namespace OsWorkbench.Am.Trap

open Library Library.Stack

abbrev Mem := ℕ → ℕ

/-- The registers of `Context` that `trap` pushes, in the order of their fields. -/
inductive Gpr
  | rax | rbx | rcx | rdx | rbp | rsi | rdi | r8 | r9 | r10 | r11 | r12 | r13 | r14 | r15
deriving DecidableEq

open Gpr in
def Gpr.all : List Gpr :=
  [rax, rbx, rcx, rdx, rbp, rsi, rdi, r8, r9, r10, r11, r12, r13, r14, r15]

structure Regs where
  gpr : Gpr → ℕ
  rip : ℕ
  cs : ℕ
  rflags : ℕ
  rsp : ℕ
  ss : ℕ

/-- `rsp0` is the one of the task state segment. -/
structure Cpu where
  regs : Regs
  cr3 : ℕ
  rsp0 : ℕ

structure Context where
  cr3 : ℕ
  regs : Regs
  rsp0 : ℕ

/-- `sizeof(Context)` -/
def contextSize : ℕ := 176

/-- `sizeof(struct trap_frame)` -/
def frameSize : ℕ := 232

/-- The place of a register in the `Context` at `c`. -/
def gprAt (c : ℕ) (g : Gpr) : ℕ := c + 8 + 8 * Gpr.all.idxOf g

/-- The `Context` at an address. -/
def contextAt (mem : Mem) (c : ℕ) : Context where
  cr3 := mem c
  regs :=
    { gpr := fun g ↦ mem (gprAt c g)
      rip := mem (c + 128)
      cs := mem (c + 136)
      rflags := mem (c + 144)
      rsp := mem (c + 152)
      ss := mem (c + 160) }
  rsp0 := mem (c + 168)

/-- The processor goes on at the stack pointer, or at `rsp0` when it was in user mode. -/
def Cpu.stackTop (cpu : Cpu) : ℕ :=
  (if cpu.regs.cs % 4 = 0 then cpu.regs.rsp else cpu.rsp0) / 16 * 16

/-- What the processor and the entry `__am_irq` push; the error code is the processor's or 0. -/
def enter (cpu : Cpu) (errcode irq : ℕ) (mem : Mem) : ℕ × Mem :=
  pushes [cpu.regs.ss, cpu.regs.rsp, cpu.regs.rflags, cpu.regs.cs, cpu.regs.rip, errcode, irq]
    (cpu.stackTop, mem)

/-- `trap`, up to the call of `__am_irq_handle`. -/
def save (gpr : Gpr → ℕ) (s : ℕ × Mem) : ℕ × Mem :=
  pushes (Gpr.all.reverse.map gpr ++ [0]) (s.1 - 48, s.2)

/-- The assignments of `__am_irq_handle` to the saved context. -/
def fillContext (cpu : Cpu) (tf : ℕ) (mem : Mem) : Mem :=
  let mem := Function.update mem (tf + 128) (mem (tf + 192))
  let mem := Function.update mem (tf + 136) (mem (tf + 200))
  let mem := Function.update mem (tf + 144) (mem (tf + 208))
  let mem := Function.update mem (tf + 152) (mem (tf + 216))
  let mem := Function.update mem (tf + 168) cpu.rsp0
  let mem := Function.update mem (tf + 160) (mem (tf + 224))
  Function.update mem tf cpu.cr3

/-- The frame of an interrupt and the memory, when `user_handler` is called. -/
def trap (cpu : Cpu) (errcode irq : ℕ) (mem : Mem) : ℕ × Mem :=
  let s := save cpu.regs.gpr (enter cpu errcode irq mem)
  (s.1, fillContext cpu s.1 s.2)

/-- `__am_iret`; `gpr` holds what the code before it has left. -/
def iret (mem : Mem) (c : ℕ) (gpr : Gpr → ℕ) : Regs :=
  let gpr := Function.update gpr .rax (mem (c + 160))
  let popped := pops mem Gpr.all (c + 8) gpr
  { gpr := popped.2
    rip := mem popped.1
    cs := mem (popped.1 + 8)
    rflags := mem (popped.1 + 16)
    rsp := mem (popped.1 + 24)
    ss := mem (popped.1 + 32) }

/-- The end of `__am_irq_handle`, after `user_handler` has returned `c`. -/
def resume (cpu : Cpu) (mem : Mem) (c : ℕ) (gpr : Gpr → ℕ) : Cpu where
  regs := iret mem c gpr
  cr3 := if mem c ≠ 0 then mem c else cpu.cr3
  rsp0 := if mem c ≠ 0 then mem (c + 168) else cpu.rsp0

/-- `KSEL(SEG_KCODE)` -/
def kernelCode : ℕ := 8

/-- `FL_IF` -/
def interruptFlag : ℕ := 512

/-- The `Context` of `kcontext`; `start` is `__am_kcontext_start`. -/
def newContext (start kstackEnd entry arg : ℕ) : Context where
  cr3 := 0
  regs :=
    { gpr := fun g ↦ if g = .rsi then entry else if g = .rdi then arg else 0
      rip := start
      cs := kernelCode
      rflags := interruptFlag
      rsp := kstackEnd
      ss := 0 }
  rsp0 := 0

/-- The context is zeroed before its fields are assigned. -/
def fillNew (start kstackEnd entry arg c : ℕ) (mem : Mem) : Mem :=
  let mem := overlay c (c + contextSize) (fun _ ↦ 0) mem
  let mem := Function.update mem (c + 136) kernelCode
  let mem := Function.update mem (c + 128) start
  let mem := Function.update mem (c + 144) interruptFlag
  let mem := Function.update mem (c + 152) kstackEnd
  let mem := Function.update mem (gprAt c .rdi) arg
  Function.update mem (gprAt c .rsi) entry

def kcontext (start kstackEnd entry arg : ℕ) (mem : Mem) : ℕ × Mem :=
  let c := kstackEnd - contextSize
  (c, fillNew start kstackEnd entry arg c mem)

end OsWorkbench.Am.Trap
