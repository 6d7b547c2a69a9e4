import OsWorkbench.Am.Trap
import Mathlib.Logic.Relation

namespace OsWorkbench.Am.Trap

open Library Library.Stack

theorem Gpr.nodup_all : Gpr.all.Nodup := by decide

theorem Gpr.idxOf_lt (g : Gpr) : Gpr.all.idxOf g < 15 := by
  cases g <;> decide

theorem Gpr.getElem_idxOf (g : Gpr) (h : Gpr.all.idxOf g < Gpr.all.length) :
    Gpr.all[Gpr.all.idxOf g] = g := by
  cases g <;> rfl

/-- What an interrupt saves. -/
def Cpu.context (cpu : Cpu) : Context := ⟨cpu.cr3, cpu.regs, cpu.rsp0⟩

/-- The processor after it has gone on with a context; an address space of `NULL` is no switch. -/
def Context.cpu (k : Context) (cpu : Cpu) : Cpu where
  regs := k.regs
  cr3 := if k.cr3 ≠ 0 then k.cr3 else cpu.cr3
  rsp0 := if k.cr3 ≠ 0 then k.rsp0 else cpu.rsp0

variable {cpu : Cpu} {mem : Mem} {c x errcode irq : ℕ}

theorem resume_eq (cpu : Cpu) (mem : Mem) (c : ℕ) (gpr : Gpr → ℕ) :
    resume cpu mem c gpr = (contextAt mem c).cpu cpu := by
  have hsp : ∀ gpr', (pops mem Gpr.all (c + 8) gpr').1 = c + 128 := fun gpr' ↦ pops_sp _ _ _
  have hgpr : ∀ gpr', (pops mem Gpr.all (c + 8) gpr').2 = fun g ↦ mem (gprAt c g) := by
    intro gpr'
    funext g
    have hword := @pops_word ℕ (c + 8) mem Gpr _ Gpr.all gpr' Gpr.nodup_all _ g.idxOf_lt
    rw [g.getElem_idxOf g.idxOf_lt] at hword
    exact hword
  simp only [resume, iret, hsp, hgpr, contextAt, Context.cpu, Nat.add_assoc, Nat.reduceAdd]
  rfl

theorem trap_fst (cpu : Cpu) (errcode irq : ℕ) (mem : Mem) :
    (trap cpu errcode irq mem).1 = cpu.stackTop - frameSize := by
  rw [trap, save, pushes_sp, enter, pushes_sp]
  simp only [List.length_append, List.length_map, List.length_reverse, Gpr.all, List.length_cons,
    List.length_nil, frameSize]
  omega

theorem trap_snd (cpu : Cpu) (errcode irq : ℕ) (mem : Mem) :
    (trap cpu errcode irq mem).2 = fillContext cpu (cpu.stackTop - frameSize)
      (save cpu.regs.gpr (enter cpu errcode irq mem)).2 := by
  have hfst := trap_fst cpu errcode irq mem
  simp only [trap] at hfst ⊢
  rw [hfst]

theorem contextAt_fillContext (cpu : Cpu) (tf : ℕ) (mem : Mem) :
    contextAt (fillContext cpu tf mem) tf =
      { cr3 := cpu.cr3
        regs :=
          { gpr := fun g ↦ mem (gprAt tf g)
            rip := mem (tf + 192)
            cs := mem (tf + 200)
            rflags := mem (tf + 208)
            rsp := mem (tf + 216)
            ss := mem (tf + 224) }
        rsp0 := cpu.rsp0 } := by
  have hgpr : ∀ g, fillContext cpu tf mem (gprAt tf g) = mem (gprAt tf g) := by
    intro g
    have hlt := g.idxOf_lt
    simp only [fillContext, Function.update, gprAt, eq_rec_constant]
    repeat rw [dif_neg (by omega)]
  rw [contextAt]
  simp only [hgpr]
  simp [fillContext, Function.update]

theorem fillContext_outside (hx : x < c ∨ c + contextSize ≤ x) :
    fillContext cpu c mem x = mem x := by
  rw [contextSize] at hx
  simp only [fillContext, Function.update, eq_rec_constant]
  repeat rw [dif_neg (by omega)]

section Save

variable {gpr : Gpr → ℕ} {sp : ℕ}

theorem length_saved (gpr : Gpr → ℕ) : (Gpr.all.reverse.map gpr ++ [0]).length = 16 := rfl

theorem save_outside (h : contextSize ≤ sp) (hx : x < sp - contextSize ∨ sp - 48 ≤ x) :
    (save gpr (sp, mem)).2 x = mem x := by
  rw [contextSize] at h hx
  refine pushes_outside ?_ ?_ <;> rw [length_saved] <;> dsimp only <;> omega

theorem save_gpr (h : contextSize ≤ sp) (g : Gpr) :
    (save gpr (sp, mem)).2 (gprAt (sp - contextSize) g) = gpr g := by
  have hlt := g.idxOf_lt
  have hlen := length_saved gpr
  have hword := @pushes_word ℕ (Gpr.all.reverse.map gpr ++ [0]) (sp - 48) mem
    (by rw [contextSize] at h; omega) (14 - Gpr.all.idxOf g) (by omega)
  have hat : gprAt (sp - contextSize) g = sp - 48 - 8 * (14 - Gpr.all.idxOf g + 1) := by
    rw [contextSize] at h
    rw [gprAt, contextSize]
    omega
  rw [hat]
  refine hword.trans ?_
  cases g <;> rfl

end Save

theorem enter_word (h : frameSize ≤ cpu.stackTop) {i : ℕ} (hi : i < 7) :
    (enter cpu errcode irq mem).2 (cpu.stackTop - 8 * (i + 1)) =
      [cpu.regs.ss, cpu.regs.rsp, cpu.regs.rflags, cpu.regs.cs, cpu.regs.rip, errcode, irq][i] := by
  rw [frameSize] at h
  exact pushes_word (by simp only [List.length_cons, List.length_nil]; omega) hi

/-- The saved context is the state of the processor at the interrupt. -/
theorem contextAt_trap (h : frameSize ≤ cpu.stackTop) :
    contextAt (trap cpu errcode irq mem).2 (cpu.stackTop - frameSize) = cpu.context := by
  have hsp : (enter cpu errcode irq mem).1 = cpu.stackTop - 56 := pushes_sp _ _ _
  have hsize : frameSize = 232 := rfl
  have hcontext : contextSize = 176 := rfl
  have hbase : cpu.stackTop - 56 - contextSize = cpu.stackTop - frameSize := by omega
  have henter : enter cpu errcode irq mem =
      (cpu.stackTop - 56, (enter cpu errcode irq mem).2) := Prod.ext hsp rfl
  have hgpr : ∀ g, (save cpu.regs.gpr (enter cpu errcode irq mem)).2
      (gprAt (cpu.stackTop - frameSize) g) = cpu.regs.gpr g := by
    intro g
    rw [henter, ← hbase]
    exact save_gpr (by omega) g
  have hframe : ∀ i (hi : i < 7), (save cpu.regs.gpr (enter cpu errcode irq mem)).2
      (cpu.stackTop - frameSize + (224 - 8 * i)) = [cpu.regs.ss, cpu.regs.rsp, cpu.regs.rflags,
        cpu.regs.cs, cpu.regs.rip, errcode, irq][i] := by
    intro i hi
    have hat : cpu.stackTop - frameSize + (224 - 8 * i) = cpu.stackTop - 8 * (i + 1) := by omega
    rw [henter, hat, save_outside (by omega) (by omega)]
    exact enter_word h hi
  rw [trap_snd, contextAt_fillContext]
  simp only [hgpr]
  have hss := hframe 0 (by decide)
  have hrsp := hframe 1 (by decide)
  have hrflags := hframe 2 (by decide)
  have hcs := hframe 3 (by decide)
  have hrip := hframe 4 (by decide)
  simp only [Nat.mul_zero, Nat.sub_zero, Nat.reduceMul, Nat.reduceSub, List.getElem_cons_zero,
    List.getElem_cons_succ] at hss hrsp hrflags hcs hrip
  rw [hss, hrsp, hrflags, hcs, hrip]
  rfl

/-- An interrupt writes its frame only. -/
theorem trap_outside (h : frameSize ≤ cpu.stackTop)
    (hx : x < cpu.stackTop - frameSize ∨ cpu.stackTop ≤ x) :
    (trap cpu errcode irq mem).2 x = mem x := by
  have hsp : (enter cpu errcode irq mem).1 = cpu.stackTop - 56 := pushes_sp _ _ _
  have hsize : frameSize = 232 := rfl
  have hcontext : contextSize = 176 := rfl
  have henter : enter cpu errcode irq mem =
      (cpu.stackTop - 56, (enter cpu errcode irq mem).2) := Prod.ext hsp rfl
  have hpushed : (enter cpu errcode irq mem).2 x = mem x := by
    refine pushes_outside ?_ ?_ <;> simp only [List.length_cons, List.length_nil] <;> omega
  rw [trap_snd, fillContext_outside (by omega), henter, save_outside (by omega) (by omega), hpushed]

end OsWorkbench.Am.Trap
