import OsWorkbench.Am.ContextSwitch
import Mathlib.Logic.Relation

namespace OsWorkbench.Am.Trap

open Library Relation

theorem contextAt_fillNew (start kstackEnd entry arg c : ℕ) (mem : Mem) :
    contextAt (fillNew start kstackEnd entry arg c mem) c =
      newContext start kstackEnd entry arg := by
  have hgpr : ∀ g, fillNew start kstackEnd entry arg c mem (gprAt c g) =
      if g = .rsi then entry else if g = .rdi then arg else 0 := by
    intro g
    cases g <;> simp [fillNew, gprAt, Gpr.all, Function.update, overlay, contextSize, Nat.add_assoc]
  rw [contextAt]
  simp only [hgpr, newContext]
  simp [fillNew, gprAt, Gpr.all, Function.update, overlay, contextSize, Nat.add_assoc]

theorem contextAt_congr {mem mem' : Mem} {c : ℕ}
    (h : ∀ x, c ≤ x → x < c + contextSize → mem' x = mem x) :
    contextAt mem' c = contextAt mem c := by
  have hsize : contextSize = 176 := rfl
  have hat : ∀ k < 176, mem' (c + k) = mem (c + k) := fun k hk ↦ h _ (by omega) (by omega)
  have hgpr : ∀ g, mem' (gprAt c g) = mem (gprAt c g) := by
    intro g
    have hlt := g.idxOf_lt
    exact h _ (by rw [gprAt]; omega) (by rw [gprAt]; omega)
  rw [contextAt, contextAt, hat 128 (by decide), hat 136 (by decide), hat 144 (by decide),
    hat 152 (by decide), hat 160 (by decide), hat 168 (by decide)]
  simp only [hgpr, h c (Nat.le_refl c) (by omega)]

/-- The processor and the memory, the thread that runs, and the addresses of the contexts that
the handler keeps for the others. -/
structure Kernel (ι : Type*) where
  cpu : Cpu
  mem : Mem
  current : ι
  saved : ι → Option ℕ

inductive Act (ι : Type*)
  | run
  | create (i : ι) (start kstackEnd entry arg : ℕ)
  | interrupt (j : ι) (errcode irq : ℕ)

variable {ι : Type*}

/-- Nothing is written over the saved contexts. -/
def Keeps (saved : ι → Option ℕ) (mem mem' : Mem) : Prop :=
  ∀ i c, saved i = some c → ∀ x, c ≤ x → x < c + contextSize → mem' x = mem x

variable [DecidableEq ι]

namespace Kernel

def create (s : Kernel ι) (i : ι) (start kstackEnd entry arg : ℕ) : Kernel ι :=
  let made := kcontext start kstackEnd entry arg s.mem
  { s with mem := made.2, saved := Function.update s.saved i (some made.1) }

/-- The contexts that `user_handler` can return, the one it was called with included. -/
def stopped (s : Kernel ι) (errcode irq : ℕ) : ι → Option ℕ :=
  Function.update s.saved s.current (some (trap s.cpu errcode irq s.mem).1)

/-- `user_handler` leaves `mem` and returns `c`, the context of `j`. -/
def switch (s : Kernel ι) (j : ι) (errcode irq c : ℕ) (mem : Mem) (gpr : Gpr → ℕ) : Kernel ι where
  cpu := resume s.cpu mem c gpr
  mem := mem
  current := j
  saved := Function.update (s.stopped errcode irq) j none

/-- A thread computes, or makes another one, or is interrupted. Stacks are apart: neither what a
thread or `user_handler` writes nor a new frame lies over the saved contexts. -/
inductive Step : Kernel ι → Act ι → Kernel ι → Prop
  | run (s : Kernel ι) (regs : Regs) (mem : Mem) : Keeps s.saved s.mem mem →
      Step s .run { s with cpu := { s.cpu with regs := regs }, mem := mem }
  | create (s : Kernel ι) (i : ι) (start kstackEnd entry arg : ℕ) :
      s.saved i = none → i ≠ s.current → contextSize ≤ kstackEnd →
      Keeps s.saved s.mem (kcontext start kstackEnd entry arg s.mem).2 →
      Step s (.create i start kstackEnd entry arg) (s.create i start kstackEnd entry arg)
  | interrupt (s : Kernel ι) (j : ι) (errcode irq c : ℕ) (mem : Mem) (gpr : Gpr → ℕ) :
      frameSize ≤ s.cpu.stackTop → Keeps s.saved s.mem (trap s.cpu errcode irq s.mem).2 →
      Keeps (s.stopped errcode irq) (trap s.cpu errcode irq s.mem).2 mem →
      s.stopped errcode irq j = some c →
      Step s (.interrupt j errcode irq) (s.switch j errcode irq c mem gpr)

end Kernel

/-- A machine in which every thread has a context of its own and no memory is needed for it. -/
structure Ideal (ι : Type*) where
  cpu : Cpu
  current : ι
  contexts : ι → Option Context

namespace Ideal

def stopped (s : Ideal ι) : ι → Option Context :=
  Function.update s.contexts s.current (some s.cpu.context)

inductive Step : Ideal ι → Act ι → Ideal ι → Prop
  | run (s : Ideal ι) (regs : Regs) : Step s .run { s with cpu := { s.cpu with regs := regs } }
  | create (s : Ideal ι) (i : ι) (start kstackEnd entry arg : ℕ) :
      s.contexts i = none → i ≠ s.current →
      Step s (.create i start kstackEnd entry arg)
        { s with contexts :=
            Function.update s.contexts i (some (newContext start kstackEnd entry arg)) }
  | interrupt (s : Ideal ι) (j : ι) (errcode irq : ℕ) (k : Context) : s.stopped j = some k →
      Step s (.interrupt j errcode irq) ⟨k.cpu s.cpu, j, Function.update s.stopped j none⟩

variable {s s' s'' : Ideal ι} {a : Act ι} {i : ι} {k : Context}

theorem Step.left (h : Step s a s') (hne : s'.current ≠ s.current) :
    s'.contexts s.current = some s.cpu.context := by
  cases h with
  | run regs => exact absurd rfl hne
  | create i start kstackEnd entry arg hi hcur => exact absurd rfl hne
  | interrupt j errcode irq k hk =>
    exact (Function.update_of_ne (Ne.symm hne) _ _).trans (Function.update_self _ _ _)

theorem Step.made {start kstackEnd entry arg : ℕ}
    (h : Step s (.create i start kstackEnd entry arg) s') :
    s'.contexts i = some (newContext start kstackEnd entry arg) := by
  cases h
  exact Function.update_self _ _ _

theorem Step.kept (h : Step s a s') (hk : s.contexts i = some k) (hcur : s.current ≠ i)
    (hne : s'.current ≠ i) : s'.contexts i = some k := by
  cases h with
  | run regs => exact hk
  | create j start kstackEnd entry arg hj hcur' =>
    have hij : i ≠ j := by
      intro hij
      rw [hij, hj] at hk
      cases hk
    exact (Function.update_of_ne hij _ _).trans hk
  | interrupt j errcode irq k' hk' =>
    rw [← hk]
    exact (Function.update_of_ne (Ne.symm hne) _ _).trans
      (Function.update_of_ne (Ne.symm hcur) _ _)

theorem Step.resumed (h : Step s a s') (hk : s.contexts i = some k) (hcur : s.current ≠ i)
    (hi : s'.current = i) : s'.cpu = k.cpu s.cpu := by
  cases h with
  | run regs => exact absurd hi hcur
  | create j start kstackEnd entry arg hj hcur' => exact absurd hi hcur
  | interrupt j errcode irq k' hk' =>
    obtain rfl : j = i := hi
    rw [stopped, Function.update_of_ne (Ne.symm hcur), hk] at hk'
    rw [Option.some_inj.mp hk']

end Ideal

namespace Kernel

variable {s s' s₁ s₂ s₃ : Kernel ι} {a : Act ι} {i : ι} {k : Context}

/-- The contexts that are saved in memory. -/
def abs (s : Kernel ι) : Ideal ι := ⟨s.cpu, s.current, fun i ↦ (s.saved i).map (contextAt s.mem)⟩

omit [DecidableEq ι] in
theorem contexts_of_keeps {saved : ι → Option ℕ} {mem mem' : Mem} (h : Keeps saved mem mem') :
    (fun i ↦ (saved i).map (contextAt mem')) = fun i ↦ (saved i).map (contextAt mem) := by
  funext i
  cases hi : saved i with
  | none => rfl
  | some c => exact congrArg some (contextAt_congr (h i c hi))

theorem map_update {f : ℕ → Context} {saved : ι → Option ℕ} (i : ι) (c : Option ℕ) :
    (fun j ↦ (Function.update saved i c j).map f) =
      Function.update (fun j ↦ (saved j).map f) i (c.map f) := by
  funext j
  by_cases hj : j = i
  · rw [hj, Function.update_self, Function.update_self]
  · rw [Function.update_of_ne hj, Function.update_of_ne hj]

/-- Saving and restoring in memory is the switch of the ideal machine. -/
theorem Step.refines (h : Step s a s') : Ideal.Step s.abs a s'.abs := by
  cases h with
  | run regs mem hkeeps =>
    have habs := congrArg (Ideal.mk { s.cpu with regs := regs } s.current)
      (contexts_of_keeps hkeeps)
    refine (congrArg (Ideal.Step s.abs .run) habs).mpr ?_
    exact .run s.abs regs
  | create i start kstackEnd entry arg hi hne hsize hkeeps =>
    have hnone : s.abs.contexts i = none := congrArg (Option.map (contextAt s.mem)) hi
    have hcontexts : (s.create i start kstackEnd entry arg).abs.contexts =
        Function.update s.abs.contexts i (some (newContext start kstackEnd entry arg)) := by
      have hmem : (s.create i start kstackEnd entry arg).mem =
          (kcontext start kstackEnd entry arg s.mem).2 := rfl
      have hnew : contextAt (kcontext start kstackEnd entry arg s.mem).2
          (kcontext start kstackEnd entry arg s.mem).1 = newContext start kstackEnd entry arg :=
        contextAt_fillNew _ _ _ _ _ _
      refine (map_update i _).trans ?_
      rw [hmem, contexts_of_keeps hkeeps, Option.map_some, hnew]
      rfl
    have habs := congrArg (Ideal.mk s.cpu s.current) hcontexts
    refine (congrArg (Ideal.Step s.abs _) habs).mpr ?_
    exact .create s.abs i start kstackEnd entry arg hnone hne
  | interrupt j errcode irq c mem gpr hroom hframe hkeeps hj =>
    have hcontext : contextAt (trap s.cpu errcode irq s.mem).2 (trap s.cpu errcode irq s.mem).1 =
        s.cpu.context := by
      rw [trap_fst]
      exact contextAt_trap hroom
    have hstopped : (fun i ↦ (s.stopped errcode irq i).map (contextAt mem)) = s.abs.stopped := by
      rw [contexts_of_keeps hkeeps]
      refine (map_update s.current _).trans ?_
      rw [contexts_of_keeps hframe, Option.map_some, hcontext]
      rfl
    have hk : s.abs.stopped j = some (contextAt mem c) := by
      rw [← hstopped]
      exact congrArg (Option.map (contextAt mem)) hj
    have hcontexts : (s.switch j errcode irq c mem gpr).abs.contexts =
        Function.update s.abs.stopped j none := by
      rw [← hstopped]
      exact map_update j none
    have habs := congrArg (Ideal.mk (resume s.cpu mem c gpr) j) hcontexts
    rw [resume_eq] at habs
    have hswitch : (s.switch j errcode irq c mem gpr).abs =
        ⟨(contextAt mem c).cpu s.cpu, j, Function.update s.abs.stopped j none⟩ := by
      rw [← habs, ← resume_eq s.cpu mem c gpr]
      rfl
    rw [hswitch]
    exact .interrupt s.abs j errcode irq (contextAt mem c) hk

/-- A run in which `i` is not the current thread. -/
def Away (i : ι) : Kernel ι → Kernel ι → Prop :=
  ReflTransGen fun s s' ↦ (∃ a, Step s a s') ∧ s'.current ≠ i

theorem Away.kept (h : Away i s s') (hk : s.abs.contexts i = some k) (hcur : s.current ≠ i) :
    s'.abs.contexts i = some k ∧ s'.current ≠ i := by
  induction h with
  | refl => exact ⟨hk, hcur⟩
  | tail hrun hstep ih =>
    obtain ⟨⟨a, hstep⟩, hne⟩ := hstep
    exact ⟨hstep.refines.kept ih.1 ih.2 hne, hne⟩

theorem Away.resumed (hrun : Away i s₁ s₂) (hk : s₁.abs.contexts i = some k)
    (hcur : s₁.current ≠ i) (hback : Step s₂ a s₃) (hi : s₃.current = i) :
    s₃.cpu = k.cpu s₂.cpu := by
  obtain ⟨hkept, hne⟩ := hrun.kept hk hcur
  exact hback.refines.resumed hkept hne hi

/-- Whatever the other threads, the handler and further interrupts do meanwhile, a thread goes on
with the registers it was interrupted with, in its address space where it has one; a thread that
`kcontext` made begins at its start with its argument and entry, in that of the moment. -/
theorem context_switch (hrun : Away i s₁ s₂) (hcur : s₁.current ≠ i) (hback : Step s₂ a s₃)
    (hi : s₃.current = i) :
    (∀ s a, Step s a s₁ → s.current = i →
      s₃.cpu.regs = s.cpu.regs ∧ (s.cpu.cr3 ≠ 0 → s₃.cpu = s.cpu)) ∧
    ∀ s start kstackEnd entry arg, Step s (.create i start kstackEnd entry arg) s₁ →
      s₃.cpu = ⟨(newContext start kstackEnd entry arg).regs, s₂.cpu.cr3, s₂.cpu.rsp0⟩ := by
  constructor
  · intro s a hleave hsi
    have hne : s₁.current ≠ s.current := by rw [hsi]; exact hcur
    have hk : s₁.abs.contexts s.current = some s.cpu.context := hleave.refines.left hne
    rw [hsi] at hk
    have hcpu := hrun.resumed hk hcur hback hi
    refine ⟨by rw [hcpu]; rfl, fun hcr3 ↦ ?_⟩
    have hspace : s.cpu.context.cr3 ≠ 0 := hcr3
    rw [hcpu, Context.cpu, if_pos hspace, if_pos hspace]
    rfl
  · intro s start kstackEnd entry arg hmade
    exact hrun.resumed hmade.refines.made hcur hback hi

end Kernel

/-- A thread with its stack below `0x2000`; the other one is made on that below `0x3000`. -/
def sampleKernel : Kernel Bool where
  cpu :=
    { regs := ⟨fun g ↦ Gpr.all.idxOf g, 0x100000, kernelCode, interruptFlag, 0x2000, 0⟩
      cr3 := 0x5000
      rsp0 := 0 }
  mem := fun _ ↦ 7
  current := false
  saved := fun _ ↦ none

def sampleMade : Kernel Bool := sampleKernel.create true 0x200000 0x3000 1 2

def sampleLeft : Kernel Bool :=
  sampleMade.switch true 0 129 (0x3000 - contextSize)
    (trap sampleMade.cpu 0 129 sampleMade.mem).2 (fun _ ↦ 0)

def sampleBack : Kernel Bool :=
  sampleLeft.switch false 0 129 (0x2000 - frameSize)
    (trap sampleLeft.cpu 0 129 sampleLeft.mem).2 (fun _ ↦ 0)

theorem sample_context_switch : sampleBack.cpu = sampleKernel.cpu := by
  have hfirst : sampleMade.cpu.stackTop = 0x2000 := by decide +kernel
  have hsecond : sampleLeft.cpu.stackTop = 0x3000 := by decide +kernel
  have hleave : Kernel.Step sampleMade (.interrupt true 0 129) sampleLeft := by
    refine .interrupt sampleMade true 0 129 _ _ _ ?_ ?_ ?_ rfl
    · rw [hfirst]
      decide
    · intro i c hi x hlo hhi
      cases i with
      | false => cases hi
      | true =>
        cases hi
        apply trap_outside
        · rw [hfirst]
          decide
        · rw [hfirst]
          exact Or.inr (Nat.le_trans (by decide) hlo)
    · exact fun _ _ _ _ _ _ ↦ rfl
  have hback : Kernel.Step sampleLeft (.interrupt false 0 129) sampleBack := by
    refine .interrupt sampleLeft false 0 129 _ _ _ ?_ ?_ ?_ ?_
    · rw [hsecond]
      decide
    · intro i c hi x hlo hhi
      have hc : some c = if i then none else some (0x2000 - frameSize) := by
        rw [← hi]
        cases i <;> decide +kernel
      cases i with
      | true => cases hc
      | false =>
        cases hc
        apply trap_outside
        · rw [hsecond]
          decide
        · rw [hsecond]
          exact Or.inl (Nat.lt_of_lt_of_le hhi (by decide))
    · exact fun _ _ _ _ _ _ ↦ rfl
    · decide +kernel
  have haway : Kernel.Away false sampleLeft sampleLeft := .refl
  have hswitch := Kernel.context_switch haway (by decide) hback rfl
  exact (hswitch.1 sampleMade _ hleave rfl).2 (by decide)

end OsWorkbench.Am.Trap
