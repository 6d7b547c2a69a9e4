import OsWorkbench.Library.Overlay
import Mathlib.Tactic.SplitIfs

namespace OsWorkbench.Am.Trap32

open Library

/-- The words of the memory, each at its address divided by four. -/
abbrev Mem := ℕ → ℕ

structure Context where
  cr3 : ℕ
  ds : ℕ
  eax : ℕ
  ebx : ℕ
  ecx : ℕ
  edx : ℕ
  esp0 : ℕ
  esi : ℕ
  edi : ℕ
  ebp : ℕ
  eip : ℕ
  cs : ℕ
  eflags : ℕ
  esp : ℕ
  ss3 : ℕ

def contextAt (mem : Mem) (c : ℕ) : Context :=
  ⟨mem c, mem (c + 1), mem (c + 2), mem (c + 3), mem (c + 4), mem (c + 5), mem (c + 6),
    mem (c + 7), mem (c + 8), mem (c + 9), mem (c + 10), mem (c + 11), mem (c + 12), mem (c + 13),
    mem (c + 14)⟩

structure Cpu where
  ds : ℕ
  es : ℕ
  eax : ℕ
  ebx : ℕ
  ecx : ℕ
  edx : ℕ
  esi : ℕ
  edi : ℕ
  ebp : ℕ
  eip : ℕ
  cs : ℕ
  eflags : ℕ
  esp : ℕ
  ss : ℕ

/-- `KSEL(SEG_KCODE)` -/
def kernelCode : ℕ := 8

/-- `USEL(SEG_UDATA)` -/
def userData : ℕ := 35

/-- `tf->cs & DPL_USER` -/
def Cpu.User (cpu : Cpu) : Prop := cpu.cs % 4 ≠ 0

instance Cpu.decidableUser (cpu : Cpu) : Decidable cpu.User := inferInstanceAs (Decidable (_ ≠ _))

/-- What `push` instructions leave, the last word first. -/
def pushed (sp : ℕ) (words : List ℕ) (mem : Mem) : Mem :=
  overlay (sp - words.length) sp (fun i ↦ words.getD i 0) mem

/-- What the processor and the entry `__am_irq` push; `ss` and `esp` only from user mode. -/
def entryWords (cpu : Cpu) (errcode irq : ℕ) : List ℕ :=
  [irq, errcode, cpu.eip, cpu.cs, cpu.eflags] ++ if cpu.User then [cpu.esp, cpu.ss] else []

/-- `movw %ds, %ax` leaves the upper half of `eax` above the segment. -/
def dsWord (cpu : Cpu) : ℕ := cpu.eax / 65536 * 65536 + cpu.ds % 65536

def savedWords (cpu : Cpu) : List ℕ :=
  [0, dsWord cpu, cpu.eax, cpu.ebx, cpu.ecx, cpu.edx, 0, cpu.esi, cpu.edi, cpu.ebp]

/-- The assignments of `__am_irq_handle`, with `get_cr3()` and the `esp0` of the task state
segment; from the kernel the stack pointer is where the frame ends but for `esp` and `ss`. -/
def fillContext (cr3 esp0 tf : ℕ) (mem : Mem) : Mem :=
  let esp := if mem (tf + 18) % 4 ≠ 0 then mem (tf + 20) else tf + 22 - 2
  let mem := Function.update mem (tf + 10) (mem (tf + 17))
  let mem := Function.update mem (tf + 11) (mem (tf + 18))
  let mem := Function.update mem (tf + 12) (mem (tf + 19))
  let mem := Function.update mem (tf + 6) esp0
  let mem := Function.update mem (tf + 14) userData
  let mem := Function.update mem (tf + 13) esp
  Function.update mem tf cr3

/-- The frame, and the memory after the assignments of `__am_irq_handle`; `pushl %esp` and the call
have left the frame and the return address, which is that of `__am_iret`, below. What the compiler
keeps on the stack below them is left out. -/
def trap (cpu : Cpu) (cr3 esp0 errcode irq amIret : ℕ) (mem : Mem) : ℕ × Mem :=
  let top := if cpu.User then esp0 else cpu.esp
  let sp := top - (entryWords cpu errcode irq).length
  let tf := sp - 15
  (tf, fillContext cr3 esp0 tf (pushed tf [amIret, tf] (pushed (sp - 5) (savedWords cpu)
    (pushed top (entryWords cpu errcode irq) mem))))

/-- The moves of `.kernel_iret`, from the highest word down. -/
def moveDown (src dst : ℕ) : ℕ → Mem → Mem
  | 0, mem => mem
  | n + 1, mem => moveDown src dst n (Function.update mem (dst + n) (mem (src + n)))

def userIret (mem : Mem) (c : ℕ) : Cpu where
  ds := mem (c + 1) % 65536
  es := mem (c + 1) % 65536
  eax := mem (c + 2)
  ebx := mem (c + 3)
  ecx := mem (c + 4)
  edx := mem (c + 5)
  esi := mem (c + 7)
  edi := mem (c + 8)
  ebp := mem (c + 9)
  eip := mem (c + 10)
  cs := mem (c + 11)
  eflags := mem (c + 12)
  esp := mem (c + 13)
  ss := mem (c + 14)

/-- The words from `esi` to `eflags` go below the stack pointer of the context, where they are
popped. -/
def kernelIret (mem : Mem) (c ss : ℕ) : Cpu × Mem :=
  let ebp := c + 7
  let esp := mem (ebp + 6) - 6
  let moved := moveDown ebp esp 6 mem
  ({ ds := mem (c + 1) % 65536
     es := mem (c + 1) % 65536
     eax := mem (c + 2)
     ebx := mem (c + 3)
     ecx := mem (c + 4)
     edx := mem (c + 5)
     esi := moved esp
     edi := moved (esp + 1)
     ebp := moved (esp + 2)
     eip := moved (esp + 3)
     cs := moved (esp + 4)
     eflags := moved (esp + 5)
     esp := esp + 6
     ss := ss }, moved)

/-- `__am_iret`; `cmpw` compares 16 bits of `cs`. -/
def iret (mem : Mem) (c ss : ℕ) : Cpu × Mem :=
  if mem (c + 11) % 65536 = kernelCode then kernelIret mem c ss else (userIret mem c, mem)

variable {mem : Mem} {src dst c ss n : ℕ}

/-- Words moved from the highest down survive where they go up, or where they go clear of their
source. -/
theorem moveDown_eq (h : src ≤ dst ∨ dst + n ≤ src) (mem : Mem) :
    moveDown src dst n mem = overlay dst (dst + n) (fun i ↦ mem (src + i)) mem := by
  induction n generalizing mem with
  | zero => exact (overlay_empty (Nat.le_refl dst)).symm
  | succ n ih =>
    rw [moveDown, ih (by omega)]
    funext x
    by_cases hx : dst ≤ x ∧ x < dst + n
    · rw [overlay_inside hx.1 hx.2, overlay_inside hx.1 (by omega),
        Function.update_of_ne (by omega)]
    · rw [overlay_outside hx]
      by_cases hlast : x = dst + n
      · rw [hlast, Function.update_self, overlay_inside (by omega) (by omega),
          Nat.add_sub_cancel_left]
      · rw [Function.update_of_ne hlast, overlay_outside (by omega)]

/-- The processor after it has gone on with a context; `es` is loaded with `ds`, and in the kernel
`ss` is not loaded. -/
def Context.cpu (k : Context) (ss : ℕ) : Cpu where
  ds := k.ds % 65536
  es := k.ds % 65536
  eax := k.eax
  ebx := k.ebx
  ecx := k.ecx
  edx := k.edx
  esi := k.esi
  edi := k.edi
  ebp := k.ebp
  eip := k.eip
  cs := k.cs
  eflags := k.eflags
  esp := k.esp
  ss := if k.cs % 65536 = kernelCode then ss else k.ss3

/-- Where the moves of `.kernel_iret` do not write over words that are still to be moved. -/
def Context.Placed (k : Context) (c : ℕ) : Prop :=
  k.cs % 65536 = kernelCode → 6 ≤ k.esp ∧ (c + 13 ≤ k.esp ∨ k.esp ≤ c + 7)

theorem iret_fst (h : (contextAt mem c).Placed c) (ss : ℕ) :
    (iret mem c ss).1 = (contextAt mem c).cpu ss := by
  rw [iret]
  by_cases hcs : mem (c + 11) % 65536 = kernelCode
  · obtain ⟨hroom, happart⟩ := h hcs
    have hesp : (contextAt mem c).esp = mem (c + 7 + 6) := rfl
    rw [hesp] at hroom happart
    have hmoved := @moveDown_eq (c + 7) (mem (c + 7 + 6) - 6) 6 (by omega) mem
    have hword : ∀ i < 6, moveDown (c + 7) (mem (c + 7 + 6) - 6) 6 mem
        (mem (c + 7 + 6) - 6 + i) = mem (c + 7 + i) := by
      intro i hi
      rw [hmoved, overlay_inside (Nat.le_add_right _ i) (by omega), Nat.add_sub_cancel_left]
    have hsp : mem (c + 7 + 6) - 6 + 6 = mem (c + 7 + 6) := Nat.sub_add_cancel hroom
    have hfirst : moveDown (c + 7) (mem (c + 7 + 6) - 6) 6 mem (mem (c + 7 + 6) - 6) =
        mem (c + 7) :=
      hword 0 (by decide)
    rw [if_pos hcs, kernelIret, Context.cpu, contextAt]
    simp only [hfirst, hword 1 (by decide), hword 2 (by decide), hword 3 (by decide),
      hword 4 (by decide), hword 5 (by decide), hsp]
    rw [if_pos hcs]
  · rw [if_neg hcs, userIret, Context.cpu, contextAt]
    simp only
    rw [if_neg hcs]

/-- What `__am_irq_handle` has saved of a processor. -/
def Cpu.context (cpu : Cpu) (cr3 esp0 : ℕ) : Context :=
  ⟨cr3, dsWord cpu, cpu.eax, cpu.ebx, cpu.ecx, cpu.edx, esp0, cpu.esi, cpu.edi, cpu.ebp, cpu.eip,
    cpu.cs, cpu.eflags, cpu.esp, userData⟩

variable {cpu : Cpu} {cr3 esp0 errcode irq amIret : ℕ}

theorem contextAt_kernel (hcs : cpu.cs % 4 = 0) {tf : ℕ} (hesp : cpu.esp = tf + 20) (mem : Mem) :
    contextAt (fillContext cr3 esp0 tf (pushed (tf + 10) (savedWords cpu)
      (pushed (tf + 20) [irq, errcode, cpu.eip, cpu.cs, cpu.eflags] mem))) tf =
        cpu.context cr3 esp0 := by
  simp [contextAt, fillContext, pushed, overlay, savedWords, Function.update, hcs, Cpu.context,
    hesp]

theorem contextAt_user (hcs : cpu.cs % 4 ≠ 0) (tf : ℕ) (mem : Mem) :
    contextAt (fillContext cr3 esp0 tf (pushed (tf + 10) (savedWords cpu)
      (pushed (tf + 22) [irq, errcode, cpu.eip, cpu.cs, cpu.eflags, cpu.esp, cpu.ss] mem))) tf =
        cpu.context cr3 esp0 := by
  simp [contextAt, fillContext, pushed, overlay, savedWords, Function.update, hcs, Cpu.context]

theorem contextAt_congr {mem mem' : Mem} (h : ∀ k < 15, mem' (c + k) = mem (c + k)) :
    contextAt mem' c = contextAt mem c := by
  have hfirst : mem' c = mem c := h 0 (by decide)
  simp only [contextAt, hfirst, h 1 (by decide), h 2 (by decide), h 3 (by decide), h 4 (by decide),
    h 5 (by decide), h 6 (by decide), h 7 (by decide), h 8 (by decide), h 9 (by decide),
    h 10 (by decide), h 11 (by decide), h 12 (by decide), h 13 (by decide), h 14 (by decide)]

theorem fillContext_outside {tf x : ℕ} (hx : x < tf ∨ tf + 15 ≤ x) (mem : Mem) :
    fillContext cr3 esp0 tf mem x = mem x := by
  simp only [fillContext, Function.update, eq_rec_constant]
  repeat rw [dif_neg (by omega)]

/-- The stack pointer at which an interrupt begins its frame. -/
def Cpu.top (cpu : Cpu) (esp0 : ℕ) : ℕ := if cpu.User then esp0 else cpu.esp

theorem pushed_above {sp x : ℕ} (hx : sp ≤ x) (words : List ℕ) (mem : Mem) :
    pushed sp words mem x = mem x :=
  overlay_outside (by omega)

/-- What is pushed below the frame does not disturb the context. -/
theorem contextAt_pushed (tf : ℕ) (words : List ℕ) (mem : Mem) :
    contextAt (fillContext cr3 esp0 tf (pushed tf words mem)) tf =
      contextAt (fillContext cr3 esp0 tf mem) tf := by
  apply contextAt_congr
  intro k _
  have hpushed : ∀ i, pushed tf words mem (tf + i) = mem (tf + i) :=
    fun i ↦ pushed_above (Nat.le_add_right tf i) words mem
  simp only [fillContext, hpushed, Function.update, eq_rec_constant]

/-- The frame ends at the top of the stack; it holds the state of the processor, and nothing above
it is written. -/
theorem trap_spec (hroom : 24 ≤ cpu.top esp0) (mem : Mem) :
    (trap cpu cr3 esp0 errcode irq amIret mem).1 + (if cpu.User then 22 else 20) = cpu.top esp0 ∧
    contextAt (trap cpu cr3 esp0 errcode irq amIret mem).2
      (trap cpu cr3 esp0 errcode irq amIret mem).1 = cpu.context cr3 esp0 ∧
    ∀ x, cpu.top esp0 ≤ x → (trap cpu cr3 esp0 errcode irq amIret mem).2 x = mem x := by
  by_cases hu : cpu.User
  · rw [Cpu.top, if_pos hu] at hroom
    obtain ⟨tf, htf⟩ : ∃ tf, esp0 = tf + 22 := ⟨esp0 - 22, by omega⟩
    subst htf
    have htrap : trap cpu cr3 (tf + 22) errcode irq amIret mem = (tf, fillContext cr3 (tf + 22) tf
        (pushed tf [amIret, tf] (pushed (tf + 10) (savedWords cpu) (pushed (tf + 22)
          [irq, errcode, cpu.eip, cpu.cs, cpu.eflags, cpu.esp, cpu.ss] mem)))) := by
      simp [trap, entryWords, hu]
    rw [htrap, Cpu.top, if_pos hu, if_pos hu]
    refine ⟨rfl, (contextAt_pushed tf _ _).trans (contextAt_user hu tf mem), fun x hx ↦ ?_⟩
    simp only at hx ⊢
    rw [fillContext_outside (by omega), pushed_above (by omega), pushed_above (by omega),
      pushed_above hx]
  · rw [Cpu.top, if_neg hu] at hroom
    obtain ⟨tf, htf⟩ : ∃ tf, cpu.esp = tf + 20 := ⟨cpu.esp - 20, by omega⟩
    have hcs : cpu.cs % 4 = 0 := Decidable.not_not.mp hu
    have htrap : trap cpu cr3 esp0 errcode irq amIret mem = (tf, fillContext cr3 esp0 tf
        (pushed tf [amIret, tf] (pushed (tf + 10) (savedWords cpu) (pushed (tf + 20)
          [irq, errcode, cpu.eip, cpu.cs, cpu.eflags] mem)))) := by
      simp [trap, entryWords, hu, htf]
    rw [htrap, Cpu.top, if_neg hu, if_neg hu]
    refine ⟨htf.symm, (contextAt_pushed tf _ _).trans (contextAt_kernel hcs htf mem), fun x hx ↦ ?_⟩
    simp only at hx ⊢
    rw [fillContext_outside (by omega), pushed_above (by omega), pushed_above (by omega),
      pushed_above (by omega)]

/-- From the kernel the saved stack pointer is where the frame ends. -/
theorem context_esp (hroom : 24 ≤ cpu.top esp0) (hu : ¬ cpu.User) (errcode irq amIret : ℕ)
    (mem : Mem) :
    (cpu.context cr3 esp0).esp = (trap cpu cr3 esp0 errcode irq amIret mem).1 + 20 := by
  have htop := (@trap_spec cpu cr3 esp0 errcode irq amIret hroom mem).1
  rw [if_neg hu, Cpu.top, if_neg hu] at htop
  exact htop.symm

/-- `KSEL(SEG_KDATA)`, which `trap` loads. -/
def kernelData : ℕ := 16

/-- The segments of the kernel or those of a user. Only `ds` is saved, for `es` as well. -/
structure Cpu.Flat (cpu : Cpu) : Prop where
  ds_lt : cpu.ds < 65536
  es_eq : cpu.es = cpu.ds
  segments : cpu.cs = kernelCode ∧ cpu.ss = kernelData ∨ cpu.User ∧ cpu.ss = userData

theorem Cpu.Flat.kernel_iff (h : cpu.Flat) : cpu.cs % 65536 = kernelCode ↔ ¬ cpu.User := by
  rw [Cpu.User, kernelCode]
  obtain ⟨hcs, -⟩ | ⟨hu, -⟩ := h.segments
  · rw [hcs, kernelCode]
    decide
  · rw [Cpu.User] at hu
    omega

theorem Cpu.Flat.context_cpu (h : cpu.Flat) : (cpu.context cr3 esp0).cpu kernelData = cpu := by
  have hss : (if cpu.cs % 65536 = kernelCode then kernelData else userData) = cpu.ss := by
    obtain ⟨hcs, hss⟩ | ⟨hu, hss⟩ := h.segments
    · rw [hcs, hss]
      rfl
    · rw [hss, if_neg (fun hk ↦ h.kernel_iff.mp hk hu)]
  have hds : dsWord cpu % 65536 = cpu.ds := by
    have := h.ds_lt
    rw [dsWord]
    omega
  have hcpu : (cpu.context cr3 esp0).cpu kernelData =
      { cpu with
        ds := dsWord cpu % 65536
        es := dsWord cpu % 65536
        ss := if cpu.cs % 65536 = kernelCode then kernelData else userData } := rfl
  have hes := h.es_eq
  rw [hcpu, hds, hss]
  cases cpu
  cases hes
  rfl

/-- The return to a context changes only the words into which it moves. -/
theorem iret_snd (h : (contextAt mem c).Placed c) {x : ℕ}
    (hx : mem (c + 11) % 65536 = kernelCode → x < mem (c + 13) - 6 ∨ mem (c + 13) ≤ x) :
    (iret mem c ss).2 x = mem x := by
  rw [iret]
  by_cases hcs : mem (c + 11) % 65536 = kernelCode
  · obtain ⟨hroom, happart⟩ := h hcs
    have hesp : (contextAt mem c).esp = mem (c + 13) := rfl
    rw [hesp] at hroom happart
    have hx := hx hcs
    rw [if_pos hcs]
    show moveDown (c + 7) (mem (c + 13) - 6) 6 mem x = mem x
    rw [moveDown_eq (by omega), overlay_outside (by omega)]
  · rw [if_neg hcs]

/-- An interrupt of the kernel or of a user that is returned from leaves the processor as it was,
whatever happens to the memory but the saved context. The saving changes nothing above the frame,
and the return nothing outside of it, although the return to the kernel moves the context onto its
own stack. -/
theorem interrupt_returns (hflat : cpu.Flat) (hroom : 24 ≤ cpu.top esp0) {mem mem' : Mem}
    (hkept : ∀ k < 15, mem' ((trap cpu cr3 esp0 errcode irq amIret mem).1 + k) =
      (trap cpu cr3 esp0 errcode irq amIret mem).2
        ((trap cpu cr3 esp0 errcode irq amIret mem).1 + k)) :
    (iret mem' (trap cpu cr3 esp0 errcode irq amIret mem).1 kernelData).1 = cpu ∧
    (∀ x, cpu.top esp0 ≤ x → (trap cpu cr3 esp0 errcode irq amIret mem).2 x = mem x) ∧
    ∀ x, x < (trap cpu cr3 esp0 errcode irq amIret mem).1 ∨ cpu.top esp0 ≤ x →
      (iret mem' (trap cpu cr3 esp0 errcode irq amIret mem).1 kernelData).2 x = mem' x := by
  obtain ⟨htop, hcontext, habove⟩ := @trap_spec cpu cr3 esp0 errcode irq amIret hroom mem
  set tf := (trap cpu cr3 esp0 errcode irq amIret mem).1 with htf
  have hsaved := (contextAt_congr hkept).trans hcontext
  have hesp : (contextAt mem' tf).cs % 65536 = kernelCode →
      (contextAt mem' tf).esp = tf + 20 := by
    rw [hsaved]
    exact fun hcs ↦ context_esp hroom (hflat.kernel_iff.mp hcs) errcode irq amIret mem
  have hplaced : (contextAt mem' tf).Placed tf := by
    intro hcs
    rw [hesp hcs]
    omega
  refine ⟨?_, habove, fun x hx ↦ iret_snd hplaced fun hcs ↦ ?_⟩
  · rw [iret_fst hplaced, hsaved, hflat.context_cpu]
  · have hword : mem' (tf + 13) = tf + 20 := hesp hcs
    rw [hword]
    split_ifs at htop <;> omega

/-- The kernel with its stack below word `0x1000`. -/
def sampleCpu : Cpu :=
  ⟨kernelData, kernelData, 1, 2, 3, 4, 5, 6, 7, 0x100000, kernelCode, 0x202, 0x1000, kernelData⟩

/-- A user, interrupted by the timer. -/
def sampleUser : Cpu :=
  ⟨userData, userData, 1, 2, 3, 4, 5, 6, 7, 0x400000, 27, 0x202, 0x3000, userData⟩

theorem sample_interrupt_returns :
    (iret (trap sampleCpu 0x5000 0 0 129 0x100800 fun _ ↦ 7).2
      (trap sampleCpu 0x5000 0 0 129 0x100800 fun _ ↦ 7).1 kernelData).1 = sampleCpu ∧
    (iret (trap sampleUser 0x5000 0x1000 0 32 0x100800 fun _ ↦ 7).2
      (trap sampleUser 0x5000 0x1000 0 32 0x100800 fun _ ↦ 7).1 kernelData).1 = sampleUser :=
  ⟨(interrupt_returns ⟨by decide, rfl, Or.inl ⟨rfl, rfl⟩⟩ (by decide) fun _ _ ↦ rfl).1,
    (interrupt_returns ⟨by decide, rfl, Or.inr ⟨by decide, rfl⟩⟩ (by decide) fun _ _ ↦ rfl).1⟩

end OsWorkbench.Am.Trap32
