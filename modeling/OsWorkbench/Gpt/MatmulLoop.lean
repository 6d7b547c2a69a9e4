import OsWorkbench.Gpt.Model
import OsWorkbench.Library.Writes
import Mathlib.Order.Interval.Set.Defs
import Mathlib.Data.Set.Lattice
import Mathlib.Order.CompletePartialOrder
import Mathlib.Tactic.Ring

namespace OsWorkbench.Gpt

open Library

variable {V : Type} {value : Value V} {m : MatmulArgs} {b t b' t' o o' : ℕ}

theorem mul_add_inj {k r r' o o' : ℕ} (ho : o < k) (ho' : o' < k)
    (h : r * k + o = r' * k + o') : r = r' ∧ o = o' := by
  have hdiv : ∀ x y : ℕ, y < k → (x * k + y) / k = x := fun x y hy ↦ by
    rw [Nat.mul_comm, Nat.mul_add_div (by omega), Nat.div_eq_of_lt hy, Nat.add_zero]
  have hr := hdiv r o ho
  rw [h, hdiv r' o' ho'] at hr
  subst hr
  exact ⟨rfl, by omega⟩

theorem mul_add_lt {k r R o : ℕ} (hr : r < R) (ho : o < k) : r * k + o < R * k := by
  have hle := Nat.mul_le_mul_right k (Nat.succ_le_of_lt hr)
  rw [Nat.succ_mul] at hle
  omega

namespace MatmulArgs

def outRange (m : MatmulArgs) : Set ℕ := Set.Ico m.out (m.out + m.B * m.T * m.OC)

/-- The cells that `calc` writes for `(b, t)`. -/
def row (m : MatmulArgs) (b t : ℕ) : Set ℕ :=
  Set.Ico (m.calcArgs b t).outBt ((m.calcArgs b t).outBt + m.OC)

def Reads (m : MatmulArgs) (x : ℕ) : Prop :=
  (m.inp ≤ x ∧ x < m.inp + m.B * m.T * m.C) ∨ (m.weight ≤ x ∧ x < m.weight + m.OC * m.C) ∨
    ∃ bias, m.bias = some bias ∧ bias ≤ x ∧ x < bias + m.OC

/-- `out` overlaps none of the arguments. -/
def Separate (m : MatmulArgs) : Prop := ∀ x, m.Reads x → x ∉ m.outRange

theorem mem_tasks {args : CalcArgs} :
    args ∈ m.tasks ↔ ∃ b < m.B, ∃ t < m.T, m.calcArgs b t = args := by
  simp [tasks, List.mem_flatMap]

theorem outBt_eq : (m.calcArgs b t).outBt = m.out + (b * m.T + t) * m.OC := by
  simp only [calcArgs]
  ring

theorem inpBt_eq : (m.calcArgs b t).inpBt = m.inp + (b * m.T + t) * m.C := by
  simp only [calcArgs]
  ring

theorem outBt_mem (hb : b < m.B) (ht : t < m.T) (ho : o < m.OC) :
    (m.calcArgs b t).outBt + o ∈ m.outRange := by
  have hlt := mul_add_lt (mul_add_lt hb ht) ho
  rw [outBt_eq, outRange, Set.mem_Ico]
  omega

theorem outBt_inj (ht : t < m.T) (ho : o < m.OC) (ht' : t' < m.T) (ho' : o' < m.OC)
    (h : (m.calcArgs b t).outBt + o = (m.calcArgs b' t').outBt + o') :
    (b = b' ∧ t = t') ∧ o = o' := by
  rw [outBt_eq, outBt_eq] at h
  have hcell : (b * m.T + t) * m.OC + o = (b' * m.T + t') * m.OC + o' := by omega
  obtain ⟨hr, ho⟩ := mul_add_inj ho ho' hcell
  exact ⟨mul_add_inj ht ht' hr, ho⟩

theorem exists_outBt {x : ℕ} (hx : x ∈ m.outRange) :
    ∃ b < m.B, ∃ t < m.T, ∃ o < m.OC, (m.calcArgs b t).outBt + o = x := by
  obtain ⟨hle, hlt⟩ := Set.mem_Ico.mp hx
  have hd : x - m.out < m.B * m.T * m.OC := by omega
  have hOC : 0 < m.OC := Nat.pos_of_ne_zero fun h ↦ by rw [h] at hd; omega
  have hr : (x - m.out) / m.OC < m.B * m.T := Nat.div_lt_of_lt_mul (by rwa [Nat.mul_comm])
  have hT : 0 < m.T := Nat.pos_of_ne_zero fun h ↦ by simp [h] at hr
  refine ⟨(x - m.out) / m.OC / m.T, Nat.div_lt_of_lt_mul (by rwa [Nat.mul_comm]),
    (x - m.out) / m.OC % m.T, Nat.mod_lt _ hT, (x - m.out) % m.OC, Nat.mod_lt _ hOC, ?_⟩
  have h₁ := Nat.div_add_mod' ((x - m.out) / m.OC) m.T
  have h₂ := Nat.div_add_mod' (x - m.out) m.OC
  rw [outBt_eq, h₁]
  omega

theorem row_disjoint (ht : t < m.T) (ht' : t' < m.T) (hne : (b, t) ≠ (b', t')) :
    Disjoint (m.row b t) (m.row b' t') := by
  refine Set.disjoint_left.mpr fun x hx hx' ↦ hne ?_
  obtain ⟨hle, hlt⟩ := Set.mem_Ico.mp hx
  obtain ⟨hle', hlt'⟩ := Set.mem_Ico.mp hx'
  have hcell : (m.calcArgs b t).outBt + (x - (m.calcArgs b t).outBt) =
      (m.calcArgs b' t').outBt + (x - (m.calcArgs b' t').outBt) := by omega
  obtain ⟨⟨rfl, rfl⟩, -⟩ := outBt_inj ht (by omega) ht' (by omega) hcell
  rfl

theorem row_cover : (⋃ b < m.B, ⋃ t < m.T, m.row b t) = m.outRange := by
  ext x
  simp only [Set.mem_iUnion, exists_prop]
  constructor
  · rintro ⟨b, hb, t, ht, hle, hlt⟩
    have hmem := outBt_mem hb ht (o := x - (m.calcArgs b t).outBt) (by omega)
    rwa [Nat.add_sub_cancel' hle] at hmem
  · intro hx
    obtain ⟨b, hb, t, ht, o, ho, rfl⟩ := exists_outBt hx
    exact ⟨b, hb, t, ht, Nat.le_add_right _ _, by omega⟩

end MatmulArgs

def writes (value : Value V) : Writes (CalcArgs × ℕ) ℕ V where
  cell x := x.1.outBt + x.2
  val x mem := x.1.val value mem x.2

def MatmulArgs.jobs (m : MatmulArgs) : Set (CalcArgs × ℕ) := { x | x.1 ∈ m.tasks ∧ x.2 < m.OC }

theorem MatmulArgs.cell_mem {x : CalcArgs × ℕ} (hx : x ∈ m.jobs) : x.1.outBt + x.2 ∈ m.outRange := by
  obtain ⟨hargs, ho⟩ := hx
  obtain ⟨b, hb, t, ht, he⟩ := mem_tasks.mp hargs
  rw [← he]
  exact outBt_mem hb ht ho

theorem CalcArgs.step_eq (args : CalcArgs) (mem : ℕ → V) (o : ℕ) :
    args.step value mem o = (writes value).write mem (args, o) := rfl

theorem MatmulArgs.Separate.independent (h : m.Separate) (value : Value V) :
    (writes value).Independent m.outRange m.jobs := by
  refine ⟨?_, ?_, ?_⟩
  · exact fun _ ↦ cell_mem
  · rintro ⟨args, o⟩ ⟨hargs, ho⟩ ⟨args', o'⟩ ⟨hargs', ho'⟩ hcell
    obtain ⟨b, hb, t, ht, rfl⟩ := mem_tasks.mp hargs
    obtain ⟨b', hb', t', ht', rfl⟩ := mem_tasks.mp hargs'
    obtain ⟨⟨rfl, rfl⟩, rfl⟩ := outBt_inj ht ho ht' ho' hcell
    rfl
  · rintro ⟨args, o⟩ ⟨hargs, ho⟩ mem mem' hmem
    obtain ⟨b, hb, t, ht, rfl⟩ := mem_tasks.mp hargs
    have heq : ∀ x, m.Reads x → mem x = mem' x := fun x hx ↦ hmem x (h x hx)
    have hinp : ∀ i < m.C, mem ((m.calcArgs b t).inpBt + i) = mem' ((m.calcArgs b t).inpBt + i) := by
      intro i hi
      have hlt := mul_add_lt (mul_add_lt hb ht) hi
      refine heq _ (.inl ?_)
      rw [inpBt_eq]
      exact ⟨by omega, by omega⟩
    have ho : o < m.OC := ho
    have hweight : ∀ i < m.C, mem (m.weight + o * m.C + i) = mem' (m.weight + o * m.C + i) := by
      intro i hi
      have hlt := mul_add_lt ho hi
      exact heq _ (.inr (.inl ⟨by omega, by omega⟩))
    have hbias : m.bias.map (fun bias ↦ mem (bias + o)) = m.bias.map fun bias ↦ mem' (bias + o) := by
      refine Option.map_congr fun bias hbias ↦ heq _ (.inr (.inr ⟨bias, hbias, ?_⟩))
      exact ⟨by omega, by omega⟩
    show (m.calcArgs b t).val value mem o = (m.calcArgs b t).val value mem' o
    rw [CalcArgs.val, CalcArgs.val]
    congr 1
    · exact List.map_congr_left fun i hi ↦ hinp i (List.mem_range.mp hi)
    · exact List.map_congr_left fun i hi ↦ hweight i (List.mem_range.mp hi)

/-- The jobs in the order of the plain loop. -/
def MatmulArgs.jobList (m : MatmulArgs) : List (CalcArgs × ℕ) :=
  m.tasks.flatMap fun args ↦ (List.range args.OC).map fun o ↦ (args, o)

theorem MatmulArgs.mem_jobList {x : CalcArgs × ℕ} : x ∈ m.jobList ↔ x ∈ m.jobs := by
  simp only [jobList, jobs, List.mem_flatMap, List.mem_map, List.mem_range, Set.mem_ofPred_eq]
  constructor
  · rintro ⟨args, hargs, o, ho, rfl⟩
    obtain ⟨b, hb, t, ht, rfl⟩ := mem_tasks.mp hargs
    exact ⟨hargs, ho⟩
  · rintro ⟨hargs, ho⟩
    obtain ⟨b, hb, t, ht, he⟩ := mem_tasks.mp hargs
    exact ⟨x.1, hargs, x.2, by rw [← he]; exact ho, rfl⟩

theorem matmulLoop_eq (mem : ℕ → V) :
    matmulLoop value m mem = m.jobList.foldl (writes value).write mem := by
  rw [matmulLoop, MatmulArgs.jobList, List.foldl_flatMap]
  congr 1
  funext mem args
  rw [CalcArgs.calc, List.foldl_map]
  rfl

theorem matmulLoop_progress (h : m.Separate) (mem : ℕ → V) :
    (writes value).Progress m.outRange m.jobs mem (matmulLoop value m mem) (· ∈ m.jobs) := by
  rw [matmulLoop_eq]
  refine ((Writes.Progress.start _ _ _ mem).foldl (h.independent value)
    fun x ↦ MatmulArgs.mem_jobList.mp).mono fun x hx ↦ .inl (MatmulArgs.mem_jobList.mpr hx)

end OsWorkbench.Gpt
