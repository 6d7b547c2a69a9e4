import Mathlib.Logic.Function.Basic
import Mathlib.Data.Nat.Notation

namespace OsWorkbench.Library.Stack

variable {V : Type*}

/-- A word of 8 bytes goes below the stack pointer. -/
def push (s : ℕ × (ℕ → V)) (v : V) : ℕ × (ℕ → V) :=
  (s.1 - 8, Function.update s.2 (s.1 - 8) v)

def pushes (vs : List V) (s : ℕ × (ℕ → V)) : ℕ × (ℕ → V) := vs.foldl push s

variable {vs : List V} {sp x : ℕ} {m : ℕ → V}

theorem pushes_sp (vs : List V) (sp : ℕ) (m : ℕ → V) :
    (pushes vs (sp, m)).1 = sp - 8 * vs.length := by
  induction vs generalizing sp m with
  | nil => rfl
  | cons v vs ih =>
    rw [pushes, List.foldl_cons, push, ← pushes, ih, List.length_cons, Nat.mul_succ, Nat.sub_sub,
      Nat.add_comm]

/-- Only the words below the stack pointer change. -/
theorem pushes_outside (h : 8 * vs.length ≤ sp) (hx : x < sp - 8 * vs.length ∨ sp ≤ x) :
    (pushes vs (sp, m)).2 x = m x := by
  induction vs generalizing sp m with
  | nil => rfl
  | cons v vs ih =>
    rw [List.length_cons] at h hx
    have hne : x ≠ sp - 8 := by omega
    have hrest := @ih (sp - 8) (Function.update m (sp - 8) v) (by omega) (by omega)
    rw [Function.update_of_ne hne] at hrest
    exact hrest

theorem pushes_word (h : 8 * vs.length ≤ sp) {i : ℕ} (hi : i < vs.length) :
    (pushes vs (sp, m)).2 (sp - 8 * (i + 1)) = vs[i] := by
  induction vs generalizing sp m i with
  | nil => cases hi
  | cons v vs ih =>
    rw [List.length_cons] at h hi
    cases i with
    | zero =>
      have htop := @pushes_outside V vs (sp - 8) (sp - 8) (Function.update m (sp - 8) v) (by omega)
        (Or.inr (Nat.le_refl _))
      rw [Function.update_self] at htop
      exact htop
    | succ i =>
      have hat : sp - 8 * (i + 1 + 1) = sp - 8 - 8 * (i + 1) := by omega
      have hrest := @ih (sp - 8) (Function.update m (sp - 8) v) (by omega) i (by omega)
      rw [hat]
      exact hrest

variable {R : Type*} [DecidableEq R]

/-- Words from the stack pointer up go into registers. -/
def pops (m : ℕ → V) : List R → ℕ → (R → V) → ℕ × (R → V)
  | [], sp, regs => (sp, regs)
  | r :: rs, sp, regs => pops m rs (sp + 8) (Function.update regs r (m sp))

variable {rs : List R} {regs : R → V} {r : R}

theorem pops_sp (rs : List R) (sp : ℕ) (regs : R → V) :
    (pops m rs sp regs).1 = sp + 8 * rs.length := by
  induction rs generalizing sp regs with
  | nil => rfl
  | cons r rs ih => rw [pops, ih, List.length_cons, Nat.mul_succ, Nat.add_right_comm, Nat.add_assoc]

theorem pops_notMem (h : r ∉ rs) : (pops m rs sp regs).2 r = regs r := by
  induction rs generalizing sp regs with
  | nil => rfl
  | cons r' rs ih =>
    rw [List.mem_cons, not_or] at h
    rw [pops, ih h.2, Function.update_of_ne h.1]

theorem pops_word (hd : rs.Nodup) {i : ℕ} (hi : i < rs.length) :
    (pops m rs sp regs).2 rs[i] = m (sp + 8 * i) := by
  induction rs generalizing sp regs i with
  | nil => cases hi
  | cons r rs ih =>
    obtain ⟨hr, hd⟩ := List.nodup_cons.mp hd
    cases i with
    | zero =>
      rw [List.getElem_cons_zero, pops, pops_notMem hr, Function.update_self]
      rfl
    | succ i =>
      have hat : sp + 8 * (i + 1) = sp + 8 + 8 * i := by omega
      rw [List.getElem_cons_succ, pops, ih hd, hat]

end OsWorkbench.Library.Stack
