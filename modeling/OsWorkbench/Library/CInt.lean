import Mathlib.Algebra.Group.Int.Defs
import Mathlib.Algebra.Group.Nat.Defs
import Mathlib.Tactic.SplitIfs

namespace OsWorkbench.Library

/-- The values of an `int`. -/
abbrev CInt := {n : ℤ // -2 ^ 31 ≤ n ∧ n < 2 ^ 31}

/-- The value that an `int` operation leaves of its exact result. -/
def wrap (n : ℤ) : ℤ := n.bmod (2 ^ 32)

theorem wrap_eq {n : ℤ} (hlow : -2 ^ 31 ≤ n) (hlt : n < 2 ^ 31) : wrap n = n :=
  Int.bmod_eq_of_le (by omega) (by omega)

theorem wrap_natCast {n : ℕ} (h : n < 2 ^ 31) : wrap (n : ℤ) = n := wrap_eq (by omega) (by omega)

theorem wrap_lt (n : ℤ) : wrap n < 2 ^ 31 := by
  rw [wrap, Int.bmod_def]
  split_ifs <;> omega

theorem wrap_ge (n : ℤ) : -2 ^ 31 ≤ wrap n := by
  rw [wrap, Int.bmod_def]
  split_ifs <;> omega

theorem wrap_mem (n : ℤ) : -2 ^ 31 ≤ wrap n ∧ wrap n < 2 ^ 31 := ⟨wrap_ge n, wrap_lt n⟩

theorem wrap_wrap_add (m n : ℤ) : wrap (wrap m + n) = wrap (m + n) := Int.bmod_add_bmod ..

theorem wrap_ne {m n : ℤ} (h : m < n) (hn : n < m + 2 ^ 32) : wrap m ≠ wrap n := by
  rw [wrap, wrap, Int.bmod_def, Int.bmod_def]
  split_ifs <;> omega

end OsWorkbench.Library
