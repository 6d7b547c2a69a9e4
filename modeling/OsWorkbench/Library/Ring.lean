import Mathlib.Logic.Function.Basic
import Mathlib.Data.Nat.Notation
import Mathlib.Data.Int.Notation
import Mathlib.Data.List.Basic

namespace OsWorkbench.Library

/-- A queue in an array of `size` slots that is used in a circle. -/
structure Ring (size : ℕ) (α : Type) where
  slots : ℕ → α
  head : ℕ
  tail : ℕ
  count : ℤ

namespace Ring

variable {size : ℕ} {α : Type} {r : Ring size α} {q : List α} {x : α}

def push (r : Ring size α) (x : α) : Ring size α where
  slots := Function.update r.slots r.tail x
  head := r.head
  tail := (r.tail + 1) % size
  count := r.count + 1

def front (r : Ring size α) : α := r.slots r.head

def pop (r : Ring size α) : Ring size α where
  slots := r.slots
  head := (r.head + 1) % size
  tail := r.tail
  count := r.count - 1

/-- The slots from `head` on hold the queue. -/
structure Holds (r : Ring size α) (q : List α) : Prop where
  head_lt : r.head < size
  length_le : q.length ≤ size
  count_eq : r.count = q.length
  tail_eq : r.tail = (r.head + q.length) % size
  slots_eq : ∀ i (hi : i < q.length), r.slots ((r.head + i) % size) = q[i]

theorem Holds.empty (hsize : 0 < size) (hhead : r.head = 0) (htail : r.tail = 0)
    (hcount : r.count = 0) : r.Holds [] := by
  refine ⟨by omega, Nat.zero_le _, hcount, ?_, fun i hi ↦ absurd hi (Nat.not_lt_zero i)⟩
  rw [htail, hhead, List.length_nil, Nat.add_zero, Nat.zero_mod]

theorem Holds.count_nonneg (h : r.Holds q) : 0 ≤ r.count := by
  rw [h.count_eq]
  exact Int.natCast_nonneg _

theorem Holds.length_lt (h : r.Holds q) (hcount : r.count ≠ size) : q.length < size := by
  have hle := h.length_le
  have hne : q.length ≠ size := fun he ↦ hcount (by rw [h.count_eq, he])
  omega

theorem Holds.exists_cons (h : r.Holds q) (hcount : r.count ≠ 0) : ∃ x q', q = x :: q' := by
  cases q with
  | nil => exact absurd h.count_eq hcount
  | cons x q' => exact ⟨x, q', rfl⟩

/-- Two slots less than a round apart are different. -/
theorem add_mod_ne {a i j : ℕ} (hi : i < j) (hj : j < size) : (a + i) % size ≠ (a + j) % size := by
  intro he
  have hmod := Nat.sub_mod_eq_zero_of_mod_eq he.symm
  rw [Nat.add_sub_add_left, Nat.mod_eq_of_lt (by omega)] at hmod
  omega

theorem Holds.push (h : r.Holds q) (hlt : q.length < size) (x : α) : (r.push x).Holds (q ++ [x]) := by
  have hlen : (q ++ [x]).length = q.length + 1 := List.length_append
  refine ⟨h.head_lt, by omega, ?_, ?_, fun i hi ↦ ?_⟩
  · rw [Ring.push, h.count_eq, hlen]
    push_cast
    rfl
  · rw [Ring.push, h.tail_eq, hlen, Nat.mod_add_mod, Nat.add_assoc]
  · simp only [Ring.push]
    by_cases hiq : i < q.length
    · rw [Function.update_of_ne (h.tail_eq ▸ add_mod_ne hiq hlt), h.slots_eq i hiq,
        List.getElem_append_left hiq]
    · have hi' : i = q.length := by omega
      subst hi'
      rw [← h.tail_eq, Function.update_self, List.getElem_concat_length rfl]

theorem Holds.front (h : r.Holds (x :: q)) : r.front = x := by
  have hx := h.slots_eq 0 (Nat.succ_pos _)
  rwa [Nat.add_zero, Nat.mod_eq_of_lt h.head_lt] at hx

theorem Holds.pop (h : r.Holds (x :: q)) : r.pop.Holds q := by
  have hlen : (x :: q).length = q.length + 1 := List.length_cons
  have hle := h.length_le
  refine ⟨Nat.mod_lt _ (by omega), by omega, ?_, ?_, fun i hi ↦ ?_⟩
  · rw [Ring.pop, h.count_eq, hlen]
    push_cast
    omega
  · rw [Ring.pop, h.tail_eq, hlen, Nat.mod_add_mod, Nat.add_assoc, Nat.add_comm 1]
  · have hs := h.slots_eq (i + 1) (by omega)
    rw [Ring.pop, Nat.mod_add_mod, Nat.add_assoc, Nat.add_comm 1, hs, List.getElem_cons_succ]

end Ring

end OsWorkbench.Library
