import OsWorkbench.Library.Delimited
import Mathlib.Algebra.Group.Nat.Defs

namespace OsWorkbench.Library.Decimal

open Delimited

def isDigit (b : UInt8) : Bool := 48 ≤ b && b ≤ 57

def digit (d : ℕ) : UInt8 := UInt8.ofNat (48 + d)

/-- The number that a text of digits adds to the digits read before it. -/
def value (x : ℕ) (text : List UInt8) : ℕ := text.foldl (fun x b ↦ 10 * x + (b.toNat - 48)) x

variable {n k x : ℕ} {b : UInt8} {text : List UInt8}

theorem isDigit_iff : isDigit b = true ↔ 48 ≤ b.toNat ∧ b.toNat ≤ 57 := by
  simp [isDigit, UInt8.le_iff_toNat_le]

theorem toNat_digit (h : n < 10) : (digit n).toNat = 48 + n := by
  rw [digit, UInt8.toNat_ofNat']
  omega

theorem toNat_digitChar (h : n < 10) : n.digitChar.toNat = 48 + n := by
  have hall : ∀ n < 10, n.digitChar.toNat = 48 + n := by decide
  exact hall n h

theorem digits_of_lt (h : n < 10) : digits n = [digit n] := by
  rw [digits, Nat.toDigits_of_lt_base h, List.map_singleton, toNat_digitChar h, digit]

theorem digits_of_le (h : 10 ≤ n) : digits n = digits (n / 10) ++ [digit (n % 10)] := by
  rw [digits, Nat.toDigits_of_base_le (by decide) h, List.map_append, List.map_singleton,
    toNat_digitChar (Nat.mod_lt n (by decide)), digits, digit]

theorem digits_isDigit (n : ℕ) : ∀ b ∈ digits n, isDigit b = true :=
  fun _ hb ↦ isDigit_iff.mpr (mem_digits hb)

theorem digits_ne_nil (n : ℕ) : digits n ≠ [] := by simp [digits]

theorem length_digits_pos (n : ℕ) : 0 < (digits n).length :=
  List.length_pos_iff.mpr (digits_ne_nil n)

theorem length_digits_le (hk : 0 < k) : (digits n).length ≤ k ↔ n < 10 ^ k := by
  rw [digits, List.length_map]
  exact Nat.length_toDigits_le_iff (by decide) hk

theorem head_digits (hn : n ≠ 0) : (digits n).head? ≠ some 48 := by
  induction n using Nat.strongRecOn with
  | ind n ih =>
    by_cases h : n < 10
    · rw [digits_of_lt h, List.head?_cons, ne_eq, Option.some_inj, ← UInt8.toNat_inj,
        toNat_digit h]
      simpa using hn
    · rw [digits_of_le (Nat.le_of_not_lt h), List.head?_append_of_ne_nil _ (digits_ne_nil _)]
      exact ih (n / 10) (by omega) (by omega)

theorem value_append (text text' : List UInt8) :
    value x (text ++ text') = value (value x text) text' := List.foldl_append

theorem le_value (x : ℕ) (text : List UInt8) : x ≤ value x text := by
  induction text generalizing x with
  | nil => exact Nat.le_refl x
  | cons b text ih => exact Nat.le_trans (show x ≤ 10 * x + (b.toNat - 48) by omega) (ih _)

theorem value_digits (n : ℕ) : value 0 (digits n) = n := by
  induction n using Nat.strongRecOn with
  | ind n ih =>
    by_cases h : n < 10
    · simp [digits_of_lt h, value, toNat_digit h]
    · rw [digits_of_le (Nat.le_of_not_lt h), value_append, ih (n / 10) (by omega), value,
        List.foldl_cons, List.foldl_nil, toNat_digit (Nat.mod_lt n (by decide))]
      omega

theorem value_zeros (k : ℕ) (text : List UInt8) :
    value 0 (List.replicate k 48 ++ text) = value 0 text := by
  induction k with
  | zero => rfl
  | succ k ih =>
    rw [List.replicate_succ, List.cons_append]
    exact ih

/-- `%0wd` -/
def zeroPadded (w : ℕ) (n : ℤ) : List UInt8 :=
  if n < 0 then 45 :: (digits n.natAbs).leftpad (w - 1) 48 else (digits n.natAbs).leftpad w 48

theorem value_leftpad (w n : ℕ) : value 0 ((digits n).leftpad w 48) = n := by
  rw [List.leftpad, value_zeros, value_digits]

theorem leftpad_isDigit (w n : ℕ) : ∀ b ∈ (digits n).leftpad w 48, isDigit b = true := by
  intro b hb
  rcases List.mem_append.mp hb with hb | hb
  · rw [(List.mem_replicate.mp hb).2]
    rfl
  · exact digits_isDigit n b hb

theorem zeroPadded_injective (w : ℕ) {m n : ℤ} (h : zeroPadded w m = zeroPadded w n) : m = n := by
  have hne : ∀ v k l : ℕ, 45 :: (digits k).leftpad v 48 ≠ (digits l).leftpad w 48 := by
    intro v k l heq
    exact absurd (leftpad_isDigit w l 45 (heq ▸ List.mem_cons_self)) (by decide)
  have hread : ∀ v k l : ℕ, (digits k).leftpad v 48 = (digits l).leftpad v 48 → k = l := by
    intro v k l heq
    rw [← value_leftpad v k, heq, value_leftpad]
  rw [zeroPadded, zeroPadded] at h
  split_ifs at h with hm hn hn
  · have habs := hread _ _ _ (List.cons.inj h).2
    omega
  · exact absurd h (hne _ _ _)
  · exact absurd h.symm (hne _ _ _)
  · have habs := hread _ _ _ h
    omega

end OsWorkbench.Library.Decimal
