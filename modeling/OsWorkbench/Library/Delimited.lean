import Mathlib.Data.Int.Notation
import Mathlib.Data.List.Basic
import Mathlib.Tactic.SplitIfs

namespace OsWorkbench.Library.Delimited

variable {α : Type*}

section Split

variable {x : α} {a a' b b' : List α}

/-- The first separator splits a text in one way only. -/
theorem split_first (ha : x ∉ a) (ha' : x ∉ a') (h : a ++ x :: b = a' ++ x :: b') :
    a = a' ∧ b = b' := by
  induction a generalizing a' with
  | nil =>
    cases a' with
    | nil => exact ⟨rfl, (List.cons.inj h).2⟩
    | cons c a' => exact absurd ((List.cons.inj h).1 ▸ List.mem_cons_self) ha'
  | cons c a ih =>
    cases a' with
    | nil => exact absurd ((List.cons.inj h).1 ▸ List.mem_cons_self) ha
    | cons c' a' =>
      obtain ⟨rfl, htail⟩ := List.cons.inj h
      obtain ⟨rfl, hb⟩ := ih (fun hm ↦ ha (List.mem_cons_of_mem _ hm))
        (fun hm ↦ ha' (List.mem_cons_of_mem _ hm)) htail
      exact ⟨rfl, hb⟩

theorem split_last (hb : x ∉ b) (hb' : x ∉ b') (h : a ++ x :: b = a' ++ x :: b') :
    a = a' ∧ b = b' := by
  have hrev : b.reverse ++ x :: a.reverse = b'.reverse ++ x :: a'.reverse := by
    simpa using congrArg List.reverse h
  obtain ⟨hbb, haa⟩ := split_first (by simpa using hb) (by simpa using hb') hrev
  exact ⟨List.reverse_injective haa, List.reverse_injective hbb⟩

end Split

/-- Every piece with the separator behind it. -/
def unlines (x : α) (pieces : List (List α)) : List α := pieces.flatMap (· ++ [x])

theorem unlines_cons (x : α) (piece : List α) (pieces : List (List α)) :
    unlines x (piece :: pieces) = piece ++ x :: unlines x pieces := by
  rw [unlines, List.flatMap_cons, List.append_assoc, List.singleton_append, unlines]

theorem unlines_append (x : α) (pieces pieces' : List (List α)) :
    unlines x (pieces ++ pieces') = unlines x pieces ++ unlines x pieces' :=
  List.flatMap_append

theorem unlines_injective {x : α} {pieces pieces' : List (List α)} (hp : ∀ p ∈ pieces, x ∉ p)
    (hp' : ∀ p ∈ pieces', x ∉ p) (h : unlines x pieces = unlines x pieces') :
    pieces = pieces' := by
  induction pieces generalizing pieces' with
  | nil =>
    cases pieces' with
    | nil => rfl
    | cons p pieces' => rw [unlines_cons] at h; simp [unlines] at h
  | cons p pieces ih =>
    cases pieces' with
    | nil => rw [unlines_cons] at h; simp [unlines] at h
    | cons p' pieces' =>
      rw [unlines_cons, unlines_cons] at h
      obtain ⟨rfl, hrest⟩ := split_first (hp p List.mem_cons_self) (hp' p' List.mem_cons_self) h
      rw [ih (fun q hq ↦ hp q (List.mem_cons_of_mem _ hq))
        (fun q hq ↦ hp' q (List.mem_cons_of_mem _ hq)) hrest]

section Decimal

def digits (n : ℕ) : List UInt8 := (Nat.toDigits 10 n).map fun c ↦ UInt8.ofNat c.toNat

/-- `%d` -/
def decimal (n : ℤ) : List UInt8 := if n < 0 then 45 :: digits n.natAbs else digits n.natAbs

theorem digit_toNat {c : Char} (hc : c.isDigit = true) :
    (UInt8.ofNat c.toNat).toNat = c.toNat ∧ 48 ≤ c.toNat ∧ c.toNat ≤ 57 := by
  have hrange : 48 ≤ c.toNat ∧ c.toNat ≤ 57 := Char.isDigit_iff_toNat.mp hc
  refine ⟨?_, hrange⟩
  rw [UInt8.toNat_ofNat']
  omega

theorem isDigit_of_mem {n : ℕ} {c : Char} (hc : c ∈ Nat.toDigits 10 n) : c.isDigit = true :=
  Nat.isDigit_of_mem_toDigits (by decide) (by decide) hc

theorem mem_digits {n : ℕ} {b : UInt8} (hb : b ∈ digits n) : 48 ≤ b.toNat ∧ b.toNat ≤ 57 := by
  obtain ⟨c, hc, rfl⟩ := List.mem_map.mp hb
  obtain ⟨heq, hrange⟩ := digit_toNat (isDigit_of_mem hc)
  exact heq.symm ▸ hrange

theorem mem_decimal {n : ℤ} {b : UInt8} (hb : b ∈ decimal n) :
    b = 45 ∨ 48 ≤ b.toNat ∧ b.toNat ≤ 57 := by
  rw [decimal] at hb
  split_ifs at hb
  · exact (List.mem_cons.mp hb).imp_right mem_digits
  · exact Or.inr (mem_digits hb)

theorem digits_injective {m n : ℕ} (h : digits m = digits n) : m = n := by
  have hread : ∀ k : ℕ, (digits k).map (fun b ↦ Char.ofNat b.toNat) = Nat.toDigits 10 k := by
    intro k
    rw [digits, List.map_map]
    refine (List.map_congr_left fun c hc ↦ ?_).trans (List.map_id _)
    rw [Function.comp_apply, (digit_toNat (isDigit_of_mem hc)).1, Char.ofNat_toNat, id]
  have hdigits : Nat.toDigits 10 m = Nat.toDigits 10 n := by rw [← hread m, h, hread n]
  calc
    m = Nat.ofDigitChars 10 (Nat.toDigits 10 m) 0 := Nat.ofDigitChars_ten_toDigits.symm
    _ = Nat.ofDigitChars 10 (Nat.toDigits 10 n) 0 := by rw [hdigits]
    _ = n := Nat.ofDigitChars_ten_toDigits

theorem sign_cons_ne (m n : ℕ) : 45 :: digits m ≠ digits n := by
  intro h
  have hmem : 45 ∈ digits n := h ▸ List.mem_cons_self
  exact absurd (mem_digits hmem).1 (by decide)

theorem decimal_injective {m n : ℤ} (h : decimal m = decimal n) : m = n := by
  rw [decimal, decimal] at h
  split_ifs at h with hm hn hn
  · have hab := digits_injective (List.cons.inj h).2
    omega
  · exact absurd h (sign_cons_ne _ _)
  · exact absurd h.symm (sign_cons_ne _ _)
  · have hab := digits_injective h
    omega

end Decimal

end OsWorkbench.Library.Delimited
