import OsWorkbench.Library.Decimal
import Mathlib.Data.List.TakeWhile

namespace OsWorkbench.Library.Reading

open Decimal

/-- The pieces that calls of `fgets` with a buffer of `size` bytes read one after another; the
first of them has begun with `piece`. -/
def fgets (size : ℕ) (piece : List UInt8) : List UInt8 → List (List UInt8)
  | [] => if piece = [] then [] else [piece]
  | b :: text =>
    if b = 10 ∨ piece.length + 2 = size then (piece ++ [b]) :: fgets size [] text
    else fgets size (piece ++ [b]) text

/-- `isspace` in the C locale. -/
def isBlank (b : UInt8) : Bool := b = 32 ∨ 9 ≤ b ∧ b ≤ 13

/-- The word that `%s` reads, the empty one where there is none. -/
def word (text : List UInt8) : List UInt8 :=
  (text.dropWhile isBlank).takeWhile fun b ↦ !isBlank b && b ≠ 0

/-- The number that `%d` reads. -/
def number (text : List UInt8) : Option ℤ :=
  let text := text.dropWhile isBlank
  let negative : Bool := text.head? = some 45
  let signed : Bool := text.head? = some 45 ∨ text.head? = some 43
  let ds := (if signed then text.tail else text).takeWhile isDigit
  if ds = [] then none else some (if negative then -value 0 ds else value 0 ds)

variable {size : ℕ} {piece line text rest blanks : List UInt8}

/-- A newline ends a piece, and what is behind it is read from its start. -/
theorem fgets_newline (size : ℕ) (piece text rest : List UInt8) :
    fgets size piece (text ++ 10 :: rest) =
      fgets size piece (text ++ [10]) ++ fgets size [] rest := by
  induction text generalizing piece with
  | nil => simp [fgets]
  | cons b text ih =>
    rw [List.cons_append, List.cons_append, fgets, fgets]
    by_cases hend : b = 10 ∨ piece.length + 2 = size
    · rw [if_pos hend, if_pos hend, ih, List.cons_append]
    · rw [if_neg hend, if_neg hend, ih]

/-- A line that fits is read whole. -/
theorem fgets_line (hline : 10 ∉ line) (hsize : piece.length + line.length + 2 ≤ size) :
    fgets size piece (line ++ [10]) = [piece ++ line ++ [10]] := by
  induction line generalizing piece with
  | nil => simp [fgets]
  | cons b line ih =>
    rw [List.mem_cons, not_or] at hline
    rw [List.length_cons] at hsize
    have hgo : ¬ (b = 10 ∨ piece.length + 2 = size) := by
      intro hend
      cases hend with
      | inl hb => exact hline.1 hb.symm
      | inr hfull => omega
    have hrest : (piece ++ [b]).length + line.length + 2 ≤ size := by
      rw [List.length_append, List.length_singleton]
      omega
    rw [List.cons_append, fgets, if_neg hgo, ih hline.2 hrest]
    simp

theorem length_of_mem_fgets (hpiece : piece.length + 2 ≤ size) :
    ∀ p ∈ fgets size piece text, p.length < size := by
  induction text generalizing piece with
  | nil =>
    intro p hp
    rw [fgets] at hp
    by_cases hnil : piece = []
    · rw [if_pos hnil] at hp
      exact absurd hp List.not_mem_nil
    · rw [if_neg hnil, List.mem_singleton] at hp
      rw [hp]
      omega
  | cons b text ih =>
    intro p hp
    rw [fgets] at hp
    by_cases hend : b = 10 ∨ piece.length + 2 = size
    · rw [if_pos hend, List.mem_cons] at hp
      cases hp with
      | inl hp =>
        rw [hp, List.length_append, List.length_singleton]
        omega
      | inr hp => exact ih (show ([] : List UInt8).length + 2 ≤ size by simp; omega) p hp
    · rw [if_neg hend] at hp
      have hroom : (piece ++ [b]).length + 2 ≤ size := by
        rw [List.length_append, List.length_singleton]
        omega
      exact ih hroom p hp

theorem length_word_le (text : List UInt8) : (word text).length ≤ text.length :=
  Nat.le_trans (List.takeWhile_sublist _).length_le (List.dropWhile_sublist _).length_le

theorem word_ne_zero (text : List UInt8) : ∀ b ∈ word text, b ≠ 0 := by
  intro b hb
  have hstep := List.mem_takeWhile_imp hb
  simp only [Bool.and_eq_true, decide_eq_true_eq] at hstep
  exact hstep.2

/-- The blanks before a word are skipped, and it ends at the next one. -/
theorem word_eq {name : List UInt8} (hblanks : ∀ b ∈ blanks, isBlank b = true)
    (hname : ∀ b ∈ name, isBlank b = false ∧ b ≠ 0) (hne : name ≠ [])
    (hrest : ∀ b, rest.head? = some b → isBlank b = true ∨ b = 0) :
    word (blanks ++ (name ++ rest)) = name := by
  obtain ⟨first, others, rfl⟩ := List.exists_cons_of_ne_nil hne
  have hfirst := hname first List.mem_cons_self
  have hdrop :
      (blanks ++ (first :: others ++ rest)).dropWhile isBlank = first :: others ++ rest := by
    rw [List.dropWhile_append_of_pos hblanks, List.cons_append, List.dropWhile_cons_of_neg]
    simp [hfirst.1]
  have hall : ∀ b ∈ first :: others, (!isBlank b && decide (b ≠ 0)) = true := by
    intro b hb
    simp [hname b hb]
  rw [word, hdrop, List.takeWhile_append_of_pos hall]
  cases rest with
  | nil => rw [List.takeWhile_nil, List.append_nil]
  | cons b rest =>
    rw [List.takeWhile_cons_of_neg, List.append_nil]
    cases hrest b rfl with
    | inl hblank => simp [hblank]
    | inr hzero => simp [hzero]

theorem isBlank_of_isDigit {b : UInt8} (hb : isDigit b = true) : isBlank b = false := by
  have hrange := isDigit_iff.mp hb
  simp only [isBlank, decide_eq_false_iff_not, not_or, not_and]
  constructor
  · intro heq
    rw [heq] at hrange
    exact absurd hrange.1 (by decide)
  · intro _ hle
    have hnat : b.toNat ≤ 13 := hle
    omega

/-- The decimal digits of a number are read back. -/
theorem number_digits (n : ℕ) (hblanks : ∀ b ∈ blanks, isBlank b = true)
    (hrest : ∀ b, rest.head? = some b → isDigit b = false) :
    number (blanks ++ (Delimited.digits n ++ rest)) = some (n : ℤ) := by
  obtain ⟨first, others, hds⟩ := List.exists_cons_of_ne_nil (digits_ne_nil n)
  have hdigits := digits_isDigit n
  rw [hds] at hdigits
  have hfirst := hdigits first List.mem_cons_self
  have hrange := isDigit_iff.mp hfirst
  have hdrop : (blanks ++ (Delimited.digits n ++ rest)).dropWhile isBlank =
      Delimited.digits n ++ rest := by
    rw [hds, List.dropWhile_append_of_pos hblanks, List.cons_append, List.dropWhile_cons_of_neg]
    simp [isBlank_of_isDigit hfirst]
  have hhead : (Delimited.digits n ++ rest).head? = some first := by
    rw [hds, List.cons_append, List.head?_cons]
  have hminus : first ≠ 45 := by
    intro heq
    rw [heq] at hrange
    exact absurd hrange.1 (by decide)
  have hplus : first ≠ 43 := by
    intro heq
    rw [heq] at hrange
    exact absurd hrange.1 (by decide)
  have htake : (Delimited.digits n ++ rest).takeWhile isDigit = Delimited.digits n := by
    rw [List.takeWhile_append_of_pos (digits_isDigit n)]
    cases rest with
    | nil => rw [List.takeWhile_nil, List.append_nil]
    | cons b rest =>
      rw [List.takeWhile_cons_of_neg, List.append_nil]
      simp [hrest b rfl]
  simp only [number, hdrop, hhead, Option.some_inj, hminus, hplus, or_self, decide_false]
  rw [if_neg Bool.false_ne_true, htake, if_neg (digits_ne_nil n), if_neg Bool.false_ne_true,
    value_digits]

end OsWorkbench.Library.Reading
