import OsWorkbench.Klib.Expansion

namespace OsWorkbench.Klib

open Library Library.Decimal Library.Delimited

/-- What is written, and `strlen` of it. -/
def sprintf (fmt : List UInt8) (args : List Arg) : Except Fault (List UInt8 × ℤ) := do
  let printed ← vsprintf fmt args
  return (printed.out, wrap (CString.text printed.out).length)

/-- `x * 10 + *nptr - '0'` wraps around in every step. -/
def atoiLoop : ℤ → List UInt8 → ℤ
  | x, [] => x
  | x, c :: nptr =>
    if isDigit c then atoiLoop (wrap (wrap (wrap (x * 10) + c.toNat) - 48)) nptr else x

def atoi (nptr : List UInt8) : ℤ := atoiLoop 0 (nptr.dropWhile (· = 32))

variable {ds rest : List UInt8} {x : ℕ}

/-- The sum before the last subtraction may not be an `int`, but its remainder is kept. -/
theorem wrap_digit {x y : ℕ} {c : UInt8} (hc : isDigit c = true) (hy : y = 10 * x + (c.toNat - 48))
    (hlt : y < 2 ^ 31) : wrap (wrap (wrap (x * 10) + c.toNat) - 48) = y := by
  have hrange := isDigit_iff.mp hc
  have hmod : wrap (wrap (wrap ((x : ℤ) * 10) + c.toNat) - 48) =
      wrap ((x : ℤ) * 10 + c.toNat - 48) := by
    rw [wrap, wrap, wrap, wrap, Int.bmod_add_bmod, Int.bmod_sub_bmod]
  rw [hmod, show (x : ℤ) * 10 + c.toNat - 48 = y by omega, wrap_natCast hlt]

theorem atoiLoop_digits (hds : ∀ b ∈ ds, isDigit b = true)
    (hrest : ∀ b, rest.head? = some b → isDigit b = false) (hlt : value x ds < 2 ^ 31) :
    atoiLoop x (ds ++ rest) = value x ds := by
  induction ds generalizing x with
  | nil =>
    cases rest with
    | nil => rfl
    | cons b rest => simp [atoiLoop, hrest b rfl, value]
  | cons b ds ih =>
    obtain ⟨hb, hds⟩ := List.forall_mem_cons.mp hds
    have hstep : value x (b :: ds) = value (10 * x + (b.toNat - 48)) ds := rfl
    rw [hstep] at hlt ⊢
    rw [List.cons_append, atoiLoop, if_pos hb,
      wrap_digit hb rfl ((le_value _ ds).trans_lt hlt)]
    exact ih hds hlt

theorem dropWhile_blanks (blanks : ℕ) {text : List UInt8} (h : text.head? ≠ some 32) :
    (List.replicate blanks 32 ++ text).dropWhile (· = 32) = text := by
  induction blanks with
  | zero =>
    cases text with
    | nil => rfl
    | cons b text => simpa using h
  | succ blanks ih => simpa [List.replicate_succ] using ih

theorem head_digits_append (n : ℕ) (rest : List UInt8) : (digits n ++ rest).head? ≠ some 32 := by
  obtain ⟨b, ds, hds⟩ := List.exists_cons_of_ne_nil (digits_ne_nil n)
  have hb := digits_isDigit n b (hds ▸ List.mem_cons_self)
  rw [hds, List.cons_append, List.head?_cons, ne_eq, Option.some_inj]
  rintro rfl
  exact absurd hb (by decide)

theorem vsprintf_d {n : CInt} (h : 0 ≤ n.1) :
    vsprintf [37, 100] [.int n] =
      .ok ⟨digits n.1.natAbs ++ [0], (digits n.1.natAbs).length, []⟩ := by
  have hwritten := written_d_nonneg h
  have hlength := digits_natAbs_length n
  have hloop : vsprintfLoop 2 [37, 100] [.int n] [] = .ok (digits n.1.natAbs, []) := by
    rw [vsprintfLoop, if_pos rfl]
    change (((Piece.d n).written >>= fun tmp ↦ .ok (tmp, [], [])) >>= fun r ↦
      vsprintfLoop 1 r.2.1 r.2.2 ([] ++ r.1)) = _
    rw [hwritten]
    rfl
  change (vsprintfLoop 2 [37, 100] [.int n] [] >>= fun r ↦
    .ok (⟨r.1 ++ [0], wrap r.1.length, r.2⟩ : Printed)) = _
  rw [hloop]
  change Except.ok (⟨_, wrap (digits n.1.natAbs).length, _⟩ : Printed) = _
  rw [wrap_natCast (by omega)]

/-- `atoi` gives back the number that `sprintf` has printed, behind any blanks and in front
of anything but a digit, and no digit is wasted. -/
theorem atoi_sprintf (n : CInt) (h : 0 ≤ n.1) :
    ∃ out, sprintf [37, 100] [.int n] = .ok (out ++ [0], out.length) ∧
      (∀ blanks rest, (∀ b, rest.head? = some b → isDigit b = false) →
        atoi (List.replicate blanks 32 ++ (out ++ rest)) = n.1) ∧
      (n.1 ≠ 0 → out.head? ≠ some 48) := by
  have hnul : ∀ b ∈ digits n.1.natAbs, b ≠ 0 := by
    rintro b hb rfl
    exact absurd (digits_isDigit _ _ hb) (by decide)
  have hlength := digits_natAbs_length n
  have hhigh := n.2.2
  refine ⟨digits n.1.natAbs, ?_, fun blanks rest hrest ↦ ?_, fun hne ↦ head_digits (by omega)⟩
  · rw [sprintf, vsprintf_d h]
    change Except.ok (_, wrap (CString.text (digits n.1.natAbs ++ [0])).length) = _
    rw [CString.text_append_zero hnul, wrap_natCast (by omega)]
  · have hvalue := value_digits n.1.natAbs
    have hread : atoiLoop (0 : ℕ) (digits n.1.natAbs ++ rest) = _ :=
      atoiLoop_digits (digits_isDigit _) hrest (by omega)
    rw [hvalue] at hread
    rw [atoi, dropWhile_blanks blanks (head_digits_append _ rest)]
    exact hread.trans (by omega)

def intMax : CInt := ⟨2147483647, by omega⟩

theorem intMax_printed : ∃ out, sprintf [37, 100] [.int intMax] = .ok (out ++ [0], out.length) ∧
    (∀ blanks rest, (∀ b, rest.head? = some b → isDigit b = false) →
      atoi (List.replicate blanks 32 ++ (out ++ rest)) = 2147483647) ∧
    (intMax.1 ≠ 0 → out.head? ≠ some 48) :=
  atoi_sprintf intMax (by simp [intMax])

example : atoi [32, 32, 50, 49, 52, 55, 52, 56, 51, 54, 52, 55, 44, 49] = 2147483647 := by
  decide +kernel

end OsWorkbench.Klib
