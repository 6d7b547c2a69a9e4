import OsWorkbench.Library.CInt
import OsWorkbench.Library.CString
import OsWorkbench.Library.Decimal

namespace OsWorkbench.Klib

open Library Library.Decimal Library.Delimited

inductive Arg
  | int (n : CInt)
  | str (s : List UInt8)
  deriving DecidableEq

inductive Fault
  | overflow
  | argument
  deriving DecidableEq, Repr

def vaInt : List Arg → Except Fault (ℤ × List Arg)
  | .int n :: args => .ok (n.1, args)
  | _ => .error .argument

def vaString : List Arg → Except Fault (List UInt8 × List Arg)
  | .str s :: args => .ok (CString.text s, args)
  | _ => .error .argument

/-- `'0' + num % 10` -/
def lastDigit (num : ℤ) : UInt8 := UInt8.ofNat (48 + num.tmod 10).toNat

/-- The digits are pushed on `tmp`, where `room` cells are left, the last one first. -/
def digitLoop : ℕ → ℤ → List UInt8 → Except Fault (List UInt8)
  | 0, _, _ => .error .overflow
  | room + 1, num, tmp =>
    if 0 < num.tdiv 10 then digitLoop room (num.tdiv 10) (lastDigit num :: tmp)
    else .ok (lastDigit num :: tmp)

def padLoop : ℕ → ℕ → List UInt8 → Except Fault (List UInt8)
  | _, 0, tmp => .ok tmp
  | 0, _ + 1, _ => .error .overflow
  | room + 1, left + 1, tmp => padLoop room left (48 :: tmp)

/-- Reads the width, an `int`. -/
def widthLoop : ℤ → List UInt8 → ℤ × List UInt8
  | width, [] => (width, [])
  | width, c :: fmt =>
    if isDigit c then widthLoop (wrap (wrap (width * 10) + (c.toNat - 48))) fmt
    else (width, c :: fmt)

/-- `tmp` after `%0wd`. -/
def paddedDigits (width num : ℤ) : Except Fault (List UInt8) := do
  let tmp ← if num < 10 then padLoop 20 (wrap (width - 1)).toNat [] else pure []
  digitLoop (20 - tmp.length) num tmp

/-- The `switch` behind a `%`: what is written, and the format and the arguments left. -/
def conversion (args : List Arg) : List UInt8 → Except Fault (List UInt8 × List UInt8 × List Arg)
  | 100 :: fmt => do
    let (num, args) ← vaInt args
    let tmp ← digitLoop 20 num []
    return (tmp, fmt, args)
  | 115 :: fmt => do
    let (s, args) ← vaString args
    return (s, fmt, args)
  | 48 :: fmt =>
    match widthLoop 0 fmt with
    | (width, 100 :: fmt) => do
      let (num, args) ← vaInt args
      let tmp ← paddedDigits width num
      return (tmp, fmt, args)
    | (_, fmt) => return ([], fmt, args)
  | fmt => return ([], fmt, args)

/-- The loop over the format, which gets shorter in every round. -/
def vsprintfLoop : ℕ → List UInt8 → List Arg → List UInt8 → Except Fault (List UInt8 × List Arg)
  | _, [], args, out => .ok (out, args)
  | 0, _, args, out => .ok (out, args)
  | fuel + 1, c :: fmt, args, out =>
    if c = 37 then do
      let (text, fmt, args) ← conversion args fmt
      vsprintfLoop fuel fmt args (out ++ text)
    else vsprintfLoop fuel fmt args (out ++ [c])

/-- What is written, the value returned and the arguments that are left. -/
structure Printed where
  out : List UInt8
  returned : ℤ
  args : List Arg
  deriving DecidableEq

def vsprintf (fmt : List UInt8) (args : List Arg) : Except Fault Printed := do
  let (out, args) ← vsprintfLoop fmt.length fmt args []
  return ⟨out ++ [0], wrap out.length, args⟩

variable {n room : ℕ} {tmp : List UInt8}

theorem lastDigit_natCast (n : ℕ) : lastDigit n = digit (n % 10) := by
  have hmod : (n : ℤ).tmod 10 = (n % 10 : ℕ) := rfl
  have hsum : (48 + ((n % 10 : ℕ) : ℤ)).toNat = 48 + n % 10 := by omega
  rw [lastDigit, hmod, hsum, digit]

theorem digitLoop_natCast (h : (digits n).length ≤ room) :
    digitLoop room n tmp = .ok (digits n ++ tmp) := by
  induction n using Nat.strongRecOn generalizing room tmp with
  | ind n ih =>
    obtain ⟨room, rfl⟩ : ∃ r, room = r + 1 := ⟨room - 1, by have := length_digits_pos n; omega⟩
    have hdiv : (n : ℤ).tdiv 10 = (n / 10 : ℕ) := rfl
    rw [digitLoop, lastDigit_natCast, hdiv]
    by_cases hn : n < 10
    · rw [if_neg (by omega), digits_of_lt hn, Nat.mod_eq_of_lt hn]
      rfl
    · rw [digits_of_le (Nat.le_of_not_lt hn), List.length_append, List.length_singleton] at h
      rw [if_pos (by omega), digits_of_le (Nat.le_of_not_lt hn), List.append_assoc]
      exact ih (n / 10) (by omega) (by omega)

theorem digitLoop_lt_ten {num : ℤ} (h : num < 10) :
    digitLoop (room + 1) num tmp = .ok (lastDigit num :: tmp) := by
  have hdiv : num.tdiv 10 ≤ 0 := by
    by_cases hneg : num < 0
    · have hpos : 0 ≤ (-num).tdiv 10 := Int.tdiv_nonneg (by omega) (by decide)
      rw [Int.neg_tdiv] at hpos
      omega
    · have hzero := Int.tdiv_eq_zero_of_lt (Int.not_lt.mp hneg) h
      omega
  rw [digitLoop, if_neg (by omega)]

theorem padLoop_eq (room left : ℕ) (tmp : List UInt8) :
    padLoop room left tmp =
      if left ≤ room then .ok (List.replicate left 48 ++ tmp) else .error .overflow := by
  induction left generalizing room tmp with
  | zero => simp [padLoop]
  | succ left ih =>
    cases room with
    | zero => simp [padLoop]
    | succ room =>
      rw [padLoop, ih, List.replicate_succ', List.append_assoc, List.singleton_append]
      simp only [Nat.add_le_add_iff_right]

/-- A number that fits an `int` is read without wrapping around on the way. -/
theorem widthLoop_digits {ds fmt : List UInt8} {c : UInt8} {x : ℕ}
    (hds : ∀ b ∈ ds, isDigit b = true) (hc : isDigit c = false) (hlt : value x ds < 2 ^ 31) :
    widthLoop x (ds ++ c :: fmt) = ((value x ds : ℤ), c :: fmt) := by
  induction ds generalizing x with
  | nil => simp [widthLoop, hc, value]
  | cons b ds ih =>
    obtain ⟨hb, hds⟩ := List.forall_mem_cons.mp hds
    have hrange := isDigit_iff.mp hb
    have hle := le_value (10 * x + (b.toNat - 48)) ds
    have hstep : value x (b :: ds) = value (10 * x + (b.toNat - 48)) ds := rfl
    rw [hstep] at hlt ⊢
    have hwrap : wrap (wrap (x * 10) + (b.toNat - 48)) = (10 * x + (b.toNat - 48) : ℕ) := by
      have hinner : wrap ((x : ℤ) * 10) = x * 10 := wrap_eq (by omega) (by omega)
      rw [hinner, wrap_eq (by omega) (by omega)]
      omega
    rw [List.cons_append, widthLoop, if_pos hb, hwrap]
    exact ih hds hlt

end OsWorkbench.Klib
