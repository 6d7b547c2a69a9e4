import OsWorkbench.Klib.Printf

namespace OsWorkbench.Klib

open Library Library.Decimal Library.Delimited

/-- A part of a format, with the argument of a conversion. -/
inductive Piece
  | lit (c : UInt8) (h : c ≠ 37 ∧ c ≠ 0)
  | d (n : CInt)
  | s (str : List UInt8)
  | zd (w : ℕ) (hw : 1 ≤ w) (n : CInt)

namespace Piece

def format : Piece → List UInt8
  | lit c _ => [c]
  | d _ => [37, 100]
  | s _ => [37, 115]
  | zd w _ _ => 37 :: 48 :: (digits w ++ [100])

def args : Piece → List Arg
  | lit _ _ => []
  | d n => [.int n]
  | s str => [.str str]
  | zd _ _ n => [.int n]

/-- What the C standard says that the part expands to. -/
def expand : Piece → List UInt8
  | lit c _ => [c]
  | d n => decimal n.1
  | s str => CString.text str
  | zd w _ n => zeroPadded w n.1

/-- What `vsprintf` writes for it. -/
def written : Piece → Except Fault (List UInt8)
  | lit c _ => .ok [c]
  | d n => digitLoop 20 n.1 []
  | s str => .ok (CString.text str)
  | zd w _ n => paddedDigits w n.1

/-- The arguments and widths that are printed right. -/
def Right : Piece → Prop
  | lit _ _ => True
  | d n => 0 ≤ n.1
  | s _ => True
  | zd w _ n => 0 ≤ n.1 ∧ (w ≤ (digits n.1.natAbs).length ∨ n.1 = 0 ∧ w ≤ 20)

end Piece

variable {p : Piece} {pieces : List Piece} {fuel : ℕ} {fmt out : List UInt8} {rest : List Arg}

theorem digits_natAbs_length (n : CInt) : (digits n.1.natAbs).length ≤ 20 := by
  have hlow := n.2.1
  have hhigh := n.2.2
  exact (length_digits_le (by decide)).mpr (by omega)

theorem length_expand_zd {w : ℕ} {hw : 1 ≤ w} {n : CInt} : w ≤ (Piece.zd w hw n).expand.length := by
  rw [Piece.expand, zeroPadded]
  split_ifs <;> simp <;> omega

theorem widthLoop_width {w : ℕ} (hlt : w < 2 ^ 31) (fmt : List UInt8) :
    widthLoop 0 (digits w ++ 100 :: fmt) = ((w : ℤ), 100 :: fmt) := by
  have hvalue : value 0 (digits w) < 2 ^ 31 := by rwa [value_digits]
  have hread : widthLoop (0 : ℕ) (digits w ++ 100 :: fmt) = _ :=
    widthLoop_digits (digits_isDigit w) (by decide) hvalue
  rwa [value_digits] at hread

theorem vsprintfLoop_piece (p : Piece) (hlt : p.expand.length < 2 ^ 31) :
    vsprintfLoop (fuel + 1) (p.format ++ fmt) (p.args ++ rest) out =
      p.written >>= fun t ↦ vsprintfLoop fuel fmt rest (out ++ t) := by
  cases p with
  | lit c h =>
    rw [Piece.format, List.singleton_append, vsprintfLoop, if_neg h.1]
    rfl
  | d n =>
    change ((digitLoop 20 n.1 [] >>= fun tmp ↦ .ok (tmp, fmt, rest)) >>= fun r ↦
      vsprintfLoop fuel r.2.1 r.2.2 (out ++ r.1)) = _
    rw [bind_assoc]
    rfl
  | s str => rfl
  | zd w hw n =>
    have hformat : (Piece.zd w hw n).format ++ fmt = 37 :: 48 :: (digits w ++ 100 :: fmt) := by
      simp [Piece.format]
    rw [hformat, vsprintfLoop, if_pos rfl, conversion,
      widthLoop_width (length_expand_zd.trans_lt hlt)]
    change ((paddedDigits w n.1 >>= fun tmp ↦ .ok (tmp, fmt, rest)) >>= fun r ↦
      vsprintfLoop fuel r.2.1 r.2.2 (out ++ r.1)) = _
    rw [bind_assoc]
    rfl

def formatOf (pieces : List Piece) : List UInt8 := pieces.flatMap Piece.format

def argsOf (pieces : List Piece) : List Arg := pieces.flatMap Piece.args

def expansion (pieces : List Piece) : List UInt8 := pieces.flatMap Piece.expand

def writtenOf : List Piece → Except Fault (List UInt8)
  | [] => return []
  | p :: pieces => do
    let t ← p.written
    let ts ← writtenOf pieces
    return t ++ ts

theorem format_length_pos (p : Piece) : 0 < p.format.length := by
  cases p <;> simp [Piece.format]

theorem vsprintfLoop_pieces (hlt : (expansion pieces).length < 2 ^ 31)
    (hfuel : (formatOf pieces).length ≤ fuel) :
    vsprintfLoop fuel (formatOf pieces) (argsOf pieces ++ rest) out =
      writtenOf pieces >>= fun t ↦ .ok (out ++ t, rest) := by
  induction pieces generalizing fuel out with
  | nil =>
    rw [formatOf, List.flatMap_nil, vsprintfLoop]
    simp [writtenOf, argsOf]
  | cons p pieces ih =>
    rw [formatOf, List.flatMap_cons, List.length_append] at hfuel
    rw [expansion, List.flatMap_cons, List.length_append] at hlt
    have hpos := format_length_pos p
    obtain ⟨fuel, rfl⟩ : ∃ f, fuel = f + 1 := ⟨fuel - 1, by omega⟩
    rw [formatOf, List.flatMap_cons, argsOf, List.flatMap_cons, List.append_assoc,
      vsprintfLoop_piece p (by omega), writtenOf, bind_assoc]
    congr 1
    funext t
    have hrest := @ih fuel (out ++ t) (by rw [expansion]; omega) (by rw [formatOf]; omega)
    rw [formatOf, argsOf] at hrest
    rw [hrest, bind_assoc]
    simp [List.append_assoc]

theorem written_d_nonneg {n : CInt} (h : 0 ≤ n.1) :
    (Piece.d n).written = .ok (digits n.1.natAbs) := by
  have hnat : n.1 = (n.1.natAbs : ℤ) := by omega
  have hloop : digitLoop 20 (n.1.natAbs : ℤ) [] = .ok (digits n.1.natAbs ++ []) :=
    digitLoop_natCast (digits_natAbs_length n)
  rw [← hnat, List.append_nil] at hloop
  exact hloop

theorem written_zd_long {w : ℕ} {hw : 1 ≤ w} {n : CInt} (h : 10 ≤ n.1) :
    (Piece.zd w hw n).written = .ok (digits n.1.natAbs) := by
  have hd := written_d_nonneg (n := n) (by omega)
  rw [Piece.written] at hd
  rw [Piece.written, paddedDigits, if_neg (by omega)]
  exact hd

theorem written_zd_short {w : ℕ} {hw : 1 ≤ w} {n : CInt} (hlt : w < 2 ^ 31) (h : n.1 < 10) :
    (Piece.zd w hw n).written =
      if w ≤ 20 then .ok (lastDigit n.1 :: List.replicate (w - 1) 48) else .error .overflow := by
  have hpad : (wrap ((w : ℤ) - 1)).toNat = w - 1 := by
    rw [wrap_eq (by omega) (by omega)]
    omega
  rw [Piece.written, paddedDigits, if_pos h, hpad, padLoop_eq, List.append_nil]
  by_cases hw20 : w ≤ 20
  · obtain ⟨room, hroom⟩ : ∃ room, 20 - (w - 1) = room + 1 := ⟨20 - w, by omega⟩
    rw [if_pos (show w - 1 ≤ 20 by omega), if_pos hw20]
    change digitLoop (20 - (List.replicate (w - 1) 48).length) n.1 _ = _
    rw [List.length_replicate, hroom, digitLoop_lt_ten h]
  · rw [if_neg hw20]
    split_ifs with hw21
    · change digitLoop (20 - (List.replicate (w - 1) 48).length) n.1 _ = _
      rw [List.length_replicate, show 20 - (w - 1) = 0 by omega, digitLoop]
    · rfl

theorem cons_replicate_eq {a b : UInt8} {k : ℕ} :
    a :: List.replicate k b = List.replicate k b ++ [a] ↔ k = 0 ∨ a = b := by
  cases k with
  | zero => simp
  | succ k =>
    constructor
    · intro h
      exact .inr (List.cons.inj h).1
    · rintro (h | rfl)
      · cases h
      · rw [← List.replicate_succ, ← List.replicate_succ']

theorem leftpad_eq_self {w : ℕ} {l : List UInt8} : l = l.leftpad w 48 ↔ w ≤ l.length := by
  rw [List.leftpad, List.self_eq_append_left, List.replicate_eq_nil_iff]
  omega

theorem decimal_neg {n : ℤ} (h : n < 0) : decimal n = 45 :: digits n.natAbs := if_pos h

theorem decimal_nonneg {n : ℤ} (h : 0 ≤ n) : decimal n = digits n.natAbs := if_neg (by omega)

theorem zeroPadded_neg {w : ℕ} {n : ℤ} (h : n < 0) :
    zeroPadded w n = 45 :: (digits n.natAbs).leftpad (w - 1) 48 := if_pos h

theorem zeroPadded_nonneg {w : ℕ} {n : ℤ} (h : 0 ≤ n) :
    zeroPadded w n = (digits n.natAbs).leftpad w 48 := if_neg (by omega)

theorem zeros_ne_leftpad {w k : ℕ} {n : ℤ} (h : n < 0) :
    List.replicate k 48 ≠ (digits n.natAbs).leftpad w 48 := by
  intro heq
  have hvalue : value 0 (List.replicate k 48) = 0 := by
    rw [← List.append_nil (List.replicate k 48), value_zeros]
    rfl
  rw [heq, value_leftpad] at hvalue
  omega

/-- Nothing longer than the expansion is written. -/
theorem length_written_le (hlt : p.expand.length < 2 ^ 31) {t : List UInt8}
    (h : p.written = .ok t) : t.length ≤ p.expand.length := by
  cases p with
  | lit c _ =>
    cases h
    rfl
  | s str =>
    cases h
    rfl
  | d n =>
    by_cases hn : n.1 < 0
    · rw [Piece.written, digitLoop_lt_ten (by omega)] at h
      cases h
      rw [Piece.expand, decimal_neg hn]
      simp
    · rw [written_d_nonneg (by omega)] at h
      cases h
      rw [Piece.expand, decimal_nonneg (by omega)]
  | zd w hw n =>
    have hw31 : w < 2 ^ 31 := length_expand_zd.trans_lt hlt
    by_cases hn : n.1 < 10
    · rw [written_zd_short hw31 hn] at h
      split_ifs at h
      cases h
      rw [List.length_cons, List.length_replicate, Nat.sub_add_cancel hw]
      exact length_expand_zd
    · rw [written_zd_long (by omega)] at h
      cases h
      rw [Piece.expand, zeroPadded_nonneg (by omega), List.length_leftpad]
      exact Nat.le_max_right _ _

theorem written_eq_expand_iff (hlt : p.expand.length < 2 ^ 31) :
    p.written = .ok p.expand ↔ p.Right := by
  cases p with
  | lit c _ => exact iff_of_true rfl trivial
  | s str => exact iff_of_true rfl trivial
  | d n =>
    by_cases hn : n.1 < 0
    · refine iff_of_false (fun h ↦ ?_) (Int.not_le.mpr hn)
      rw [Piece.written, digitLoop_lt_ten (by omega), Piece.expand, decimal_neg hn] at h
      exact digits_ne_nil _ (List.cons.inj (Except.ok.inj h)).2.symm
    · refine iff_of_true ?_ (Int.not_lt.mp hn)
      rw [written_d_nonneg (by omega), Piece.expand, decimal_nonneg (by omega)]
  | zd w hw n =>
    have hw31 : w < 2 ^ 31 := length_expand_zd.trans_lt hlt
    by_cases hneg : n.1 < 0
    · refine iff_of_false (fun h ↦ ?_) (fun h ↦ by have := h.1; omega)
      rw [written_zd_short hw31 (by omega), Piece.expand, zeroPadded_neg hneg] at h
      split_ifs at h
      exact zeros_ne_leftpad hneg (List.cons.inj (Except.ok.inj h)).2
    · rw [Piece.expand, zeroPadded_nonneg (by omega), Piece.Right, and_iff_right (by omega)]
      by_cases hlong : 10 ≤ n.1
      · rw [written_zd_long hlong, Except.ok.injEq, leftpad_eq_self]
        exact ⟨.inl, fun h ↦ h.elim id fun h ↦ by omega⟩
      · obtain ⟨k, hk⟩ : ∃ k : ℕ, n.1 = k := ⟨n.1.natAbs, by omega⟩
        have hk10 : k < 10 := by omega
        have hzero : digit k = 48 ↔ k = 0 := by
          rw [← UInt8.toNat_inj, toNat_digit hk10]
          simp
        rw [written_zd_short hw31 (by omega), hk, lastDigit_natCast, Nat.mod_eq_of_lt hk10,
          Int.natAbs_natCast, digits_of_lt hk10, List.leftpad, List.length_singleton]
        by_cases hw20 : w ≤ 20
        · rw [if_pos hw20, Except.ok.injEq, cons_replicate_eq, hzero]
          omega
        · rw [if_neg hw20]
          exact iff_of_false (by simp) (by omega)

theorem writtenOf_cons_ok {t : List UInt8} : writtenOf (p :: pieces) = .ok t ↔
    ∃ t₁ t₂, p.written = .ok t₁ ∧ writtenOf pieces = .ok t₂ ∧ t = t₁ ++ t₂ := by
  rw [writtenOf]
  cases p.written with
  | error fault => simp [bind, Except.bind]
  | ok t₁ =>
    cases writtenOf pieces with
    | error fault => simp [bind, Except.bind]
    | ok t₂ => simp [bind, Except.bind, pure, Except.pure, eq_comm]

theorem length_expansion_cons : (expansion (p :: pieces)).length =
    p.expand.length + (expansion pieces).length := by
  rw [expansion, List.flatMap_cons, List.length_append, expansion]

theorem length_writtenOf_le (hlt : (expansion pieces).length < 2 ^ 31) {t : List UInt8}
    (h : writtenOf pieces = .ok t) : t.length ≤ (expansion pieces).length := by
  induction pieces generalizing t with
  | nil =>
    cases h
    exact Nat.zero_le _
  | cons p pieces ih =>
    obtain ⟨t₁, t₂, h₁, h₂, rfl⟩ := writtenOf_cons_ok.mp h
    rw [length_expansion_cons] at hlt ⊢
    rw [List.length_append]
    exact Nat.add_le_add (length_written_le (by omega) h₁) (ih (by omega) h₂)

/-- No part is longer than its expansion, so nothing else can make up for a wrong one. -/
theorem writtenOf_eq_expansion_iff (hlt : (expansion pieces).length < 2 ^ 31) :
    writtenOf pieces = .ok (expansion pieces) ↔ ∀ p ∈ pieces, p.Right := by
  induction pieces with
  | nil => exact iff_of_true rfl (by simp)
  | cons p pieces ih =>
    rw [length_expansion_cons] at hlt
    have hp : p.expand.length < 2 ^ 31 := by omega
    have hpieces : (expansion pieces).length < 2 ^ 31 := by omega
    have hcons : expansion (p :: pieces) = p.expand ++ expansion pieces := List.flatMap_cons
    rw [List.forall_mem_cons, ← written_eq_expand_iff hp, ← ih hpieces, writtenOf_cons_ok, hcons]
    constructor
    · rintro ⟨t₁, t₂, h₁, h₂, heq⟩
      have hle₁ := length_written_le hp h₁
      have hle₂ := length_writtenOf_le hpieces h₂
      have hlength := congrArg List.length heq
      rw [List.length_append, List.length_append] at hlength
      obtain ⟨rfl, rfl⟩ := List.append_inj heq (by omega)
      exact ⟨h₁, h₂⟩
    · rintro ⟨h₁, h₂⟩
      exact ⟨_, _, h₁, h₂, rfl⟩

/-- The expansion is written, counted and terminated, and an argument consumed for each
conversion, exactly when the arguments and widths are right and the length is an `int`. -/
theorem vsprintf_expands_iff (pieces : List Piece) (rest : List Arg) :
    vsprintf (formatOf pieces) (argsOf pieces ++ rest) =
        .ok ⟨expansion pieces ++ [0], (expansion pieces).length, rest⟩ ↔
      (∀ p ∈ pieces, p.Right) ∧ (expansion pieces).length < 2 ^ 31 := by
  constructor
  · intro h
    rw [vsprintf] at h
    cases hloop : vsprintfLoop (formatOf pieces).length (formatOf pieces) (argsOf pieces ++ rest)
      [] with
    | error fault =>
      rw [hloop] at h
      cases h
    | ok result =>
      obtain ⟨out, args⟩ := result
      rw [hloop] at h
      obtain ⟨hout, hreturned, rfl⟩ := Printed.mk.inj (Except.ok.inj h)
      obtain rfl := List.append_cancel_right hout
      have hlt : (expansion pieces).length < 2 ^ 31 := by
        have hwrap := wrap_lt (expansion pieces).length
        omega
      refine ⟨(writtenOf_eq_expansion_iff hlt).mp ?_, hlt⟩
      rw [vsprintfLoop_pieces hlt le_rfl] at hloop
      cases hwritten : writtenOf pieces with
      | error fault =>
        rw [hwritten] at hloop
        cases hloop
      | ok t =>
        rw [hwritten] at hloop
        have heq := (Prod.mk.inj (Except.ok.inj hloop)).1
        rw [List.nil_append] at heq
        rw [heq]
  · rintro ⟨hright, hlt⟩
    rw [vsprintf, vsprintfLoop_pieces hlt le_rfl, (writtenOf_eq_expansion_iff hlt).mpr hright]
    change Except.ok (⟨_, wrap _, _⟩ : Printed) = _
    rw [wrap_natCast (by simpa using hlt), List.nil_append]

/-- `%d` of -5, `%03d` of 7 and `%021d` of 0. -/
theorem conversions_counterexample :
    vsprintf [37, 100] [.int ⟨-5, by decide⟩] = .ok ⟨[43, 0], 1, []⟩ ∧
    expansion [.d ⟨-5, by decide⟩] = [45, 53] ∧
    vsprintf [37, 48, 51, 100] [.int ⟨7, by decide⟩] = .ok ⟨[55, 48, 48, 0], 3, []⟩ ∧
    expansion [.zd 3 (by decide) ⟨7, by decide⟩] = [48, 48, 55] ∧
    vsprintf [37, 48, 50, 49, 100] [.int ⟨0, by decide⟩] = .error .overflow := by
  decide

end OsWorkbench.Klib
