import Mathlib.Data.List.Basic
import Mathlib.Data.Int.Notation
import Mathlib.Order.Defs.LinearOrder
import Mathlib.Tactic.SplitIfs

namespace OsWorkbench.Klib

/-- A `char`, which is signed. -/
def char (b : UInt8) : ℤ := if b.toNat < 128 then b.toNat else b.toNat - 256

/-- `none` where a byte behind the memory is read. -/
def strcmp : List UInt8 → List UInt8 → Option ℤ
  | c₁ :: s₁, c₂ :: s₂ =>
    if c₁ = c₂ then
      if c₁ = 0 then some 0 else strcmp s₁ s₂
    else some (char c₁ - char c₂)
  | _, _ => none

def strncmp : List UInt8 → List UInt8 → ℕ → Option ℤ
  | _, _, 0 => some 0
  | c₁ :: s₁, c₂ :: s₂, n + 1 =>
    if c₁ ≠ c₂ ∨ c₁ = 0 then some (char c₁ - char c₂) else strncmp s₁ s₂ n
  | _, _, _ => none

def memcmp : List UInt8 → List UInt8 → ℕ → Option ℤ
  | _, _, 0 => some 0
  | p₁ :: s₁, p₂ :: s₂, n + 1 =>
    if p₁ ≠ p₂ then some ((p₁.toNat : ℤ) - p₂.toNat) else memcmp s₁ s₂ n
  | _, _, _ => none

/-- The first two bytes that differ, NUL being behind a text. -/
def firstDifference : List UInt8 → List UInt8 → Option (UInt8 × UInt8)
  | [], [] => none
  | a :: _, [] => some (a, 0)
  | [], b :: _ => some (0, b)
  | a :: s, b :: t => if a = b then firstDifference s t else some (a, b)

variable {s t rest rest' : List UInt8} {a b : UInt8} {n : ℕ}

theorem firstDifference_eq_none : firstDifference s t = none ↔ s = t := by
  fun_induction firstDifference s t with
  | case1 => simp
  | case2 => simp
  | case3 => simp
  | case4 s a t ih => simp [ih]
  | case5 a s b t hab => simp [hab]

theorem firstDifference_ne (hs : 0 ∉ s) (ht : 0 ∉ t) (h : firstDifference s t = some (a, b)) :
    a ≠ b := by
  fun_induction firstDifference s t with
  | case1 => cases h
  | case2 =>
    cases h
    exact (List.ne_of_not_mem_cons hs).symm
  | case3 =>
    cases h
    exact List.ne_of_not_mem_cons ht
  | case4 s a t ih => exact ih (List.not_mem_of_not_mem_cons hs) (List.not_mem_of_not_mem_cons ht) h
  | case5 a s b t hab =>
    cases h
    exact hab

theorem lt_iff_firstDifference (hs : 0 ∉ s) (ht : 0 ∉ t) (h : firstDifference s t = some (a, b)) :
    s < t ↔ a < b := by
  have hne := firstDifference_ne hs ht h
  fun_induction firstDifference s t with
  | case1 => cases h
  | case2 =>
    cases h
    simp
  | case3 =>
    cases h
    simpa using UInt8.pos_iff_ne_zero.mpr hne.symm
  | case4 s c t ih =>
    rw [List.cons_lt_cons_self]
    exact ih (List.not_mem_of_not_mem_cons hs) (List.not_mem_of_not_mem_cons ht) h
  | case5 a s b t hab =>
    cases h
    simp [List.cons_lt_cons_iff, hab]

/-- What `strcmp` and `strncmp` give, and `memcmp` with another reading of the bytes. -/
def difference (read : UInt8 → ℤ) (s t : List UInt8) : ℤ :=
  match firstDifference s t with
  | none => 0
  | some (a, b) => read a - read b

theorem strcmp_eq (hs : 0 ∉ s) (ht : 0 ∉ t) :
    strcmp (s ++ 0 :: rest) (t ++ 0 :: rest') = some (difference char s t) := by
  fun_induction firstDifference s t with
  | case1 => rfl
  | case2 a s =>
    have ha : a ≠ 0 := (List.ne_of_not_mem_cons hs).symm
    exact if_neg ha
  | case3 b t =>
    have hb : 0 ≠ b := List.ne_of_not_mem_cons ht
    exact if_neg hb
  | case4 s c t ih =>
    have hc : c ≠ 0 := (List.ne_of_not_mem_cons hs).symm
    have hrest := ih (List.not_mem_of_not_mem_cons hs) (List.not_mem_of_not_mem_cons ht)
    simpa [strcmp, hc, difference, firstDifference] using hrest
  | case5 a s b t hab => simp [strcmp, hab, difference, firstDifference]

theorem strncmp_eq (hs : 0 ∉ s) (ht : 0 ∉ t) (hn : max s.length t.length < n) :
    strncmp (s ++ 0 :: rest) (t ++ 0 :: rest') n = some (difference char s t) := by
  obtain ⟨n, rfl⟩ : ∃ m, n = m + 1 := ⟨n - 1, by omega⟩
  fun_induction firstDifference s t generalizing n with
  | case1 => rfl
  | case2 a s =>
    have ha : a ≠ 0 := (List.ne_of_not_mem_cons hs).symm
    exact if_pos (.inl ha)
  | case3 b t =>
    have hb : 0 ≠ b := List.ne_of_not_mem_cons ht
    exact if_pos (.inl hb)
  | case4 s c t ih =>
    have hc : c ≠ 0 := (List.ne_of_not_mem_cons hs).symm
    simp only [List.length_cons] at hn
    obtain ⟨n, rfl⟩ : ∃ m, n = m + 1 := ⟨n - 1, by omega⟩
    have hrest := ih (List.not_mem_of_not_mem_cons hs) (List.not_mem_of_not_mem_cons ht) n
      (by omega)
    simpa [strncmp, hc, difference, firstDifference] using hrest
  | case5 a s b t hab => simp [strncmp, hab, difference, firstDifference]

theorem memcmp_eq (hs : 0 ∉ s) (ht : 0 ∉ t) :
    memcmp (s ++ 0 :: rest) (t ++ 0 :: rest') (min s.length t.length + 1) =
      some (difference (fun b ↦ b.toNat) s t) := by
  fun_induction firstDifference s t with
  | case1 => simp [memcmp, difference, firstDifference]
  | case2 a s =>
    have ha : a ≠ 0 := (List.ne_of_not_mem_cons hs).symm
    exact if_pos ha
  | case3 b t =>
    have hb : 0 ≠ b := List.ne_of_not_mem_cons ht
    exact if_pos hb
  | case4 s c t ih =>
    have hrest := ih (List.not_mem_of_not_mem_cons hs) (List.not_mem_of_not_mem_cons ht)
    simpa [memcmp, Nat.succ_min_succ, difference, firstDifference] using hrest
  | case5 a s b t hab => simp [memcmp, hab, difference, firstDifference]

theorem char_sub_sign {a b : UInt8} (hab : a ≠ b) :
    (char a - char b).sign = ((a.toNat : ℤ) - b.toNat).sign ↔ (a < 128 ↔ b < 128) := by
  have ha := a.toNat_lt
  have hb := b.toNat_lt
  have hlt : ∀ c : UInt8, c < 128 ↔ c.toNat < 128 := fun c ↦ UInt8.lt_iff_toNat_lt
  rw [hlt, hlt, char, char]
  rcases Nat.lt_trichotomy a.toNat b.toNat with h | h | h
  · rw [Int.sign_eq_neg_one_of_neg (show (a.toNat : ℤ) - b.toNat < 0 by omega),
      Int.sign_eq_neg_one_iff_neg]
    split_ifs <;> omega
  · exact absurd (UInt8.toNat_inj.mp h) hab
  · rw [Int.sign_eq_one_of_pos (show 0 < (a.toNat : ℤ) - b.toNat by omega),
      Int.sign_eq_one_iff_pos]
    split_ifs <;> omega

/-- The sign of a comparison byte by byte is that of the lexicographic order. -/
theorem difference_order (hs : 0 ∉ s) (ht : 0 ∉ t) :
    (difference (fun b ↦ b.toNat) s t < 0 ↔ s < t) ∧
      (difference (fun b ↦ b.toNat) s t = 0 ↔ s = t) := by
  cases h : firstDifference s t with
  | none =>
    obtain rfl := firstDifference_eq_none.mp h
    simp [difference, h]
  | some ab =>
    obtain ⟨a, b⟩ := ab
    have hne := firstDifference_ne hs ht h
    have hst : s ≠ t := fun hst ↦ by simp [firstDifference_eq_none.mpr hst] at h
    have hnat : a.toNat ≠ b.toNat := fun heq ↦ hne (UInt8.toNat_inj.mp heq)
    have hvalue : difference (fun b ↦ b.toNat) s t = (a.toNat : ℤ) - b.toNat := by
      rw [difference, h]
    rw [lt_iff_firstDifference hs ht h, UInt8.lt_iff_toNat_lt, hvalue]
    exact ⟨by omega, iff_of_false (by omega) hst⟩

/-- `strncmp` and `strcmp` agree, and `memcmp` follows the order of unsigned bytes. It
agrees with them where the first two bytes that differ lie on one side of 128. -/
theorem comparisons_agree_iff (hs : 0 ∉ s) (ht : 0 ∉ t) (hn : max s.length t.length < n) :
    (∃ x y z : ℤ, strncmp (s ++ 0 :: rest) (t ++ 0 :: rest') n = some x ∧
      strcmp (s ++ 0 :: rest) (t ++ 0 :: rest') = some y ∧
      memcmp (s ++ 0 :: rest) (t ++ 0 :: rest') (min s.length t.length + 1) = some z ∧
      x.sign = y.sign ∧ y.sign = z.sign ∧ (z < 0 ↔ s < t) ∧ (z = 0 ↔ s = t)) ↔
    ∀ a b, firstDifference s t = some (a, b) → (a < 128 ↔ b < 128) := by
  rw [strncmp_eq hs ht hn, strcmp_eq hs ht, memcmp_eq hs ht]
  have horder := difference_order hs ht
  have hagree : ((difference char s t).sign = (difference (fun b ↦ b.toNat) s t).sign) ↔
      ∀ a b, firstDifference s t = some (a, b) → (a < 128 ↔ b < 128) := by
    cases h : firstDifference s t with
    | none => simp [difference, h]
    | some ab =>
      obtain ⟨a, b⟩ := ab
      have hne := firstDifference_ne hs ht h
      simp [difference, h, char_sub_sign hne]
  constructor
  · rintro ⟨_, _, _, ⟨⟩, ⟨⟩, ⟨⟩, _, hsign, _⟩
    exact hagree.mp hsign
  · intro h
    exact ⟨_, _, _, rfl, rfl, rfl, rfl, hagree.mpr h, horder⟩

theorem ascii_comparisons : ∃ x y z : ℤ, strncmp [97, 98, 0] [97, 99, 0, 7] 3 = some x ∧
    strcmp [97, 98, 0] [97, 99, 0, 7] = some y ∧ memcmp [97, 98, 0] [97, 99, 0, 7] 3 = some z ∧
    x.sign = y.sign ∧ y.sign = z.sign ∧ (z < 0 ↔ [(97 : UInt8), 98] < [97, 99]) ∧
    (z = 0 ↔ [(97 : UInt8), 98] = [97, 99]) := by
  have hiff := @comparisons_agree_iff [97, 98] [97, 99] [] [7] 3 (by decide) (by decide) (by decide)
  refine hiff.mpr fun a b h ↦ ?_
  obtain ⟨rfl, rfl⟩ : 98 = a ∧ 99 = b := by simpa [firstDifference] using h
  decide

/-- The strings of the one byte 128 and of the one byte 1. -/
theorem highByte_counterexample : strcmp [128, 0] [1, 0] = some (-129) ∧
    strncmp [128, 0] [1, 0] 2 = some (-129) ∧ memcmp [128, 0] [1, 0] 2 = some 127 ∧
    (-129 : ℤ).sign ≠ (127 : ℤ).sign := by decide

end OsWorkbench.Klib
