import OsWorkbench.Fsrecov.Dirent
import Mathlib.Data.List.Basic

namespace OsWorkbench.Fsrecov

/-- What a step does to the sum before it adds the byte. -/
def rotate (sum : UInt8) : UInt8 := (if sum &&& 1 ≠ 0 then (0x80 : UInt8) else 0) + (sum >>> 1)

theorem rotate_toNat (sum : UInt8) :
    (rotate sum).toNat = 128 * (sum.toNat % 2) + sum.toNat / 2 := by
  have hlt : sum.toNat < 256 := sum.toNat_lt
  have hand : (sum &&& 1).toNat = sum.toNat % 2 := Nat.and_one_is_mod _
  have hshift : (sum >>> 1).toNat = sum.toNat / 2 := by
    simp [Nat.shiftRight_eq_div_pow]
  have hbit : sum &&& 1 = 0 ↔ sum.toNat % 2 = 0 := by
    rw [← hand, ← UInt8.toNat_zero, UInt8.toNat_inj]
  rw [rotate, UInt8.toNat_add, hshift]
  by_cases h : sum &&& 1 = 0
  · have h0 := hbit.mp h
    rw [if_neg (not_not.mpr h), UInt8.toNat_zero]
    omega
  · have h0 := mt hbit.mpr h
    rw [if_pos h]
    change (128 + sum.toNat / 2) % 256 = _
    omega

/-- Rotating to the left undoes it. -/
theorem rotate_bijective : Function.Bijective rotate := by
  constructor
  · intro a b h
    have hab := congrArg UInt8.toNat h
    rw [rotate_toNat, rotate_toNat] at hab
    apply UInt8.toNat_inj.mp
    have ha : a.toNat < 256 := a.toNat_lt
    have hb : b.toNat < 256 := b.toNat_lt
    omega
  · intro c
    have hc : c.toNat < 256 := c.toNat_lt
    have hlt : 2 * (c.toNat % 128) + c.toNat / 128 < 2 ^ 8 := by omega
    refine ⟨UInt8.ofNat (2 * (c.toNat % 128) + c.toNat / 128), ?_⟩
    apply UInt8.toNat_inj.mp
    rw [rotate_toNat, UInt8.toNat_ofNat', Nat.mod_eq_of_lt hlt]
    omega

theorem add_left_bijective (a : UInt8) : Function.Bijective fun b ↦ a + b := by
  constructor
  · intro b c h
    exact UInt8.add_right_inj a |>.mp h
  · intro c
    exact ⟨c - a, (UInt8.add_comm _ _).trans (UInt8.sub_add_cancel _ _)⟩

theorem checksumStep_bijective_right (sum : UInt8) :
    Function.Bijective fun b ↦ checksumStep sum b := add_left_bijective (rotate sum)

theorem checksumStep_bijective_left (b : UInt8) :
    Function.Bijective fun sum ↦ checksumStep sum b := by
  have hcomm : (fun sum ↦ checksumStep sum b) = (fun a ↦ b + a) ∘ rotate :=
    funext fun sum ↦ UInt8.add_comm (rotate sum) b
  rw [hcomm]
  exact (add_left_bijective b).comp rotate_bijective

theorem foldl_bijective {α β : Type*} {f : α → β → α} (hf : ∀ b, Function.Bijective fun a ↦ f a b)
    (l : List β) : Function.Bijective fun a ↦ l.foldl f a := by
  induction l with
  | nil => exact Function.bijective_id
  | cons b l ih => exact ih.comp (hf b)

/-- With the other ten bytes fixed, the sum takes every value for one byte. -/
theorem calcChecksum_bijective {before after : List UInt8}
    (h : (before ++ 0 :: after).length = 11) :
    Function.Bijective fun b ↦ calcChecksum (before ++ b :: after) := by
  have hsplit : ∀ b, calcChecksum (before ++ b :: after) =
      after.foldl checksumStep (checksumStep (before.foldl checksumStep 0) b) := by
    intro b
    rw [List.length_append, List.length_cons] at h
    rw [calcChecksum, List.take_of_length_le (by simp; omega), List.foldl_append, List.foldl_cons]
  simp only [hsplit]
  exact (foldl_bijective checksumStep_bijective_left after).comp (checksumStep_bijective_right _)

/-- The checksum of a name tells every change of one byte. -/
theorem calcChecksum_detects {x : List UInt8} (hx : x.length = 11) :
    (∀ i < 11, Function.Bijective fun b ↦ calcChecksum (x.set i b)) ∧
    ∀ y : List UInt8, y.length = 11 → (∃! i : ℕ, x[i]? ≠ y[i]?) →
      calcChecksum x ≠ calcChecksum y := by
  have hbij : ∀ i < 11, Function.Bijective fun b ↦ calcChecksum (x.set i b) := by
    intro i hi
    have hset : ∀ b, x.set i b = x.take i ++ b :: x.drop (i + 1) := fun b ↦
      List.set_eq_take_append_cons_drop.trans (if_pos (by omega))
    simp only [hset]
    apply calcChecksum_bijective
    rw [← hset, List.length_set, hx]
  refine ⟨hbij, ?_⟩
  rintro y hy ⟨i, hne, honly⟩ heq
  have hi : i < 11 := by
    by_contra hge
    exact hne (by rw [List.getElem?_eq_none (by omega), List.getElem?_eq_none (by omega)])
  have hrest : x.set i y[i] = y := by
    refine List.ext_getElem? fun j ↦ ?_
    by_cases hj : j = i
    · subst hj
      simp [hx, hy, hi]
    · rw [List.getElem?_set_ne (Ne.symm hj)]
      by_contra hjne
      exact hj (honly j hjne)
  have hself : x.set i x[i] = x := List.set_getElem_self _
  have hsame : x[i] = y[i] := by
    apply (hbij i hi).injective
    change calcChecksum (x.set i x[i]) = calcChecksum (x.set i y[i])
    rw [hself, hrest, heq]
  exact hne (by simp [hx, hy, hi, hsame])

/-- `AAAAAAAAAAA` and `BAAAAAAAAAA`. -/
theorem firstByte_detected : calcChecksum (List.replicate 11 0x41) ≠
    calcChecksum (0x42 :: List.replicate 10 0x41) := by
  apply (calcChecksum_detects (List.length_replicate ..)).2 _ rfl
  refine ⟨0, by decide, fun i hi ↦ ?_⟩
  cases i with
  | zero => rfl
  | succ i => exact absurd rfl hi

end OsWorkbench.Fsrecov
