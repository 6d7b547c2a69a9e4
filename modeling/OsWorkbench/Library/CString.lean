import Mathlib.Data.List.TakeWhile

namespace OsWorkbench.Library.CString

/-- The text in a buffer: the bytes before its first NUL. -/
def text (buf : List UInt8) : List UInt8 := buf.takeWhile (· ≠ 0)

/-- `strncat` on a destination of fixed size. `none` means that a byte past the
end of the destination would be read or written. -/
def strncat (dst src : List UInt8) (n : ℕ) : Option (List UInt8) :=
  let piece := text (src.take n)
  let start := (text dst).length
  if start + piece.length < dst.length then
    some (dst.take start ++ piece ++ 0 :: dst.drop (start + piece.length + 1))
  else none

/-- `strncpy` to the beginning of a buffer: at most `n` bytes up to the NUL, the
rest of the `n` bytes being filled with NUL. -/
def strncpy (dst src : List UInt8) (n : ℕ) : Option (List UInt8) :=
  if n ≤ dst.length then
    some ((text (src.take n)).rightpad n 0 ++ dst.drop n)
  else none

/-- `strcmp`; a buffer is read as if a NUL stood behind it. -/
def strcmp : List UInt8 → List UInt8 → ℤ
  | [], t => -((t.headD 0).toNat : ℤ)
  | a :: _, [] => a.toNat
  | a :: s, b :: t =>
    if a ≠ b then (a.toNat : ℤ) - b.toNat else if a = 0 then 0 else strcmp s t

theorem toNat_eq_zero {a : UInt8} : a.toNat = 0 ↔ a = 0 := by
  rw [← UInt8.toNat_zero, UInt8.toNat_inj]

theorem ofNat_eq_zero {u : ℕ} : UInt8.ofNat u = 0 ↔ u % 256 = 0 := by
  rw [← UInt8.toNat_inj]
  simp

theorem text_cons (a : UInt8) (s : List UInt8) :
    text (a :: s) = if a = 0 then [] else a :: text s := by
  by_cases ha : a = 0 <;> simp [text, ha]

theorem text_append (s t : List UInt8) :
    text (s ++ t) = if 0 ∈ s then text s else s ++ text t := by
  induction s with
  | nil => simp
  | cons a s ih =>
    rw [List.cons_append, text_cons, text_cons, ih]
    by_cases ha : a = 0
    · simp [ha]
    · by_cases hs : 0 ∈ s <;> simp [ha, hs, eq_comm]

theorem strcmp_eq_zero (s t : List UInt8) : strcmp s t = 0 ↔ text s = text t := by
  induction s generalizing t with
  | nil =>
    cases t with
    | nil => simp [strcmp]
    | cons b t => by_cases hb : b = 0 <;> simp [strcmp, text, hb, toNat_eq_zero]
  | cons a s ih =>
    cases t with
    | nil => by_cases ha : a = 0 <;> simp [strcmp, text, ha, toNat_eq_zero]
    | cons b t =>
      rw [strcmp, text_cons, text_cons]
      by_cases hab : a = b
      · subst hab
        have hcons : a :: text s = a :: text t ↔ text s = text t := by simp
        by_cases ha : a = 0
        · simp [ha]
        · simpa only [ne_eq, not_true_eq_false, if_false, ha, hcons] using ih t
      · have hne : (a.toNat : ℤ) - b.toNat ≠ 0 := fun h ↦
          hab (UInt8.toNat_inj.mp (by omega))
        by_cases ha : a = 0
        · have hb : b ≠ 0 := fun hb ↦ hab (ha.trans hb.symm)
          simpa [ha, hb, hab, toNat_eq_zero] using hb.symm
        · by_cases hb : b = 0 <;> simp [ha, hb, hab, hne, toNat_eq_zero]

theorem text_append_zero {s : List UInt8} (hs : ∀ b ∈ s, b ≠ 0) (rest : List UInt8) :
    text (s ++ 0 :: rest) = s := by
  unfold text
  rw [List.takeWhile_append_of_pos (by simpa using hs)]
  simp

theorem text_eq_self {s : List UInt8} (hs : ∀ b ∈ s, b ≠ 0) : text s = s := by
  rw [text, List.takeWhile_eq_self_iff]
  simpa using hs

theorem text_eq_take {buf : List UInt8} {n : ℕ} (hn : n < buf.length) (hz : buf[n] = 0)
    (hne : ∀ k (hk : k < n), buf[k] ≠ 0) : text buf = buf.take n := by
  have hsplit : buf = buf.take n ++ 0 :: buf.drop (n + 1) := by
    rw [← hz, List.getElem_cons_drop hn, List.take_append_drop]
  have hs : ∀ b ∈ buf.take n, b ≠ 0 := by
    intro b hb
    obtain ⟨k, hk, rfl⟩ := List.mem_take_iff_getElem.mp hb
    exact hne k (by omega)
  exact (congrArg text hsplit).trans (text_append_zero hs _)

theorem text_ne_zero {s : List UInt8} : ∀ b ∈ text s, b ≠ 0 := by
  intro b hb
  simpa using List.mem_takeWhile_imp hb

theorem take_text (s : List UInt8) : s.take (text s).length = text s :=
  (List.prefix_iff_eq_take.mp (List.takeWhile_prefix _)).symm

@[simp] theorem text_replicate_zero (n : ℕ) : text (List.replicate n 0) = [] := by
  cases n <;> simp [text, List.replicate_succ]

theorem text_append_replicate_zero {s : List UInt8} (hs : ∀ b ∈ s, b ≠ 0) (n : ℕ) :
    text (s ++ List.replicate n 0) = s := by
  cases n with
  | zero =>
    rw [List.replicate_zero, List.append_nil]
    exact text_eq_self hs
  | succ n => exact text_append_zero hs _

/-- A concatenation that stays inside its destination appends the text of the
source and keeps the size of the buffer. -/
theorem strncat_spec (dst src : List UInt8) (n : ℕ)
    (h : (text dst).length + (text (src.take n)).length < dst.length) :
    ∃ buf, strncat dst src n = some buf ∧ buf.length = dst.length ∧
      text buf = text dst ++ text (src.take n) := by
  refine ⟨_, if_pos h, ?_, ?_⟩
  · simp only [List.length_append, List.length_take, List.length_cons, List.length_drop]
    omega
  · rw [take_text]
    apply text_append_zero
    intro b hb
    rcases List.mem_append.mp hb with hb | hb
    · exact text_ne_zero b hb
    · exact text_ne_zero b hb

/-- A copy shorter than what `strncpy` fills is followed by a NUL. -/
theorem strncpy_spec {dst src out : List UInt8} {n : ℕ} (h : strncpy dst src n = some out)
    (hlen : (text (src.take n)).length < n) : 0 ∈ out ∧ text out = text (src.take n) := by
  rw [strncpy] at h
  split at h
  · cases h
    have hpad : (text (src.take n)).rightpad n 0 ++ dst.drop n = text (src.take n) ++
        0 :: (List.replicate (n - (text (src.take n)).length - 1) 0 ++ dst.drop n) := by
      rw [List.rightpad, List.append_assoc, ← List.cons_append, ← List.replicate_succ]
      congr
      omega
    rw [hpad]
    exact ⟨List.mem_append_right _ List.mem_cons_self, text_append_zero text_ne_zero _⟩
  · cases h

theorem length_strncpy {dst src out : List UInt8} {n : ℕ} (h : strncpy dst src n = some out) :
    out.length = dst.length := by
  rw [strncpy] at h
  split_ifs at h
  cases h
  have htext : (text (src.take n)).length ≤ (src.take n).length :=
    (List.takeWhile_prefix _).length_le
  rw [List.length_take] at htext
  rw [List.length_append, List.length_rightpad, List.length_drop]
  omega

/-- A copy to an empty buffer is all of its text. -/
theorem strncpy_zeros {src out : List UInt8} {m n : ℕ}
    (h : strncpy (List.replicate m 0) src n = some out) : text out = text (src.take n) := by
  rw [strncpy] at h
  split_ifs at h
  cases h
  rw [List.rightpad, List.append_assoc, List.drop_replicate, List.replicate_append_replicate]
  exact text_append_replicate_zero text_ne_zero _

end OsWorkbench.Library.CString
