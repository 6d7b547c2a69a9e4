import OsWorkbench.Klib.Heap
import OsWorkbench.Library.Overlay

namespace OsWorkbench.Klib

open Library

abbrev Mem := ℕ → UInt8

/-- The pointers run on through `out` and `src`. -/
def memcpy : ℕ → ℕ → ℕ → Mem → Mem
  | _, _, 0, mem => mem
  | out, src, n + 1, mem => memcpy (out + 1) (src + 1) n (Function.update mem out (mem src))

/-- The temporary block is not given back, since `free` does nothing. -/
def memmove {w : ℕ} (heap : Area w) (dst src : ℕ) (n : BitVec w) (s : Allocator w) (mem : Mem) :
    Option (Allocator w × Mem) :=
  match malloc heap s n with
  | none => none
  | some (tmp, s) =>
    some (free s tmp, memcpy dst tmp.toNat n.toNat (memcpy tmp.toNat src n.toNat mem))

/-- `none` where no NUL is found in as many bytes as the first argument. -/
def strlen : ℕ → ℕ → Mem → Option ℕ
  | 0, _, _ => none
  | fuel + 1, s, mem => if mem s ≠ 0 then (strlen fuel (s + 1) mem).map (· + 1) else some 0

def strcpy (fuel dst src : ℕ) (mem : Mem) : Option Mem :=
  (strlen fuel src mem).map fun len ↦ memcpy dst src (len + 1) mem

def strcat (fuel dst src : ℕ) (mem : Mem) : Option Mem :=
  (strlen fuel dst mem).bind fun len ↦ strcpy fuel (dst + len) src mem

/-- No NUL is written. -/
def strncpy : ℕ → ℕ → ℕ → Mem → Mem
  | _, _, 0, mem => mem
  | dst, src, n + 1, mem =>
    if mem src ≠ 0 then strncpy (dst + 1) (src + 1) n (Function.update mem dst (mem src)) else mem

variable {out src dst n x : ℕ} {mem : Mem}

/-- Which byte of the source the byte at `i` of the destination comes from: where the destination
begins inside the source, what lies between the two is repeated. -/
def origin (out src i : ℕ) : ℕ := if src < out then src + i % (out - src) else src + i

theorem origin_succ (mem : Mem) (out src i : ℕ) :
    Function.update mem out (mem src) (origin (out + 1) (src + 1) i) =
      mem (origin out src (i + 1)) := by
  rw [origin, origin]
  by_cases h : src < out
  · obtain ⟨d, rfl⟩ := Nat.exists_eq_add_of_lt h
    have hgap : src + d + 1 + 1 - (src + 1) = d + 1 := by omega
    have hgap' : src + d + 1 - src = d + 1 := by omega
    have hlt : i % (d + 1) < d + 1 := Nat.mod_lt i (Nat.succ_pos d)
    rw [if_pos h, if_pos (by omega), hgap, hgap']
    by_cases hlast : i % (d + 1) = d
    · have hnext : (i + 1) % (d + 1) = 0 := by
        rw [Nat.add_mod, hlast]
        cases d with
        | zero => exact Nat.mod_one _
        | succ d => rw [Nat.mod_eq_of_lt (show 1 < d + 1 + 1 by omega), Nat.mod_self]
      have hat : src + 1 + d = src + d + 1 := Nat.add_right_comm src 1 d
      rw [hlast, hnext, hat, Function.update_self]
      rfl
    · have hnext : (i + 1) % (d + 1) = i % (d + 1) + 1 := by
        rw [← Nat.mod_add_mod, Nat.mod_eq_of_lt (show i % (d + 1) + 1 < d + 1 by omega)]
      rw [hnext, Function.update_of_ne (by omega)]
      congr 1
      omega
  · rw [if_neg h, if_neg (by omega), Function.update_of_ne (by omega)]
    congr 1
    omega

/-- Every overlap of source and destination is covered. -/
theorem memcpy_eq (out src n : ℕ) (mem : Mem) :
    memcpy out src n mem = overlay out (out + n) (fun i ↦ mem (origin out src i)) mem := by
  induction n generalizing out src mem with
  | zero => exact (overlay_empty (Nat.le_refl out)).symm
  | succ n ih =>
    have hfirst : Function.update mem out (mem src) =
        overlay out (out + 1) (fun i ↦ mem (origin out src i)) mem := by
      have hstep := update_overlay (Nat.le_refl out) (fun i ↦ mem (origin out src i)) mem
      rw [overlay_empty (Nat.le_refl out), Nat.sub_self] at hstep
      have horigin : origin out src 0 = src := by
        rw [origin]
        split_ifs
        · rw [Nat.zero_mod, Nat.add_zero]
        · rfl
      rw [horigin] at hstep
      exact hstep
    have hrest : (fun i ↦ Function.update mem out (mem src) (origin (out + 1) (src + 1) i)) =
        fun i ↦ mem (origin out src (out + 1 - out + i)) := by
      funext i
      rw [origin_succ, Nat.add_sub_cancel_left, Nat.add_comm 1 i]
    rw [memcpy, ih, hrest, hfirst, overlay_overlay (by omega) (by omega)
      (fun i ↦ mem (origin out src i)), Nat.add_right_comm, Nat.add_assoc]

/-- The destination does not begin inside the source. -/
theorem memcpy_apart (h : out ≤ src ∨ src + n ≤ out) (mem : Mem) :
    memcpy out src n mem = overlay out (out + n) (fun i ↦ mem (src + i)) mem := by
  rw [memcpy_eq]
  funext x
  by_cases hx : out ≤ x ∧ x < out + n
  · rw [overlay_inside hx.1 hx.2, overlay_inside hx.1 hx.2, origin]
    split_ifs with hlt
    · rw [Nat.mod_eq_of_lt (by omega)]
    · rfl
  · rw [overlay_outside hx, overlay_outside hx]

/-- For every overlap of source and destination; the temporary block, which `malloc` puts apart
from what is in use, holds a copy, and is never used again. -/
theorem memmove_eq {w : ℕ} {heap : Area w} {s s' : Allocator w} {tmp n : BitVec w}
    (halloc : malloc heap s n = some (tmp, s'))
    (hsrc : tmp.toNat + n.toNat ≤ src ∨ src + n.toNat ≤ tmp.toNat)
    (hdst : tmp.toNat + n.toNat ≤ dst ∨ dst + n.toNat ≤ tmp.toNat) (mem : Mem) :
    memmove heap dst src n s mem = some (s',
      overlay dst (dst + n.toNat) (fun i ↦ mem (src + i))
        (overlay tmp.toNat (tmp.toNat + n.toNat) (fun i ↦ mem (src + i)) mem)) := by
  have hfirst := memcpy_apart (hsrc.imp Nat.le_of_add_right_le id) mem
  have hsecond := @memcpy_apart dst tmp.toNat n.toNat (by omega)
    (overlay tmp.toNat (tmp.toNat + n.toNat) (fun i ↦ mem (src + i)) mem)
  have hcopy : overlay dst (dst + n.toNat) (fun i ↦ overlay tmp.toNat (tmp.toNat + n.toNat)
      (fun i ↦ mem (src + i)) mem (tmp.toNat + i)) =
      overlay dst (dst + n.toNat) fun i ↦ mem (src + i) := by
    funext m x
    by_cases hx : dst ≤ x ∧ x < dst + n.toNat
    · rw [overlay_inside hx.1 hx.2, overlay_inside hx.1 hx.2,
        overlay_inside (Nat.le_add_right _ _) (by omega), Nat.add_sub_cancel_left]
    · rw [overlay_outside hx, overlay_outside hx]
  rw [memmove, halloc]
  simp only
  rw [hfirst, hsecond, hcopy]
  rfl

/-- The string at `s` is `text`. -/
def HasString (mem : Mem) (s : ℕ) : List UInt8 → Prop
  | [] => mem s = 0
  | b :: text => b ≠ 0 ∧ mem s = b ∧ HasString mem (s + 1) text

variable {s fuel : ℕ} {text other : List UInt8} {mem' : Mem}

theorem HasString.congr (h : HasString mem s text)
    (hsame : ∀ i ≤ text.length, mem' (x + i) = mem (s + i)) : HasString mem' x text := by
  induction text generalizing s x with
  | nil => exact (hsame 0 (Nat.le_refl 0)).trans h
  | cons b text ih =>
    obtain ⟨hb, hs, htext⟩ := h
    refine ⟨hb, (hsame 0 (Nat.zero_le _)).trans hs, ih htext fun i hi ↦ ?_⟩
    have hnext := hsame (i + 1) (Nat.succ_le_succ hi)
    rw [← Nat.add_assoc, ← Nat.add_assoc, Nat.add_right_comm, Nat.add_right_comm s] at hnext
    exact hnext

theorem strlen_eq (h : HasString mem s text) (hfuel : text.length < fuel) :
    strlen fuel s mem = some text.length := by
  induction text generalizing s fuel with
  | nil =>
    obtain ⟨fuel, rfl⟩ := Nat.exists_eq_add_one_of_ne_zero (Nat.ne_zero_of_lt hfuel)
    have hs : mem s = 0 := h
    rw [strlen, if_neg (fun hne ↦ hne hs)]
    rfl
  | cons b text ih =>
    obtain ⟨fuel, rfl⟩ := Nat.exists_eq_add_one_of_ne_zero (Nat.ne_zero_of_lt hfuel)
    obtain ⟨hb, hs, htext⟩ := h
    rw [strlen, hs, if_pos hb, ih htext (Nat.lt_of_succ_lt_succ hfuel)]
    rfl

theorem HasString.append (h : HasString mem s text)
    (hsame : ∀ i < text.length, mem' (s + i) = mem (s + i))
    (hother : HasString mem' (s + text.length) other) : HasString mem' s (text ++ other) := by
  induction text generalizing s with
  | nil => exact hother
  | cons b text ih =>
    obtain ⟨hb, hs, htext⟩ := h
    rw [List.length_cons] at hsame hother
    refine ⟨hb, (hsame 0 (Nat.succ_pos _)).trans hs, ih htext ?_ ?_⟩
    · intro i hi
      have hnext := hsame (i + 1) (Nat.succ_lt_succ hi)
      rw [← Nat.add_assoc, Nat.add_right_comm] at hnext
      exact hnext
    · rw [Nat.add_right_comm, Nat.add_assoc]
      exact hother

theorem strcpy_eq (h : HasString mem src text) (hfuel : text.length < fuel)
    (hapart : dst ≤ src ∨ src + text.length < dst) :
    strcpy fuel dst src mem =
      some (overlay dst (dst + (text.length + 1)) (fun i ↦ mem (src + i)) mem) := by
  rw [strcpy, strlen_eq h hfuel, Option.map_some, memcpy_apart (by omega)]

/-- It stops at the NUL or behind `n` bytes, and writes nothing there. -/
theorem strncpy_eq (n : ℕ) (h : HasString mem src text)
    (hapart : dst ≤ src ∨ src + text.length < dst) :
    strncpy dst src n mem =
      overlay dst (dst + min n text.length) (fun i ↦ mem (src + i)) mem := by
  induction n generalizing dst src text mem with
  | zero => rw [strncpy, overlay_empty (by omega)]
  | succ n ih =>
    cases text with
    | nil =>
      have hs : mem src = 0 := h
      rw [strncpy, if_neg (fun hne ↦ hne hs), overlay_empty (by rw [List.length_nil]; omega)]
    | cons b text =>
      obtain ⟨hb, hs, htext⟩ := h
      rw [List.length_cons] at hapart
      have hkept : HasString (Function.update mem dst (mem src)) (src + 1) text :=
        htext.congr fun i hi ↦ Function.update_of_ne (by omega) _ _
      rw [strncpy, hs, if_pos hb, ← hs, ih hkept (by omega), List.length_cons]
      funext x
      by_cases hrest : dst + 1 ≤ x ∧ x < dst + 1 + min n text.length
      · have hat : src + 1 + (x - (dst + 1)) = src + (x - dst) := by omega
        rw [overlay_inside hrest.1 hrest.2, hat, overlay_inside (by omega) (by omega),
          Function.update_of_ne (by omega)]
      · rw [overlay_outside hrest]
        by_cases hx : x = dst
        · rw [hx, Function.update_self, overlay_inside (Nat.le_refl dst) (by omega), Nat.sub_self,
            Nat.add_zero]
        · rw [Function.update_of_ne hx, overlay_outside (by omega)]

section Results

/-- `memcpy` repeats the beginning of the source where the destination begins inside it;
`memmove` copies the source in every case, and outside its temporary block differs from `memcpy`
only there. -/
theorem copies {w : ℕ} {heap : Area w} {s s' : Allocator w} {tmp n : BitVec w} {dst src : ℕ}
    (halloc : malloc heap s n = some (tmp, s'))
    (hsrc : tmp.toNat + n.toNat ≤ src ∨ src + n.toNat ≤ tmp.toNat)
    (hdst : tmp.toNat + n.toNat ≤ dst ∨ dst + n.toNat ≤ tmp.toNat) (mem : Mem) :
    ∃ mem', memmove heap dst src n s mem = some (s', mem') ∧
      (∀ i < n.toNat, mem' (dst + i) = mem (src + i)) ∧
      (∀ i < n.toNat, mem' (tmp.toNat + i) = mem (src + i)) ∧
      (∀ i < n.toNat, memcpy dst src n.toNat mem (dst + i) =
        mem (if src < dst then src + i % (dst - src) else src + i)) ∧
      ∀ x, (x < tmp.toNat ∨ tmp.toNat + n.toNat ≤ x) → (x < dst ∨ dst + n.toNat ≤ x) →
        mem' x = mem x ∧ memcpy dst src n.toNat mem x = mem x := by
  refine ⟨_, memmove_eq halloc hsrc hdst mem, ?_, ?_, ?_, ?_⟩
  · intro i hi
    rw [overlay_inside (Nat.le_add_right _ _) (by omega), Nat.add_sub_cancel_left]
  · intro i hi
    rw [overlay_outside (by omega), overlay_inside (Nat.le_add_right _ _) (by omega),
      Nat.add_sub_cancel_left]
  · intro i hi
    rw [memcpy_eq, overlay_inside (Nat.le_add_right _ _) (by omega), Nat.add_sub_cancel_left,
      origin]
  · intro x htmp hx
    rw [overlay_outside (by omega), overlay_outside (by omega), memcpy_eq,
      overlay_outside (by omega)]
    exact ⟨rfl, rfl⟩

/-- `ABCDEF`, moved two bytes on. -/
theorem sample_copies : ∃ mem',
    memmove smallHeap 0x102 0x100 6#32 .initial (fun x ↦ UInt8.ofNat (x - 0x100 + 65)) =
      some (⟨true, 0x1010⟩, mem') ∧
    mem' 0x107 = 70 ∧
    memcpy 0x102 0x100 6 (fun x ↦ UInt8.ofNat (x - 0x100 + 65)) 0x107 = 66 := by
  have halloc : malloc smallHeap .initial 6#32 = some (0x1008#32, ⟨true, 0x1010⟩) := rfl
  obtain ⟨mem', hrun, hmove, -, hcpy, -⟩ := @copies 32 smallHeap .initial ⟨true, 0x1010⟩ 0x1008#32
    6#32 0x102 0x100 halloc (Or.inr (by decide)) (Or.inr (by decide))
    fun x ↦ UInt8.ofNat (x - 0x100 + 65)
  refine ⟨mem', hrun, ?_, ?_⟩
  · exact (hmove 5 (by decide)).trans (by decide)
  · exact (hcpy 5 (by decide)).trans (by decide)

/-- Behind the string at `dst` comes the one at `src`, and nothing else changes; `strncpy` writes
the bytes of the string up to `n`, without a NUL, and nothing else. -/
theorem strings {fuel dst src n : ℕ} {text other : List UInt8} {mem : Mem}
    (hdst : HasString mem dst text) (hsrc : HasString mem src other)
    (hlong : text.length < fuel) (hother : other.length < fuel)
    (hapart : src + other.length < dst ∨ dst + text.length < src) :
    (∃ mem', strcat fuel dst src mem = some mem' ∧ HasString mem' dst (text ++ other) ∧
      strlen (2 * fuel) dst mem' = some (text.length + other.length) ∧
      ∀ x, x < dst + text.length ∨ dst + text.length + other.length < x → mem' x = mem x) ∧
    ∀ x, strncpy dst src n mem x =
      if dst ≤ x ∧ x < dst + min n other.length then mem (src + (x - dst)) else mem x := by
  constructor
  · have hcpy := @strcpy_eq src (dst + text.length) mem fuel other hsrc hother (by omega)
    have hresult : HasString (overlay (dst + text.length)
        (dst + text.length + (other.length + 1)) (fun i ↦ mem (src + i)) mem) dst
        (text ++ other) := by
      apply hdst.append
      · intro i hi
        exact overlay_outside (by omega)
      · refine hsrc.congr fun i hi ↦ ?_
        rw [overlay_inside (Nat.le_add_right _ _) (by omega), Nat.add_sub_cancel_left]
    refine ⟨_, ?_, hresult, ?_, ?_⟩
    · rw [strcat, strlen_eq hdst hlong, Option.bind_some, hcpy]
    · rw [strlen_eq hresult (by rw [List.length_append]; omega), List.length_append]
    · exact fun x hx ↦ overlay_outside (by omega)
  · intro x
    rw [strncpy_eq n hsrc (by omega)]
    rfl

/-- `A` with `BC` behind it. -/
theorem sample_strings : ∃ mem',
    strcat 9 8 16 (fun x ↦ if x = 8 then 65 else if x = 16 then 66 else if x = 17 then 67 else 0) =
      some mem' ∧ HasString mem' 8 [65, 66, 67] := by
  have hrun := @strings 9 8 16 2 [65] [66, 67]
    (fun x ↦ if x = 8 then 65 else if x = 16 then 66 else if x = 17 then 67 else 0)
    ⟨by decide, rfl, rfl⟩ ⟨by decide, rfl, by decide, rfl, rfl⟩ (by decide) (by decide)
    (Or.inr (by decide))
  obtain ⟨⟨mem', hcat, hresult, -⟩, -⟩ := hrun
  exact ⟨mem', hcat, hresult⟩

end Results

end OsWorkbench.Klib
