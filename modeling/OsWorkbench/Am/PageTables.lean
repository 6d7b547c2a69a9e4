import Mathlib.Algebra.GroupWithZero.Nat
import OsWorkbench.Am.Paging
import OsWorkbench.Library.Radix
import OsWorkbench.Library.Writes

namespace OsWorkbench.Am

open Library Library.Words Library.Radix

/-- A page is filled by whole words. -/
class WordSize (w : ℕ) : Prop where
  bits : 12 ≤ w
  split : entries w * (w / 8) = pgsize

instance : WordSize 64 := ⟨by decide, by decide⟩

instance : WordSize 32 := ⟨by decide, by decide⟩

section Pages

variable {w : ℕ} {p q x : BitVec w} {i j : ℕ}

theorem toNat_baseof (x : BitVec w) : (baseof x).toNat = x.toNat / 4096 * 4096 :=
  toNat_and_not_low x

theorem baseof_baseof (x : BitVec w) : baseof (baseof x) = baseof x := and_not_low_and_not_low x

variable [hw : WordSize w]

instance entries_neZero : NeZero (entries w) := by
  constructor
  intro h
  have hsplit := hw.split
  rw [h, Nat.zero_mul] at hsplit
  cases hsplit

theorem word_pos (w : ℕ) [hw : WordSize w] : 0 < w / 8 := by
  apply Nat.pos_of_ne_zero
  intro h
  have hsplit := hw.split
  rw [h, Nat.mul_zero] at hsplit
  cases hsplit

/-- The last word of a page does not leave it. -/
theorem offset_add_word_le (hi : i < entries w) : i * (w / 8) + w / 8 ≤ 4096 := by
  have hle := Nat.mul_le_mul_right (w / 8) (Nat.succ_le_of_lt hi)
  rw [Nat.succ_mul, hw.split] at hle
  exact hle

theorem toNat_slot (hp : baseof p = p) (hi : i < entries w) :
    (slot p i).toNat = p.toNat + i * (w / 8) := by
  have hpage := toNat_baseof p
  rw [hp] at hpage
  obtain ⟨k, hk⟩ : 2 ^ 12 ∣ 2 ^ w := Nat.pow_dvd_pow 2 hw.bits
  have hlt := p.isLt
  have hpos := word_pos w
  have hmul := offset_add_word_le hi
  have hsum : p.toNat + i * (w / 8) < 2 ^ w := by omega
  have hsmall : i * (w / 8) < 2 ^ w := by omega
  rw [slot, BitVec.toNat_add, BitVec.toNat_ofNat, Nat.mod_eq_of_lt hsmall, Nat.mod_eq_of_lt hsum]

theorem baseof_slot (hp : baseof p = p) (hi : i < entries w) : baseof (slot p i) = p := by
  apply BitVec.eq_of_toNat_eq
  have hpage := toNat_baseof p
  rw [hp] at hpage
  have hpos := word_pos w
  have hmul := offset_add_word_le hi
  rw [toNat_baseof, toNat_slot hp hi]
  omega

theorem slot_inj (hp : baseof p = p) (hq : baseof q = q) (hi : i < entries w) (hj : j < entries w)
    (h : slot p i = slot q j) : p = q ∧ i = j := by
  have hpq : p = q := by rw [← baseof_slot hp hi, h, baseof_slot hq hj]
  subst hpq
  have hnat := congrArg BitVec.toNat h
  rw [toNat_slot hp hi, toNat_slot hp hj] at hnat
  exact ⟨rfl, Nat.eq_of_mul_eq_mul_right (word_pos w) (Nat.add_left_cancel hnat)⟩

/-- The words of a page. -/
def view (mem : Memory w) (t : BitVec w) (j : Fin (entries w)) : BitVec w := mem (slot t j)

theorem view_store {mem : Memory w} {v : BitVec w} {i j : Fin (entries w)} (hp : baseof p = p)
    (hq : baseof q = q) :
    view (Function.update mem (slot p i) v) q j = if q = p ∧ j = i then v else view mem q j := by
  rw [view, Function.update_apply]
  apply if_congr
  · constructor
    · intro h
      obtain ⟨hpq, hij⟩ := slot_inj hq hp j.isLt i.isLt h
      exact ⟨hpq, Fin.ext hij⟩
    · intro h
      obtain ⟨rfl, rfl⟩ := h
      rfl
  · rfl
  · rfl

end Pages

section Entries

variable {w : ℕ} {q e flags addr : BitVec w} {info : PtInfo w}

/-- The next table, when an entry has all the flags that `ptwalk` gives to an entry. -/
def nextTable (flags e : BitVec w) : Option (BitVec w) :=
  if e &&& (pteP ||| flags) = pteP ||| flags then some (baseof e) else none

theorem nextTable_entry (hq : baseof q = q) (hflags : ((pteP : BitVec w) ||| flags).toNat < 2 ^ 12) :
    nextTable flags (q ||| pteP ||| flags) = some q := by
  rw [nextTable, BitVec.or_assoc, or_and_self, if_pos rfl]
  exact congrArg some (or_and_not_low hq hflags)

theorem baseof_of_nextTable (h : nextTable flags e = some q) : baseof e = q := by
  rw [nextTable] at h
  split_ifs at h
  exact Option.some_inj.mp h

/-- A flag among those that are all set is set. -/
theorem and_eq_of_and_eq {f g : BitVec w} (hsub : f &&& g = g) (h : e &&& f = f) : e &&& g = g := by
  rw [← hsub, ← BitVec.and_assoc, h]

theorem flag_ne_zero [hw : WordSize w] {k : ℕ} (hpos : 0 < k) (hk : k < 2 ^ 12) :
    BitVec.ofNat w k ≠ 0#w := by
  intro h
  have hnat := congrArg BitVec.toNat h
  have hle : 2 ^ 12 ≤ 2 ^ w := Nat.pow_le_pow_right Nat.two_pos hw.bits
  rw [BitVec.toNat_ofNat, BitVec.toNat_ofNat, Nat.zero_mod, Nat.mod_eq_of_lt (hk.trans_le hle)] at hnat
  omega

theorem pteP_subset (flags : BitVec w) : (pteP ||| flags) &&& pteP = pteP := by
  rw [BitVec.or_comm]
  exact or_and_self flags pteP

/-- An entry that is not present leads nowhere. -/
theorem nextTable_of_absent [hw : WordSize w] (h : e &&& pteP = 0#w) : nextTable flags e = none := by
  apply if_neg
  intro hall
  have hpresent := and_eq_of_and_eq (pteP_subset flags) hall
  rw [h] at hpresent
  exact flag_ne_zero Nat.one_pos (by decide) hpresent.symm

/-- A level cuts its index out of the address, for a table that fills a page. -/
structure PtInfo.Valid (info : PtInfo w) : Prop where
  bits : 2 ^ info.bits = entries w
  mask : info.mask = low w info.bits <<< info.shift
  shift : 12 ≤ info.shift
  fits : info.shift + info.bits ≤ w

theorem PtInfo.Valid.indexof_eq (h : info.Valid) (addr : BitVec w) :
    indexof addr info = addr.toNat / 2 ^ info.shift % entries w := by
  rw [indexof, h.mask, toNat_field h.fits, h.bits]

/-- The offset into a page is no part of an index. -/
theorem PtInfo.Valid.indexof_baseof (h : info.Valid) (addr : BitVec w) :
    indexof (baseof addr) info = indexof addr info := by
  have hpow : 2 ^ info.shift = 4096 * 2 ^ (info.shift - 12) := by
    rw [show 4096 = 2 ^ 12 from rfl, ← Nat.pow_add, Nat.add_sub_cancel' h.shift]
  rw [h.indexof_eq, h.indexof_eq, toNat_baseof, hpow, ← Nat.div_div_eq_div_mul,
    Nat.mul_div_cancel _ (by decide), Nat.div_div_eq_div_mul]

variable [hw : WordSize w]

def index (addr : BitVec w) (info : PtInfo w) : Fin (entries w) :=
  Fin.ofNat (entries w) (indexof addr info)

theorem PtInfo.Valid.val_index (h : info.Valid) : (index addr info : ℕ) = indexof addr info := by
  apply Nat.mod_eq_of_lt
  rw [h.indexof_eq]
  exact Nat.mod_lt _ (Nat.pos_of_neZero _)

end Entries

section Allocation

variable {w : ℕ} [hw : WordSize w] {σ : Type*} {A : PageAllocator w σ} {s s' : Machine w σ}
  {p q x : BitVec w} {mem : Memory w}

omit hw in
theorem PageAllocator.live_page {h : σ} (hp : p ∈ A.live h) : baseof p = p :=
  A.arena_page p (A.live_arena h hp)

omit hw in
open Classical in
theorem zeroPage_eq (p : BitVec w) (mem : Memory w) (x : BitVec w) :
    zeroPage p mem x = if ∃ i ∈ List.range (entries w), slot p i = x then 0#w else mem x :=
  @foldl_update _ _ _ _ (slot p) (fun _ _ ↦ 0#w) Set.univ mem mem (fun _ ↦ 0#w) _
    (fun _ _ ↦ Set.mem_univ _) (fun _ _ _ _ ↦ rfl) (fun _ _ ↦ rfl) x

theorem zeroPage_of_ne (hp : baseof p = p) (hx : baseof x ≠ p) : zeroPage p mem x = mem x := by
  rw [zeroPage_eq]
  apply if_neg
  intro h
  obtain ⟨i, hi, rfl⟩ := h
  exact hx (baseof_slot hp (List.mem_range.mp hi))

omit hw in
theorem view_zeroPage (p : BitVec w) (mem : Memory w) (j : Fin (entries w)) :
    view (zeroPage p mem) p j = 0#w := by
  rw [view, zeroPage_eq]
  exact if_pos ⟨j, List.mem_range.mpr j.isLt, rfl⟩

/-- What `pgallocz` does when it does not panic. -/
theorem pgallocz_spec (h : pgallocz A s = some (q, s')) :
    (q ∈ A.arena ∧ q ∉ A.live s.heap ∧ A.live s'.heap = insert q (A.live s.heap) ∧
      s'.freed = s.freed) ∧
      (∀ x, baseof x ∉ A.arena ∨ baseof x ∈ A.live s.heap → s'.mem x = s.mem x) ∧
      ∀ j, view s'.mem q j = 0#w := by
  rw [pgallocz] at h
  split_ifs at h with hnull
  obtain ⟨rfl, rfl⟩ := Prod.mk.inj (Option.some_inj.mp h)
  obtain ⟨harena, hfresh, hlive⟩ := A.fresh s.mem s.heap hnull
  refine ⟨⟨harena, hfresh, hlive, rfl⟩, ?_, fun j ↦ view_zeroPage _ _ j⟩
  intro x hx
  have hne : baseof x ≠ (A.pgalloc s.mem s.heap).1 := by
    intro heq
    rw [heq] at hx
    exact hx.elim (fun h ↦ h harena) hfresh
  exact (zeroPage_of_ne (A.arena_page _ harena) hne).trans (A.pgalloc_mem s.mem s.heap x hx)

end Allocation

end OsWorkbench.Am
