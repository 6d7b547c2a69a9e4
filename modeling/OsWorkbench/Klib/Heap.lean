import Mathlib.Algebra.Group.Nat.Defs
import Mathlib.Data.List.Basic
import Mathlib.Order.Nat
import Mathlib.Tactic.SplitIfs

namespace OsWorkbench.Klib

variable {w : ℕ}

/-- `ROUNDUP`, in words of `w` bits. -/
def roundUp (a sz : BitVec w) : BitVec w := (a + sz - 1#w) &&& ~~~(sz - 1#w)

/-- `heap.start` and `heap.end`. -/
structure Area (w : ℕ) where
  start : BitVec w
  stop : BitVec w

/-- The static variables of `malloc`. -/
structure Allocator (w : ℕ) where
  inited : Bool
  curr : BitVec w

def Allocator.initial : Allocator w := ⟨false, 0⟩

/-- `none` when the assertion fails. -/
def malloc (heap : Area w) (s : Allocator w) (size : BitVec w) : Option (BitVec w × Allocator w) :=
  let curr := if s.inited then s.curr else roundUp heap.start 8#w
  let size := roundUp size 8#w
  let ret := curr
  let curr := curr + size
  if heap.start ≤ curr ∧ curr ≤ heap.stop then some (ret, ⟨true, curr⟩) else none

def free (s : Allocator w) (_ptr : BitVec w) : Allocator w := s

inductive Op (w : ℕ)
  | malloc (size : BitVec w)
  | free (ptr : BitVec w)

structure Block (w : ℕ) where
  ptr : BitVec w
  size : BitVec w
  deriving DecidableEq

/-- The blocks returned by a sequence of calls, up to the first failed assertion. -/
def run (heap : Area w) : Allocator w → List (Op w) → List (Block w)
  | _, [] => []
  | s, .malloc size :: ops =>
    match malloc heap s size with
    | some (ret, s') => ⟨ret, size⟩ :: run heap s' ops
    | none => []
  | s, .free ptr :: ops => run heap (free s ptr) ops

def Block.Contains (b : Block w) (addr : ℕ) : Prop :=
  b.ptr.toNat ≤ addr ∧ addr < b.ptr.toNat + b.size.toNat

instance (b : Block w) (addr : ℕ) : Decidable (b.Contains addr) :=
  inferInstanceAs (Decidable (_ ∧ _))

/-- Blocks as the caller may use them. -/
structure Proper (heap : Area w) (blocks : List (Block w)) : Prop where
  aligned : ∀ b ∈ blocks, 8 ∣ b.ptr.toNat
  inside : ∀ b ∈ blocks, ∀ addr, b.Contains addr →
    heap.start.toNat ≤ addr ∧ addr < heap.stop.toNat
  disjoint : blocks.Pairwise fun b b' ↦ ∀ addr, b.Contains addr → ¬ b'.Contains addr

/-- The address at which the next block would begin. -/
def Allocator.cursor (heap : Area w) (s : Allocator w) : BitVec w :=
  if s.inited then s.curr else roundUp heap.start 8#w

/-- In every call that returns the block ends where rounding cannot wrap. -/
def Fits (heap : Area w) : Allocator w → List (Op w) → Prop
  | _, [] => True
  | s, .malloc size :: ops => ∀ ret s', malloc heap s size = some (ret, s') →
      (s.cursor heap).toNat + size.toNat ≤ 2 ^ w - 8 ∧ Fits heap s' ops
  | s, .free ptr :: ops => Fits heap (free s ptr) ops

theorem Fits.malloc {heap : Area w} {s s' : Allocator w} {size ret : BitVec w} {ops : List (Op w)}
    (h : Klib.malloc heap s size = some (ret, s'))
    (hfit : (s.cursor heap).toNat + size.toNat ≤ 2 ^ w - 8) (hrest : Fits heap s' ops) :
    Fits heap s (.malloc size :: ops) := by
  intro ret' s'' h'
  cases h.symm.trans h'
  exact ⟨hfit, hrest⟩

theorem and_not_seven (x : BitVec w) : (x &&& ~~~7#w).toNat = x.toNat / 8 * 8 := by
  have hbits : x &&& ~~~7#w = x >>> 3 <<< 3 := by
    apply BitVec.eq_of_getLsbD_eq
    intro i hi
    have hseven : Nat.testBit 7 i = decide (i < 3) := Nat.testBit_two_pow_sub_one (n := 3) i
    simp only [BitVec.getLsbD_and, BitVec.getLsbD_not, BitVec.getLsbD_ofNat,
      BitVec.getLsbD_shiftLeft, BitVec.getLsbD_ushiftRight, hseven, hi, decide_true, Bool.true_and]
    by_cases hlow : i < 3
    · simp [hlow]
    · simp [hlow, show 3 + (i - 3) = i by omega]
  have hlt := x.isLt
  have hle : x.toNat / 8 * 8 < 2 ^ w := by omega
  rw [hbits, BitVec.toNat_shiftLeft, BitVec.toNat_ushiftRight, Nat.shiftRight_eq_div_pow,
    Nat.shiftLeft_eq, Nat.mod_eq_of_lt hle]

theorem toNat_roundUp (hw : 4 ≤ w) (a : BitVec w) :
    (roundUp a 8#w).toNat = (a.toNat + 7) % 2 ^ w / 8 * 8 := by
  have hpow : 2 ^ 4 ≤ 2 ^ w := Nat.pow_le_pow_right (by omega) hw
  have hseven : 8#w - 1#w = 7#w := by
    apply BitVec.eq_of_toNat_eq
    rw [BitVec.toNat_sub_of_le]
    · simp only [BitVec.toNat_ofNat]
      rw [Nat.mod_eq_of_lt (by omega), Nat.mod_eq_of_lt (by omega), Nat.mod_eq_of_lt (by omega)]
    · rw [BitVec.le_def, BitVec.toNat_ofNat, BitVec.toNat_ofNat, Nat.mod_eq_of_lt (by omega),
        Nat.mod_eq_of_lt (by omega)]
      decide
  have hadd : a + 8#w - 1#w = a + 7#w := by
    rw [← hseven, BitVec.sub_eq_add_neg, BitVec.add_assoc, ← BitVec.sub_eq_add_neg]
  rw [roundUp, hseven, hadd, and_not_seven, BitVec.toNat_add, BitVec.toNat_ofNat,
    Nat.mod_eq_of_lt (show 7 < 2 ^ w by omega)]

/-- What holds of the allocator once it has returned the blocks in front of `curr`. -/
structure Ready (heap : Area w) (s : Allocator w) : Prop where
  aligned : 8 ∣ (s.cursor heap).toNat
  above : s.inited = true → heap.start.toNat ≤ s.curr.toNat ∧ s.curr.toNat ≤ heap.stop.toNat

variable {heap : Area w} {s s' : Allocator w} {size ret : BitVec w}

theorem Ready.initial (hw : 4 ≤ w) : Ready heap .initial := by
  refine ⟨?_, fun h ↦ by cases h⟩
  rw [Allocator.cursor, Allocator.initial, if_neg (by simp), toNat_roundUp hw]
  exact Nat.dvd_mul_left 8 _

theorem malloc_some (hw : 4 ≤ w) (h : malloc heap s size = some (ret, s')) :
    ret = s.cursor heap ∧ s'.inited = true ∧
      s'.curr.toNat = ((s.cursor heap).toNat + (size.toNat + 7) % 2 ^ w / 8 * 8) % 2 ^ w ∧
      heap.start.toNat ≤ s'.curr.toNat ∧ s'.curr.toNat ≤ heap.stop.toNat := by
  rw [malloc, ← Allocator.cursor] at h
  split_ifs at h with hrange
  obtain ⟨rfl, rfl⟩ := Prod.mk.inj (Option.some.inj h)
  refine ⟨rfl, rfl, ?_, BitVec.le_def.mp hrange.1, BitVec.le_def.mp hrange.2⟩
  rw [BitVec.toNat_add, toNat_roundUp hw]

theorem eight_dvd_two_pow (hw : 4 ≤ w) : 8 ∣ 2 ^ w := Nat.pow_dvd_pow 2 (show 3 ≤ w by omega)

/-- A call that returns leaves the allocator ready, and where it fits the cursor is
behind the new block. -/
theorem Ready.malloc (hw : 4 ≤ w) (hr : Ready heap s) (h : malloc heap s size = some (ret, s')) :
    Ready heap s' ∧ ret = s.cursor heap ∧ (ret.toNat + size.toNat ≤ 2 ^ w - 8 →
      heap.start.toNat ≤ ret.toNat ∧ ret.toNat + size.toNat ≤ s'.curr.toNat) := by
  obtain ⟨rfl, hinited, hadd, hlow, hhigh⟩ := malloc_some hw h
  obtain ⟨k, hk⟩ := eight_dvd_two_pow hw
  obtain ⟨c, hc⟩ := hr.aligned
  have hsize := size.isLt
  have hstart := heap.start.isLt
  refine ⟨⟨?_, fun _ ↦ ⟨hlow, hhigh⟩⟩, rfl, fun hfits ↦ ?_⟩
  · rw [Allocator.cursor, if_pos hinited, hadd, hk, hc, Nat.mul_comm _ 8, ← Nat.mul_add,
      Nat.mul_mod_mul_left]
    exact Nat.dvd_mul_right 8 _
  · have hround : size.toNat + 7 < 2 ^ w := by omega
    rw [Nat.mod_eq_of_lt hround, Nat.mod_eq_of_lt (by omega)] at hadd
    refine ⟨?_, by omega⟩
    by_cases hinit : s.inited = true
    · rw [Allocator.cursor, if_pos hinit]
      exact (hr.above hinit).1
    · have hcursor : (s.cursor heap).toNat = (heap.start.toNat + 7) % 2 ^ w / 8 * 8 := by
        rw [Allocator.cursor, if_neg hinit, toNat_roundUp hw]
      by_cases hwrap : heap.start.toNat + 7 < 2 ^ w
      · rw [Nat.mod_eq_of_lt hwrap] at hcursor
        omega
      · rw [Nat.mod_eq_sub_mod (by omega), Nat.mod_eq_of_lt (by omega)] at hcursor
        omega

/-- A block inside a heap that does not begin at 0 ends where rounding cannot wrap. -/
theorem Ready.fits_of_inside (hw : 4 ≤ w) (hr : Ready heap s)
    (h : Klib.malloc heap s size = some (ret, s')) (hpos : 0 < heap.start.toNat)
    (hinside : ∀ addr, (⟨ret, size⟩ : Block w).Contains addr →
      heap.start.toNat ≤ addr ∧ addr < heap.stop.toNat) :
    ret.toNat + size.toNat ≤ 2 ^ w - 8 := by
  obtain ⟨rfl, -, hadd, hlow, -⟩ := malloc_some hw h
  obtain ⟨k, hk⟩ := eight_dvd_two_pow hw
  obtain ⟨c, hc⟩ := hr.aligned
  have hcursor := (s.cursor heap).isLt
  have hstop := heap.stop.isLt
  by_contra hover
  have hsize : 0 < size.toNat := by omega
  have hfirst := hinside (s.cursor heap).toNat ⟨le_rfl, Nat.lt_add_of_pos_right hsize⟩
  have hlast := hinside ((s.cursor heap).toNat + size.toNat - 1)
    ⟨Nat.le_sub_one_of_lt (Nat.lt_add_of_pos_right hsize), Nat.sub_one_lt (by omega)⟩
  -- the block ends less than 8 bytes below the end of memory, so its rounded size ends there
  rw [Nat.mod_eq_of_lt (show size.toNat + 7 < 2 ^ w by omega),
    show (s.cursor heap).toNat + (size.toNat + 7) / 8 * 8 = 2 ^ w by omega, Nat.mod_self] at hadd
  omega

theorem run_proper (hw : 4 ≤ w) (ops : List (Op w)) (hr : Ready heap s) (hfits : Fits heap s ops) :
    Proper heap (run heap s ops) ∧ ∀ b ∈ run heap s ops, (s.cursor heap).toNat ≤ b.ptr.toNat := by
  induction ops generalizing s with
  | nil => exact ⟨⟨by simp [run], by simp [run], .nil⟩, by simp [run]⟩
  | cons op ops ih =>
    cases op with
    | free ptr => exact ih hr hfits
    | malloc size =>
      rw [run]
      cases h : Klib.malloc heap s size with
      | none => exact ⟨⟨by simp, by simp, .nil⟩, by simp⟩
      | some result =>
        obtain ⟨ret, s'⟩ := result
        obtain ⟨hfit, hrest⟩ := hfits ret s' h
        obtain ⟨hr', rfl, hblock⟩ := hr.malloc hw h
        obtain ⟨-, hinited, -, -, hhigh⟩ := malloc_some hw h
        obtain ⟨hlow, hend⟩ := hblock hfit
        obtain ⟨hproper, hbehind⟩ := ih hr' hrest
        rw [Allocator.cursor, if_pos hinited] at hbehind
        refine ⟨⟨List.forall_mem_cons.mpr ⟨hr.aligned, hproper.aligned⟩,
          List.forall_mem_cons.mpr ⟨fun addr haddr ↦ ?_, hproper.inside⟩,
          List.pairwise_cons.mpr ⟨fun b hb addr haddr haddr' ↦ ?_, hproper.disjoint⟩⟩,
          List.forall_mem_cons.mpr ⟨le_rfl, fun b hb ↦ ?_⟩⟩
        · exact ⟨hlow.trans haddr.1, haddr.2.trans_le (hend.trans hhigh)⟩
        · exact absurd haddr'.1 (not_le_of_gt (haddr.2.trans_le (hend.trans (hbehind b hb))))
        · exact (Nat.le_of_add_right_le hend).trans (hbehind b hb)

theorem fits_of_proper (hw : 4 ≤ w) (hpos : 0 < heap.start.toNat) (ops : List (Op w))
    (hr : Ready heap s) (hproper : Proper heap (run heap s ops)) : Fits heap s ops := by
  induction ops generalizing s with
  | nil => trivial
  | cons op ops ih =>
    cases op with
    | free ptr => exact ih hr hproper
    | malloc size =>
      intro ret s' h
      obtain ⟨hr', rfl, -⟩ := hr.malloc hw h
      rw [run, h] at hproper
      refine ⟨hr.fits_of_inside hw h hpos (hproper.inside _ List.mem_cons_self), ih hr' ?_⟩
      exact ⟨fun b hb ↦ hproper.aligned b (List.mem_cons_of_mem _ hb),
        fun b hb ↦ hproper.inside b (List.mem_cons_of_mem _ hb),
        (List.pairwise_cons.mp hproper.disjoint).2⟩

/-- The blocks of every sequence of calls are right if no call that returns is made
where its size wraps around, and, in a heap that does not begin at 0, only then. -/
theorem malloc_proper_iff (hw : 4 ≤ w) (heap : Area w) (ops : List (Op w)) :
    (Fits heap .initial ops → Proper heap (run heap .initial ops)) ∧
      (0 < heap.start.toNat → Proper heap (run heap .initial ops) → Fits heap .initial ops) :=
  ⟨fun hfits ↦ (run_proper hw ops (.initial hw) hfits).1,
    fun hpos hproper ↦ fits_of_proper hw hpos ops (.initial hw) hproper⟩

def smallHeap : Area 32 := ⟨0x1004, 0x2000⟩

theorem smallHeap_proper :
    run smallHeap .initial [.malloc 5, .free 0x1008, .malloc 16] = [⟨0x1008, 5⟩, ⟨0x1010, 16⟩] ∧
    Proper smallHeap [⟨0x1008, 5⟩, ⟨0x1010, 16⟩] := by
  have hrun : run smallHeap .initial [.malloc 5, .free 0x1008, .malloc 16] =
      [⟨0x1008, 5⟩, ⟨0x1010, 16⟩] := by decide
  have hfits : Fits smallHeap .initial [.malloc 5, .free 0x1008, .malloc 16] :=
    .malloc rfl (by decide) (Fits.malloc rfl (by decide) trivial)
  exact ⟨hrun, hrun ▸ (malloc_proper_iff (by decide) smallHeap _).1 hfits⟩

/-- `malloc(SIZE_MAX)` -/
theorem hugeSize_counterexample :
    run smallHeap .initial [.malloc 0xffffffff, .malloc 8] = [⟨0x1008, 0xffffffff⟩, ⟨0x1008, 8⟩] ∧
    ¬ Proper smallHeap [⟨0x1008, 0xffffffff⟩, ⟨0x1008, 8⟩] := by
  refine ⟨by decide, fun h ↦ ?_⟩
  have hlast := h.inside ⟨0x1008, 0xffffffff⟩ List.mem_cons_self 0x2000 (by decide)
  exact absurd hlast.2 (by decide)

end OsWorkbench.Klib
