import OsWorkbench.Am.AddressSpaces

namespace OsWorkbench.Am

open Library Library.Words Library.Radix

variable {w : ℕ} {σ : Type*}

section Entry

variable {pa : BitVec w} {writable : Bool}

/-- The entry of a mapped page. -/
def entryOf (m : BitVec w × Bool) : BitVec w :=
  m.1 ||| pteP ||| pteU ||| if m.2 then pteW else 0#w

theorem leafEntry_eq (pa : BitVec w) (prot : BitVec 32) :
    leafEntry pa prot = entryOf (pa, prot &&& MMAP_WRITE ≠ 0) := by
  simp [leafEntry, entryOf]

theorem entryOf_present (m : BitVec w × Bool) : entryOf m &&& pteP = pteP := by
  rw [entryOf, BitVec.or_assoc, BitVec.or_assoc, BitVec.or_comm pteP, ← BitVec.or_assoc]
  exact or_and_self _ _

theorem entryOf_user (m : BitVec w × Bool) : entryOf m &&& pteU = pteU := by
  rw [entryOf, BitVec.or_assoc, BitVec.or_comm pteU, ← BitVec.or_assoc]
  exact or_and_self _ _

/-- A page has no flags. -/
theorem and_flag {k : ℕ} (hpa : baseof pa = pa) (hk : (BitVec.ofNat w k).toNat < 2 ^ 12) :
    pa &&& BitVec.ofNat w k = 0#w := by
  rw [← hpa, baseof, BitVec.and_assoc, BitVec.and_comm (~~~_), and_not_low_of_lt hk, BitVec.and_zero]

theorem toNat_ofNat_lt {k : ℕ} (hk : k < 2 ^ 12) : (BitVec.ofNat w k).toNat < 2 ^ 12 := by
  rw [BitVec.toNat_ofNat]
  exact (Nat.mod_le _ _).trans_lt hk

theorem baseof_entryOf (hpa : baseof pa = pa) : baseof (entryOf (pa, writable)) = pa := by
  have hflags : ((pteP : BitVec w) ||| pteU ||| if writable then pteW else 0#w).toNat < 2 ^ 12 := by
    rw [BitVec.toNat_or, BitVec.toNat_or]
    apply Nat.or_lt_two_pow (Nat.or_lt_two_pow (toNat_ofNat_lt (by decide)) (toNat_ofNat_lt (by decide)))
    split_ifs
    · exact toNat_ofNat_lt (by decide)
    · exact toNat_ofNat_lt (by decide)
  rw [entryOf, BitVec.or_assoc, BitVec.or_assoc, ← BitVec.or_assoc pteP]
  exact or_and_not_low hpa hflags

theorem entryOf_writable (hpa : baseof pa = pa) :
    entryOf (pa, writable) &&& pteW = if writable then pteW else 0#w := by
  cases writable with
  | true => exact or_and_self _ _
  | false =>
    have hP : (pteP : BitVec w) &&& pteW = 0#w := BitVec.ofNat_and.symm
    have hU : (pteU : BitVec w) &&& pteW = 0#w := BitVec.ofNat_and.symm
    have hpaW : pa &&& pteW = 0#w := and_flag hpa (toNat_ofNat_lt (by decide))
    simp only [entryOf, Bool.false_eq_true, if_false, BitVec.or_zero]
    rw [BitVec.and_comm, BitVec.and_or_distrib_left, BitVec.and_or_distrib_left, BitVec.and_comm _ pa,
      BitVec.and_comm _ pteP, BitVec.and_comm _ pteU, hpaW, hP, hU, BitVec.or_zero, BitVec.or_zero]

end Entry

variable [hw : WordSize w]

namespace Arch

variable (arch : Arch w)

/-- The levels above the last one. -/
def upper : List (PtInfo w) := arch.pd :: arch.inner

def kernelIndices : Set (Fin (entries w)) := {i | ∃ cur ∈ arch.kernelCurs, index cur arch.pd = i}

def forest (roots : Set (BitVec w)) : Forest w where
  flags := pteW ||| pteU
  depth := arch.upper.length
  roots := roots
  skip := arch.kernelIndices

def path (va : BitVec w) : List (Fin (entries w)) := arch.upper.map (index va)

variable {arch}

theorem length_path (roots : Set (BitVec w)) (va : BitVec w) :
    (arch.path va).length = (arch.forest roots).depth := List.length_map _

theorem path_ne_nil (va : BitVec w) : arch.path va ≠ [] := List.cons_ne_nil _ _

/-- Different pages have different entries. -/
theorem Lawful.path_inj (hlaw : arch.Lawful) {va va' : BitVec w} (hva : inRange va arch.user)
    (hva' : inRange va' arch.user) (hpage : baseof va = va) (hpage' : baseof va' = va')
    (hpath : arch.path va = arch.path va') (hlast : index va arch.pt = index va' arch.pt) :
    va = va' := by
  have hindex : ∀ info ∈ arch.levels, indexof va info = indexof va' info := by
    intro info hinfo
    have hvalid := hlaw.valid info hinfo
    rw [← hvalid.val_index, ← hvalid.val_index]
    rcases List.mem_append.mp hinfo with hupper | hpt
    · exact congrArg Fin.val (List.map_inj_left.mp hpath info hupper)
    · rw [List.mem_singleton.mp hpt, hlast]
  rw [← hpage, ← hpage']
  exact hlaw.injective va va' hva hva' hindex

/-- The entries of the kernel are no entries of a user. -/
theorem Lawful.head_notMem (hlaw : arch.Lawful) {va : BitVec w} (hva : inRange va arch.user) :
    ∀ info ∈ arch.upper.head?, index va info ∉ arch.kernelIndices := by
  intro info hinfo hmem
  obtain ⟨cur, hcur, heq⟩ := hmem
  obtain rfl := Option.some_inj.mp hinfo
  have hvalid : arch.pd.Valid := hlaw.valid _ List.mem_cons_self
  apply hlaw.apart cur hcur va hva
  rw [← hvalid.val_index, ← hvalid.val_index, heq]

end Arch

/-- The tables of the spaces in use, with the roots `R` of the spaces `D`, against what the
spaces are to map. -/
structure Inv (A : PageAllocator w σ) (arch : Arch w) (kpt : BitVec w) (K : Set (BitVec w))
    (s₀ : Machine w σ) (R : BitVec w → BitVec w) (D : Set (BitVec w)) (s : Machine w σ)
    (a : Spaces w) : Prop where
  dom : ∀ as, as ∈ D ↔ a as ≠ none
  cell : ∀ as ∈ D, s.mem as = R as ||| pteP ||| pteU
  outside : ∀ as ∈ D, baseof as ∉ A.arena ∧ baseof as ∉ K
  inj : ∀ as ∈ D, ∀ as' ∈ D, R as = R as' → as = as'
  tables : Tables A (arch.forest (R '' D)) s
  kernel : ∀ p ∈ K, ¬(arch.forest (R '' D)).Reached s.mem p
  kept : ∀ p ∈ K, p ∉ A.arena ∨ p ∈ A.live s.heap
  kernelMem : ∀ x, baseof x ∈ K → s.mem x = s₀.mem x
  shared : ∀ as ∈ D, ∀ i ∈ arch.kernelIndices, view s.mem (R as) i = view s₀.mem kpt i
  entry : ∀ as space, a as = some space → ∀ va, inRange va arch.user → baseof va = va →
    (arch.forest (R '' D)).entryAt s.mem (R as) (arch.path va) (index va arch.pt) =
      (space va).map entryOf
  frames : ∀ as space, a as = some space → ∀ va m, space va = some m → baseof m.1 = m.1
  live : ∀ t, t ∈ A.live s.heap ↔ t ∈ A.live s₀.heap ∨ (arch.forest (R '' D)).Reached s.mem t
  own : ∀ t, (arch.forest (R '' D)).Reached s.mem t → t ∉ A.live s₀.heap

variable {A : PageAllocator w σ} {arch : Arch w} {kpt : BitVec w} {K : Set (BitVec w)}
  {s₀ s s' : Machine w σ} {R : BitVec w → BitVec w} {D : Set (BitVec w)} {a : Spaces w}
  {as va pa t : BitVec w}

theorem Inv.initial (hboot : Booted arch A kpt K s₀) : Inv A arch kpt K s₀ id ∅ s₀ fun _ ↦ none where
  dom as := ⟨fun h ↦ h.elim, fun h ↦ absurd rfl h⟩
  cell _ h := h.elim
  outside _ h := h.elim
  inj _ h := h.elim
  tables := by
    have hempty : ∀ r, r ∉ (arch.forest (id '' (∅ : Set (BitVec w)))).roots := by
      intro r hr
      obtain ⟨as, has, _⟩ := hr
      exact has
    exact ⟨fun r hr ↦ absurd hr (hempty r), fun t ⟨r, hr, _⟩ ↦ absurd hr (hempty r),
      fun r hr ↦ absurd hr (hempty r)⟩
  kernel _ _ h := by
    obtain ⟨r, ⟨as, has, _⟩, _⟩ := h
    exact has
  kept := hboot.kept
  kernelMem _ _ := rfl
  shared _ h := h.elim
  entry _ _ h := by cases h
  frames _ _ h := by cases h
  live t := by
    constructor
    · exact .inl
    · intro h
      rcases h with h | ⟨r, ⟨as, has, _⟩, _⟩
      · exact h
      · exact has.elim
  own _ h := by
    obtain ⟨r, ⟨as, has, _⟩, _⟩ := h
    exact has.elim

namespace Inv

variable (h : Inv A arch kpt K s₀ R D s a)
include h

omit h in
theorem root (has : as ∈ D) : R as ∈ (arch.forest (R '' D)).roots := ⟨as, has, rfl⟩

theorem root_page (has : as ∈ D) : baseof (R as) = R as := h.tables.page (.root (root has))

theorem not_reached_cell (has : as ∈ D) : ¬(arch.forest (R '' D)).Reached s.mem (baseof as) := by
  intro hreach
  exact (h.outside as has).1 (A.live_arena _ (h.tables.live _ hreach))

/-- A walk adds tables. -/
theorem extend (htables : Tables A (arch.forest (R '' D)) s')
    (hext : Extends A (arch.forest (R '' D)) s s') : Inv A arch kpt K s₀ R D s' a where
  dom := h.dom
  cell as has := by
    rw [hext.other as (h.not_reached_cell has) (.inl (h.outside as has).1)]
    exact h.cell as has
  outside := h.outside
  inj := h.inj
  tables := htables
  kernel p hp hreach := by
    rcases hext.fresh p hreach with hreach | ⟨harena, hfree⟩
    · exact h.kernel p hp hreach
    · exact (h.kept p hp).elim (fun hout ↦ hout harena) hfree
  kept p hp := (h.kept p hp).imp_right fun hlive ↦ (hext.live p).mpr (.inl hlive)
  kernelMem x hx := by
    rw [hext.other x (h.kernel _ hx) (h.kept _ hx)]
    exact h.kernelMem x hx
  shared as has i hi := (hext.skip _ (root has) i hi).trans (h.shared as has i hi)
  entry as space has va hva hpage := by
    have hD : as ∈ D := (h.dom as).mpr (by rw [has]; exact Option.some_ne_none _)
    rw [hext.entryAt _ (root hD) _ _ (Arch.length_path _ va)]
    exact h.entry as space has va hva hpage
  frames := h.frames
  live t := by
    rw [hext.live, h.live, or_assoc]
    apply or_congr_right
    exact ⟨fun ht ↦ ht.elim hext.reached id, .inr⟩
  own t ht hlive := by
    rcases hext.fresh t ht with ht | ⟨_, hfree⟩
    · exact h.own t ht hlive
    · exact hfree ((h.live t).mpr (.inl hlive))

/-- `map` writes the entry of a page. -/
theorem setEntry (hlaw : arch.Lawful) {space : Space w} (has : a as = some space)
    (hva : inRange va arch.user) (hpage : baseof va = va)
    (ht : (arch.forest (R '' D)).follow s.mem (R as) (arch.path va) = some t)
    (o : Option (BitVec w × Bool)) (hframe : ∀ m, o = some m → baseof m.1 = m.1) :
    Inv A arch kpt K s₀ R D (s.store (slot t (index va arch.pt)) (o.elim 0#w entryOf))
      (Function.update a as (some (Function.update space va o))) := by
  have hD : as ∈ D := (h.dom as).mpr (by rw [has]; exact Option.some_ne_none _)
  have hlast : (arch.path va).length = (arch.forest (R '' D)).depth := Arch.length_path _ va
  have htreach : (arch.forest (R '' D)).Reached s.mem t := .follow (root hD) hlast.le ht
  have htpage := h.tables.page htreach
  have hother : ∀ x, baseof x ≠ t →
      (s.store (slot t (index va arch.pt)) (o.elim 0#w entryOf)).mem x = s.mem x := by
    intro x hx
    rw [Machine.store_mem, Function.update_of_ne]
    intro heq
    exact hx (heq ▸ baseof_slot htpage (index va arch.pt).isLt)
  constructor
  · intro as'
    by_cases heq : as' = as
    · subst heq
      simp [hD]
    · rw [Function.update_of_ne heq]
      exact h.dom as'
  · intro as' has'
    rw [hother as' fun heq ↦ h.not_reached_cell has' (heq ▸ htreach)]
    exact h.cell as' has'
  · exact h.outside
  · exact h.inj
  · exact h.tables.setLeaf (root hD) ht hlast
  · intro p hp hreach
    exact h.kernel p hp ((h.tables.reached_setLeaf (root hD) ht hlast).mp hreach)
  · exact h.kept
  · intro x hx
    rw [hother x fun heq ↦ h.kernel _ hx (heq ▸ htreach)]
    exact h.kernelMem x hx
  · intro as' has' i hi
    have hne : ¬(R as' = t ∧ i = index va arch.pt) := by
      intro heq
      have hroot : (arch.forest (R '' D)).follow s.mem (R as') [] = some t := congrArg some heq.1
      have hnil := (h.tables.eq_leaf (root hD) ht hlast (root has') (Nat.zero_le _) hroot).2
      exact Arch.path_ne_nil va hnil.symm
    rw [h.tables.view_setLeaf (root hD) ht hlast.le (.root (root has')), if_neg hne]
    exact h.shared as' has' i hi
  · intro as' space' has' va' hva' hpage'
    have hD' : as' ∈ D := by
      by_cases heq : as' = as
      · rwa [heq]
      · rw [Function.update_of_ne heq] at has'
        exact (h.dom as').mpr (by rw [has']; exact Option.some_ne_none _)
    rw [h.tables.entryAt_setLeaf (root hD) ht hlast (root hD') (Arch.length_path _ va')]
    by_cases heq : as' = as
    · subst heq
      rw [Function.update_self, Option.some_inj] at has'
      subst has'
      by_cases hsame : va' = va
      · subst hsame
        rw [if_pos ⟨rfl, rfl, rfl⟩, Function.update_self]
        cases o with
        | none => exact if_pos BitVec.zero_and
        | some m =>
          apply if_neg
          intro habsent
          exact flag_ne_zero Nat.one_pos (by decide) ((entryOf_present m).symm.trans habsent)
      · rw [if_neg, Function.update_of_ne hsame]
        · exact h.entry as' space has va' hva' hpage'
        · intro hall
          exact hsame (hlaw.path_inj hva' hva hpage' hpage hall.2.1 hall.2.2)
    · rw [Function.update_of_ne heq] at has'
      rw [if_neg fun hall ↦ heq (h.inj as' hD' as hD hall.1)]
      exact h.entry as' space' has' va' hva' hpage'
  · intro as' space' has' va' m hm
    by_cases heq : as' = as
    · subst heq
      rw [Function.update_self, Option.some_inj] at has'
      subst has'
      by_cases hsame : va' = va
      · subst hsame
        rw [Function.update_self] at hm
        exact hframe m hm
      · rw [Function.update_of_ne hsame] at hm
        exact h.frames as' space has va' m hm
    · rw [Function.update_of_ne heq] at has'
      exact h.frames as' space' has' va' m hm
  · intro t'
    rw [h.tables.reached_setLeaf (root hD) ht hlast]
    exact h.live t'
  · intro t' ht'
    exact h.own t' ((h.tables.reached_setLeaf (root hD) ht hlast).mp ht')

end Inv

end OsWorkbench.Am
