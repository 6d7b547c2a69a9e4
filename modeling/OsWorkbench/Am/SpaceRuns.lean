import Mathlib.Data.Set.Function
import OsWorkbench.Am.SpaceInvariant

namespace OsWorkbench.Am

open Library Library.Words Library.Radix

variable {w : ℕ} {σ : Type*} [hw : WordSize w] {A : PageAllocator w σ} {arch : Arch w}
  {kpt : BitVec w} {K : Set (BitVec w)} {s₀ s s' : Machine w σ} {R : BitVec w → BitVec w}
  {D : Set (BitVec w)} {a : Spaces w} {as va pa q t : BitVec w}

section Protect

/-- What `protect` does when it does not panic. -/
structure Protected (A : PageAllocator w σ) (arch : Arch w) (kpt as q : BitVec w)
    (s s' : Machine w σ) : Prop where
  arena : q ∈ A.arena
  fresh : q ∉ A.live s.heap
  live : A.live s'.heap = insert q (A.live s.heap)
  cell : s'.mem as = q ||| pteP ||| pteU
  other : ∀ x, x ≠ as → baseof x ∉ A.arena ∨ baseof x ∈ A.live s.heap → s'.mem x = s.mem x
  shared : ∀ j ∈ arch.kernelIndices, view s'.mem q j = view s.mem kpt j
  empty : ∀ j, j ∉ arch.kernelIndices → view s'.mem q j = 0#w

theorem protect_spec (hlaw : arch.Lawful) (hkpt : baseof kpt = kpt)
    (hkept : kpt ∉ A.arena ∨ kpt ∈ A.live s.heap) (has : baseof as ∉ A.arena)
    (hs : protect A arch kpt as s = some s') : ∃ q, Protected A arch kpt as q s s' := by
  obtain ⟨⟨q, s₁⟩, hq, hs⟩ := Option.bind_eq_some_iff.mp hs
  rw [shareKernel_eq hlaw, Option.map_some, Option.some_inj] at hs
  obtain ⟨⟨harena, hfresh, hlive, hfreed⟩, hmem, hzeros⟩ := pgallocz_spec hq
  have hqpage := A.arena_page q harena
  have hvalid : arch.pd.Valid := hlaw.valid _ List.mem_cons_self
  have hne : kpt ≠ q := by
    intro heq
    subst heq
    exact hkept.elim (fun h ↦ h harena) hfresh
  obtain ⟨hcopied, hkeep⟩ := @copyKernel_spec _ arch kpt q s₁.mem hw hlaw hqpage hkpt hne
  have hstored : ∀ x, x ≠ as → s'.mem x = copyKernel arch kpt q arch.kernelCurs s₁.mem x := by
    intro x hx
    rw [← hs, Machine.store_mem, Function.update_of_ne hx]
  have hslot : ∀ j : Fin (entries w), slot q j ≠ as := by
    intro j heq
    rw [← heq, baseof_slot hqpage j.isLt] at has
    exact has harena
  refine ⟨q, harena, hfresh, ?_, ?_, ?_, ?_, ?_⟩
  · rw [← hs]
    exact hlive
  · rw [← hs, Machine.store_mem, Function.update_self]
  · intro x hx hlive'
    rw [hstored x hx, hkeep, hmem x hlive']
    intro cur _ heq
    rw [← heq, baseof_slot hqpage (hlaw.indexof_lt cur)] at hlive'
    exact hlive'.elim (fun h ↦ h harena) hfresh
  · intro j hj
    obtain ⟨cur, hcur, rfl⟩ := hj
    rw [view, hstored _ (hslot _), hvalid.val_index, hcopied cur hcur, view, hvalid.val_index]
    apply hmem
    rwa [baseof_slot hkpt (hlaw.indexof_lt cur)]
  · intro j hj
    rw [view, hstored _ (hslot j), hkeep]
    · exact hzeros j
    · intro cur hcur heq
      have hindex := (slot_inj hqpage hqpage (hlaw.indexof_lt cur) j.isLt heq).2
      exact hj ⟨cur, hcur, Fin.ext (hvalid.val_index.trans hindex)⟩

/-- The entries of the supervisor lead to no table of a user. -/
theorem nextTable_of_supervisor {e : BitVec w} (h : e &&& pteU = 0#w) :
    nextTable (pteW ||| pteU) e = none := by
  apply if_neg
  intro hall
  have hsub : ((pteP : BitVec w) ||| (pteW ||| pteU)) &&& pteU = pteU := by
    rw [← BitVec.or_assoc]
    exact or_and_self _ _
  have huser := and_eq_of_and_eq hsub hall
  rw [h] at huser
  exact flag_ne_zero (by decide) (by decide) huser.symm

omit hw in
theorem update_root (has : as ∉ D) {as' : BitVec w} (has' : as' ∈ D) :
    Function.update R as q as' = R as' := by
  apply Function.update_of_ne
  intro heq
  rw [heq] at has'
  exact has has'

omit hw in
theorem image_update_insert (has : as ∉ D) :
    Function.update R as q '' insert as D = insert q (R '' D) := by
  rw [Set.image_insert_eq, Function.update_self]
  congr 1
  exact Set.image_congr fun as' has' ↦ update_root has has'

namespace Protected

variable (h : Inv A arch kpt K s₀ R D s a) (hp : Protected A arch kpt as q s s')
include h hp

theorem not_reached : ¬(arch.forest (R '' D)).Reached s.mem q :=
  fun hreach ↦ hp.fresh (h.tables.live q hreach)

theorem root_ne {as' : BitVec w} (has' : as' ∈ D) : R as' ≠ q := by
  intro heq
  apply hp.not_reached h
  rw [← heq]
  exact .root (Inv.root has')

omit h in
theorem mem_live : t ∈ A.live s'.heap ↔ t = q ∨ t ∈ A.live s.heap := by
  rw [hp.live]
  exact Set.mem_insert_iff

variable (harena : baseof as ∉ A.arena)
include harena

theorem view_old (ht : (arch.forest (R '' D)).Reached s.mem t) (j : Fin (entries w)) :
    view s'.mem t j = view s.mem t j := by
  have htpage := h.tables.page ht
  have hlive := h.tables.live t ht
  apply hp.other
  · intro heq
    rw [← heq, baseof_slot htpage j.isLt] at harena
    exact harena (A.live_arena _ hlive)
  · rw [baseof_slot htpage j.isLt]
    exact .inr hlive

omit harena in
theorem view_kernel (hboot : Booted arch A kpt K s₀) {j : Fin (entries w)}
    (hj : j ∈ arch.kernelIndices) : view s'.mem q j = view s₀.mem kpt j := by
  rw [hp.shared j hj, view]
  apply h.kernelMem
  rw [baseof_slot (hboot.page kpt hboot.mem) j.isLt]
  exact hboot.mem

omit harena in
/-- No entry of the new table leads to a table of a user. -/
theorem nextTable_none (hboot : Booted arch A kpt K s₀) (j : Fin (entries w)) :
    nextTable (pteW ||| pteU) (view s'.mem q j) = none := by
  by_cases hj : j ∈ arch.kernelIndices
  · rw [hp.view_kernel h hboot hj]
    obtain ⟨cur, hcur, rfl⟩ := hj
    exact nextTable_of_supervisor (hboot.supervisor cur hcur)
  · rw [hp.empty j hj]
    exact nextTable_of_absent BitVec.zero_and

theorem reached (hboot : Booted arch A kpt K s₀) :
    (arch.forest (insert q (R '' D))).Reached s'.mem t ↔
      (arch.forest (R '' D)).Reached s.mem t ∨ t = q :=
  (reached_insert (hp.nextTable_none h hboot)).trans
    (or_congr_left (reached_congr fun _ ht ↦ hp.view_old h harena ht))

theorem tables (hboot : Booted arch A kpt K s₀) :
    Tables A (arch.forest (insert q (R '' D))) s' := by
  have hold : Tables A (arch.forest (R '' D)) s' :=
    h.tables.restrict (fun _ hr ↦ hr) fun t ht ↦
      ⟨hp.mem_live.mpr (.inr (h.tables.live t ht)), hp.view_old h harena ht⟩
  apply hold.insert
  · intro hreach
    exact hp.not_reached h ((reached_congr fun _ ht ↦ hp.view_old h harena ht).mp hreach)
  · exact hp.mem_live.mpr (.inl rfl)
  · exact hp.nextTable_none h hboot
  · intro j hj
    rw [hp.empty j hj]
    exact BitVec.zero_and

end Protected

theorem Inv.protect (hboot : Booted arch A kpt K s₀) (h : Inv A arch kpt K s₀ R D s a)
    (hlegal : (Request.protect as).Legal A K a) (hp : Protected A arch kpt as q s s') :
    Inv A arch kpt K s₀ (Function.update R as q) (insert as D) s'
      (Function.update a as (some fun _ ↦ none)) := by
  obtain ⟨hnone, harena, hK⟩ := hlegal
  have hD : as ∉ D := fun has ↦ (h.dom as).mp has hnone
  have hreached := fun {t} ↦ hp.reached (t := t) h harena hboot
  have htables := hp.tables h harena hboot
  rw [← image_update_insert hD] at htables hreached
  constructor
  · intro as'
    by_cases heq : as' = as
    · subst heq
      simp
    · rw [Function.update_of_ne heq, Set.mem_insert_iff, or_iff_right heq]
      exact h.dom as'
  · intro as' has'
    rcases Set.mem_insert_iff.mp has' with heq | has'
    · rw [heq, Function.update_self]
      exact hp.cell
    · have hne : as' ≠ as := fun heq ↦ hD (heq ▸ has')
      rw [update_root hD has', hp.other as' hne (.inl (h.outside as' has').1)]
      exact h.cell as' has'
  · intro as' has'
    rcases Set.mem_insert_iff.mp has' with heq | has'
    · rw [heq]
      exact ⟨harena, hK⟩
    · exact h.outside as' has'
  · intro as₁ has₁ as₂ has₂ heq
    rcases Set.mem_insert_iff.mp has₁ with h₁ | h₁
    · rcases Set.mem_insert_iff.mp has₂ with h₂ | h₂
      · rw [h₁, h₂]
      · rw [h₁, Function.update_self, update_root hD h₂] at heq
        exact absurd heq.symm (hp.root_ne h h₂)
    · rcases Set.mem_insert_iff.mp has₂ with h₂ | h₂
      · rw [h₂, Function.update_self, update_root hD h₁] at heq
        exact absurd heq (hp.root_ne h h₁)
      · rw [update_root hD h₁, update_root hD h₂] at heq
        exact h.inj as₁ h₁ as₂ h₂ heq
  · exact htables
  · intro p hpK hreach
    rcases hreached.mp hreach with hreach | rfl
    · exact h.kernel p hpK hreach
    · exact (h.kept p hpK).elim (fun hout ↦ hout hp.arena) hp.fresh
  · exact fun p hpK ↦ (h.kept p hpK).imp_right fun hl ↦ hp.mem_live.mpr (.inr hl)
  · intro x hx
    have hne : x ≠ as := fun heq ↦ hK (heq ▸ hx)
    rw [hp.other x hne (h.kept _ hx)]
    exact h.kernelMem x hx
  · intro as' has' i hi
    rcases Set.mem_insert_iff.mp has' with heq | has'
    · rw [heq, Function.update_self]
      exact hp.view_kernel h hboot hi
    · rw [update_root hD has', hp.view_old h harena (.root (Inv.root has'))]
      exact h.shared as' has' i hi
  · intro as' space has' va hva hpage
    by_cases heq : as' = as
    · subst heq
      rw [Function.update_self, Option.some_inj] at has'
      subst has'
      rw [Function.update_self]
      exact Forest.entryAt_empty (hp.nextTable_none h hboot) (Arch.path_ne_nil va)
    · rw [Function.update_of_ne heq] at has'
      have hD' : as' ∈ D := (h.dom as').mpr (by rw [has']; exact Option.some_ne_none _)
      rw [update_root hD hD']
      exact (Forest.entryAt_congr (Inv.root hD') (Arch.length_path (R '' D) va).le
        fun _ ht ↦ hp.view_old h harena ht).trans (h.entry as' space has' va hva hpage)
  · intro as' space has' va m hm
    by_cases heq : as' = as
    · subst heq
      rw [Function.update_self, Option.some_inj] at has'
      subst has'
      cases hm
    · rw [Function.update_of_ne heq] at has'
      exact h.frames as' space has' va m hm
  · intro t
    rw [hp.mem_live, h.live, hreached, or_left_comm]
    apply or_congr_right
    exact or_comm
  · intro t ht hbefore
    rcases hreached.mp ht with ht | rfl
    · exact h.own t ht hbefore
    · exact hp.fresh ((h.live t).mpr (.inl hbefore))

end Protect

section Map

variable (hlaw : arch.Lawful) (h : Inv A arch kpt K s₀ R D s a)
include h

theorem Inv.cell_eq (has : as ∈ D) : s.mem as = entryOf (R as, false) := by
  rw [h.cell as has, entryOf]
  exact BitVec.or_zero.symm

include hlaw

/-- The walk begins at the root of the space. -/
theorem Inv.ptwalk_eq (has : as ∈ D) (addr flags : BitVec w) : ptwalk A arch as addr flags s =
    ptwalkLoop A addr flags (arch.upper ++ [arch.pt]) (R as) s := by
  have hpresent : entryOf (R as, false) &&& pteP ≠ 0#w := by
    rw [entryOf_present]
    exact flag_ne_zero Nat.one_pos (by decide)
  rw [hlaw.ptwalk_eq, h.cell_eq has, if_neg hpresent, baseof_entryOf (h.root_page has)]
  rfl

/-- The walk of `map` and the page table that it comes to. -/
theorem Inv.walk {x : BitVec w} (has : as ∈ D) (hva : inRange va arch.user)
    (hwalk : ptwalk A arch as va (pteW ||| pteU) s = some (x, s')) :
    Inv A arch kpt K s₀ R D s' a ∧ ∃ t,
      (arch.forest (R '' D)).follow s'.mem (R as) (arch.path va) = some t ∧
        x = slot t (index va arch.pt) := by
  rw [h.ptwalk_eq hlaw has] at hwalk
  have hflags : ((pteP : BitVec w) ||| (arch.forest (R '' D)).flags).toNat < 2 ^ 12 := by
    rw [Arch.forest, BitVec.toNat_or, BitVec.toNat_or]
    exact Nat.or_lt_two_pow (toNat_ofNat_lt (by decide))
      (Nat.or_lt_two_pow (toNat_ofNat_lt (by decide)) (toNat_ofNat_lt (by decide)))
  have hskip : ([] : List (Fin (entries w))) = [] → ∀ info ∈ arch.upper.head?,
      index va info ∉ (arch.forest (R '' D)).skip := fun _ ↦ hlaw.head_notMem hva
  have hupper : ∀ info ∈ arch.upper, info.Valid := fun info hi ↦ hlaw.valid info (List.mem_append_left _ hi)
  obtain ⟨htables, hext, t, ht, rfl⟩ := ptwalkLoop_spec hflags hupper (Inv.root has) h.tables
    follow_nil (Nat.zero_add _) hskip hwalk
  have hpt : arch.pt.Valid := hlaw.valid _ (List.mem_append_right _ List.mem_cons_self)
  refine ⟨h.extend htables hext, t, ht, ?_⟩
  rw [hpt.val_index]

/-- What `map` does once it has walked to the entry. -/
theorem Inv.map_eq {x : BitVec w} {space : Space w} {prot : BitVec 32} (has : a as = some space)
    (hva : inRange va arch.user) (hpages : va = baseof va ∧ pa = baseof pa)
    (hwalk : ptwalk A arch as va (pteW ||| pteU) s = some (x, s')) :
    map A arch as va pa prot s =
        (newEntry pa prot (space va)).map (fun o ↦ s'.store x (o.elim 0#w entryOf)) ∧
      ∀ o, newEntry pa prot (space va) = some o → Inv A arch kpt K s₀ R D
        (s'.store x (o.elim 0#w entryOf)) (Function.update a as (some (Function.update space va o))) := by
  have hD : as ∈ D := (h.dom as).mpr (by rw [has]; exact Option.some_ne_none _)
  obtain ⟨h', t, ht, rfl⟩ := h.walk hlaw hD hva hwalk
  have hset : ∀ o, newEntry pa prot (space va) = some o → Inv A arch kpt K s₀ R D
      (s'.store (slot t (index va arch.pt)) (o.elim 0#w entryOf))
      (Function.update a as (some (Function.update space va o))) := by
    intro o ho
    apply h'.setEntry hlaw has hva hpages.1.symm ht
    intro m hm
    rw [newEntry] at ho
    split_ifs at ho
    · cases ho
      cases hm
    · cases ho
      cases hm
      exact hpages.2.symm
  refine ⟨?_, hset⟩
  -- the second walk finds the table that the first one has left
  have hagain : ∀ o, newEntry pa prot (space va) = some o →
      (ptwalk A arch as va (pteW ||| pteU)
        (s'.store (slot t (index va arch.pt)) (o.elim 0#w entryOf))).map (·.2) =
        some (s'.store (slot t (index va arch.pt)) (o.elim 0#w entryOf)) := by
    intro o ho
    have hupper : ∀ info ∈ arch.upper, info.Valid :=
      fun info hi ↦ hlaw.valid info (List.mem_append_left _ hi)
    have hfollow := (h'.tables.follow_setLeaf (i := index va arch.pt) (v := o.elim 0#w entryOf)
      (Inv.root hD) ht (Arch.length_path _ va) (Inv.root hD) (Arch.length_path _ va).le).trans ht
    rw [(hset o ho).ptwalk_eq hlaw hD]
    exact congrArg (Option.map (·.2)) (ptwalkLoop_present hupper hfollow)
  have hentry := h'.entry as space has va hva hpages.1.symm
  rw [Forest.entryAt, ht, Option.bind_some] at hentry
  have habsent : s'.mem (slot t (index va arch.pt)) &&& pteP = 0#w ↔ space va = none := by
    change view s'.mem t (index va arch.pt) &&& pteP = 0#w ↔ _
    by_cases hzero : view s'.mem t (index va arch.pt) &&& pteP = 0#w
    · rw [if_pos hzero, eq_comm, Option.map_eq_none_iff] at hentry
      exact iff_of_true hzero hentry
    · rw [if_neg hzero] at hentry
      apply iff_of_false hzero
      intro hsp
      rw [hsp] at hentry
      cases hentry
  rw [map, if_neg (not_not.mpr hva), if_neg (not_or.mpr ⟨not_not.mpr hpages.1, not_not.mpr hpages.2⟩),
    hwalk, Option.bind_some]
  simp only [habsent, ne_eq, leafEntry_eq]
  by_cases hprot : prot = MMAP_NONE
  · by_cases hsp : space va = none
    · simp [newEntry, hprot, hsp]
    · have ho : newEntry pa prot (space va) = some none := by rw [newEntry, if_pos hprot, if_neg hsp]
      rw [if_pos hprot, if_neg hsp, ho]
      exact hagain none ho
  · by_cases hsp : space va = none
    · have ho : newEntry pa prot (space va) = some (some (pa, decide (prot &&& MMAP_WRITE ≠ 0))) := by
        rw [newEntry, if_neg hprot, if_neg (not_not.mpr hsp)]
      rw [if_neg hprot, if_neg (not_not.mpr hsp), ho]
      exact hagain _ ho
    · simp [newEntry, hprot, hsp]

end Map

section Unprotect

/-- The tables of a space. -/
def spaceTables (arch : Arch w) (mem : Memory w) (as : BitVec w) : List (BitVec w) :=
  tablesOf (pteW ||| pteU) (view mem) arch.upper.length (baseof (mem as))

variable (hlaw : arch.Lawful) (hboot : Booted arch A kpt K s₀) (h : Inv A arch kpt K s₀ R D s a)
  (has : as ∈ D)
include h has

theorem Inv.baseof_cell : baseof (s.mem as) = R as := by
  rw [h.cell_eq has]
  exact baseof_entryOf (h.root_page has)

theorem Inv.mem_spaceTables : t ∈ spaceTables arch s.mem as ↔
    ∃ path, path.length ≤ (arch.forest (R '' D)).depth ∧
      (arch.forest (R '' D)).follow s.mem (R as) path = some t := by
  rw [spaceTables, h.baseof_cell has]
  exact mem_subtree List.mem_finRange

theorem Inv.reached_spaceTables (ht : t ∈ spaceTables arch s.mem as) :
    (arch.forest (R '' D)).Reached s.mem t := by
  obtain ⟨path, hlen, hpath⟩ := (h.mem_spaceTables has).mp ht
  exact .follow (Inv.root has) hlen hpath

theorem Inv.nodup_spaceTables : (spaceTables arch s.mem as).Nodup := by
  rw [spaceTables, h.baseof_cell has]
  apply nodup_subtree List.mem_finRange (List.nodup_finRange _)
  exact h.tables.unshared.mono (Set.singleton_subset_iff.mpr (Inv.root has))

/-- A table belongs to one space. -/
theorem Inv.spaceTables_own {as' : BitVec w} (has' : as' ∈ D) (ht : t ∈ spaceTables arch s.mem as)
    (ht' : t ∈ spaceTables arch s.mem as') : as' = as := by
  obtain ⟨path, hlen, hpath⟩ := (h.mem_spaceTables has).mp ht
  obtain ⟨path', hlen', hpath'⟩ := (h.mem_spaceTables has').mp ht'
  have hroots := (h.tables.unshared _ (Inv.root has') _ (Inv.root has) path' path t hlen' hlen hpath'
    hpath).1
  exact h.inj as' has' as has hroots

include hboot

/-- Nothing but the entries of the kernel keeps `teardown` away from a table. -/
theorem Inv.clean : Clean (pteW ||| pteU) (view s.mem) arch.upper.length (R as) := by
  intro path t hlen ht j
  by_cases hskip : path = [] ∧ j ∈ arch.kernelIndices
  · obtain ⟨rfl, hj⟩ := hskip
    obtain rfl := Option.some_inj.mp ht
    rw [h.shared as has j hj]
    obtain ⟨cur, hcur, rfl⟩ := hj
    have hsup := hboot.supervisor cur hcur
    rw [if_neg fun hboth ↦ hboth.2 hsup]
    exact nextTable_of_supervisor hsup
  · split_ifs with hboth
    · exact if_pos (h.tables.flagged _ (Inv.root has) path t hlen ht j
        (fun hnil hj ↦ hskip ⟨hnil, hj⟩) hboth.1)
    · by_cases hpresent : view s.mem t j &&& pteP = 0#w
      · exact nextTable_of_absent hpresent
      · apply nextTable_of_supervisor
        by_contra huser
        exact hboth ⟨hpresent, huser⟩

include hlaw

theorem Inv.unprotect_eq :
    unprotect A arch as s = (spaceTables arch s.mem as).foldl (Machine.pgfree A) s := by
  have hslot : slot as 0 = as := by simp [slot]
  have hcell := h.cell_eq has
  have hgo : s.mem as &&& pteP ≠ 0#w ∧ s.mem as &&& pteU ≠ 0#w := by
    rw [hcell, entryOf_present, entryOf_user]
    exact ⟨flag_ne_zero Nat.one_pos (by decide), flag_ne_zero (by decide) (by decide)⟩
  have hbits : ∀ info ∈ arch.levels, 2 ^ info.bits = entries w :=
    fun info hinfo ↦ (hlaw.valid info hinfo).bits
  have hlen : arch.levels.length = arch.upper.length + 1 := List.length_append
  have hnodup := h.nodup_spaceTables has
  have hheld : Held A (view s.mem) (spaceTables arch s.mem as) s :=
    fun t ht ↦ ⟨h.tables.live t (h.reached_spaceTables has ht), fun _ ↦ rfl⟩
  rw [spaceTables, h.baseof_cell has] at hnodup hheld ⊢
  rw [unprotect, Arch.pgtables, hlaw.cr3, teardown]
  simp only [Nat.shiftLeft_zero, List.range_one, List.foldl_cons, List.foldl_nil, hslot, if_pos hgo,
    h.baseof_cell has]
  rw [teardown_eq hbits (Nat.le_refl _) hlen hheld hnodup (h.clean hboot has)]
  rfl

theorem Inv.unprotect : Inv A arch kpt K s₀ R (D \ {as}) (Am.unprotect A arch as s)
    (Function.update a as none) := by
  have hnodup := h.nodup_spaceTables has
  have hlive : ∀ p ∈ spaceTables arch s.mem as, p ∈ A.live s.heap :=
    fun p hp ↦ h.tables.live p (h.reached_spaceTables has hp)
  obtain ⟨hlive', _, hmem⟩ := foldl_pgfree hnodup hlive
  rw [← h.unprotect_eq hlaw hboot has] at hlive' hmem
  have hmem' : ∀ x, baseof x ∉ A.arena ∨ baseof x ∈ A.live s.heap ∧
      baseof x ∉ spaceTables arch s.mem as → (Am.unprotect A arch as s).mem x = s.mem x := hmem
  have hmemlive : ∀ t, t ∈ A.live (Am.unprotect A arch as s).heap ↔
      t ∈ A.live s.heap ∧ t ∉ spaceTables arch s.mem as := fun t ↦ Set.ext_iff.mp hlive' t
  have hsub : R '' (D \ {as}) ⊆ R '' D := Set.image_mono Set.sdiff_subset
  have hother : ∀ t, (arch.forest (R '' (D \ {as}))).Reached s.mem t →
      t ∉ spaceTables arch s.mem as := by
    intro t ht hmine
    obtain ⟨_, ⟨as', has', rfl⟩, path, hlen, hpath⟩ := ht
    have ht' : t ∈ spaceTables arch s.mem as' := (h.mem_spaceTables has'.1).mpr ⟨path, hlen, hpath⟩
    exact has'.2 (h.spaceTables_own has has'.1 hmine ht')
  have hkept : ∀ t, (arch.forest (R '' (D \ {as}))).Reached s.mem t →
      t ∈ A.live (Am.unprotect A arch as s).heap ∧
        ∀ j, view (Am.unprotect A arch as s).mem t j = view s.mem t j := by
    intro t ht
    have htlive := h.tables.live t (ht.mono hsub)
    refine ⟨(hmemlive t).mpr ⟨htlive, hother t ht⟩, fun j ↦ hmem' _ (.inr ?_)⟩
    rw [baseof_slot (A.live_page htlive) j.isLt]
    exact ⟨htlive, hother t ht⟩
  have hreached : ∀ t, (arch.forest (R '' (D \ {as}))).Reached (Am.unprotect A arch as s).mem t ↔
      (arch.forest (R '' (D \ {as}))).Reached s.mem t := fun t ↦ reached_congr fun t ht ↦ (hkept t ht).2
  have hK : ∀ p ∈ K, p ∉ spaceTables arch s.mem as :=
    fun p hp hmine ↦ h.kernel p hp (h.reached_spaceTables has hmine)
  constructor
  · intro as'
    by_cases heq : as' = as
    · subst heq
      simp
    · rw [Function.update_of_ne heq, Set.mem_sdiff, Set.mem_singleton_iff]
      exact (and_iff_left heq).trans (h.dom as')
  · intro as' has'
    rw [hmem' as' (.inl (h.outside as' has'.1).1)]
    exact h.cell as' has'.1
  · exact fun as' has' ↦ h.outside as' has'.1
  · exact fun as₁ has₁ as₂ has₂ ↦ h.inj as₁ has₁.1 as₂ has₂.1
  · exact h.tables.restrict hsub hkept
  · exact fun p hp hreach ↦ h.kernel p hp (((hreached p).mp hreach).mono hsub)
  · exact fun p hp ↦ (h.kept p hp).imp_right fun hl ↦ (hmemlive p).mpr ⟨hl, hK p hp⟩
  · intro x hx
    rw [hmem' x ((h.kept _ hx).imp_right fun hl ↦ ⟨hl, hK _ hx⟩)]
    exact h.kernelMem x hx
  · intro as' has' i hi
    rw [(hkept _ (.root ⟨as', has', rfl⟩)).2]
    exact h.shared as' has'.1 i hi
  · intro as' space hspace va hva hpage
    have hne : as' ≠ as := by
      intro heq
      rw [heq, Function.update_self] at hspace
      cases hspace
    rw [Function.update_of_ne hne] at hspace
    have hD : as' ∈ D := (h.dom as').mpr (by rw [hspace]; exact Option.some_ne_none _)
    have hroot : R as' ∈ (arch.forest (R '' (D \ {as}))).roots := ⟨as', ⟨hD, hne⟩, rfl⟩
    exact (Forest.entryAt_congr hroot (Arch.length_path _ va).le fun t ht ↦ (hkept t ht).2).trans
      (h.entry as' space hspace va hva hpage)
  · intro as' space hspace
    have hne : as' ≠ as := by
      intro heq
      rw [heq, Function.update_self] at hspace
      cases hspace
    rw [Function.update_of_ne hne] at hspace
    exact h.frames as' space hspace
  · intro t
    rw [hmemlive, h.live, hreached]
    constructor
    · intro ht
      rcases ht.1 with hbefore | ⟨_, ⟨as', has', rfl⟩, path, hlen, hpath⟩
      · exact .inl hbefore
      · right
        refine ⟨_, ⟨as', ⟨has', ?_⟩, rfl⟩, path, hlen, hpath⟩
        intro heq
        rw [Set.mem_singleton_iff.mp heq] at hpath
        exact ht.2 ((h.mem_spaceTables has).mpr ⟨path, hlen, hpath⟩)
    · intro ht
      rcases ht with hbefore | ht
      · exact ⟨.inl hbefore, fun hmine ↦ h.own t (h.reached_spaceTables has hmine) hbefore⟩
      · exact ⟨.inr (ht.mono hsub), hother t ht⟩
  · exact fun t ht ↦ h.own t (((hreached t).mp ht).mono hsub)

end Unprotect

end OsWorkbench.Am
