import OsWorkbench.Am.PageTables

namespace OsWorkbench.Am

open Library Library.Words Library.Radix

/-- Trees of tables of a common depth, whose entries carry the same flags. Some entries
of the roots belong to others. -/
structure Forest (w : ℕ) where
  flags : BitVec w
  depth : ℕ
  roots : Set (BitVec w)
  skip : Set (Fin (entries w))

variable {w : ℕ} {σ : Type*} (A : PageAllocator w σ) (F : Forest w)

namespace Forest

abbrev follow (mem : Memory w) (r : BitVec w) (path : List (Fin (entries w))) : Option (BitVec w) :=
  Radix.follow (nextTable F.flags) (view mem) r path

abbrev Reached (mem : Memory w) (t : BitVec w) : Prop :=
  Radix.Reached (nextTable F.flags) (view mem) F.roots F.depth t

/-- The entry at the end of a path, when it is present. -/
def entryAt (mem : Memory w) (r : BitVec w) (path : List (Fin (entries w))) (j : Fin (entries w)) :
    Option (BitVec w) :=
  (F.follow mem r path).bind fun t ↦
    if view mem t j &&& pteP = 0#w then none else some (view mem t j)

end Forest

/-- The tables are pages of the allocator, and each has one entry that leads to it. -/
structure Tables (s : Machine w σ) : Prop where
  unshared : Unshared (nextTable F.flags) (view s.mem) F.roots F.depth
  live : ∀ t, F.Reached s.mem t → t ∈ A.live s.heap
  flagged : ∀ r ∈ F.roots, ∀ path t, path.length < F.depth → F.follow s.mem r path = some t →
    ∀ j, (path = [] → j ∉ F.skip) → view s.mem t j &&& pteP ≠ 0#w →
      view s.mem t j &&& (pteP ||| F.flags) = pteP ||| F.flags

/-- Tables were added, and no entry of the last level changed. -/
structure Extends (s s' : Machine w σ) : Prop where
  follow : ∀ r ∈ F.roots, ∀ path t, path.length ≤ F.depth → F.follow s.mem r path = some t →
    F.follow s'.mem r path = some t
  entryAt : ∀ r ∈ F.roots, ∀ path j, path.length = F.depth →
    F.entryAt s'.mem r path j = F.entryAt s.mem r path j
  skip : ∀ r ∈ F.roots, ∀ j ∈ F.skip, view s'.mem r j = view s.mem r j
  other : ∀ x, ¬F.Reached s.mem (baseof x) → baseof x ∉ A.arena ∨ baseof x ∈ A.live s.heap →
    s'.mem x = s.mem x
  fresh : ∀ t, F.Reached s'.mem t → F.Reached s.mem t ∨ t ∈ A.arena ∧ t ∉ A.live s.heap
  live : ∀ t, t ∈ A.live s'.heap ↔ t ∈ A.live s.heap ∨ F.Reached s'.mem t
  freed : s'.freed = s.freed

variable {A F} {s s' s'' : Machine w σ} {r p q t x : BitVec w} {path : List (Fin (entries w))}
  {i j : Fin (entries w)}

theorem Forest.follow_concat {mem : Memory w} (hp : F.follow mem r path = some p) :
    F.follow mem r (path ++ [i]) = nextTable F.flags (view mem p i) :=
  Radix.follow_concat.trans (congrArg (fun o ↦ o.bind fun u ↦ nextTable F.flags (view mem u i)) hp)

theorem Tables.page (h : Tables A F s) (ht : F.Reached s.mem t) : baseof t = t :=
  A.live_page (h.live t ht)

theorem Extends.reached (h : Extends A F s s') (ht : F.Reached s.mem t) : F.Reached s'.mem t := by
  obtain ⟨r, hr, path, hlen, hpath⟩ := ht
  exact ⟨r, hr, path, hlen, h.follow r hr path t hlen hpath⟩

theorem Tables.extends_refl (h : Tables A F s) : Extends A F s s where
  follow _ _ _ _ _ ht := ht
  entryAt _ _ _ _ _ := rfl
  skip _ _ _ _ := rfl
  other _ _ _ := rfl
  fresh _ ht := .inl ht
  live t := ⟨.inl, fun ht ↦ ht.elim id (h.live t)⟩
  freed := rfl

theorem Extends.trans (h : Extends A F s s') (h' : Extends A F s' s'') : Extends A F s s'' where
  follow r hr path t hlen ht := h'.follow r hr path t hlen (h.follow r hr path t hlen ht)
  entryAt r hr path j hlen := (h'.entryAt r hr path j hlen).trans (h.entryAt r hr path j hlen)
  skip r hr j hj := (h'.skip r hr j hj).trans (h.skip r hr j hj)
  other x hx hlive := by
    have hx' : ¬F.Reached s'.mem (baseof x) := by
      intro hreach
      rcases h.fresh _ hreach with hreach | ⟨harena, hfree⟩
      · exact hx hreach
      · exact hlive.elim (fun h ↦ h harena) hfree
    have hlive' := hlive.imp_right fun hlive ↦ (h.live _).mpr (.inl hlive)
    exact (h'.other x hx' hlive').trans (h.other x hx hlive)
  fresh t ht := by
    rcases h'.fresh t ht with ht | ⟨harena, hfree⟩
    · exact h.fresh t ht
    · exact .inr ⟨harena, fun hlive ↦ hfree ((h.live t).mpr (.inl hlive))⟩
  live t := by
    rw [h'.live, h.live, or_assoc]
    apply or_congr_right
    exact ⟨fun ht ↦ ht.elim h'.reached id, .inr⟩
  freed := h'.freed.trans h.freed

section Roots

variable {roots : Set (BitVec w)}

theorem Forest.entryAt_congr (hr : r ∈ F.roots) (hlen : path.length ≤ F.depth)
    (hview : ∀ t, F.Reached s.mem t → ∀ j, view s'.mem t j = view s.mem t j) :
    F.entryAt s'.mem r path j = F.entryAt s.mem r path j := by
  have hfollow : F.follow s'.mem r path = F.follow s.mem r path :=
    follow_congr_of_reached hr hlen hview
  rw [Forest.entryAt, Forest.entryAt, hfollow]
  cases ht : F.follow s.mem r path with
  | none => rfl
  | some t => simp only [Option.bind_some, hview t (.follow hr hlen ht)]

/-- The tables of some of the roots are left. -/
theorem Tables.restrict (h : Tables A F s) (hroots : roots ⊆ F.roots)
    (hkept : ∀ t, Radix.Reached (nextTable F.flags) (view s.mem) roots F.depth t →
      t ∈ A.live s'.heap ∧ ∀ j, view s'.mem t j = view s.mem t j) :
    Tables A { F with roots := roots } s' where
  unshared := (h.unshared.mono hroots).congr fun t ht ↦ (hkept t ht).2
  live t ht := (hkept t ((reached_congr fun t ht ↦ (hkept t ht).2).mp ht)).1
  flagged r hr path t hlen ht j hj := by
    have ht' : F.follow s.mem r path = some t :=
      (follow_congr_of_reached hr hlen.le fun t ht ↦ (hkept t ht).2).symm.trans ht
    rw [(hkept t (.follow hr hlen.le ht')).2 j]
    exact h.flagged r (hroots hr) path t hlen ht' j hj

/-- A page becomes a root, with entries that belong to others. -/
theorem Tables.insert (h : Tables A F s) (hfresh : ¬F.Reached s.mem q)
    (hlive : q ∈ A.live s.heap) (hnext : ∀ j, nextTable F.flags (view s.mem q j) = none)
    (habsent : ∀ j, j ∉ F.skip → view s.mem q j &&& pteP = 0#w) :
    Tables A { F with roots := insert q F.roots } s where
  unshared := h.unshared.insert hnext hfresh
  live t ht := ((reached_insert hnext).mp ht).elim (h.live t) fun heq ↦ heq ▸ hlive
  flagged r hr path t hlen ht j hj hpresent := by
    rcases Set.mem_insert_iff.mp hr with rfl | hr
    · obtain ⟨rfl, rfl⟩ := follow_empty hnext ht
      exact absurd (habsent j (hj rfl)) hpresent
    · exact h.flagged r hr path t hlen ht j hj hpresent

theorem Forest.entryAt_empty {mem : Memory w} (hnext : ∀ j, nextTable F.flags (view mem q j) = none)
    (hpath : path ≠ []) : F.entryAt mem q path j = none := by
  rw [Forest.entryAt]
  cases ht : F.follow mem q path with
  | none => rfl
  | some t => exact absurd (follow_empty hnext ht).1 hpath

end Roots

variable [hw : WordSize w]

section Attach

/-- A fresh page hangs below an entry. -/
structure Attached (A : PageAllocator w σ) (F : Forest w) (r p : BitVec w)
    (path : List (Fin (entries w))) (i : Fin (entries w)) (q : BitVec w) (s s' : Machine w σ) :
    Prop where
  arena : q ∈ A.arena
  fresh : q ∉ A.live s.heap
  unshared : Unshared (nextTable F.flags) (view s'.mem) F.roots F.depth
  follow : ∀ r' ∈ F.roots, ∀ path' t, path'.length ≤ F.depth → (F.follow s'.mem r' path' = some t ↔
    F.follow s.mem r' path' = some t ∨ r' = r ∧ path' = path ++ [i] ∧ t = q)
  reached : ∀ t, F.Reached s'.mem t ↔ F.Reached s.mem t ∨ t = q
  view : ∀ t, F.Reached s.mem t → ∀ j, view s'.mem t j =
    if t = p ∧ j = i then q ||| pteP ||| F.flags else view s.mem t j
  zero : ∀ j, Am.view s'.mem q j = 0#w
  other : ∀ x, baseof x ≠ p → baseof x ∉ A.arena ∨ baseof x ∈ A.live s.heap → s'.mem x = s.mem x
  live : ∀ t, t ∈ A.live s'.heap ↔ t = q ∨ t ∈ A.live s.heap
  freed : s'.freed = s.freed

variable (h : Tables A F s)
include h

omit hw in
theorem Attached.tables (ha : Attached A F r p path i q s s') : Tables A F s' where
  unshared := ha.unshared
  live t ht := (ha.live t).mpr (((ha.reached t).mp ht).symm.imp_right (h.live t))
  flagged r' hr' path' t hlen' ht j hj hpresent := by
    rcases (ha.follow r' hr' path' t hlen'.le).mp ht with ht | ⟨_, _, rfl⟩
    · rw [ha.view t (.follow hr' hlen'.le ht)] at hpresent ⊢
      split_ifs at hpresent ⊢ with hslot
      · rw [BitVec.or_assoc, or_and_self]
      · exact h.flagged r' hr' path' t hlen' ht j hj hpresent
    · rw [ha.zero] at hpresent
      exact absurd BitVec.zero_and hpresent

variable (hr : r ∈ F.roots) (hp : F.follow s.mem r path = some p) (hlen : path.length < F.depth)
include hr hp hlen

/-- `ptwalk` hangs a fresh page below an entry that is not present. -/
theorem Tables.attached (hflags : ((pteP : BitVec w) ||| F.flags).toNat < 2 ^ 12)
    (habsent : Am.view s.mem p i &&& pteP = 0#w) (hq : pgallocz A s = some (q, s')) :
    Attached A F r p path i q s (s'.store (slot p i) (q ||| pteP ||| F.flags)) := by
  obtain ⟨⟨harena, hfresh, hlive, hfreed⟩, hmem, hzeros⟩ := pgallocz_spec hq
  have hpreach : F.Reached s.mem p := .follow hr hlen.le hp
  have hppage := h.page hpreach
  have hqpage := A.arena_page q harena
  have hqnew : ¬F.Reached s.mem q := fun hreach ↦ hfresh (h.live q hreach)
  have hqp : q ≠ p := fun heq ↦ hqnew (heq ▸ hpreach)
  generalize hs₂ : s'.store (slot p i) (q ||| pteP ||| F.flags) = s₂
  have hview : ∀ t, F.Reached s.mem t → ∀ j, view s₂.mem t j =
      if t = p ∧ j = i then q ||| pteP ||| F.flags else view s.mem t j := by
    intro t ht j
    rw [← hs₂, Machine.store_mem, view_store hppage (h.page ht)]
    congr 1
    apply hmem
    rw [baseof_slot (h.page ht) j.isLt]
    exact .inr (h.live t ht)
  have hold : ∀ t, F.Reached s.mem t → ∀ j, t ≠ p ∨ j ≠ i → view s₂.mem t j = view s.mem t j := by
    intro t ht j hne
    rw [hview t ht, if_neg (not_and_or.mpr hne)]
  have hviewq : ∀ j, view s₂.mem q j = 0#w := by
    intro j
    rw [← hs₂, Machine.store_mem, view_store hppage hqpage, if_neg fun heq ↦ hqp heq.1, hzeros]
  have hzero : ∀ j, nextTable F.flags (view s₂.mem q j) = none := by
    intro j
    rw [hviewq]
    exact nextTable_of_absent BitVec.zero_and
  have hnone : nextTable F.flags (view s.mem p i) = none := nextTable_of_absent habsent
  have hnext : nextTable F.flags (view s₂.mem p i) = some q := by
    rw [hview p hpreach, if_pos ⟨rfl, rfl⟩]
    exact nextTable_entry hqpage hflags
  constructor
  · exact harena
  · exact hfresh
  · exact h.unshared.attach hr hp hlen hnone hqnew hzero hnext hold
  · intro r' hr' path' t hlen'
    exact follow_attach h.unshared hr hp hlen hnone hqnew hzero hnext hold hr' hlen'
  · intro t
    exact reached_attach h.unshared hr hp hlen hnone hqnew hzero hnext hold
  · exact hview
  · exact hviewq
  · intro x hx hlive'
    have hne : x ≠ slot p i := fun heq ↦ hx (heq ▸ baseof_slot hppage i.isLt)
    rw [← hs₂, Machine.store_mem, Function.update_of_ne hne, hmem x hlive']
  · intro t
    rw [← hs₂]
    exact (Set.ext_iff.mp hlive t).trans Set.mem_insert_iff
  · rw [← hs₂]
    exact hfreed

variable (ha : Attached A F r p path i q s s')
include ha

omit hw in
theorem Attached.entryAt {r' : BitVec w} {path' : List (Fin (entries w))} (hr' : r' ∈ F.roots)
    (hlen' : path'.length = F.depth) : F.entryAt s'.mem r' path' j = F.entryAt s.mem r' path' j := by
  rw [Forest.entryAt, Forest.entryAt]
  cases ht : F.follow s.mem r' path' with
  | some t =>
    have htp : t ≠ p := by
      intro heq
      subst heq
      have hsame := (h.unshared r' hr' r hr path' path t hlen'.le hlen.le ht hp).2
      rw [hsame] at hlen'
      exact absurd hlen' hlen.ne
    have ht' : F.follow s'.mem r' path' = some t := (ha.follow r' hr' path' t hlen'.le).mpr (.inl ht)
    have hview : Am.view s'.mem t j = Am.view s.mem t j := by
      rw [ha.view t (.follow hr' hlen'.le ht), if_neg fun heq ↦ htp heq.1]
    rw [ht', Option.bind_some, Option.bind_some, hview]
  | none =>
    cases ht' : F.follow s'.mem r' path' with
    | none => rfl
    | some t =>
      rcases (ha.follow r' hr' path' t hlen'.le).mp ht' with h' | ⟨_, _, rfl⟩
      · cases ht.symm.trans h'
      · rw [Option.bind_some, ha.zero]
        exact if_pos BitVec.zero_and

omit hw in
theorem Attached.extends (hskip : path = [] → i ∉ F.skip) : Extends A F s s' where
  follow r' hr' path' t hlen' ht := (ha.follow r' hr' path' t hlen').mpr (.inl ht)
  entryAt r' hr' path' j hlen' := ha.entryAt h hr hp hlen hr' hlen'
  skip r' hr' j hj := by
    rw [ha.view r' (.root hr')]
    apply if_neg
    intro heq
    obtain ⟨rfl, rfl⟩ := heq
    have hpath := (h.unshared r' hr' r hr [] path r' F.depth.zero_le hlen.le rfl hp).2
    exact hskip hpath.symm hj
  other x hx hlive := ha.other x (fun heq ↦ hx (heq ▸ .follow hr hlen.le hp)) hlive
  fresh t ht := by
    rcases (ha.reached t).mp ht with ht | rfl
    · exact .inl ht
    · exact .inr ⟨ha.arena, ha.fresh⟩
  live t := by
    rw [ha.live, ha.reached]
    constructor
    · intro ht
      exact ht.symm.imp_right .inr
    · intro ht
      rcases ht with ht | ht | ht
      · exact .inr ht
      · exact .inr (h.live t ht)
      · exact .inl ht
  freed := ha.freed

end Attach

section Leaf

variable {v : BitVec w} (h : Tables A F s) (hr : r ∈ F.roots)
  (hp : F.follow s.mem r path = some p) (hlast : path.length = F.depth)
include h hr hp

theorem Tables.view_setLeaf (hlen : path.length ≤ F.depth) (ht : F.Reached s.mem t) :
    view (s.store (slot p i) v).mem t j = if t = p ∧ j = i then v else view s.mem t j := by
  rw [Machine.store_mem, view_store (h.page (.follow hr hlen hp)) (h.page ht)]

include hlast

theorem Tables.follow_setLeaf {r' : BitVec w} {path' : List (Fin (entries w))} (hr' : r' ∈ F.roots)
    (hlen : path'.length ≤ F.depth) :
    F.follow (s.store (slot p i) v).mem r' path' = F.follow s.mem r' path' := by
  refine Radix.follow_setLeaf (i := i) h.unshared hr hp hlast ?_ hr' hlen
  intro t ht j hne
  rw [h.view_setLeaf hr hp hlast.le ht]
  exact if_neg (not_and_or.mpr hne)

omit hw in
/-- Only the last level leads to the entry. -/
theorem Tables.eq_leaf {r' : BitVec w} {path' : List (Fin (entries w))} (hr' : r' ∈ F.roots)
    (hlen : path'.length ≤ F.depth) (ht : F.follow s.mem r' path' = some p) :
    r' = r ∧ path' = path := h.unshared r' hr' r hr path' path p hlen hlast.le ht hp

theorem Tables.reached_setLeaf : F.Reached (s.store (slot p i) v).mem t ↔ F.Reached s.mem t := by
  apply exists_congr
  intro r'
  apply and_congr_right
  intro hr'
  apply exists_congr
  intro path'
  apply and_congr_right
  intro hlen
  exact Eq.congr_left (h.follow_setLeaf hr hp hlast hr' hlen)

theorem Tables.setLeaf : Tables A F (s.store (slot p i) v) where
  unshared r₁ hr₁ r₂ hr₂ path₁ path₂ t hlen₁ hlen₂ ht₁ ht₂ :=
    h.unshared r₁ hr₁ r₂ hr₂ path₁ path₂ t hlen₁ hlen₂
      ((h.follow_setLeaf hr hp hlast hr₁ hlen₁).symm.trans ht₁)
      ((h.follow_setLeaf hr hp hlast hr₂ hlen₂).symm.trans ht₂)
  live t ht := h.live t ((h.reached_setLeaf hr hp hlast).mp ht)
  flagged r' hr' path' t hlen ht j hj hpresent := by
    have ht := (h.follow_setLeaf hr hp hlast hr' hlen.le).symm.trans ht
    have htp : ¬(t = p ∧ j = i) := by
      intro heq
      have hsame := (h.eq_leaf hr hp hlast hr' hlen.le (heq.1 ▸ ht)).2
      rw [hsame, hlast] at hlen
      exact absurd hlen (lt_irrefl _)
    rw [h.view_setLeaf hr hp hlast.le (.follow hr' hlen.le ht), if_neg htp] at hpresent ⊢
    exact h.flagged r' hr' path' t hlen ht j hj hpresent

theorem Tables.entryAt_setLeaf {r' : BitVec w} {path' : List (Fin (entries w))}
    (hr' : r' ∈ F.roots) (hlen : path'.length = F.depth) :
    F.entryAt (s.store (slot p i) v).mem r' path' j =
      if r' = r ∧ path' = path ∧ j = i then if v &&& pteP = 0#w then none else some v
      else F.entryAt s.mem r' path' j := by
  rw [Forest.entryAt, Forest.entryAt, h.follow_setLeaf hr hp hlast hr' hlen.le]
  cases ht : F.follow s.mem r' path' with
  | none =>
    rw [if_neg]
    · rfl
    · intro heq
      obtain ⟨rfl, rfl, _⟩ := heq
      cases ht.symm.trans hp
  | some t =>
    rw [Option.bind_some, Option.bind_some, h.view_setLeaf hr hp hlast.le (.follow hr' hlen.le ht)]
    by_cases hslot : t = p ∧ j = i
    · obtain ⟨rfl, rfl⟩ := hslot
      obtain ⟨rfl, rfl⟩ := h.eq_leaf hr hp hlast hr' hlen.le ht
      simp only [and_self, if_true]
    · have hother : ¬(r' = r ∧ path' = path ∧ j = i) := by
        intro heq
        obtain ⟨rfl, rfl, rfl⟩ := heq
        exact hslot ⟨Option.some_inj.mp (ht.symm.trans hp), rfl⟩
      rw [if_neg hslot, if_neg hother]

end Leaf

section Walk

variable {addr : BitVec w} {info last : PtInfo w} {infos : List (PtInfo w)}

omit hw in
theorem ptwalkLoop_cons {flags cur : BitVec w} (hne : infos ≠ []) :
    ptwalkLoop A addr flags (info :: infos) cur s =
      if s.mem (slot cur (indexof addr info)) &&& pteP = 0#w then
        (pgallocz A s).bind fun r ↦ ptwalkLoop A addr flags infos r.1
          (r.2.store (slot cur (indexof addr info)) (r.1 ||| pteP ||| flags))
      else ptwalkLoop A addr flags infos (baseof (s.mem (slot cur (indexof addr info)))) s := by
  cases infos with
  | nil => exact absurd rfl hne
  | cons _ _ => rfl

theorem mem_slot_index (hvalid : info.Valid) (mem : Memory w) (p : BitVec w) :
    mem (slot p (indexof addr info)) = view mem p (index addr info) := by
  rw [view, hvalid.val_index]

/-- The walk comes to the entry of the address, and changes no entry of the last level. -/
theorem ptwalkLoop_spec (hflags : ((pteP : BitVec w) ||| F.flags).toNat < 2 ^ 12)
    (hvalid : ∀ info ∈ infos, info.Valid) (hr : r ∈ F.roots) (h : Tables A F s)
    (hp : F.follow s.mem r path = some p) (hlen : path.length + infos.length = F.depth)
    (hskip : path = [] → ∀ info ∈ infos.head?, index addr info ∉ F.skip)
    (hwalk : ptwalkLoop A addr F.flags (infos ++ [last]) p s = some (x, s')) :
    Tables A F s' ∧ Extends A F s s' ∧
      ∃ t, F.follow s'.mem r (path ++ infos.map (index addr)) = some t ∧
        x = slot t (indexof addr last) := by
  induction infos generalizing s p path with
  | nil =>
    obtain ⟨rfl, rfl⟩ := Prod.mk.inj (Option.some_inj.mp hwalk)
    rw [List.map_nil, List.append_nil]
    exact ⟨h, h.extends_refl, p, hp, rfl⟩
  | cons info rest ih =>
    obtain ⟨hinfo, hrest⟩ := List.forall_mem_cons.mp hvalid
    rw [List.length_cons] at hlen
    have hlt : path.length < F.depth := by omega
    have hlen' : (path ++ [index addr info]).length + rest.length = F.depth := by
      rw [List.length_append, List.length_singleton]
      omega
    have hskip' : path ++ [index addr info] = [] → ∀ info ∈ rest.head?, index addr info ∉ F.skip :=
      fun hnil ↦ absurd hnil (List.append_ne_nil_of_right_ne_nil _ (List.cons_ne_nil _ _))
    have hskipi : path = [] → index addr info ∉ F.skip := fun hnil ↦ hskip hnil info rfl
    have hpath : path ++ (info :: rest).map (index addr) =
        path ++ [index addr info] ++ rest.map (index addr) := by
      rw [List.map_cons, List.append_assoc, List.singleton_append]
    rw [hpath]
    rw [List.cons_append, ptwalkLoop_cons (List.append_ne_nil_of_right_ne_nil _ (List.cons_ne_nil _ _)),
      mem_slot_index hinfo s.mem p] at hwalk
    split_ifs at hwalk with habsent
    · obtain ⟨⟨q, s₁⟩, hq, hwalk⟩ := Option.bind_eq_some_iff.mp hwalk
      rw [← hinfo.val_index] at hwalk
      have ha := h.attached hr hp hlt hflags habsent hq
      have hext := ha.extends h hr hp hlt hskipi
      have hfollow := (ha.follow r hr _ q (by omega)).mpr (.inr ⟨rfl, rfl, rfl⟩)
      obtain ⟨htables, hext', hrest⟩ := ih hrest (ha.tables h) hfollow hlen' hskip' hwalk
      exact ⟨htables, hext.trans hext', hrest⟩
    · have hflag := h.flagged r hr path p hlt hp (index addr info) hskipi habsent
      have hfollow : F.follow s.mem r (path ++ [index addr info]) =
          some (baseof (view s.mem p (index addr info))) :=
        (Forest.follow_concat hp).trans (if_pos hflag)
      exact ih hrest h hfollow hlen' hskip' hwalk

omit hw in
/-- The walk needs a page for each level but the last one. -/
theorem ptwalkLoop_isSome {room : σ → ℕ} {flags cur : BitVec w}
    (hroom : ∀ mem h, 0 < room h →
      (A.pgalloc mem h).1 ≠ 0#w ∧ room h ≤ room (A.pgalloc mem h).2.2 + 1)
    (hlen : infos.length ≤ room s.heap) :
    (ptwalkLoop A addr flags (infos ++ [last]) cur s).isSome := by
  induction infos generalizing s cur with
  | nil => rfl
  | cons info rest ih =>
    rw [List.length_cons] at hlen
    rw [List.cons_append, ptwalkLoop_cons (List.append_ne_nil_of_right_ne_nil _ (List.cons_ne_nil _ _))]
    split_ifs with habsent
    · obtain ⟨hpage, hmore⟩ := hroom s.mem s.heap (by omega)
      rw [pgallocz]
      simp only [if_neg hpage, Option.bind_some]
      apply ih
      change rest.length ≤ room (A.pgalloc s.mem s.heap).2.2
      omega
    · exact ih (by omega)

/-- Along a path that is there, the walk changes nothing. -/
theorem ptwalkLoop_present (hvalid : ∀ info ∈ infos, info.Valid)
    (ht : F.follow s.mem p (infos.map (index addr)) = some t) :
    ptwalkLoop A addr F.flags (infos ++ [last]) p s = some (slot t (indexof addr last), s) := by
  induction infos generalizing p with
  | nil =>
    obtain rfl := Option.some_inj.mp ht
    rfl
  | cons info rest ih =>
    obtain ⟨hinfo, hrest⟩ := List.forall_mem_cons.mp hvalid
    rw [List.map_cons, Forest.follow, follow_cons] at ht
    obtain ⟨u, hu, ht⟩ := Option.bind_eq_some_iff.mp ht
    have hpresent : view s.mem p (index addr info) &&& pteP ≠ 0#w := by
      intro habsent
      cases hu.symm.trans (nextTable_of_absent habsent)
    rw [List.cons_append, ptwalkLoop_cons (List.append_ne_nil_of_right_ne_nil _ (List.cons_ne_nil _ _)),
      mem_slot_index hinfo s.mem p, if_neg hpresent, baseof_of_nextTable hu]
    exact ih hrest ht

/-- What the processor finds for the address of an entry. -/
theorem translate_eq (hwrite : (pteP ||| F.flags) &&& pteW = pteW)
    (huser : (pteP ||| F.flags) &&& pteU = pteU) (hvalid : ∀ info ∈ infos ++ [last], info.Valid)
    (hr : r ∈ F.roots) (h : Tables A F s) (hp : F.follow s.mem r path = some p)
    (hlen : path.length + infos.length = F.depth)
    (hskip : path = [] → ∀ info ∈ infos.head?, index addr info ∉ F.skip) :
    translate s.mem addr (infos ++ [last]) p =
      (F.entryAt s.mem p (infos.map (index addr)) (index addr last)).map fun e ↦
        ⟨baseof e, e &&& pteU ≠ 0#w, e &&& pteW ≠ 0#w⟩ := by
  induction infos generalizing p path with
  | nil =>
    have hlast : last.Valid := hvalid last List.mem_cons_self
    rw [List.nil_append, translate, mem_slot_index hlast s.mem p, Forest.entryAt]
    simp only [List.map_nil, Forest.follow, follow_nil, Option.bind_some, translate]
    split_ifs with habsent
    · rfl
    · simp
  | cons info rest ih =>
    obtain ⟨hinfo, hrest⟩ := List.forall_mem_cons.mp hvalid
    rw [List.length_cons] at hlen
    have hlt : path.length < F.depth := by omega
    have hlen' : (path ++ [index addr info]).length + rest.length = F.depth := by
      rw [List.length_append, List.length_singleton]
      omega
    have hskip' : path ++ [index addr info] = [] → ∀ info ∈ rest.head?, index addr info ∉ F.skip :=
      fun hnil ↦ absurd hnil (List.append_ne_nil_of_right_ne_nil _ (List.cons_ne_nil _ _))
    have hskipi : path = [] → index addr info ∉ F.skip := fun hnil ↦ hskip hnil info rfl
    rw [List.cons_append, translate, mem_slot_index hinfo s.mem p]
    rw [Forest.entryAt, List.map_cons, Forest.follow, follow_cons]
    split_ifs with habsent
    · rw [nextTable_of_absent habsent]
      rfl
    · have hflag := h.flagged r hr path p hlt hp (index addr info) hskipi habsent
      have hnext : nextTable F.flags (view s.mem p (index addr info)) =
          some (baseof (view s.mem p (index addr info))) := if_pos hflag
      have hfollow : F.follow s.mem r (path ++ [index addr info]) =
          some (baseof (view s.mem p (index addr info))) := (Forest.follow_concat hp).trans hnext
      have hwrite' := and_eq_of_and_eq hwrite hflag
      have huser' := and_eq_of_and_eq huser hflag
      have hw0 : (pteW : BitVec w) ≠ 0#w := flag_ne_zero (by decide) (by decide)
      have hu0 : (pteU : BitVec w) ≠ 0#w := flag_ne_zero (by decide) (by decide)
      rw [ih hrest hfollow hlen' hskip', hnext, Option.map_map, Option.bind_some, Forest.entryAt]
      apply congrFun
      apply congrArg
      funext e
      simp [hwrite', huser', hw0, hu0]

end Walk

end OsWorkbench.Am
