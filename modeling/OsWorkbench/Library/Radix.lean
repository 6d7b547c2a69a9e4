import Mathlib.Data.List.Induction
import Mathlib.Data.List.Nodup
import Mathlib.Data.Set.Insert
import Mathlib.Logic.Basic

namespace OsWorkbench.Library.Radix

variable {P I E : Type*} (next : E → Option P)

/-- The table reached from another along a path of indices. -/
def follow (m : P → I → E) : P → List I → Option P
  | t, [] => some t
  | t, i :: path => (next (m t i)).bind fun u ↦ follow m u path

/-- The tables of a set of roots, down to a depth. -/
def Reached (m : P → I → E) (roots : Set P) (depth : ℕ) (t : P) : Prop :=
  ∃ r ∈ roots, ∃ path : List I, path.length ≤ depth ∧ follow next m r path = some t

/-- Every table is reached in one way. -/
def Unshared (m : P → I → E) (roots : Set P) (depth : ℕ) : Prop :=
  ∀ r ∈ roots, ∀ r' ∈ roots, ∀ (path path' : List I) (t : P), path.length ≤ depth →
    path'.length ≤ depth → follow next m r path = some t → follow next m r' path' = some t →
    r = r' ∧ path = path'

variable {next} {m m' : P → I → E} {roots : Set P} {depth : ℕ} {r r₀ p q t : P} {i : I}
  {path path₀ rest : List I}

@[simp] theorem follow_nil : follow next m t [] = some t := rfl

theorem follow_cons :
    follow next m t (i :: path) = (next (m t i)).bind fun u ↦ follow next m u path := rfl

theorem follow_append :
    follow next m t (path ++ rest) = (follow next m t path).bind fun u ↦ follow next m u rest := by
  induction path generalizing t with
  | nil => rfl
  | cons i path ih => simp only [List.cons_append, follow_cons, ih, Option.bind_assoc]

theorem follow_concat :
    follow next m t (path ++ [i]) = (follow next m t path).bind fun u ↦ next (m u i) := by
  simp only [follow_append, follow_cons, follow_nil, Option.bind_fun_some]

/-- The last step of a path. -/
theorem exists_of_follow_concat (h : follow next m r (path ++ [i]) = some t) :
    ∃ u, follow next m r path = some u ∧ next (m u i) = some t :=
  Option.bind_eq_some_iff.mp (follow_concat ▸ h)

/-- A path sees no change of the tables that it does not leave. -/
theorem follow_congr (h : ∀ (path' : List I) (t : P), path'.length < path.length →
    follow next m r path' = some t → ∀ i, m' t i = m t i) :
    follow next m' r path = follow next m r path := by
  induction path using List.reverseRecOn with
  | nil => rfl
  | append_singleton path i ih =>
    have hlen : path.length < (path ++ [i]).length := by simp
    rw [follow_concat, follow_concat, ih fun path' t hp ↦ h path' t (hp.trans hlen)]
    cases ht : follow next m r path with
    | none => rfl
    | some t => exact congrArg next (h path t hlen ht i)

theorem Reached.root (hr : r ∈ roots) : Reached next m roots depth r := ⟨r, hr, [], depth.zero_le, rfl⟩

theorem Reached.follow (hr : r ∈ roots) (hlen : path.length ≤ depth)
    (h : follow next m r path = some t) : Reached next m roots depth t := ⟨r, hr, path, hlen, h⟩

theorem Reached.mono {roots' : Set P} (hroots : roots ⊆ roots') (h : Reached next m roots depth t) :
    Reached next m roots' depth t := by
  obtain ⟨r, hr, path, hlen, hpath⟩ := h
  exact ⟨r, hroots hr, path, hlen, hpath⟩

theorem follow_congr_of_reached (hr : r ∈ roots) (hlen : path.length ≤ depth)
    (h : ∀ t, Reached next m roots depth t → ∀ i, m' t i = m t i) :
    follow next m' r path = follow next m r path :=
  follow_congr fun _ t hlt ht ↦ h t (.follow hr (hlt.le.trans hlen) ht)

theorem reached_congr (h : ∀ t, Reached next m roots depth t → ∀ i, m' t i = m t i) :
    Reached next m' roots depth t ↔ Reached next m roots depth t := by
  apply exists_congr
  intro r
  apply and_congr_right
  intro hr
  apply exists_congr
  intro path
  apply and_congr_right
  intro hlen
  rw [follow_congr_of_reached hr hlen h]

theorem Unshared.congr (hu : Unshared next m roots depth)
    (h : ∀ t, Reached next m roots depth t → ∀ i, m' t i = m t i) :
    Unshared next m' roots depth := by
  intro r hr r' hr' path path' t hlen hlen' ht ht'
  rw [follow_congr_of_reached hr hlen h] at ht
  rw [follow_congr_of_reached hr' hlen' h] at ht'
  exact hu r hr r' hr' path path' t hlen hlen' ht ht'

theorem Unshared.mono {roots' : Set P} (hroots : roots' ⊆ roots) (hu : Unshared next m roots depth) :
    Unshared next m roots' depth := by
  intro r hr r' hr'
  exact hu r (hroots hr) r' (hroots hr')

section Leaf

/-- An entry of a table at the last level changes. -/
theorem follow_setLeaf (hu : Unshared next m roots depth) (hr₀ : r₀ ∈ roots)
    (hp : follow next m r₀ path₀ = some p) (hlast : path₀.length = depth)
    (hm : ∀ t, Reached next m roots depth t → ∀ j, t ≠ p ∨ j ≠ i → m' t j = m t j)
    (hr : r ∈ roots) (hlen : path.length ≤ depth) :
    follow next m' r path = follow next m r path := by
  apply follow_congr
  intro path' t hlt ht j
  apply hm t (.follow hr (hlt.le.trans hlen) ht)
  left
  intro htp
  subst htp
  have hpath := (hu r hr r₀ hr₀ path' path₀ t (hlt.le.trans hlen) hlast.le ht hp).2
  subst hpath
  omega

end Leaf

section Attach

variable (hu : Unshared next m roots depth) (hr₀ : r₀ ∈ roots)
  (hp : follow next m r₀ path₀ = some p) (hlast : path₀.length < depth)
  (hnone : next (m p i) = none) (hq : ¬Reached next m roots depth q)
  (hzero : ∀ j, next (m' q j) = none) (hnext : next (m' p i) = some q)
  (hm : ∀ t, Reached next m roots depth t → ∀ j, t ≠ p ∨ j ≠ i → m' t j = m t j)
include hu hr₀ hp hlast hnone hq hzero hnext hm

/-- A fresh table without further tables is hung below an empty entry. -/
theorem follow_attach (hr : r ∈ roots) (hlen : path.length ≤ depth) :
    follow next m' r path = some t ↔
      follow next m r path = some t ∨ r = r₀ ∧ path = path₀ ++ [i] ∧ t = q := by
  induction path using List.reverseRecOn generalizing t with
  | nil =>
    constructor
    · exact .inl
    · intro h
      rcases h with h | ⟨_, h, _⟩
      · exact h
      · exact absurd h.symm (List.append_ne_nil_of_right_ne_nil _ (List.cons_ne_nil _ _))
  | append_singleton path j ih =>
    have hlen' : path.length < depth := by rwa [List.length_append] at hlen
    have ih := fun {u} ↦ ih (t := u) hlen'.le
    constructor
    · intro h
      obtain ⟨u, hu', hnext'⟩ := exists_of_follow_concat h
      rcases ih.mp hu' with hfollow | ⟨_, _, rfl⟩
      · by_cases hslot : u = p ∧ j = i
        · obtain ⟨rfl, rfl⟩ := hslot
          obtain ⟨hroot, hpath⟩ := hu r hr r₀ hr₀ path path₀ u hlen'.le hlast.le hfollow hp
          rw [hnext, Option.some_inj] at hnext'
          exact .inr ⟨hroot, by rw [hpath], hnext'.symm⟩
        · rw [hm u (.follow hr hlen'.le hfollow) j (not_and_or.mp hslot)] at hnext'
          exact .inl (by rw [follow_concat, hfollow]; exact hnext')
      · rw [hzero j] at hnext'
        cases hnext'
    · intro h
      rcases h with h | ⟨rfl, hpath, rfl⟩
      · obtain ⟨u, hu', hnext'⟩ := exists_of_follow_concat h
        rw [follow_concat, ih.mpr (.inl hu')]
        by_cases hslot : u = p ∧ j = i
        · obtain ⟨rfl, rfl⟩ := hslot
          rw [hnone] at hnext'
          cases hnext'
        · exact (congrArg next (hm u (.follow hr hlen'.le hu') j (not_and_or.mp hslot))).trans hnext'
      · obtain ⟨rfl, hj⟩ := List.append_inj' hpath rfl
        obtain rfl := List.singleton_inj.mp hj
        rw [follow_concat, ih.mpr (.inl hp)]
        exact hnext

theorem reached_attach : Reached next m' roots depth t ↔ Reached next m roots depth t ∨ t = q := by
  constructor
  · intro h
    obtain ⟨r, hr, path, hlen, hpath⟩ := h
    rcases (follow_attach hu hr₀ hp hlast hnone hq hzero hnext hm hr hlen).mp hpath with h | ⟨_, _, h⟩
    · exact .inl ⟨r, hr, path, hlen, h⟩
    · exact .inr h
  · intro h
    rcases h with ⟨r, hr, path, hlen, hpath⟩ | rfl
    · exact ⟨r, hr, path, hlen,
        (follow_attach hu hr₀ hp hlast hnone hq hzero hnext hm hr hlen).mpr (.inl hpath)⟩
    · have hlen : (path₀ ++ [i]).length ≤ depth := by rwa [List.length_append]
      exact ⟨r₀, hr₀, path₀ ++ [i], hlen,
        (follow_attach hu hr₀ hp hlast hnone hq hzero hnext hm hr₀ hlen).mpr (.inr ⟨rfl, rfl, rfl⟩)⟩

theorem Unshared.attach : Unshared next m' roots depth := by
  intro r hr r' hr' path path' t hlen hlen' ht ht'
  have hfresh : ∀ {r path}, r ∈ roots → path.length ≤ depth → follow next m r path ≠ some q :=
    fun hr hlen h ↦ hq (.follow hr hlen h)
  rcases (follow_attach hu hr₀ hp hlast hnone hq hzero hnext hm hr hlen).mp ht with h | ⟨h₁, h₂, h₃⟩
  · rcases (follow_attach hu hr₀ hp hlast hnone hq hzero hnext hm hr' hlen').mp ht' with
      h' | ⟨_, _, h₃'⟩
    · exact hu r hr r' hr' path path' t hlen hlen' h h'
    · exact absurd (h₃' ▸ h) (hfresh hr hlen)
  · rcases (follow_attach hu hr₀ hp hlast hnone hq hzero hnext hm hr' hlen').mp ht' with
      h' | ⟨h₁', h₂', _⟩
    · exact absurd (h₃ ▸ h') (hfresh hr' hlen')
    · exact ⟨h₁.trans h₁'.symm, h₂.trans h₂'.symm⟩

end Attach

section Root

variable (hq : ∀ j, next (m q j) = none)
include hq

theorem follow_empty (h : follow next m q path = some t) : path = [] ∧ t = q := by
  cases path with
  | nil => exact ⟨rfl, (Option.some_inj.mp h).symm⟩
  | cons i path =>
    rw [follow_cons, hq i] at h
    cases h

/-- A fresh table without further tables becomes a root. -/
theorem reached_insert :
    Reached next m (insert q roots) depth t ↔ Reached next m roots depth t ∨ t = q := by
  constructor
  · intro h
    obtain ⟨r, hr, path, hlen, hpath⟩ := h
    rcases hr with rfl | hr
    · exact .inr (follow_empty hq hpath).2
    · exact .inl ⟨r, hr, path, hlen, hpath⟩
  · intro h
    rcases h with h | rfl
    · exact h.mono (Set.subset_insert q roots)
    · exact .root (Set.mem_insert t roots)

theorem Unshared.insert (hu : Unshared next m roots depth) (hfresh : ¬Reached next m roots depth q) :
    Unshared next m (insert q roots) depth := by
  intro r hr r' hr' path path' t hlen hlen' ht ht'
  rcases hr with rfl | hr
  · obtain ⟨rfl, rfl⟩ := follow_empty hq ht
    rcases hr' with rfl | hr'
    · exact ⟨rfl, (follow_empty hq ht').1.symm⟩
    · exact absurd (.follow hr' hlen' ht') hfresh
  · rcases hr' with rfl | hr'
    · obtain ⟨rfl, rfl⟩ := follow_empty hq ht'
      exact absurd (.follow hr hlen ht) hfresh
    · exact hu r hr r' hr' path path' t hlen hlen' ht ht'

end Root

section Subtree

variable (next m) (indices : List I)

/-- The tables below a table and itself, the deeper ones first. -/
def subtree : ℕ → P → List P
  | 0, t => [t]
  | d + 1, t => (indices.flatMap fun i ↦ ((next (m t i)).map (subtree d)).getD []) ++ [t]

variable {next m indices} {d : ℕ} {u : P}

theorem Unshared.child (hu : Unshared next m {t} (d + 1)) (hnext : next (m t i) = some u) :
    Unshared next m {u} d := by
  intro r hr r' hr' path path' v hlen hlen' hv hv'
  rw [Set.mem_singleton_iff.mp hr] at hv ⊢
  rw [Set.mem_singleton_iff.mp hr'] at hv' ⊢
  have hcons : ∀ {path}, follow next m u path = some v → follow next m t (i :: path) = some v := by
    intro path hpath
    rw [follow_cons, hnext]
    exact hpath
  have heq := (hu t rfl t rfl (i :: path) (i :: path') v (Nat.succ_le_succ hlen)
    (Nat.succ_le_succ hlen') (hcons hv) (hcons hv')).2
  exact ⟨rfl, (List.cons.inj heq).2⟩

theorem mem_subtree (hall : ∀ i, i ∈ indices) :
    u ∈ subtree next m indices d t ↔ ∃ path, path.length ≤ d ∧ follow next m t path = some u := by
  induction d generalizing t with
  | zero =>
    rw [subtree, List.mem_singleton]
    constructor
    · intro h
      exact ⟨[], le_rfl, congrArg some h.symm⟩
    · intro h
      obtain ⟨path, hlen, hpath⟩ := h
      obtain rfl := List.length_eq_zero_iff.mp (Nat.le_zero.mp hlen)
      exact (Option.some_inj.mp hpath).symm
  | succ d ih =>
    rw [subtree, List.mem_append, List.mem_singleton, List.mem_flatMap]
    constructor
    · intro h
      rcases h with ⟨i, _, hmem⟩ | rfl
      · cases hnext : next (m t i) with
        | none => simp [hnext] at hmem
        | some v =>
          rw [hnext] at hmem
          obtain ⟨path, hlen, hpath⟩ := ih.mp hmem
          refine ⟨i :: path, Nat.succ_le_succ hlen, ?_⟩
          rw [follow_cons, hnext]
          exact hpath
      · exact ⟨[], Nat.zero_le _, rfl⟩
    · intro h
      obtain ⟨path, hlen, hpath⟩ := h
      cases path with
      | nil => exact .inr (Option.some_inj.mp hpath).symm
      | cons i path =>
        rw [follow_cons] at hpath
        obtain ⟨v, hnext, hpath⟩ := Option.bind_eq_some_iff.mp hpath
        refine .inl ⟨i, hall i, ?_⟩
        rw [hnext]
        exact ih.mpr ⟨path, Nat.le_of_succ_le_succ hlen, hpath⟩

/-- No table is counted twice. -/
theorem nodup_subtree (hall : ∀ i, i ∈ indices) (hnodup : indices.Nodup)
    (hu : Unshared next m {t} d) : (subtree next m indices d t).Nodup := by
  induction d generalizing t with
  | zero => exact List.nodup_singleton t
  | succ d ih =>
    have hbelow : ∀ {i v}, v ∈ ((next (m t i)).map (subtree next m indices d)).getD [] →
        ∃ path, (i :: path).length ≤ d + 1 ∧ follow next m t (i :: path) = some v := by
      intro i v hv
      cases hnext : next (m t i) with
      | none => simp [hnext] at hv
      | some u =>
        rw [hnext] at hv
        obtain ⟨path, hlen, hpath⟩ := (mem_subtree hall).mp hv
        refine ⟨path, Nat.succ_le_succ hlen, ?_⟩
        rw [follow_cons, hnext]
        exact hpath
    rw [subtree, List.nodup_append, List.nodup_flatMap]
    refine ⟨⟨?_, ?_⟩, List.nodup_singleton t, ?_⟩
    · intro i _
      cases hnext : next (m t i) with
      | none => exact List.nodup_nil
      | some u => exact ih (hu.child hnext)
    · apply hnodup.imp
      intro i j hij v hi hj
      obtain ⟨path, hlen, hpath⟩ := hbelow hi
      obtain ⟨path', hlen', hpath'⟩ := hbelow hj
      have heq := (hu t rfl t rfl _ _ v hlen hlen' hpath hpath').2
      exact hij (List.cons.inj heq).1
    · intro v hv v' hv' heq
      obtain ⟨i, _, hv⟩ := List.mem_flatMap.mp hv
      obtain ⟨path, hlen, hpath⟩ := hbelow hv
      rw [heq, List.mem_singleton.mp hv'] at hpath
      have hnil := (hu t rfl t rfl _ [] t hlen (Nat.zero_le _) hpath rfl).2
      cases hnil

end Subtree

end OsWorkbench.Library.Radix
