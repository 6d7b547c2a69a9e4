import Mathlib.Data.List.Chain
import Mathlib.Data.List.Nodup
import Mathlib.Logic.Function.Basic

namespace OsWorkbench.Library.CircularList

/-- `struct list_head` -/
structure Link (A : Type*) where
  next : A
  prev : A
  deriving DecidableEq

variable {A : Type*}

abbrev Links (A : Type*) := A → Option (Link A)

def nextOf (links : Links A) (a : A) : Option A := (links a).map Link.next
def prevOf (links : Links A) (a : A) : Option A := (links a).map Link.prev

theorem isSome_iff_next {links : Links A} {a : A} :
    (links a).isSome ↔ (nextOf links a).isSome := by
  rw [nextOf, Option.isSome_map]

theorem isSome_eq {links links' : Links A} {a : A} (h : (links a).isSome)
    (hn : nextOf links' = nextOf links) : (links' a).isSome := by
  rwa [isSome_iff_next, hn, ← isSome_iff_next]

section Operations

variable [DecidableEq A]

/-- `none` means that there is no `list_head` at `a`. -/
def setNext (links : Links A) (a b : A) : Option (Links A) :=
  (links a).map fun l ↦ Function.update links a (some { l with next := b })

def setPrev (links : Links A) (a b : A) : Option (Links A) :=
  (links a).map fun l ↦ Function.update links a (some { l with prev := b })

/-- `__list_add` -/
def listAdd (new prev next : A) (links : Links A) : Option (Links A) := do
  let links ← setPrev links next new
  let links ← setNext links new next
  let links ← setPrev links new prev
  setNext links prev new

def listAddTail (new head : A) (links : Links A) : Option (Links A) := do
  listAdd new (← links head).prev head links

/-- `__list_del` -/
def listDelBetween (prev next : A) (links : Links A) : Option (Links A) := do
  let links ← setPrev links next prev
  setNext links prev next

def listDel (null entry : A) (links : Links A) : Option (Links A) := do
  let e ← links entry
  let links ← listDelBetween e.prev e.next links
  let links ← setNext links entry null
  setPrev links entry null

variable {links : Links A} {a b : A}

theorem setNext_spec (h : (links a).isSome) (b : A) : ∃ links', setNext links a b = some links' ∧
    nextOf links' = Function.update (nextOf links) a (some b) ∧ prevOf links' = prevOf links := by
  obtain ⟨l, hl⟩ := Option.isSome_iff_exists.mp h
  refine ⟨_, by rw [setNext, hl, Option.map_some], funext fun x ↦ ?_, funext fun x ↦ ?_⟩
  · by_cases hx : x = a
    · simp [nextOf, hx]
    · simp [nextOf, hx]
  · by_cases hx : x = a
    · simp [prevOf, hx, hl]
    · simp [prevOf, hx]

theorem setPrev_spec (h : (links a).isSome) (b : A) : ∃ links', setPrev links a b = some links' ∧
    nextOf links' = nextOf links ∧ prevOf links' = Function.update (prevOf links) a (some b) := by
  obtain ⟨l, hl⟩ := Option.isSome_iff_exists.mp h
  refine ⟨_, by rw [setPrev, hl, Option.map_some], funext fun x ↦ ?_, funext fun x ↦ ?_⟩
  · by_cases hx : x = a
    · simp [nextOf, hx, hl]
    · simp [nextOf, hx]
  · by_cases hx : x = a
    · simp [prevOf, hx]
    · simp [prevOf, hx]

theorem isSome_update (h : (links b).isSome) {x : A} {links' : Links A}
    (hn : nextOf links' = Function.update (nextOf links) a (some x)) : (links' b).isSome := by
  rw [isSome_iff_next] at h ⊢
  rw [hn, Function.update_apply]
  split
  · rfl
  · exact h

theorem isSome_update_iff {x y u v : A} {links' : Links A} (hx : (links x).isSome)
    (hy : (links y).isSome)
    (hn : nextOf links' = Function.update (Function.update (nextOf links) x (some u)) y (some v)) :
    (links' b).isSome ↔ (links b).isSome := by
  rw [isSome_iff_next, hn, Function.update_apply, Function.update_apply]
  split
  · rename_i he
    simp [he, hy]
  · split
    · rename_i he
      simp [he, hx]
    · rw [← isSome_iff_next]

theorem listAdd_spec {new prev next : A} (hnew : (links new).isSome) (hprev : (links prev).isSome)
    (hnext : (links next).isSome) :
    ∃ links', listAdd new prev next links = some links' ∧
      nextOf links' =
        Function.update (Function.update (nextOf links) new (some next)) prev (some new) ∧
      prevOf links' =
        Function.update (Function.update (prevOf links) next (some new)) new (some prev) := by
  obtain ⟨l₁, h₁, hn₁, hp₁⟩ := setPrev_spec hnext new
  obtain ⟨l₂, h₂, hn₂, hp₂⟩ := setNext_spec (isSome_eq hnew hn₁) next
  obtain ⟨l₃, h₃, hn₃, hp₃⟩ := setPrev_spec (isSome_update (isSome_eq hnew hn₁) hn₂) prev
  obtain ⟨l₄, h₄, hn₄, hp₄⟩ :=
    setNext_spec (isSome_eq (isSome_update (isSome_eq hprev hn₁) hn₂) hn₃) new
  refine ⟨l₄, ?_, ?_, ?_⟩
  · simp only [listAdd, h₁, h₂, h₃, h₄, Option.bind_eq_bind, Option.bind_some]
  · rw [hn₄, hn₃, hn₂, hn₁]
  · rw [hp₄, hp₃, hp₂, hp₁]

theorem listDel_spec (null : A) {entry : A} {e : Link A} (he : links entry = some e)
    (hprev : (links e.prev).isSome) (hnext : (links e.next).isSome) :
    ∃ links', listDel null entry links = some links' ∧
      nextOf links' =
        Function.update (Function.update (nextOf links) e.prev (some e.next)) entry (some null) ∧
      prevOf links' =
        Function.update (Function.update (prevOf links) e.next (some e.prev)) entry (some null) := by
  have hentry : (links entry).isSome := Option.isSome_of_eq_some he
  obtain ⟨l₁, h₁, hn₁, hp₁⟩ := setPrev_spec hnext e.prev
  obtain ⟨l₂, h₂, hn₂, hp₂⟩ := setNext_spec (isSome_eq hprev hn₁) e.next
  obtain ⟨l₃, h₃, hn₃, hp₃⟩ := setNext_spec (isSome_update (isSome_eq hentry hn₁) hn₂) null
  obtain ⟨l₄, h₄, hn₄, hp₄⟩ :=
    setPrev_spec (isSome_update (isSome_update (isSome_eq hentry hn₁) hn₂) hn₃) null
  refine ⟨l₄, ?_, ?_, ?_⟩
  · simp only [listDel, listDelBetween, he, h₁, h₂, h₃, h₄, Option.bind_eq_bind, Option.bind_some]
  · rw [hn₄, hn₃, hn₂, hn₁]
  · rw [hp₄, hp₃, hp₂, hp₁]

end Operations

/-- `a` and `b` point to each other. -/
def Adj (links : Links A) (a b : A) : Prop := nextOf links a = some b ∧ prevOf links b = some a

/-- The nodes lie on a circle through the head, linked in both directions. -/
structure Ring (links : Links A) (head : A) (nodes : List A) : Prop where
  nodup : (head :: nodes).Nodup
  linked : List.IsChain (Adj links) (head :: nodes ++ [head])

variable {links links' : Links A} {head : A} {nodes : List A}

theorem chain_congr {as : List A} (h : List.IsChain (Adj links) as)
    (hn : ∀ a ∈ as.dropLast, nextOf links' a = nextOf links a)
    (hp : ∀ a ∈ as.tail, prevOf links' a = prevOf links a) : List.IsChain (Adj links') as := by
  induction as with
  | nil => exact List.isChain_nil
  | cons a as ih =>
    cases as with
    | nil => exact List.isChain_singleton a
    | cons b as =>
      obtain ⟨hab, hrest⟩ := List.isChain_cons_cons.mp h
      refine List.isChain_cons_cons.mpr ⟨⟨?_, ?_⟩, ih hrest (fun c hc ↦ ?_) fun c hc ↦ ?_⟩
      · exact (hn a List.mem_cons_self).trans hab.1
      · exact (hp b List.mem_cons_self).trans hab.2
      · exact hn c (List.mem_cons_of_mem _ hc)
      · exact hp c (List.mem_cons_of_mem _ hc)

theorem Ring.isSome (h : Ring links head nodes) : ∀ a ∈ head :: nodes, (links a).isSome := by
  intro a ha
  obtain ⟨pre, post, hsplit⟩ := List.append_of_mem ha
  have hlinked := h.linked
  rw [hsplit, List.append_assoc] at hlinked
  rw [isSome_iff_next]
  cases post with
  | nil => exact Option.isSome_of_eq_some (List.isChain_append_cons_cons.mp hlinked).2.1.1
  | cons b post => exact Option.isSome_of_eq_some (List.isChain_append_cons_cons.mp hlinked).2.1.1

theorem Ring.congr (h : Ring links head nodes) (hl : ∀ a ∈ head :: nodes, links' a = links a) :
    Ring links' head nodes := by
  have hmem : ∀ a ∈ head :: nodes ++ [head], links' a = links a := by
    intro a ha
    rcases List.mem_append.mp ha with ha | ha
    · exact hl a ha
    · exact hl a (List.mem_singleton.mp ha ▸ List.mem_cons_self)
  refine ⟨h.nodup, chain_congr h.linked (fun a ha ↦ ?_) fun a ha ↦ ?_⟩
  · rw [nextOf, nextOf, hmem a (List.dropLast_subset _ ha)]
  · rw [prevOf, prevOf, hmem a (List.mem_of_mem_tail ha)]

theorem Ring.init (h : links head = some ⟨head, head⟩) : Ring links head [] := by
  refine ⟨List.nodup_singleton head, List.isChain_pair.mpr ?_⟩
  simp [Adj, nextOf, prevOf, h]

/-- `list_empty` -/
theorem Ring.next_eq_head_iff (h : Ring links head nodes) :
    nextOf links head = some head ↔ nodes = [] := by
  cases nodes with
  | nil => exact ⟨fun _ ↦ rfl, fun _ ↦ (List.isChain_pair.mp h.linked).1⟩
  | cons a nodes =>
    have hnext : nextOf links head = some a := (List.isChain_cons_cons.mp h.linked).1.1
    refine ⟨fun hh ↦ ?_, fun hh ↦ by cases hh⟩
    have hne : head ≠ a := fun he ↦ (List.nodup_cons.mp h.nodup).1 (he ▸ List.mem_cons_self)
    exact absurd (Option.some.inj (hh.symm.trans hnext)) hne

section

variable [DecidableEq A]

theorem Ring.addTail {new : A} (h : Ring links head nodes) (hnew : (links new).isSome)
    (hfresh : new ∉ head :: nodes) :
    ∃ links', listAddTail new head links = some links' ∧ Ring links' head (nodes ++ [new]) ∧
      ∀ a, (links' a).isSome ↔ (links a).isSome := by
  obtain ⟨init, last, hsplit⟩ : ∃ init last, head :: nodes = init ++ [last] :=
    ⟨_, _, (List.dropLast_append_getLast (List.cons_ne_nil head nodes)).symm⟩
  have hlast : last ∈ head :: nodes := hsplit ▸ List.mem_append_right _ List.mem_cons_self
  have hlinked := h.linked
  rw [hsplit, List.append_assoc] at hlinked
  obtain ⟨hinit, hclose, _⟩ := List.isChain_append_cons_cons.mp hlinked
  obtain ⟨lh, hlh⟩ := Option.isSome_iff_exists.mp (h.isSome head List.mem_cons_self)
  have hprev : lh.prev = last := by
    have hp := hclose.2
    rwa [prevOf, hlh, Option.map_some, Option.some.injEq] at hp
  obtain ⟨links', hadd, hn, hp⟩ :=
    listAdd_spec hnew (h.isSome last hlast) (h.isSome head List.mem_cons_self)
  have hnl : new ≠ last := fun he ↦ hfresh (he ▸ hlast)
  have hnh : new ≠ head := fun he ↦ hfresh (he ▸ List.mem_cons_self)
  have hnodup := h.nodup
  rw [hsplit, List.nodup_append'] at hnodup
  refine ⟨links', ?_, ⟨?_, ?_⟩, fun a ↦ ?_⟩
  · simp only [listAddTail, hlh, hprev, Option.bind_eq_bind, Option.bind_some]
    exact hadd
  · rw [← List.cons_append, List.nodup_append']
    refine ⟨h.nodup, List.nodup_singleton new, fun a ha hm ↦ ?_⟩
    exact hfresh (List.mem_singleton.mp hm ▸ ha)
  · have hchain : List.IsChain (Adj links') (init ++ [last]) := by
      refine chain_congr hinit (fun a ha ↦ ?_) fun a ha ↦ ?_
      · rw [List.dropLast_concat] at ha
        have hal : a ≠ last := fun he ↦ hnodup.2.2 ha (he ▸ List.mem_cons_self)
        have han : a ≠ new := fun he ↦ hfresh (hsplit ▸ List.mem_append_left _ (he ▸ ha))
        rw [hn, Function.update_of_ne hal, Function.update_of_ne han]
      · rw [← hsplit, List.tail_cons] at ha
        have hah : a ≠ head := fun he ↦ (List.nodup_cons.mp h.nodup).1 (he ▸ ha)
        have han : a ≠ new := fun he ↦ hfresh (List.mem_cons_of_mem _ (he ▸ ha))
        rw [hp, Function.update_of_ne han, Function.update_of_ne hah]
    have hwhole : head :: (nodes ++ [new]) ++ [head] = init ++ last :: new :: [head] := by
      rw [← List.cons_append, hsplit]
      simp only [List.append_assoc, List.cons_append, List.nil_append]
    rw [hwhole]
    refine List.isChain_append_cons_cons.mpr ⟨hchain, ⟨?_, ?_⟩, List.isChain_pair.mpr ⟨?_, ?_⟩⟩
    · rw [hn, Function.update_self]
    · rw [hp, Function.update_self]
    · rw [hn, Function.update_of_ne hnl, Function.update_self]
    · rw [hp, Function.update_of_ne hnh.symm, Function.update_self]
  · exact isSome_update_iff hnew (h.isSome last hlast) hn

theorem Ring.delFirst {a : A} (null : A) (h : Ring links head (a :: nodes)) :
    nextOf links head = some a ∧
    ∃ links', listDel null a links = some links' ∧ Ring links' head nodes ∧
      ∀ b, (links' b).isSome ↔ (links b).isSome := by
  obtain ⟨hhead, hnodup⟩ := List.nodup_cons.mp h.nodup
  obtain ⟨ha, hnodes⟩ := List.nodup_cons.mp hnodup
  have hha : head ≠ a := fun he ↦ hhead (he ▸ List.mem_cons_self)
  have hhn : head ∉ nodes := fun hm ↦ hhead (List.mem_cons_of_mem _ hm)
  obtain ⟨hfirst, hrest⟩ := List.isChain_cons_cons.mp h.linked
  obtain ⟨e, he⟩ := Option.isSome_iff_exists.mp (h.isSome a (List.mem_cons_of_mem _ List.mem_cons_self))
  have hprev : e.prev = head := by
    have hp := hfirst.2
    rwa [prevOf, he, Option.map_some, Option.some.injEq] at hp
  have hheads := h.isSome head List.mem_cons_self
  have has := h.isSome a (List.mem_cons_of_mem _ List.mem_cons_self)
  refine ⟨hfirst.1, ?_⟩
  cases nodes with
  | nil =>
    have hnext : e.next = head := by
      have hn := (List.isChain_pair.mp hrest).1
      rwa [nextOf, he, Option.map_some, Option.some.injEq] at hn
    obtain ⟨links', hdel, hn, hp⟩ := listDel_spec null he (hprev ▸ hheads) (hnext ▸ hheads)
    rw [hprev, hnext] at hn hp
    refine ⟨links', hdel, ⟨List.nodup_singleton head, List.isChain_pair.mpr ⟨?_, ?_⟩⟩, fun b ↦ ?_⟩
    · rw [hn, Function.update_of_ne hha, Function.update_self]
    · rw [hp, Function.update_of_ne hha, Function.update_self]
    · exact isSome_update_iff hheads has hn
  | cons c nodes =>
    obtain ⟨hac, hchain⟩ := List.isChain_cons_cons.mp hrest
    have hnext : e.next = c := by
      have hn := hac.1
      rwa [nextOf, he, Option.map_some, Option.some.injEq] at hn
    have hcs := h.isSome c (List.mem_cons_of_mem _ (List.mem_cons_of_mem _ List.mem_cons_self))
    have hca : c ≠ a := fun hc ↦ ha (hc ▸ List.mem_cons_self)
    obtain ⟨links', hdel, hn, hp⟩ := listDel_spec null he (hprev ▸ hheads) (hnext ▸ hcs)
    rw [hprev, hnext] at hn hp
    refine ⟨links', hdel, ⟨List.nodup_cons.mpr ⟨hhn, hnodes⟩,
      List.isChain_cons_cons.mpr ⟨⟨?_, ?_⟩, chain_congr hchain (fun b hb ↦ ?_) fun b hb ↦ ?_⟩⟩,
      fun b ↦ isSome_update_iff hheads has hn⟩
    · rw [hn, Function.update_of_ne hha, Function.update_self]
    · rw [hp, Function.update_of_ne hca, Function.update_self]
    · rw [show c :: nodes.append [head] = (c :: nodes) ++ [head] from rfl,
        List.dropLast_concat] at hb
      have hba : b ≠ a := fun hh ↦ ha (hh ▸ hb)
      have hbh : b ≠ head := fun hh ↦ hhn (hh ▸ hb)
      rw [hn, Function.update_of_ne hba, Function.update_of_ne hbh]
    · rw [List.tail_cons] at hb
      have hbc : b ≠ c := by
        rcases List.mem_append.mp hb with hb | hb
        · exact fun hh ↦ (List.nodup_cons.mp hnodes).1 (hh ▸ hb)
        · exact fun hh ↦ hhn (List.mem_singleton.mp hb ▸ hh ▸ List.mem_cons_self)
      have hba : b ≠ a := by
        rcases List.mem_append.mp hb with hb | hb
        · exact fun hh ↦ ha (List.mem_cons_of_mem _ (hh ▸ hb))
        · exact fun hh ↦ hha ((List.mem_singleton.mp hb).symm.trans hh)
      rw [hp, Function.update_of_ne hba, Function.update_of_ne hbc]

end

end OsWorkbench.Library.CircularList
