import OsWorkbench.Library.ChildSibling

namespace OsWorkbench.Library.PointerTree

open ChildSibling

variable {A : Type*}

/-- The pointer `p` leads to cells with two links each that form the tree. -/
def Linked (null : A) (links : A → Option (A × A)) : A → BinaryTree A → Prop
  | p, .nil => p = null
  | p, .node a child sibling =>
    a = p ∧ p ≠ null ∧
      ∃ c s, links p = some (c, s) ∧ Linked null links c child ∧ Linked null links s sibling

variable {null p : A} {links links' : A → Option (A × A)} {t : BinaryTree A}

theorem Linked.congr (h : Linked null links p t) (hl : ∀ a ∈ nodes t, links' a = links a) :
    Linked null links' p t := by
  induction t generalizing p with
  | nil => exact h
  | node a child sibling ihc ihs =>
    obtain ⟨rfl, hp, c, s, hlink, hc, hs⟩ := h
    refine ⟨rfl, hp, c, s, (hl a List.mem_cons_self).trans hlink, ?_, ?_⟩
    · exact ihc hc fun b hb ↦ hl b (List.mem_cons_of_mem _ (List.mem_append_left _ hb))
    · exact ihs hs fun b hb ↦ hl b (List.mem_cons_of_mem _ (List.mem_append_right _ hb))

theorem Linked.ne_null (h : Linked null links p t) : ∀ a ∈ nodes t, a ≠ null := by
  induction t generalizing p with
  | nil => exact fun a ha ↦ absurd ha List.not_mem_nil
  | node a child sibling ihc ihs =>
    obtain ⟨rfl, hp, c, s, _, hc, hs⟩ := h
    intro b hb
    rcases List.mem_cons.mp hb with rfl | hb
    · exact hp
    · exact (List.mem_append.mp hb).elim (ihc hc b) (ihs hs b)

theorem Linked.isSome (h : Linked null links p t) : ∀ a ∈ nodes t, (links a).isSome := by
  induction t generalizing p with
  | nil => exact fun a ha ↦ absurd ha List.not_mem_nil
  | node a child sibling ihc ihs =>
    obtain ⟨rfl, _, c, s, hlink, hc, hs⟩ := h
    intro b hb
    rcases List.mem_cons.mp hb with rfl | hb
    · rw [hlink, Option.isSome_some]
    · exact (List.mem_append.mp hb).elim (ihc hc b) (ihs hs b)

/-- The cells determine the tree. -/
theorem Linked.unique {t' : BinaryTree A} (h : Linked null links p t) (h' : Linked null links p t') :
    t = t' := by
  induction t generalizing p t' with
  | nil =>
    cases t' with
    | nil => rfl
    | node a child sibling => exact absurd h h'.2.1
  | node a child sibling ihc ihs =>
    obtain ⟨rfl, hp, c, s, hlink, hc, hs⟩ := h
    cases t' with
    | nil => exact absurd h' hp
    | node b child' sibling' =>
      obtain ⟨rfl, _, c', s', hlink', hc', hs'⟩ := h'
      obtain ⟨rfl, rfl⟩ := Prod.mk.inj (Option.some.inj (hlink.symm.trans hlink'))
      rw [ihc hc hc', ihs hs hs']

theorem Linked.append {x last c : A} (h : Linked null links p t) (hd : (nodes t).Nodup)
    (hlast : (chain t).getLast? = some last) (hold : links last = some (c, null))
    (hnew : links' last = some (c, x)) (hx : x ≠ null) (hxl : links' x = some (null, null))
    (hframe : ∀ a ∈ nodes t, a ≠ last → links' a = links a) :
    Linked null links' p (ChildSibling.append x t) := by
  induction t generalizing p with
  | nil => cases hlast
  | node a child sibling _ ihs =>
    obtain ⟨rfl, hp, c', s, hlink, hc, hs⟩ := h
    rw [nodes, List.nodup_cons, List.nodup_append'] at hd
    obtain ⟨ha, _, hds, hdis⟩ := hd
    cases sibling with
    | nil =>
      obtain rfl : a = last := Option.some.inj hlast
      cases hs
      obtain ⟨rfl, _⟩ := Prod.mk.inj (Option.some.inj (hlink.symm.trans hold))
      refine ⟨rfl, hp, c', x, hnew, ?_, rfl, hx, null, null, hxl, rfl, rfl⟩
      refine hc.congr fun b hb ↦ hframe b (List.mem_cons_of_mem _ (List.mem_append_left _ hb)) ?_
      exact fun hba ↦ ha (hba ▸ List.mem_append_left _ hb)
    | node b child' sibling' =>
      have hlast' : (chain (.node b child' sibling')).getLast? = some last := by
        rwa [chain, chain, List.getLast?_cons_cons] at hlast
      have hmem : last ∈ nodes (BinaryTree.node b child' sibling') :=
        mem_nodes_of_mem_chain (List.mem_of_getLast? hlast')
      have hne : a ≠ last := fun he ↦ ha (he ▸ List.mem_append_right _ hmem)
      refine ⟨rfl, hp, c', s, (hframe a List.mem_cons_self hne).trans hlink, ?_, ?_⟩
      · refine hc.congr fun d hd ↦ hframe d (List.mem_cons_of_mem _ (List.mem_append_left _ hd)) ?_
        exact fun hdl ↦ hdis hd (hdl ▸ hmem)
      · refine ihs hs hds hlast' fun d hd ↦ ?_
        exact hframe d (List.mem_cons_of_mem _ (List.mem_append_right _ hd))

/-- What lies below one cell can be exchanged without touching the rest. -/
theorem Linked.adopt [DecidableEq A] {x r : A} (h : Linked null links p t)
    (hd : (nodes t).Nodup) (hr : r ∈ nodes t) :
    ∃ c s child, links r = some (c, s) ∧ Linked null links c child ∧
      (nodes child).Nodup ∧ r ∉ nodes child ∧ nodes child ⊆ nodes t ∧
      ∀ links', (∀ a ∈ nodes t, a ≠ r → a ∉ nodes child → links' a = links a) →
        (∃ c', links' r = some (c', s) ∧ Linked null links' c' (ChildSibling.append x child)) →
        Linked null links' p (ChildSibling.adopt r x t) := by
  induction t generalizing p with
  | nil => cases hr
  | node a child sibling ihc ihs =>
    obtain ⟨rfl, hp, c, s, hlink, hc, hs⟩ := h
    rw [nodes, List.nodup_cons, List.nodup_append'] at hd
    obtain ⟨ha, hdc, hds, hdis⟩ := hd
    have hsubc : nodes child ⊆ nodes (.node a child sibling) := fun b hb ↦
      List.mem_cons_of_mem _ (List.mem_append_left _ hb)
    have hsubs : nodes sibling ⊆ nodes (.node a child sibling) := fun b hb ↦
      List.mem_cons_of_mem _ (List.mem_append_right _ hb)
    rw [ChildSibling.adopt]
    rcases List.mem_cons.mp hr with rfl | hr
    · refine ⟨c, s, child, hlink, hc, hdc, fun hm ↦ ha (List.mem_append_left _ hm), hsubc, ?_⟩
      rintro links' hframe ⟨c', hlink', hc'⟩
      rw [if_pos rfl]
      refine ⟨rfl, hp, c', s, hlink', hc', hs.congr fun b hb ↦ hframe b (hsubs hb) ?_ ?_⟩
      · exact fun hbr ↦ ha (hbr ▸ List.mem_append_right _ hb)
      · exact fun hbc ↦ hdis hbc hb
    · have har : a ≠ r := fun he ↦ ha (he ▸ hr)
      rw [if_neg har]
      rcases List.mem_append.mp hr with hrc | hrs
      · have hrs : r ∉ nodes sibling := fun hm ↦ hdis hrc hm
        obtain ⟨cr, sr, below, hlr, hbelow, hdb, hrb, hsub, hrest⟩ := ihc hc hdc hrc
        refine ⟨cr, sr, below, hlr, hbelow, hdb, hrb, fun b hb ↦ hsubc (hsub hb), ?_⟩
        intro links' hframe hlink'
        rw [adopt_of_notMem hrs]
        refine ⟨rfl, hp, c, s, (hframe a List.mem_cons_self har ?_).trans hlink, ?_, ?_⟩
        · exact fun hab ↦ ha (List.mem_append_left _ (hsub hab))
        · exact hrest links' (fun b hb ↦ hframe b (hsubc hb)) hlink'
        · refine hs.congr fun b hb ↦ hframe b (hsubs hb) (fun hbr ↦ hrs (hbr ▸ hb)) ?_
          exact fun hbb ↦ hdis (hsub hbb) hb
      · have hrc : r ∉ nodes child := fun hm ↦ hdis hm hrs
        obtain ⟨cr, sr, below, hlr, hbelow, hdb, hrb, hsub, hrest⟩ := ihs hs hds hrs
        refine ⟨cr, sr, below, hlr, hbelow, hdb, hrb, fun b hb ↦ hsubs (hsub hb), ?_⟩
        intro links' hframe hlink'
        rw [adopt_of_notMem hrc]
        refine ⟨rfl, hp, c, s, (hframe a List.mem_cons_self har ?_).trans hlink, ?_, ?_⟩
        · exact fun hab ↦ ha (List.mem_append_right _ (hsub hab))
        · refine hc.congr fun b hb ↦ hframe b (hsubc hb) (fun hbr ↦ hrc (hbr ▸ hb)) ?_
          exact fun hbb ↦ hdis hb (hsub hbb)
        · exact hrest links' (fun b hb ↦ hframe b (hsubs hb)) hlink'

end OsWorkbench.Library.PointerTree
