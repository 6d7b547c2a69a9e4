import OsWorkbench.Pstree.Model
import OsWorkbench.Library.PointerTree
import Mathlib.Data.List.Perm.Basic
import Mathlib.Data.Set.Finite.List

namespace OsWorkbench.Pstree

open Library ChildSibling PointerTree

structure Info where
  pid : ℤ
  name : List UInt8
  ppid : ℤ
  deriving DecidableEq

def Proc.info (proc : Proc) : Info := ⟨proc.pid, CString.text proc.name, proc.ppid⟩

namespace Heap

variable (h : Heap)

def info (p : Addr) : Option Info := (h p).map Proc.info

def pid (p : Addr) : Option ℤ := (h.info p).map Info.pid

def links (p : Addr) : Option (Addr × Addr) := (h p).map fun proc ↦ (proc.child, proc.sibling)

/-- The blocks at `root` and below form the tree of these processes. -/
def IsTree (root : Addr) (t : BinaryTree Info) : Prop :=
  ∃ cells, Linked null h.links root cells ∧ (nodes cells).Nodup ∧ cells.map h.info = t.map some

variable {h} {p q : Addr} {proc new : Proc}

theorem of_links {c s : Addr} (hl : h.links p = some (c, s)) :
    ∃ proc, h p = some proc ∧ proc.child = c ∧ proc.sibling = s := by
  obtain ⟨proc, hproc, hcs⟩ := Option.map_eq_some_iff.mp hl
  obtain ⟨hc, hs⟩ := Prod.mk.inj hcs
  exact ⟨proc, hproc, hc, hs⟩

theorem links_set_self : (h.set p new).links p = some (new.child, new.sibling) := by
  rw [links, set, Function.update_self, Option.map_some]

theorem links_set_of_ne (hq : q ≠ p) : (h.set p new).links q = h.links q := by
  rw [links, links, set, Function.update_of_ne hq]

theorem info_set_self : (h.set p new).info p = some new.info := by
  rw [info, set, Function.update_self, Option.map_some]

theorem info_set_of_ne (hq : q ≠ p) : (h.set p new).info q = h.info q := by
  rw [info, info, set, Function.update_of_ne hq]

theorem info_set (hp : h p = some proc) (hnew : new.info = proc.info) :
    (h.set p new).info = h.info := by
  funext q
  by_cases hq : q = p
  · rw [hq, info_set_self, info, hp, Option.map_some, hnew]
  · rw [info_set_of_ne hq]

end Heap

section Search

variable {h : Heap} {fuel : ℕ} {p : Addr} {t : BinaryTree Addr}

theorem findProc_node {proc : Proc} {pid : ℤ} (hp : p ≠ null) (hproc : h p = some proc) :
    findProc h (fuel + 1) p pid =
      if proc.pid = pid then .ok p
      else findProc h fuel proc.sibling pid >>= fun q ↦
        if q ≠ null then .ok q else findProc h fuel proc.child pid := by
  simp only [findProc, if_neg hp, Heap.get, hproc]
  rfl

theorem findProc_spec (pid : ℤ) (hl : Linked null h.links p t) (hf : (nodes t).length < fuel) :
    ∃ q, findProc h fuel p pid = .ok q ∧
      (q ∈ nodes t ∧ h.pid q = some pid ∨ q = null ∧ ∀ a ∈ nodes t, h.pid a ≠ some pid) := by
  induction t generalizing p fuel with
  | nil =>
    obtain ⟨fuel, rfl⟩ := Nat.exists_eq_add_one_of_ne_zero (Nat.ne_zero_of_lt hf)
    refine ⟨null, ?_, Or.inr ⟨rfl, fun a ha ↦ absurd ha List.not_mem_nil⟩⟩
    simp only [findProc, if_pos (show p = null from hl)]
    rfl
  | node a child sibling ihc ihs =>
    obtain ⟨rfl, hp, c, s, hlink, hc, hs⟩ := hl
    obtain ⟨fuel, rfl⟩ := Nat.exists_eq_add_one_of_ne_zero (Nat.ne_zero_of_lt hf)
    obtain ⟨proc, hproc, rfl, rfl⟩ := Heap.of_links hlink
    have hpid : h.pid a = some proc.pid := by
      rw [Heap.pid, Heap.info, hproc]
      rfl
    rw [nodes, List.length_cons, List.length_append] at hf
    have hfs : (nodes sibling).length < fuel := by omega
    have hfc : (nodes child).length < fuel := by omega
    obtain ⟨q, hq, hqcase⟩ := ihs hs hfs
    obtain ⟨r, hr, hrcase⟩ := ihc hc hfc
    rw [findProc_node hp hproc, hq, hr, nodes]
    by_cases hfound : proc.pid = pid
    · refine ⟨a, if_pos hfound, Or.inl ⟨List.mem_cons_self, hpid.trans (congrArg some hfound)⟩⟩
    · rw [if_neg hfound]
      have hself : h.pid a ≠ some pid := fun he ↦ hfound (Option.some.inj (hpid.symm.trans he))
      by_cases hqn : q = null
      · have hnone := (hqcase.resolve_left fun hm ↦ hs.ne_null q hm.1 hqn).2
        refine ⟨r, if_neg fun hne ↦ hne hqn, hrcase.imp (fun hm ↦ ?_) fun hm ↦ ⟨hm.1, fun b hb ↦ ?_⟩⟩
        · exact ⟨List.mem_cons_of_mem _ (List.mem_append_left _ hm.1), hm.2⟩
        · rcases List.mem_cons.mp hb with rfl | hb
          · exact hself
          · exact (List.mem_append.mp hb).elim (hm.2 b) (hnone b)
      · have hm := hqcase.resolve_right fun hm ↦ hqn hm.1
        exact ⟨q, if_pos hqn, Or.inl ⟨List.mem_cons_of_mem _ (List.mem_append_right _ hm.1), hm.2⟩⟩

theorem lastOne_spec (hl : Linked null h.links p t) (hp : p ≠ null)
    (hf : (nodes t).length < fuel) :
    ∃ last c, lastOne h fuel p = .ok last ∧ (chain t).getLast? = some last ∧
      h.links last = some (c, null) := by
  induction t generalizing p fuel with
  | nil => exact absurd hl hp
  | node a child sibling _ ihs =>
    obtain ⟨rfl, hp, c, s, hlink, _, hs⟩ := hl
    obtain ⟨fuel, rfl⟩ := Nat.exists_eq_add_one_of_ne_zero (Nat.ne_zero_of_lt hf)
    obtain ⟨proc, hproc, rfl, rfl⟩ := Heap.of_links hlink
    rw [nodes, List.length_cons, List.length_append] at hf
    simp only [lastOne, Heap.get, hproc]
    by_cases hnull : proc.sibling = null
    · have hnil : sibling = .nil := by
        cases sibling with
        | nil => rfl
        | node b child' sibling' => exact absurd hnull hs.2.1
      subst hnil
      refine ⟨a, proc.child, ?_, rfl, hnull ▸ hlink⟩
      simp only [Except.bind, bind, hnull, if_true]
      rfl
    · have hfs : (nodes sibling).length < fuel := by omega
      obtain ⟨last, c, hlast, hchain, hlinks⟩ := ihs hs hnull hfs
      refine ⟨last, c, ?_, ?_, hlinks⟩
      · simp only [Except.bind, bind, if_neg hnull]
        exact hlast
      · cases sibling with
        | nil => exact absurd hs hnull
        | node b child' sibling' => rwa [chain, chain, List.getLast?_cons_cons]

end Search

section Insert

variable {h : Heap} {fuel : ℕ} {root x : Addr} {cells : BinaryTree Addr}

theorem insert_eq {new parent : Proc} {r : Addr} (hx : h x = some new)
    (hr : findProc h fuel root new.ppid = .ok r) (hr0 : r ≠ null) (hparent : h r = some parent) :
    insert fuel root x h =
      if parent.child = null then .ok (h.set r { parent with child := x })
      else lastOne h fuel parent.child >>= fun last ↦ h.get last >>= fun l ↦
        .ok (h.set last { l with sibling := x }) := by
  simp only [insert, Heap.get, hx, hparent, Except.bind, bind, hr, if_neg hr0]
  rfl

/-- A new leaf is adopted by the node whose pid it names. -/
theorem insert_spec {new : Proc} (hl : Linked null h.links root cells) (hd : (nodes cells).Nodup)
    (hfuel : (nodes cells).length < fuel) (hx : h x = some new) (hx0 : x ≠ null)
    (hleaf : h.links x = some (null, null)) (hxc : x ∉ nodes cells)
    (hparent : ∃ a ∈ nodes cells, h.pid a = some new.ppid) :
    ∃ r h', r ∈ nodes cells ∧ h.pid r = some new.ppid ∧ insert fuel root x h = .ok h' ∧
      h'.info = h.info ∧ Linked null h'.links root (adopt r x cells) := by
  obtain ⟨r, hr, hcase⟩ := findProc_spec new.ppid hl hfuel
  obtain ⟨hrc, hpid⟩ : r ∈ nodes cells ∧ h.pid r = some new.ppid := by
    refine hcase.resolve_right fun hnone ↦ ?_
    obtain ⟨a, ha, hpa⟩ := hparent
    exact hnone.2 a ha hpa
  obtain ⟨c, s, child, hlinks, hchild, hdc, hrchild, hsub, hadopt⟩ := hl.adopt (x := x) hd hrc
  obtain ⟨parent, hp, rfl, rfl⟩ := Heap.of_links hlinks
  have heq := insert_eq hx hr (hl.ne_null r hrc) hp
  have hxr : x ≠ r := fun he ↦ hxc (he ▸ hrc)
  by_cases hnull : parent.child = null
  · rw [if_pos hnull] at heq
    refine ⟨r, _, hrc, hpid, heq, Heap.info_set hp rfl, hadopt _ ?_ ⟨x, Heap.links_set_self, ?_⟩⟩
    · exact fun a _ har _ ↦ Heap.links_set_of_ne har
    · have hnil : child = .nil := by
        cases child with
        | nil => rfl
        | node b child' sibling' => exact absurd hnull hchild.2.1
      rw [hnil]
      exact ⟨rfl, hx0, null, null, (Heap.links_set_of_ne hxr).trans hleaf, rfl, rfl⟩
  · have hlen : (nodes child).length ≤ (nodes cells).length :=
      (List.subperm_of_subset hdc hsub).length_le
    obtain ⟨last, c, hlast, hchain, hll⟩ := lastOne_spec hchild hnull (Nat.lt_of_le_of_lt hlen hfuel)
    obtain ⟨l, hlh, rfl, hls⟩ := Heap.of_links hll
    have hlc : last ∈ nodes child := mem_nodes_of_mem_chain (List.mem_of_getLast? hchain)
    have hrl : r ≠ last := fun he ↦ hrchild (he ▸ hlc)
    have hxl : x ≠ last := fun he ↦ hxc (hsub (he ▸ hlc))
    rw [if_neg hnull, hlast] at heq
    simp only [Except.bind, bind, Heap.get, hlh] at heq
    refine ⟨r, _, hrc, hpid, heq, Heap.info_set hlh rfl, hadopt _ ?_ ⟨parent.child, ?_, ?_⟩⟩
    · exact fun a _ _ hac ↦ Heap.links_set_of_ne fun he ↦ hac (he ▸ hlc)
    · exact (Heap.links_set_of_ne hrl).trans hlinks
    · refine hchild.append hdc hchain hll Heap.links_set_self hx0 ?_ fun a _ ha ↦ ?_
      · exact (Heap.links_set_of_ne hxl).trans hleaf
      · exact Heap.links_set_of_ne ha

end Insert

def idle : Info := ⟨0, idleName.bytes, 0⟩

/-- The pids are distinct and positive, and every ppid is 0 or the pid of an earlier process. -/
structure Ordered (procs : List Info) : Prop where
  distinct : (procs.map Info.pid).Nodup
  positive : ∀ p ∈ procs, 0 < p.pid
  parent : ∀ init p rest, procs = init ++ p :: rest → p.ppid = 0 ∨ p.ppid ∈ init.map Info.pid

namespace Ordered

variable {procs rest : List Info} {p : Info}

theorem of_append (ho : Ordered (procs ++ rest)) : Ordered procs := by
  refine ⟨?_, fun p hp ↦ ho.positive p (List.mem_append_left _ hp), fun init p tail he ↦ ?_⟩
  · have hd := ho.distinct
    rw [List.map_append] at hd
    exact hd.of_append_left
  · apply ho.parent init p (tail ++ rest)
    rw [he, List.append_assoc, List.cons_append]

theorem pids_nodup (ho : Ordered procs) : ((idle :: procs).map Info.pid).Nodup := by
  rw [List.map_cons, List.nodup_cons]
  refine ⟨fun hm ↦ ?_, ho.distinct⟩
  obtain ⟨p, hp, h0⟩ := List.mem_map.mp hm
  exact absurd h0 (Int.ne_of_gt (ho.positive p hp))

theorem nil : Ordered [] :=
  ⟨List.nodup_nil, fun p hp ↦ absurd hp List.not_mem_nil, fun init p rest he ↦ by simp at he⟩

theorem snoc (ho : Ordered procs) (hpos : 0 < p.pid) (hnew : p.pid ∉ procs.map Info.pid)
    (hparent : p.ppid = 0 ∨ p.ppid ∈ procs.map Info.pid) : Ordered (procs ++ [p]) := by
  refine ⟨?_, fun q hq ↦ ?_, fun init q rest hsplit ↦ ?_⟩
  · rw [List.map_append, List.map_singleton, List.nodup_append']
    exact ⟨ho.distinct, List.nodup_singleton _, by simpa using hnew⟩
  · rcases List.mem_append.mp hq with hq | hq
    · exact ho.positive q hq
    · exact List.mem_singleton.mp hq ▸ hpos
  · rcases List.eq_nil_or_concat rest with rfl | ⟨rest', last, rfl⟩
    · obtain ⟨rfl, he⟩ := List.append_inj' hsplit rfl
      rwa [List.singleton_inj.mp he] at hparent
    · rw [List.concat_eq_append, ← List.cons_append, ← List.append_assoc] at hsplit
      obtain ⟨rfl, _⟩ := List.append_inj' hsplit rfl
      exact ho.parent init q rest' rfl

theorem last_parent (ho : Ordered (procs ++ [p])) : p.ppid ∈ (idle :: procs).map Info.pid := by
  rcases ho.parent procs p [] rfl with h0 | hm
  · exact List.mem_map.mpr ⟨idle, List.mem_cons_self, h0.symm⟩
  · exact List.mem_cons_of_mem _ hm

/-- Nobody names a process as its parent before it is there. -/
theorem last_childless (ho : Ordered (procs ++ [p])) : ∀ q ∈ procs ++ [p], q.ppid ≠ p.pid := by
  have hp : 0 < p.pid := ho.positive p (List.mem_append_right _ List.mem_cons_self)
  have hfresh : p.pid ∉ procs.map Info.pid := by
    have hd := ho.distinct
    rw [List.map_append, List.nodup_append'] at hd
    exact fun hm ↦ hd.2.2 hm List.mem_cons_self
  intro q hq he
  obtain ⟨init, rest, hsplit⟩ := List.append_of_mem hq
  rcases ho.parent init q rest hsplit with h0 | hm
  · omega
  · rcases List.eq_nil_or_concat rest with rfl | ⟨rest', last, rfl⟩
    · obtain ⟨rfl, _⟩ := List.append_inj' hsplit rfl
      exact hfresh (he ▸ hm)
    · rw [List.concat_eq_append, ← List.cons_append, ← List.append_assoc] at hsplit
      obtain ⟨rfl, _⟩ := List.append_inj' hsplit rfl
      rw [he] at hm
      exact hfresh (by rw [List.map_append]; exact List.mem_append_left _ hm)

end Ordered

/-- The blocks in `cells` are the root and these processes, each one in the chain of the
node that its ppid names, in the order in which they came. -/
structure Built (h : Heap) (root : Addr) (cells : BinaryTree Addr) (procs : List Info) : Prop where
  linked : Linked null h.links root cells
  top : h.info root = some idle ∧ ∃ child, cells = .node root child .nil
  nodup : (nodes cells).Nodup
  owned : ∀ p, h.info p ≠ none → p ∈ nodes cells
  infos : ((nodes cells).map h.info).Perm ((idle :: procs).map some)
  children : ∀ f ∈ families cells, ∃ i, h.info f.1 = some i ∧
    f.2.map h.info = (procs.filter (·.ppid = i.pid)).map some

namespace Built

variable {h : Heap} {root : Addr} {cells : BinaryTree Addr} {procs : List Info} {p : Info}

theorem length_nodes (hb : Built h root cells procs) : (nodes cells).length = procs.length + 1 := by
  simpa using hb.infos.length_eq

theorem exists_pid (hb : Built h root cells procs) {pid : ℤ}
    (hp : pid ∈ (idle :: procs).map Info.pid) : ∃ a ∈ nodes cells, h.pid a = some pid := by
  obtain ⟨i, hi, rfl⟩ := List.mem_map.mp hp
  have hm := hb.infos.mem_iff.mpr (List.mem_map_of_mem hi)
  obtain ⟨a, ha, hai⟩ := List.mem_map.mp hm
  exact ⟨a, ha, by rw [Heap.pid, hai, Option.map_some]⟩

theorem pid_injective (hb : Built h root cells procs) (ho : Ordered procs) {a b : Addr}
    (ha : a ∈ nodes cells) (hbm : b ∈ nodes cells) (hab : h.pid a = h.pid b) : a = b := by
  have hperm := hb.infos.map (Option.map Info.pid)
  rw [List.map_map, List.map_map] at hperm
  have hnodup : (((idle :: procs).map Info.pid).map some).Nodup :=
    ho.pids_nodup.map fun _ _ he ↦ Option.some.inj he
  rw [List.map_map] at hnodup
  exact List.inj_on_of_nodup_map (hperm.nodup_iff.mpr hnodup) ha hbm hab

theorem children_adopt (hb : Built h root cells procs) (ho : Ordered (procs ++ [p])) {h' : Heap}
    {r x : Addr} (hr : r ∈ nodes cells) (hpr : h.pid r = some p.ppid)
    (hold : ∀ a ∈ nodes cells, h'.info a = h.info a) (hxi : h'.info x = some p) {f : Addr × List Addr}
    (hf : f ∈ families (adopt r x cells)) : ∃ i, h'.info f.1 = some i ∧
      f.2.map h'.info = ((procs ++ [p]).filter (·.ppid = i.pid)).map some := by
  rcases List.mem_cons.mp ((families_adopt hb.nodup hr).mem_iff.mp hf) with rfl | hf
  · refine ⟨p, hxi, ?_⟩
    rw [List.filter_eq_nil_iff.mpr]
    · rfl
    · simpa using ho.last_childless
  · obtain ⟨g, hg, rfl⟩ := List.mem_map.mp hf
    obtain ⟨i, hi, hchildren⟩ := hb.children g hg
    have hmem := mem_nodes_of_mem_families hg
    have hkids : g.2.map h'.info = (procs.filter (·.ppid = i.pid)).map some := by
      rw [← hchildren]
      exact List.map_congr_left fun a ha ↦ hold a (hmem.2 a ha)
    rw [grown]
    split_ifs with hgr
    · have hip : p.ppid = i.pid := by
        rw [Heap.pid, ← hgr, hi] at hpr
        exact (Option.some.inj hpr).symm
      refine ⟨i, (hold g.1 hmem.1).trans hi, ?_⟩
      rw [List.map_append, hkids, List.filter_append, List.map_append, List.map_singleton, hxi]
      simp [hip]
    · have hip : p.ppid ≠ i.pid := fun he ↦ hgr <| by
        refine hb.pid_injective ho.of_append hmem.1 hr ?_
        rw [hpr, Heap.pid, hi, he, Option.map_some]
      refine ⟨i, (hold g.1 hmem.1).trans hi, ?_⟩
      rw [hkids, List.filter_append]
      simp [hip]

theorem ne_of_free (hb : Built h root cells procs) {x : Addr} (hx : h x = none) :
    ∀ a ∈ nodes cells, a ≠ x := by
  rintro a ha rfl
  have hsome := hb.linked.isSome a ha
  rw [Heap.links, hx] at hsome
  cases hsome

theorem linked_set (hb : Built h root cells procs) {x : Addr} (hx : h x = none) (new : Proc) :
    Linked null (h.set x new).links root cells :=
  hb.linked.congr fun a ha ↦ Heap.links_set_of_ne (hb.ne_of_free hx a ha)

theorem step (hb : Built h root cells procs) (ho : Ordered (procs ++ [p])) {fuel : ℕ}
    (hfuel : procs.length + 1 < fuel) {x : Addr} {new : Proc} (hx0 : x ≠ null) (hx : h x = none)
    (hnew : new.info = p) (hchild : new.child = null) (hsibling : new.sibling = null) :
    ∃ h' cells', insert fuel root x (h.set x new) = .ok h' ∧
      Built h' root cells' (procs ++ [p]) := by
  have hne := hb.ne_of_free hx
  have hxc : x ∉ nodes cells := fun hm ↦ hne x hm rfl
  have hinfo : ∀ a ∈ nodes cells, (h.set x new).info a = h.info a := fun a ha ↦
    Heap.info_set_of_ne (hne a ha)
  have hl := hb.linked_set hx new
  have hppid : new.ppid = p.ppid := by rw [← hnew, Proc.info]
  rw [← hb.length_nodes] at hfuel
  obtain ⟨r, h', hr, hpr, hok, hsame, hl'⟩ := insert_spec hl hb.nodup hfuel
    (Function.update_self ..) hx0
    (by rw [Heap.links_set_self, hchild, hsibling]) hxc (by
      obtain ⟨a, ha, hpa⟩ := hb.exists_pid ho.last_parent
      exact ⟨a, ha, by rw [Heap.pid, hinfo a ha, hppid]; exact hpa⟩)
  have hxi : h'.info x = some p := by rw [hsame, Heap.info_set_self, hnew]
  have hold : ∀ a ∈ nodes cells, h'.info a = h.info a := fun a ha ↦ by rw [hsame, hinfo a ha]
  have hperm := nodes_adopt (x := x) hb.nodup hr
  refine ⟨h', adopt r x cells, hok, hl', ?_, ?_, fun q hq ↦ ?_, ?_, fun f hf ↦ ?_⟩
  · obtain ⟨hroot, child, rfl⟩ := hb.top
    refine ⟨(hold root List.mem_cons_self).trans hroot, ?_⟩
    rw [adopt]
    split_ifs
    · exact ⟨_, rfl⟩
    · exact ⟨_, rfl⟩
  · exact hperm.nodup_iff.mpr (List.nodup_cons.mpr ⟨hxc, hb.nodup⟩)
  · rw [hperm.mem_iff, List.mem_cons]
    by_cases hqx : q = x
    · exact Or.inl hqx
    · rw [hsame, Heap.info_set_of_ne hqx] at hq
      exact Or.inr (hb.owned q hq)
  · refine (hperm.map _).trans ?_
    rw [List.map_cons, hxi, List.map_congr_left hold, ← List.cons_append, List.map_append]
    exact (hb.infos.cons _).trans (List.perm_append_singleton _ _).symm
  · refine hb.children_adopt ho hr ?_ hold hxi hf
    rwa [Heap.pid, hinfo r hr, hppid] at hpr

theorem finite (hb : Built h root cells procs) : {p | h.info p ≠ none}.Finite :=
  (nodes cells).finite_toSet.subset hb.owned

theorem exists_isTree (hb : Built h root cells procs) : ∃ t, h.IsTree root t ∧
    (∃ child, t = .node idle child .nil) ∧ (nodes t).Perm (idle :: procs) ∧
    ∀ f ∈ families t, f.2 = procs.filter (·.ppid = f.1.pid) := by
  let get (a : Addr) : Info := (h.info a).getD idle
  have hget : ∀ a ∈ nodes cells, h.info a = some (get a) := fun a ha ↦ by
    obtain ⟨⟨c, s⟩, hlink⟩ := Option.isSome_iff_exists.mp (hb.linked.isSome a ha)
    obtain ⟨proc, hproc, _⟩ := Heap.of_links hlink
    simp only [get, Heap.info, hproc, Option.map_some, Option.getD_some]
  refine ⟨cells.map get, ⟨cells, hb.linked, hb.nodup, ?_⟩, ?_, ?_, fun f hf ↦ ?_⟩
  · rw [← BinaryTree.comp_map]
    exact map_congr hget
  · obtain ⟨hroot, child, rfl⟩ := hb.top
    refine ⟨child.map get, ?_⟩
    rw [BinaryTree.map, BinaryTree.map]
    simp only [get, hroot, Option.getD_some]
  · have hperm := hb.infos.filterMap id
    rw [List.filterMap_map, List.filterMap_map, Function.id_comp, Function.id_comp,
      List.filterMap_some] at hperm
    refine List.Perm.trans (List.Perm.of_eq ?_) hperm
    rw [nodes_map, ← List.filterMap_eq_map]
    exact List.filterMap_congr fun a ha ↦ (hget a ha).symm
  · rw [families_map] at hf
    obtain ⟨g, hg, rfl⟩ := List.mem_map.mp hf
    obtain ⟨i, hi, hchildren⟩ := hb.children g hg
    have hmem := mem_nodes_of_mem_families hg
    have hgi : get g.1 = i := by simp only [get, hi, Option.getD_some]
    have hkids : g.2.map h.info = (g.2.map get).map some := by
      rw [List.map_map]
      exact List.map_congr_left fun a ha ↦ hget a (hmem.2 a ha)
    rw [hkids] at hchildren
    rw [hgi]
    exact List.map_injective_iff.mpr (fun _ _ ↦ Option.some.inj) hchildren

end Built

/-- The process that an entry of `/proc` stands for. -/
def Dirent.process (entry : Dirent) : Option Info :=
  if entry.isDir ∧ 48 ≤ entry.dName.headD 0 ∧ entry.dName.headD 0 ≤ 57 then
    entry.status.map fun s ↦ ⟨atoi entry.dName, s.1.bytes, s.2⟩
  else none

/-- `malloc` fails on a heap with finitely many blocks. -/
def Allocator.Full (a : Allocator) (h : Heap) : Prop :=
  {p | h.info p ≠ none}.Finite ∧ a.malloc h = null

/-- The loop of `tranverse_proc_dir` comes to a process on a heap for which `malloc` fails. -/
def Allocator.FailsIn (a : Allocator) (fuel : ℕ) (root : Addr) (h : Heap) (entries : List Dirent) :
    Prop :=
  ∃ before entry after h', entries = before ++ entry :: after ∧
    tranverseProcDir a fuel root before h = .ok h' ∧ entry.process ≠ none ∧ a.Full h'

/-- `malloc` fails for the root, or for a process to which the loop comes. -/
def Allocator.Exhausted (a : Allocator) (fuel : ℕ) (entries : List Dirent) : Prop :=
  a.Full (fun _ ↦ none) ∨ ∃ root h, createProc a 0 idleName 0 (fun _ ↦ none) = .ok (root, h) ∧
    a.FailsIn fuel root h entries

section Run

variable {a : Allocator} {fuel : ℕ} {root : Addr} {h : Heap} {cells : BinaryTree Addr}

theorem Allocator.FailsIn.append {entries : List Dirent} (hf : a.FailsIn fuel root h entries)
    (later : List Dirent) : a.FailsIn fuel root h (entries ++ later) := by
  obtain ⟨before, entry, after, h', rfl, hf⟩ := hf
  exact ⟨before, entry, after ++ later, h', by rw [List.append_assoc, List.cons_append], hf⟩

theorem Allocator.FailsIn.cons {entry : Dirent} {entries : List Dirent} {h' : Heap}
    (hvisit : visit a fuel root h entry = .ok h') (hf : a.FailsIn fuel root h' entries) :
    a.FailsIn fuel root h (entry :: entries) := by
  obtain ⟨before, entry', after, h'', rfl, hrun, hf⟩ := hf
  refine ⟨entry :: before, entry', after, h'', rfl, ?_, hf⟩
  rw [tranverseProcDir, List.foldlM_cons, hvisit]
  exact hrun

theorem createProc_spec (pid : ℤ) (name : Name) (ppid : ℤ) (h : Heap) :
    (∃ new, createProc a pid name ppid h = .ok (a.malloc h, h.set (a.malloc h) new) ∧
      a.malloc h ≠ null ∧ new.info = ⟨pid, name.bytes, ppid⟩ ∧
      new.child = null ∧ new.sibling = null) ∨
    createProc a pid name ppid h = .error .exitFailure ∧ a.malloc h = null := by
  rw [createProc]
  by_cases hnull : a.malloc h = null
  · exact Or.inr ⟨if_pos hnull, hnull⟩
  · rw [if_neg hnull]
    split
    · rename_i buf hs
      refine Or.inl ⟨_, rfl, hnull, ?_, rfl, rfl⟩
      rw [Proc.info, (strncpy_name hs).2]
    · rename_i hs
      rw [CString.strncpy, if_pos (by rw [a.size]; decide)] at hs
      cases hs

theorem visit_skipped {entry : Dirent}
    (he : ¬ (entry.isDir ∧ 48 ≤ entry.dName.headD 0 ∧ entry.dName.headD 0 ≤ 57)) :
    visit a fuel root h entry = .ok h := by
  rw [visit]
  by_cases hdir : entry.isDir = true
  · have hdigit : entry.dName.headD 0 < 48 ∨ entry.dName.headD 0 > 57 := by
      by_contra hno
      rw [not_or, UInt8.not_lt, gt_iff_lt, UInt8.not_lt] at hno
      exact he ⟨hdir, hno⟩
    rw [if_neg (not_not_intro hdir), if_pos hdigit]
    rfl
  · rw [if_pos hdir]
    rfl

theorem visit_read {entry : Dirent} (hdir : entry.isDir = true)
    (hdigit : 48 ≤ entry.dName.headD 0 ∧ entry.dName.headD 0 ≤ 57) :
    visit a fuel root h entry =
      readProcInfo a (atoi entry.dName) entry.status h >>= fun r ↦
        if r.1 = null then .ok r.2 else insert fuel root r.1 r.2 := by
  have hno : ¬ (entry.dName.headD 0 < 48 ∨ entry.dName.headD 0 > 57) := by
    rw [not_or, UInt8.not_lt, gt_iff_lt, UInt8.not_lt]
    exact hdigit
  rw [visit, if_neg (not_not_intro hdir), if_neg hno]
  rfl

/-- One turn of the loop: nothing happens, or `malloc` has failed, or the process of the
entry is created and inserted. -/
theorem visit_cases (a : Allocator) (fuel : ℕ) (root : Addr) (h : Heap) (entry : Dirent) :
    (entry.process = none ∧ visit a fuel root h entry = .ok h) ∨
    ∃ p, entry.process = some p ∧
      ((∃ new, a.malloc h ≠ null ∧ new.info = p ∧ new.child = null ∧ new.sibling = null ∧
        visit a fuel root h entry = insert fuel root (a.malloc h) (h.set (a.malloc h) new)) ∨
      visit a fuel root h entry = .error .exitFailure ∧ a.malloc h = null) := by
  by_cases hread : entry.isDir ∧ 48 ≤ entry.dName.headD 0 ∧ entry.dName.headD 0 ≤ 57
  swap
  · exact Or.inl ⟨if_neg hread, visit_skipped hread⟩
  rw [Dirent.process, if_pos hread, visit_read hread.1 hread.2]
  cases hs : entry.status with
  | none => exact Or.inl ⟨rfl, rfl⟩
  | some status =>
    obtain ⟨name, ppid⟩ := status
    refine Or.inr ⟨_, rfl, ?_⟩
    rw [readProcInfo]
    rcases createProc_spec (a := a) (atoi entry.dName) name ppid h with
      ⟨new, hok, hnull, hnew, hchild, hsibling⟩ | ⟨herr, hnull⟩
    · refine Or.inl ⟨new, hnull, hnew, hchild, hsibling, ?_⟩
      rw [hok]
      simp only [Except.bind, bind, if_neg hnull]
    · exact Or.inr ⟨by rw [herr]; rfl, hnull⟩

theorem visit_spec {procs : List Info} (hb : Built h root cells procs) (entry : Dirent)
    (ho : Ordered (procs ++ entry.process.toList)) (hfuel : procs.length + 1 < fuel) :
    (∃ h' cells', visit a fuel root h entry = .ok h' ∧
      Built h' root cells' (procs ++ entry.process.toList)) ∨
    visit a fuel root h entry = .error .exitFailure ∧ entry.process ≠ none ∧ a.Full h := by
  rcases visit_cases a fuel root h entry with
    ⟨hnone, hok⟩ | ⟨p, hp, ⟨new, hnull, hnew, hchild, hsibling, heq⟩ | ⟨herr, hnull⟩⟩
  · rw [hnone, Option.toList_none, List.append_nil]
    exact Or.inl ⟨h, cells, hok, hb⟩
  · rw [hp] at ho ⊢
    rw [heq]
    exact Or.inl (hb.step ho hfuel hnull (a.fresh h hnull) hnew hchild hsibling)
  · exact Or.inr ⟨herr, by simp [hp], hb.finite, hnull⟩

theorem tranverseProcDir_spec {procs : List Info} (entries : List Dirent)
    (hb : Built h root cells procs) (ho : Ordered (procs ++ entries.filterMap Dirent.process))
    (hfuel : (procs ++ entries.filterMap Dirent.process).length + 1 < fuel) :
    (∃ h' cells', tranverseProcDir a fuel root entries h = .ok h' ∧
      Built h' root cells' (procs ++ entries.filterMap Dirent.process)) ∨
    tranverseProcDir a fuel root entries h = .error .exitFailure ∧
      a.FailsIn fuel root h entries := by
  induction entries generalizing h cells procs with
  | nil => exact Or.inl ⟨h, cells, rfl, by rwa [List.filterMap_nil, List.append_nil]⟩
  | cons entry entries ih =>
    have hcons : (entry :: entries).filterMap Dirent.process =
        entry.process.toList ++ entries.filterMap Dirent.process := by
      cases he : entry.process <;> simp [he]
    rw [hcons, ← List.append_assoc] at ho hfuel ⊢
    simp only [List.length_append] at hfuel
    rw [tranverseProcDir, List.foldlM_cons]
    have hf : procs.length + 1 < fuel := by omega
    rcases visit_spec (a := a) hb entry ho.of_append hf with
      ⟨h₁, cells₁, hok, hb₁⟩ | ⟨herr, hfails⟩
    · rw [hok]
      have hlen : (procs ++ entry.process.toList ++ entries.filterMap Dirent.process).length + 1 <
          fuel := by
        simp only [List.length_append]
        omega
      rcases ih hb₁ ho hlen with hrun | ⟨herr, hfails⟩
      · exact Or.inl hrun
      · exact Or.inr ⟨herr, hfails.cons hok⟩
    · exact Or.inr ⟨by rw [herr]; rfl, [], entry, entries, h, rfl, rfl, hfails⟩

/-- The tree that the loop starts from. -/
theorem createProc_root (a : Allocator) :
    (∃ root h cells, createProc a 0 idleName 0 (fun _ ↦ none) = .ok (root, h) ∧
      Built h root cells []) ∨
    createProc a 0 idleName 0 (fun _ ↦ none) = .error .exitFailure ∧ a.Full fun _ ↦ none := by
  rcases createProc_spec (a := a) 0 idleName 0 fun _ ↦ none with
    ⟨new, hok, hnull, hnew, hchild, hsibling⟩ | ⟨herr, hnull⟩
  · refine Or.inl ⟨_, _, .node (a.malloc fun _ ↦ none) .nil .nil, hok, ?_⟩
    refine ⟨⟨rfl, hnull, null, null, ?_, rfl, rfl⟩, ⟨?_, _, rfl⟩, List.nodup_singleton _,
      fun p hp ↦ ?_, ?_, ?_⟩
    · rw [Heap.links_set_self, hchild, hsibling]
    · rw [Heap.info_set_self, hnew]
      rfl
    · by_contra hne
      rw [nodes, nodes, List.append_nil, List.mem_singleton] at hne
      exact hp (Heap.info_set_of_ne hne)
    · rw [nodes, nodes, List.append_nil, List.map_singleton, Heap.info_set_self, hnew]
      exact List.Perm.refl _
    · intro f hf
      obtain rfl := List.mem_singleton.mp hf
      exact ⟨idle, by rw [Heap.info_set_self, hnew]; rfl, rfl⟩
  · exact Or.inr ⟨herr, by simp [Heap.info], hnull⟩

/-- Unless `malloc` fails, every process hangs once below the node that its ppid names, and
siblings stand in the order in which `/proc` lists them. -/
theorem buildTree_spec (a : Allocator) (entries : List Dirent) (fuel : ℕ)
    (ho : Ordered (entries.filterMap Dirent.process))
    (hfuel : (entries.filterMap Dirent.process).length + 1 < fuel) :
    (∃ root h t, buildTree a fuel entries = .ok (root, h) ∧ h.IsTree root t ∧
      (∃ child, t = .node idle child .nil) ∧
      (nodes t).Perm (idle :: entries.filterMap Dirent.process) ∧
      (∀ f ∈ families t, f.2 = (entries.filterMap Dirent.process).filter (·.ppid = f.1.pid)) ∧
      ∀ p ∈ entries.filterMap Dirent.process, ∃ f ∈ families t, f.1.pid = p.ppid ∧ p ∈ f.2) ∨
    buildTree a fuel entries = .error .exitFailure ∧ a.Exhausted fuel entries := by
  rw [buildTree]
  rcases createProc_root a with ⟨root, h₀, cells₀, hok, hb⟩ | ⟨herr, hfull⟩
  · rw [hok]
    rcases tranverseProcDir_spec (a := a) entries hb ho hfuel with
      ⟨h, cells, hrun, hbuilt⟩ | ⟨herr, hfails⟩
    · obtain ⟨t, ht, htop, hnodes, hfamilies⟩ := hbuilt.exists_isTree
      refine Or.inl ⟨_, h, t, ?_, ht, htop, hnodes, hfamilies, fun p hp ↦ ?_⟩
      · simp only [Except.bind, bind, hrun]
        rfl
      · obtain ⟨i, hi, hip⟩ : ∃ i ∈ idle :: entries.filterMap Dirent.process, i.pid = p.ppid := by
          obtain ⟨init, rest, hsplit⟩ := List.append_of_mem hp
          rcases ho.parent init p rest hsplit with h0 | hm
          · exact ⟨idle, List.mem_cons_self, h0.symm⟩
          · obtain ⟨i, hi, hip⟩ := List.mem_map.mp hm
            exact ⟨i, List.mem_cons_of_mem _ (hsplit ▸ List.mem_append_left _ hi), hip⟩
        have hmem := hnodes.mem_iff.mpr hi
        rw [← map_fst_families] at hmem
        obtain ⟨f, hf, rfl⟩ := List.mem_map.mp hmem
        refine ⟨f, hf, hip, ?_⟩
        rw [hfamilies f hf, List.mem_filter]
        exact ⟨hp, decide_eq_true hip.symm⟩
    · refine Or.inr ⟨?_, Or.inr ⟨root, h₀, hok, hfails⟩⟩
      simp only [Except.bind, bind, herr]
  · exact Or.inr ⟨by rw [herr]; rfl, Or.inl hfull⟩

end Run

/-- The first of the addresses 1 to 8 that is not in use. -/
def firstFree : Allocator where
  malloc h := ((List.range' 1 8).find? fun p ↦ (h p).isNone).getD null
  name _ := List.replicate maxLen 255
  fresh h hp := by
    cases hf : (List.range' 1 8).find? fun p ↦ (h p).isNone with
    | none => exact absurd (by rw [hf, Option.getD_none]) hp
    | some p => simpa using List.find?_some hf
  size _ := List.length_replicate

/-- `init` -/
def initd : Name := ⟨[105, 110, 105, 116], by simp, by decide⟩

def sh : Name := ⟨[115, 104], by simp, by decide⟩

/-- `.`, `1` (`init`), `self`, `7` (`sh`, a child of 1) and `8`, which has gone again. -/
def sampleEntries : List Dirent :=
  [⟨true, [46], none⟩, ⟨true, [49], some (initd, 0)⟩, ⟨false, [115, 101, 108, 102], none⟩,
    ⟨true, [55], some (sh, 1)⟩, ⟨true, [56], none⟩]

theorem sample_built : ∃ root h t, buildTree firstFree 4 sampleEntries = .ok (root, h) ∧
    h.IsTree root t ∧ (∃ child, t = .node idle child .nil) ∧
    (nodes t).Perm (idle :: sampleEntries.filterMap Dirent.process) ∧
    (∀ f ∈ families t, f.2 =
      (sampleEntries.filterMap Dirent.process).filter (·.ppid = f.1.pid)) ∧
    ∀ p ∈ sampleEntries.filterMap Dirent.process, ∃ f ∈ families t, f.1.pid = p.ppid ∧ p ∈ f.2 := by
  have ho : Ordered (sampleEntries.filterMap Dirent.process) := by
    refine (Ordered.nil.snoc (p := ⟨1, [105, 110, 105, 116], 0⟩) ?_ ?_ ?_).snoc
      (p := ⟨7, [115, 104], 1⟩) ?_ ?_ ?_ <;> decide
  have hok : (buildTree firstFree 4 sampleEntries).toBool = true := by decide +kernel
  refine (buildTree_spec firstFree sampleEntries 4 ho (by decide)).resolve_right fun herr ↦ ?_
  rw [herr.1] at hok
  cases hok

end OsWorkbench.Pstree
