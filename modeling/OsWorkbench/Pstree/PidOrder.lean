import OsWorkbench.Pstree.Build
import Mathlib.Logic.Relation

namespace OsWorkbench.Pstree

open Library ChildSibling PointerTree

def IsParent (procs : List Info) (q p : Info) : Prop := q ∈ procs ∧ p ∈ procs ∧ p.ppid = q.pid

/-- The pids are distinct and positive, every ppid is 0 or the pid of a process, and no
process is above itself. -/
structure Forest (procs : List Info) : Prop where
  distinct : (procs.map Info.pid).Nodup
  positive : ∀ p ∈ procs, 0 < p.pid
  parent : ∀ p ∈ procs, p.ppid = 0 ∨ p.ppid ∈ procs.map Info.pid
  acyclic : ∀ p, ¬ Relation.TransGen (IsParent procs) p p

def Increasing (procs : List Info) : Prop := procs.Pairwise fun p q ↦ p.pid < q.pid

section Order

variable {procs init rest : List Info} {p q : Info}

theorem acyclic_of_rank (rank : Info → ℤ)
    (h : ∀ q ∈ procs, ∀ p ∈ procs, p.ppid = q.pid → rank q < rank p) (p : Info) :
    ¬ Relation.TransGen (IsParent procs) p p := by
  intro hp
  have hlt : Relation.TransGen (· < ·) (rank p) (rank p) :=
    hp.lift rank fun q p hqp ↦ h q hqp.1 p hqp.2.1 hqp.2.2
  rw [Relation.transGen_eq_self] at hlt
  exact lt_irrefl _ hlt

theorem Forest.ppid_ne_pid (hf : Forest procs) (hp : p ∈ procs) : p.ppid ≠ p.pid :=
  fun he ↦ hf.acyclic p (Relation.TransGen.single ⟨hp, hp, he⟩)

theorem Increasing.lt_of_mem (hi : Increasing (init ++ p :: rest)) (hq : q ∈ init) :
    q.pid < p.pid :=
  (List.pairwise_append.mp hi).2.2 q hq p List.mem_cons_self

theorem Increasing.mem_of_lt (hi : Increasing (init ++ p :: rest)) (hq : q ∈ init ++ p :: rest)
    (hlt : q.pid < p.pid) : q ∈ init := by
  refine (List.mem_append.mp hq).resolve_right fun hq ↦ ?_
  rcases List.mem_cons.mp hq with rfl | hq
  · exact lt_irrefl _ hlt
  · have hafter := (List.pairwise_cons.mp (List.pairwise_append.mp hi).2.1).1 q hq
    exact lt_asymm hlt hafter

/-- The parents of a list of processes stand before them when their pids are smaller. -/
theorem Forest.ordered (hf : Forest (init ++ rest)) (hi : Increasing (init ++ rest))
    (hle : ∀ p ∈ init, p.ppid ≤ p.pid) : Ordered init := by
  constructor
  · have hd := hf.distinct
    rw [List.map_append] at hd
    exact hd.of_append_left
  · intro p hp
    exact hf.positive p (List.mem_append_left _ hp)
  · intro before p after hsplit
    subst hsplit
    have hp : p ∈ before ++ p :: after := List.mem_append_right _ List.mem_cons_self
    have hpf := List.mem_append_left rest hp
    refine (hf.parent p hpf).imp_right fun hm ↦ ?_
    obtain ⟨q, hq, hpid⟩ := List.mem_map.mp hm
    have hlt : q.pid < p.pid := by
      rw [hpid]
      exact lt_of_le_of_ne (hle p hp) (hf.ppid_ne_pid hpf)
    rw [List.append_assoc, List.cons_append] at hi hq
    exact List.mem_map.mpr ⟨q, hi.mem_of_lt hq hlt, hpid⟩

/-- Of the processes whose parent has a larger pid the first one comes when its parent is
not there. -/
theorem Forest.exists_orphan (hf : Forest procs) (hi : Increasing procs)
    (hno : ¬ ∀ p ∈ procs, p.ppid ≤ p.pid) :
    ∃ init p rest, procs = init ++ p :: rest ∧ Ordered init ∧
      p.ppid ∉ (idle :: init).map Info.pid := by
  have hsome : (procs.find? fun p ↦ p.pid < p.ppid).isSome := by
    rw [List.find?_isSome]
    simpa using hno
  obtain ⟨p, hfind⟩ := Option.isSome_iff_exists.mp hsome
  obtain ⟨hlt, init, rest, rfl, hinit⟩ := List.find?_eq_some_iff_append.mp hfind
  have hlt : p.pid < p.ppid := of_decide_eq_true hlt
  have hpos : 0 < p.pid := hf.positive p (List.mem_append_right _ List.mem_cons_self)
  refine ⟨init, p, rest, rfl, ?_, ?_⟩
  · apply hf.ordered hi
    intro q hq
    simpa using hinit q hq
  · intro hm
    obtain ⟨q, hq, hpid⟩ := List.mem_map.mp hm
    rcases List.mem_cons.mp hq with rfl | hq
    · change 0 = p.ppid at hpid
      omega
    · have hqp := hi.lt_of_mem hq
      omega

end Order

section Run

variable {a : Allocator} {fuel : ℕ} {root x : Addr} {h : Heap} {cells : BinaryTree Addr}
  {procs : List Info} {p : Info}

theorem insert_orphan {new : Proc} (hx : h x = some new)
    (hr : findProc h fuel root new.ppid = .ok null) : insert fuel root x h = .error .assertion := by
  simp only [insert, Heap.get, hx, Except.bind, bind, hr, if_pos]
  rfl

/-- A process whose parent is not in the tree makes the assertion fail. -/
theorem Built.orphan (hb : Built h root cells procs) (hfuel : procs.length + 1 < fuel)
    {new : Proc} (hx : h x = none) (hnew : new.ppid ∉ (idle :: procs).map Info.pid) :
    insert fuel root x (h.set x new) = .error .assertion := by
  rw [← hb.length_nodes] at hfuel
  obtain ⟨q, hq, hcase⟩ := findProc_spec new.ppid (hb.linked_set hx new) hfuel
  have hnull : q = null := by
    refine (hcase.resolve_left ?_).1
    rintro ⟨hm, hpid⟩
    rw [Heap.pid, Heap.info_set_of_ne (hb.ne_of_free hx q hm)] at hpid
    obtain ⟨i, hi, hip⟩ := Option.map_eq_some_iff.mp hpid
    have hmem := hb.infos.mem_iff.mp (List.mem_map_of_mem hm)
    rw [hi] at hmem
    obtain ⟨j, hj, hji⟩ := List.mem_map.mp hmem
    cases hji
    exact hnew (List.mem_map.mpr ⟨i, hj, hip⟩)
  rw [hnull] at hq
  exact insert_orphan (Function.update_self ..) hq

theorem visit_orphan (hb : Built h root cells procs) (hfuel : procs.length + 1 < fuel)
    {entry : Dirent} (he : entry.process = some p) (hp : p.ppid ∉ (idle :: procs).map Info.pid) :
    visit a fuel root h entry = .error .assertion ∨
      visit a fuel root h entry = .error .exitFailure ∧ a.Full h := by
  rcases visit_cases a fuel root h entry with
    ⟨hnone, -⟩ | ⟨p', hp', ⟨new, hnull, rfl, -, -, heq⟩ | ⟨herr, hnull⟩⟩
  · rw [hnone] at he
    cases he
  · rw [hp'] at he
    cases he
    rw [heq]
    exact Or.inl (hb.orphan hfuel (a.fresh h hnull) hp)
  · exact Or.inr ⟨herr, hb.finite, hnull⟩

theorem tranverseProcDir_orphan {entries : List Dirent} {init rest : List Info}
    (hb : Built h root cells []) (hsplit : entries.filterMap Dirent.process = init ++ p :: rest)
    (ho : Ordered init) (hp : p.ppid ∉ (idle :: init).map Info.pid)
    (hfuel : init.length + 1 < fuel) :
    tranverseProcDir a fuel root entries h = .error .assertion ∨
      tranverseProcDir a fuel root entries h = .error .exitFailure ∧
        a.FailsIn fuel root h entries := by
  obtain ⟨before, after, rfl, hbefore, hafter⟩ := List.filterMap_eq_append_iff.mp hsplit
  obtain ⟨gap, entry, last, rfl, hgap, hentry, -⟩ := List.filterMap_eq_cons_iff.mp hafter
  have hfirst : (before ++ gap).filterMap Dirent.process = init := by
    rw [List.filterMap_append, hbefore, List.filterMap_eq_nil_iff.mpr hgap, List.append_nil]
  rw [← List.append_assoc, tranverseProcDir, List.foldlM_append]
  rcases tranverseProcDir_spec (a := a) (before ++ gap) hb
    (by rwa [hfirst]) (by rwa [hfirst]) with ⟨h', cells', hok, hb'⟩ | ⟨herr, hfails⟩
  · rw [List.nil_append, hfirst] at hb'
    have hrun := hok
    rw [tranverseProcDir] at hok
    rw [hok]
    simp only [Except.bind, bind, List.foldlM_cons]
    rcases visit_orphan (a := a) hb' hfuel hentry hp with herr | ⟨herr, hfull⟩
    · exact Or.inl (by rw [herr])
    · exact Or.inr ⟨by rw [herr], before ++ gap, entry, last, h', rfl, hrun, by simp [hentry], hfull⟩
  · rw [tranverseProcDir] at herr
    exact Or.inr ⟨by rw [herr]; rfl, hfails.append _⟩

end Run

/-- Unless `malloc` fails, the assertion in `tranverse_proc_dir` holds for every entry exactly
when no process has a parent with a larger pid, and then the tree is built. -/
theorem buildTree_assertion_iff (a : Allocator) (entries : List Dirent) (fuel : ℕ)
    (hf : Forest (entries.filterMap Dirent.process))
    (hi : Increasing (entries.filterMap Dirent.process))
    (hfuel : (entries.filterMap Dirent.process).length + 1 < fuel) :
    (buildTree a fuel entries = .error .exitFailure ∧ a.Exhausted fuel entries) ∨
      ((∃ r, buildTree a fuel entries = .ok r) ↔
        ∀ p ∈ entries.filterMap Dirent.process, p.ppid ≤ p.pid) ∧
      (buildTree a fuel entries ≠ .error .assertion ↔
        ∀ p ∈ entries.filterMap Dirent.process, p.ppid ≤ p.pid) := by
  rw [buildTree]
  rcases createProc_root a with ⟨root, h, cells, hok, hb⟩ | ⟨herr, hfull⟩
  swap
  · exact Or.inl ⟨by rw [herr]; rfl, Or.inl hfull⟩
  have hexhausted : a.FailsIn fuel root h entries → a.Exhausted fuel entries :=
    fun hfails ↦ Or.inr ⟨root, h, hok, hfails⟩
  rw [hok]
  simp only [Except.bind, bind]
  by_cases hle : ∀ p ∈ entries.filterMap Dirent.process, p.ppid ≤ p.pid
  · have ho : Ordered (entries.filterMap Dirent.process) := by
      rw [← List.append_nil (entries.filterMap _)] at hf hi
      exact hf.ordered hi hle
    rcases tranverseProcDir_spec (a := a) entries hb ho hfuel with
      ⟨h', cells', hrun, -⟩ | ⟨herr, hfails⟩
    · rw [hrun]
      refine Or.inr ⟨iff_of_true ⟨_, rfl⟩ hle, iff_of_true (fun herr ↦ ?_) hle⟩
      cases herr
    · exact Or.inl ⟨by rw [herr], hexhausted hfails⟩
  · obtain ⟨init, p, rest, hsplit, ho, hp⟩ := hf.exists_orphan hi hle
    have hshort : init.length + 1 < fuel := by
      rw [hsplit, List.length_append] at hfuel
      omega
    rcases tranverseProcDir_orphan (a := a) hb hsplit ho hp hshort with herr | ⟨herr, hfails⟩
    · rw [herr]
      refine Or.inr ⟨iff_of_false (fun hok ↦ ?_) hle, iff_of_false (fun hne ↦ hne rfl) hle⟩
      obtain ⟨r, hok⟩ := hok
      cases hok
    · exact Or.inl ⟨by rw [herr], hexhausted hfails⟩

theorem sample_asserted : buildTree firstFree 4 sampleEntries ≠ .error .assertion := by
  have hf : Forest (sampleEntries.filterMap Dirent.process) :=
    ⟨by decide, by decide, by decide, acyclic_of_rank Info.pid (by decide)⟩
  have hi : Increasing (sampleEntries.filterMap Dirent.process) := by
    unfold Increasing
    decide
  have hok : (buildTree firstFree 4 sampleEntries).toBool = true := by decide +kernel
  rcases buildTree_assertion_iff firstFree sampleEntries 4 hf hi (by decide) with
    ⟨herr, -⟩ | ⟨-, hiff⟩
  · rw [herr] at hok
    cases hok
  · exact hiff.mpr (by decide)

/-- `2` (`sh`), whose parent came to the pid 5 after the pids had wrapped around, and `5`. -/
def wrappedEntries : List Dirent :=
  [⟨true, [50], some (sh, 5)⟩, ⟨true, [53], some (initd, 0)⟩]

theorem wrapped_assertion : Forest (wrappedEntries.filterMap Dirent.process) ∧
    Increasing (wrappedEntries.filterMap Dirent.process) ∧
    buildTree firstFree 4 wrappedEntries = .error .assertion := by
  have hrun : (buildTree firstFree 4 wrappedEntries).map (fun _ ↦ ()) = .error .assertion := by
    decide +kernel
  refine ⟨⟨by decide, by decide, by decide, acyclic_of_rank (fun p ↦ -p.pid) (by decide)⟩, ?_, ?_⟩
  · unfold Increasing
    decide
  · cases h : buildTree firstFree 4 wrappedEntries with
    | ok r =>
      rw [h] at hrun
      cases hrun
    | error e =>
      rw [h] at hrun
      cases hrun
      rfl

end OsWorkbench.Pstree
