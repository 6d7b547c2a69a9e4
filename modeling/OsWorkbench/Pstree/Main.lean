import OsWorkbench.Pstree.Print
import OsWorkbench.Pstree.Status

namespace OsWorkbench.Pstree

open Library ChildSibling PointerTree

/-- A block is given back; there is none to give back twice. -/
def Heap.free (h : Heap) (p : Addr) : Except Fault Heap :=
  match h p with
  | some _ => .ok (Function.update h p none)
  | none => .error .invalidPointer

/-- `node->sibling` is read after the children are gone. -/
def freeTree : ℕ → Addr → Heap → Except Fault Heap
  | 0, _, _ => .error .diverges
  | fuel + 1, node, h => do
    if node = null then return h
    let n ← h.get node
    let h ← freeTree fuel n.child h
    let n ← h.get node
    let h ← freeTree fuel n.sibling h
    h.free node

/-- What `getopt_long` returns. -/
inductive Opt
  | p
  | n
  | V
  | unknown
deriving DecidableEq

/-- Why the program ends before its end. -/
inductive Stop
  | fault (fault : Fault)
  | uninitialised
  | version
  | usage
deriving DecidableEq

/-- `"It's always numeric.\n\n"` -/
def numericText : List UInt8 :=
  [73, 116, 39, 115, 32, 97, 108, 119, 97, 121, 115, 32, 110, 117, 109, 101, 114, 105, 99, 46, 10,
    10]

/-- `show_pid`, and what is printed. -/
def parseArgs : List Opt → Bool × List UInt8 → Except Stop (Bool × List UInt8)
  | [], acc => .ok acc
  | .p :: opts, acc => parseArgs opts (true, acc.2)
  | .n :: opts, acc => parseArgs opts (acc.1, acc.2 ++ numericText)
  | .V :: _, _ => .error .version
  | .unknown :: _, _ => .error .usage

/-- An entry of `/proc` and the text of its `status` file, when it can be opened. -/
structure ProcFile where
  isDir : Bool
  dName : List UInt8
  file : Option (List UInt8)

def ProcFile.Numeric (f : ProcFile) : Prop :=
  f.isDir = true ∧ 48 ≤ f.dName.headD 0 ∧ f.dName.headD 0 ≤ 57

instance ProcFile.decidableNumeric (f : ProcFile) : Decidable f.Numeric :=
  inferInstanceAs (Decidable (_ ∧ _))

/-- What is read of an entry; only the files of processes are opened. -/
def ProcFile.dirent (f : ProcFile) : Option Dirent :=
  if f.Numeric then
    match f.file with
    | none => some ⟨f.isDir, f.dName, none⟩
    | some file => (readStatus file).map fun s ↦ ⟨f.isDir, f.dName, some s⟩
  else some ⟨f.isDir, f.dName, none⟩

/-- `"Failed to read proc info for pid %d\n"` -/
def failedText (pid : ℤ) : List UInt8 :=
  [70, 97, 105, 108, 101, 100, 32, 116, 111, 32, 114, 101, 97, 100, 32, 112, 114, 111, 99, 32, 105,
    110, 102, 111, 32, 102, 111, 114, 32, 112, 105, 100, 32] ++ Delimited.decimal pid ++ [10]

/-- What the loop of `tranverse_proc_dir` prints for an entry. -/
def ProcFile.printed (f : ProcFile) : List UInt8 :=
  if f.Numeric ∧ f.file = none then failedText (atoi f.dName) else []

def visitFile (a : Allocator) (fuel : ℕ) (root : Addr) (acc : Heap × List UInt8) (f : ProcFile) :
    Except Stop (Heap × List UInt8) :=
  match f.dirent with
  | none => .error .uninitialised
  | some entry =>
    match visit a fuel root acc.1 entry with
    | .error fault => .error (.fault fault)
    | .ok h => .ok (h, acc.2 ++ f.printed)

/-- What the program has printed when it ends, and the heap it leaves. -/
def main (a : Allocator) (fuel : ℕ) (opts : List Opt) (files : List ProcFile) :
    Except Stop (List UInt8 × Heap) := do
  let args ← parseArgs opts (false, [])
  let root ← (createProc a 0 idleName 0 fun _ ↦ none).mapError .fault
  let built ← files.foldlM (visitFile a fuel root.1) (root.2, args.2)
  let out ← (printTree args.1 built.1 fuel root.1 0 []).mapError .fault
  let h ← (freeTree fuel root.1 built.1).mapError .fault
  return (built.2 ++ out, h)

section Free

variable {h : Heap} {fuel : ℕ} {p : Addr} {t : BinaryTree Addr}

/-- Every node is given back once, its links are read before that, and nothing else changes. -/
theorem freeTree_spec (hl : Linked null h.links p t) (hd : (nodes t).Nodup)
    (hf : (nodes t).length < fuel) :
    ∃ h', freeTree fuel p h = .ok h' ∧ ∀ q, h' q = if q ∈ nodes t then none else h q := by
  induction t generalizing p h fuel with
  | nil =>
    obtain ⟨fuel, rfl⟩ := Nat.exists_eq_add_one_of_ne_zero (Nat.ne_zero_of_lt hf)
    have hnull : p = null := hl
    exact ⟨h, by rw [freeTree, if_pos hnull]; rfl, fun q ↦ by simp [nodes]⟩
  | node a child sibling ihc ihs =>
    obtain ⟨fuel, rfl⟩ := Nat.exists_eq_add_one_of_ne_zero (Nat.ne_zero_of_lt hf)
    rw [nodes, List.length_cons, List.length_append] at hf
    rw [nodes, List.nodup_cons, List.nodup_append'] at hd
    obtain ⟨ha, hdc, hds, hdis⟩ := hd
    rw [List.mem_append, not_or] at ha
    obtain ⟨rfl, hp, c, s, hlink, hc, hs⟩ := hl
    obtain ⟨n, hn, rfl, rfl⟩ := Heap.of_links hlink
    obtain ⟨h₁, hfree₁, hh₁⟩ := @ihc h fuel n.child hc hdc (by omega)
    have hself : h₁ a = some n := by rw [hh₁, if_neg ha.1, hn]
    have hs₁ : Linked null h₁.links n.sibling sibling := by
      refine hs.congr fun b hb ↦ ?_
      rw [Heap.links, Heap.links, hh₁, if_neg fun hm ↦ hdis hm hb]
    obtain ⟨h₂, hfree₂, hh₂⟩ := @ihs h₁ fuel n.sibling hs₁ hds (by omega)
    have hkept : h₂ a = some n := by rw [hh₂, if_neg ha.2, hself]
    refine ⟨Function.update h₂ a none, ?_, ?_⟩
    · rw [freeTree, if_neg hp]
      simp only [Heap.get, hn, hself, Except.bind, bind, hfree₁, hfree₂, Heap.free, hkept]
    · intro q
      by_cases hq : q = a
      · rw [hq, Function.update_self, nodes, if_pos List.mem_cons_self]
      · rw [Function.update_of_ne hq, hh₂, hh₁, nodes]
        by_cases hqs : q ∈ nodes sibling
        · simp [hqs]
        · by_cases hqc : q ∈ nodes child
          · simp [hqc]
          · simp [hq, hqs, hqc]

/-- The whole tree is given back, and nothing else was allocated. -/
theorem Built.freeTree_eq {procs : List Info} (hb : Built h p t procs)
    (hf : procs.length + 1 < fuel) : freeTree fuel p h = .ok fun _ ↦ none := by
  rw [← hb.length_nodes] at hf
  obtain ⟨h', hfree, hh'⟩ := freeTree_spec hb.linked hb.nodup hf
  have hempty : h' = fun _ ↦ none := by
    funext q
    rw [hh']
    by_cases hq : q ∈ nodes t
    · rw [if_pos hq]
    · rw [if_neg hq]
      have hinfo : h.info q = none := by
        by_contra hne
        exact hq (hb.owned q hne)
      exact Option.map_eq_none_iff.mp hinfo
  rw [hfree, hempty]

end Free

theorem parseArgs_ok {opts : List Opt} (hopts : ∀ o ∈ opts, o = .p ∨ o = .n)
    (acc : Bool × List UInt8) :
    parseArgs opts acc = .ok (acc.1 || decide (Opt.p ∈ opts),
      acc.2 ++ (List.replicate (opts.count .n) numericText).flatten) := by
  induction opts generalizing acc with
  | nil => simp [parseArgs]
  | cons o opts ih =>
    obtain ⟨ho, hopts⟩ := List.forall_mem_cons.mp hopts
    cases ho with
    | inl ho =>
      rw [ho, parseArgs, ih hopts]
      simp
    | inr ho =>
      rw [ho, parseArgs, ih hopts]
      simp [List.replicate_succ]

section Run

variable {a : Allocator} {fuel : ℕ} {root : Addr}

theorem foldlM_visitFile {files : List ProcFile} (hread : ∀ f ∈ files, f.dirent ≠ none) (h : Heap)
    (out : List UInt8) :
    files.foldlM (visitFile a fuel root) (h, out) =
      match tranverseProcDir a fuel root (files.filterMap ProcFile.dirent) h with
      | .error fault => .error (.fault fault)
      | .ok h' => .ok (h', out ++ files.flatMap ProcFile.printed) := by
  induction files generalizing h out with
  | nil =>
    rw [List.flatMap_nil, List.append_nil]
    rfl
  | cons f files ih =>
    obtain ⟨hf, hread⟩ := List.forall_mem_cons.mp hread
    obtain ⟨entry, hentry⟩ := Option.ne_none_iff_exists'.mp hf
    rw [List.foldlM_cons, List.filterMap_cons_some hentry, tranverseProcDir, List.foldlM_cons,
      visitFile, hentry]
    simp only
    cases hvisit : visit a fuel root h entry with
    | error fault => rfl
    | ok h' =>
      have hrest := ih hread h' (out ++ f.printed)
      rw [List.append_assoc] at hrest
      rw [List.flatMap_cons]
      exact hrest

/-- The first file from which no name is read. -/
theorem exists_first_unread {files : List ProcFile} (h : ∃ f ∈ files, f.dirent = none) :
    ∃ before f after, files = before ++ f :: after ∧ (∀ g ∈ before, g.dirent ≠ none) ∧
      f.dirent = none := by
  have hsome : (files.find? fun f ↦ f.dirent.isNone).isSome := by
    rw [List.find?_isSome]
    simpa using h
  obtain ⟨f, hfind⟩ := Option.isSome_iff_exists.mp hsome
  obtain ⟨hf, before, after, rfl, hbefore⟩ := List.find?_eq_some_iff_append.mp hfind
  refine ⟨before, f, after, rfl, fun g hg ↦ ?_, Option.isNone_iff_eq_none.mp hf⟩
  have hread := hbefore g hg
  rwa [Bool.not_eq_true', Option.isNone_eq_false_iff, Option.isSome_iff_ne_none] at hread

/-- The loop ends at the first file from which no name is read, unless `malloc` fails before. -/
theorem foldlM_visitFile_unread {files : List ProcFile} {h : Heap} {cells : BinaryTree Addr}
    (hb : Built h root cells [])
    (ho : Ordered ((files.filterMap ProcFile.dirent).filterMap Dirent.process))
    (hfuel : ((files.filterMap ProcFile.dirent).filterMap Dirent.process).length + 1 < fuel)
    (hunread : ∃ f ∈ files, f.dirent = none) (out : List UInt8) :
    files.foldlM (visitFile a fuel root) (h, out) = .error .uninitialised ∨
      files.foldlM (visitFile a fuel root) (h, out) = .error (.fault .exitFailure) ∧
        a.FailsIn fuel root h (files.filterMap ProcFile.dirent) := by
  obtain ⟨before, f, after, rfl, hbefore, hf⟩ := exists_first_unread hunread
  rw [List.filterMap_append, List.filterMap_append] at ho hfuel
  rw [List.length_append] at hfuel
  have hshort : ([] ++ (before.filterMap ProcFile.dirent).filterMap Dirent.process).length + 1 <
      fuel := by
    rw [List.nil_append]
    omega
  have htraverse := tranverseProcDir_spec (a := a) (before.filterMap ProcFile.dirent) hb
    ho.of_append hshort
  have hfold := @foldlM_visitFile a fuel root before hbefore h out
  rw [List.foldlM_append, hfold]
  obtain ⟨h', cells', hrun, -⟩ | ⟨herr, hfails⟩ := htraverse
  · left
    rw [hrun]
    simp only [bind, Except.bind]
    rw [List.foldlM_cons, visitFile, hf]
    rfl
  · right
    rw [herr, List.filterMap_append]
    exact ⟨rfl, hfails.append _⟩

/-- The processes that `/proc` shows. -/
def processes (files : List ProcFile) : List Info :=
  (files.filterMap ProcFile.dirent).filterMap Dirent.process

end Run

/-- `.`, `1` (`init`), `7` (`sh`, a child of 1) and `8`, whose file cannot be opened. -/
def sampleFiles : List ProcFile :=
  [⟨true, [46], none⟩,
    ⟨true, [49], some (nameKey ++ [9, 105, 110, 105, 116, 10] ++ ppidKey ++ [9, 48, 10])⟩,
    ⟨true, [55], some (nameKey ++ [9, 115, 104, 10] ++ ppidKey ++ [9, 49, 10])⟩,
    ⟨true, [56], none⟩]

end OsWorkbench.Pstree
