import OsWorkbench.Library.CircularList
import OsWorkbench.Library.Delimited
import OsWorkbench.Libco.Model
import Mathlib.Algebra.Group.Int.Defs

namespace OsWorkbench.Libco

open Library CircularList

inductive TestFault
  | assertion
  | invalidPointer
  | intOverflow
  | bufferOverflow
  | exitFailure
  | diverges
  deriving DecidableEq, Repr

/-- The memory of the test: the list heads of the queue and of the items, the text at
`item->data`, the other fields of the queue, the global variables and what has been printed.
The number of calls of `malloc`, the texts of the items made, the items that were not made or
not queued, and the fault are not part of the program. -/
structure TestMem where
  links : Links Addr
  data : Addr → Option (List UInt8)
  sz : ℤ
  cap : ℤ
  gCount : ℤ
  gRunning : Bool
  printed : List (List UInt8)
  requests : ℕ
  produced : List (List UInt8)
  failed : ℕ
  dropped : ℕ
  fault : Option TestFault

/-- What `malloc` returns, what stands in the list head of a new item, and how many bytes can
be written to a block of `malloc(10)`. -/
structure TestAlloc where
  malloc : TestMem → Addr
  bytes : TestMem → Link Addr
  usable : ℕ
  usable_ge : 10 ≤ usable
  fresh : ∀ m, malloc m ≠ null → m.links (malloc m) = none

/-- `"libco-%d"` -/
def itemText (n : ℤ) : List UInt8 := [108, 105, 98, 99, 111, 45] ++ Delimited.decimal n

namespace TestMem

def requested (m : TestMem) : TestMem := { m with requests := m.requests + 1 }

def qNew (a : TestAlloc) (cap : ℤ) (m : TestMem) : Except TestFault (Addr × TestMem) :=
  let queue := a.malloc m
  if queue = null then .error .exitFailure
  else .ok (queue, { m.requested with
    links := Function.update m.links queue (some ⟨queue, queue⟩), sz := 0, cap := cap })

def qIsFull (m : TestMem) : Prop := m.sz = m.cap

instance : DecidablePred qIsFull := fun m ↦ inferInstanceAs (Decidable (m.sz = m.cap))

/-- The first item, or the queue itself where it is empty. -/
def first (queue : Addr) (m : TestMem) : Except TestFault Addr :=
  match m.links queue with
  | some head => .ok head.next
  | none => .error .invalidPointer

def qIsEmpty (queue : Addr) (m : TestMem) : Except TestFault Bool := do
  return (← first queue m) = queue

def qPush (queue item : Addr) (m : TestMem) : Except TestFault TestMem :=
  if m.qIsFull then .ok { m with dropped := m.dropped + 1 }
  else
    match listAddTail item queue m.links with
    | some links => .ok { m with links := links, sz := m.sz + 1 }
    | none => .error .invalidPointer

def qPop (queue : Addr) (m : TestMem) : Except TestFault (Addr × TestMem) := do
  if ← qIsEmpty queue m then return (null, m)
  else
    let item ← first queue m
    match listDel null item m.links with
    | some links => return (item, { m with links := links, sz := m.sz - 1 })
    | none => throw .invalidPointer

def free (item : Addr) (m : TestMem) : TestMem :=
  { m with links := Function.update m.links item none, data := Function.update m.data item none }

/-- A new item, with what stood in its list head. -/
def allocated (item : Addr) (bytes : Link Addr) (m : TestMem) : TestMem :=
  { m with links := Function.update m.links item (some bytes) }

/-- `sprintf(item->data, "libco-%d", g_count++)` -/
def filled (item : Addr) (m : TestMem) : TestMem :=
  { m with
    data := Function.update m.data item (some (itemText m.gCount))
    gCount := m.gCount + 1
    produced := m.produced ++ [itemText m.gCount] }

/-- `sprintf` writes a text with a final 0, after `g_count++`. -/
def doProduce (a : TestAlloc) (queue : Addr) (m : TestMem) : Except TestFault TestMem :=
  if m.qIsFull then .error .assertion
  else
    let item := a.malloc m
    let m := m.requested
    if item = null then .ok { m with failed := m.failed + 1 }
    else
      let m := m.allocated item (a.bytes m)
      let data := a.malloc m
      let m := m.requested
      if data = null then .ok { m.free item with failed := m.failed + 1 }
      else if m.gCount = 2 ^ 31 - 1 then .error .intOverflow
      else if a.usable ≤ (itemText m.gCount).length then .error .bufferOverflow
      else qPush queue item (m.filled item)

def doConsume (queue : Addr) (m : TestMem) : Except TestFault TestMem := do
  if ← qIsEmpty queue m then throw .assertion
  else
    let (item, m) ← qPop queue m
    if item = null then return m
    else
      match m.data item with
      | some text => return { m.free item with printed := m.printed ++ [text] }
      | none => throw .invalidPointer

/-- The last loop of `test_2`. -/
def drain (queue : Addr) : ℕ → TestMem → Except TestFault TestMem
  | 0, _ => .error .diverges
  | fuel + 1, m => do
    if ← qIsEmpty queue m then return m
    else drain queue fuel (← doConsume queue m)

/-- The loop of `q_free`, with the item it is at and the next one. -/
def qFreeLoop (queue : Addr) : ℕ → Addr → Addr → TestMem → Except TestFault TestMem
  | 0, _, _, _ => .error .diverges
  | fuel + 1, pos, next, m =>
    if pos = queue then .ok m
    else
      match listDel null pos m.links with
      | some links => do
        let m := free pos { m with links := links }
        qFreeLoop queue fuel next (← first next m) m
      | none => .error .invalidPointer

def qFree (queue : Addr) (m : TestMem) : Except TestFault TestMem := do
  let pos ← first queue m
  let next ← first pos m
  let m ← qFreeLoop queue (m.sz.toNat + 1) pos next m
  return m.free queue

end TestMem

/-- The list of the queue holds its `sz` items and nothing else is allocated; the items were
numbered in the order in which they were made, and those that are not printed yet are queued. -/
structure Queued (start : ℤ) (queue : Addr) (m : TestMem) (nodes : List Addr)
    (texts : List (List UInt8)) : Prop where
  ring : Ring m.links queue nodes
  owned : ∀ a, (m.links a).isSome ↔ a ∈ queue :: nodes
  null : null ∉ queue :: nodes
  size : m.sz = nodes.length
  bound : m.sz ≤ m.cap
  data : nodes.map m.data = texts.map some
  fifo : m.printed ++ texts = m.produced
  numbered : m.produced = (List.range m.produced.length).map fun j : ℕ ↦ itemText (start + j)
  count : m.gCount = start + m.produced.length
  dropped : m.dropped = 0

/-- The fields that the operations of the queue leave alone. -/
def TestMem.rest (m : TestMem) : ℤ × Bool × Option TestFault := (m.cap, m.gRunning, m.fault)

namespace Queued

variable {start : ℤ} {queue : Addr} {m m' : TestMem} {nodes : List Addr}
  {texts : List (List UInt8)} {a : TestAlloc}

theorem first_eq (h : Queued start queue m nodes texts) : ∃ p, m.first queue = .ok p ∧
    nextOf m.links queue = some p := by
  obtain ⟨l, hl⟩ := Option.isSome_iff_exists.mp (h.ring.isSome queue List.mem_cons_self)
  exact ⟨l.next, by rw [TestMem.first, hl], by rw [nextOf, hl, Option.map_some]⟩

theorem qIsEmpty_eq (h : Queued start queue m nodes texts) :
    m.qIsEmpty queue = .ok (decide (nodes = [])) := by
  obtain ⟨p, hp, hnext⟩ := h.first_eq
  rw [TestMem.qIsEmpty, hp]
  simp only [← h.ring.next_eq_head_iff, hnext, Option.some.injEq]
  rfl

theorem length_eq (h : Queued start queue m nodes texts) : nodes.length = texts.length := by
  simpa using congrArg List.length h.data

theorem fresh (h : Queued start queue m nodes texts) {item : Addr} (hnull : m.links item = none) :
    item ∉ queue :: nodes := by
  intro hm
  have hsome := (h.owned item).mpr hm
  rw [hnull] at hsome
  cases hsome

/-- `g_running` and the fault do not matter to the queue. -/
theorem withRest (h : Queued start queue m nodes texts) (running : Bool)
    (fault : Option TestFault) :
    Queued start queue { m with gRunning := running, fault := fault } nodes texts :=
  ⟨h.ring, h.owned, h.null, h.size, h.bound, h.data, h.fifo, h.numbered, h.count, h.dropped⟩

theorem push (h : Queued start queue m nodes texts) (hfull : ¬ m.qIsFull) {item : Addr}
    (hitem : item ≠ Libco.null) (hnull : m.links item = none) (bytes : Link Addr) :
    ∃ m', ((m.allocated item bytes).filled item).qPush queue item = .ok m' ∧
      Queued start queue m' (nodes ++ [item]) (texts ++ [itemText m.gCount]) ∧
      m'.rest = m.rest ∧ m'.produced = m.produced ++ [itemText m.gCount] ∧ m'.failed = m.failed := by
  have hfresh := h.fresh hnull
  have hne : ∀ b ∈ queue :: nodes, b ≠ item := fun b hb he ↦ hfresh (he ▸ hb)
  have hring : Ring (Function.update m.links item (some bytes)) queue nodes :=
    h.ring.congr fun b hb ↦ Function.update_of_ne (hne b hb) ..
  obtain ⟨links, hadd, hring', hlive⟩ := hring.addTail (by rw [Function.update_self]; rfl) hfresh
  have hroom : m.sz < m.cap := by
    have hbound := h.bound
    have hne : m.sz ≠ m.cap := hfull
    omega
  have hpush : ((m.allocated item bytes).filled item).qPush queue item =
      .ok { (m.allocated item bytes).filled item with links := links, sz := m.sz + 1 } := by
    rw [TestMem.qPush, if_neg (show ¬ ((m.allocated item bytes).filled item).qIsFull from hfull)]
    simp only [show listAddTail item queue ((m.allocated item bytes).filled item).links =
      some links from hadd]
    rfl
  refine ⟨_, hpush, ⟨hring', fun b ↦ ?_, ?_, ?_, ?_, ?_, ?_, ?_, ?_, h.dropped⟩, rfl, rfl, rfl⟩
  · rw [hlive, Function.update_apply, ← List.cons_append, List.mem_append, List.mem_singleton,
      ← h.owned]
    split
    · simp [*]
    · simp [*]
  · rw [← List.cons_append, List.mem_append, List.mem_singleton, not_or]
    exact ⟨h.null, hitem.symm⟩
  · simp [h.size]
  · exact hroom
  · rw [List.map_append, List.map_append, ← h.data, List.map_singleton, List.map_singleton]
    congr 1
    · exact List.map_congr_left fun b hb ↦
        Function.update_of_ne (hne b (List.mem_cons_of_mem _ hb)) ..
    · exact congrArg (fun x ↦ [x]) (Function.update_self ..)
  · change m.printed ++ (texts ++ [itemText m.gCount]) = m.produced ++ [itemText m.gCount]
    rw [← List.append_assoc, h.fifo]
  · change m.produced ++ [itemText m.gCount] =
      (List.range (m.produced ++ [itemText m.gCount]).length).map fun j : ℕ ↦ itemText (start + j)
    rw [List.length_append, List.length_singleton, List.range_succ, List.map_append, ← h.numbered,
      List.map_singleton, ← h.count]
  · change m.gCount + 1 = start + ((m.produced ++ [itemText m.gCount]).length : ℕ)
    rw [h.count, List.length_append, List.length_singleton]
    omega

theorem doProduce_spec (h : Queued start queue m nodes texts) (hfull : ¬ m.qIsFull) :
    (∃ m' nodes' texts', m.doProduce a queue = .ok m' ∧ Queued start queue m' nodes' texts' ∧
      m'.rest = m.rest ∧
      m'.produced.length + m'.failed = m.produced.length + m.failed + 1) ∨
    ∃ e, m.doProduce a queue = .error e ∧ (e = .intOverflow ∨ e = .bufferOverflow) := by
  rw [TestMem.doProduce, if_neg hfull]
  by_cases hitem : a.malloc m = Libco.null
  · refine Or.inl ⟨_, nodes, texts, if_pos hitem, ?_, rfl, rfl⟩
    exact ⟨h.ring, h.owned, h.null, h.size, h.bound, h.data, h.fifo, h.numbered, h.count, h.dropped⟩
  · have hnull := a.fresh m hitem
    have hfresh := h.fresh hnull
    simp only [if_neg hitem]
    split_ifs with hdata hmax hlong
    · refine Or.inl ⟨_, nodes, texts, rfl, ⟨?_, ?_, h.null, h.size, h.bound, ?_, h.fifo, h.numbered,
        h.count, h.dropped⟩, rfl, rfl⟩
      · refine h.ring.congr fun b hb ↦ ?_
        have hb' : b ≠ a.malloc m := fun he ↦ hfresh (he ▸ hb)
        simp [TestMem.free, TestMem.requested, TestMem.allocated, Function.update_of_ne hb']
      · intro b
        rw [← h.owned]
        by_cases hb : b = a.malloc m
        · simp [TestMem.free, TestMem.requested, TestMem.allocated, hb, hnull]
        · simp [TestMem.free, TestMem.requested, TestMem.allocated, hb]
      · rw [← h.data]
        refine List.map_congr_left fun b hb ↦ ?_
        have hb' : b ≠ a.malloc m := fun he ↦ hfresh (he ▸ List.mem_cons_of_mem _ hb)
        simp [TestMem.free, TestMem.requested, TestMem.allocated, Function.update_of_ne hb']
    · exact Or.inr ⟨_, rfl, Or.inl rfl⟩
    · exact Or.inr ⟨_, rfl, Or.inr rfl⟩
    · have h₁ : Queued start queue m.requested.requested nodes texts :=
        ⟨h.ring, h.owned, h.null, h.size, h.bound, h.data, h.fifo, h.numbered, h.count, h.dropped⟩
      obtain ⟨m', hpush, hq, hrest, hproduced, hfailed⟩ :=
        h₁.push hfull hitem hnull (a.bytes m.requested)
      refine Or.inl ⟨m', _, _, hpush, hq, hrest, ?_⟩
      rw [hproduced, hfailed, List.length_append, List.length_singleton]
      simp only [TestMem.requested]
      omega

theorem doConsume_spec (h : Queued start queue m nodes texts) (hne : nodes ≠ []) :
    ∃ m' nodes' texts', m.doConsume queue = .ok m' ∧ Queued start queue m' nodes' texts' ∧
      nodes'.length + 1 = nodes.length ∧ m'.rest = m.rest ∧ m'.produced = m.produced ∧
      m'.failed = m.failed := by
  obtain ⟨item, nodes, rfl⟩ := List.exists_cons_of_ne_nil hne
  obtain ⟨text, texts, rfl⟩ : ∃ text rest, texts = text :: rest := by
    cases texts with
    | nil => cases h.length_eq
    | cons text texts => exact ⟨text, texts, rfl⟩
  obtain ⟨hdata, hrest⟩ := List.cons.inj h.data
  obtain ⟨hnext, links, hdel, hring, hlive⟩ := h.ring.delFirst Libco.null
  obtain ⟨p, hp, hpnext⟩ := h.first_eq
  obtain rfl : p = item := Option.some.inj (hpnext.symm.trans hnext)
  have hempty : m.qIsEmpty queue = .ok false := h.qIsEmpty_eq
  have hnull : p ≠ Libco.null := fun he ↦
    h.null (he ▸ List.mem_cons_of_mem _ List.mem_cons_self)
  have hnodup := List.nodup_cons.mp (List.nodup_cons.mp h.ring.nodup).2
  have hpq : p ≠ queue := fun he ↦
    (List.nodup_cons.mp h.ring.nodup).1 (he ▸ List.mem_cons_self)
  have hother : ∀ b ∈ queue :: nodes, b ≠ p := by
    intro b hb he
    rcases List.mem_cons.mp hb with rfl | hb
    · exact hpq he.symm
    · exact hnodup.1 (he ▸ hb)
  refine ⟨{ TestMem.free p { m with links := links, sz := m.sz - 1 } with
    printed := m.printed ++ [text] }, nodes, texts, ?_, ⟨?_, fun b ↦ ?_, ?_, ?_, ?_, ?_, ?_,
    h.numbered, h.count, h.dropped⟩, rfl, rfl, rfl, rfl⟩
  · simp only [TestMem.doConsume, TestMem.qPop, hempty, hp, hdel, Except.bind, bind, pure,
      Except.pure, if_neg hnull, hdata, Bool.false_eq_true, if_false]
  · exact hring.congr fun b hb ↦ Function.update_of_ne (hother b hb) ..
  · simp only [TestMem.free, Function.update_apply]
    split
    · rename_i he
      subst he
      exact ⟨fun hf ↦ Bool.noConfusion hf, fun hm ↦ absurd rfl (hother b hm)⟩
    · rename_i hb
      rw [hlive, h.owned, List.mem_cons, List.mem_cons, List.mem_cons]
      simp [hb]
  · exact fun hm ↦ h.null <| (List.mem_cons.mp hm).elim (fun he ↦ he ▸ List.mem_cons_self)
      fun hm ↦ List.mem_cons_of_mem _ (List.mem_cons_of_mem _ hm)
  · have hsize := h.size
    simp only [List.length_cons] at hsize
    simp only [TestMem.free]
    omega
  · have hbound := h.bound
    simp only [TestMem.free]
    omega
  · rw [← hrest]
    exact List.map_congr_left fun b hb ↦
      Function.update_of_ne (hother b (List.mem_cons_of_mem _ hb)) ..
  · rw [← h.fifo, List.append_assoc, List.singleton_append]
    rfl

theorem drain_spec (h : Queued start queue m nodes texts) {fuel : ℕ} (hf : nodes.length < fuel) :
    ∃ m', m.drain queue fuel = .ok m' ∧ Queued start queue m' [] [] ∧ m'.rest = m.rest ∧
      m'.produced = m.produced ∧ m'.failed = m.failed := by
  induction fuel generalizing m nodes texts with
  | zero => exact absurd hf (Nat.not_lt_zero _)
  | succ fuel ih =>
    rw [TestMem.drain, h.qIsEmpty_eq]
    by_cases hnil : nodes = []
    · subst hnil
      obtain rfl : texts = [] := List.eq_nil_of_length_eq_zero h.length_eq.symm
      exact ⟨m, rfl, h, rfl, rfl, rfl⟩
    · obtain ⟨m₁, nodes₁, texts₁, hok, h₁, hlen, hrest, hproduced, hfailed⟩ := h.doConsume_spec hnil
      obtain ⟨m', hdrain, h', hrest', hproduced', hfailed'⟩ := ih h₁ (by omega)
      refine ⟨m', ?_, h', hrest'.trans hrest, hproduced'.trans hproduced, hfailed'.trans hfailed⟩
      simp only [hnil, decide_false, Except.bind, bind, Bool.false_eq_true, if_false, hok]
      exact hdrain

theorem qFree_spec (h : Queued start queue m [] texts) : m.qFree queue = .ok (m.free queue) := by
  obtain ⟨p, hp, hnext⟩ := h.first_eq
  obtain rfl : p = queue :=
    Option.some.inj (hnext.symm.trans (h.ring.next_eq_head_iff.mpr rfl))
  simp only [TestMem.qFree, hp, Except.bind, bind, TestMem.qFreeLoop, if_true]
  rfl

end Queued

end OsWorkbench.Libco
