import OsWorkbench.Libco.Model
import Mathlib.Data.List.Basic

namespace OsWorkbench.Libco

open Library

variable {Fn Arg K M : Type}

def State.nextOf (s : State Fn Arg K M) (a : Addr) : Option Addr := (s.heap a).map Co.next

/-- The list that begins at `head` has `co_num` nodes, and they are the allocated
coroutines. -/
structure Listed (s : State Fn Arg K M) (nodes : List Addr) : Prop where
  linked : PointerChain.Linked s.nextOf s.head nodes
  nodup : nodes.Nodup
  live : ∀ a, a ∈ nodes ↔ (s.heap a).isSome
  length : s.coNum = nodes.length
  null : s.heap null = none

/-- The pointers from `head` on lead through these nodes, and from the last of them to `q`. -/
def EndsAt (s : State Fn Arg K M) (q : Addr) (nodes : List Addr) : Prop :=
  PointerChain.LinkedTo s.nextOf q s.head nodes

/-- The same coroutines with other `next` pointers. -/
def renext (n : Addr → Addr) (heap : Addr → Option (Co Fn Arg K)) : Addr → Option (Co Fn Arg K) :=
  fun w ↦ (heap w).map fun c ↦ { c with next := n w }

variable {s : State Fn Arg K M} {nodes : List Addr}

theorem Listed.of_eq {s' : State Fn Arg K M} (h : Listed s nodes) (hheap : s'.heap = s.heap)
    (hhead : s'.head = s.head) (hnum : s'.coNum = s.coNum) : Listed s' nodes := by
  have hnext : s'.nextOf = s.nextOf := by
    funext a
    rw [State.nextOf, State.nextOf, hheap]
  obtain ⟨hlinked, hnodup, hlive, hlength, hnull⟩ := h
  exact ⟨by rwa [hnext, hhead], hnodup, by rwa [hheap], hnum.trans hlength, by rwa [hheap]⟩

/-- Changes of other fields than `next` leave the list alone. -/
theorem Listed.store (h : Listed s nodes) {a : Addr} {c : Co Fn Arg K} (hc : s.heap a = some c)
    (c' : Co Fn Arg K) (hnext : c'.next = c.next) : Listed (s.store a c') nodes := by
  have ha : a ∈ nodes := (h.live a).mpr (by rw [hc]; rfl)
  refine ⟨h.linked.congr fun b _ ↦ ?_, h.nodup, fun b ↦ ?_, h.length, ?_⟩
  · by_cases hb : b = a
    · simp [State.nextOf, State.store, hb, hc, hnext]
    · simp [State.nextOf, State.store, hb]
  · by_cases hb : b = a
    · simp [hb, ha]
    · rw [h.live, State.store_heap_ne hb]
  · rw [State.store_heap_ne, h.null]
    rintro rfl
    rw [h.null] at hc
    cases hc

theorem Listed.ne_null (h : Listed s nodes) {a : Addr} (ha : a ∈ nodes) : a ≠ Libco.null := by
  rintro rfl
  have hlive := (h.live _).mp ha
  rw [h.null] at hlive
  cases hlive

theorem Listed.exists_co (h : Listed s nodes) {a : Addr} (ha : a ∈ nodes) :
    ∃ c, s.heap a = some c :=
  Option.isSome_iff_exists.mp ((h.live a).mp ha)

theorem selectLoop_eq {n : ℕ} {p a : Addr} (h : PointerChain.follow s.nextOf n p = some a) :
    selectLoop s n p = .ok a := by
  induction n generalizing p with
  | zero =>
    cases h
    rfl
  | succ n ih =>
    cases hp : s.heap p with
    | none => simp [PointerChain.follow, State.nextOf, hp] at h
    | some c =>
      have hrest : PointerChain.follow s.nextOf n c.next = some a := by
        simpa [PointerChain.follow, State.nextOf, hp] using h
      rw [selectLoop, State.load_eq hp]
      exact ih hrest

theorem Listed.randomSelectCo (h : Listed s nodes) {rand : ℕ} {a : Addr}
    (ha : nodes[rand % nodes.length]? = some a) : randomSelectCo s rand = .ok a := by
  obtain ⟨hlt, rfl⟩ := List.getElem?_eq_some_iff.mp ha
  have hpos : 0 < s.coNum := by
    rw [h.length]
    omega
  have hnum : s.coNum.toNat = nodes.length := by rw [h.length, Int.toNat_natCast]
  rw [Libco.randomSelectCo, if_pos hpos, hnum]
  exact selectLoop_eq (h.linked.follow hlt)

section Insert

variable {a : Addr} (c : Co Fn Arg K)

/-- `insert_co` splices the new node in behind the current one. -/
theorem Listed.insertCo (h : Listed s nodes) (hc : s.current ∈ nodes) (ha : a ∉ nodes)
    (hnull : a ≠ Libco.null) :
    ∃ n, insertCo (s.store a c) a =
        .ok { s with heap := renext n (Function.update s.heap a (some c)), coNum := s.coNum + 1 } ∧
      Listed { s with heap := renext n (Function.update s.heap a (some c)), coNum := s.coNum + 1 }
        (PointerChain.insertAfter s.current a nodes) ∧
      ∀ q, EndsAt s q nodes →
        EndsAt { s with heap := renext n (Function.update s.heap a (some c)), coNum := s.coNum + 1 }
          q (PointerChain.insertAfter s.current a nodes) := by
  obtain ⟨cur, hcur⟩ := h.exists_co hc
  have hne : s.current ≠ a := fun he ↦ ha (he ▸ hc)
  let n : Addr → Addr := fun w ↦ if w = a then cur.next else if w = s.current then a
    else ((s.heap w).map Co.next).getD 0
  have hperm := PointerChain.insertAfter_perm (a := a) hc
  have hsplice : ∀ q, EndsAt s q nodes →
      EndsAt { s with heap := renext n (Function.update s.heap a (some c)), coNum := s.coNum + 1 }
        q (PointerChain.insertAfter s.current a nodes) := by
    intro q hq
    apply hq.insertAfter h.nodup hc ha (by rw [State.nextOf, hcur]; rfl)
    · intro b hb hb'
      simp only [State.nextOf, renext, Function.update_of_ne hb', n, if_neg hb', if_neg hb]
      cases s.heap b <;> rfl
    · simp [State.nextOf, renext, hcur, n, hne]
    · simp [State.nextOf, renext, n]
  obtain ⟨q, hq⟩ := PointerChain.linked_iff.mp h.linked
  refine ⟨n, ?_, ⟨(hsplice q hq).linked, ?_, fun w ↦ ?_, ?_, ?_⟩, hsplice⟩
  · have hheap : (s.store a c).heap s.current = some cur := (State.store_heap_ne hne).trans hcur
    have hheapa : ((s.store a c).store s.current { cur with next := a }).heap a = some c :=
      (State.store_heap_ne hne.symm).trans State.store_heap_self
    rw [Libco.insertCo, State.store_current, if_neg (h.ne_null hc)]
    simp only [bind, Except.bind, State.load_eq hheap, State.modify_eq hheap, State.modify_eq hheapa,
      pure, Except.pure]
    congr 2
    funext w
    by_cases hwa : w = a
    · subst hwa
      simp [renext, n]
    · by_cases hwc : w = s.current
      · subst hwc
        simp [State.store, renext, n, hwa, hcur]
      · simp only [State.store, renext, n, Function.update_of_ne hwa, Function.update_of_ne hwc,
          if_neg hwa, if_neg hwc]
        cases s.heap w <;> rfl
  · rw [hperm.nodup_iff]
    exact List.nodup_cons.mpr ⟨ha, h.nodup⟩
  · rw [hperm.mem_iff, List.mem_cons, h.live w]
    by_cases hw : w = a
    · simp [renext, hw]
    · simp [renext, hw]
  · rw [hperm.length_eq, h.length]
    push_cast
    rfl
  · simp [renext, Function.update_of_ne hnull.symm, h.null]

end Insert

/-- What `remove_co` does where it has found its argument behind `prev`. -/
def unlink (s : State Fn Arg K M) (prev next : Addr) : Except Fault (State Fn Arg K M) :=
  if prev = null then .ok { s with head := next }
  else s.modify prev fun c ↦ { c with next := next }

theorem removeLoop_eq {co : Addr} {c : Co Fn Arg K} (hco : s.heap co = some c)
    (hnull : s.heap null = none) {pre post : List Addr} {fuel : ℕ} {prev temp : Addr}
    (h : PointerChain.Linked s.nextOf temp (pre ++ co :: post)) (hpre : co ∉ pre)
    (hfuel : pre.length < fuel) :
    removeLoop co fuel s prev temp = unlink s (pre.getLastD prev) c.next := by
  have hne : ∀ x cx, s.heap x = some cx → x ≠ null := by
    rintro x cx hx rfl
    rw [hnull] at hx
    cases hx
  induction pre generalizing fuel prev temp with
  | nil =>
    obtain ⟨fuel, rfl⟩ : ∃ f, fuel = f + 1 := ⟨fuel - 1, by omega⟩
    obtain ⟨rfl, _⟩ := h
    rw [removeLoop, if_neg (hne _ c hco), State.load_eq hco]
    simp only [bind, Except.bind, if_true]
    rfl
  | cons x pre ih =>
    obtain ⟨fuel, rfl⟩ : ∃ f, fuel = f + 1 := ⟨fuel - 1, by omega⟩
    obtain ⟨rfl, q, hq, hrest⟩ := h
    obtain ⟨cx, hx, rfl⟩ := Option.map_eq_some_iff.mp hq
    have hxco : x ≠ co := fun he ↦ hpre (he ▸ List.mem_cons_self)
    rw [removeLoop, if_neg (hne x cx hx), State.load_eq hx]
    simp only [bind, Except.bind, if_neg hxco]
    rw [ih hrest (fun hm ↦ hpre (List.mem_cons_of_mem _ hm))
      (by simp only [List.length_cons] at hfuel; omega), List.getLastD_cons]

theorem Listed.unlink (h : Listed s nodes) {co : Addr} {c : Co Fn Arg K} (hco : s.heap co = some c)
    {pre post : List Addr} (hnodes : nodes = pre ++ co :: post) :
    ∃ n head', Libco.unlink s (pre.getLastD Libco.null) c.next =
        .ok { s with heap := renext n s.heap, head := head' } ∧
      ∀ q, EndsAt s q nodes → PointerChain.LinkedTo
        (fun a ↦ ((renext n s.heap) a).map Co.next) q head' (pre ++ post) := by
  rcases List.eq_nil_or_concat pre with rfl | ⟨pre, u, rfl⟩
  · refine ⟨fun w ↦ ((s.heap w).map Co.next).getD 0, c.next, ?_, fun q hlinked ↦ ?_⟩
    · have hsame : renext (fun w ↦ ((s.heap w).map Co.next).getD 0) s.heap = s.heap := by
        funext w
        cases hw : s.heap w <;> simp [renext, hw]
      rw [hsame]
      rfl
    · rw [hnodes] at hlinked
      obtain ⟨-, r, hr, hrest⟩ := hlinked
      have hrc : c.next = r := by simpa [State.nextOf, hco] using hr
      rw [hrc]
      refine hrest.congr fun b _ ↦ ?_
      cases hb : s.heap b <;> simp [renext, State.nextOf, hb]
  · rw [List.concat_eq_append] at hnodes ⊢
    rw [List.append_assoc, List.singleton_append] at hnodes
    have hu : u ∈ nodes := by simp [hnodes]
    obtain ⟨cu, hcu⟩ := h.exists_co hu
    have hq : s.nextOf co = some c.next := by rw [State.nextOf, hco]; rfl
    refine ⟨fun w ↦ if w = u then c.next else ((s.heap w).map Co.next).getD 0, s.head, ?_,
      fun q hlinked ↦ ?_⟩
    · rw [List.getLastD_concat, Libco.unlink, if_neg (h.ne_null hu), State.modify_eq hcu,
        State.store]
      congr 2
      funext w
      by_cases hw : w = u
      · simp [renext, hw, hcu]
      · rw [Function.update_of_ne hw]
        cases hsw : s.heap w <;> simp [renext, hsw, hw]
    · rw [hnodes] at hlinked
      rw [List.append_assoc, List.singleton_append]
      refine hlinked.unlink (hnodes ▸ h.nodup) hq (fun b hb _ ↦ ?_) ?_
      · cases hsb : s.heap b <;> simp [renext, State.nextOf, hsb, hb]
      · simp [renext, hcu]

/-- `remove_co` finds its argument, frees it, and keeps the list of the others. -/
theorem Listed.removeCo (h : Listed s nodes) {co : Addr} (hco : co ∈ nodes)
    (hcur : s.current ≠ co) :
    ∃ n head', removeCo s co = .ok { s with
        heap := Function.update (renext n s.heap) co none, head := head', coNum := s.coNum - 1 } ∧
      Listed { s with
        heap := Function.update (renext n s.heap) co none, head := head', coNum := s.coNum - 1 }
        (nodes.erase co) ∧
      ∀ q, EndsAt s q nodes → EndsAt { s with
        heap := Function.update (renext n s.heap) co none, head := head', coNum := s.coNum - 1 }
        q (nodes.erase co) := by
  obtain ⟨c, hc⟩ := h.exists_co hco
  obtain ⟨pre, post, hnodes⟩ := List.append_of_mem hco
  have hd := h.nodup
  rw [hnodes] at hd
  have hpre : co ∉ pre := fun hm ↦ (List.disjoint_of_nodup_append hd) hm List.mem_cons_self
  have hpost : co ∉ post := (List.nodup_cons.mp (List.nodup_append.mp hd).2.1).1
  have herase : nodes.erase co = pre ++ post := by
    rw [hnodes, List.erase_append_right _ hpre, List.erase_cons_head]
  have hfuel : pre.length < s.coNum.toNat + 1 := by
    rw [h.length, Int.toNat_natCast, hnodes, List.length_append, List.length_cons]
    omega
  have hpos : 0 < s.coNum := by
    rw [h.length]
    exact_mod_cast List.length_pos_of_mem hco
  obtain ⟨n, head', hunlink, hlinked⟩ := h.unlink hc hnodes
  have hends : ∀ q, EndsAt s q nodes → EndsAt { s with
      heap := Function.update (renext n s.heap) co none, head := head', coNum := s.coNum - 1 }
      q (nodes.erase co) := by
    intro q hq
    rw [herase]
    refine (hlinked q hq).congr fun b hb ↦ ?_
    have hne : b ≠ co := by
      rintro rfl
      rcases List.mem_append.mp hb with hb | hb
      · exact hpre hb
      · exact hpost hb
    simp only [State.nextOf, Function.update_of_ne hne]
  obtain ⟨q, hq⟩ := PointerChain.linked_iff.mp h.linked
  refine ⟨n, head', ?_, ⟨(hends q hq).linked, h.nodup.erase co, fun w ↦ ?_, ?_, ?_⟩, hends⟩
  · have hloop : removeLoop co (s.coNum.toNat + 1) s Libco.null s.head =
        Libco.unlink s (pre.getLastD Libco.null) c.next :=
      removeLoop_eq hc h.null (hnodes ▸ h.linked) hpre hfuel
    rw [Libco.removeCo, if_neg hcur, if_pos hpos, hloop, hunlink]
    simp only [bind, Except.bind, free, State.load, renext, hc, Option.map_some]
    rfl
  · rw [h.nodup.mem_erase_iff, h.live]
    by_cases hw : w = co
    · simp [hw]
    · simp [hw, renext]
  · have hlen := List.length_erase_of_mem hco
    have hlt := List.length_pos_of_mem hco
    simp only [hlen, h.length]
    omega
  · by_cases hw : Libco.null = co
    · simp [hw]
    · simp [Function.update_of_ne hw, renext, h.null]

end OsWorkbench.Libco
