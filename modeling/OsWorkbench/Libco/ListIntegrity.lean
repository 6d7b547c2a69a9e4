import OsWorkbench.Libco.Runs

namespace OsWorkbench.Libco

open Library

variable {Fn Arg K M : Type} {P : Program Fn Arg K M} {s : State Fn Arg K M}

/-- `w` is in the loop of `co_wait(t)`: it runs there, or its registers say so. -/
def InCoWait (s : State Fn Arg K M) (w t : Addr) : Prop :=
  if w = s.current then ∃ k, s.mode = .coWait t k ∨ s.mode = .coYield (.waiting t k)
  else ∃ c k, s.heap w = some c ∧ c.status ≠ .coNew ∧ c.context = .waiting t k

theorem Frame.activity_eq_waiting {f : Frame K} {t : Addr} (h : f.activity = .waiting t) :
    ∃ k, f = .waiting t k := by
  cases f with
  | user k => cases h
  | waiting co k =>
    cases h
    exact ⟨k, rfl⟩
  | finished => cases h

theorem Mode.activity_eq_waiting {m : Mode Arg K} {t : Addr} (h : m.activity = some (.waiting t)) :
    ∃ k, m = .coWait t k ∨ m = .coYield (.waiting t k) := by
  cases m with
  | user k => cases h
  | wrapper arg => cases h
  | coYield frame =>
    obtain ⟨k, rfl⟩ := Frame.activity_eq_waiting (Option.some.inj h)
    exact ⟨k, .inr rfl⟩
  | coWait co k =>
    cases h
    exact ⟨k, .inl rfl⟩
  | exited => cases h

theorem inCoWait_iff {w t : Addr} : InCoWait s w t ↔ s.view.activity w = some (.waiting t) := by
  rw [InCoWait]
  by_cases hw : w = s.current
  · simp only [State.view, hw, if_true]
    constructor
    · rintro ⟨k, hk | hk⟩ <;> rw [hk] <;> rfl
    · exact Mode.activity_eq_waiting
  · simp only [State.view, if_neg hw]
    constructor
    · rintro ⟨c, k, hc, hnew, hk⟩
      rw [hc, Option.bind_some, Co.activity, if_neg hnew, hk]
      rfl
    · intro h
      obtain ⟨c, hc, hact⟩ := Option.bind_eq_some_iff.mp h
      rw [Co.activity] at hact
      split_ifs at hact with hnew
      obtain ⟨k, hk⟩ := Frame.activity_eq_waiting (Option.some.inj hact)
      exact ⟨c, k, hc, hnew, hk⟩

/-- The pointers that the library can still follow. -/
inductive Followed (s : State Fn Arg K M) : Addr → Prop
  | current : Followed s s.current
  | waiter {t : Addr} {c : Co Fn Arg K} (hc : s.heap t = some c) (hmain : t ≠ s.mainCo)
      (hdead : c.status ≠ .coDead) (hnull : c.waiter ≠ null) : Followed s c.waiter
  | target {w t : Addr} (hw : InCoWait s w t) : Followed s t

theorem Inv.followed_live (h : Inv s) {a : Addr} (ha : Followed s a) : (s.heap a).isSome := by
  have hlive : ∀ {a}, (s.view.status a).isSome → (s.heap a).isSome := fun {a} hs ↦ by
    obtain ⟨c, hc⟩ := exists_of_live hs
    rw [hc]
    rfl
  cases ha with
  | current => exact hlive h.ok.current
  | waiter hc hmain hdead hnull =>
    exact hlive (h.ok.live_of_activity
      (h.ok.waiter _ _ (by simp [State.view, hc]) hmain hnull))
  | target hw => exact hlive (h.ok.live_target (inCoWait_iff.mp hw))

theorem Inv.removeCo (h : Inv s) {nodes : List Addr} (hl : Listed s nodes) {t : Addr} {k : K}
    (hmode : s.mode = .coWait t k) {c : Co Fn Arg K} (hc : s.heap t = some c)
    (hdead : c.status = .coDead) :
    ∃ s', removeCo s t = .ok s' ∧ s'.heap t = none ∧ Listed s' (nodes.erase t) := by
  have hmem : t ∈ nodes := (hl.live t).mpr (by rw [hc]; rfl)
  obtain ⟨n, head', hremove, hlist, -⟩ := hl.removeCo hmem (h.current_ne hmode hc hdead)
  exact ⟨_, hremove, Function.update_self .., hlist⟩

/-- The `co_num` nodes from `head` on are the coroutines that are allocated, all
pointers in use lead to one of them, `random_select_co` returns each of them and
nothing else, and `remove_co` finds and frees its argument. -/
structure Integrity (s : State Fn Arg K M) (nodes : List Addr) : Prop where
  listed : Listed s nodes
  followed : ∀ a, Followed s a → a ∈ nodes
  selected : ∀ rand, ∃ a, nodes[rand % nodes.length]? = some a ∧ randomSelectCo s rand = .ok a
  selects : ∀ a ∈ nodes, ∃ rand < nodes.length, randomSelectCo s rand = .ok a
  removed : ∀ t k c, s.mode = .coWait t k → s.heap t = some c → c.status = .coDead →
    ∃ s', removeCo s t = .ok s' ∧ s'.heap t = none ∧ Listed s' (nodes.erase t)

theorem list_integrity (h : ((coSystem P).restrict (WaitsOnce P)).Reachable s) :
    ∃ nodes, Integrity s nodes := by
  have hinv := reachable_inv (fun _ ↦ id) h
  obtain ⟨nodes, hl⟩ := hinv.listed
  have hfollowed : ∀ a, Followed s a → a ∈ nodes := fun a ha ↦
    (hl.live a).mpr (hinv.followed_live ha)
  have hpos : 0 < nodes.length := List.length_pos_of_mem (hfollowed _ .current)
  refine ⟨nodes, hl, hfollowed, fun rand ↦ ?_, fun a ha ↦ ?_, fun t k c hmode hc hdead ↦ ?_⟩
  · have hsel := List.getElem?_eq_getElem (Nat.mod_lt rand hpos)
    exact ⟨_, hsel, hl.randomSelectCo hsel⟩
  · obtain ⟨rand, hlt, rfl⟩ := List.mem_iff_getElem.mp ha
    refine ⟨rand, hlt, hl.randomSelectCo ?_⟩
    rw [Nat.mod_eq_of_lt hlt, List.getElem?_eq_getElem hlt]
  · exact hinv.removeCo hl hmode hc hdead

section WaitProgram

/-- `main` starts a coroutine, goes on with line `after`, and waits for the
coroutine in line 2. A place is a line with the pointer to the coroutine. -/
def waitProgram (after : ℕ) : Program Unit Unit (ℕ × Addr) Unit where
  main := (0, null)
  enter _ _ := (5, null)
  call mem
    | (0, _) => (mem, .coStart () () fun co ↦ (after, co))
    | (1, co) => (mem, .coYield (2, co))
    | (2, co) => (mem, .coWait co (3, co))
    | (3, co) => (mem, .coYield (4, co))
    | _ => (mem, .ret)

def oracle (rand : ℕ) (block : Addr) : Oracle Unit Unit (ℕ × Addr) where
  rand := rand
  block := block
  bytes := ⟨(), (), .coDead, 7, .finished, 9⟩

def begin (after : ℕ) : State Unit Unit (ℕ × Addr) Unit := init (waitProgram after) (oracle 0 1) ()

theorem begin_reachable {after : ℕ} {ok : State Unit Unit (ℕ × Addr) Unit → Prop}
    [DecidablePred ok] {choices : List (Oracle Unit Unit (ℕ × Addr))}
    {s : State Unit Unit (ℕ × Addr) Unit}
    (h : choices.foldlM (exec (waitProgram after) ok) (begin after) = some s) :
    ((coSystem (waitProgram after)).restrict ok).Reachable s :=
  .run (fun _ _ _ ↦ exec_step) (.init ⟨oracle 0 1, (), by decide, rfl⟩) h

/-- The coroutine runs to its end while `main` yields; then `main` waits for it. -/
def yieldChoices : List (Oracle Unit Unit (ℕ × Addr)) :=
  [oracle 0 2, oracle 0 3, oracle 1 3, oracle 0 3, oracle 0 3, oracle 0 3, oracle 0 3]

theorem waitProgram_integrity : ∃ s nodes,
    ((coSystem (waitProgram 1)).restrict (WaitsOnce (waitProgram 1))).Reachable s ∧
      s.mode = .coWait 2 (3, 2) ∧ Integrity s nodes := by
  have hrun : ((yieldChoices.foldlM (exec (waitProgram 1) (WaitsOnce (waitProgram 1)))
      (begin 1)).any fun s ↦ s.mode = .coWait 2 (3, 2)) = true := by
    decide +kernel
  obtain ⟨s, hs, hmode⟩ := (Option.any_eq_true _ _).mp hrun
  obtain ⟨nodes, hn⟩ := list_integrity (begin_reachable hs)
  exact ⟨s, nodes, begin_reachable hs, of_decide_eq_true hmode, hn⟩

end WaitProgram

end OsWorkbench.Libco
