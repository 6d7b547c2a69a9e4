import OsWorkbench.Libco.ListIntegrity

namespace OsWorkbench.Libco

open Library

variable {Fn Arg K M : Type} {P : Program Fn Arg K M} {s : State Fn Arg K M}

def State.statusOf (s : State Fn Arg K M) (a : Addr) : Option CoStatus := (s.heap a).map Co.status

/-- No call of `co_wait` finds its argument finished. -/
def WaitsEarly (P : Program Fn Arg K M) (s : State Fn Arg K M) : Prop :=
  ∀ co ∈ waitTarget P s, s.statusOf co ≠ some .coDead

/-- No coroutine waits for itself. `co_wait` asserts that its argument does not
wait, so no longer cycle of waits can be closed. -/
def WaitsForOthers (P : Program Fn Arg K M) (s : State Fn Arg K M) : Prop :=
  ∀ co ∈ waitTarget P s, co ≠ s.current

instance (P : Program Fn Arg K M) : DecidablePred (WaitsEarly P) := fun s ↦
  inferInstanceAs (Decidable (∀ co ∈ waitTarget P s, s.statusOf co ≠ some .coDead))

instance (P : Program Fn Arg K M) : DecidablePred (WaitsForOthers P) := fun s ↦
  inferInstanceAs (Decidable (∀ co ∈ waitTarget P s, co ≠ s.current))

theorem init_scheduled {o : Oracle Fn Arg K} {mem : M} : (init P o mem).view.Scheduled := by
  intro w
  simp only [State.view, init, Mode.activity, Function.update_apply]
  split_ifs with hw <;> simp

theorem init_ranked {o : Oracle Fn Arg K} {mem : M} : (init P o mem).view.Ranked := by
  refine ⟨fun _ ↦ 0, fun w t hb ↦ ?_⟩
  have hw := hb.1
  simp only [State.view, init, Mode.activity, Function.update_apply] at hw
  split_ifs at hw with h <;> simp at hw

section Runs

variable {ok : State Fn Arg K M → Prop}

theorem reachable_scheduled (honce : ∀ s, ok s → WaitsOnce P s)
    (hearly : ∀ s, ok s → WaitsEarly P s) (h : ((coSystem P).restrict ok).Reachable s) :
    s.view.Scheduled :=
  reachable_view (fun v co ↦ v.status co ≠ some .coDead) honce hearly
    (fun _ _ ↦ init_scheduled) (fun _ _ hok hv hs ↦ hv.step hok (fun _ ↦ id) hs) h

theorem reachable_ranked (honce : ∀ s, ok s → WaitsOnce P s)
    (hearly : ∀ s, ok s → WaitsEarly P s) (hothers : ∀ s, ok s → WaitsForOthers P s)
    (h : ((coSystem P).restrict ok).Reachable s) : s.view.Scheduled ∧ s.view.Ranked :=
  reachable_view (fun v co ↦ v.status co ≠ some .coDead ∧ co ≠ v.current)
    (I := fun v ↦ v.Scheduled ∧ v.Ranked) honce
    (fun s hs co hco ↦ ⟨hearly s hs co hco, hothers s hs co hco⟩)
    (fun _ _ ↦ ⟨init_scheduled, init_ranked⟩)
    (fun _ _ hok hv hs ↦ ⟨hv.1.step hok (fun _ ↦ And.left) hs,
      hv.2.step hok hv.1 (fun _ ↦ And.right) hs⟩) h

end Runs

/-- User code runs with status `CO_RUNNING`, and `CO_WAITING` marks the coroutines
in the loop of `co_wait` on one that is still to finish. -/
structure StatusInvariant (s : State Fn Arg K M) : Prop where
  running : ∀ k, s.mode = .user k → s.statusOf s.current = some .coRunning
  waiting : ∀ w, s.statusOf w = some .coWaiting ↔
    ∃ t, InCoWait s w t ∧ s.statusOf t ≠ some .coDead

theorem status_invariant
    (h : ((coSystem P).restrict fun s ↦ WaitsOnce P s ∧ WaitsEarly P s).Reachable s) :
    StatusInvariant s := by
  have hinv := reachable_inv (fun _ ↦ And.left) h
  have hv := reachable_scheduled (fun _ ↦ And.left) (fun _ ↦ And.right) h
  refine ⟨fun k hmode ↦ ?_, fun w ↦ ?_⟩
  · exact hv.running_of_active hinv.ok (by simp [State.view, hmode, Mode.activity])
  · simp only [inCoWait_iff]
    exact hv w

/-- The coroutine has not begun when `main` waits for it. -/
def waitChoices : List (Oracle Unit Unit (ℕ × Addr)) :=
  [oracle 0 2, oracle 0 3, oracle 0 3, oracle 1 3, oracle 0 3, oracle 0 3, oracle 0 3, oracle 0 3]

theorem waitProgram_status_invariant : ∃ s,
    ((coSystem (waitProgram 2)).restrict fun s ↦
      WaitsOnce (waitProgram 2) s ∧ WaitsEarly (waitProgram 2) s).Reachable s ∧
      s.mode = .user (3, 2) ∧ StatusInvariant s := by
  have hrun : ((waitChoices.foldlM (exec (waitProgram 2) fun s ↦
      WaitsOnce (waitProgram 2) s ∧ WaitsEarly (waitProgram 2) s) (begin 2)).any
      fun s ↦ s.mode = .user (3, 2)) = true := by
    decide +kernel
  obtain ⟨s, hs, hmode⟩ := (Option.any_eq_true _ _).mp hrun
  exact ⟨s, begin_reachable hs, of_decide_eq_true hmode, status_invariant (begin_reachable hs)⟩

theorem lateWait_waiting : ¬ ∀ s,
    ((coSystem (waitProgram 1)).restrict (WaitsOnce (waitProgram 1))).Reachable s →
      StatusInvariant s := by
  have hrun : (((yieldChoices ++ [oracle 0 3]).foldlM
      (exec (waitProgram 1) (WaitsOnce (waitProgram 1))) (begin 1)).any
      fun s ↦ s.mode = .user (3, 2) ∧ s.statusOf s.current = some .coWaiting) = true := by
    decide +kernel
  obtain ⟨s, hs, hp⟩ := (Option.any_eq_true _ _).mp hrun
  obtain ⟨hmode, hstatus⟩ := of_decide_eq_true hp
  intro hall
  have hrunning := (hall s (begin_reachable hs)).running _ hmode
  rw [hstatus] at hrunning
  cases hrunning

/-- `co_yield` can pick this coroutine. -/
def Eligible (s : State Fn Arg K M) (a : Addr) : Prop :=
  s.statusOf a = some .coNew ∨ s.statusOf a = some .coRunning

theorem exists_eligible
    (h : ((coSystem P).restrict fun s ↦
      (WaitsOnce P s ∧ WaitsForOthers P s) ∧ WaitsEarly P s).Reachable s) :
    ∃ rand a, randomSelectCo s rand = .ok a ∧ Eligible s a := by
  have hinv := reachable_inv (fun _ hs ↦ hs.1.1) h
  obtain ⟨hv, hr⟩ := reachable_ranked (fun _ hs ↦ hs.1.1) (fun _ ↦ And.right)
    (fun _ hs ↦ hs.1.2) h
  obtain ⟨a, ha⟩ := hr.exists_ready hinv.ok hv
  obtain ⟨nodes, hl⟩ := hinv.listed
  have hmem : a ∈ nodes := by
    rw [hl.live]
    rcases ha with ha | ha
    · obtain ⟨c, hc⟩ := exists_of_live (Option.isSome_of_eq_some ha)
      rw [hc]
      rfl
    · obtain ⟨c, hc⟩ := exists_of_live (Option.isSome_of_eq_some ha)
      rw [hc]
      rfl
  obtain ⟨rand, hlt, rfl⟩ := List.mem_iff_getElem.mp hmem
  refine ⟨rand, _, hl.randomSelectCo ?_, ha⟩
  rw [Nat.mod_eq_of_lt hlt, List.getElem?_eq_getElem hlt]

theorem waitProgram_exists_eligible :
    ∃ (s : State Unit Unit (ℕ × Addr) Unit) (rand : ℕ) (a : Addr),
    s.mode = .coYield (.waiting 2 (3, 2)) ∧ randomSelectCo s rand = .ok a ∧ Eligible s a := by
  have hrun : (((waitChoices.take 3).foldlM (exec (waitProgram 2) fun s ↦
      (WaitsOnce (waitProgram 2) s ∧ WaitsForOthers (waitProgram 2) s) ∧
        WaitsEarly (waitProgram 2) s) (begin 2)).any
      fun s ↦ s.mode = .coYield (.waiting 2 (3, 2))) = true := by
    decide +kernel
  obtain ⟨s, hs, hmode⟩ := (Option.any_eq_true _ _).mp hrun
  obtain ⟨rand, a, hsel, ha⟩ := exists_eligible (begin_reachable hs)
  exact ⟨s, rand, a, of_decide_eq_true hmode, hsel, ha⟩

theorem lateWait_spins : ∃ s,
    ((coSystem (waitProgram 1)).restrict fun s ↦
      WaitsOnce (waitProgram 1) s ∧ WaitsForOthers (waitProgram 1) s).Reachable s ∧
      s.mode = .coYield (.user (4, 2)) ∧
      ∀ rand a, randomSelectCo s rand = .ok a → ¬ Eligible s a := by
  have hrun : (((yieldChoices ++ [oracle 0 3, oracle 0 3]).foldlM
      (exec (waitProgram 1) fun s ↦
        WaitsOnce (waitProgram 1) s ∧ WaitsForOthers (waitProgram 1) s) (begin 1)).any
      fun s ↦ s.mode = .coYield (.user (4, 2)) ∧ s.coNum = 1 ∧ s.head = 1 ∧
        s.statusOf 1 = some .coWaiting) = true := by
    decide +kernel
  obtain ⟨s, hs, hp⟩ := (Option.any_eq_true _ _).mp hrun
  obtain ⟨hmode, hnum, hhead, hstatus⟩ := of_decide_eq_true hp
  refine ⟨s, begin_reachable hs, hmode, fun rand a hsel ↦ ?_⟩
  rw [randomSelectCo, hnum, hhead, if_pos (by decide), Int.toNat_one, Nat.mod_one] at hsel
  cases hsel
  rintro (h | h) <;> rw [hstatus] at h <;> cases h

end OsWorkbench.Libco
