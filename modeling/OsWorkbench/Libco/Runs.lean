import OsWorkbench.Libco.Refine

namespace OsWorkbench.Libco

open Library

variable {Fn Arg K M : Type} {P : Program Fn Arg K M} {s s' : State Fn Arg K M}
  {allowed : View → Addr → Prop} {o : Oracle Fn Arg K}

theorem waitTarget_eq {k k' : K} {co : Addr} (hmode : s.mode = .user k)
    (hcall : (P.call s.mem k).2 = .coWait co k') : co ∈ waitTarget P s := by
  rw [waitTarget, hmode]
  simp only [hcall]
  rfl

theorem Inv.of_mem (h : Inv s) (m : M) : Inv { s with mem := m } := by
  obtain ⟨nodes, hl⟩ := h.listed
  exact ⟨⟨nodes, hl.of_eq rfl rfl rfl⟩, h.ok, h.wrapper⟩

variable (allowed) in
/-- Every step of the program is one of the scheduler. -/
theorem step_refines (h : Inv s) (honce : WaitsOnce P s)
    (hallowed : ∀ co ∈ waitTarget P s, allowed s.view co) (hfresh : s.heap o.block = none)
    (hs : step P o s = .ok s') :
    s.view.Step allowed s'.view ∧ (∃ nodes, Listed s' nodes) ∧
      ∀ arg, s'.mode = .wrapper arg → s'.view.status s'.current = some .coNew := by
  obtain ⟨nodes, hl⟩ := h.listed
  rw [step] at hs
  split at hs
  case h_1 k hmode =>
    have hmem := h.of_mem (P.call s.mem k).1
    dsimp only at hs
    split at hs
    case h_1 func arg k' hcall =>
      cases hstart : coStart o func arg { s with mem := (P.call s.mem k).1 } with
      | error e =>
        rw [hstart] at hs
        cases hs
      | ok s₁ =>
        rw [hstart] at hs
        cases hs
        obtain ⟨hstep, hlist⟩ := coStart_refines hmem hmode hfresh hstart
        exact ⟨hstep, hlist, fun _ hm ↦ by cases hm⟩
    case h_2 k' hcall =>
      cases hs
      refine ⟨?_, ⟨nodes, hl.of_eq rfl rfl rfl⟩, fun _ hm ↦ by cases hm⟩
      convert View.Step.stay using 1
      refine View.ext rfl rfl (funext fun a ↦ ?_) rfl rfl rfl
      by_cases ha : a = s.current <;> simp [State.view, ha, hmode, Mode.activity, Frame.activity]
    case h_3 co k' hcall =>
      have hco := waitTarget_eq hmode hcall
      obtain ⟨hlive, hmain, hunwaited⟩ := honce co hco
      obtain ⟨hstep, hlist, hwait⟩ :=
        coWait_refines hmem hmode hlive hmain hunwaited (hallowed co hco) hs
      exact ⟨hstep, hlist, fun arg hm ↦ by rw [hwait] at hm; cases hm⟩
    case h_4 hcall =>
      split_ifs at hs with hmain
      · cases hs
        refine ⟨?_, ⟨nodes, hl.of_eq rfl rfl rfl⟩, fun _ hm ↦ by cases hm⟩
        have hexit : s.view.Step allowed _ :=
          .exit (by simp [State.view, hmode, Mode.activity]) hmain
        convert hexit using 1
        refine View.ext rfl rfl (funext fun a ↦ ?_) rfl rfl rfl
        by_cases ha : a = s.current <;> simp [State.view, ha, Mode.activity]
      · obtain ⟨hstep, hlist, hyield⟩ := wrapperEnd_refines hmem hmode hmain hs
        exact ⟨hstep, hlist, fun arg hm ↦ by rw [hyield] at hm; cases hm⟩
  case h_2 arg hmode =>
    obtain ⟨hstep, hlist, k, hk⟩ := wrapper_refines h hmode hs
    exact ⟨hstep, hlist, fun arg hm ↦ by rw [hk] at hm; cases hm⟩
  case h_3 frame hmode => exact coYield_refines h hmode hs
  case h_4 co k hmode =>
    obtain ⟨hstep, hlist, hmode'⟩ := coWaitLoop_refines h hmode hs
    exact ⟨hstep, hlist, fun arg hm ↦ absurd hm (hmode' arg)⟩
  case h_5 hmode =>
    cases hs
    exact ⟨.stay, ⟨nodes, hl⟩, h.wrapper⟩

theorem init_inv {mem : M} (hnull : o.block ≠ null) : Inv (init P o mem) := by
  refine ⟨⟨[o.block], ⟨rfl, o.bytes.next, ?_, trivial⟩, List.nodup_singleton _, fun a ↦ ?_, rfl,
    by simp [init, Function.update_of_ne hnull.symm]⟩, ?_, fun _ hm ↦ by cases hm⟩
  · simp [State.nextOf, init]
  · by_cases ha : a = o.block <;> simp [init, ha]
  · constructor <;> simp only [State.view, init, Mode.activity, Function.update_apply] <;> grind -ring -linarith -lia -ac -order

section Runs

variable {ok : State Fn Arg K M → Prop}

theorem reachable_inv (hok : ∀ s, ok s → WaitsOnce P s)
    (h : ((coSystem P).restrict ok).Reachable s) : Inv s := by
  refine h.invariant ?_ ?_
  · rintro s ⟨o, mem, hnull, rfl⟩
    exact init_inv hnull
  · rintro s s' - hinv ⟨hs, o, hfresh, hstep⟩
    obtain ⟨hview, hlist, hwrapper⟩ := step_refines (fun _ _ ↦ True) hinv (hok s hs)
      (fun _ _ ↦ trivial) hfresh hstep
    exact ⟨hlist, hinv.ok.step hview, hwrapper⟩

variable (allowed) in
/-- A property of the scheduler that holds initially and that its steps keep
holds along the runs of the program. -/
theorem reachable_view (hok : ∀ s, ok s → WaitsOnce P s)
    (hallowed : ∀ s, ok s → ∀ co ∈ waitTarget P s, allowed s.view co) {I : View → Prop}
    (hinit : ∀ o mem, I (init P o mem).view)
    (hkeep : ∀ v v' : View, v.Ok → I v → v.Step allowed v' → I v')
    (h : ((coSystem P).restrict ok).Reachable s) : I s.view := by
  refine h.invariant (I := fun s ↦ I s.view) ?_ ?_
  · rintro s ⟨o, mem, -, rfl⟩
    exact hinit o mem
  · rintro s s' hr hi ⟨hs, o, hfresh, hstep⟩
    have hinv := reachable_inv hok hr
    exact hkeep _ _ hinv.ok hi
      (step_refines allowed hinv (hok s hs) (hallowed s hs) hfresh hstep).1

variable (P ok) in
/-- A step with given choices, where it is one of the restricted system. -/
def exec [DecidablePred ok] (s : State Fn Arg K M) (o : Oracle Fn Arg K) :
    Option (State Fn Arg K M) :=
  if (s.heap o.block).isNone ∧ ok s then (step P o s).toOption else none

theorem exec_step [DecidablePred ok] (h : exec P ok s o = some s') :
    ((coSystem P).restrict ok).step s s' := by
  rw [exec] at h
  split_ifs at h with hs
  cases hstep : step P o s with
  | error e =>
    rw [hstep] at h
    cases h
  | ok t =>
    rw [hstep] at h
    cases h
    exact ⟨hs.2, o, Option.isNone_iff_eq_none.mp hs.1, hstep⟩

end Runs

end OsWorkbench.Libco
