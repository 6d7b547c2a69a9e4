import OsWorkbench.Libco.WaitStatus

namespace OsWorkbench.Libco

open Library

variable {Fn Arg K M : Type} {P : Program Fn Arg K M} {s : State Fn Arg K M}
  {o : Oracle Fn Arg K}

section Progress

theorem State.store_isSome {a b : Addr} {c : Co Fn Arg K} (h : (s.heap b).isSome) :
    ((s.store a c).heap b).isSome := by
  by_cases he : b = a
  · rw [he, State.store_heap_self]
    rfl
  · rwa [State.store_heap_ne he]

theorem Inv.not_finished (h : Inv s) {a : Addr} {c : Co Fn Arg K} (hc : s.heap a = some c)
    (hdead : c.status ≠ .coDead) : s.view.activity a ≠ some .finished := by
  intro hf
  have hstatus := (h.ok.dead a).mpr hf
  simp only [State.view, hc, Option.map_some, Option.some.injEq] at hstatus
  exact hdead hstatus

theorem Inv.coStart_ok (h : Inv s) (hfresh : s.heap o.block = none) (hnull : o.block ≠ null)
    (func : Fn) (arg : Arg) : ∃ s', coStart o func arg s = .ok s' := by
  obtain ⟨nodes, hl⟩ := h.listed
  obtain ⟨cur, hcur⟩ := h.exists_current
  have hc : s.current ∈ nodes := (hl.live _).mpr (by rw [hcur]; rfl)
  have ha : o.block ∉ nodes := fun hm ↦ by
    have hsome := (hl.live _).mp hm
    rw [hfresh] at hsome
    cases hsome
  obtain ⟨n, hins, _⟩ := hl.insertCo
    { o.bytes with func := func, arg := arg, status := .coNew, waiter := null } hc ha hnull
  rw [coStart, if_neg hnull]
  simp only [hins, bind, Except.bind]
  exact ⟨_, rfl⟩

theorem Inv.wrapper_ok (h : Inv s) (arg : Arg) : ∃ s', Libco.wrapper P arg s = .ok s' := by
  obtain ⟨cur, hcur⟩ := h.exists_current
  rw [Libco.wrapper, State.load_eq hcur]
  exact ⟨_, rfl⟩

theorem Inv.wrapperEnd_ok (h : Inv s) (hmain : s.current ≠ s.mainCo) :
    ∃ s', wrapperEnd s = .ok s' := by
  obtain ⟨cur, hcur⟩ := h.exists_current
  rw [wrapperEnd, State.modify_eq hcur]
  simp only [bind, Except.bind, State.store_current, State.load_eq State.store_heap_self]
  by_cases hnull : cur.waiter = null
  · rw [if_neg (not_not.mpr hnull)]
    exact ⟨_, rfl⟩
  · obtain ⟨w, hw⟩ := exists_of_live (h.ok.live_waiter hmain (by simp [State.view, hcur]) hnull)
    obtain ⟨w', hw'⟩ := Option.isSome_iff_exists.mp
      (State.store_isSome (a := s.current) (c := { cur with status := .coDead })
        (Option.isSome_of_eq_some hw))
    rw [if_pos hnull, State.modify_eq hw']
    exact ⟨_, rfl⟩

theorem Frame.mode_ok {f : Frame K} (hf : f.activity ≠ .finished) :
    ∃ m : Mode Arg K, f.mode = .ok m := by
  cases f with
  | user k => exact ⟨_, rfl⟩
  | waiting co k => exact ⟨_, rfl⟩
  | finished => exact absurd rfl hf

theorem Inv.coYield_ok (h : Inv s) {frame : Frame K} (hmode : s.mode = .coYield frame) :
    ∃ s', coYield o frame s = .ok s' := by
  obtain ⟨nodes, hl⟩ := h.listed
  obtain ⟨cur, hcur⟩ := h.exists_current
  have hmem : s.current ∈ nodes := (hl.live _).mpr (by rw [hcur]; rfl)
  have hlt : o.rand % nodes.length < nodes.length := Nat.mod_lt _ (List.length_pos_of_mem hmem)
  obtain ⟨choice, hchoice⟩ : ∃ a, nodes[o.rand % nodes.length]? = some a :=
    ⟨_, List.getElem?_eq_getElem hlt⟩
  have hchosen := List.mem_of_getElem? hchoice
  obtain ⟨c, hc⟩ := hl.exists_co hchosen
  have hactivity : s.view.activity s.current = some frame.activity := by
    simp [State.view, hmode, Mode.activity]
  have hbegun : cur.status ≠ .coNew := by
    intro he
    have hidle := h.ok.new s.current (by simp [State.view, hcur, he])
    rw [hactivity] at hidle
    cases hidle
  rw [coYield, hl.randomSelectCo hchoice]
  simp only [bind, Except.bind, State.load_eq hc, State.load_eq hcur]
  split_ifs with hbusy hnull hnew
  · exact ⟨_, rfl⟩
  · exact absurd hnull (not_or.mpr ⟨hl.ne_null hmem, hl.ne_null hchosen⟩)
  · exact ⟨_, rfl⟩
  · have hlive : c.status ≠ .coDead := by
      intro hd
      exact hbusy ⟨hnew, fun hr ↦ by rw [hd] at hr; cases hr⟩
    have hlist := hl.store hcur { cur with context := frame } rfl
    obtain ⟨c₂, hc₂⟩ := hlist.exists_co hchosen
    have hload : State.load { s.store s.current { cur with context := frame } with
        current := choice } choice = .ok c₂ := State.load_eq hc₂
    have hgoes : c₂.context.activity ≠ .finished := by
      intro hf
      apply h.not_finished hc hlive
      by_cases hcc : choice = s.current
      · rw [hcc, State.store_heap_self] at hc₂
        cases hc₂
        rw [hcc, hactivity]
        exact congrArg some hf
      · rw [State.store_heap_ne hcc, hc] at hc₂
        cases hc₂
        simp [State.view, hcc, hc, Co.activity, hnew, hf]
    obtain ⟨m, hm⟩ : ∃ m : Mode Arg K, c₂.context.mode = .ok m := Frame.mode_ok hgoes
    simp only [hload, hm]
    exact ⟨_, rfl⟩

theorem Inv.coWaitLoop_ok (h : Inv s) {co : Addr} {k : K} (hmode : s.mode = .coWait co k) :
    ∃ s', coWaitLoop co k s = .ok s' := by
  obtain ⟨nodes, hl⟩ := h.listed
  have hactivity : s.view.activity s.view.current = some (.waiting co) := by
    simp [State.view, hmode, Mode.activity]
  obtain ⟨c, hc⟩ : ∃ c, s.heap co = some c := exists_of_live (h.ok.live_target hactivity)
  rw [coWaitLoop, State.load_eq hc]
  simp only [bind, Except.bind]
  split_ifs with hdead
  · exact ⟨_, rfl⟩
  · obtain ⟨s', hremove, _⟩ := h.removeCo hl hmode hc (not_not.mp hdead)
    rw [hremove]
    exact ⟨_, rfl⟩

theorem Inv.coWait_ok (h : Inv s) {co : Addr} (k : K) (hlive : (s.heap co).isSome) :
    if s.statusOf co = some .coWaiting then coWait co k s = .error .assertion
    else ∃ s', coWait co k s = .ok s' := by
  obtain ⟨nodes, hl⟩ := h.listed
  obtain ⟨cur, hcur⟩ := h.exists_current
  obtain ⟨c, hc⟩ := Option.isSome_iff_exists.mp hlive
  have hnull : co ≠ null := fun he ↦ by
    rw [he, hl.null] at hc
    cases hc
  have hstatus : s.statusOf co = some .coWaiting ↔ c.status = .coWaiting := by
    rw [State.statusOf, hc, Option.map_some, Option.some.injEq]
  rw [coWait, if_neg hnull, State.load_eq hc]
  simp only [bind, Except.bind, hstatus]
  split_ifs with hwaiting
  · rfl
  · obtain ⟨c₁, hc₁⟩ := Option.isSome_iff_exists.mp
      (State.store_isSome (a := s.current) (c := { cur with status := .coWaiting }) hlive)
    simp only [State.modify_eq hcur, State.modify_eq hc₁]
    exact ⟨_, rfl⟩

end Progress

/-- A step fails only where `co_wait` asserts that its argument does not wait. -/
theorem Inv.step_error_iff (h : Inv s) (honce : WaitsOnce P s) (hnull : o.block ≠ null)
    (hfresh : s.heap o.block = none) (e : Fault) :
    step P o s = .error e ↔
      e = .assertion ∧ ∃ co ∈ waitTarget P s, s.statusOf co = some .coWaiting := by
  have hok : ∀ {s'}, step P o s = .ok s' → waitTarget P s = none →
      (step P o s = .error e ↔
        e = .assertion ∧ ∃ co ∈ waitTarget P s, s.statusOf co = some .coWaiting) := by
    intro s' hs hnone
    rw [hs, hnone]
    simp
  cases hmode : s.mode with
  | user k =>
    have hmem := h.of_mem (P.call s.mem k).1
    cases hcall : (P.call s.mem k).2 with
    | coStart func arg k' =>
      obtain ⟨s', hs⟩ := hmem.coStart_ok hfresh hnull func arg
      have hstep : step P o s = .ok { s' with mode := .user (k' o.block) } := by
        rw [hmode] at hs
        rw [step, hmode]
        simp only [hcall, hs, bind, Except.bind]
        rfl
      exact hok hstep (by simp only [waitTarget, hmode, hcall])
    | coYield k' =>
      have hstep : step P o s =
          .ok { s with mem := (P.call s.mem k).1, mode := .coYield (.user k') } := by
        rw [step, hmode]
        simp only [hcall]
        rfl
      exact hok hstep (by simp only [waitTarget, hmode, hcall])
    | coWait co k' =>
      have htarget : waitTarget P s = some co := by simp only [waitTarget, hmode, hcall]
      have hwait := hmem.coWait_ok k' (honce co htarget).1
      have hstep : step P o s = coWait co k' { s with mem := (P.call s.mem k).1 } := by
        rw [step, hmode]
        simp only [hcall]
      rw [hstep, htarget]
      simp only [Option.mem_some_iff, exists_eq_left']
      split_ifs at hwait with hstatus
      · rw [hwait]
        simp [show s.statusOf co = some .coWaiting from hstatus, eq_comm]
      · obtain ⟨s', hs⟩ := hwait
        rw [hs]
        simp [show s.statusOf co ≠ some .coWaiting from hstatus]
    | ret =>
      have hnone : waitTarget P s = none := by simp only [waitTarget, hmode, hcall]
      by_cases hmain : s.current = s.mainCo
      · have hstep : step P o s = .ok { s with mem := (P.call s.mem k).1, mode := .exited } := by
          rw [step, hmode]
          simp only [hcall, if_pos hmain]
          rfl
        exact hok hstep hnone
      · obtain ⟨s', hs⟩ := hmem.wrapperEnd_ok hmain
        have hstep : step P o s = .ok s' := by
          rw [hmode] at hs
          rw [step, hmode]
          simp only [hcall, if_neg hmain]
          exact hs
        exact hok hstep hnone
  | wrapper arg =>
    obtain ⟨s', hs⟩ := h.wrapper_ok (P := P) arg
    exact hok (by rw [step, hmode]; exact hs) (by rw [waitTarget, hmode])
  | coYield frame =>
    obtain ⟨s', hs⟩ := h.coYield_ok (o := o) hmode
    exact hok (by rw [step, hmode]; exact hs) (by rw [waitTarget, hmode])
  | coWait co k =>
    obtain ⟨s', hs⟩ := h.coWaitLoop_ok hmode
    exact hok (by rw [step, hmode]; exact hs) (by rw [waitTarget, hmode])
  | exited => exact hok (by rw [step, hmode]; rfl) (by rw [waitTarget, hmode])

/-- Only the assertion of `co_wait` on the status of its argument can fail; where nobody has
waited for a finished coroutine, it fails exactly for one that waits itself. -/
theorem abort_nested (h : ((coSystem P).restrict (WaitsOnce P)).Reachable s)
    (honce : WaitsOnce P s) (hnull : o.block ≠ null) (hfresh : s.heap o.block = none) :
    (∀ e, step P o s = .error e →
      e = .assertion ∧ ∃ co ∈ waitTarget P s, s.statusOf co = some .coWaiting) ∧
    (((coSystem P).restrict fun s ↦ WaitsOnce P s ∧ WaitsEarly P s).Reachable s →
      (step P o s = .error .assertion ↔
        ∃ co ∈ waitTarget P s, ∃ t, InCoWait s co t ∧ s.statusOf t ≠ some .coDead)) := by
  have hinv := reachable_inv (fun _ ↦ id) h
  refine ⟨fun e ↦ (hinv.step_error_iff honce hnull hfresh e).mp, fun hearly ↦ ?_⟩
  have hv := reachable_scheduled (fun _ ↦ And.left) (fun _ ↦ And.right) hearly
  rw [hinv.step_error_iff honce hnull hfresh]
  simp only [true_and, inCoWait_iff]
  exact exists_congr fun co ↦ and_congr_right fun _ ↦ hv co

section NestedProgram

/-- `main` starts a coroutine that returns and one that waits for the first, yields, and waits
for the second. -/
def nestedProgram : Program Bool Addr (ℕ × Addr) Unit where
  main := (0, null)
  enter waits arg := if waits then (4, arg) else (5, null)
  call mem
    | (0, _) => (mem, .coStart false null fun co ↦ (1, co))
    | (1, co) => (mem, .coStart true co fun co ↦ (2, co))
    | (2, co) => (mem, .coYield (3, co))
    | (3, co) => (mem, .coWait co (5, co))
    | (4, co) => (mem, .coWait co (5, co))
    | _ => (mem, .ret)

def nestedOracle (rand : ℕ) (block : Addr) : Oracle Bool Addr (ℕ × Addr) where
  rand := rand
  block := block
  bytes := ⟨false, null, .coDead, 7, .finished, 9⟩

/-- Every coroutine waits for one at a higher address, so the waits form no cycle. -/
def WaitsUpward (P : Program Fn Arg K M) (s : State Fn Arg K M) : Prop :=
  ∀ co ∈ waitTarget P s, s.current < co

instance (P : Program Fn Arg K M) : DecidablePred (WaitsUpward P) := fun s ↦
  inferInstanceAs (Decidable (∀ co ∈ waitTarget P s, s.current < co))

/-- The coroutine that waits has begun to before `main` waits for it. -/
def nestedChoices : List (Oracle Bool Addr (ℕ × Addr)) :=
  [nestedOracle 0 3, nestedOracle 0 2, nestedOracle 0 4, nestedOracle 1 4, nestedOracle 0 4,
    nestedOracle 0 4, nestedOracle 0 4, nestedOracle 0 4]

theorem nested_reachable {ok : State Bool Addr (ℕ × Addr) Unit → Prop} [DecidablePred ok]
    {choices : List (Oracle Bool Addr (ℕ × Addr))} {s : State Bool Addr (ℕ × Addr) Unit}
    (h : choices.foldlM (exec nestedProgram ok) (init nestedProgram (nestedOracle 0 1) ()) =
      some s) :
    ((coSystem nestedProgram).restrict ok).Reachable s :=
  .run (fun _ _ _ ↦ exec_step) (.init ⟨nestedOracle 0 1, (), by decide, rfl⟩) h

theorem nestedWait_aborts : ¬ ∀ (s : State Bool Addr (ℕ × Addr) Unit) (o : Oracle _ _ _),
    ((coSystem nestedProgram).restrict fun s ↦
      WaitsOnce nestedProgram s ∧ WaitsUpward nestedProgram s).Reachable s →
    WaitsOnce nestedProgram s → WaitsUpward nestedProgram s →
    o.block ≠ null → s.heap o.block = none → step nestedProgram o s ≠ .error .assertion := by
  have hrun : ((nestedChoices.foldlM (exec nestedProgram fun s ↦
      WaitsOnce nestedProgram s ∧ WaitsUpward nestedProgram s)
      (init nestedProgram (nestedOracle 0 1) ())).any fun s ↦
        WaitsOnce nestedProgram s ∧ WaitsUpward nestedProgram s ∧ (s.heap 4).isNone ∧
        s.mode = .user (3, 2) ∧ s.statusOf 2 = some .coWaiting) = true := by
    decide +kernel
  obtain ⟨s, hs, hp⟩ := (Option.any_eq_true _ _).mp hrun
  obtain ⟨honce, hup, hfresh, hmode, hstatus⟩ := of_decide_eq_true hp
  intro hall
  have hfresh := Option.isNone_iff_eq_none.mp hfresh
  have hreach := nested_reachable hs
  refine hall s (nestedOracle 0 4) hreach honce hup (by decide) hfresh ?_
  have hinv := reachable_inv (fun _ ↦ And.left) hreach
  rw [hinv.step_error_iff honce (by decide) hfresh]
  refine ⟨rfl, 2, ?_, hstatus⟩
  rw [waitTarget, hmode]
  rfl

theorem nested_abort : ∃ (s : State Bool Addr (ℕ × Addr) Unit) (o : Oracle _ _ _),
    step nestedProgram o s = .error .assertion ∧
      ∃ co ∈ waitTarget nestedProgram s, ∃ t, InCoWait s co t ∧ s.statusOf t ≠ some .coDead := by
  have hrun : ((nestedChoices.foldlM (exec nestedProgram fun s ↦
      WaitsOnce nestedProgram s ∧ WaitsEarly nestedProgram s)
      (init nestedProgram (nestedOracle 0 1) ())).any fun s ↦
        WaitsOnce nestedProgram s ∧ (s.heap 4).isNone ∧
        s.mode = .user (3, 2) ∧ s.statusOf 2 = some .coWaiting) = true := by
    decide +kernel
  obtain ⟨s, hs, hp⟩ := (Option.any_eq_true _ _).mp hrun
  obtain ⟨honce, hfresh, hmode, hstatus⟩ := of_decide_eq_true hp
  have hfresh := Option.isNone_iff_eq_none.mp hfresh
  have hearly := nested_reachable hs
  have hreach : ((coSystem nestedProgram).restrict (WaitsOnce nestedProgram)).Reachable s :=
    hearly.restrict_mono fun _ ↦ And.left
  have habort : step nestedProgram (nestedOracle 0 4) s = .error .assertion := by
    rw [(reachable_inv (fun _ ↦ id) hreach).step_error_iff honce (by decide) hfresh]
    refine ⟨rfl, 2, ?_, hstatus⟩
    rw [waitTarget, hmode]
    rfl
  exact ⟨s, nestedOracle 0 4, habort,
    ((abort_nested hreach honce (by decide) hfresh).2 hearly).mp habort⟩

end NestedProgram

end OsWorkbench.Libco
