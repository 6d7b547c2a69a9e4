import OsWorkbench.Libco.Runs

namespace OsWorkbench.Libco

open Library

variable {Fn Arg K M : Type}

/-- A coroutine as its user sees it: it has not begun yet, or it goes on at some place, or it is
`main` and the process has ended. -/
inductive Thread (Fn Arg K : Type)
  | fresh (func : Fn) (arg : Arg)
  | begun (frame : Frame K)
  | exited

/-- The coroutines with the memory they share; who runs next is left open. -/
@[ext]
structure Threads (Fn Arg K M : Type) where
  thread : Addr → Option (Thread Fn Arg K)
  mainCo : Addr
  waitedOn : List Addr
  mem : M

/-- What a call of the library by the coroutine at `a` does, with the memory it leaves. -/
inductive Threads.Called (t : Threads Fn Arg K M) (a : Addr) :
    M × Call Fn Arg K → Threads Fn Arg K M → Prop
  | start {m : M} {func : Fn} {arg : Arg} {k : Addr → K} {b : Addr} (hnull : b ≠ null)
      (hfresh : t.thread b = none) :
      Called t a (m, .coStart func arg k) { t with
        thread := Function.update (Function.update t.thread a (some (.begun (.user (k b))))) b
          (some (.fresh func arg))
        waitedOn := t.waitedOn.filter (· ≠ b)
        mem := m }
  | yield {m : M} {k : K} :
      Called t a (m, .coYield k) { t with
        thread := Function.update t.thread a (some (.begun (.user k)))
        mem := m }
  | wait {m : M} {co : Addr} {k : K} :
      Called t a (m, .coWait co k) { t with
        thread := Function.update t.thread a (some (.begun (.waiting co k)))
        waitedOn := co :: t.waitedOn
        mem := m }
  | ret {m : M} :
      Called t a (m, .ret) { t with
        thread := Function.update t.thread a
          (some (if a = t.mainCo then .exited else .begun .finished))
        mem := m }

/-- What the library promises its user: a coroutine runs from one call to the next without
interruption, and `co_wait` returns after its target has finished. -/
inductive Threads.Step (P : Program Fn Arg K M) (t : Threads Fn Arg K M) :
    Threads Fn Arg K M → Prop
  | stay : Step P t t
  | call {a : Addr} {k : K} {t' : Threads Fn Arg K M}
      (hat : t.thread a = some (.begun (.user k))) (hcall : t.Called a (P.call t.mem k) t') :
      Step P t t'
  | enter {a : Addr} {func : Fn} {arg : Arg} (hat : t.thread a = some (.fresh func arg)) :
      Step P t { t with
        thread := Function.update t.thread a (some (.begun (.user (P.enter func arg)))) }
  | join {a co : Addr} {k : K} (hat : t.thread a = some (.begun (.waiting co k)))
      (hco : t.thread co = some (.begun .finished)) :
      Step P t { t with
        thread := Function.update (Function.update t.thread a (some (.begun (.user k)))) co none }

theorem Threads.Called.of_mem {t t' : Threads Fn Arg K M} {a : Addr} {m : M}
    {result : M × Call Fn Arg K} (h : t.Called a result t') :
    { t with mem := m }.Called a result t' := by
  cases h with
  | start hnull hfresh => exact .start hnull hfresh
  | yield => exact .yield
  | wait => exact .wait
  | ret => exact .ret

def Co.thread (c : Co Fn Arg K) : Thread Fn Arg K :=
  if c.status = .coNew then .fresh c.func c.arg else .begun c.context

/-- The thread of the current coroutine, which has the registers `c`. -/
def Mode.thread (c : Co Fn Arg K) : Mode Arg K → Thread Fn Arg K
  | .user k => .begun (.user k)
  | .wrapper arg => .fresh c.func arg
  | .coYield frame => .begun frame
  | .coWait co k => .begun (.waiting co k)
  | .exited => .exited

def State.thread (s : State Fn Arg K M) (a : Addr) : Option (Thread Fn Arg K) :=
  (s.heap a).map fun c ↦ if a = s.current then s.mode.thread c else c.thread

def State.threads (s : State Fn Arg K M) : Threads Fn Arg K M where
  thread := s.thread
  mainCo := s.mainCo
  waitedOn := s.waitedOn
  mem := s.mem

variable {P : Program Fn Arg K M} {s s' : State Fn Arg K M} {o : Oracle Fn Arg K} {a : Addr}
  {c : Co Fn Arg K}

theorem thread_current (hc : s.heap s.current = some c) :
    s.thread s.current = some (s.mode.thread c) := by
  rw [State.thread, hc, Option.map_some, if_pos rfl]

theorem thread_of_ne (ha : a ≠ s.current) : s.thread a = (s.heap a).map Co.thread := by
  simp only [State.thread, if_neg ha]

theorem thread_eq_none : s.thread a = none ↔ s.heap a = none := Option.map_eq_none_iff

theorem thread_isSome : (s.thread a).isSome = (s.heap a).isSome := Option.isSome_map

/-- A step that changes nothing that another coroutine sees. -/
theorem thread_eq_update {x : Thread Fn Arg K} (hcur : s'.current = s.current)
    (hself : s'.thread s.current = some x)
    (hother : ∀ b, b ≠ s.current → (s'.heap b).map Co.thread = (s.heap b).map Co.thread) :
    s'.thread = Function.update s.thread s.current (some x) := by
  funext b
  by_cases hb : b = s.current
  · rw [hb, hself, Function.update_self]
  · rw [Function.update_of_ne hb, thread_of_ne hb, thread_of_ne (hcur ▸ hb), hother b hb]

theorem Inv.thread_finished (h : Inv s) (hc : s.heap a = some c) (hdead : c.status = .coDead) :
    s.thread a = some (.begun .finished) := by
  have hactivity := (h.ok.dead a).mp (by simp [State.view, hc, hdead])
  by_cases ha : a = s.current
  · subst ha
    rw [thread_current hc, Mode.eq_of_finished (view_activity_current.symm.trans hactivity)]
    rfl
  · have hnew : c.status ≠ .coNew := fun hn ↦ by
      rw [hdead] at hn
      cases hn
    simp only [State.view, if_neg ha, hc, Option.bind_some, Co.activity, if_neg hnew,
      Option.some.injEq] at hactivity
    rw [thread_of_ne ha, hc, Option.map_some, Co.thread, if_neg hnew,
      Frame.eq_of_finished hactivity]

theorem threads_mode (hc : s.heap s.current = some c) (m : M) (mode : Mode Arg K) :
    { s with mem := m, mode := mode }.threads = { s.threads with
      thread := Function.update s.thread s.current (some (mode.thread c)), mem := m } :=
  Threads.ext (thread_eq_update rfl (thread_current hc) fun _ _ ↦ rfl) rfl rfl rfl

theorem coStart_threads (k' : K) (h : Inv s) (hfresh : s.heap o.block = none) {func : Fn}
    {arg : Arg} {s₁ : State Fn Arg K M} (hs : coStart o func arg s = .ok s₁) :
    { s₁ with mode := .user k' }.threads = { s.threads with
      thread := Function.update (Function.update s.thread s.current (some (.begun (.user k'))))
        o.block (some (.fresh func arg))
      waitedOn := s.waitedOn.filter (· ≠ o.block) } ∧ o.block ≠ null := by
  obtain ⟨nodes, hl⟩ := h.listed
  obtain ⟨cur, hcur⟩ := h.exists_current
  have hc : s.current ∈ nodes := (hl.live _).mpr (by simp [hcur])
  have ha : o.block ∉ nodes := fun hm ↦ by simpa [hfresh] using (hl.live _).mp hm
  obtain ⟨hnull, s₂, h₂, rfl⟩ := coStart_cases hs
  obtain ⟨n, hins, -⟩ := hl.insertCo
    { o.bytes with func := func, arg := arg, status := .coNew, waiter := Libco.null } hc ha hnull
  obtain rfl := Except.ok.inj (hins.symm.trans h₂)
  have hne : s.current ≠ o.block := fun he ↦ ha (he ▸ hc)
  refine ⟨Threads.ext (funext fun b ↦ ?_) rfl rfl rfl, hnull⟩
  by_cases hb : b = o.block
  · subst hb
    simp [State.threads, State.thread, renext, Function.update_self, hne.symm, Co.thread]
  · by_cases hbc : b = s.current
    · subst hbc
      simp [State.threads, State.thread, renext, hb, hcur, Mode.thread]
    · simp [State.threads, State.thread, hb, hbc, renext, Function.comp_def, Co.thread]

theorem coWait_threads {co : Addr} {k' : K} (hs : coWait co k' s = .ok s') :
    s'.threads = { s.threads with
      thread := Function.update s.thread s.current (some (.begun (.waiting co k')))
      waitedOn := co :: s.waitedOn } := by
  obtain ⟨cur, c, hcur, hc, -, rfl⟩ := coWait_cases hs
  refine Threads.ext (thread_eq_update rfl ?_ fun b hb ↦ ?_) rfl rfl rfl
  · obtain ⟨c', hc'⟩ : ∃ c', ((s.store s.current { cur with status := .coWaiting }).store co
        { c with waiter := s.current }).heap s.current = some c' := by
      by_cases he : co = s.current
      · subst he
        exact ⟨_, State.store_heap_self⟩
      · exact ⟨_, (State.store_heap_ne (Ne.symm he)).trans State.store_heap_self⟩
    exact thread_current hc'
  · by_cases he : b = co
    · subst he
      rw [State.store_heap_ne hb] at hc
      simp only [State.store_heap_self, hc]
      rfl
    · simp only [State.store_heap_ne he, State.store_heap_ne hb]

theorem wrapper_threads (h : Inv s) {arg : Arg} (hmode : s.mode = .wrapper arg)
    (hs : wrapper P arg s = .ok s') : ∃ func, s.thread s.current = some (.fresh func arg) ∧
      s'.threads = { s.threads with
        thread := Function.update s.thread s.current (some (.begun (.user (P.enter func arg)))) } := by
  obtain ⟨cur, hcur, rfl⟩ := wrapper_cases hs
  have hnew := h.wrapper arg hmode
  have hstatus : cur.status = .coNew := by simpa [State.view, hcur] using hnew
  rw [if_pos hstatus]
  refine ⟨cur.func, by rw [thread_current hcur, hmode]; rfl, ?_⟩
  refine Threads.ext (thread_eq_update rfl (thread_current State.store_heap_self) fun b hb ↦ ?_)
    rfl rfl rfl
  simp only [State.store_heap_ne hb]

theorem wrapperEnd_threads (h : Inv s) {k : K} (hmode : s.mode = .user k)
    (hmain : s.current ≠ s.mainCo) (hs : wrapperEnd s = .ok s') :
    s'.threads = { s.threads with
      thread := Function.update s.thread s.current (some (.begun .finished)) } := by
  obtain ⟨cur, hcur, ⟨-, rfl⟩ | ⟨hnull, w, hw, rfl⟩⟩ := wrapperEnd_cases hs
  · refine Threads.ext (thread_eq_update rfl (thread_current State.store_heap_self) fun b hb ↦ ?_)
      rfl rfl rfl
    simp only [State.store_heap_ne hb]
  · obtain ⟨hne, hbegun⟩ := h.waiter_begun hmode hmain hcur hnull
    rw [State.store_heap_ne hne] at hw
    refine Threads.ext (thread_eq_update rfl (thread_current (c := { cur with status := .coDead })
      ((State.store_heap_ne hne.symm).trans State.store_heap_self)) fun b hb ↦ ?_) rfl rfl rfl
    by_cases hbw : b = cur.waiter
    · subst hbw
      simp [hw, Co.thread, hbegun w hw]
    · simp only [State.store_heap_ne hbw, State.store_heap_ne hb]

theorem Frame.thread_of_mode {f : Frame K} {m : Mode Arg K} (h : f.mode = .ok m) :
    m.thread c = .begun f := by
  cases f with
  | user k =>
    cases h
    rfl
  | waiting co k =>
    cases h
    rfl
  | finished => cases h

/-- `co_yield` changes nothing that the coroutines see. -/
theorem coYield_threads {frame : Frame K} (hmode : s.mode = .coYield frame)
    (hs : coYield o frame s = .ok s') : s'.threads = s.threads := by
  rcases coYield_cases hs with rfl | ⟨choice, cur, c, -, hcur, hold, hc, hswitched⟩
  · rfl
  have hother : ∀ b, b ≠ choice → s.thread b =
      ((s.store s.current { cur with context := frame }).heap b).map Co.thread := by
    intro b hb
    by_cases hbc : b = s.current
    · subst hbc
      rw [thread_current hcur, hmode, State.store_heap_self, Option.map_some, Co.thread,
        if_neg (show ({ cur with context := frame } : Co Fn Arg K).status ≠ .coNew from hold)]
      rfl
    · rw [thread_of_ne hbc, State.store_heap_ne hbc]
  rcases hswitched with ⟨hnew, rfl⟩ | ⟨hrun, c', mode, hc', hm, rfl⟩
  · have hne : choice ≠ s.current := by
      rintro rfl
      rw [hcur] at hc
      cases hc
      exact hold hnew
    refine Threads.ext (funext fun b ↦ ?_) rfl rfl rfl
    by_cases hb : b = choice
    · subst hb
      refine (thread_current ((State.store_heap_ne hne).trans hc)).trans ?_
      change _ = s.thread b
      rw [thread_of_ne hne, hc, Option.map_some, Co.thread, if_pos hnew]
      rfl
    · exact (thread_of_ne hb).trans (hother b hb).symm
  · refine Threads.ext (funext fun b ↦ ?_) rfl rfl rfl
    by_cases hb : b = choice
    · subst hb
      refine (thread_current hc').trans ?_
      change _ = s.thread b
      rw [Frame.thread_of_mode hm]
      by_cases hbc : b = s.current
      · subst hbc
        rw [State.store_heap_self] at hc'
        rw [thread_current hcur, hmode, ← Option.some.inj hc']
        rfl
      · rw [State.store_heap_ne hbc, hc] at hc'
        have hnew : c.status ≠ .coNew := fun hn ↦ by
          rw [hrun] at hn
          cases hn
        rw [thread_of_ne hbc, hc, Option.map_some, Co.thread, if_neg hnew, Option.some.inj hc']
    · exact (thread_of_ne hb).trans (hother b hb).symm

theorem coWaitLoop_threads (h : Inv s) {co : Addr} {k : K} (hmode : s.mode = .coWait co k)
    (hs : coWaitLoop co k s = .ok s') :
    s'.threads = s.threads ∨ s.thread co = some (.begun .finished) ∧
      s'.threads = { s.threads with
        thread := Function.update (Function.update s.thread s.current (some (.begun (.user k))))
          co none } := by
  obtain ⟨nodes, hl⟩ := h.listed
  obtain ⟨cur, hcur⟩ := h.exists_current
  obtain ⟨c, hc, ⟨-, rfl⟩ | ⟨hdead, s₁, h₁, rfl⟩⟩ := coWaitLoop_cases hs
  · refine Or.inl ((threads_mode hcur s.mem _).trans (Threads.ext ?_ rfl rfl rfl))
    exact Function.update_eq_self_iff.mpr (by rw [thread_current hcur, hmode]; rfl)
  · have hfinished := h.thread_finished hc hdead
    have hne : s.current ≠ co := by
      rintro rfl
      rw [thread_current hcur, hmode] at hfinished
      cases hfinished
    obtain ⟨n, head', hremove, -⟩ := hl.removeCo ((hl.live co).mpr (by rw [hc]; rfl)) hne
    obtain rfl := Except.ok.inj (hremove.symm.trans h₁)
    refine Or.inr ⟨hfinished, Threads.ext (funext fun b ↦ ?_) rfl rfl rfl⟩
    by_cases hb : b = co
    · simp [State.threads, State.thread, hb]
    · by_cases hbc : b = s.current
      · simp [State.threads, State.thread, hbc, hne, renext, hcur, Mode.thread]
      · simp [State.threads, State.thread, hb, hbc, renext, Function.comp_def, Co.thread]

theorem init_threads {mem : M} : (init P o mem).threads =
    ⟨Function.update (fun _ ↦ none) o.block (some (.begun (.user P.main))), o.block, [], mem⟩ := by
  refine Threads.ext (funext fun b ↦ ?_) rfl rfl rfl
  by_cases hb : b = o.block
  · subst hb
    simp [State.threads, State.thread, init, Mode.thread]
  · simp [State.threads, State.thread, init, hb]

/-- Every step of the library is one that its user expects, or none. -/
theorem Inv.step_threads (h : Inv s) (hfresh : s.heap o.block = none) (hs : step P o s = .ok s') :
    s.threads.Step P s'.threads := by
  obtain ⟨cur, hcur⟩ := h.exists_current
  have hcurrent := thread_current hcur
  rw [step] at hs
  split at hs
  case h_1 k hmode =>
    have hmem := h.of_mem (P.call s.mem k).1
    rw [hmode] at hcurrent
    refine .call hcurrent ?_
    dsimp only at hs
    split at hs
    case h_1 func arg k' hcall =>
      obtain ⟨s₁, h₁, hs⟩ := bind_ok hs
      obtain rfl := Except.ok.inj hs
      obtain ⟨heq, hnull⟩ := coStart_threads (k' o.block) hmem hfresh h₁
      rw [heq, show P.call s.threads.mem k = (_, .coStart func arg k') from Prod.ext rfl hcall]
      exact .start hnull (thread_eq_none.mpr hfresh)
    case h_2 k' hcall =>
      obtain rfl := Except.ok.inj hs
      rw [threads_mode hcur _ (.coYield (.user k')),
        show P.call s.threads.mem k = (_, .coYield k') from Prod.ext rfl hcall]
      exact .yield
    case h_3 co k' hcall =>
      rw [coWait_threads hs, show P.call s.threads.mem k = (_, .coWait co k') from
        Prod.ext rfl hcall]
      exact .wait
    case h_4 hcall =>
      rw [show P.call s.threads.mem k = (_, .ret) from Prod.ext rfl hcall]
      have hret : s.threads.Called s.current ((P.call s.mem k).1, .ret) _ := .ret
      split_ifs at hs with hmain
      · obtain rfl := Except.ok.inj hs
        rw [threads_mode hcur _ .exited]
        rwa [if_pos (show s.current = s.threads.mainCo from hmain)] at hret
      · rw [wrapperEnd_threads hmem hmode hmain hs]
        rwa [if_neg (show s.current ≠ s.threads.mainCo from hmain)] at hret
  case h_2 arg hmode =>
    obtain ⟨func, hat, heq⟩ := wrapper_threads h hmode hs
    rw [heq]
    exact .enter hat
  case h_3 frame hmode =>
    rw [coYield_threads hmode hs]
    exact .stay
  case h_4 co k hmode =>
    rw [hmode] at hcurrent
    rcases coWaitLoop_threads h hmode hs with heq | ⟨hco, heq⟩
    · rw [heq]
      exact .stay
    · rw [heq]
      exact .join hcurrent hco
  case h_5 hmode =>
    obtain rfl := Except.ok.inj hs
    exact .stay

end OsWorkbench.Libco
