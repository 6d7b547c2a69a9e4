import OsWorkbench.Libco.WaitStatus

namespace OsWorkbench.Libco

open Library PointerChain

variable {Fn Arg K M : Type} {P : Program Fn Arg K M} {s s' : State Fn Arg K M}
  {o : Oracle Fn Arg K} {nodes : List Addr} {q : Addr}

/-- The pointers from `head` on lead through all the allocated coroutines, and then to `q`. -/
structure ChainTo (s : State Fn Arg K M) (q : Addr) (nodes : List Addr) : Prop where
  ends : EndsAt s q nodes
  nodup : nodes.Nodup
  live : ∀ a, a ∈ nodes ↔ (s.nextOf a).isSome

theorem Listed.chainTo (hl : Listed s nodes) (hq : EndsAt s q nodes) : ChainTo s q nodes :=
  ⟨hq, hl.nodup, fun a ↦ by rw [hl.live, State.nextOf, Option.isSome_map]⟩

/-- The chain visits each coroutine once, so there is only one. -/
theorem ChainTo.unique {q' : Addr} {nodes' : List Addr} (h : ChainTo s q nodes)
    (h' : ChainTo s q' nodes') : nodes = nodes' ∧ q = q' := by
  have hperm : nodes.Perm nodes' :=
    (List.perm_ext_iff_of_nodup h.nodup h'.nodup).mpr fun a ↦ (h.live a).trans (h'.live a).symm
  exact h.ends.unique h'.ends hperm.length_eq

theorem ChainTo.endsAt (h : ChainTo s q nodes) {nodes' : List Addr} (hl : Listed s nodes') :
    EndsAt s q nodes' := by
  obtain ⟨q', hq'⟩ := linked_iff.mp hl.linked
  obtain ⟨rfl, rfl⟩ := h.unique (hl.chainTo hq')
  exact h.ends

theorem ChainTo.of_eq (h : ChainTo s q nodes) (hnext : s'.nextOf = s.nextOf)
    (hhead : s'.head = s.head) : ChainTo s' q nodes := by
  obtain ⟨hends, hnodup, hlive⟩ := h
  rw [EndsAt] at hends
  exact ⟨by rwa [EndsAt, hnext, hhead], hnodup, by rwa [hnext]⟩

theorem State.nextOf_store {a : Addr} {c d : Co Fn Arg K} (hc : s.heap a = some c)
    (hnext : d.next = c.next) : (s.store a d).nextOf = s.nextOf := by
  funext b
  by_cases hb : b = a
  · simp [State.nextOf, hb, hc, hnext]
  · rw [State.nextOf, State.nextOf, State.store_heap_ne hb]

theorem coStart_chainTo (h : Inv s) (hfresh : s.heap o.block = none) {func : Fn} {arg : Arg}
    (hs : coStart o func arg s = .ok s') (hc : ChainTo s q nodes) : ∃ nodes, ChainTo s' q nodes := by
  obtain ⟨nodes', hl⟩ := h.listed
  obtain ⟨cur, hcur⟩ := h.exists_current
  have hmem : s.current ∈ nodes' := (hl.live _).mpr (by simp [hcur])
  have hnew : o.block ∉ nodes' := fun hm ↦ by simpa [hfresh] using (hl.live _).mp hm
  obtain ⟨hnull, s₁, h₁, rfl⟩ := coStart_cases hs
  obtain ⟨n, hins, hlist, hends⟩ := hl.insertCo
    { o.bytes with func := func, arg := arg, status := .coNew, waiter := null } hmem hnew hnull
  obtain rfl := Except.ok.inj (hins.symm.trans h₁)
  exact ⟨_, (hlist.chainTo (hends q (hc.endsAt hl))).of_eq rfl rfl⟩

theorem coWaitLoop_chainTo (h : Inv s) {co : Addr} {k : K} (hmode : s.mode = .coWait co k)
    (hs : coWaitLoop co k s = .ok s') (hc : ChainTo s q nodes) : ∃ nodes, ChainTo s' q nodes := by
  obtain ⟨nodes', hl⟩ := h.listed
  obtain ⟨c, hco, ⟨-, rfl⟩ | ⟨hdead, s₁, hremoved, rfl⟩⟩ := coWaitLoop_cases hs
  · exact ⟨nodes, hc.of_eq rfl rfl⟩
  · have hmem : co ∈ nodes' := (hl.live co).mpr (by simp [hco])
    obtain ⟨n, head', hremove, hlist, hends⟩ := hl.removeCo hmem (h.current_ne hmode hco hdead)
    obtain rfl := Except.ok.inj (hremove.symm.trans hremoved)
    exact ⟨_, (hlist.chainTo (hends q (hc.endsAt hl))).of_eq rfl rfl⟩

theorem coWait_chainTo {co : Addr} {k : K} (hs : coWait co k s = .ok s') (hc : ChainTo s q nodes) :
    ChainTo s' q nodes := by
  obtain ⟨cur, c, hcur, hco, -, rfl⟩ := coWait_cases hs
  refine hc.of_eq (Eq.trans ?_ (State.nextOf_store hcur (d := { cur with status := .coWaiting }) rfl)) rfl
  exact State.nextOf_store hco (d := { c with waiter := s.current }) rfl

theorem wrapper_chainTo {arg : Arg} (hs : wrapper P arg s = .ok s') (hc : ChainTo s q nodes) :
    ChainTo s' q nodes := by
  obtain ⟨cur, hcur, rfl⟩ := wrapper_cases hs
  split_ifs
  · exact hc.of_eq (State.nextOf_store hcur (d := { cur with status := .coRunning }) rfl) rfl
  · exact hc.of_eq rfl rfl

theorem wrapperEnd_chainTo (hs : wrapperEnd s = .ok s') (hc : ChainTo s q nodes) :
    ChainTo s' q nodes := by
  obtain ⟨cur, hcur, hend⟩ := wrapperEnd_cases hs
  have hdead := State.nextOf_store hcur (d := { cur with status := .coDead }) rfl
  rcases hend with ⟨-, rfl⟩ | ⟨-, w, hw, rfl⟩
  · exact hc.of_eq hdead rfl
  · refine hc.of_eq (Eq.trans ?_ hdead) rfl
    exact State.nextOf_store hw (d := { w with status := .coRunning }) rfl

theorem coYield_chainTo {frame : Frame K} (hs : coYield o frame s = .ok s') (hc : ChainTo s q nodes) :
    ChainTo s' q nodes := by
  rcases coYield_cases hs with rfl | ⟨choice, cur, c, -, hcur, -, -, hswitched⟩
  · exact hc
  have hsaved := State.nextOf_store hcur (d := { cur with context := frame }) rfl
  rcases hswitched with ⟨-, rfl⟩ | ⟨-, c', mode, -, -, rfl⟩
  · exact hc.of_eq hsaved rfl
  · exact hc.of_eq hsaved rfl

/-- Only `insert_co` and `remove_co` write the pointers, and they keep the end of the chain. -/
theorem step_chainTo (h : Inv s) (hfresh : s.heap o.block = none) (hs : step P o s = .ok s')
    (hc : ChainTo s q nodes) : ∃ nodes, ChainTo s' q nodes := by
  rw [step] at hs
  split at hs
  case h_1 k hmode =>
    have hmem := h.of_mem (P.call s.mem k).1
    have hcmem : ChainTo { s with mem := (P.call s.mem k).1 } q nodes := hc.of_eq rfl rfl
    dsimp only at hs
    split at hs
    case h_1 func arg k' hcall =>
      obtain ⟨s₁, hstart, hs⟩ := bind_ok hs
      obtain rfl := Except.ok.inj hs
      obtain ⟨nodes', hc'⟩ := coStart_chainTo hmem hfresh hstart hcmem
      exact ⟨nodes', hc'.of_eq rfl rfl⟩
    case h_2 k' hcall =>
      obtain rfl := Except.ok.inj hs
      exact ⟨nodes, hcmem.of_eq rfl rfl⟩
    case h_3 co k' hcall => exact ⟨nodes, coWait_chainTo hs hcmem⟩
    case h_4 hcall =>
      split_ifs at hs
      · obtain rfl := Except.ok.inj hs
        exact ⟨nodes, hcmem.of_eq rfl rfl⟩
      · exact ⟨nodes, wrapperEnd_chainTo hs hcmem⟩
  case h_2 arg hmode => exact ⟨nodes, wrapper_chainTo hs hc⟩
  case h_3 frame hmode => exact ⟨nodes, coYield_chainTo hs hc⟩
  case h_4 co k hmode => exact coWaitLoop_chainTo h hmode hs hc
  case h_5 hmode =>
    obtain rfl := Except.ok.inj hs
    exact ⟨nodes, hc⟩

theorem init_chainTo {mem : M} : ChainTo (init P o mem) o.bytes.next [o.block] := by
  refine ⟨⟨rfl, o.bytes.next, ?_, rfl⟩, List.nodup_singleton _, fun a ↦ ?_⟩
  · simp [State.nextOf, init]
  · by_cases ha : a = o.block <;> simp [State.nextOf, init, ha]

/-- The chain ends where `init` has left the pointer of the first coroutine. -/
theorem reachable_chainTo {mem : M} (hnull : o.block ≠ null)
    (h : (((coSystem P).restrict (WaitsOnce P)).startingAt (init P o mem)).Reachable s) :
    ∃ nodes, ChainTo s o.bytes.next nodes := by
  induction h with
  | init hi =>
    subst hi
    exact ⟨_, init_chainTo⟩
  | step hr hs ih =>
    obtain ⟨nodes, hc⟩ := ih
    obtain ⟨-, o', hfresh, hstep⟩ := hs
    have hinv := reachable_inv (fun _ ↦ id) (hr.of_startingAt ⟨o, mem, hnull, rfl⟩)
    exact step_chainTo hinv hfresh hstep hc

/-- A terminated chain is freed, and the rest of the heap is left alone. -/
theorem finiLoop_spec {p : Addr} {fuel : ℕ} (h : LinkedTo s.nextOf null p nodes) (hd : nodes.Nodup)
    (hnull : s.heap null = none) (hf : nodes.length < fuel) :
    finiLoop fuel p s = .ok { s with heap := fun a ↦ if a ∈ nodes then none else s.heap a } := by
  induction nodes generalizing fuel p s with
  | nil =>
    obtain ⟨fuel, rfl⟩ := Nat.exists_eq_add_one_of_ne_zero (Nat.ne_zero_of_lt hf)
    rw [finiLoop, if_pos (show p = null from h)]
    simp
  | cons a nodes ih =>
    obtain ⟨fuel, rfl⟩ := Nat.exists_eq_add_one_of_ne_zero (Nat.ne_zero_of_lt hf)
    obtain ⟨rfl, r, hr, hrest⟩ := h
    obtain ⟨c, hca, rfl⟩ := Option.map_eq_some_iff.mp hr
    obtain ⟨hnot, hd⟩ := List.nodup_cons.mp hd
    have hne : a ≠ null := fun he ↦ by
      rw [he, hnull] at hca
      cases hca
    let s₁ : State Fn Arg K M := { s with heap := Function.update s.heap a none }
    have hnext : ∀ b ∈ nodes, s₁.nextOf b = s.nextOf b := fun b hb ↦ by
      have hba : b ≠ a := fun he ↦ hnot (he ▸ hb)
      simp only [s₁, State.nextOf, Function.update_of_ne hba]
    have hnull₁ : s₁.heap null = none := (Function.update_of_ne hne.symm _ _).trans hnull
    have hfreed := ih (hrest.congr hnext) hd hnull₁ (Nat.lt_of_succ_lt_succ hf)
    rw [finiLoop, if_neg hne, State.load_eq hca]
    simp only [bind, Except.bind, free, State.load_eq hca, pure, Except.pure]
    rw [hfreed]
    congr 2
    funext b
    by_cases hb : b = a
    · simp [s₁, hb]
    · simp [s₁, hb]

/-- `fini` walks over the allocated coroutines to a NULL, and frees each of them. -/
structure ExitWalk (s : State Fn Arg K M) (nodes : List Addr) : Prop where
  terminated : EndsAt s null nodes
  nodup : nodes.Nodup
  live : ∀ a, a ∈ nodes ↔ (s.heap a).isSome
  freed : ∀ fuel, nodes.length < fuel → fini fuel s = .ok { s with heap := fun _ ↦ none }

theorem ChainTo.end_eq_null_iff (hc : ChainTo s q nodes) (hnull : s.heap null = none) :
    (∃ nodes, ExitWalk s nodes) ↔ q = null := by
  constructor
  · rintro ⟨nodes', hw⟩
    have hc' : ChainTo s null nodes' :=
      ⟨hw.terminated, hw.nodup, fun a ↦ by rw [hw.live, State.nextOf, Option.isSome_map]⟩
    exact (hc.unique hc').2
  · rintro rfl
    have hlive : ∀ a, a ∈ nodes ↔ (s.heap a).isSome := fun a ↦ by
      rw [hc.live, State.nextOf, Option.isSome_map]
    refine ⟨nodes, hc.ends, hc.nodup, hlive, fun fuel hf ↦ ?_⟩
    rw [fini, finiLoop_spec hc.ends hc.nodup hnull hf]
    congr 2
    funext a
    by_cases ha : a ∈ nodes
    · rw [if_pos ha]
    · rw [if_neg ha, Option.not_isSome_iff_eq_none.mp (fun hs ↦ ha ((hlive a).mpr hs))]

/-- `fini` frees the allocated coroutines and nothing else exactly when the block that
`malloc` returned to `init` held a NULL in the place of `next`. -/
theorem exitWalk_iff {mem : M} (hnull : o.block ≠ null)
    (h : (((coSystem P).restrict (WaitsOnce P)).startingAt (init P o mem)).Reachable s) :
    (∃ nodes, ExitWalk s nodes) ↔ o.bytes.next = null := by
  obtain ⟨nodes, hc⟩ := reachable_chainTo hnull h
  obtain ⟨_, hl⟩ := (reachable_inv (fun _ ↦ id) (h.of_startingAt ⟨o, mem, hnull, rfl⟩)).listed
  exact hc.end_eq_null_iff hl.null

section Sample

/-- The bytes that `init` finds in its block, with the given `next`. -/
def initOracle (next : Addr) : Oracle Unit Unit (ℕ × Addr) :=
  { oracle 0 1 with bytes := ⟨(), (), .coDead, 7, .finished, next⟩ }

/-- `main` waits for its coroutine and returns. -/
def exitChoices : List (Oracle Unit Unit (ℕ × Addr)) :=
  waitChoices ++ List.replicate 3 (oracle 0 3)

theorem sample_exits (next : Addr) (hnext : next = null ∨ next = 9) :
    ∃ s, (((coSystem (waitProgram 2)).restrict (WaitsOnce (waitProgram 2))).startingAt
      (init (waitProgram 2) (initOracle next) ())).Reachable s ∧ s.mode = .exited := by
  have hrun : ((exitChoices.foldlM (exec (waitProgram 2) (WaitsOnce (waitProgram 2)))
      (init (waitProgram 2) (initOracle next) ())).any fun s ↦ s.mode = .exited) = true := by
    rcases hnext with rfl | rfl <;> decide +kernel
  obtain ⟨s, hs, hmode⟩ := (Option.any_eq_true _ _).mp hrun
  exact ⟨s, .run (fun _ _ _ ↦ exec_step) (.init rfl) hs, of_decide_eq_true hmode⟩

/-- `init` leaves what stood in `next`, and `fini` follows it. -/
theorem garbage_not_walked : ∃ s,
    (((coSystem (waitProgram 2)).restrict (WaitsOnce (waitProgram 2))).startingAt
      (init (waitProgram 2) (initOracle 9) ())).Reachable s ∧ s.mode = .exited ∧
      ¬ ∃ nodes, ExitWalk s nodes := by
  obtain ⟨s, hs, hmode⟩ := sample_exits 9 (.inr rfl)
  have hnull : (initOracle 9).block ≠ null := by decide
  obtain ⟨nodes, hc⟩ := reachable_chainTo hnull hs
  obtain ⟨_, hl⟩ := (reachable_inv (fun _ ↦ id) (hs.of_startingAt ⟨_, (), hnull, rfl⟩)).listed
  exact ⟨s, hs, hmode, fun hw ↦ absurd ((hc.end_eq_null_iff hl.null).mp hw) (by decide)⟩

theorem zeroed_walked : ∃ s,
    (((coSystem (waitProgram 2)).restrict (WaitsOnce (waitProgram 2))).startingAt
      (init (waitProgram 2) (initOracle null) ())).Reachable s ∧ s.mode = .exited ∧
      ∃ nodes, ExitWalk s nodes := by
  obtain ⟨s, hs, hmode⟩ := sample_exits null (.inl rfl)
  exact ⟨s, hs, hmode, (exitWalk_iff (o := initOracle null) (by decide) hs).mpr rfl⟩

end Sample

end OsWorkbench.Libco
