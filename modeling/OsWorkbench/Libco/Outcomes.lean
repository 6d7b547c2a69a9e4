import OsWorkbench.Library.Fallible
import OsWorkbench.Libco.Model
import Mathlib.Tactic.SplitIfs
import Mathlib.Tactic.ByContra

namespace OsWorkbench.Libco

open Library

variable {Fn Arg K M : Type} {s s' : State Fn Arg K M} {o : Oracle Fn Arg K}

theorem State.heap_of_load {a : Addr} {c : Co Fn Arg K} (h : s.load a = .ok c) : s.heap a = some c := by
  rw [State.load] at h
  cases ha : s.heap a with
  | none =>
    rw [ha] at h
    cases h
  | some c' =>
    rw [ha] at h
    cases h
    rfl

theorem State.modify_cases {a : Addr} {f : Co Fn Arg K → Co Fn Arg K} (h : s.modify a f = .ok s') :
    ∃ c, s.heap a = some c ∧ s' = s.store a (f c) := by
  obtain ⟨c, hc, hs⟩ := bind_ok h
  exact ⟨c, State.heap_of_load hc, (Except.ok.inj hs).symm⟩

theorem coStart_cases {func : Fn} {arg : Arg} (hs : coStart o func arg s = .ok s') :
    o.block ≠ null ∧ ∃ s₁, insertCo (s.store o.block
        { o.bytes with func := func, arg := arg, status := .coNew, waiter := null }) o.block =
          .ok s₁ ∧
      s' = { s₁ with waitedOn := s₁.waitedOn.filter (· ≠ o.block) } := by
  rw [coStart] at hs
  split_ifs at hs with hnull
  obtain ⟨s₁, h₁, hs⟩ := bind_ok hs
  exact ⟨hnull, s₁, h₁, (Except.ok.inj hs).symm⟩

theorem coWait_cases {co : Addr} {k : K} (hs : coWait co k s = .ok s') :
    ∃ cur c, s.heap s.current = some cur ∧
      (s.store s.current { cur with status := .coWaiting }).heap co = some c ∧
      (∀ c, s.heap co = some c → c.status ≠ .coWaiting) ∧
      s' = { (s.store s.current { cur with status := .coWaiting }).store co
          { c with waiter := s.current } with
        mode := .coWait co k, waitedOn := co :: s.waitedOn } := by
  rw [coWait] at hs
  split_ifs at hs with hnull
  obtain ⟨c₀, hc₀, hs⟩ := bind_ok hs
  have hc₀ := State.heap_of_load hc₀
  split_ifs at hs with hwaiting
  obtain ⟨s₁, h₁, hs⟩ := bind_ok hs
  obtain ⟨cur, hcur, rfl⟩ := State.modify_cases h₁
  obtain ⟨s₂, h₂, hs⟩ := bind_ok hs
  obtain ⟨c, hc, rfl⟩ := State.modify_cases h₂
  refine ⟨cur, c, hcur, hc, fun c' hc' ↦ ?_, (Except.ok.inj hs).symm⟩
  rw [hc₀] at hc'
  exact Option.some.inj hc' ▸ hwaiting

theorem wrapperEnd_cases (hs : wrapperEnd s = .ok s') :
    ∃ cur, s.heap s.current = some cur ∧
      (cur.waiter = null ∧
        s' = { s.store s.current { cur with status := .coDead } with mode := .coYield .finished } ∨
      cur.waiter ≠ null ∧ ∃ w,
        (s.store s.current { cur with status := .coDead }).heap cur.waiter = some w ∧
        s' = { (s.store s.current { cur with status := .coDead }).store cur.waiter
            { w with status := .coRunning } with mode := .coYield .finished }) := by
  obtain ⟨s₁, h₁, hs⟩ := bind_ok hs
  obtain ⟨cur, hcur, rfl⟩ := State.modify_cases h₁
  obtain ⟨c, hc, hs⟩ := bind_ok hs
  obtain rfl := Option.some.inj ((State.heap_of_load hc).symm.trans State.store_heap_self)
  refine ⟨cur, hcur, ?_⟩
  dsimp only at hs
  split_ifs at hs with hnull
  · obtain ⟨s₂, h₂, hs⟩ := bind_ok hs
    obtain ⟨w, hw, rfl⟩ := State.modify_cases h₂
    exact Or.inr ⟨hnull, w, hw, (Except.ok.inj hs).symm⟩
  · exact Or.inl ⟨not_not.mp hnull, (Except.ok.inj hs).symm⟩

theorem coYield_cases {frame : Frame K} (hs : coYield o frame s = .ok s') : s' = s ∨
    ∃ choice cur c, randomSelectCo s o.rand = .ok choice ∧ s.heap s.current = some cur ∧
      cur.status ≠ .coNew ∧ s.heap choice = some c ∧
      (c.status = .coNew ∧ s' = { s.store s.current { cur with context := frame } with
          current := choice, mode := .wrapper c.arg } ∨
        c.status = .coRunning ∧ ∃ c' mode,
          (s.store s.current { cur with context := frame }).heap choice = some c' ∧
          c'.context.mode = .ok mode ∧
          s' = { s.store s.current { cur with context := frame } with
            current := choice, mode := mode }) := by
  rw [coYield] at hs
  obtain ⟨choice, hchoice, hs⟩ := bind_ok hs
  obtain ⟨c, hc, hs⟩ := bind_ok hs
  split_ifs at hs with hbusy hnull hnew
  · exact Or.inl (Except.ok.inj hs).symm
  · obtain ⟨cur, hcur, hs⟩ := bind_ok hs
    split_ifs at hs with hold
    exact Or.inr ⟨choice, cur, c, hchoice, State.heap_of_load hcur, hold, State.heap_of_load hc,
      Or.inl ⟨hnew, (Except.ok.inj hs).symm⟩⟩
  · obtain ⟨cur, hcur, hs⟩ := bind_ok hs
    split_ifs at hs with hold
    obtain ⟨c', hc', hs⟩ := bind_ok hs
    obtain ⟨mode, hmode, hs⟩ := bind_ok hs
    refine Or.inr ⟨choice, cur, c, hchoice, State.heap_of_load hcur, hold, State.heap_of_load hc,
      Or.inr ⟨?_, c', mode, State.heap_of_load hc', hmode, (Except.ok.inj hs).symm⟩⟩
    by_contra hne
    exact hbusy ⟨hnew, hne⟩

theorem coWaitLoop_cases {co : Addr} {k : K} (hs : coWaitLoop co k s = .ok s') :
    ∃ c, s.heap co = some c ∧
      (c.status ≠ .coDead ∧ s' = { s with mode := .coYield (.waiting co k) } ∨
        c.status = .coDead ∧ ∃ s₁, removeCo s co = .ok s₁ ∧ s' = { s₁ with mode := .user k }) := by
  rw [coWaitLoop] at hs
  obtain ⟨c, hc, hs⟩ := bind_ok hs
  refine ⟨c, State.heap_of_load hc, ?_⟩
  split_ifs at hs with hdead
  · exact Or.inl ⟨hdead, (Except.ok.inj hs).symm⟩
  · obtain ⟨s₁, h₁, hs⟩ := bind_ok hs
    exact Or.inr ⟨not_not.mp hdead, s₁, h₁, (Except.ok.inj hs).symm⟩

theorem wrapper_cases {P : Program Fn Arg K M} {arg : Arg} (hs : wrapper P arg s = .ok s') :
    ∃ c, s.heap s.current = some c ∧
      s' = { (if c.status = .coNew then s.store s.current { c with status := .coRunning } else s) with
        mode := .user (P.enter c.func arg) } := by
  obtain ⟨c, hc, hs⟩ := bind_ok hs
  exact ⟨c, State.heap_of_load hc, (Except.ok.inj hs).symm⟩
end OsWorkbench.Libco
