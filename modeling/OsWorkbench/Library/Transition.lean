import Mathlib.Logic.Relation

namespace OsWorkbench.Library

structure System (σ : Type*) where
  init : σ → Prop
  step : σ → σ → Prop

namespace System

variable {σ : Type*} (S : System σ)

inductive Reachable : σ → Prop
  | init {s : σ} : S.init s → Reachable s
  | step {s s' : σ} : Reachable s → S.step s s' → Reachable s'

variable {S}

/-- A property that holds initially and that every step from a reachable state
keeps holds in every reachable state. -/
theorem Reachable.invariant {I : σ → Prop} (hinit : ∀ s, S.init s → I s)
    (hstep : ∀ s s', S.Reachable s → I s → S.step s s' → I s') {s : σ} (h : S.Reachable s) : I s := by
  induction h with
  | init hi => exact hinit _ hi
  | step hr hs ih => exact hstep _ _ hr ih hs

variable (S) in
/-- The runs that leave a state only where it satisfies the condition. -/
def restrict (ok : σ → Prop) : System σ where
  init := S.init
  step s s' := ok s ∧ S.step s s'

theorem Reachable.restrict_mono {ok ok' : σ → Prop} (hok : ∀ s, ok s → ok' s) {s : σ}
    (h : (S.restrict ok).Reachable s) : (S.restrict ok').Reachable s := by
  induction h with
  | init hi => exact .init hi
  | step _ hs ih => exact .step ih ⟨hok _ hs.1, hs.2⟩

variable (S) in
/-- The runs from one state. -/
def startingAt (s₀ : σ) : System σ where
  init s := s = s₀
  step := S.step

theorem Reachable.of_startingAt {s₀ s : σ} (hinit : S.init s₀) (h : (S.startingAt s₀).Reachable s) :
    S.Reachable s := by
  induction h with
  | init hi =>
    subst hi
    exact .init hinit
  | step _ hs ih => exact .step ih hs

/-- A computed run follows the steps of the system. -/
theorem Reachable.run {ι : Type*} {exec : σ → ι → Option σ}
    (hexec : ∀ s i s', exec s i = some s' → S.step s s') {is : List ι} {s s' : σ}
    (h : S.Reachable s) (hrun : is.foldlM exec s = some s') : S.Reachable s' := by
  induction is generalizing s with
  | nil =>
    cases hrun
    exact h
  | cons i is ih =>
    obtain ⟨t, ht, hrest⟩ := Option.bind_eq_some_iff.mp hrun
    exact ih (.step h (hexec s i t ht)) hrest

section History

variable {η : Type*} {start : η} {record : σ → σ → η → η}

variable (S start record) in
def withHistory : System (σ × η) where
  init x := S.init x.1 ∧ x.2 = start
  step x y := S.step x.1 y.1 ∧ y.2 = record x.1 y.1 x.2

theorem Reachable.state {x : σ × η} (h : (S.withHistory start record).Reachable x) :
    S.Reachable x.1 := by
  induction h with
  | init hi => exact .init hi.1
  | step _ hs ih => exact .step ih hs.1

variable (start record) in
/-- Every run can be recorded. -/
theorem Reachable.exists_history {s : σ} (h : S.Reachable s) :
    ∃ history, (S.withHistory start record).Reachable (s, history) := by
  induction h with
  | init hi => exact ⟨start, .init ⟨hi, rfl⟩⟩
  | @step s s' _ hs ih =>
    obtain ⟨history, hr⟩ := ih
    exact ⟨record s s' history, hr.step ⟨hs, rfl⟩⟩

end History

end System

end OsWorkbench.Library
