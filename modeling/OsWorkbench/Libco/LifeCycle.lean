import OsWorkbench.Libco.WaitStatus
import Mathlib.Data.Set.Basic

namespace OsWorkbench.Libco

open Library

namespace View

variable {allowed : View → Addr → Prop} {v v' : View}

/-- Nobody writes the status of a finished coroutine again. -/
theorem Ok.dead_step (h : v.Ok) (hs : v.Step allowed v') {a : Addr}
    (ha : v.status a = some .coDead) : v'.status a = some .coDead ∨ v'.status a = none := by
  have hfinished := (h.dead a).mp ha
  have hwaiting := h.waiter
  cases hs with
  | stay => exact Or.inl ha
  | start b hnull hfresh =>
    refine Or.inl ((Function.update_of_ne ?_ _ _).trans ha)
    rintro rfl
    rw [ha] at hfresh
    cases hfresh
  | enter hnew =>
    refine Or.inl ((Function.update_of_ne ?_ _ _).trans ha)
    rintro rfl
    rw [ha] at hnew
    cases hnew
  | wait co hactive hlive hmain honce hnot hallowed =>
    refine Or.inl ((Function.update_of_ne ?_ _ _).trans ha)
    rintro rfl
    rw [hfinished] at hactive
    cases hactive
  | exit hactive hmain => exact Or.inl ha
  | finish hactive hmain =>
    refine Or.inl ?_
    simp only [finishStatus]
    split_ifs with hw hc
    · rw [hwaiting _ a hw.1 hmain hw.2] at hfinished
      cases hfinished
    · rfl
    · exact ha
  | switch co hready => exact Or.inl ha
  | remove co hw hdead =>
    by_cases hco : a = co
    · exact Or.inr (hco ▸ Function.update_self ..)
    · exact Or.inl ((Function.update_of_ne hco _ _).trans ha)

theorem Step.begun (hs : v.Step allowed v') {a : Addr} {st : CoStatus} (ha : v.status a = some st)
    (hst : st ≠ .coNew) : v'.status a = none ∨ ∃ st', v'.status a = some st' ∧ st' ≠ .coNew := by
  cases hs with
  | stay => exact Or.inr ⟨st, ha, hst⟩
  | start b hnull hfresh =>
    refine Or.inr ⟨st, (Function.update_of_ne ?_ _ _).trans ha, hst⟩
    rintro rfl
    rw [ha] at hfresh
    cases hfresh
  | enter hnew =>
    by_cases hc : a = v.current
    · exact Or.inr ⟨.coRunning, hc ▸ Function.update_self .., by decide⟩
    · exact Or.inr ⟨st, (Function.update_of_ne hc _ _).trans ha, hst⟩
  | wait co hactive hlive hmain honce hnot hallowed =>
    by_cases hc : a = v.current
    · exact Or.inr ⟨.coWaiting, hc ▸ Function.update_self .., by decide⟩
    · exact Or.inr ⟨st, (Function.update_of_ne hc _ _).trans ha, hst⟩
  | exit hactive hmain => exact Or.inr ⟨st, ha, hst⟩
  | finish hactive hmain =>
    refine Or.inr ?_
    simp only [finishStatus]
    split_ifs with hw hc
    · exact ⟨_, rfl, by decide⟩
    · exact ⟨_, rfl, by decide⟩
    · exact ⟨st, ha, hst⟩
  | switch co hready => exact Or.inr ⟨st, ha, hst⟩
  | remove co hw hdead =>
    by_cases hco : a = co
    · exact Or.inl (hco ▸ Function.update_self ..)
    · exact Or.inr ⟨st, (Function.update_of_ne hco _ _).trans ha, hst⟩

/-- Only the current coroutine finishes, and it was active. -/
theorem Step.died (hs : v.Step allowed v') {a : Addr} (ha : v'.status a = some .coDead)
    (hold : v.status a ≠ some .coDead) :
    a = v.current ∧ v'.current = v.current ∧ v.activity v.current = some .active ∧
      v'.activity v.current = some .finished := by
  cases hs with
  | stay => exact absurd ha hold
  | start b hnull hfresh =>
    simp only [Function.update_apply] at ha
    split_ifs at ha
    · cases ha
    · exact absurd ha hold
  | enter hnew =>
    simp only [Function.update_apply] at ha
    split_ifs at ha
    · cases ha
    · exact absurd ha hold
  | wait co hactive hlive hmain honce hnot hallowed =>
    simp only [Function.update_apply] at ha
    split_ifs at ha
    · cases ha
    · exact absurd ha hold
  | exit hactive hmain => exact absurd ha hold
  | finish hactive hmain =>
    simp only [finishStatus] at ha
    split_ifs at ha with hw hc
    · cases ha
    · exact ⟨hc, rfl, hactive, Function.update_self ..⟩
    · exact absurd ha hold
  | switch co hready => exact absurd ha hold
  | remove co hw hdead =>
    simp only [Function.update_apply] at ha
    split_ifs at ha
    exact absurd ha hold

theorem Step.freed (hs : v.Step allowed v') {a : Addr} (ha : (v.status a).isSome)
    (hnone : v'.status a = none) :
    v.status a = some .coDead ∧ v.activity v.current = some (.waiting a) := by
  have hne : v.status a ≠ none := Option.isSome_iff_ne_none.mp ha
  cases hs with
  | stay => exact absurd hnone hne
  | start b hnull hfresh =>
    simp only [Function.update_apply] at hnone
    split_ifs at hnone
    exact absurd hnone hne
  | enter hnew =>
    simp only [Function.update_apply] at hnone
    split_ifs at hnone
    exact absurd hnone hne
  | wait co hactive hlive hmain honce hnot hallowed =>
    simp only [Function.update_apply] at hnone
    split_ifs at hnone
    exact absurd hnone hne
  | exit hactive hmain => exact absurd hnone hne
  | finish hactive hmain =>
    simp only [finishStatus] at hnone
    split_ifs at hnone
    exact absurd hnone hne
  | switch co hready => exact absurd hnone hne
  | remove co hw hdead =>
    simp only [Function.update_apply] at hnone
    split_ifs at hnone with hco
    · exact hco ▸ ⟨hdead, hw⟩
    · exact absurd hnone hne

end View

variable {Fn Arg K M : Type} {P : Program Fn Arg K M} {s s' : State Fn Arg K M}
  {o : Oracle Fn Arg K}

section Steps

theorem State.store_status {a : Addr} {c c' : Co Fn Arg K} (hc : s.heap a = some c)
    (hst : c'.status = c.status) : (s.store a c').view.status = s.view.status := by
  funext b
  by_cases hb : b = a
  · rw [hb]
    simp [State.view, hc, hst]
  · simp [State.view, State.store_heap_ne hb]

theorem coYield_status {frame : Frame K} (hs : coYield o frame s = .ok s') :
    s'.view.status = s.view.status := by
  rcases coYield_cases hs with rfl | ⟨choice, cur, c, -, hcur, -, -, hswitched⟩
  · rfl
  have hstore : (s.store s.current { cur with context := frame }).view.status = s.view.status :=
    State.store_status hcur rfl
  rcases hswitched with ⟨-, rfl⟩ | ⟨-, c', mode, -, -, rfl⟩
  · exact hstore
  · exact hstore

/-- The function of the current coroutine returns in this state. -/
def Returns (P : Program Fn Arg K M) (s : State Fn Arg K M) : Prop :=
  ∃ k, s.mode = .user k ∧ (P.call s.mem k).2 = .ret ∧ s.current ≠ s.mainCo

theorem returns_of_finished {k : K} (hmode : s.mode = .user k) (hs : step P o s = .ok s')
    (hfinished : s'.mode.activity = some .finished) : Returns P s := by
  rw [step, hmode] at hs
  cases hcall : (P.call s.mem k).2 with
  | coStart func arg k' =>
    simp only [hcall] at hs
    cases hstart : coStart o func arg { s with mem := (P.call s.mem k).1, mode := .user k } with
    | error e =>
      rw [hstart] at hs
      cases hs
    | ok s₁ =>
      rw [hstart] at hs
      cases hs
      cases hfinished
  | coYield k' =>
    simp only [hcall] at hs
    cases hs
    cases hfinished
  | coWait co k' =>
    simp only [hcall] at hs
    obtain ⟨cur, c, -, -, -, rfl⟩ := coWait_cases hs
    cases hfinished
  | ret =>
    refine ⟨k, hmode, hcall, fun hmain ↦ ?_⟩
    simp only [hcall, if_pos hmain] at hs
    cases hs
    cases hfinished

theorem step_died (hs : step P o s = .ok s') (hview : s.view.Step (fun _ _ ↦ True) s'.view)
    {a : Addr} (ha : s'.view.status a = some .coDead) (hold : s.view.status a ≠ some .coDead) :
    a = s.current ∧ Returns P s := by
  obtain ⟨rfl, hcur, hactive, hfinished⟩ := hview.died ha hold
  refine ⟨rfl, ?_⟩
  have hactive : s.mode.activity = some .active := view_activity_current.symm.trans hactive
  have hfinished : s'.mode.activity = some .finished := by
    rw [← view_activity_current, show s'.current = s.current from hcur]
    exact hfinished
  cases hmode : s.mode with
  | user k => exact returns_of_finished hmode hs hfinished
  | wrapper arg =>
    rw [hmode] at hactive
    cases hactive
  | coYield frame =>
    rw [step, hmode] at hs
    rw [coYield_status hs] at ha
    exact absurd ha hold
  | coWait co k =>
    rw [hmode] at hactive
    cases hactive
  | exited =>
    rw [hmode] at hactive
    cases hactive

theorem step_freed (hs : step P o s = .ok s') (hview : s.view.Step (fun _ _ ↦ True) s'.view)
    {a : Addr} (ha : (s.view.status a).isSome) (hnone : s'.view.status a = none) :
    s.view.status a = some .coDead ∧ ∃ k, s.mode = .coWait a k ∧ s'.mode = .user k := by
  obtain ⟨hdead, hwaiting⟩ := hview.freed ha hnone
  refine ⟨hdead, ?_⟩
  obtain ⟨k, hmode | hmode⟩ := Mode.activity_eq_waiting (view_activity_current.symm.trans hwaiting)
  · refine ⟨k, hmode, ?_⟩
    rw [step, hmode] at hs
    obtain ⟨c, -, ⟨-, rfl⟩ | ⟨-, s₁, -, rfl⟩⟩ := coWaitLoop_cases hs
    · rw [show s.view.status a = none from hnone] at ha
      cases ha
    · rfl
  · rw [step, hmode] at hs
    rw [coYield_status hs, hdead] at hnone
    cases hnone

theorem step_returned (h : Inv s) {co : Addr} {k k' : K} (hmode : s.mode = .coWait co k)
    (hmode' : s'.mode = .user k') (hs : step P o s = .ok s') :
    (s.view.status co).isSome ∧ s'.view.status co = none := by
  obtain ⟨nodes, hl⟩ := h.listed
  have hlive := h.ok.live_target
    (view_activity_current.trans (by rw [hmode]; rfl) : s.view.activity s.current = some (.waiting co))
  rw [step, hmode] at hs
  obtain ⟨c, hc, ⟨-, rfl⟩ | ⟨hdead, s₁, h₁, rfl⟩⟩ := coWaitLoop_cases hs
  · cases hmode'
  · obtain ⟨s₂, hremove, hnone, _⟩ := h.removeCo hl hmode hc hdead
    obtain rfl := Except.ok.inj (hremove.symm.trans h₁)
    exact ⟨hlive, view_status_none hnone⟩

theorem step_entered (h : Inv s) {arg : Arg} (hmode : s.mode = .wrapper arg)
    (hs : step P o s = .ok s') :
    s.view.status s.current = some .coNew ∧
      ∃ st, s'.view.status s.current = some st ∧ st ≠ .coNew := by
  have hnew := h.wrapper arg hmode
  rw [step, hmode] at hs
  obtain ⟨c, hc, rfl⟩ := wrapper_cases hs
  have hst : c.status = .coNew := by simpa [State.view, hc] using hnew
  rw [if_pos hst]
  refine ⟨hnew, .coRunning, ?_, by decide⟩
  simp [State.view, State.store]

end Steps

/-- A record of a run. A coroutine is the block it lives in, together with the number of
coroutines that were freed in that block before. -/
structure Life where
  generation : Addr → ℕ
  entered : List (Addr × ℕ)
  returned : Set (Addr × ℕ)
  died : Set (Addr × ℕ)
  freed : Set (Addr × ℕ)
  joined : Set (Addr × ℕ)

namespace Life

def start : Life := ⟨fun _ ↦ 0, [], ∅, ∅, ∅, ∅⟩

variable (l : Life)

def coroutine (a : Addr) : Addr × ℕ := (a, l.generation a)

def Frees (s s' : State Fn Arg K M) (a : Addr) : Prop := (s.heap a).isSome ∧ (s'.heap a).isNone

instance (s s' : State Fn Arg K M) : DecidablePred (Frees s s') := fun a ↦
  inferInstanceAs (Decidable ((s.heap a).isSome ∧ (s'.heap a).isNone))

variable (P) in
/-- What a step adds: `wrapper` calls the function of the current coroutine, the function
returns, a coroutine has status `CO_DEAD` now, a block is freed, or `co_wait` returns. -/
def record (s s' : State Fn Arg K M) (l : Life) : Life where
  generation a := if Frees s s' a then l.generation a + 1 else l.generation a
  entered :=
    match s.mode with
    | .wrapper _ => l.coroutine s.current :: l.entered
    | _ => l.entered
  returned := {x | x ∈ l.returned ∨ Returns P s ∧ x = l.coroutine s.current}
  died := {x | x ∈ l.died ∨ ∃ a, s'.statusOf a = some .coDead ∧ x = l.coroutine a}
  freed := {x | x ∈ l.freed ∨ ∃ a, Frees s s' a ∧ x = l.coroutine a}
  joined := {x | x ∈ l.joined ∨
    ∃ co k k', s.mode = .coWait co k ∧ s'.mode = .user k' ∧ x = l.coroutine co}

end Life

/-- What holds of the record in every state. -/
structure LifeInv (s : State Fn Arg K M) (l : Life) : Prop where
  entered : l.entered.Nodup
  begun : ∀ a n, (a, n) ∈ l.entered → n < l.generation a ∨
    n = l.generation a ∧ ∃ st, s.statusOf a = some st ∧ st ≠ .coNew
  died : ∀ a n, (a, n) ∈ l.died → n < l.generation a ∨
    n = l.generation a ∧ s.statusOf a = some .coDead
  dead : ∀ a, s.statusOf a = some .coDead → l.coroutine a ∈ l.returned
  gone : ∀ a n, (a, n) ∈ l.freed ↔ n < l.generation a
  freed : l.freed = l.joined
  returned : l.joined ⊆ l.returned

section Invariant

variable {l : Life} {a : Addr} {n : ℕ}

theorem generation_of_live (ha : s'.heap a ≠ none) :
    (l.record P s s').generation a = l.generation a :=
  if_neg fun hf ↦ ha (Option.isNone_iff_eq_none.mp hf.2)

theorem generation_of_freed (ha : (s.heap a).isSome) (hnone : s'.heap a = none) :
    (l.record P s s').generation a = l.generation a + 1 :=
  if_pos ⟨ha, Option.isNone_iff_eq_none.mpr hnone⟩

theorem generation_le : l.generation a ≤ (l.record P s s').generation a := by
  simp only [Life.record]
  split_ifs
  · exact Nat.le_succ _
  · exact Nat.le_refl _

theorem heap_of_status {st : CoStatus} (h : s.statusOf a = some st) : s.heap a ≠ none := by
  intro hn
  rw [State.statusOf, hn] at h
  cases h

theorem heap_of_status_none (h : s.view.status a = none) : s.heap a = none := by
  simpa [State.view] using h

theorem LifeInv.begun_step (hl : LifeInv s l) (h : Inv s) (hs : step P o s = .ok s')
    (hview : s.view.Step (fun _ _ ↦ True) s'.view) (hmem : (a, n) ∈ (l.record P s s').entered) :
    n < (l.record P s s').generation a ∨
      n = (l.record P s s').generation a ∧ ∃ st, s'.statusOf a = some st ∧ st ≠ .coNew := by
  have hold : (a, n) ∈ l.entered → n < (l.record P s s').generation a ∨
      n = (l.record P s s').generation a ∧ ∃ st, s'.statusOf a = some st ∧ st ≠ .coNew := by
    intro hm
    rcases hl.begun a n hm with hlt | ⟨rfl, st, hst, hne⟩
    · exact Or.inl (Nat.lt_of_lt_of_le hlt generation_le)
    · rcases hview.begun hst hne with hnone | ⟨st', hst', hne'⟩
      · rw [generation_of_freed (Option.isSome_iff_ne_none.mpr (heap_of_status hst))
          (heap_of_status_none hnone)]
        exact Or.inl (Nat.lt_succ_self _)
      · rw [generation_of_live (heap_of_status hst')]
        exact Or.inr ⟨rfl, st', hst', hne'⟩
  cases hmode : s.mode with
  | wrapper arg =>
    simp only [Life.record, hmode, List.mem_cons] at hmem
    rcases hmem with heq | hm
    · obtain ⟨rfl, rfl⟩ := Prod.mk.inj heq
      obtain ⟨-, st, hst, hne⟩ := step_entered h hmode hs
      rw [generation_of_live (heap_of_status hst)]
      exact Or.inr ⟨rfl, st, hst, hne⟩
    · exact hold hm
  | user k => exact hold (by simpa only [Life.record, hmode] using hmem)
  | coYield frame => exact hold (by simpa only [Life.record, hmode] using hmem)
  | coWait co k => exact hold (by simpa only [Life.record, hmode] using hmem)
  | exited => exact hold (by simpa only [Life.record, hmode] using hmem)

theorem LifeInv.entered_step (hl : LifeInv s l) (h : Inv s) (hs : step P o s = .ok s') :
    (l.record P s s').entered.Nodup := by
  cases hmode : s.mode with
  | wrapper arg =>
    simp only [Life.record, hmode, List.nodup_cons]
    refine ⟨fun hm ↦ ?_, hl.entered⟩
    obtain ⟨hnew, _⟩ := step_entered h hmode hs
    rcases hl.begun _ _ hm with hlt | ⟨_, st, hst, hne⟩
    · exact absurd hlt (Nat.lt_irrefl _)
    · exact hne (Option.some.inj (hst.symm.trans hnew))
  | user k => simpa only [Life.record, hmode] using hl.entered
  | coYield frame => simpa only [Life.record, hmode] using hl.entered
  | coWait co k => simpa only [Life.record, hmode] using hl.entered
  | exited => simpa only [Life.record, hmode] using hl.entered

theorem LifeInv.died_step (hl : LifeInv s l) (h : Inv s)
    (hview : s.view.Step (fun _ _ ↦ True) s'.view) (hmem : (a, n) ∈ (l.record P s s').died) :
    n < (l.record P s s').generation a ∨
      n = (l.record P s s').generation a ∧ s'.statusOf a = some .coDead := by
  rcases hmem with hm | ⟨b, hdead, heq⟩
  · rcases hl.died a n hm with hlt | ⟨rfl, hdead⟩
    · exact Or.inl (Nat.lt_of_lt_of_le hlt generation_le)
    · rcases h.ok.dead_step hview hdead with hdead' | hnone
      · rw [generation_of_live (heap_of_status hdead')]
        exact Or.inr ⟨rfl, hdead'⟩
      · rw [generation_of_freed (Option.isSome_iff_ne_none.mpr (heap_of_status hdead))
          (heap_of_status_none hnone)]
        exact Or.inl (Nat.lt_succ_self _)
  · obtain ⟨rfl, rfl⟩ := Prod.mk.inj heq
    rw [generation_of_live (heap_of_status hdead)]
    exact Or.inr ⟨rfl, hdead⟩

theorem LifeInv.dead_step (hl : LifeInv s l) (hs : step P o s = .ok s')
    (hview : s.view.Step (fun _ _ ↦ True) s'.view) (hdead : s'.statusOf a = some .coDead) :
    (l.record P s s').coroutine a ∈ (l.record P s s').returned := by
  have hsame : (l.record P s s').coroutine a = l.coroutine a := by
    rw [Life.coroutine, generation_of_live (heap_of_status hdead), Life.coroutine]
  rw [hsame]
  by_cases hold : s.statusOf a = some .coDead
  · exact Or.inl (hl.dead a hold)
  · obtain ⟨rfl, hreturns⟩ := step_died hs hview hdead hold
    exact Or.inr ⟨hreturns, rfl⟩

theorem LifeInv.gone_step (hl : LifeInv s l) :
    (a, n) ∈ (l.record P s s').freed ↔ n < (l.record P s s').generation a := by
  simp only [Life.record, Set.mem_ofPred_eq, hl.gone]
  have hmem : (∃ b, Life.Frees s s' b ∧ (a, n) = l.coroutine b) ↔
      Life.Frees s s' a ∧ n = l.generation a := by
    simp [Life.coroutine]
  rw [hmem]
  split_ifs with hf
  · rw [Nat.lt_succ_iff_lt_or_eq]
    simp [hf]
  · simp [hf]

/-- A block is freed when `co_wait` on the coroutine returns, and then it has finished. -/
theorem frees_iff (h : Inv s) (hs : step P o s = .ok s')
    (hview : s.view.Step (fun _ _ ↦ True) s'.view) :
    Life.Frees s s' a ↔ ∃ k k', s.mode = .coWait a k ∧ s'.mode = .user k' := by
  constructor
  · rintro ⟨hlive, hnone⟩
    have hstatus : (s.view.status a).isSome := by rwa [State.view, Option.isSome_map]
    obtain ⟨_, k, hmode, hmode'⟩ := step_freed hs hview hstatus
      (view_status_none (Option.isNone_iff_eq_none.mp hnone))
    exact ⟨k, k, hmode, hmode'⟩
  · rintro ⟨k, k', hmode, hmode'⟩
    obtain ⟨hlive, hnone⟩ := step_returned h hmode hmode' hs
    refine ⟨?_, Option.isNone_iff_eq_none.mpr (heap_of_status_none hnone)⟩
    rwa [State.view, Option.isSome_map] at hlive

theorem LifeInv.freed_step (hl : LifeInv s l) (h : Inv s) (hs : step P o s = .ok s')
    (hview : s.view.Step (fun _ _ ↦ True) s'.view) :
    (l.record P s s').freed = (l.record P s s').joined := by
  ext x
  simp only [Life.record, Set.mem_ofPred_eq, hl.freed, frees_iff h hs hview]
  refine or_congr_right ⟨?_, ?_⟩
  · rintro ⟨a, ⟨k, k', hmode, hmode'⟩, heq⟩
    exact ⟨a, k, k', hmode, hmode', heq⟩
  · rintro ⟨a, k, k', hmode, hmode', heq⟩
    exact ⟨a, ⟨k, k', hmode, hmode'⟩, heq⟩

theorem LifeInv.returned_step (hl : LifeInv s l) (h : Inv s) (hs : step P o s = .ok s')
    (hview : s.view.Step (fun _ _ ↦ True) s'.view) :
    (l.record P s s').joined ⊆ (l.record P s s').returned := by
  rintro x (hx | ⟨co, k, k', hmode, hmode', rfl⟩)
  · exact Or.inl (hl.returned hx)
  · obtain ⟨hlive, hnone⟩ := step_returned h hmode hmode' hs
    exact Or.inl (hl.dead co (step_freed hs hview hlive hnone).1)

theorem LifeInv.step (hl : LifeInv s l) (h : Inv s) (hs : step P o s = .ok s')
    (hview : s.view.Step (fun _ _ ↦ True) s'.view) : LifeInv s' (l.record P s s') where
  entered := hl.entered_step h hs
  begun _ _ := hl.begun_step h hs hview
  died _ _ := hl.died_step h hview
  dead _ := hl.dead_step hs hview
  gone _ _ := hl.gone_step
  freed := hl.freed_step h hs hview
  returned := hl.returned_step h hs hview

theorem LifeInv.init {mem : M} : LifeInv (init P o mem) Life.start where
  entered := List.nodup_nil
  begun _ _ hm := absurd hm List.not_mem_nil
  died _ _ hm := absurd hm (Set.notMem_empty _)
  dead a ha := by
    simp only [State.statusOf, Libco.init, Function.update_apply] at ha
    split_ifs at ha <;> cases ha
  gone _ _ := ⟨fun hm ↦ absurd hm (Set.notMem_empty _), fun hlt ↦ absurd hlt (Nat.not_lt_zero _)⟩
  freed := rfl
  returned := Set.Subset.refl _

theorem reachable_lifeInv
    (h : (((coSystem P).restrict (WaitsOnce P)).withHistory Life.start (Life.record P)).Reachable
      (s, l)) : LifeInv s l := by
  refine h.invariant (I := fun x ↦ LifeInv x.1 x.2) ?_ ?_
  · rintro ⟨s, l⟩ ⟨⟨o, mem, _, rfl⟩, rfl⟩
    exact LifeInv.init
  · rintro ⟨s, l⟩ ⟨s', l'⟩ hr hl ⟨⟨honce, o, hfresh, hs⟩, hrec⟩
    obtain rfl : l' = l.record P s s' := hrec
    have hinv := reachable_inv (fun _ ↦ id) hr.state
    exact hl.step hinv hs (step_refines (fun _ _ ↦ True) hinv honce (fun _ _ ↦ trivial) hfresh hs).1

end Invariant

/-- The function of a coroutine is called at most once; a finished coroutine keeps its status
until it is freed and does not run any more; `co_wait` has returned only for coroutines whose
function has returned; and exactly these are freed. -/
structure LifeCycle (s : State Fn Arg K M) (l : Life) : Prop where
  entered : l.entered.Nodup
  died : ∀ a n, (a, n) ∈ l.died → (a, n) ∈ l.freed ∨ n = l.generation a ∧
    s.statusOf a = some .coDead ∧ (s.current = a → s.mode = .coYield .finished)
  joined : l.joined ⊆ l.returned
  freed : l.freed = l.joined
  gone : ∀ a n, (a, n) ∈ l.freed ↔ n < l.generation a

theorem life_cycle {l : Life}
    (h : (((coSystem P).restrict (WaitsOnce P)).withHistory Life.start (Life.record P)).Reachable
      (s, l)) : LifeCycle s l := by
  have hl := reachable_lifeInv h
  have hinv := reachable_inv (fun _ ↦ id) h.state
  refine ⟨hl.entered, fun a n hm ↦ ?_, hl.returned, hl.freed, hl.gone⟩
  rcases hl.died a n hm with hlt | ⟨hn, hdead⟩
  · exact Or.inl ((hl.gone a n).mpr hlt)
  · refine Or.inr ⟨hn, hdead, fun hc ↦ Mode.eq_of_finished ?_⟩
    rw [← view_activity_current, hc]
    exact (hinv.ok.dead a).mp hdead

theorem waitProgram_life_cycle : ∃ s l,
    (((coSystem (waitProgram 2)).restrict (WaitsOnce (waitProgram 2))).withHistory Life.start
      (Life.record (waitProgram 2))).Reachable (s, l) ∧ s.mode = .user (3, 2) ∧ LifeCycle s l := by
  have hrun : ((waitChoices.foldlM (exec (waitProgram 2) (WaitsOnce (waitProgram 2)))
      (begin 2)).any fun s ↦ s.mode = .user (3, 2)) = true := by
    decide +kernel
  obtain ⟨s, hs, hmode⟩ := (Option.any_eq_true _ _).mp hrun
  obtain ⟨l, hl⟩ := (begin_reachable hs).exists_history Life.start (Life.record (waitProgram 2))
  exact ⟨s, l, hl, of_decide_eq_true hmode, life_cycle hl⟩

end OsWorkbench.Libco
