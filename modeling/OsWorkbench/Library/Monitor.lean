import OsWorkbench.Library.Transition
import Mathlib.Logic.Function.Basic
import Mathlib.Tactic.SplitIfs

namespace OsWorkbench.Library

/-- What a thread does next, and the place where it goes on. `wait` releases the
mutex and sleeps on the condition variable, `notify` is a change of the shared
state with the broadcast that follows it. `fail` is an assertion that fails. -/
inductive Act (σ P : Type)
  | lock (p : P)
  | unlock (p : P)
  | wait (p : P)
  | run (sh : σ) (p : P)
  | notify (sh : σ) (p : P)
  | stop
  | fail

inductive Sleep
  | awake
  | asleep
  | notified
  deriving DecidableEq, Repr

def Sleep.wake : Sleep → Sleep
  | .asleep => .notified
  | x => x

/-- Threads that share a state, one mutex and one condition variable. -/
structure Monitor (τ σ : Type) (P : τ → Type) where
  init : σ → Prop
  start : ∀ t, P t
  act : ∀ t, P t → σ → Act σ (P t)

variable {τ σ : Type} {P : τ → Type}

/-- A thread that sleeps holds the place where `wait` returns to. -/
structure Monitor.State (τ σ : Type) (P : τ → Type) where
  lk : Option τ
  sleep : τ → Sleep
  place : ∀ t, P t
  shared : σ

namespace Act

variable {Q : Type} {sh sh' : σ} {q : Q}

/-- The shared state and the place after the act. -/
def next (sh : σ) : Act σ Q → Option (σ × Q)
  | lock q => some (sh, q)
  | unlock q => some (sh, q)
  | wait q => some (sh, q)
  | run sh' q => some (sh', q)
  | notify sh' q => some (sh', q)
  | stop => none
  | fail => none

/-- The act keeps to the places where the mutex is held. -/
def Keeps (holds waits : Q → Prop) (q : Q) : Act σ Q → Prop
  | lock q' => ¬ holds q ∧ holds q'
  | unlock q' => holds q ∧ ¬ holds q'
  | wait q' => holds q ∧ waits q'
  | run _ q' => holds q ↔ holds q'
  | notify _ q' => holds q ↔ holds q'
  | stop => ¬ holds q
  | fail => True

end Act

namespace Monitor

variable [DecidableEq τ] (M : Monitor τ σ P)

inductive Step (s : State τ σ P) (t : τ) : State τ σ P → Prop
  | resume (hs : s.sleep t = .notified) (hlk : s.lk = none) :
      Step s t { s with lk := some t, sleep := Function.update s.sleep t .awake }
  | lock {p : P t} (hs : s.sleep t = .awake) (ha : M.act t (s.place t) s.shared = .lock p)
      (hlk : s.lk = none) :
      Step s t { s with lk := some t, place := Function.update s.place t p }
  | unlock {p : P t} (hs : s.sleep t = .awake) (ha : M.act t (s.place t) s.shared = .unlock p) :
      Step s t { s with lk := none, place := Function.update s.place t p }
  | wait {p : P t} (hs : s.sleep t = .awake) (ha : M.act t (s.place t) s.shared = .wait p) :
      Step s t { s with
        lk := none
        sleep := Function.update s.sleep t .asleep
        place := Function.update s.place t p }
  | run {sh : σ} {p : P t} (hs : s.sleep t = .awake)
      (ha : M.act t (s.place t) s.shared = .run sh p) :
      Step s t { s with place := Function.update s.place t p, shared := sh }
  | notify {sh : σ} {p : P t} (hs : s.sleep t = .awake)
      (ha : M.act t (s.place t) s.shared = .notify sh p) :
      Step s t { s with
        sleep := fun u ↦ (s.sleep u).wake
        place := Function.update s.place t p
        shared := sh }

/-- All interleavings, with spurious wakeups. -/
def system : System (State τ σ P) where
  init s := s.lk = none ∧ (∀ t, s.sleep t = .awake) ∧ s.place = M.start ∧ M.init s.shared
  step s s' := (∃ t, M.Step s t s') ∨
    ∃ t, s.sleep t = .asleep ∧ s' = { s with sleep := Function.update s.sleep t .notified }

variable {M} {s s' : State τ σ P} {t : τ}

theorem Step.next (h : M.Step s t s') :
    (s'.place = s.place ∧ s'.shared = s.shared) ∨
      s.sleep t = .awake ∧ ∃ p, (M.act t (s.place t) s.shared).next s.shared = some (s'.shared, p) ∧
        s'.place = Function.update s.place t p := by
  cases h with
  | resume hs hlk => exact .inl ⟨rfl, rfl⟩
  | lock hs ha hlk => exact .inr ⟨hs, _, by rw [ha]; rfl, rfl⟩
  | unlock hs ha => exact .inr ⟨hs, _, by rw [ha]; rfl, rfl⟩
  | wait hs ha => exact .inr ⟨hs, _, by rw [ha]; rfl, rfl⟩
  | run hs ha => exact .inr ⟨hs, _, by rw [ha]; rfl, rfl⟩
  | notify hs ha => exact .inr ⟨hs, _, by rw [ha]; rfl, rfl⟩

theorem wake_eq_awake {x : Sleep} : x.wake = .awake ↔ x = .awake := by
  cases x <;> simp [Sleep.wake]

theorem wake_ne_asleep (x : Sleep) : x.wake ≠ .asleep := by
  cases x <;> simp [Sleep.wake]

section Discipline

variable {holds waits : ∀ t, P t → Prop}

variable (M holds waits) in
/-- `holds` marks the places where a thread has the mutex, and `waits` those where
it may sleep. -/
structure Discipline : Prop where
  start : ∀ t, ¬ holds t (M.start t)
  keeps : ∀ t p sh, (M.act t p sh).Keeps (holds t) (waits t) p
  holds_of_waits : ∀ t p, waits t p → holds t p

variable (holds waits) in
structure Owned (s : State τ σ P) : Prop where
  owner : ∀ t, s.lk = some t ↔ s.sleep t = .awake ∧ holds t (s.place t)
  sleeper : ∀ t, s.sleep t ≠ .awake → waits t (s.place t)

theorem Owned.step (hd : M.Discipline holds waits) (ho : Owned holds waits s)
    (h : M.Step s t s') : Owned holds waits s' := by
  have hkeeps := hd.keeps t (s.place t) s.shared
  have hfree : s.lk = none → ∀ u, ¬ (s.sleep u = .awake ∧ holds u (s.place u)) := fun hlk u hu ↦ by
    rw [(ho.owner u).mpr hu] at hlk
    cases hlk
  have hown : s.sleep t = .awake → holds t (s.place t) → s.lk = some t := fun hs hh ↦
    (ho.owner t).mpr ⟨hs, hh⟩
  cases h with
  | resume hs hlk =>
    have hw := ho.sleeper t (by rw [hs]; simp)
    refine ⟨fun u ↦ ?_, fun u hu ↦ ?_⟩
    · by_cases hut : u = t
      · subst hut
        simp [hd.holds_of_waits u _ hw]
      · simp only [Function.update_of_ne hut, Option.some.injEq, Ne.symm hut, false_iff]
        exact hfree hlk u
    · by_cases hut : u = t
      · subst hut
        exact hw
      · exact ho.sleeper u (by simpa only [Function.update_of_ne hut] using hu)
  | lock hs ha hlk =>
    rw [ha] at hkeeps
    refine ⟨fun u ↦ ?_, fun u hu ↦ ?_⟩
    · by_cases hut : u = t
      · subst hut
        simp [hs, hkeeps.2]
      · simp only [Function.update_of_ne hut, Option.some.injEq, Ne.symm hut, false_iff]
        exact hfree hlk u
    · have hut : u ≠ t := fun he ↦ hu (he ▸ hs)
      simpa only [Function.update_of_ne hut] using ho.sleeper u hu
  | unlock hs ha =>
    rw [ha] at hkeeps
    have hlk := hown hs hkeeps.1
    refine ⟨fun u ↦ ?_, fun u hu ↦ ?_⟩
    · by_cases hut : u = t
      · subst hut
        simp [hkeeps.2]
      · have hu := ho.owner u
        simp only [hlk, Option.some.injEq, Ne.symm hut, false_iff] at hu
        simp only [Function.update_of_ne hut, hu, reduceCtorEq]
    · have hut : u ≠ t := fun he ↦ hu (he ▸ hs)
      simpa only [Function.update_of_ne hut] using ho.sleeper u hu
  | wait hs ha =>
    rw [ha] at hkeeps
    have hlk := hown hs hkeeps.1
    refine ⟨fun u ↦ ?_, fun u hu ↦ ?_⟩
    · by_cases hut : u = t
      · subst hut
        simp
      · have hu := ho.owner u
        simp only [hlk, Option.some.injEq, Ne.symm hut, false_iff] at hu
        simp only [Function.update_of_ne hut, hu, reduceCtorEq]
    · by_cases hut : u = t
      · subst hut
        simpa using hkeeps.2
      · simp only [Function.update_of_ne hut] at hu ⊢
        exact ho.sleeper u hu
  | run hs ha =>
    rw [ha] at hkeeps
    refine ⟨fun u ↦ ?_, fun u hu ↦ ?_⟩
    · by_cases hut : u = t
      · subst hut
        simp only [Function.update_self, ho.owner u, show holds u (s.place u) ↔ _ from hkeeps]
      · simp only [Function.update_of_ne hut, ho.owner u]
    · have hut : u ≠ t := fun he ↦ hu (he ▸ hs)
      simpa only [Function.update_of_ne hut] using ho.sleeper u hu
  | notify hs ha =>
    rw [ha] at hkeeps
    refine ⟨fun u ↦ ?_, fun u hu ↦ ?_⟩
    · by_cases hut : u = t
      · subst hut
        simp only [Function.update_self, wake_eq_awake, ho.owner u,
          show holds u (s.place u) ↔ _ from hkeeps]
      · simp only [Function.update_of_ne hut, wake_eq_awake, ho.owner u]
    · have hu' : s.sleep u ≠ .awake := fun he ↦ hu (wake_eq_awake.mpr he)
      have hut : u ≠ t := fun he ↦ hu' (he ▸ hs)
      simpa only [Function.update_of_ne hut] using ho.sleeper u hu'

theorem reachable_owned (hd : M.Discipline holds waits) (h : M.system.Reachable s) :
    Owned holds waits s := by
  refine h.invariant ?_ ?_
  · rintro s ⟨hlk, hawake, hplace, -⟩
    refine ⟨fun t ↦ ?_, fun t hs ↦ absurd (hawake t) hs⟩
    simp [hlk, hplace, hd.start t]
  · rintro s s' - ho (⟨t, hs⟩ | ⟨t, hs, rfl⟩)
    · exact ho.step hd hs
    · refine ⟨fun u ↦ ?_, fun u hu ↦ ?_⟩
      · by_cases hut : u = t
        · subst hut
          simp [ho.owner u, hs]
        · simp only [Function.update_of_ne hut, ho.owner u]
      · by_cases hut : u = t
        · subst hut
          exact ho.sleeper u (by rw [hs]; simp)
        · exact ho.sleeper u (by simpa only [Function.update_of_ne hut] using hu)

omit [DecidableEq τ] in
/-- While a thread with the mutex acts, the others are not at a place where they
have it, unless they sleep there. -/
theorem Owned.alone (ho : Owned holds waits s) (hs : s.sleep t = .awake)
    (ht : holds t (s.place t)) {u : τ} (hut : u ≠ t) (hu : holds u (s.place u)) :
    waits u (s.place u) := by
  refine ho.sleeper u fun hawake ↦ hut ?_
  have hlk := (ho.owner t).mpr ⟨hs, ht⟩
  rw [(ho.owner u).mpr ⟨hawake, hu⟩] at hlk
  exact Option.some.inj hlk

/-- The rule for invariants of the places and the shared state. -/
theorem reachable_invariant (hd : M.Discipline holds waits) {I : (∀ t, P t) → σ → Prop}
    (hinit : ∀ sh, M.init sh → I M.start sh)
    (hnext : ∀ s t sh' p, M.system.Reachable s → I s.place s.shared →
      (holds t (s.place t) → ∀ u, u ≠ t → holds u (s.place u) → waits u (s.place u)) →
      (M.act t (s.place t) s.shared).next s.shared = some (sh', p) →
      I (Function.update s.place t p) sh')
    (h : M.system.Reachable s) : I s.place s.shared := by
  refine h.invariant (I := fun s ↦ I s.place s.shared) ?_ ?_
  · rintro s ⟨-, -, hplace, hshared⟩
    rw [hplace]
    exact hinit _ hshared
  · rintro s s' hr hi (⟨t, hs⟩ | ⟨t, -, rfl⟩)
    · rcases hs.next with ⟨hplace, hshared⟩ | ⟨hawake, p, hact, hplace⟩
      · rw [hplace, hshared]
        exact hi
      · rw [hplace]
        exact hnext s t _ p hr hi (fun ht u hut ↦ (reachable_owned hd hr).alone hawake ht hut) hact
    · exact hi

/-- A state without a step: the mutex is free, and every thread has stopped or
sleeps and has not been notified. -/
theorem reachable_stuck (hd : M.Discipline holds waits) (h : M.system.Reachable s)
    (hsafe : ∀ t, M.act t (s.place t) s.shared ≠ .fail) (hstuck : ∀ t s', ¬ M.Step s t s') :
    s.lk = none ∧ ∀ t, s.sleep t = .asleep ∨
      s.sleep t = .awake ∧ M.act t (s.place t) s.shared = .stop := by
  have ho := reachable_owned hd h
  have hlk : s.lk = none := by
    by_contra hne
    obtain ⟨t, ht⟩ := Option.ne_none_iff_exists'.mp hne
    obtain ⟨hs, hh⟩ := (ho.owner t).mp ht
    have hkeeps := hd.keeps t (s.place t) s.shared
    cases ha : M.act t (s.place t) s.shared with
    | lock p =>
      rw [ha] at hkeeps
      exact hkeeps.1 hh
    | unlock p => exact hstuck t _ (.unlock hs ha)
    | wait p => exact hstuck t _ (.wait hs ha)
    | run sh p => exact hstuck t _ (.run hs ha)
    | notify sh p => exact hstuck t _ (.notify hs ha)
    | stop =>
      rw [ha] at hkeeps
      exact hkeeps hh
    | fail => exact hsafe t ha
  refine ⟨hlk, fun t ↦ ?_⟩
  cases hs : s.sleep t with
  | asleep => exact .inl rfl
  | notified => exact absurd (.resume hs hlk) (hstuck t _)
  | awake =>
    cases ha : M.act t (s.place t) s.shared with
    | lock p => exact absurd (.lock hs ha hlk) (hstuck t _)
    | unlock p => exact absurd (.unlock hs ha) (hstuck t _)
    | wait p => exact absurd (.wait hs ha) (hstuck t _)
    | run sh p => exact absurd (.run hs ha) (hstuck t _)
    | notify sh p => exact absurd (.notify hs ha) (hstuck t _)
    | stop => exact .inr ⟨rfl, rfl⟩
    | fail => exact absurd ha (hsafe t)

end Discipline

/-- A thread that sleeps and has not been notified is blocked, if threads wait only
when they are and no change without a broadcast ends it. -/
theorem reachable_blocked {blocked : ∀ t, P t → σ → Prop}
    (hwait : ∀ t p sh p', M.act t p sh = .wait p' → blocked t p' sh)
    (hrun : ∀ t p sh sh' p' u q, M.act t p sh = .run sh' p' → blocked u q sh → blocked u q sh')
    (h : M.system.Reachable s) (ht : s.sleep t = .asleep) : blocked t (s.place t) s.shared := by
  have hall : ∀ t, s.sleep t = .asleep → blocked t (s.place t) s.shared := by
    refine h.invariant (I := fun s ↦ ∀ t, s.sleep t = .asleep → blocked t (s.place t) s.shared) ?_ ?_
    · rintro s ⟨-, hawake, -, -⟩ t ht
      rw [hawake t] at ht
      cases ht
    · rintro s s' - hi (⟨t, hs⟩ | ⟨t, -, rfl⟩) u hu
      · have hne : s.sleep t = .awake → s.sleep u = .asleep → u ≠ t := fun ht hu he ↦ by
          rw [he, ht] at hu
          cases hu
        cases hs with
        | resume hs hlk =>
          have hut : u ≠ t := by
            rintro rfl
            simp at hu
          exact hi u (by simpa only [Function.update_of_ne hut] using hu)
        | lock hs ha hlk =>
          simpa only [Function.update_of_ne (hne hs hu)] using hi u hu
        | unlock hs ha =>
          simpa only [Function.update_of_ne (hne hs hu)] using hi u hu
        | wait hs ha =>
          by_cases hut : u = t
          · subst hut
            simpa only [Function.update_self] using hwait u _ _ _ ha
          · simp only [Function.update_of_ne hut] at hu ⊢
            exact hi u hu
        | run hs ha =>
          simp only [Function.update_of_ne (hne hs hu)]
          exact hrun t _ _ _ _ u _ ha (hi u hu)
        | notify hs ha => exact absurd hu (wake_ne_asleep _)
      · by_cases hut : u = t
        · subst hut
          simp at hu
        · exact hi u (by simpa only [Function.update_of_ne hut] using hu)
  exact hall t ht

variable (M) in
def exec (s : State τ σ P) (t : τ) : Option (State τ σ P) :=
  match s.sleep t with
  | .asleep => none
  | .notified =>
    if s.lk.isNone then some { s with lk := some t, sleep := Function.update s.sleep t .awake }
    else none
  | .awake =>
    match M.act t (s.place t) s.shared with
    | .lock p =>
      if s.lk.isNone then some { s with lk := some t, place := Function.update s.place t p }
      else none
    | .unlock p => some { s with lk := none, place := Function.update s.place t p }
    | .wait p => some { s with
        lk := none
        sleep := Function.update s.sleep t .asleep
        place := Function.update s.place t p }
    | .run sh p => some { s with place := Function.update s.place t p, shared := sh }
    | .notify sh p => some { s with
        sleep := fun u ↦ (s.sleep u).wake
        place := Function.update s.place t p
        shared := sh }
    | .stop => none
    | .fail => none

theorem exec_step (h : M.exec s t = some s') : M.Step s t s' := by
  rw [exec] at h
  split at h
  case h_1 hs => cases h
  case h_2 hs =>
    split_ifs at h with hlk
    cases h
    exact .resume hs (Option.isNone_iff_eq_none.mp hlk)
  case h_3 hs =>
    split at h
    case h_1 p ha =>
      split_ifs at h with hlk
      cases h
      exact .lock hs ha (Option.isNone_iff_eq_none.mp hlk)
    case h_2 p ha =>
      cases h
      exact .unlock hs ha
    case h_3 p ha =>
      cases h
      exact .wait hs ha
    case h_4 sh p ha =>
      cases h
      exact .run hs ha
    case h_5 sh p ha =>
      cases h
      exact .notify hs ha
    case h_6 ha => cases h
    case h_7 ha => cases h

theorem reachable_exec {schedule : List τ} (h : M.system.Reachable s)
    (hrun : schedule.foldlM M.exec s = some s') : M.system.Reachable s' :=
  .run (fun _ t _ hs ↦ Or.inl ⟨t, exec_step hs⟩) h hrun

end Monitor

end OsWorkbench.Library
