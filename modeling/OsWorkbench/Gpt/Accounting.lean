import OsWorkbench.Gpt.Model
import Mathlib.Algebra.BigOperators.Fin
import Mathlib.Algebra.BigOperators.Group.Finset.Basic
import Mathlib.Algebra.Order.BigOperators.Group.Finset

namespace OsWorkbench.Gpt

open Library

variable {n : ℕ} {V : Type} {value : Value V} {cmds : List (Command V)}

/-- The producer has executed `remaining++` and not yet `buffer_push`. -/
def Producer.half : Producer V → ℤ
  | .testFull .. => 1
  | .push .. => 1
  | _ => 0

/-- The worker has popped a task and not yet executed `remaining--`. -/
def Worker.inFlight : Worker → ℤ
  | .unlock _ => 1
  | .calc _ _ => 1
  | .lockDone => 1
  | .decrement => 1
  | _ => 0

def Producer.Pushing : Producer V → Prop
  | .push .. => True
  | _ => False

section Sum

variable {A : Type} [AddCommMonoid A] (place : ∀ t : Thread n, Place V t)

theorem sum_producer (g : Worker → A) (p : Producer V) :
    ∑ w : Fin n, g (Function.update place .producer p (.worker w)) =
      ∑ w : Fin n, g (place (.worker w)) := by
  refine Finset.sum_congr rfl fun w _ ↦ ?_
  rw [Function.update_of_ne (by simp)]

theorem sum_worker (g : Worker → A) (w : Fin n) (p : Worker) :
    (∑ v : Fin n, g (Function.update place (.worker w) p (.worker v))) + g (place (.worker w)) =
      (∑ v : Fin n, g (place (.worker v))) + g p := by
  have hrest : ∑ v ∈ {w}ᶜ, g (Function.update place (.worker w) p (.worker v)) =
      ∑ v ∈ {w}ᶜ, g (place (.worker v)) := by
    refine Finset.sum_congr rfl fun v hv ↦ ?_
    rw [Function.update_of_ne]
    intro he
    cases he
    simp at hv
  rw [Fintype.sum_eq_add_sum_compl w, Fintype.sum_eq_add_sum_compl w fun v ↦ g (place (.worker v)),
    hrest, Function.update_self, add_right_comm, add_comm (g p), add_right_comm]

end Sum

variable {sh sh' : Shared n V} {p p' : Producer V} {q q' : Worker} {w : Fin n}

theorem producer_remaining (h : (producerAct p sh).next sh = some (sh', p')) :
    sh'.remaining - sh'.buffer.count - p'.half = sh.remaining - sh.buffer.count - p.half := by
  unfold producerAct at h
  split at h <;> try split_ifs at h
  all_goals
    simp only [Act.next, Option.some.injEq, Prod.mk.injEq, reduceCtorEq] at h
  all_goals
    obtain ⟨rfl, rfl⟩ := h
    simp only [Producer.half, Ring.push]
    try omega

theorem worker_remaining (h : (workerAct value w q sh).next sh = some (sh', q')) :
    sh'.remaining - sh'.buffer.count - q'.inFlight = sh.remaining - sh.buffer.count - q.inFlight := by
  unfold workerAct at h
  split at h <;> try split_ifs at h
  all_goals
    simp only [Act.next, Option.some.injEq, Prod.mk.injEq, reduceCtorEq] at h
  all_goals
    obtain ⟨rfl, rfl⟩ := h
    simp only [Worker.inFlight, Ring.pop]
    try omega

theorem producer_buffer (h : (producerAct p sh).next sh = some (sh', p')) :
    (p.Pushing ∧ ¬ p'.Pushing ∧ sh'.popped = sh.popped ∧
      ∃ args, sh'.buffer = sh.buffer.push args ∧ sh'.pushed = sh.pushed ++ [args]) ∨
    (sh'.buffer = sh.buffer ∧ sh'.pushed = sh.pushed ∧ sh'.popped = sh.popped ∧
      (p'.Pushing → sh.buffer.count ≠ bufferSize)) := by
  unfold producerAct at h
  split at h <;> try split_ifs at h
  all_goals
    simp only [Act.next, Option.some.injEq, Prod.mk.injEq, reduceCtorEq] at h
  all_goals
    obtain ⟨rfl, rfl⟩ := h
    simp_all [Producer.Pushing]

theorem worker_buffer (h : (workerAct value w q sh).next sh = some (sh', q')) :
    (q = .pop ∧ q' ≠ .pop ∧ sh'.buffer = sh.buffer.pop ∧ sh'.pushed = sh.pushed ∧
      sh'.popped = sh.popped ++ [sh.buffer.front]) ∨
    (sh'.buffer = sh.buffer ∧ sh'.pushed = sh.pushed ∧ sh'.popped = sh.popped ∧
      (q' = .pop → sh.buffer.count ≠ 0)) := by
  unfold workerAct at h
  split at h <;> try split_ifs at h
  all_goals
    simp only [Act.next, Option.some.injEq, Prod.mk.injEq, reduceCtorEq] at h
  all_goals
    obtain ⟨rfl, rfl⟩ := h
    simp_all

section Invariant

variable {place : ∀ t : Thread n, Place V t}

/-- The buffer holds the tasks that are pushed and not yet popped, with room where
the producer pushes and a task where a worker pops. -/
structure Queued (place : ∀ t : Thread n, Place V t) (sh : Shared n V) : Prop where
  queue : ∃ queue, sh.pushed = sh.popped ++ queue ∧ sh.buffer.Holds queue
  room : (place .producer : Producer V).Pushing → sh.buffer.count ≠ bufferSize
  item : ∀ w, (place (.worker w) : Worker) = .pop → sh.buffer.count ≠ 0

theorem Pushing.holds {p : Producer V} (hp : p.Pushing) :
    holds (n := n) .producer p ∧ ¬ waits (n := n) .producer p := by
  cases p <;> simp_all [Producer.Pushing, Gpt.holds, waits]

theorem Queued.producer (hq : Queued place sh)
    (halone : holds .producer (place .producer) → ∀ w, place (.worker w) ≠ Worker.pop)
    (h : (producerAct (place .producer) sh).next sh = some (sh', p')) :
    Queued (Function.update place .producer p') sh' := by
  obtain ⟨queue, hpushed, hring⟩ := hq.queue
  have hplace : ∀ w, Function.update place .producer p' (.worker w) = place (.worker w) :=
    fun w ↦ Function.update_of_ne (by simp) ..
  rcases producer_buffer h with ⟨hp, hp', hpop, args, hbuf, hpush⟩ | ⟨hbuf, hpush, hpop, hroom⟩
  · have hlt := hring.length_lt (hq.room hp)
    refine ⟨⟨queue ++ [args], ?_, ?_⟩, fun hp ↦ ?_, fun w hw ↦ ?_⟩
    · rw [hpush, hpop, hpushed, List.append_assoc]
    · rw [hbuf]
      exact hring.push hlt args
    · rw [Function.update_self] at hp
      exact absurd hp hp'
    · rw [hplace] at hw
      exact absurd hw (halone (Pushing.holds hp).1 w)
  · refine ⟨⟨queue, ?_, ?_⟩, fun hp ↦ ?_, fun w hw ↦ ?_⟩
    · rw [hpush, hpop, hpushed]
    · rwa [hbuf]
    · rw [Function.update_self] at hp
      rw [hbuf]
      exact hroom hp
    · rw [hplace] at hw
      rw [hbuf]
      exact hq.item w hw

theorem Queued.worker (hq : Queued place sh)
    (halone : holds (.worker w) (place (.worker w)) →
      ¬ (place .producer : Producer V).Pushing ∧ ∀ v, v ≠ w → place (.worker v) ≠ Worker.pop)
    (h : (workerAct value w (place (.worker w)) sh).next sh = some (sh', q')) :
    Queued (Function.update place (.worker w) q') sh' := by
  obtain ⟨queue, hpushed, hring⟩ := hq.queue
  have hprod : Function.update place (.worker w) q' .producer = place .producer :=
    Function.update_of_ne (by simp) ..
  have hplace : ∀ v, v ≠ w →
      Function.update place (.worker w) q' (.worker v) = place (.worker v) :=
    fun v hv ↦ Function.update_of_ne (by simpa using hv) ..
  rcases worker_buffer h with ⟨hp, hp', hbuf, hpush, hpop⟩ | ⟨hbuf, hpush, hpop, hitem⟩
  · have hholds : holds (V := V) (.worker w) (place (.worker w)) := by
      rw [hp]
      trivial
    obtain ⟨x, rest, rfl⟩ := hring.exists_cons (hq.item w hp)
    refine ⟨⟨rest, ?_, ?_⟩, fun hp ↦ ?_, fun v hv ↦ ?_⟩
    · rw [hpush, hpop, hpushed, hring.front, List.append_assoc, List.singleton_append]
    · rw [hbuf]
      exact hring.pop
    · rw [hprod] at hp
      exact absurd hp (halone hholds).1
    · by_cases hvw : v = w
      · subst hvw
        rw [Function.update_self] at hv
        exact absurd hv hp'
      · rw [hplace v hvw] at hv
        exact absurd hv ((halone hholds).2 v hvw)
  · refine ⟨⟨queue, ?_, ?_⟩, fun hp ↦ ?_, fun v hv ↦ ?_⟩
    · rw [hpush, hpop, hpushed]
    · rwa [hbuf]
    · rw [hprod] at hp
      rw [hbuf]
      exact hq.room hp
    · rw [hbuf]
      by_cases hvw : v = w
      · subst hvw
        rw [Function.update_self] at hv
        exact hitem hv
      · rw [hplace v hvw] at hv
        exact hq.item v hv

end Invariant

variable {s : Monitor.State (Thread n) (Shared n V) (Place V)}

theorem reachable_queued (h : (pool n value cmds).system.Reachable s) : Queued s.place s.shared := by
  refine Monitor.reachable_invariant (pool_discipline value cmds) ?_ ?_ h
  · intro sh hsh
    refine ⟨⟨[], ?_, .empty (by decide) hsh.head hsh.tail hsh.count⟩, fun hp ↦ ?_, fun w hw ↦ ?_⟩
    · rw [hsh.pushed, hsh.popped, List.append_nil]
    · exact hp.elim
    · cases hw
  · intro s t sh' p _ hq halone hnext
    have hpop : ∀ u, u ≠ t → holds t (s.place t) → ∀ w, u = .worker w →
        s.place (.worker w) ≠ Worker.pop := by
      intro u hu ht w hw hp
      subst hw
      have hwait := halone ht _ hu (by rw [hp]; trivial)
      rw [hp] at hwait
      cases hwait
    cases t with
    | producer => exact hq.producer (fun ht w ↦ hpop _ (by simp) ht w rfl) hnext
    | worker w =>
      refine hq.worker (fun ht ↦ ⟨fun hp ↦ ?_, fun v hv ↦ hpop _ (by simpa using hv) ht v rfl⟩) hnext
      exact (Pushing.holds hp).2 (halone ht .producer (by simp) (Pushing.holds hp).1)

def Accounted (place : ∀ t : Thread n, Place V t) (sh : Shared n V) : Prop :=
  sh.remaining = sh.buffer.count + (∑ w : Fin n, (place (.worker w) : Worker).inFlight) +
    (place .producer : Producer V).half

theorem reachable_accounted (h : (pool n value cmds).system.Reachable s) :
    Accounted s.place s.shared := by
  refine Monitor.reachable_invariant (pool_discipline value cmds) ?_ ?_ h
  · intro sh hsh
    rw [Accounted, hsh.remaining, hsh.count]
    simp [pool, Worker.inFlight, Producer.half]
  · intro s t sh' p _ ha _ hnext
    rw [Accounted] at ha ⊢
    cases t with
    | producer =>
      have hlocal := producer_remaining hnext
      have hsum := sum_producer s.place Worker.inFlight p
      rw [hsum, Function.update_self]
      omega
    | worker w =>
      have hlocal := worker_remaining hnext
      have hsum := sum_worker s.place Worker.inFlight w p
      rw [Function.update_of_ne (by simp : Thread.producer ≠ .worker w)]
      omega

structure Balanced (s : Monitor.State (Thread n) (Shared n V) (Place V)) : Prop where
  count_nonneg : 0 ≤ s.shared.buffer.count
  count_le : s.shared.buffer.count ≤ bufferSize
  tail_eq : (s.shared.buffer.tail : ℤ) =
    (s.shared.buffer.head + s.shared.buffer.count) % bufferSize
  queue : ∃ queue, s.shared.pushed = s.shared.popped ++ queue ∧
    s.shared.buffer.count = queue.length ∧
      ∀ i (hi : i < queue.length),
        s.shared.buffer.slots ((s.shared.buffer.head + i) % bufferSize) = queue[i]
  remaining : s.shared.remaining = s.shared.buffer.count +
    (∑ w : Fin n, (s.place (.worker w) : Worker).inFlight) + (s.place .producer : Producer V).half

theorem pool_balanced (h : (pool n value cmds).system.Reachable s) : Balanced s := by
  obtain ⟨queue, hpushed, hring⟩ := (reachable_queued h).queue
  refine ⟨hring.count_nonneg, ?_, ?_, ⟨queue, hpushed, hring.count_eq, hring.slots_eq⟩,
    reachable_accounted h⟩
  · rw [hring.count_eq]
    exact_mod_cast hring.length_le
  · rw [hring.count_eq, hring.tail_eq]
    push_cast
    rfl

section Sample

/-- One call with two tasks, `B = C = OC = 1` and `T = 2`. -/
def sampleCall : MatmulArgs := ⟨0, 10, 20, none, 1, 2, 1, 1⟩

def sampleStart : Monitor.State (Thread 2) (Shared 2 ℤ) (Place ℤ) where
  lk := none
  sleep _ := .awake
  place := (pool 2 dot [.matmulForward sampleCall]).start
  shared :=
    { buffer := ⟨fun _ ↦ sampleCall.calcArgs 0 0, 0, 0, 0⟩
      remaining := 0
      finished := false
      terminated := fun _ ↦ false
      mem := fun a ↦ a
      pushed := []
      popped := []
      computed := []
      entryMem := fun _ ↦ 0 }

def sampleRun (schedule : List (Thread 2)) :
    Option (Monitor.State (Thread 2) (Shared 2 ℤ) (Place ℤ)) :=
  schedule.foldlM (pool 2 dot [.matmulForward sampleCall]).exec sampleStart

theorem sample_reachable {schedule : List (Thread 2)}
    {s : Monitor.State (Thread 2) (Shared 2 ℤ) (Place ℤ)} (h : sampleRun schedule = some s) :
    (pool 2 dot [.matmulForward sampleCall]).system.Reachable s :=
  Monitor.reachable_exec
    (.init ⟨rfl, fun _ ↦ rfl, rfl, ⟨rfl, rfl, rfl, rfl, rfl, fun _ ↦ rfl, rfl, rfl⟩⟩) h

/-- The producer has pushed both tasks and a worker has popped the first one. -/
theorem sample_balanced : ∃ s : Monitor.State (Thread 2) (Shared 2 ℤ) (Place ℤ),
    s.shared.popped = [sampleCall.calcArgs 0 0] ∧
      s.shared.pushed = [sampleCall.calcArgs 0 0, sampleCall.calcArgs 0 1] ∧ Balanced s := by
  have hrun : (sampleRun (List.replicate 12 .producer ++ List.replicate 4 (.worker 0))).any
      (fun s ↦ s.shared.popped = [sampleCall.calcArgs 0 0] ∧
        s.shared.pushed = [sampleCall.calcArgs 0 0, sampleCall.calcArgs 0 1]) = true := by
    decide +kernel
  obtain ⟨s, hs, hlogs⟩ := (Option.any_eq_true _ _).mp hrun
  obtain ⟨hpopped, hpushed⟩ := of_decide_eq_true hlogs
  exact ⟨s, hpopped, hpushed, pool_balanced (sample_reachable hs)⟩

end Sample

end OsWorkbench.Gpt
