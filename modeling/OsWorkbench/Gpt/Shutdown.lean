import OsWorkbench.Gpt.Refinement

namespace OsWorkbench.Gpt

open Library

variable {n : ℕ} {V : Type} {value : Value V} {cmds : List (Command V)}
  {sh sh' : Shared n V} {q q' : Worker} {w : Fin n}

/-- The task that a worker has computed when it goes from one place to another. -/
def finishedTask : Worker → Worker → Multiset CalcArgs
  | .calc args _, .lockDone => {args}
  | _, _ => 0

/-- The tasks computed by all the workers since the start of the program. -/
def recordComputed (s s' : Monitor.State (Thread n) (Shared n V) (Place V))
    (computed : Multiset CalcArgs) : Multiset CalcArgs :=
  computed + ∑ w : Fin n, finishedTask (s.place (.worker w)) (s'.place (.worker w))

abbrev recordedPool (n : ℕ) (value : Value V) (cmds : List (Command V)) :
    System (Monitor.State (Thread n) (Shared n V) (Place V) × Multiset CalcArgs) :=
  (pool n value cmds).system.withHistory 0 recordComputed

theorem finishedTask_self (q : Worker) : finishedTask q q = 0 := by
  cases q <;> rfl

theorem sum_finishedTask {place : ∀ t : Thread n, Place V t} (w : Fin n) (q : Worker) :
    ∑ v : Fin n, finishedTask (place (.worker v))
        (Function.update place (.worker w) q (.worker v)) =
      finishedTask (place (.worker w)) q := by
  rw [Finset.sum_eq_single w]
  · rw [Function.update_self]
  · intro v _ hv
    rw [Function.update_of_ne (by simpa using hv), finishedTask_self]
  · simp

theorem worker_popped (h : (workerAct value w q sh).next sh = some (sh', q')) :
    (sh'.popped : Multiset CalcArgs) + q.task = sh.popped + q'.task + finishedTask q q' := by
  unfold workerAct at h
  split at h <;> try split_ifs at h
  all_goals
    simp only [Act.next, Option.some.injEq, Prod.mk.injEq, reduceCtorEq] at h
  all_goals
    obtain ⟨rfl, rfl⟩ := h
    simp [Worker.task, finishedTask, ← Multiset.coe_add]

theorem producer_popped {p p' : Producer V} (h : (producerAct p sh).next sh = some (sh', p')) :
    sh'.popped = sh.popped := by
  rcases producer_buffer h with ⟨-, -, hpopped, -⟩ | ⟨-, -, hpopped, -⟩
  · exact hpopped
  · exact hpopped

variable {s s' : Monitor.State (Thread n) (Shared n V) (Place V)} {computed : Multiset CalcArgs}

/-- Every popped task is computed or still with a worker. -/
def Recorded (s : Monitor.State (Thread n) (Shared n V) (Place V)) (computed : Multiset CalcArgs) :
    Prop :=
  (s.shared.popped : Multiset CalcArgs) =
    computed + ∑ w : Fin n, (s.place (.worker w) : Worker).task

theorem recordComputed_of_place (hplace : s'.place = s.place) :
    recordComputed s s' computed = computed := by
  rw [recordComputed, hplace, Finset.sum_eq_zero fun w _ ↦ finishedTask_self _, add_zero]

theorem exchange_record {A : Type} {popped popped' record sum sum' x x' y : Multiset A}
    (h : popped = record + sum) (hlocal : popped' + x = popped + x' + y)
    (hsum : sum' + x = sum + x') : popped' = record + y + sum' := by
  apply add_right_cancel (b := x)
  calc popped' + x = record + y + (sum + x') := by rw [hlocal, h]; abel
    _ = record + y + sum' + x := by rw [← hsum]; abel

theorem Recorded.step {t : Thread n} (hr : Recorded s computed)
    (h : (pool n value cmds).Step s t s') : Recorded s' (recordComputed s s' computed) := by
  rw [Recorded] at hr ⊢
  rcases h.next with ⟨hplace, hshared⟩ | ⟨-, p, hnext, hplace⟩
  · rw [recordComputed_of_place hplace, hshared, hplace]
    exact hr
  · cases t with
    | producer =>
      have hworkers : ∀ w, s'.place (.worker w) = s.place (.worker w) := by
        intro w
        rw [hplace]
        exact Function.update_of_ne (by simp) ..
      rw [producer_popped hnext, hr, recordComputed]
      simp only [hworkers, finishedTask_self, Finset.sum_const_zero, add_zero]
    | worker w =>
      have hlocal := worker_popped hnext
      have hsum := sum_worker s.place Worker.task w p
      rw [recordComputed, hplace, sum_finishedTask]
      exact exchange_record hr hlocal hsum

theorem reachable_recorded (h : (recordedPool n value cmds).Reachable (s, computed)) :
    Recorded s computed := by
  refine h.invariant (I := fun x ↦ Recorded x.1 x.2) ?_ ?_
  · intro x hx
    obtain ⟨⟨-, -, hplace, hshared⟩, hstart⟩ := hx
    rw [Recorded, hstart, hplace, hshared.popped]
    simp [pool, Worker.task]
  · intro x y _ hx hs
    obtain ⟨hs, hrecord⟩ := hs
    rw [hrecord]
    rcases hs with ⟨t, hs⟩ | ⟨t, -, hs⟩
    · exact hx.step hs
    · have hplace : y.1.place = x.1.place := by rw [hs]
      have hshared : y.1.shared = x.1.shared := by rw [hs]
      rw [recordComputed_of_place hplace, Recorded, hshared, hplace]
      exact hx

/-- What holds of the shutdown, in a state and with the tasks computed so far. -/
structure CleanShutdown (value : Value V) (cmds : List (Command V))
    (s : Monitor.State (Thread n) (Shared n V) (Place V)) (computed : Multiset CalcArgs) : Prop where
  observed : ∀ w, s.place (.worker w) = Worker.finish →
    s.shared.buffer.count = 0 ∧ s.shared.remaining = 0
  entry : ∀ m rest, s.place .producer = Producer.entry m rest → s.shared.remaining = 0
  computed : s.shared.finished = true → computed = s.shared.pushed
  noCalc : s.shared.finished = true → ∀ w args o, s.place (.worker w) ≠ Worker.calc args o
  stays : s.shared.finished = true →
    ∀ t s', (pool n value cmds).Step s t s' → s'.shared.finished = true
  noSleep : s.shared.finished = true → ∀ w, s.sleep (.worker w) ≠ .asleep ∧
    ∀ p, (pool n value cmds).act (.worker w) (s.place (.worker w)) s.shared ≠ .wait p

theorem worker_wait {p : Worker} (h : workerAct value w q sh = .wait p) : sh.finished = false := by
  unfold workerAct at h
  split at h <;> try split_ifs at h
  all_goals simp_all

theorem finished_stays {t : Thread n} (h : (pool n value cmds).Step s t s')
    (hfin : s.shared.finished = true) : s'.shared.finished = true := by
  rcases h.next with ⟨-, hshared⟩ | ⟨-, p, hnext, -⟩
  · rw [hshared, hfin]
  · cases t with
    | producer => exact (producer_phase hnext).2.2.1 hfin
    | worker w => rw [(worker_phase hnext).2.1, hfin]

theorem pool_shutdown (h : (recordedPool n value cmds).Reachable (s, computed)) :
    CleanShutdown value cmds s computed := by
  have hreach := h.state
  have hphase := reachable_phased hreach
  have hquiet : s.shared.finished = true → (s.place .producer : Producer V).Quiet := fun hfin ↦
    (hphase.finishing.mp hfin).quiet
  constructor
  · intro w hw
    have hfin := hphase.leaving w (by rw [hw]; trivial)
    obtain ⟨hremaining, hcount, -⟩ := reachable_rest hreach (hquiet hfin)
    exact ⟨hcount, hremaining⟩
  · intro m rest hp
    exact (reachable_rest hreach (by rw [hp]; trivial)).1
  · intro hfin
    obtain ⟨hlogs, hflight⟩ := reachable_quiet hreach (hquiet hfin)
    have hrecorded := reachable_recorded h
    rw [Recorded, Finset.sum_eq_zero fun w _ ↦ Worker.task_eq_zero (hflight w), add_zero] at hrecorded
    rw [hlogs, hrecorded]
  · intro hfin w args o hw
    have hflight := (reachable_rest hreach (hquiet hfin)).2.2 w
    rw [hw] at hflight
    cases hflight
  · intro hfin t s' hs
    exact finished_stays hs hfin
  · intro hfin w
    refine ⟨fun hs ↦ ?_, fun p hp ↦ ?_⟩
    · have hblocked := (reachable_blocked hreach hs).worker_cases.2.1
      rw [hfin] at hblocked
      cases hblocked
    · have hopen := worker_wait hp
      rw [hfin] at hopen
      cases hopen

/-- After both tasks a worker observes `finished`. -/
theorem sample_shutdown : ∃ (s : Monitor.State (Thread 2) (Shared 2 ℤ) (Place ℤ))
    (computed : Multiset CalcArgs),
    s.place (.worker 0) = Worker.finish ∧ s.shared.finished = true ∧
      CleanShutdown dot [.matmulForward sampleCall] s computed := by
  have hrun : (sampleRun (sampleSchedule ++ List.replicate 4 .producer ++
      List.replicate 2 (.worker 0))).any
      (fun s ↦ s.place (.worker 0) = Worker.finish ∧ s.shared.finished = true) = true := by
    decide +kernel
  obtain ⟨s, hs, hp⟩ := (Option.any_eq_true _ _).mp hrun
  obtain ⟨hplace, hfin⟩ := of_decide_eq_true hp
  obtain ⟨computed, hreach⟩ :=
    (sample_reachable hs).exists_history 0 recordComputed
  exact ⟨s, computed, hplace, hfin, pool_shutdown hreach⟩

end OsWorkbench.Gpt
