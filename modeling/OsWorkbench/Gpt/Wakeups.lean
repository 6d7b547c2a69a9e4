import OsWorkbench.Gpt.Accounting

namespace OsWorkbench.Gpt

open Library

variable {n : ℕ} {V : Type} {value : Value V} {cmds : List (Command V)}
  {sh sh' : Shared n V} {p p' : Producer V} {q q' : Worker} {w : Fin n}
  {place : ∀ t : Thread n, Place V t}

/-- The condition under which a thread waits at its place is false. -/
def Blocked : ∀ t : Thread n, Place V t → Shared n V → Prop
  | .producer, p, sh => match p with
    | .testFull .. => sh.buffer.count = bufferSize
    | .testRemaining .. => 0 < sh.remaining
    | _ => False
  | .worker _, p, sh => match p with
    | .test => sh.buffer.count = 0 ∧ sh.finished = false
    | _ => False

theorem blocked_of_wait (t : Thread n) (p : Place V t) (sh : Shared n V) (p' : Place V t)
    (h : (pool n value cmds).act t p sh = .wait p') : Blocked t p' sh := by
  cases t with
  | producer =>
    simp only [pool] at h
    unfold producerAct at h
    split at h <;> try split_ifs at h
    all_goals cases h
    all_goals assumption
  | worker w =>
    simp only [pool] at h
    unfold workerAct at h
    split at h <;> try split_ifs at h
    all_goals cases h
    simp_all [Blocked]

/-- Without a broadcast nothing is changed that a thread waits for. -/
theorem run_shared {t : Thread n} {p : Place V t} {sh' : Shared n V} {p' : Place V t}
    (h : (pool n value cmds).act t p sh = .run sh' p') :
    sh'.buffer = sh.buffer ∧ sh.remaining ≤ sh'.remaining ∧ sh'.finished = sh.finished := by
  cases t with
  | producer =>
    simp only [pool] at h
    unfold producerAct at h
    split at h <;> try split_ifs at h
    all_goals cases h
    all_goals simp
  | worker w =>
    simp only [pool] at h
    unfold workerAct at h
    split at h <;> try split_ifs at h
    all_goals cases h
    all_goals simp

theorem Blocked.mono {t : Thread n} {p : Place V t} (h : Blocked t p sh)
    (hbuffer : sh'.buffer = sh.buffer) (hremaining : sh.remaining ≤ sh'.remaining)
    (hfinished : sh'.finished = sh.finished) : Blocked t p sh' := by
  cases t with
  | producer =>
    cases p with
    | testFull m args todo cmds => exact (congrArg Ring.count hbuffer).trans h
    | testRemaining m cmds => exact lt_of_lt_of_le h hremaining
    | _ => exact h
  | worker w =>
    cases p with
    | test => exact ⟨(congrArg Ring.count hbuffer).trans h.1, hfinished.trans h.2⟩
    | _ => exact h

/-- `main` has pushed nothing that is not computed yet. -/
def Producer.Quiet : Producer V → Prop
  | .idle _ => True
  | .entry _ _ => True
  | .unlockEnd _ _ => True
  | .returned _ _ => True
  | .setFinished => True
  | .unlockFinished => True
  | .join => True
  | .exited => True
  | _ => False

def Producer.Finishing : Producer V → Prop
  | .unlockFinished => True
  | .join => True
  | .exited => True
  | _ => False

def Worker.Leaving : Worker → Prop
  | .finish => True
  | .exit => True
  | .exited => True
  | _ => False

theorem Producer.Finishing.quiet (h : p.Finishing) : p.Quiet := by
  cases p <;> simp_all [Producer.Finishing, Producer.Quiet]

structure Phased (place : ∀ t : Thread n, Place V t) (sh : Shared n V) : Prop where
  quiet : (place .producer : Producer V).Quiet → sh.remaining ≤ 0
  finishing : sh.finished = true ↔ (place .producer : Producer V).Finishing
  leaving : ∀ w, (place (.worker w) : Worker).Leaving → sh.finished = true
  terminated : ∀ w, sh.terminated w = true ↔ place (.worker w) = Worker.exited
  joined : place .producer = Producer.exited → ∀ w, sh.terminated w = true

theorem producer_phase (h : (producerAct p sh).next sh = some (sh', p')) :
    (p'.Quiet → sh'.remaining = sh.remaining ∧ (p.Quiet ∨ sh.remaining ≤ 0)) ∧
    ((sh'.finished = true ↔ p'.Finishing) ∨
      sh'.finished = sh.finished ∧ (p'.Finishing ↔ p.Finishing)) ∧
    (sh.finished = true → sh'.finished = true) ∧ sh'.terminated = sh.terminated ∧
    (p' = .exited → ∀ w, sh.terminated w = true) := by
  unfold producerAct at h
  split at h <;> try split_ifs at h
  all_goals
    simp only [Act.next, Option.some.injEq, Prod.mk.injEq, reduceCtorEq] at h
  all_goals
    obtain ⟨rfl, rfl⟩ := h
    simp_all [Producer.Quiet, Producer.Finishing]

theorem worker_phase (h : (workerAct value w q sh).next sh = some (sh', q')) :
    sh'.remaining ≤ sh.remaining ∧ sh'.finished = sh.finished ∧
    (q'.Leaving → q.Leaving ∨ sh.finished = true) ∧
    ((sh'.terminated = sh.terminated ∧ (q' = .exited ↔ q = .exited)) ∨
      sh'.terminated = Function.update sh.terminated w true ∧ q' = .exited) := by
  unfold workerAct at h
  split at h <;> try split_ifs at h
  all_goals
    simp only [Act.next, Option.some.injEq, Prod.mk.injEq, reduceCtorEq] at h
  all_goals
    obtain ⟨rfl, rfl⟩ := h
    simp_all [Worker.Leaving]

theorem Phased.producer (hp : Phased place sh)
    (h : (producerAct (place .producer) sh).next sh = some (sh', p')) :
    Phased (Function.update place .producer p') sh' := by
  obtain ⟨hquiet, hfinish, hkeep, hterm, hjoin⟩ := producer_phase h
  have hplace : ∀ w, Function.update place .producer p' (.worker w) = place (.worker w) :=
    fun w ↦ Function.update_of_ne (by simp) ..
  refine ⟨?_, ?_, fun w hw ↦ ?_, fun w ↦ ?_, ?_⟩
  · rw [Function.update_self]
    intro hq
    obtain ⟨hrem, hold⟩ := hquiet hq
    rw [hrem]
    exact hold.elim hp.quiet id
  · rw [Function.update_self]
    rcases hfinish with hfinish | ⟨hfin, hiff⟩
    · exact hfinish
    · rw [hfin, hp.finishing]
      exact hiff.symm
  · rw [hplace] at hw
    exact hkeep (hp.leaving w hw)
  · rw [hplace, hterm]
    exact hp.terminated w
  · rw [Function.update_self, hterm]
    exact hjoin

theorem Phased.worker (hp : Phased place sh)
    (h : (workerAct value w (place (.worker w)) sh).next sh = some (sh', q')) :
    Phased (Function.update place (.worker w) q') sh' := by
  obtain ⟨hrem, hfin, hleave, hterm⟩ := worker_phase h
  have hprod : Function.update place (.worker w) q' .producer = place .producer :=
    Function.update_of_ne (by simp) ..
  have hplace : ∀ v, v ≠ w →
      Function.update place (.worker w) q' (.worker v) = place (.worker v) :=
    fun v hv ↦ Function.update_of_ne (by simpa using hv) ..
  have hterminated : ∀ v, sh'.terminated v = true ↔
      Function.update place (.worker w) q' (.worker v) = Worker.exited := by
    intro v
    by_cases hv : v = w
    · subst hv
      rw [Function.update_self]
      rcases hterm with ⟨hterm, hiff⟩ | ⟨hterm, hexit⟩
      · rw [hterm, hp.terminated v]
        exact hiff.symm
      · rw [hterm, Function.update_self]
        exact iff_of_true rfl hexit
    · rw [hplace v hv, ← hp.terminated v]
      rcases hterm with ⟨hterm, -⟩ | ⟨hterm, -⟩
      · rw [hterm]
      · rw [hterm, Function.update_of_ne hv]
  refine ⟨?_, ?_, fun v hv ↦ ?_, hterminated, fun hj v ↦ ?_⟩
  · rw [hprod]
    exact fun hq ↦ hrem.trans (hp.quiet hq)
  · rw [hprod, hfin]
    exact hp.finishing
  · rw [hfin]
    by_cases hvw : v = w
    · subst hvw
      rw [Function.update_self] at hv
      exact (hleave hv).elim (hp.leaving v) id
    · rw [hplace v hvw] at hv
      exact hp.leaving v hv
  · rw [hprod] at hj
    have hold := hp.joined hj v
    rcases hterm with ⟨hterm, -⟩ | ⟨hterm, -⟩
    · rwa [hterm]
    · rw [hterm, Function.update_apply]
      split_ifs
      · rfl
      · exact hold

variable {s : Monitor.State (Thread n) (Shared n V) (Place V)}

theorem reachable_phased (h : (pool n value cmds).system.Reachable s) : Phased s.place s.shared := by
  refine Monitor.reachable_invariant (pool_discipline value cmds) ?_ ?_ h
  · intro sh hsh
    refine ⟨fun _ ↦ hsh.remaining.le, ?_, fun w hw ↦ hw.elim, fun w ↦ ?_, fun hj ↦ ?_⟩
    · rw [hsh.finished]
      exact iff_of_false (by simp) id
    · rw [hsh.terminated]
      exact iff_of_false (by simp) (by simp [pool])
    · cases hj
  · intro s t sh' p _ hp _ hnext
    cases t with
    | producer => exact hp.producer hnext
    | worker w => exact hp.worker hnext

section Quiet

theorem Worker.inFlight_nonneg (q : Worker) : 0 ≤ q.inFlight := by
  cases q <;> simp [Worker.inFlight]

theorem Producer.half_nonneg (p : Producer V) : 0 ≤ p.half := by
  cases p <;> simp [Producer.half]

/-- When nothing remains, the buffer is empty and no worker has a task. -/
theorem Accounted.rest (ha : Accounted place sh) (hq : Queued place sh) (hr : sh.remaining ≤ 0) :
    sh.remaining = 0 ∧ sh.buffer.count = 0 ∧
      ∀ w, (place (.worker w) : Worker).inFlight = 0 := by
  obtain ⟨queue, -, hring⟩ := hq.queue
  have hcount := hring.count_nonneg
  have hhalf := Producer.half_nonneg (place .producer : Producer V)
  have hsum : 0 ≤ ∑ w : Fin n, (place (.worker w) : Worker).inFlight :=
    Finset.sum_nonneg fun w _ ↦ Worker.inFlight_nonneg _
  rw [Accounted] at ha
  have hzero : ∑ w : Fin n, (place (.worker w) : Worker).inFlight = 0 := by omega
  refine ⟨by omega, by omega, fun w ↦ ?_⟩
  exact (Finset.sum_eq_zero_iff_of_nonneg fun w _ ↦ Worker.inFlight_nonneg _).mp hzero w
    (Finset.mem_univ w)

theorem reachable_rest (h : (pool n value cmds).system.Reachable s)
    (hq : (s.place .producer : Producer V).Quiet) :
    s.shared.remaining = 0 ∧ s.shared.buffer.count = 0 ∧
      ∀ w, (s.place (.worker w) : Worker).inFlight = 0 :=
  (reachable_accounted h).rest (reachable_queued h) ((reachable_phased h).quiet hq)

end Quiet

theorem reachable_blocked (h : (pool n value cmds).system.Reachable s) {t : Thread n}
    (ht : s.sleep t = .asleep) : Blocked t (s.place t) s.shared := by
  refine Monitor.reachable_blocked blocked_of_wait ?_ h ht
  intro t p sh sh' p' u q hact hb
  obtain ⟨hbuffer, hremaining, hfinished⟩ := run_shared hact
  exact hb.mono hbuffer hremaining hfinished

/-- The assertions of the source hold. -/
theorem reachable_ne_fail (h : (pool n value cmds).system.Reachable s) (t : Thread n) :
    (pool n value cmds).act t (s.place t) s.shared ≠ .fail := by
  have hphase := reachable_phased h
  cases t with
  | producer =>
    cases hp : (s.place .producer : Producer V) with
    | entry m cmds =>
      have hr := (reachable_rest h (by rw [hp]; trivial)).1
      simp [pool, producerAct, hr]
    | idle cmds => cases cmds with
      | nil => simp [pool, producerAct]
      | cons c cmds => cases c <;> simp [pool, producerAct]
    | next m todo cmds => cases todo <;> simp [pool, producerAct]
    | _ =>
      simp only [pool, producerAct]
      try split_ifs
      all_goals simp
  | worker w =>
    cases hq : (s.place (.worker w) : Worker) with
    | finish =>
      have hfin := hphase.finishing.mp (hphase.leaving w (by rw [hq]; trivial))
      obtain ⟨hr, hc, -⟩ := reachable_rest h hfin.quiet
      simp [pool, workerAct, hr, hc]
    | _ =>
      simp only [pool, workerAct]
      try split_ifs
      all_goals simp

section Progress

def Exited : ∀ t : Thread n, Place V t → Prop
  | .producer, p => p = Producer.exited
  | .worker _, q => q = Worker.exited

theorem producer_stop (h : producerAct p sh = .stop) :
    p = .exited ∨ p = .join ∧ ¬ ∀ w, sh.terminated w = true := by
  unfold producerAct at h
  split at h <;> try split_ifs at h
  all_goals simp_all

theorem worker_stop (h : workerAct value w q sh = .stop) : q = .exited := by
  unfold workerAct at h
  split at h <;> try split_ifs at h
  all_goals simp_all

theorem Blocked.producer_cases {p : Producer V} (h : Blocked (n := n) .producer p sh) :
    ¬ p.Finishing ∧ (sh.buffer.count = bufferSize ∨ 0 < sh.remaining ∧ p.half = 0) := by
  cases p with
  | testFull m args todo cmds => exact ⟨id, .inl h⟩
  | testRemaining m cmds => exact ⟨id, .inr ⟨h, rfl⟩⟩
  | _ => exact h.elim

theorem Blocked.worker_cases {q : Worker} (h : Blocked (V := V) (.worker w) q sh) :
    sh.buffer.count = 0 ∧ sh.finished = false ∧ q.inFlight = 0 := by
  cases q with
  | test => exact ⟨h.1, h.2, rfl⟩
  | _ => exact h.elim

/-- When no thread can step, all have returned. -/
theorem exited_of_stuck (hn : 0 < n) (h : (pool n value cmds).system.Reachable s)
    (hstuck : ∀ t s', ¬ (pool n value cmds).Step s t s') (t : Thread n) : Exited t (s.place t) := by
  obtain ⟨-, hall⟩ :=
    Monitor.reachable_stuck (pool_discipline value cmds) h (reachable_ne_fail h) hstuck
  have hblocked : ∀ t, s.sleep t = .asleep → Blocked t (s.place t) s.shared := fun t ↦
    reachable_blocked h
  have hphase := reachable_phased h
  -- a worker that has not returned waits for a task
  have hworker : ∀ w, s.place (.worker w) = Worker.exited ∨
      s.shared.buffer.count = 0 ∧ s.shared.finished = false ∧
        (s.place (.worker w) : Worker).inFlight = 0 := by
    intro w
    rcases hall (.worker w) with hw | ⟨-, hw⟩
    · exact .inr (hblocked _ hw).worker_cases
    · exact .inl (worker_stop hw)
  have hdone : ∀ w, s.shared.finished = true → s.place (.worker w) = Worker.exited := by
    intro w hfin
    refine (hworker w).resolve_right fun hw ↦ ?_
    rw [hw.2.1] at hfin
    cases hfin
  have hexited : s.place .producer = Producer.exited := by
    rcases hall .producer with hp | ⟨-, hp⟩
    · -- a producer that waits keeps the workers from returning
      obtain ⟨hfinishing, hcond⟩ := (hblocked _ hp).producer_cases
      have hnot : s.shared.finished ≠ true := fun hf ↦ hfinishing (hphase.finishing.mp hf)
      have hwait : ∀ w, s.shared.buffer.count = 0 ∧
          (s.place (.worker w) : Worker).inFlight = 0 := by
        intro w
        rcases hworker w with hw | ⟨hc, -, hf⟩
        · exact absurd (hphase.leaving w (by rw [hw]; trivial)) hnot
        · exact ⟨hc, hf⟩
      have hcount := (hwait ⟨0, hn⟩).1
      rcases hcond with hfull | ⟨hrem, hhalf⟩
      · rw [hcount] at hfull
        cases hfull
      · have hacc := reachable_accounted h
        rw [Accounted, hcount, hhalf, Finset.sum_eq_zero fun w _ ↦ (hwait w).2] at hacc
        omega
    · rcases producer_stop hp with hp | ⟨hp, hterm⟩
      · exact hp
      · have hfin := hphase.finishing.mpr (by rw [hp]; trivial)
        exact absurd (fun w ↦ (hphase.terminated w).mpr (hdone w hfin)) hterm
  cases t with
  | producer => exact hexited
  | worker w => exact (hphase.terminated w).mp (hphase.joined hexited w)

theorem pool_wakeups (hn : 0 < n) (h : (pool n value cmds).system.Reachable s) :
    (∀ t, s.sleep t = .asleep → Blocked t (s.place t) s.shared) ∧
      ((∃ t, ¬ Exited t (s.place t)) → ∃ t s', (pool n value cmds).Step s t s') := by
  refine ⟨fun t ht ↦ ?_, fun hlive ↦ ?_⟩
  · exact reachable_blocked h ht
  · by_contra hno
    obtain ⟨t, ht⟩ := hlive
    exact ht (exited_of_stuck hn h (fun t s' hs ↦ hno ⟨t, s', hs⟩) t)

/-- The producer sleeps until the tasks are computed. -/
theorem sample_wakeups : ∃ s : Monitor.State (Thread 2) (Shared 2 ℤ) (Place ℤ),
    s.sleep .producer = .asleep ∧ Blocked .producer (s.place .producer) s.shared ∧
      ∃ t s', (pool 2 dot [.matmulForward sampleCall]).Step s t s' := by
  have hrun : (sampleRun (List.replicate 14 .producer)).any (fun s ↦
      s.sleep .producer = .asleep ∧ s.place (.worker 0) ≠ Worker.exited) = true := by
    decide +kernel
  obtain ⟨s, hs, hp⟩ := (Option.any_eq_true _ _).mp hrun
  obtain ⟨hsleep, hlive⟩ := of_decide_eq_true hp
  obtain ⟨hblocked, hstep⟩ := pool_wakeups (by decide) (sample_reachable hs)
  exact ⟨s, hsleep, hblocked _ hsleep, hstep ⟨.worker 0, hlive⟩⟩

end Progress

end OsWorkbench.Gpt
