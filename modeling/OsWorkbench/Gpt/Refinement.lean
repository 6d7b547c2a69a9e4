import OsWorkbench.Gpt.Wakeups
import OsWorkbench.Gpt.MatmulLoop
import Mathlib.Algebra.BigOperators.Group.Multiset.Basic
import Mathlib.Tactic.Abel

namespace OsWorkbench.Gpt

open Library

variable {n : ℕ} {V : Type} {value : Value V} {cmds : List (Command V)}
  {sh sh' : Shared n V} {p p' : Producer V} {q q' : Worker} {w : Fin n}
  {place : ∀ t : Thread n, Place V t} {m : MatmulArgs}

def Producer.call : Producer V → Option MatmulArgs
  | .next m _ _ => some m
  | .increment m _ _ _ => some m
  | .testFull m _ _ _ => some m
  | .push m _ _ _ => some m
  | .unlock m _ _ => some m
  | .testRemaining m _ => some m
  | .unlockEnd m _ => some m
  | .returned m _ => some m
  | _ => none

def Producer.todo : Producer V → List CalcArgs
  | .next _ todo _ => todo
  | .increment _ args todo _ => args :: todo
  | .testFull _ args todo _ => args :: todo
  | .push _ args todo _ => args :: todo
  | .unlock _ todo _ => todo
  | _ => []

/-- The task that is popped and not computed. -/
def Worker.task : Worker → Multiset CalcArgs
  | .unlock args => {args}
  | .calc args _ => {args}
  | _ => 0

theorem Worker.task_eq_zero (h : q.inFlight = 0) : q.task = 0 := by
  cases q <;> simp_all [Worker.inFlight, Worker.task]

/-- A step of the producer in a call begins it, or keeps the tasks together. -/
theorem producer_tasks (h : (producerAct p sh).next sh = some (sh', p'))
    (hcall : p'.call = some m) :
    sh'.popped = sh.popped ∧ sh'.mem = sh.mem ∧
    ((p.Quiet ∧ sh'.pushed = sh.pushed ∧ sh'.computed = [] ∧ sh'.entryMem = sh.mem ∧
        p'.todo = m.tasks) ∨
      (p.call = some m ∧ sh'.pushed ++ p'.todo = sh.pushed ++ p.todo ∧
        sh'.computed = sh.computed ∧ sh'.entryMem = sh.entryMem)) := by
  unfold producerAct at h
  split at h <;> try split_ifs at h
  all_goals
    simp only [Act.next, Option.some.injEq, Prod.mk.injEq, reduceCtorEq] at h
  all_goals
    obtain ⟨rfl, rfl⟩ := h
    simp_all [Producer.call, Producer.todo, Producer.Quiet]

theorem worker_tasks (h : (workerAct value w q sh).next sh = some (sh', q')) :
    sh'.pushed = sh.pushed ∧ sh'.entryMem = sh.entryMem ∧
    (sh'.computed : Multiset CalcArgs) + q'.task + sh.popped =
      sh.computed + q.task + sh'.popped := by
  unfold workerAct at h
  split at h <;> try split_ifs at h
  all_goals
    simp only [Act.next, Option.some.injEq, Prod.mk.injEq, reduceCtorEq] at h
  all_goals
    obtain ⟨rfl, rfl⟩ := h
    simp [Worker.task, ← Multiset.coe_add, add_comm, add_left_comm]

/-- Every task of the call is computed, with a worker, in the buffer or still to be
pushed. -/
def Tasked (place : ∀ t : Thread n, Place V t) (sh : Shared n V) : Prop :=
  ∀ m, (place .producer : Producer V).call = some m →
    (m.tasks : Multiset CalcArgs) + sh.popped =
      sh.computed + (∑ w : Fin n, (place (.worker w) : Worker).task) + sh.pushed +
        (place .producer : Producer V).todo

variable {s : Monitor.State (Thread n) (Shared n V) (Place V)}

/-- Outside of the pushing and waiting the buffer is empty and no worker has a task. -/
theorem reachable_quiet (h : (pool n value cmds).system.Reachable s)
    (hq : (s.place .producer : Producer V).Quiet) :
    s.shared.pushed = s.shared.popped ∧ ∀ w, (s.place (.worker w) : Worker).inFlight = 0 := by
  obtain ⟨-, hcount, hflight⟩ := reachable_rest h hq
  obtain ⟨queue, hpushed, hring⟩ := (reachable_queued h).queue
  have hlen := hring.count_eq
  rw [hcount] at hlen
  have hnil : queue = [] := List.eq_nil_of_length_eq_zero (by exact_mod_cast hlen.symm)
  rw [hnil, List.append_nil] at hpushed
  exact ⟨hpushed, hflight⟩

theorem exchange {A : Type} {tasks popped popped' computed computed' sum sum' pushed todo x x' :
    Multiset A} (h : tasks + popped = computed + sum + pushed + todo)
    (hlocal : computed' + x' + popped = computed + x + popped') (hsum : sum' + x = sum + x') :
    tasks + popped' = computed' + sum' + pushed + todo := by
  apply add_right_cancel (b := popped + x)
  calc tasks + popped' + (popped + x) = (tasks + popped) + popped' + x := by abel
    _ = (computed + x + popped') + sum + pushed + todo := by rw [h]; abel
    _ = computed' + (sum + x') + popped + pushed + todo := by rw [← hlocal]; abel
    _ = computed' + sum' + pushed + todo + (popped + x) := by rw [← hsum]; abel

theorem reachable_tasked (h : (pool n value cmds).system.Reachable s) :
    Tasked s.place s.shared := by
  refine Monitor.reachable_invariant (pool_discipline value cmds) ?_ ?_ h
  · intro sh _ m hm
    cases hm
  · intro s t sh' p hr ht _ hnext m hm
    cases t with
    | producer =>
      rw [Function.update_self] at hm ⊢
      rw [sum_producer]
      obtain ⟨hpopped, -, ⟨hquiet, hpushed, hcomputed, -, htodo⟩ |
        ⟨hcall, htodo, hcomputed, -⟩⟩ := producer_tasks hnext hm
      · obtain ⟨hlogs, hflight⟩ := reachable_quiet hr hquiet
        rw [hpopped, hpushed, hcomputed, htodo, hlogs,
          Finset.sum_eq_zero fun w _ ↦ Worker.task_eq_zero (hflight w), Multiset.coe_nil, zero_add,
          zero_add, add_comm]
      · rw [hpopped, hcomputed, ht m hcall, add_assoc, Multiset.coe_add, ← htodo, ← Multiset.coe_add,
          ← add_assoc]
    | worker w =>
      rw [Function.update_of_ne (by simp)] at hm ⊢
      obtain ⟨hpushed, -, hlocal⟩ := worker_tasks hnext
      have hsum := sum_worker s.place Worker.task w p
      have hold := ht m hm
      rw [hpushed]
      exact exchange hold hlocal hsum

/-- The writes that are done: those of the computed tasks and of the workers in
`calc` so far. -/
def Done (place : ∀ t : Thread n, Place V t) (sh : Shared n V) (x : CalcArgs × ℕ) : Prop :=
  (x.1 ∈ sh.computed ∧ x.2 < x.1.OC) ∨ ∃ w o, place (.worker w) = Worker.calc x.1 o ∧ x.2 < o

theorem worker_done (h : (workerAct value w q sh).next sh = some (sh', q')) :
    (∃ args o, q = .calc args o ∧ o < args.OC ∧ q' = .calc args (o + 1) ∧
      sh'.mem = (writes value).write sh.mem (args, o) ∧ sh'.computed = sh.computed) ∨
    (sh'.mem = sh.mem ∧ (∀ args o, q' = .calc args o → o = 0) ∧
      ∀ args ∈ sh'.computed, args ∈ sh.computed ∨ ∃ o, q = .calc args o ∧ args.OC ≤ o) := by
  unfold workerAct at h
  split at h <;> try split_ifs at h
  all_goals
    simp only [Act.next, Option.some.injEq, Prod.mk.injEq, reduceCtorEq] at h
  all_goals
    obtain ⟨rfl, rfl⟩ := h
    try simp_all [CalcArgs.step_eq]
  intro args hargs
  rcases hargs with hargs | rfl
  · exact .inl hargs
  · exact .inr ⟨rfl, ‹_›⟩

theorem reachable_task_mem (h : (pool n value cmds).system.Reachable s)
    (hcall : (s.place .producer : Producer V).call = some m) {args : CalcArgs} {o : ℕ}
    (hw : s.place (.worker w) = Worker.calc args o) : args ∈ m.tasks := by
  obtain ⟨queue, hpushed, -⟩ := (reachable_queued h).queue
  have htasks := reachable_tasked h m hcall
  rw [hpushed, ← Multiset.coe_add] at htasks
  have hcancel : (m.tasks : Multiset CalcArgs) = s.shared.computed +
      (∑ w : Fin n, (s.place (.worker w) : Worker).task) + queue +
        (s.place .producer : Producer V).todo := by
    apply add_right_cancel (b := (s.shared.popped : Multiset CalcArgs))
    rw [htasks]
    abel
  have hsum : args ∈ ∑ w : Fin n, (s.place (.worker w) : Worker).task :=
    Multiset.mem_sum.mpr ⟨w, Finset.mem_univ w, by rw [hw]; exact Multiset.mem_singleton_self args⟩
  rw [← Multiset.mem_coe, hcancel]
  simp only [Multiset.mem_add]
  exact .inl (.inl (.inr hsum))

section Done

variable {x : CalcArgs × ℕ} {args : CalcArgs} {o : ℕ}

theorem Done.of_producer (hx : Done (Function.update place .producer p) sh' x)
    (hcomputed : sh'.computed = sh.computed) : Done place sh x := by
  rcases hx with ⟨hx, hlt⟩ | ⟨w, o, hw, hlt⟩
  · exact .inl ⟨hcomputed ▸ hx, hlt⟩
  · rw [Function.update_of_ne (by simp)] at hw
    exact .inr ⟨w, o, hw, hlt⟩

theorem Done.of_write (hq : place (.worker w) = Worker.calc args o)
    (hx : Done (Function.update place (.worker w) (.calc args (o + 1))) sh' x)
    (hcomputed : sh'.computed = sh.computed) : x = (args, o) ∨ Done place sh x := by
  rcases hx with ⟨hx, hlt⟩ | ⟨v, o', hv, hlt⟩
  · exact .inr (.inl ⟨hcomputed ▸ hx, hlt⟩)
  · by_cases hvw : v = w
    · subst hvw
      rw [Function.update_self] at hv
      cases hv
      by_cases hx : x.2 = o
      · exact .inl (Prod.ext rfl hx)
      · exact .inr (.inr ⟨v, o, hq, by omega⟩)
    · rw [Function.update_of_ne (by simpa using hvw)] at hv
      exact .inr (.inr ⟨v, o', hv, hlt⟩)

theorem Done.of_keep (hx : Done (Function.update place (.worker w) q') sh' x)
    (hcalc : ∀ args o, q' = .calc args o → o = 0)
    (hcomputed : ∀ args ∈ sh'.computed, args ∈ sh.computed ∨
      ∃ o, place (.worker w) = Worker.calc args o ∧ args.OC ≤ o) : Done place sh x := by
  rcases hx with ⟨hx, hlt⟩ | ⟨v, o, hv, hlt⟩
  · rcases hcomputed _ hx with hx | ⟨o, hq, hle⟩
    · exact .inl ⟨hx, hlt⟩
    · exact .inr ⟨w, o, hq, by omega⟩
  · by_cases hvw : v = w
    · subst hvw
      rw [Function.update_self] at hv
      rw [hcalc _ _ hv] at hlt
      omega
    · rw [Function.update_of_ne (by simpa using hvw)] at hv
      exact .inr ⟨v, o, hv, hlt⟩

theorem not_done (hcomputed : sh.computed = [])
    (hflight : ∀ w, (place (.worker w) : Worker).inFlight = 0) : ¬ Done place sh x := by
  rintro (⟨hx, -⟩ | ⟨w, o, hw, -⟩)
  · rw [hcomputed] at hx
    cases hx
  · have hzero := hflight w
    rw [hw] at hzero
    cases hzero

end Done

theorem reachable_job (h : (pool n value cmds).system.Reachable s)
    (hcall : (s.place .producer : Producer V).call = some m) {args : CalcArgs} {o : ℕ}
    (hw : s.place (.worker w) = Worker.calc args o) (ho : o < args.OC) : (args, o) ∈ m.jobs := by
  have hargs := reachable_task_mem h hcall hw
  obtain ⟨b, hb, t, ht, rfl⟩ := MatmulArgs.mem_tasks.mp hargs
  exact ⟨hargs, ho⟩

/-- A call writes `out` only. -/
def Framed (place : ∀ t : Thread n, Place V t) (sh : Shared n V) : Prop :=
  ∀ m, (place .producer : Producer V).call = some m → ∀ x, x ∉ m.outRange → sh.mem x = sh.entryMem x

theorem reachable_framed (h : (pool n value cmds).system.Reachable s) :
    Framed s.place s.shared := by
  refine Monitor.reachable_invariant (pool_discipline value cmds) ?_ ?_ h
  · intro sh _ m hm
    cases hm
  · intro s t sh' p hr hi _ hnext m hm x hx
    cases t with
    | producer =>
      rw [Function.update_self] at hm
      obtain ⟨-, hmem, ⟨-, -, -, hentry, -⟩ | ⟨hcall, -, -, hentry⟩⟩ := producer_tasks hnext hm
      · rw [hmem, hentry]
      · rw [hmem, hentry, hi m hcall x hx]
    | worker w =>
      rw [Function.update_of_ne (by simp)] at hm
      obtain ⟨-, hentry, -⟩ := worker_tasks hnext
      rcases worker_done hnext with ⟨args, o, hq, ho, -, hmem, -⟩ | ⟨hmem, -, -⟩
      · have hne : x ≠ args.outBt + o := fun he ↦
          hx (he ▸ MatmulArgs.cell_mem (reachable_job hr hm hq ho))
        rw [hmem, hentry, ← hi m hm x hx]
        exact Function.update_of_ne hne ..
      · rw [hmem, hentry, hi m hm x hx]

/-- During a call the memory is the one at its entry with the finished writes. -/
def Computing (value : Value V) (place : ∀ t : Thread n, Place V t) (sh : Shared n V) : Prop :=
  ∀ m, (place .producer : Producer V).call = some m → m.Separate →
    (writes value).Progress m.outRange m.jobs sh.entryMem sh.mem (Done place sh)

theorem reachable_computing (h : (pool n value cmds).system.Reachable s) :
    Computing value s.place s.shared := by
  refine Monitor.reachable_invariant (pool_discipline value cmds) ?_ ?_ h
  · intro sh _ m hm
    cases hm
  · intro s t sh' p hr hi _ hnext m hm hsep
    cases t with
    | producer =>
      rw [Function.update_self] at hm
      obtain ⟨-, hmem, ⟨hquiet, -, hcomputed, hentry, -⟩ | ⟨hcall, -, hcomputed, hentry⟩⟩ :=
        producer_tasks hnext hm
      · have hrest : ∀ w, (Function.update s.place .producer p (.worker w) : Worker).inFlight = 0 :=
          fun w ↦ by rw [Function.update_of_ne (by simp), (reachable_quiet hr hquiet).2 w]
        rw [hmem, hentry]
        exact (Writes.Progress.start _ _ _ _).mono fun x hx ↦ not_done hcomputed hrest hx
      · rw [hmem, hentry]
        exact (hi m hcall hsep).mono fun x hx ↦ hx.of_producer hcomputed
    | worker w =>
      rw [Function.update_of_ne (by simp)] at hm
      obtain ⟨-, hentry, -⟩ := worker_tasks hnext
      have hold := hi m hm hsep
      rw [hentry]
      rcases worker_done hnext with ⟨args, o, hq, ho, rfl, hmem, hcomputed⟩ |
        ⟨hmem, hcalc, hcomputed⟩
      · rw [hmem]
        exact (hold.write (hsep.independent value) (reachable_job hr hm hq ho)).mono
          fun x hx ↦ hx.of_write hq hcomputed
      · rw [hmem]
        exact hold.mono fun x hx ↦ hx.of_keep hcalc hcomputed

/-- What holds when `matmul_forward` has returned. -/
structure Refines (value : Value V) (m : MatmulArgs)
    (s : Monitor.State (Thread n) (Shared n V) (Place V)) : Prop where
  once : s.shared.computed.Perm m.tasks
  idle : ∀ w args o, s.place (.worker w) ≠ Worker.calc args o
  mem : m.Separate → s.shared.mem = matmulLoop value m s.shared.entryMem
  disjoint : ∀ b t b' t', t < m.T → t' < m.T → (b, t) ≠ (b', t') →
    Disjoint (m.row b t) (m.row b' t')
  cover : (⋃ b < m.B, ⋃ t < m.T, m.row b t) = m.outRange
  frame : ∀ x, x ∉ m.outRange → s.shared.mem x = s.shared.entryMem x

/-- When a call has returned, each of its tasks has been computed once. -/
theorem returned_perm (h : (pool n value cmds).system.Reachable s) {rest : List (Command V)}
    (hret : s.place .producer = Producer.returned m rest) : s.shared.computed.Perm m.tasks := by
  obtain ⟨hlogs, hflight⟩ := reachable_quiet h (by rw [hret]; trivial)
  have htasks := reachable_tasked h m (by rw [hret]; rfl)
  rw [hlogs, Finset.sum_eq_zero fun w _ ↦ Worker.task_eq_zero (hflight w), hret] at htasks
  simp only [Producer.todo, Multiset.coe_nil, add_zero] at htasks
  exact (Multiset.coe_eq_coe.mp (add_right_cancel htasks)).symm

theorem returned_mem (h : (pool n value cmds).system.Reachable s) {rest : List (Command V)}
    (hret : s.place .producer = Producer.returned m rest) (hsep : m.Separate) :
    s.shared.mem = matmulLoop value m s.shared.entryMem := by
  have hcall : (s.place .producer : Producer V).call = some m := by rw [hret]; rfl
  have honce := returned_perm h hret
  refine (reachable_computing h m hcall hsep).eq (matmulLoop_progress hsep _) fun x hx ↦ ?_
  obtain ⟨b, hb, t, ht, o, ho, rfl⟩ := MatmulArgs.exists_outBt hx
  have hargs : m.calcArgs b t ∈ m.tasks := MatmulArgs.mem_tasks.mpr ⟨b, hb, t, ht, rfl⟩
  exact ⟨(m.calcArgs b t, o), .inl ⟨honce.mem_iff.mpr hargs, ho⟩, ⟨hargs, ho⟩, rfl⟩

theorem pool_refines (h : (pool n value cmds).system.Reachable s) {rest : List (Command V)}
    (hret : s.place .producer = Producer.returned m rest) : Refines value m s := by
  have hcall : (s.place .producer : Producer V).call = some m := by rw [hret]; rfl
  obtain ⟨-, hflight⟩ := reachable_quiet h (by rw [hret]; trivial)
  refine ⟨returned_perm h hret, fun w args o hw ↦ ?_, returned_mem h hret,
    fun _ _ _ _ ht ht' ↦ m.row_disjoint ht ht', m.row_cover, reachable_framed h m hcall⟩
  have hzero := hflight w
  rw [hw] at hzero
  cases hzero

/-- Both workers compute a task, and the producer is woken twice. -/
def sampleSchedule : List (Thread 2) :=
  List.replicate 14 .producer ++ List.replicate 4 (.worker 0) ++ List.replicate 9 (.worker 1) ++
    List.replicate 2 .producer ++ List.replicate 5 (.worker 0) ++ List.replicate 3 .producer

theorem sample_separate : sampleCall.Separate := by
  intro x hx hmem
  obtain ⟨-, hlt⟩ := Set.mem_Ico.mp hmem
  simp only [MatmulArgs.Reads, sampleCall, reduceCtorEq, false_and, exists_const, or_false] at hx hlt
  omega

theorem sample_refines : ∃ s : Monitor.State (Thread 2) (Shared 2 ℤ) (Place ℤ),
    s.shared.computed = [sampleCall.calcArgs 0 1, sampleCall.calcArgs 0 0] ∧
      s.shared.mem 0 = 200 ∧ s.shared.mem 1 = 220 ∧ Refines dot sampleCall s ∧
      s.shared.mem = matmulLoop dot sampleCall s.shared.entryMem := by
  have hrun : (sampleRun sampleSchedule).any (fun s ↦
      (s.place .producer matches Producer.returned _ _) ∧
        (s.place .producer : Producer ℤ).call = some sampleCall ∧
        s.shared.computed = [sampleCall.calcArgs 0 1, sampleCall.calcArgs 0 0] ∧
        s.shared.mem 0 = 200 ∧ s.shared.mem 1 = 220) = true := by
    decide +kernel
  obtain ⟨s, hs, hp⟩ := (Option.any_eq_true _ _).mp hrun
  obtain ⟨hret, hcall, hcomputed, hmem₀, hmem₁⟩ := of_decide_eq_true hp
  refine ⟨s, hcomputed, hmem₀, hmem₁, ?_⟩
  cases hplace : (s.place .producer : Producer ℤ) with
  | returned m rest =>
    rw [hplace] at hcall
    cases hcall
    have hrefines := pool_refines (sample_reachable hs) hplace
    exact ⟨hrefines, hrefines.mem sample_separate⟩
  | _ => simp [hplace] at hret

end OsWorkbench.Gpt
