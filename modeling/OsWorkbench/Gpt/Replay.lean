import OsWorkbench.Gpt.Forward
import OsWorkbench.Gpt.Refinement

namespace OsWorkbench.Gpt

open Library

variable {n : ℕ} {V : Type} {value : Value V} {cmds : List (Command V)} {mem₀ : ℕ → V}
  {sh sh' : Shared n V} {p p' : Producer V} {m : MatmulArgs}
  {s s₀ : Monitor.State (Thread n) (Shared n V) (Place V)}

/-- The commands that have not returned. -/
def Producer.rest : Producer V → List (Command V)
  | .idle cmds => cmds
  | .entry m cmds => .matmulForward m :: cmds
  | .next m _ cmds => .matmulForward m :: cmds
  | .increment m _ _ cmds => .matmulForward m :: cmds
  | .testFull m _ _ cmds => .matmulForward m :: cmds
  | .push m _ _ cmds => .matmulForward m :: cmds
  | .unlock m _ cmds => .matmulForward m :: cmds
  | .testRemaining m cmds => .matmulForward m :: cmds
  | .unlockEnd m cmds => .matmulForward m :: cmds
  | .returned m cmds => .matmulForward m :: cmds
  | .setFinished => []
  | .unlockFinished => []
  | .join => []
  | .exited => []

/-- The memory before the first command that has not returned. -/
def boundary (p : Producer V) (sh : Shared n V) : ℕ → V :=
  if p.call.isSome then sh.entryMem else sh.mem

theorem Producer.quiet_of_call (h : p.call = none) : p.Quiet := by
  cases p <;> simp_all [Producer.call, Producer.Quiet]

theorem producer_boundary (h : (producerAct p sh).next sh = some (sh', p')) :
    (p'.rest = p.rest ∧ boundary p' sh' = boundary p sh) ∨
    (∃ f, p.rest = .user f :: p'.rest ∧ boundary p' sh' = f (boundary p sh)) ∨
    ∃ m, p = .returned m p'.rest ∧ boundary p' sh' = sh.mem := by
  unfold producerAct at h
  split at h <;> try split_ifs at h
  all_goals
    simp only [Act.next, Option.some.injEq, Prod.mk.injEq, reduceCtorEq] at h
  all_goals
    obtain ⟨rfl, rfl⟩ := h
    simp_all [Producer.rest, Producer.call, boundary]

theorem worker_boundary {w : Fin n} {q q' : Worker} {p : Producer V}
    (hquiet : p.call = none → q.inFlight = 0)
    (h : (workerAct value w q sh).next sh = some (sh', q')) : boundary p sh' = boundary p sh := by
  obtain ⟨-, hentry, -⟩ := worker_tasks h
  rcases worker_done h with ⟨args, o, rfl, -, -, -, -⟩ | ⟨hmem, -, -⟩
  · cases hcall : p.call with
    | none => exact absurd (hquiet hcall) (by simp [Worker.inFlight])
    | some m => simp only [boundary, hcall, Option.isSome_some, if_true, hentry]
  · rw [boundary, boundary, hentry, hmem]

/-- Whatever the workers do, the commands that have returned have done what they do
without them. -/
def Replayed (value : Value V) (cmds : List (Command V)) (mem₀ : ℕ → V) (p : Producer V)
    (sh : Shared n V) : Prop :=
  ∃ done, cmds = done ++ p.rest ∧ boundary p sh = runCommands value done mem₀

theorem Replayed.step (hsep : ∀ m, .matmulForward m ∈ cmds → m.Separate)
    (hr : (pool n value cmds).system.Reachable s)
    (hi : Replayed value cmds mem₀ (s.place .producer) s.shared) {t : Thread n} {p : Place V t}
    {sh : Shared n V}
    (hnext : ((pool n value cmds).act t (s.place t) s.shared).next s.shared = some (sh, p)) :
    Replayed value cmds mem₀ (Function.update s.place t p .producer) sh := by
  obtain ⟨done, hcmds, hmem⟩ := hi
  cases t with
  | producer =>
    rw [Function.update_self]
    rcases producer_boundary hnext with ⟨hrest, hsame⟩ | ⟨f, hrest, hf⟩ | ⟨m, hret, hsame⟩
    · exact ⟨done, by rw [hrest, hcmds], by rw [hsame, hmem]⟩
    · refine ⟨done ++ [.user f], ?_, ?_⟩
      · rw [hcmds, hrest, List.append_assoc, List.singleton_append]
      · rw [hf, hmem, runCommands_append]
        rfl
    · refine ⟨done ++ [.matmulForward m], ?_, ?_⟩
      · rw [hcmds, hret, List.append_assoc, List.singleton_append]
        rfl
      · have hm : .matmulForward m ∈ cmds := by
          rw [hcmds, hret]
          exact List.mem_append_right _ List.mem_cons_self
        have hentry : s.shared.entryMem = boundary (s.place .producer) s.shared := by
          rw [hret]
          rfl
        rw [hsame, returned_mem hr hret (hsep m hm), hentry, hmem, runCommands_append]
        rfl
  | worker w =>
    rw [Function.update_of_ne (by simp)]
    refine ⟨done, hcmds, ?_⟩
    rw [worker_boundary _ hnext, hmem]
    intro hcall
    exact (reachable_quiet hr (Producer.quiet_of_call hcall)).2 w

theorem reachable_replayed (hsep : ∀ m, .matmulForward m ∈ cmds → m.Separate)
    (h₀ : (pool n value cmds).system.init s₀)
    (h : ((pool n value cmds).system.startingAt s₀).Reachable s) :
    Replayed value cmds s₀.shared.mem (s.place .producer) s.shared := by
  induction h with
  | init hi =>
    obtain ⟨-, -, hplace, -⟩ := h₀
    cases hi
    rw [hplace]
    exact ⟨[], rfl, rfl⟩
  | step hr hs ih =>
    have hreach := System.Reachable.of_startingAt h₀ hr
    rcases hs with ⟨t, hs⟩ | ⟨t, -, rfl⟩
    · rcases hs.next with ⟨hplace, hshared⟩ | ⟨-, p, hnext, hplace⟩
      · rw [hplace, hshared]
        exact ih
      · rw [hplace]
        exact ih.step hsep hreach hnext
    · exact ih

theorem exited_mem (hsep : ∀ m, .matmulForward m ∈ cmds → m.Separate)
    (h₀ : (pool n value cmds).system.init s₀)
    (h : ((pool n value cmds).system.startingAt s₀).Reachable s)
    (hexit : s.place .producer = Producer.exited) :
    s.shared.mem = runCommands value cmds s₀.shared.mem := by
  obtain ⟨done, hcmds, hmem⟩ := reachable_replayed hsep h₀ h
  rw [hexit] at hcmds hmem
  rw [hcmds, Producer.rest, List.append_nil]
  exact hmem

/-- Between two commands, and when the program has ended, the memory is that of the sequential
program. -/
theorem pool_replays (hsep : ∀ m, .matmulForward m ∈ cmds → m.Separate)
    (h₀ : (pool n value cmds).system.init s₀)
    (h : ((pool n value cmds).system.startingAt s₀).Reachable s) :
    (∀ rest, s.place .producer = Producer.idle rest →
      ∃ done, cmds = done ++ rest ∧ s.shared.mem = runCommands value done s₀.shared.mem) ∧
    (s.place .producer = Producer.exited → s.shared.mem = runCommands value cmds s₀.shared.mem) := by
  refine ⟨?_, exited_mem hsep h₀ h⟩
  intro rest hrest
  obtain ⟨done, hcmds, hmem⟩ := reachable_replayed hsep h₀ h
  rw [hrest] at hcmds hmem
  exact ⟨done, hcmds, hmem⟩

def Producer.atRest : Producer V → Bool
  | .idle rest => rest.isEmpty
  | _ => false

/-- The call of the sample has returned. -/
theorem sample_replays : ∃ s : Monitor.State (Thread 2) (Shared 2 ℤ) (Place ℤ),
    s.place .producer = Producer.idle [] ∧ ∃ done, [.matmulForward sampleCall] = done ++ [] ∧
      s.shared.mem = runCommands dot done sampleStart.shared.mem := by
  have hrun : (sampleRun (sampleSchedule ++ [.producer])).any
      (fun s ↦ (s.place .producer : Producer ℤ).atRest) = true := by
    decide +kernel
  obtain ⟨s, hs, hp⟩ := (Option.any_eq_true _ _).mp hrun
  have h₀ : (pool 2 dot [.matmulForward sampleCall]).system.init sampleStart :=
    ⟨rfl, fun _ ↦ rfl, rfl, ⟨rfl, rfl, rfl, rfl, rfl, fun _ ↦ rfl, rfl, rfl⟩⟩
  have hreach : ((pool 2 dot [.matmulForward sampleCall]).system.startingAt sampleStart).Reachable s :=
    .run (fun _ t _ hs ↦ Or.inl ⟨t, Monitor.exec_step hs⟩) (.init rfl) hs
  have hsep : ∀ m, .matmulForward m ∈ [Command.matmulForward (V := ℤ) sampleCall] → m.Separate := by
    intro m hm
    cases List.mem_singleton.mp hm
    exact sample_separate
  cases hplace : (s.place .producer : Producer ℤ) with
  | idle rest =>
    rw [hplace] at hp
    obtain rfl := List.isEmpty_iff.mp hp
    exact ⟨s, hplace, (pool_replays hsep h₀ hreach).1 [] hplace⟩
  | _ => simp [hplace, Producer.atRest] at hp

end OsWorkbench.Gpt
