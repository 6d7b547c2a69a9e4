import OsWorkbench.Libco.TestProgram
import OsWorkbench.Library.Tally

namespace OsWorkbench.Libco

open Library CircularList

/-- How many items a coroutine has tried to make. -/
def TestConfig.done (c : TestConfig) : TestFn → Option (Thread TestFn Addr Place) → ℕ
  | .consumer, _ => 0
  | .producer, some (.fresh _ _) => 0
  | .producer, some (.begun (.user (.producer _ i))) => i
  | .producer, _ => c.items

/-- Where a coroutine with the given function can be, until it has been waited for. -/
inductive Works (c : TestConfig) (queue : Addr) :
    TestFn → Option (Thread TestFn Addr Place) → Prop
  | fresh (fn : TestFn) : Works c queue fn (some (.fresh fn queue))
  | producing {i : ℕ} (hi : i ≤ c.items) :
      Works c queue .producer (some (.begun (.user (.producer queue i))))
  | consuming : Works c queue .consumer (some (.begun (.user (.consumer queue))))
  | finished (fn : TestFn) : Works c queue fn (some (.begun .finished))
  | joined (fn : TestFn) : Works c queue fn none

/-- The queue and the coroutines that `test_2` has started, of which it has waited for the first
`joined`. -/
structure Team (c : TestConfig) (start : ℤ) (queue : Addr) (workers : List (Addr × TestFn))
    (joined : ℕ) (mainCo : Addr) (thread : Addr → Option (Thread TestFn Addr Place))
    (m : TestMem) : Prop where
  queued : ∃ nodes texts, Queued start queue m nodes texts
  cap : m.cap = c.cap
  fault : m.fault = none
  nodup : (workers.map Prod.fst).Nodup
  main : mainCo ∉ workers.map Prod.fst
  functions : workers.map Prod.snd = c.functions.take workers.length
  works : ∀ w ∈ workers, Works c queue w.2 (thread w.1)
  joined : ∀ w ∈ workers, thread w.1 = none ↔ w.1 ∈ (workers.map Prod.fst).take joined
  only : ∀ a, thread a ≠ none → a = mainCo ∨ a ∈ workers.map Prod.fst
  done : (workers.map fun w ↦ c.done w.2 (thread w.1)).sum = m.produced.length + m.failed

variable {c : TestConfig} {start : ℤ} {queue a mainCo : Addr} {workers : List (Addr × TestFn)}
  {joined : ℕ} {thread : Addr → Option (Thread TestFn Addr Place)} {m m' : TestMem} {fn : TestFn}
  {x : Thread TestFn Addr Place}

theorem Works.queue_eq (h : Works c queue fn (some x)) {q : Addr} (hq : x.queue = some q) :
    q = queue := by
  cases h with
  | fresh fn => exact (Option.some.inj hq).symm
  | producing hi => exact (Option.some.inj hq).symm
  | consuming => exact (Option.some.inj hq).symm
  | finished fn => cases hq

namespace Team

theorem ne_main (h : Team c start queue workers joined mainCo thread m) {w : Addr × TestFn}
    (hw : w ∈ workers) : w.1 ≠ mainCo :=
  fun he ↦ h.main (he ▸ List.mem_map_of_mem (f := Prod.fst) hw)

theorem eq_of_mem (h : Team c start queue workers joined mainCo thread m)
    {w w' : Addr × TestFn} (hw : w ∈ workers) (hw' : w' ∈ workers) (he : w.1 = w'.1) : w = w' :=
  List.inj_on_of_nodup_map h.nodup hw hw' he

theorem updateMain (h : Team c start queue workers joined mainCo thread m)
    (y : Thread TestFn Addr Place) (running : Bool) :
    Team c start queue workers joined mainCo (Function.update thread mainCo (some y))
      { m with gRunning := running } := by
  have hthread : ∀ w ∈ workers, Function.update thread mainCo (some y) w.1 = thread w.1 :=
    fun w hw ↦ Function.update_of_ne (h.ne_main hw) ..
  obtain ⟨nodes, texts, hq⟩ := h.queued
  refine ⟨⟨nodes, texts, hq.withRest running m.fault⟩, h.cap, h.fault, h.nodup, h.main,
    h.functions, fun w hw ↦ ?_, fun w hw ↦ ?_, fun a ha ↦ ?_, ?_⟩
  · rw [hthread w hw]
    exact h.works w hw
  · rw [hthread w hw]
    exact h.joined w hw
  · by_cases he : a = mainCo
    · exact Or.inl he
    · rw [Function.update_of_ne he] at ha
      exact h.only a ha
  · rw [List.map_congr_left fun w hw ↦ by rw [hthread w hw]]
    exact h.done

theorem updateWorker (h : Team c start queue workers joined mainCo thread m)
    (hm : (a, fn) ∈ workers) (halive : thread a ≠ none) (hx : Works c queue fn (some x))
    (hqueued : ∃ nodes texts, Queued start queue m' nodes texts) (hrest : m'.rest = m.rest)
    (hcount : m'.produced.length + m'.failed + c.done fn (thread a) =
      m.produced.length + m.failed + c.done fn (some x)) :
    Team c start queue workers joined mainCo (Function.update thread a (some x)) m' := by
  refine ⟨hqueued, (congrArg Prod.fst hrest).trans h.cap,
    (congrArg (fun r ↦ r.2.2) hrest).trans h.fault, h.nodup, h.main, h.functions,
    fun w hw ↦ ?_, fun w hw ↦ ?_, fun b hb ↦ ?_, ?_⟩
  · by_cases he : w.1 = a
    · obtain rfl := h.eq_of_mem hw hm he
      rwa [Function.update_self]
    · rw [Function.update_of_ne he]
      exact h.works w hw
  · rw [← h.joined w hw]
    by_cases he : w.1 = a
    · rw [he, Function.update_self]
      simp [halive]
    · rw [Function.update_of_ne he]
  · by_cases he : b = a
    · exact Or.inr (he ▸ List.mem_map_of_mem (f := Prod.fst) hm)
    · rw [Function.update_of_ne he] at hb
      exact h.only b hb
  · have hsum := Tally.sum_rows_update h.nodup hm c.done thread (some x)
    have hdone := h.done
    omega

theorem addWorker (h : Team c start queue workers 0 mainCo thread m)
    (hfn : c.functions[workers.length]? = some fn) (hfresh : thread a = none)
    (hmain : a ≠ mainCo) :
    Team c start queue (workers ++ [(a, fn)]) 0 mainCo
      (Function.update thread a (some (.fresh fn queue))) m := by
  have hnew : ∀ w ∈ workers, w.1 ≠ a := by
    intro w hw he
    have hjoined := (h.joined w hw).mp (he ▸ hfresh)
    rw [List.take_zero] at hjoined
    cases hjoined
  have hthread : ∀ w ∈ workers,
      Function.update thread a (some (.fresh fn queue)) w.1 = thread w.1 :=
    fun w hw ↦ Function.update_of_ne (hnew w hw) ..
  refine ⟨h.queued, h.cap, h.fault, ?_, ?_, ?_, fun w hw ↦ ?_, fun w hw ↦ ?_, fun b hb ↦ ?_, ?_⟩
  · rw [List.map_append, List.map_singleton, List.nodup_append]
    refine ⟨h.nodup, List.nodup_singleton _, fun b hb b' hb' he ↦ ?_⟩
    obtain ⟨w, hw, rfl⟩ := List.mem_map.mp hb
    exact hnew w hw (he.trans (List.mem_singleton.mp hb'))
  · rw [List.map_append, List.mem_append, not_or]
    exact ⟨h.main, fun hm ↦ hmain (List.mem_singleton.mp hm).symm⟩
  · rw [List.map_append, h.functions, List.length_append, List.length_singleton, List.take_add_one,
      hfn]
    rfl
  · rcases List.mem_append.mp hw with hw | hw
    · rw [hthread w hw]
      exact h.works w hw
    · obtain rfl := List.mem_singleton.mp hw
      rw [Function.update_self]
      exact .fresh fn
  · rw [List.take_zero]
    rcases List.mem_append.mp hw with hw | hw
    · rw [hthread w hw]
      exact h.joined w hw
    · obtain rfl := List.mem_singleton.mp hw
      rw [Function.update_self]
      simp
  · rw [List.map_append, List.mem_append]
    by_cases he : b = a
    · exact Or.inr (Or.inr (List.mem_singleton.mpr he))
    · rw [Function.update_of_ne he] at hb
      exact (h.only b hb).imp_right Or.inl
  · rw [List.map_append, List.sum_append, List.map_congr_left fun w hw ↦ by rw [hthread w hw],
      h.done]
    have hnone : c.done fn (some (.fresh fn queue)) = 0 := by cases fn <;> rfl
    simp [hnone]

/-- `co_wait` returns: the coroutine had finished and is freed. -/
theorem join (h : Team c start queue workers joined mainCo thread m)
    (hco : (workers.map Prod.fst)[joined]? = some a)
    (hfinished : thread a = some (.begun .finished)) :
    Team c start queue workers (joined + 1) mainCo (Function.update thread a none) m := by
  obtain ⟨⟨b, fn⟩, hm, hb⟩ := List.mem_map.mp (List.mem_of_getElem? hco)
  obtain rfl : a = b := hb.symm
  refine ⟨h.queued, h.cap, h.fault, h.nodup, h.main, h.functions, fun w hw ↦ ?_, fun w hw ↦ ?_,
    fun b hb ↦ ?_, ?_⟩
  · by_cases he : w.1 = a
    · rw [he, Function.update_self]
      exact .joined _
    · rw [Function.update_of_ne he]
      exact h.works w hw
  · rw [List.take_add_one, hco, List.mem_append]
    by_cases he : w.1 = a
    · rw [he, Function.update_self]
      simp
    · rw [Function.update_of_ne he, h.joined w hw]
      simp [he]
  · by_cases he : b = a
    · exact Or.inr (he ▸ List.mem_map_of_mem (f := Prod.fst) hm)
    · rw [Function.update_of_ne he] at hb
      exact h.only b hb
  · have hsum := Tally.sum_rows_update h.nodup hm c.done thread none
    have hdone := h.done
    have hsame : c.done fn (thread a) = c.done fn none := by
      rw [hfinished]
      cases fn <;> rfl
    omega

end Team

end OsWorkbench.Libco
