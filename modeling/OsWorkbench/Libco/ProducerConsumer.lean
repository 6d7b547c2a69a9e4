import OsWorkbench.Libco.TestTeam

namespace OsWorkbench.Libco

open Library CircularList

abbrev TestThreads : Type := Threads TestFn Addr Place TestMem

/-- Where `main` is when it has started `thds`, has called `co_wait` for the first `waited` of
them and has returned from it for the first `joined`. -/
inductive MainAt (c : TestConfig) (queue : Addr) (thds : List Addr) :
    ℕ → ℕ → Thread TestFn Addr Place → Prop
  | starting : MainAt c queue thds 0 0 (.begun (.user (.starting queue thds)))
  | waiting {i : ℕ} (hall : c.functions.length ≤ thds.length) :
      MainAt c queue thds i i (.begun (.user (.waiting queue thds i)))
  | inWait {i : ℕ} {co : Addr} (hall : c.functions.length ≤ thds.length)
      (hco : thds[i]? = some co) :
      MainAt c queue thds i (i + 1) (.begun (.waiting co (.waiting queue thds (i + 1))))

/-- The process has not failed an assertion or followed an invalid pointer, no item was dropped,
and the queue that a coroutine goes on with has `sz` items in its list. -/
structure Sound (c : TestConfig) (t : TestThreads) : Prop where
  fault : ∀ e, t.mem.fault = some e → e = .exitFailure ∨ e = .intOverflow ∨ e = .bufferOverflow
  dropped : t.mem.dropped = 0
  queue : ∀ a x queue, t.thread a = some x → x.queue = some queue →
    ∃ nodes, Ring t.mem.links queue nodes ∧ t.mem.sz = nodes.length ∧ t.mem.sz ≤ c.cap

/-- What has been printed when `test_2` has returned. -/
structure Delivered (c : TestConfig) (start : ℤ) (m : TestMem) : Prop where
  printed : m.printed = m.produced
  numbered : m.produced = (List.range m.produced.length).map fun j : ℕ ↦ itemText (start + j)
  count : m.produced.length + m.failed = c.producers * c.items

inductive Phase (c : TestConfig) (start : ℤ) (t : TestThreads) : Prop
  | new (hthread : t.thread =
      Function.update (fun _ ↦ none) t.mainCo (some (.begun (.user .test2))))
      (hmem : t.mem = .initial start)
  | running {queue : Addr} {workers : List (Addr × TestFn)} {joined waited : ℕ}
      {x : Thread TestFn Addr Place} (hteam : Team c start queue workers joined t.mainCo t.thread t.mem)
      (hmain : t.thread t.mainCo = some x)
      (hat : MainAt c queue (workers.map Prod.fst) joined waited x)
      (hunwaited : ∀ a ∈ (workers.map Prod.fst).drop waited, a ∉ t.waitedOn)
  | failed (hsound : Sound c t) (hfault : t.mem.fault ≠ none)
  | ended (hsound : Sound c t) (hmain : ∀ a, t.thread a = none ∨ t.thread a = some .exited)
      (hdelivered : Delivered c start t.mem)

variable {c : TestConfig} {start : ℤ} {queue a mainCo : Addr} {workers : List (Addr × TestFn)}
  {joined waited : ℕ} {thread : Addr → Option (Thread TestFn Addr Place)} {m m' : TestMem}
  {t t' : TestThreads} {fn : TestFn} {x : Thread TestFn Addr Place}

theorem MainAt.queue_eq {thds : List Addr} (h : MainAt c queue thds joined waited x) :
    x.queue = some queue := by
  cases h with
  | starting => rfl
  | waiting hall => rfl
  | inWait hall hco => rfl

structure GoesOn (c : TestConfig) (start : ℤ) (queue : Addr) (workers : List (Addr × TestFn))
    (joined : ℕ) (t t' : TestThreads) : Prop where
  team : Team c start queue workers joined t'.mainCo t'.thread t'.mem
  main : t'.thread t'.mainCo = t.thread t.mainCo
  waitedOn : t'.waitedOn = t.waitedOn

/-- The process ends with a fault. -/
def Stops (c : TestConfig) (t' : TestThreads) : Prop := Sound c t' ∧ t'.mem.fault ≠ none

theorem Sound.stop (h : Sound c t) {e : TestFault}
    (he : e = .exitFailure ∨ e = .intOverflow ∨ e = .bufferOverflow)
    (hs : t.Called a (TestConfig.stop t.mem e) t') : Stops c t' := by
  rw [TestConfig.stop] at hs
  cases hs
  refine ⟨⟨?_, h.dropped, fun b y q hb hq ↦ ?_⟩, nofun⟩
  · rintro e' he'
    obtain rfl := Option.some.inj he'
    exact he
  · simp only [Function.update_apply] at hb
    split_ifs at hb
    · obtain rfl := Option.some.inj hb
      cases hq
    · obtain rfl := Option.some.inj hb
      cases hq
    · exact h.queue b y q hb hq

namespace Team

section Worker

variable (h : Team c start queue workers joined t.mainCo t.thread t.mem) (hsound : Sound c t)
include h

theorem goesOn (hm : (a, fn) ∈ workers) (halive : t.thread a ≠ none)
    (hx : Works c queue fn (some x)) (hqueued : ∃ nodes texts, Queued start queue m' nodes texts)
    (hrest : m'.rest = t.mem.rest)
    (hcount : m'.produced.length + m'.failed + c.done fn (t.thread a) =
      t.mem.produced.length + t.mem.failed + c.done fn (some x)) :
    GoesOn c start queue workers joined t { t with
      thread := Function.update t.thread a (some x), mem := m' } :=
  ⟨h.updateWorker hm halive hx hqueued hrest hcount,
    Function.update_of_ne (h.ne_main hm).symm .., rfl⟩

theorem ret (hm : (a, fn) ∈ workers) {k : Place} (hat : t.thread a = some (.begun (.user k)))
    (hdone : c.done fn (t.thread a) = c.done fn (some (.begun .finished)))
    (hs : t.Called a (t.mem, .ret) t') : GoesOn c start queue workers joined t t' := by
  cases hs
  rw [if_neg (h.ne_main hm)]
  exact h.goesOn hm (by simp [hat]) (.finished fn) h.queued rfl (by rw [hdone])

theorem consumer_called (hm : (a, .consumer) ∈ workers)
    (hat : t.thread a = some (.begun (.user (.consumer queue))))
    (hs : t.Called a (TestConfig.consumer queue t.mem) t') :
    GoesOn c start queue workers joined t t' := by
  have halive : t.thread a ≠ none := by simp [hat]
  obtain ⟨nodes, texts, hq⟩ := h.queued
  rw [TestConfig.consumer, hq.qIsEmpty_eq] at hs
  split_ifs at hs with hrunning
  · by_cases hnil : nodes = []
    · simp only [hnil, decide_true] at hs
      cases hs
      exact h.goesOn hm halive .consuming h.queued rfl rfl
    · obtain ⟨m', nodes', texts', hok, hq', -, hrest, hproduced, hfailed⟩ := hq.doConsume_spec hnil
      simp only [hnil, decide_false, hok] at hs
      cases hs
      refine h.goesOn hm halive .consuming ⟨nodes', texts', hq'⟩ hrest ?_
      rw [hproduced, hfailed]
      rfl
  · exact h.ret hm hat rfl hs

include hsound

theorem producer_called {i : ℕ} (hm : (a, .producer) ∈ workers) (hi : i ≤ c.items)
    (hat : t.thread a = some (.begun (.user (.producer queue i))))
    (hs : t.Called a (c.producer queue i t.mem) t') :
    GoesOn c start queue workers joined t t' ∨ Stops c t' := by
  have halive : t.thread a ≠ none := by simp [hat]
  obtain ⟨nodes, texts, hq⟩ := h.queued
  rw [TestConfig.producer] at hs
  split_ifs at hs with hlt hfull
  · cases hs
    exact Or.inl (h.goesOn hm halive (.producing hi) h.queued rfl (by rw [hat]))
  · rcases hq.doProduce_spec (a := c.alloc) hfull with
      ⟨m', nodes', texts', hok, hq', hrest, hcount⟩ | ⟨e, herror, he⟩
    · rw [hok] at hs
      cases hs
      refine Or.inl (h.goesOn hm halive (.producing hlt) ⟨nodes', texts', hq'⟩ hrest ?_)
      rw [hat]
      simp only [TestConfig.done]
      omega
    · rw [herror] at hs
      exact Or.inr (hsound.stop (Or.inr he) hs)
  · refine Or.inl (h.ret hm hat ?_ hs)
    rw [hat]
    exact Nat.le_antisymm hi (Nat.le_of_not_lt hlt)

theorem worker_called (hm : (a, fn) ∈ workers) {k : Place}
    (hat : t.thread a = some (.begun (.user k)))
    (hs : t.Called a (c.program.call t.mem k) t') :
    GoesOn c start queue workers joined t t' ∨ Stops c t' := by
  have hworks := h.works _ hm
  rw [show t.thread (a, fn).1 = some (.begun (.user k)) from hat] at hworks
  cases hworks with
  | producing hi => exact h.producer_called hsound hm hi hat hs
  | consuming => exact Or.inl (h.consumer_called hm hat hs)

omit hsound in
theorem worker_enter (hm : (a, fn) ∈ workers) {func : TestFn} {arg : Addr}
    (hat : t.thread a = some (.fresh func arg)) :
    GoesOn c start queue workers joined t { t with
      thread := Function.update t.thread a (some (.begun (.user (c.program.enter func arg)))) } := by
  have hworks := h.works _ hm
  rw [show t.thread (a, fn).1 = some (.fresh func arg) from hat] at hworks
  have halive : t.thread a ≠ none := by simp [hat]
  cases hworks
  cases fn with
  | producer => exact h.goesOn hm halive (.producing (Nat.zero_le _)) h.queued rfl (by rw [hat]; rfl)
  | consumer => exact h.goesOn hm halive .consuming h.queued rfl rfl

end Worker

section Main

theorem others_none (h : Team c start queue workers joined mainCo thread m)
    (hjoined : workers.length ≤ joined) (ha : a ≠ mainCo) : thread a = none := by
  by_contra hne
  obtain ⟨w, hw, rfl⟩ := List.mem_map.mp ((h.only a hne).resolve_left ha)
  refine hne ((h.joined w hw).mpr ?_)
  rw [List.take_of_length_le (by rwa [List.length_map])]
  exact List.mem_map_of_mem (f := Prod.fst) hw

theorem count (h : Team c start queue workers joined mainCo thread m)
    (hall : c.functions.length ≤ workers.length) (hjoined : workers.length ≤ joined) :
    m.produced.length + m.failed = c.producers * c.items := by
  have hnone : ∀ w ∈ workers, thread w.1 = none := fun w hw ↦ h.others_none hjoined (h.ne_main hw)
  have hfunctions : workers.map Prod.snd = c.functions := by
    rw [h.functions, List.take_of_length_le hall]
  rw [← h.done, List.map_congr_left fun w hw ↦ by rw [hnone w hw]]
  have hsum : (workers.map fun w ↦ c.done w.2 none) =
      (workers.map Prod.snd).map fun fn ↦ c.done fn none := by rw [List.map_map]; rfl
  rw [hsum, hfunctions, TestConfig.functions]
  simp [TestConfig.done]

theorem finish_called (h : Team c start queue workers joined t.mainCo t.thread t.mem)
    (hall : c.functions.length ≤ workers.length) (hjoined : workers.length ≤ joined)
    (hs : t.Called t.mainCo (TestConfig.finish queue t.mem) t') : Phase c start t' := by
  obtain ⟨nodes, texts, hq⟩ := h.queued
  have hfuel : nodes.length < t.mem.sz.toNat + 1 := by
    rw [hq.size]
    omega
  obtain ⟨m, hdrain, hq', hrest, hproduced, hfailed⟩ := hq.drain_spec hfuel
  have hprinted := hq'.fifo
  rw [List.append_nil] at hprinted
  have hfault : m.fault = none := (congrArg (fun r ↦ r.2.2) hrest).trans h.fault
  rw [TestConfig.finish, hdrain] at hs
  simp only [hq'.qFree_spec] at hs
  cases hs
  rw [if_pos rfl]
  have hthread : ∀ a, Function.update t.thread t.mainCo (some .exited) a = none ∨
      Function.update t.thread t.mainCo (some .exited) a = some .exited := by
    intro a
    by_cases ha : a = t.mainCo
    · exact Or.inr (ha ▸ Function.update_self ..)
    · exact Or.inl ((Function.update_of_ne ha ..).trans (h.others_none hjoined ha))
  refine .ended ⟨fun e he ↦ ?_, hq'.dropped, fun a x q hx hxq ↦ ?_⟩ hthread
    ⟨hprinted, hq'.numbered, ?_⟩
  · rw [show (m.free queue).fault = none from hfault] at he
    cases he
  · rcases hthread a with hnone | hexited
    · cases hnone.symm.trans hx
    · obtain rfl := Option.some.inj (hexited.symm.trans hx)
      cases hxq
  · have hcount := h.count hall hjoined
    rwa [← hproduced, ← hfailed] at hcount

theorem waitNext_called (h : Team c start queue workers joined t.mainCo t.thread t.mem)
    (hall : c.functions.length ≤ workers.length)
    (hunwaited : ∀ a ∈ (workers.map Prod.fst).drop joined, a ∉ t.waitedOn)
    (hs : t.Called t.mainCo (c.waitNext queue (workers.map Prod.fst) joined t.mem) t') :
    Phase c start t' := by
  have hset : ∃ running, (if joined = c.producers then { t.mem with gRunning := false } else t.mem) =
      { t.mem with gRunning := running } := by
    split_ifs
    · exact ⟨false, rfl⟩
    · exact ⟨t.mem.gRunning, rfl⟩
  obtain ⟨running, hset⟩ := hset
  rw [TestConfig.waitNext, hset] at hs
  have hlength : c.functions.length ≤ (workers.map Prod.fst).length := by rwa [List.length_map]
  cases hco : (workers.map Prod.fst)[joined]? with
  | some co =>
    simp only [hco] at hs
    cases hs
    refine .running (h.updateMain _ running) (Function.update_self ..) (.inWait hlength hco)
      fun a ha hm ↦ ?_
    have hdrop : (workers.map Prod.fst).drop joined =
        co :: (workers.map Prod.fst).drop (joined + 1) := by
      rw [List.drop_eq_getElem?_toList_append, hco]
      rfl
    have hnodup := h.nodup.sublist (List.drop_sublist joined _)
    rw [hdrop, List.nodup_cons] at hnodup
    rcases List.mem_cons.mp hm with rfl | hm
    · exact hnodup.1 ha
    · exact hunwaited a (hdrop ▸ List.mem_cons_of_mem _ ha) hm
  | none =>
    simp only [hco] at hs
    have hjoined : workers.length ≤ joined := by simpa using hco
    have hfinish : { t with mem := { t.mem with gRunning := running } }.Called t.mainCo
        (TestConfig.finish queue { t.mem with gRunning := running }) t' := hs.of_mem
    refine finish_called (t := { t with mem := { t.mem with gRunning := running } })
      ?_ hall hjoined hfinish
    obtain ⟨nodes, texts, hq⟩ := h.queued
    exact { h with queued := ⟨nodes, texts, hq.withRest running t.mem.fault⟩ }

theorem startNext_called (h : Team c start queue workers 0 t.mainCo t.thread t.mem)
    (hmain : t.thread t.mainCo ≠ none)
    (hunwaited : ∀ a ∈ workers.map Prod.fst, a ∉ t.waitedOn)
    (hs : t.Called t.mainCo (c.startNext queue (workers.map Prod.fst) t.mem) t') :
    Phase c start t' := by
  rw [TestConfig.startNext, List.length_map] at hs
  cases hfn : c.functions[workers.length]? with
  | some fn =>
    simp only [hfn] at hs
    cases hs with
    | @start _ _ _ _ b hnull hfresh =>
      have hne : b ≠ t.mainCo := by
        rintro rfl
        exact hmain hfresh
      have hteam := (h.updateMain (.begun (.user (.starting queue (workers.map Prod.fst ++ [b]))))
        t.mem.gRunning).addWorker hfn (by rwa [Function.update_of_ne hne]) hne
      have happend : workers.map Prod.fst ++ [b] = (workers ++ [(b, fn)]).map Prod.fst := by
        rw [List.map_append, List.map_singleton]
      have hat : MainAt c queue ((workers ++ [(b, fn)]).map Prod.fst) 0 0
          (.begun (.user (.starting queue (workers.map Prod.fst ++ [b])))) := by
        rw [happend]
        exact .starting
      refine .running hteam ((Function.update_of_ne hne.symm ..).trans (Function.update_self ..))
        hat fun a ha hm ↦ ?_
      obtain ⟨hm, hab⟩ := List.mem_filter.mp hm
      rw [List.drop_zero, ← happend, List.mem_append] at ha
      rcases ha with ha | ha
      · exact hunwaited a ha hm
      · exact of_decide_eq_true hab (List.mem_singleton.mp ha)
  | none =>
    simp only [hfn] at hs
    exact h.waitNext_called (by simpa using hfn) (by simpa using hunwaited) hs

end Main

/-- Every coroutine goes on with the queue of `test_2`. -/
theorem sound (h : Team c start queue workers joined t.mainCo t.thread t.mem)
    (hmain : t.thread t.mainCo = some x)
    (hat : MainAt c queue (workers.map Prod.fst) joined waited x) : Sound c t := by
  obtain ⟨nodes, texts, hq⟩ := h.queued
  refine ⟨fun e he ↦ ?_, hq.dropped, fun a y q hy hyq ↦ ?_⟩
  · rw [h.fault] at he
    cases he
  · have hqueue : q = queue := by
      rcases h.only a (by simp [hy]) with rfl | hm
      · obtain rfl := Option.some.inj (hy.symm.trans hmain)
        exact Option.some.inj (hyq.symm.trans hat.queue_eq)
      · obtain ⟨w, hw, rfl⟩ := List.mem_map.mp hm
        exact (hy ▸ h.works w hw : Works c queue w.2 (some y)).queue_eq hyq
    subst hqueue
    exact ⟨nodes, hq.ring, hq.size, h.cap ▸ hq.bound⟩

end Team

theorem Phase.sound (h : Phase c start t) : Sound c t := by
  cases h with
  | new hthread hmem =>
    refine ⟨fun e he ↦ ?_, by rw [hmem]; rfl, fun a x q hx hq ↦ ?_⟩
    · rw [hmem] at he
      cases he
    · rw [hthread, Function.update_apply] at hx
      split_ifs at hx
      obtain rfl := Option.some.inj hx
      cases hq
  | running hteam hmain hat hunwaited => exact hteam.sound hmain hat
  | failed hsound hfault => exact hsound
  | ended hsound hmain hdelivered => exact hsound

theorem team_nil {mainCo : Addr} {y : Thread TestFn Addr Place}
    (hq : (TestMem.initial start).qNew c.alloc c.cap = .ok (queue, m)) :
    Team c start queue [] 0 mainCo (Function.update (fun _ ↦ none) mainCo (some y)) m := by
  rw [TestMem.qNew] at hq
  split_ifs at hq with hnull
  obtain ⟨rfl, rfl⟩ := Prod.mk.inj (Except.ok.inj hq)
  refine ⟨⟨[], [], ?_, fun a ↦ ?_, ?_, rfl, ?_, rfl, rfl, rfl, ?_, rfl⟩, rfl, rfl, List.nodup_nil,
    List.not_mem_nil, rfl, nofun, nofun, fun a ha ↦ ?_, rfl⟩
  · exact Ring.init (Function.update_self ..)
  · simp [TestMem.initial, Function.update_apply]
  · simpa using Ne.symm hnull
  · have hcap := c.cap_pos
    change (0 : ℤ) ≤ c.cap
    omega
  · simp [TestMem.requested, TestMem.initial]
  · refine Or.inl ?_
    by_contra hne
    exact ha (Function.update_of_ne hne ..)

theorem Phase.new_called (hthread : t.thread =
      Function.update (fun _ ↦ none) t.mainCo (some (.begun (.user .test2))))
    (hmem : t.mem = .initial start) (hs : t.Called t.mainCo (c.test2 t.mem) t') :
    Phase c start t' := by
  have hsound : Sound c t := Phase.sound (.new hthread hmem)
  cases hnew : t.mem.qNew c.alloc c.cap with
  | error e =>
    have he : e = .exitFailure := by
      rw [TestMem.qNew] at hnew
      split_ifs at hnew
      exact (Except.error.inj hnew).symm
    rw [TestConfig.test2, hnew] at hs
    have hstops := hsound.stop (Or.inl he) hs
    exact .failed hstops.1 hstops.2
  | ok r =>
    obtain ⟨queue, m⟩ := r
    have hteam : Team c start queue [] 0 t.mainCo
        (Function.update (fun _ ↦ none) t.mainCo (some (.begun (.user .test2)))) m :=
      team_nil (hmem ▸ hnew)
    rw [← hthread] at hteam
    rw [TestConfig.test2, hnew] at hs
    have hs' : { t with mem := m }.Called t.mainCo (c.startNext queue [] m) t' := hs.of_mem
    refine Team.startNext_called (t := { t with mem := m }) hteam ?_ nofun hs'
    change t.thread t.mainCo ≠ none
    rw [hthread, Function.update_self]
    nofun

/-- A step between `q_new` and `q_free`. -/
theorem Team.step (hteam : Team c start queue workers joined t.mainCo t.thread t.mem)
    (hmain : t.thread t.mainCo = some x)
    (hat : MainAt c queue (workers.map Prod.fst) joined waited x)
    (hunwaited : ∀ a ∈ (workers.map Prod.fst).drop waited, a ∉ t.waitedOn)
    (hs : t.Step c.program t') : Phase c start t' := by
  have hsound := hteam.sound hmain hat
  have hgo : ∀ {t'}, GoesOn c start queue workers joined t t' → Phase c start t' := fun hg ↦
    .running hg.team (hg.main.trans hmain) hat (by rwa [hg.waitedOn])
  cases hs with
  | stay => exact .running hteam hmain hat hunwaited
  | @call a k _ hk hcall =>
    rcases hteam.only a (by simp [hk]) with rfl | hm
    · obtain rfl := Option.some.inj (hk.symm.trans hmain)
      cases hat with
      | starting =>
        exact hteam.startNext_called (by simp [hk]) (by simpa using hunwaited) hcall
      | waiting hall =>
        exact hteam.waitNext_called (by simpa using hall) hunwaited hcall
    · obtain ⟨⟨b, fn⟩, hw, rfl⟩ := List.mem_map.mp hm
      rcases hteam.worker_called hsound hw hk hcall with hg | hstops
      · exact hgo hg
      · exact .failed hstops.1 hstops.2
  | @enter a func arg hfresh =>
    rcases hteam.only a (by simp [hfresh]) with rfl | hm
    · obtain rfl := Option.some.inj (hfresh.symm.trans hmain)
      cases hat
    · obtain ⟨⟨b, fn⟩, hw, rfl⟩ := List.mem_map.mp hm
      exact hgo (hteam.worker_enter hw hfresh)
  | @join a co k hwait hco =>
    rcases hteam.only a (by simp [hwait]) with rfl | hm
    · obtain rfl := Option.some.inj (hwait.symm.trans hmain)
      cases hat with
      | inWait hall hnext =>
        have hne : co ≠ t.mainCo := by
          rintro rfl
          cases hwait.symm.trans hco
        have hmoved := hteam.updateMain
          (.begun (.user (.waiting queue (workers.map Prod.fst) (joined + 1)))) t.mem.gRunning
        have hteam' := hmoved.join hnext ((Function.update_of_ne hne ..).trans hco)
        exact .running hteam' ((Function.update_of_ne hne.symm ..).trans (Function.update_self ..))
          (.waiting hall) hunwaited
    · obtain ⟨⟨b, fn⟩, hw, rfl⟩ := List.mem_map.mp hm
      have hworks := hteam.works _ hw
      rw [hwait] at hworks
      cases hworks

theorem Phase.step (h : Phase c start t) (hfault : t.mem.fault = none)
    (hs : t.Step c.program t') : Phase c start t' := by
  cases h with
  | new hthread hmem =>
    have honly : ∀ {a x}, t.thread a = some x → a = t.mainCo ∧ x = .begun (.user .test2) := by
      intro a x hx
      rw [hthread, Function.update_apply] at hx
      split_ifs at hx with ha
      exact ⟨ha, (Option.some.inj hx).symm⟩
    cases hs with
    | stay => exact .new hthread hmem
    | call hat hcall =>
      obtain ⟨rfl, hk⟩ := honly hat
      cases hk
      exact Phase.new_called hthread hmem hcall
    | enter hat => cases (honly hat).2
    | join hat hco => cases (honly hat).2
  | running hteam hmain hat hunwaited => exact hteam.step hmain hat hunwaited hs
  | failed hsound hne => exact absurd hfault hne
  | ended hsound hexited hdelivered =>
    have hnot : ∀ {a x}, t.thread a = some x → x = .exited := by
      intro a x hx
      rcases hexited a with hnone | hexit
      · cases hnone.symm.trans hx
      · exact Option.some.inj (hx.symm.trans hexit)
    cases hs with
    | stay => exact .ended hsound hexited hdelivered
    | call hat hcall => cases hnot hat
    | enter hat => cases hnot hat
    | join hat hco => cases hnot hat

section Waits

variable {co : Addr} {k : Place}

theorem finish_call : (TestConfig.finish queue m).2 = .ret := by
  rw [TestConfig.finish]
  split
  · split <;> rfl
  · rfl

theorem waitNext_wait {thds : List Addr} {i : ℕ}
    (h : (c.waitNext queue thds i m).2 = .coWait co k) : thds[i]? = some co := by
  rw [TestConfig.waitNext] at h
  split at h
  · rename_i co' hco
    cases h
    exact hco
  · rw [finish_call] at h
    cases h

theorem startNext_wait {thds : List Addr} (h : (c.startNext queue thds m).2 = .coWait co k) :
    thds[0]? = some co := by
  rw [TestConfig.startNext] at h
  split at h
  · cases h
  · exact waitNext_wait h

theorem test2_wait : (c.test2 m).2 ≠ .coWait co k := by
  intro h
  rw [TestConfig.test2] at h
  split at h
  · cases startNext_wait h
  · cases h

theorem producer_wait {i : ℕ} : (c.producer queue i m).2 ≠ .coWait co k := by
  rw [TestConfig.producer]
  split_ifs
  · nofun
  · split <;> nofun
  · nofun

theorem consumer_wait : (TestConfig.consumer queue m).2 ≠ .coWait co k := by
  rw [TestConfig.consumer]
  split_ifs
  · split
    · nofun
    · split <;> nofun
    · nofun
  · nofun

theorem Team.waits_once (h : Team c start queue workers joined t.mainCo t.thread t.mem)
    (hco : (workers.map Prod.fst)[joined]? = some co)
    (hunwaited : ∀ a ∈ (workers.map Prod.fst).drop joined, a ∉ t.waitedOn) :
    (t.thread co).isSome ∧ co ≠ t.mainCo ∧ co ∉ t.waitedOn := by
  have hdrop : co ∈ (workers.map Prod.fst).drop joined := by
    rw [List.drop_eq_getElem?_toList_append, hco]
    exact List.mem_cons_self
  obtain ⟨w, hw, rfl⟩ := List.mem_map.mp (List.mem_of_getElem? hco)
  refine ⟨Option.isSome_iff_ne_none.mpr fun hnone ↦ ?_, h.ne_main hw, hunwaited _ hdrop⟩
  exact List.disjoint_take_drop h.nodup (le_refl joined) ((h.joined w hw).mp hnone) hdrop

theorem Phase.waits_once (h : Phase c start t) (hfault : t.mem.fault = none)
    (hat : t.thread a = some (.begun (.user k))) {k' : Place}
    (hcall : (c.program.call t.mem k).2 = .coWait co k') :
    (t.thread co).isSome ∧ co ≠ t.mainCo ∧ co ∉ t.waitedOn := by
  cases h with
  | new hthread hmem =>
    rw [hthread, Function.update_apply] at hat
    split_ifs at hat
    cases hat
    exact absurd hcall test2_wait
  | running hteam hmain hmainAt hunwaited =>
    rcases hteam.only a (by simp [hat]) with rfl | hm
    · obtain rfl := Option.some.inj (hat.symm.trans hmain)
      cases hmainAt with
      | starting => exact hteam.waits_once (startNext_wait hcall) hunwaited
      | waiting hall => exact hteam.waits_once (waitNext_wait hcall) hunwaited
    · obtain ⟨w, hw, rfl⟩ := List.mem_map.mp hm
      have hworks := hteam.works w hw
      rw [hat] at hworks
      generalize w.2 = fn at hworks
      cases hworks with
      | producing hi => exact absurd hcall producer_wait
      | consuming => exact absurd hcall consumer_wait
  | failed hsound hne => exact absurd hfault hne
  | ended hsound hexited hdelivered =>
    rcases hexited a with hnone | hexit
    · cases hnone.symm.trans hat
    · cases hexit.symm.trans hat

end Waits

section Runs

variable {s : State TestFn Addr Place TestMem}

theorem Phase.waitsOnce (h : Phase c start s.threads) (hinv : Inv s) (hfault : s.mem.fault = none) :
    WaitsOnce c.program s := by
  intro co hco
  obtain ⟨cur, hcur⟩ := hinv.exists_current
  rw [waitTarget] at hco
  split at hco
  · rename_i k hmode
    have hat : s.threads.thread s.current = some (.begun (.user k)) := by
      refine (thread_current hcur).trans ?_
      rw [hmode]
      rfl
    split at hco
    · rename_i co' k' hcall
      cases hco
      obtain ⟨hlive, hmain, honce⟩ := h.waits_once hfault hat hcall
      exact ⟨thread_isSome.symm.trans hlive, hmain, honce⟩
    · cases hco
  · cases hco

theorem reachable_phase (h : (c.system start).Reachable s) : Inv s ∧ Phase c start s.threads := by
  refine h.invariant (I := fun s ↦ Inv s ∧ Phase c start s.threads) ?_ ?_
  · rintro s ⟨o, hnull, rfl⟩
    refine ⟨init_inv hnull, ?_⟩
    rw [init_threads]
    exact .new rfl rfl
  · rintro s s' - ⟨hinv, hphase⟩ ⟨hfault, o, hfresh, hs⟩
    obtain ⟨hview, hlist, hwrapper⟩ := step_refines (fun _ _ ↦ True) hinv
      (hphase.waitsOnce hinv hfault) (fun _ _ ↦ trivial) hfresh hs
    exact ⟨⟨hlist, hinv.ok.step hview, hwrapper⟩, hphase.step hfault (hinv.step_threads hfresh hs)⟩

theorem itemText_injective : Function.Injective itemText :=
  fun _ _ h ↦ Delimited.decimal_injective (List.append_cancel_left h)

theorem Delivered.nodup (h : Delivered c start m) : m.printed.Nodup := by
  rw [h.printed, h.numbered]
  refine List.nodup_range.map fun i j hij ↦ ?_
  have hnumber := itemText_injective hij
  omega

theorem Phase.delivered (h : Phase c start t) (hfault : t.mem.fault = none)
    (hexited : t.thread a = some .exited) : Delivered c start t.mem := by
  cases h with
  | new hthread hmem =>
    rw [hthread, Function.update_apply] at hexited
    split_ifs at hexited
    cases hexited
  | running hteam hmain hat hunwaited =>
    rcases hteam.only a (by simp [hexited]) with rfl | hm
    · obtain rfl := Option.some.inj (hexited.symm.trans hmain)
      cases hat
    · obtain ⟨w, hw, rfl⟩ := List.mem_map.mp hm
      have hworks := hteam.works w hw
      rw [hexited] at hworks
      generalize w.2 = fn at hworks
      cases hworks
  | failed hsound hne => exact absurd hfault hne
  | ended hsound hmain hdelivered => exact hdelivered

/-- In every state of a run of `test_2` no assertion has failed, no item was dropped and the list
of the queue has `sz` items, at most `cap`; when `test_2` has returned, the items made have been
printed, each once and in the order of their numbers. -/
theorem test2_delivers (h : (c.system start).Reachable s) :
    Sound c s.threads ∧ (s.mode = .exited → s.mem.fault = none →
      Delivered c start s.mem ∧ s.mem.printed.Nodup) := by
  obtain ⟨hinv, hphase⟩ := reachable_phase h
  refine ⟨hphase.sound, fun hexited hfault ↦ ?_⟩
  obtain ⟨cur, hcur⟩ := hinv.exists_current
  have hthread : s.threads.thread s.current = some .exited := by
    refine (thread_current hcur).trans ?_
    rw [hexited]
    rfl
  have hdelivered := hphase.delivered hfault hthread
  exact ⟨hdelivered, hdelivered.nodup⟩

end Runs

section Sample

def sampleAlloc : TestAlloc where
  malloc m := if (m.links (m.requests + 1)).isNone then m.requests + 1 else null
  bytes _ := ⟨null, null⟩
  usable := 10
  usable_ge := le_refl _
  fresh m hm := by
    split_ifs at hm ⊢ with h
    · exact Option.isNone_iff_eq_none.mp h
    · exact absurd rfl hm

/-- One producer of two items and one consumer, with a queue for one item. -/
def sampleConfig : TestConfig := ⟨1, 1, 2, 1, by decide, sampleAlloc⟩

def sampleOracle (rand : ℕ) (block : Addr) : Oracle TestFn Addr Place where
  rand := rand
  block := block
  bytes := ⟨.producer, null, .coDead, 7, .finished, 9⟩

/-- The blocks that `co_start` gets are 2 and 3. -/
def sampleChoices : List (Oracle TestFn Addr Place) :=
  [0, 1, 0, 0, 5, 1, 5, 1, 0, 2, 2, 5, 5, 1, 3, 5, 5, 5, 1, 1, 4, 1, 5].mapIdx fun i rand ↦
    sampleOracle rand (i + 2)

theorem sample_delivered : ∃ s, (sampleConfig.system 200).Reachable s ∧ s.mode = .exited ∧
    s.mem.printed = [itemText 200, itemText 201] ∧ s.mem.printed.Nodup := by
  have hrun : ((sampleChoices.foldlM (exec sampleConfig.program fun s ↦ s.mem.fault = none)
      (init sampleConfig.program (sampleOracle 0 1) (.initial 200))).any fun s ↦
        s.mode = .exited ∧ s.mem.fault = none ∧ s.mem.printed = [itemText 200, itemText 201]) =
      true := by
    decide +kernel
  obtain ⟨s, hs, hp⟩ := (Option.any_eq_true _ _).mp hrun
  obtain ⟨hexited, hfault, hprinted⟩ := of_decide_eq_true hp
  have hinit : (sampleConfig.system 200).Reachable
      (init sampleConfig.program (sampleOracle 0 1) (.initial 200)) :=
    .init ⟨sampleOracle 0 1, by decide, rfl⟩
  have hstep : ∀ s o s', exec sampleConfig.program (fun s ↦ s.mem.fault = none) s o = some s' →
      (sampleConfig.system 200).step s s' := fun _ _ _ h ↦ exec_step h
  have hreach := hinit.run hstep hs
  exact ⟨s, hreach, hexited, hprinted, ((test2_delivers hreach).2 hexited hfault).2⟩

end Sample

end OsWorkbench.Libco
