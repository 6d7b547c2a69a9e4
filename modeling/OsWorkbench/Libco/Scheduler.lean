import OsWorkbench.Libco.Model

namespace OsWorkbench.Libco

/-- What a coroutine that has begun is doing. -/
inductive Activity
  | active
  | waiting (co : Addr)
  | finished
  | exited
  deriving DecidableEq, Repr

/-- The scheduler without its list and its registers. -/
@[ext]
structure View where
  status : Addr → Option CoStatus
  waiter : Addr → Option Addr
  activity : Addr → Option Activity
  current : Addr
  mainCo : Addr
  waitedOn : List Addr

namespace View

def finishStatus (v : View) : Addr → Option CoStatus := fun a ↦
  if v.waiter v.current = some a ∧ a ≠ null then some .coRunning
  else if a = v.current then some .coDead
  else v.status a

/-- The steps of the scheduler when every coroutine is waited on at most once;
`allowed` says which targets of `co_wait` are admitted besides. -/
inductive Step (allowed : View → Addr → Prop) (v : View) : View → Prop
  | stay : Step allowed v v
  | start (a : Addr) (hnull : a ≠ null) (hfresh : v.status a = none) :
      Step allowed v { v with
        status := Function.update v.status a (some .coNew)
        waiter := Function.update v.waiter a (some null)
        waitedOn := v.waitedOn.filter (· ≠ a) }
  | enter (hnew : v.status v.current = some .coNew) :
      Step allowed v { v with
        status := Function.update v.status v.current (some .coRunning)
        activity := Function.update v.activity v.current (some .active) }
  | wait (co : Addr) (hactive : v.activity v.current = some .active)
      (hlive : (v.status co).isSome) (hmain : co ≠ v.mainCo) (honce : co ∉ v.waitedOn)
      (hwaiting : v.status co ≠ some .coWaiting) (hallowed : allowed v co) :
      Step allowed v { v with
        status := Function.update v.status v.current (some .coWaiting)
        waiter := Function.update v.waiter co (some v.current)
        activity := Function.update v.activity v.current (some (.waiting co))
        waitedOn := co :: v.waitedOn }
  | exit (hactive : v.activity v.current = some .active) (hmain : v.current = v.mainCo) :
      Step allowed v { v with activity := Function.update v.activity v.current (some .exited) }
  | finish (hactive : v.activity v.current = some .active) (hmain : v.current ≠ v.mainCo) :
      Step allowed v { v with
        status := v.finishStatus
        activity := Function.update v.activity v.current (some .finished) }
  | switch (co : Addr) (hready : v.status co = some .coNew ∨ v.status co = some .coRunning) :
      Step allowed v { v with current := co }
  | remove (co : Addr) (hwaiting : v.activity v.current = some (.waiting co))
      (hdead : v.status co = some .coDead) :
      Step allowed v { v with
        status := Function.update v.status co none
        waiter := Function.update v.waiter co none
        activity := Function.update (Function.update v.activity v.current (some .active)) co none }

/-- The pointers of the scheduler lead to coroutines, and `waiter` is the inverse
of waiting. -/
structure Ok (v : View) : Prop where
  null : v.status null = none
  current : (v.status v.current).isSome
  main : (v.status v.mainCo).isSome
  main_runs : v.activity v.mainCo ≠ some .finished
  freed : ∀ a, v.status a = none → v.waiter a = none ∧ v.activity a = none
  waiting : ∀ w t, v.activity w = some (.waiting t) → t ≠ v.mainCo ∧ v.waiter t = some w
  waiter : ∀ t w, v.waiter t = some w → t ≠ v.mainCo → w ≠ Libco.null →
    v.activity w = some (.waiting t)
  unwaited : ∀ t, (v.status t).isSome → t ≠ v.mainCo → t ∉ v.waitedOn →
    v.waiter t = some Libco.null
  dead : ∀ a, v.status a = some .coDead ↔ v.activity a = some .finished
  new : ∀ a, v.status a = some .coNew → v.activity a = none

variable {allowed : View → Addr → Prop} {v v' : View}

theorem Ok.live_of_activity (h : v.Ok) {a : Addr} {x : Activity} (hx : v.activity a = some x) :
    (v.status a).isSome := by
  cases hs : v.status a with
  | some _ => rfl
  | none =>
    rw [(h.freed a hs).2] at hx
    cases hx

theorem Ok.live_target (h : v.Ok) {w t : Addr} (hw : v.activity w = some (.waiting t)) :
    (v.status t).isSome := by
  have hwaiter := (h.waiting w t hw).2
  cases ht : v.status t with
  | some _ => rfl
  | none =>
    rw [(h.freed t ht).1] at hwaiter
    cases hwaiter

theorem Ok.live_waiter (h : v.Ok) (hmain : v.current ≠ v.mainCo) {a : Addr}
    (hw : v.waiter v.current = some a) (ha : a ≠ Libco.null) : (v.status a).isSome :=
  h.live_of_activity (h.waiter _ a hw hmain ha)

theorem Ok.step (h : v.Ok) (hs : v.Step allowed v') : v'.Ok := by
  have hlive : ∀ a, v.current ≠ v.mainCo → v.waiter v.current = some a → a ≠ Libco.null →
      (v.status a).isSome := fun a hmain ↦ h.live_waiter hmain
  obtain ⟨hn, hc, hm, hmr, hf, hwg, hwt, hu, hd, hnw⟩ := h
  cases hs with
  | stay => exact ⟨hn, hc, hm, hmr, hf, hwg, hwt, hu, hd, hnw⟩
  | _ =>
    constructor <;>
      simp only [Function.update_apply, finishStatus, List.mem_filter, List.mem_cons] <;>
        grind -ring -linarith -lia -ac -order

/-- A coroutine waits for one that is still to finish. -/
def Blocked (v : View) (w t : Addr) : Prop :=
  v.activity w = some (.waiting t) ∧ v.status t ≠ some .coDead

/-- What a step does to the waits: none changes, the running coroutine begins to
wait for `co`, or it finishes and those that wait for it go on. -/
inductive Waits (allowed : View → Addr → Prop) (v v' : View) : Prop
  | same (hstatus : ∀ w, v'.status w = some .coWaiting ↔ v.status w = some .coWaiting)
      (hblocked : ∀ w t, v'.Blocked w t ↔ v.Blocked w t)
  | begins (co : Addr) (hready : v.status co ≠ some .coWaiting) (hallowed : allowed v co)
      (hstatus : ∀ w, v'.status w = some .coWaiting ↔
        w = v.current ∨ v.status w = some .coWaiting)
      (hblocked : ∀ w t, v'.Blocked w t ↔
        w = v.current ∧ t = co ∧ v.status co ≠ some .coDead ∨ v.Blocked w t)
  | ends (hactive : v.activity v.current = some .active)
      (hstatus : ∀ w, v'.status w = some .coWaiting ↔
        v.status w = some .coWaiting ∧ w ≠ v.current ∧ ¬ v.Blocked w v.current)
      (hblocked : ∀ w t, v'.Blocked w t ↔ v.Blocked w t ∧ t ≠ v.current)

theorem Ok.waits (h : v.Ok) (hs : v.Step allowed v') : Waits allowed v v' := by
  obtain ⟨hn, hc, hm, hmr, hf, hwg, hwt, hu, hd, hnw⟩ := h
  cases hs with
  | wait co hactive hlive hmain honce hwaiting hallowed =>
    refine .begins co hwaiting hallowed (fun w ↦ ?_) (fun w t ↦ ?_) <;>
      simp only [Blocked, Function.update_apply] <;> grind -ring -linarith -lia -ac -order
  | finish hactive hmain =>
    refine .ends hactive (fun w ↦ ?_) (fun w t ↦ ?_) <;>
      simp only [Blocked, finishStatus, Function.update_apply] <;>
        grind -ring -linarith -lia -ac -order
  | _ =>
    refine .same (fun w ↦ ?_) (fun w t ↦ ?_) <;>
      simp only [Blocked, Function.update_apply] <;> grind -ring -linarith -lia -ac -order

/-- `CO_WAITING` marks the coroutines that wait for one that is still to finish. -/
def Scheduled (v : View) : Prop :=
  ∀ w, v.status w = some .coWaiting ↔
    ∃ t, v.activity w = some (.waiting t) ∧ v.status t ≠ some .coDead

theorem scheduled_iff : v.Scheduled ↔ ∀ w, v.status w = some .coWaiting ↔ ∃ t, v.Blocked w t :=
  Iff.rfl

theorem Scheduled.step (h : v.Ok) (hv : v.Scheduled)
    (hallowed : ∀ co, allowed v co → v.status co ≠ some .coDead) (hs : v.Step allowed v') :
    v'.Scheduled := by
  rw [scheduled_iff] at hv ⊢
  intro w
  cases h.waits hs with
  | same hstatus hblocked => simp only [hstatus, hblocked, hv w]
  | begins co hready hco hstatus hblocked =>
    have hdead := hallowed co hco
    simp only [hstatus, hblocked, hv w, exists_or]
    simp [hdead]
  | ends hactive hstatus hblocked =>
    simp only [hstatus, hblocked, hv w]
    constructor
    · rintro ⟨⟨t, hb⟩, -, hcurrent⟩
      exact ⟨t, hb, fun ht ↦ hcurrent (ht ▸ hb)⟩
    · rintro ⟨t, hb, hne⟩
      refine ⟨⟨t, hb⟩, ?_, fun hcurrent ↦ hne ?_⟩
      · rintro rfl
        rw [hb.1] at hactive
        cases hactive
      · simpa using hb.1.symm.trans hcurrent.1

/-- Only a call of `co_wait` makes a coroutine wait for another one. -/
theorem Ok.blocked_step (h : v.Ok) (hs : v.Step allowed v') {w t : Addr} (hb : v'.Blocked w t) :
    v.Blocked w t ∨ w = v.current ∧ v.status t ≠ some .coWaiting ∧ allowed v t := by
  cases h.waits hs with
  | same hstatus hblocked => exact .inl ((hblocked w t).mp hb)
  | begins co hready hco hstatus hblocked =>
    rcases (hblocked w t).mp hb with ⟨hw, rfl, -⟩ | hold
    · exact .inr ⟨hw, hready, hco⟩
    · exact .inl hold
  | ends hactive hstatus hblocked => exact .inl ((hblocked w t).mp hb).1

/-- The waits form no cycle: they descend along a rank. -/
def Ranked (v : View) : Prop := ∃ rank : Addr → ℕ, ∀ w t, v.Blocked w t → rank t < rank w

theorem Scheduled.not_blocked (hv : v.Scheduled) {a : Addr} (ha : v.status a ≠ some .coWaiting)
    (t : Addr) : ¬ v.Blocked a t :=
  fun hb ↦ ha ((hv a).mpr ⟨t, hb⟩)

/-- A coroutine that is waited on from now on is put below all others; it does
not wait itself. -/
theorem Ranked.step (hr : v.Ranked) (h : v.Ok) (hv : v.Scheduled)
    (hallowed : ∀ co, allowed v co → co ≠ v.current) (hs : v.Step allowed v') : v'.Ranked := by
  obtain ⟨rank, hrank⟩ := hr
  by_cases hnew : ∃ t, v'.Blocked v.current t ∧ ¬ v.Blocked v.current t
  · obtain ⟨t, hb, hnb⟩ := hnew
    obtain ⟨-, hready, hco⟩ := (h.blocked_step hs hb).resolve_left hnb
    have htc := hallowed t hco
    refine ⟨fun a ↦ if a = t then 0 else rank a + 1, fun w x hwx ↦ ?_⟩
    rcases h.blocked_step hs hwx with hold | ⟨rfl, _, _⟩
    · have hwt : w ≠ t := by
        rintro rfl
        exact hv.not_blocked hready x hold
      have hlt := hrank w x hold
      simp only [if_neg hwt]
      split_ifs <;> omega
    · have hxt : x = t := by
        have heq := hwx.1.symm.trans hb.1
        simpa using heq
      simp only [hxt, if_true, if_neg htc.symm]
      omega
  · refine ⟨rank, fun w x hwx ↦ ?_⟩
    rcases h.blocked_step hs hwx with hold | ⟨rfl, _, _⟩
    · exact hrank w x hold
    · exact hrank _ x (not_not.mp fun hn ↦ hnew ⟨x, hwx, hn⟩)

theorem Ranked.exists_ready (hr : v.Ranked) (h : v.Ok) (hv : v.Scheduled) :
    ∃ a, v.status a = some .coNew ∨ v.status a = some .coRunning := by
  obtain ⟨rank, hrank⟩ := hr
  have hchain : ∀ n a, rank a = n → (v.status a).isSome → v.status a ≠ some .coDead →
      ∃ b, v.status b = some .coNew ∨ v.status b = some .coRunning := by
    intro n
    induction n using Nat.strongRecOn with
    | ind n ih =>
      intro a hn hlive hdead
      obtain ⟨st, hst⟩ := Option.isSome_iff_exists.mp hlive
      cases st with
      | coNew => exact ⟨a, .inl hst⟩
      | coRunning => exact ⟨a, .inr hst⟩
      | coDead => exact absurd hst hdead
      | coWaiting =>
        obtain ⟨t, hb⟩ := (hv a).mp hst
        have hlt := hrank a t hb
        exact ih (rank t) (hn ▸ hlt) t rfl (h.live_target hb.1) hb.2
  exact hchain _ v.mainCo rfl h.main fun hd ↦ h.main_runs ((h.dead _).mp hd)

theorem Scheduled.running_of_active (hv : v.Scheduled) (h : v.Ok) {a : Addr}
    (ha : v.activity a = some .active) : v.status a = some .coRunning := by
  obtain ⟨st, hst⟩ := Option.isSome_iff_exists.mp (h.live_of_activity ha)
  cases st with
  | coRunning => exact hst
  | coNew =>
    rw [h.new a hst] at ha
    cases ha
  | coDead =>
    rw [(h.dead a).mp hst] at ha
    cases ha
  | coWaiting =>
    obtain ⟨t, ht, _⟩ := (hv a).mp hst
    rw [ht] at ha
    cases ha

end View

end OsWorkbench.Libco
