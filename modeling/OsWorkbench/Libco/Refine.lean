import OsWorkbench.Libco.NodeList
import OsWorkbench.Libco.Outcomes
import OsWorkbench.Libco.Scheduler

namespace OsWorkbench.Libco

open Library

variable {Fn Arg K M : Type}

def Frame.activity : Frame K → Activity
  | .user _ => .active
  | .waiting co _ => .waiting co
  | .finished => .finished

def Mode.activity : Mode Arg K → Option Activity
  | .user _ => some .active
  | .wrapper _ => none
  | .coYield frame => some frame.activity
  | .coWait co _ => some (.waiting co)
  | .exited => some .exited

def Co.activity (c : Co Fn Arg K) : Option Activity :=
  if c.status = .coNew then none else some c.context.activity

/-- What the scheduler sees of a state: the current coroutine goes on where the
program is, another one where its registers say. -/
def State.view (s : State Fn Arg K M) : View where
  status a := (s.heap a).map Co.status
  waiter a := (s.heap a).map Co.waiter
  activity a := if a = s.current then s.mode.activity else (s.heap a).bind Co.activity
  current := s.current
  mainCo := s.mainCo
  waitedOn := s.waitedOn

variable {s : State Fn Arg K M} {nodes : List Addr}

theorem view_status_none {a : Addr} (h : s.heap a = none) : s.view.status a = none := by
  simp [State.view, h]

theorem exists_of_live {a : Addr} (h : (s.view.status a).isSome) : ∃ c, s.heap a = some c := by
  simpa [State.view, Option.isSome_iff_exists] using h

theorem view_activity_current : s.view.activity s.current = s.mode.activity := if_pos rfl

theorem Frame.eq_of_finished {f : Frame K} (h : f.activity = .finished) : f = .finished := by
  cases f with
  | finished => rfl
  | user k => cases h
  | waiting co k => cases h

theorem Mode.eq_of_finished {m : Mode Arg K} (h : m.activity = some .finished) :
    m = .coYield .finished := by
  cases m with
  | coYield frame => rw [Frame.eq_of_finished (Option.some.inj h)]
  | user k => cases h
  | wrapper arg => cases h
  | coWait co k => cases h
  | exited => cases h

theorem renext_map {γ : Type} {f : Co Fn Arg K → γ} (hf : ∀ c x, f { c with next := x } = f c)
    (n : Addr → Addr) (heap : Addr → Option (Co Fn Arg K)) (a : Addr) :
    (renext n heap a).map f = (heap a).map f := by
  cases h : heap a <;> simp [renext, h, hf]

theorem renext_bind {γ : Type} {f : Co Fn Arg K → Option γ}
    (hf : ∀ c x, f { c with next := x } = f c) (n : Addr → Addr)
    (heap : Addr → Option (Co Fn Arg K)) (a : Addr) :
    (renext n heap a).bind f = (heap a).bind f := by
  cases h : heap a <;> simp [renext, h, hf]

structure Inv (s : State Fn Arg K M) : Prop where
  listed : ∃ nodes, Listed s nodes
  ok : s.view.Ok
  wrapper : ∀ arg, s.mode = .wrapper arg → s.view.status s.current = some .coNew

theorem Inv.exists_current (h : Inv s) : ∃ c, s.heap s.current = some c :=
  exists_of_live h.ok.current

variable {allowed : View → Addr → Prop} {o : Oracle Fn Arg K}

theorem coStart_refines (h : Inv s) {k : K} (hmode : s.mode = .user k) (hfresh : s.heap o.block = none)
    {func : Fn} {arg : Arg} {k' : K} {s₁ : State Fn Arg K M}
    (hs : coStart o func arg s = .ok s₁) :
    s.view.Step allowed { s₁ with mode := .user k' }.view ∧
      ∃ nodes, Listed { s₁ with mode := .user k' } nodes := by
  obtain ⟨nodes, hl⟩ := h.listed
  obtain ⟨cur, hcur⟩ := h.exists_current
  have hc : s.current ∈ nodes := (hl.live _).mpr (by simp [hcur])
  have ha : o.block ∉ nodes := fun hm ↦ by simpa [hfresh] using (hl.live _).mp hm
  obtain ⟨hnull, s₂, h₂, rfl⟩ := coStart_cases hs
  obtain ⟨n, hins, hlist, -⟩ := hl.insertCo
    { o.bytes with func := func, arg := arg, status := .coNew, waiter := null } hc ha hnull
  obtain rfl := Except.ok.inj (hins.symm.trans h₂)
  refine ⟨?_, _, hlist.linked, hlist.nodup, hlist.live, hlist.length, hlist.null⟩
  have hstart : s.view.Step allowed _ := .start o.block hnull (view_status_none hfresh)
  convert hstart using 1
  refine View.ext (funext fun a ↦ ?_) (funext fun a ↦ ?_) (funext fun a ↦ ?_) rfl rfl rfl
  · simp only [State.view, renext_map (f := Co.status) (fun _ _ ↦ rfl), Function.update_apply]
    split_ifs <;> rfl
  · simp only [State.view, renext_map (f := Co.waiter) (fun _ _ ↦ rfl), Function.update_apply]
    split_ifs <;> rfl
  · simp only [State.view, renext_bind (f := Co.activity) (fun _ _ ↦ rfl), Function.update_apply, hmode]
    split_ifs with hac hab
    · rfl
    · simp [hab, hfresh, Co.activity]
    · rfl

theorem coWait_refines (h : Inv s) {k k' : K} (hmode : s.mode = .user k) {co : Addr}
    (hlive : (s.heap co).isSome) (hmain : co ≠ s.mainCo) (honce : co ∉ s.waitedOn)
    (hallowed : allowed s.view co) {s' : State Fn Arg K M} (hs : coWait co k' s = .ok s') :
    s.view.Step allowed s'.view ∧ (∃ nodes, Listed s' nodes) ∧ s'.mode = .coWait co k' := by
  obtain ⟨nodes, hl⟩ := h.listed
  obtain ⟨cur, c₁, hcur, hc₁, hwaiting, rfl⟩ := coWait_cases hs
  obtain ⟨c, hc⟩ := Option.isSome_iff_exists.mp hlive
  have hother : co ≠ s.current → c₁ = c := by
    intro hne
    rw [State.store_heap_ne hne, hc] at hc₁
    exact (Option.some.inj hc₁).symm
  have hself : co = s.current → c₁ = { cur with status := .coWaiting } := by
    rintro rfl
    rw [State.store_heap_self] at hc₁
    exact (Option.some.inj hc₁).symm
  have hlist := (hl.store hcur { cur with status := .coWaiting } rfl).store
    hc₁ { c₁ with waiter := s.current } rfl
  refine ⟨?_, ⟨nodes, hlist.of_eq rfl rfl rfl⟩, rfl⟩
  have hwait : s.view.Step allowed _ := .wait co
    (by simp [State.view, hmode, Mode.activity]) (by simp [State.view, hc]) hmain honce
    (by simpa [State.view, hc] using hwaiting c hc) hallowed
  convert hwait using 1
  refine View.ext (funext fun a ↦ ?_) (funext fun a ↦ ?_) (funext fun a ↦ ?_) rfl rfl rfl
  · by_cases hac : a = co
    · subst hac
      by_cases he : a = s.current
      · simp [State.view, State.store, hself he, Function.update_apply, he]
      · simp [State.view, State.store, hother he, Function.update_apply, he, hc]
    · simp only [State.view, State.store, Function.update_apply, if_neg hac]
      split_ifs <;> rfl
  · by_cases hac : a = co
    · subst hac
      simp [State.view, State.store]
    · simp only [State.view, State.store, Function.update_apply, if_neg hac]
      split_ifs with he
      · simp [he, hcur]
      · rfl
  · by_cases hac : a = s.current
    · simp [State.view, State.store, hac, Mode.activity]
    · by_cases hco : a = co
      · subst hco
        simp [State.view, State.store, hac, hother hac, hc, Co.activity]
      · simp [State.view, State.store, hac, hco]

theorem wrapper_refines {P : Program Fn Arg K M} (h : Inv s) {arg : Arg}
    (hmode : s.mode = .wrapper arg) {s' : State Fn Arg K M} (hs : wrapper P arg s = .ok s') :
    s.view.Step allowed s'.view ∧ (∃ nodes, Listed s' nodes) ∧ ∃ k, s'.mode = .user k := by
  obtain ⟨nodes, hl⟩ := h.listed
  obtain ⟨cur, hcur, rfl⟩ := wrapper_cases hs
  have hnew := h.wrapper arg hmode
  have hstatus : cur.status = .coNew := by simpa [State.view, hcur] using hnew
  rw [if_pos hstatus]
  have hlist := hl.store hcur { cur with status := .coRunning } rfl
  refine ⟨?_, ⟨nodes, hlist.of_eq rfl rfl rfl⟩, _, rfl⟩
  have henter : s.view.Step allowed _ := .enter hnew
  convert henter using 1
  refine View.ext (funext fun a ↦ ?_) (funext fun a ↦ ?_) (funext fun a ↦ ?_) rfl rfl rfl
  · by_cases ha : a = s.current <;> simp [State.view, State.store, ha]
  · by_cases ha : a = s.current <;> simp [State.view, State.store, ha, hcur]
  · by_cases ha : a = s.current <;> simp [State.view, State.store, ha, Mode.activity]

/-- The coroutine that waits for the current one is another one, and has begun. -/
theorem Inv.waiter_begun (h : Inv s) {k : K} (hmode : s.mode = .user k)
    (hmain : s.current ≠ s.mainCo) {cur : Co Fn Arg K} (hcur : s.heap s.current = some cur)
    (hnull : cur.waiter ≠ Libco.null) :
    cur.waiter ≠ s.current ∧ ∀ w, s.heap cur.waiter = some w → w.status ≠ .coNew := by
  have hwaiting := h.ok.waiter s.current cur.waiter (by simp [State.view, hcur]) hmain hnull
  constructor
  · intro he
    rw [he, view_activity_current, hmode] at hwaiting
    cases hwaiting
  · intro w hw hnew
    rw [h.ok.new cur.waiter (by simp [State.view, hw, hnew])] at hwaiting
    cases hwaiting

theorem Inv.current_ne (h : Inv s) {t : Addr} {k : K} (hmode : s.mode = .coWait t k)
    {c : Co Fn Arg K} (hc : s.heap t = some c) (hdead : c.status = .coDead) : s.current ≠ t := by
  rintro rfl
  have hfinished := (h.ok.dead s.current).mp (by simp [State.view, hc, hdead])
  simp [State.view, hmode, Mode.activity] at hfinished

theorem wrapperEnd_refines (h : Inv s) {k : K} (hmode : s.mode = .user k)
    (hmain : s.current ≠ s.mainCo) {s' : State Fn Arg K M} (hs : wrapperEnd s = .ok s') :
    s.view.Step allowed s'.view ∧ (∃ nodes, Listed s' nodes) ∧ s'.mode = .coYield .finished := by
  obtain ⟨nodes, hl⟩ := h.listed
  obtain ⟨cur, hcur, hend⟩ := wrapperEnd_cases hs
  have hactive : s.view.activity s.view.current = some .active := by
    simp [State.view, hmode, Mode.activity]
  have hfinish : s.view.Step allowed _ := .finish hactive hmain
  have hwaiter : s.view.waiter s.view.current = some cur.waiter := by simp [State.view, hcur]
  have hlist := hl.store hcur { cur with status := .coDead } rfl
  rcases hend with ⟨hnull, rfl⟩ | ⟨hnull, w, hw', rfl⟩
  · refine ⟨?_, ⟨nodes, hlist.of_eq rfl rfl rfl⟩, rfl⟩
    convert hfinish using 1
    refine View.ext (funext fun a ↦ ?_) (funext fun a ↦ ?_) (funext fun a ↦ ?_) rfl rfl rfl
    · have hno : ¬ (s.view.waiter s.view.current = some a ∧ a ≠ null) := by
        rw [hwaiter, hnull]
        rintro ⟨he, hne⟩
        exact hne (Option.some.inj he).symm
      simp only [View.finishStatus, if_neg hno]
      by_cases ha : a = s.current <;> simp [State.view, State.store, ha]
    · by_cases ha : a = s.current <;> simp [State.view, State.store, ha, hcur]
    · by_cases ha : a = s.current <;>
        simp [State.view, State.store, ha, Mode.activity, Frame.activity]
  · obtain ⟨hne, hbegun⟩ := h.waiter_begun hmode hmain hcur hnull
    have hw := (State.store_heap_ne hne).symm.trans hw'
    have hlist' := hlist.store hw' { w with status := .coRunning } rfl
    refine ⟨?_, ⟨nodes, hlist'.of_eq rfl rfl rfl⟩, rfl⟩
    convert hfinish using 1
    refine View.ext (funext fun a ↦ ?_) (funext fun a ↦ ?_) (funext fun a ↦ ?_) rfl rfl rfl
    · by_cases haw : a = cur.waiter
      · subst haw
        simp only [View.finishStatus, if_pos (And.intro hwaiter hnull)]
        simp [State.view]
      · have hno : ¬ (s.view.waiter s.view.current = some a ∧ a ≠ null) := by
          rw [hwaiter]
          rintro ⟨he, _⟩
          exact haw (Option.some.inj he).symm
        simp only [View.finishStatus, if_neg hno]
        by_cases ha : a = s.current <;> simp [State.view, State.store, ha, haw, hne.symm]
    · by_cases haw : a = cur.waiter
      · subst haw
        simp [State.view, hw]
      · by_cases ha : a = s.current <;> simp [State.view, State.store, ha, haw, hne.symm, hcur]
    · by_cases haw : a = cur.waiter
      · subst haw
        simp [State.view, hne, hw, Co.activity, hbegun w hw]
      · by_cases ha : a = s.current <;>
          simp [State.view, State.store, ha, haw, Mode.activity, Frame.activity]

theorem Frame.mode_activity {f : Frame K} {m : Mode Arg K} (h : f.mode = .ok m) :
    m.activity = some f.activity ∧ ∀ arg, m ≠ .wrapper arg := by
  cases f with
  | user k =>
    cases h
    exact ⟨rfl, fun _ hm ↦ by cases hm⟩
  | waiting co k =>
    cases h
    exact ⟨rfl, fun _ hm ↦ by cases hm⟩
  | finished => cases h

theorem coYield_refines (h : Inv s) {frame : Frame K} (hmode : s.mode = .coYield frame)
    {s' : State Fn Arg K M} (hs : coYield o frame s = .ok s') :
    s.view.Step allowed s'.view ∧ (∃ nodes, Listed s' nodes) ∧
      ∀ arg, s'.mode = .wrapper arg → s'.view.status s'.current = some .coNew := by
  obtain ⟨nodes, hl⟩ := h.listed
  rcases coYield_cases hs with rfl | ⟨choice, cur, c, -, hcur, hcurnew, hc, hswitched⟩
  · exact ⟨.stay, ⟨nodes, hl⟩, h.wrapper⟩
  rcases hswitched with ⟨hnew, rfl⟩ | ⟨hrun, c₂, m, hc₂, hm, rfl⟩
  · have hne : choice ≠ s.current := by
      rintro rfl
      rw [hcur] at hc
      cases hc
      exact hcurnew hnew
    have hlist := hl.store hcur { cur with context := frame } rfl
    have hchosen : s.view.status choice = some .coNew := by simp [State.view, hc, hnew]
    refine ⟨?_, ⟨nodes, hlist.of_eq rfl rfl rfl⟩, fun _ _ ↦ by
      simp [State.view, State.store, hne, hc, hnew]⟩
    have hswitch : s.view.Step allowed _ := .switch choice (.inl hchosen)
    convert hswitch using 1
    refine View.ext (funext fun a ↦ ?_) (funext fun a ↦ ?_) (funext fun a ↦ ?_) rfl rfl rfl
    · by_cases ha : a = s.current <;> simp [State.view, State.store, ha, hcur]
    · by_cases ha : a = s.current <;> simp [State.view, State.store, ha, hcur]
    · by_cases hac : a = choice
      · simp [State.view, hac, hne, hc, Co.activity, hnew, Mode.activity]
      · by_cases ha : a = s.current
        · simp [State.view, State.store, ha, hne.symm, hmode, Mode.activity, Co.activity, hcurnew]
        · simp [State.view, State.store, ha, hac]
  · have hrunning : s.view.status choice = some .coRunning := by simp [State.view, hc, hrun]
    have hnew : c.status ≠ .coNew := fun hn ↦ by
      rw [hrun] at hn
      cases hn
    have hlist := hl.store hcur { cur with context := frame } rfl
    obtain ⟨hactivity, hnowrap⟩ := Frame.mode_activity hm
    refine ⟨?_, ⟨nodes, hlist.of_eq rfl rfl rfl⟩, fun arg harg ↦ absurd harg (hnowrap arg)⟩
    have hswitch : s.view.Step allowed _ := .switch choice (.inr hrunning)
    convert hswitch using 1
    refine View.ext (funext fun a ↦ ?_) (funext fun a ↦ ?_) (funext fun a ↦ ?_) rfl rfl rfl
    · by_cases ha : a = s.current <;> simp [State.view, State.store, ha, hcur]
    · by_cases ha : a = s.current <;> simp [State.view, State.store, ha, hcur]
    · by_cases hac : a = choice
      · by_cases hcc : choice = s.current
        · rw [hcc, State.store_heap_self] at hc₂
          cases hc₂
          simp only [State.view, hac, hcc, if_true, hmode]
          exact hactivity
        · rw [State.store_heap_ne hcc, hc] at hc₂
          cases hc₂
          simp [State.view, hac, hcc, hactivity, hc, Co.activity, hnew]
      · by_cases ha : a = s.current
        · have hcc : s.current ≠ choice := ha ▸ hac
          simp [State.view, State.store, ha, hcc, hmode, Mode.activity, Co.activity, hcurnew]
        · simp [State.view, State.store, ha, hac]

theorem coWaitLoop_refines (h : Inv s) {co : Addr} {k : K} (hmode : s.mode = .coWait co k)
    {s' : State Fn Arg K M} (hs : coWaitLoop co k s = .ok s') :
    s.view.Step allowed s'.view ∧ (∃ nodes, Listed s' nodes) ∧
      ∀ arg, s'.mode ≠ .wrapper arg := by
  obtain ⟨nodes, hl⟩ := h.listed
  have hactivity : s.view.activity s.view.current = some (.waiting co) := by
    simp [State.view, hmode, Mode.activity]
  obtain ⟨c, hc, ⟨-, rfl⟩ | ⟨hdead, s₁, hremoved, rfl⟩⟩ := coWaitLoop_cases hs
  · refine ⟨?_, ⟨nodes, hl.of_eq rfl rfl rfl⟩, fun _ hm ↦ by cases hm⟩
    convert View.Step.stay using 1
    refine View.ext rfl rfl (funext fun a ↦ ?_) rfl rfl rfl
    by_cases ha : a = s.current <;> simp [State.view, ha, hmode, Mode.activity, Frame.activity]
  · have hstatus : s.view.status co = some .coDead := by
      simpa [State.view, hc] using hdead
    have hne : s.current ≠ co := h.current_ne hmode hc hdead
    obtain ⟨n, head', hremove, hlist, -⟩ := hl.removeCo ((hl.live co).mpr (by rw [hc]; rfl)) hne
    obtain rfl := Except.ok.inj (hremove.symm.trans hremoved)
    refine ⟨?_, ⟨_, hlist.of_eq rfl rfl rfl⟩, fun _ hm ↦ by cases hm⟩
    have hrm : s.view.Step allowed _ := .remove co hactivity hstatus
    convert hrm using 1
    refine View.ext (funext fun a ↦ ?_) (funext fun a ↦ ?_) (funext fun a ↦ ?_) rfl rfl rfl
    · by_cases ha : a = co
      · simp [State.view, ha]
      · simp [State.view, ha, renext_map (f := Co.status) (fun _ _ ↦ rfl)]
    · by_cases ha : a = co
      · simp [State.view, ha]
      · simp [State.view, ha, renext_map (f := Co.waiter) (fun _ _ ↦ rfl)]
    · by_cases ha : a = co
      · simp [State.view, ha, hne.symm]
      · by_cases hcur : a = s.current
        · simp [State.view, hcur, hne, Mode.activity]
        · simp [State.view, ha, hcur, renext_bind (f := Co.activity) (fun _ _ ↦ rfl)]

end OsWorkbench.Libco
