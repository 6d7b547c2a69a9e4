import OsWorkbench.Library.Ring

namespace OsWorkbench.Am.Input

open Library

/-- `KEYDOWN_MASK` -/
def keydownMask : BitVec 32 := 0x8000

/-- `KEY_QUEUE_LEN` -/
def keyQueueLen : ℕ := 1024

/-- The static variables `key_queue`, `key_f` and `key_r`. -/
structure KeyQueue where
  slots : ℕ → BitVec 32
  f : ℕ
  r : ℕ

def KeyQueue.initial : KeyQueue := ⟨fun _ ↦ 0, 0, 0⟩

/-- The number of keys in `AM_KEYS`; their numbers begin with 1, behind `AM_KEY_NONE`. -/
def amKeys : ℕ := 82

abbrev Keymap := Fin 256 → Fin (amKeys + 1)

/-- `keymap`, for the scancodes that SDL gives the keys of `AM_KEYS`. -/
def keymap (sdlScancode : Fin amKeys → Fin 256) : Keymap :=
  (List.finRange amKeys).foldl (fun map k ↦ Function.update map (sdlScancode k) k.succ)
    fun _ ↦ ⟨0, Nat.succ_pos amKeys⟩

/-- The key with this scancode goes down or up. -/
structure KeyEvent where
  scancode : ℕ
  keydown : Bool
deriving DecidableEq

/-- What `keymap` has for the key of an event, 0 where it has none. -/
structure Press where
  key : Fin (amKeys + 1)
  keydown : Bool
deriving DecidableEq

def Press.amCode (p : Press) : BitVec 32 :=
  BitVec.ofNat 32 p.key ||| if p.keydown then keydownMask else 0

/-- `keymap[scancode]`; there is no check that the scancode is inside the array. -/
def lookUp (map : Keymap) (e : KeyEvent) : Option Press :=
  if h : e.scancode < 256 then some ⟨map ⟨e.scancode, h⟩, e.keydown⟩ else none

/-- A turn of the loop of `event_thread`, `none` when it reads outside of `keymap`; the mutex makes
it one step. -/
def eventThread (map : Keymap) (q : KeyQueue) (e : KeyEvent) : Option KeyQueue :=
  (lookUp map e).map fun p ↦
    if p.key.val ≠ 0 then
      { q with slots := Function.update q.slots q.r p.amCode, r := (q.r + 1) % keyQueueLen }
    else q

/-- `AM_INPUT_KEYBRD_T` -/
structure Keybrd where
  keydown : Bool
  keycode : BitVec 32
deriving DecidableEq

def keybrd (k : BitVec 32) : Keybrd := ⟨k &&& keydownMask ≠ 0, k &&& ~~~keydownMask⟩

/-- `__am_input_keybrd` -/
def inputKeybrd (q : KeyQueue) : Keybrd × KeyQueue :=
  if q.f ≠ q.r then (keybrd (q.slots q.f), { q with f := (q.f + 1) % keyQueueLen })
  else (keybrd 0, q)

/-- The event thread and the readers of the keyboard take turns in some order. -/
inductive Op
  | event (e : KeyEvent)
  | read

/-- What the reads return. -/
def run (map : Keymap) : List Op → KeyQueue → Option (List Keybrd)
  | [], _ => some []
  | .event e :: ops, q => (eventThread map q e).bind (run map ops)
  | .read :: ops, q => (run map ops (inputKeybrd q).2).map ((inputKeybrd q).1 :: ·)

/-- What a reader is told of an event. -/
def Press.report (p : Press) : Keybrd := ⟨p.keydown, BitVec.ofNat 32 p.key⟩

/-- A queue that is emptied when it is filled with `keyQueueLen` events. -/
def accept (l : List Press) (p : Press) : List Press :=
  if p.key.val ≠ 0 then if l.length + 1 < keyQueueLen then l ++ [p] else [] else l

/-- What the reads return where the events that wait are `l`; a read of none returns
`AM_KEY_NONE`. -/
def ideal (map : Keymap) : List Op → List Press → List Keybrd
  | [], _ => []
  | .event e :: ops, l => ideal map ops ((lookUp map e).elim l (accept l))
  | .read :: ops, [] => ⟨false, 0⟩ :: ideal map ops []
  | .read :: ops, p :: l => p.report :: ideal map ops l

/-- Every event has a scancode inside of `keymap`. -/
def InTable (ops : List Op) : Prop := ∀ e, Op.event e ∈ ops → e.scancode < 256

theorem keybrd_amCode (p : Press) : keybrd p.amCode = p.report := by
  obtain ⟨key, keydown⟩ := p
  revert key keydown
  decide +kernel

theorem InTable.cons_iff {op : Op} {ops : List Op} :
    InTable (op :: ops) ↔ (∀ e, op = .event e → e.scancode < 256) ∧ InTable ops := by
  constructor
  · intro h
    exact ⟨fun e he ↦ h e (he ▸ List.mem_cons_self), fun e he ↦ h e (List.mem_cons_of_mem _ he)⟩
  · intro h e he
    cases List.mem_cons.mp he with
    | inl heq => exact h.1 e heq.symm
    | inr hmem => exact h.2 e hmem

/-- The events that wait in the queue. -/
structure Waiting (q : KeyQueue) (l : List Press) : Prop where
  short : l.length < keyQueueLen
  holds : (⟨q.slots, q.f, q.r, l.length⟩ : Ring keyQueueLen (BitVec 32)).Holds
    (l.map Press.amCode)

namespace Waiting

variable {map : Keymap} {q : KeyQueue} {l : List Press} {p : Press}

theorem initial : Waiting .initial [] :=
  ⟨by decide, Ring.Holds.empty (by decide) rfl rfl rfl⟩

theorem event (h : Waiting q l) {e : KeyEvent} (hp : lookUp map e = some p) :
    ∃ q', eventThread map q e = some q' ∧ Waiting q' (accept l p) := by
  rw [eventThread, hp, Option.map_some, accept]
  refine ⟨_, rfl, ?_⟩
  by_cases hkey : p.key.val ≠ 0
  · rw [if_pos hkey, if_pos hkey]
    have hlen : (l.map Press.amCode).length < keyQueueLen := by
      rw [List.length_map]
      exact h.short
    have hpush := h.holds.push hlen p.amCode
    by_cases hroom : l.length + 1 < keyQueueLen
    · rw [if_pos hroom]
      refine ⟨by rw [List.length_append]; exact hroom, ?_⟩
      rw [List.map_append, List.length_append]
      exact hpush
    · -- The tail has come round to the head, which is how an empty queue looks.
      have hfull : l.length + 1 = keyQueueLen := by
        have := h.short
        omega
      have htail := hpush.tail_eq
      rw [List.length_append, List.length_map, List.length_singleton, hfull,
        Nat.add_mod_right] at htail
      rw [if_neg hroom]
      refine ⟨by decide, hpush.head_lt, by decide, rfl, htail, ?_⟩
      exact fun i hi ↦ absurd hi (Nat.not_lt_zero i)
  · rw [if_neg hkey, if_neg hkey]
    exact h

theorem read_nil (h : Waiting q []) : inputKeybrd q = (⟨false, 0⟩, q) := by
  have hempty : q.f = q.r := by
    have htail : q.r = (q.f + 0) % keyQueueLen := h.holds.tail_eq
    have hlt : q.f < keyQueueLen := h.holds.head_lt
    rw [Nat.add_zero, Nat.mod_eq_of_lt hlt] at htail
    exact htail.symm
  rw [inputKeybrd, if_neg (fun hne ↦ hne hempty)]
  rfl

theorem read_cons (h : Waiting q (p :: l)) :
    (inputKeybrd q).1 = p.report ∧ Waiting (inputKeybrd q).2 l := by
  have hne : q.f ≠ q.r := by
    have htail := h.holds.tail_eq
    have hlt := h.holds.head_lt
    have hround := @Ring.add_mod_ne keyQueueLen q.f 0 (p :: l).length (Nat.succ_pos _) h.short
    rw [List.length_map] at htail
    rw [Nat.add_zero, Nat.mod_eq_of_lt hlt] at hround
    exact fun heq ↦ hround (heq.trans htail)
  have hholds := h.holds
  rw [List.map_cons] at hholds
  have hfront : q.slots q.f = p.amCode := hholds.front
  rw [inputKeybrd, if_pos hne, hfront, keybrd_amCode]
  refine ⟨rfl, Nat.lt_of_succ_lt h.short, ?_⟩
  have hpop := hholds.pop
  have hcount : ((p :: l).length : ℤ) - 1 = l.length := by
    rw [List.length_cons]
    omega
  rw [Ring.pop, hcount] at hpop
  exact hpop

theorem run_eq (ops : List Op) (h : Waiting q l) :
    (InTable ops ∧ run map ops q = some (ideal map ops l)) ∨
      (¬ InTable ops ∧ run map ops q = none) := by
  induction ops generalizing q l with
  | nil => exact Or.inl ⟨fun e he ↦ absurd he List.not_mem_nil, rfl⟩
  | cons op ops ih =>
    rw [InTable.cons_iff]
    cases op with
    | event e =>
      by_cases hscancode : e.scancode < 256
      · have hlook : lookUp map e = some ⟨map ⟨e.scancode, hscancode⟩, e.keydown⟩ :=
          dif_pos hscancode
        obtain ⟨q', hevent, hwaiting⟩ := h.event hlook
        rw [run, ideal, hevent, hlook, Option.bind_some, Option.elim_some]
        refine (ih hwaiting).imp (fun hrun ↦ ⟨⟨fun e' he' ↦ ?_, hrun.1⟩, hrun.2⟩)
          fun hrun ↦ ⟨fun hin ↦ hrun.1 hin.2, hrun.2⟩
        cases he'
        exact hscancode
      · refine Or.inr ⟨fun hin ↦ hscancode (hin.1 e rfl), ?_⟩
        rw [run, eventThread, lookUp, dif_neg hscancode]
        rfl
    | read =>
      have hread : ∀ e : KeyEvent, Op.read = .event e → e.scancode < 256 := by
        intro e he
        cases he
      rw [run]
      cases l with
      | nil =>
        rw [ideal, h.read_nil]
        refine (ih h).imp (fun hrun ↦ ⟨⟨hread, hrun.1⟩, ?_⟩) fun hrun ↦ ⟨fun hin ↦ hrun.1 hin.2, ?_⟩
        · rw [hrun.2, Option.map_some]
        · rw [hrun.2, Option.map_none]
      | cons p l =>
        obtain ⟨hreport, hrest⟩ := h.read_cons
        rw [ideal, hreport]
        refine (ih hrest).imp (fun hrun ↦ ⟨⟨hread, hrun.1⟩, ?_⟩)
          fun hrun ↦ ⟨fun hin ↦ hrun.1 hin.2, ?_⟩
        · rw [hrun.2, Option.map_some]
        · rw [hrun.2, Option.map_none]

end Waiting

/-- Over every order of events and reads each event is reported once, with its key and its
direction and in the order of the events, as long as fewer than `keyQueueLen` wait; the event that
fills the queue makes all that wait, itself included, disappear. This ends only where the scancode
of an event lies outside of `keymap`. -/
theorem reads_ideal (sdlScancode : Fin amKeys → Fin 256) (ops : List Op) :
    (InTable ops ∧ run (keymap sdlScancode) ops .initial =
      some (ideal (keymap sdlScancode) ops [])) ∨
    (¬ InTable ops ∧ run (keymap sdlScancode) ops .initial = none) :=
  Waiting.run_eq ops Waiting.initial

end OsWorkbench.Am.Input
