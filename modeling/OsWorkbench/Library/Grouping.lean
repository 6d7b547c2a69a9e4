import Mathlib.Data.List.Basic

namespace OsWorkbench.Library.Grouping

variable {α : Type*}

/-- A list cut into groups: each group is finished by a closing element, the
last one may still be open, and `rest` begins with an element of neither kind. -/
structure Grouped (α : Type*) where
  groups : List (List α)
  pending : List α
  rest : List α

variable (closes continues : α → Bool)

def group : List α → List α → Grouped α
  | pending, [] => ⟨[], pending, []⟩
  | pending, x :: xs =>
    if closes x then
      ⟨(pending ++ [x]) :: (group [] xs).groups, (group [] xs).pending, (group [] xs).rest⟩
    else if continues x then group (pending ++ [x]) xs
    else ⟨[], pending, x :: xs⟩

/-- Elements that continue a group without closing it. -/
def Open (x : α) : Prop := continues x = true ∧ closes x = false

/-- Open elements followed by one closing element. -/
def Block (b : List α) : Prop :=
  ∃ init last, b = init ++ [last] ∧ (∀ x ∈ init, Open closes continues x) ∧ closes last = true

variable {closes continues}

theorem group_open {run : List α} (h : ∀ x ∈ run, Open closes continues x) (pending xs : List α) :
    group closes continues pending (run ++ xs) = group closes continues (pending ++ run) xs := by
  induction run generalizing pending with
  | nil => simp
  | cons x run ih =>
    obtain ⟨hc, hn⟩ := h x List.mem_cons_self
    have ih' := ih (fun y hy ↦ h y (List.mem_cons_of_mem _ hy)) (pending ++ [x])
    simp only [List.cons_append, group, hn, hc, Bool.false_eq_true, if_false, if_true, ih',
      List.append_assoc, List.nil_append]

theorem group_block {b : List α} (h : Block closes continues b) (xs : List α) :
    group closes continues [] (b ++ xs) =
      ⟨b :: (group closes continues [] xs).groups, (group closes continues [] xs).pending,
        (group closes continues [] xs).rest⟩ := by
  obtain ⟨init, last, rfl, hi, hl⟩ := h
  rw [List.append_assoc, group_open hi]
  simp [group, hl]

theorem group_blocks {bs : List (List α)} (h : ∀ b ∈ bs, Block closes continues b)
    (xs : List α) :
    group closes continues [] (bs.flatten ++ xs) =
      ⟨bs ++ (group closes continues [] xs).groups, (group closes continues [] xs).pending,
        (group closes continues [] xs).rest⟩ := by
  induction bs with
  | nil => simp
  | cons b bs ih =>
    rw [List.flatten_cons, List.append_assoc, group_block (h b List.mem_cons_self),
      ih (fun c hc ↦ h c (List.mem_cons_of_mem _ hc))]
    simp

/-- The elements of the two kinds at the front of the list end in an open one. -/
def EndsOpen (closes continues : α → Bool) (xs : List α) : Prop :=
  ∃ i < xs.length, (∀ x ∈ xs.take (i + 1), closes x = true ∨ continues x = true) ∧
    (∀ x ∈ xs[i]?, closes x = false) ∧ ∀ x ∈ xs[i + 1]?, closes x = false ∧ continues x = false

instance (xs : List α) : Decidable (EndsOpen closes continues xs) :=
  inferInstanceAs (Decidable (∃ i < xs.length,
    (∀ x ∈ xs.take (i + 1), closes x = true ∨ continues x = true) ∧
    (∀ x ∈ xs[i]?, closes x = false) ∧ ∀ x ∈ xs[i + 1]?, closes x = false ∧ continues x = false))

theorem endsOpen_cons {x : α} {xs : List α} : EndsOpen closes continues (x :: xs) ↔
    (closes x = true ∨ continues x = true) ∧
      ((closes x = false ∧ ∀ y ∈ xs[0]?, closes y = false ∧ continues y = false) ∨
        EndsOpen closes continues xs) := by
  constructor
  · rintro ⟨i, hi, hrun, hlast, hstop⟩
    rw [List.take_succ_cons, List.forall_mem_cons] at hrun
    refine ⟨hrun.1, ?_⟩
    cases i with
    | zero => exact .inl ⟨hlast x rfl, hstop⟩
    | succ i => exact .inr ⟨i, Nat.lt_of_succ_lt_succ hi, hrun.2, hlast, hstop⟩
  · rintro ⟨hx, ⟨hc, hstop⟩ | ⟨i, hi, hrun, hlast, hstop⟩⟩
    · exact ⟨0, Nat.succ_pos _, by simpa using hx, by simpa using hc, hstop⟩
    · refine ⟨i + 1, Nat.succ_lt_succ hi, ?_, hlast, hstop⟩
      rw [List.take_succ_cons, List.forall_mem_cons]
      exact ⟨hx, hrun⟩

/-- A group stays open at the end exactly when the list ends in an open element, or
nothing was taken and the group had been open before. -/
theorem group_pending_ne_nil (pending xs : List α) :
    (group closes continues pending xs).pending ≠ [] ↔ EndsOpen closes continues xs ∨
      (pending ≠ [] ∧ ∀ y ∈ xs[0]?, closes y = false ∧ continues y = false) := by
  induction xs generalizing pending with
  | nil => simp [group, EndsOpen]
  | cons x xs ih =>
    rw [endsOpen_cons]
    unfold group
    split_ifs with hc hn
    · simp [ih [], hc]
    · have hc' : closes x = false := eq_false_of_ne_true hc
      simp [ih (pending ++ [x]), hc', hn, or_comm]
    · have hc' : closes x = false := eq_false_of_ne_true hc
      have hn' : continues x = false := eq_false_of_ne_true hn
      simp [hc', hn']

end OsWorkbench.Library.Grouping
