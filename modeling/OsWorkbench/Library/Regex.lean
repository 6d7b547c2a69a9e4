import Mathlib.Data.List.MinMax
import Mathlib.Tactic.SplitIfs

namespace OsWorkbench.Library

variable {α : Type*}

/-- Extended regular expressions over sets of characters, with numbered groups. -/
inductive Regex (α : Type*)
  | char (accepts : α → Bool)
  | seq (r s : Regex α)
  | star (r : Regex α)
  | group (i : ℕ) (r : Regex α)
  | start
  | stop

/-- The part of the text that a group has matched. -/
structure Capture where
  group : ℕ
  so : ℕ
  eo : ℕ
  deriving DecidableEq, Repr

namespace Regex

def plus (r : Regex α) : Regex α := .seq r (.star r)

/-- Matches one behind the other, none of them empty. -/
inductive Repeats (R : ℕ → List α → List α → List Capture → Prop) :
    ℕ → List α → List α → List Capture → Prop
  | nil (pos : ℕ) (after : List α) : Repeats R pos [] after []
  | cons {pos : ℕ} {mid mid' after : List α} {caps caps' : List Capture} :
      R pos mid (mid' ++ after) caps → mid ≠ [] → Repeats R (pos + mid.length) mid' after caps' →
        Repeats R pos (mid ++ mid') after (caps ++ caps')

/-- The expression matches `mid`, which begins `pos` characters behind the start
of the text and is followed by `after`; the groups are listed as they end. -/
def Matches : Regex α → ℕ → List α → List α → List Capture → Prop
  | .char accepts, _, mid, _, caps => (∃ a, accepts a = true ∧ mid = [a]) ∧ caps = []
  | .seq r s, pos, mid, after, caps =>
    ∃ left right caps₁ caps₂, mid = left ++ right ∧ caps = caps₁ ++ caps₂ ∧
      r.Matches pos left (right ++ after) caps₁ ∧ s.Matches (pos + left.length) right after caps₂
  | .star r, pos, mid, after, caps => Repeats r.Matches pos mid after caps
  | .group i r, pos, mid, after, caps =>
    ∃ inner, r.Matches pos mid after inner ∧ caps = inner ++ [⟨i, pos, pos + mid.length⟩]
  | .start, pos, mid, _, caps => pos = 0 ∧ mid = [] ∧ caps = []
  | .stop, _, mid, after, caps => after = [] ∧ mid = [] ∧ caps = []

/-- The text contains a match. -/
def Finds (r : Regex α) (text : List α) : Prop :=
  ∃ before mid after caps, text = before ++ (mid ++ after) ∧ r.Matches before.length mid after caps

section Char

variable {accepts : α → Bool} {pos : ℕ} {mid after : List α} {caps : List Capture}

theorem matches_star_char :
    (star (char accepts)).Matches pos mid after caps ↔
      (∀ a ∈ mid, accepts a = true) ∧ caps = [] := by
  constructor
  · intro h
    change Repeats _ pos mid after caps at h
    induction h with
    | nil => simp
    | cons hone _ _ ih =>
      obtain ⟨⟨a, ha, rfl⟩, rfl⟩ := hone
      obtain ⟨hall, rfl⟩ := ih
      exact ⟨List.forall_mem_cons.mpr ⟨ha, hall⟩, rfl⟩
  · rintro ⟨hall, rfl⟩
    induction mid generalizing pos with
    | nil => exact .nil pos after
    | cons a mid ih =>
      obtain ⟨ha, hall⟩ := List.forall_mem_cons.mp hall
      exact .cons ⟨⟨a, ha, rfl⟩, rfl⟩ (List.cons_ne_nil a []) (ih hall)

theorem matches_plus_char :
    (plus (char accepts)).Matches pos mid after caps ↔
      mid ≠ [] ∧ (∀ a ∈ mid, accepts a = true) ∧ caps = [] := by
  constructor
  · rintro ⟨_, right, _, caps₂, rfl, rfl, ⟨⟨a, ha, rfl⟩, rfl⟩, hstar⟩
    obtain ⟨hall, rfl⟩ := matches_star_char.mp hstar
    exact ⟨by simp, List.forall_mem_cons.mpr ⟨ha, hall⟩, rfl⟩
  · rintro ⟨hne, hall, rfl⟩
    obtain ⟨a, right, rfl⟩ := List.exists_cons_of_ne_nil hne
    obtain ⟨ha, hall⟩ := List.forall_mem_cons.mp hall
    exact ⟨[a], right, [], [], rfl, rfl, ⟨⟨a, ha, rfl⟩, rfl⟩, matches_star_char.mpr ⟨hall, rfl⟩⟩

end Char

section Seq

variable {s : Regex α} {pos : ℕ} {mid after : List α} {caps : List Capture}

theorem matches_start_seq :
    (seq start s).Matches pos mid after caps ↔ pos = 0 ∧ s.Matches pos mid after caps := by
  constructor
  · intro ⟨left, right, caps₁, caps₂, hmid, hcaps, ⟨hpos, hleft, hcaps₁⟩, h⟩
    subst hleft hcaps₁ hmid hcaps
    exact ⟨hpos, h⟩
  · intro ⟨hpos, h⟩
    exact ⟨[], mid, [], caps, rfl, rfl, ⟨hpos, rfl, rfl⟩, h⟩

theorem matches_char_seq [BEq α] [LawfulBEq α] {c : α} :
    (seq (char (· == c)) s).Matches pos mid after caps ↔
      ∃ right, mid = c :: right ∧ s.Matches (pos + 1) right after caps := by
  constructor
  · intro ⟨left, right, caps₁, caps₂, hmid, hcaps, ⟨⟨a, ha, hleft⟩, hcaps₁⟩, h⟩
    obtain rfl := eq_of_beq ha
    subst hleft hcaps₁ hmid hcaps
    exact ⟨right, rfl, h⟩
  · intro ⟨right, hmid, h⟩
    exact ⟨[c], right, [], caps, hmid, rfl, ⟨⟨c, beq_self_eq_true c, rfl⟩, rfl⟩, h⟩

theorem matches_star_seq {accepts : α → Bool} :
    (seq (star (char accepts)) s).Matches pos mid after caps ↔
      ∃ left right, mid = left ++ right ∧ (∀ a ∈ left, accepts a = true) ∧
        s.Matches (pos + left.length) right after caps := by
  constructor
  · intro ⟨left, right, caps₁, caps₂, hmid, hcaps, hleft, h⟩
    obtain ⟨hall, hcaps₁⟩ := matches_star_char.mp hleft
    subst hcaps₁ hcaps
    exact ⟨left, right, hmid, hall, h⟩
  · intro ⟨left, right, hmid, hall, h⟩
    exact ⟨left, right, [], caps, hmid, rfl, matches_star_char.mpr ⟨hall, rfl⟩, h⟩

theorem matches_group_seq {i : ℕ} {accepts : α → Bool} :
    (seq (group i (plus (char accepts))) s).Matches pos mid after caps ↔
      ∃ left right caps', mid = left ++ right ∧ caps = ⟨i, pos, pos + left.length⟩ :: caps' ∧
        left ≠ [] ∧ (∀ a ∈ left, accepts a = true) ∧
        s.Matches (pos + left.length) right after caps' := by
  constructor
  · intro ⟨left, right, caps₁, caps₂, hmid, hcaps, ⟨inner, hleft, hcaps₁⟩, h⟩
    obtain ⟨hne, hall, hinner⟩ := matches_plus_char.mp hleft
    subst hinner hcaps₁
    exact ⟨left, right, caps₂, hmid, hcaps, hne, hall, h⟩
  · intro ⟨left, right, caps', hmid, hcaps, hne, hall, h⟩
    exact ⟨left, right, [_], caps', hmid, hcaps,
      ⟨[], matches_plus_char.mpr ⟨hne, hall, rfl⟩, rfl⟩, h⟩

end Seq

/-- The offsets of a group, -1 where it has taken no part in the match. -/
structure Regmatch where
  so : ℤ
  eo : ℤ
  deriving DecidableEq, Repr

/-- The offsets of the whole match and of the last part each group has matched. -/
def regmatches (pos length : ℕ) (caps : List Capture) (i : ℕ) : Regmatch :=
  if i = 0 then ⟨pos, pos + length⟩
  else match caps.reverse.find? (·.group = i) with
    | some cap => ⟨cap.so, cap.eo⟩
    | none => ⟨-1, -1⟩

/-- What is used of `regexec`: it finds a match where there is one. Which of
several it reports is left open. -/
structure Regexec (r : Regex α) where
  exec : List α → Option (ℕ → Regmatch)
  sound : ∀ text found, exec text = some found → ∃ before mid after caps,
    text = before ++ (mid ++ after) ∧ r.Matches before.length mid after caps ∧
      found = regmatches before.length mid.length caps
  complete : ∀ text, r.Finds text → exec text ≠ none

section Search

def repeats (f : ℕ → List α → List (List α × List α × List Capture)) :
    ℕ → ℕ → List α → List (List α × List α × List Capture)
  | 0, _, text => [([], text, [])]
  | fuel + 1, pos, text =>
    ([], text, []) :: ((f pos text).filter fun x ↦ !x.1.isEmpty).flatMap fun (left, rest, caps₁) ↦
      (repeats f fuel (pos + left.length) rest).map fun (right, after, caps₂) ↦
        (left ++ right, after, caps₁ ++ caps₂)

/-- All ways in which a beginning of the text can be matched. -/
def splits : Regex α → ℕ → List α → List (List α × List α × List Capture)
  | .char _, _, [] => []
  | .char accepts, _, a :: text => if accepts a then [([a], text, [])] else []
  | .seq r s, pos, text =>
    (r.splits pos text).flatMap fun (left, rest, caps₁) ↦
      (s.splits (pos + left.length) rest).map fun (right, after, caps₂) ↦
        (left ++ right, after, caps₁ ++ caps₂)
  | .star r, pos, text => repeats r.splits text.length pos text
  | .group i r, pos, text =>
    (r.splits pos text).map fun (mid, after, caps) ↦
      (mid, after, caps ++ [⟨i, pos, pos + mid.length⟩])
  | .start, pos, text => if pos = 0 then [([], text, [])] else []
  | .stop, _, text => if text.isEmpty then [([], text, [])] else []

variable {pos : ℕ} {text mid after : List α} {caps : List Capture}

theorem mem_empty_match {p : Prop} [Decidable p] :
    (mid, after, caps) ∈
        (if p then [([], text, [])] else [] : List (List α × List α × List Capture)) ↔
      p ∧ mid = [] ∧ after = text ∧ caps = [] := by
  split_ifs with h
  · simp [h]
  · simp [h]

theorem repeats_sound {f : ℕ → List α → List (List α × List α × List Capture)}
    {R : ℕ → List α → List α → List Capture → Prop}
    (hf : ∀ {pos text mid after caps}, (mid, after, caps) ∈ f pos text →
      text = mid ++ after ∧ R pos mid after caps) {fuel : ℕ}
    (h : (mid, after, caps) ∈ repeats f fuel pos text) :
    text = mid ++ after ∧ Repeats R pos mid after caps := by
  induction fuel generalizing pos text mid caps with
  | zero =>
    obtain ⟨rfl, rfl, rfl⟩ : mid = [] ∧ after = text ∧ caps = [] := by simpa [repeats] using h
    exact ⟨rfl, .nil pos after⟩
  | succ fuel ih =>
    rcases List.mem_cons.mp h with hnil | hcons
    · obtain ⟨rfl, rfl, rfl⟩ : mid = [] ∧ after = text ∧ caps = [] := by simpa using hnil
      exact ⟨rfl, .nil pos after⟩
    · obtain ⟨⟨left, rest, caps₁⟩, hleft, hmap⟩ := List.mem_flatMap.mp hcons
      obtain ⟨⟨right, after', caps₂⟩, hright, heq⟩ := List.mem_map.mp hmap
      obtain ⟨rfl, rfl, rfl⟩ : left ++ right = mid ∧ after' = after ∧ caps₁ ++ caps₂ = caps := by
        simpa using heq
      obtain ⟨hmem, hne⟩ := List.mem_filter.mp hleft
      obtain ⟨rfl, hone⟩ := hf hmem
      obtain ⟨rfl, hrest⟩ := ih hright
      exact ⟨(List.append_assoc _ _ _).symm, .cons hone (by simpa using hne) hrest⟩

theorem repeats_complete {f : ℕ → List α → List (List α × List α × List Capture)}
    {R : ℕ → List α → List α → List Capture → Prop}
    (hf : ∀ {pos mid after caps}, R pos mid after caps → (mid, after, caps) ∈ f pos (mid ++ after))
    (h : Repeats R pos mid after caps) {fuel : ℕ} (hfuel : mid.length ≤ fuel) :
    (mid, after, caps) ∈ repeats f fuel pos (mid ++ after) := by
  induction h generalizing fuel with
  | nil => cases fuel <;> simp [repeats]
  | @cons pos mid mid' after caps caps' hone hne _ ih =>
    have hpos := List.length_pos_iff.mpr hne
    rw [List.length_append] at hfuel
    obtain ⟨fuel, rfl⟩ : ∃ n, fuel = n + 1 := ⟨fuel - 1, by omega⟩
    rw [List.append_assoc]
    refine List.mem_cons_of_mem _ (List.mem_flatMap.mpr ⟨_, List.mem_filter.mpr ⟨hf hone, ?_⟩, ?_⟩)
    · simpa using hne
    · exact List.mem_map.mpr ⟨_, ih (by omega), rfl⟩

theorem mem_splits_char {accepts : α → Bool} : (mid, after, caps) ∈ (char accepts).splits pos text ↔
    text = mid ++ after ∧ (char accepts).Matches pos mid after caps := by
  cases text with
  | nil =>
    rw [splits]
    constructor
    · simp
    · intro ⟨htext, ⟨a, _, hmid⟩, _⟩
      simp [hmid] at htext
  | cons a text =>
    rw [splits]
    by_cases ha : accepts a = true
    · rw [if_pos ha, List.mem_singleton]
      constructor
      · intro h
        cases h
        exact ⟨rfl, ⟨a, ha, rfl⟩, rfl⟩
      · intro ⟨htext, ⟨b, _, hmid⟩, hcaps⟩
        subst hmid hcaps
        cases htext
        rfl
    · rw [if_neg ha]
      constructor
      · simp
      · intro ⟨htext, ⟨b, hb, hmid⟩, _⟩
        subst hmid
        cases htext
        exact absurd hb ha

theorem mem_splits {r : Regex α} : (mid, after, caps) ∈ r.splits pos text ↔
    text = mid ++ after ∧ r.Matches pos mid after caps := by
  induction r generalizing pos text mid after caps with
  | char accepts => exact mem_splits_char
  | seq r s ihr ihs =>
    constructor
    · intro h
      obtain ⟨⟨left, rest, caps₁⟩, hleft, hmap⟩ := List.mem_flatMap.mp h
      obtain ⟨⟨right, after', caps₂⟩, hright, heq⟩ := List.mem_map.mp hmap
      cases heq
      obtain ⟨rfl, hr⟩ := ihr.mp hleft
      obtain ⟨rfl, hs⟩ := ihs.mp hright
      exact ⟨(List.append_assoc _ _ _).symm, left, right, caps₁, caps₂, rfl, rfl, hr, hs⟩
    · intro ⟨htext, left, right, caps₁, caps₂, hmid, hcaps, hr, hs⟩
      subst htext hmid hcaps
      refine List.mem_flatMap.mpr ⟨_, ihr.mpr ⟨List.append_assoc _ _ _, hr⟩, ?_⟩
      exact List.mem_map.mpr ⟨_, ihs.mpr ⟨rfl, hs⟩, rfl⟩
  | star r ih =>
    constructor
    · intro h
      exact repeats_sound (fun hmem ↦ ih.mp hmem) (h : _ ∈ repeats r.splits text.length pos text)
    · intro ⟨htext, hrep⟩
      subst htext
      exact repeats_complete (fun h ↦ ih.mpr ⟨rfl, h⟩) hrep (by simp)
  | group i r ih =>
    constructor
    · intro h
      obtain ⟨⟨mid', after', inner⟩, hinner, heq⟩ := List.mem_map.mp h
      cases heq
      obtain ⟨rfl, hr⟩ := ih.mp hinner
      exact ⟨rfl, inner, hr, rfl⟩
    · intro ⟨htext, inner, hr, hcaps⟩
      subst htext hcaps
      exact List.mem_map.mpr ⟨_, ih.mpr ⟨rfl, hr⟩, rfl⟩
  | start =>
    rw [splits, mem_empty_match]
    constructor
    · intro ⟨hpos, hmid, hafter, hcaps⟩
      subst hmid hafter hcaps
      exact ⟨rfl, hpos, rfl, rfl⟩
    · intro ⟨htext, hpos, hmid, hcaps⟩
      subst htext hmid
      exact ⟨hpos, rfl, rfl, hcaps⟩
  | stop =>
    rw [splits, mem_empty_match, List.isEmpty_iff]
    constructor
    · intro ⟨htext, hmid, hafter, hcaps⟩
      subst hmid hafter hcaps
      exact ⟨rfl, htext, rfl, rfl⟩
    · intro ⟨htext, hafter, hmid, hcaps⟩
      subst htext hmid
      exact ⟨hafter, rfl, rfl, hcaps⟩

/-- The longest of the leftmost matches. -/
def search (r : Regex α) (text : List α) : Option (ℕ → Regmatch) :=
  (List.range (text.length + 1)).findSome? fun pos ↦
    ((r.splits pos (text.drop pos)).argmax fun x ↦ x.1.length).map fun (mid, _, caps) ↦
      regmatches pos mid.length caps

def regexec (r : Regex α) : Regexec r where
  exec := r.search
  sound := by
    intro text found h
    obtain ⟨pos, hpos, h⟩ := List.exists_of_findSome?_eq_some h
    obtain ⟨⟨mid, after, caps⟩, hmax, rfl⟩ := Option.map_eq_some_iff.mp h
    obtain ⟨htext, hr⟩ := mem_splits.mp (List.argmax_mem hmax)
    have hlen : (text.take pos).length = pos :=
      List.length_take_of_le (Nat.lt_succ_iff.mp (List.mem_range.mp hpos))
    refine ⟨text.take pos, mid, after, caps, ?_, by rwa [hlen], by rw [hlen]⟩
    rw [← htext, List.take_append_drop]
  complete := by
    rintro text ⟨before, mid, after, caps, rfl, hr⟩ hnone
    have hlen : before.length < (before ++ (mid ++ after)).length + 1 := by
      rw [List.length_append, List.length_append]
      omega
    have hat := List.findSome?_eq_none_iff.mp hnone before.length (List.mem_range.mpr hlen)
    rw [Option.map_eq_none_iff, List.argmax_eq_none, List.drop_left] at hat
    exact List.not_mem_nil (hat ▸ mem_splits.mpr ⟨rfl, hr⟩)

end Search

end Regex

end OsWorkbench.Library
