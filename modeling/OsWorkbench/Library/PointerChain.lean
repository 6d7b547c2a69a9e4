import Mathlib.Data.List.Nodup
import Mathlib.Logic.Function.Basic

namespace OsWorkbench.Library.PointerChain

variable {A : Type*}

/-- The pointer `p` leads along `next` through these nodes; what the last of
them points to is left open. -/
def Linked (next : A → Option A) : A → List A → Prop
  | _, [] => True
  | p, a :: as => a = p ∧ ∃ q, next a = some q ∧ Linked next q as

/-- The pointer `p` leads along `next` through these nodes, and from the last of
them to `q`. -/
def LinkedTo (next : A → Option A) (q : A) : A → List A → Prop
  | p, [] => p = q
  | p, a :: as => a = p ∧ ∃ r, next a = some r ∧ LinkedTo next q r as

variable {next next' : A → Option A} {p q : A} {as : List A}

theorem linked_iff : Linked next p as ↔ ∃ q, LinkedTo next q p as := by
  induction as generalizing p with
  | nil => exact ⟨fun _ ↦ ⟨p, rfl⟩, fun _ ↦ trivial⟩
  | cons a as ih =>
    constructor
    · rintro ⟨rfl, r, hr, hrest⟩
      obtain ⟨q, hq⟩ := ih.mp hrest
      exact ⟨q, rfl, r, hr, hq⟩
    · rintro ⟨q, rfl, r, hr, hrest⟩
      exact ⟨rfl, r, hr, ih.mpr ⟨q, hrest⟩⟩

theorem LinkedTo.linked (h : LinkedTo next q p as) : Linked next p as := linked_iff.mpr ⟨q, h⟩

theorem LinkedTo.congr (h : LinkedTo next q p as) (hn : ∀ a ∈ as, next' a = next a) :
    LinkedTo next' q p as := by
  induction as generalizing p with
  | nil => exact h
  | cons a as ih =>
    obtain ⟨rfl, r, hr, hrest⟩ := h
    refine ⟨rfl, r, (hn a List.mem_cons_self).trans hr, ?_⟩
    exact ih hrest fun b hb ↦ hn b (List.mem_cons_of_mem _ hb)

theorem Linked.congr (h : Linked next p as) (hn : ∀ a ∈ as, next' a = next a) :
    Linked next' p as := by
  obtain ⟨q, hq⟩ := linked_iff.mp h
  exact (hq.congr hn).linked

/-- The nodes and the end of a chain follow from its beginning and its length. -/
theorem LinkedTo.unique {q' : A} {bs : List A} (h : LinkedTo next q p as)
    (h' : LinkedTo next q' p bs) (hlen : as.length = bs.length) : as = bs ∧ q = q' := by
  induction as generalizing p bs with
  | nil =>
    obtain rfl := List.length_eq_zero_iff.mp hlen.symm
    exact ⟨rfl, Eq.trans (Eq.symm h) h'⟩
  | cons a as ih =>
    cases bs with
    | nil => cases hlen
    | cons b bs =>
      obtain ⟨rfl, r, hr, hrest⟩ := h
      obtain ⟨rfl, r', hr', hrest'⟩ := h'
      obtain rfl : r = r' := Option.some.inj (hr.symm.trans hr')
      obtain ⟨rfl, hq⟩ := ih hrest hrest' (Nat.succ.inj hlen)
      exact ⟨rfl, hq⟩

theorem Linked.head (h : Linked next p as) (hne : as ≠ []) :
    ∃ rest, as = p :: rest := by
  cases as with
  | nil => exact absurd rfl hne
  | cons a as => exact ⟨as, by rw [h.1]⟩

def follow (next : A → Option A) : ℕ → A → Option A
  | 0, p => some p
  | n + 1, p => next p >>= follow next n

theorem Linked.follow (h : Linked next p as) {n : ℕ} (hn : n < as.length) :
    follow next n p = some as[n] := by
  induction n generalizing p as with
  | zero =>
    obtain ⟨rest, rfl⟩ := h.head (List.ne_nil_of_length_pos hn)
    rfl
  | succ n ih =>
    cases as with
    | nil => simp at hn
    | cons a as =>
      obtain ⟨rfl, q, hq, hrest⟩ := h
      simp only [PointerChain.follow, hq, Option.bind_eq_bind, Option.bind_some,
        List.getElem_cons_succ]
      exact ih hrest (by simpa using hn)

section Insert

variable [DecidableEq A]

def insertAfter (c a : A) : List A → List A
  | [] => []
  | x :: xs => if x = c then x :: a :: xs else x :: insertAfter c a xs

theorem insertAfter_perm {c a : A} (hc : c ∈ as) :
    (insertAfter c a as).Perm (a :: as) := by
  induction as with
  | nil => simp at hc
  | cons x as ih =>
    rw [insertAfter]
    split_ifs with hx
    · exact List.Perm.swap a x as
    · have hc' : c ∈ as := (List.mem_cons.mp hc).resolve_left fun h ↦ hx h.symm
      exact ((ih hc').cons x).trans (List.Perm.swap a x as)

/-- A node that is spliced in changes neither the beginning nor the end of the chain. -/
theorem LinkedTo.insertAfter {c a r : A} (h : LinkedTo next q p as) (hd : as.Nodup)
    (hc : c ∈ as) (ha : a ∉ as) (hr : next c = some r) (hn : ∀ b, b ≠ c → b ≠ a → next' b = next b)
    (hnc : next' c = some a) (hna : next' a = some r) :
    LinkedTo next' q p (insertAfter c a as) := by
  induction as generalizing p with
  | nil => simp at hc
  | cons x as ih =>
    obtain ⟨rfl, r', hr', hrest⟩ := h
    obtain ⟨hxnot, hd'⟩ := List.nodup_cons.mp hd
    rw [PointerChain.insertAfter]
    split_ifs with hx
    · subst hx
      have hrr : r = r' := Option.some.inj (hr.symm.trans hr')
      refine ⟨rfl, a, hnc, rfl, r, hna, ?_⟩
      rw [hrr]
      refine hrest.congr fun b hb ↦ hn b ?_ ?_
      · exact fun he ↦ hxnot (he ▸ hb)
      · exact fun he ↦ ha (he ▸ List.mem_cons_of_mem _ hb)
    · have hc' : c ∈ as := (List.mem_cons.mp hc).resolve_left fun he ↦ hx he.symm
      have ha' : a ∉ as := fun hm ↦ ha (List.mem_cons_of_mem _ hm)
      have hxa : x ≠ a := fun he ↦ ha (he ▸ List.mem_cons_self)
      exact ⟨rfl, r', (hn x hx hxa).trans hr', ih hrest hd' hc' ha'⟩

end Insert

theorem LinkedTo.unlink {u t r : A} {pre post : List A}
    (h : LinkedTo next q p (pre ++ u :: t :: post)) (hd : (pre ++ u :: t :: post).Nodup)
    (hr : next t = some r) (hn : ∀ b, b ≠ u → b ≠ t → next' b = next b) (hnu : next' u = some r) :
    LinkedTo next' q p (pre ++ u :: post) := by
  induction pre generalizing p with
  | nil =>
    obtain ⟨rfl, _, _, rfl, r', hr', hrest⟩ := h
    obtain ⟨hunot, htpost⟩ := List.nodup_cons.mp hd
    obtain ⟨htnot, _⟩ := List.nodup_cons.mp htpost
    have hrr : r' = r := Option.some.inj (hr'.symm.trans hr)
    refine ⟨rfl, r, hnu, ?_⟩
    rw [← hrr]
    refine hrest.congr fun b hb ↦ hn b ?_ ?_
    · exact fun he ↦ hunot (he ▸ List.mem_cons_of_mem _ hb)
    · exact fun he ↦ htnot (he ▸ hb)
  | cons x pre ih =>
    obtain ⟨rfl, r', hr', hrest⟩ := h
    obtain ⟨hxnot, hd'⟩ := List.nodup_cons.mp hd
    refine ⟨rfl, r', (hn x ?_ ?_).trans hr', ih hrest hd'⟩
    · exact fun he ↦ hxnot (by simp [he])
    · exact fun he ↦ hxnot (by simp [he])

end OsWorkbench.Library.PointerChain
