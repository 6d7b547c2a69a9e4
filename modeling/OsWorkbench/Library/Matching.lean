import Mathlib.Data.List.Nodup
import Mathlib.Data.List.Perm.Basic

namespace OsWorkbench.Library.Matching

variable {H T K : Type*} [DecidableEq K] (hk : H → K) (tk : T → K)

/-- Greedy matching by key: every head in turn takes all tails of its key that
no earlier head has taken. -/
def pairs : List H → List T → List (H × T)
  | [], _ => []
  | h :: hs, ts => (ts.filter (tk · = hk h)).map (h, ·) ++ pairs hs (ts.filter (tk · ≠ hk h))

/-- The tails that no head takes. -/
def left (hs : List H) (ts : List T) : List T := ts.filter fun t ↦ ∀ h ∈ hs, tk t ≠ hk h

variable {hk tk}

theorem left_cons (h : H) (hs : List H) (ts : List T) :
    left hk tk (h :: hs) ts = left hk tk hs (ts.filter (tk · ≠ hk h)) := by
  simp only [left, List.filter_filter, List.forall_mem_cons]
  congr 1
  funext t
  simp [Bool.and_comm]

variable (hk tk) in
/-- Every tail ends up in exactly one pair or is left over. -/
theorem pairs_perm (hs : List H) (ts : List T) :
    ((pairs hk tk hs ts).map Prod.snd ++ left hk tk hs ts).Perm ts := by
  induction hs generalizing ts with
  | nil => simp [pairs, left]
  | cons h hs ih =>
    have hsplit := List.filter_append_perm (tk · = hk h) ts
    rw [left_cons]
    simp only [pairs, List.map_append, List.map_map, List.append_assoc]
    have hid : (ts.filter (tk · = hk h)).map (Prod.snd ∘ fun t ↦ (h, t)) =
        ts.filter (tk · = hk h) := by
      rw [show (Prod.snd ∘ fun t : T ↦ (h, t)) = id from rfl, List.map_id]
    rw [hid]
    refine (List.Perm.append_left _ (ih _)).trans ?_
    simpa using hsplit

theorem fst_mem_of_mem_pairs {hs : List H} {ts : List T} {p : H × T}
    (hp : p ∈ pairs hk tk hs ts) : p.1 ∈ hs := by
  induction hs generalizing ts with
  | nil => simp [pairs] at hp
  | cons h hs ih =>
    rcases List.mem_append.mp hp with hp | hp
    · obtain ⟨t, _, rfl⟩ := List.mem_map.mp hp
      exact List.mem_cons_self
    · exact List.mem_cons_of_mem _ (ih hp)

theorem snd_mem_of_mem_pairs {hs : List H} {ts : List T} {p : H × T}
    (hp : p ∈ pairs hk tk hs ts) : p.2 ∈ ts :=
  (pairs_perm hk tk hs ts).mem_iff.mp
    (List.mem_append_left _ (List.mem_map_of_mem (f := Prod.snd) hp))

theorem key_eq_of_mem_pairs {hs : List H} {ts : List T} {p : H × T}
    (hp : p ∈ pairs hk tk hs ts) : tk p.2 = hk p.1 := by
  induction hs generalizing ts with
  | nil => simp [pairs] at hp
  | cons h hs ih =>
    rcases List.mem_append.mp hp with hp | hp
    · obtain ⟨t, ht, rfl⟩ := List.mem_map.mp hp
      simpa using (List.mem_filter.mp ht).2
    · exact ih hp

theorem filter_filter_key (h h' : H) (ts : List T) :
    (ts.filter (tk · ≠ hk h)).filter (tk · = hk h') =
      if hk h' = hk h then [] else ts.filter (tk · = hk h') := by
  rw [List.filter_filter]
  split_ifs with hkk
  · apply List.filter_eq_nil_iff.mpr
    intro t _
    simp only [hkk, ne_eq, decide_not, Bool.and_eq_true, decide_eq_true_eq,
      Bool.not_eq_eq_eq_not, Bool.not_true, decide_eq_false_iff_not, not_and, not_not]
    exact id
  · apply List.filter_congr
    intro t _
    by_cases ht : tk t = hk h'
    · simp [ht, hkk]
    · simp [ht]

/-- A head is used for two tails exactly when two tails carry its key. -/
theorem pairs_fst_nodup {hs : List H} (hd : hs.Nodup) (ts : List T) :
    ((pairs hk tk hs ts).map Prod.fst).Nodup ↔
      ∀ h ∈ hs, (ts.filter (tk · = hk h)).length ≤ 1 := by
  induction hs generalizing ts with
  | nil => simp [pairs]
  | cons h hs ih =>
    obtain ⟨hnot, hd'⟩ := List.nodup_cons.mp hd
    have hfst : ((ts.filter (tk · = hk h)).map (h, ·)).map Prod.fst =
        List.replicate (ts.filter (tk · = hk h)).length h := by
      simp [List.map_map, Function.comp_def, List.map_const']
    have hdisj : (List.replicate (ts.filter (tk · = hk h)).length h).Disjoint
        ((pairs hk tk hs (ts.filter (tk · ≠ hk h))).map Prod.fst) := by
      intro x hx hx'
      obtain ⟨p, hp, rfl⟩ := List.mem_map.mp hx'
      exact hnot ((List.eq_of_mem_replicate hx) ▸ fst_mem_of_mem_pairs hp)
    rw [pairs, List.map_append, hfst, List.nodup_append', List.nodup_replicate, ih hd',
      List.forall_mem_cons]
    constructor
    · rintro ⟨hone, hrest, _⟩
      refine ⟨hone, fun h' hh' ↦ ?_⟩
      have hr := hrest h' hh'
      rw [filter_filter_key] at hr
      by_cases hkk : hk h' = hk h
      · simpa only [hkk] using hone
      · simpa only [hkk, if_false] using hr
    · rintro ⟨hone, hrest⟩
      refine ⟨hone, fun h' hh' ↦ ?_, hdisj⟩
      rw [filter_filter_key]
      split_ifs
      · simp
      · exact hrest h' hh'

/-- With distinct keys no head gets in another one's way. -/
theorem pairs_of_nodup_keys {hs : List H} (hd : (hs.map hk).Nodup) (ts : List T) :
    pairs hk tk hs ts = hs.flatMap fun h ↦ (ts.filter (tk · = hk h)).map (h, ·) := by
  induction hs generalizing ts with
  | nil => simp [pairs]
  | cons h hs ih =>
    obtain ⟨hnot, hd'⟩ := List.nodup_cons.mp hd
    rw [pairs, ih hd', List.flatMap_cons]
    congr 1
    refine List.flatMap_congr fun h' hh' ↦ ?_
    have hne : hk h' ≠ hk h := fun he ↦ hnot (he ▸ List.mem_map_of_mem hh')
    rw [filter_filter_key, if_neg hne]

section Map

variable {H' T' : Type*} (f : H' → H) (g : T' → T)

theorem pairs_map (hs : List H') (ts : List T') :
    pairs hk tk (hs.map f) (ts.map g) =
      (pairs (hk ∘ f) (tk ∘ g) hs ts).map fun p ↦ (f p.1, g p.2) := by
  induction hs generalizing ts with
  | nil => rfl
  | cons h hs ih =>
    simp only [pairs, List.map_cons, List.map_append, List.filter_map, List.map_map, ih]
    rfl

theorem left_map (hs : List H') (ts : List T') :
    left hk tk (hs.map f) (ts.map g) = (left (hk ∘ f) (tk ∘ g) hs ts).map g := by
  simp only [left, List.filter_map, List.forall_mem_map]
  rfl

end Map

theorem pairs_perm_congr {hs hs' : List H} {ts ts' : List T} (hh : hs.Perm hs') (ht : ts.Perm ts')
    (hd : (hs.map hk).Nodup) : (pairs hk tk hs ts).Perm (pairs hk tk hs' ts') := by
  have hd' : (hs'.map hk).Nodup := ((hh.map hk).nodup_iff).mp hd
  rw [pairs_of_nodup_keys hd, pairs_of_nodup_keys hd']
  exact hh.flatMap fun h _ ↦ (ht.filter _).map _

theorem left_perm_congr {hs hs' : List H} {ts ts' : List T} (hh : hs.Perm hs') (ht : ts.Perm ts') :
    (left hk tk hs ts).Perm (left hk tk hs' ts') := by
  have hsame : left hk tk hs ts = left hk tk hs' ts := by
    apply List.filter_congr
    intro t _
    simp only [hh.mem_iff]
  rw [hsame]
  exact ht.filter _

theorem filter_key {C : Type*} {key : C → K} {cs : List C} (hd : (cs.map key).Nodup) {c : C}
    (hc : c ∈ cs) : cs.filter (key · = key c) = [c] := by
  induction cs with
  | nil => simp at hc
  | cons x cs ih =>
    obtain ⟨hnot, hd'⟩ := List.nodup_cons.mp hd
    rcases List.mem_cons.mp hc with rfl | hc
    · have hrest : cs.filter (key · = key c) = [] := by
        apply List.filter_eq_nil_iff.mpr
        intro y hy
        simp only [decide_eq_true_eq]
        exact fun he ↦ hnot (he ▸ List.mem_map_of_mem hy)
      rw [List.filter_cons, if_pos (by simp), hrest]
    · have hne : key x ≠ key c := fun he ↦ hnot (he ▸ List.mem_map_of_mem hc)
      rw [List.filter_cons, if_neg (by simpa using hne), ih hd' hc]

section Halves

variable {C S : Type*} {key : C → K} {head : C → H} {tail : C → T} {single : S → T}
  (hhead : ∀ c, hk (head c) = key c) (htail : ∀ c, tk (tail c) = key c)
include hhead htail

theorem filter_halves {cs : List C} (hd : (cs.map key).Nodup) {ss : List S}
    (hs : ∀ c ∈ cs, ∀ s ∈ ss, tk (single s) ≠ key c) {c : C} (hc : c ∈ cs) :
    (cs.map tail ++ ss.map single).filter (tk · = hk (head c)) = [tail c] := by
  have hsingle : (ss.map single).filter (tk · = hk (head c)) = [] := by
    apply List.filter_eq_nil_iff.mpr
    intro t ht
    obtain ⟨s, hsm, rfl⟩ := List.mem_map.mp ht
    simpa only [hhead, decide_eq_true_eq] using hs c hc s hsm
  rw [List.filter_append, hsingle, List.append_nil, List.filter_map]
  have hkey : cs.filter ((fun t ↦ decide (tk t = hk (head c))) ∘ tail) =
      cs.filter (key · = key c) := by
    simp only [Function.comp_def, hhead, htail]
  rw [hkey, filter_key hd hc, List.map_singleton]

/-- When every item is cut into a head and a tail of its own key, the matching
puts the halves together again and leaves the single tails over. -/
theorem pairs_halves {cs : List C} (hd : (cs.map key).Nodup) {ss : List S}
    (hs : ∀ c ∈ cs, ∀ s ∈ ss, tk (single s) ≠ key c) :
    pairs hk tk (cs.map head) (cs.map tail ++ ss.map single) =
      cs.map fun c ↦ (head c, tail c) := by
  have hd' : ((cs.map head).map hk).Nodup := by
    simpa only [List.map_map, Function.comp_def, hhead] using hd
  rw [pairs_of_nodup_keys hd', List.flatMap_map, List.map_eq_flatMap (f := fun c ↦ (head c, tail c))]
  refine List.flatMap_congr fun c hc ↦ ?_
  rw [filter_halves hhead htail hd hs hc]
  rfl

theorem left_halves {cs : List C} {ss : List S}
    (hs : ∀ c ∈ cs, ∀ s ∈ ss, tk (single s) ≠ key c) :
    left hk tk (cs.map head) (cs.map tail ++ ss.map single) = ss.map single := by
  rw [left, List.filter_append]
  have htaken : (cs.map tail).filter (fun t ↦ ∀ h ∈ cs.map head, tk t ≠ hk h) = [] := by
    apply List.filter_eq_nil_iff.mpr
    intro t ht
    obtain ⟨c, hc, rfl⟩ := List.mem_map.mp ht
    simp only [decide_eq_true_eq, not_forall]
    exact ⟨head c, List.mem_map_of_mem hc, fun hne ↦ hne ((htail c).trans (hhead c).symm)⟩
  have hkept : (ss.map single).filter (fun t ↦ ∀ h ∈ cs.map head, tk t ≠ hk h) = ss.map single := by
    apply List.filter_eq_self.mpr
    intro t ht
    obtain ⟨s, hsm, rfl⟩ := List.mem_map.mp ht
    simp only [decide_eq_true_eq, List.forall_mem_map, hhead]
    exact fun c hc ↦ hs c hc s hsm
  rw [htaken, hkept, List.nil_append]

end Halves

end OsWorkbench.Library.Matching
