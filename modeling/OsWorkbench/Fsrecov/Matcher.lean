import OsWorkbench.Fsrecov.OneToOne

namespace OsWorkbench.Fsrecov

variable (img : Image)

/-- The calls of `matched` in the inner loop of `match_entries`, up to an assertion that
fails; a call is the pair of the addresses that it gets. -/
def matchedTails (head : ℤ) : List EntryPart → List (ℤ × ℤ)
  | [] => []
  | ⟨none, _⟩ :: tails => matchedTails head tails
  | ⟨some tail, _⟩ :: tails =>
    (head, tail) ::
      match matched img (img.entry head) (img.entry tail) with
      | .ok _ => matchedTails head tails
      | .error _ => []

/-- The calls of `matched` in both loops, each inner loop over the tails that the ones
before it have left. -/
def matchedCalls : List EntryPart → List EntryPart → List (ℤ × ℤ)
  | [], _ => []
  | ⟨none, _⟩ :: _, _ => []
  | ⟨some head, len⟩ :: heads, tails =>
    matchedTails img head tails ++
      match matchTails img 0 head len 0 tails with
      | .ok (_, tails) => matchedCalls heads tails
      | .error _ => []

variable {img}

theorem matchedTails_live {head : ℤ} {tails : List EntryPart} (j : ℕ) :
    ∀ c ∈ matchedTails img head tails, c.1 = head ∧ ∃ t ∈ live j tails, t.entry = c.2 := by
  induction tails generalizing j with
  | nil => exact fun c hc ↦ absurd hc List.not_mem_nil
  | cons part tails ih =>
    obtain ⟨_ | p, len⟩ := part
    · exact ih (j + 1)
    · intro c hc
      rcases List.mem_cons.mp hc with rfl | hc
      · exact ⟨rfl, _, List.mem_cons_self, rfl⟩
      · split at hc
        · obtain ⟨hhead, t, ht, hp⟩ := ih (j + 1) c hc
          exact ⟨hhead, t, List.mem_cons_of_mem _ ht, hp⟩
        · cases hc

/-- What `matched` asserts holds in every call, also when earlier ones have consumed tails:
the tails that are left were there before. -/
theorem matchedCalls_kind {heads tails : List EntryPart}
    (hh : ∀ h ∈ heads, ∃ p, h.entry = some p ∧ img.isLong p = true)
    (ht : ∀ t ∈ live 0 tails, img.isLong t.entry = true ∨ img.isBasic t.entry = true) :
    ∀ c ∈ matchedCalls img heads tails,
      img.isLong c.1 = true ∧ (img.isLong c.2 = true ∨ img.isBasic c.2 = true) := by
  induction heads generalizing tails with
  | nil => exact fun c hc ↦ absurd hc List.not_mem_nil
  | cons part heads ih =>
    obtain ⟨p, hp, hl⟩ := hh part List.mem_cons_self
    obtain ⟨_, len⟩ := part
    cases hp
    obtain ⟨rest, hrest, hlive⟩ := matchTails_spec img (h := ⟨0, p, len⟩) hl 0 tails ht
    simp only at hrest
    intro c hc
    rw [matchedCalls, hrest] at hc
    rcases List.mem_append.mp hc with hc | hc
    · obtain ⟨hhead, t, htl, hentry⟩ := matchedTails_live 0 c hc
      rw [hhead, ← hentry]
      exact ⟨hl, ht t htl⟩
    · refine ih (fun h hm ↦ hh h (List.mem_cons_of_mem _ hm)) (fun t hm ↦ ht t ?_) c hc
      exact List.mem_of_mem_filter (hlive ▸ hm)

/-- When the scan has stored inside the arrays, every call of `matched` gets a long entry
and an entry of one of the two kinds, and `match_entries` runs to its end. -/
theorem matcher_asserts {calls : List HandleCall} {w : Waiting}
    (h : scanClusters img = .ok (calls, w)) :
    (∀ c ∈ matchedCalls img w.heads w.tails,
      img.isLong c.1 = true ∧ (img.isLong c.2 = true ∨ img.isBasic c.2 = true)) ∧
    ∃ calls', matchEntries img w = .ok calls' := by
  have hw := (scanClusters_produced img h).queued
  exact ⟨matchedCalls_kind hw.heads (hw.live_tails img), _, matchEntries_spec img hw⟩

theorem clash_asserts :
    (∀ c ∈ matchedCalls clashImage clashWaiting.heads clashWaiting.tails,
      clashImage.isLong c.1 = true ∧ (clashImage.isLong c.2 = true ∨ clashImage.isBasic c.2 = true)) ∧
    ∃ calls', matchEntries clashImage clashWaiting = .ok calls' := by
  obtain ⟨calls, h⟩ := clash_scan
  exact matcher_asserts h

end OsWorkbench.Fsrecov
