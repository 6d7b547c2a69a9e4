import OsWorkbench.Fsrecov.Sequences

namespace OsWorkbench.Fsrecov

open Library

/-- The long entry belongs to the short entry. -/
def Carries (short l : Entry) : Prop := l.ldirChksum = calcChecksum short.dirName

instance (short l : Entry) : Decidable (Carries short l) := inferInstanceAs (Decidable (_ = _))

variable (img : Image)

/-- No bitmap stands behind long entries of another file, where the program does not look
at their checksums: inside a cluster it looks at none of them, and when it joins a head
and a tail, it compares the first entry of the one with the first entry of the other. -/
structure Unmixed : Prop where
  inside : ∀ start, Reached img start → ∀ init e, init ++ [e] ∈ (clusterGroups img start).groups →
    Assembles img e → ∀ l ∈ init, Carries e l
  across : AllReached img → ∀ p ∈ Matching.pairs Prod.fst Prod.fst
      ((directoryClusters img).filterMap (openRun img))
      ((directoryClusters img).filterMap (frontRun img)),
    ∀ init e, p.2.2 = init ++ [e] → Assembles img e →
      (∀ l ∈ p.1.2.tail ++ init, Carries e l) ∧
      ∀ t ∈ p.2.2.head?, isDirentLong t = true → Carries e t

variable {img}

theorem openRun_eq_some {start : ℤ} {r : UInt8 × List Entry} (h : openRun img start = some r) :
    ∃ l rest, r = (l.ldirChksum, l :: rest) := by
  obtain ⟨l, hl, rfl⟩ := Option.map_eq_some_iff.mp h
  obtain ⟨rest, hrest⟩ := List.head?_eq_some_iff.mp hl
  exact ⟨l, rest, by rw [hrest]⟩

theorem StartsInside.frontLen_eq {start : ℤ} (h : StartsInside img start) :
    ∃ n, frontLen img start = n + 1 ∧ (n ≠ 0 → img.isLong start = true) := by
  rw [frontLen, frontPart]
  split_ifs with hl hb
  · exact ⟨_, rfl, fun _ ↦ hl.1⟩
  · exact ⟨0, rfl, fun h0 ↦ absurd rfl h0⟩
  · rcases h with hbasic | hlong
    · exact absurd hbasic hb
    · exact absurd hlong hl

theorem frontRun_eq_some {start : ℤ} {r : UInt8 × List Entry} (h : frontRun img start = some r) :
    ∃ t rest, r = (if isDirentLong t then t.ldirChksum else calcChecksum t.dirName, t :: rest) ∧
      (rest ≠ [] → isDirentLong t = true) := by
  by_cases hs : StartsInside img start
  swap
  · rw [frontRun, if_neg hs] at h
    cases h
  rw [frontRun, if_pos hs] at h
  cases h
  obtain ⟨n, hn, hlong⟩ := hs.frontLen_eq
  refine ⟨img.entry start, img.entries (start + entrySize) n, ?_, ?_⟩
  · rw [hn, Image.entries_succ]
    rfl
  · intro hrest
    apply hlong
    rintro rfl
    exact hrest rfl

/-- The comparison that `matched` has made saves looking at the first entry of the head. -/
theorem carries_joined_iff {p : (UInt8 × List Entry) × (UInt8 × List Entry)}
    (hp : p ∈ Matching.pairs Prod.fst Prod.fst ((directoryClusters img).filterMap (openRun img))
      ((directoryClusters img).filterMap (frontRun img)))
    {init : List Entry} {e : Entry} (hlast : p.2.2 = init ++ [e]) :
    (∀ l ∈ p.1.2 ++ init, Carries e l) ↔ (∀ l ∈ p.1.2.tail ++ init, Carries e l) ∧
      ∀ t ∈ p.2.2.head?, isDirentLong t = true → Carries e t := by
  obtain ⟨_, -, hhead⟩ := List.mem_filterMap.mp (Matching.fst_mem_of_mem_pairs hp)
  obtain ⟨_, -, htail⟩ := List.mem_filterMap.mp (Matching.snd_mem_of_mem_pairs hp)
  obtain ⟨l, rest, hl⟩ := openRun_eq_some hhead
  obtain ⟨t, rest', ht, hlong⟩ := frontRun_eq_some htail
  have hkey := Matching.key_eq_of_mem_pairs hp
  rw [ht] at hlast
  rw [hl, ht] at hkey ⊢
  simp only at hlast hkey
  have hfirst : (∀ x ∈ init, Carries e x) → (Carries e l ↔ (isDirentLong t = true → Carries e t)) := by
    intro hinit
    cases init with
    | nil =>
      obtain ⟨rfl, rfl⟩ := List.cons.inj hlast
      unfold Carries
      rw [← hkey]
      by_cases hlt : isDirentLong t = true
      · simp [hlt]
      · simp [hlt]
    | cons x init =>
      obtain ⟨rfl, hrest⟩ := List.cons.inj hlast
      have hcarries := hinit t List.mem_cons_self
      have hlt := hlong (by rw [hrest]; simp)
      rw [if_pos hlt] at hkey
      unfold Carries at hcarries ⊢
      rw [← hkey]
      simp [hcarries]
  simp only [List.cons_append, List.forall_mem_cons, List.tail_cons, List.head?_cons,
    Option.mem_some_iff, forall_eq', List.forall_mem_append]
  constructor
  · rintro ⟨hcl, hcrest, hcinit⟩
    exact ⟨⟨hcrest, hcinit⟩, (hfirst hcinit).mp hcl⟩
  · rintro ⟨⟨hcrest, hcinit⟩, hct⟩
    exact ⟨(hfirst hcinit).mpr hct, hcrest, hcinit⟩

/-- No file is reported under a foreign long name exactly when the image holds none where
the program does not look. -/
theorem names_own_iff (h32 : 32 ∣ clusterBytes img) :
    (∀ call, Handled img call → ∀ init e, call.entries img = init ++ [e] → Assembles img e →
      ∀ l ∈ init, Carries e l) ↔ Unmixed img := by
  rw [forall_handled_iff h32 fun es ↦ ∀ init e, es = init ++ [e] → Assembles img e →
    ∀ l ∈ init, Carries e l]
  constructor
  · intro hall
    refine ⟨fun start hstart init e hmem ↦ hall _ (.inside hstart hmem) init e rfl, ?_⟩
    intro hreached p hp init e hlast he
    have hseq : Sequence img (p.1.2 ++ p.2.2) :=
      .across hreached (List.mem_append_left _ (List.mem_map_of_mem hp))
    rw [← carries_joined_iff hp hlast]
    exact hall _ hseq (p.1.2 ++ init) e (by rw [hlast, List.append_assoc]) he
  · intro hmix es hseq init e hes he
    cases hseq with
    | inside hstart hmem => exact hmix.inside _ hstart init e (hes ▸ hmem) he
    | across hreached hmem =>
      rcases List.mem_append.mp hmem with hmem | hmem
      · obtain ⟨p, hp, rfl⟩ := List.mem_map.mp hmem
        obtain ⟨_, -, htail⟩ := List.mem_filterMap.mp (Matching.snd_mem_of_mem_pairs hp)
        obtain ⟨t, rest, ht, -⟩ := frontRun_eq_some htail
        obtain ⟨init', e', hlast⟩ := (List.eq_nil_or_concat p.2.2).resolve_left (by simp [ht])
        rw [List.concat_eq_append] at hlast
        rw [hlast, ← List.append_assoc] at hes
        obtain ⟨rfl, heq⟩ := List.append_inj' hes rfl
        obtain rfl := List.singleton_inj.mp heq
        exact (carries_joined_iff hp hlast).mpr (hmix.across hreached p hp init' _ hlast he)
      · obtain ⟨t, ht, rfl⟩ := List.mem_map.mp hmem
        have hlen : t.2.length = 1 := by simpa using (List.mem_filter.mp ht).2
        have hinit := congrArg List.length hes
        rw [hlen, List.length_append, List.length_singleton] at hinit
        obtain rfl : init = [] := List.eq_nil_of_length_eq_zero (by omega)
        simp

/-- The entry of a bitmap stands behind a long entry that a deleted file has left. -/
def orphanImage : Image := pagedGeometry.format fun k ↦
  if k = 0 then longSlotOf 0x41 0 (List.replicate 13 0x61)
  else if k = 1 then fileSlot 3 1
  else if k = 32 then slotOfBytes [0x42, 0x4D] else slotOfBytes []

theorem orphan_handled : Handled orphanImage (.walked 1024 2) :=
  handled_pagedGeometry [] (by decide +kernel) (by decide +kernel) (by decide +kernel)

theorem orphan_foreign : orphanImage.Mapped 4096 ∧ orphanImage.WellFormed ∧
    ¬ ∀ call, Handled orphanImage call → ∀ init e, call.entries orphanImage = init ++ [e] →
      Assembles orphanImage e → ∀ l ∈ init, Carries e l := by
  refine ⟨pagedGeometry_mapped _, pagedGeometry_wellFormed _, fun hall ↦ ?_⟩
  have hgo : GoesOn orphanImage (orphanImage.entry 1056) := by
    rw [goesOn_iff]
    decide +kernel
  have hcarries := hall _ orphan_handled [orphanImage.entry 1024] (orphanImage.entry 1056) rfl
    ⟨hgo, by decide +kernel⟩ _ (List.mem_singleton_self _)
  exact absurd hcarries (by decide +kernel)

theorem orphan_own_iff :
    (∀ call, Handled orphanImage call → ∀ init e, call.entries orphanImage = init ++ [e] →
      Assembles orphanImage e → ∀ l ∈ init, Carries e l) ↔ Unmixed orphanImage :=
  names_own_iff (pagedGeometry_wellFormed _).dvd_clusterBytes

end OsWorkbench.Fsrecov
