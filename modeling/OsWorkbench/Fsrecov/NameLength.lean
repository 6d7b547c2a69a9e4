import OsWorkbench.Fsrecov.Sequences

namespace OsWorkbench.Fsrecov

open Library

/-- The number of characters in front of the first one whose low byte is 0. -/
def Entry.charCount (e : Entry) : ℕ :=
  (((List.range 13).map e.nameUnit).takeWhile fun u ↦ u % 256 ≠ 0).length

theorem length_namePiece (e : Entry) : (namePiece e).length = e.charCount := by
  have hlen : (extractNameFromLfn e).length = 14 := by simp [extractNameFromLfn_eq]
  have hunits : ((List.range 13).map fun k ↦ UInt8.ofNat (e.nameUnit k)) =
      ((List.range 13).map e.nameUnit).map UInt8.ofNat := by
    rw [List.map_map]
    rfl
  have hbyte : (fun b : UInt8 ↦ decide (b ≠ 0)) ∘ UInt8.ofNat = fun u ↦ decide (u % 256 ≠ 0) := by
    funext u
    simp [CString.ofNat_eq_zero]
  rw [namePiece, List.take_of_length_le hlen.le, extractNameFromLfn_eq, hunits, CString.text,
    List.takeWhile_append, List.takeWhile_map, hbyte, Entry.charCount]
  split_ifs with hall
  · rw [List.length_map] at hall
    simpa using hall.symm
  · exact List.length_map _

theorem length_pieces (init : List Entry) :
    (init.reverse.flatMap namePiece).length = (init.map Entry.charCount).sum := by
  rw [List.length_flatMap, List.map_reverse, List.sum_reverse]
  congr 1
  exact List.map_congr_left fun e _ ↦ length_namePiece e

variable (img : Image)

/-- The concatenation of `handle` leaves its buffer exactly when it has more than 255
characters to take over. -/
theorem handle_overflow_iff (init : List Entry) (e : Entry) :
    handle img (init ++ [e]) = .error .bufferOverflow ↔
      Assembles img e ∧ 255 < (init.map Entry.charCount).sum := by
  have hsome : (fileName init e).isSome ↔ _ := fileName_isSome
  rw [length_pieces] at hsome
  by_cases h : Assembles img e
  · rw [handle_of_assembles img h]
    cases hname : fileName init e with
    | none =>
      rw [hname] at hsome
      simp only [Option.isSome_none, Bool.false_eq_true, false_iff, not_le] at hsome
      exact iff_of_true rfl ⟨h, hsome⟩
    | some name =>
      rw [hname] at hsome
      have hle := hsome.mp rfl
      exact iff_of_false nofun fun hover ↦ absurd hover.2 (not_lt.mpr hle)
  · rw [handle_of_not_assembles img h]
    exact iff_of_false nofun fun hover ↦ h hover.1

/-- The buffer holds the name in every call of `handle` exactly when no bitmap in the
image stands behind long entries of more than 255 characters. -/
theorem names_fit_iff (h32 : 32 ∣ clusterBytes img) :
    (∀ call, Handled img call → handle img (call.entries img) ≠ .error .bufferOverflow) ↔
      ∀ init e, Sequence img (init ++ [e]) → Assembles img e →
        (init.map Entry.charCount).sum ≤ 255 := by
  rw [forall_handled_iff h32 fun es ↦ handle img es ≠ .error .bufferOverflow]
  constructor
  · intro hall init e hseq he
    by_contra hover
    exact hall _ hseq ((handle_overflow_iff img init e).mpr ⟨he, not_le.mp hover⟩)
  · intro hall es hseq
    rcases List.eq_nil_or_concat es with rfl | ⟨init, e, rfl⟩
    · exact nofun
    · rw [List.concat_eq_append] at hseq ⊢
      intro hover
      obtain ⟨he, hlt⟩ := (handle_overflow_iff img init e).mp hover
      exact absurd (hall init e hseq he) (not_le.mpr hlt)

/-- Twenty long entries of 13 characters each stand in front of the entry of a bitmap. -/
def crowdedImage : Image := pagedGeometry.format fun k ↦
  if k < 20 then longSlotOf 0x41 0 (List.replicate 13 0x61)
  else if k = 20 then fileSlot 3 1
  else if k = 32 then slotOfBytes [0x42, 0x4D] else slotOfBytes []

theorem crowded_handled : Handled crowdedImage (.walked 1024 21) :=
  handled_pagedGeometry [] (by decide +kernel) (by decide +kernel) (by decide +kernel)

/-- 260 characters are concatenated in a buffer of 256 bytes. -/
theorem crowded_overflow : crowdedImage.Mapped 4096 ∧ crowdedImage.WellFormed ∧
    ∃ call, Handled crowdedImage call ∧
      handle crowdedImage (call.entries crowdedImage) = .error .bufferOverflow := by
  refine ⟨pagedGeometry_mapped _, pagedGeometry_wellFormed _, _, crowded_handled, ?_⟩
  rw [HandleCall.entries, Image.entries_snoc, handle_overflow_iff]
  refine ⟨⟨?_, by decide +kernel⟩, by decide +kernel⟩
  rw [goesOn_iff]
  decide +kernel

theorem crowded_fit_iff :
    (∀ call, Handled crowdedImage call →
      handle crowdedImage (call.entries crowdedImage) ≠ .error .bufferOverflow) ↔
      ∀ init e, Sequence crowdedImage (init ++ [e]) → Assembles crowdedImage e →
        (init.map Entry.charCount).sum ≤ 255 :=
  names_fit_iff crowdedImage (pagedGeometry_wellFormed _).dvd_clusterBytes

end OsWorkbench.Fsrecov
