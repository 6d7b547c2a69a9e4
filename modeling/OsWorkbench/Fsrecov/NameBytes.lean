import OsWorkbench.Fsrecov.Sequences

namespace OsWorkbench.Fsrecov

open Library

/-- The text that `outprint` shows as the name: the long name, or else what the copy of
the short one finds in `DIR_Name`, `DIR_Attr` and `DIR_NTRes`. -/
def shownName (init : List Entry) (e : Entry) : List UInt8 :=
  if init.reverse.flatMap namePiece = [] then CString.text (e.dirName ++ [e.dirAttr, e.dirNTRes])
  else init.reverse.flatMap namePiece

theorem foldlM_nothing {ls : List Entry} (n : ℕ) (h : ls.flatMap namePiece = []) :
    ls.foldlM (fun name lfn ↦ CString.strncat name (extractNameFromLfn lfn) 14)
      (List.replicate (n + 1) 0) = some (List.replicate (n + 1) 0) := by
  induction ls with
  | nil => rfl
  | cons l ls ih =>
    rw [List.flatMap_cons, List.append_eq_nil_iff] at h
    have hpiece : CString.text ((extractNameFromLfn l).take 14) = [] := h.1
    have hcat : CString.strncat (List.replicate (n + 1) 0) (extractNameFromLfn l) 14 =
        some (List.replicate (n + 1) 0) := by
      rw [CString.strncat, hpiece, CString.text_replicate_zero]
      simp [List.replicate_succ]
    rw [List.foldlM_cons, hcat]
    exact ih h.2

theorem text_fileName {init : List Entry} {e : Entry} {name : List UInt8}
    (h : fileName init e = some name) : CString.text name = shownName init e := by
  obtain ⟨buf, hbuf, hname⟩ := Option.bind_eq_some_iff.mp h
  obtain ⟨buf', hbuf', -, htext⟩ := longName_spec init (longName_fits hbuf)
  rw [hbuf] at hbuf'
  cases hbuf'
  rw [shownName, ← htext]
  split_ifs at hname ⊢ with hempty
  · rw [htext] at hempty
    rw [longName, foldlM_nothing 255 hempty] at hbuf
    cases hbuf
    exact CString.strncpy_zeros hname
  · cases hname
    rfl

theorem text_handle {img : Image} {init : List Entry} {e : Entry} {file : OutputFile}
    (h : handle img (init ++ [e]) = .ok (some file)) :
    CString.text file.name = shownName init e := by
  obtain ⟨-, name, hname, rfl⟩ := (handle_eq_some_iff img).mp h
  exact text_fileName hname

/-- The name fields of two long entries agree. -/
def SameName (l l' : Entry) : Prop := ∀ k < 13, l.nameUnit k = l'.nameUnit k

theorem SameName.namePiece_eq {l l' : Entry} (h : SameName l l') : namePiece l = namePiece l' := by
  have hunits : (List.range 13).map (fun k ↦ UInt8.ofNat (l.nameUnit k)) =
      (List.range 13).map (fun k ↦ UInt8.ofNat (l'.nameUnit k)) :=
    List.map_congr_left fun k hk ↦ by rw [h k (List.mem_range.mp hk)]
  rw [namePiece, namePiece, extractNameFromLfn_eq, extractNameFromLfn_eq, hunits]

theorem flatMap_namePiece_eq {init init' : List Entry} (h : List.Forall₂ SameName init init') :
    init.reverse.flatMap namePiece = init'.reverse.flatMap namePiece := by
  have hmap : init.map namePiece = init'.map namePiece := by
    induction h with
    | nil => rfl
    | cons hl _ ih => rw [List.map_cons, List.map_cons, hl.namePiece_eq, ih]
  rw [List.flatMap_def, List.flatMap_def, List.map_reverse, List.map_reverse, hmap]

/-- Some long entry begins with a character whose low byte is not 0. -/
def LongNamed (init : List Entry) : Prop := ∃ l ∈ init, l.nameUnit 0 % 256 ≠ 0

instance (init : List Entry) : Decidable (LongNamed init) :=
  inferInstanceAs (Decidable (∃ l ∈ init, _))

theorem namePiece_eq_nil (l : Entry) : namePiece l = [] ↔ l.nameUnit 0 % 256 = 0 := by
  have hfirst : namePiece l = CString.text (UInt8.ofNat (l.nameUnit 0) ::
      ((extractNameFromLfn l).take 14).tail) := rfl
  rw [hfirst, CString.text_cons, ← CString.ofNat_eq_zero]
  split_ifs with hzero
  · simp [hzero]
  · simp [hzero]

theorem pieces_eq_nil (init : List Entry) :
    init.reverse.flatMap namePiece = [] ↔ ¬ LongNamed init := by
  simp only [List.flatMap_eq_nil_iff, List.mem_reverse, namePiece_eq_nil, LongNamed, not_exists,
    not_and, not_not]

theorem text_attributes (a r a' r' : UInt8) :
    CString.text [a, r] = CString.text [a', r'] ↔ a = a' ∧ (a = 0 ∨ r = r') := by
  have hlast : ∀ r r' : UInt8, CString.text [r] = CString.text [r'] ↔ r = r' := by
    intro r r'
    rw [CString.text_cons, CString.text_cons]
    rcases eq_or_ne r 0 with rfl | hr
    · rcases eq_or_ne r' 0 with rfl | hr'
      · simp
      · simp [hr', hr'.symm]
    · rcases eq_or_ne r' 0 with rfl | hr'
      · simp [hr]
      · simp [hr, hr', CString.text]
  rw [CString.text_cons a [r], CString.text_cons a' [r']]
  rcases eq_or_ne a 0 with rfl | ha
  · rcases eq_or_ne a' 0 with rfl | ha'
    · simp
    · simp [ha', ha'.symm]
  · rcases eq_or_ne a' 0 with rfl | ha'
    · simp [ha]
    · simp [ha, ha', hlast]

/-- Two sequences with the same name fields are reported under the same name exactly when
the name does not run out of `DIR_Name`, or goes on alike. -/
theorem shownName_eq_iff {init init' : List Entry} {e e' : Entry}
    (hnames : List.Forall₂ SameName init init') (hshort : e.dirName = e'.dirName) :
    shownName init e = shownName init' e' ↔ LongNamed init ∨ 0 ∈ e.dirName ∨
      (e.dirAttr = e'.dirAttr ∧ (e.dirAttr = 0 ∨ e.dirNTRes = e'.dirNTRes)) := by
  rw [shownName, shownName, ← flatMap_namePiece_eq hnames, ← hshort]
  by_cases hlong : LongNamed init
  · have hne : init.reverse.flatMap namePiece ≠ [] := fun h ↦ (pieces_eq_nil init).mp h hlong
    simp [hne, hlong]
  · have hnil := (pieces_eq_nil init).mpr hlong
    rw [if_pos hnil, if_pos hnil, CString.text_append, CString.text_append]
    by_cases hzero : 0 ∈ e.dirName
    · simp [hzero]
    · simp [hzero, hlong, text_attributes]

/-- A short name is shown within `DIR_Name` exactly when it ends there. -/
theorem shownName_prefix_iff (e : Entry) :
    shownName [] e <+: e.dirName ↔ 0 ∈ e.dirName ∨ e.dirAttr = 0 := by
  have hname : shownName [] e = CString.text (e.dirName ++ [e.dirAttr, e.dirNTRes]) := rfl
  rw [hname, CString.text_append]
  by_cases hzero : 0 ∈ e.dirName
  · rw [if_pos hzero]
    exact iff_of_true (List.takeWhile_prefix _) (.inl hzero)
  · rw [if_neg hzero, CString.text_cons]
    split_ifs with hattr
    · simp [hattr]
    · simp only [hzero, hattr, or_self, iff_false]
      intro hprefix
      have hle := hprefix.length_le
      rw [List.length_append, List.length_cons] at hle
      omega

/-- Two calls of `handle` on entries with the same name fields report the same name exactly
when it does not run out of `DIR_Name`, or goes on alike in the attributes. -/
theorem handle_name_iff {img img' : Image} {init init' : List Entry} {e e' : Entry}
    {file file' : OutputFile} (h : handle img (init ++ [e]) = .ok (some file))
    (h' : handle img' (init' ++ [e']) = .ok (some file'))
    (hnames : List.Forall₂ SameName init init') (hshort : e.dirName = e'.dirName) :
    (CString.text file.name = CString.text file'.name ↔ LongNamed init ∨ 0 ∈ e.dirName ∨
      (e.dirAttr = e'.dirAttr ∧ (e.dirAttr = 0 ∨ e.dirNTRes = e'.dirNTRes))) ∧
    (init = [] → (CString.text file.name <+: e.dirName ↔ 0 ∈ e.dirName ∨ e.dirAttr = 0)) := by
  rw [text_handle h, text_handle h']
  refine ⟨shownName_eq_iff hnames hshort, ?_⟩
  rintro rfl
  exact shownName_prefix_iff e

/-- A file `AAAAAAAAAAA` that has been made read-only. -/
def readOnlySlot : Entry :=
  slotOfBytes (List.replicate 11 0x41 ++ [0x21] ++ List.replicate 14 0 ++ [3, 0, 1])

/-- The third cluster holds a bitmap. -/
def bitmapImage : Image := pagedGeometry.format fun k ↦
  if k = 0 then fileSlot 3 1 else if k = 32 then slotOfBytes [0x42, 0x4D] else slotOfBytes []

def bitmapFile (attr : UInt8) : OutputFile :=
  ⟨List.replicate 11 0x41 ++ [attr] ++ List.replicate 244 0, 2048, 1⟩

theorem handle_bitmapImage :
    handle bitmapImage ([] ++ [fileSlot 3 1]) = .ok (some (bitmapFile 0x20)) ∧
    handle bitmapImage ([] ++ [readOnlySlot]) = .ok (some (bitmapFile 0x21)) := by
  decide +kernel

theorem readOnly_name_iff :
    (CString.text (bitmapFile 0x20).name = CString.text (bitmapFile 0x21).name ↔
      LongNamed [] ∨ 0 ∈ (fileSlot 3 1).dirName ∨ ((fileSlot 3 1).dirAttr = readOnlySlot.dirAttr ∧
        ((fileSlot 3 1).dirAttr = 0 ∨ (fileSlot 3 1).dirNTRes = readOnlySlot.dirNTRes))) ∧
    ([] = ([] : List Entry) → (CString.text (bitmapFile 0x20).name <+: (fileSlot 3 1).dirName ↔
      0 ∈ (fileSlot 3 1).dirName ∨ (fileSlot 3 1).dirAttr = 0)) :=
  handle_name_iff handle_bitmapImage.1 handle_bitmapImage.2 .nil (by decide)

/-- The name of a file changes with its attributes, since they are shown behind it. -/
theorem readOnly_name : bitmapImage.Mapped 4096 ∧ bitmapImage.WellFormed ∧
    (fileSlot 3 1).dirName = readOnlySlot.dirName ∧
    ∃ file file', handle bitmapImage [fileSlot 3 1] = .ok (some file) ∧
      handle bitmapImage [readOnlySlot] = .ok (some file') ∧
      CString.text file.name ≠ CString.text file'.name ∧
      ¬ CString.text file.name <+: (fileSlot 3 1).dirName :=
  ⟨pagedGeometry_mapped _, pagedGeometry_wellFormed _, by decide, _, _, handle_bitmapImage.1,
    handle_bitmapImage.2, by decide, by decide⟩

end OsWorkbench.Fsrecov
