import OsWorkbench.Pstree.Build
import OsWorkbench.Library.Reading

namespace OsWorkbench.Pstree

open Library Library.Reading Library.Delimited

/-- `"Name:"` -/
def nameKey : List UInt8 := [78, 97, 109, 101, 58]

/-- `"PPid:"` -/
def ppidKey : List UInt8 := [80, 80, 105, 100, 58]

/-- What `read_proc_info` has read; `pname` is `none` until something is written to it. -/
structure Status where
  pname : Option (List UInt8)
  ppid : ℤ
deriving DecidableEq

/-- `sscanf` of a word, which writes nothing where there is none. -/
def Status.readName (s : Status) (text : List UInt8) : Status :=
  if word text = [] then s else { s with pname := some (word text) }

/-- `sscanf` of a number. -/
def Status.readPpid (s : Status) (text : List UInt8) : Status :=
  { s with ppid := (number text).getD s.ppid }

/-- The loop over what `fgets` reads. -/
def readLoop : List (List UInt8) → Status → Status
  | [], s => s
  | line :: lines, s =>
    let s := if line.take 5 = nameKey then s.readName (line.drop 5) else s
    if line.take 5 = ppidKey then s.readPpid (line.drop 5) else readLoop lines s

/-- A name that `pname` can hold. -/
def FitsName (pname : List UInt8) : Prop := (∀ b ∈ pname, b ≠ 0) ∧ pname.length < maxLen - 1

instance FitsName.decidable (pname : List UInt8) : Decidable (FitsName pname) :=
  @instDecidableAnd _ _ (List.decidableBAll (· ≠ 0) pname) (Nat.decLt _ _)

/-- What is read of a `status` file: the name and the ppid for `create_proc`, unless `pname` is
read before it is written or written past its end. -/
def readStatus (file : List UInt8) : Option (Name × ℤ) :=
  let s := readLoop (fgets maxLen [] file) ⟨none, 0⟩
  match s.pname with
  | none => none
  | some pname =>
    if h : FitsName pname then some (⟨pname, h.1, h.2⟩, s.ppid) else none

/-- No word of a line overflows `pname`. -/
theorem readLoop_fits {lines : List (List UInt8)} {s : Status}
    (hlines : ∀ line ∈ lines, line.length < maxLen)
    (h : ∀ pname, s.pname = some pname → FitsName pname) :
    ∀ pname, (readLoop lines s).pname = some pname → FitsName pname := by
  induction lines generalizing s with
  | nil => exact h
  | cons line lines ih =>
    obtain ⟨hline, hlines⟩ := List.forall_mem_cons.mp hlines
    have hname : ∀ pname, (s.readName (line.drop 5)).pname = some pname → FitsName pname := by
      intro pname hpname
      rw [Status.readName] at hpname
      by_cases hnil : word (line.drop 5) = []
      · rw [if_pos hnil] at hpname
        exact h pname hpname
      · rw [if_neg hnil, Option.some_inj] at hpname
        rw [← hpname]
        have hlen := length_word_le (line.drop 5)
        have hmax : maxLen = 128 := rfl
        rw [List.length_drop] at hlen
        exact ⟨word_ne_zero _, by omega⟩
    have hread : ∀ pname, (if line.take 5 = nameKey then s.readName (line.drop 5) else s).pname =
        some pname → FitsName pname := by
      by_cases hkey : line.take 5 = nameKey
      · rw [if_pos hkey]
        exact hname
      · rw [if_neg hkey]
        exact h
    rw [readLoop]
    by_cases hkey : line.take 5 = ppidKey
    · rw [if_pos hkey]
      exact hread
    · rw [if_neg hkey]
      exact ih hlines hread

theorem Status.readName_pname {s : Status} {text : List UInt8} :
    (s.readName text).pname = none ↔ s.pname = none ∧ word text = [] := by
  rw [Status.readName]
  by_cases hnil : word text = []
  · rw [if_pos hnil]
    simp [hnil]
  · rw [if_neg hnil]
    simp [hnil]

theorem readLoop_pname {lines : List (List UInt8)} {s : Status} :
    (readLoop lines s).pname = none ↔ s.pname = none ∧
      ∀ line ∈ lines.takeWhile (fun line ↦ line.take 5 ≠ ppidKey),
        line.take 5 = nameKey → word (line.drop 5) = [] := by
  induction lines generalizing s with
  | nil => simp [readLoop]
  | cons line lines ih =>
    rw [readLoop]
    by_cases hppid : line.take 5 = ppidKey
    · have hname : line.take 5 ≠ nameKey := by
        rw [hppid]
        decide
      rw [if_pos hppid, if_neg hname, List.takeWhile_cons_of_neg (by simp [hppid])]
      simp [Status.readPpid]
    · rw [if_neg hppid, ih, List.takeWhile_cons_of_pos (by simp [hppid]), List.forall_mem_cons]
      by_cases hname : line.take 5 = nameKey
      · rw [if_pos hname, Status.readName_pname]
        simp [hname, and_assoc]
      · rw [if_neg hname]
        simp [hname]

theorem readStatus_eq_none {file : List UInt8} :
    readStatus file = none ↔
      ∀ line ∈ (fgets maxLen [] file).takeWhile (fun line ↦ line.take 5 ≠ ppidKey),
        line.take 5 = nameKey → word (line.drop 5) = [] := by
  have hlines : ∀ line ∈ fgets maxLen [] file, line.length < maxLen :=
    length_of_mem_fgets (by decide)
  have hfits := readLoop_fits (s := ⟨none, 0⟩) hlines (fun pname hpname ↦ by cases hpname)
  have hpname := @readLoop_pname (fgets maxLen [] file) ⟨none, 0⟩
  rw [eq_self_iff_true, true_and] at hpname
  rw [← hpname, readStatus]
  cases hread : (readLoop (fgets maxLen [] file) ⟨none, 0⟩).pname with
  | none => simp
  | some pname =>
    simp only [dif_pos (hfits pname hread)]
    exact iff_of_false (Option.some_ne_none _) (Option.some_ne_none _)

/-- Pieces with another key are skipped. -/
theorem readLoop_skip {lines rest : List (List UInt8)} {s : Status}
    (h : ∀ line ∈ lines, line.take 5 ≠ nameKey ∧ line.take 5 ≠ ppidKey) :
    readLoop (lines ++ rest) s = readLoop rest s := by
  induction lines with
  | nil => rfl
  | cons line lines ih =>
    obtain ⟨hline, hlines⟩ := List.forall_mem_cons.mp h
    rw [List.cons_append, readLoop, if_neg hline.1, if_neg hline.2]
    exact ih hlines

theorem fgets_unlines (size : ℕ) (fields : List (List UInt8)) (rest : List UInt8) :
    fgets size [] (unlines 10 fields ++ rest) =
      fgets size [] (unlines 10 fields) ++ fgets size [] rest := by
  induction fields with
  | nil => simp [unlines, fgets]
  | cons field fields ih =>
    have hsplit : unlines 10 (field :: fields) ++ rest =
        field ++ 10 :: (unlines 10 fields ++ rest) := by
      rw [unlines_cons]
      simp
    have hcons : unlines 10 (field :: fields) = field ++ 10 :: unlines 10 fields := by
      rw [unlines_cons]
    rw [hsplit, hcons, fgets_newline, fgets_newline size [] field (unlines 10 fields), ih,
      List.append_assoc]

/-- The text of a `status` file: the name of the program, whose first word is not empty, the
lines between it and the ppid, and what follows. -/
structure StatusText where
  name : Name
  tail : List UInt8
  fields : List (List UInt8)
  ppid : ℕ
  rest : List UInt8
  name_ne_nil : name.bytes ≠ []
  name_bytes : ∀ b ∈ name.bytes, isBlank b = false
  tail_blank : ∀ b, tail.head? = some b → isBlank b = true
  tail_bytes : 10 ∉ tail
  short : name.bytes.length + tail.length ≤ 120
  keys : ∀ piece ∈ fgets maxLen [] (unlines 10 fields),
    piece.take 5 ≠ nameKey ∧ piece.take 5 ≠ ppidKey
  ppid_lt : ppid < 2 ^ 31

def StatusText.text (s : StatusText) : List UInt8 :=
  nameKey ++ 9 :: (s.name.bytes ++ s.tail) ++ 10 :: (unlines 10 s.fields ++
    (ppidKey ++ 9 :: digits s.ppid ++ 10 :: s.rest))

theorem newline_notMem_digits (n : ℕ) : 10 ∉ digits n := by
  intro hm
  exact absurd (mem_digits hm).1 (by decide)

theorem isBlank_tab : ∀ b ∈ [(9 : UInt8)], isBlank b = true := by
  intro b hb
  rw [List.mem_singleton.mp hb]
  rfl

namespace StatusText

variable (s : StatusText)

/-- The first line, the pieces of the lines between, the line of the ppid and the rest. -/
theorem pieces : fgets maxLen [] s.text = (nameKey ++ 9 :: (s.name.bytes ++ s.tail) ++ [10]) ::
    (fgets maxLen [] (unlines 10 s.fields) ++ ((ppidKey ++ 9 :: digits s.ppid ++ [10]) ::
      fgets maxLen [] s.rest)) := by
  have hshort := s.short
  have hnameLine : 10 ∉ nameKey ++ 9 :: (s.name.bytes ++ s.tail) := by
    intro hm
    have hname : 10 ∉ s.name.bytes := fun hm ↦ absurd (s.name_bytes 10 hm) (by decide)
    simp [nameKey, hname, s.tail_bytes] at hm
  have hppidLine : 10 ∉ ppidKey ++ 9 :: digits s.ppid := by
    intro hm
    simp [ppidKey, newline_notMem_digits] at hm
  have hdigits : (digits s.ppid).length ≤ 10 := by
    rw [Decimal.length_digits_le (by decide)]
    exact Nat.lt_trans s.ppid_lt (by decide)
  have hfirst := @fgets_line maxLen [] _ hnameLine (by simp [nameKey, maxLen]; omega)
  have hlast := @fgets_line maxLen [] _ hppidLine (by simp [ppidKey, maxLen]; omega)
  rw [text, fgets_newline, hfirst, fgets_unlines, fgets_newline, hlast]
  rfl

theorem word_name : word (9 :: (s.name.bytes ++ s.tail) ++ [10]) = s.name.bytes := by
  have hrest : ∀ b, (s.tail ++ [10]).head? = some b → isBlank b = true ∨ b = 0 := by
    intro b hb
    cases htail : s.tail with
    | nil =>
      rw [htail] at hb
      cases hb
      exact Or.inl (by decide)
    | cons c tail =>
      rw [htail] at hb
      exact Or.inl (s.tail_blank b (by rw [htail]; exact hb))
  have hread : word ([9] ++ (s.name.bytes ++ (s.tail ++ [10]))) = s.name.bytes :=
    word_eq isBlank_tab (fun b hb ↦ ⟨s.name_bytes b hb, s.name.noNul b hb⟩) s.name_ne_nil hrest
  simpa using hread

theorem number_ppid : number (9 :: digits s.ppid ++ [10]) = some (s.ppid : ℤ) := by
  have hnewline : ∀ b, [(10 : UInt8)].head? = some b → Decimal.isDigit b = false := by
    intro b hb
    cases hb
    rfl
  have hread : number ([9] ++ (digits s.ppid ++ [10])) = some (s.ppid : ℤ) :=
    number_digits s.ppid isBlank_tab hnewline
  simpa using hread

theorem readLoop_text :
    readLoop (fgets maxLen [] s.text) ⟨none, 0⟩ = ⟨some s.name.bytes, s.ppid⟩ := by
  have hkey : (nameKey ++ 9 :: (s.name.bytes ++ s.tail) ++ [10]).take 5 = nameKey := by
    rw [List.append_assoc]
    exact List.take_left' (by decide)
  have hdrop : (nameKey ++ 9 :: (s.name.bytes ++ s.tail) ++ [10]).drop 5 =
      9 :: (s.name.bytes ++ s.tail) ++ [10] := by
    rw [List.append_assoc]
    exact List.drop_left' (by decide)
  have hkey' : (ppidKey ++ 9 :: digits s.ppid ++ [10]).take 5 = ppidKey := rfl
  have hdrop' : (ppidKey ++ 9 :: digits s.ppid ++ [10]).drop 5 = 9 :: digits s.ppid ++ [10] := rfl
  have hother : nameKey ≠ ppidKey := by decide
  rw [s.pieces, readLoop, if_pos hkey, hkey, if_neg hother, hdrop, readLoop_skip s.keys, readLoop,
    hkey', if_neg hother.symm, if_pos rfl, hdrop', Status.readPpid, s.number_ppid,
    Status.readName, s.word_name, if_neg s.name_ne_nil]
  rfl

end StatusText

theorem readStatus_text (s : StatusText) : readStatus s.text = some (s.name, (s.ppid : ℤ)) := by
  have hfits : FitsName s.name.bytes := ⟨s.name.noNul, s.name.fits⟩
  rw [readStatus, s.readLoop_text]
  simp only
  rw [dif_pos hfits]

/-- The first word of the name and the ppid are read back, whatever the lines between them are
that `fgets` does not cut at one of the two keys. In every file no line and no word overflows its
buffer, and `pname` is read before it is written exactly when no name stands before the ppid. -/
theorem readStatus_spec :
    (∀ s : StatusText, readStatus s.text = some (s.name, (s.ppid : ℤ))) ∧
      ∀ file, readStatus file = none ↔
        ∀ line ∈ (fgets maxLen [] file).takeWhile (fun line ↦ line.take 5 ≠ ppidKey),
          line.take 5 = nameKey → word (line.drop 5) = [] :=
  ⟨readStatus_text, fun _ ↦ readStatus_eq_none⟩

/-- `Umask: 0022`, and a line that is cut in two. -/
def sampleFields : List (List UInt8) :=
  [[85, 109, 97, 115, 107, 58, 9, 48, 48, 50, 50], List.replicate 130 120]

theorem sampleFields_keys : ∀ piece ∈ fgets maxLen [] (unlines 10 sampleFields),
    piece.take 5 ≠ nameKey ∧ piece.take 5 ≠ ppidKey := by
  decide +kernel

theorem initd_isBlank : ∀ b ∈ initd.bytes, isBlank b = false := by
  simp [initd, isBlank]

theorem initd_short : initd.bytes.length + ([] : List UInt8).length ≤ 120 := by
  simp [initd]

/-- `init` with the ppid 1. -/
def sampleStatus : StatusText where
  name := initd
  tail := []
  fields := sampleFields
  ppid := 1
  rest := []
  name_ne_nil := List.cons_ne_nil _ _
  name_bytes := initd_isBlank
  tail_blank _ hb := nomatch hb
  tail_bytes := List.not_mem_nil
  short := initd_short
  keys := sampleFields_keys
  ppid_lt := by decide

theorem sampleStatus_read : readStatus sampleStatus.text = some (initd, 1) ∧
    readStatus [] = none :=
  ⟨readStatus_spec.1 sampleStatus, (readStatus_spec.2 []).mpr (by simp [fgets])⟩

end OsWorkbench.Pstree
