import OsWorkbench.Fsrecov.Format

namespace OsWorkbench.Fsrecov

open Library

/-- The long entries that VFAT writes in front of a short entry: ordinals
`0x40|n, n-1, ..., 1`, and the checksum of the short name in each. -/
structure LongSet (short : Entry) (longs : List Entry) : Prop where
  count : longs.length ≤ 20
  ord : ∀ i (hi : i < longs.length), longs[i].ldirOrd =
    UInt8.ofNat (longs.length - i) ||| (if i = 0 then lastLongEntry else 0)
  attr : ∀ e ∈ longs, e.ldirAttr = attrLongName
  type : ∀ e ∈ longs, e.ldirType = 0
  fstClusLO : ∀ e ∈ longs, e.ldirFstClusLO = 0
  chksum : ∀ e ∈ longs, e.ldirChksum = calcChecksum short.dirName

def Entry.nameUnit (e : Entry) (k : ℕ) : ℕ :=
  if k < 5 then e.ldirName1 k else if k < 11 then e.ldirName2 (k - 5) else e.ldirName3 (k - 11)

/-- The units that VFAT stores for a name: its characters, one `0x0000`, then `0xFFFF`. -/
def vfatUnit (name : List UInt8) (pos : ℕ) : ℕ :=
  if h : pos < name.length then (name[pos]).toNat else if pos = name.length then 0 else 0xFFFF

/-- A name of at most 255 characters, stored in pieces of 13 units with the last
piece in front. -/
structure StoredName (short : Entry) (longs : List Entry) (name : List UInt8) : Prop
    extends LongSet short longs where
  pos : 0 < name.length
  le : name.length ≤ 255
  chars : ∀ b ∈ name, b ≠ 0
  pieces : longs.length = (name.length + 12) / 13
  units : ∀ i (hi : i < longs.length), ∀ k < 13,
    longs[i].nameUnit k = vfatUnit name (13 * (longs.length - 1 - i) + k)

theorem extractNameFromLfn_eq (e : Entry) :
    extractNameFromLfn e = (List.range 13).map (fun k ↦ UInt8.ofNat (e.nameUnit k)) ++ [0] := rfl

/-- What one long entry contributes to `long_name`. -/
def namePiece (e : Entry) : List UInt8 := CString.text ((extractNameFromLfn e).take 14)

/-- `handle` concatenates the pieces as long as they fit in front of the last byte. -/
theorem foldlM_strncat (es : List Entry) (buf : List UInt8)
    (h : (CString.text buf).length + (es.flatMap namePiece).length < buf.length) :
    ∃ buf', es.foldlM (fun name lfn ↦ CString.strncat name (extractNameFromLfn lfn) 14) buf =
        some buf' ∧ buf'.length = buf.length ∧
      CString.text buf' = CString.text buf ++ es.flatMap namePiece := by
  induction es generalizing buf with
  | nil => exact ⟨buf, rfl, rfl, by simp⟩
  | cons e es ih =>
    simp only [List.flatMap_cons, List.length_append] at h
    obtain ⟨buf₁, hcat, hlen, htext⟩ := CString.strncat_spec buf (extractNameFromLfn e) 14
      (by simp only [namePiece] at h; omega)
    have htext' : CString.text buf₁ = CString.text buf ++ namePiece e := htext
    obtain ⟨buf', hfold, hlen', htext''⟩ := ih buf₁ (by
      rw [htext', hlen, List.length_append]
      omega)
    refine ⟨buf', ?_, hlen'.trans hlen, ?_⟩
    · rw [List.foldlM_cons, hcat]
      exact hfold
    · rw [htext'', htext', List.flatMap_cons, List.append_assoc]

theorem longName_spec (longs : List Entry) (h : (longs.reverse.flatMap namePiece).length ≤ 255) :
    ∃ buf, longName longs = some buf ∧ buf.length = 256 ∧
      CString.text buf = longs.reverse.flatMap namePiece := by
  obtain ⟨buf, hfold, hlen, htext⟩ := foldlM_strncat longs.reverse (List.replicate 256 0) (by
    rw [CString.text_replicate_zero, List.length_replicate, List.length_nil]
    omega)
  rw [CString.text_replicate_zero, List.nil_append] at htext
  exact ⟨buf, hfold, hlen.trans List.length_replicate, htext⟩

theorem foldlM_strncat_some {es : List Entry} {buf buf' : List UInt8} (hbuf : (CString.text buf).length < buf.length)
    (h : es.foldlM (fun name lfn ↦ CString.strncat name (extractNameFromLfn lfn) 14) buf = some buf') :
    (CString.text buf).length + (es.flatMap namePiece).length < buf.length := by
  induction es generalizing buf with
  | nil => simpa using hbuf
  | cons e es ih =>
    rw [List.foldlM_cons] at h
    obtain ⟨buf₁, hcat, hrest⟩ := Option.bind_eq_some_iff.mp h
    have hfit : (CString.text buf).length + (namePiece e).length < buf.length := by
      by_contra hn
      rw [CString.strncat, if_neg (by simpa only [namePiece] using hn)] at hcat
      cases hcat
    obtain ⟨buf₂, hcat', hlen, htext⟩ := CString.strncat_spec buf (extractNameFromLfn e) 14 hfit
    rw [hcat] at hcat'
    cases hcat'
    have htext' : CString.text buf₁ = CString.text buf ++ namePiece e := htext
    have hsum := congrArg List.length htext'
    rw [List.length_append] at hsum
    have hrest' := ih (by omega) hrest
    rw [List.flatMap_cons, List.length_append]
    omega

/-- A name that `handle` assembles without leaving its buffer fits in 255 bytes. -/
theorem longName_fits {longs : List Entry} {buf : List UInt8} (h : longName longs = some buf) :
    (longs.reverse.flatMap namePiece).length ≤ 255 := by
  have hempty : (CString.text (List.replicate 256 0)).length < (List.replicate 256 (0 : UInt8)).length := by
    rw [CString.text_replicate_zero, List.length_replicate, List.length_nil]
    omega
  have hfit := foldlM_strncat_some hempty h
  rw [CString.text_replicate_zero, List.length_replicate, List.length_nil] at hfit
  omega

/-- A stored piece is read back up to the end of the name. -/
theorem namePiece_stored {name : List UInt8} (hc : ∀ b ∈ name, b ≠ 0) {e : Entry} {start : ℕ}
    (hs : start ≤ name.length) (hu : ∀ k < 13, e.nameUnit k = vfatUnit name (start + k)) :
    namePiece e = (name.drop start).take 13 := by
  set bytes := extractNameFromLfn e with hb
  have hlen : bytes.length = 14 := by simp [hb, extractNameFromLfn_eq]
  have hunit : ∀ k (hk : k < 13), bytes[k] = UInt8.ofNat (vfatUnit name (start + k)) := by
    intro k hk
    simp only [hb, extractNameFromLfn_eq]
    rw [List.getElem_append_left (by simpa using hk), List.getElem_map, List.getElem_range, hu k hk]
  have hchar : ∀ k (hk : k < 13) (hpos : start + k < name.length), bytes[k] = name[start + k] := by
    intro k hk hpos
    rw [hunit k hk, vfatUnit, dif_pos hpos, UInt8.ofNat_toNat]
  have hm : min 13 (name.length - start) < bytes.length := by omega
  have hzero : bytes[min 13 (name.length - start)] = 0 := by
    rcases Nat.lt_or_ge (name.length - start) 13 with hshort | hfull
    · have hk : min 13 (name.length - start) < 13 := by omega
      rw [hunit _ hk, vfatUnit, dif_neg (by omega), if_pos (by omega)]
      rfl
    · simp only [Nat.min_eq_left hfull, hb]
      rfl
  have hne : ∀ k (hk : k < min 13 (name.length - start)), bytes[k] ≠ 0 := by
    intro k hk
    rw [hchar k (by omega) (by omega)]
    exact hc _ (List.getElem_mem _)
  rw [namePiece, ← hb, List.take_of_length_le hlen.le, CString.text_eq_take hm hzero hne]
  apply List.ext_getElem
  · simp only [List.length_take, List.length_drop]
    omega
  · intro k hk hk'
    simp only [List.length_take] at hk
    rw [List.getElem_take, List.getElem_take, List.getElem_drop, hchar k (by omega) (by omega)]

theorem flatMap_pieces (name : List UInt8) (w n : ℕ) :
    (List.range n).flatMap (fun j ↦ (name.drop (w * j)).take w) = name.take (w * n) := by
  induction n with
  | zero => simp
  | succ n ih =>
    rw [List.range_succ, List.flatMap_append, ih, List.flatMap_singleton, Nat.mul_succ,
      List.take_add]

theorem StoredName.flatMap_namePiece {short : Entry} {longs : List Entry} {name : List UInt8}
    (h : StoredName short longs name) : longs.reverse.flatMap namePiece = name := by
  have hpos := h.pos
  have hpieces := h.pieces
  have hlong : 0 < longs.length := by omega
  have hmap : longs.reverse.map namePiece =
      (List.range longs.length).map fun j ↦ (name.drop (13 * j)).take 13 := by
    apply List.ext_getElem
    · simp
    · intro j hj hj'
      simp only [List.length_map, List.length_reverse, List.length_range] at hj hj'
      rw [List.getElem_map, List.getElem_map, List.getElem_range, List.getElem_reverse]
      apply namePiece_stored h.chars (by omega)
      intro k hk
      rw [h.units _ (by omega) k hk]
      congr 2
      omega
  rw [List.flatMap_def, hmap, ← List.flatMap_def, flatMap_pieces, List.take_of_length_le (by omega)]

section

variable (img : Image)

def GoesOn (e : Entry) : Prop :=
  ¬ (e.clusNum = 0 ∨ img.totalClusters + 1 < e.clusNum ∨ e.dirAttr &&& attrDirectory ≠ 0 ∨
    e.dirName0 = 0xE5)

/-- The size that `handle` stores in `struct output_file`. -/
def outputSize (start : ℤ) (dirFileSize : ℕ) : ℕ :=
  let fileSize := toInt32 dirFileSize
  ((if img.diskEnd < start + fileSize then img.diskEnd - start + 1 else fileSize) % 2 ^ 32).toNat

/-- The name that `handle` passes on, when its buffer holds it. -/
def fileName (init : List Entry) (e : Entry) : Option (List UInt8) :=
  (longName init).bind fun name ↦
    if CString.text name = [] then CString.strncpy name ((List.range 13).map e.u8) 13 else some name

theorem fileName_isSome {init : List Entry} {e : Entry} :
    (fileName init e).isSome ↔ (init.reverse.flatMap namePiece).length ≤ 255 := by
  constructor
  · intro h
    cases hname : longName init with
    | none => simp [fileName, hname] at h
    | some name => exact longName_fits hname
  · intro h
    obtain ⟨buf, hname, hlen, -⟩ := longName_spec init h
    rw [fileName, hname, Option.bind_some]
    split_ifs
    · simp [CString.strncpy, hlen]
    · rfl

theorem handle_of_not_goesOn {init : List Entry} {e : Entry} (h : ¬ GoesOn img e) :
    handle img (init ++ [e]) = .ok none := by
  simp only [handle, List.getLast?_concat, if_pos (not_not.mp h)]
  rfl

theorem handle_of_goesOn {init : List Entry} {e : Entry} (h : GoesOn img e) :
    handle img (init ++ [e]) =
      if img.u16 (img.firstBytePtrOfCluster e.clusNum) ≠ bmpSignature then .ok none
      else match fileName init e with
        | some name => .ok (some ⟨name, img.firstBytePtrOfCluster e.clusNum,
            outputSize img (img.firstBytePtrOfCluster e.clusNum) e.dirFileSize⟩)
        | none => .error .bufferOverflow := by
  simp only [handle, List.getLast?_concat, List.dropLast_concat, if_neg h, fileName]
  cases longName init with
  | none => rfl
  | some name =>
    simp only [Option.bind_some]
    cases (if CString.text name = [] then CString.strncpy name ((List.range 13).map e.u8) 13
      else some name) with
    | none => rfl
    | some name' => rfl

/-- A short entry with which `handle` goes on to assemble a name. -/
def Assembles (e : Entry) : Prop :=
  GoesOn img e ∧ img.u16 (img.firstBytePtrOfCluster e.clusNum) = bmpSignature

theorem handle_of_not_assembles {init : List Entry} {e : Entry} (h : ¬ Assembles img e) :
    handle img (init ++ [e]) = .ok none := by
  by_cases hgo : GoesOn img e
  · rw [handle_of_goesOn img hgo, if_pos fun hbmp ↦ h ⟨hgo, hbmp⟩]
  · exact handle_of_not_goesOn img hgo

theorem handle_of_assembles {init : List Entry} {e : Entry} (h : Assembles img e) :
    handle img (init ++ [e]) = match fileName init e with
      | some name => .ok (some ⟨name, img.firstBytePtrOfCluster e.clusNum,
          outputSize img (img.firstBytePtrOfCluster e.clusNum) e.dirFileSize⟩)
      | none => .error .bufferOverflow := by
  rw [handle_of_goesOn img h.1, if_neg (not_not.mpr h.2)]

/-- `handle` hands on a file exactly when it assembles a name and the name fits. -/
theorem handle_eq_some_iff {init : List Entry} {e : Entry} {file : OutputFile} :
    handle img (init ++ [e]) = .ok (some file) ↔
      Assembles img e ∧ ∃ name, fileName init e = some name ∧
        file = ⟨name, img.firstBytePtrOfCluster e.clusNum,
          outputSize img (img.firstBytePtrOfCluster e.clusNum) e.dirFileSize⟩ := by
  by_cases h : Assembles img e
  · rw [handle_of_assembles img h]
    cases fileName init e with
    | none => simp
    | some name => simp [h, eq_comm]
  · rw [handle_of_not_assembles img h]
    simp [h]

end

/-- A stored name is read back by `handle`: the assembly stays inside
`long_name[256]`, and where `handle` goes on to report the file, it is the name that
`outprint` receives. -/
theorem handle_storedName {short : Entry} {longs : List Entry} {name : List UInt8}
    (h : StoredName short longs name) :
    (∃ buf, longName longs = some buf ∧ buf.length = 256 ∧ CString.text buf = name) ∧
    ∀ img, (Assembles img short → ∃ file, handle img (longs ++ [short]) = .ok (some file) ∧
        CString.text file.name = name) ∧
      (¬ Assembles img short → handle img (longs ++ [short]) = .ok none) := by
  have hflat := h.flatMap_namePiece
  obtain ⟨buf, hbuf, hlen, htext⟩ := longName_spec longs (by rw [hflat]; exact h.le)
  rw [hflat] at htext
  have hne : CString.text buf ≠ [] := by
    rw [htext]
    exact List.ne_nil_of_length_pos h.pos
  have hname : fileName longs short = some buf := by
    rw [fileName, hbuf, Option.bind_some, if_neg hne]
  refine ⟨⟨buf, hbuf, hlen, htext⟩, fun img ↦ ⟨fun has ↦ ?_, handle_of_not_assembles img⟩⟩
  exact ⟨_, (handle_eq_some_iff img).mpr ⟨has, buf, hname, rfl⟩, htext⟩

def longSlotOf (ord chksum : UInt8) (units : List ℕ) : Entry :=
  let bytes := units.flatMap fun u ↦ [UInt8.ofNat u, UInt8.ofNat (u / 256)]
  slotOfBytes ([ord] ++ bytes.take 10 ++ [attrLongName, 0, chksum] ++ (bytes.drop 10).take 12 ++
    [0, 0] ++ bytes.drop 22)

def sampleName : List UInt8 := (List.range 14).map fun k ↦ UInt8.ofNat (97 + k)

/-- A file in cluster 3. -/
def sampleShort : Entry :=
  slotOfBytes (List.replicate 11 0x41 ++ 0x20 :: (List.replicate 14 0 ++ [3]))

def sampleLongs : List Entry :=
  let chksum := calcChecksum (List.replicate 11 0x41)
  [longSlotOf 0x42 chksum ([110, 0] ++ List.replicate 11 0xFFFF),
    longSlotOf 0x01 chksum ((List.range 13).map (97 + ·))]

theorem sample_stored : StoredName sampleShort sampleLongs sampleName where
  count := by decide
  ord := by decide +kernel
  attr := List.forall_mem_cons.mpr ⟨by decide +kernel, List.forall_mem_singleton.mpr (by decide +kernel)⟩
  type := List.forall_mem_cons.mpr ⟨by decide +kernel, List.forall_mem_singleton.mpr (by decide +kernel)⟩
  fstClusLO := List.forall_mem_cons.mpr ⟨by decide +kernel, List.forall_mem_singleton.mpr (by decide +kernel)⟩
  chksum := List.forall_mem_cons.mpr ⟨by decide +kernel, List.forall_mem_singleton.mpr (by decide +kernel)⟩
  pos := by decide
  le := by decide
  chars := by decide +kernel
  pieces := by decide
  units := by decide +kernel

/-- A directory in cluster 2, and a bitmap in cluster 3. -/
def sampleImage : Image := pagedGeometry.format fun k ↦
  if k < 2 then sampleLongs.getD k (slotOfBytes [])
  else if k = 2 then sampleShort
  else if k = 32 then slotOfBytes [0x42, 0x4D]
  else slotOfBytes []

theorem sample_assembles : Assembles sampleImage sampleShort := by
  rw [Assembles, GoesOn]
  decide +kernel

theorem handle_sampleName :
    (∃ buf, longName sampleLongs = some buf ∧ buf.length = 256 ∧ CString.text buf = sampleName) ∧
    ∃ file, handle sampleImage (sampleLongs ++ [sampleShort]) = .ok (some file) ∧
      CString.text file.name = sampleName :=
  ⟨(handle_storedName sample_stored).1,
    ((handle_storedName sample_stored).2 sampleImage).1 sample_assembles⟩

end OsWorkbench.Fsrecov
