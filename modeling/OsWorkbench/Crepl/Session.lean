import OsWorkbench.Library.CInt
import OsWorkbench.Library.Decimal

namespace OsWorkbench.Crepl

open Library Library.Decimal

def bytes (s : String) : List UInt8 := s.toList.map fun c ↦ UInt8.ofNat c.toNat

/-- What `fgets` leaves in `line[4096]`, without its NUL. -/
structure Line where
  text : List UInt8
  no_nul : 0 ∉ text
  length_le : text.length ≤ 4095

/-- A line, and whether `malloc` and `fopen` succeed for it. -/
structure Round where
  line : Line
  allocated : Bool
  opened : Bool

inductive Fault
  | overflow
  deriving DecidableEq, Repr

/-- Formats into an array of `size` bytes, the NUL included. -/
def sprintf (size : ℕ) (text : List UInt8) : Except Fault (List UInt8) :=
  if text.length < size then .ok text else .error .overflow

/-- The texts in the fields. -/
structure Info where
  wrapperFunc : List UInt8
  cfile : List UInt8
  sofile : List UInt8
  sequence : ℤ
  deriving DecidableEq, Repr

/-- `/tmp/crepl_%02d.c` -/
def cfileName (sequence : ℤ) : List UInt8 :=
  bytes "/tmp/crepl_" ++ zeroPadded 2 sequence ++ bytes ".c"

/-- `/tmp/crepl_%02d.so` -/
def sofileName (sequence : ℤ) : List UInt8 :=
  bytes "/tmp/crepl_" ++ zeroPadded 2 sequence ++ bytes ".so"

/-- `_wrapper%02d` -/
def wrapperName (sequence : ℤ) : List UInt8 := bytes "_wrapper" ++ zeroPadded 2 sequence

/-- `int %s() { return %s; }` -/
def wrapperText (wrapper line : List UInt8) : List UInt8 :=
  bytes "int " ++ wrapper ++ bytes "() \x7b return " ++ line ++ bytes "; \x7d"

def isFunction (line : List UInt8) : Bool := line.take 4 = bytes "int "

/-- What is formatted into `wrapper_func` and `func_content`. -/
def formatLine (line : List UInt8) (sequence : ℤ) : Except Fault (List UInt8 × List UInt8) :=
  if isFunction line then do
    let content ← sprintf 4096 line
    return ([], content)
  else do
    let wrapperFunc ← sprintf 64 (wrapperName sequence)
    let content ← sprintf 4096 (wrapperText wrapperFunc line)
    return (wrapperFunc, content)

/-- A line that is not empty, and memory for its `Info`: the sequence number is counted up. -/
def Round.numbered (r : Round) : Prop := r.line.text.head? ≠ some 10 ∧ r.allocated = true

instance (r : Round) : Decidable r.numbered := inferInstanceAs (Decidable (_ ∧ _))

/-- `sofile` is not yet written. -/
def writeToFile (r : Round) (count : ℤ) : Except Fault (Option Info × ℤ) :=
  if r.numbered then do
    let count := wrap (count + 1)
    let cfile ← sprintf 64 (cfileName count)
    let (wrapperFunc, _) ← formatLine r.line.text count
    return (if r.opened then some ⟨wrapperFunc, cfile, [], count⟩ else none, count)
  else .ok (none, count)

def compileToShare (info : Info) : Except Fault Info := do
  let sofile ← sprintf 64 (sofileName info.sequence)
  return { info with sofile := sofile }

/-- The loop of `main`: the `Info` of every line that is accepted. -/
def session : List Round → ℤ → Except Fault (List Info)
  | [], _ => return []
  | r :: rounds, count => do
    match ← writeToFile r count with
    | (none, count) => session rounds count
    | (some info, count) => do
      let info ← compileToShare info
      let infos ← session rounds count
      return info :: infos

/-- The wrapper of an expression leaves room for the line in `func_content`. -/
def Fits (r : Round) (sequence : ℤ) : Prop :=
  isFunction r.line.text = false → 27 + (zeroPadded 2 sequence).length + r.line.text.length ≤ 4095

/-- Every line that is numbered fits with its number. -/
def AllFit : List Round → ℤ → Prop
  | [], _ => True
  | r :: rounds, count =>
    if r.numbered then Fits r (wrap (count + 1)) ∧ AllFit rounds (wrap (count + 1))
    else AllFit rounds count

instance (r : Round) (sequence : ℤ) : Decidable (Fits r sequence) :=
  inferInstanceAs (Decidable (_ → _))

instance decidableAllFit : (rounds : List Round) → (count : ℤ) → Decidable (AllFit rounds count)
  | [], _ => .isTrue trivial
  | r :: rounds, count =>
    have := decidableAllFit rounds
    inferInstanceAs (Decidable (if r.numbered then
      Fits r (wrap (count + 1)) ∧ AllFit rounds (wrap (count + 1)) else AllFit rounds count))

/-- What a line that is numbered and opened leaves behind. -/
def infoOf (line : List UInt8) (sequence : ℤ) : Info where
  wrapperFunc := if isFunction line then [] else wrapperName sequence
  cfile := cfileName sequence
  sofile := sofileName sequence
  sequence := sequence

theorem length_zeroPadded (n : CInt) : (zeroPadded 2 n.1).length ≤ 11 := by
  have hlow := n.2.1
  have hhigh := n.2.2
  have hdigits : (Delimited.digits n.1.natAbs).length ≤ 10 :=
    (length_digits_le (by decide)).mpr (by omega)
  rw [zeroPadded]
  split_ifs
  · rw [List.length_cons, List.length_leftpad]
    omega
  · rw [List.length_leftpad]
    omega

theorem length_names (n : CInt) : (cfileName n.1).length < 64 ∧ (sofileName n.1).length < 64 ∧
    (wrapperName n.1).length < 64 := by
  have hlength := length_zeroPadded n
  have htmp : (bytes "/tmp/crepl_").length = 11 := rfl
  have hc : (bytes ".c").length = 2 := rfl
  have hso : (bytes ".so").length = 3 := rfl
  have hwrapper : (bytes "_wrapper").length = 8 := rfl
  simp only [cfileName, sofileName, wrapperName, List.length_append]
  omega

theorem length_wrapperText (sequence : ℤ) (line : List UInt8) :
    (wrapperText (wrapperName sequence) line).length =
      27 + (zeroPadded 2 sequence).length + line.length := by
  have hint : (bytes "int ").length = 4 := rfl
  have hreturn : (bytes "() \x7b return ").length = 12 := rfl
  have hend : (bytes "; \x7d").length = 3 := rfl
  have hwrapper : (bytes "_wrapper").length = 8 := rfl
  simp only [wrapperText, wrapperName, List.length_append]
  omega

variable {r : Round} {rounds : List Round} {count : ℤ} {infos : List Info}

theorem sprintf_ok {size : ℕ} {text : List UInt8} (h : text.length < size) :
    sprintf size text = .ok text := if_pos h

theorem formatLine_function {line : List UInt8} (h : isFunction line = true)
    (hle : line.length ≤ 4095) (sequence : ℤ) : formatLine line sequence = .ok ([], line) := by
  rw [formatLine, if_pos h, sprintf_ok (by omega)]
  rfl

theorem formatLine_expression {line : List UInt8} (h : isFunction line = false) (n : CInt) :
    formatLine line n.1 =
      if 27 + (zeroPadded 2 n.1).length + line.length ≤ 4095 then
        .ok (wrapperName n.1, wrapperText (wrapperName n.1) line)
      else .error .overflow := by
  rw [formatLine, if_neg (by simp [h]), sprintf_ok (length_names n).2.2]
  change (do
    let content ← sprintf 4096 (wrapperText (wrapperName n.1) line)
    return (wrapperName n.1, content)) = _
  rw [sprintf, length_wrapperText]
  split_ifs
  · rfl
  · omega
  · omega
  · rfl

theorem writeToFile_skip (h : ¬ r.numbered) : writeToFile r count = .ok (none, count) := if_neg h

theorem formatLine_ok {sequence : ℤ} (hseq : -2 ^ 31 ≤ sequence ∧ sequence < 2 ^ 31)
    (hfits : Fits r sequence) :
    ∃ content, formatLine r.line.text sequence =
      .ok ((infoOf r.line.text sequence).wrapperFunc, content) := by
  rw [infoOf]
  cases h : isFunction r.line.text with
  | true => exact ⟨_, formatLine_function h r.line.length_le sequence⟩
  | false =>
    have hformat := formatLine_expression h ⟨sequence, hseq⟩
    rw [if_pos (hfits h)] at hformat
    exact ⟨_, hformat⟩

theorem fits_of_formatLine {sequence : ℤ} (hseq : -2 ^ 31 ≤ sequence ∧ sequence < 2 ^ 31)
    {texts : List UInt8 × List UInt8} (h : formatLine r.line.text sequence = .ok texts) :
    Fits r sequence := by
  intro hexpression
  have hformat := formatLine_expression hexpression ⟨sequence, hseq⟩
  by_contra hlong
  rw [if_neg hlong, h] at hformat
  cases hformat

theorem writeToFile_numbered (h : r.numbered) :
    writeToFile r count = formatLine r.line.text (wrap (count + 1)) >>= fun texts ↦
      .ok (if r.opened then
          some ⟨texts.1, cfileName (wrap (count + 1)), [], wrap (count + 1)⟩ else none,
        wrap (count + 1)) := by
  have hcfile : sprintf 64 (cfileName (wrap (count + 1))) = .ok (cfileName (wrap (count + 1))) :=
    sprintf_ok (length_names ⟨wrap (count + 1), wrap_mem _⟩).1
  rw [writeToFile, if_pos h]
  change (sprintf 64 (cfileName (wrap (count + 1))) >>= _) = _
  rw [hcfile]
  rfl

theorem compileToShare_ok (wrapperFunc cfile sofile : List UInt8) (n : CInt) :
    compileToShare ⟨wrapperFunc, cfile, sofile, n.1⟩ =
      .ok ⟨wrapperFunc, cfile, sofileName n.1, n.1⟩ := by
  rw [compileToShare, sprintf_ok (length_names n).2.1]
  rfl

/-- The records of a session in which every text fits. -/
def accepted : List Round → ℤ → List Info
  | [], _ => []
  | r :: rounds, count =>
    if r.numbered then
      (if r.opened then [infoOf r.line.text (wrap (count + 1))] else []) ++
        accepted rounds (wrap (count + 1))
    else accepted rounds count

theorem session_skip (h : ¬ r.numbered) : session (r :: rounds) count = session rounds count := by
  rw [session, writeToFile_skip h]
  rfl

theorem session_numbered (h : r.numbered) (hfits : Fits r (wrap (count + 1))) :
    session (r :: rounds) count = session rounds (wrap (count + 1)) >>= fun infos ↦
      .ok ((if r.opened then [infoOf r.line.text (wrap (count + 1))] else []) ++ infos) := by
  obtain ⟨content, hformat⟩ := formatLine_ok (wrap_mem _) hfits
  rw [session, writeToFile_numbered h, hformat]
  cases r.opened with
  | false =>
    change session rounds (wrap (count + 1)) = _
    cases session rounds (wrap (count + 1)) <;> rfl
  | true =>
    have hcompile := compileToShare_ok (infoOf r.line.text (wrap (count + 1))).wrapperFunc
      (cfileName (wrap (count + 1))) [] ⟨wrap (count + 1), wrap_mem _⟩
    change (do
      let info ← compileToShare ⟨_, _, [], wrap (count + 1)⟩
      let infos ← session rounds (wrap (count + 1))
      return info :: infos) = _
    rw [hcompile]
    rfl

theorem session_ok (hfits : AllFit rounds count) :
    session rounds count = .ok (accepted rounds count) := by
  induction rounds generalizing count with
  | nil => rfl
  | cons r rounds ih =>
    rw [AllFit] at hfits
    rw [accepted]
    split_ifs at hfits ⊢ with h hopened
    · rw [session_numbered h hfits.1, ih hfits.2, if_pos hopened]
      rfl
    · rw [session_numbered h hfits.1, ih hfits.2, if_neg hopened]
      rfl
    · rw [session_skip h, ih hfits]

theorem allFit_of_session (h : session rounds count = .ok infos) : AllFit rounds count := by
  induction rounds generalizing count infos with
  | nil => trivial
  | cons r rounds ih =>
    rw [AllFit]
    split_ifs with hn
    · have hfits : Fits r (wrap (count + 1)) := by
        rw [session, writeToFile_numbered hn] at h
        cases hformat : formatLine r.line.text (wrap (count + 1)) with
        | error fault =>
          rw [hformat] at h
          cases h
        | ok texts => exact fits_of_formatLine (wrap_mem _) hformat
      rw [session_numbered hn hfits] at h
      refine ⟨hfits, ?_⟩
      cases hrest : session rounds (wrap (count + 1)) with
      | error fault =>
        rw [hrest] at h
        cases h
      | ok infos => exact ih hrest
    · rw [session_skip hn] at h
      exact ih h

/-- No name of one accepted line is used for another. -/
def Different (a b : Info) : Prop :=
  a.cfile ≠ b.cfile ∧ a.sofile ≠ b.sofile ∧ (a.wrapperFunc ≠ [] → a.wrapperFunc ≠ b.wrapperFunc)

theorem infoOf_different {line line' : List UInt8} {m n : ℤ} (h : m ≠ n) :
    Different (infoOf line m) (infoOf line' n) := by
  have hpadded : zeroPadded 2 m ≠ zeroPadded 2 n := fun heq ↦ h (zeroPadded_injective 2 heq)
  refine ⟨fun heq ↦ hpadded ?_, fun heq ↦ hpadded ?_, fun hne heq ↦ ?_⟩
  · exact List.append_cancel_left (List.append_cancel_right heq)
  · exact List.append_cancel_left (List.append_cancel_right heq)
  · simp only [infoOf] at hne heq
    split_ifs at hne heq with hline hline'
    · exact hne rfl
    · exact hne rfl
    · exact absurd heq hne
    · exact hpadded (List.append_cancel_left heq)

/-- Up to 2^32 lines that are numbered leave different names behind. -/
theorem accepted_different (c : ℤ)
    (hcount : (rounds.filter fun r ↦ decide r.numbered).length ≤ 2 ^ 32) :
    (accepted rounds (wrap c)).Pairwise Different ∧
      ∀ info ∈ accepted rounds (wrap c), ∃ line k, info = infoOf line (wrap k) ∧
        c < k ∧ k ≤ c + (rounds.filter fun r ↦ decide r.numbered).length := by
  induction rounds generalizing c with
  | nil => exact ⟨.nil, by simp [accepted]⟩
  | cons r rounds ih =>
    rw [accepted]
    by_cases h : r.numbered
    · rw [List.filter_cons_of_pos (by simpa using h), List.length_cons] at hcount ⊢
      rw [if_pos h, wrap_wrap_add]
      obtain ⟨hpairwise, hrange⟩ := ih (c + 1) (by omega)
      have hlater : ∀ info ∈ accepted rounds (wrap (c + 1)), ∃ line k, info = infoOf line (wrap k) ∧
          c < k ∧ k ≤ c + ((rounds.filter fun r ↦ decide r.numbered).length + 1 : ℕ) := by
        intro info hinfo
        obtain ⟨line, k, rfl, hlow, hhigh⟩ := hrange info hinfo
        exact ⟨line, k, rfl, by omega, by omega⟩
      cases r.opened with
      | false => exact ⟨hpairwise, hlater⟩
      | true =>
        refine ⟨List.pairwise_cons.mpr ⟨fun info hinfo ↦ ?_, hpairwise⟩,
          List.forall_mem_cons.mpr ⟨⟨_, c + 1, rfl, by omega, by omega⟩, hlater⟩⟩
        obtain ⟨line, k, rfl, hlow, hhigh⟩ := hrange info hinfo
        exact infoOf_different (wrap_ne hlow (by omega))
    · rw [List.filter_cons_of_neg (by simpa using h)] at hcount ⊢
      rw [if_neg h]
      exact ih c hcount

/-- The fields always hold the names. The texts of a session fit exactly when its
expressions leave room for the wrapper, and then no name is used twice as long as the
sequence number has not come around. -/
theorem session_safe (rounds : List Round) :
    (∀ n : CInt, (cfileName n.1).length < 64 ∧ (sofileName n.1).length < 64 ∧
      (wrapperName n.1).length < 64) ∧
    ((∃ infos, session rounds 0 = .ok infos) ↔ AllFit rounds 0) ∧
    (AllFit rounds 0 → (rounds.filter fun r ↦ decide r.numbered).length ≤ 2 ^ 32 →
      ∃ infos, session rounds 0 = .ok infos ∧ infos.Pairwise Different) := by
  refine ⟨length_names, ⟨?_, fun hfits ↦ ⟨_, session_ok hfits⟩⟩, fun hfits hcount ↦ ?_⟩
  · rintro ⟨infos, hok⟩
    exact allFit_of_session hok
  · exact ⟨_, session_ok hfits, (accepted_different 0 hcount).1⟩

/-- `int f() { return 1; }` and `f()` -/
def sampleRounds : List Round :=
  [⟨⟨bytes "int f() { return 1; }\n", by decide, by decide⟩, true, true⟩,
    ⟨⟨bytes "f()\n", by decide, by decide⟩, true, true⟩]

theorem sampleRounds_safe :
    ∃ infos, session sampleRounds 0 = .ok infos ∧ infos.Pairwise Different :=
  (session_safe sampleRounds).2.2 (by decide +kernel) (by decide +kernel)

example : (session sampleRounds 0).toOption.map (List.map Info.wrapperFunc) =
    some [[], bytes "_wrapper02"] := by decide +kernel

/-- The longest line that `fgets` delivers, as an expression. -/
def longLine : Line where
  text := List.replicate 4095 49
  no_nul h := absurd (List.eq_of_mem_replicate h) (by decide)
  length_le := Nat.le_of_eq List.length_replicate

theorem longLine_counterexample : session [⟨longLine, true, true⟩] 0 = .error .overflow := by
  have hnumbered : Round.numbered ⟨longLine, true, true⟩ := ⟨by decide, rfl⟩
  have hlength : longLine.text.length = 4095 := List.length_replicate
  have hformat := formatLine_expression (show isFunction longLine.text = false by rfl)
    ⟨wrap (0 + 1), wrap_mem _⟩
  rw [if_neg (by omega)] at hformat
  rw [session, writeToFile_numbered hnumbered, hformat]
  rfl

end OsWorkbench.Crepl
