import OsWorkbench.Sperf.Model
import OsWorkbench.Library.Decimal
import OsWorkbench.Library.Regex

namespace OsWorkbench.Sperf

open Library Library.Regex Library.Decimal

def isNameByte (b : UInt8) : Bool := (97 ≤ b && b ≤ 122) || (48 ≤ b && b ≤ 57) || b == 95

def isTimeByte (b : UInt8) : Bool := (48 ≤ b && b ≤ 57) || b == 46

/-- `^([a-z0-9_]+)\(.*<([0-9.]+)>\n$` -/
def pattern : Regex UInt8 :=
  [.start, .group 1 (.plus (.char isNameByte)), .char (· == 40), .star (.char (· != 0)),
    .char (· == 60), .group 2 (.plus (.char isTimeByte)), .char (· == 62), .char (· == 10)].foldr
    .seq .stop

/-- `atof` where only digits and dots are read; it stops at a second dot. -/
def atof (text : List UInt8) : ℚ :=
  let whole := text.takeWhile isDigit
  match text.dropWhile isDigit with
  | 46 :: rest =>
    let part := rest.takeWhile isDigit
    value 0 whole + value 0 part / 10 ^ part.length
  | _ => value 0 whole

/-- `strncpy` of the matched characters, and the NUL behind them. -/
def copyMatch (dst line : List UInt8) (m : Regmatch) : Except Fault (List UInt8) :=
  let len := m.eo - m.so
  if 0 ≤ len ∧ len < dst.length then
    match CString.strncpy dst (line.drop m.so.toNat) len.toNat with
    | some out => .ok (out.set len.toNat 0)
    | none => .error .outOfBounds
  else .error .outOfBounds

theorem copyMatch_spec {dst line out : List UInt8} {m : Regmatch}
    (h : copyMatch dst line m = .ok out) : out.length = dst.length ∧ 0 ∈ out := by
  rw [copyMatch] at h
  split_ifs at h with hlen
  split at h
  · rename_i copied hcopied
    cases h
    have hsize := CString.length_strncpy hcopied
    refine ⟨by rw [List.length_set, hsize], List.mem_set ?_ _⟩
    omega
  · cases h

/-- The record is the static one, with what the last call has left in it. -/
def SyscallLog.setName (log : SyscallLog) (line : List UInt8) (m : Regmatch) :
    Except Fault SyscallLog :=
  match h : copyMatch log.name line m with
  | .ok name =>
    .ok { log with
      name := name
      size := (copyMatch_spec h).1.trans log.size
      terminated := (copyMatch_spec h).2 }
  | .error fault => .error fault

/-- `stack` is what `time_str` holds before it is written. -/
def extract (re : Regexec pattern) (stack : Fin 16 → UInt8) (log : SyscallLog) (line : List UInt8) :
    Except Fault (Option SyscallLog) :=
  match re.exec (CString.text line) with
  | none => return none
  | some matched => do
    let log ← log.setName line (matched 1)
    let timeStr ← copyMatch (List.ofFn stack) line (matched 2)
    return some { log with time := atof (CString.text timeStr) }

/-- What `strace -T` prints for a call: the arguments and the result stand between
the parenthesis and the time. -/
structure Traced where
  name : List UInt8
  args : List UInt8
  time : List UInt8
  name_ne_nil : name ≠ []
  name_bytes : ∀ b ∈ name, isNameByte b = true
  time_ne_nil : time ≠ []
  time_bytes : ∀ b ∈ time, isTimeByte b = true

def Traced.line (t : Traced) : List UInt8 := t.name ++ 40 :: (t.args ++ 60 :: (t.time ++ [62, 10]))

theorem Traced.line_injective {t t' : Traced} (h : t.line = t'.line) : t = t' := by
  have hname : ∀ t : Traced, 40 ∉ t.name := fun t hm ↦ absurd (t.name_bytes _ hm) (by decide)
  have htime : ∀ t : Traced, 60 ∉ t.time ++ [62, 10] := by
    intro t hm
    rcases List.mem_append.mp hm with hm | hm
    · exact absurd (t.time_bytes _ hm) (by decide)
    · exact absurd hm (by decide)
  obtain ⟨hn, hrest⟩ := Delimited.split_first (hname t) (hname t') h
  obtain ⟨ha, ht⟩ := Delimited.split_last (htime t) (htime t') hrest
  have ht := List.append_cancel_right ht
  obtain ⟨name, args, time, _, _, _, _⟩ := t
  obtain ⟨name', args', time', _, _, _, _⟩ := t'
  obtain rfl : name = name' := hn
  obtain rfl : args = args' := ha
  obtain rfl : time = time' := ht
  rfl

def Traced.captures (t : Traced) : List Capture :=
  [⟨1, 0, t.name.length⟩,
    ⟨2, t.name.length + 1 + t.args.length + 1,
      t.name.length + 1 + t.args.length + 1 + t.time.length⟩]

theorem matches_pattern {pos : ℕ} {mid after : List UInt8} {caps : List Capture} :
    pattern.Matches pos mid after caps ↔
      pos = 0 ∧ after = [] ∧ ∃ t : Traced, 0 ∉ t.args ∧ mid = t.line ∧ caps = t.captures := by
  have hargs : ∀ args : List UInt8, (∀ b ∈ args, (b != 0) = true) ↔ 0 ∉ args := by
    intro args
    simp only [bne_iff_ne]
    exact ⟨fun h hm ↦ h 0 hm rfl, fun h b hb hzero ↦ h (hzero ▸ hb)⟩
  simp only [pattern, List.foldr, matches_start_seq, matches_group_seq, matches_char_seq,
    matches_star_seq, hargs]
  constructor
  · intro ⟨hpos, name, _, _, hmid, hcaps, hname, hnames, _, hrest, args, _, hrest₁, hnul, _, hrest₂,
      time, _, _, hrest₃, hcaps', htime, htimes, _, hrest₄, _, hrest₅, hafter, hnil, hcaps''⟩
    subst hpos hafter hnil hrest₅ hrest₄ hrest₃ hrest₂ hrest₁ hrest hcaps'' hcaps'
    refine ⟨rfl, rfl, ⟨name, args, time, hname, hnames, htime, htimes⟩, hnul, hmid, ?_⟩
    rw [hcaps, Traced.captures, Nat.zero_add]
  · intro ⟨hpos, hafter, t, hnul, hmid, hcaps⟩
    subst hpos hafter
    rw [Traced.captures] at hcaps
    refine ⟨rfl, t.name, _, _, hmid, ?_, t.name_ne_nil, t.name_bytes, _, rfl, t.args, _, rfl, hnul,
      _, rfl, t.time, _, _, rfl, rfl, t.time_ne_nil, t.time_bytes, _, rfl, _, rfl, rfl, rfl, rfl⟩
    rw [hcaps, Nat.zero_add]

theorem finds_pattern {line : List UInt8} (h : pattern.Finds line) :
    ∃ t : Traced, t.line = line := by
  obtain ⟨before, mid, after, caps, rfl, hmatch⟩ := h
  obtain ⟨hbefore, rfl, t, _, rfl, _⟩ := matches_pattern.mp hmatch
  obtain rfl := List.length_eq_zero_iff.mp hbefore
  exact ⟨t, by simp⟩

/-- The groups are cut where the record says, whatever stands between them. -/
theorem exec_line (re : Regexec pattern) {t : Traced} (hnul : 0 ∉ t.args) :
    re.exec t.line = some (regmatches 0 t.line.length t.captures) := by
  cases hexec : re.exec t.line with
  | none =>
    refine absurd hexec (re.complete _ ⟨[], t.line, [], t.captures, by simp, ?_⟩)
    exact matches_pattern.mpr ⟨rfl, rfl, t, hnul, rfl, rfl⟩
  | some matched =>
    obtain ⟨before, mid, after, caps, hline, hmatch, rfl⟩ := re.sound _ _ hexec
    obtain ⟨hbefore, rfl, t', _, rfl, rfl⟩ := matches_pattern.mp hmatch
    obtain rfl := List.length_eq_zero_iff.mp hbefore
    rw [List.nil_append, List.append_nil] at hline
    rw [Traced.line_injective hline]
    rfl

theorem copyMatch_piece {dst line before piece after : List UInt8} {m : Regmatch}
    (hline : line = before ++ (piece ++ after))
    (hm : m = ⟨before.length, before.length + piece.length⟩)
    (hpiece : 0 ∉ piece) (hlen : piece.length < dst.length) :
    ∃ out, copyMatch dst line m = .ok out ∧ CString.text out = piece := by
  subst hline hm
  have hne : ∀ b ∈ piece, b ≠ 0 := fun b hb h ↦ hpiece (h ▸ hb)
  have hcount : ((before.length + piece.length : ℤ) - before.length).toNat = piece.length := by
    omega
  have htake : CString.text (((before ++ (piece ++ after)).drop before.length).take piece.length) =
      piece := by
    rw [List.drop_left, List.take_left, CString.text_eq_self hne]
  have hset : (piece ++ dst.drop piece.length).set piece.length 0 =
      piece ++ 0 :: dst.drop (piece.length + 1) := by
    rw [List.set_append_right _ _ le_rfl, Nat.sub_self, List.drop_eq_getElem_cons hlen]
    rfl
  refine ⟨piece ++ 0 :: dst.drop (piece.length + 1), ?_, CString.text_append_zero hne _⟩
  rw [copyMatch, if_pos ⟨by simp, by simpa using hlen⟩, CString.strncpy, hcount,
    if_pos hlen.le, Int.toNat_natCast, htake, List.rightpad, Nat.sub_self, List.replicate_zero,
    List.append_nil]
  simp only [hset]

theorem SyscallLog.setName_ok {log : SyscallLog} {line name : List UInt8} {m : Regmatch}
    (h : copyMatch log.name line m = .ok name) :
    ∃ log', log.setName line m = .ok log' ∧ log'.name = name ∧ log'.time = log.time := by
  rw [setName]
  split
  · rename_i name' hname'
    obtain rfl : name' = name := Except.ok.inj (hname'.symm.trans h)
    exact ⟨_, rfl, rfl, rfl⟩
  · rename_i hfault
    cases hfault.symm.trans h

/-- The line of a call gives back its name and its time, and a line that is matched
is the line of one call only. -/
theorem extract_inverts (re : Regexec pattern) (stack : Fin 16 → UInt8) (log : SyscallLog) :
    (∀ (t : Traced) (rest : List UInt8), t.name.length ≤ 63 → t.time.length ≤ 15 →
      (∀ b ∈ t.args, b ≠ 10 ∧ b ≠ 0) →
      ∃ log', extract re stack log (t.line ++ 0 :: rest) = .ok (some log') ∧
        log'.text = t.name ∧ log'.time = atof t.time) ∧
    (∀ line, pattern.Finds line → ∃! t : Traced, t.line = line) := by
  constructor
  · intro t rest hname htime hargs
    have hnul : 0 ∉ t.args := fun h ↦ (hargs 0 h).2 rfl
    have hnameNul : 0 ∉ t.name := fun h ↦ absurd (t.name_bytes 0 h) (by decide)
    have htimeNul : 0 ∉ t.time := fun h ↦ absurd (t.time_bytes 0 h) (by decide)
    have htext : CString.text (t.line ++ 0 :: rest) = t.line := by
      apply CString.text_append_zero
      intro b hb hzero
      subst hzero
      simp [Traced.line, hnul, hnameNul, htimeNul] at hb
    have hfirst : t.line ++ 0 :: rest =
        [] ++ (t.name ++ 40 :: (t.args ++ 60 :: (t.time ++ 62 :: 10 :: 0 :: rest))) := by
      simp [Traced.line]
    have hsecond : t.line ++ 0 :: rest =
        (t.name ++ 40 :: (t.args ++ [60])) ++ (t.time ++ 62 :: 10 :: 0 :: rest) := by
      simp [Traced.line]
    obtain ⟨name, hname, hnameText⟩ : ∃ out, copyMatch log.name (t.line ++ 0 :: rest)
        (regmatches 0 t.line.length t.captures 1) = .ok out ∧ CString.text out = t.name :=
      copyMatch_piece hfirst (by simp [regmatches, Traced.captures]) hnameNul
        (by rw [log.size]; omega)
    obtain ⟨time, htime, htimeText⟩ : ∃ out, copyMatch (List.ofFn stack) (t.line ++ 0 :: rest)
        (regmatches 0 t.line.length t.captures 2) = .ok out ∧ CString.text out = t.time :=
      copyMatch_piece hsecond (by simp [regmatches, Traced.captures]; omega) htimeNul
        (by rw [List.length_ofFn]; omega)
    obtain ⟨log', hset, hlog', _⟩ := SyscallLog.setName_ok hname
    refine ⟨{ log' with time := atof t.time }, ?_, ?_, rfl⟩
    · rw [extract, htext, exec_line re hnul]
      simp only [hset, htime, htimeText, bind, Except.bind]
      rfl
    · rw [SyscallLog.text, hlog', hnameText]
  · intro line hfinds
    obtain ⟨t, ht⟩ := finds_pattern hfinds
    exact ⟨t, ht, fun t' ht' ↦ Traced.line_injective (ht'.trans ht.symm)⟩

def zeroLog : SyscallLog where
  name := List.replicate 64 0
  time := 0
  size := rfl
  terminated := by simp

/-- `read(3, "<1.5>)(", 8) = 6 <0.000012>` -/
def readCall : Traced where
  name := [114, 101, 97, 100]
  args := [51, 44, 32, 34, 60, 49, 46, 53, 62, 41, 40, 34, 44, 32, 56, 41, 32, 61, 32, 54, 32]
  time := [48, 46, 48, 48, 48, 48, 49, 50]
  name_ne_nil := by simp
  name_bytes := by simp [isNameByte]
  time_ne_nil := by simp
  time_bytes := by simp [isTimeByte]

theorem readCall_args : ∀ b ∈ readCall.args, b ≠ 10 ∧ b ≠ 0 := by simp [readCall]

theorem readCall_extracted :
    (∃ log', extract (regexec pattern) (fun _ ↦ 7) zeroLog (readCall.line ++ [0]) =
        .ok (some log') ∧
      log'.text = [114, 101, 97, 100] ∧ log'.time = 12 / 10 ^ 6) ∧
    ∃! t : Traced, t.line = readCall.line := by
  have hinverts := extract_inverts (regexec pattern) (fun _ ↦ 7) zeroLog
  have hatof : atof readCall.time = 12 / 10 ^ 6 := by
    simp [atof, readCall, value, isDigit]
  constructor
  · rw [← hatof]
    exact hinverts.1 readCall [] (by decide) (by decide) readCall_args
  · refine hinverts.2 _ ⟨[], readCall.line, [], readCall.captures, by simp, ?_⟩
    exact matches_pattern.mpr ⟨rfl, rfl, readCall, fun h ↦ (readCall_args 0 h).2 rfl, rfl, rfl⟩

end OsWorkbench.Sperf
