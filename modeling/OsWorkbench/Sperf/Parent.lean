import OsWorkbench.Sperf.Extract
import OsWorkbench.Sperf.Shares

namespace OsWorkbench.Sperf

open Library Library.Regex Library.Tally

/-- One turn of the loop of `parent_process`: the line that `getline` reads, what `time_str`
holds before it is written, which requests are granted, and the order of `qsort` when 0.1 s have
passed. -/
structure Turn where
  line : List UInt8
  stack : Fin 16 → UInt8
  allocator : Allocator
  due : Option Qsort

/-- The static record of `extract`, the statistics and what is printed so far. -/
structure Parent where
  log : SyscallLog
  stats : SyscallStats
  outputs : List Output

def report (q : Qsort) (isEnd : Bool) (p : Parent) : Except Fault Parent :=
  (output q.toSorter isEnd p.stats).map fun printed ↦
    { p with stats := printed.2, outputs := p.outputs ++ [printed.1] }

def takeTurn (re : Regexec pattern) (p : Parent) (turn : Turn) : Except Fault Parent :=
  match extract re turn.stack p.log turn.line with
  | .error fault => .error fault
  | .ok none => .ok p
  | .ok (some log) =>
    match updateStats turn.allocator log p.stats with
    | .error fault => .error fault
    | .ok stats =>
      match turn.due with
      | none => .ok { p with log := log, stats := stats }
      | some q => report q false { p with log := log, stats := stats }

def parent (re : Regexec pattern) (log : SyscallLog) (turns : List Turn) (last : Qsort) :
    Except Fault (List Output) :=
  match turns.foldlM (takeTurn re) ⟨log, .empty, []⟩ with
  | .error fault => .error fault
  | .ok p => (report last true p).map Parent.outputs

def Traced.entry (t : Traced) : List UInt8 × ℚ := (t.name, atof t.time)

/-- The name and the time fit into the buffers of `extract`. -/
def Traced.Fits (t : Traced) : Prop := t.name.length ≤ 63 ∧ t.time.length ≤ 15

open Classical in
/-- The call whose line is read, if it is the line of one. -/
noncomputable def Turn.call (turn : Turn) : Option Traced :=
  if h : ∃ t : Traced, t.line = CString.text turn.line then some h.choose else none

/-- What a report says of the calls traced before it: each name once with the sum of its times,
the five greatest with their shares of the total. -/
structure Reports (calls : List Traced) (isEnd : Bool) (printed : Output) : Prop where
  total : printed.total = (calls.map fun t ↦ atof t.time).sum
  separator : printed.separator = !isEnd
  table : ∃ table, Tallies (calls.map Traced.entry) table ∧
    ((table.map Prod.snd).Nodup → table.Pairwise fun a b ↦ b.2 ≤ a.2) ∧
    printed.shown = (table.take 5).map (fun e ↦ (e.1, ratio e.2 printed.total)) ∧
    printed.more = decide (5 ≤ table.length)

variable {re : Regexec pattern} {turn : Turn} {t : Traced} {log : SyscallLog}

theorem Turn.line_of_call (h : turn.call = some t) : t.line = CString.text turn.line := by
  rw [Turn.call] at h
  split_ifs at h with hexists
  cases h
  exact hexists.choose_spec

theorem extract_of_call_none (h : turn.call = none) :
    extract re turn.stack log turn.line = .ok none := by
  have hnone : re.exec (CString.text turn.line) = none := by
    cases hexec : re.exec (CString.text turn.line) with
    | none => rfl
    | some matched =>
      obtain ⟨before, mid, after, caps, hline, hmatch, -⟩ := re.sound _ _ hexec
      obtain ⟨t, ht⟩ := finds_pattern ⟨before, mid, after, caps, hline, hmatch⟩
      rw [Turn.call, dif_pos ⟨t, ht⟩] at h
      cases h
  rw [extract, hnone]
  rfl

theorem copyMatch_overflow {dst line : List UInt8} {m : Regmatch}
    (h : (dst.length : ℤ) ≤ m.eo - m.so) : copyMatch dst line m = .error .outOfBounds := by
  rw [copyMatch]
  exact if_neg (by omega)

theorem setName_overflow {line : List UInt8} {m : Regmatch} (h : 64 ≤ m.eo - m.so) :
    log.setName line m = .error .outOfBounds := by
  have hcopy : copyMatch log.name line m = .error .outOfBounds :=
    copyMatch_overflow (by rw [log.size]; exact h)
  rw [SyscallLog.setName]
  split
  · rename_i name hname
    cases hname.symm.trans hcopy
  · rename_i fault hfault
    cases hfault.symm.trans hcopy
    rfl

theorem Turn.noNul_of_call (h : turn.call = some t) : 0 ∉ t.name ∧ 0 ∉ t.args ∧ 0 ∉ t.time := by
  have hbytes : ∀ b ∈ t.line, b ≠ 0 := by
    rw [Turn.line_of_call h]
    exact CString.text_ne_zero
  refine ⟨?_, ?_, ?_⟩ <;> exact fun hm ↦ hbytes 0 (by simp [Traced.line, hm]) rfl

theorem Turn.exists_rest_of_call (h : turn.call = some t) : ∃ rest, turn.line = t.line ++ rest :=
  ⟨turn.line.dropWhile (· ≠ 0), by
    rw [Turn.line_of_call h, CString.text, List.takeWhile_append_dropWhile]⟩

/-- The groups of the pattern are the name and the time. -/
theorem extract_eq_of_call (h : turn.call = some t) :
    extract re turn.stack log turn.line = (do
      let log ← log.setName turn.line ⟨0, (t.name.length : ℤ)⟩
      let timeStr ← copyMatch (List.ofFn turn.stack) turn.line
        ⟨(t.name ++ 40 :: (t.args ++ [60])).length,
          (t.name ++ 40 :: (t.args ++ [60])).length + t.time.length⟩
      return some { log with time := atof (CString.text timeStr) }) := by
  have hexec := exec_line re (Turn.noNul_of_call h).2.1
  rw [Turn.line_of_call h] at hexec
  have hfirst : regmatches 0 (CString.text turn.line).length t.captures 1 =
      ⟨0, (t.name.length : ℤ)⟩ := by
    simp [regmatches, Traced.captures]
  have hsecond : regmatches 0 (CString.text turn.line).length t.captures 2 =
      ⟨(t.name ++ 40 :: (t.args ++ [60])).length,
        (t.name ++ 40 :: (t.args ++ [60])).length + t.time.length⟩ := by
    simp [regmatches, Traced.captures]
    omega
  rw [extract, hexec]
  simp only [hfirst, hsecond]

/-- The line of a call gives its name and its time, and overflows a buffer when one of them does
not fit. -/
theorem extract_of_call (h : turn.call = some t) :
    (t.Fits → ∃ log', extract re turn.stack log turn.line = .ok (some log') ∧
      entryOf log' = t.entry) ∧
    (¬ t.Fits → extract re turn.stack log turn.line = .error .outOfBounds) := by
  obtain ⟨hname, -, htime⟩ := Turn.noNul_of_call h
  obtain ⟨rest, hrest⟩ := Turn.exists_rest_of_call h
  have hstart : turn.line =
      [] ++ (t.name ++ (40 :: (t.args ++ 60 :: (t.time ++ [62, 10])) ++ rest)) := by
    simp [hrest, Traced.line]
  have hend : turn.line =
      (t.name ++ 40 :: (t.args ++ [60])) ++ (t.time ++ ([62, 10] ++ rest)) := by
    simp [hrest, Traced.line]
  rw [extract_eq_of_call h]
  by_cases hlong : 64 ≤ t.name.length
  · have hset : log.setName turn.line ⟨0, (t.name.length : ℤ)⟩ = .error .outOfBounds :=
      setName_overflow (by simpa using hlong)
    rw [hset]
    exact ⟨fun hfits ↦ absurd hfits.1 (by omega), fun _ ↦ rfl⟩
  · obtain ⟨name, hcopied, hnameText⟩ : ∃ out, copyMatch log.name turn.line
        ⟨0, (t.name.length : ℤ)⟩ = .ok out ∧ CString.text out = t.name :=
      copyMatch_piece hstart (by simp) hname (by rw [log.size]; omega)
    obtain ⟨log', hset, hlog', _⟩ := SyscallLog.setName_ok hcopied
    rw [hset]
    by_cases hover : 16 ≤ t.time.length
    · have hcopy := @copyMatch_overflow (List.ofFn turn.stack) turn.line
        ⟨(t.name ++ 40 :: (t.args ++ [60])).length,
          (t.name ++ 40 :: (t.args ++ [60])).length + t.time.length⟩
        (by rw [List.length_ofFn]; dsimp only; omega)
      simp only [bind, Except.bind, hcopy]
      exact ⟨fun hfits ↦ absurd hfits.2 (by omega), fun _ ↦ trivial⟩
    · obtain ⟨time, hcopy, htimeText⟩ : ∃ out, copyMatch (List.ofFn turn.stack) turn.line
          ⟨(t.name ++ 40 :: (t.args ++ [60])).length,
            (t.name ++ 40 :: (t.args ++ [60])).length + t.time.length⟩ = .ok out ∧
          CString.text out = t.time :=
        copyMatch_piece hend rfl htime (by rw [List.length_ofFn]; omega)
      simp only [bind, Except.bind, hcopy]
      constructor
      · intro _
        refine ⟨{ log' with time := atof (CString.text time) }, rfl, ?_⟩
        rw [htimeText]
        exact Prod.ext ((congrArg CString.text hlog').trans hnameText) rfl
      · intro hfits
        exact absurd ⟨by omega, by omega⟩ hfits

variable {stats : SyscallStats} {table seen : List SyscallLog} {calls : List Traced} {p : Parent}

/-- The statistics are those of the calls traced so far. -/
def Tracks (calls : List Traced) (stats : SyscallStats) : Prop :=
  ∃ seen table, Surveys seen stats table ∧ seen.map entryOf = calls.map Traced.entry

theorem Tracks.report (h : Tracks calls p.stats) (q : Qsort) (isEnd : Bool) :
    ∃ printed stats', report q isEnd p = .ok ⟨p.log, stats', p.outputs ++ [printed]⟩ ∧
      Tracks calls stats' ∧ Reports calls isEnd printed := by
  obtain ⟨seen, table, hsurveys, hcalls⟩ := h
  obtain ⟨stats', hout, hkept⟩ := hsurveys.output q.toSorter isEnd
  have hperm := q.perm table
  refine ⟨_, stats', by rw [Sperf.report, hout]; rfl, ⟨seen, _, hkept, hcalls⟩, ?_, rfl, ?_⟩
  · have hsum := congrArg (fun l ↦ (l.map Prod.snd).sum) hcalls
    simp only [List.map_map] at hsum
    exact hsurveys.totalTime_eq.trans hsum
  · have htallies := hkept.tallies
    rw [hcalls] at htallies
    refine ⟨_, htallies, ?_, ?_, ?_⟩
    · intro hnodup
      rw [map_entryOf_snd] at hnodup
      rw [List.pairwise_map]
      exact q.descending ((hperm.map _).nodup_iff.mp hnodup)
    · rw [shownOf, ← List.map_take, List.map_map]
      rfl
    · rw [List.length_map]

theorem Tracks.update (h : Tracks calls stats) (a : Allocator) (hlog : entryOf log = t.entry) :
    (updateStats a log stats = .error .assertion ∧
        Refuses a t.name (calls.map Traced.name) stats) ∨
      ∃ stats', updateStats a log stats = .ok stats' ∧ Tracks (calls ++ [t]) stats' := by
  obtain ⟨seen, table, hsurveys, hcalls⟩ := h
  have hnames : seen.map SyscallLog.text = calls.map Traced.name := by
    have hfirst := congrArg (fun l ↦ l.map Prod.fst) hcalls
    rw [map_entryOf_fst] at hfirst
    simpa [Function.comp_def, Traced.entry] using hfirst
  have hname : log.text = t.name := congrArg Prod.fst hlog
  cases hsurveys.updateStats a log with
  | inl hrefused =>
    rw [hname, hnames] at hrefused
    exact Or.inl hrefused
  | inr hok =>
    obtain ⟨stats', table', hok, hkept⟩ := hok
    refine Or.inr ⟨stats', hok, seen ++ [log], table', hkept, ?_⟩
    rw [List.map_append, List.map_append, hcalls, List.map_singleton, hlog, List.map_singleton]

/-- The calls traced before each report that the loop prints. -/
noncomputable def cuts (calls : List Traced) : List Turn → List (List Traced)
  | [] => []
  | turn :: turns =>
    match turn.call, turn.due with
    | none, _ => cuts calls turns
    | some t, none => cuts (calls ++ [t]) turns
    | some t, some _ => (calls ++ [t]) :: cuts (calls ++ [t]) turns

/-- Some turn of the loop traces a new name, for which the larger array is refused. -/
def RefusedTurn (re : Regexec pattern) (p : Parent) (calls : List Traced) (turns : List Turn) :
    Prop :=
  ∃ before turn after p' t, turns = before ++ turn :: after ∧
    before.foldlM (takeTurn re) p = .ok p' ∧ turn.call = some t ∧
    Refuses turn.allocator t.name ((calls ++ before.filterMap Turn.call).map Traced.name) p'.stats

theorem RefusedTurn.cons {p' : Parent} {turns : List Turn} (hturn : takeTurn re p turn = .ok p')
    (h : RefusedTurn re p' (calls ++ [turn].filterMap Turn.call) turns) :
    RefusedTurn re p calls (turn :: turns) := by
  obtain ⟨before, turn', after, p'', t, rfl, hrun, hcall, hrefuses⟩ := h
  refine ⟨turn :: before, turn', after, p'', t, rfl, ?_, hcall, ?_⟩
  · rw [List.foldlM_cons, hturn]
    exact hrun
  · have happend : (turn :: before).filterMap Turn.call =
        [turn].filterMap Turn.call ++ before.filterMap Turn.call := by
      rw [← List.filterMap_append]
      rfl
    rwa [happend, ← List.append_assoc]

theorem takeTurn_of_call (hcall : turn.call = some t) (hfits : t.Fits)
    (h : Tracks calls p.stats) :
    (takeTurn re p turn = .error .assertion ∧
        Refuses turn.allocator t.name (calls.map Traced.name) p.stats) ∨
      ∃ p', takeTurn re p turn = .ok p' ∧ Tracks (calls ++ [t]) p'.stats ∧
        ∃ printed, p'.outputs = p.outputs ++ printed ∧
          (turn.due = none ∧ printed = [] ∨ (∃ q, turn.due = some q) ∧
            ∃ out, printed = [out] ∧ Reports (calls ++ [t]) false out) := by
  obtain ⟨log', hextract, hentry⟩ := (@extract_of_call re turn t p.log hcall).1 hfits
  rw [takeTurn, hextract]
  cases h.update turn.allocator hentry with
  | inl hrefused => exact Or.inl ⟨by simp only [hrefused.1], hrefused.2⟩
  | inr hok =>
    obtain ⟨stats', hupdate, htracks⟩ := hok
    simp only [hupdate]
    cases hdue : turn.due with
    | none => exact Or.inr ⟨_, rfl, htracks, [], by simp, Or.inl ⟨rfl, rfl⟩⟩
    | some q =>
      obtain ⟨out, stats'', hreport, hkept, hreports⟩ :=
        @Tracks.report (calls ++ [t]) { p with log := log', stats := stats' } htracks q false
      exact Or.inr ⟨_, hreport, hkept, [out], rfl, Or.inr ⟨⟨q, rfl⟩, out, rfl, hreports⟩⟩

theorem foldlM_takeTurn (turns : List Turn) (h : Tracks calls p.stats) :
    (turns.foldlM (takeTurn re) p = .error .assertion ∧ RefusedTurn re p calls turns) ∨
      (turns.foldlM (takeTurn re) p = .error .outOfBounds ∧
        ∃ t ∈ turns.filterMap Turn.call, ¬ t.Fits) ∨
      (∀ t ∈ turns.filterMap Turn.call, t.Fits) ∧
        ∃ p' outputs, turns.foldlM (takeTurn re) p = .ok p' ∧ p'.outputs = p.outputs ++ outputs ∧
          Tracks (calls ++ turns.filterMap Turn.call) p'.stats ∧
          List.Forall₂ (fun calls out ↦ Reports calls false out) (cuts calls turns) outputs := by
  induction turns generalizing calls p with
  | nil => exact Or.inr (Or.inr ⟨by simp, p, [], rfl, by simp, by simpa using h, .nil⟩)
  | cons turn turns ih =>
    rw [List.foldlM_cons]
    cases hcall : turn.call with
    | none =>
      have hskip : takeTurn re p turn = .ok p := by
        rw [takeTurn, extract_of_call_none hcall]
      have hcuts : cuts calls (turn :: turns) = cuts calls turns := by
        rw [cuts, hcall]
      rw [hskip, hcuts, List.filterMap_cons_none hcall]
      obtain ⟨hrun, hrefused⟩ | hrest := ih h
      · refine Or.inl ⟨hrun, RefusedTurn.cons hskip ?_⟩
        rwa [List.filterMap_cons_none hcall, List.filterMap_nil, List.append_nil]
      · exact Or.inr hrest
    | some t =>
      rw [List.filterMap_cons_some hcall]
      by_cases hfits : t.Fits
      · obtain ⟨hturn, hrefuses⟩ | ⟨p₁, hturn, htracks, printed, houtputs, hdue⟩ :=
          @takeTurn_of_call re turn t calls p hcall hfits h
        · refine Or.inl ⟨by rw [hturn]; rfl, [], turn, turns, p, t, rfl, rfl, hcall, ?_⟩
          rwa [List.filterMap_nil, List.append_nil]
        · rw [hturn]
          obtain ⟨hrun, hrefused⟩ | ⟨hrun, t', ht', hover⟩ |
            ⟨hall, p', outputs, hrun, hp', hkept, hreports⟩ := ih htracks
          · refine Or.inl ⟨hrun, RefusedTurn.cons hturn ?_⟩
            rwa [List.filterMap_cons_some hcall, List.filterMap_nil]
          · exact Or.inr (Or.inl ⟨hrun, t', List.mem_cons_of_mem _ ht', hover⟩)
          · refine Or.inr (Or.inr ⟨List.forall_mem_cons.mpr ⟨hfits, hall⟩, p',
              printed ++ outputs, hrun, ?_, ?_, ?_⟩)
            · rw [hp', houtputs, List.append_assoc]
            · rwa [List.append_assoc] at hkept
            · rw [cuts, hcall]
              obtain ⟨hnone, rfl⟩ | ⟨⟨q, hsome⟩, out, rfl, hout⟩ := hdue
              · rw [hnone]
                exact hreports
              · rw [hsome]
                exact .cons hout hreports
      · have hover : takeTurn re p turn = .error .outOfBounds := by
          rw [takeTurn, (extract_of_call hcall).2 hfits]
        exact Or.inr (Or.inl ⟨by rw [hover]; rfl, t, List.mem_cons_self, hfits⟩)

/-- A turn that reads the line of one call. -/
def readTurn : Turn := ⟨readCall.line ++ [0], fun _ ↦ 7, generous, none⟩

theorem readTurn_call : readTurn.call = some readCall := by
  have hline : readCall.line = CString.text readTurn.line := by
    have hbytes : ∀ b ∈ readCall.line, b ≠ 0 := by simp [Traced.line, readCall]
    exact (CString.text_append_zero hbytes []).symm
  rw [Turn.call, dif_pos ⟨readCall, hline⟩]
  have hchosen : ∃ t : Traced, t.line = CString.text readTurn.line := ⟨readCall, hline⟩
  exact congrArg some (Traced.line_injective (hchosen.choose_spec.trans hline))

end OsWorkbench.Sperf
