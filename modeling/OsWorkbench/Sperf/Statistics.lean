import OsWorkbench.Sperf.Model
import OsWorkbench.Library.Tally

namespace OsWorkbench.Sperf

open Library Library.Tally

/-- The cells `logs[0..count)` hold the table, and `capacity` cells are allocated. -/
structure Holds (stats : SyscallStats) (table : List SyscallLog) : Prop where
  cells : ∃ rest, stats.logs = table.map some ++ rest
  count : stats.count = table.length
  capacity : stats.capacity = stats.logs.length
  small : stats.capacity < 2 ^ 31

variable {stats : SyscallStats} {table left right : List SyscallLog} {log entry : SyscallLog}

theorem Holds.length_le (h : Holds stats table) : table.length ≤ stats.logs.length := by
  obtain ⟨rest, hcells⟩ := h.cells
  rw [hcells, List.length_append, List.length_map]
  exact Nat.le_add_right _ _

theorem Holds.count_le (h : Holds stats table) : stats.count ≤ stats.capacity := by
  have hle := h.length_le
  rw [h.count, h.capacity]
  exact_mod_cast hle

theorem Holds.get (h : Holds stats (left ++ entry :: right)) : stats.get left.length = .ok entry := by
  obtain ⟨rest, hcells⟩ := h.cells
  have hcell : stats.logs[left.length]? = some (some entry) := by
    rw [hcells, List.map_append, List.append_assoc, List.getElem?_append_right (by simp)]
    simp
  rw [SyscallStats.get, hcell]

theorem Holds.set (h : Holds stats (left ++ entry :: right)) (log : SyscallLog) :
    ∃ stats', stats.set left.length log = .ok stats' ∧ Holds stats' (left ++ log :: right) := by
  obtain ⟨rest, hcells⟩ := h.cells
  have hlen := h.length_le
  rw [List.length_append, List.length_cons] at hlen
  have hset : stats.logs.set left.length (some log) = (left ++ log :: right).map some ++ rest := by
    rw [hcells, List.map_append, List.append_assoc, List.set_append_right _ _ (by simp)]
    simp
  refine ⟨_, if_pos ⟨by omega, by omega⟩, ⟨rest, hset⟩, ?_, ?_, h.small⟩
  · simp only [h.count, List.length_append, List.length_cons]
  · simp only [h.capacity, List.length_set]

theorem Holds.push (h : Holds stats table) (hlt : stats.count < stats.capacity) (log : SyscallLog) :
    ∃ stats', (do
        let stats ← stats.set stats.count log
        return { stats with count := (stats.count + 1).bmod (2 ^ 32) }) = .ok stats' ∧
      Holds stats' (table ++ [log]) := by
  obtain ⟨rest, hcells⟩ := h.cells
  have hcount := h.count
  have hcapacity := h.capacity
  have hsmall := h.small
  have hnat : stats.count.toNat = table.length := by omega
  obtain ⟨cell, rest, rfl⟩ : ∃ cell rest', rest = cell :: rest' := by
    cases rest with
    | nil =>
      rw [hcells, List.append_nil, List.length_map] at hcapacity
      omega
    | cons cell rest => exact ⟨cell, rest, rfl⟩
  have hset : stats.logs.set stats.count.toNat (some log) = (table ++ [log]).map some ++ rest := by
    rw [hcells, hnat, List.set_append_right _ _ (by simp)]
    simp
  have hwrap : (stats.count + 1).bmod (2 ^ 32) = (table ++ [log]).length := by
    rw [Int.bmod_eq_of_le (by omega) (by omega), List.length_append, List.length_singleton]
    omega
  rw [SyscallStats.set, if_pos ⟨by omega, by omega⟩]
  refine ⟨_, rfl, ⟨rest, hset⟩, hwrap, ?_, h.small⟩
  simp only [hcapacity, List.length_set]

theorem requested_capacity {capacity capacity' : ℤ} (h0 : 0 ≤ capacity) (hlt : capacity < 2 ^ 31)
    (h : capacity' = if capacity = 0 then 10 else (capacity * 2).bmod (2 ^ 32))
    (hsize : capacity' * logSize % 2 ^ 64 < 2 ^ 63) :
    capacity < capacity' ∧ capacity' < 2 ^ 31 ∧ capacity' * logSize % 2 ^ 64 = capacity' * logSize := by
  have hwrap : capacity' = 10 ∧ capacity = 0 ∨ capacity' = 2 * capacity ∧ capacity ≠ 0 ∧ 2 * capacity < 2 ^ 31 ∨
      capacity' = 2 * capacity - 2 ^ 32 ∧ 2 ^ 31 ≤ 2 * capacity := by
    rw [h, Int.bmod_def]
    split_ifs <;> omega
  have hlog : (logSize : ℤ) = 72 := rfl
  rw [hlog] at hsize ⊢
  clear h
  rcases hwrap with ⟨hw, hz⟩ | ⟨hw, hz, hle⟩ | ⟨hw, hge⟩
  · omega
  · omega
  · have hmod : capacity' * 72 % 2 ^ 64 = capacity' * 72 + 2 ^ 64 := by
      rw [← Int.add_emod_right, Int.emod_eq_of_lt (by omega) (by omega)]
    omega

/-- The size that `grow` requests. -/
def SyscallStats.request (stats : SyscallStats) : ℕ :=
  let capacity := if stats.capacity = 0 then 10 else (stats.capacity * 2).bmod (2 ^ 32)
  (capacity * logSize % 2 ^ 64).toNat

/-- Growing keeps the table and leaves a cell behind it, unless the request is refused. -/
theorem Holds.grow (h : Holds stats table) (a : Allocator) :
    (grow a stats = .error .assertion ∧ a.grants stats.request = false) ∨
      ∃ stats', grow a stats = .ok stats' ∧ Holds stats' table ∧
        stats'.count = stats.count ∧ stats.capacity < stats'.capacity := by
  set capacity' := if stats.capacity = 0 then 10 else (stats.capacity * 2).bmod (2 ^ 32) with hc
  set size := (capacity' * logSize % 2 ^ 64).toNat with hs
  have hrequest : stats.request = size := by
    rw [SyscallStats.request, ← hc, ← hs]
  have hgrow : Sperf.grow a stats = (realloc a stats.logs size).elim (.error .assertion) fun logs ↦
      .ok { stats with logs := logs, capacity := capacity' } := by
    rw [Sperf.grow, ← hc, ← hs]
    cases realloc a stats.logs size <;> rfl
  by_cases hgrant : a.grants size = true
  · right
    have hcapacity := h.capacity
    have hbound := a.bounded size hgrant
    obtain ⟨hgt, hlt, hmul⟩ := requested_capacity (by omega) h.small hc (by omega)
    have hcells : ((size / logSize : ℕ) : ℤ) = capacity' := by
      rw [hmul] at hs
      simp only [logSize] at hs ⊢
      omega
    have hle := h.length_le
    obtain ⟨rest, hlogs⟩ := h.cells
    rw [hgrow, realloc, if_pos hgrant]
    refine ⟨_, rfl, ⟨⟨rest ++ List.replicate (size / logSize - stats.logs.length) none, ?_⟩, h.count,
      ?_, hlt⟩, rfl, hgt⟩
    · simp only [List.rightpad, List.take_of_length_le (show stats.logs.length ≤ size / logSize by omega)]
      rw [hlogs, List.append_assoc]
    · simp only [List.length_rightpad, List.length_take]
      omega
  · left
    rw [hgrow, realloc, if_neg hgrant, Option.elim_none, hrequest]
    exact ⟨rfl, Bool.eq_false_iff.mpr hgrant⟩

/-- The loop finds the entry of the name and adds the time there, or finds none. -/
theorem Holds.updateLoop (h : Holds stats (left ++ right)) (log : SyscallLog) :
    (∃ mid entry rest stats', right = mid ++ entry :: rest ∧ entry.text = log.text ∧
      updateLoop log stats left.length right.length = .ok (some stats') ∧
        Holds stats' (left ++ mid ++ entry.add log.time :: rest)) ∨
    ((∀ e ∈ right, e.text ≠ log.text) ∧
      updateLoop log stats left.length right.length = .ok none) := by
  induction right generalizing left with
  | nil => exact .inr ⟨by simp, rfl⟩
  | cons entry right ih =>
    have hget := h.get
    rw [List.length_cons, Sperf.updateLoop, hget]
    simp only [bind, Except.bind, CString.strcmp_eq_zero]
    by_cases he : CString.text entry.name = CString.text log.name
    · obtain ⟨stats', hset, hholds⟩ := h.set (entry.add log.time)
      rw [if_pos he, hset]
      exact .inl ⟨[], entry, right, stats', rfl, he, rfl, by simpa using hholds⟩
    · rw [if_neg he]
      have hstep : Holds stats ((left ++ [entry]) ++ right) := by simpa using h
      rcases ih hstep with ⟨mid, e, rest, stats', rfl, hname, hloop, hholds⟩ | ⟨hnone, hloop⟩
      · refine .inl ⟨entry :: mid, e, rest, stats', rfl, hname, ?_, by simpa using hholds⟩
        simpa using hloop
      · refine .inr ⟨?_, by simpa using hloop⟩
        exact List.forall_mem_cons.mpr ⟨he, hnone⟩

def entryOf (log : SyscallLog) : List UInt8 × ℚ := (log.text, log.time)

/-- `logs[0..count)` has one entry for each name seen so far, with the sum of its times. -/
structure Surveys (seen : List SyscallLog) (stats : SyscallStats) (table : List SyscallLog) :
    Prop where
  holds : Holds stats table
  tallies : Tallies (seen.map entryOf) (table.map entryOf)

variable {seen : List SyscallLog}

/-- An update that asks for a larger array, since there is no entry of the name and no cell left,
and that is refused the size that `grow` requests. -/
structure Refuses (a : Allocator) (name : List UInt8) (names : List (List UInt8))
    (stats : SyscallStats) : Prop where
  fresh : name ∉ names
  full : stats.count = stats.capacity
  refused : a.grants stats.request = false

theorem map_entryOf_fst (logs : List SyscallLog) :
    (logs.map entryOf).map Prod.fst = logs.map SyscallLog.text := by
  rw [List.map_map]
  rfl

theorem Surveys.names (h : Surveys seen stats table) (name : List UInt8) :
    name ∈ table.map SyscallLog.text ↔ name ∈ seen.map SyscallLog.text := by
  rw [← map_entryOf_fst, ← map_entryOf_fst]
  exact h.tallies.keys name

theorem Surveys.updateStats (h : Surveys seen stats table) (a : Allocator) (log : SyscallLog) :
    (updateStats a log stats = .error .assertion ∧
        Refuses a log.text (seen.map SyscallLog.text) stats) ∨
      ∃ stats' table', updateStats a log stats = .ok stats' ∧
        Surveys (seen ++ [log]) stats' table' := by
  have hcount : stats.count.toNat = table.length := by
    have := h.holds.count
    omega
  rw [Sperf.updateStats, hcount]
  have hstart : Holds stats ([] ++ table) := h.holds
  rcases hstart.updateLoop log with
    ⟨mid, entry, rest, stats', rfl, hname, hloop, hholds⟩ | ⟨hnone, hloop⟩
  · right
    rw [List.length_nil] at hloop
    rw [hloop]
    refine ⟨stats', mid ++ entry.add log.time :: rest, rfl, by simpa using hholds, ?_⟩
    have htallies := h.tallies
    rw [List.map_append, List.map_cons, entryOf, hname] at htallies
    have hentry : entryOf (entry.add log.time) = (log.text, entry.time + log.time) :=
      Prod.ext hname rfl
    have htable : (mid ++ entry.add log.time :: rest).map entryOf =
        mid.map entryOf ++ (log.text, entry.time + log.time) :: rest.map entryOf := by
      rw [List.map_append, List.map_cons, hentry]
    rw [List.map_append, htable]
    exact htallies.update
  · rw [List.length_nil] at hloop
    rw [hloop]
    have hfresh : log.text ∉ table.map SyscallLog.text := by
      intro hm
      obtain ⟨e, he, heq⟩ := List.mem_map.mp hm
      exact hnone e he heq
    have happend : Tallies ((seen ++ [log]).map entryOf) ((table ++ [log]).map entryOf) := by
      rw [List.map_append, List.map_append]
      apply h.tallies.append
      rwa [map_entryOf_fst]
    by_cases hfull : stats.count = stats.capacity
    · rcases h.holds.grow a with ⟨hgrow, hrefused⟩ | ⟨stats₁, hgrow, hholds, hsame, hlt⟩
      · left
        refine ⟨?_, fun hm ↦ hfresh ((h.names log.text).mpr hm), hfull, hrefused⟩
        simp only [if_pos hfull, hgrow]
        rfl
      · right
        obtain ⟨stats₂, hset, hpush⟩ := hholds.push (by omega) log
        simp only [if_pos hfull, hgrow]
        exact ⟨stats₂, table ++ [log], hset, hpush, happend⟩
    · right
      have hle := h.holds.count_le
      obtain ⟨stats₂, hset, hpush⟩ := h.holds.push (by omega) log
      simp only [if_neg hfull]
      exact ⟨stats₂, table ++ [log], hset, hpush, happend⟩

theorem Holds.mapM_get (h : Holds stats table) :
    (List.range table.length).mapM stats.get = .ok table := by
  have hall : ∀ left right : List SyscallLog, table = left ++ right →
      (List.range' left.length right.length).mapM stats.get = .ok right := by
    intro left right
    induction right generalizing left with
    | nil =>
      intro _
      rfl
    | cons entry right ih =>
      intro htable
      have hget : stats.get left.length = .ok entry := by
        rw [htable] at h
        exact h.get
      have hrest := ih (left ++ [entry]) (by simpa using htable)
      rw [List.length_append, List.length_singleton] at hrest
      rw [List.length_cons, List.range'_succ, List.mapM_cons, hget]
      simp only [bind, Except.bind, hrest]
      rfl
  rw [List.range_eq_range']
  exact hall [] table rfl

theorem foldl_time (logs : List SyscallLog) (total : ℚ) :
    logs.foldl (fun total log ↦ total + log.time) total = total + (logs.map SyscallLog.time).sum := by
  induction logs generalizing total with
  | nil => simp
  | cons log logs ih => rw [List.foldl_cons, ih, List.map_cons, List.sum_cons, add_assoc]

def totalTime (table : List SyscallLog) : ℚ := (table.map SyscallLog.time).sum

/-- The lines that are printed of a table put in the order `out`. -/
def shownOf (table out : List SyscallLog) : List (List UInt8 × Option ℤ) :=
  (out.take 5).map fun log ↦ (log.text, ratio log.time (totalTime table))

/-- `output` prints the total of the table and the shares of the first five, and leaves the
entries in the order of `qsort`. -/
theorem Holds.output (h : Holds stats table) (q : Sorter) (isEnd : Bool) :
    ∃ stats', output q isEnd stats = .ok (⟨totalTime table, shownOf table (q.sort table),
      decide (5 ≤ (q.sort table).length), !isEnd⟩, stats') ∧ Holds stats' (q.sort table) := by
  have hcount : stats.count.toNat = table.length := by
    have := h.count
    omega
  have hperm := q.perm table
  have htotal : (q.sort table).foldl (fun total log ↦ total + log.time) 0 = totalTime table := by
    rw [foldl_time, zero_add, totalTime, (hperm.map SyscallLog.time).sum_eq]
  refine ⟨{ stats with logs := (q.sort table).map some ++ stats.logs.drop table.length }, ?_,
    ⟨_, rfl⟩, ?_, ?_, h.small⟩
  · rw [Sperf.output, hcount, h.mapM_get]
    simp only [bind, Except.bind, htotal, shownOf]
    rfl
  · rw [hperm.length_eq]
    exact h.count
  · obtain ⟨rest, hcells⟩ := h.cells
    rw [h.capacity, hcells]
    simp [hperm.length_eq]

theorem map_entryOf_snd (logs : List SyscallLog) :
    (logs.map entryOf).map Prod.snd = logs.map SyscallLog.time := by
  rw [List.map_map]
  rfl

theorem Surveys.totalTime_eq (h : Surveys seen stats table) :
    totalTime table = (seen.map SyscallLog.time).sum := by
  have htotal := h.tallies.total
  rwa [map_entryOf_snd, map_entryOf_snd] at htotal

theorem Surveys.output (h : Surveys seen stats table) (q : Sorter) (isEnd : Bool) :
    ∃ stats', output q isEnd stats = .ok (⟨totalTime table, shownOf table (q.sort table),
      decide (5 ≤ (q.sort table).length), !isEnd⟩, stats') ∧ Surveys seen stats' (q.sort table) := by
  obtain ⟨stats', hout, hholds⟩ := h.holds.output q isEnd
  exact ⟨stats', hout, hholds, h.tallies.perm ((q.perm table).map _).symm⟩

def records : List Event → List SyscallLog
  | [] => []
  | .update _ log :: events => log :: records events
  | .output _ _ :: events => records events

/-- For each call of `output` the sum of the times fed before it. -/
def totals (time : ℚ) : List Event → List ℚ
  | [] => []
  | .update _ log :: events => totals (time + log.time) events
  | .output _ _ :: events => time :: totals time events

/-- Some update of the run is refused the larger array that it asks for. -/
def Refused (acc : SyscallStats × List Output) (seen : List SyscallLog) (events : List Event) :
    Prop :=
  ∃ before a log after stats outputs, events = before ++ .update a log :: after ∧
    before.foldlM step acc = .ok (stats, outputs) ∧
    Refuses a log.text ((seen ++ records before).map SyscallLog.text) stats

theorem Refused.cons {acc acc' : SyscallStats × List Output} {event : Event} {events : List Event}
    (hstep : step acc event = .ok acc') (h : Refused acc' (seen ++ records [event]) events) :
    Refused acc seen (event :: events) := by
  obtain ⟨before, a, log, after, stats, outputs, rfl, hrun, hrefuses⟩ := h
  refine ⟨event :: before, a, log, after, stats, outputs, rfl, ?_, ?_⟩
  · rw [List.foldlM_cons, hstep]
    exact hrun
  · have hrecords : records (event :: before) = records [event] ++ records before := by
      cases event <;> rfl
    rwa [hrecords, ← List.append_assoc]

theorem run_from {events : List Event} (outputs : List Output) (h : Surveys seen stats table) :
    (events.foldlM step (stats, outputs) = .error .assertion ∧
        Refused (stats, outputs) seen events) ∨
      ∃ stats' outputs' table', events.foldlM step (stats, outputs) = .ok (stats', outputs ++ outputs') ∧
        Surveys (seen ++ records events) stats' table' ∧
        outputs'.map Output.total = totals (seen.map SyscallLog.time).sum events := by
  induction events generalizing seen stats table outputs with
  | nil => exact .inr ⟨stats, [], table, by simp [pure, Except.pure], by simpa [records] using h, rfl⟩
  | cons event events ih =>
    rw [List.foldlM_cons]
    cases event with
    | update a log =>
      rcases h.updateStats a log with ⟨herr, hrefuses⟩ | ⟨stats₁, table₁, hok, hsurveys⟩
      · left
        refine ⟨?_, [], a, log, events, stats, outputs, rfl, rfl, ?_⟩
        · rw [step, herr]
          rfl
        · rwa [records, List.append_nil]
      · have hstep : step (stats, outputs) (.update a log) = .ok (stats₁, outputs) := by
          rw [step, hok]
          rfl
        rw [hstep]
        rcases ih outputs hsurveys with ⟨herr, hrefused⟩ | hrest
        · exact .inl ⟨herr, hrefused.cons hstep⟩
        · right
          simpa [records, totals, bind, Except.bind, List.map_append] using hrest
    | output q isEnd =>
      obtain ⟨stats₁, hok, hsurveys⟩ := h.output q isEnd
      set printed : Output := ⟨totalTime table, shownOf table (q.sort table),
        decide (5 ≤ (q.sort table).length), !isEnd⟩
      have hstep : step (stats, outputs) (.output q isEnd) = .ok (stats₁, outputs ++ [printed]) := by
        rw [step, hok]
        rfl
      rw [hstep]
      rcases ih (outputs ++ [printed]) hsurveys with ⟨herr, hrefused⟩ |
        ⟨stats', outputs', table', hrun, hrest, htotals⟩
      · refine .inl ⟨herr, Refused.cons hstep ?_⟩
        rwa [records, records, List.append_nil]
      · refine .inr ⟨stats', printed :: outputs', table', ?_, hrest, ?_⟩
        · simpa [bind, Except.bind] using hrun
        · rw [List.map_cons, htotals, totals, ← h.totalTime_eq]

/-- What holds of the statistics after the records `seen`; the table is `logs[0..count)`. -/
structure Statistics (seen : List SyscallLog) (stats : SyscallStats) (table : List SyscallLog) :
    Prop where
  cells : stats.logs.take stats.count.toNat = table.map some
  count : stats.count = table.length
  names_nodup : (table.map SyscallLog.text).Nodup
  names : ∀ name, name ∈ table.map SyscallLog.text ↔ name ∈ seen.map SyscallLog.text
  time : ∀ log ∈ table,
    log.time = ((seen.filter (·.text = log.text)).map SyscallLog.time).sum
  count_le : stats.count ≤ stats.capacity
  allocated : stats.capacity = stats.logs.length

theorem sumOf_entryOf (name : List UInt8) (logs : List SyscallLog) :
    sumOf name (logs.map entryOf) = ((logs.filter (·.text = name)).map SyscallLog.time).sum := by
  rw [sumOf, List.filter_map, List.map_map]
  rfl

theorem Surveys.statistics (h : Surveys seen stats table) : Statistics seen stats table := by
  obtain ⟨rest, hcells⟩ := h.holds.cells
  have hcount := h.holds.count
  have hnat : stats.count.toNat = table.length := by omega
  have htallies := h.tallies
  refine ⟨?_, hcount, ?_, h.names, fun log hlog ↦ ?_, h.holds.count_le, h.holds.capacity⟩
  · rw [hnat, hcells, List.take_left' (List.length_map _)]
  · rw [← map_entryOf_fst]
    exact htallies.nodup
  · rw [← sumOf_entryOf]
    exact htallies.amount (entryOf log) (List.mem_map_of_mem hlog)

theorem run_surveys (events : List Event) :
    (run events = .error .assertion ∧ Refused (SyscallStats.empty, []) [] events) ∨
      ∃ stats outputs table, run events = .ok (stats, outputs) ∧
        Surveys (records events) stats table ∧ outputs.map Output.total = totals 0 events := by
  have hempty : Surveys [] SyscallStats.empty [] := by
    refine ⟨⟨⟨[], rfl⟩, rfl, rfl, ?_⟩, .nil⟩
    simp [SyscallStats.empty]
  rcases run_from [] hempty with hrefused | ⟨stats, outputs, table, hrun, hsurveys, htotals⟩
  · exact .inl hrefused
  · rw [List.nil_append] at hrun hsurveys
    exact .inr ⟨stats, outputs, table, hrun, hsurveys, htotals⟩

/-- In every sequence of calls no cell outside of the array is accessed, the table
stays right, and each `output` prints the sum of all the times before it. The program
ends early only where `realloc` refuses the larger array for which a call asks. -/
theorem run_statistics (events : List Event) :
    (run events = .error .assertion ∧ Refused (SyscallStats.empty, []) [] events) ∨
      ∃ stats outputs table, run events = .ok (stats, outputs) ∧
        Statistics (records events) stats table ∧ outputs.map Output.total = totals 0 events := by
  rcases run_surveys events with hrefused | ⟨stats, outputs, table, hrun, hsurveys, htotals⟩
  · exact .inl hrefused
  · exact .inr ⟨stats, outputs, table, hrun, hsurveys.statistics, htotals⟩

def generous : Allocator := ⟨fun size ↦ size < 2 ^ 20, fun size h ↦ by
  have := of_decide_eq_true h
  omega⟩

def reversing : Sorter := ⟨List.reverse, List.reverse_perm⟩

def sampleLog (letter : UInt8) (time : ℚ) : SyscallLog :=
  ⟨letter :: List.replicate 63 0, time, by simp, by simp⟩

def sampleEvents : List Event :=
  [.update generous (sampleLog 97 1), .update generous (sampleLog 98 3), .output reversing false,
    .update generous (sampleLog 97 2)]

theorem sampleEvents_run : (run sampleEvents).toOption.map
    (fun r ↦ (r.1.count, r.1.capacity, r.1.logs.take 2, r.2.map Output.total)) =
      some (2, 10, [some (sampleLog 98 3), some (sampleLog 97 3)], [4]) := by
  decide +kernel

/-- Four calls of which none is refused, and one that is. -/
theorem sample_statistics :
    (∃ stats outputs table, run sampleEvents = .ok (stats, outputs) ∧
      Statistics (records sampleEvents) stats table ∧ outputs.map Output.total = [4]) ∧
    Refused (SyscallStats.empty, []) []
      [.update ⟨fun _ ↦ false, by simp⟩ (sampleLog 97 1)] := by
  constructor
  · rcases run_statistics sampleEvents with ⟨herr, -⟩ | ⟨stats, outputs, table, hrun, h, htotals⟩
    · have hrun := sampleEvents_run
      rw [herr] at hrun
      cases hrun
    · exact ⟨stats, outputs, table, hrun, h, htotals.trans (by decide +kernel)⟩
  · rcases run_statistics [.update ⟨fun _ ↦ false, by simp⟩ (sampleLog 97 1)] with
      ⟨-, hrefused⟩ | ⟨stats, outputs, table, hrun, -⟩
    · exact hrefused
    · cases hrun

end OsWorkbench.Sperf
