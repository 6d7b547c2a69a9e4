import OsWorkbench.Gpt.LayerRows

namespace OsWorkbench.Gpt

open Library CFloat Cell

variable {V : Type} [Cell V] {mem : ℕ → V} {b t h : ℕ}

structure AttentionArgs where
  out : ℕ
  preatt : ℕ
  att : ℕ
  inp : ℕ
  B : ℕ
  T : ℕ
  C : ℕ
  NH : ℕ

namespace AttentionArgs

variable (a : AttentionArgs)

def C3 : ℕ := a.C * 3

def hs : ℕ := a.C / a.NH

def scale : V := 1 / sqrtf (a.hs : V)

def query (b t h : ℕ) : ℕ := a.inp + b * a.T * a.C3 + t * a.C3 + h * a.hs

def key (b t2 h : ℕ) : ℕ := a.inp + b * a.T * a.C3 + t2 * a.C3 + h * a.hs + a.C

def value (b t2 h : ℕ) : ℕ := a.inp + b * a.T * a.C3 + t2 * a.C3 + h * a.hs + a.C * 2

def preattBth (b t h : ℕ) : ℕ := a.preatt + b * a.NH * a.T * a.T + h * a.T * a.T + t * a.T

def attBth (b t h : ℕ) : ℕ := a.att + b * a.NH * a.T * a.T + h * a.T * a.T + t * a.T

def outBth (b t h : ℕ) : ℕ := a.out + b * a.T * a.C + t * a.C + h * a.hs

/-- The loop over `t2` for one head. -/
def pass1 (b t h : ℕ) (mem : ℕ → V) : V × (ℕ → V) :=
  scanFill (fun maxval val ↦ if lt maxval val then val else maxval)
    (fun t2 mem ↦ dot none (slice mem (a.query b t h) a.hs) (slice mem (a.key b t2 h) a.hs) * a.scale)
    (a.preattBth b t h) (t + 1) (lit (-10000) 1, mem)

def pass2 (b t h : ℕ) (maxval : V) (mem : ℕ → V) : V × (ℕ → V) :=
  scanFill (· + ·) (fun t2 mem ↦ expf (mem (a.preattBth b t h + t2) - maxval)) (a.attBth b t h) (t + 1)
    (0, mem)

def pass3 (b t h : ℕ) (expsum : V) : (ℕ → V) → ℕ → V :=
  let expsumInv := if eq expsum 0 then 0 else 1 / expsum
  fill (fun t2 mem ↦ if t2 ≤ t then mem (a.attBth b t h + t2) * expsumInv else 0) (a.attBth b t h) a.T

/-- One turn of the loop over `t2` in the last pass. -/
def accumulate (b t h : ℕ) (mem : ℕ → V) (t2 : ℕ) : ℕ → V :=
  let attBtht2 := mem (a.attBth b t h + t2)
  fill (fun i mem ↦ mem (a.outBth b t h + i) + attBtht2 * mem (a.value b t2 h + i)) (a.outBth b t h)
    a.hs mem

def pass4 (b t h : ℕ) (mem : ℕ → V) : ℕ → V :=
  (List.range (t + 1)).foldl (a.accumulate b t h) (fill (fun _ _ ↦ 0) (a.outBth b t h) a.hs mem)

def head (b t h : ℕ) (mem : ℕ → V) : ℕ → V :=
  let s := a.pass1 b t h mem
  let s' := a.pass2 b t h s.1 s.2
  a.pass4 b t h (a.pass3 b t h s'.1 s'.2)

/-- The loops over `b`, `t` and `h`. -/
def heads : List (ℕ × ℕ × ℕ) :=
  (Grid.rowMajor a.B a.T Prod.mk).flatMap fun r ↦ (List.range a.NH).map fun h ↦ (r.1, r.2, h)

def forward (mem : ℕ → V) : ℕ → V :=
  a.heads.foldl (fun mem x ↦ a.head x.1 x.2.1 x.2.2 mem) mem

/-- What the loops for one head rely on: the cells that it writes are different, and
none of them is an input. -/
structure HeadApart (a : AttentionArgs) (b t h : ℕ) : Prop where
  lt : t < a.T
  preatt_att : Separated (a.preattBth b t h) (t + 1) (tensor (a.attBth b t h) a.T)
  preatt_out : Separated (a.preattBth b t h) (t + 1) (tensor (a.outBth b t h) a.hs)
  att_out : Separated (a.attBth b t h) a.T (tensor (a.outBth b t h) a.hs)
  query_preatt : Separated (a.query b t h) a.hs (tensor (a.preattBth b t h) (t + 1))
  key_preatt : ∀ t2 ≤ t, Separated (a.key b t2 h) a.hs (tensor (a.preattBth b t h) (t + 1))
  value_preatt : ∀ t2 ≤ t, Separated (a.value b t2 h) a.hs (tensor (a.preattBth b t h) (t + 1))
  value_att : ∀ t2 ≤ t, Separated (a.value b t2 h) a.hs (tensor (a.attBth b t h) a.T)
  value_out : ∀ t2 ≤ t, Separated (a.value b t2 h) a.hs (tensor (a.outBth b t h) a.hs)

def keys (b t h : ℕ) (mem : ℕ → V) : List (List V) :=
  (List.range (t + 1)).map fun t2 ↦ slice mem (a.key b t2 h) a.hs

def values (b t h : ℕ) (mem : ℕ → V) : List (List V) :=
  (List.range (t + 1)).map fun t2 ↦ slice mem (a.value b t2 h) a.hs

def headScores (b t h : ℕ) (mem : ℕ → V) : List V :=
  scores (slice mem (a.query b t h) a.hs) (a.keys b t h mem)

variable {a} (ha : a.HeadApart b t h)

include ha

theorem pass1_eq (mem : ℕ → V) :
    (a.pass1 b t h mem).1 = maxval (a.headScores b t h mem) ∧
      slice (a.pass1 b t h mem).2 (a.preattBth b t h) (t + 1) = a.headScores b t h mem := by
  have hahead : ReadsAhead (fun t2 mem ↦ dot none (slice mem (a.query b t h) a.hs)
      (slice mem (a.key b t2 h) a.hs) * a.scale) (a.preattBth b t h) (t + 1) mem := by
    apply ReadsAhead.of_congr
    intro t2 ht2 mem' hmem'
    rw [ha.query_preatt.slice_eq hmem' le_rfl le_rfl,
      (ha.key_preatt t2 (by omega)).slice_eq hmem' le_rfl le_rfl]
  have hscores : (List.range (t + 1)).map (fun t2 ↦ dot none (slice mem (a.query b t h) a.hs)
      (slice mem (a.key b t2 h) a.hs) * a.scale) = a.headScores b t h mem := by
    rw [headScores, scores, keys, List.map_map, length_slice]
    rfl
  rw [pass1, scanFill_eq hahead, slice_fill hahead, hscores]
  exact ⟨rfl, rfl⟩

theorem pass2_eq {x : List V} (hx : slice mem (a.preattBth b t h) (t + 1) = x) :
    (a.pass2 b t h (maxval x) mem).1 = sum (exps x) ∧
      slice (a.pass2 b t h (maxval x) mem).2 (a.attBth b t h) (t + 1) = exps x := by
  have hsub : ∀ y ∈ tensor (a.attBth b t h) (t + 1), y ∈ tensor (a.attBth b t h) a.T := fun y hy ↦
    ⟨hy.1, hy.2.trans_le (Nat.add_le_add_left ha.lt _)⟩
  have hahead : ReadsAhead (fun t2 mem ↦ expf (mem (a.preattBth b t h + t2) - maxval x))
      (a.attBth b t h) (t + 1) mem := by
    apply ReadsAhead.of_congr
    intro t2 ht2 mem' hmem'
    rw [(ha.preatt_att.mono le_rfl le_rfl hsub).eq hmem' ht2]
  have hexps : (slice mem (a.preattBth b t h) (t + 1)).map (fun s ↦ expf (s - maxval x)) = _ :=
    map_slice _
  rw [hx, ← exps] at hexps
  rw [pass2, scanFill_eq hahead, slice_fill hahead, ← hexps]
  exact ⟨rfl, rfl⟩

theorem pass3_eq {x : List V} (hx : slice mem (a.attBth b t h) (t + 1) = exps x) :
    slice (a.pass3 b t h (sum (exps x)) mem) (a.attBth b t h) (t + 1) = attentionWeights x ∧
      ∀ t2, t < t2 → t2 < a.T → a.pass3 b t h (sum (exps x)) mem (a.attBth b t h + t2) = 0 := by
  have hahead : ReadsAhead (fun t2 mem ↦ if t2 ≤ t then mem (a.attBth b t h + t2) *
      (if eq (sum (exps x)) 0 then 0 else 1 / sum (exps x)) else 0) (a.attBth b t h) a.T mem := by
    intro t2 ht2 mem' hmem'
    have hcell := hmem' (a.attBth b t h + t2) fun hin ↦ absurd hin.2 (Nat.lt_irrefl _)
    simp only [hcell]
  refine ⟨?_, ?_⟩
  · have hmap : (slice mem (a.attBth b t h) (t + 1)).map
        (· * if eq (sum (exps x)) 0 then 0 else 1 / sum (exps x)) = _ := map_slice _
    rw [hx, ← attentionWeights] at hmap
    rw [hmap]
    apply slice_eq_map
    intro t2 ht2
    have hlt := ha.lt
    rw [pass3, fill_self hahead (by omega), if_pos (by omega)]
  · intro t2 hgt hlt
    rw [pass3, fill_self hahead hlt, if_neg (by omega)]

theorem accumulate_eq {l : List ℕ} (hl : ∀ t2 ∈ l, t2 ≤ t) (m : ℕ → V)
    (hm : ∀ x, x ∉ tensor (a.outBth b t h) a.hs → m x = mem x) :
    slice (l.foldl (a.accumulate b t h) m) (a.outBth b t h) a.hs =
      (l.map fun t2 ↦ (mem (a.attBth b t h + t2), slice mem (a.value b t2 h) a.hs)).foldl
        (fun acc p ↦ List.zipWith (fun o v ↦ o + p.1 * v) acc p.2)
        (slice m (a.outBth b t h) a.hs) := by
  induction l generalizing m with
  | nil => rfl
  | cons t2 l ih =>
    have ht2 : t2 ≤ t := hl t2 List.mem_cons_self
    have hlt := ha.lt
    have hatt : m (a.attBth b t h + t2) = mem (a.attBth b t h + t2) := ha.att_out.eq hm (by omega)
    have hvalue := (ha.value_out t2 ht2).slice_eq hm le_rfl le_rfl
    have hahead : ReadsAhead (fun i mem' ↦ mem' (a.outBth b t h + i) +
        m (a.attBth b t h + t2) * mem' (a.value b t2 h + i)) (a.outBth b t h) a.hs m := by
      intro i hi mem' hmem'
      have hown := hmem' (a.outBth b t h + i) fun hin ↦ absurd hin.2 (Nat.lt_irrefl _)
      have hin : mem' (a.value b t2 h + i) = m (a.value b t2 h + i) := by
        apply hmem'
        intro hin
        apply ha.value_out t2 ht2 (a.value b t2 h + i) ⟨Nat.le_add_right _ _, by omega⟩
        exact ⟨hin.1, by have := hin.2; omega⟩
      simp only [hown, hin]
    have hstep : slice (a.accumulate b t h m t2) (a.outBth b t h) a.hs =
        List.zipWith (fun o v ↦ o + mem (a.attBth b t h + t2) * v) (slice m (a.outBth b t h) a.hs)
          (slice mem (a.value b t2 h) a.hs) := by
      rw [accumulate, slice_fill hahead, ← hvalue, zipWith_slice, hatt]
    rw [List.foldl_cons, ih (fun s hs ↦ hl s (List.mem_cons_of_mem _ hs)), hstep, List.map_cons,
      List.foldl_cons]
    intro x hx
    rw [accumulate, fill_of_notMem hx, hm x hx]

theorem pass4_eq {x : List V} (hx : slice mem (a.attBth b t h) (t + 1) = x) :
    slice (a.pass4 b t h mem) (a.outBth b t h) a.hs = weightedSum a.hs x (a.values b t h mem) := by
  have hzero : slice (fill (fun _ _ ↦ (0 : V)) (a.outBth b t h) a.hs mem) (a.outBth b t h) a.hs =
      List.replicate a.hs 0 := by
    rw [slice_fill fun _ _ _ _ ↦ rfl, List.map_const', List.length_range]
  have hacc := accumulate_eq ha (l := List.range (t + 1))
    (fun t2 ht2 ↦ Nat.lt_succ_iff.mp (List.mem_range.mp ht2))
    (fill (fun _ _ ↦ (0 : V)) (a.outBth b t h) a.hs mem) fun y hy ↦ fill_of_notMem hy
  rw [pass4, hacc, hzero, weightedSum, ← hx, slice, values, List.zip_map']

omit ha in
theorem pass4_frame {x : ℕ} (hx : x ∉ tensor (a.outBth b t h) a.hs) :
    a.pass4 b t h mem x = mem x := by
  have hloop : ∀ (l : List ℕ) (m : ℕ → V), l.foldl (a.accumulate b t h) m x = m x := by
    intro l
    induction l with
    | nil => exact fun _ ↦ rfl
    | cons t2 l ih =>
      intro m
      rw [List.foldl_cons, ih, accumulate, fill_of_notMem hx]
  rw [pass4, hloop, fill_of_notMem hx]

omit ha in
theorem pass3_frame {x : ℕ} {expsum : V} (hx : x ∉ tensor (a.attBth b t h) a.T) :
    a.pass3 b t h expsum mem x = mem x :=
  fill_of_notMem hx

omit ha in
theorem pass2_frame {x : ℕ} {maxval : V} (ht : t < a.T) (hx : x ∉ tensor (a.attBth b t h) a.T) :
    (a.pass2 b t h maxval mem).2 x = mem x := by
  apply scanFill_of_notMem
  intro hin
  exact hx ⟨hin.1, hin.2.trans_le (Nat.add_le_add_left ht _)⟩

omit ha in
theorem pass1_frame {x : ℕ} (hx : x ∉ tensor (a.preattBth b t h) (t + 1)) :
    (a.pass1 b t h mem).2 x = mem x :=
  scanFill_of_notMem hx

/-- The memory after the first pass and before the last one. -/
theorem exists_passes (mem : ℕ → V) : ∃ m₁ m₃ : ℕ → V, a.head b t h mem = a.pass4 b t h m₃ ∧
    slice m₁ (a.preattBth b t h) (t + 1) = a.headScores b t h mem ∧
    slice m₃ (a.attBth b t h) (t + 1) = attentionWeights (a.headScores b t h mem) ∧
    (∀ t2, t < t2 → t2 < a.T → m₃ (a.attBth b t h + t2) = 0) ∧
    (∀ x, x ∉ tensor (a.preattBth b t h) (t + 1) → m₁ x = mem x) ∧
    ∀ x, x ∉ tensor (a.attBth b t h) a.T → m₃ x = m₁ x := by
  obtain ⟨hmax, hscores⟩ := pass1_eq ha mem
  obtain ⟨hsum, hexps⟩ := pass2_eq ha hscores
  obtain ⟨hatt, hzero⟩ := pass3_eq ha hexps
  refine ⟨_, _, ?_, hscores, hatt, hzero, ?_, ?_⟩
  · rw [head, hmax, hsum]
  · intro x hx
    exact pass1_frame hx
  · intro x hx
    rw [pass3_frame hx, pass2_frame ha.lt hx]

omit [Cell V] ha in
variable (a) in
/-- The cells that one head writes for `(b, t)`. -/
def headCells (b t h : ℕ) : Set ℕ :=
  { x | x ∈ tensor (a.preattBth b t h) (t + 1) ∨ x ∈ tensor (a.attBth b t h) a.T ∨
    x ∈ tensor (a.outBth b t h) a.hs }

omit ha in
theorem head_frame {x : ℕ} (ht : t < a.T) (hx : x ∉ a.headCells b t h) : a.head b t h mem x = mem x := by
  simp only [headCells, Set.mem_ofPred_eq, not_or] at hx
  rw [head, pass4_frame hx.2.2, pass3_frame hx.2.1, pass2_frame ht hx.2.1, pass1_frame hx.1]

theorem slice_head_preatt (mem : ℕ → V) :
    slice (a.head b t h mem) (a.preattBth b t h) (t + 1) = a.headScores b t h mem := by
  obtain ⟨m₁, m₃, hhead, hscores, -, -, -, hatt⟩ := exists_passes ha mem
  rw [← hscores, hhead]
  apply slice_congr
  intro x hx
  rw [pass4_frame (ha.preatt_out x hx), hatt x (ha.preatt_att x hx)]

theorem slice_head_att (mem : ℕ → V) :
    slice (a.head b t h mem) (a.attBth b t h) (t + 1) =
      attentionWeights (a.headScores b t h mem) := by
  obtain ⟨m₁, m₃, hhead, -, hatt, -, -, -⟩ := exists_passes ha mem
  rw [← hatt, hhead]
  apply slice_congr
  intro x hx
  exact pass4_frame (ha.att_out x ⟨hx.1, hx.2.trans_le (Nat.add_le_add_left ha.lt _)⟩)

theorem head_att_zero (mem : ℕ → V) {t2 : ℕ} (hgt : t < t2) (hlt : t2 < a.T) :
    a.head b t h mem (a.attBth b t h + t2) = 0 := by
  obtain ⟨m₁, m₃, hhead, -, -, hzero, -, -⟩ := exists_passes ha mem
  rw [hhead, pass4_frame (ha.att_out _ ⟨Nat.le_add_right _ _, Nat.add_lt_add_left hlt _⟩),
    hzero t2 hgt hlt]

theorem slice_head_out (mem : ℕ → V) :
    slice (a.head b t h mem) (a.outBth b t h) a.hs =
      Gpt.head (slice mem (a.query b t h) a.hs) (a.keys b t h mem) (a.values b t h mem) := by
  obtain ⟨m₁, m₃, hhead, -, hatt, -, hm₁, hm₃⟩ := exists_passes ha mem
  have hvalues : a.values b t h m₃ = a.values b t h mem := by
    apply List.map_congr_left
    intro t2 ht2
    have ht2 : t2 ≤ t := Nat.lt_succ_iff.mp (List.mem_range.mp ht2)
    apply slice_congr
    intro x hx
    rw [hm₃ x (ha.value_att t2 ht2 x hx), hm₁ x (ha.value_preatt t2 ht2 x hx)]
  rw [hhead, pass4_eq ha hatt, hvalues, Gpt.head, length_slice, headScores]

/-- A head does the same in another memory with the same queries, keys and values. -/
theorem head_congr {m : ℕ → V} (hscores : a.headScores b t h m = a.headScores b t h mem)
    (hout : slice (a.head b t h m) (a.outBth b t h) a.hs =
      slice (a.head b t h mem) (a.outBth b t h) a.hs) {x : ℕ} (hx : x ∈ a.headCells b t h) :
    a.head b t h m x = a.head b t h mem x := by
  rcases hx with hx | hx | hx
  · apply eq_of_slice_eq _ hx
    rw [slice_head_preatt ha, slice_head_preatt ha, hscores]
  · obtain ⟨hle, hlt⟩ := mem_tensor.mp hx
    rcases Nat.lt_or_ge t (x - a.attBth b t h) with hgt | hle'
    · have hcell : a.attBth b t h + (x - a.attBth b t h) = x := Nat.add_sub_cancel' hle
      rw [← hcell, head_att_zero ha m hgt (by omega), head_att_zero ha mem hgt (by omega)]
    · apply eq_of_slice_eq (n := t + 1) _ (mem_tensor.mpr ⟨hle, by omega⟩)
      rw [slice_head_att ha, slice_head_att ha, hscores]
  · exact eq_of_slice_eq hout hx

end AttentionArgs

end OsWorkbench.Gpt
