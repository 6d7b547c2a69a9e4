import OsWorkbench.Gpt.Attention

namespace OsWorkbench.Gpt.AttentionArgs

open Library

variable {V : Type} {mem : ℕ → V} {a : AttentionArgs} {b t h x : ℕ}

/-- The three tensors that `attention_forward` writes. -/
def region (a : AttentionArgs) : Set ℕ :=
  { x | x ∈ tensor a.preatt (a.B * a.NH * a.T * a.T) ∨ x ∈ tensor a.att (a.B * a.NH * a.T * a.T) ∨
    x ∈ tensor a.out (a.B * a.T * a.C) }

structure Apart (a : AttentionArgs) : Prop where
  heads : a.NH * a.hs = a.C
  inp : Separated a.inp (a.B * a.T * a.C3) a.region
  preatt_att : Separated a.preatt (a.B * a.NH * a.T * a.T) (tensor a.att (a.B * a.NH * a.T * a.T))
  preatt_out : Separated a.preatt (a.B * a.NH * a.T * a.T) (tensor a.out (a.B * a.T * a.C))
  att_out : Separated a.att (a.B * a.NH * a.T * a.T) (tensor a.out (a.B * a.T * a.C))

theorem preattBth_eq : a.preattBth b t h = a.preatt + ((b * a.NH + h) * a.T + t) * a.T := by
  rw [preattBth]
  ring

theorem attBth_eq : a.attBth b t h = a.att + ((b * a.NH + h) * a.T + t) * a.T := by
  rw [attBth]
  ring

theorem outBth_eq (hheads : a.NH * a.hs = a.C) :
    a.outBth b t h = a.out + ((b * a.T + t) * a.NH + h) * a.hs := by
  rw [outBth, ← hheads]
  ring

theorem scores_index (hb : b < a.B) (ht : t < a.T) (hh : h < a.NH) :
    (b * a.NH + h) * a.T + t < a.B * a.NH * a.T :=
  mul_add_lt (mul_add_lt hb hh) ht

theorem mem_preatt (hb : b < a.B) (ht : t < a.T) (hh : h < a.NH)
    (hx : x ∈ tensor (a.preattBth b t h) (t + 1)) : x ∈ tensor a.preatt (a.B * a.NH * a.T * a.T) := by
  rw [preattBth_eq] at hx
  exact mem_of_part (scores_index hb ht hh)
    (mem_tensor.mpr ⟨hx.1, hx.2.trans_le (Nat.add_le_add_left ht _)⟩)

theorem mem_att (hb : b < a.B) (ht : t < a.T) (hh : h < a.NH)
    (hx : x ∈ tensor (a.attBth b t h) a.T) : x ∈ tensor a.att (a.B * a.NH * a.T * a.T) := by
  rw [attBth_eq] at hx
  exact mem_of_part (scores_index hb ht hh) hx

theorem mem_out (hheads : a.NH * a.hs = a.C) (hb : b < a.B) (ht : t < a.T) (hh : h < a.NH)
    (hx : x ∈ tensor (a.outBth b t h) a.hs) : x ∈ tensor a.out (a.B * a.T * a.C) := by
  rw [outBth_eq hheads] at hx
  have hmem := mem_of_part (mul_add_lt (mul_add_lt hb ht) hh) hx
  rwa [Nat.mul_assoc (a.B * a.T), hheads] at hmem

theorem headCells_subset (hheads : a.NH * a.hs = a.C) (hb : b < a.B) (ht : t < a.T) (hh : h < a.NH)
    (hx : x ∈ a.headCells b t h) : x ∈ a.region := by
  rcases hx with hx | hx | hx
  · exact .inl (mem_preatt hb ht hh hx)
  · exact .inr (.inl (mem_att hb ht hh hx))
  · exact .inr (.inr (mem_out hheads hb ht hh hx))

/-- The third of a row that belongs to the head. -/
theorem head_end_le (hheads : a.NH * a.hs = a.C) (hh : h < a.NH) : h * a.hs + a.hs ≤ a.C := by
  have hle := Nat.mul_le_mul_right a.hs (Nat.succ_le_of_lt hh)
  rwa [Nat.succ_mul, hheads] at hle

section Apart

variable (ha : a.Apart)

include ha

theorem Apart.inp_part (hb : b < a.B) {s k : ℕ} (hs : s < a.T) (hk : k + a.hs ≤ a.C3) :
    Separated (a.inp + b * a.T * a.C3 + s * a.C3 + k) a.hs a.region := by
  have hbounds := row_bounds (p := a.inp) (C := a.C3) hb hs
  exact ha.inp.mono (by omega) (by omega) fun _ ↦ id

theorem Apart.headApart (hb : b < a.B) (ht : t < a.T) (hh : h < a.NH) : a.HeadApart b t h := by
  have hend := head_end_le ha.heads hh
  have hC3 : a.C3 = a.C * 3 := rfl
  have hquery := ha.inp_part hb ht (k := h * a.hs) (by omega)
  have hkey : ∀ t2 ≤ t, Separated (a.key b t2 h) a.hs a.region := by
    intro t2 ht2
    have hpart := ha.inp_part hb (ht2.trans_lt ht) (k := h * a.hs + a.C) (by omega)
    rwa [← Nat.add_assoc] at hpart
  have hvalue : ∀ t2 ≤ t, Separated (a.value b t2 h) a.hs a.region := by
    intro t2 ht2
    have hpart := ha.inp_part hb (ht2.trans_lt ht) (k := h * a.hs + a.C * 2) (by omega)
    rwa [← Nat.add_assoc] at hpart
  constructor
  · exact ht
  · intro x hx hin
    exact ha.preatt_att x (mem_preatt hb ht hh hx) (mem_att hb ht hh hin)
  · intro x hx hin
    exact ha.preatt_out x (mem_preatt hb ht hh hx) (mem_out ha.heads hb ht hh hin)
  · intro x hx hin
    exact ha.att_out x (mem_att hb ht hh hx) (mem_out ha.heads hb ht hh hin)
  · intro x hx hin
    exact hquery x hx (headCells_subset ha.heads hb ht hh (.inl hin))
  · intro t2 ht2 x hx hin
    exact hkey t2 ht2 x hx (headCells_subset ha.heads hb ht hh (.inl hin))
  · intro t2 ht2 x hx hin
    exact hvalue t2 ht2 x hx (headCells_subset ha.heads hb ht hh (.inl hin))
  · intro t2 ht2 x hx hin
    exact hvalue t2 ht2 x hx (headCells_subset ha.heads hb ht hh (.inr (.inl hin)))
  · intro t2 ht2 x hx hin
    exact hvalue t2 ht2 x hx (headCells_subset ha.heads hb ht hh (.inr (.inr hin)))

theorem Apart.slice_part (hb : b < a.B) {s k : ℕ} (hs : s < a.T) (hk : k + a.hs ≤ a.C3) {m : ℕ → V}
    (hm : ∀ x, x ∉ a.region → m x = mem x) :
    slice m (a.inp + b * a.T * a.C3 + s * a.C3 + k) a.hs =
      part (slice mem (a.inp + b * a.T * a.C3 + s * a.C3) a.C3) k a.hs := by
  rw [part, take_drop_slice hk]
  exact (ha.inp_part hb hs hk).slice_eq hm le_rfl le_rfl

/-- The rows of queries, keys and values of batch `b`. -/
def rows (a : AttentionArgs) (b : ℕ) (mem : ℕ → V) (s : ℕ) : List V :=
  slice mem (a.inp + b * a.T * a.C3 + s * a.C3) a.C3

variable (hb : b < a.B) (ht : t < a.T) (hh : h < a.NH) {m : ℕ → V}
  (hm : ∀ x, x ∉ a.region → m x = mem x)

include hb ht hh hm

theorem Apart.query_eq : slice m (a.query b t h) a.hs = part (a.rows b mem t) (h * a.hs) a.hs := by
  have hend := head_end_le ha.heads hh
  have hC3 : a.C3 = a.C * 3 := rfl
  exact ha.slice_part hb ht (by omega) hm

theorem Apart.keys_eq : a.keys b t h m =
    (List.range (t + 1)).map fun t2 ↦ part (a.rows b mem t2) (a.C + h * a.hs) a.hs := by
  have hend := head_end_le ha.heads hh
  have hC3 : a.C3 = a.C * 3 := rfl
  apply List.map_congr_left
  intro t2 ht2
  have hlt := List.mem_range.mp ht2
  have hkey := ha.slice_part hb (show t2 < a.T by omega) (k := a.C + h * a.hs) (by omega) hm
  rw [rows, ← hkey, key]
  congr 1
  omega

theorem Apart.values_eq : a.values b t h m =
    (List.range (t + 1)).map fun t2 ↦ part (a.rows b mem t2) (a.C * 2 + h * a.hs) a.hs := by
  have hend := head_end_le ha.heads hh
  have hC3 : a.C3 = a.C * 3 := rfl
  apply List.map_congr_left
  intro t2 ht2
  have hlt := List.mem_range.mp ht2
  have hvalue := ha.slice_part hb (show t2 < a.T by omega) (k := a.C * 2 + h * a.hs) (by omega) hm
  rw [rows, ← hvalue, value]
  congr 1
  omega

end Apart

theorem mem_heads {i : ℕ × ℕ × ℕ} : i ∈ a.heads ↔ i.1 < a.B ∧ i.2.1 < a.T ∧ i.2.2 < a.NH := by
  simp only [heads, List.mem_flatMap, List.mem_map, List.mem_range, Grid.mem_rowMajor]
  constructor
  · rintro ⟨r, ⟨b, hb, t, ht, rfl⟩, h, hh, rfl⟩
    exact ⟨hb, ht, hh⟩
  · rintro ⟨hb, ht, hh⟩
    exact ⟨(i.1, i.2.1), ⟨i.1, hb, i.2.1, ht, rfl⟩, i.2.2, hh, rfl⟩

theorem nodup_heads : a.heads.Nodup := by
  rw [heads, List.nodup_flatMap]
  constructor
  · intro r _
    apply List.nodup_range.map
    intro h h' he
    simpa using he
  · have hnodup : (Grid.rowMajor a.B a.T Prod.mk).Nodup :=
      Grid.nodup_rowMajor fun i j i' j' h ↦ Prod.mk.inj h
    apply hnodup.imp
    intro r r' hne
    rw [Function.onFun_apply, List.disjoint_left]
    intro i hi hi'
    obtain ⟨h, -, rfl⟩ := List.mem_map.mp hi
    obtain ⟨h', -, he⟩ := List.mem_map.mp hi'
    obtain ⟨hb, ht, -⟩ : r'.1 = r.1 ∧ r'.2 = r.2 ∧ h' = h := by simpa using he
    exact hne (Prod.ext hb.symm ht.symm)

theorem headCells_apart (ha : a.Apart) {b' t' h' : ℕ} (hb : b < a.B) (ht : t < a.T) (hh : h < a.NH)
    (hb' : b' < a.B) (ht' : t' < a.T) (hh' : h' < a.NH) (hx : x ∈ a.headCells b t h)
    (hx' : x ∈ a.headCells b' t' h') : b = b' ∧ t = t' ∧ h = h' := by
  have hscores : (b * a.NH + h) * a.T + t = (b' * a.NH + h') * a.T + t' →
      b = b' ∧ t = t' ∧ h = h' := by
    intro he
    obtain ⟨hrow, htt⟩ := mul_add_inj ht ht' he
    obtain ⟨hbb, hhh⟩ := mul_add_inj hh hh' hrow
    exact ⟨hbb, htt, hhh⟩
  rcases hx with hx | hx | hx
  · rcases hx' with hx' | hx' | hx'
    · apply hscores
      rw [preattBth_eq] at hx hx'
      exact part_inj (mem_tensor.mpr ⟨hx.1, hx.2.trans_le (Nat.add_le_add_left ht _)⟩)
        (mem_tensor.mpr ⟨hx'.1, hx'.2.trans_le (Nat.add_le_add_left ht' _)⟩)
    · exact absurd (mem_att hb' ht' hh' hx') (ha.preatt_att x (mem_preatt hb ht hh hx))
    · exact absurd (mem_out ha.heads hb' ht' hh' hx') (ha.preatt_out x (mem_preatt hb ht hh hx))
  · rcases hx' with hx' | hx' | hx'
    · exact absurd (mem_att hb ht hh hx) (ha.preatt_att x (mem_preatt hb' ht' hh' hx'))
    · apply hscores
      rw [attBth_eq] at hx hx'
      exact part_inj hx hx'
    · exact absurd (mem_out ha.heads hb' ht' hh' hx') (ha.att_out x (mem_att hb ht hh hx))
  · rcases hx' with hx' | hx' | hx'
    · exact absurd (mem_out ha.heads hb ht hh hx) (ha.preatt_out x (mem_preatt hb' ht' hh' hx'))
    · exact absurd (mem_out ha.heads hb ht hh hx) (ha.att_out x (mem_att hb' ht' hh' hx'))
    · rw [outBth_eq ha.heads] at hx hx'
      obtain ⟨hrow, hhh⟩ := mul_add_inj hh hh' (part_inj hx hx')
      obtain ⟨hbb, htt⟩ := mul_add_inj ht ht' hrow
      exact ⟨hbb, htt, hhh⟩

variable [Cell V]

theorem Apart.blocks (ha : a.Apart) (mem : ℕ → V) :
    Blocks (fun i : ℕ × ℕ × ℕ ↦ a.head i.1 i.2.1 i.2.2) (fun i ↦ a.headCells i.1 i.2.1 i.2.2)
      a.region mem a.heads := by
  constructor
  · intro i hi m x hx
    exact head_frame (mem_heads.mp hi).2.1 hx
  · intro i hi x hx
    obtain ⟨hb, ht, hh⟩ := mem_heads.mp hi
    exact headCells_subset ha.heads hb ht hh hx
  · intro i hi m hm x hx
    obtain ⟨hb, ht, hh⟩ := mem_heads.mp hi
    have happart := ha.headApart hb ht hh
    apply head_congr happart _ _ hx
    · rw [headScores, headScores, ha.query_eq hb ht hh hm, ha.keys_eq hb ht hh hm,
        ha.query_eq hb ht hh fun _ _ ↦ rfl, ha.keys_eq hb ht hh fun _ _ ↦ rfl]
    · rw [slice_head_out happart, slice_head_out happart, ha.query_eq hb ht hh hm,
        ha.keys_eq hb ht hh hm, ha.values_eq hb ht hh hm, ha.query_eq hb ht hh fun _ _ ↦ rfl,
        ha.keys_eq hb ht hh fun _ _ ↦ rfl, ha.values_eq hb ht hh fun _ _ ↦ rfl]
  · apply List.Pairwise.imp_of_mem _ nodup_heads
    intro i j hi hj hne x hx hx'
    obtain ⟨hb, ht, hh⟩ := mem_heads.mp hi
    obtain ⟨hb', ht', hh'⟩ := mem_heads.mp hj
    obtain ⟨hbb, htt, hhh⟩ := headCells_apart ha hb ht hh hb' ht' hh' hx hx'
    exact hne (Prod.ext hbb (Prod.ext htt hhh))

theorem forward_rows (ha : a.Apart) (mem : ℕ → V) :
    (∀ b < a.B, ∀ t < a.T, slice (a.forward mem) (a.out + b * a.T * a.C + t * a.C) a.C =
      attention a.C a.NH (a.rows b mem) t) ∧ ∀ x, x ∉ a.region → a.forward mem x = mem x := by
  refine ⟨?_, ?_⟩
  · intro b hb t ht
    have hslice : slice (a.forward mem) (a.out + b * a.T * a.C + t * a.C) (a.NH * a.hs) = _ :=
      slice_mul
    rw [ha.heads] at hslice
    rw [hslice, attention]
    apply List.flatMap_congr
    intro h hh
    have hh : h < a.NH := List.mem_range.mp hh
    have happart := ha.headApart hb ht hh
    have hwritten : slice (a.forward mem) (a.outBth b t h) a.hs =
        slice (a.head b t h mem) (a.outBth b t h) a.hs := by
      apply slice_congr
      intro x hx
      exact (ha.blocks mem).foldl_written (fun _ _ ↦ rfl) (i := (b, t, h))
        (mem_heads.mpr ⟨hb, ht, hh⟩) (.inr (.inr hx))
    rw [← outBth, hwritten, slice_head_out happart, ha.query_eq hb ht hh fun _ _ ↦ rfl,
      ha.keys_eq hb ht hh fun _ _ ↦ rfl, ha.values_eq hb ht hh fun _ _ ↦ rfl]
    rfl
  · intro x hx
    exact (ha.blocks mem).foldl_outside hx

end OsWorkbench.Gpt.AttentionArgs
