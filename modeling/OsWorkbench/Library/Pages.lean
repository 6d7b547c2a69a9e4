import Mathlib.Data.List.Basic
import Mathlib.Tactic.Ring

namespace OsWorkbench.Library.Pages

variable {α β : Type*} (cells : β → List α)

/-- An item cut between two of its cells. -/
structure Cut where
  item : β
  point : ℕ
  pos : 0 < point
  lt : point < (cells item).length

namespace Cut

variable {cells} (c : Cut cells)

def front : List α := (cells c.item).take c.point

def back : List α := (cells c.item).drop c.point

@[simp] theorem length_front : c.front.length = c.point := by
  simp [front, Nat.le_of_lt c.lt]

@[simp] theorem length_back : c.back.length = (cells c.item).length - c.point := by
  simp [back]

end Cut

/-- The cells of a carried or of an opened item that lie on a page. -/
def carried (c : Option (Cut cells)) : List α := c.elim [] Cut.back

def opened (c : Option (Cut cells)) : List α := c.elim [] Cut.front

/-- A page of a stream of items: the rest of an item begun on the page before,
items of its own, and the beginning of an item that goes on over the page. -/
structure Page where
  carry : Option (Cut cells)
  whole : List β
  opening : Option (Cut cells)

def Page.content {cells : β → List α} (p : Page cells) : List α :=
  carried cells p.carry ++ p.whole.flatMap cells ++ opened cells p.opening

/-- The items that fit into `room` cells, the one that is cut there, and the others. -/
def fill : ℕ → List β → List β × Option (Cut cells) × List β
  | _, [] => ([], none, [])
  | room, b :: bs =>
    if (cells b).length ≤ room then
      (b :: (fill (room - (cells b).length) bs).1, (fill (room - (cells b).length) bs).2)
    else if h : 0 < room ∧ room < (cells b).length then ([], some ⟨b, room, h.1, h.2⟩, bs)
    else ([], none, b :: bs)

def pages (n : ℕ) : ℕ → Option (Cut cells) → List β → List (Page cells)
  | 0, _, _ => []
  | m + 1, carry, bs =>
    let r := fill cells (n - (carried cells carry).length) bs
    ⟨carry, r.1, r.2.1⟩ :: pages n m r.2.1 r.2.2

/-- The items whose first and last cell lie on different pages, when the first
of them begins at position `o`. -/
def cutItems (n : ℕ) : ℕ → List β → List β
  | _, [] => []
  | o, b :: bs =>
    if o / n = (o + (cells b).length - 1) / n then cutItems n (o + (cells b).length) bs
    else b :: cutItems n (o + (cells b).length) bs

/-- The items that begin on the first cell of a page. -/
def firstItems (n : ℕ) : ℕ → List β → List β
  | _, [] => []
  | o, b :: bs =>
    if n ∣ o then b :: firstItems n (o + (cells b).length) bs
    else firstItems n (o + (cells b).length) bs

variable {cells}

theorem fill_take (room : ℕ) (bs : List β) :
    (fill cells room bs).1.flatMap cells ++ opened cells (fill cells room bs).2.1 =
      (bs.flatMap cells).take room := by
  induction bs generalizing room with
  | nil => simp [fill, opened]
  | cons b bs ih =>
    rw [fill]
    split_ifs with hfit hcut
    · simp only [List.flatMap_cons, List.append_assoc, ih, List.take_append,
        List.take_of_length_le hfit]
    · simp [opened, Cut.front, List.take_append, Nat.sub_eq_zero_of_le hcut.2.le]
    · have h0 : room = 0 := by omega
      simp [opened, h0]

theorem fill_drop (room : ℕ) (bs : List β) :
    carried cells (fill cells room bs).2.1 ++ (fill cells room bs).2.2.flatMap cells =
      (bs.flatMap cells).drop room := by
  induction bs generalizing room with
  | nil => simp [fill, carried]
  | cons b bs ih =>
    rw [fill]
    split_ifs with hfit hcut
    · simp only [List.flatMap_cons, ih, List.drop_append, List.drop_of_length_le hfit,
        List.nil_append]
    · simp [carried, Cut.back, List.drop_append, Nat.sub_eq_zero_of_le hcut.2.le]
    · have h0 : room = 0 := by omega
      simp [carried, h0]

theorem fill_items (room : ℕ) (bs : List β) :
    (fill cells room bs).1 ++ (fill cells room bs).2.1.toList.map Cut.item ++
      (fill cells room bs).2.2 = bs := by
  induction bs generalizing room with
  | nil => simp [fill]
  | cons b bs ih =>
    rw [fill]
    split_ifs with hfit hcut
    · simpa using ih (room - (cells b).length)
    · simp
    · simp

theorem cutItems_add {n : ℕ} (hn : 0 < n) (hpos : ∀ b, 0 < (cells b).length) (o : ℕ) (bs : List β) :
    cutItems cells n (o + n) bs = cutItems cells n o bs := by
  induction bs generalizing o with
  | nil => rfl
  | cons b bs ih =>
    have hb := hpos b
    have hnext : o + n + (cells b).length = o + (cells b).length + n := by omega
    have hlast : o + (cells b).length + n - 1 = o + (cells b).length - 1 + n := by omega
    simp only [cutItems, hnext, hlast, Nat.add_div_right _ hn, ih, Nat.add_right_cancel_iff]

theorem firstItems_add {n : ℕ} (o : ℕ) (bs : List β) :
    firstItems cells n (o + n) bs = firstItems cells n o bs := by
  induction bs generalizing o with
  | nil => rfl
  | cons b bs ih =>
    have hnext : o + n + (cells b).length = o + (cells b).length + n := by omega
    simp only [firstItems, Nat.dvd_add_self_right, hnext, ih]

/-- On the page that `room` cells are left of, only the item at its end is cut. -/
theorem fill_cutItems {n : ℕ} (hn : 0 < n) (hpos : ∀ b, 0 < (cells b).length) (room o : ℕ)
    (ho : o + room = n) (bs : List β) :
    cutItems cells n o bs = (fill cells room bs).2.1.toList.map Cut.item ++
      cutItems cells n (carried cells (fill cells room bs).2.1).length
        (fill cells room bs).2.2 := by
  induction bs generalizing room o with
  | nil => rfl
  | cons b bs ih =>
    have hb := hpos b
    rw [fill]
    split_ifs with hfit hcut
    · have hfirst : o / n = 0 := Nat.div_eq_of_lt (by omega)
      have hlast : (o + (cells b).length - 1) / n = 0 := Nat.div_eq_of_lt (by omega)
      rw [cutItems, hfirst, hlast, if_pos rfl]
      exact ih (room - (cells b).length) (o + (cells b).length) (by omega)
    · have hfirst : o / n = 0 := Nat.div_eq_of_lt (by omega)
      have hlast : 0 < (o + (cells b).length - 1) / n := Nat.div_pos (by omega) hn
      have hnext : o + (cells b).length = (cells b).length - room + n := by omega
      rw [cutItems, hfirst, if_neg (by omega), hnext, cutItems_add hn hpos]
      simp [carried]
    · have h0 : o = 0 + n := by omega
      rw [h0, cutItems_add hn hpos]
      simp [carried]

theorem fill_firstItems {n : ℕ} (hpos : ∀ b, 0 < (cells b).length) (room o : ℕ)
    (ho : o + room = n) (bs : List β) (h0 : 0 < o) :
    firstItems cells n o bs =
      firstItems cells n (carried cells (fill cells room bs).2.1).length
        (fill cells room bs).2.2 := by
  induction bs generalizing room o with
  | nil => rfl
  | cons b bs ih =>
    have hb := hpos b
    rw [fill]
    split_ifs with hfit hcut
    · rw [firstItems, if_neg (Nat.not_dvd_of_pos_of_lt h0 (by omega))]
      exact ih (room - (cells b).length) (o + (cells b).length) (by omega) (by omega)
    · have hnext : o + (cells b).length = (cells b).length - room + n := by omega
      rw [firstItems, if_neg (Nat.not_dvd_of_pos_of_lt h0 (by omega)), hnext, firstItems_add]
      simp [carried]
    · have h0 : o = 0 + n := by omega
      rw [h0, firstItems_add]
      simp [carried]

variable (cells) in
/-- The cells from the beginning of a page on. -/
def stream (carry : Option (Cut cells)) (bs : List β) : List α :=
  carried cells carry ++ bs.flatMap cells

theorem length_pages (n m : ℕ) (carry : Option (Cut cells)) (bs : List β) :
    (pages cells n m carry bs).length = m := by
  induction m generalizing carry bs with
  | zero => rfl
  | succ m ih => rw [pages, List.length_cons, ih]

section Pages

variable {n : ℕ} (hpos : ∀ b, 0 < (cells b).length) (hle : ∀ b, (cells b).length ≤ n)
include hle

theorem length_carried_le (c : Option (Cut cells)) : (carried cells c).length ≤ n := by
  cases c with
  | none => simp [carried]
  | some c =>
    have h := hle c.item
    simp only [carried, Option.elim, Cut.length_back]
    omega

theorem fill_content (carry : Option (Cut cells)) (bs : List β) :
    let r := fill cells (n - (carried cells carry).length) bs
    Page.content ⟨carry, r.1, r.2.1⟩ = (stream cells carry bs).take n ∧
      stream cells r.2.1 r.2.2 = (stream cells carry bs).drop n := by
  have hc := length_carried_le hle carry
  simp only [Page.content, stream, List.append_assoc, fill_take, fill_drop, List.take_append,
    List.drop_append, List.take_of_length_le hc, List.drop_of_length_le hc, List.nil_append,
    and_self]

theorem pages_content (m : ℕ) (carry : Option (Cut cells)) (bs : List β) (i : ℕ)
    (hi : i < (pages cells n m carry bs).length) :
    ((pages cells n m carry bs)[i]).content = ((stream cells carry bs).drop (i * n)).take n := by
  induction m generalizing carry bs i with
  | zero => simp [pages] at hi
  | succ m ih =>
    obtain ⟨hhere, hnext⟩ := fill_content hle carry bs
    cases i with
    | zero => simpa [pages] using hhere
    | succ i =>
      have h := ih _ _ i (by simpa [pages] using hi)
      rw [hnext, List.drop_drop] at h
      have hidx : n + i * n = (i + 1) * n := by ring
      simpa only [pages, List.getElem_cons_succ, hidx] using h

theorem length_stream_next {m : ℕ} {carry : Option (Cut cells)} {bs : List β}
    (hm : (stream cells carry bs).length ≤ (m + 1) * n) :
    (stream cells (fill cells (n - (carried cells carry).length) bs).2.1
      (fill cells (n - (carried cells carry).length) bs).2.2).length ≤ m * n := by
  have hnext := (fill_content hle carry bs).2
  have hmul : (m + 1) * n = m * n + n := by ring
  rw [hnext, List.length_drop]
  omega

/-- What one page opens, the next one carries on. -/
theorem pages_carry (m : ℕ) (carry : Option (Cut cells)) (bs : List β)
    (hm : (stream cells carry bs).length ≤ m * n) :
    carry.toList ++ (pages cells n m carry bs).filterMap Page.opening =
      (pages cells n m carry bs).filterMap Page.carry := by
  induction m generalizing carry bs with
  | zero =>
    cases carry with
    | none => rfl
    | some c =>
      have hlt := c.lt
      simp only [stream, carried, Option.elim, List.length_append, Cut.length_back] at hm
      omega
  | succ m ih =>
    have hrest := ih _ _ (length_stream_next hle hm)
    rw [pages, List.filterMap_cons, List.filterMap_cons, ← hrest]
    cases carry <;> cases (fill cells (n - (carried cells _).length) bs).2.1 <;> rfl

omit hle
include hpos

theorem eq_nil_of_stream {carry : Option (Cut cells)} {bs : List β}
    (h : (stream cells carry bs).length ≤ 0) : bs = [] := by
  cases bs with
  | nil => rfl
  | cons b bs =>
    have hb := hpos b
    simp only [stream, List.flatMap_cons, List.length_append] at h
    omega

include hle

/-- Enough pages take up all items, each of them once. -/
theorem pages_items (m : ℕ) (carry : Option (Cut cells)) (bs : List β)
    (hm : (stream cells carry bs).length ≤ m * n) :
    (pages cells n m carry bs).flatMap (fun p ↦ p.whole ++ p.opening.toList.map Cut.item) = bs := by
  induction m generalizing carry bs with
  | zero =>
    rw [Nat.zero_mul] at hm
    rw [eq_nil_of_stream hpos hm]
    rfl
  | succ m ih =>
    have hrest := ih _ _ (length_stream_next hle hm)
    rw [pages, List.flatMap_cons, hrest]
    exact fill_items _ bs

theorem pages_cutItems (hn : 0 < n) (m : ℕ) (carry : Option (Cut cells)) (bs : List β)
    (hm : (stream cells carry bs).length ≤ m * n) :
    cutItems cells n (carried cells carry).length bs =
      ((pages cells n m carry bs).filterMap Page.opening).map Cut.item := by
  induction m generalizing carry bs with
  | zero =>
    rw [Nat.zero_mul] at hm
    rw [eq_nil_of_stream hpos hm]
    rfl
  | succ m ih =>
    have hc := length_carried_le hle carry
    have hrest := ih _ _ (length_stream_next hle hm)
    rw [fill_cutItems hn hpos (n - (carried cells carry).length) _ (by omega), hrest, pages,
      List.filterMap_cons]
    cases (fill cells (n - (carried cells carry).length) bs).2.1 <;> rfl

theorem pages_firstItems (m : ℕ) (carry : Option (Cut cells)) (bs : List β)
    (hm : (stream cells carry bs).length ≤ m * n) :
    firstItems cells n (carried cells carry).length bs =
      (pages cells n m carry bs).filterMap fun p ↦ if p.carry.isSome then none else p.whole.head? := by
  induction m generalizing carry bs with
  | zero =>
    rw [Nat.zero_mul] at hm
    rw [eq_nil_of_stream hpos hm]
    rfl
  | succ m ih =>
    have hc := length_carried_le hle carry
    have hrest := ih _ _ (length_stream_next hle hm)
    rw [pages, List.filterMap_cons, ← hrest]
    cases carry with
    | some c =>
      have h0 : 0 < (carried cells (some c)).length := by
        have h := c.lt
        simp only [carried, Option.elim, Cut.length_back]
        omega
      exact fill_firstItems hpos _ _ (by omega) bs h0
    | none =>
      cases bs with
      | nil => rfl
      | cons b bs =>
        have hb := hpos b
        have hfill : fill cells (n - 0) (b :: bs) =
            (b :: (fill cells (n - (cells b).length) bs).1, (fill cells (n - (cells b).length) bs).2) :=
          if_pos (hle b)
        have hfirst := fill_firstItems hpos (n - (cells b).length) (cells b).length
          (Nat.add_sub_cancel' (hle b)) bs hb
        simp only [carried, Option.elim, List.length_nil, firstItems, Nat.dvd_zero, if_true, hfill,
          Option.isSome_none, Bool.false_eq_true, if_false, List.head?_cons, Nat.zero_add]
        rw [hfirst]
        rfl

end Pages

end OsWorkbench.Library.Pages
