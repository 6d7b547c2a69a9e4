import OsWorkbench.Library.CInt
import OsWorkbench.Library.Fallible
import OsWorkbench.Library.Grid
import Mathlib.Data.Nat.Bitwise

namespace OsWorkbench.Hello

open Library Library.Grid

/-- `Image.MAX_IMAGE_PIXELS` -/
def maxImagePixels : ℕ := 1024 * 1024 * 1024 / 4 / 3

/-- What `Image.open` gives for a file in RGB; it raises an error for an image of more
than twice `MAX_IMAGE_PIXELS`. -/
structure Image where
  width : ℕ
  height : ℕ
  pixels : ℕ → ℕ → UInt8 × UInt8 × UInt8
  width_pos : 0 < width
  height_pos : 0 < height
  pixels_le : width * height ≤ 2 * maxImagePixels

/-- `r << 16 | g << 8 | b` -/
def color (p : UInt8 × UInt8 × UInt8) : ℕ := p.1.toNat <<< 16 ||| p.2.1.toNat <<< 8 ||| p.2.2.toNat

def getImagePixels (img : Image) : List (List ℕ) :=
  (List.range img.height).map fun i ↦ (List.range img.width).map fun j ↦ color (img.pixels j i)

/-- The constants in the braces of `image_data`, and the commas. -/
inductive Token
  | word (x : ℕ)
  | comma

/-- Every row with a comma behind it, as long as `height` does not come down to 0. -/
def writeRows : ℤ → List (List ℕ) → List Token
  | _, [] => []
  | height, row :: rows =>
    (row.map Token.word).intersperse .comma ++ (if height - 1 ≠ 0 then [.comma] else []) ++
      writeRows (height - 1) rows

def transcode (img : Image) : List Token := writeRows img.height (getImagePixels img)

/-- The array that a list of constants initialises; `none` where it is not well formed. -/
def initializers : List Token → Option (List UInt32)
  | [.word x] => some [UInt32.ofNat x]
  | .word x :: .comma :: rest => (initializers rest).map (UInt32.ofNat x :: ·)
  | _ => none

/-- A pixel written to `AM_GPU_FBDRAW`. -/
structure Draw where
  x : ℤ
  y : ℤ
  color : UInt32
  deriving DecidableEq

inductive Fault
  | outOfBounds
  deriving DecidableEq, Repr

/-- The body of the loops. -/
def drawPixel (data : List UInt32) (imageWidth imageHeight w h x y : ℤ) : Except Fault Draw :=
  let mapX := (wrap (x * imageWidth)).tdiv w
  let mapY := (wrap (y * imageHeight)).tdiv h
  let index := wrap (wrap (mapY * imageWidth) + mapX)
  if 0 ≤ index then
    match data[index.toNat]? with
    | some color => .ok ⟨x, y, color⟩
    | none => .error .outOfBounds
  else .error .outOfBounds

def draw (data : List UInt32) (imageWidth imageHeight w h : ℤ) : Except Fault (List Draw) := do
  let rows ← (List.range h.toNat).mapM fun (y : ℕ) ↦
    (List.range w.toNat).mapM fun (x : ℕ) ↦ drawPixel data imageWidth imageHeight w h x y
  return rows.flatten

/-- The colour of a pixel as a word of `image_data`. -/
def pixelWord (p : UInt8 × UInt8 × UInt8) : UInt32 := UInt32.ofNat (color p)

def rowTokens (row : List ℕ) : List Token := (row.map Token.word).intersperse .comma

theorem initializers_row {row : List ℕ} (hne : row ≠ []) (rest : List Token) :
    initializers (rowTokens row ++ .comma :: rest) =
      (initializers rest).map (row.map UInt32.ofNat ++ ·) := by
  induction row with
  | nil => exact absurd rfl hne
  | cons x row ih =>
    cases row with
    | nil => rfl
    | cons x' row =>
      have hrest := ih (List.cons_ne_nil x' row)
      change (initializers (rowTokens (x' :: row) ++ .comma :: rest)).map _ = _
      rw [hrest, Option.map_map]
      rfl

theorem initializers_last {row : List ℕ} (hne : row ≠ []) :
    initializers (rowTokens row) = some (row.map UInt32.ofNat) := by
  induction row with
  | nil => exact absurd rfl hne
  | cons x row ih =>
    cases row with
    | nil => rfl
    | cons x' row =>
      have hrest := ih (List.cons_ne_nil x' row)
      change (initializers (rowTokens (x' :: row))).map _ = _
      rw [hrest]
      rfl

/-- The rows are initialised one behind the other. -/
theorem initializers_writeRows {rows : List (List ℕ)} (hne : rows ≠ [])
    (hrows : ∀ row ∈ rows, row ≠ []) :
    initializers (writeRows rows.length rows) = some (rows.flatten.map UInt32.ofNat) := by
  induction rows with
  | nil => exact absurd rfl hne
  | cons row rows ih =>
    obtain ⟨hrow, hrows⟩ := List.forall_mem_cons.mp hrows
    have hheight : ((row :: rows).length : ℤ) - 1 = rows.length := by
      rw [List.length_cons]
      omega
    rw [writeRows, ← rowTokens, hheight, List.flatten_cons, List.map_append]
    cases rows with
    | nil =>
      rw [if_neg (by simp), writeRows, List.append_nil, List.append_nil, initializers_last hrow]
      simp
    | cons row' rows =>
      rw [if_pos (by simp; omega), List.append_assoc, List.singleton_append, initializers_row hrow,
        ih (List.cons_ne_nil row' rows) hrows]
      rfl

theorem transcode_rowMajor (img : Image) :
    initializers (transcode img) =
      some (rowMajor img.height img.width fun i j ↦ pixelWord (img.pixels j i)) := by
  have hlength : (getImagePixels img).length = img.height := by simp [getImagePixels]
  have hrows : ∀ row ∈ getImagePixels img, row ≠ [] := by
    intro row hrow
    obtain ⟨i, -, rfl⟩ := List.mem_map.mp hrow
    have hwidth := img.width_pos
    simpa using hwidth.ne'
  have hne : getImagePixels img ≠ [] := by
    have hheight := img.height_pos
    rw [← List.length_pos_iff, hlength]
    exact hheight
  have hwords := initializers_writeRows hne hrows
  rw [hlength] at hwords
  rw [transcode, hwords, getImagePixels, ← List.flatMap_def, ← rowMajor, map_rowMajor]
  rfl

variable {img : Image} {w h x y : ℕ}

theorem wrap_scaled {n : ℕ} (hx : x < w) (h : w * n < 2 ^ 31) :
    (wrap ((x : ℤ) * n)).tdiv w = (x * n / w : ℕ) := by
  have hlt : x * n < 2 ^ 31 := (Nat.mul_le_mul_right n hx.le).trans_lt h
  rw [← Int.natCast_mul, wrap_natCast hlt]
  rfl

theorem drawPixel_ok (hx : x < w) (hy : y < h) (hiw : w * img.width < 2 ^ 31)
    (hih : h * img.height < 2 ^ 31) :
    drawPixel (rowMajor img.height img.width fun i j ↦ pixelWord (img.pixels j i)) img.width
        img.height w h x y =
      .ok ⟨x, y, pixelWord (img.pixels (x * img.width / w) (y * img.height / h))⟩ := by
  have hmapX := scaled_lt hx img.width_pos
  have hmapY := scaled_lt hy img.height_pos
  have hindex : y * img.height / h * img.width + x * img.width / w < 2 ^ 31 := by
    calc
      y * img.height / h * img.width + x * img.width / w
        < (y * img.height / h + 1) * img.width := by
          rw [Nat.succ_mul]
          exact Nat.add_lt_add_left hmapX _
      _ ≤ img.height * img.width := Nat.mul_le_mul_right _ hmapY
      _ = img.width * img.height := Nat.mul_comm _ _
      _ ≤ 2 * maxImagePixels := img.pixels_le
      _ < 2 ^ 31 := by decide
  have hrow := (Nat.le_add_right _ _).trans_lt hindex
  rw [drawPixel, wrap_scaled hx hiw, wrap_scaled hy hih]
  rw [← Int.natCast_mul, wrap_natCast hrow, ← Int.natCast_add, wrap_natCast hindex,
    if_pos (Int.natCast_nonneg _), Int.toNat_natCast, getElem?_rowMajor hmapY hmapX]

theorem draw_ok (hiw : w * img.width < 2 ^ 31) (hih : h * img.height < 2 ^ 31) :
    draw (rowMajor img.height img.width fun i j ↦ pixelWord (img.pixels j i)) img.width img.height
        w h =
      .ok (rowMajor h w fun y x ↦
        ⟨x, y, pixelWord (img.pixels (x * img.width / w) (y * img.height / h))⟩) := by
  rw [draw, Int.toNat_natCast, Int.toNat_natCast, mapM_ok fun y hy ↦ mapM_ok fun x hx ↦
    drawPixel_ok (List.mem_range.mp hx) (List.mem_range.mp hy) hiw hih]
  rfl

def Draw.position (d : Draw) : ℤ × ℤ := (d.x, d.y)

/-- Every pixel of the screen is drawn once, in the colour of the pixel of the image that lies
there, and on a screen that is large enough every pixel of the image is shown. -/
theorem draw_shows (img : Image) {w h : ℕ} (hiw : w * img.width < 2 ^ 31)
    (hih : h * img.height < 2 ^ 31) :
    ∃ data draws, initializers (transcode img) = some data ∧
      draw data img.width img.height w h = .ok draws ∧
      (∀ x < w, ∀ y < h, (draws.map Draw.position).count ((x : ℤ), (y : ℤ)) = 1) ∧
      (∀ d ∈ draws, ∃ x < w, ∃ y < h,
        d = ⟨x, y, pixelWord (img.pixels (x * img.width / w) (y * img.height / h))⟩) ∧
      (img.width ≤ w → img.height ≤ h → ∀ i < img.width, ∀ j < img.height, ∃ x < w, ∃ y < h,
        x * img.width / w = i ∧ y * img.height / h = j ∧
          ⟨x, y, pixelWord (img.pixels i j)⟩ ∈ draws) := by
  refine ⟨_, _, transcode_rowMajor img, draw_ok hiw hih, fun x hx y hy ↦ ?_, fun d hd ↦ ?_,
    fun hw hh i hi j hj ↦ ?_⟩
  · rw [map_rowMajor]
    apply List.count_eq_one_of_mem
    · apply nodup_rowMajor
      intro i j i' j' hsame
      obtain ⟨hj, hi⟩ := Prod.mk.inj hsame
      exact ⟨Int.natCast_inj.mp hi, Int.natCast_inj.mp hj⟩
    · exact mem_rowMajor.mpr ⟨y, hy, x, hx, rfl⟩
  · obtain ⟨y, hy, x, hx, rfl⟩ := mem_rowMajor.mp hd
    exact ⟨x, hx, y, hy, rfl⟩
  · obtain ⟨x, hx, rfl⟩ := exists_scaled hw hi
    obtain ⟨y, hy, rfl⟩ := exists_scaled hh hj
    exact ⟨x, hx, y, hy, rfl, rfl, mem_rowMajor.mpr ⟨y, hy, x, hx, rfl⟩⟩

def smallImage : Image where
  width := 2
  height := 1
  pixels j _ := if j = 0 then (1, 2, 3) else (4, 5, 6)
  width_pos := by decide
  height_pos := by decide
  pixels_le := by decide

theorem smallImage_shown : ∃ data draws, initializers (transcode smallImage) = some data ∧
    draw data 2 1 3 2 = .ok draws ∧
    (∀ x < (3 : ℕ), ∀ y < (2 : ℕ), (draws.map Draw.position).count ((x : ℤ), (y : ℤ)) = 1) ∧
    (∀ d ∈ draws, ∃ x < (3 : ℕ), ∃ y < (2 : ℕ),
      d = ⟨x, y, pixelWord (smallImage.pixels (x * 2 / 3) (y * 1 / 2))⟩) ∧
    (2 ≤ 3 → 1 ≤ 2 → ∀ i < 2, ∀ j < 1, ∃ x < (3 : ℕ), ∃ y < (2 : ℕ),
      x * 2 / 3 = i ∧ y * 1 / 2 = j ∧ ⟨x, y, pixelWord (smallImage.pixels i j)⟩ ∈ draws) :=
  @draw_shows smallImage 3 2 (by decide) (by decide)

example : (initializers (transcode smallImage)).map (fun data ↦
    (draw data 2 1 3 2).toOption.map (List.map Draw.color)) =
      some (some [0x010203, 0x010203, 0x040506, 0x010203, 0x010203, 0x040506]) := by
  decide +kernel

end OsWorkbench.Hello
