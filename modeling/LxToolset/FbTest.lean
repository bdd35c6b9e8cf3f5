import LxToolset.ShowBitmap

/-!
# fbtest

The program draws four bands over the screen, or five blocks : one in each corner and one in the
middle. A pixel is stored as 16 bits whatever the depth, and the blocks have a fixed size and are
placed by the size of the screen, so that what is drawn can end below the framebuffer or beside a
row (`drawsInside_iff`).
-/

namespace LxToolset

/-! ## Types -/

/-- A screen that `fb_init` can publish, with a pitch that has not been cut off. -/
structure FbGeometry where
  visual : UInt32
  width : UInt32
  height : UInt32
  bitsPerPixel : UInt32
  depth : bitsPerPixel = 8 ∨ bitsPerPixel = 16 ∨ bitsPerPixel = 24 ∨ bitsPerPixel = 32
  pitch_lt : width.toNat * bitsPerPixel.toNat < 2 ^ 32

def FbGeometry.screen (g : FbGeometry) : Screen :=
  fbScreen g.visual g.width g.height g.bitsPerPixel

/-- 16 bits stored at an offset from the start of the framebuffer. -/
structure PixelStore where
  off : ℤ
  value : UInt16
  deriving DecidableEq

/-- `RGB(r,g,b)`. -/
def rgb16 (r g b : ℕ) : UInt16 :=
  UInt16.ofNat ((r >>> 3) ||| ((g >>> 2) <<< 5) ||| (b <<< 11))

/-- `color[n]`. -/
def bandColour (n : ℕ) : UInt16 :=
  [rgb16 0xff 0 0, rgb16 0 0xff 0, rgb16 0 0 0xff, rgb16 0xff 0xff 0xff].getD n 0

def blockWidth : ℕ := 80

def blockHeight : ℕ := 48

/-! ## Drawing -/

section Draw

variable (scr : Screen)

/-- `int w = screen->width`. -/
def screenW : ℤ :=
  long32 scr.width.toNat

/-- `int h = screen->height`. -/
def screenH : ℤ :=
  long32 scr.height.toNat

/-- Row `y` of the framebuffer; the product is taken in `uint32`. -/
def rowOff (y : ℤ) : ℤ :=
  y * scr.pitch.toNat % 2 ^ 32

/-- `case 1`. -/
def drawBands : List PixelStore :=
  (List.range 4).flatMap fun (n : ℕ) =>
    (List.range ((screenH scr).tdiv 4).toNat).flatMap fun (i : ℕ) =>
      (List.range (screenW scr).toNat).map fun (j : ℕ) =>
        ⟨rowOff scr (n * (screenH scr).tdiv 4 + i : ℤ) + 2 * j, bandColour n⟩

/-- A block with its corner at column `x` and row `y`. -/
def drawBlock (x y : ℤ) : List PixelStore :=
  (List.range blockHeight).flatMap fun (i : ℕ) =>
    (List.range blockWidth).map fun (j : ℕ) =>
      ⟨rowOff scr (y + i) + x * scr.bytespix + 2 * j, rgb16 0xff 0xff 0xff⟩

/-- The corners of the five blocks. -/
def blockCorners : List (ℤ × ℤ) :=
  [(blockWidth, blockHeight),
    (screenW scr - blockWidth * 2, blockHeight),
    (blockWidth, screenH scr - blockHeight * 2),
    (screenW scr - blockWidth * 2, screenH scr - blockHeight * 2),
    ((screenW scr - blockWidth).tdiv 2, (screenH scr - blockHeight).tdiv 2)]

/-- `case 2`. -/
def drawBlocks : List PixelStore :=
  (blockCorners scr).flatMap fun c => drawBlock scr c.1 c.2

/-- The argument of `-t`. -/
inductive DrawType where
  | bands
  | blocks
  deriving DecidableEq

def drawScreen : DrawType → List PixelStore
  | .bands => drawBands scr
  | .blocks => drawBlocks scr

end Draw

/-- Every store is inside the framebuffer, and the bytes of a block are between the first column of
the screen and the last. -/
structure DrawsInside (scr : Screen) (t : DrawType) : Prop where
  stores : ∀ s ∈ drawScreen scr t, 0 ≤ s.off ∧ s.off + 2 ≤ scr.pitch.toNat * scr.height.toNat
  columns : t = .blocks → ∀ c ∈ blockCorners scr, ∀ j < blockWidth,
    0 ≤ c.1 * scr.bytespix + 2 * j ∧
      c.1 * scr.bytespix + 2 * j + 2 ≤ scr.width.toNat * scr.bytespix

/-! ## Where it is drawn -/

namespace FbGeometry

variable (g : FbGeometry)

theorem toNat_pitch : g.screen.pitch.toNat = g.width.toNat * g.screen.bytespix := by
  have hdvd : 8 ∣ g.bitsPerPixel.toNat := by
    rcases g.depth with h | h | h | h <;> rw [h] <;> decide
  rw [screen, toNat_pitch_fbScreen g.pitch_lt, Nat.mul_div_assoc _ hdvd]
  rfl

theorem bytespix_cases : g.screen.bytespix = 1 ∨ g.screen.bytespix = 2 ∨
    g.screen.bytespix = 3 ∨ g.screen.bytespix = 4 := by
  have hbytes : g.screen.bytespix = g.bitsPerPixel.toNat / 8 := rfl
  rw [hbytes]
  rcases g.depth with h | h | h | h <;> rw [h] <;> decide

theorem width_lt : g.width.toNat < 2 ^ 29 := by
  have h8 : 8 ≤ g.bitsPerPixel.toNat := by
    rcases g.depth with h | h | h | h <;> rw [h] <;> decide
  have hlt := (Nat.mul_le_mul_left g.width.toNat h8).trans_lt g.pitch_lt
  omega

theorem screenW_eq : screenW g.screen = g.width.toNat := by
  have hw : g.screen.width.toNat = g.width.toNat := rfl
  have hlt := g.width_lt
  rw [screenW, hw, long32, Int.bmod_eq_of_le] <;> omega

theorem screenH_eq : screenH g.screen =
    if g.height.toNat < 2 ^ 31 then (g.height.toNat : ℤ) else g.height.toNat - 2 ^ 32 := by
  have hh : g.screen.height.toNat = g.height.toNat := rfl
  have hlt := g.height.toNat_lt
  rw [screenH, hh, long32, Int.bmod]
  split_ifs <;> omega

/-- The bytes of the framebuffer. -/
def bytes : ℕ :=
  g.screen.pitch.toNat * g.height.toNat

/-- The bands are as wide as the screen and reach its last row, and there 16-bit pixels take twice
its bytes if the screen has 8 bits. The last alternative is that its offset is cut off. -/
def BandsFit : Prop :=
  g.width = 0 ∨ g.height.toNat < 4 ∨ 2 ^ 31 ≤ g.height.toNat ∨ g.bitsPerPixel ≠ 8 ∨
    g.height.toNat % 4 ≠ 0 ∨ 2 ^ 32 ≤ (g.height.toNat - 1) * g.screen.pitch.toNat

/-- The width has room for two blocks, or for three of them where a block takes the bytes of two. -/
def WideEnough : Prop :=
  160 ≤ g.width.toNat ∧ (g.bitsPerPixel = 8 → 240 ≤ g.width.toNat)

/-- So has the height, unless the products are cut off. -/
def BlocksFit : Prop :=
  g.WideEnough ∧ (96 ≤ g.height.toNat ∨ (2 ^ 32 ≤ 95 * g.screen.pitch.toNat ∧
    ∀ c ∈ blockCorners g.screen, ∀ i < blockHeight,
      rowOff g.screen (c.2 + i) + c.1 * g.screen.bytespix + 2 * blockWidth ≤ g.bytes))

def Fits : DrawType → Prop
  | .bands => g.BandsFit
  | .blocks => g.BlocksFit

end FbGeometry

section Rows

variable {g : FbGeometry} {r : ℤ}

theorem rowOff_nonneg : 0 ≤ rowOff g.screen r :=
  Int.emod_nonneg _ (by decide)

theorem rowOff_le (h : 0 ≤ r) : rowOff g.screen r ≤ r * g.screen.pitch.toNat := by
  have hnonneg : 0 ≤ r * (g.screen.pitch.toNat : ℤ) := Int.mul_nonneg h (Int.natCast_nonneg _)
  unfold rowOff
  omega

/-- A row of the screen ends in the framebuffer. -/
theorem rowOff_add_pitch_le (h : 0 ≤ r) (hr : r < g.height.toNat) :
    rowOff g.screen r + g.screen.pitch.toNat ≤ g.bytes := by
  have hle := rowOff_le (g := g) h
  have hrow : (r + 1) * (g.screen.pitch.toNat : ℤ) ≤ g.height.toNat * g.screen.pitch.toNat :=
    Int.mul_le_mul_of_nonneg_right hr (Int.natCast_nonneg _)
  have hbytes : (g.bytes : ℤ) = g.height.toNat * g.screen.pitch.toNat := by
    rw [FbGeometry.bytes, Nat.mul_comm]
    exact Int.natCast_mul ..
  rw [Int.add_mul, Int.one_mul] at hrow
  omega

theorem bpp_eq_eight_iff : g.bitsPerPixel = 8 ↔ g.screen.bytespix = 1 := by
  have hbytes : g.screen.bytespix = g.bitsPerPixel.toNat / 8 := rfl
  rw [hbytes]
  rcases g.depth with h | h | h | h <;> rw [h] <;> decide

end Rows

section Blocks

variable {g : FbGeometry}

/-- The blocks start and end between the columns of the screen if it is wide enough. -/
theorem columns_iff : (∀ c ∈ blockCorners g.screen, ∀ j < blockWidth,
    0 ≤ c.1 * (g.screen.bytespix : ℤ) + 2 * j ∧
      c.1 * g.screen.bytespix + 2 * j + 2 ≤ g.screen.width.toNat * g.screen.bytespix) ↔
    g.WideEnough := by
  have hw : g.screen.width.toNat = g.width.toNat := rfl
  rw [FbGeometry.WideEnough, bpp_eq_eight_iff, hw]
  have hends : (∀ c ∈ blockCorners g.screen, ∀ j < blockWidth,
      0 ≤ c.1 * (g.screen.bytespix : ℤ) + 2 * j ∧
        c.1 * g.screen.bytespix + 2 * j + 2 ≤ g.width.toNat * g.screen.bytespix) ↔
      ∀ c ∈ blockCorners g.screen, 0 ≤ c.1 * (g.screen.bytespix : ℤ) ∧
        c.1 * (g.screen.bytespix : ℤ) + 160 ≤ g.width.toNat * g.screen.bytespix := by
    refine forall₂_congr fun c hc => ⟨fun h => ?_, fun h j hj => ?_⟩
    · have hfirst := h 0 (by decide)
      have hlast := h 79 (by decide)
      omega
    · have hj80 : j < 80 := hj
      omega
  have hmid : (80 : ℤ) ≤ g.width.toNat →
      ((g.width.toNat : ℤ) - 80).tdiv 2 = (g.width.toNat - 80) / 2 :=
    fun h => Int.tdiv_eq_ediv_of_nonneg (Int.sub_nonneg.mpr h)
  rw [hends]
  simp only [blockCorners, g.screenW_eq, blockWidth, List.forall_mem_cons, List.not_mem_nil,
    false_implies, implies_true, and_true, Nat.cast_ofNat]
  constructor
  · rintro ⟨hleft, hright, -, -, -⟩
    rcases g.bytespix_cases with h | h | h | h <;> rw [h] at hleft hright ⊢ <;> omega
  · rintro ⟨hwide, hwide8⟩
    rw [hmid (by omega)]
    rcases g.bytespix_cases with h | h | h | h <;> rw [h] at hwide8 ⊢ <;> omega

/-- On a screen that is wide enough, a row of a block ends before the next row of the screen. -/
theorem block_end_le {c : ℤ × ℤ} (hwide : g.WideEnough) (hc : c ∈ blockCorners g.screen) :
    0 ≤ c.1 * (g.screen.bytespix : ℤ) ∧
      c.1 * g.screen.bytespix + 2 * blockWidth ≤ g.screen.pitch.toNat := by
  have hcolumns := columns_iff.mpr hwide c hc
  have hfirst := hcolumns 0 (by decide)
  have hlast := hcolumns 79 (by decide)
  have hpitch : (g.screen.pitch.toNat : ℤ) = g.screen.width.toNat * g.screen.bytespix := by
    rw [g.toNat_pitch]
    exact Int.natCast_mul ..
  have h80 : (blockWidth : ℤ) = 80 := rfl
  omega

/-- The rows of the blocks are rows of a screen that is high enough. -/
theorem block_row_lt (hhigh : 96 ≤ g.height.toNat) (hh : g.height.toNat < 2 ^ 31) {c : ℤ × ℤ}
    (hc : c ∈ blockCorners g.screen) {i : ℕ} (hi : i < blockHeight) :
    0 ≤ c.2 + i ∧ c.2 + i < g.height.toNat := by
  have hi48 : i < 48 := hi
  have h48 : (blockHeight : ℤ) = 48 := rfl
  have hmid : ((g.height.toNat : ℤ) - 48).tdiv 2 = (g.height.toNat - 48) / 2 :=
    Int.tdiv_eq_ediv_of_nonneg (by omega)
  rw [blockCorners, g.screenH_eq, if_pos hh, h48, hmid] at hc
  simp only [List.mem_cons, List.not_mem_nil, or_false] at hc
  rcases hc with rfl | rfl | rfl | rfl | rfl <;> omega

/-- Where a negative number of rows is published, every offset leaves room for a row. -/
theorem rowOff_le_of_negative {r : ℤ} (hwide : g.WideEnough) (hh : 2 ^ 31 ≤ g.height.toNat) :
    rowOff g.screen r + g.screen.pitch.toNat ≤ g.bytes := by
  have hlt : rowOff g.screen r < 2 ^ 32 := Int.emod_lt_of_pos _ (by decide)
  have hpitch : 160 ≤ g.screen.pitch.toNat := by
    rw [g.toNat_pitch]
    have hle : g.width.toNat * 1 ≤ g.width.toNat * g.screen.bytespix :=
      Nat.mul_le_mul_left _ (by have := g.bytespix_cases; omega)
    have hwidth := hwide.1
    omega
  obtain ⟨n, hn⟩ : ∃ n, g.height.toNat = n + 1 := ⟨g.height.toNat - 1, by omega⟩
  have hbytes : g.bytes = g.screen.pitch.toNat * n + g.screen.pitch.toNat := by
    rw [FbGeometry.bytes, hn, Nat.mul_succ]
  have hmul : 160 * n ≤ g.screen.pitch.toNat * n := Nat.mul_le_mul_right n hpitch
  omega

theorem block_store_le (hfit : g.BlocksFit) {c : ℤ × ℤ} (hc : c ∈ blockCorners g.screen) {i : ℕ}
    (hi : i < blockHeight) :
    rowOff g.screen (c.2 + i) + c.1 * g.screen.bytespix + 2 * blockWidth ≤ g.bytes := by
  obtain ⟨hwide, hhigh | ⟨-, hrows⟩⟩ := hfit
  · have hend := (block_end_le hwide hc).2
    rcases Nat.lt_or_ge g.height.toNat (2 ^ 31) with hh | hh
    · obtain ⟨hpos, hlt⟩ := block_row_lt hhigh hh hc hi
      have hrow := rowOff_add_pitch_le hpos hlt
      omega
    · have hrow := rowOff_le_of_negative (r := c.2 + i) hwide hh
      omega
  · exact hrows c hc i hi

/-- Below a screen that is too low, the last row of the first block is outside, unless its offset
is cut off. -/
theorem high_of_stores (hlow : g.height.toNat < 96)
    (hstore : rowOff g.screen 95 + 80 * g.screen.bytespix + 2 * blockWidth ≤ g.bytes) :
    2 ^ 32 ≤ 95 * g.screen.pitch.toNat := by
  by_contra hlt
  have hoff : rowOff g.screen 95 = 95 * g.screen.pitch.toNat :=
    Int.emod_eq_of_lt (by omega) (by omega)
  have hbytes : g.bytes ≤ g.screen.pitch.toNat * 95 :=
    Nat.mul_le_mul_left _ (Nat.le_of_lt_succ hlow)
  have hb : (blockWidth : ℤ) = 80 := rfl
  omega

theorem drawsInside_blocks_iff : DrawsInside g.screen .blocks ↔ g.BlocksFit := by
  have hbytes : (g.bytes : ℤ) = g.screen.pitch.toNat * g.screen.height.toNat := Int.natCast_mul ..
  have hmem : ∀ s, s ∈ drawScreen g.screen .blocks ↔ ∃ c ∈ blockCorners g.screen,
      ∃ i < blockHeight, ∃ j < blockWidth, (⟨rowOff g.screen (c.2 + i) +
        c.1 * g.screen.bytespix + 2 * j, rgb16 0xff 0xff 0xff⟩ : PixelStore) = s := by
    simp [drawScreen, drawBlocks, drawBlock]
  constructor
  · intro h
    have hwide := columns_iff.mp (h.columns rfl)
    have hrows : ∀ c ∈ blockCorners g.screen, ∀ i < blockHeight,
        rowOff g.screen (c.2 + i) + c.1 * g.screen.bytespix + 2 * blockWidth ≤ g.bytes := by
      intro c hc i hi
      have hlast : rowOff g.screen (c.2 + i) + c.1 * g.screen.bytespix + 2 * (79 : ℕ) + 2 ≤
          g.screen.pitch.toNat * g.screen.height.toNat :=
        (h.stores _ ((hmem _).mpr ⟨c, hc, i, hi, 79, by decide, rfl⟩)).2
      have hb : (blockWidth : ℤ) = 80 := rfl
      omega
    refine ⟨hwide, or_iff_not_imp_left.mpr fun hlow => ⟨?_, hrows⟩⟩
    exact high_of_stores (not_le.mp hlow)
      (hrows (blockWidth, blockHeight) List.mem_cons_self 47 (by decide))
  · intro hfit
    refine ⟨fun s hs => ?_, fun _ => columns_iff.mpr hfit.1⟩
    obtain ⟨c, hc, i, hi, j, hj, rfl⟩ := (hmem s).mp hs
    have hend := block_store_le hfit hc hi
    have hstart := (block_end_le hfit.1 hc).1
    have hrow := rowOff_nonneg (g := g) (r := c.2 + i)
    constructor
    · exact Int.add_nonneg (Int.add_nonneg hrow hstart) (by omega)
    · rw [← hbytes]
      show rowOff g.screen (c.2 + i) + c.1 * (g.screen.bytespix : ℤ) + 2 * j + 2 ≤ g.bytes
      omega

end Blocks

section Bands

variable {g : FbGeometry}

/-- The rows of a band are a quarter of the height, and none where that is negative. -/
theorem mem_drawBands {s : PixelStore} : s ∈ drawScreen g.screen .bands ↔
    g.height.toNat < 2 ^ 31 ∧ ∃ n < 4, ∃ i < g.height.toNat / 4, ∃ j < g.width.toNat,
      (⟨rowOff g.screen ((n * (g.height.toNat / 4) + i : ℕ) : ℤ) + 2 * j, bandColour n⟩ :
        PixelStore) = s := by
  have hlt := g.height.toNat_lt
  rcases Nat.lt_or_ge g.height.toNat (2 ^ 31) with hh | hh
  · have hquarter : (screenH g.screen).tdiv 4 = ((g.height.toNat / 4 : ℕ) : ℤ) := by
      rw [g.screenH_eq, if_pos hh, Int.tdiv_eq_ediv_of_nonneg (Int.natCast_nonneg _)]
      rfl
    refine Iff.trans ?_ (and_iff_right hh).symm
    simp only [drawScreen, drawBands, g.screenW_eq, hquarter, Int.toNat_natCast, List.mem_flatMap,
      List.mem_map, List.mem_range, Nat.cast_add, Nat.cast_mul]
  · have hneg : (screenH g.screen).tdiv 4 ≤ 0 := by
      rw [g.screenH_eq, if_neg (not_lt.mpr hh)]
      refine Int.nonpos_of_neg_nonneg ?_
      rw [← Int.neg_tdiv]
      exact Int.tdiv_nonneg (by omega) (by decide)
    refine iff_of_false (fun hs => ?_) fun hs => absurd hs.1 (not_lt.mpr hh)
    simp [drawScreen, drawBands, Int.toNat_of_nonpos hneg] at hs

/-- Each row of the bands has room for twice the width. -/
theorem band_store_le (hfit : g.BandsFit) {r j : ℕ} (hh : g.height.toNat < 2 ^ 31)
    (hr : r < 4 * (g.height.toNat / 4)) (hj : j < g.width.toNat) :
    rowOff g.screen r + 2 * g.width.toNat ≤ g.bytes := by
  have hpitch := g.toNat_pitch
  have hoff := rowOff_le (g := g) (Int.natCast_nonneg r)
  -- a second row below this one, or a pixel of two bytes at least
  have hbelow (k : ℕ) (hk : r + k ≤ g.height.toNat) :
      r * g.screen.pitch.toNat + k * g.screen.pitch.toNat ≤ g.bytes := by
    rw [← Nat.add_mul, FbGeometry.bytes, Nat.mul_comm g.screen.pitch.toNat]
    exact Nat.mul_le_mul_right _ hk
  rcases Nat.lt_or_ge 1 g.screen.bytespix with hdeep | hbyte
  · have hone := hbelow 1 (by omega)
    have hpix : g.width.toNat * 2 ≤ g.width.toNat * g.screen.bytespix :=
      Nat.mul_le_mul_left _ hdeep
    omega
  · have hbyte1 : g.screen.bytespix = 1 := by
      have := g.bytespix_cases
      omega
    rw [hbyte1, Nat.mul_one] at hpitch
    rcases Nat.lt_or_ge (r + 1) g.height.toNat with hr2 | hlast
    · have htwo := hbelow 2 hr2
      omega
    · -- the last row of the screen
      have hone := hbelow 1 (by omega)
      have hwrap : 2 ^ 32 ≤ r * g.screen.pitch.toNat := by
        rcases hfit with h0 | hlow | hneg | hdepth | hpart | hwrap
        · rw [h0] at hj
          exact absurd hj (Nat.not_lt_zero j)
        · omega
        · omega
        · exact absurd (bpp_eq_eight_iff.mpr hbyte1) hdepth
        · omega
        · rwa [show g.height.toNat - 1 = r by omega] at hwrap
      have hcut : rowOff g.screen r ≤ r * g.screen.pitch.toNat - 2 ^ 32 := by
        unfold rowOff
        omega
      have hpitch_lt := g.screen.pitch.toNat_lt
      omega

theorem drawsInside_bands_iff : DrawsInside g.screen .bands ↔ g.BandsFit := by
  have hbytes : (g.bytes : ℤ) = g.screen.pitch.toNat * g.screen.height.toNat := Int.natCast_mul ..
  constructor
  · intro h
    by_contra hfit
    obtain ⟨hw, hhigh, hh, h8, hquarter, hlt⟩ : g.width ≠ 0 ∧ 4 ≤ g.height.toNat ∧
        g.height.toNat < 2 ^ 31 ∧ g.bitsPerPixel = 8 ∧ g.height.toNat % 4 = 0 ∧
          (g.height.toNat - 1) * g.screen.pitch.toNat < 2 ^ 32 := by
      simpa [FbGeometry.BandsFit] using hfit
    have hwidth : 0 < g.width.toNat := by
      rw [Nat.pos_iff_ne_zero]
      exact fun h0 => hw (UInt32.toNat_inj.mp h0)
    have hlast := (h.stores _ (mem_drawBands.mpr ⟨hh, 3, by decide, g.height.toNat / 4 - 1,
      by omega, g.width.toNat - 1, by omega, rfl⟩)).2
    have hrow : 3 * (g.height.toNat / 4) + (g.height.toNat / 4 - 1) = g.height.toNat - 1 := by
      omega
    have hoff : rowOff g.screen ((g.height.toNat - 1 : ℕ) : ℤ) =
        ((g.height.toNat - 1) * g.screen.pitch.toNat : ℕ) := by
      rw [rowOff, ← Int.natCast_mul]
      exact Int.emod_eq_of_lt (Int.natCast_nonneg _) (by omega)
    have hend : rowOff g.screen ((g.height.toNat - 1 : ℕ) : ℤ) + 2 * (g.width.toNat - 1 : ℕ) + 2 ≤
        g.bytes := by
      rw [← hrow, hbytes]
      exact hlast
    have hpitch := g.toNat_pitch
    rw [bpp_eq_eight_iff.mp h8, Nat.mul_one] at hpitch
    obtain ⟨n, hn⟩ : ∃ n, g.height.toNat = n + 1 := ⟨g.height.toNat - 1, by omega⟩
    have hall : g.bytes = n * g.screen.pitch.toNat + g.screen.pitch.toNat := by
      rw [FbGeometry.bytes, hn, Nat.mul_comm, Nat.succ_mul]
    rw [hoff, hn, Nat.add_sub_cancel] at hend
    omega
  · intro hfit
    refine ⟨fun s hs => ?_, fun hblocks => by cases hblocks⟩
    obtain ⟨hh, n, hn, i, hi, j, hj, rfl⟩ := mem_drawBands.mp hs
    have hrow : n * (g.height.toNat / 4) + i < 4 * (g.height.toNat / 4) := by
      have hn3 : n * (g.height.toNat / 4) ≤ 3 * (g.height.toNat / 4) :=
        Nat.mul_le_mul_right _ (Nat.le_of_lt_succ hn)
      omega
    have hend := band_store_le hfit hh hrow hj
    have hstart := rowOff_nonneg (g := g) (r := (n * (g.height.toNat / 4) + i : ℕ))
    constructor
    · exact Int.add_nonneg hstart (by omega)
    · rw [← hbytes]
      show rowOff g.screen ((n * (g.height.toNat / 4) + i : ℕ) : ℤ) + 2 * j + 2 ≤ g.bytes
      omega

end Bands

/-- What fbtest draws is inside the framebuffer, and the blocks inside the screen, exactly on the
screens that the type of drawing fits. -/
theorem drawsInside_iff (g : FbGeometry) (t : DrawType) : DrawsInside g.screen t ↔ g.Fits t := by
  cases t with
  | bands => exact drawsInside_bands_iff
  | blocks => exact drawsInside_blocks_iff

/-- A screen of 640 by 480 pixels of 8 bits. -/
def vga8 : FbGeometry where
  visual := 3
  width := 640
  height := 480
  bitsPerPixel := 8
  depth := .inl rfl
  pitch_lt := by decide

/-- The last band goes on for a row below it. -/
theorem not_drawsInside_vga8 : ¬ DrawsInside vga8.screen .bands := by
  intro h
  have hlast : (⟨307838, 0xffff⟩ : PixelStore) ∈ drawScreen vga8.screen .bands :=
    mem_drawBands.mpr ⟨by decide, 3, by decide, 119, by decide, 639, by decide, by decide⟩
  exact absurd (h.stores _ hlast).2 (by decide)

end LxToolset
