import LxToolset.ShowBitmap

/-!
# The reads of show_winbmp on a loaded image

`load_winbmp` checks none of the fields it takes from the file, and the loops of
`show_winbmp` rely on all of them. `readsInside_iff` turns the accesses of the loops, at
every depth and position of the screen, into bounds on the rows of the image and on its
pixels, and `loadsSafely_iff` into a condition on the file and on the allocations.
-/

namespace LxToolset

open Memory

/-! ## Accesses of the loops -/

section Forall

variable {dm : DataModel} {scr : Screen} {b : Bitmap} {x y z : ℤ} {P : Access → Prop}

theorem forall_mem_storeAt {n v : ℕ} :
    (∀ a ∈ storeAt dm z n v, P a) ↔
      ∀ k < n, P (.store (addr dm.longBits (z + k)) (byteOf v k)) := by
  simp [storeAt]

theorem mem_rows {row : ℤ → ℤ → List Access} {a : Access} : a ∈ rows scr b x y row ↔
    ∃ i < b.bmHeight.toNat, a ∈ row (dest scr x y i) (src b i) := by
  simp [rows]

theorem forall_mem_rows {row : ℤ → ℤ → List Access} :
    (∀ a ∈ rows scr b x y row, P a) ↔
      ∀ i < b.bmHeight.toNat, ∀ a ∈ row (dest scr x y i) (src b i), P a := by
  simp only [mem_rows]
  exact ⟨fun h i hi a ha => h a ⟨i, hi, ha⟩, fun h a ⟨i, hi, ha⟩ => h i hi a ha⟩

theorem mem_columns {pixel : ℕ → List Access} {a : Access} :
    a ∈ columns b pixel ↔ ∃ j < b.bmWidth.toNat, a ∈ pixel j := by
  simp [columns]

theorem forall_mem_columns {pixel : ℕ → List Access} :
    (∀ a ∈ columns b pixel, P a) ↔ ∀ j < b.bmWidth.toNat, ∀ a ∈ pixel j, P a := by
  simp only [mem_columns]
  exact ⟨fun h j hj a ha => h a ⟨j, hj, ha⟩, fun h a ⟨j, hj, ha⟩ => h j hj a ha⟩

theorem forall_mem_indexed {pixel : RgbQuad → List Access} :
    (∀ a ∈ indexed dm b z pixel, P a) ↔ P (readAt dm z) ∧ P (.readPalette (b.byteAt dm z).toNat) ∧
      ∀ a ∈ pixel (b.bmPalettes.mem (b.byteAt dm z).toNat), P a := by
  simp only [indexed, List.forall_mem_cons]

theorem forall_mem_trueColour {pixel : UInt8 → UInt8 → UInt8 → List Access} :
    (∀ a ∈ trueColour dm b z pixel, P a) ↔ P (readAt dm z) ∧ P (readAt dm (z + 1)) ∧
      P (readAt dm (z + 2)) ∧
      ∀ a ∈ pixel (b.byteAt dm z) (b.byteAt dm (z + 1)) (b.byteAt dm (z + 2)), P a := by
  simp only [trueColour, List.forall_mem_cons]

theorem forall_mem_blit24to24 :
    (∀ a ∈ blit24to24 dm scr b x y, P a) ↔ ∀ i < b.bmHeight.toNat,
      ∀ k < addr dm.longBits (b.bmWidth * scr.bytespix), P (readAt dm (src b i + k)) ∧
        ∀ a ∈ storeAt dm (dest scr x y i + k) 1 (b.byteAt dm (src b i + k)).toNat, P a := by
  rw [blit24to24, forall_mem_rows]
  refine forall_congr' fun i => forall_congr' fun _ => ?_
  simp only [List.mem_flatMap, List.mem_range]
  constructor
  · intro h k hk
    exact List.forall_mem_cons.1 fun a ha => h a ⟨k, hk, ha⟩
  · rintro h a ⟨k, hk, ha⟩
    exact List.forall_mem_cons.2 (h k hk) a ha

/-- The source rows of the loop are the rows of the block, from the last to the first. -/
theorem forall_src {Q : ℤ → Prop} :
    (∀ i < b.bmHeight.toNat, Q (src b i)) ↔
      ∀ r < b.bmHeight.toNat, Q (r * b.bmWidthBytes) := by
  have hflip : ∀ i < b.bmHeight.toNat,
      src b i = ((b.bmHeight.toNat - 1 - i : ℕ) : ℤ) * b.bmWidthBytes := by
    intro i hi
    rw [src]
    congr 1
    omega
  constructor
  · intro h r hr
    have hi := h (b.bmHeight.toNat - 1 - r) (by omega)
    rw [hflip _ (by omega)] at hi
    rwa [show b.bmHeight.toNat - 1 - (b.bmHeight.toNat - 1 - r) = r by omega] at hi
  · intro h i hi
    rw [hflip i hi]
    exact h _ (by omega)

end Forall

/-! ## Reads inside the blocks -/

/-- A read of the image is in the block of `bmBits`, a read of the palette below
`bmPalNum` in an allocated palette. -/
def Access.Inside (b : Bitmap) : Access → Prop
  | .readBits off => ∃ n ∈ b.bmBits.size, off < n
  | .readPalette index => (index : ℤ) < b.bmPalNum ∧ ∃ n ∈ b.bmPalettes.size, index < n
  | _ => True

/-- The image bytes of a row, at the screen depth that reads the most. The `memcpy` takes
its length modulo `2 ^ 32`. -/
def rowLength (bmBitsPixel : UInt16) (bmWidth : ℤ) : ℕ :=
  if bmBitsPixel = 8 then bmWidth.toNat
  else if bmBitsPixel = 24 then max (3 * bmWidth.toNat) (addr 32 (bmWidth * 3))
  else 0

/-- `n` bytes of each row lie in the block of `bmBits`. -/
def Bitmap.RowsInside (b : Bitmap) (n : ℕ) : Prop :=
  ∀ r < b.bmHeight.toNat, ∀ s < n, (readAt .ilp32 (r * b.bmWidthBytes + s)).Inside b

/-- Each pixel of an 8-bit image is in the palette. -/
def Bitmap.PixelsInside (b : Bitmap) : Prop :=
  ∀ r < b.bmHeight.toNat, ∀ j < b.bmWidth.toNat,
    (Access.readPalette (b.byteAt .ilp32 (r * b.bmWidthBytes + j)).toNat).Inside b

structure Bitmap.ReadsInside (b : Bitmap) : Prop where
  rows : b.RowsInside (rowLength b.bmBitsPixel b.bmWidth)
  pixels : b.bmBitsPixel = 8 → b.PixelsInside

/-- A palette that is there has `bmPalNum` entries. -/
def Bitmap.PaletteSized (b : Bitmap) : Prop :=
  ∀ n ∈ b.bmPalettes.size, (n : ℤ) = b.bmPalNum

section Reads

variable {b : Bitmap} {scr : Screen} {x y : ℤ}

theorem inside_storeAt {z : ℤ} {n v : ℕ} : ∀ a ∈ storeAt .ilp32 z n v, a.Inside b :=
  forall_mem_storeAt.2 fun _ _ => trivial

theorem inside_blit8to8 :
    (∀ a ∈ blit8to8 .ilp32 scr b x y, a.Inside b) ↔ b.RowsInside b.bmWidth.toNat := by
  rw [blit8to8, forall_mem_rows]
  simp only [forall_mem_columns, List.forall_mem_cons, iff_true_intro inside_storeAt, and_true]
  exact forall_src (Q := fun z => ∀ j < b.bmWidth.toNat, (readAt .ilp32 (z + j)).Inside b)

/-- The other loops of an 8-bit image also look each pixel up. -/
theorem inside_indexed {pixel : ℤ → ℤ → ℕ → RgbQuad → List Access}
    (hpixel : ∀ d s j q, ∀ a ∈ pixel d s j q, a.Inside b) :
    (∀ a ∈ rows scr b x y fun dest src => columns b fun j =>
      indexed .ilp32 b (src + j) (pixel dest src j), a.Inside b) ↔
    b.RowsInside b.bmWidth.toNat ∧ b.PixelsInside := by
  rw [forall_mem_rows]
  simp only [forall_mem_columns, forall_mem_indexed, iff_true_intro (hpixel _ _ _ _), and_true]
  rw [forall_src (Q := fun z => ∀ j < b.bmWidth.toNat, (readAt .ilp32 (z + j)).Inside b ∧
    (Access.readPalette (b.byteAt .ilp32 (z + j)).toNat).Inside b)]
  simp only [forall_and]
  rfl

theorem inside_blit8to16 :
    (∀ a ∈ blit8to16 .ilp32 scr b x y, a.Inside b) ↔
      b.RowsInside b.bmWidth.toNat ∧ b.PixelsInside := by
  unfold blit8to16
  exact inside_indexed fun _ _ _ _ => inside_storeAt

theorem inside_blit8to24 :
    (∀ a ∈ blit8to24 .ilp32 scr b x y, a.Inside b) ↔
      b.RowsInside b.bmWidth.toNat ∧ b.PixelsInside := by
  unfold blit8to24
  refine inside_indexed fun _ _ _ _ => ?_
  exact List.forall_mem_append.2
    ⟨List.forall_mem_append.2 ⟨inside_storeAt, inside_storeAt⟩, inside_storeAt⟩

theorem inside_blit8to32 :
    (∀ a ∈ blit8to32 .ilp32 scr b x y, a.Inside b) ↔
      b.RowsInside b.bmWidth.toNat ∧ b.PixelsInside := by
  unfold blit8to32
  exact inside_indexed fun _ _ _ _ => inside_storeAt

/-- The loops of a 24-bit image read three bytes a pixel. -/
theorem inside_trueColour {pixel : ℤ → ℤ → ℕ → UInt8 → UInt8 → UInt8 → List Access}
    (hpixel : ∀ d s j c₀ c₁ c₂, ∀ a ∈ pixel d s j c₀ c₁ c₂, a.Inside b) :
    (∀ a ∈ rows scr b x y fun dest src => columns b fun j =>
      trueColour .ilp32 b (src + j * 3) (pixel dest src j), a.Inside b) ↔
    b.RowsInside (3 * b.bmWidth.toNat) := by
  rw [forall_mem_rows, Bitmap.RowsInside]
  simp only [forall_mem_columns, forall_mem_trueColour, iff_true_intro (hpixel _ _ _ _ _ _),
    and_true]
  rw [← forall_src (Q := fun z => ∀ s < 3 * b.bmWidth.toNat, (readAt .ilp32 (z + s)).Inside b)]
  refine forall_congr' fun i => forall_congr' fun _ => ?_
  rw [← forall_lt_mul_iff (Q := fun s => (readAt .ilp32 (src b i + (s : ℤ))).Inside b)
    (by omega : 0 < 3)]
  refine forall_congr' fun j => forall_congr' fun _ => ?_
  have h0 : src b i + (j : ℤ) * 3 = src b i + ((3 * j + 0 : ℕ) : ℤ) := by omega
  have h1 : src b i + (j : ℤ) * 3 + 1 = src b i + ((3 * j + 1 : ℕ) : ℤ) := by omega
  have h2 : src b i + (j : ℤ) * 3 + 2 = src b i + ((3 * j + 2 : ℕ) : ℤ) := by omega
  rw [h2, h1, h0]
  simp [forall_lt_three]

theorem inside_blit24to8 :
    (∀ a ∈ blit24to8 .ilp32 scr b x y, a.Inside b) ↔ b.RowsInside (3 * b.bmWidth.toNat) := by
  unfold blit24to8
  exact inside_trueColour fun _ _ _ _ _ _ => inside_storeAt

theorem inside_blit24to16 :
    (∀ a ∈ blit24to16 .ilp32 scr b x y, a.Inside b) ↔ b.RowsInside (3 * b.bmWidth.toNat) := by
  unfold blit24to16
  exact inside_trueColour fun _ _ _ _ _ _ => inside_storeAt

theorem inside_blit24to24 :
    (∀ a ∈ blit24to24 .ilp32 scr b x y, a.Inside b) ↔
      b.RowsInside (addr 32 (b.bmWidth * scr.bytespix)) := by
  rw [forall_mem_blit24to24]
  simp only [iff_true_intro inside_storeAt, and_true]
  exact forall_src (Q := fun z => ∀ s < addr 32 (b.bmWidth * scr.bytespix),
    (readAt .ilp32 (z + s)).Inside b)

theorem Bitmap.PaletteSized.inside_setColourMap (h : b.PaletteSized) {malloc : CmapArray → Bool}
    {as : List Access} (hset : setColourMap scr malloc b = some as) :
    ∀ a ∈ as, a.Inside b := by
  unfold setColourMap at hset
  split_ifs at hset with hpal
  · obtain ⟨n, hn⟩ := Option.isSome_iff_exists.1 hpal.1
    have hnum : (n : ℤ) = b.bmPalNum := h n hn
    obtain rfl := Option.some.inj hset
    refine List.forall_mem_append.2 ⟨fun a ha => ?_, by simp [Access.Inside]⟩
    obtain ⟨k, hk, rfl⟩ := List.mem_map.1 ha
    have hk' := List.mem_range.1 hk
    exact ⟨by omega, n, hn, by omega⟩
  · obtain rfl := Option.some.inj hset
    simp

/-! ## All screens -/

/-- A direct-colour screen of this depth. -/
def plainScreen (bitsPerPixel : UInt32) : Screen :=
  fbScreen 2 0 0 bitsPerPixel

theorem setColourMap_plainScreen (bitsPerPixel : UInt32) (malloc : CmapArray → Bool) :
    setColourMap (plainScreen bitsPerPixel) malloc b = some [] :=
  if_neg fun h => absurd (show (2 : UInt32) = 3 from h.2) (by decide)

theorem readsInside_of_8 (hb : b.bmBitsPixel = 8)
    (h : ∀ scr x y malloc, ∀ a ∈ (showWinbmp .ilp32 scr b x y malloc).2, a.Inside b) :
    b.ReadsInside := by
  have h16 := h (plainScreen 16) 0 0 fun _ => true
  rw [showWinbmp, if_pos hb, setColourMap_plainScreen] at h16
  have hread := inside_blit8to16.1 h16
  exact ⟨by rw [rowLength, if_pos hb]; exact hread.1, fun _ => hread.2⟩

theorem readsInside_of_24 (hb : b.bmBitsPixel = 24)
    (h : ∀ scr x y malloc, ∀ a ∈ (showWinbmp .ilp32 scr b x y malloc).2, a.Inside b) :
    b.ReadsInside := by
  have hb8 : b.bmBitsPixel ≠ 8 := by simp [hb]
  have h8 := h (plainScreen 8) 0 0 fun _ => true
  have h24 := h (plainScreen 24) 0 0 fun _ => true
  rw [showWinbmp, if_neg hb8, if_pos hb] at h8 h24
  refine ⟨fun r hr s hs => ?_, fun h => absurd h hb8⟩
  rw [rowLength, if_neg hb8, if_pos hb, lt_max_iff] at hs
  rcases hs with hs | hs
  · exact inside_blit24to8.1 h8 r hr s hs
  · exact inside_blit24to24.1 h24 r hr s hs

theorem inside_of_8 (hb : b.bmBitsPixel = 8) (hpal : b.PaletteSized) (h : b.ReadsInside)
    (malloc : CmapArray → Bool) :
    ∀ a ∈ (showWinbmp .ilp32 scr b x y malloc).2, a.Inside b := by
  have hrows : b.RowsInside b.bmWidth.toNat := by
    have := h.rows
    rwa [rowLength, if_pos hb] at this
  have hpixels := h.pixels hb
  rw [showWinbmp, if_pos hb]
  cases hset : setColourMap scr malloc b with
  | none => simp
  | some as =>
    refine List.forall_mem_append.2 ⟨hpal.inside_setColourMap hset, ?_⟩
    split_ifs
    · exact inside_blit8to8.2 hrows
    · exact inside_blit8to16.2 ⟨hrows, hpixels⟩
    · exact inside_blit8to24.2 ⟨hrows, hpixels⟩
    · exact inside_blit8to32.2 ⟨hrows, hpixels⟩
    · simp

theorem inside_of_24 (hb : b.bmBitsPixel = 24) (h : b.ReadsInside) (malloc : CmapArray → Bool) :
    ∀ a ∈ (showWinbmp .ilp32 scr b x y malloc).2, a.Inside b := by
  have hb8 : b.bmBitsPixel ≠ 8 := by simp [hb]
  have hrows : ∀ n ≤ rowLength b.bmBitsPixel b.bmWidth, b.RowsInside n :=
    fun n hn r hr s hs => h.rows r hr s (hs.trans_le hn)
  rw [rowLength, if_neg hb8, if_pos hb] at hrows
  rw [showWinbmp, if_neg hb8, if_pos hb]
  dsimp only
  split_ifs with h8 h16 h24
  · exact inside_blit24to8.2 (hrows _ (le_max_left ..))
  · exact inside_blit24to16.2 (hrows _ (le_max_left ..))
  · refine inside_blit24to24.2 (hrows _ ?_)
    rw [Screen.bytespix, h24]
    exact le_max_right ..
  · simp

/-- What the accesses need, taken over all depths and positions of the screen. -/
theorem readsInside_iff (hpal : b.PaletteSized) :
    (∀ scr x y malloc, ∀ a ∈ (showWinbmp .ilp32 scr b x y malloc).2, a.Inside b) ↔
      b.ReadsInside := by
  by_cases hb8 : b.bmBitsPixel = 8
  · exact ⟨readsInside_of_8 hb8, fun h _ _ _ => inside_of_8 hb8 hpal h⟩
  by_cases hb24 : b.bmBitsPixel = 24
  · exact ⟨readsInside_of_24 hb24, fun h _ _ _ => inside_of_24 hb24 h⟩
  refine ⟨fun _ => ⟨fun r hr s hs => ?_, fun h => absurd h hb8⟩, fun _ scr x y malloc => ?_⟩
  · rw [rowLength, if_neg hb8, if_neg hb24] at hs
    omega
  · simp [showWinbmp, hb8, hb24]

end Reads

/-! ## Loaded images -/

/-- NULL, or a BITMAP whose accesses all lie inside its blocks, whatever the screen. -/
def Loaded.Safe : Loaded → Prop
  | .null => True
  | .fault => False
  | .bitmap b => ∀ scr x y malloc, ∀ a ∈ (showWinbmp .ilp32 scr b x y malloc).2, a.Inside b

/-- `load_winbmp` does not store through NULL, and what it returns is shown safely. -/
def LoadsSafely (env : LoadEnv) (filename : Option String) : Prop :=
  (loadWinbmp env filename).2.Safe

/-- The byte of the file, or of the new block, at `z` of `bmBits`. -/
def imageByte (file : List UInt8) (h : WinbmpHeader) (junk : ℕ → UInt8) (z : ℤ) : UInt8 :=
  fread file (bitsPos file h.bfOffBits) (bitsSize h) junk (addr 32 z)

/-- The headers agree with the size of the image and of the palette, and the pixels with
the palette. -/
structure SafeImage (env : LoadEnv) (file : List UInt8) (h : WinbmpHeader)
    (junk : ℕ → UInt8) : Prop where
  rows : ∀ r < h.biHeight.toNat, rowLength h.biBitCount h.biWidth = 0 ∨
    addr 32 (r * widthBytes h.biWidth h.biBitCount) + rowLength h.biBitCount h.biWidth ≤ bitsSize h
  pixels : h.biBitCount = 8 → ∀ r < h.biHeight.toNat, ∀ j < h.biWidth.toNat,
    (env.malloc .palette (4 * palNums h.bfOffBits)).isSome ∧
      (imageByte file h junk (r * widthBytes h.biWidth h.biBitCount + j)).toNat <
        palNums h.bfOffBits

/-- The palette is allocated or nothing is left to read into it, and the image is safe
where its block is allocated. -/
def SafeBits (env : LoadEnv) (file : List UInt8) (h : WinbmpHeader) : Prop :=
  (0 < palNums h.bfOffBits → (env.malloc .palette (4 * palNums h.bfOffBits)).isSome ∨
    file.length ≤ 54) ∧
  ∀ junk, env.malloc .bits (bitsSize h) = some junk → SafeImage env file h junk

/-- The files that are loaded safely. -/
def SafeFile (env : LoadEnv) (file : List UInt8) : Prop :=
  (readHeader env.stack file).bfType ≠ 0x4d42 ∨ env.malloc .bitmap sizeofBitmap = none ∨
    SafeBits env file (readHeader env.stack file)

section Load

variable {env : LoadEnv} {file : List UInt8} {h : WinbmpHeader} {nums : ℕ}
  {palette : ℤ × Pointer RgbQuad} {junk : ℕ → UInt8}

theorem bitsSize_lt : bitsSize h < 2 ^ 32 :=
  addr_lt 32 _

theorem loadPalette_ne_none_iff : loadPalette env file nums ≠ none ↔
    (0 < nums → (env.malloc .palette (4 * nums)).isSome ∨ file.length ≤ 54) := by
  unfold loadPalette
  by_cases hn : 0 < nums
  · rw [if_pos hn]
    cases env.malloc .palette (4 * nums) <;> simp [hn]
  · simp [hn]

/-- The palette of a loaded BITMAP : `bmPalNum` is set whether or not it was allocated. -/
theorem loadPalette_eq_some (hload : loadPalette env file nums = some palette) :
    palette.1 = nums ∧ ((env.malloc .palette (4 * nums)).isSome ∧ palette.2.size = some nums ∨
      ((env.malloc .palette (4 * nums)).isSome → nums = 0) ∧ palette.2.size = none) := by
  unfold loadPalette at hload
  by_cases hn : 0 < nums
  · rw [if_pos hn] at hload
    cases hm : env.malloc .palette (4 * nums) with
    | some junk =>
      rw [hm] at hload
      obtain rfl := Option.some.inj hload
      exact ⟨rfl, .inl ⟨rfl, rfl⟩⟩
    | none =>
      simp only [hm, ite_eq_iff, reduceCtorEq, and_false, false_or] at hload
      obtain rfl := Option.some.inj hload.2
      exact ⟨rfl, .inr ⟨by simp, rfl⟩⟩
  · rw [if_neg hn] at hload
    obtain rfl := Option.some.inj hload
    have hz : nums = 0 := by omega
    exact ⟨by simp [hz], .inr ⟨fun _ => hz, rfl⟩⟩

theorem paletteSized_newBitmap {bits : Pointer UInt8}
    (hload : loadPalette env file nums = some palette) :
    (newBitmap h palette bits).PaletteSized := by
  obtain ⟨hnum, ⟨-, hsize⟩ | ⟨-, hsize⟩⟩ := loadPalette_eq_some hload
  · intro n hn
    obtain rfl : nums = n := Option.some.inj (hsize.symm.trans hn)
    exact hnum.symm
  · intro n hn
    exact absurd (hsize.symm.trans hn) (by simp)

theorem readPalette_inside_iff {bits : Pointer UInt8} {index : ℕ}
    (hload : loadPalette env file nums = some palette) :
    (Access.readPalette index).Inside (newBitmap h palette bits) ↔
      (env.malloc .palette (4 * nums)).isSome ∧ index < nums := by
  obtain ⟨hnum, ⟨hsome, hsize⟩ | ⟨hnone, hsize⟩⟩ := loadPalette_eq_some hload
  · simp [Access.Inside, newBitmap, hnum, hsize, hsome]
  · simp only [Access.Inside, newBitmap, hsize, Option.mem_def, reduceCtorEq, false_and,
      exists_false, and_false, false_iff, not_and, not_lt]
    intro hsome
    have hz := hnone hsome
    omega

theorem rowsInside_iff {b : Bitmap} {size n : ℕ} (hsize : b.bmBits.size = some size)
    (hlt : size < 2 ^ 32) : b.RowsInside n ↔
      ∀ r < b.bmHeight.toNat, n = 0 ∨ addr 32 (r * b.bmWidthBytes) + n ≤ size := by
  have hread : ∀ z, (readAt .ilp32 z).Inside b ↔ addr 32 z < size := by
    intro z
    simp [readAt, Access.Inside, hsize, DataModel.longBits]
  simp only [Bitmap.RowsInside, hread, forall_addr_lt_iff, Nat.not_le.2 hlt, false_or]

variable (junk) in
/-- The reads of a loaded BITMAP, in terms of the file. -/
theorem readsInside_newBitmap_iff
    (hload : loadPalette env file (palNums h.bfOffBits) = some palette) :
    (newBitmap h palette ⟨some (bitsSize h),
      fread file (bitsPos file h.bfOffBits) (bitsSize h) junk⟩).ReadsInside ↔
      SafeImage env file h junk := by
  have hrows := rowsInside_iff (n := rowLength h.biBitCount h.biWidth)
    (b := newBitmap h palette ⟨some (bitsSize h),
      fread file (bitsPos file h.bfOffBits) (bitsSize h) junk⟩) rfl bitsSize_lt
  constructor
  · intro hb
    exact ⟨hrows.1 hb.rows, fun h8 r hr j hj => (readPalette_inside_iff hload).1
      (hb.pixels h8 r hr j hj)⟩
  · intro hb
    exact ⟨hrows.2 hb.rows, fun h8 r hr j hj => (readPalette_inside_iff hload).2
      (hb.pixels h8 r hr j hj)⟩

theorem loadBits_safe_iff : (loadBits env file h).2.Safe ↔ SafeBits env file h := by
  rw [SafeBits, ← loadPalette_ne_none_iff]
  cases hload : loadPalette env file (palNums h.bfOffBits) with
  | none => simp [loadBits, hload, Loaded.Safe]
  | some palette =>
    cases hbits : env.malloc .bits (bitsSize h) with
    | none => simp [loadBits, hload, hbits, Loaded.Safe]
    | some junk =>
      have hiff := (readsInside_iff (paletteSized_newBitmap hload)).trans
        (readsInside_newBitmap_iff junk hload)
      simpa [loadBits, hload, hbits, Loaded.Safe] using hiff

theorem loadFile_safe_iff : (loadFile env file h).2.Safe ↔
    h.bfType ≠ 0x4d42 ∨ env.malloc .bitmap sizeofBitmap = none ∨ SafeBits env file h := by
  by_cases htype : h.bfType = 0x4d42
  · cases hbmp : env.malloc .bitmap sizeofBitmap with
    | none => simp [loadFile, htype, hbmp, Loaded.Safe]
    | some m => simp [loadFile, htype, hbmp, loadBits_safe_iff]
  · simp [loadFile, htype, Loaded.Safe]

theorem loadsSafely_file_iff {name : String} (hopen : env.fopen name = some file) :
    LoadsSafely env (some name) ↔ SafeFile env file := by
  simp only [LoadsSafely, loadWinbmp, hopen]
  exact loadFile_safe_iff

/-- When a file is loaded and shown without an access outside the blocks. -/
theorem loadsSafely_iff (env : LoadEnv) (filename : Option String) :
    LoadsSafely env filename ↔
      ∀ name file, filename = some name → env.fopen name = some file → SafeFile env file := by
  constructor
  · rintro h name file rfl hopen
    exact (loadsSafely_file_iff hopen).1 h
  · intro h
    rcases filename with _ | name
    · trivial
    · cases hopen : env.fopen name with
      | none => simp [LoadsSafely, loadWinbmp, hopen, Loaded.Safe]
      | some file => exact (loadsSafely_file_iff hopen).2 (h name file rfl hopen)

end Load

/-- A well-formed BMP file of 24 bits a pixel, one pixel wide and two high : two rows of
four bytes. -/
def thinFile : List UInt8 :=
  [0x42, 0x4d, 62, 0, 0, 0, 0, 0, 0, 0, 54, 0, 0, 0,
    40, 0, 0, 0, 1, 0, 0, 0, 2, 0, 0, 0, 1, 0, 24, 0, 0, 0, 0, 0,
    8, 0, 0, 0, 0, 0, 0, 0, 0, 0, 0, 0, 0, 0, 0, 0, 0, 0, 0, 0,
    1, 2, 3, 0, 4, 5, 6, 0]

/-- Every `malloc` succeeds. -/
def plainEnv (file : List UInt8) : LoadEnv :=
  ⟨fun _ => some file, fun _ _ => some fun _ => 0, fun _ => 0, fun _ => 0⟩

/-- `load_winbmp` takes the rows of `thinFile` for 12 bytes, and the top one is read past
the block. -/
theorem thinFile_not_safe : ¬∀ env filename, LoadsSafely env filename := by
  intro h
  have hhead : readHeader (fun _ => 0) thinFile = ⟨0x4d42, 62, 54, 1, 2, 1, 24⟩ := by decide
  rcases (loadsSafely_file_iff rfl).1 (h (plainEnv thinFile) (some "thin.bmp")) with
    htype | hbmp | hbits
  · exact htype (congrArg WinbmpHeader.bfType hhead)
  · exact absurd hbmp (by simp [plainEnv])
  · have himage := hbits.2 (fun _ => 0) rfl
    rw [show (plainEnv thinFile).stack = fun _ => 0 from rfl, hhead] at himage
    exact absurd (himage.rows 1 (by decide)) (by decide)

end LxToolset
