import LxToolset.ShowBitmapColours

/-!
# The picture that show_winbmp draws

`showWinbmp_draws` is the result of the four loops for 8-bit images : each pixel of the image
is on the screen, in the encoding of the screen's depth, and no other byte of the framebuffer
has changed.
-/

namespace LxToolset

open Memory

/-! ## Images and screens -/

/-- `bmBits[(bmHeight-1-i)*bmWidthBytes + j]`. -/
def Bitmap.indexAt (b : Bitmap) (i j : ℕ) : UInt8 :=
  b.bmBits.mem ((b.bmHeight - 1 - i) * b.bmWidthBytes + j).toNat

/-- An 8-bit image whose rows are in its block and whose pixels are in its palette. -/
structure Bitmap.Indexed (b : Bitmap) : Prop where
  bitsPixel : b.bmBitsPixel = 8
  width_pos : 0 < b.bmWidth
  height_pos : 0 < b.bmHeight
  widthBytes : b.bmWidth ≤ b.bmWidthBytes
  /-- The block, in the address space, covers the rows. -/
  bits : ∃ n ∈ b.bmBits.size, b.bmHeight * b.bmWidthBytes ≤ n ∧ n ≤ 2 ^ 32
  palette : ∃ n ∈ b.bmPalettes.size, (n : ℤ) = b.bmPalNum
  pixels : ∀ i < b.bmHeight.toNat, ∀ j < b.bmWidth.toNat,
    ((b.indexAt i j).toNat : ℤ) < b.bmPalNum

/-- A screen of one of the four depths, with rows of just its pixels, in the address space. -/
structure Screen.Packed (scr : Screen) : Prop where
  depth : scr.bitsPerPixel = 8 ∨ scr.bitsPerPixel = 16 ∨ scr.bitsPerPixel = 24 ∨
    scr.bitsPerPixel = 32
  pitch : scr.pitch.toNat = scr.width.toNat * scr.bitsPerPixel.toNat / 8
  size : scr.pitch.toNat * scr.height.toNat ≤ 2 ^ 32

/-- Where the pixel in this column and row of the screen begins. -/
def Screen.pixelAddr (scr : Screen) (column row : ℕ) : ℕ :=
  row * scr.pitch.toNat + column * scr.bytespix

/-- The bytes of a pixel of the screen. -/
def Screen.pixelAt (scr : Screen) (fb : ℕ → UInt8) (column row : ℕ) : List UInt8 :=
  (List.range scr.bytespix).map fun k => fb (scr.pixelAddr column row + k)

/-- A colour with its palette index, as a screen of this depth holds it. -/
def Screen.encode (scr : Screen) (index : UInt8) (q : RgbQuad) : List UInt8 :=
  if scr.bitsPerPixel = 8 then [index]
  else if scr.bitsPerPixel = 16 then
    let v := q.rgbBlue.toNat / 8 + 32 * (q.rgbGreen.toNat / 4) + 2048 * (q.rgbRed.toNat / 8)
    [byteOf v 0, byteOf v 1]
  else if scr.bitsPerPixel = 24 then [q.rgbBlue, q.rgbGreen, q.rgbRed]
  else [q.rgbBlue, q.rgbGreen, q.rgbRed, 0]

theorem Screen.Packed.mapped {scr : Screen} (h : scr.Packed) : scr.Mapped := by
  refine ⟨?_, h.size⟩
  rw [h.pitch, Screen.bytespix]
  rcases h.depth with hd | hd | hd | hd <;> rw [hd] <;> simp <;> omega

section Indexed

variable {b : Bitmap} (h : b.Indexed)

include h

/-- The rows do not pass the end of the block. -/
theorem Bitmap.Indexed.src_add {i j : ℕ} (hi : i < b.bmHeight.toNat) (hj : j < b.bmWidth.toNat) :
    0 ≤ src b i + j ∧ src b i + j < b.bmHeight * b.bmWidthBytes := by
  have hle := h.widthBytes
  have hpos := h.width_pos
  have hrow : (b.bmHeight - i - 1 + 1) * b.bmWidthBytes ≤ b.bmHeight * b.bmWidthBytes :=
    mul_le_mul_of_nonneg_right (by omega) (by omega)
  have h0 : 0 ≤ (b.bmHeight - i - 1) * b.bmWidthBytes := mul_nonneg (by omega) (by omega)
  rw [add_mul, one_mul] at hrow
  rw [src]
  omega

/-- The pixel that the loops read. -/
theorem Bitmap.Indexed.byteAt_src {i j : ℕ} (hi : i < b.bmHeight.toNat)
    (hj : j < b.bmWidth.toNat) : b.byteAt .ilp32 (src b i + j) = b.indexAt i j := by
  obtain ⟨n, -, hn, hlt⟩ := h.bits
  obtain ⟨h0, hend⟩ := h.src_add hi hj
  have haddr : addr 32 (src b i + j) = (src b i + j).toNat := by
    obtain ⟨m, hm⟩ := Int.eq_ofNat_of_zero_le h0
    rw [hm, Int.toNat_natCast]
    exact addr_of_lt (by omega)
  rw [Bitmap.byteAt, Bitmap.indexAt, DataModel.longBits, haddr, src, sub_right_comm]

/-- No read leaves its block. -/
theorem Bitmap.Indexed.readsInside : b.ReadsInside := by
  obtain ⟨n, hn, hle, -⟩ := h.bits
  obtain ⟨m, hm, hnum⟩ := h.palette
  refine ⟨?_, fun _ => ?_⟩
  · rw [rowLength, if_pos h.bitsPixel]
    refine forall_src (Q := fun z => ∀ j < b.bmWidth.toNat,
      (readAt .ilp32 (z + j)).Inside b) |>.1 fun i hi j hj => ⟨n, hn, ?_⟩
    obtain ⟨h0, hend⟩ := h.src_add hi hj
    obtain ⟨k, hk⟩ := Int.eq_ofNat_of_zero_le h0
    rw [hk]
    exact (addr_le 32 k).trans_lt (by omega)
  · refine forall_src (Q := fun z => ∀ j < b.bmWidth.toNat,
      (Access.readPalette (b.byteAt .ilp32 (z + j)).toNat).Inside b) |>.1 fun i hi j hj => ?_
    have hlt := h.pixels i hi j hj
    rw [h.byteAt_src hi hj]
    exact ⟨hlt, m, hm, by omega⟩

end Indexed

/-! ## Stores -/

theorem stores_append (as as' : List Access) : stores (as ++ as') = stores as ++ stores as' :=
  List.filterMap_append ..

/-- Where the three arrays are allocated the colour map is set, which stores nothing. -/
theorem setColourMap_of_malloc (scr : Screen) {malloc : CmapArray → Bool}
    (hmalloc : ∀ a, malloc a = true) (b : Bitmap) :
    ∃ cmap, setColourMap scr malloc b = some cmap ∧ stores cmap = [] := by
  unfold setColourMap
  split_ifs with h h'
  · refine ⟨_, rfl, ?_⟩
    simp [stores]
  · exact absurd ⟨hmalloc _, hmalloc _, hmalloc _⟩ h'
  · exact ⟨[], rfl, rfl⟩

theorem scatter_blit8to8 {scr : Screen} {b : Bitmap} {x y : ℤ} :
    Scatter (stores (blit8to8 .ilp32 scr b x y)) (imageBytes b 1) (screenAddr scr x y)
      fun p => b.byteAt .ilp32 (src b p.1 + (p.2 / 1 : ℕ)) := by
  unfold blit8to8
  refine scatter_rows (c := 1) (v := fun s j _ => b.byteAt .ilp32 (s + j)) fun d s j w => ?_
  simp [readAt, store_mem_storeAt, DataModel.longBits, byteOf_toNat]

section Scattered

variable {scr : Screen} {b : Bitmap} {x y : ℤ} {fb : ℕ → UInt8} {ws : List (ℕ × UInt8)}
  {u : ℕ → ℕ → ℕ → UInt8}

theorem screenAddr_pixel (hmap : scr.Mapped) (hfit : FitsAt scr b x y) {i j k : ℕ}
    (hi : i < b.bmHeight.toNat) (hj : j < b.bmWidth.toNat) (hk : k < scr.bytespix) :
    (i, scr.bytespix * j + k) ∈ imageBytes b scr.bytespix ∧
      screenAddr scr x y (i, scr.bytespix * j + k) =
        scr.pixelAddr (x.toNat + j) (y.toNat + i) + k := by
  have hmem : (i, scr.bytespix * j + k) ∈ imageBytes b scr.bytespix := by
    have hle : scr.bytespix * (j + 1) ≤ scr.bytespix * b.bmWidth.toNat := Nat.mul_le_mul_left _ hj
    rw [Nat.mul_succ] at hle
    exact ⟨hi, by omega⟩
  refine ⟨hmem, ?_⟩
  rw [(screenAddr_eq hmap hfit le_rfl hmem).1, Screen.pixelAddr]
  dsimp only
  rw [Nat.add_mul x.toNat, Nat.mul_comm j, Nat.add_comm i]
  omega

variable (fb) in
/-- What a scatter of the bytes of an image leaves : its pixels, and the rest. -/
theorem pixels_of_scatter (hmap : scr.Mapped) (hfit : FitsAt scr b x y) (hpos : 0 < scr.bytespix)
    (hs : Scatter ws (imageBytes b scr.bytespix) (screenAddr scr x y) fun p =>
      u p.1 (p.2 / scr.bytespix) (p.2 % scr.bytespix)) :
    (∀ i < b.bmHeight.toNat, ∀ j < b.bmWidth.toNat,
      scr.pixelAt (write fb ws) (x.toNat + j) (y.toNat + i) =
        (List.range scr.bytespix).map (u i j)) ∧
    ∀ o, (∀ i < b.bmHeight.toNat, ∀ j < b.bmWidth.toNat, ∀ k < scr.bytespix,
      scr.pixelAddr (x.toNat + j) (y.toNat + i) + k ≠ o) → write fb ws o = fb o := by
  have hinj := injOn_screenAddr hmap hfit (c := scr.bytespix) le_rfl
  refine ⟨fun i hi j hj => List.map_congr_left fun k hk => ?_, fun o ho => ?_⟩
  · have hk := List.mem_range.1 hk
    obtain ⟨hmem, haddr⟩ := screenAddr_pixel hmap hfit hi hj hk
    rw [← haddr, hs.write_of_mem hinj hmem]
    dsimp only
    rw [Nat.mul_add_div hpos, Nat.div_eq_of_lt hk, Nat.add_zero, Nat.mul_add_mod,
      Nat.mod_eq_of_lt hk]
  · refine hs.write_of_notMem ?_
    rintro ⟨i, s⟩ ⟨hi, hs⟩
    have hj := Nat.div_lt_of_lt_mul hs
    have hk := Nat.mod_lt s hpos
    rw [← Nat.div_add_mod s scr.bytespix, (screenAddr_pixel hmap hfit hi hj hk).2]
    exact ho i hi _ hj _ hk

end Scattered

/-! ## The four depths -/

theorem rgb888_eq (blue green red : UInt8) :
    rgb888 blue green red = blue.toNat + 256 * green.toNat + 65536 * red.toNat := by
  have hb : blue.toNat < 2 ^ 8 := blue.toNat_lt
  have hg := green.toNat_lt
  have hlow : blue.toNat + 256 * green.toNat < 2 ^ 16 := by omega
  have hor : blue.toNat ||| green.toNat <<< 8 = blue.toNat + 256 * green.toNat := by
    rw [Nat.or_comm, ← Nat.shiftLeft_add_eq_or_of_lt hb, Nat.shiftLeft_eq]
    omega
  rw [rgb888, hor, Nat.or_comm, ← Nat.shiftLeft_add_eq_or_of_lt hlow, Nat.shiftLeft_eq]
  omega

/-- The four bytes of a pixel of 32 bits. -/
theorem byteOf_rgb888 (q : RgbQuad) :
    (List.range 4).map (byteOf (rgb888 q.rgbBlue q.rgbGreen q.rgbRed)) =
      [q.rgbBlue, q.rgbGreen, q.rgbRed, 0] := by
  have hb := q.rgbBlue.toNat_lt
  have hg := q.rgbGreen.toNat_lt
  have hr := q.rgbRed.toNat_lt
  have hbyte : ∀ k v, rgb888 q.rgbBlue q.rgbGreen q.rgbRed / 256 ^ k % 256 = v.toNat →
      byteOf (rgb888 q.rgbBlue q.rgbGreen q.rgbRed) k = v := fun k v h =>
    UInt8.toNat_inj.1 ((toNat_byteOf ..).trans h)
  have h0 := hbyte 0 q.rgbBlue (by rw [rgb888_eq]; omega)
  have h1 := hbyte 1 q.rgbGreen (by rw [rgb888_eq]; omega)
  have h2 := hbyte 2 q.rgbRed (by rw [rgb888_eq]; omega)
  have h3 := hbyte 3 0 (by rw [rgb888_eq]; simp; omega)
  simp [List.range_succ, h0, h1, h2, h3]

/-- The accesses store the encoding of each pixel at its place. -/
def Draws (scr : Screen) (b : Bitmap) (x y : ℤ) (as : List Access) : Prop :=
  ∃ u : ℕ → ℕ → ℕ → UInt8, (Scatter (stores as) (imageBytes b scr.bytespix)
    (screenAddr scr x y) fun p => u p.1 (p.2 / scr.bytespix) (p.2 % scr.bytespix)) ∧
    ∀ i j, (List.range scr.bytespix).map (u i j) =
      scr.encode (b.byteAt .ilp32 (src b i + j)) (b.colourAt i j)

section Depths

variable {scr : Screen} {b : Bitmap} {x y : ℤ}

theorem draws_blit8to8 (h : scr.bitsPerPixel = 8) :
    Draws scr b x y (blit8to8 .ilp32 scr b x y) := by
  have hpix : scr.bytespix = 1 := by simp [Screen.bytespix, h]
  refine ⟨fun i j _ => b.byteAt .ilp32 (src b i + j), ?_, fun i j => ?_⟩
  · rw [hpix]
    exact scatter_blit8to8
  · rw [hpix, Screen.encode, if_pos h]
    rfl

theorem draws_blit8to16 (h : scr.bitsPerPixel = 16) :
    Draws scr b x y (blit8to16 .ilp32 scr b x y) := by
  have hpix : scr.bytespix = 2 := by simp [Screen.bytespix, h]
  refine ⟨fun i j k => byteOf (rgb565 (b.colourAt i j).rgbBlue (b.colourAt i j).rgbGreen
    (b.colourAt i j).rgbRed) k, ?_, fun i j => ?_⟩
  · rw [hpix]
    exact scatter_blit8to16
  · rw [hpix, Screen.encode, if_neg (by simp [h]), if_pos h, ← rgb565_eq]
    rfl

theorem draws_blit8to24 (h : scr.bitsPerPixel = 24) :
    Draws scr b x y (blit8to24 .ilp32 scr b x y) := by
  have hpix : scr.bytespix = 3 := by simp [Screen.bytespix, h]
  refine ⟨fun i j k => (b.colourAt i j).channel k, ?_, fun i j => ?_⟩
  · rw [hpix]
    exact scatter_blit8to24
  · rw [hpix, Screen.encode, if_neg (by simp [h]), if_neg (by simp [h]), if_pos h]
    rfl

theorem draws_blit8to32 (h : scr.bitsPerPixel = 32) :
    Draws scr b x y (blit8to32 .ilp32 scr b x y) := by
  have hpix : scr.bytespix = 4 := by simp [Screen.bytespix, h]
  refine ⟨fun i j k => byteOf (rgb888 (b.colourAt i j).rgbBlue (b.colourAt i j).rgbGreen
    (b.colourAt i j).rgbRed) k, ?_, fun i j => ?_⟩
  · rw [hpix]
    exact scatter_blit8to32
  · rw [hpix, Screen.encode, if_neg (by simp [h]), if_neg (by simp [h]), if_neg (by simp [h])]
    exact byteOf_rgb888 _

/-- Each depth has its loop. -/
theorem draws_showWinbmp (hscr : scr.Packed) (hb : b.bmBitsPixel = 8) {malloc : CmapArray → Bool}
    (hmalloc : ∀ a, malloc a = true) :
    (showWinbmp .ilp32 scr b x y malloc).1 = 0 ∧
      Draws scr b x y (showWinbmp .ilp32 scr b x y malloc).2 := by
  obtain ⟨cmap, hcmap, hstores⟩ := setColourMap_of_malloc scr hmalloc b
  have hdraws : ∀ as, Draws scr b x y as → Draws scr b x y (cmap ++ as) := by
    rintro as ⟨u, hu⟩
    refine ⟨u, ?_⟩
    rw [stores_append, hstores, List.nil_append]
    exact hu
  rw [showWinbmp, if_pos hb, hcmap]
  refine ⟨rfl, hdraws _ ?_⟩
  rcases hscr.depth with h | h | h | h
  · rw [if_pos h]
    exact draws_blit8to8 h
  · rw [if_neg (by simp [h]), if_pos h]
    exact draws_blit8to16 h
  · rw [if_neg (by simp [h]), if_neg (by simp [h]), if_pos h]
    exact draws_blit8to24 h
  · rw [if_neg (by simp [h]), if_neg (by simp [h]), if_neg (by simp [h]), if_pos h]
    exact draws_blit8to32 h

end Depths

/-- An 8-bit image is drawn pixel for pixel, upside up, and nothing else is touched. -/
theorem showWinbmp_draws (scr : Screen) (b : Bitmap) (x y : ℤ) (malloc : CmapArray → Bool)
    (fb : ℕ → UInt8) (hb : b.Indexed) (hscr : scr.Packed) (hfit : FitsAt scr b x y)
    (hmalloc : ∀ a, malloc a = true) :
    (∀ i < b.bmHeight.toNat, ∀ j < b.bmWidth.toNat,
      scr.pixelAt (shown scr malloc b x y fb) (x.toNat + j) (y.toNat + i) =
        scr.encode (b.indexAt i j) (b.bmPalettes.mem (b.indexAt i j).toNat)) ∧
    (∀ o, (∀ i < b.bmHeight.toNat, ∀ j < b.bmWidth.toNat, ∀ k < scr.bytespix,
      scr.pixelAddr (x.toNat + j) (y.toNat + i) + k ≠ o) → shown scr malloc b x y fb o = fb o) ∧
    (showWinbmp .ilp32 scr b x y malloc).1 = 0 ∧
    ∀ a ∈ (showWinbmp .ilp32 scr b x y malloc).2, a.Inside b := by
  have hpos : 0 < scr.bytespix := by
    rw [Screen.bytespix]
    rcases hscr.depth with h | h | h | h <;> simp [h]
  have hsized : b.PaletteSized := by
    obtain ⟨m, hm, hnum⟩ := hb.palette
    intro n hn
    obtain rfl : m = n := Option.some.inj (hm.symm.trans hn)
    exact hnum
  obtain ⟨hret, u, hscatter, hencode⟩ :=
    draws_showWinbmp (x := x) (y := y) hscr hb.bitsPixel hmalloc
  obtain ⟨hpixels, hrest⟩ := pixels_of_scatter fb hscr.mapped hfit hpos hscatter
  refine ⟨fun i hi j hj => ?_, hrest, hret,
    inside_of_8 hb.bitsPixel hsized hb.readsInside malloc⟩
  rw [← hb.byteAt_src hi hj, ← Bitmap.colourAt, ← hencode]
  exact hpixels i hi j hj

/-! ## Four pixels -/

/-- Two rows of two pixels, red and green over blue and white, with two bytes of padding. -/
def fourPixels : Bitmap :=
  { bmType := imageTypeWinbmp
    bmWidth := 2
    bmHeight := 2
    bmWidthBytes := 4
    bmPlanes := 1
    bmBitsPixel := 8
    bmPalNum := 4
    bmPalettes := ⟨some 4, fun k => [⟨0, 0, 255, 0⟩, ⟨0, 255, 0, 0⟩, ⟨255, 0, 0, 0⟩,
      ⟨255, 255, 255, 0⟩].getD k ⟨0, 0, 0, 0⟩⟩
    bmBits := ⟨some 8, fun k => [2, 3, 0, 0, 0, 1, 0, 0].getD k 0⟩ }

/-- A screen of three rows of four pixels of 16 bits. -/
def smallScreen : Screen :=
  fbScreen 2 4 3 16

theorem indexed_fourPixels : fourPixels.Indexed where
  bitsPixel := rfl
  width_pos := two_pos
  height_pos := two_pos
  widthBytes := show (2 : ℤ) ≤ 4 by decide
  bits := ⟨8, rfl, show (2 : ℤ) * 4 ≤ 8 by decide, by decide⟩
  palette := ⟨4, rfl, rfl⟩
  pixels := by decide

theorem packed_smallScreen : smallScreen.Packed :=
  ⟨.inr (.inl rfl), by decide, by decide⟩

theorem fitsAt_smallScreen : FitsAt smallScreen fourPixels 2 1 :=
  ⟨by decide, by decide, by decide, by decide⟩

/-- The four pixels are drawn in the lower right corner, the rest stays black. -/
theorem showWinbmp_draws_red :
    (List.range 24).map (shown smallScreen (fun _ => true) fourPixels 2 1 fun _ => 0) =
      [0, 0, 0, 0, 0, 0, 0, 0,
        0, 0, 0, 0, 0x00, 0xf8, 0xe0, 0x07,
        0, 0, 0, 0, 0x1f, 0x00, 0xff, 0xff] := by
  obtain ⟨hpixels, hrest, -⟩ := showWinbmp_draws smallScreen fourPixels 2 1 (fun _ => true)
    (fun _ => 0) indexed_fourPixels packed_smallScreen fitsAt_smallScreen fun _ => rfl
  generalize shown smallScreen (fun _ => true) fourPixels 2 1 (fun _ => 0) = fb at *
  have hred : [fb 12, fb 13] = [0x00, 0xf8] := hpixels 0 two_pos 0 two_pos
  have hgreen : [fb 14, fb 15] = [0xe0, 0x07] := hpixels 0 two_pos 1 one_lt_two
  have hblue : [fb 20, fb 21] = [0x1f, 0x00] := hpixels 1 one_lt_two 0 two_pos
  have hwhite : [fb 22, fb 23] = [0xff, 0xff] := hpixels 1 one_lt_two 1 one_lt_two
  have hblack : ∀ o ∈ [0, 1, 2, 3, 4, 5, 6, 7, 8, 9, 10, 11, 16, 17, 18, 19], fb o = 0 :=
    fun o ho => hrest o (by revert ho; revert o; decide)
  simp only [List.forall_mem_cons] at hblack
  simp_all [List.range_succ]

end LxToolset
