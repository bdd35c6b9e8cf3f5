import LxToolset.ShowBitmapReads

/-!
# The two colour paths of show_winbmp

A picture drawn from its indexed image and from its true-colour image. Each loop scatters
the bytes of its pixels over the screen (`scatter_rows`), so two loops leave equal
framebuffers when the bytes of each pixel agree. `shown_eq_iff` says when they do : always
on a 24-bit screen; on a 16-bit one, where the true-colour loop packs red and blue the other
way round, for pixels whose red and blue agree; on a 32-bit one, for which the true-colour
loop is missing, where the picture is on the screen already.
-/

namespace LxToolset

open Memory

/-- The framebuffer after `show_winbmp`. -/
def shown (scr : Screen) (malloc : CmapArray → Bool) (b : Bitmap) (x y : ℤ) (fb : ℕ → UInt8) :
    ℕ → UInt8 :=
  write fb (stores (showWinbmp .ilp32 scr b x y malloc).2)

/-- The palette entry of pixel `j` in row `i` from the top. -/
def Bitmap.colourAt (b : Bitmap) (i j : ℕ) : RgbQuad :=
  b.bmPalettes.mem (b.byteAt .ilp32 (src b i + j)).toNat

/-- The bytes of a pixel, in the order of a 24-bit image. -/
def RgbQuad.channel (q : RgbQuad) : ℕ → UInt8
  | 0 => q.rgbBlue
  | 1 => q.rgbGreen
  | _ => q.rgbRed

/-- `t` is the 24-bit image of the pixels of the 8-bit image `b`. -/
structure SamePicture (b t : Bitmap) : Prop where
  indexed : b.bmBitsPixel = 8
  trueColour : t.bmBitsPixel = 24
  width : t.bmWidth = b.bmWidth
  height : t.bmHeight = b.bmHeight
  width_pos : 0 < b.bmWidth
  height_pos : 0 < b.bmHeight
  pixels : ∀ i < b.bmHeight.toNat, ∀ j < b.bmWidth.toNat, ∀ k < 3,
    t.byteAt .ilp32 (src t i + ((3 * j + k : ℕ) : ℤ)) = (b.colourAt i j).channel k

/-- Rows of `pitch` bytes that hold the pixels of the screen, in a framebuffer that lies in
the address space. -/
structure Screen.Mapped (scr : Screen) : Prop where
  row : scr.width.toNat * scr.bytespix ≤ scr.pitch.toNat
  size : scr.pitch.toNat * scr.height.toNat ≤ 2 ^ 32

/-- The image fits at `(x, y)`. -/
structure FitsAt (scr : Screen) (b : Bitmap) (x y : ℤ) : Prop where
  left : 0 ≤ x
  top : 0 ≤ y
  right : x + b.bmWidth ≤ scr.width.toNat
  bottom : y + b.bmHeight ≤ scr.height.toNat

/-! ## Where the pixels go -/

/-- The bytes of an image of `c` bytes a pixel, by row and place in the row. -/
def imageBytes (b : Bitmap) (c : ℕ) : Set (ℕ × ℕ) :=
  {p | p.1 < b.bmHeight.toNat ∧ p.2 < c * b.bmWidth.toNat}

def screenAddr (scr : Screen) (x y : ℤ) (p : ℕ × ℕ) : ℕ :=
  addr 32 (dest scr x y p.1 + p.2)

section Place

variable {scr : Screen} {b : Bitmap} {x y : ℤ} {c : ℕ}

theorem dest_eq (hmap : scr.Mapped) (hfit : FitsAt scr b x y) {i : ℕ} (hi : i < b.bmHeight.toNat)
    (hpitch : 0 < scr.pitch.toNat) : dest scr x y i =
      (((i + y.toNat) * scr.pitch.toNat + x.toNat * scr.bytespix : ℕ) : ℤ) := by
  have hx := hfit.left
  have hy := hfit.top
  have hbottom := hfit.bottom
  have hrow : (i + y.toNat) * scr.pitch.toNat < 2 ^ 32 := by
    have hlt : (i + y.toNat) * scr.pitch.toNat < scr.height.toNat * scr.pitch.toNat :=
      Nat.mul_lt_mul_of_pos_right (by omega) hpitch
    rw [Nat.mul_comm scr.height.toNat] at hlt
    exact hlt.trans_le hmap.size
  have hmod : ((i : ℤ) + y) * scr.pitch.toNat % 2 ^ 32 = ((i + y.toNat) * scr.pitch.toNat : ℕ) := by
    have hcast : ((i : ℤ) + y) * scr.pitch.toNat = ((i + y.toNat) * scr.pitch.toNat : ℕ) := by
      push_cast
      rw [Int.toNat_of_nonneg hy]
    rw [hcast]
    exact Int.emod_eq_of_lt (by omega) (by exact_mod_cast hrow)
  rw [dest, hmod]
  push_cast
  rw [Int.toNat_of_nonneg hx]

/-- The address of a byte of the image, and its place in the row of the screen. -/
theorem screenAddr_eq (hmap : scr.Mapped) (hfit : FitsAt scr b x y) (hc : c ≤ scr.bytespix)
    {p : ℕ × ℕ} (hp : p ∈ imageBytes b c) :
    screenAddr scr x y p =
      (p.1 + y.toNat) * scr.pitch.toNat + (x.toNat * scr.bytespix + p.2) ∧
    x.toNat * scr.bytespix + p.2 < scr.pitch.toNat := by
  obtain ⟨hi, hs⟩ := hp
  have hleft := hfit.left
  have htop := hfit.top
  have hright := hfit.right
  have hbottom := hfit.bottom
  have hplace : x.toNat * scr.bytespix + p.2 < scr.pitch.toNat := by
    have hW : 0 < b.bmWidth.toNat := Nat.pos_of_ne_zero fun h0 => by simp [h0] at hs
    have hs' : p.2 < scr.bytespix * b.bmWidth.toNat := hs.trans_le (Nat.mul_le_mul_right _ hc)
    have hmul : (x.toNat + b.bmWidth.toNat) * scr.bytespix ≤ scr.width.toNat * scr.bytespix :=
      Nat.mul_le_mul_right _ (by omega)
    have hrow := hmap.row
    rw [Nat.add_mul, Nat.mul_comm b.bmWidth.toNat] at hmul
    omega
  refine ⟨?_, hplace⟩
  have hrows : (p.1 + y.toNat + 1) * scr.pitch.toNat ≤ scr.height.toNat * scr.pitch.toNat :=
    Nat.mul_le_mul_right _ (by omega)
  have hsize := hmap.size
  rw [Nat.add_mul, Nat.one_mul, Nat.mul_comm scr.height.toNat] at hrows
  rw [screenAddr, dest_eq hmap hfit hi (by omega)]
  have hlt : (p.1 + y.toNat) * scr.pitch.toNat + x.toNat * scr.bytespix + p.2 < 2 ^ 32 := by omega
  have haddr := addr_of_lt hlt
  push_cast at haddr
  push_cast
  rw [haddr, Nat.add_assoc]

/-- Different bytes of the image go to different places. -/
theorem injOn_screenAddr (hmap : scr.Mapped) (hfit : FitsAt scr b x y) (hc : c ≤ scr.bytespix) :
    Set.InjOn (screenAddr scr x y) (imageBytes b c) := by
  rintro ⟨i, s⟩ hp ⟨i', s'⟩ hp' he
  obtain ⟨ha, hlt⟩ := screenAddr_eq hmap hfit hc hp
  obtain ⟨ha', hlt'⟩ := screenAddr_eq hmap hfit hc hp'
  dsimp only at ha hlt ha' hlt'
  have hpitch : 0 < scr.pitch.toNat := by omega
  rw [ha, ha'] at he
  have hdiv := congrArg (· / scr.pitch.toNat) he
  simp only [Nat.mul_comm _ scr.pitch.toNat, Nat.mul_add_div hpitch, Nat.div_eq_of_lt hlt,
    Nat.div_eq_of_lt hlt', Nat.add_zero] at hdiv
  obtain rfl : i = i' := by omega
  obtain rfl : s = s' := by omega
  rfl

end Place

/-! ## What the loops store -/

theorem mem_stores {as : List Access} {w : ℕ × UInt8} :
    w ∈ stores as ↔ Access.store w.1 w.2 ∈ as := by
  simp only [stores, List.mem_filterMap]
  constructor
  · rintro ⟨a, ha, hw⟩
    cases a <;> simp_all
    rwa [← hw]
  · exact fun h => ⟨_, h, rfl⟩

theorem store_mem_storeAt {dm : DataModel} {z : ℤ} {n v : ℕ} {w : ℕ × UInt8} :
    Access.store w.1 w.2 ∈ storeAt dm z n v ↔
      ∃ k < n, w = (addr dm.longBits (z + k), byteOf v k) := by
  simp [storeAt, Prod.ext_iff, eq_comm]

section Loops

variable {scr : Screen} {b : Bitmap} {x y : ℤ}

/-- A loop whose pixels store `c` bytes each scatters the bytes of the image. -/
theorem scatter_rows {pixel : ℤ → ℤ → ℕ → List Access} {c : ℕ} {v : ℤ → ℕ → ℕ → UInt8}
    (hpixel : ∀ d s j w, Access.store w.1 w.2 ∈ pixel d s j ↔
      ∃ k < c, w = (addr 32 (d + ((c * j + k : ℕ) : ℤ)), v s j k)) :
    Scatter (stores (rows scr b x y fun dest src => columns b fun j => pixel dest src j))
      (imageBytes b c) (screenAddr scr x y) fun p => v (src b p.1) (p.2 / c) (p.2 % c) := by
  intro w
  simp only [mem_stores, mem_rows, mem_columns, hpixel]
  constructor
  · rintro ⟨i, hi, j, hj, k, hk, rfl⟩
    have hs : c * j + k < c * b.bmWidth.toNat := by
      have hle : c * (j + 1) ≤ c * b.bmWidth.toNat := Nat.mul_le_mul_left c hj
      rw [Nat.mul_succ] at hle
      omega
    refine ⟨(i, c * j + k), ⟨hi, hs⟩, ?_⟩
    have hdiv : (c * j + k) / c = j := by
      rw [Nat.mul_add_div (by omega), Nat.div_eq_of_lt hk, Nat.add_zero]
    rw [hdiv, Nat.mul_add_mod, Nat.mod_eq_of_lt hk, screenAddr]
  · rintro ⟨⟨i, s⟩, ⟨hi, hs⟩, rfl⟩
    have hc : 0 < c := Nat.pos_of_ne_zero fun h0 => by simp [h0] at hs
    refine ⟨i, hi, s / c, Nat.div_lt_of_lt_mul hs, s % c, Nat.mod_lt s hc, ?_⟩
    rw [Nat.div_add_mod, screenAddr]

theorem scatter_blit8to16 : Scatter (stores (blit8to16 .ilp32 scr b x y)) (imageBytes b 2)
    (screenAddr scr x y) fun p => byteOf (rgb565 (b.colourAt p.1 (p.2 / 2)).rgbBlue
      (b.colourAt p.1 (p.2 / 2)).rgbGreen (b.colourAt p.1 (p.2 / 2)).rgbRed) (p.2 % 2) := by
  unfold blit8to16
  refine scatter_rows (c := 2) (v := fun s j k =>
    let q := b.bmPalettes.mem (b.byteAt .ilp32 (s + j)).toNat
    byteOf (rgb565 q.rgbBlue q.rgbGreen q.rgbRed) k) fun d s j w => ?_
  simp [indexed, readAt, store_mem_storeAt, DataModel.longBits, add_assoc]

theorem byteOf_toNat (v : UInt8) : byteOf v.toNat 0 = v := by
  simp [byteOf]

theorem scatter_blit8to24 : Scatter (stores (blit8to24 .ilp32 scr b x y)) (imageBytes b 3)
    (screenAddr scr x y) fun p => (b.colourAt p.1 (p.2 / 3)).channel (p.2 % 3) := by
  unfold blit8to24
  refine scatter_rows (c := 3) (v := fun s j k =>
    (b.bmPalettes.mem (b.byteAt .ilp32 (s + j)).toNat).channel k) fun d s j w => ?_
  simp [indexed, readAt, store_mem_storeAt, DataModel.longBits, exists_lt_three,
    byteOf_toNat, RgbQuad.channel, add_assoc, mul_comm]

theorem scatter_blit8to32 : Scatter (stores (blit8to32 .ilp32 scr b x y)) (imageBytes b 4)
    (screenAddr scr x y) fun p => byteOf (rgb888 (b.colourAt p.1 (p.2 / 4)).rgbBlue
      (b.colourAt p.1 (p.2 / 4)).rgbGreen (b.colourAt p.1 (p.2 / 4)).rgbRed) (p.2 % 4) := by
  unfold blit8to32
  refine scatter_rows (c := 4) (v := fun s j k =>
    let q := b.bmPalettes.mem (b.byteAt .ilp32 (s + j)).toNat
    byteOf (rgb888 q.rgbBlue q.rgbGreen q.rgbRed) k) fun d s j w => ?_
  simp [indexed, readAt, store_mem_storeAt, DataModel.longBits, DataModel.longBytes, add_assoc]

theorem scatter_blit24to16 : Scatter (stores (blit24to16 .ilp32 scr b x y)) (imageBytes b 2)
    (screenAddr scr x y) fun p => byteOf (rgb565
      (b.byteAt .ilp32 (src b p.1 + ((3 * (p.2 / 2) + 2 : ℕ) : ℤ)))
      (b.byteAt .ilp32 (src b p.1 + ((3 * (p.2 / 2) + 1 : ℕ) : ℤ)))
      (b.byteAt .ilp32 (src b p.1 + ((3 * (p.2 / 2) + 0 : ℕ) : ℤ)))) (p.2 % 2) := by
  unfold blit24to16
  refine scatter_rows (c := 2) (v := fun s j k => byteOf (rgb565
    (b.byteAt .ilp32 (s + ((3 * j + 2 : ℕ) : ℤ))) (b.byteAt .ilp32 (s + ((3 * j + 1 : ℕ) : ℤ)))
    (b.byteAt .ilp32 (s + ((3 * j + 0 : ℕ) : ℤ)))) k) fun d s j w => ?_
  simp [trueColour, readAt, store_mem_storeAt, DataModel.longBits, add_assoc, mul_comm]

theorem scatter_blit24to24 (h24 : scr.bytespix = 3) (hpos : 0 ≤ b.bmWidth)
    (hlt : 3 * b.bmWidth.toNat < 2 ^ 32) :
    Scatter (stores (blit24to24 .ilp32 scr b x y)) (imageBytes b 3) (screenAddr scr x y)
      fun p => b.byteAt .ilp32 (src b p.1 + p.2) := by
  have hlen : addr 32 (b.bmWidth * 3) = 3 * b.bmWidth.toNat := by
    rw [show b.bmWidth * 3 = ((3 * b.bmWidth.toNat : ℕ) : ℤ) by omega, addr_of_lt hlt]
  intro w
  simp only [mem_stores, blit24to24, mem_rows, List.mem_flatMap, List.mem_range, List.mem_cons,
    store_mem_storeAt, DataModel.longBits, h24, Nat.cast_ofNat, hlen]
  simp [readAt, imageBytes, screenAddr, byteOf_toNat, and_assoc]

end Loops

/-! ## 16-bit pixels -/

theorem rgb565_eq (low mid high : UInt8) :
    rgb565 low mid high = low.toNat / 8 + 32 * (mid.toNat / 4) + 2048 * (high.toNat / 8) := by
  have hlow : low.toNat / 8 < 2 ^ 5 := by
    have := low.toNat_lt
    omega
  have hmid : low.toNat / 8 + 32 * (mid.toNat / 4) < 2 ^ 11 := by
    have := mid.toNat_lt
    omega
  have hor : low.toNat / 8 ||| (mid.toNat / 4) <<< 5 = low.toNat / 8 + 32 * (mid.toNat / 4) := by
    rw [Nat.or_comm, ← Nat.shiftLeft_add_eq_or_of_lt hlow, Nat.shiftLeft_eq]
    omega
  simp only [rgb565, Nat.shiftRight_eq_div_pow]
  rw [hor, Nat.or_comm, ← Nat.shiftLeft_add_eq_or_of_lt hmid, Nat.shiftLeft_eq]
  omega

/-- Two 16-bit words agree when their bytes do. -/
theorem forall_byteOf_two {v v' : ℕ} (hv : v < 2 ^ 16) (hv' : v' < 2 ^ 16) :
    (∀ k < 2, byteOf v k = byteOf v' k) ↔ v = v' := by
  refine ⟨fun h => ?_, fun h => h ▸ fun _ _ => rfl⟩
  have h0 := congrArg UInt8.toNat (h 0 (by omega))
  have h1 := congrArg UInt8.toNat (h 1 (by omega))
  simp [byteOf, Nat.shiftRight_eq_div_pow] at h0 h1
  omega

/-- Red and blue can be exchanged where their upper five bits agree. -/
theorem rgb565_swap_iff (low mid high : UInt8) :
    (∀ k < 2, byteOf (rgb565 low mid high) k = byteOf (rgb565 high mid low) k) ↔
      high >>> 3 = low >>> 3 := by
  have hl := low.toNat_lt
  have hm := mid.toNat_lt
  have hh := high.toNat_lt
  have hlt : ∀ a c : UInt8, rgb565 a mid c < 2 ^ 16 := by
    intro a c
    have := a.toNat_lt
    have := c.toNat_lt
    rw [rgb565_eq]
    omega
  rw [forall_byteOf_two (hlt ..) (hlt ..), rgb565_eq, rgb565_eq, ← UInt8.toNat_inj]
  simp only [UInt8.toNat_shiftRight]
  have h3 : (3 : UInt8).toNat % 8 = 3 := rfl
  simp only [h3, Nat.shiftRight_eq_div_pow]
  omega

/-! ## Both paths -/

/-- Where the two paths leave the same framebuffer. -/
structure PathsAgree (scr : Screen) (b : Bitmap) (x y : ℤ) (fb : ℕ → UInt8) : Prop where
  /-- On a 16-bit screen, red and blue of each pixel agree in their upper five bits. -/
  at16 : scr.bitsPerPixel = 16 → ∀ i < b.bmHeight.toNat, ∀ j < b.bmWidth.toNat,
    (b.colourAt i j).rgbRed >>> 3 = (b.colourAt i j).rgbBlue >>> 3
  /-- On a 32-bit screen, the framebuffer holds the pixels already. -/
  at32 : scr.bitsPerPixel = 32 → ∀ i < b.bmHeight.toNat, ∀ j < b.bmWidth.toNat, ∀ k < 4,
    fb (screenAddr scr x y (i, 4 * j + k)) = byteOf (rgb888 (b.colourAt i j).rgbBlue
      (b.colourAt i j).rgbGreen (b.colourAt i j).rgbRed) k

section Paths

variable {scr : Screen} {b t : Bitmap} {x y : ℤ} {malloc : CmapArray → Bool} {fb : ℕ → UInt8}

/-- A fact about each byte of an image, pixel by pixel. -/
theorem forall_imageBytes {c : ℕ} (hc : 0 < c) {Q : ℕ → ℕ → ℕ → Prop} :
    (∀ p ∈ imageBytes b c, Q p.1 (p.2 / c) (p.2 % c)) ↔
      ∀ i < b.bmHeight.toNat, ∀ j < b.bmWidth.toNat, ∀ k < c, Q i j k := by
  have hrow : ∀ i, (∀ s < c * b.bmWidth.toNat, Q i (s / c) (s % c)) ↔
      ∀ j < b.bmWidth.toNat, ∀ k < c, Q i j k := by
    intro i
    rw [← forall_lt_mul_iff hc]
    refine forall_congr' fun j => forall_congr' fun _ => forall_congr' fun k =>
      forall_congr' fun hk => ?_
    rw [Nat.mul_add_div hc, Nat.div_eq_of_lt hk, Nat.add_zero, Nat.mul_add_mod, Nat.mod_eq_of_lt hk]
  simp only [← hrow]
  exact ⟨fun h i hi s hs => h (i, s) ⟨hi, hs⟩, fun h p hp => h p.1 hp.1 p.2 hp.2⟩

theorem setColourMap_direct (hvisual : scr.visual ≠ fbVisualPseudocolor) :
    setColourMap scr malloc b = some [] :=
  if_neg fun h => hvisual h.2

/-- On a 16-bit screen the two loops exchange red and blue. -/
theorem shown_eq_iff_16 (hsame : SamePicture b t) (hvisual : scr.visual ≠ fbVisualPseudocolor)
    (h16 : scr.bitsPerPixel = 16) (hmap : scr.Mapped) (hfit : FitsAt scr b x y) :
    shown scr malloc b x y fb = shown scr malloc t x y fb ↔
      ∀ i < b.bmHeight.toNat, ∀ j < b.bmWidth.toNat,
        (b.colourAt i j).rgbRed >>> 3 = (b.colourAt i j).rgbBlue >>> 3 := by
  have hb : shown scr malloc b x y fb = write fb (stores (blit8to16 .ilp32 scr b x y)) := by
    simp [shown, showWinbmp, hsame.indexed, setColourMap_direct hvisual, h16]
  have ht : shown scr malloc t x y fb = write fb (stores (blit24to16 .ilp32 scr t x y)) := by
    simp [shown, showWinbmp, hsame.trueColour, h16]
  have hbytes : imageBytes t 2 = imageBytes b 2 := by
    simp only [imageBytes, hsame.width, hsame.height]
  have hinj := injOn_screenAddr hmap hfit (c := 2) (by simp [Screen.bytespix, h16])
  rw [hb, ht, scatter_blit8to16.write_eq_write_iff (hbytes ▸ scatter_blit24to16) hinj,
    forall_imageBytes two_pos (Q := fun i j k =>
      byteOf (rgb565 (b.colourAt i j).rgbBlue (b.colourAt i j).rgbGreen (b.colourAt i j).rgbRed) k =
        byteOf (rgb565 (t.byteAt .ilp32 (src t i + ((3 * j + 2 : ℕ) : ℤ)))
          (t.byteAt .ilp32 (src t i + ((3 * j + 1 : ℕ) : ℤ)))
          (t.byteAt .ilp32 (src t i + ((3 * j + 0 : ℕ) : ℤ)))) k)]
  refine forall_congr' fun i => forall_congr' fun hi => forall_congr' fun j =>
    forall_congr' fun hj => ?_
  rw [hsame.pixels i hi j hj 0 (by omega), hsame.pixels i hi j hj 1 (by omega),
    hsame.pixels i hi j hj 2 (by omega)]
  exact rgb565_swap_iff ..

/-- On a 24-bit screen both loops store the three bytes of each pixel. -/
theorem shown_eq_24 (hsame : SamePicture b t) (hvisual : scr.visual ≠ fbVisualPseudocolor)
    (h24 : scr.bitsPerPixel = 24) (hmap : scr.Mapped) (hfit : FitsAt scr b x y) :
    shown scr malloc b x y fb = shown scr malloc t x y fb := by
  have hb : shown scr malloc b x y fb = write fb (stores (blit8to24 .ilp32 scr b x y)) := by
    simp [shown, showWinbmp, hsame.indexed, setColourMap_direct hvisual, h24]
  have ht : shown scr malloc t x y fb = write fb (stores (blit24to24 .ilp32 scr t x y)) := by
    simp [shown, showWinbmp, hsame.trueColour, h24]
  have hbytes : imageBytes t 3 = imageBytes b 3 := by
    simp only [imageBytes, hsame.width, hsame.height]
  have hpix : scr.bytespix = 3 := by simp [Screen.bytespix, h24]
  have hlt : 3 * t.bmWidth.toNat < 2 ^ 32 := by
    have hrow := hmap.row
    have hleft := hfit.left
    have hright := hfit.right
    have hpitch := scr.pitch.toNat_lt
    rw [hpix] at hrow
    rw [hsame.width]
    omega
  have hpos : 0 ≤ t.bmWidth := by
    rw [hsame.width]
    exact hsame.width_pos.le
  have hinj := injOn_screenAddr hmap hfit (c := 3) (by omega)
  rw [hb, ht, scatter_blit8to24.write_eq_write_iff
    (hbytes ▸ scatter_blit24to24 hpix hpos hlt) hinj]
  rintro ⟨i, s⟩ ⟨hi, hs⟩
  have hpixel := hsame.pixels i hi (s / 3) (Nat.div_lt_of_lt_mul hs) (s % 3)
    (Nat.mod_lt s (by omega))
  rw [Nat.div_add_mod] at hpixel
  exact hpixel.symm

/-- On a 32-bit screen the true-colour image is not drawn. -/
theorem shown_eq_iff_32 (hsame : SamePicture b t) (hvisual : scr.visual ≠ fbVisualPseudocolor)
    (h32 : scr.bitsPerPixel = 32) (hmap : scr.Mapped) (hfit : FitsAt scr b x y) :
    shown scr malloc b x y fb = shown scr malloc t x y fb ↔
      ∀ i < b.bmHeight.toNat, ∀ j < b.bmWidth.toNat, ∀ k < 4,
        fb (screenAddr scr x y (i, 4 * j + k)) = byteOf (rgb888 (b.colourAt i j).rgbBlue
          (b.colourAt i j).rgbGreen (b.colourAt i j).rgbRed) k := by
  have hb : shown scr malloc b x y fb = write fb (stores (blit8to32 .ilp32 scr b x y)) := by
    simp [shown, showWinbmp, hsame.indexed, setColourMap_direct hvisual, h32]
  have ht : shown scr malloc t x y fb = fb := by
    simp [shown, showWinbmp, hsame.trueColour, h32, stores]
  have hinj := injOn_screenAddr hmap hfit (c := 4) (by simp [Screen.bytespix, h32])
  rw [hb, ht, scatter_blit8to32.write_eq_self_iff hinj, ← forall_imageBytes (by omega : 0 < 4)
    (Q := fun i j k => fb (screenAddr scr x y (i, 4 * j + k)) =
      byteOf (rgb888 (b.colourAt i j).rgbBlue (b.colourAt i j).rgbGreen
        (b.colourAt i j).rgbRed) k)]
  simp only [Nat.div_add_mod, eq_comm]

/-- When the two colour paths agree. -/
theorem shown_eq_iff (hsame : SamePicture b t) (hvisual : scr.visual ≠ fbVisualPseudocolor)
    (hdepth : scr.bitsPerPixel = 16 ∨ scr.bitsPerPixel = 24 ∨ scr.bitsPerPixel = 32)
    (hmap : scr.Mapped) (hfit : FitsAt scr b x y) :
    shown scr malloc b x y fb = shown scr malloc t x y fb ↔ PathsAgree scr b x y fb := by
  rcases hdepth with h | h | h
  · rw [shown_eq_iff_16 hsame hvisual h hmap hfit]
    exact ⟨fun h16 => ⟨fun _ => h16, fun h32 => by simp [h] at h32⟩, fun hp => hp.at16 h⟩
  · refine ⟨fun _ => ⟨fun h16 => ?_, fun h32 => ?_⟩,
      fun _ => shown_eq_24 hsame hvisual h hmap hfit⟩
    · simp [h] at h16
    · simp [h] at h32
  · rw [shown_eq_iff_32 hsame hvisual h hmap hfit]
    exact ⟨fun h32 => ⟨fun h16 => by simp [h] at h16, fun _ => h32⟩, fun hp => hp.at32 h⟩

end Paths

/-! ## One pixel -/

/-- The 8-bit image of one pixel of this colour. -/
def dot8 (q : RgbQuad) : Bitmap :=
  { bmType := imageTypeWinbmp
    bmWidth := 1
    bmHeight := 1
    bmWidthBytes := 4
    bmPlanes := 1
    bmBitsPixel := 8
    bmPalNum := 1
    bmPalettes := ⟨some 1, fun _ => q⟩
    bmBits := ⟨some 4, fun _ => 0⟩ }

/-- The 24-bit image of one pixel of this colour. -/
def dot24 (q : RgbQuad) : Bitmap :=
  { dot8 q with
    bmBitsPixel := 24
    bmPalNum := 0
    bmPalettes := ⟨none, fun _ => q⟩
    bmBits := ⟨some 4, q.channel⟩ }

/-- A screen of one 16-bit pixel. -/
def dotScreen : Screen :=
  fbScreen 2 1 1 16

theorem samePicture_dot (q : RgbQuad) : SamePicture (dot8 q) (dot24 q) where
  indexed := rfl
  trueColour := rfl
  width := rfl
  height := rfl
  width_pos := one_pos
  height_pos := one_pos
  pixels i hi j hj k hk := by
    obtain rfl : i = 0 := Nat.lt_one_iff.1 hi
    obtain rfl : j = 0 := Nat.lt_one_iff.1 hj
    have hsrc : src (dot24 q) 0 + ((3 * 0 + k : ℕ) : ℤ) = k := by simp [src, dot24, dot8]
    have haddr : addr 32 (k : ℤ) = k := addr_of_lt (by omega)
    rw [hsrc]
    exact congrArg q.channel haddr

theorem mapped_dotScreen : dotScreen.Mapped :=
  ⟨by decide, by decide⟩

theorem fitsAt_dot (q : RgbQuad) : FitsAt dotScreen (dot8 q) 0 0 :=
  ⟨le_rfl, le_rfl, le_rfl, le_rfl⟩

/-- A grey pixel is drawn alike. -/
theorem shown_eq_iff_grey :
    shown dotScreen (fun _ => true) (dot8 ⟨8, 8, 8, 0⟩) 0 0 (fun _ => 0) =
      shown dotScreen (fun _ => true) (dot24 ⟨8, 8, 8, 0⟩) 0 0 (fun _ => 0) := by
  have hagree : PathsAgree dotScreen (dot8 ⟨8, 8, 8, 0⟩) 0 0 fun _ => 0 :=
    ⟨fun _ _ _ _ _ => rfl, fun h => absurd h (by decide)⟩
  exact (shown_eq_iff (samePicture_dot _) (by decide) (.inl rfl) mapped_dotScreen
    (fitsAt_dot _)).2 hagree

/-- A red pixel : the indexed path draws it red, the true-colour one blue. -/
theorem red_drawn_blue :
    ¬∀ (scr : Screen) (b t : Bitmap) (x y : ℤ) (malloc : CmapArray → Bool) (fb : ℕ → UInt8),
      SamePicture b t → scr.visual ≠ fbVisualPseudocolor →
      scr.bitsPerPixel = 16 ∨ scr.bitsPerPixel = 24 ∨ scr.bitsPerPixel = 32 →
      scr.Mapped → FitsAt scr b x y →
      shown scr malloc b x y fb = shown scr malloc t x y fb := by
  intro h
  have heq := h dotScreen (dot8 ⟨0, 0, 255, 0⟩) (dot24 ⟨0, 0, 255, 0⟩) 0 0 (fun _ => true)
    (fun _ => 0) (samePicture_dot _) (by decide) (.inl rfl) mapped_dotScreen (fitsAt_dot _)
  rw [shown_eq_iff_16 (samePicture_dot _) (by decide) rfl mapped_dotScreen (fitsAt_dot _)] at heq
  exact absurd (heq 0 one_pos 0 one_pos) (by decide)

end LxToolset
