import LxToolset.ShowBitmapReads

/-!
# The stores of show_winbmp behind the size check of main

`main` centres the image and shows it where both coordinates are nonnegative. The loops
clip nothing, so what they store lies in the framebuffer when the image fits the screen and
each row ends in the framebuffer (`storedBelow_showWinbmp`), as it does wherever `pitch` holds
the bytes of a row (`rowsEnd_of_pitch`). But the check is one of the sign of an unsigned
quotient where `long` has 32 bits, and of a quotient rounded towards zero where it has 64 :
`mainIsRight_iff` says what it lets through.
-/

namespace LxToolset

open Memory

/-! ## Stores below a limit -/

/-- A store lies below `limit`. -/
def Access.StoredBelow (limit : ℕ) : Access → Prop
  | .store off _ => off < limit
  | _ => True

/-- The bytes stored for a pixel. -/
def pixelBytes (dm : DataModel) (bitsPerPixel : UInt32) : ℕ :=
  if bitsPerPixel = 8 then 1
  else if bitsPerPixel = 16 then 2
  else if bitsPerPixel = 24 then 3
  else if bitsPerPixel = 32 then dm.longBytes
  else 0

/-- The bytes stored for a row of the image. -/
def rowBytes (dm : DataModel) (bmBitsPixel : UInt16) (bitsPerPixel : UInt32) (bmWidth : ℤ) : ℕ :=
  if bmBitsPixel = 8 then pixelBytes dm bitsPerPixel * bmWidth.toNat
  else if bmBitsPixel = 24 then
    if bitsPerPixel = 24 then addr dm.longBits (bmWidth * 3)
    else if bitsPerPixel = 32 then 0
    else pixelBytes dm bitsPerPixel * bmWidth.toNat
  else 0

/-- `n` bytes from the start of each row on end below `limit`, unless `limit` is past the
address space. -/
def RowsEnd (dm : DataModel) (scr : Screen) (b : Bitmap) (x y : ℤ) (n limit : ℕ) : Prop :=
  ∀ i < b.bmHeight.toNat,
    n = 0 ∨ 2 ^ dm.longBits ≤ limit ∨ addr dm.longBits (dest scr x y i) + n ≤ limit

section Stores

variable {dm : DataModel} {scr : Screen} {b : Bitmap} {x y : ℤ} {limit : ℕ}

theorem rowsEnd_iff {n : ℕ} : RowsEnd dm scr b x y n limit ↔
    ∀ i < b.bmHeight.toNat, ∀ s < n, addr dm.longBits (dest scr x y i + s) < limit :=
  forall_congr' fun _ => forall_congr' fun _ => forall_addr_lt_iff.symm

theorem storedBelow_storeAt {z : ℤ} {n v : ℕ} :
    (∀ a ∈ storeAt dm z n v, a.StoredBelow limit) ↔ ∀ k < n, addr dm.longBits (z + k) < limit :=
  forall_mem_storeAt

/-- Loops that store `c` bytes a pixel, one pixel after the other. -/
theorem storedBelow_rows {pixel : ℤ → ℤ → ℕ → List Access} {c : ℕ} (hc : 0 < c)
    (hpixel : ∀ d s j, (∀ a ∈ pixel d s j, a.StoredBelow limit) ↔
      ∀ k < c, addr dm.longBits (d + ((c * j + k : ℕ) : ℤ)) < limit) :
    (∀ a ∈ rows scr b x y fun dest src => columns b fun j => pixel dest src j,
      a.StoredBelow limit) ↔ RowsEnd dm scr b x y (c * b.bmWidth.toNat) limit := by
  rw [rowsEnd_iff, forall_mem_rows]
  refine forall_congr' fun i => forall_congr' fun _ => ?_
  simp only [forall_mem_columns, hpixel]
  exact forall_lt_mul_iff (Q := fun s => addr dm.longBits (dest scr x y i + (s : ℤ)) < limit) hc

theorem storedBelow_readAt {z : ℤ} : (readAt dm z).StoredBelow limit :=
  trivial

theorem storedBelow_readPalette {n : ℕ} : (Access.readPalette n).StoredBelow limit :=
  trivial

theorem storedBelow_indexed {z d : ℤ} {v : RgbQuad → ℕ} {c j : ℕ} :
    (∀ a ∈ indexed dm b z fun rgba => storeAt dm (d + c * j) c (v rgba),
      a.StoredBelow limit) ↔ ∀ k < c, addr dm.longBits (d + ((c * j + k : ℕ) : ℤ)) < limit := by
  rw [forall_mem_indexed, storedBelow_storeAt]
  simp [storedBelow_readAt, storedBelow_readPalette, add_assoc]

theorem storedBelow_trueColour {z d : ℤ} {v : UInt8 → UInt8 → UInt8 → ℕ} {c j : ℕ} :
    (∀ a ∈ trueColour dm b z fun c₀ c₁ c₂ => storeAt dm (d + c * j) c (v c₀ c₁ c₂),
      a.StoredBelow limit) ↔ ∀ k < c, addr dm.longBits (d + ((c * j + k : ℕ) : ℤ)) < limit := by
  rw [forall_mem_trueColour, storedBelow_storeAt]
  simp [storedBelow_readAt, add_assoc]

theorem storedBelow_blit8to8 : (∀ a ∈ blit8to8 dm scr b x y, a.StoredBelow limit) ↔
    RowsEnd dm scr b x y (1 * b.bmWidth.toNat) limit := by
  unfold blit8to8
  refine storedBelow_rows one_pos fun d s j => ?_
  simp [storedBelow_storeAt, storedBelow_readAt]

theorem storedBelow_blit8to16 : (∀ a ∈ blit8to16 dm scr b x y, a.StoredBelow limit) ↔
    RowsEnd dm scr b x y (2 * b.bmWidth.toNat) limit := by
  unfold blit8to16
  exact storedBelow_rows two_pos fun _ _ _ => storedBelow_indexed

theorem storedBelow_blit8to24 : (∀ a ∈ blit8to24 dm scr b x y, a.StoredBelow limit) ↔
    RowsEnd dm scr b x y (3 * b.bmWidth.toNat) limit := by
  unfold blit8to24
  refine storedBelow_rows three_pos fun d s j => ?_
  simp only [forall_mem_indexed, List.forall_mem_append, storedBelow_storeAt]
  simp [storedBelow_readAt, storedBelow_readPalette, forall_lt_three, mul_comm,
    add_assoc, and_assoc]

theorem storedBelow_blit8to32 : (∀ a ∈ blit8to32 dm scr b x y, a.StoredBelow limit) ↔
    RowsEnd dm scr b x y (dm.longBytes * b.bmWidth.toNat) limit := by
  have hpos : 0 < dm.longBytes := by cases dm <;> decide
  unfold blit8to32
  exact storedBelow_rows hpos fun _ _ _ => storedBelow_indexed

theorem storedBelow_blit24to8 : (∀ a ∈ blit24to8 dm scr b x y, a.StoredBelow limit) ↔
    RowsEnd dm scr b x y (1 * b.bmWidth.toNat) limit := by
  unfold blit24to8
  refine storedBelow_rows one_pos fun d s j => ?_
  rw [forall_mem_trueColour, storedBelow_storeAt]
  simp [storedBelow_readAt]

theorem storedBelow_blit24to16 : (∀ a ∈ blit24to16 dm scr b x y, a.StoredBelow limit) ↔
    RowsEnd dm scr b x y (2 * b.bmWidth.toNat) limit := by
  unfold blit24to16
  exact storedBelow_rows two_pos fun _ _ _ => storedBelow_trueColour

theorem storedBelow_blit24to24 : (∀ a ∈ blit24to24 dm scr b x y, a.StoredBelow limit) ↔
    RowsEnd dm scr b x y (addr dm.longBits (b.bmWidth * scr.bytespix)) limit := by
  rw [forall_mem_blit24to24, rowsEnd_iff]
  simp [storedBelow_storeAt, storedBelow_readAt]

theorem rowsEnd_zero : RowsEnd dm scr b x y 0 limit :=
  fun _ _ => .inl rfl

theorem storedBelow_setColourMap {malloc : CmapArray → Bool} {as : List Access}
    (hset : setColourMap scr malloc b = some as) : ∀ a ∈ as, a.StoredBelow limit := by
  unfold setColourMap at hset
  split_ifs at hset
  · obtain rfl := Option.some.inj hset
    refine List.forall_mem_append.2 ⟨fun a ha => ?_, by simp [Access.StoredBelow]⟩
    obtain ⟨k, -, rfl⟩ := List.mem_map.1 ha
    trivial
  · obtain rfl := Option.some.inj hset
    simp

/-- Once the colour map is set, the stores lie below the limit when the rows end there. -/
theorem storedBelow_showWinbmp {malloc : CmapArray → Bool}
    (hset : b.bmBitsPixel = 8 → setColourMap scr malloc b ≠ none) :
    (∀ a ∈ (showWinbmp dm scr b x y malloc).2, a.StoredBelow limit) ↔
      RowsEnd dm scr b x y (rowBytes dm b.bmBitsPixel scr.bitsPerPixel b.bmWidth) limit := by
  unfold showWinbmp rowBytes pixelBytes
  by_cases hb8 : b.bmBitsPixel = 8
  · simp only [if_pos hb8]
    cases hmap : setColourMap scr malloc b with
    | none => exact absurd hmap (hset hb8)
    | some as =>
      rw [List.forall_mem_append, and_iff_right (storedBelow_setColourMap hmap)]
      split_ifs
      · exact storedBelow_blit8to8
      · exact storedBelow_blit8to16
      · exact storedBelow_blit8to24
      · exact storedBelow_blit8to32
      · simp [rowsEnd_zero]
  by_cases hb24 : b.bmBitsPixel = 24
  · simp only [if_neg hb8, if_pos hb24]
    by_cases h24 : scr.bitsPerPixel = 24
    · simp [h24, storedBelow_blit24to24, Screen.bytespix]
    simp only [if_neg h24]
    split_ifs with h8 h16 h32 h32
    · simp_all
    · exact storedBelow_blit24to8
    · simp_all
    · exact storedBelow_blit24to16
    · simp [rowsEnd_zero]
    · simp [rowsEnd_zero]
  · simp [hb8, hb24, rowsEnd_zero]

/-- Where `pitch` holds the pixels of a row of the screen, the rows of an image that fits
end in the framebuffer. -/
theorem rowsEnd_of_pitch {n : ℕ} (hx : 0 ≤ x) (hy : 0 ≤ y)
    (hW : x + b.bmWidth ≤ scr.width.toNat) (hH : y + b.bmHeight ≤ scr.height.toNat)
    (hpos : 0 ≤ b.bmWidth) (hpitch : scr.width.toNat * scr.bytespix ≤ scr.pitch.toNat)
    (hn : n ≤ scr.bytespix * b.bmWidth.toNat) :
    RowsEnd dm scr b x y n (scr.pitch.toNat * scr.height.toNat) := by
  intro i hi
  refine .inr (.inr ?_)
  obtain ⟨X, rfl⟩ := Int.eq_ofNat_of_zero_le hx
  obtain ⟨Y, rfl⟩ := Int.eq_ofNat_of_zero_le hy
  obtain ⟨W, hWe⟩ := Int.eq_ofNat_of_zero_le hpos
  rw [hWe] at hW hn
  have hdest : addr dm.longBits (dest scr X Y i) ≤
      (i + Y) * scr.pitch.toNat + X * scr.bytespix := by
    have hd : dest scr X Y i =
        (((i + Y) * scr.pitch.toNat % 2 ^ 32 + X * scr.bytespix : ℕ) : ℤ) := by
      simp [dest]
    have hle := addr_le dm.longBits ((i + Y) * scr.pitch.toNat % 2 ^ 32 + X * scr.bytespix)
    have hmod := Nat.mod_le ((i + Y) * scr.pitch.toNat) (2 ^ 32)
    rw [← hd] at hle
    omega
  have hrow : X * scr.bytespix + n ≤ scr.pitch.toNat := by
    have hmul : (X + W) * scr.bytespix ≤ scr.width.toNat * scr.bytespix :=
      Nat.mul_le_mul_right _ (by omega)
    rw [Nat.add_mul, Nat.mul_comm W] at hmul
    simp only [Int.toNat_natCast] at hn
    omega
  have hrows : (i + Y + 1) * scr.pitch.toNat ≤ scr.height.toNat * scr.pitch.toNat :=
    Nat.mul_le_mul_right _ (by omega)
  rw [Nat.add_mul, Nat.one_mul, Nat.mul_comm scr.height.toNat] at hrows
  omega

end Stores

/-! ## The size check -/

/-- The image is shown where it lies on the screen, and the error printed where it does not
fit. -/
def GuardIsRight (dm : DataModel) (scr : Screen) (b : Bitmap) : Prop :=
  match mainShow dm scr b with
  | .showBitmap x y => 0 ≤ x ∧ 0 ≤ y ∧ x + b.bmWidth ≤ scr.width.toNat ∧
      y + b.bmHeight ≤ scr.height.toNat
  | .stderr text => text = sizeError scr b ∧
      ¬(b.bmWidth ≤ scr.width.toNat ∧ b.bmHeight ≤ scr.height.toNat)

/-- The accesses of `main`. -/
def mainAccesses (dm : DataModel) (scr : Screen) (malloc : CmapArray → Bool) (b : Bitmap) :
    List Access :=
  match mainShow dm scr b with
  | .showBitmap x y => showBitmap dm scr malloc b x y
  | .stderr _ => []

/-- The check is right, and no store leaves the framebuffer. -/
def MainIsRight (dm : DataModel) (scr : Screen) (b : Bitmap) : Prop :=
  GuardIsRight dm scr b ∧ ∀ malloc, ∀ a ∈ mainAccesses dm scr malloc b,
    a.StoredBelow (scr.pitch.toNat * scr.height.toNat)

/-- With a 64-bit `long` the error is printed for an image larger by two pixels. -/
def Refused (dm : DataModel) (scr : Screen) (b : Bitmap) : Prop :=
  dm = .lp64 ∧ (scr.width.toNat + 1 < b.bmWidth ∨ scr.height.toNat + 1 < b.bmHeight)

/-- The image fits the screen, and its rows end in the framebuffer. -/
structure FitsScreen (dm : DataModel) (scr : Screen) (b : Bitmap) : Prop where
  width : b.bmWidth ≤ scr.width.toNat
  height : b.bmHeight ≤ scr.height.toNat
  rows : RowsEnd dm scr b ((scr.width.toNat - b.bmWidth) / 2) ((scr.height.toNat - b.bmHeight) / 2)
    (rowBytes dm b.bmBitsPixel scr.bitsPerPixel b.bmWidth) (scr.pitch.toNat * scr.height.toNat)

section Guard

variable {dm : DataModel} {scr : Screen} {b : Bitmap} {bm : ℤ}

theorem centre_ilp32 (screen : UInt32) (hpos : 0 < bm) (hlt : bm < 2 ^ 31) :
    0 ≤ centre .ilp32 screen bm ∧ (centre .ilp32 screen bm + bm ≤ screen.toNat ↔
      bm ≤ screen.toNat) := by
  have := screen.toNat_lt
  simp only [centre]
  omega

theorem centre_lp64 (screen : UInt32) (bm : ℤ) :
    (0 ≤ centre .lp64 screen bm ↔ bm ≤ screen.toNat + 1) ∧
      (centre .lp64 screen bm + bm ≤ screen.toNat ↔ bm ≤ screen.toNat) := by
  simp only [centre]
  rcases le_total 0 ((screen.toNat : ℤ) - bm) with h | h
  · rw [Int.tdiv_eq_ediv_of_nonneg h]
    omega
  · have hneg : ((screen.toNat : ℤ) - bm).tdiv 2 = -((bm - screen.toNat) / 2) := by
      rw [← Int.tdiv_eq_ediv_of_nonneg (by omega), ← Int.neg_tdiv]
      congr 1
      omega
    rw [hneg]
    omega

theorem centre_of_le {screen : UInt32} (hpos : 0 < bm) (hle : bm ≤ screen.toNat) :
    centre dm screen bm = (screen.toNat - bm) / 2 := by
  have := screen.toNat_lt
  cases dm with
  | ilp32 =>
    simp only [centre]
    omega
  | lp64 => exact Int.tdiv_eq_ediv_of_nonneg (by omega)

theorem guardIsRight_iff (dm : DataModel) (scr : Screen) (hW : 0 < b.bmWidth)
    (hW' : b.bmWidth < 2 ^ 31) (hH : 0 < b.bmHeight) (hH' : b.bmHeight < 2 ^ 31) :
    GuardIsRight dm scr b ↔
      Refused dm scr b ∨ b.bmWidth ≤ scr.width.toNat ∧ b.bmHeight ≤ scr.height.toNat := by
  unfold GuardIsRight Refused mainShow
  cases dm with
  | ilp32 =>
    obtain ⟨hx, hxle⟩ := centre_ilp32 scr.width hW hW'
    obtain ⟨hy, hyle⟩ := centre_ilp32 scr.height hH hH'
    simp [hx, hy, hxle, hyle]
  | lp64 =>
    obtain ⟨hx, hxle⟩ := centre_lp64 scr.width b.bmWidth
    obtain ⟨hy, hyle⟩ := centre_lp64 scr.height b.bmHeight
    simp only [hx, hy]
    split_ifs with hshow
    · simp only [hx, hy, hxle, hyle]
      omega
    · simp only [true_and]
      omega

theorem mainAccesses_of_refused (h : Refused dm scr b) (malloc : CmapArray → Bool) :
    mainAccesses dm scr malloc b = [] := by
  obtain ⟨rfl, h⟩ := h
  have hneg : ¬(0 ≤ centre .lp64 scr.width b.bmWidth ∧ 0 ≤ centre .lp64 scr.height b.bmHeight) := by
    rw [(centre_lp64 scr.width b.bmWidth).1, (centre_lp64 scr.height b.bmHeight).1]
    omega
  simp [mainAccesses, mainShow, hneg]

theorem mainAccesses_of_le (htype : b.bmType = imageTypeWinbmp) (hW : 0 < b.bmWidth)
    (hH : 0 < b.bmHeight) (hw : b.bmWidth ≤ scr.width.toNat) (hh : b.bmHeight ≤ scr.height.toNat)
    (malloc : CmapArray → Bool) :
    mainAccesses dm scr malloc b = (showWinbmp dm scr b ((scr.width.toNat - b.bmWidth) / 2)
      ((scr.height.toNat - b.bmHeight) / 2) malloc).2 := by
  have hx : 0 ≤ ((scr.width.toNat : ℤ) - b.bmWidth) / 2 := by omega
  have hy : 0 ≤ ((scr.height.toNat : ℤ) - b.bmHeight) / 2 := by omega
  have hshow : mainShow dm scr b = .showBitmap ((scr.width.toNat - b.bmWidth) / 2)
      ((scr.height.toNat - b.bmHeight) / 2) := by
    simp only [mainShow, centre_of_le hW hw, centre_of_le hH hh]
    exact if_pos ⟨hx, hy⟩
  simp only [mainAccesses, hshow, showBitmap, htype, if_true]

/-- What the size check of `main` lets through safely. -/
theorem mainIsRight_iff (dm : DataModel) (scr : Screen) (b : Bitmap)
    (htype : b.bmType = imageTypeWinbmp) (hW : 0 < b.bmWidth) (hW' : b.bmWidth < 2 ^ 31)
    (hH : 0 < b.bmHeight) (hH' : b.bmHeight < 2 ^ 31) :
    MainIsRight dm scr b ↔ Refused dm scr b ∨ FitsScreen dm scr b := by
  rw [MainIsRight, guardIsRight_iff dm scr hW hW' hH hH']
  constructor
  · rintro ⟨href | ⟨hw, hh⟩, hstore⟩
    · exact .inl href
    · -- the stores of a run in which the colour map is allocated
      have h := hstore fun _ => true
      rw [mainAccesses_of_le htype hW hH hw hh, storedBelow_showWinbmp] at h
      · exact .inr ⟨hw, hh, h⟩
      · simp [setColourMap, ite_eq_iff]
  · rintro (href | hfit)
    · refine ⟨.inl href, fun malloc => ?_⟩
      rw [mainAccesses_of_refused href]
      simp
    · refine ⟨.inr ⟨hfit.width, hfit.height⟩, fun malloc => ?_⟩
      rw [mainAccesses_of_le htype hW hH hfit.width hfit.height]
      by_cases hset : b.bmBitsPixel = 8 ∧ setColourMap scr malloc b = none
      · simp [showWinbmp, hset.1, hset.2]
      · exact (storedBelow_showWinbmp fun h8 hmap => hset ⟨h8, hmap⟩).2 hfit.rows

/-- A pixel takes its bytes on the screen, unless it is stored as a 64-bit `LONG`. -/
theorem pixelBytes_le {bpp : UInt32} (hlong : dm = .ilp32 ∨ bpp ≠ 32) :
    pixelBytes dm bpp ≤ bpp.toNat / 8 := by
  unfold pixelBytes
  split_ifs with h8 h16 h24 h32
  · simp [h8]
  · simp [h16]
  · simp [h24]
  · obtain rfl := hlong.resolve_right (not_not.2 h32)
    simp [h32, DataModel.longBytes]
  · exact Nat.zero_le _

theorem rowBytes_le {bpp : UInt32} {W : ℤ} (c : UInt16) (hlong : dm = .ilp32 ∨ bpp ≠ 32)
    (hW : 0 ≤ W) : rowBytes dm c bpp W ≤ bpp.toNat / 8 * W.toNat := by
  have hpixel := Nat.mul_le_mul_right W.toNat (pixelBytes_le hlong)
  unfold rowBytes
  split_ifs with h8 hc h24 h32
  · exact hpixel
  · have hcast : W * 3 = ((3 * W.toNat : ℕ) : ℤ) := by omega
    rw [hcast, h24]
    exact addr_le ..
  · exact Nat.zero_le _
  · exact hpixel
  · exact Nat.zero_le _

theorem le_pitch_fbScreen {visual w h bpp : UInt32} (hbits : w.toNat * bpp.toNat < 2 ^ 32) :
    w.toNat * (bpp.toNat / 8) ≤ (fbScreen visual w h bpp).pitch.toNat := by
  rw [toNat_pitch_fbScreen hbits]
  exact Nat.mul_div_le_mul_div_assoc ..

/-- On a screen as `fb_init` publishes it, with a row of less than `2 ^ 32` bits, every
image that fits has its rows in the framebuffer. -/
theorem fitsScreen_fbScreen {visual w h bpp : UInt32} (hbits : w.toNat * bpp.toNat < 2 ^ 32)
    (hlong : dm = .ilp32 ∨ bpp ≠ 32) (hW : 0 < b.bmWidth) (hw : b.bmWidth ≤ w.toNat)
    (hh : b.bmHeight ≤ h.toNat) : FitsScreen dm (fbScreen visual w h bpp) b := by
  have hx : 0 ≤ ((w.toNat : ℤ) - b.bmWidth) / 2 := by omega
  have hy : 0 ≤ ((h.toNat : ℤ) - b.bmHeight) / 2 := by omega
  have hxW : ((w.toNat : ℤ) - b.bmWidth) / 2 + b.bmWidth ≤ w.toNat := by omega
  have hyH : ((h.toNat : ℤ) - b.bmHeight) / 2 + b.bmHeight ≤ h.toNat := by omega
  exact ⟨hw, hh, rowsEnd_of_pitch hx hy hxW hyH hW.le (le_pitch_fbScreen hbits)
    (rowBytes_le _ hlong hW.le)⟩

end Guard

/-- A black 24-bit image. -/
def blackImage (bmWidth bmHeight : ℤ) : Bitmap :=
  { bmType := imageTypeWinbmp
    bmWidth := bmWidth
    bmHeight := bmHeight
    bmWidthBytes := widthBytes bmWidth 24
    bmPlanes := 1
    bmBitsPixel := 24
    bmPalNum := 0
    bmPalettes := ⟨none, fun _ => ⟨0, 0, 0, 0⟩⟩
    bmBits := ⟨some (bmHeight * widthBytes bmWidth 24).toNat, fun _ => 0⟩ }

theorem mainIsRight_iff_logo :
    MainIsRight .ilp32 (fbScreen 2 640 480 16) (blackImage 320 240) :=
  (mainIsRight_iff .ilp32 (fbScreen 2 640 480 16) (blackImage 320 240) rfl (by decide)
    (by decide) (by decide) (by decide)).2 (.inr (fitsScreen_fbScreen (by decide)
      (.inl rfl) (by decide) (by decide) (by decide)))

theorem not_guardIsRight_wide (dm : DataModel) :
    ¬GuardIsRight dm (fbScreen 2 640 480 16) (blackImage 641 480) := by
  rw [guardIsRight_iff dm _ (by decide) (by decide) (by decide) (by decide)]
  rintro (⟨-, href⟩ | ⟨hw, -⟩)
  · exact absurd href (by decide)
  · exact absurd hw (by decide)

/-- An image wider than the screen by one pixel is shown, under either data model. -/
theorem wide_image_shown :
    ¬MainIsRight .ilp32 (fbScreen 2 640 480 16) (blackImage 641 480) ∧
    ¬MainIsRight .lp64 (fbScreen 2 640 480 16) (blackImage 641 480) :=
  ⟨fun h => not_guardIsRight_wide .ilp32 h.1, fun h => not_guardIsRight_wide .lp64 h.1⟩

end LxToolset
