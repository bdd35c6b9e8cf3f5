import LxToolset.ShowBitmapReads

/-!
# The rows of a loaded image

`load_winbmp` rounds the width of an image to a multiple of four pixels, a BMP file its rows
to a multiple of four bytes. `loadWinbmp_pixels_iff` says for which files the pixels are
found where `show_winbmp` looks for them : those of 8 bits a pixel, those of 24 bits whose
width leaves 0 or 3 when it is divided by four, and those of one row, short of an overflow.
-/

namespace LxToolset

open Memory

/-! ## The file format -/

/-- The geometry of an image in a BMP file. -/
structure BmpLayout where
  width : ℕ
  height : ℕ
  bitCount : ℕ
  offBits : ℕ

/-- The bytes of a row, padded to a multiple of four. -/
def BmpLayout.rowSize (g : BmpLayout) : ℕ :=
  (g.width * g.bitCount + 31) / 32 * 4

/-- Where the pixel in column `j` of row `i` from the top begins : the rows are stored from
the bottom up. -/
def BmpLayout.pixelPos (g : BmpLayout) (i j : ℕ) : ℕ :=
  g.offBits + (g.height - 1 - i) * g.rowSize + j * (g.bitCount / 8)

def fileByte (file : List UInt8) (k : ℕ) : UInt8 :=
  (file[k]?).getD 0

theorem fileByte_set_self {file : List UInt8} {k : ℕ} (hk : k < file.length) (v : UInt8) :
    fileByte (file.set k v) k = v := by
  rw [fileByte, List.getElem?_set_self hk, Option.getD_some]

theorem fileByte_set_ne {file : List UInt8} {k l : ℕ} (h : k ≠ l) (v : UInt8) :
    fileByte (file.set k v) l = fileByte file l := by
  rw [fileByte, fileByte, List.getElem?_set_ne h]

/-- A BMP file of 8 or 24 bits a pixel, uncompressed and bottom-up. -/
structure WellFormedBmp (file : List UInt8) (g : BmpLayout) : Prop where
  type : word (fileByte file) 0 2 = 0x4d42
  size : word (fileByte file) 2 4 = file.length
  offBits : word (fileByte file) 10 4 = g.offBits
  offBits_ge : 54 ≤ g.offBits
  infoSize : word (fileByte file) 14 4 = 40
  width : word (fileByte file) 18 4 = g.width
  width_range : 1 ≤ g.width ∧ g.width < 2 ^ 31
  height : word (fileByte file) 22 4 = g.height
  height_range : 1 ≤ g.height ∧ g.height < 2 ^ 31
  planes : word (fileByte file) 26 2 = 1
  bitCount : word (fileByte file) 28 2 = g.bitCount
  depth : g.bitCount = 8 ∨ g.bitCount = 24
  compression : word (fileByte file) 30 4 = 0
  rows : g.offBits + g.height * g.rowSize ≤ file.length

/-- The headers of such a file of this many bytes. -/
def BmpLayout.header (g : BmpLayout) (bfSize : ℕ) : WinbmpHeader :=
  ⟨0x4d42, bfSize, g.offBits, g.width, g.height, 1, UInt16.ofNat g.bitCount⟩

/-- The pixels of the file are in the block of `bmBits` where `show_winbmp` looks for them. -/
def Bitmap.HasPixels (b : Bitmap) (file : List UInt8) (g : BmpLayout) : Prop :=
  ∀ i < g.height, ∀ j < g.width, ∀ k < g.bitCount / 8, ∃ n ∈ b.bmBits.size, ∃ q < n,
    (q : ℤ) = (b.bmHeight - 1 - i) * b.bmWidthBytes + j * b.bmBitsPixel.toNat / 8 + k ∧
      b.bmBits.mem q = fileByte file (g.pixelPos i j + k)

/-- Whenever `load_winbmp` returns a BITMAP for the file, it has its pixels. -/
def LoadsPixels (file : List UInt8) (g : BmpLayout) : Prop :=
  ∀ env name b, env.fopen name = some file → (loadWinbmp env (some name)).2 = .bitmap b →
    b.HasPixels file g

/-- The rows are as long in the file as `load_winbmp` takes them, or there is only one, and
`fseek` gets to the first. -/
structure BmpLayout.RowsFound (g : BmpLayout) : Prop where
  first : g.offBits < 2 ^ 31 ∨ g.offBits % 4 = 2
  rows : g.height = 1 ∨ (g.width + 3) / 4 * 4 * g.bitCount < 2 ^ 31 ∧
    (g.bitCount = 8 ∨ g.width % 4 = 0 ∨ g.width % 4 = 3)

/-! ## What is loaded -/

theorem word_congr {f f' : ℕ → UInt8} {k n : ℕ} (h : ∀ i < n, f (k + i) = f' (k + i)) :
    word f k n = word f' k n := by
  induction n with
  | zero => rfl
  | succ n ih => rw [word_succ, word_succ, ih fun i hi => h i (by omega), h n (by omega)]

section Loaded

variable {env : LoadEnv} {file : List UInt8} {head : WinbmpHeader} {b : Bitmap} {name : String}

theorem loadBits_eq_bitmap (hb : (loadBits env file head).2 = .bitmap b) :
    ∃ palette junk, b = newBitmap head palette ⟨some (bitsSize head),
      fread file (bitsPos file head.bfOffBits) (bitsSize head) junk⟩ := by
  simp only [loadBits] at hb
  cases hpal : loadPalette env file (palNums head.bfOffBits) with
  | none => simp [hpal] at hb
  | some palette =>
    cases hbits : env.malloc .bits (bitsSize head) with
    | none => simp [hpal, hbits] at hb
    | some junk =>
      simp only [hpal, hbits, Loaded.bitmap.injEq] at hb
      exact ⟨palette, junk, hb.symm⟩

theorem loadFile_eq_bitmap (hb : (loadFile env file head).2 = .bitmap b) :
    (loadBits env file head).2 = .bitmap b := by
  have htype : head.bfType = 0x4d42 := by
    by_contra htype
    simp [loadFile, htype] at hb
  cases hbmp : env.malloc .bitmap sizeofBitmap with
  | none => simp [loadFile, htype, hbmp] at hb
  | some mem => simpa [loadFile, htype, hbmp] using hb

/-- The BITMAP of a file, whatever it holds. -/
theorem loadWinbmp_eq_bitmap (hopen : env.fopen name = some file)
    (hb : (loadWinbmp env (some name)).2 = .bitmap b) :
    ∃ palette junk, b = newBitmap (readHeader env.stack file) palette
      ⟨some (bitsSize (readHeader env.stack file)),
        fread file (bitsPos file (readHeader env.stack file).bfOffBits)
          (bitsSize (readHeader env.stack file)) junk⟩ := by
  rw [loadWinbmp] at hb
  simp only [hopen] at hb
  exact loadBits_eq_bitmap (loadFile_eq_bitmap hb)

theorem exists_loadPalette (file : List UInt8) (nums : ℕ) :
    ∃ palette, loadPalette (plainEnv file) file nums = some palette := by
  by_cases hn : 0 < nums
  · exact ⟨_, if_pos hn⟩
  · exact ⟨_, if_neg hn⟩

/-- Where every `malloc` succeeds, a BITMAP is returned. -/
theorem exists_loadFile (file : List UInt8) (htype : head.bfType = 0x4d42) :
    ∃ b, (loadFile (plainEnv file) file head).2 = .bitmap b := by
  obtain ⟨palette, hpalette⟩ := exists_loadPalette file (palNums head.bfOffBits)
  have hmalloc : ∀ b n, (plainEnv file).malloc b n = some fun _ => 0 := fun _ _ => rfl
  simp [loadFile, htype, hmalloc, loadBits, hpalette]

end Loaded

section WellFormed

variable {file : List UInt8} {g : BmpLayout} (h : WellFormedBmp file g)

include h

theorem WellFormedBmp.length_lt : file.length < 2 ^ 32 := by
  have hlt := word_lt (fileByte file) 2 4
  rw [h.size] at hlt
  omega

/-- Whatever the stack held. -/
theorem WellFormedBmp.readHeader_eq (stack : ℕ → UInt8) :
    readHeader stack file = g.header file.length := by
  have hlen := h.rows
  have hoff := h.offBits_ge
  have hbyte : ∀ k n, k + n ≤ 54 →
      word (fun k => (file[k]?).getD (stack k)) k n = word (fileByte file) k n := fun k n hk =>
    word_congr fun i hi => by
      rw [fileByte, List.getElem?_eq_getElem (by omega), Option.getD_some, Option.getD_some]
  have hlong : ∀ n : ℕ, n < 2 ^ 31 → long32 n = n := fun n hn => by
    rw [long32, Int.bmod_eq_of_le] <;> omega
  simp only [readHeader]
  rw [hbyte 0 2 (by omega), hbyte 2 4 (by omega), hbyte 10 4 (by omega), hbyte 18 4 (by omega),
    hbyte 22 4 (by omega), hbyte 26 2 (by omega), hbyte 28 2 (by omega), h.type, h.size,
    h.offBits, h.width, h.height, h.planes, h.bitCount, hlong _ h.width_range.2,
    hlong _ h.height_range.2]
  rfl

theorem WellFormedBmp.bitsSize_eq :
    bitsSize (g.header file.length) = file.length - g.offBits := by
  have hlen := h.rows
  have hlt := h.length_lt
  have hsize : (file.length : ℤ) - g.offBits = (file.length - g.offBits : ℕ) := by omega
  rw [bitsSize, BmpLayout.header, hsize]
  exact addr_of_lt (by omega)

theorem WellFormedBmp.bitsPos_eq : bitsPos file g.offBits =
    if g.offBits < 2 ^ 31 then g.offBits else g.offBits - (g.offBits - 54) % 4 := by
  have hoff := h.offBits_ge
  have hlen := h.rows
  have hlt := h.length_lt
  have hnums : palNums g.offBits = (g.offBits - 54) / 4 := by
    rw [palNums, show (g.offBits : ℤ) - 54 = (g.offBits - 54 : ℕ) by omega, addr_of_lt (by omega)]
  rw [bitsPos, palettePos, hnums]
  split_ifs <;> omega

/-- The block of `bmBits` holds the file from `bitsPos` on. -/
theorem WellFormedBmp.loaded {env : LoadEnv} {name : String} {b : Bitmap}
    (hopen : env.fopen name = some file) (hb : (loadWinbmp env (some name)).2 = .bitmap b) :
    b.bmHeight = g.height ∧ b.bmWidthBytes = widthBytes g.width (UInt16.ofNat g.bitCount) ∧
    b.bmBitsPixel = UInt16.ofNat g.bitCount ∧
    b.bmBits.size = some (file.length - g.offBits) ∧
    ∀ q < file.length - g.offBits,
      b.bmBits.mem q = fileByte file (bitsPos file g.offBits + q) := by
  have hlen := h.rows
  have hpos : bitsPos file g.offBits ≤ g.offBits := by
    rw [h.bitsPos_eq]
    split_ifs <;> omega
  obtain ⟨palette, junk, rfl⟩ := loadWinbmp_eq_bitmap hopen hb
  rw [h.readHeader_eq]
  simp only [newBitmap, h.bitsSize_eq]
  simp only [BmpLayout.header, fread, true_and]
  intro q hq
  rw [if_pos hq, fileByte, List.getElem?_eq_getElem (by omega), Option.getD_some,
    Option.getD_some]

theorem WellFormedBmp.exists_loaded :
    ∃ b, (loadWinbmp (plainEnv file) (some "")).2 = .bitmap b := by
  have htype : (readHeader (plainEnv file).stack file).bfType = 0x4d42 := by
    rw [h.readHeader_eq]
    rfl
  exact exists_loadFile file htype

/-- Other pixels leave a file well formed. -/
theorem WellFormedBmp.congr {file' : List UInt8} (hlen : file'.length = file.length)
    (hhead : ∀ k < g.offBits, file'[k]? = file[k]?) : WellFormedBmp file' g := by
  have hoff := h.offBits_ge
  have hword : ∀ k n, k + n ≤ 54 → word (fileByte file') k n = word (fileByte file) k n :=
    fun k n hk => word_congr fun i hi => by rw [fileByte, fileByte, hhead _ (by omega)]
  refine ⟨?_, ?_, ?_, hoff, ?_, ?_, h.width_range, ?_, h.height_range, ?_, ?_, h.depth, ?_, ?_⟩
  · rw [hword 0 2 (by omega), h.type]
  · rw [hword 2 4 (by omega), h.size, hlen]
  · rw [hword 10 4 (by omega), h.offBits]
  · rw [hword 14 4 (by omega), h.infoSize]
  · rw [hword 18 4 (by omega), h.width]
  · rw [hword 22 4 (by omega), h.height]
  · rw [hword 26 2 (by omega), h.planes]
  · rw [hword 28 2 (by omega), h.bitCount]
  · rw [hword 30 4 (by omega), h.compression]
  · rw [hlen]
    exact h.rows

end WellFormed

/-! ## The rounding -/

theorem long32_of_lt {n : ℕ} (hn : n < 2 ^ 31) : long32 n = n := by
  rw [long32, Int.bmod_eq_of_le] <;> omega

/-- The quotient of a multiple of eight that is stored in a `long`. -/
theorem eight_mul_long32_tdiv {n : ℕ} :
    8 * (long32 (8 * n : ℕ)).tdiv 8 = long32 (8 * n : ℕ) := by
  have hdvd : (8 : ℤ) ∣ long32 (8 * n : ℕ) := by
    rw [long32, Int.bmod_def]
    split_ifs <;> omega
  exact Int.mul_tdiv_cancel' hdvd

/-- The row distance that `load_winbmp` stores is that of the format. -/
theorem widthBytes_eq_iff {g : BmpLayout} (hdepth : g.bitCount = 8 ∨ g.bitCount = 24)
    (hlt : 2 * g.rowSize + 54 ≤ 2 ^ 32) :
    widthBytes g.width (UInt16.ofNat g.bitCount) = g.rowSize ↔
      (g.width + 3) / 4 * 4 * g.bitCount < 2 ^ 31 ∧
        (g.bitCount = 8 ∨ g.width % 4 = 0 ∨ g.width % 4 = 3) := by
  obtain ⟨w, height, bits, off⟩ := g
  obtain ⟨c, hc, rfl⟩ : ∃ c, (c = 1 ∨ c = 3) ∧ bits = 8 * c := by
    rcases hdepth with hd | hd
    · exact ⟨1, .inl rfl, hd⟩
    · exact ⟨3, .inr rfl, hd⟩
  simp only [BmpLayout.rowSize] at hlt ⊢
  have hround : (long32 ((w : ℤ) + 3)).tdiv 4 = ((w + 3) / 4 : ℕ) := by
    have hw : w + 3 < 2 ^ 31 := by rcases hc with rfl | rfl <;> omega
    rw [show (w : ℤ) + 3 = (w + 3 : ℕ) by omega, long32_of_lt hw]
    rfl
  have hcount : ((UInt16.ofNat (8 * c)).toNat : ℤ) = 8 * c := by rcases hc with rfl | rfl <;> rfl
  have hprod : (((w + 3) / 4 : ℕ) : ℤ) * 4 * (8 * c) = (8 * ((w + 3) / 4 * 4 * c) : ℕ) := by
    rcases hc with rfl | rfl <;> omega
  have htdiv := eight_mul_long32_tdiv (n := (w + 3) / 4 * 4 * c)
  rw [widthBytes, hround, hcount, hprod]
  generalize Int.tdiv _ 8 = q at htdiv ⊢
  rw [long32, Int.bmod_def] at htdiv
  have hmod : w % 4 = 0 ∨ w % 4 = 1 ∨ w % 4 = 2 ∨ w % 4 = 3 := by omega
  split_ifs at htdiv <;> rcases hc with rfl | rfl <;> rcases hmod with hm | hm | hm | hm <;> omega

/-! ## The pixels -/

section Pixels

variable {file : List UInt8} {g : BmpLayout} (h : WellFormedBmp file g)

include h

/-- A pixel in the file is behind the headers, in a row that ends in the file. -/
theorem WellFormedBmp.pixelPos_lt {i j k : ℕ} (hi : i < g.height) (hj : j < g.width)
    (hk : k < g.bitCount / 8) :
    (g.height - 1 - i) * g.rowSize + j * (g.bitCount / 8) + k < file.length - g.offBits := by
  have hlen := h.rows
  have hrow : (g.height - 1 - i) * g.rowSize + g.rowSize ≤ g.height * g.rowSize := by
    rw [← Nat.succ_mul]
    exact Nat.mul_le_mul_right _ (by omega)
  have hcol : j * (g.bitCount / 8) + k < g.rowSize := by
    rw [BmpLayout.rowSize]
    rcases h.depth with hd | hd <;> rw [hd] at hk ⊢ <;> omega
  omega

theorem WellFormedBmp.widthBytes_iff (hone : g.height ≠ 1) :
    widthBytes g.width (UInt16.ofNat g.bitCount) = g.rowSize ↔
      (g.width + 3) / 4 * 4 * g.bitCount < 2 ^ 31 ∧
        (g.bitCount = 8 ∨ g.width % 4 = 0 ∨ g.width % 4 = 3) := by
  have hlen := h.rows
  have hlt := h.length_lt
  have hoff := h.offBits_ge
  have hrows : 2 * g.rowSize ≤ g.height * g.rowSize :=
    Nat.mul_le_mul_right _ (by have := h.height_range.1; omega)
  exact widthBytes_eq_iff h.depth (by omega)

/-- Where `show_winbmp` looks for a byte of a pixel. -/
theorem WellFormedBmp.hasPixels_iff {env : LoadEnv} {name : String} {b : Bitmap}
    (hopen : env.fopen name = some file) (hb : (loadWinbmp env (some name)).2 = .bitmap b) :
    b.HasPixels file g ↔ ∀ i < g.height, ∀ j < g.width, ∀ k < g.bitCount / 8,
      ∃ q < file.length - g.offBits,
        (q : ℤ) = (g.height - 1 - i : ℕ) * widthBytes g.width (UInt16.ofNat g.bitCount) +
          j * (g.bitCount / 8 : ℕ) + k ∧
        fileByte file (bitsPos file g.offBits + q) = fileByte file (g.pixelPos i j + k) := by
  obtain ⟨hheight, hwidth, hbits, hsize, hmem⟩ := h.loaded hopen hb
  have hcol : ∀ j : ℕ, (j * b.bmBitsPixel.toNat / 8 : ℤ) = j * (g.bitCount / 8 : ℕ) := by
    intro j
    rw [hbits]
    rcases h.depth with hd | hd <;> simp [hd]
    omega
  refine forall_congr' fun i => forall_congr' fun hi => forall_congr' fun j =>
    forall_congr' fun _ => forall_congr' fun k => forall_congr' fun _ => ?_
  have hrow : b.bmHeight - 1 - i = (g.height - 1 - i : ℕ) := by omega
  simp only [hsize, Option.mem_some_iff, exists_eq_left', hrow, hwidth, hcol]
  refine exists_congr fun q => and_congr_right fun hq => ?_
  rw [hmem q hq]

/-- Only the row distance and the start of the rows matter. -/
theorem WellFormedBmp.loadsPixels_of_found (hfound : g.RowsFound) : LoadsPixels file g := by
  intro env name b hopen hb
  rw [h.hasPixels_iff hopen hb]
  intro i hi j hj k hk
  have hpos : bitsPos file g.offBits = g.offBits := by
    have hoff := h.offBits_ge
    have hfirst := hfound.first
    rw [h.bitsPos_eq]
    split_ifs <;> omega
  have hrow : ((g.height - 1 - i : ℕ) : ℤ) * widthBytes g.width (UInt16.ofNat g.bitCount) =
      ((g.height - 1 - i) * g.rowSize : ℕ) := by
    by_cases hone : g.height = 1
    · rw [show g.height - 1 - i = 0 by omega, Nat.cast_zero, zero_mul, zero_mul, Nat.cast_zero]
    · rw [(h.widthBytes_iff hone).2 (hfound.rows.resolve_left hone), Nat.cast_mul]
  generalize widthBytes g.width (UInt16.ofNat g.bitCount) = bytes at hrow ⊢
  refine ⟨_, h.pixelPos_lt hi hj hk, ?_, ?_⟩
  · rw [hrow]
    omega
  · rw [hpos, BmpLayout.pixelPos]
    congr 1
    omega

/-- With other pixels in the file, what is read shows from where. -/
theorem WellFormedBmp.pos_of_loadsPixels (hload : ∀ file', file'.length = file.length →
    (∀ k < g.offBits, file'[k]? = file[k]?) → LoadsPixels file' g)
    {i : ℕ} (hi : i < g.height) :
    ((bitsPos file g.offBits : ℕ) : ℤ) +
      (g.height - 1 - i : ℕ) * widthBytes g.width (UInt16.ofNat g.bitCount) =
      g.offBits + ((g.height - 1 - i) * g.rowSize : ℕ) := by
  have hwidth : 0 < g.width := h.width_range.1
  have hdepth : 0 < g.bitCount / 8 := by rcases h.depth with hd | hd <;> omega
  have hlt := h.pixelPos_lt hi hwidth hdepth
  have hread : ∀ file', file'.length = file.length → (∀ k < g.offBits, file'[k]? = file[k]?) →
      ∃ q : ℕ, (q : ℤ) =
        (g.height - 1 - i : ℕ) * widthBytes g.width (UInt16.ofNat g.bitCount) ∧
        fileByte file' (bitsPos file g.offBits + q) = fileByte file' (g.pixelPos i 0) := by
    intro file' hlen hhead
    have h' := h.congr hlen hhead
    obtain ⟨b, hb⟩ := h'.exists_loaded
    obtain ⟨q, -, hq, hbyte⟩ :=
      (h'.hasPixels_iff rfl hb).1 (hload file' hlen hhead _ _ b rfl hb) i hi 0 hwidth 0 hdepth
    rw [h'.bitsPos_eq, ← h.bitsPos_eq] at hbyte
    exact ⟨q, by simpa using hq, hbyte⟩
  obtain ⟨q, hq, -⟩ := hread file rfl fun _ _ => rfl
  have hpos : g.pixelPos i 0 = g.offBits + (g.height - 1 - i) * g.rowSize := by
    rw [BmpLayout.pixelPos, Nat.zero_mul, Nat.add_zero]
  have hplace : bitsPos file g.offBits + q = g.pixelPos i 0 := by
    by_contra hne
    -- change the pixel, not the byte that is read for it
    have hset := hread (file.set (g.pixelPos i 0) (fileByte file (bitsPos file g.offBits + q) + 1))
      List.length_set fun k hk => List.getElem?_set_ne (by omega)
    obtain ⟨q', hq', hbyte⟩ := hset
    obtain rfl : q' = q := by omega
    rw [fileByte_set_ne (Ne.symm hne), fileByte_set_self (by omega)] at hbyte
    exact absurd hbyte (by simp)
  rw [← hq]
  omega

/-- The start of the rows is that of the row at the bottom, their distance that of the two
rows there. -/
theorem WellFormedBmp.found_of_loadsPixels (hload : ∀ file', file'.length = file.length →
    (∀ k < g.offBits, file'[k]? = file[k]?) → LoadsPixels file' g) : g.RowsFound := by
  have hheight := h.height_range.1
  have hpos := h.pos_of_loadsPixels hload (show g.height - 1 < g.height by omega)
  rw [show g.height - 1 - (g.height - 1) = 0 by omega, Nat.cast_zero, zero_mul, zero_mul,
    Nat.cast_zero, h.bitsPos_eq] at hpos
  have hfirst : g.offBits < 2 ^ 31 ∨ g.offBits % 4 = 2 := by
    have hoff := h.offBits_ge
    split_ifs at hpos <;> omega
  refine ⟨hfirst, or_iff_not_imp_left.2 fun hone => (h.widthBytes_iff hone).1 ?_⟩
  have hrow := h.pos_of_loadsPixels hload (show g.height - 2 < g.height by omega)
  rw [show g.height - 1 - (g.height - 2) = 1 by omega, Nat.cast_one, one_mul, one_mul,
    h.bitsPos_eq] at hrow
  omega

end Pixels

/-- For which headers the pixels are found, whatever they are. -/
theorem loadWinbmp_pixels_iff {file : List UInt8} {g : BmpLayout} (h : WellFormedBmp file g) :
    (∀ file', file'.length = file.length → (∀ k < g.offBits, file'[k]? = file[k]?) →
      LoadsPixels file' g) ↔ g.RowsFound :=
  ⟨h.found_of_loadsPixels, fun hfound _ hlen hhead =>
    (h.congr hlen hhead).loadsPixels_of_found hfound⟩

/-- A BMP file of 24 bits a pixel, three pixels wide and two high : two rows of twelve bytes. -/
def wideFile : List UInt8 :=
  [0x42, 0x4d, 78, 0, 0, 0, 0, 0, 0, 0, 54, 0, 0, 0,
    40, 0, 0, 0, 3, 0, 0, 0, 2, 0, 0, 0, 1, 0, 24, 0, 0, 0, 0, 0,
    24, 0, 0, 0, 0, 0, 0, 0, 0, 0, 0, 0, 0, 0, 0, 0, 0, 0, 0, 0,
    1, 2, 3, 4, 5, 6, 7, 8, 9, 0, 0, 0, 11, 12, 13, 14, 15, 16, 17, 18, 19, 0, 0, 0]

theorem wideFile_wellFormed : WellFormedBmp wideFile ⟨3, 2, 24, 54⟩ :=
  ⟨by decide, by decide, by decide, by decide, by decide, by decide, by decide, by decide,
    by decide, by decide, by decide, by decide, by decide, by decide⟩

theorem loadWinbmp_pixels_iff_wide : WellFormedBmp wideFile ⟨3, 2, 24, 54⟩ ∧
    LoadsPixels wideFile ⟨3, 2, 24, 54⟩ :=
  ⟨wideFile_wellFormed, (loadWinbmp_pixels_iff wideFile_wellFormed).2
    ⟨.inl (by decide), .inr ⟨by decide, .inr (.inr rfl)⟩⟩ wideFile rfl fun _ _ => rfl⟩

theorem thinFile_wellFormed : WellFormedBmp thinFile ⟨1, 2, 24, 54⟩ :=
  ⟨by decide, by decide, by decide, by decide, by decide, by decide, by decide, by decide,
    by decide, by decide, by decide, by decide, by decide, by decide⟩

/-- The top row of `thinFile` begins at byte 4, and is looked for at byte 12. -/
theorem loadWinbmp_not_pixels : ¬∀ file g, WellFormedBmp file g → LoadsPixels file g := by
  intro hall
  have h := thinFile_wellFormed
  obtain ⟨b, hb⟩ := h.exists_loaded
  obtain ⟨q, hq, hpos, -⟩ := (h.hasPixels_iff rfl hb).1 (hall _ _ h _ _ b rfl hb) 0 (by decide) 0
    (by decide) 0 (by decide)
  have hwidth : widthBytes (1 : ℕ) (UInt16.ofNat 24) = 12 := by decide
  have hlen : thinFile.length = 62 := rfl
  simp only [hwidth] at hpos
  simp only [hlen] at hq
  omega

end LxToolset
