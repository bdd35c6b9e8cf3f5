import LxToolset.Memory

/-!
# showbitmap

`load_winbmp` reads a BMP file into a `BITMAP` whose fields come from the file's headers
unchecked, and `show_winbmp` copies it to the framebuffer with one loop for each pair of
an image depth and a screen depth. `showWinbmp` lists the memory accesses of the loops in
order : the reads of the image and of the palette and the bytes stored.

Signed arithmetic is reduced where the value meets an unsigned type, a pointer or a
narrower variable; `long` and pointers have the size of the `DataModel`.
-/

namespace LxToolset

open Memory

/-! ## Types -/

inductive DataModel where
  | ilp32
  | lp64
  deriving DecidableEq

/-- The bits of a `long` and of a pointer. -/
def DataModel.longBits : DataModel → ℕ
  | .ilp32 => 32
  | .lp64 => 64

/-- `sizeof(LONG)`. -/
def DataModel.longBytes : DataModel → ℕ
  | .ilp32 => 4
  | .lp64 => 8

structure RgbQuad where
  rgbBlue : UInt8
  rgbGreen : UInt8
  rgbRed : UInt8
  rgbReserved : UInt8
  deriving DecidableEq

/-- A pointer to a block of `size` elements, or NULL (`none`). `mem` is what a read yields
at each index, in the block or not. -/
structure Pointer (α : Type) where
  size : Option ℕ
  mem : ℕ → α

structure Bitmap where
  bmType : ℤ
  bmWidth : ℤ
  bmHeight : ℤ
  bmWidthBytes : ℤ
  bmPlanes : UInt16
  bmBitsPixel : UInt16
  bmPalNum : ℤ
  bmPalettes : Pointer RgbQuad
  bmBits : Pointer UInt8

structure Screen where
  type : UInt32
  visual : UInt32
  width : UInt32
  height : UInt32
  pitch : UInt32
  bitsPerPixel : UInt32
  deriving DecidableEq

/-- `FB_VISUAL_PSEUDOCOLOR` of `linux/fb.h`. -/
def fbVisualPseudocolor : UInt32 := 3

def imageTypeWinbmp : ℤ := 0x1

/-- The `SCREEN` that `fb_init` publishes for a display of this geometry. -/
def fbScreen (visual xres yres bitsPerPixel : UInt32) : Screen :=
  ⟨0, visual, xres, yres, xres * bitsPerPixel / 8, bitsPerPixel⟩

/-- The `pitch` of a row of less than `2 ^ 32` bits. -/
theorem toNat_pitch_fbScreen {visual xres yres bpp : UInt32}
    (hbits : xres.toNat * bpp.toNat < 2 ^ 32) :
    (fbScreen visual xres yres bpp).pitch.toNat = xres.toNat * bpp.toNat / 8 := by
  have hbyte : (8 : UInt32).toNat = 8 := rfl
  rw [fbScreen, UInt32.toNat_div, UInt32.toNat_mul, hbyte, Nat.mod_eq_of_lt hbits]

/-! ## `load_winbmp` -/

/-- The blocks `load_winbmp` allocates. -/
inductive HeapBlock where
  | bitmap
  | palette
  | bits
  deriving DecidableEq

/-- What `load_winbmp` does to its surroundings. -/
inductive LoadEvent where
  | fopen
  | fclose
  | malloc (b : HeapBlock) (size : ℕ)
  | free (b : HeapBlock)
  | stdout (text : String)
  | stderr (text : String)
  deriving DecidableEq

/-- What `load_winbmp` finds : the files, the outcome of each `malloc` with the bytes a new
block holds, the bytes of its two headers on the stack before they are read, and the bytes
a read through NULL would yield. -/
structure LoadEnv where
  fopen : String → Option (List UInt8)
  malloc : HeapBlock → ℕ → Option (ℕ → UInt8)
  stack : ℕ → UInt8
  null : ℕ → UInt8

/-- The fields of `BITMAPFILEHEADER` and `BITMAPINFOHEADER` that are used. -/
structure WinbmpHeader where
  bfType : ℕ
  bfSize : ℕ
  bfOffBits : ℕ
  biWidth : ℤ
  biHeight : ℤ
  biPlanes : UInt16
  biBitCount : UInt16
  deriving DecidableEq

/-- A value stored in a 32-bit `long`. -/
def long32 (z : ℤ) : ℤ :=
  z.bmod (2 ^ 32)

/-- The headers after the three `fread`s : a byte past the end of the file keeps what the
stack held. -/
def readHeader (stack : ℕ → UInt8) (file : List UInt8) : WinbmpHeader :=
  let byte := fun k => (file[k]?).getD (stack k)
  { bfType := word byte 0 2
    bfSize := word byte 2 4
    bfOffBits := word byte 10 4
    biWidth := long32 (word byte 18 4)
    biHeight := long32 (word byte 22 4)
    biPlanes := UInt16.ofNat (word byte 26 2)
    biBitCount := UInt16.ofNat (word byte 28 2) }

/-- A block that held `junk` after `fread` of `size` bytes at `pos`. -/
def fread (file : List UInt8) (pos size : ℕ) (junk : ℕ → UInt8) : ℕ → UInt8 :=
  fun k => if k < size then (file[pos + k]?).getD (junk k) else junk k

/-- `((biWidth+3)/4) * 4 * biBitCount / 8`. -/
def widthBytes (biWidth : ℤ) (biBitCount : UInt16) : ℤ :=
  (long32 ((long32 (biWidth + 3)).tdiv 4 * 4 * biBitCount.toNat)).tdiv 8

/-- `int nums=(bfmHeader.bfOffBits-54)/4`, an unsigned difference. -/
def palNums (bfOffBits : ℕ) : ℕ :=
  addr 32 ((bfOffBits : ℤ) - 54) / 4

/-- `bfSize - bfOffBits`. -/
def bitsSize (h : WinbmpHeader) : ℕ :=
  addr 32 ((h.bfSize : ℤ) - h.bfOffBits)

def quadAt (byte : ℕ → UInt8) (n : ℕ) : RgbQuad :=
  ⟨byte (4 * n), byte (4 * n + 1), byte (4 * n + 2), byte (4 * n + 3)⟩

/-- The position in the file after the palette's `fread`. -/
def palettePos (file : List UInt8) (nums : ℕ) : ℕ :=
  min (min 54 file.length + 4 * nums) file.length

/-- The position after `fseek(fp, bfOffBits, SEEK_SET)`, which fails where the offset is a
negative `long`. -/
def bitsPos (file : List UInt8) (bfOffBits : ℕ) : ℕ :=
  if bfOffBits < 2 ^ 31 then bfOffBits else palettePos file (palNums bfOffBits)

/-- How `load_winbmp` ends; `fault` is a store through NULL. -/
inductive Loaded where
  | null
  | bitmap (b : Bitmap)
  | fault

/-- `bmPalNum` and `bmPalettes` as `load_winbmp` leaves them, `none` after a store through
NULL. The result of the palette's `malloc` is not checked. -/
def loadPalette (env : LoadEnv) (file : List UInt8) (nums : ℕ) :
    Option (ℤ × Pointer RgbQuad) :=
  if 0 < nums then
    match env.malloc .palette (4 * nums) with
    | some junk => some (nums, ⟨some nums, quadAt (fread file 54 (4 * nums) junk)⟩)
    | none => if 54 < file.length then none else some (nums, ⟨none, quadAt env.null⟩)
  else some (0, ⟨none, quadAt env.null⟩)

/-- The `BITMAP` after the assignments from the headers. -/
def newBitmap (h : WinbmpHeader) (palette : ℤ × Pointer RgbQuad) (bits : Pointer UInt8) :
    Bitmap :=
  { bmType := imageTypeWinbmp
    bmWidth := h.biWidth
    bmHeight := h.biHeight
    bmWidthBytes := widthBytes h.biWidth h.biBitCount
    bmPlanes := h.biPlanes
    bmBitsPixel := h.biBitCount
    bmPalNum := palette.1
    bmPalettes := palette.2
    bmBits := bits }

/-- `load_winbmp` once the BITMAP is allocated. -/
def loadBits (env : LoadEnv) (file : List UInt8) (h : WinbmpHeader) : List LoadEvent × Loaded :=
  let nums := palNums h.bfOffBits
  let mallocs := if 0 < nums then [.malloc .palette (4 * nums)] else []
  match loadPalette env file nums with
  | none => (mallocs, .fault)
  | some palette =>
    match env.malloc .bits (bitsSize h) with
    | none => (mallocs ++ [.malloc .bits (bitsSize h), .free .bitmap, .fclose], .null)
    | some junk =>
      (mallocs ++ [.malloc .bits (bitsSize h)],
        .bitmap (newBitmap h palette ⟨some (bitsSize h),
          fread file (bitsPos file h.bfOffBits) (bitsSize h) junk⟩))

/-- `sizeof(BITMAP)`. -/
def sizeofBitmap : ℕ := 32

/-- `load_winbmp` once the headers are read. The `fclose` of the last path is compiled out
with its `#else`. -/
def loadFile (env : LoadEnv) (file : List UInt8) (h : WinbmpHeader) : List LoadEvent × Loaded :=
  if h.bfType ≠ 0x4d42 then ([.stdout "This is not a bmp file\n", .fclose], .null)
  else
    match env.malloc .bitmap sizeofBitmap with
    | none => ([.malloc .bitmap sizeofBitmap, .fclose], .null)
    | some _ =>
      let rest := loadBits env file h
      (.malloc .bitmap sizeofBitmap :: rest.1, rest.2)

/-- `load_winbmp(filename)`. -/
def loadWinbmp (env : LoadEnv) : Option String → List LoadEvent × Loaded
  | none => ([], .null)
  | some filename =>
    match env.fopen filename with
    | none => ([.stderr s!"open bmp file {filename} error!"], .null)
    | some file =>
      let rest := loadFile env file (readHeader env.stack file)
      (.fopen :: rest.1, rest.2)

/-! ## `show_winbmp` -/

/-- A memory access of `show_winbmp`, and its `fb_set_cmap`. Offsets are from `bmBits` and
from the start of the framebuffer. -/
inductive Access where
  | readBits (off : ℕ)
  | readPalette (index : ℕ)
  | store (off : ℕ) (byte : UInt8)
  | setCmap (start : ℕ) (rgb : List (UInt16 × UInt16 × UInt16))

/-- The three arrays of the colour map. -/
inductive CmapArray where
  | red
  | green
  | blue
  deriving DecidableEq

/-- `c<<8 | c`. -/
def wide (c : UInt8) : UInt16 :=
  c.toUInt16 <<< 8 ||| c.toUInt16

/-- The colour map set for a pseudocolour screen; `none` is the return of `-1` when one of
its arrays cannot be allocated. -/
def setColourMap (scr : Screen) (malloc : CmapArray → Bool) (b : Bitmap) : Option (List Access) :=
  if b.bmPalettes.size.isSome ∧ scr.visual = fbVisualPseudocolor then
    if malloc .red ∧ malloc .green ∧ malloc .blue then
      let ns := List.range b.bmPalNum.toNat
      some (ns.map .readPalette ++ [.setCmap 0 (ns.map fun n =>
        let pal := b.bmPalettes.mem n
        (wide pal.rgbRed, wide pal.rgbGreen, wide pal.rgbBlue))])
    else none
  else some []

def Screen.bytespix (scr : Screen) : ℕ :=
  scr.bitsPerPixel.toNat / 8

section Blit

variable (dm : DataModel) (scr : Screen) (b : Bitmap) (x y : ℤ)

/-- `dest - screen->start` in row `i`; the product is taken in `uint32`. -/
def dest (i : ℕ) : ℤ :=
  (i + y) * scr.pitch.toNat % 2 ^ 32 + x * scr.bytespix

/-- `src - pBitmap->bmBits` in row `i`. -/
def src (i : ℕ) : ℤ :=
  (b.bmHeight - i - 1) * b.bmWidthBytes

/-- The image byte at `z`. -/
def Bitmap.byteAt (z : ℤ) : UInt8 :=
  b.bmBits.mem (addr dm.longBits z)

def readAt (z : ℤ) : Access :=
  .readBits (addr dm.longBits z)

/-- `n` bytes of `v` stored at `z`, little endian. -/
def storeAt (z : ℤ) (n v : ℕ) : List Access :=
  (List.range n).map fun (k : ℕ) => .store (addr dm.longBits (z + k)) (byteOf v k)

/-- The loop over the rows. -/
def rows (row : (dest src : ℤ) → List Access) : List Access :=
  (List.range b.bmHeight.toNat).flatMap fun i => row (dest scr x y i) (src b i)

/-- The loop over the columns of a row. -/
def columns (pixel : (j : ℕ) → List Access) : List Access :=
  (List.range b.bmWidth.toNat).flatMap pixel

def rgb332 (blue green red : UInt8) : ℕ :=
  (blue.toNat >>> 5) ||| ((green.toNat >>> 5) <<< 3) ||| ((red.toNat >>> 6) <<< 6)

def rgb565 (low mid high : UInt8) : ℕ :=
  (low.toNat >>> 3) ||| ((mid.toNat >>> 2) <<< 5) ||| ((high.toNat >>> 3) <<< 11)

def rgb888 (blue green red : UInt8) : ℕ :=
  blue.toNat ||| (green.toNat <<< 8) ||| (red.toNat <<< 16)

/-- A pixel of an 8-bit image, stored as `pixel` of its palette entry. -/
def indexed (src : ℤ) (pixel : RgbQuad → List Access) : List Access :=
  readAt dm src :: .readPalette (b.byteAt dm src).toNat ::
    pixel (b.bmPalettes.mem (b.byteAt dm src).toNat)

/-- A pixel of a 24-bit image, stored as `pixel` of its three bytes. -/
def trueColour (src : ℤ) (pixel : (c₀ c₁ c₂ : UInt8) → List Access) : List Access :=
  readAt dm src :: readAt dm (src + 1) :: readAt dm (src + 2) ::
    pixel (b.byteAt dm src) (b.byteAt dm (src + 1)) (b.byteAt dm (src + 2))

/-! The seven loops, by the bits of a pixel of the image and of the screen. -/

def blit8to8 : List Access :=
  rows scr b x y fun dest src => columns b fun j =>
    readAt dm (src + j) :: storeAt dm (dest + j) 1 (b.byteAt dm (src + j)).toNat

def blit8to16 : List Access :=
  rows scr b x y fun dest src => columns b fun j => indexed dm b (src + j) fun rgba =>
    storeAt dm (dest + 2 * j) 2 (rgb565 rgba.rgbBlue rgba.rgbGreen rgba.rgbRed)

def blit8to24 : List Access :=
  rows scr b x y fun dest src => columns b fun j => indexed dm b (src + j) fun rgba =>
    storeAt dm (dest + j * 3) 1 rgba.rgbBlue.toNat ++
    storeAt dm (dest + j * 3 + 1) 1 rgba.rgbGreen.toNat ++
    storeAt dm (dest + j * 3 + 2) 1 rgba.rgbRed.toNat

/-- The pixel is stored as a `LONG`. -/
def blit8to32 : List Access :=
  rows scr b x y fun dest src => columns b fun j => indexed dm b (src + j) fun rgba =>
    storeAt dm (dest + dm.longBytes * j) dm.longBytes
      (rgb888 rgba.rgbBlue rgba.rgbGreen rgba.rgbRed)

def blit24to8 : List Access :=
  rows scr b x y fun dest src => columns b fun j => trueColour dm b (src + j * 3) fun c₀ c₁ c₂ =>
    storeAt dm (dest + j) 1 (rgb332 c₀ c₁ c₂)

/-- Byte 2 of the pixel goes to the low bits. -/
def blit24to16 : List Access :=
  rows scr b x y fun dest src => columns b fun j => trueColour dm b (src + j * 3) fun c₀ c₁ c₂ =>
    storeAt dm (dest + 2 * j) 2 (rgb565 c₂ c₁ c₀)

/-- `memcpy(dest, src, pBitmap->bmWidth * bytespix)`. -/
def blit24to24 : List Access :=
  rows scr b x y fun dest src =>
    (List.range (addr dm.longBits (b.bmWidth * scr.bytespix))).flatMap fun (k : ℕ) =>
      readAt dm (src + k) :: storeAt dm (dest + k) 1 (b.byteAt dm (src + k)).toNat

/-- `show_winbmp(pBitmap, x, y)` of a non-NULL BITMAP : its result and its accesses. -/
def showWinbmp (malloc : CmapArray → Bool) : ℤ × List Access :=
  if b.bmBitsPixel = 8 then
    match setColourMap scr malloc b with
    | none => (-1, [])
    | some cmap =>
      (0, cmap ++
        if scr.bitsPerPixel = 8 then blit8to8 dm scr b x y
        else if scr.bitsPerPixel = 16 then blit8to16 dm scr b x y
        else if scr.bitsPerPixel = 24 then blit8to24 dm scr b x y
        else if scr.bitsPerPixel = 32 then blit8to32 dm scr b x y
        else [])
  else if b.bmBitsPixel = 24 then
    (0,
      if scr.bitsPerPixel = 8 then blit24to8 dm scr b x y
      else if scr.bitsPerPixel = 16 then blit24to16 dm scr b x y
      else if scr.bitsPerPixel = 24 then blit24to24 dm scr b x y
      else [])
  else (0, [])

end Blit

/-- The stores among the accesses. -/
def stores (as : List Access) : List (ℕ × UInt8) :=
  as.filterMap fun
    | .store off byte => some (off, byte)
    | _ => none

/-! ## `main` -/

/-- What `main` does with a BITMAP on this screen. -/
inductive Shown where
  | showBitmap (x y : ℤ)
  | stderr (text : String)
  deriving DecidableEq

/-- `(width - bmWidth)/2` : unsigned where `long` has 32 bits, signed where it has 64. -/
def centre (dm : DataModel) (screen : UInt32) (bm : ℤ) : ℤ :=
  match dm with
  | .ilp32 => (((screen.toNat : ℤ) - bm) % 2 ^ 32) / 2
  | .lp64 => ((screen.toNat : ℤ) - bm).tdiv 2

/-- The size error; `%d` prints the low 32 bits as a signed number. -/
def sizeError (scr : Screen) (b : Bitmap) : String :=
  s!"Error: screen ({long32 scr.width.toNat}x{long32 scr.height.toNat}) < bitmap ({long32 b.bmWidth}x{long32 b.bmHeight})\n"

def mainShow (dm : DataModel) (scr : Screen) (b : Bitmap) : Shown :=
  let x := centre dm scr.width b.bmWidth
  let y := centre dm scr.height b.bmHeight
  if 0 ≤ x ∧ 0 ≤ y then .showBitmap x y else .stderr (sizeError scr b)

/-- `show_bitmap` : images of another type only get a message. -/
def showBitmap (dm : DataModel) (scr : Screen) (malloc : CmapArray → Bool) (b : Bitmap)
    (x y : ℤ) : List Access :=
  if b.bmType = imageTypeWinbmp then (showWinbmp dm scr b x y malloc).2 else []

end LxToolset
