import Mathlib.Data.Int.Notation
import Mathlib.Data.List.Basic

/-!
# The keyboard test

`keyboard/keyboard-test.c` reads scan codes into an 18-byte buffer and lets
`count_keys` mark the entries of two tables of `keyboard-test.h`. `countKeys` is
`count_keys` on the memory of the buffer, bytes of earlier reads included. It is `none`
where the code indexes a table at 128 or above, or reads past the buffer, which C leaves
undefined. `mainLoop` is the read loop of `main`.
-/

namespace LxToolset

/-- `struct KeyPoint` -/
structure KeyPoint where
  keyname : String
  row : ℕ
  col : ℕ
  isPressed : Bool
  isValid : Bool
  deriving DecidableEq

namespace KeyPoint

/-- An empty entry of a table. -/
def blank : KeyPoint :=
  ⟨"", 0, 0, false, false⟩

/-- An entry whose key is listed for the test. -/
def key (keyname : String) (row col : ℕ) : KeyPoint :=
  ⟨keyname, row, col, false, true⟩

/-- An entry whose key has a name but is not listed. -/
def unlisted (keyname : String) (row col : ℕ) : KeyPoint :=
  ⟨keyname, row, col, false, false⟩

end KeyPoint

section Tables

open KeyPoint

/-- `keys`, eight entries to a row. -/
def keys : List KeyPoint :=
   [blank, key "ESC" 8 1, key "1" 10 1, key "2" 10 9, key "3" 10 15, key "4" 10 21, key "5" 10 27,
    key "6" 10 33,
    key "7" 10 39, key "8" 10 45, key "9" 10 51, key "0" 10 57, key "-" 10 63, key "=" 10 69,
    key "BS" 10 74, key "Tab" 12 1,
    key "Q" 12 8, key "W" 12 14, key "E" 12 20, key "R" 12 26, key "T" 12 32, key "Y" 12 38,
    key "U" 12 44, key "I" 12 50,
    key "O" 12 56, key "P" 12 62, key "[" 12 67, key "]" 12 72, key "Enter" 14 73, key "LCtrl" 18 6,
    key "A" 14 9, key "S" 14 15,
    key "D" 14 21, key "F" 14 27, key "G" 14 33, key "H" 14 39, key "J" 14 45, key "K" 14 51,
    key "L" 14 57, key ";" 14 62,
    key "'" 14 67, key "`" 8 6, key "LShift" 16 1, key "\\" 12 77, key "Z" 16 10, key "X" 16 16,
    key "C" 16 22, key "V" 16 28,
    key "B" 16 34, key "N" 16 40, key "M" 16 46, key "," 16 52, key "." 16 57, key "/" 16 62,
    key "RShift" 16 73, blank,
    key "LAlt" 18 18, key "Space" 18 34, key "Caps" 14 1, key "F1" 8 10, key "F2" 8 14,
    key "F3" 8 19, key "F4" 8 24, key "F5" 8 28,
    key "F6" 8 33, key "F7" 8 37, key "F8" 8 42, key "F9" 8 47, key "F10" 8 52, blank, blank, blank,
    blank, blank, blank, blank, blank, blank, blank, blank,
    blank, blank, blank, blank, blank, blank, blank, key "F11" 8 56,
    unlisted "F12" 0 0, blank, blank, blank, blank, blank, blank, blank,
    blank, blank, blank, blank, blank, blank, blank, blank,
    blank, blank, blank, blank, blank, blank, blank, blank,
    blank, blank, blank, blank, blank, blank, blank, blank,
    blank, blank, blank, blank, blank, blank, blank, blank]

/-- `e0_keys` -/
def e0Keys : List KeyPoint :=
   [blank, blank, blank, blank, blank, blank, blank, blank,
    blank, blank, blank, blank, blank, blank, blank, blank,
    blank, blank, blank, blank, blank, blank, blank, blank,
    blank, blank, blank, blank, blank, unlisted "Pause" 0 0, blank, blank,
    blank, blank, blank, blank, blank, blank, blank, blank,
    blank, blank, unlisted "PrintScreen" 0 0, blank, blank, blank, blank, blank,
    blank, blank, blank, blank, blank, blank, blank, blank,
    key "RAlt" 18 50, blank, blank, blank, blank, blank, blank, blank,
    blank, blank, blank, blank, blank, blank, blank, unlisted "Home" 0 0,
    key "Up" 16 68, key "PgUp" 8 61, blank, key "Left" 18 62, blank, key "Right" 18 74, blank,
    unlisted "End" 0 0,
    key "Down" 18 68, key "PgDn" 8 66, key "Ins" 8 72, key "Del" 8 76, blank, blank, blank, blank,
    blank, blank, blank, key "Menu" 18 12, unlisted "RGui" 0 0, key "Paste" 18 56, blank, blank,
    blank, blank, blank, blank, blank, blank, blank, blank,
    blank, blank, unlisted "Lctrl" 18 8, blank, blank, blank, blank, blank,
    blank, blank, blank, blank, blank, blank, blank, blank,
    blank, blank, blank, blank, blank, blank, blank, blank]

end Tables

/-- `KEYNUMS` -/
def keyNums : ℕ :=
  80

/-- The two tables, `key_count`, and every `mvprintw` of `count_keys` in order : row,
column and text. -/
structure Keyboard where
  keys : List KeyPoint
  e0Keys : List KeyPoint
  keyCount : ℕ
  printed : List (ℕ × ℕ × List UInt8)
  deriving DecidableEq

/-- The tables as compiled in. -/
def Keyboard.initial : Keyboard :=
  ⟨LxToolset.keys, LxToolset.e0Keys, 0, []⟩

/-! ## `count_keys` -/

/-- Which of the two tables a branch of `count_keys` marks. -/
inductive KeyTable where
  | plain
  | e0
  deriving DecidableEq

def Keyboard.table (kb : Keyboard) : KeyTable → List KeyPoint
  | .plain => kb.keys
  | .e0 => kb.e0Keys

def Keyboard.setTable (kb : Keyboard) (t : KeyTable) (l : List KeyPoint) : Keyboard :=
  match t with
  | .plain => { kb with keys := l }
  | .e0 => { kb with e0Keys := l }

/-- `buf1` after its first `m` bytes are set to blanks. -/
def fillBlanks (m : ℕ) (buf1 : List UInt8) : Option (List UInt8) :=
  if m ≤ buf1.length then some (List.replicate m 0x20 ++ buf1.drop m) else none

/-- The body of each branch of `count_keys` : mark entry `ch`, blank its name, count it.
`buf1` is never cut back to the length of the name. -/
def markKey (t : KeyTable) (ch : ℕ) (kb : Keyboard) (buf1 : List UInt8) :
    Option (Keyboard × List UInt8) :=
  match (kb.table t)[ch]? with
  | none => none
  | some k =>
    if !k.isPressed && k.isValid then
      (fillBlanks k.keyname.length buf1).map fun buf1 =>
        ({ kb.setTable t ((kb.table t).set ch { k with isPressed := true }) with
            keyCount := kb.keyCount + 1
            printed := kb.printed ++ [(k.row, k.col, buf1.takeWhile (· ≠ 0))] }, buf1)
    else some (kb, buf1)

/-- Which table the byte `buf[i]` is looked up in, if any. `none` : a read past `buf`. -/
def classify (buf : List UInt8) (i : ℕ) (ch : UInt8) : Option (Option KeyTable) := do
  -- "PauseBreak" key : `buf[i+1]` is read only if `ch == 0x1d`
  let pause ← if ch = 0x1d then (buf[i + 1]?).map (· == 0x45) else some false
  let first ← buf[0]?
  if pause then some (some .e0)
  else if first = 0xe0 then some (some .e0)
  else if ch ≤ 0x7f then some (some .plain)
  else some none

/-- One round of the loop of `count_keys`. -/
def countKey (buf : List UInt8) (i : ℕ) (kb : Keyboard) (buf1 : List UInt8) :
    Option (Keyboard × List UInt8) := do
  let ch ← buf[i]?
  match ← classify buf i ch with
  | some t => markKey t ch.toNat kb buf1
  | none => some (kb, buf1)

/-- The loop of `count_keys` from `i`, with `left` rounds to go. -/
def countLoop (buf : List UInt8) : ℕ → ℕ → Keyboard → List UInt8 → Option Keyboard
  | 0, _, kb, _ => some kb
  | left + 1, i, kb, buf1 => do
    let (kb, buf1) ← countKey buf i kb buf1
    if keyNums < kb.keyCount then some kb else countLoop buf left (i + 1) kb buf1

/-- `count_keys( buf, n )`. Its result is the `keyCount` it leaves. -/
def countKeys (buf : List UInt8) (n : ℤ) (kb : Keyboard) : Option Keyboard :=
  countLoop buf n.toNat 0 kb (List.replicate 18 0)

/-! ## The read loop -/

/-- `read(fd, buf, sizeof(buf))`. `none` is the error result `-1`. -/
def readBuf (buf : List UInt8) : Option (List UInt8) → List UInt8 × ℤ
  | some chunk => (chunk ++ buf.drop chunk.length, chunk.length)
  | none => (buf, -1)

/-- `count_keys` on one buffer after the other. -/
def feed (buf : List UInt8) (kb : Keyboard) : List (Option (List UInt8)) → Option Keyboard
  | [] => some kb
  | r :: rs => do
    let kb ← countKeys (readBuf buf r).1 (readBuf buf r).2 kb
    feed (readBuf buf r).1 kb rs

/-- The read loop of `main` on these reads : whether it reported PASS, and the keyboard. -/
def mainLoop (buf : List UInt8) (kb : Keyboard) :
    List (Option (List UInt8)) → Option (Bool × Keyboard)
  | [] => some (false, kb)
  | r :: rs => do
    let kb ← countKeys (readBuf buf r).1 (readBuf buf r).2 kb
    if keyNums ≤ kb.keyCount then some (true, kb) else mainLoop (readBuf buf r).1 kb rs

end LxToolset
