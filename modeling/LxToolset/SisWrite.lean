import LxToolset.SisRows

/-!
# sis_dump_regs : writing the registers of a SiS chip

`cmd_write` walks the registers as `cmd_read` does. It shows each one, reads a number with
`fscanf` until a conversion succeeds or the input ends, and writes `value` to the address
shown plus `j`, a local variable that is never set.

A computation is `none` if it does not return within the attempts it is given for each
prompt.
-/

namespace LxToolset

/-! ## Stores -/

section Accessors

/-- `outSISREG`. -/
def outSisReg (port : ℤ) (v : UInt8) : SisM Unit :=
  modify fun s => { s with
    ports := Function.update s.ports port v
    accesses := s.accesses ++ [.outPort port v] }

/-- One byte to a bank, or to the ports where no bank is named. -/
def outByte (custom : Option SisRegs) (idx : ℤ) (v : UInt8) : SisM Unit :=
  match custom with
  | some r => outSisIdxReg r.type idx v
  | none => outSisReg idx v

/-- `(value >> 8*n) & 0xff`. -/
def valueByte (value : BitVec 32) (n : ℕ) : UInt8 :=
  ⟨(value >>> (8 * n)).setWidth 8⟩

def sisWrite1 (custom : Option SisRegs) (idx : ℤ) (value : BitVec 32) : SisM Unit :=
  outByte custom idx (valueByte value 0)

def sisWrite2 (custom : Option SisRegs) (idx : ℤ) (value : BitVec 32) : SisM Unit := do
  if past custom (int32 (idx + 1)) then return
  outByte custom idx (valueByte value 0)
  outByte custom (idx + 1) (valueByte value 1)

def sisWrite4 (custom : Option SisRegs) (idx : ℤ) (value : BitVec 32) : SisM Unit := do
  if past custom (int32 (idx + 3)) then return
  outByte custom idx (valueByte value 0)
  outByte custom (idx + 1) (valueByte value 1)
  outByte custom (idx + 2) (valueByte value 2)
  outByte custom (idx + 3) (valueByte value 3)

/-- `sis_rw_ops.write[width-1]`. -/
def sisWrite (width : ℕ) : Option SisRegs → ℤ → BitVec 32 → SisM Unit :=
  if width = 1 then sisWrite1 else if width = 4 then sisWrite4 else sisWrite2

end Accessors

/-! ## `cmd_write` -/

/-- What one round of the inner loop did : what was converted for its prompt, the text it
printed and its accesses. -/
structure Poke where
  typed : Option (BitVec 32)
  out : List Char
  accesses : List SisAccess
  deriving DecidableEq

/-- The chip, what is left on standard input, the variable `value`, and the rounds so far. -/
structure DebugState where
  chip : SisState
  stdin : List Char
  value : BitVec 32
  pokes : List Poke

abbrev DebugM := StateT DebugState Option

/-- A computation on the chip. -/
def onChip {α : Type} (m : SisM α) : DebugM α := fun s =>
  some ((m.run s.chip).1, { s with chip := (m.run s.chip).2 })

/-- The `retry` loop : show the prompt and scan, with as many attempts as given. The result is
what was converted, `none` at the end of the input. -/
def ask (prompt : List Char) : ℕ → DebugM (Option (BitVec 32))
  | 0 => fun _ => none
  | attempts + 1 => do
    onChip (printf prompt)
    let s ← get
    match scanHex s.stdin with
    | .converted v rest =>
      set { s with stdin := rest, value := v }
      return some v
    | .ended =>
      set { s with stdin := [] }
      return none
    | .failed rest =>
      set { s with stdin := rest }
      ask prompt attempts

/-- The text of the prompt, after the old value is put into `tmpbuf`. -/
def promptText (custom : Option SisRegs) (addr : ℤ) (tmpbuf : List Char) : List Char :=
  (match custom with
    | some r => r.name ++ '[' :: hex 2 (BitVec.ofInt 32 addr) ++ [']', ':', '\t']
    | none => hex 8 (BitVec.ofInt 32 addr) ++ [':', '\t']) ++ tmpbuf ++ ['#', ' ']

/-- Round `i` of row `tmp` of `cmd_write`. -/
def pokeCell (pw : Password) (custom : Option SisRegs) (start : ℤ) (width : ℕ) (j : BitVec 32)
    (attempts tmp i : ℕ) : DebugM Unit := do
  let before ← get
  let addr := cellAddr start width tmp i
  let old ← onChip (sisRead pw width custom (int32 addr))
  let tmpbuf := hex (fmtDigits width) old ++ [' ']
  let typed ← ask (promptText custom addr tmpbuf) attempts
  let s ← get
  onChip (sisWrite width custom (int32 (addr + j.toInt)) s.value)
  modify fun s' => { s' with pokes := s'.pokes ++
    [⟨typed, s'.chip.out.drop before.chip.out.length,
      s'.chip.accesses.drop before.chip.accesses.length⟩] }

/-- The rows of `cmd_write`. `j tmp` is what the variable `j` of row `tmp` holds. -/
def pokeRows (pw : Password) (custom : Option SisRegs) (start count : ℤ) (width : ℕ)
    (j : ℕ → BitVec 32) (attempts : ℕ) : DebugM Unit :=
  (List.range (((int32 (count * width)).tdiv 32).toNat + 1)).forM fun tmp =>
    (List.range (lineCount count width tmp).toNat).forM
      (pokeCell pw custom start width (j tmp) attempts tmp)

/-- `cmd_write(argc, argv)`. -/
def cmdWrite (pw : Password) (beyond : List Char) (j : ℕ → BitVec 32) (attempts : ℕ) :
    List (List Char) → DebugM ℤ
  | argv0 :: argv1 :: rest => do
    let count := strtol (countText beyond argv0)
    let count := if count = 0 then 1 else count
    let width := readWidth argv0
    if isName argv1 then
      match sisregs.find? (·.name = argv1) with
      | none =>
        onChip (printf (argv1 ++ " unrecognised\n".toList))
        return -2
      | some r =>
        let start := match rest with
          | argv2 :: _ => strtol argv2
          | [] => 0
        onChip (sisUnlock pw r)
        pokeRows pw (some r) start count width j attempts
        onChip (sisLock pw r)
        return 0
    else
      let start := strtol argv1
      pokeRows pw none start count width j attempts
      return 0
  | _ => return -1

end LxToolset
