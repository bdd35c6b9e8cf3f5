import LxToolset.Memory
import LxToolset.CText
import Mathlib.Data.BitVec

/-!
# sis_dump_regs : reading the registers of a SiS chip

The register banks with their lock registers, the accessors of one, two and four bytes, and
the command `read`, which unlocks a bank, dumps its registers line by line and locks it
again. The indexed registers are plain storage, but for the password register of `SR`.
-/

namespace LxToolset

/-! ## Registers -/

/-- The banks, by `regtype`. -/
inductive RegType where
  | sr
  | cr
  | misc
  | part1
  | part2
  | part3
  | part4
  deriving DecidableEq

/-- A row of the table `sisregs`. -/
structure SisRegs where
  name : List Char
  length : ℤ
  type : RegType
  deriving DecidableEq

/-- The table without its last row, which only ends it. -/
def sisregs : List SisRegs :=
  [⟨['s', 'r'], 0x60, .sr⟩,
   ⟨['c', 'r'], 0x7c, .cr⟩,
   ⟨['m', 'i', 's', 'c'], 0x10, .misc⟩,
   ⟨['p', 'a', 'r', 't', '1'], 0x60, .part1⟩,
   ⟨['p', 'a', 'r', 't', '2'], 0xff, .part2⟩,
   ⟨['p', 'a', 'r', 't', '3'], 0x3e, .part3⟩,
   ⟨['p', 'a', 'r', 't', '4'], 0x3c, .part4⟩]

/-- A hardware access of an accessor. -/
inductive SisAccess where
  | inIdx (bank : RegType) (idx : ℤ)
  | outIdx (bank : RegType) (idx : ℤ) (v : UInt8)
  | inPort (port : ℤ)
  | outPort (port : ℤ) (v : UInt8)
  deriving DecidableEq

/-- What was last stored in each register and port, the accesses made, and the text
printed. -/
structure SisState where
  regs : RegType → ℤ → UInt8
  ports : ℤ → UInt8
  accesses : List SisAccess
  out : List Char

/-- What the register `SR` 05 reads after a value is stored. -/
structure Readback where
  read : UInt8 → UInt8

/-- Storage like that of the other registers. -/
def plainStorage : Readback :=
  ⟨id⟩

/-- The password register of the chip, which is unlocked by 86 and then reads a1. -/
structure Password extends Readback where
  unlocked_iff : ∀ v, read v = 0xa1 ↔ v = 0x86

instance : Coe Password Readback :=
  ⟨Password.toReadback⟩

abbrev SisM := StateM SisState

/-- A value stored in an `int`. -/
def int32 (z : ℤ) : ℤ :=
  z.bmod (2 ^ 32)

section Accessors

variable (pw : Readback)

/-- `inSISIDXREG`. -/
def inSisIdxReg (bank : RegType) (idx : ℤ) : SisM UInt8 := do
  let s ← get
  modify fun s => { s with accesses := s.accesses ++ [.inIdx bank idx] }
  pure (if bank = .sr ∧ idx = 0x05 then pw.read (s.regs bank idx) else s.regs bank idx)

/-- `outSISIDXREG`. -/
def outSisIdxReg (bank : RegType) (idx : ℤ) (v : UInt8) : SisM Unit :=
  modify fun s => { s with
    regs := Function.update s.regs bank (Function.update (s.regs bank) idx v)
    accesses := s.accesses ++ [.outIdx bank idx v] }

/-- `orSISIDXREG`. -/
def orSisIdxReg (bank : RegType) (idx : ℤ) (v : UInt8) : SisM Unit := do
  let x ← inSisIdxReg pw bank idx
  outSisIdxReg bank idx (x ||| v)

/-- `andSISIDXREG`. -/
def andSisIdxReg (bank : RegType) (idx : ℤ) (v : UInt8) : SisM Unit := do
  let x ← inSisIdxReg pw bank idx
  outSisIdxReg bank idx (x &&& v)

/-- `inSISREG`. -/
def inSisReg (port : ℤ) : SisM UInt8 := do
  let s ← get
  modify fun s => { s with accesses := s.accesses ++ [.inPort port] }
  pure (s.ports port)

/-- One byte of a bank, or of the ports where no bank is named. -/
def inByte (custom : Option SisRegs) (idx : ℤ) : SisM (BitVec 32) := do
  match custom with
  | some r => return (← inSisIdxReg pw r.type idx).toBitVec.setWidth 32
  | none => return (← inSisReg idx).toBitVec.setWidth 32

/-- Index `idx` is past the length of the bank. -/
def past (custom : Option SisRegs) (idx : ℤ) : Prop :=
  ∃ r ∈ custom, r.length < idx

instance (custom : Option SisRegs) (idx : ℤ) : Decidable (past custom idx) := by
  unfold past
  infer_instance

def sisRead1 (custom : Option SisRegs) (idx : ℤ) : SisM (BitVec 32) := do
  if past custom idx then return 0
  inByte pw custom idx

def sisRead2 (custom : Option SisRegs) (idx : ℤ) : SisM (BitVec 32) := do
  if past custom (int32 (idx + 1)) then return 0
  let val1 ← inByte pw custom idx
  let val2 ← inByte pw custom (idx + 1)
  return val2 <<< 8 ||| val1

def sisRead4 (custom : Option SisRegs) (idx : ℤ) : SisM (BitVec 32) := do
  if past custom (int32 (idx + 3)) then return 0
  let val1 ← inByte pw custom idx
  let val2 ← inByte pw custom (idx + 1)
  let val3 ← inByte pw custom (idx + 2)
  let val4 ← inByte pw custom (idx + 3)
  return val4 <<< 24 ||| val3 <<< 16 ||| val2 <<< 8 ||| val1

/-- `sis_rw_ops.read[width-1]`. -/
def sisRead (width : ℕ) : Option SisRegs → ℤ → SisM (BitVec 32) :=
  if width = 1 then sisRead1 pw else if width = 4 then sisRead4 pw else sisRead2 pw

def sisUnlock (r : SisRegs) : SisM Unit := do
  match r.type with
  | .sr =>
    let val ← inSisIdxReg pw .sr 0x05
    if val ≠ 0xa1 then outSisIdxReg .sr 0x05 0x86
  | .cr => andSisIdxReg pw .cr 0x11 0x7f
  | .part1 => orSisIdxReg pw .part1 0x2f 0x01
  | _ => return

/-- The branch of `SR` stores the value that unlocks. -/
def sisLock (r : SisRegs) : SisM Unit := do
  match r.type with
  | .sr =>
    let val ← inSisIdxReg pw .sr 0x05
    if val = 0xa1 then outSisIdxReg .sr 0x05 0x86
  | .cr => orSisIdxReg pw .cr 0x11 0x80
  | .part1 => andSisIdxReg pw .part1 0x2f 0xfe
  | _ => return

end Accessors

/-! ## Arguments and text -/

/-- `%0nx` of an `int`. -/
def hex (n : ℕ) (v : BitVec 32) : List Char :=
  let ds := Nat.toDigits 16 v.toNat
  List.replicate (n - ds.length) '0' ++ ds

def printf (text : List Char) : SisM Unit :=
  modify fun s => { s with out := s.out ++ text }

/-! ## `cmd_read` -/

/-- `argv[0]` from after its `/`; without one it starts past the terminating NUL, at the
bytes `beyond`. -/
def countText (beyond : List Char) (argv0 : List Char) : List Char :=
  match argv0.dropWhile (· ≠ '/') with
  | [] => beyond
  | _ :: cs => cs

/-- The last character of `argv[0]`. -/
def readWidth (argv0 : List Char) : ℕ :=
  match argv0.getLast? with
  | some 'b' => 1
  | some 'h' => 2
  | some 'w' => 4
  | _ => 4

/-- `argv[1]` is taken for a name. -/
def isName (argv1 : List Char) : Prop :=
  ∀ c ∈ argv1.head?, ¬('0' ≤ c ∧ c ≤ '9')

instance (argv1 : List Char) : Decidable (isName argv1) :=
  match argv1 with
  | [] => isTrue fun _ h => nomatch h
  | c :: _ => decidable_of_iff (¬('0' ≤ c ∧ c ≤ '9')) (by simp [isName])

/-- `sis_rw_ops.fmt[width-1]`. -/
def fmtDigits (width : ℕ) : ℕ :=
  if width = 1 then 2 else if width = 4 then 8 else 4

/-- The values on line `tmp`. -/
def lineCount (count : ℤ) (width tmp : ℕ) : ℤ :=
  if 32 ≤ int32 ((count - (tmp * 32 / width : ℕ)) * width) then (32 / width : ℕ)
  else count - (tmp * 32 / width : ℕ)

/-- One round of the loop of `cmd_read`. -/
def dumpLine (pw : Readback) (custom : Option SisRegs) (start count : ℤ) (width tmp : ℕ) :
    SisM Unit := do
  match custom with
  | some r =>
    printf (r.name ++ '[' :: hex 2 (BitVec.ofInt 32 (start + tmp * 32)) ++ [']', ':', '\t'])
  | none => printf (hex 8 (BitVec.ofInt 32 (start + tmp * 32)) ++ [':', '\t'])
  (List.range (lineCount count width tmp).toNat).forM fun i => do
    let v ← sisRead pw width custom (int32 (start + tmp * 32 + i * width))
    printf (hex (fmtDigits width) v ++ [' '])
  printf ['\n']

/-- The loop, whose last round is that in which `tmp` reaches `count*width/32`. -/
def dump (pw : Readback) (custom : Option SisRegs) (start count : ℤ) (width : ℕ) : SisM Unit :=
  (List.range (((int32 (count * width)).tdiv 32).toNat + 1)).forM
    (dumpLine pw custom start count width)

/-- `cmd_read(argc, argv)`. -/
def cmdRead (pw : Readback) (beyond : List Char) : List (List Char) → SisM ℤ
  | argv0 :: argv1 :: rest => do
    let count := strtol (countText beyond argv0)
    let width := readWidth argv0
    if isName argv1 then
      match sisregs.find? (·.name = argv1) with
      | none =>
        printf (argv1 ++ " unrecognised\n".toList)
        return -2
      | some r =>
        let start := match rest with
          | argv2 :: _ => strtol argv2
          | [] => 0
        let count := if count = 0 then r.length / width else count
        sisUnlock pw r
        dump pw (some r) start count width
        sisLock pw r
        return 0
    else
      let start := strtol argv1
      let count := if count = 0 then 1 else count
      dump pw none start count width
      return 0
  | _ => return -1

end LxToolset
