import Mathlib.Data.BitVec

/-!
# eeprom : the serial EEPROM driver

`write_eeprom` and `read_eeprom` drive the pins of a 93C46 through one register of the
network card. The driver is given over any `Bus`, which says what a store to a device
address does and what a read from it yields.
-/

namespace LxToolset

/-- What the driver sees of the machine : stores and reads of device addresses, and the
empty loop it waits in. -/
structure Bus (δ : Type) where
  /-- `myoutb(v, a)`, and `write(v, a)` behind `RTL_W8`. -/
  outb : UInt8 → BitVec 32 → δ → δ
  inb : BitVec 32 → δ → UInt8 × δ
  /-- `inl(a)`, whose value is not used. -/
  inl : BitVec 32 → δ → δ
  spin : ℕ → δ → δ

def cfg9346 : BitVec 32 := 0x50

def eeWenCmd : BitVec 32 := 4 <<< 6 ||| 3 <<< 4
def eeWriteCmd : BitVec 32 := 5 <<< 6
def eeWdsCmd : BitVec 32 := 4 <<< 6
def eeReadCmd : BitVec 32 := 6 <<< 6

def eeCs : UInt8 := 0x08
def eeShiftClk : UInt8 := 0x04
def eeDataWrite : UInt8 := 0x02
def eeDataRead : UInt8 := 0x01
def eeEnb : UInt8 := 0x80 ||| eeCs

section Driver

variable {δ : Type} (bus : Bus δ)

/-- The two stores that start an access. -/
def selectChip (eeAddr : BitVec 32) (d : δ) : δ :=
  bus.outb eeEnb eeAddr (bus.outb (eeEnb &&& ~~~eeCs) eeAddr d)

/-- `dataval`. -/
def dataval (bit : Bool) : UInt8 :=
  if bit then eeDataWrite else 0

/-- A round of the loops that shift a command out. -/
def shiftBit (eeAddr : BitVec 32) (bit : Bool) (d : δ) : δ :=
  let d := bus.inl eeAddr (bus.outb (eeEnb ||| dataval bit) eeAddr d)
  bus.inl eeAddr (bus.outb (eeEnb ||| dataval bit ||| eeShiftClk) eeAddr d)

/-- The loop itself, `for (i = n - 1; i >= 0; i--)`. -/
def shiftOut (eeAddr : BitVec 32) (cmd : BitVec 32) : ℕ → δ → δ
  | 0, d => d
  | n + 1, d => shiftOut eeAddr cmd n (shiftBit bus eeAddr (cmd.getLsbD n) d)

/-- The rounds a command without data takes : `BITS16` or not. -/
def commandBits (bits16 : Bool) : ℕ :=
  if bits16 then 11 else 12

def writeEepromEnable (bits16 : Bool) (ioaddr : BitVec 32) (d : δ) : δ :=
  let eeAddr := ioaddr + cfg9346
  let d := shiftOut bus eeAddr eeWenCmd (commandBits bits16) (selectChip bus eeAddr d)
  bus.outb (~~~eeCs) eeAddr d

def writeEepromDisable (bits16 : Bool) (ioaddr : BitVec 32) (d : δ) : δ :=
  let eeAddr := ioaddr + cfg9346
  let d := shiftOut bus eeAddr eeWdsCmd (commandBits bits16) (selectChip bus eeAddr d)
  bus.outb (~~~eeCs) eeAddr d

def writeEeprom (bits16 : Bool) (ioaddr location : BitVec 32) (data : BitVec 16) (d : δ) : δ :=
  let eeAddr := ioaddr + cfg9346
  let cmd := (location ||| eeWriteCmd) <<< 16 ||| data.setWidth 32
  let d := writeEepromEnable bus bits16 ioaddr d
  let d := shiftOut bus eeAddr cmd 27 (selectChip bus eeAddr d)
  let d := bus.inl eeAddr (bus.outb (~~~eeCs) eeAddr d)
  bus.spin 600000 (writeEepromDisable bus bits16 ioaddr d)

/-- `while( ! (inb(ee_addr) & EE_DATA_READ) )`, of which the condition is tested at most `polls`
times; `none` : it is still waiting. -/
def pollReady (eeAddr : BitVec 32) : ℕ → δ → Option δ
  | 0, _ => none
  | polls + 1, d =>
    let (v, d) := bus.inb eeAddr d
    if v &&& eeDataRead ≠ 0 then some d
    else pollReady eeAddr polls (bus.inl eeAddr (bus.outb eeEnb eeAddr d))

theorem pollReady_succ (eeAddr : BitVec 32) (polls : ℕ) (d : δ) :
    pollReady bus eeAddr (polls + 1) d =
      if (bus.inb eeAddr d).1 &&& eeDataRead ≠ 0 then some (bus.inb eeAddr d).2
      else pollReady bus eeAddr polls
        (bus.inl eeAddr (bus.outb eeEnb eeAddr (bus.inb eeAddr d).2)) :=
  rfl

/-- What the two halves of a poll keep holds where the polling ends. -/
theorem pollReady_invariant {eeAddr : BitVec 32} {I : δ → Prop}
    (hread : ∀ d, I d → I (bus.inb eeAddr d).2)
    (hstore : ∀ d, I d → I (bus.inl eeAddr (bus.outb eeEnb eeAddr d))) {polls : ℕ} {d d' : δ}
    (hd : I d) (hpoll : pollReady bus eeAddr polls d = some d') : I d' := by
  induction polls generalizing d with
  | zero => cases hpoll
  | succ polls ih =>
    rw [pollReady_succ] at hpoll
    split_ifs at hpoll
    · cases hpoll
      exact hread d hd
    · exact ih (hstore _ (hread d hd)) hpoll

def writeEeprom8 (bits16 : Bool) (polls : ℕ) (ioaddr location : BitVec 32) (data : BitVec 16)
    (d : δ) : Option δ :=
  let eeAddr := ioaddr + cfg9346
  let cmd := (location ||| eeWriteCmd) <<< 8 ||| data.setWidth 32
  let d := writeEepromEnable bus bits16 ioaddr d
  let d := shiftOut bus eeAddr cmd 19 (selectChip bus eeAddr d)
  let d := bus.inl eeAddr (bus.outb (~~~eeCs) eeAddr d)
  pollReady bus eeAddr polls (bus.outb eeEnb eeAddr d)

/-- The loop that shifts `n` bits in. -/
def shiftIn (eeAddr : BitVec 32) : ℕ → BitVec 32 × δ → BitVec 32 × δ
  | 0, s => s
  | n + 1, (retval, d) =>
    let d := bus.inl eeAddr (bus.outb (eeEnb ||| eeShiftClk) eeAddr d)
    let (v, d) := bus.inb eeAddr d
    let retval := retval <<< 1 ||| if v &&& eeDataRead ≠ 0 then 1 else 0
    shiftIn eeAddr n (retval, bus.inl eeAddr (bus.outb eeEnb eeAddr d))

/-- The bits of a word read. -/
def wordBits (bits16 : Bool) : ℕ :=
  if bits16 then 16 else 8

/-- The last store has its address and its value exchanged. -/
def readEeprom (bits16 : Bool) (ioaddr location : BitVec 32) (d : δ) : BitVec 32 × δ :=
  let eeAddr := ioaddr + cfg9346
  let readCmd := location ||| eeReadCmd
  let d := shiftOut bus eeAddr readCmd (commandBits bits16) (selectChip bus eeAddr d)
  let d := bus.inl eeAddr (bus.outb eeEnb eeAddr d)
  let (retval, d) := shiftIn bus eeAddr (wordBits bits16) (0, d)
  (retval, bus.outb (UInt8.ofNat eeAddr.toNat) (ioaddr + ~~~eeCs.toBitVec.setWidth 32) d)

end Driver

/-- The last store of `read_eeprom` does not reach `Cfg9346`. -/
theorem exchanged_ne (ioaddr : BitVec 32) :
    ioaddr + ~~~eeCs.toBitVec.setWidth 32 ≠ ioaddr + cfg9346 := by
  intro h
  rw [BitVec.add_right_inj] at h
  exact absurd h (by decide)

end LxToolset
