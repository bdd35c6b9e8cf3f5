import LxToolset.Bits
import LxToolset.Eeprom
import Mathlib.Logic.Function.Basic
import Mathlib.Tactic.Ring

/-!
# The 93C46 behind the driver

A serial EEPROM of `2 ^ aw` words of `dw` bits : while it is selected it takes a bit of DI
on each rising edge of SK, from the start bit on, and what it was sent takes effect when it
is deselected. `netCard` wires it to the register `Cfg9346` of a card. The loops of the
driver are then what they should be : `shiftOut_netCard` hands the chip the bits of a
command, `shiftIn_netCard` collects the bits it drives.
-/

namespace LxToolset

open Bits

/-! ## The chip -/

structure Chip (aw dw : ℕ) where
  words : BitVec aw → BitVec dw
  /-- Writing is enabled. -/
  wen : Bool
  cs : Bool
  sk : Bool
  /-- The bits taken since the start bit; `none` before it. -/
  rx : Option (List Bool)

namespace Chip

variable {aw dw : ℕ}

/-- Take a bit; zeros before the start bit are ignored. -/
def take (rx : Option (List Bool)) (di : Bool) : Option (List Bool) :=
  match rx with
  | none => if di then some [] else none
  | some bits => some (bits ++ [di])

/-- The address field of an instruction, after two bits of opcode. -/
def address (aw : ℕ) (bits : List Bool) : BitVec aw :=
  BitVec.ofNat aw (ofMsb ((bits.drop 2).take aw))

/-- The data field. -/
def dataField (aw dw : ℕ) (bits : List Bool) : BitVec dw :=
  BitVec.ofNat dw (ofMsb ((bits.drop (2 + aw)).take dw))

/-- The instruction that was clocked in takes effect : EWEN, EWDS or a complete WRITE while
writing is enabled. -/
def execute (c : Chip aw dw) (bits : List Bool) : Chip aw dw :=
  if bits.length < 2 + aw then c
  else
    match bits with
    | false :: false :: true :: true :: _ => { c with wen := true }
    | false :: false :: false :: false :: _ => { c with wen := false }
    | false :: true :: _ =>
      if c.wen = true ∧ 2 + aw + dw ≤ bits.length then
        { c with words := Function.update c.words (address aw bits) (dataField aw dw bits) }
      else c
    | _ => c

/-- The pins take the values of a byte of `Cfg9346`. -/
def setPins (c : Chip aw dw) (v : UInt8) : Chip aw dw :=
  let cs := v &&& eeCs != 0
  let sk := v &&& eeShiftClk != 0
  let di := v &&& eeDataWrite != 0
  let c' := { c with cs := cs, sk := sk }
  if cs then if sk && !c.sk then { c' with rx := take c.rx di } else c'
  else if c.cs then { c'.execute (c.rx.getD []) with rx := none }
  else { c' with rx := none }

/-- The pin DO : after the address of a READ a zero, then the bits of the word, the next one
at each rising edge. -/
def dout (c : Chip aw dw) : Bool :=
  match c.rx with
  | some (true :: false :: bits) =>
    decide (aw < bits.length ∧ bits.length ≤ aw + dw) &&
      (c.words (BitVec.ofNat aw (ofMsb (bits.take aw)))).getLsbD (aw + dw - bits.length)
  | _ => false

end Chip

/-! ## The card -/

structure NetCard (aw dw : ℕ) where
  chip : Chip aw dw
  /-- The other registers, and the other bits of `Cfg9346`. -/
  regs : BitVec 32 → UInt8

/-- A card whose registers start at `ioaddr`. -/
def netCard (aw dw : ℕ) (ioaddr : BitVec 32) : Bus (NetCard aw dw) where
  outb v a d :=
    { chip := if a = ioaddr + cfg9346 then d.chip.setPins v else d.chip
      regs := Function.update d.regs a v }
  inb a d :=
    (if a = ioaddr + cfg9346 then
      (d.regs a &&& ~~~eeDataRead) ||| (if d.chip.dout then eeDataRead else 0)
    else d.regs a, d)
  inl _ d := d
  spin _ d := d

/-! ## Loops on the card -/

section Loops

variable {aw dw : ℕ} {ioaddr : BitVec 32} {d : NetCard aw dw} {m : BitVec aw → BitVec dw}
  {wen sk : Bool} {rx : Option (List Bool)}

/-- A selected chip with `sk` and what it has taken. -/
def selected (m : BitVec aw → BitVec dw) (wen sk : Bool) (rx : Option (List Bool)) : Chip aw dw :=
  ⟨m, wen, true, sk, rx⟩

@[simp] theorem netCard_outb_chip (v : UInt8) :
    ((netCard aw dw ioaddr).outb v (ioaddr + cfg9346) d).chip = d.chip.setPins v :=
  if_pos rfl

@[simp] theorem netCard_inl (a : BitVec 32) : (netCard aw dw ioaddr).inl a d = d :=
  rfl

@[simp] theorem netCard_spin (n : ℕ) : (netCard aw dw ioaddr).spin n d = d :=
  rfl

/-- `EE_ENB | dataval` lowers the clock. -/
theorem setPins_low (bit : Bool) : (selected m wen sk rx).setPins (eeEnb ||| dataval bit) =
    selected m wen false rx := by
  cases bit <;> rfl

/-- `EE_ENB | dataval | EE_SHIFT_CLK` raises it, and the chip takes the bit. -/
theorem setPins_high (bit : Bool) :
    (selected m wen false rx).setPins (eeEnb ||| dataval bit ||| eeShiftClk) =
      selected m wen true (Chip.take rx bit) := by
  cases bit <;> rfl

/-- A rising edge without data. -/
theorem setPins_clock : (selected m wen false rx).setPins (eeEnb ||| eeShiftClk) =
    selected m wen true (Chip.take rx false) :=
  rfl

theorem setPins_enb : (selected m wen sk rx).setPins eeEnb = selected m wen false rx :=
  rfl

theorem shiftBit_netCard (hd : d.chip = selected m wen sk rx) (bit : Bool) :
    (shiftBit (netCard aw dw ioaddr) (ioaddr + cfg9346) bit d).chip =
      selected m wen true (Chip.take rx bit) := by
  simp only [shiftBit, netCard_inl, netCard_outb_chip, hd, setPins_low, setPins_high]

/-- The chip takes the bits of the command, the clock being high after the last one. -/
theorem shiftOut_netCard (hd : d.chip = selected m wen sk rx) (cmd : BitVec 32) (n : ℕ) :
    (shiftOut (netCard aw dw ioaddr) (ioaddr + cfg9346) cmd n d).chip =
      selected m wen (sk || decide (0 < n)) ((msb n cmd.toNat).foldl Chip.take rx) := by
  induction n generalizing d sk rx with
  | zero => simp [shiftOut, msb, hd]
  | succ n ih =>
    rw [shiftOut, ih (shiftBit_netCard hd _), msb, List.foldl_cons]
    simp [BitVec.testBit_toNat]

/-- The bits after the start bit. -/
theorem foldl_take (bits pre : List Bool) :
    bits.foldl Chip.take (some pre) = some (pre ++ bits) := by
  induction bits generalizing pre with
  | nil => simp
  | cons b bits ih => rw [List.foldl_cons, Chip.take, ih, List.append_assoc, List.singleton_append]

/-- Zeros, the start bit and an instruction. -/
theorem foldl_take_frame (k : ℕ) (bits : List Bool) :
    (List.replicate k false ++ true :: bits).foldl Chip.take none = some bits := by
  induction k with
  | zero => exact foldl_take bits []
  | succ k ih => exact ih

/-- The bit of DO in what the driver reads. -/
theorem inb_dataRead (r : UInt8) (bit : Bool) :
    ((r &&& ~~~eeDataRead ||| if bit then eeDataRead else 0) &&& eeDataRead ≠ 0) ↔ bit = true := by
  have hdist : ∀ a b c : UInt8, (a ||| b) &&& c = a &&& c ||| b &&& c := by
    intro a b c
    apply UInt8.toBitVec_inj.1
    simp [BitVec.and_or_distrib_right]
  have hlow : r &&& ~~~eeDataRead &&& eeDataRead = 0 := by
    rw [UInt8.and_assoc, show ~~~eeDataRead &&& eeDataRead = 0 by decide, UInt8.and_zero]
  rw [hdist, hlow, UInt8.zero_or]
  cases bit <;> decide

/-- `retval = (retval << 1) | bit`. -/
theorem shiftLeft_or_bit (v : ℕ) (bit : Bool) :
    (BitVec.ofNat 32 v <<< 1 ||| if bit = true then 1 else 0) =
      BitVec.ofNat 32 (2 * v + bit.toNat) := by
  have hshift : BitVec.ofNat 32 v <<< 1 = BitVec.ofNat 32 (2 * v) := by
    apply BitVec.eq_of_toNat_eq
    simp only [BitVec.toNat_shiftLeft, BitVec.toNat_ofNat, Nat.shiftLeft_eq]
    omega
  rw [hshift]
  cases bit with
  | false => simp
  | true =>
    apply BitVec.eq_of_toNat_eq
    have heven : 2 * v % 2 ^ 32 = (v % 2 ^ 31) <<< 1 := by
      rw [Nat.shiftLeft_eq]
      omega
    simp only [if_true, BitVec.toNat_or, BitVec.toNat_ofNat, heven]
    rw [show (1 : BitVec 32).toNat = 1 from rfl,
      ← Nat.shiftLeft_add_eq_or_of_lt (by decide : 1 < 2 ^ 1), Nat.shiftLeft_eq, Bool.toNat_true]
    omega

/-- DO after the address and `k` further bits. -/
theorem dout_selected (abits : List Bool) (ha : abits.length = aw) (k : ℕ) :
    (selected m wen sk (some (true :: false :: (abits ++ List.replicate k false)))).dout =
      (decide (0 < k ∧ k ≤ dw) && (m (BitVec.ofNat aw (ofMsb abits))).getLsbD (dw - k)) := by
  have hlen : (abits ++ List.replicate k false).length = aw + k := by simp [ha]
  have htake : (abits ++ List.replicate k false).take aw = abits := by
    rw [← ha, List.take_left]
  simp only [selected, Chip.dout, hlen, htake]
  congr 2
  · simp
  · omega

variable (ioaddr) in
/-- `n` more rounds of the reading loop append the next `n` bits of the word to `retval`. -/
theorem shiftIn_netCard (abits : List Bool) (ha : abits.length = aw) {k n v : ℕ} (hk : k + n = dw)
    (hd : d.chip = selected m wen false
      (some (true :: false :: (abits ++ List.replicate k false)))) :
    (shiftIn (netCard aw dw ioaddr) (ioaddr + cfg9346) n (BitVec.ofNat 32 v, d)).1 =
      BitVec.ofNat 32 (2 ^ n * v + (m (BitVec.ofNat aw (ofMsb abits))).toNat % 2 ^ n) ∧
    (shiftIn (netCard aw dw ioaddr) (ioaddr + cfg9346) n (BitVec.ofNat 32 v, d)).2.chip =
      selected m wen false (some (true :: false :: (abits ++ List.replicate (k + n) false))) := by
  induction n generalizing d k v with
  | zero => simp [shiftIn, hd, Nat.mod_one]
  | succ n ih =>
    -- the chip after the rising edge of this round
    obtain ⟨d₁, hd₁⟩ : ∃ d₁, d₁ = (netCard aw dw ioaddr).outb (eeEnb ||| eeShiftClk)
      (ioaddr + cfg9346) d := ⟨_, rfl⟩
    have hchip : d₁.chip = selected m wen true
        (some (true :: false :: (abits ++ List.replicate (k + 1) false))) := by
      rw [hd₁, netCard_outb_chip, hd, setPins_clock, Chip.take, List.replicate_succ']
      simp
    have hdout : d₁.chip.dout = (m (BitVec.ofNat aw (ofMsb abits))).getLsbD n := by
      rw [hchip, dout_selected abits ha, show dw - (k + 1) = n by omega]
      simp
      omega
    have hbit : ((netCard aw dw ioaddr).inb (ioaddr + cfg9346) d₁).1 &&& eeDataRead ≠ 0 ↔
        (m (BitVec.ofNat aw (ofMsb abits))).getLsbD n = true := by
      rw [← hdout]
      simp only [netCard, if_true]
      exact inb_dataRead ..
    have hlow : ((netCard aw dw ioaddr).outb eeEnb (ioaddr + cfg9346) d₁).chip =
        selected m wen false
          (some (true :: false :: (abits ++ List.replicate (k + 1) false))) := by
      rw [netCard_outb_chip, hchip, setPins_enb]
    have hword : 2 ^ n * (2 * v + ((m (BitVec.ofNat aw (ofMsb abits))).getLsbD n).toNat) +
        (m (BitVec.ofNat aw (ofMsb abits))).toNat % 2 ^ n =
        2 ^ (n + 1) * v + (m (BitVec.ofNat aw (ofMsb abits))).toNat % 2 ^ (n + 1) := by
      rw [Nat.mod_pow_succ, ← BitVec.testBit_toNat, Nat.toNat_testBit, Nat.pow_succ, Nat.mul_add]
      ring
    have hnext := ih (k := k + 1)
      (v := 2 * v + ((m (BitVec.ofNat aw (ofMsb abits))).getLsbD n).toNat) (by omega) hlow
    rw [hword, Nat.add_right_comm, Nat.add_assoc] at hnext
    have hinb : ((netCard aw dw ioaddr).inb (ioaddr + cfg9346) d₁).2 = d₁ := rfl
    simp only [shiftIn, netCard_inl, ← hd₁, hinb, hbit, shiftLeft_or_bit]
    exact hnext

end Loops

end LxToolset
