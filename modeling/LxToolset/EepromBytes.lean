import LxToolset.EepromBusy

/-!
# The driver and a chip of bytes

The 93C46 in 8-bit organisation takes seven bits of address, and the commands of the driver
keep the start bit where six of them put it. With `BITS16` zero an EWEN and a WRITE are a bit
short each, so that `write_eeprom8` stores nothing; a READ of the lower half is answered from
the address twice as high, and one of the upper half is no READ (`readEeprom_byteCard`).
`bytes_memory_iff` says of which calls none of this shows.
-/

namespace LxToolset

open Bits

/-- A chip of 128 bytes. -/
structure ByteCard where
  chip : Chip 7 8
  /-- A WRITE has ended and no start bit has followed. -/
  ready : Bool

namespace ByteCard

def setPins (d : ByteCard) (v : UInt8) : ByteCard where
  chip := d.chip.setPins v
  ready := d.chip.startsWrite && v &&& eeCs == 0 || d.ready && (d.chip.setPins v).rx.isNone

/-- What is read from DO. Nobody drives it before the address of a READ is complete, unless the
chip is ready after a WRITE : then it has the level `idle`. -/
def dout (idle : Bool) (d : ByteCard) : Bool :=
  match d.chip.rx with
  | some (true :: false :: bits) => if 7 ≤ bits.length then d.chip.dout else idle
  | _ => d.ready || idle

end ByteCard

/-- A card whose registers start at `ioaddr`. -/
def byteCard (idle : Bool) (ioaddr : BitVec 32) : Bus ByteCard where
  outb v a d := if a = ioaddr + cfg9346 then d.setPins v else d
  inb a d := (if a = ioaddr + cfg9346 ∧ d.dout idle = true then eeDataRead else 0, d)
  inl _ d := d
  spin _ d := d

/-- A call of the driver. -/
inductive ByteCall where
  | write (location : BitVec 7) (data : BitVec 8)
  | read (location : BitVec 7)

/-- The calls, and the results of the reads among them; `none` : a write still waits after
`polls` polls. -/
def byteCalls {δ : Type} (bus : Bus δ) (polls : ℕ) (ioaddr : BitVec 32) :
    δ → List ByteCall → Option (List (BitVec 32) × δ)
  | d, [] => some ([], d)
  | d, .write location data :: calls =>
    (writeEeprom8 bus false polls ioaddr (location.setWidth 32) (data.setWidth 16) d).bind
      fun d => byteCalls bus polls ioaddr d calls
  | d, .read location :: calls =>
    let (retval, d) := readEeprom bus false ioaddr (location.setWidth 32) d
    (byteCalls bus polls ioaddr d calls).map fun (results, d) => (retval :: results, d)

/-- A memory after the writes among the calls. -/
def memoryAfter (m : BitVec 7 → BitVec 8) : List ByteCall → BitVec 7 → BitVec 8
  | [] => m
  | .write location data :: calls => memoryAfter (Function.update m location data) calls
  | .read _ :: calls => memoryAfter m calls

/-- What a memory returns to the reads among the calls. -/
def memoryReads (m : BitVec 7 → BitVec 8) : List ByteCall → List (BitVec 32)
  | [] => []
  | .write location data :: calls => memoryReads (Function.update m location data) calls
  | .read location :: calls => (m location).setWidth 32 :: memoryReads m calls

/-- The calls return, the reads with the last bytes written, and no byte changes that is not
written. -/
def ActsAsMemory (idle : Bool) (ioaddr : BitVec 32) (d : ByteCard) (calls : List ByteCall) : Prop :=
  ∃ polls results d', byteCalls (byteCard idle ioaddr) polls ioaddr d calls = some (results, d') ∧
    results = memoryReads d.chip.words calls ∧
    ∀ location, (∀ data, ByteCall.write location data ∉ calls) →
      d'.chip.words location = d.chip.words location

/-- What `read_eeprom` makes of a byte : a shifted byte of another address, or the idle line. -/
def misread (idle : Bool) (m : BitVec 7 → BitVec 8) (location : BitVec 7) : BitVec 8 :=
  if location < 64 then m (location <<< 1) >>> 1 else if idle then 0xff else 0

/-- What it makes of the reads among the calls. -/
def misreads (idle : Bool) (m : BitVec 7 → BitVec 8) (calls : List ByteCall) : List (BitVec 32) :=
  calls.filterMap fun
    | .write _ _ => none
    | .read location => some ((misread idle m location).setWidth 32)

/-! ## Accesses -/

section Accesses

variable {idle : Bool} {ioaddr : BitVec 32} {d : ByteCard} {m : BitVec 7 → BitVec 8}
  {wen sk ready : Bool} {rx : Option (List Bool)}

@[simp] theorem byteCard_outb (v : UInt8) :
    (byteCard idle ioaddr).outb v (ioaddr + cfg9346) d = d.setPins v :=
  if_pos rfl

@[simp] theorem byteCard_inl (a : BitVec 32) : (byteCard idle ioaddr).inl a d = d :=
  rfl

theorem byteCard_outb_exchanged (v : UInt8) :
    (byteCard idle ioaddr).outb v (ioaddr + ~~~eeCs.toBitVec.setWidth 32) d = d := by
  simp only [byteCard, exchanged_ne, if_false]

/-- A store that starts no WRITE. -/
theorem ByteCard.setPins_eq {c c' : Chip 7 8} {v : UInt8}
    (h : c.startsWrite = false ∨ v &&& eeCs ≠ 0) (hpins : c.setPins v = c') :
    (ByteCard.mk c ready).setPins v = ⟨c', ready && c'.rx.isNone⟩ := by
  have hno : (c.startsWrite && v &&& eeCs == 0) = false := by
    rcases h with h | h <;> simp [h]
  simp [ByteCard.setPins, hno, hpins]

/-- The start bit ends the ready signal. -/
theorem shiftBit_byteCard (h : ready = false ∨ rx = none) (bit : Bool) :
    shiftBit (byteCard idle ioaddr) (ioaddr + cfg9346) bit ⟨selected m wen sk rx, ready⟩ =
      ⟨selected m wen true (Chip.take rx bit), ready && (Chip.take rx bit).isNone⟩ := by
  have hready : (ready && rx.isNone) = ready := by
    rcases h with rfl | rfl <;> simp
  have hlow : (ByteCard.mk (selected m wen sk rx) ready).setPins (eeEnb ||| dataval bit) =
      ⟨selected m wen false rx, ready && rx.isNone⟩ :=
    ByteCard.setPins_eq (.inr (by cases bit <;> decide)) (setPins_low bit)
  have hhigh : (ByteCard.mk (selected m wen false rx) ready).setPins
      (eeEnb ||| dataval bit ||| eeShiftClk) =
      ⟨selected m wen true (Chip.take rx bit), ready && (Chip.take rx bit).isNone⟩ :=
    ByteCard.setPins_eq (.inr (by cases bit <;> decide)) (setPins_high bit)
  simp only [shiftBit, byteCard_outb, byteCard_inl, hlow, hready, hhigh]

theorem shiftOut_byteCard (h : ready = false ∨ rx = none) (cmd : BitVec 32) (n : ℕ) :
    shiftOut (byteCard idle ioaddr) (ioaddr + cfg9346) cmd n ⟨selected m wen sk rx, ready⟩ =
      ⟨selected m wen (sk || decide (0 < n)) ((msb n cmd.toNat).foldl Chip.take rx),
        ready && ((msb n cmd.toNat).foldl Chip.take rx).isNone⟩ := by
  induction n generalizing sk rx ready with
  | zero => rcases h with rfl | rfl <;> simp [shiftOut, msb]
  | succ n ih =>
    obtain ⟨rx', hrx'⟩ : ∃ rx', rx' = Chip.take rx (cmd.getLsbD n) := ⟨_, rfl⟩
    have hnext : (ready && rx'.isNone) = false ∨ rx' = none := by
      cases rx' <;> simp
    have hready : (ready && rx'.isNone && ((msb n cmd.toNat).foldl Chip.take rx').isNone) =
        (ready && ((msb n cmd.toNat).foldl Chip.take rx').isNone) := by
      cases rx' with
      | none => simp
      | some bits => simp [foldl_take]
    rw [shiftOut, shiftBit_byteCard h, ← hrx', ih hnext, hready, msb, List.foldl_cons,
      BitVec.testBit_toNat, ← hrx']
    simp

/-- What deselecting the chip ends is not a WRITE. -/
def Chip.Inert (c : Chip 7 8) : Prop :=
  c.cs = true → ∀ bits, c.rx = some bits → bits.head? = some true

theorem Chip.Inert.setPins_low {c : Chip 7 8} (h : c.Inert) :
    c.startsWrite = false ∧
      c.setPins (eeEnb &&& ~~~eeCs) = ⟨c.words, c.wen, false, false, none⟩ := by
  obtain ⟨words, wen, cs, sk, rx⟩ := c
  cases cs with
  | false => exact ⟨rfl, rfl⟩
  | true =>
    rcases rx with _ | _ | ⟨b, bits⟩
    · exact ⟨by simp [Chip.startsWrite], rfl⟩
    · cases h rfl [] rfl
    · obtain rfl : b = true := by simpa using h rfl _ rfl
      have hexec : ∀ c : Chip 7 8, c.execute (true :: bits) = c := by
        intro c
        simp [Chip.execute]
      refine ⟨by simp [Chip.startsWrite], ?_⟩
      simp [Chip.setPins, hexec, show eeEnb &&& ~~~eeCs &&& eeCs = 0 by decide,
        show eeEnb &&& ~~~eeCs &&& eeShiftClk = 0 by decide]

theorem selectChip_byteCard {c : Chip 7 8} (h : c.Inert) :
    selectChip (byteCard idle ioaddr) (ioaddr + cfg9346) ⟨c, ready⟩ =
      ⟨selected c.words c.wen false none, ready⟩ := by
  obtain ⟨hstart, hpins⟩ := h.setPins_low
  have henb : (Chip.mk c.words c.wen false false none).setPins eeEnb =
      selected c.words c.wen false none := rfl
  rw [selectChip, byteCard_outb, byteCard_outb, ByteCard.setPins_eq (.inl hstart) hpins,
    ByteCard.setPins_eq (.inl rfl) henb]
  simp [selected]

/-- Selecting the chip and sending it `n` bits that end in an instruction. -/
theorem send_byteCard {c : Chip 7 8} (h : c.Inert) {cmd : BitVec 32} {n k : ℕ} {bits : List Bool}
    (hn : 0 < n) (hcmd : msb n cmd.toNat = List.replicate k false ++ true :: bits) :
    shiftOut (byteCard idle ioaddr) (ioaddr + cfg9346) cmd n
      (selectChip (byteCard idle ioaddr) (ioaddr + cfg9346) ⟨c, ready⟩) =
      ⟨selected c.words c.wen true (some bits), false⟩ := by
  rw [selectChip_byteCard h, shiftOut_byteCard (.inr rfl), hcmd, foldl_take_frame,
    decide_eq_true hn]
  simp

/-- Deselecting the chip after an instruction that is too short, or a WRITE without all its
data. -/
theorem setPins_deselect_short {bits : List Bool}
    (h : bits.length < 9 ∨ ∃ rest, bits = false :: true :: rest ∧ rest.length < 15) :
    (ByteCard.mk (selected m wen true (some bits)) false).setPins (~~~eeCs) =
      ⟨⟨m, wen, false, true, none⟩, false⟩ := by
  have hstart : (selected m wen true (some bits)).startsWrite = false := by
    rcases h with h | ⟨rest, rfl, h⟩
    · simp only [Chip.startsWrite, selected, Bool.true_and, Bool.and_eq_false_iff]
      right
      split
      · rename_i hbits
        cases hbits
        simp only [List.length_cons] at h
        simp only [decide_eq_false_iff_not]
        omega
      · rfl
    · simp [Chip.startsWrite, selected, h]
  have hexec : (Chip.mk m wen false true (some bits)).execute bits =
      ⟨m, wen, false, true, some bits⟩ := by
    rcases h with h | ⟨rest, rfl, h⟩
    · exact if_pos (show bits.length < 2 + 7 from h)
    · have hshort : ¬ 2 + 7 + 8 ≤ rest.length + 1 + 1 := by omega
      simp [Chip.execute, hshort]
  exact ByteCard.setPins_eq (.inl hstart) (by rw [setPins_deselect, hexec])

theorem writeEepromEnable_byteCard {c : Chip 7 8} (h : c.Inert) :
    writeEepromEnable (byteCard idle ioaddr) false ioaddr ⟨c, ready⟩ =
      ⟨⟨c.words, c.wen, false, true, none⟩, false⟩ := by
  have hcmd : msb 12 eeWenCmd.toNat = List.replicate 3 false ++ true ::
      [false, false, true, true, false, false, false, false] := by decide
  have hbits : commandBits false = 12 := rfl
  rw [writeEepromEnable, hbits, send_byteCard h (by omega) hcmd, byteCard_outb]
  exact setPins_deselect_short (.inl (by decide))

/-- The bits of a WRITE : 16 of the 17 after its start bit. -/
theorem msb_writeCmd8 {cmd : BitVec 32} (location : BitVec 7) (data : BitVec 8)
    (hcmd : cmd = (location.setWidth 32 ||| eeWriteCmd) <<< 8 |||
      (data.setWidth 16).setWidth 32) :
    msb 19 cmd.toNat =
      List.replicate 2 false ++ true :: (false :: true :: msb 14 cmd.toNat) := by
  have hbit : ∀ i, cmd.toNat.testBit i = cmd.getLsbD i := fun i => BitVec.testBit_toNat ..
  have h18 : cmd.getLsbD 18 = false := by simp [hcmd, eeWriteCmd]
  have h17 : cmd.getLsbD 17 = false := by simp [hcmd, eeWriteCmd]
  have h16 : cmd.getLsbD 16 = true := by simp [hcmd, eeWriteCmd]
  have h15 : cmd.getLsbD 15 = false := by simp [hcmd, eeWriteCmd]
  have h14 : cmd.getLsbD 14 = true := by simp [hcmd, eeWriteCmd]
  simp only [msb, hbit, h18, h17, h16, h15, h14]
  rfl

/-- The bits of a READ : a bit of address takes the place of a bit of the opcode. -/
theorem msb_readCmd8 (location : BitVec 7) :
    msb 12 (location.setWidth 32 ||| eeReadCmd).toNat =
      List.replicate 3 false ++ true :: (true :: location.getLsbD 6 :: msb 6 location.toNat) := by
  obtain ⟨cmd, hcmd⟩ : ∃ cmd, cmd = location.setWidth 32 ||| eeReadCmd := ⟨_, rfl⟩
  have hbit : ∀ i, cmd.toNat.testBit i = cmd.getLsbD i := fun i => BitVec.testBit_toNat ..
  have hbit' : ∀ i, location.toNat.testBit i = location.getLsbD i :=
    fun i => BitVec.testBit_toNat ..
  rw [← hcmd]
  simp only [msb, hbit, hbit']
  simp [hcmd, eeReadCmd, List.replicate]

end Accesses

/-! ## The routines -/

section Routines

variable {idle : Bool} {ioaddr : BitVec 32} {m : BitVec 7 → BitVec 8} {wen ready : Bool}
  {c : Chip 7 8}

/-- The wait for the ready bit ends with its first round or never. -/
theorem pollReady_byteCard (polls : ℕ) :
    pollReady (byteCard idle ioaddr) (ioaddr + cfg9346) polls ⟨selected m wen false none, false⟩ =
      if idle = true ∧ 0 < polls then some ⟨selected m wen false none, false⟩ else none := by
  induction polls with
  | zero => simp [pollReady]
  | succ polls ih =>
    have hinb : (byteCard idle ioaddr).inb (ioaddr + cfg9346) ⟨selected m wen false none, false⟩ =
        (if idle = true then eeDataRead else 0, ⟨selected m wen false none, false⟩) := by
      simp [byteCard, ByteCard.dout, selected]
    have hpins : (ByteCard.mk (selected m wen false none) false).setPins eeEnb =
        ⟨selected m wen false none, false⟩ :=
      ByteCard.setPins_eq (.inr (by decide)) setPins_enb
    rw [pollReady_succ, hinb, byteCard_inl, byteCard_outb, hpins, ih]
    cases idle with
    | false => simp
    | true => simp [show eeDataRead ≠ 0 by decide]

/-- `write_eeprom8` stores nothing, and returns if the line is high without a WRITE. -/
theorem writeEeprom8_byteCard (h : c.Inert) (polls : ℕ) (location : BitVec 7) (data : BitVec 8) :
    writeEeprom8 (byteCard idle ioaddr) false polls ioaddr (location.setWidth 32)
      (data.setWidth 16) ⟨c, ready⟩ =
      if idle = true ∧ 0 < polls then some ⟨selected c.words c.wen false none, false⟩
      else none := by
  have hinert : (Chip.mk c.words c.wen false true none).Inert := fun hcs => by cases hcs
  have hpins : (ByteCard.mk ⟨c.words, c.wen, false, true, none⟩ false).setPins eeEnb =
      ⟨selected c.words c.wen false none, false⟩ := by
    rw [ByteCard.setPins_eq (.inl rfl) rfl]
    rfl
  have hcmd := msb_writeCmd8 location data rfl
  rw [writeEeprom8, writeEepromEnable_byteCard h]
  simp only [send_byteCard hinert (by omega) hcmd, byteCard_outb, byteCard_inl]
  rw [setPins_deselect_short (.inr ⟨_, rfl, by rw [length_msb]; omega⟩), hpins, pollReady_byteCard]

variable (idle ioaddr m wen) in
/-- The reading loop collects the levels of DO after each further zero that is clocked in. -/
theorem shiftIn_byteCard (n v : ℕ) (bits : List Bool) :
    shiftIn (byteCard idle ioaddr) (ioaddr + cfg9346) n
      (BitVec.ofNat 32 v, ⟨selected m wen false (some bits), false⟩) =
      (BitVec.ofNat 32 (((List.range n).map fun i => ByteCard.dout idle
        ⟨selected m wen true (some (bits ++ List.replicate (i + 1) false)), false⟩).foldl
          (fun v b => 2 * v + b.toNat) v),
        ⟨selected m wen false (some (bits ++ List.replicate n false)), false⟩) := by
  induction n generalizing v bits with
  | zero => simp [shiftIn]
  | succ n ih =>
    have hclock : (ByteCard.mk (selected m wen false (some bits)) false).setPins
        (eeEnb ||| eeShiftClk) = ⟨selected m wen true (some (bits ++ [false])), false⟩ :=
      ByteCard.setPins_eq (.inr (by decide)) setPins_clock
    have henb : (ByteCard.mk (selected m wen true (some (bits ++ [false]))) false).setPins eeEnb =
        ⟨selected m wen false (some (bits ++ [false])), false⟩ :=
      ByteCard.setPins_eq (.inr (by decide)) setPins_enb
    have hinb : ∀ d : ByteCard, (byteCard idle ioaddr).inb (ioaddr + cfg9346) d =
        (if d.dout idle = true then eeDataRead else 0, d) := by
      intro d
      simp [byteCard]
    have hbit : ∀ b : Bool,
        ((if b = true then eeDataRead else 0) &&& eeDataRead ≠ 0) ↔ b = true := by decide
    have happend : ∀ k, bits ++ [false] ++ List.replicate k false =
        bits ++ List.replicate (k + 1) false := by
      intro k
      rw [List.append_assoc, List.singleton_append, List.replicate_succ]
    rw [shiftIn, byteCard_outb, byteCard_inl, hclock, hinb]
    dsimp only
    rw [byteCard_outb, byteCard_inl, henb]
    simp only [hbit, shiftLeft_or_bit]
    rw [ih]
    simp only [happend, List.range_succ_eq_map, List.map_cons, List.map_map, List.foldl_cons]
    rfl

variable (idle ioaddr m wen) in
theorem shiftIn_zero (n : ℕ) (bits : List Bool) :
    shiftIn (byteCard idle ioaddr) (ioaddr + cfg9346) n
      (0, ⟨selected m wen false (some bits), false⟩) =
      (BitVec.ofNat 32 (ofMsb ((List.range n).map fun i => ByteCard.dout idle
        ⟨selected m wen true (some (bits ++ List.replicate (i + 1) false)), false⟩)),
        ⟨selected m wen false (some (bits ++ List.replicate n false)), false⟩) :=
  shiftIn_byteCard idle ioaddr m wen n 0 bits

/-- The address of a READ in the lower half. -/
theorem ofNat_ofMsb_snoc (location : BitVec 7) :
    BitVec.ofNat 7 (ofMsb (msb 6 location.toNat ++ [false])) = location <<< 1 := by
  have hbits : msb 6 location.toNat ++ [false] = msb 7 (2 * location.toNat) :=
    (msb_field (m := 6) (n := 1) (c := 0) (by decide)).symm
  rw [hbits, ofMsb_msb]
  apply BitVec.eq_of_toNat_eq
  simp [Nat.shiftLeft_eq, Nat.mul_comm]

theorem getLsbD_six (location : BitVec 7) : location.getLsbD 6 = !decide (location < 64) := by
  revert location
  decide

theorem dout_of_address {sk ready : Bool} {bits : List Bool} (h : 7 ≤ bits.length) :
    ByteCard.dout idle ⟨selected m wen sk (some (true :: false :: bits)), ready⟩ =
      (selected m wen sk (some (true :: false :: bits))).dout :=
  if_pos h

/-- The levels of DO in a read. -/
theorem ofMsb_douts (location : BitVec 7) :
    ofMsb ((List.range 8).map fun i => ByteCard.dout idle ⟨selected m wen true
      (some (true :: location.getLsbD 6 :: msb 6 location.toNat ++
        List.replicate (i + 1) false)), false⟩) = (misread idle m location).toNat := by
  cases hhigh : location.getLsbD 6 with
  | true =>
    have hle : ¬ location < 64 := by
      rw [getLsbD_six] at hhigh
      simpa using hhigh
    rw [misread, if_neg hle]
    cases idle <;> rfl
  | false =>
    have hlt : location < 64 := by
      rw [getLsbD_six] at hhigh
      simpa using hhigh
    have hdout : ∀ i, ByteCard.dout idle ⟨selected m wen true (some (true :: false ::
        msb 6 location.toNat ++ List.replicate (i + 1) false)), false⟩ =
        (decide (0 < i ∧ i ≤ 8) && (m (location <<< 1)).getLsbD (8 - i)) := by
      intro i
      have hsplit : msb 6 location.toNat ++ List.replicate (i + 1) false =
          (msb 6 location.toNat ++ [false]) ++ List.replicate i false := by
        rw [List.append_assoc, List.singleton_append, List.replicate_succ]
      have hlen : 7 ≤ ((msb 6 location.toNat ++ [false]) ++ List.replicate i false).length := by
        simp
        omega
      rw [List.cons_append, List.cons_append, hsplit, ← ofNat_ofMsb_snoc, dout_of_address hlen,
        dout_selected _ (by simp)]
    obtain ⟨v, hv⟩ : ∃ v, v = m (location <<< 1) := ⟨_, rfl⟩
    have hword : ((List.range 8).map fun i => decide (0 < i ∧ i ≤ 8) && v.getLsbD (8 - i)) =
        msb 8 (v >>> 1).toNat := by
      simp [List.range_succ, msb, BitVec.testBit_toNat]
    rw [misread, if_pos hlt, List.map_congr_left fun i _ => hdout i, ← hv, hword, ofMsb_msb,
      Nat.mod_eq_of_lt (v >>> 1).isLt]

variable (idle ioaddr ready) in
/-- `read_eeprom` leaves the bytes as they are, and the chip selected. -/
theorem readEeprom_byteCard (h : c.Inert) (location : BitVec 7) :
    ∃ d, readEeprom (byteCard idle ioaddr) false ioaddr (location.setWidth 32) ⟨c, ready⟩ =
      ((misread idle c.words location).setWidth 32, ⟨d, false⟩) ∧ d.Inert ∧
        d.words = c.words := by
  have hcmd := msb_readCmd8 location
  have hbits : commandBits false = 12 := rfl
  have henb : ∀ bits, (ByteCard.mk (selected c.words c.wen true (some bits)) false).setPins eeEnb =
      ⟨selected c.words c.wen false (some bits), false⟩ := by
    intro bits
    exact ByteCard.setPins_eq (.inr (by decide)) setPins_enb
  have hin := shiftIn_zero idle ioaddr c.words c.wen 8
    (true :: location.getLsbD 6 :: msb 6 location.toNat)
  rw [ofMsb_douts] at hin
  refine ⟨selected c.words c.wen false
    (some (true :: location.getLsbD 6 :: msb 6 location.toNat ++ List.replicate 8 false)), ?_, ?_,
    rfl⟩
  · simp only [readEeprom, hbits, send_byteCard h (by omega) hcmd, byteCard_outb, byteCard_inl,
      henb, wordBits, byteCard_outb_exchanged, Bool.false_eq_true, if_false, hin]
    rw [BitVec.ofNat_toNat]
  · intro _ bits hrx
    cases hrx
    rfl

end Routines

/-! ## Sequences of calls -/

section Calls

variable {idle : Bool} {ioaddr : BitVec 32} {c : Chip 7 8} {ready : Bool} {calls : List ByteCall}

theorem inert_selected {m : BitVec 7 → BitVec 8} {wen sk : Bool} :
    (selected m wen sk none : Chip 7 8).Inert := by
  intro _ bits hbits
  cases hbits

/-- Calls that return have stored nothing. -/
theorem byteCalls_eq_some (h : c.Inert) {polls : ℕ} {results : List (BitVec 32)} {d : ByteCard}
    (hcalls : byteCalls (byteCard idle ioaddr) polls ioaddr ⟨c, ready⟩ calls = some (results, d)) :
    (idle = true ∨ ∀ location data, ByteCall.write location data ∉ calls) ∧
      results = misreads idle c.words calls ∧ d.chip.words = c.words := by
  induction calls generalizing c ready results with
  | nil =>
    cases hcalls
    exact ⟨.inr (by simp), rfl, rfl⟩
  | cons call calls ih =>
    cases call with
    | write location data =>
      rw [byteCalls, writeEeprom8_byteCard h] at hcalls
      split_ifs at hcalls with hidle
      · obtain ⟨-, hresults, hwords⟩ := ih inert_selected hcalls
        exact ⟨.inl hidle.1, hresults, hwords⟩
      · cases hcalls
    | read location =>
      obtain ⟨c', hread, hinert, hwords⟩ := readEeprom_byteCard idle ioaddr ready h location
      rw [byteCalls, hread] at hcalls
      obtain ⟨⟨rest, d'⟩, hrest, heq⟩ := Option.map_eq_some_iff.mp hcalls
      cases heq
      obtain ⟨hno, hresults, hwords'⟩ := ih hinert hrest
      rw [hwords] at hresults hwords'
      refine ⟨hno.imp_right fun hno l v hmem => ?_, ?_, hwords'⟩
      · exact hno l v (by simpa using hmem)
      · rw [hresults]
        rfl

variable (ioaddr ready) in
/-- The calls return if no write waits for a line that stays low. -/
theorem byteCalls_returns (h : c.Inert)
    (hno : idle = true ∨ ∀ location data, ByteCall.write location data ∉ calls) :
    ∃ s, byteCalls (byteCard idle ioaddr) 1 ioaddr ⟨c, ready⟩ calls = some s := by
  induction calls generalizing c ready with
  | nil => exact ⟨_, rfl⟩
  | cons call calls ih =>
    have hno' : idle = true ∨ ∀ location data, ByteCall.write location data ∉ calls :=
      hno.imp_right fun hno l v hmem => hno l v (List.mem_cons_of_mem _ hmem)
    cases call with
    | write location data =>
      have hidle : idle = true := hno.resolve_right fun hno => hno location data List.mem_cons_self
      rw [byteCalls, writeEeprom8_byteCard h, if_pos ⟨hidle, Nat.one_pos⟩]
      exact ih _ inert_selected hno'
    | read location =>
      obtain ⟨c', hread, hinert, -⟩ := readEeprom_byteCard idle ioaddr ready h location
      obtain ⟨⟨results, d⟩, hrest⟩ := ih false hinert hno'
      rw [byteCalls, hread]
      exact ⟨_, Option.map_eq_some_iff.mpr ⟨_, hrest, rfl⟩⟩

/-- The reads of a sequence : its first call, and those of the rest. -/
theorem forall_reads_cons {p : List ByteCall → BitVec 7 → Prop} {call : ByteCall} :
    (∀ before location after, call :: calls = before ++ .read location :: after →
      p before location) ↔
      (∀ location, call = .read location → p [] location) ∧
        ∀ before location after, calls = before ++ .read location :: after →
          p (call :: before) location := by
  constructor
  · intro h
    refine ⟨fun location hcall => h [] location calls (by rw [hcall]; rfl), ?_⟩
    intro before location after hcalls
    exact h (call :: before) location after (by rw [hcalls]; rfl)
  · rintro ⟨hfirst, hrest⟩ before location after hcalls
    cases before with
    | nil =>
      cases hcalls
      exact hfirst location rfl
    | cons first before =>
      cases hcalls
      exact hrest before location after rfl

theorem setWidth_inj {a b : BitVec 8} : a.setWidth 32 = b.setWidth 32 ↔ a = b := by
  refine ⟨fun h => ?_, congrArg _⟩
  have hback : ∀ x : BitVec 8, (x.setWidth 32).setWidth 8 = x := by simp
  rw [← hback a, h, hback]

/-- The reads agree with a memory if each of them does. -/
theorem misreads_eq_iff {m w : BitVec 7 → BitVec 8} :
    misreads idle m calls = memoryReads w calls ↔
      ∀ before location after, calls = before ++ .read location :: after →
        memoryAfter w before location = misread idle m location := by
  induction calls generalizing w with
  | nil => simp [misreads, memoryReads]
  | cons call calls ih =>
    cases call with
    | write location data =>
      have hcons : misreads idle m (.write location data :: calls) = misreads idle m calls := rfl
      rw [forall_reads_cons, hcons, memoryReads, ih]
      simp [memoryAfter]
    | read location =>
      have hcons : misreads idle m (.read location :: calls) =
          (misread idle m location).setWidth 32 :: misreads idle m calls := rfl
      rw [forall_reads_cons, hcons, memoryReads, List.cons.injEq, ih, setWidth_inj]
      simp [memoryAfter, eq_comm]

/-- The driver acts on the bytes as a memory does exactly if no write waits for ever, and every
read happens to find the byte it should in the wrong place. -/
theorem bytes_memory_iff (idle : Bool) (ioaddr : BitVec 32) (d : ByteCard) (hcs : d.chip.cs = false)
    (calls : List ByteCall) :
    ActsAsMemory idle ioaddr d calls ↔
      (idle = true ∨ ∀ location data, ByteCall.write location data ∉ calls) ∧
      ∀ before location after, calls = before ++ .read location :: after →
        memoryAfter d.chip.words before location = misread idle d.chip.words location := by
  obtain ⟨c, ready⟩ := d
  have hinert : c.Inert := fun h => absurd (hcs.symm.trans h) (by decide)
  rw [← misreads_eq_iff]
  constructor
  · rintro ⟨polls, results, d', hcalls, hresults, -⟩
    obtain ⟨hno, hmis, -⟩ := byteCalls_eq_some hinert hcalls
    exact ⟨hno, hmis.symm.trans hresults⟩
  · rintro ⟨hno, hreads⟩
    obtain ⟨⟨results, d'⟩, hcalls⟩ := byteCalls_returns ioaddr ready hinert hno
    obtain ⟨-, hmis, hwords⟩ := byteCalls_eq_some hinert hcalls
    exact ⟨1, results, d', hcalls, hmis.trans hreads, fun location _ => congrFun hwords location⟩

/-- A blank chip that is not selected. -/
def blankBytes : ByteCard :=
  ⟨⟨fun _ => 0xff, false, false, false, none⟩, false⟩

/-- A chip whose byte at 10 is twice the byte that is written at 5. -/
def luckyBytes : ByteCard :=
  ⟨⟨fun location => if location = 10 then 0x24 else 0xff, false, false, false, none⟩, false⟩

/-- The reads find the right bytes in the wrong places. -/
theorem bytes_memory_iff_lucky :
    ActsAsMemory true 0x1000 luckyBytes [.write 5 0x12, .read 5, .read 100] := by
  have hreads : misreads true luckyBytes.chip.words [.write 5 0x12, .read 5, .read 100] =
      memoryReads luckyBytes.chip.words [.write 5 0x12, .read 5, .read 100] := by decide
  exact (bytes_memory_iff true 0x1000 luckyBytes rfl _).2 ⟨.inl rfl, misreads_eq_iff.1 hreads⟩

/-- The read returns seven bits of the byte at 10. -/
theorem bytes_memory_fails : ¬ ActsAsMemory true 0x1000 blankBytes [.write 5 0x12, .read 5] := by
  rintro ⟨polls, results, d, hcalls, hresults, -⟩
  obtain ⟨-, hmis, -⟩ := byteCalls_eq_some (fun h => by cases h) hcalls
  exact absurd (hmis.symm.trans hresults) (by decide)

end Calls

end LxToolset
