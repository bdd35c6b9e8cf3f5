import LxToolset.EepromChip
import Mathlib.Data.List.Induction

/-!
# The driver and the 93C46 are a memory

Each routine of the driver leaves the chip deselected, or, because of the exchanged
arguments of its last store, selected with a READ that the next call ends. From such a
state `write_eeprom` stores its word and disables writing, and `read_eeprom` returns the
word stored (`writeEeprom_chip`, `readEeprom_spec`). `eeprom_memory` carries this through
every sequence of calls : a read returns the data of the last write to its location.
-/

namespace LxToolset

open Bits

/-! ## Between two calls -/

/-- Deselecting the chip has no effect : it is deselected already, or took a READ. -/
def Chip.Quiet {aw dw : ℕ} (c : Chip aw dw) : Prop :=
  c.cs = true → ∃ bits, c.rx = some (true :: false :: bits)

section Access

variable {aw dw : ℕ} {ioaddr : BitVec 32} {d : NetCard aw dw}

theorem Chip.Quiet.of_cs {c : Chip aw dw} (h : c.cs = false) : c.Quiet := by
  intro hcs
  rw [h] at hcs
  cases hcs

theorem Chip.Quiet.setPins_low {c : Chip aw dw} (h : c.Quiet) :
    c.setPins (eeEnb &&& ~~~eeCs) = ⟨c.words, c.wen, false, false, none⟩ := by
  obtain ⟨words, wen, cs, sk, rx⟩ := c
  cases cs with
  | false => rfl
  | true =>
    obtain ⟨bits, hrx⟩ := h rfl
    dsimp only at hrx
    subst hrx
    have hexec : ∀ c : Chip aw dw, c.execute (true :: false :: bits) = c := by
      intro c
      simp [Chip.execute]
    simp [Chip.setPins, hexec, show eeEnb &&& ~~~eeCs &&& eeCs = 0 by decide,
      show eeEnb &&& ~~~eeCs &&& eeShiftClk = 0 by decide]

/-- An access starts with the chip selected and waiting for a start bit. -/
theorem selectChip_netCard (h : d.chip.Quiet) :
    (selectChip (netCard aw dw ioaddr) (ioaddr + cfg9346) d).chip =
      selected d.chip.words d.chip.wen false none := by
  rw [selectChip, netCard_outb_chip, netCard_outb_chip, h.setPins_low]
  rfl

/-- `~EE_CS` deselects the chip, and what it took takes effect. -/
theorem setPins_deselect {m : BitVec aw → BitVec dw} {wen sk : Bool} (bits : List Bool) :
    (selected m wen sk (some bits)).setPins (~~~eeCs) =
      { (Chip.mk m wen false true (some bits)).execute bits with rx := none } :=
  rfl

variable (ioaddr) in
/-- Selecting the chip and sending it `n` bits that end in an instruction. -/
theorem send_netCard (h : d.chip.Quiet) {cmd : BitVec 32} {n k : ℕ} {bits : List Bool}
    (hn : 0 < n) (hcmd : msb n cmd.toNat = List.replicate k false ++ true :: bits) :
    (shiftOut (netCard aw dw ioaddr) (ioaddr + cfg9346) cmd n
      (selectChip (netCard aw dw ioaddr) (ioaddr + cfg9346) d)).chip =
      selected d.chip.words d.chip.wen true (some bits) := by
  rw [shiftOut_netCard (selectChip_netCard h), hcmd, foldl_take_frame]
  simp [hn]

end Access

/-! ## The routines -/

section Routines

variable {ioaddr : BitVec 32} {d : NetCard 6 16}

/-- `location | cmd` for a command of three bits. -/
theorem toNat_location (location : BitVec 6) {c : ℕ} (hc : c < 8) :
    (location.setWidth 32 ||| BitVec.ofNat 32 c <<< 6).toNat = 2 ^ 6 * c + location.toNat := by
  have hl := location.isLt
  have hshift : (BitVec.ofNat 32 c <<< 6).toNat = c <<< 6 := by
    rw [BitVec.toNat_shiftLeft, BitVec.toNat_ofNat, Nat.mod_eq_of_lt (by omega : c < 2 ^ 32),
      Nat.mod_eq_of_lt (by rw [Nat.shiftLeft_eq]; omega)]
  rw [BitVec.or_comm, BitVec.toNat_or, BitVec.toNat_setWidth, hshift,
    Nat.mod_eq_of_lt (by omega : location.toNat < 2 ^ 32), ← Nat.shiftLeft_add_eq_or_of_lt hl,
    Nat.shiftLeft_eq, Nat.mul_comm]

/-- The command word of `write_eeprom`. -/
theorem toNat_writeCmd (location : BitVec 6) (data : BitVec 16) :
    ((location.setWidth 32 ||| eeWriteCmd) <<< 16 ||| data.setWidth 32).toNat =
      2 ^ 16 * (2 ^ 6 * 5 + location.toNat) + data.toNat := by
  have hd := data.isLt
  have hcmd : (location.setWidth 32 ||| eeWriteCmd).toNat = 2 ^ 6 * 5 + location.toNat :=
    toNat_location (c := 5) location (by omega)
  have hshift : ((location.setWidth 32 ||| eeWriteCmd) <<< 16).toNat =
      (2 ^ 6 * 5 + location.toNat) <<< 16 := by
    have hl := location.isLt
    rw [BitVec.toNat_shiftLeft, hcmd, Nat.mod_eq_of_lt]
    rw [Nat.shiftLeft_eq]
    omega
  have hdata : (data.setWidth 32).toNat = data.toNat := by
    rw [BitVec.toNat_setWidth, Nat.mod_eq_of_lt]
    omega
  rw [BitVec.toNat_or, hshift, hdata, ← Nat.shiftLeft_add_eq_or_of_lt hd, Nat.shiftLeft_eq,
    Nat.mul_comm]

/-- The bits of `write_eeprom`. -/
theorem msb_writeCmd (location : BitVec 6) (data : BitVec 16) :
    msb 27 ((location.setWidth 32 ||| eeWriteCmd) <<< 16 ||| data.setWidth 32).toNat =
      List.replicate 2 false ++ true ::
        (false :: true :: (msb 6 location.toNat ++ msb 16 data.toNat)) := by
  rw [toNat_writeCmd, msb_field (m := 11) data.isLt, msb_field (m := 5) location.isLt]
  rfl

/-- A field that is sent comes back. -/
theorem ofNat_ofMsb {w : ℕ} (v : BitVec w) : BitVec.ofNat w (ofMsb (msb w v.toNat)) = v := by
  rw [ofMsb_msb, Nat.mod_eq_of_lt v.isLt, BitVec.ofNat_toNat, BitVec.setWidth_eq]

variable (ioaddr) in
theorem writeEepromEnable_chip (h : d.chip.Quiet) :
    (writeEepromEnable (netCard 6 16 ioaddr) true ioaddr d).chip =
      ⟨d.chip.words, true, false, true, none⟩ := by
  have hcmd : msb 11 eeWenCmd.toNat = List.replicate 2 false ++ true ::
      [false, false, true, true, false, false, false, false] := by decide
  simp only [writeEepromEnable, commandBits, if_true, netCard_outb_chip,
    send_netCard _ h (by omega) hcmd, setPins_deselect]
  rfl

theorem writeEepromDisable_chip (h : d.chip.Quiet) :
    (writeEepromDisable (netCard 6 16 ioaddr) true ioaddr d).chip =
      ⟨d.chip.words, false, false, true, none⟩ := by
  have hcmd : msb 11 eeWdsCmd.toNat = List.replicate 2 false ++ true ::
      [false, false, false, false, false, false, false, false] := by decide
  simp only [writeEepromDisable, commandBits, if_true, netCard_outb_chip,
    send_netCard _ h (by omega) hcmd, setPins_deselect]
  rfl

/-- What a complete WRITE does while writing is enabled. -/
theorem execute_write (m : BitVec 6 → BitVec 16) (sk : Bool) (rx : Option (List Bool))
    (location : BitVec 6) (data : BitVec 16) :
    (Chip.mk m true false sk rx).execute
      (false :: true :: (msb 6 location.toNat ++ msb 16 data.toNat)) =
      ⟨Function.update m location data, true, false, sk, rx⟩ := by
  have haddr : Chip.address 6 (false :: true :: (msb 6 location.toNat ++ msb 16 data.toNat)) =
      location := by
    have htake : (msb 6 location.toNat ++ msb 16 data.toNat).take 6 = msb 6 location.toNat :=
      List.take_left' (length_msb ..)
    simp only [Chip.address, List.drop_succ_cons, List.drop_zero, htake, ofNat_ofMsb]
  have hdata : Chip.dataField 6 16 (false :: true :: (msb 6 location.toNat ++ msb 16 data.toNat)) =
      data := by
    have hdrop : (msb 6 location.toNat ++ msb 16 data.toNat).drop 6 = msb 16 data.toNat :=
      List.drop_left' (length_msb ..)
    have htake : (msb 16 data.toNat).take 16 = msb 16 data.toNat :=
      List.take_of_length_le (length_msb ..).le
    simp only [Chip.dataField, List.drop_succ_cons, Nat.add_comm 2, hdrop, htake, ofNat_ofMsb]
  simp [Chip.execute, haddr, hdata]

/-- `write_eeprom` stores its word, and leaves writing disabled. -/
theorem writeEeprom_chip (h : d.chip.Quiet) (location : BitVec 6) (data : BitVec 16) :
    (writeEeprom (netCard 6 16 ioaddr) true ioaddr (location.setWidth 32) data d).chip =
      ⟨Function.update d.chip.words location data, false, false, true, none⟩ := by
  have hen := writeEepromEnable_chip ioaddr h
  have hquiet : (writeEepromEnable (netCard 6 16 ioaddr) true ioaddr d).chip.Quiet :=
    .of_cs (by rw [hen])
  have hwrite := send_netCard ioaddr hquiet (by omega) (msb_writeCmd location data)
  rw [hen] at hwrite
  simp only [writeEeprom, netCard_inl, netCard_spin]
  rw [writeEepromDisable_chip, netCard_outb_chip, hwrite, setPins_deselect, execute_write]
  refine .of_cs ?_
  rw [netCard_outb_chip, hwrite, setPins_deselect, execute_write]

/-- The exchanged store does not reach the chip. -/
theorem outb_exchanged (v : UInt8) : ((netCard 6 16 ioaddr).outb v
    (ioaddr + ~~~eeCs.toBitVec.setWidth 32) d).chip = d.chip := by
  simp only [netCard, exchanged_ne, if_false]

/-- `read_eeprom` returns the word, and leaves the chip selected with a READ. -/
theorem readEeprom_spec (h : d.chip.Quiet) (location : BitVec 6) :
    (readEeprom (netCard 6 16 ioaddr) true ioaddr (location.setWidth 32) d).1 =
      (d.chip.words location).setWidth 32 ∧
    (readEeprom (netCard 6 16 ioaddr) true ioaddr (location.setWidth 32) d).2.chip =
      selected d.chip.words d.chip.wen false
        (some (true :: false :: (msb 6 location.toNat ++ List.replicate 16 false))) := by
  have hcmd : msb 11 (location.setWidth 32 ||| eeReadCmd).toNat =
      List.replicate 2 false ++ true :: (true :: false :: msb 6 location.toNat) := by
    have hread : (location.setWidth 32 ||| eeReadCmd).toNat = 2 ^ 6 * 6 + location.toNat :=
      toNat_location (c := 6) location (by omega)
    rw [hread, msb_field (m := 5) location.isLt]
    rfl
  obtain ⟨d₁, hd₁⟩ : ∃ d₁, d₁ = (netCard 6 16 ioaddr).outb eeEnb (ioaddr + cfg9346)
    (shiftOut (netCard 6 16 ioaddr) (ioaddr + cfg9346) (location.setWidth 32 ||| eeReadCmd) 11
      (selectChip (netCard 6 16 ioaddr) (ioaddr + cfg9346) d)) := ⟨_, rfl⟩
  have hchip : d₁.chip = selected d.chip.words d.chip.wen false
      (some (true :: false :: (msb 6 location.toNat ++ List.replicate 0 false))) := by
    rw [hd₁, netCard_outb_chip, send_netCard _ h (by omega) hcmd, setPins_enb, List.replicate_zero,
      List.append_nil]
  have hin := shiftIn_netCard ioaddr (msb 6 location.toNat) (length_msb ..) (k := 0)
    (v := 0)
    (show 0 + 16 = 16 from rfl) hchip
  rw [ofNat_ofMsb, Nat.mul_zero, Nat.zero_add, Nat.mod_eq_of_lt (d.chip.words location).isLt] at hin
  simp only [readEeprom, commandBits, wordBits, if_true, netCard_inl, outb_exchanged, ← hd₁]
  exact ⟨hin.1.trans (by simp), hin.2⟩

end Routines

/-! ## Sequences of calls -/

/-- A call of the driver. -/
inductive EepromCall where
  | write (location : BitVec 6) (data : BitVec 16)
  | read (location : BitVec 6)

/-- The data of the last write to a location. -/
def lastWrite (calls : List EepromCall) (location : BitVec 6) : Option (BitVec 16) :=
  calls.reverse.findSome? fun
    | .write l data => if l = location then some data else none
    | .read _ => none

section Calls

variable {δ : Type} (bus : Bus δ) (ioaddr : BitVec 32)

def callEeprom (d : δ) : EepromCall → δ
  | .write location data => writeEeprom bus true ioaddr (location.setWidth 32) data d
  | .read location => (readEeprom bus true ioaddr (location.setWidth 32) d).2

/-- The device after a sequence of calls. -/
def callsEeprom (d : δ) (calls : List EepromCall) : δ :=
  calls.foldl (callEeprom bus ioaddr) d

end Calls

section Memory

variable {ioaddr : BitVec 32} {d : NetCard 6 16} {calls : List EepromCall}

theorem lastWrite_snoc_write (location : BitVec 6) (data : BitVec 16) :
    lastWrite (calls ++ [.write location data]) =
      Function.update (lastWrite calls) location (some data) := by
  funext l
  by_cases h : l = location
  · subst h
    simp [lastWrite]
  · simp [lastWrite, h, Ne.symm h]

theorem lastWrite_snoc_read (location : BitVec 6) :
    lastWrite (calls ++ [.read location]) = lastWrite calls := by
  funext l
  simp [lastWrite]

variable (ioaddr) in
/-- One call keeps the chip quiet and acts on the words as on a memory. -/
theorem callEeprom_step (h : d.chip.Quiet) (call : EepromCall) :
    (callEeprom (netCard 6 16 ioaddr) ioaddr d call).chip.Quiet ∧
    (callEeprom (netCard 6 16 ioaddr) ioaddr d call).chip.words =
      match call with
      | .write location data => Function.update d.chip.words location data
      | .read _ => d.chip.words := by
  cases call with
  | write location data =>
    rw [callEeprom, writeEeprom_chip h]
    exact ⟨.of_cs rfl, rfl⟩
  | read location =>
    rw [callEeprom, (readEeprom_spec h location).2]
    exact ⟨fun _ => ⟨_, rfl⟩, rfl⟩

variable (ioaddr) in
/-- The chip after a sequence of calls. -/
theorem callsEeprom_chip (h : d.chip.Quiet) (calls : List EepromCall) :
    (callsEeprom (netCard 6 16 ioaddr) ioaddr d calls).chip.Quiet ∧
    (callsEeprom (netCard 6 16 ioaddr) ioaddr d calls).chip.words =
      fun location => (lastWrite calls location).getD (d.chip.words location) := by
  induction calls using List.reverseRecOn with
  | nil => exact ⟨h, rfl⟩
  | append_singleton calls call ih =>
    obtain ⟨hquiet, hwords⟩ := ih
    obtain ⟨hquiet', hwords'⟩ := callEeprom_step ioaddr hquiet call
    rw [callsEeprom, List.foldl_append, List.foldl_cons, List.foldl_nil, ← callsEeprom]
    refine ⟨hquiet', hwords'.trans ?_⟩
    cases call with
    | write location data =>
      funext l
      rw [hwords, lastWrite_snoc_write]
      by_cases hl : l = location
      · subst hl
        simp
      · simp [hl]
    | read location => rw [hwords, lastWrite_snoc_read]

/-- After any sequence of calls, every word is that of the last write to it, a read returns
it, and a write leaves writing disabled. -/
theorem eeprom_memory (ioaddr : BitVec 32) (d : NetCard 6 16) (hcs : d.chip.cs = false)
    (calls : List EepromCall) :
    (∀ location, (callsEeprom (netCard 6 16 ioaddr) ioaddr d calls).chip.words location =
      (lastWrite calls location).getD (d.chip.words location)) ∧
    (∀ location : BitVec 6, (readEeprom (netCard 6 16 ioaddr) true ioaddr (location.setWidth 32)
      (callsEeprom (netCard 6 16 ioaddr) ioaddr d calls)).1 =
      ((lastWrite calls location).getD (d.chip.words location)).setWidth 32) ∧
    ∀ (location : BitVec 6) (data : BitVec 16),
      (writeEeprom (netCard 6 16 ioaddr) true ioaddr (location.setWidth 32) data
        (callsEeprom (netCard 6 16 ioaddr) ioaddr d calls)).chip.wen = false := by
  obtain ⟨hquiet, hwords⟩ := callsEeprom_chip ioaddr (.of_cs hcs) calls
  refine ⟨fun location => congrFun hwords location, fun location => ?_, fun location data => ?_⟩
  · rw [(readEeprom_spec hquiet location).1, hwords]
  · rw [writeEeprom_chip hquiet]

/-- A blank chip that is not selected. -/
def blankCard : NetCard 6 16 :=
  ⟨⟨fun _ => 0xffff, false, false, false, none⟩, fun _ => 0⟩

theorem eeprom_memory_blank :
    (∀ location, (callsEeprom (netCard 6 16 0x1000) 0x1000 blankCard
      [.write 7 0x1234, .read 7]).chip.words location =
      (lastWrite [.write 7 0x1234, .read 7] location).getD (blankCard.chip.words location)) ∧
    (∀ location : BitVec 6, (readEeprom (netCard 6 16 0x1000) true 0x1000 (location.setWidth 32)
      (callsEeprom (netCard 6 16 0x1000) 0x1000 blankCard [.write 7 0x1234, .read 7])).1 =
      ((lastWrite [.write 7 0x1234, .read 7] location).getD
        (blankCard.chip.words location)).setWidth 32) ∧
    ∀ (location : BitVec 6) (data : BitVec 16),
      (writeEeprom (netCard 6 16 0x1000) true 0x1000 (location.setWidth 32) data
        (callsEeprom (netCard 6 16 0x1000) 0x1000 blankCard
        [.write 7 0x1234, .read 7])).chip.wen = false :=
  eeprom_memory 0x1000 blankCard rfl [.write 7 0x1234, .read 7]

end Memory

end LxToolset
