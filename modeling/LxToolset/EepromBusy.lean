import LxToolset.EepromMemory

/-!
# A chip that takes time to program

The 93C46 is busy for a while after the falling edge of CS that starts a WRITE, and ignores
what is clocked into it. `write_eeprom` goes on with `write_eeprom_disable` at once and waits
afterwards : its word is stored, but writing is disabled only if the chip is ready again before
the start bit of that command (`writes_protected_iff`).
-/

namespace LxToolset

open Bits

/-- Deselecting the chip starts a WRITE. -/
def Chip.startsWrite {aw dw : ℕ} (c : Chip aw dw) : Bool :=
  c.cs && c.wen &&
    match c.rx with
    | some (false :: true :: bits) => decide (aw + dw ≤ bits.length)
    | _ => false

/-- The chip and its clock. Time is counted in accesses of the driver and rounds of its empty
loop. -/
structure BusyCard where
  chip : Chip 6 16
  /-- For how long the chip is busy. -/
  busy : ℕ
  /-- For how long the next WRITEs will keep it busy. -/
  times : ℕ → ℕ

namespace BusyCard

def tick (d : BusyCard) : BusyCard :=
  { d with busy := d.busy - 1 }

/-- A store to `Cfg9346`. The levels of the pins are those stored also while the chip ignores
them. -/
def setPins (d : BusyCard) (v : UInt8) : BusyCard :=
  if 0 < d.busy then
    { d with
      chip := { d.chip with cs := v &&& eeCs != 0, sk := v &&& eeShiftClk != 0 }
      busy := d.busy - 1 }
  else if d.chip.startsWrite && v &&& eeCs == 0 then
    { chip := d.chip.setPins v, busy := d.times 0, times := fun k => d.times (k + 1) }
  else { d with chip := d.chip.setPins v }

end BusyCard

/-- A card whose registers start at `ioaddr`. DO is low while the chip is busy. -/
def busyCard (ioaddr : BitVec 32) : Bus BusyCard where
  outb v a d := if a = ioaddr + cfg9346 then d.setPins v else d.tick
  inb a d :=
    (if a = ioaddr + cfg9346 ∧ d.busy = 0 ∧ d.chip.dout = true then eeDataRead else 0, d.tick)
  inl _ d := d.tick
  spin n d := { d with busy := d.busy - n }

/-- How long the first store of the next call finds the chip busy : with a WRITE under way, or
with one that this store starts. -/
def BusyCard.pending (d : BusyCard) : ℕ :=
  if 0 < d.busy then d.busy - 1 else if d.chip.startsWrite then d.times 0 else 0

/-- How long the WRITEs of the next calls will keep the chip busy. -/
def BusyCard.callTimes (d : BusyCard) : ℕ → ℕ :=
  if d.busy = 0 ∧ d.chip.startsWrite = true then fun k => d.times (k + 1) else d.times

/-- The chip is busy only with a WRITE, and ready in time for the next call. -/
structure BusyCard.Settled (d : BusyCard) : Prop where
  programs : 0 < d.busy → d.chip.wen = true ∧ d.chip.rx = none
  soon : d.pending ≤ 58

/-- Calls of `write_eeprom`. -/
def writesEeprom {δ : Type} (bus : Bus δ) (ioaddr : BitVec 32) (d : δ)
    (calls : List (BitVec 6 × BitVec 16)) : δ :=
  calls.foldl (fun d call => writeEeprom bus true ioaddr (call.1.setWidth 32) call.2 d) d

/-- The word is stored, the chip ready and protected. -/
structure Protected (d : BusyCard) (location : BitVec 6) (data : BitVec 16) : Prop where
  stored : d.chip.words location = data
  ready : d.busy = 0
  disabled : d.chip.wen = false

/-! ## Accesses -/

section Accesses

variable {ioaddr : BitVec 32} {d : BusyCard} {m : BitVec 6 → BitVec 16} {wen sk : Bool}
  {rx : Option (List Bool)} {b : ℕ} {t : ℕ → ℕ}

@[simp] theorem busyCard_outb (v : UInt8) :
    (busyCard ioaddr).outb v (ioaddr + cfg9346) d = d.setPins v :=
  if_pos rfl

@[simp] theorem busyCard_inl (a : BitVec 32) : (busyCard ioaddr).inl a d = d.tick :=
  rfl

@[simp] theorem busyCard_spin (n : ℕ) :
    (busyCard ioaddr).spin n d = { d with busy := d.busy - n } :=
  rfl

theorem tick_mk (c : Chip 6 16) : (BusyCard.mk c b t).tick = ⟨c, b - 1, t⟩ :=
  rfl

theorem setPins_of_busy (hb : 0 < b) (c : Chip 6 16) (v : UInt8) :
    (BusyCard.mk c b t).setPins v =
      ⟨{ c with cs := v &&& eeCs != 0, sk := v &&& eeShiftClk != 0 }, b - 1, t⟩ :=
  if_pos hb

/-- A ready chip follows its pins. -/
theorem setPins_of_ready {c : Chip 6 16} {v : UInt8}
    (h : c.startsWrite = false ∨ v &&& eeCs ≠ 0) :
    (BusyCard.mk c 0 t).setPins v = ⟨c.setPins v, 0, t⟩ := by
  have hno : (c.startsWrite && v &&& eeCs == 0) = false := by
    rcases h with h | h <;> simp [h]
  simp [BusyCard.setPins, hno]

theorem setPins_of_startsWrite {c : Chip 6 16} {v : UInt8} (h : c.startsWrite = true)
    (hv : v &&& eeCs = 0) :
    (BusyCard.mk c 0 t).setPins v = ⟨c.setPins v, t 0, fun k => t (k + 1)⟩ := by
  simp [BusyCard.setPins, h, hv]

/-- A clock that is low, busy or not. -/
theorem setPins_busy_low (bit : Bool) :
    (BusyCard.mk (selected m wen sk rx) b t).setPins (eeEnb ||| dataval bit) =
      ⟨selected m wen false rx, b - 1, t⟩ := by
  rcases Nat.eq_zero_or_pos b with rfl | hb
  · rw [setPins_of_ready (.inr (by cases bit <;> decide)), setPins_low]
  · rw [setPins_of_busy hb]
    cases bit <;> rfl

/-- A busy chip does not take the bit. -/
theorem setPins_busy_high (bit : Bool) :
    (BusyCard.mk (selected m wen false rx) b t).setPins (eeEnb ||| dataval bit ||| eeShiftClk) =
      ⟨selected m wen true (if b = 0 then Chip.take rx bit else rx), b - 1, t⟩ := by
  rcases Nat.eq_zero_or_pos b with rfl | hb
  · rw [setPins_of_ready (.inr (by cases bit <;> decide)), setPins_high, if_pos rfl]
  · rw [setPins_of_busy hb, if_neg hb.ne']
    cases bit <;> rfl

theorem shiftBit_busyCard (bit : Bool) :
    shiftBit (busyCard ioaddr) (ioaddr + cfg9346) bit ⟨selected m wen sk rx, b, t⟩ =
      ⟨selected m wen true (if b < 3 then Chip.take rx bit else rx), b - 4, t⟩ := by
  have htest : b - 1 - 1 = 0 ↔ b < 3 := by omega
  simp only [shiftBit, busyCard_outb, busyCard_inl, setPins_busy_low, tick_mk, setPins_busy_high,
    htest]
  congr 1

/-- The chip takes the bits that are clocked in after it has become ready. -/
theorem shiftOut_busyCard (cmd : BitVec 32) (n : ℕ) :
    shiftOut (busyCard ioaddr) (ioaddr + cfg9346) cmd n ⟨selected m wen sk rx, b, t⟩ =
      ⟨selected m wen (sk || decide (0 < n))
        (((msb n cmd.toNat).drop ((b + 1) / 4)).foldl Chip.take rx), b - 4 * n, t⟩ := by
  induction n generalizing sk rx b with
  | zero => simp [shiftOut, msb]
  | succ n ih =>
    have hbusy : b - 4 - 4 * n = b - 4 * (n + 1) := by omega
    rw [shiftOut, shiftBit_busyCard, ih, msb, hbusy, ← BitVec.testBit_toNat]
    by_cases hb : b < 3
    · have hdrop : (b + 1) / 4 = 0 := by omega
      have hdrop' : (b - 4 + 1) / 4 = 0 := by omega
      simp [hb, hdrop, hdrop']
    · have hdrop : (b + 1) / 4 = (b - 4 + 1) / 4 + 1 := by omega
      simp [hb, hdrop]

/-- Raising CS of a chip that waits for a start bit. -/
theorem setPins_busy_enb : (BusyCard.mk ⟨m, wen, false, false, none⟩ b t).setPins eeEnb =
    ⟨selected m wen false none, b - 1, t⟩ := by
  rcases Nat.eq_zero_or_pos b with rfl | hb
  · rw [setPins_of_ready (.inl rfl)]
    rfl
  · rw [setPins_of_busy hb]
    rfl

/-- Selecting a chip that waits for a start bit. -/
theorem selectChip_busyCard :
    selectChip (busyCard ioaddr) (ioaddr + cfg9346) ⟨⟨m, wen, false, sk, none⟩, b, t⟩ =
      ⟨selected m wen false none, b - 2, t⟩ := by
  have hlow : (BusyCard.mk ⟨m, wen, false, sk, none⟩ b t).setPins (eeEnb &&& ~~~eeCs) =
      ⟨⟨m, wen, false, false, none⟩, b - 1, t⟩ := by
    rcases Nat.eq_zero_or_pos b with rfl | hb
    · rw [setPins_of_ready (.inl rfl)]
      rfl
    · rw [setPins_of_busy hb]
      rfl
  rw [selectChip, busyCard_outb, busyCard_outb, hlow, setPins_busy_enb]
  rfl

end Accesses

/-! ## Commands -/

section Commands

variable {ioaddr : BitVec 32} {m : BitVec 6 → BitVec 16} {wen : Bool} {b : ℕ} {t : ℕ → ℕ}

/-- The bits of a command that a selected chip takes. -/
theorem send_busyCard (cmd : BitVec 32) {n : ℕ} (hn : 0 < n) :
    shiftOut (busyCard ioaddr) (ioaddr + cfg9346) cmd n ⟨selected m wen false none, b, t⟩ =
      ⟨selected m wen true (((msb n cmd.toNat).drop ((b + 1) / 4)).foldl Chip.take none),
        b - 4 * n, t⟩ := by
  rw [shiftOut_busyCard, decide_eq_true hn]
  rfl

/-- Deselecting a chip that is still busy. -/
theorem setPins_busy_deselect (hb : 0 < b) :
    (BusyCard.mk (selected m wen true none) b t).setPins (~~~eeCs) =
      ⟨⟨m, wen, false, true, none⟩, b - 1, t⟩ := by
  rw [setPins_of_busy hb]
  rfl

/-- Deselecting a chip that has not taken a whole instruction. -/
theorem setPins_short_deselect {rx : Option (List Bool)} (h : (rx.getD []).length < 8) :
    (BusyCard.mk (selected m wen true rx) 0 t).setPins (~~~eeCs) =
      ⟨⟨m, wen, false, true, none⟩, 0, t⟩ := by
  have hstart : (selected m wen true rx).startsWrite = false := by
    simp only [Chip.startsWrite, selected, Bool.true_and, Bool.and_eq_false_iff]
    right
    split
    · simp only [Option.getD_some, List.length_cons] at h
      simp only [decide_eq_false_iff_not]
      omega
    · rfl
  have hexec : (Chip.mk m wen false true rx).execute (rx.getD []) = ⟨m, wen, false, true, rx⟩ :=
    if_pos (show (rx.getD []).length < 2 + 6 from h)
  rw [setPins_of_ready (.inl hstart)]
  change BusyCard.mk { (Chip.mk m wen false true rx).execute (rx.getD []) with rx := none } 0 t = _
  rw [hexec]

/-- A command of eleven bits that reaches a chip which is still busy at its start bit is lost. -/
theorem sendLate_busyCard {cmd : BitVec 32} (hb : 10 < b)
    (hpart : ∀ j ≤ 11, 2 < j →
      ((((msb 11 cmd.toNat).drop j).foldl Chip.take none).getD []).length < 8) :
    (busyCard ioaddr).outb (~~~eeCs) (ioaddr + cfg9346)
      (shiftOut (busyCard ioaddr) (ioaddr + cfg9346) cmd 11 ⟨selected m wen false none, b, t⟩) =
      ⟨⟨m, wen, false, true, none⟩, b - 45, t⟩ := by
  rw [send_busyCard _ (by omega), busyCard_outb]
  rcases Nat.eq_zero_or_pos (b - 4 * 11) with hready | hbusy
  · have hzero : b - 45 = 0 := by omega
    rw [hready, hzero, setPins_short_deselect (hpart _ (by omega) (by omega))]
  · have hdrop : (msb 11 cmd.toNat).length ≤ (b + 1) / 4 := by
      rw [length_msb]
      omega
    rw [List.drop_of_length_le hdrop]
    exact (setPins_busy_deselect hbusy).trans (by rw [Nat.sub_sub])

/-- EWEN leaves writing enabled, also if it reaches a chip that has become ready in the middle
of it. -/
theorem sendEnable_busyCard (h : b = 0 ∨ wen = true) :
    (busyCard ioaddr).outb (~~~eeCs) (ioaddr + cfg9346)
      (shiftOut (busyCard ioaddr) (ioaddr + cfg9346) eeWenCmd 11
        ⟨selected m wen false none, b, t⟩) =
      ⟨⟨m, true, false, true, none⟩, b - 45, t⟩ := by
  have hwhole : ∀ j ≤ 2, ((msb 11 eeWenCmd.toNat).drop j).foldl Chip.take none =
      some [false, false, true, true, false, false, false, false] := by decide
  by_cases hb : 10 < b
  · obtain rfl : wen = true := h.resolve_left (by omega)
    exact sendLate_busyCard hb (by decide)
  · have hready : b - 4 * 11 = 0 := by omega
    have hzero : b - 45 = 0 := by omega
    rw [send_busyCard _ (by omega), busyCard_outb, hwhole _ (by omega), hready, hzero,
      setPins_of_ready (.inl (by cases wen <;> rfl))]
    rfl

/-- EWDS disables writing if the chip is ready before its start bit. -/
theorem sendDisable_busyCard :
    (busyCard ioaddr).outb (~~~eeCs) (ioaddr + cfg9346)
      (shiftOut (busyCard ioaddr) (ioaddr + cfg9346) eeWdsCmd 11
        ⟨selected m true false none, b, t⟩) =
      ⟨⟨m, decide (10 < b), false, true, none⟩, b - 45, t⟩ := by
  have hwhole : ∀ j ≤ 2, ((msb 11 eeWdsCmd.toNat).drop j).foldl Chip.take none =
      some [false, false, false, false, false, false, false, false] := by decide
  by_cases hb : 10 < b
  · rw [decide_eq_true hb]
    exact sendLate_busyCard hb (by decide)
  · have hready : b - 4 * 11 = 0 := by omega
    have hzero : b - 45 = 0 := by omega
    rw [send_busyCard _ (by omega), busyCard_outb, hwhole _ (by omega), hready, hzero,
      setPins_of_ready (.inl rfl), decide_eq_false hb]
    rfl

/-- WRITE is started if the chip is ready before its start bit. -/
theorem sendWrite_busyCard (hb : b ≤ 10) (location : BitVec 6) (data : BitVec 16) :
    (busyCard ioaddr).outb (~~~eeCs) (ioaddr + cfg9346)
      (shiftOut (busyCard ioaddr) (ioaddr + cfg9346)
        ((location.setWidth 32 ||| eeWriteCmd) <<< 16 ||| data.setWidth 32) 27
        ⟨selected m true false none, b, t⟩) =
      ⟨⟨Function.update m location data, true, false, true, none⟩, t 0, fun k => t (k + 1)⟩ := by
  have hdrop : (b + 1) / 4 ≤ 2 := by omega
  have hready : b - 4 * 27 = 0 := by omega
  have hstart : (selected m true true (some (false :: true ::
      (msb 6 location.toNat ++ msb 16 data.toNat)))).startsWrite = true := by
    simp [Chip.startsWrite, selected]
  rw [send_busyCard _ (by omega), msb_writeCmd,
    List.drop_append_of_le_length (by simpa using hdrop), List.drop_replicate, foldl_take_frame,
    hready, busyCard_outb, setPins_of_startsWrite hstart rfl, setPins_deselect, execute_write]

end Commands

/-! ## Calls -/

section Calls

variable {ioaddr : BitVec 32} {d : BusyCard} {m : BitVec 6 → BitVec 16} {wen sk : Bool} {b : ℕ}
  {t : ℕ → ℕ}

/-- A call, from its first store on. -/
theorem writeEeprom_busyCard (hfirst : d.setPins (eeEnb &&& ~~~eeCs) =
      ⟨⟨m, wen, false, false, none⟩, b, t⟩) (h : b = 0 ∨ wen = true) (hb : b ≤ 58)
    (ht : t 0 < 600048) (location : BitVec 6) (data : BitVec 16) :
    writeEeprom (busyCard ioaddr) true ioaddr (location.setWidth 32) data d =
      ⟨⟨Function.update m location data, decide (13 < t 0), false, true, none⟩, 0,
        fun k => t (k + 1)⟩ := by
  have hselect : selectChip (busyCard ioaddr) (ioaddr + cfg9346) d =
      ⟨selected m wen false none, b - 1, t⟩ := by
    rw [selectChip, busyCard_outb, busyCard_outb, hfirst, setPins_busy_enb]
  have henable : writeEepromEnable (busyCard ioaddr) true ioaddr d =
      ⟨⟨m, true, false, true, none⟩, b - 1 - 45, t⟩ := by
    rw [writeEepromEnable, hselect]
    exact sendEnable_busyCard (h.imp (by rintro rfl; rfl) id)
  have hbusy : t 0 - 1 - 2 - 45 - 600000 = 0 := by omega
  have hlate : 10 < t 0 - 1 - 2 ↔ 13 < t 0 := by omega
  rw [writeEeprom, henable]
  simp only [selectChip_busyCard, sendWrite_busyCard (show b - 1 - 45 - 2 ≤ 10 by omega)]
  simp only [busyCard_inl, tick_mk, busyCard_spin, writeEepromDisable, selectChip_busyCard,
    commandBits, if_true, sendDisable_busyCard, hbusy, hlate]

theorem execute_eq {aw dw : ℕ} (c : Chip aw dw) (bits : List Bool) :
    ∃ m w, c.execute bits = ⟨m, w, c.cs, c.sk, c.rx⟩ := by
  by_cases hlen : bits.length < 2 + aw
  · exact ⟨_, _, if_pos hlen⟩
  unfold Chip.execute
  rw [if_neg hlen]
  split
  · exact ⟨_, _, rfl⟩
  · exact ⟨_, _, rfl⟩
  · split_ifs <;> exact ⟨_, _, rfl⟩
  · exact ⟨_, _, rfl⟩

/-- A WRITE leaves writing enabled. -/
theorem execute_write_wen {aw dw : ℕ} (c : Chip aw dw) (bits : List Bool) :
    (c.execute (false :: true :: bits)).wen = c.wen := by
  unfold Chip.execute
  split_ifs <;> rfl

/-- The first store of a call deselects the chip. -/
theorem setPins_first {aw dw : ℕ} (c : Chip aw dw) :
    ∃ m w, c.setPins (eeEnb &&& ~~~eeCs) = ⟨m, w, false, false, none⟩ ∧
      (c.startsWrite = true → w = true) := by
  obtain ⟨m, w, cs, sk, rx⟩ := c
  cases cs with
  | false => exact ⟨m, w, rfl, fun h => by simp [Chip.startsWrite] at h⟩
  | true =>
    obtain ⟨m', w', hexec⟩ := execute_eq (Chip.mk m w false false rx) (rx.getD [])
    refine ⟨m', w', ?_, fun h => ?_⟩
    · change { (Chip.mk m w false false rx).execute (rx.getD []) with rx := none } = _
      rw [hexec]
    · simp only [Chip.startsWrite, Bool.true_and, Bool.and_eq_true] at h
      obtain ⟨hw, h⟩ := h
      split at h
      · rename_i bits
        have hkeep := execute_write_wen ⟨m, w, false, false, some (false :: true :: bits)⟩ bits
        rw [Option.getD_some] at hexec
        rw [hexec] at hkeep
        exact hkeep.trans hw
      · cases h

/-- What the first store of a call leaves of a settled chip. -/
theorem setPins_settled (h : d.Settled) :
    ∃ m w, d.setPins (eeEnb &&& ~~~eeCs) =
      ⟨⟨m, w, false, false, none⟩, d.pending, d.callTimes⟩ ∧ (d.pending = 0 ∨ w = true) := by
  obtain ⟨c, b, t⟩ := d
  rcases Nat.eq_zero_or_pos b with rfl | hb
  · obtain ⟨m, w, hpins, hw⟩ := setPins_first c
    cases hstart : c.startsWrite with
    | false =>
      refine ⟨m, w, ?_, .inl (by simp [BusyCard.pending, hstart])⟩
      rw [setPins_of_ready (.inl hstart), hpins]
      simp [BusyCard.pending, BusyCard.callTimes, hstart]
    | true =>
      refine ⟨m, w, ?_, .inr (hw hstart)⟩
      rw [setPins_of_startsWrite hstart rfl, hpins]
      simp [BusyCard.pending, BusyCard.callTimes, hstart]
  · obtain ⟨hwen, hrx⟩ := h.programs hb
    obtain ⟨m, w, cs, sk, rx⟩ := c
    refine ⟨m, w, ?_, .inr hwen⟩
    obtain rfl : rx = none := hrx
    rw [setPins_of_busy hb]
    simp [BusyCard.pending, BusyCard.callTimes, hb, hb.ne',
      show eeEnb &&& ~~~eeCs &&& eeCs = 0 by decide,
      show eeEnb &&& ~~~eeCs &&& eeShiftClk = 0 by decide]

variable (ioaddr) in
/-- One call of a settled chip. -/
theorem writeEeprom_settled (h : d.Settled) (ht : d.callTimes 0 < 600048) (location : BitVec 6)
    (data : BitVec 16) :
    ∃ m, writeEeprom (busyCard ioaddr) true ioaddr (location.setWidth 32) data d =
      ⟨⟨Function.update m location data, decide (13 < d.callTimes 0), false, true, none⟩, 0,
        fun k => d.callTimes (k + 1)⟩ := by
  obtain ⟨m, w, hfirst, hw⟩ := setPins_settled h
  exact ⟨m, writeEeprom_busyCard hfirst hw h.soon ht location data⟩

/-- The chip after a call. -/
theorem settled_deselected (c : Chip 6 16) (hcs : c.cs = false) :
    (BusyCard.mk c 0 t).Settled ∧ (BusyCard.mk c 0 t).callTimes = t := by
  have hstart : c.startsWrite = false := by simp [Chip.startsWrite, hcs]
  refine ⟨⟨fun h => absurd h (Nat.lt_irrefl 0), ?_⟩, ?_⟩
  · simp [BusyCard.pending, hstart]
  · simp [BusyCard.callTimes, hstart]

theorem writesEeprom_cons {δ : Type} (bus : Bus δ) (d : δ) (location : BitVec 6) (data : BitVec 16)
    (calls : List (BitVec 6 × BitVec 16)) :
    writesEeprom bus ioaddr d ((location, data) :: calls) = writesEeprom bus ioaddr
      (writeEeprom bus true ioaddr (location.setWidth 32) data d) calls :=
  rfl

variable (ioaddr) in
theorem protected_writeEeprom (h : d.Settled) (ht : d.callTimes 0 < 600048) (location : BitVec 6)
    (data : BitVec 16) :
    Protected (writeEeprom (busyCard ioaddr) true ioaddr (location.setWidth 32) data d) location
      data ↔ d.callTimes 0 ≤ 13 := by
  obtain ⟨m, hcall⟩ := writeEeprom_settled ioaddr h ht location data
  rw [hcall]
  refine ⟨fun hp => by simpa using hp.disabled, fun ht => ⟨?_, rfl, ?_⟩⟩
  · exact Function.update_self ..
  · exact decide_eq_false (by omega)

/-- In a run from a settled chip whose WRITEs end before the delay does, every word is stored
and the chip is ready, but protected only if the WRITE is over before the start bit of
`write_eeprom_disable`, 13 accesses after it has started. -/
theorem writes_protected_iff (ioaddr : BitVec 32) (d : BusyCard) (h : d.Settled)
    (calls : List (BitVec 6 × BitVec 16)) (ht : ∀ i < calls.length, d.callTimes i < 600048) :
    (∀ i (hi : i < calls.length), Protected (writesEeprom (busyCard ioaddr) ioaddr d
      (calls.take (i + 1))) calls[i].1 calls[i].2) ↔
      ∀ i < calls.length, d.callTimes i ≤ 13 := by
  induction calls generalizing d with
  | nil => simp
  | cons call calls ih =>
    obtain ⟨location, data⟩ := call
    have ht0 : d.callTimes 0 < 600048 := ht 0 (Nat.succ_pos _)
    obtain ⟨m, hcall⟩ := writeEeprom_settled ioaddr h ht0 location data
    have htail := settled_deselected (t := fun k => d.callTimes (k + 1))
      ⟨Function.update m location data, decide (13 < d.callTimes 0), false, true, none⟩ rfl
    rw [← hcall] at htail
    have hrest := ih _ htail.1 (by
      intro i hi
      rw [htail.2]
      exact ht (i + 1) (Nat.succ_lt_succ hi))
    rw [htail.2] at hrest
    have hfirst := protected_writeEeprom ioaddr h ht0 location data
    constructor
    · intro hall i hi
      cases i with
      | zero => exact hfirst.mp (hall 0 hi)
      | succ i =>
        refine hrest.mp (fun j hj => ?_) i (Nat.lt_of_succ_lt_succ hi)
        exact hall (j + 1) (Nat.succ_lt_succ hj)
    · intro hall i hi
      cases i with
      | zero => exact hfirst.mpr (hall 0 hi)
      | succ i =>
        exact hrest.mpr (fun j hj => hall (j + 1) (Nat.succ_lt_succ hj)) i
          (Nat.lt_of_succ_lt_succ hi)

/-- A chip that is not selected, and takes `n` accesses for a WRITE. -/
def readyCard (n : ℕ) : BusyCard :=
  ⟨⟨fun _ => 0xffff, false, false, false, none⟩, 0, fun _ => n⟩

theorem settled_readyCard (n : ℕ) : (readyCard n).Settled ∧ (readyCard n).callTimes = fun _ => n :=
  settled_deselected _ rfl

/-- A chip that takes 5 accesses for a WRITE is protected after each of two words. -/
theorem writes_protected_iff_fast :
    Protected (writesEeprom (busyCard 0x1000) 0x1000 (readyCard 5) [(7, 0x1234)]) 7 0x1234 ∧
      Protected (writesEeprom (busyCard 0x1000) 0x1000 (readyCard 5)
        [(7, 0x1234), (9, 0x5678)]) 9 0x5678 := by
  obtain ⟨hsettled, htimes⟩ := settled_readyCard 5
  have hall := (writes_protected_iff 0x1000 (readyCard 5) hsettled [(7, 0x1234), (9, 0x5678)]
    (by simp [htimes])).2 (by simp [htimes])
  exact ⟨hall 0 two_pos, hall 1 one_lt_two⟩

/-- A chip that is still busy when it is told to disable writing. -/
theorem writeEeprom_not_protected : ¬ Protected
    (writesEeprom (busyCard 0x1000) 0x1000 (readyCard 1000) [(7, 0x1234)]) 7 0x1234 := by
  obtain ⟨hsettled, htimes⟩ := settled_readyCard 1000
  have ht : (readyCard 1000).callTimes 0 = 1000 := congrFun htimes 0
  rw [writesEeprom_cons]
  intro h
  have hle := (protected_writeEeprom 0x1000 hsettled (by omega) 7 0x1234).mp h
  omega

end Calls

end LxToolset
