import LxToolset.Eeprom

/-!
# What the driver stores where

The driver over a bus that records its accesses and gives any answers. The routines access the
register `Cfg9346` only, but for the last store of `read_eeprom`, and `write_eeprom8` returns
with the chip selected : `leavesDeselected_iff`.
-/

namespace LxToolset

/-- An access of a device address. -/
inductive BusAccess where
  | store (a : BitVec 32) (v : UInt8)
  | load (a : BitVec 32)
  deriving DecidableEq

namespace BusAccess

def addr : BusAccess → BitVec 32
  | store a _ | load a => a

end BusAccess

/-- The accesses made, and what the device returns to the next ones. -/
structure Recording where
  accesses : List BusAccess
  answers : ℕ → UInt8

namespace Recording

def store (d : Recording) (a : BitVec 32) (v : UInt8) : Recording :=
  { d with accesses := d.accesses ++ [.store a v] }

def load (d : Recording) (a : BitVec 32) : Recording :=
  { accesses := d.accesses ++ [.load a], answers := fun n => d.answers (n + 1) }

end Recording

/-- The stores among the accesses. -/
def Recording.stores (d : Recording) : List (BitVec 32 × UInt8) :=
  d.accesses.filterMap fun
    | .store a v => some (a, v)
    | .load _ => none

def recordingBus : Bus Recording where
  outb v a d := d.store a v
  inb a d := (d.answers 0, d.load a)
  inl a d := d.load a
  spin _ d := d

/-- The routines that access the EEPROM. -/
inductive EepromRoutine where
  | writeEeprom
  | writeEeprom8
  | readEeprom

/-- A call of the routine; `none` : it still waits after `polls` polls. -/
def EepromRoutine.call {δ : Type} (bus : Bus δ) (bits16 : Bool) (polls : ℕ)
    (ioaddr location : BitVec 32) (data : BitVec 16) (d : δ) : EepromRoutine → Option δ
  | .writeEeprom => some (LxToolset.writeEeprom bus bits16 ioaddr location data d)
  | .writeEeprom8 => LxToolset.writeEeprom8 bus bits16 polls ioaddr location data d
  | .readEeprom => some (LxToolset.readEeprom bus bits16 ioaddr location d).2

/-- The call returns, has stored to `Cfg9346` only, and `EE_CS` is low in its last store. -/
def EepromRoutine.LeavesDeselected (r : EepromRoutine) (bits16 : Bool) (ioaddr location : BitVec 32)
    (data : BitVec 16) (answers : ℕ → UInt8) : Prop :=
  ∃ polls d, r.call recordingBus bits16 polls ioaddr location data ⟨[], answers⟩ = some d ∧
    (∀ x ∈ d.stores, x.1 = ioaddr + cfg9346) ∧
      ∃ v, d.stores.getLast? = some (ioaddr + cfg9346, v) ∧ v &&& eeCs = 0

/-! ## Accesses of one address -/

/-- From `d` to `d'` this address is accessed and no other. -/
def AccessesOnly (a : BitVec 32) (d d' : Recording) : Prop :=
  ∃ l, d'.accesses = d.accesses ++ l ∧ ∀ x ∈ l, x.addr = a

section Routines

variable {a : BitVec 32} {d d' d'' : Recording}

theorem AccessesOnly.refl (a : BitVec 32) (d : Recording) : AccessesOnly a d d :=
  ⟨[], (List.append_nil _).symm, by simp⟩

theorem AccessesOnly.trans (h : AccessesOnly a d d') (h' : AccessesOnly a d' d'') :
    AccessesOnly a d d'' := by
  obtain ⟨l, hl, hall⟩ := h
  obtain ⟨l', hl', hall'⟩ := h'
  exact ⟨l ++ l', by rw [hl', hl, List.append_assoc], List.forall_mem_append.2 ⟨hall, hall'⟩⟩

theorem AccessesOnly.store (h : AccessesOnly a d d') (v : UInt8) :
    AccessesOnly a d (d'.store a v) :=
  h.trans ⟨[.store a v], rfl, by simp [BusAccess.addr]⟩

theorem AccessesOnly.load (h : AccessesOnly a d d') : AccessesOnly a d (d'.load a) :=
  h.trans ⟨[.load a], rfl, by simp [BusAccess.addr]⟩

theorem accesses_selectChip (h : AccessesOnly a d d') :
    AccessesOnly a d (selectChip recordingBus a d') :=
  (h.store _).store _

theorem accesses_shiftOut (cmd : BitVec 32) (n : ℕ) (h : AccessesOnly a d d') :
    AccessesOnly a d (shiftOut recordingBus a cmd n d') := by
  induction n generalizing d' with
  | zero => exact h
  | succ n ih => exact ih ((h.store _).load.store _).load

theorem accesses_pollReady (polls : ℕ) (h : AccessesOnly a d d')
    (hpoll : pollReady recordingBus a polls d' = some d'') : AccessesOnly a d d'' :=
  pollReady_invariant recordingBus (fun _ hd => hd.load) (fun _ hd => (hd.store _).load) h hpoll

variable {ioaddr : BitVec 32}

theorem accesses_writeEepromEnable (bits16 : Bool) (h : AccessesOnly (ioaddr + cfg9346) d d') :
    AccessesOnly (ioaddr + cfg9346) d (writeEepromEnable recordingBus bits16 ioaddr d') :=
  (accesses_shiftOut _ _ (accesses_selectChip h)).store _

theorem accesses_writeEepromDisable (bits16 : Bool) (h : AccessesOnly (ioaddr + cfg9346) d d') :
    AccessesOnly (ioaddr + cfg9346) d (writeEepromDisable recordingBus bits16 ioaddr d') :=
  (accesses_shiftOut _ _ (accesses_selectChip h)).store _

theorem accesses_writeEeprom (bits16 : Bool) (location : BitVec 32) (data : BitVec 16)
    (h : AccessesOnly (ioaddr + cfg9346) d d') : AccessesOnly (ioaddr + cfg9346) d
      (writeEeprom recordingBus bits16 ioaddr location data d') := by
  have hwrite := accesses_shiftOut ((location ||| eeWriteCmd) <<< 16 ||| data.setWidth 32) 27
    (accesses_selectChip (accesses_writeEepromEnable bits16 h))
  exact accesses_writeEepromDisable bits16 (hwrite.store _).load

/-- Also the routine that does not deselect the chip keeps to `Cfg9346`. -/
theorem accesses_writeEeprom8 (bits16 : Bool) {polls : ℕ} {location : BitVec 32}
    {data : BitVec 16} (h : AccessesOnly (ioaddr + cfg9346) d d')
    (hcall : writeEeprom8 recordingBus bits16 polls ioaddr location data d' = some d'') :
    AccessesOnly (ioaddr + cfg9346) d d'' := by
  have hwrite := accesses_shiftOut ((location ||| eeWriteCmd) <<< 8 ||| data.setWidth 32) 19
    (accesses_selectChip (accesses_writeEepromEnable bits16 h))
  exact accesses_pollReady polls ((hwrite.store _).load.store _) hcall

end Routines

/-! ## The last store -/

section Last

variable {a ioaddr location : BitVec 32} {d d' : Recording} {bits16 : Bool} {data : BitVec 16}
  {answers : ℕ → UInt8}

@[simp] theorem stores_store (v : UInt8) : (d.store a v).stores = d.stores ++ [(a, v)] := by
  simp [Recording.stores, Recording.store]

@[simp] theorem stores_load : (d.load a).stores = d.stores := by
  simp [Recording.stores, Recording.load]

theorem AccessesOnly.stores (h : AccessesOnly a ⟨[], answers⟩ d) : ∀ x ∈ d.stores, x.1 = a := by
  obtain ⟨l, hl, hall⟩ := h
  intro x hx
  obtain ⟨y, hy, hyx⟩ := List.mem_filterMap.1 hx
  rw [hl] at hy
  cases y with
  | store b v =>
    obtain rfl := Option.some.inj hyx
    exact hall _ hy
  | load b => cases hyx

theorem getLast_outb (v : UInt8) : (recordingBus.outb v a d).stores.getLast? = some (a, v) := by
  simp [recordingBus]

/-- While it waits, the driver keeps the chip selected. -/
theorem getLast_pollReady {polls : ℕ} (h : d.stores.getLast? = some (a, eeEnb))
    (hpoll : pollReady recordingBus a polls d = some d') :
    d'.stores.getLast? = some (a, eeEnb) := by
  refine pollReady_invariant recordingBus (I := fun d => d.stores.getLast? = some (a, eeEnb))
    (fun d hd => ?_) (fun d _ => ?_) h hpoll
  · simpa [recordingBus] using hd
  · exact (congrArg List.getLast? stores_load).trans (getLast_outb eeEnb)

theorem not_forall_readEeprom (bits16 : Bool) (ioaddr location : BitVec 32) (d : Recording) :
    ¬∀ x ∈ (readEeprom recordingBus bits16 ioaddr location d).2.stores, x.1 = ioaddr + cfg9346 := by
  intro hall
  have hlast : (readEeprom recordingBus bits16 ioaddr location d).2.stores.getLast? =
      some (ioaddr + ~~~eeCs.toBitVec.setWidth 32, UInt8.ofNat (ioaddr + cfg9346).toNat) :=
    getLast_outb _
  have haddr := hall _ (List.mem_of_getLast? hlast)
  exact exchanged_ne ioaddr haddr

/-- Of the three routines `write_eeprom` alone stores to `Cfg9346` only and deselects the
chip. -/
theorem leavesDeselected_iff (r : EepromRoutine) (bits16 : Bool) (ioaddr location : BitVec 32)
    (data : BitVec 16) (answers : ℕ → UInt8) :
    r.LeavesDeselected bits16 ioaddr location data answers ↔ r = .writeEeprom := by
  constructor
  · rintro ⟨polls, d, hcall, hall, v, hlast, hlow⟩
    cases r with
    | writeEeprom => rfl
    | writeEeprom8 =>
      have hselected := getLast_pollReady (getLast_outb eeEnb) hcall
      obtain rfl := (Prod.mk.inj (Option.some.inj (hlast.symm.trans hselected))).2
      exact absurd hlow (by decide)
    | readEeprom =>
      obtain rfl := Option.some.inj hcall
      exact absurd hall (not_forall_readEeprom bits16 ioaddr location _)
  · rintro rfl
    have honly := accesses_writeEeprom bits16 location data
      (AccessesOnly.refl (ioaddr + cfg9346) ⟨[], answers⟩)
    exact ⟨0, _, rfl, honly.stores, ~~~eeCs, getLast_outb _, by decide⟩

/-- `read_eeprom( 0x1000, 5 )` stores the low byte of its address at `0xff7`. -/
theorem readEeprom_not_deselected : ¬∀ (r : EepromRoutine) (bits16 : Bool)
    (ioaddr location : BitVec 32) (data : BitVec 16) (answers : ℕ → UInt8),
      r.LeavesDeselected bits16 ioaddr location data answers := by
  intro h
  obtain ⟨polls, d, hcall, hall, -⟩ := h .readEeprom true 0x1000 5 0 fun _ => 0
  obtain rfl := Option.some.inj hcall
  exact not_forall_readEeprom true 0x1000 5 _ hall

end Last

end LxToolset
