import LxToolset.EepromTrace
import LxToolset.Memory

/-!
# Where the program looks for the EEPROM

`main` takes the registers of the card to be at `start + offset`, `start` being a mapping of
`SIZE` bytes and `offset` the first base address of the card. It reads 18 bytes of the
configuration space of the card and takes four from the 16th on, clears one of the two flag
bits, and does not see that `mmap` has failed : `based_iff` says when none of this matters.
-/

namespace LxToolset

open Memory

/-- What `main` finds. -/
structure EepromEnv where
  /-- The file of the configuration space can be opened. -/
  opens : Bool
  /-- The configuration space. -/
  config : ℕ → UInt8
  /-- `buf` before it is read. -/
  stack : ℕ → UInt8
  /-- What `mmap` returns. -/
  start : BitVec 32

def mapSize : ℕ := 0x10000
def mapFailed : BitVec 32 := 0xffffffff

namespace EepromEnv

variable (env : EepromEnv)

/-- `buf`, after `fread` of 18 bytes. -/
def buf (i : ℕ) : UInt8 :=
  if i < 18 then env.config i else env.stack i

def offset : BitVec 32 :=
  BitVec.ofNat 32 (word env.buf 16 4) &&& ~~~1#32

def start1 : BitVec 32 :=
  env.start + env.offset

/-- The base address register of the card. -/
def bar0 : BitVec 32 :=
  BitVec.ofNat 32 (word env.config 16 4)

/-- An address in the bytes that were mapped. -/
def Mapped (a : BitVec 32) : Prop :=
  env.start ≠ mapFailed ∧ (a - env.start).toNat < mapSize

end EepromEnv

/-- `for (i = 0; i < sizeof(eeprom_data)/2; i++) write_eeprom(start1, i, eeprom_data[i])`. -/
def writeWords {δ : Type} (bus : Bus δ) (ioaddr : BitVec 32) : ℕ → List (BitVec 16) → δ → δ
  | _, [], d => d
  | i, v :: vs, d =>
    writeWords bus ioaddr (i + 1) vs (writeEeprom bus true ioaddr (BitVec.ofNat 32 i) v d)

/-- `eeprom_data`, for a card of type 2. -/
def eepromData : List (BitVec 16) :=
  [0x8129, 0x10ec, 0x8169, 0x10ec, 0x8169, 0x4020, 0xa101, 0xe000,
    0x674c, 0x0022, 0xcd15, 0xf7c2, 0x8000, 0x0000, 0x0000, 0x1300,
    0x0000, 0x0000, 0x0000, 0x0000, 0x0000, 0x0000, 0x0000, 0x0000,
    0x0000, 0x7ed7, 0x0000, 0x0000, 0x0000, 0x0000, 0x0000, 0x2000,
    0x0000, 0x0000, 0x0000, 0x0000, 0x0000, 0x0000, 0x0000, 0x0000,
    0x0000, 0x0000, 0x0000, 0x0000, 0x0000, 0x0000, 0x0000, 0x0000,
    0x0000, 0x0000, 0x0000, 0x0000, 0x0000, 0x0000, 0x0000, 0x0000,
    0x0000, 0x0000, 0x0000, 0x0000, 0x0000, 0x0000, 0x0000, 0x0000]

/-- `main`, as its switches are set. -/
def eepromMain {δ : Type} (bus : Bus δ) (env : EepromEnv) (d : δ) : ℤ × δ :=
  if env.opens = false then (-1, d)
  else if env.start = 0 then (0, d)
  else (0, writeWords bus env.start1 0 eepromData d)

/-- The program stops before it touches the device, or uses the base address of the card, its
flags cleared, and accesses mapped bytes only. -/
def BasedOnBar0 (env : EepromEnv) (answers : ℕ → UInt8) : Prop :=
  (eepromMain recordingBus env ⟨[], answers⟩).2.accesses = [] ∨
    (env.start1 = env.start + (env.bar0 &&& ~~~3#32) ∧
      ∀ x ∈ (eepromMain recordingBus env ⟨[], answers⟩).2.accesses, env.Mapped x.addr)

/-! ## The offset -/

section Offset

variable {env : EepromEnv}

/-- Clearing the low bits of a word. -/
theorem toNat_and_mask {mask : BitVec 32} {k : ℕ}
    (hmask : ∀ i < 32, mask.getLsbD i = decide (k ≤ i)) (x : BitVec 32) :
    (x &&& mask).toNat = x.toNat / 2 ^ k * 2 ^ k := by
  have hshift : x &&& mask = (x >>> k) <<< k := by
    apply BitVec.eq_of_getLsbD_eq
    intro i hi
    rw [BitVec.getLsbD_and, hmask i hi, BitVec.getLsbD_shiftLeft, BitVec.getLsbD_ushiftRight]
    by_cases hki : k ≤ i
    · simp [hi, hki]
    · simp [hki]
  have hlt : x.toNat / 2 ^ k * 2 ^ k < 2 ^ 32 := (Nat.div_mul_le_self ..).trans_lt x.isLt
  rw [hshift, BitVec.toNat_shiftLeft, BitVec.toNat_ushiftRight, Nat.shiftLeft_eq,
    Nat.shiftRight_eq_div_pow, Nat.mod_eq_of_lt hlt]

/-- The word that `main` takes from its buffer. -/
theorem word_sixteen (f : ℕ → UInt8) : word f 16 4 =
    (f 16).toNat + (f 17).toNat * 256 ^ 1 + (f 18).toNat * 256 ^ 2 + (f 19).toNat * 256 ^ 3 := by
  have hzero : word f 16 0 = 0 := rfl
  rw [word_succ, word_succ, word_succ, word_succ, hzero, Nat.zero_add, Nat.pow_zero, Nat.mul_one]

theorem offset_eq_iff : env.offset = env.bar0 &&& ~~~3#32 ↔
    env.stack 18 = env.config 18 ∧ env.stack 19 = env.config 19 ∧ env.bar0.getLsbD 1 = false := by
  have hbuf := word_sixteen env.buf
  have hconfig := word_sixteen env.config
  have hlt32 : ∀ f, word f 16 4 < 2 ^ 32 := fun f => word_lt f 16 4
  have h16 : env.buf 16 = env.config 16 := rfl
  have h17 : env.buf 17 = env.config 17 := rfl
  have h18 : env.buf 18 = env.stack 18 := rfl
  have h19 : env.buf 19 = env.stack 19 := rfl
  have hoffset : env.offset.toNat = word env.buf 16 4 / 2 ^ 1 * 2 ^ 1 := by
    rw [EepromEnv.offset, toNat_and_mask (k := 1) (by decide), BitVec.toNat_ofNat,
      Nat.mod_eq_of_lt (hlt32 env.buf)]
  have hbar : env.bar0.toNat = word env.config 16 4 := by
    rw [EepromEnv.bar0, BitVec.toNat_ofNat, Nat.mod_eq_of_lt (hlt32 env.config)]
  have hmask : (env.bar0 &&& ~~~3#32).toNat = word env.config 16 4 / 2 ^ 2 * 2 ^ 2 := by
    rw [toNat_and_mask (k := 2) (by decide), hbar]
  have hbit : env.bar0.getLsbD 1 = false ↔ word env.config 16 4 / 2 % 2 = 0 := by
    rw [← BitVec.testBit_toNat, hbar, Nat.testBit_succ, Nat.testBit_zero]
    simp
  rw [← BitVec.toNat_inj, hoffset, hmask, hbit, ← UInt8.toNat_inj, ← UInt8.toNat_inj]
  rw [h16, h17, h18, h19] at hbuf
  have hlt : ∀ v : UInt8, v.toNat < 256 := fun v => v.toNat_lt
  have := hlt (env.stack 18)
  have := hlt (env.stack 19)
  have := hlt (env.config 16)
  have := hlt (env.config 17)
  have := hlt (env.config 18)
  have := hlt (env.config 19)
  omega

end Offset

/-! ## The accesses -/

section Accesses

variable {ioaddr : BitVec 32} {d d' : Recording} {env : EepromEnv} {answers : ℕ → UInt8}

theorem accesses_writeWords (i : ℕ) (vs : List (BitVec 16))
    (h : AccessesOnly (ioaddr + cfg9346) d d') :
    AccessesOnly (ioaddr + cfg9346) d (writeWords recordingBus ioaddr i vs d') := by
  induction vs generalizing i d' with
  | nil => exact h
  | cons v vs ih => exact ih (i + 1) (accesses_writeEeprom true _ v h)

theorem writeEeprom_accesses_ne (location : BitVec 32) (data : BitVec 16) :
    (writeEeprom recordingBus true ioaddr location data d).accesses ≠ [] :=
  List.append_ne_nil_of_right_ne_nil _ (List.cons_ne_nil _ _)

theorem writeWords_accesses_ne (i : ℕ) {vs : List (BitVec 16)} (hvs : vs ≠ []) :
    (writeWords recordingBus ioaddr i vs d).accesses ≠ [] := by
  obtain ⟨v, vs, rfl⟩ := List.exists_cons_of_ne_nil hvs
  obtain ⟨l, hl, -⟩ := accesses_writeWords (i + 1) vs (AccessesOnly.refl (ioaddr + cfg9346)
    (writeEeprom recordingBus true ioaddr (BitVec.ofNat 32 i) v d))
  rw [writeWords, hl]
  exact List.append_ne_nil_of_left_ne_nil (writeEeprom_accesses_ne _ _) l

/-- Writing words accesses `Cfg9346`, and nothing else. -/
theorem forall_writeWords (i : ℕ) {vs : List (BitVec 16)} (hvs : vs ≠ []) {p : BitVec 32 → Prop} :
    (∀ x ∈ (writeWords recordingBus ioaddr i vs ⟨[], answers⟩).accesses, p x.addr) ↔
      p (ioaddr + cfg9346) := by
  have hne : (writeWords recordingBus ioaddr i vs ⟨[], answers⟩).accesses ≠ [] :=
    writeWords_accesses_ne i hvs
  obtain ⟨l, hl, hall⟩ := accesses_writeWords i vs
    (AccessesOnly.refl (ioaddr + cfg9346) ⟨[], answers⟩)
  rw [List.nil_append] at hl
  rw [hl] at hne ⊢
  constructor
  · intro h
    obtain ⟨x, hx⟩ := List.exists_mem_of_ne_nil l hne
    exact hall x hx ▸ h x hx
  · intro h x hx
    rwa [hall x hx]

theorem start1_eq_iff : env.start1 = env.start + (env.bar0 &&& ~~~3#32) ↔
    env.stack 18 = env.config 18 ∧ env.stack 19 = env.config 19 ∧ env.bar0.getLsbD 1 = false := by
  rw [EepromEnv.start1, BitVec.add_right_inj, offset_eq_iff]

/-- The program goes by the base address of the card if it stops, or `mmap` succeeds, `buf` holds
the two bytes that are not read, the second flag bit is clear, and the register is in the
mapping. -/
theorem based_iff (env : EepromEnv) (answers : ℕ → UInt8) :
    BasedOnBar0 env answers ↔ env.opens = false ∨ env.start = 0 ∨
      (env.start ≠ mapFailed ∧ env.stack 18 = env.config 18 ∧ env.stack 19 = env.config 19 ∧
        env.bar0.getLsbD 1 = false ∧ ((env.bar0 &&& ~~~3#32) + cfg9346).toNat < mapSize) := by
  have hdata : eepromData ≠ [] := List.cons_ne_nil _ _
  by_cases hopens : env.opens = false
  · have hrun : eepromMain recordingBus env ⟨[], answers⟩ = (-1, ⟨[], answers⟩) := if_pos hopens
    exact iff_of_true (.inl (by rw [hrun])) (.inl hopens)
  by_cases hnull : env.start = 0
  · have hrun : eepromMain recordingBus env ⟨[], answers⟩ = (0, ⟨[], answers⟩) := by
      rw [eepromMain, if_neg hopens, if_pos hnull]
    exact iff_of_true (.inl (by rw [hrun])) (.inr (.inl hnull))
  have hrun : (eepromMain recordingBus env ⟨[], answers⟩).2 =
      writeWords recordingBus env.start1 0 eepromData ⟨[], answers⟩ := by
    rw [eepromMain, if_neg hopens, if_neg hnull]
  have haddr : ∀ x, env.start + x + cfg9346 - env.start = x + cfg9346 := by
    intro x
    rw [BitVec.add_assoc, BitVec.add_comm, BitVec.add_sub_cancel]
  rw [BasedOnBar0, hrun, forall_writeWords 0 hdata, start1_eq_iff]
  constructor
  · rintro (hstop | ⟨⟨h18, h19, hbit⟩, hmap, hin⟩)
    · exact absurd hstop (writeWords_accesses_ne 0 hdata)
    · rw [start1_eq_iff.2 ⟨h18, h19, hbit⟩, haddr] at hin
      exact .inr (.inr ⟨hmap, h18, h19, hbit, hin⟩)
  · rintro (hstop | hstop | ⟨hmap, h18, h19, hbit, hin⟩)
    · exact absurd hstop hopens
    · exact absurd hstop hnull
    · refine .inr ⟨⟨h18, h19, hbit⟩, hmap, ?_⟩
      rw [start1_eq_iff.2 ⟨h18, h19, hbit⟩, haddr]
      exact hin

/-- A card at `0x4000`, found with a dirty `buf`. -/
def dirtyEnv : EepromEnv where
  opens := true
  config i := if i = 16 then 0x01 else if i = 17 then 0x40 else 0
  stack _ := 0xff
  start := 0x2aaac000

theorem not_based_dirtyEnv : ¬ BasedOnBar0 dirtyEnv fun _ => 0 := by
  rintro (hstop | ⟨hbase, -⟩)
  · exact absurd hstop (writeWords_accesses_ne 0 (List.cons_ne_nil _ _))
  · exact absurd (start1_eq_iff.1 hbase).1 (by decide)

end Accesses

end LxToolset
