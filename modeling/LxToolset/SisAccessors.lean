import LxToolset.SisFrame
import LxToolset.SisWrite

/-!
# The accessors

What the accessors of one, two and four bytes read, store and access in a bank, and that they
agree : `sisWrite4_agrees` is the round trip through each of the read accessors, with the
stores of four bytes cut into those of two and of one.
-/

namespace LxToolset

open Memory

/-! ## Reading -/

/-- What a register reads. -/
def readReg (pw : Readback) (regs : RegType → ℤ → UInt8) (bank : RegType) (idx : ℤ) : UInt8 :=
  if bank = .sr ∧ idx = 0x05 then pw.read (regs bank idx) else regs bank idx

@[simp]
theorem readReg_plainStorage (regs : RegType → ℤ → UInt8) (bank : RegType) (idx : ℤ) :
    readReg plainStorage regs bank idx = regs bank idx :=
  ite_self _

/-- The accessors refuse to read past the bank. -/
def ReadRefused (r : SisRegs) (width : ℕ) (idx : ℤ) : Prop :=
  r.length < if width = 1 then idx else int32 (idx + (width - 1))

instance (r : SisRegs) (width : ℕ) (idx : ℤ) : Decidable (ReadRefused r width idx) :=
  inferInstanceAs (Decidable (r.length < _))

/-- The value that a read gives. -/
def readValue (pw : Readback) (r : SisRegs) (regs : RegType → ℤ → UInt8) (width : ℕ) (idx : ℤ) :
    BitVec 32 :=
  if ReadRefused r width idx then 0
  else BitVec.ofNat 32 (word (fun n => readReg pw regs r.type (idx + n)) 0 width)

/-- The accesses of a read. -/
def readAccesses (r : SisRegs) (width : ℕ) (idx : ℤ) : List SisAccess :=
  if ReadRefused r width idx then []
  else (List.range width).map fun n : ℕ => .inIdx r.type (idx + n)

section Read

variable (pw : Readback) (r : SisRegs) (idx : ℤ) (s : SisState)

theorem past_some (r : SisRegs) (idx : ℤ) : past (some r) idx ↔ r.length < idx := by
  simp [past]

/-- A read that is refused. -/
theorem run_eq_of_refused {width : ℕ} (h : ReadRefused r width idx) :
    ((0 : BitVec 32), s) = (readValue pw r s.regs width idx,
      { s with accesses := s.accesses ++ readAccesses r width idx }) := by
  rw [readValue, readAccesses, if_pos h, if_pos h, List.append_nil]

/-- A read that is not refused, from the bytes it finds. -/
theorem run_eq_of_bytes {width : ℕ} (h : ¬ReadRefused r width idx) {v : BitVec 32}
    (hv : v.toNat = word (fun n => readReg pw s.regs r.type (idx + n)) 0 width) {s' : SisState}
    (hs : s' = { s with accesses :=
      s.accesses ++ (List.range width).map fun n : ℕ => .inIdx r.type (idx + n) }) :
    (v, s') = (readValue pw r s.regs width idx,
      { s with accesses := s.accesses ++ readAccesses r width idx }) := by
  rw [readValue, readAccesses, if_neg h, if_neg h, ← hs, ← hv, BitVec.ofNat_toNat,
    BitVec.setWidth_eq]

theorem sisRead1_run : (sisRead1 pw (some r) idx).run s = (readValue pw r s.regs 1 idx,
    { s with accesses := s.accesses ++ readAccesses r 1 idx }) := by
  have hpast : past (some r) idx ↔ ReadRefused r 1 idx := past_some r idx
  simp only [sisRead1, hpast]
  split_ifs with h
  · exact run_eq_of_refused pw r idx s h
  · refine run_eq_of_bytes pw r idx s h (v := (readReg pw s.regs r.type idx).toBitVec.setWidth 32)
      ?_ (by simp)
    rw [toNat_setWidth_byte]
    simp [word]

theorem sisRead2_run : (sisRead2 pw (some r) idx).run s = (readValue pw r s.regs 2 idx,
    { s with accesses := s.accesses ++ readAccesses r 2 idx }) := by
  have hpast : past (some r) (int32 (idx + 1)) ↔ ReadRefused r 2 idx := past_some r _
  simp only [sisRead2, hpast]
  split_ifs with h
  · exact run_eq_of_refused pw r idx s h
  · refine run_eq_of_bytes pw r idx s h (v := _ <<< 8 ||| _) ?_ ?_
    · rw [← toNat_shiftLeft_or_two]
      simp only [readReg, Nat.cast_zero, Nat.cast_one, add_zero, zero_add]
      rfl
    · simp [List.range_succ]

theorem sisRead4_run : (sisRead4 pw (some r) idx).run s = (readValue pw r s.regs 4 idx,
    { s with accesses := s.accesses ++ readAccesses r 4 idx }) := by
  have hpast : past (some r) (int32 (idx + 3)) ↔ ReadRefused r 4 idx := past_some r _
  simp only [sisRead4, hpast]
  split_ifs with h
  · exact run_eq_of_refused pw r idx s h
  · refine run_eq_of_bytes pw r idx s h (v := _ <<< 24 ||| _ <<< 16 ||| _ <<< 8 ||| _) ?_ ?_
    · rw [← toNat_shiftLeft_or_four]
      simp only [readReg, Nat.cast_zero, Nat.cast_one, Nat.cast_ofNat, add_zero, zero_add,
        BitVec.or_assoc]
      rfl
    · simp [List.range_succ]

/-- A read gives the little-endian word of its registers, or 0. -/
theorem sisRead_run {width : ℕ} (hw : width = 1 ∨ width = 2 ∨ width = 4) :
    (sisRead pw width (some r) idx).run s = (readValue pw r s.regs width idx,
      { s with accesses := s.accesses ++ readAccesses r width idx }) := by
  rcases hw with rfl | rfl | rfl
  · exact sisRead1_run pw r idx s
  · exact sisRead2_run pw r idx s
  · exact sisRead4_run pw r idx s

end Read

/-! ## Locks -/

/-- An access of the register in which the bank is locked. -/
def SisAccess.OfLock (r : SisRegs) (a : SisAccess) : Prop :=
  ∃ idx, lockReg r.type = some idx ∧ (a = .inIdx r.type idx ∨ ∃ v, a = .outIdx r.type idx v)

/-- The computation accesses the lock register of the bank only, and prints nothing. -/
def TouchesLock (r : SisRegs) (m : SisM Unit) : Prop :=
  ∀ s, ∃ l, (m.run s).2.accesses = s.accesses ++ l ∧ (m.run s).2.out = s.out ∧
    ∀ a ∈ l, a.OfLock r

section Locks

variable {r : SisRegs} {idx : ℤ} (hidx : lockReg r.type = some idx) (pw : Readback)

theorem TouchesLock.pure (r : SisRegs) : TouchesLock r (Pure.pure ()) :=
  fun _ => ⟨[], (List.append_nil _).symm, rfl, by simp⟩

include hidx

/-- The lock register is read and stored again. -/
theorem touchesLock_update (f : UInt8 → UInt8) : TouchesLock r (do
    let x ← inSisIdxReg pw r.type idx
    outSisIdxReg r.type idx (f x)) := by
  intro s
  refine ⟨_, List.append_assoc s.accesses _ _, rfl, fun a ha => ⟨idx, hidx, ?_⟩⟩
  simp only [List.mem_append, List.mem_singleton] at ha
  exact ha.imp id fun h => ⟨_, h⟩

/-- The lock register is read and stored again under a condition. -/
theorem touchesLock_ite (p : UInt8 → Prop) [DecidablePred p] (v : UInt8) : TouchesLock r (do
    let x ← inSisIdxReg pw r.type idx
    if p x then outSisIdxReg r.type idx v) := by
  intro s
  change ∃ l, ((if p ((inSisIdxReg pw r.type idx).run s).1 then outSisIdxReg r.type idx v
    else Pure.pure ()).run ((inSisIdxReg pw r.type idx).run s).2).2.accesses = s.accesses ++ l ∧
    ((if p ((inSisIdxReg pw r.type idx).run s).1 then outSisIdxReg r.type idx v
    else Pure.pure ()).run ((inSisIdxReg pw r.type idx).run s).2).2.out = s.out ∧ _
  split_ifs
  · refine ⟨_, List.append_assoc s.accesses _ _, rfl, fun a ha => ⟨idx, hidx, ?_⟩⟩
    simp only [List.mem_append, List.mem_singleton] at ha
    exact ha.imp id fun h => ⟨_, h⟩
  · exact ⟨[.inIdx r.type idx], rfl, rfl, fun a ha =>
      ⟨idx, hidx, Or.inl (List.mem_singleton.1 ha)⟩⟩

end Locks

theorem sisUnlock_touchesLock (pw : Readback) (r : SisRegs) : TouchesLock r (sisUnlock pw r) := by
  unfold sisUnlock
  obtain ⟨name, length, type⟩ := r
  cases type with
  | sr => exact touchesLock_ite (r := ⟨name, length, .sr⟩) rfl pw (fun x => x ≠ 0xa1) 0x86
  | cr => exact touchesLock_update (r := ⟨name, length, .cr⟩) rfl pw (fun x => x &&& 0x7f)
  | part1 => exact touchesLock_update (r := ⟨name, length, .part1⟩) rfl pw (fun x => x ||| 0x01)
  | _ => exact TouchesLock.pure _

theorem sisLock_touchesLock (pw : Readback) (r : SisRegs) : TouchesLock r (sisLock pw r) := by
  unfold sisLock
  obtain ⟨name, length, type⟩ := r
  cases type with
  | sr => exact touchesLock_ite (r := ⟨name, length, .sr⟩) rfl pw (fun x => x = 0xa1) 0x86
  | cr => exact touchesLock_update (r := ⟨name, length, .cr⟩) rfl pw (fun x => x ||| 0x80)
  | part1 => exact touchesLock_update (r := ⟨name, length, .part1⟩) rfl pw (fun x => x &&& 0xfe)
  | _ => exact TouchesLock.pure _

/-! ## Writing -/

/-- The registers after the bytes of a value are stored from `idx` on. -/
def storeBytes (regs : RegType → ℤ → UInt8) (bank : RegType) (idx : ℤ) (v : BitVec 32) :
    ℕ → RegType → ℤ → UInt8
  | 0 => regs
  | n + 1 => setReg (storeBytes regs bank idx v n) bank (idx + n) (valueByte v n)

section Write

variable {regs : RegType → ℤ → UInt8} {bank : RegType} {idx : ℤ} {v : BitVec 32}

theorem storeBytes_of_lt {n k : ℕ} (h : k < n) :
    storeBytes regs bank idx v n bank (idx + k) = valueByte v k := by
  induction n with
  | zero => omega
  | succ n ih =>
    rw [storeBytes]
    rcases Nat.lt_succ_iff_lt_or_eq.1 h with hlt | rfl
    · rw [setReg_of_ne fun _ => by omega, ih hlt]
    · exact setReg_self

theorem storeBytes_of_ne {n : ℕ} {bank' : RegType} {i : ℤ}
    (h : bank' = bank → i < idx ∨ idx + n ≤ i) :
    storeBytes regs bank idx v n bank' i = regs bank' i := by
  induction n with
  | zero => rfl
  | succ n ih =>
    rw [storeBytes, setReg_of_ne fun hb => by have := h hb; omega]
    exact ih fun hb => by have := h hb; omega

theorem valueByte_eq (v : BitVec 32) (n : ℕ) : valueByte v n = byteOf v.toNat n := by
  refine UInt8.toNat_inj.1 ?_
  rw [toNat_byteOf]
  simp [valueByte, Nat.shiftRight_eq_div_pow, Nat.pow_mul]

theorem valueByte_shift (v : BitVec 32) (m n : ℕ) :
    valueByte (v >>> (8 * m)) n = valueByte v (m + n) := by
  rw [valueByte, valueByte, ← BitVec.shiftRight_add, Nat.mul_add]

/-- The bytes stored, read back. -/
theorem readValue_storeBytes (r : SisRegs) {m width : ℕ} (h : m + width ≤ 4)
    (hread : ¬ReadRefused r width (idx + m)) :
    readValue plainStorage r (storeBytes regs r.type idx v 4) width (idx + m) =
      BitVec.ofNat 32 ((v >>> (8 * m)).toNat % 256 ^ width) := by
  rw [readValue, if_neg hread, word_of_byteOf (v := (v >>> (8 * m)).toNat)]
  intro i hi
  have hbyte : storeBytes regs r.type idx v 4 r.type (idx + (m + i : ℕ)) = valueByte v (m + i) :=
    storeBytes_of_lt (by omega)
  rw [readReg_plainStorage, Nat.zero_add, Int.add_assoc, ← Nat.cast_add, hbyte, valueByte_eq,
    byteOf, byteOf, BitVec.toNat_ushiftRight, ← Nat.shiftRight_add, Nat.mul_add]

end Write

theorem length_le_of_mem_sisregs {r : SisRegs} (h : r ∈ sisregs) : r.length ≤ 0xff := by
  simp only [sisregs, List.mem_cons, List.not_mem_nil, or_false] at h
  rcases h with rfl | rfl | rfl | rfl | rfl | rfl | rfl <;> decide

/-- A read that ends below the length is not refused. -/
theorem not_readRefused_of_le {r : SisRegs} (hr : r ∈ sisregs) {width : ℕ} {idx : ℤ}
    (h0 : 0 ≤ idx) (h : idx + width ≤ r.length) : ¬ReadRefused r width idx := by
  have hlen := length_le_of_mem_sisregs hr
  unfold ReadRefused
  split_ifs with h1
  · omega
  · rw [int32_of_lt (by omega) (by omega)]
    omega

section Write4

variable {r : SisRegs} {idx : ℤ} (hr : r ∈ sisregs) (h0 : 0 ≤ idx) (hidx : idx + 3 < r.length)

include hr h0 hidx

/-- No read of registers below the length is refused. -/
theorem not_readRefused {m width : ℕ} (hw : width = 1 ∨ width = 2 ∨ width = 4)
    (h : m + width ≤ 4) : ¬ReadRefused r width (idx + m) := by
  have hlen := length_le_of_mem_sisregs hr
  unfold ReadRefused
  rcases hw with rfl | rfl | rfl
  · rw [if_pos rfl]
    omega
  · rw [if_neg (by omega), int32_of_lt (by omega) (by omega)]
    omega
  · rw [if_neg (by omega), int32_of_lt (by omega) (by omega)]
    omega

theorem not_past {n : ℕ} (hn : n ≤ 3) : ¬past (some r) (int32 (idx + n)) := by
  have hlen := length_le_of_mem_sisregs hr
  rw [past_some, int32_of_lt (by omega) (by omega)]
  omega

/-- The store of four bytes, store by store. -/
theorem sisWrite4_eq (v : BitVec 32) : sisWrite4 (some r) idx v = (do
    outSisIdxReg r.type idx (valueByte v 0)
    outSisIdxReg r.type (idx + 1) (valueByte v 1)
    outSisIdxReg r.type (idx + 2) (valueByte v 2)
    outSisIdxReg r.type (idx + 3) (valueByte v 3)) := by
  have h3 : ¬past (some r) (int32 (idx + 3)) := not_past hr h0 hidx le_rfl
  rw [sisWrite4, if_neg h3]
  rfl

theorem sisWrite4_hardware (v : BitVec 32) (s : SisState) :
    ((sisWrite4 (some r) idx v).run s).2.hardware =
      (storeBytes s.regs r.type idx v 4, s.ports) := by
  rw [sisWrite4_eq hr h0 hidx]
  refine Prod.ext ?_ rfl
  rw [storeBytes, storeBytes, storeBytes, storeBytes, Nat.cast_zero, add_zero]
  rfl

/-- Two stores of two bytes. -/
theorem sisWrite4_eq_sisWrite2 (v : BitVec 32) : sisWrite4 (some r) idx v = (do
    sisWrite2 (some r) idx v
    sisWrite2 (some r) (idx + 2) (v >>> 16)) := by
  have h1 : ¬past (some r) (int32 (idx + 1)) := not_past hr h0 hidx (n := 1) (by omega)
  have h3 : ¬past (some r) (int32 (idx + 3)) := not_past hr h0 hidx (n := 3) le_rfl
  have hidx3 : idx + 2 + 1 = idx + 3 := by omega
  have hb2 : valueByte (v >>> 16) 0 = valueByte v 2 := valueByte_shift v 2 0
  have hb3 : valueByte (v >>> 16) 1 = valueByte v 3 := valueByte_shift v 2 1
  rw [sisWrite4_eq hr h0 hidx]
  simp only [sisWrite2, h1, h3, if_false, outByte, hb2, hb3, bind_assoc, hidx3]

/-- Four stores of a byte. -/
theorem sisWrite4_eq_sisWrite1 (v : BitVec 32) : sisWrite4 (some r) idx v = (do
    sisWrite1 (some r) idx v
    sisWrite1 (some r) (idx + 1) (v >>> 8)
    sisWrite1 (some r) (idx + 2) (v >>> 16)
    sisWrite1 (some r) (idx + 3) (v >>> 24)) := by
  have hb1 : valueByte (v >>> 8) 0 = valueByte v 1 := valueByte_shift v 1 0
  have hb2 : valueByte (v >>> 16) 0 = valueByte v 2 := valueByte_shift v 2 0
  have hb3 : valueByte (v >>> 24) 0 = valueByte v 3 := valueByte_shift v 3 0
  rw [sisWrite4_eq hr h0 hidx, sisWrite1, sisWrite1, sisWrite1, sisWrite1, hb1, hb2, hb3]
  rfl

end Write4

/-- The low bytes of a word, cut out. -/
theorem ofNat_mod_byte (x : BitVec 32) : BitVec.ofNat 32 (x.toNat % 256 ^ 1) = x &&& 0xff := by
  refine BitVec.eq_of_toNat_eq ?_
  have hand : (x &&& 0xff).toNat = x.toNat % 2 ^ 8 := Nat.and_two_pow_sub_one_eq_mod x.toNat 8
  rw [BitVec.toNat_ofNat, hand]
  omega

theorem ofNat_mod_half (x : BitVec 32) : BitVec.ofNat 32 (x.toNat % 256 ^ 2) = x &&& 0xffff := by
  refine BitVec.eq_of_toNat_eq ?_
  have hand : (x &&& 0xffff).toNat = x.toNat % 2 ^ 16 := Nat.and_two_pow_sub_one_eq_mod x.toNat 16
  rw [BitVec.toNat_ofNat, hand]
  omega

/-- What four registers hold after a value is stored there, as the accessors read it, and
what is kept. -/
structure Stored4 (r : SisRegs) (idx : ℤ) (v : BitVec 32) (s s' : SisState) : Prop where
  whole : ((sisRead4 plainStorage (some r) idx).run s').1 = v
  low : ((sisRead2 plainStorage (some r) idx).run s').1 = v &&& 0xffff
  high : ((sisRead2 plainStorage (some r) (idx + 2)).run s').1 = v >>> 16
  bytes : ∀ n < 4, ((sisRead1 plainStorage (some r) (idx + (n : ℕ))).run s').1 =
    v >>> (8 * n) &&& 0xff
  kept : ∀ bank i, (bank = r.type → i < idx ∨ idx + 4 ≤ i) → s'.regs bank i = s.regs bank i
  ports : s'.ports = s.ports

/-- The value stored by `sis_write_4` is read back by each accessor, and the shorter stores of
its halves and of its bytes do the same. -/
theorem sisWrite4_agrees (r : SisRegs) (idx : ℤ) (v : BitVec 32) (s : SisState)
    (hr : r ∈ sisregs) (h0 : 0 ≤ idx) (hidx : idx + 3 < r.length) :
    Stored4 r idx v s ((sisWrite4 (some r) idx v).run s).2 ∧
    sisWrite4 (some r) idx v = (do
      sisWrite2 (some r) idx v
      sisWrite2 (some r) (idx + 2) (v >>> 16)) ∧
    sisWrite4 (some r) idx v = (do
      sisWrite1 (some r) idx v
      sisWrite1 (some r) (idx + 1) (v >>> 8)
      sisWrite1 (some r) (idx + 2) (v >>> 16)
      sisWrite1 (some r) (idx + 3) (v >>> 24)) := by
  obtain ⟨hregs, hports⟩ := Prod.mk.inj (sisWrite4_hardware hr h0 hidx v s)
  have hread : ∀ m width : ℕ, width = 1 ∨ width = 2 ∨ width = 4 → m + width ≤ 4 →
      ((sisRead plainStorage width (some r) (idx + m)).run
        ((sisWrite4 (some r) idx v).run s).2).1 =
        BitVec.ofNat 32 ((v >>> (8 * m)).toNat % 256 ^ width) := fun m width hw h => by
    rw [sisRead_run _ _ _ _ hw, hregs]
    exact readValue_storeBytes r h (not_readRefused hr h0 hidx hw h)
  refine ⟨⟨?_, ?_, ?_, fun n hn => ?_, fun bank i h => ?_, hports⟩,
    sisWrite4_eq_sisWrite2 hr h0 hidx v, sisWrite4_eq_sisWrite1 hr h0 hidx v⟩
  · have h := hread 0 4 (by omega) (by omega)
    have hlt : (v >>> (8 * 0)).toNat < 256 ^ 4 := (v >>> (8 * 0)).isLt
    rw [Nat.cast_zero, add_zero, Nat.mod_eq_of_lt hlt, BitVec.ofNat_toNat, BitVec.setWidth_eq] at h
    exact h
  · have h := hread 0 2 (by omega) (by omega)
    rw [Nat.cast_zero, add_zero, ofNat_mod_half] at h
    exact h
  · have h := hread 2 2 (by omega) (by omega)
    have hlt : (v >>> 16).toNat < 256 ^ 2 := by
      rw [BitVec.toNat_ushiftRight, Nat.shiftRight_eq_div_pow]
      have := v.isLt
      omega
    rw [Nat.mod_eq_of_lt hlt, BitVec.ofNat_toNat, BitVec.setWidth_eq] at h
    exact h
  · have h := hread n 1 (by omega) (by omega)
    rw [ofNat_mod_byte] at h
    exact h
  · rw [hregs]
    exact storeBytes_of_ne h

/-- A store over the register 05 of `SR`. -/
theorem sisWrite4_agrees_sr : (⟨['s', 'r'], 0x60, .sr⟩ : SisRegs) ∈ sisregs ∧
    Stored4 ⟨['s', 'r'], 0x60, .sr⟩ 0x04 0x12345678 openChip
      ((sisWrite4 (some ⟨['s', 'r'], 0x60, .sr⟩) 0x04 0x12345678).run openChip).2 :=
  ⟨by decide, (sisWrite4_agrees ⟨['s', 'r'], 0x60, .sr⟩ 0x04 0x12345678 openChip (by decide)
    (by decide) (by decide)).1⟩

end LxToolset
