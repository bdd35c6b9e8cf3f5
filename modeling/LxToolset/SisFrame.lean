import LxToolset.Frame
import LxToolset.SisRegs

/-!
# What the command read leaves behind

The accessors and the dump of `cmd_read` keep every register and port (`keeps_dump`), so
what changes is what `sis_unlock` and `sis_lock` do to the lock register of the bank.
`sis_lock` does not go back to the state it found : it sets bit 7 of `CR` 11 and clears
bit 0 of `PART1` 2f. `cmdRead_frame` says that this is all.
-/

namespace LxToolset

open Frame

/-- The registers and the ports. -/
def SisState.hardware (s : SisState) : (RegType → ℤ → UInt8) × (ℤ → UInt8) :=
  (s.regs, s.ports)

section Keeps

variable {pw : Readback} {custom : Option SisRegs}

theorem keeps_inSisIdxReg (bank : RegType) (idx : ℤ) :
    Keeps SisState.hardware (inSisIdxReg pw bank idx) :=
  fun _ => rfl

theorem keeps_inSisReg (port : ℤ) : Keeps SisState.hardware (inSisReg port) :=
  fun _ => rfl

theorem keeps_printf (text : List Char) : Keeps SisState.hardware (printf text) :=
  Keeps.modify fun _ => rfl

theorem keeps_inByte (idx : ℤ) : Keeps SisState.hardware (inByte pw custom idx) := by
  unfold inByte
  cases custom with
  | none => exact Keeps.bind (keeps_inSisReg _) fun _ => Keeps.pure _
  | some r => exact Keeps.bind (keeps_inSisIdxReg _ _) fun _ => Keeps.pure _

theorem keeps_sisRead1 (idx : ℤ) : Keeps SisState.hardware (sisRead1 pw custom idx) :=
  Keeps.ite (Keeps.pure _) (keeps_inByte _)

theorem keeps_sisRead2 (idx : ℤ) : Keeps SisState.hardware (sisRead2 pw custom idx) :=
  Keeps.ite (Keeps.pure _) (Keeps.bind (keeps_inByte _) fun _ =>
    Keeps.bind (keeps_inByte _) fun _ => Keeps.pure _)

theorem keeps_sisRead4 (idx : ℤ) : Keeps SisState.hardware (sisRead4 pw custom idx) :=
  Keeps.ite (Keeps.pure _) (Keeps.bind (keeps_inByte _) fun _ =>
    Keeps.bind (keeps_inByte _) fun _ => Keeps.bind (keeps_inByte _) fun _ =>
      Keeps.bind (keeps_inByte _) fun _ => Keeps.pure _)

theorem keeps_sisRead (width : ℕ) (idx : ℤ) :
    Keeps SisState.hardware (sisRead pw width custom idx) := by
  unfold sisRead
  split_ifs
  · exact keeps_sisRead1 idx
  · exact keeps_sisRead4 idx
  · exact keeps_sisRead2 idx

theorem keeps_dumpLine (start count : ℤ) (width tmp : ℕ) :
    Keeps SisState.hardware (dumpLine pw custom start count width tmp) := by
  have hvalues : Keeps SisState.hardware
      ((List.range (lineCount count width tmp).toNat).forM fun i => do
        let v ← sisRead pw width custom (int32 (start + tmp * 32 + i * width))
        printf (hex (fmtDigits width) v ++ [' '])) :=
    Keeps.forM (fun _ => Keeps.bind (keeps_sisRead _ _) fun _ => keeps_printf _) _
  unfold dumpLine
  cases custom <;>
    exact Keeps.bind (keeps_printf _) fun _ => Keeps.bind hvalues fun _ => keeps_printf _

/-- The dump only reads. -/
theorem keeps_dump (start count : ℤ) (width : ℕ) :
    Keeps SisState.hardware (dump pw custom start count width) :=
  Keeps.forM (keeps_dumpLine start count width) _

end Keeps

/-! ## Locks -/

/-- Store a register. -/
def setReg (regs : RegType → ℤ → UInt8) (bank : RegType) (idx : ℤ) (v : UInt8) :
    RegType → ℤ → UInt8 :=
  Function.update regs bank (Function.update (regs bank) idx v)

/-- The register in which a bank is locked. -/
def lockReg : RegType → Option ℤ
  | .sr => some 0x05
  | .cr => some 0x11
  | .part1 => some 0x2f
  | _ => none

section Locks

variable (pw : Readback) (r : SisRegs) (s : SisState)

/-- `sis_unlock` stores the lock register of the bank and nothing else. -/
theorem sisUnlock_hardware : ((sisUnlock pw r).run s).2.hardware =
    (match r.type with
      | .sr => if pw.read (s.regs .sr 0x05) ≠ 0xa1 then setReg s.regs .sr 0x05 0x86 else s.regs
      | .cr => setReg s.regs .cr 0x11 (s.regs .cr 0x11 &&& 0x7f)
      | .part1 => setReg s.regs .part1 0x2f (s.regs .part1 0x2f ||| 0x01)
      | _ => s.regs, s.ports) := by
  unfold sisUnlock
  cases r.type with
  | sr =>
    change ((if pw.read (s.regs .sr 0x05) ≠ 0xa1 then outSisIdxReg .sr 0x05 0x86 else pure ()).run
      { s with accesses := s.accesses ++ [.inIdx .sr 0x05] }).2.hardware = _
    split_ifs
    · rfl
    · rfl
  | _ => rfl

/-- `sis_lock` stores the lock register of the bank and nothing else. -/
theorem sisLock_hardware : ((sisLock pw r).run s).2.hardware =
    (match r.type with
      | .sr => if pw.read (s.regs .sr 0x05) = 0xa1 then setReg s.regs .sr 0x05 0x86 else s.regs
      | .cr => setReg s.regs .cr 0x11 (s.regs .cr 0x11 ||| 0x80)
      | .part1 => setReg s.regs .part1 0x2f (s.regs .part1 0x2f &&& 0xfe)
      | _ => s.regs, s.ports) := by
  unfold sisLock
  cases r.type with
  | sr =>
    change ((if pw.read (s.regs .sr 0x05) = 0xa1 then outSisIdxReg .sr 0x05 0x86 else pure ()).run
      { s with accesses := s.accesses ++ [.inIdx .sr 0x05] }).2.hardware = _
    split_ifs
    · rfl
    · rfl
  | _ => rfl

end Locks

/-! ## The whole command -/

/-- What `cmd_read` does on a bank. -/
def session (pw : Readback) (r : SisRegs) (start count : ℤ) (width : ℕ) : SisM Unit := do
  sisUnlock pw r
  dump pw (some r) start count width
  sisLock pw r

/-- The bank that the arguments name, if the command gets to reading it. -/
def namedRegs : List (List Char) → Option SisRegs
  | _ :: argv1 :: _ => if isName argv1 then sisregs.find? (·.name = argv1) else none
  | _ => none

/-- The command, from `s` to `s'`, keeps all but the lock register of the bank `r`, and
leaves that of `CR` and of `PART1` locked. Of the password register of `SR` nothing is
said. -/
structure ReadFrame (named : Option SisRegs) (s s' : SisState) : Prop where
  ports : s'.ports = s.ports
  kept : ∀ bank idx, (∀ r ∈ named, r.type = bank → lockReg bank ≠ some idx) →
    s'.regs bank idx = s.regs bank idx
  cr : ∀ r ∈ named, r.type = .cr → s'.regs .cr 0x11 = s.regs .cr 0x11 ||| 0x80
  part1 : ∀ r ∈ named, r.type = .part1 → s'.regs .part1 0x2f = s.regs .part1 0x2f &&& 0xfe

variable {s s' : SisState}

theorem ReadFrame.of_hardware {named : Option SisRegs} (hn : named = none)
    (h : s'.hardware = s.hardware) : ReadFrame named s s' := by
  obtain ⟨hregs, hports⟩ := Prod.mk.injEq .. ▸ h
  subst hn
  exact ⟨hports, fun _ _ _ => by rw [hregs], by simp, by simp⟩

theorem setReg_of_ne {regs : RegType → ℤ → UInt8} {bank bank' : RegType} {idx idx' : ℤ}
    {v : UInt8} (h : bank' = bank → idx' ≠ idx) :
    setReg regs bank idx v bank' idx' = regs bank' idx' := by
  unfold setReg
  by_cases hb : bank' = bank
  · subst hb
    rw [Function.update_self, Function.update_of_ne (h rfl)]
  · rw [Function.update_of_ne hb]

@[simp]
theorem setReg_self {regs : RegType → ℤ → UInt8} {bank : RegType} {idx : ℤ} {v : UInt8} :
    setReg regs bank idx v bank idx = v := by
  rw [setReg, Function.update_self, Function.update_self]

theorem and_or_bit7 (x : UInt8) : x &&& 0x7f ||| 0x80 = x ||| 0x80 := by
  obtain ⟨⟨x⟩⟩ := x
  revert x
  decide +kernel

theorem or_and_bit0 (x : UInt8) : (x ||| 0x01) &&& 0xfe = x &&& 0xfe := by
  obtain ⟨⟨x⟩⟩ := x
  revert x
  decide +kernel

@[simp]
theorem setReg_setReg {regs : RegType → ℤ → UInt8} {bank : RegType} {idx : ℤ} {v w : UInt8} :
    setReg (setReg regs bank idx v) bank idx w = setReg regs bank idx w := by
  simp [setReg]

/-- Unlocking, reading and locking store one register, whatever was dumped. -/
theorem session_hardware (pw : Password) (r : SisRegs) (start count : ℤ) (width : ℕ)
    (s : SisState) :
    ((session pw r start count width).run s).2.hardware =
      (match r.type with
        | .sr => setReg s.regs .sr 0x05 0x86
        | .cr => setReg s.regs .cr 0x11 (s.regs .cr 0x11 ||| 0x80)
        | .part1 => setReg s.regs .part1 0x2f (s.regs .part1 0x2f &&& 0xfe)
        | _ => s.regs, s.ports) := by
  have hunlock := sisUnlock_hardware pw r s
  set s₁ := ((sisUnlock pw r).run s).2
  have hdump : ((dump pw (some r) start count width).run s₁).2.hardware = s₁.hardware :=
    keeps_dump start count width s₁
  set s₂ := ((dump pw (some r) start count width).run s₁).2
  have hrun : ((session pw r start count width).run s).2 = ((sisLock pw r).run s₂).2 := rfl
  rw [hrun, sisLock_hardware]
  obtain ⟨hregs, hports⟩ := Prod.mk.inj (hdump.trans hunlock)
  rw [hregs, hports]
  have h86 : pw.read 0x86 = 0xa1 := (pw.unlocked_iff 0x86).2 rfl
  cases r.type with
  | sr =>
    by_cases h : pw.read (s.regs .sr 0x05) = 0xa1
    · simp [h]
    · simp [h, h86]
  | cr => simp [and_or_bit7]
  | part1 => simp [or_and_bit0]
  | _ => rfl

theorem readFrame_session (pw : Password) (r : SisRegs) (start count : ℤ) (width : ℕ)
    (s : SisState) : ReadFrame (some r) s ((session pw r start count width).run s).2 := by
  obtain ⟨hregs, hports⟩ := Prod.mk.inj (session_hardware pw r start count width s)
  refine ⟨hports, fun bank idx hkept => ?_, fun r' hr hcr => ?_, fun r' hr hpart1 => ?_⟩
  · have hne : r.type = bank → lockReg bank ≠ some idx := hkept r rfl
    rw [hregs]
    revert hne
    cases r.type <;> intro hne
    case sr => exact setReg_of_ne fun hb hi => hne hb.symm (by rw [hb, hi]; rfl)
    case cr => exact setReg_of_ne fun hb hi => hne hb.symm (by rw [hb, hi]; rfl)
    case part1 => exact setReg_of_ne fun hb hi => hne hb.symm (by rw [hb, hi]; rfl)
    all_goals rfl
  · obtain rfl : r = r' := Option.some.inj hr
    rw [hregs, hcr]
    exact setReg_self
  · obtain rfl : r = r' := Option.some.inj hr
    rw [hregs, hpart1]
    exact setReg_self

/-- With the name of a bank the command is a session. -/
theorem cmdRead_named {argv1 : List Char} {r : SisRegs} (hname : isName argv1)
    (hfind : sisregs.find? (·.name = argv1) = some r) (pw : Password) (beyond argv0 : List Char)
    (rest : List (List Char)) (s : SisState) : ∃ start count width,
    ((cmdRead pw beyond (argv0 :: argv1 :: rest)).run s).2 =
      ((session pw r start count width).run s).2 := by
  simp only [cmdRead, if_pos hname, hfind]
  exact ⟨_, _, _, rfl⟩

/-- A call of `cmd_read` changes no port and no register but the lock register of the bank
it names : `CR` and `PART1` come out locked, with the other bits of the register kept. -/
theorem cmdRead_frame (pw : Password) (beyond : List Char) (argv : List (List Char))
    (s : SisState) : ReadFrame (namedRegs argv) s ((cmdRead pw beyond argv).run s).2 := by
  match argv with
  | [] => exact ReadFrame.of_hardware rfl rfl
  | [_] => exact ReadFrame.of_hardware rfl rfl
  | argv0 :: argv1 :: rest =>
    by_cases hname : isName argv1
    · rcases hfind : sisregs.find? (·.name = argv1) with _ | r
      · refine ReadFrame.of_hardware ?_ ?_
        · simp [namedRegs, hname, hfind]
        · simp only [cmdRead, if_pos hname, hfind]
          exact keeps_printf _ s
      · have hnamed : namedRegs (argv0 :: argv1 :: rest) = some r := by
          simp [namedRegs, hname, hfind]
        obtain ⟨start, count, width, hrun⟩ := cmdRead_named hname hfind pw beyond argv0 rest s
        rw [hnamed, hrun]
        exact readFrame_session pw r start count width s
    · refine ReadFrame.of_hardware ?_ ?_
      · simp [namedRegs, hname]
      · simp only [cmdRead, if_neg hname]
        exact keeps_dump _ _ _ s

/-- A password register that reads 21 while `SR` is locked. -/
def password : Password where
  read v := if v = 0x86 then 0xa1 else 0x21
  unlocked_iff v := by
    by_cases h : v = 0x86
    · simp [h]
    · simp [h]

/-- A chip of which nothing is locked : bit 7 of `CR` 11 is clear. -/
def openChip : SisState where
  regs bank _ := if bank = .sr then 0x86 else 0
  ports _ := 0
  accesses := []
  out := []

/-- The command `r/1b cr` leaves `CR` locked that was not. -/
theorem cmdRead_locks_cr : openChip.regs .cr 0x11 = 0x00 ∧
    ((cmdRead password [] [['r', '/', '1', 'b'], ['c', 'r']]).run openChip).2.regs .cr 0x11 =
      0x80 := by
  have hname : isName ['c', 'r'] := by simp [isName]
  have hfind : sisregs.find? (·.name = ['c', 'r']) = some ⟨['c', 'r'], 0x7c, .cr⟩ := by
    simp [sisregs]
  obtain ⟨start, count, width, hrun⟩ :=
    cmdRead_named hname hfind password [] ['r', '/', '1', 'b'] [] openChip
  have hsession := readFrame_session password ⟨['c', 'r'], 0x7c, .cr⟩ start count width openChip
  rw [hrun]
  exact ⟨rfl, hsession.cr _ rfl rfl⟩

end LxToolset
