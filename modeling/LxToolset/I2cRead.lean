import Mathlib.Data.List.Basic
import Mathlib.Data.Int.Notation
import Mathlib.Data.Nat.Notation
import Mathlib.Tactic.Common

/-!
# i2crd and i2cwr

The two routines drive the SMBus controller through a transfer : a start condition, the address
of the slave, the register, and for a read a second start and address. After each of these they
look at the status once, return if it shows an error, and wait with `i2cwait`.

A transfer that is given up so is not stopped (`releasesBus_iff`). One that is not may still have
had errors, or waits that ran out, and `i2crd` returns the data register (`returnsChecked_iff`).
-/

namespace LxToolset

/-- The registers of the controller, at `0x00`, `0x01` and `0x03`. -/
inductive SmbReg where
  | data
  | status
  | control
  deriving DecidableEq

/-- What the controller returns to the reads of each register, one after the other. -/
abbrev SmbAnswers := SmbReg → ℕ → UInt8

/-- How often each register has been read, and what has been stored. -/
structure SmbState where
  dataReads : ℕ
  statusReads : ℕ
  controlReads : ℕ
  stores : List (SmbReg × UInt8)

namespace SmbState

def fresh : SmbState :=
  ⟨0, 0, 0, []⟩

variable (s : SmbState)

def reads : SmbReg → ℕ
  | .data => s.dataReads
  | .status => s.statusReads
  | .control => s.controlReads

def afterRead : SmbReg → SmbState
  | .data => { s with dataReads := s.dataReads + 1 }
  | .status => { s with statusReads := s.statusReads + 1 }
  | .control => { s with controlReads := s.controlReads + 1 }

end SmbState

/-- A number stored in a byte. -/
def smbByte (z : ℤ) : UInt8 :=
  UInt8.ofNat (z % 256).toNat

section Routines

variable (c : SmbAnswers)

def ior (reg : SmbReg) : StateM SmbState UInt8 := do
  let s ← get
  set (s.afterRead reg)
  return c reg (s.reads reg)

def iow (v : UInt8) (reg : SmbReg) : StateM SmbState PUnit :=
  modify fun s => { s with stores := s.stores ++ [(reg, v)] }

/-- `while (to > 0)` of `i2cwait`. -/
def i2cwaitLoop : ℕ → StateM SmbState PUnit
  | 0 => return
  | n + 1 => do
    if (← ior c .status) &&& 0x40 ≠ 0 then return
    if (← ior c .status) &&& 0x30 ≠ 0 then return
    i2cwaitLoop n

def i2cwait : StateM SmbState PUnit :=
  i2cwaitLoop c 1000

def i2crd (slave reg : ℤ) : StateM SmbState UInt8 := do
  let v ← ior c .control
  iow (v ||| 0x01) .control
  let sts ← ior c .status
  if sts &&& 0x20 ≠ 0 then return 0xff
  i2cwait c
  iow (smbByte slave) .data
  let sts ← ior c .status
  if sts &&& 0x30 ≠ 0 then return 0xff
  i2cwait c
  let v ← ior c .control
  iow (v ||| 0x10) .control
  iow (smbByte reg) .data
  if (← ior c .status) &&& 0x30 ≠ 0 then return 0xff
  i2cwait c
  let v ← ior c .control
  iow (v ||| 0x10) .control
  -- start again
  let v ← ior c .control
  iow (v ||| 0x01) .control
  if (← ior c .status) &&& 0x20 ≠ 0 then return 0xff
  iow (smbByte slave ||| 0x01) .data
  let sts ← ior c .status
  if sts &&& 0x30 ≠ 0 then return 0xff
  i2cwait c
  let v ← ior c .data
  iow 0x02 .control
  i2cwait c
  return v

def i2cwr (slave reg val : ℤ) : StateM SmbState UInt8 := do
  let v ← ior c .control
  iow (v ||| 0x01) .control
  let sts ← ior c .status
  if sts &&& 0x20 ≠ 0 then return 0xff
  i2cwait c
  iow (smbByte slave) .data
  let sts ← ior c .status
  if sts &&& 0x30 ≠ 0 then return 0xff
  i2cwait c
  let v ← ior c .control
  iow (v ||| 0x10) .control
  iow (smbByte reg) .data
  if (← ior c .status) &&& 0x30 ≠ 0 then return 0xff
  i2cwait c
  let v ← ior c .control
  iow (v ||| 0x10) .control
  iow (smbByte val) .data
  let v ← ior c .control
  i2cwait c
  iow (v ||| 0x10) .control
  iow 0x02 .control
  i2cwait c
  return v

end Routines

/-! ## Status reads -/

/-- Where the status reads of `i2cwait` end that start with read `k`. -/
def waitEnd (st : ℕ → UInt8) : (n k : ℕ) → ℕ
  | 0, k => k
  | n + 1, k =>
    if st k &&& 0x40 ≠ 0 then k + 1
    else if st (k + 1) &&& 0x30 ≠ 0 then k + 2
    else waitEnd st n (k + 2)

/-- A status read that ends the transfer if it has a bit of `mask`, and whether it is followed by
`i2cwait`. -/
structure SmbCheck where
  mask : UInt8
  waits : Bool

/-- The status read after a check. -/
def SmbCheck.next (ch : SmbCheck) (st : ℕ → UInt8) (k : ℕ) : ℕ :=
  if ch.waits then waitEnd st 1000 (k + 1) else k + 1

/-- No check ends the transfer. -/
def PassesChecks (st : ℕ → UInt8) : ℕ → List SmbCheck → Prop
  | _, [] => True
  | k, ch :: cs => st k &&& ch.mask = 0 ∧ PassesChecks st (ch.next st k) cs

inductive SmbRoutine where
  | i2crd
  | i2cwr
  deriving DecidableEq

namespace SmbRoutine

def call (c : SmbAnswers) (slave reg val : ℤ) : SmbRoutine → StateM SmbState UInt8
  | i2crd => LxToolset.i2crd c slave reg
  | i2cwr => LxToolset.i2cwr c slave reg val

/-- After the start, the address and the register, and after the second start and address. -/
def checks : SmbRoutine → List SmbCheck
  | i2crd => [⟨0x20, true⟩, ⟨0x30, true⟩, ⟨0x30, true⟩, ⟨0x20, false⟩, ⟨0x30, true⟩]
  | i2cwr => [⟨0x20, true⟩, ⟨0x30, true⟩, ⟨0x30, true⟩]

end SmbRoutine

/-- The wait that begins with status read `k` sees the completion bit in one of its polls, and no
read before that has an error bit. -/
def WaitCompletes (st : ℕ → UInt8) (k : ℕ) : Prop :=
  ∃ n < 1000, st (k + 2 * n) &&& 0x40 ≠ 0 ∧ ∀ i < 2 * n, st (k + i) &&& 0x30 = 0

/-- No check sees an error bit, and the waits complete, that after the stop command too. -/
def CleanPhases (st : ℕ → UInt8) : ℕ → List SmbCheck → Prop
  | k, [] => WaitCompletes st k
  | k, ch :: cs =>
    st k &&& 0x30 = 0 ∧ (ch.waits → WaitCompletes st (k + 1)) ∧ CleanPhases st (ch.next st k) cs

/-- Every start condition among the stores is followed by the stop command. -/
def ReleasesBus (stores : List (SmbReg × UInt8)) : Prop :=
  ∀ before v after, stores = before ++ (.control, v) :: after → v &&& 0x01 ≠ 0 →
    (SmbReg.control, 0x02) ∈ after

/-- What a read returns is the data register after a transfer without errors, and `0xff` after any
other. -/
structure ReturnsChecked (st : ℕ → UInt8) (p : UInt8 × SmbState) : Prop where
  data : p.2.dataReads ≠ 0 → CleanPhases st 0 SmbRoutine.i2crd.checks
  error : ¬ CleanPhases st 0 SmbRoutine.i2crd.checks → p.1 = 0xff

section Runs

variable {c : SmbAnswers} {s : SmbState} {α : Type}

theorem run_data_bind (k : UInt8 → StateM SmbState α) : (ior c .data >>= k).run s =
    (k (c .data s.dataReads)).run { s with dataReads := s.dataReads + 1 } :=
  rfl

theorem run_status_bind (k : UInt8 → StateM SmbState α) : (ior c .status >>= k).run s =
    (k (c .status s.statusReads)).run { s with statusReads := s.statusReads + 1 } :=
  rfl

theorem run_control_bind (k : UInt8 → StateM SmbState α) : (ior c .control >>= k).run s =
    (k (c .control s.controlReads)).run { s with controlReads := s.controlReads + 1 } :=
  rfl

theorem run_iow_bind (v : UInt8) (reg : SmbReg) (k : PUnit → StateM SmbState α) :
    (iow v reg >>= k).run s = (k ⟨⟩).run { s with stores := s.stores ++ [(reg, v)] } :=
  rfl

theorem run_ite (p : Prop) [Decidable p] (m m' : StateM SmbState α) :
    (if p then m else m').run s = if p then m.run s else m'.run s := by
  split_ifs <;> rfl

/-- `i2cwait` reads the status and nothing else. -/
theorem run_i2cwaitLoop (n : ℕ) : (i2cwaitLoop c n).run s =
    (⟨⟩, { s with statusReads := waitEnd (c .status) n s.statusReads }) := by
  induction n generalizing s with
  | zero => rfl
  | succ n ih =>
    simp only [i2cwaitLoop, run_status_bind, run_ite, ih, waitEnd]
    split_ifs <;> rfl

theorem run_i2cwait_bind (k : PUnit → StateM SmbState α) : (i2cwait c >>= k).run s =
    (k ⟨⟩).run { s with statusReads := waitEnd (c .status) 1000 s.statusReads } := by
  have h := run_i2cwaitLoop (c := c) (s := s) 1000
  calc (i2cwait c >>= k).run s
      = (fun p : PUnit × SmbState => (k p.1).run p.2) ((i2cwaitLoop c 1000).run s) := rfl
    _ = _ := by rw [h]

end Runs

/-! ## Outcomes -/

theorem or_and_cancel (v b : UInt8) : (v ||| b) &&& b = b := by
  refine UInt8.toBitVec_inj.mp (BitVec.eq_of_getLsbD_eq fun i hi => ?_)
  simp only [UInt8.toBitVec_and, UInt8.toBitVec_or, BitVec.getLsbD_and, BitVec.getLsbD_or]
  cases v.toBitVec.getLsbD i <;> simp

/-- No start condition and no acknowledge is the stop command. -/
theorem stop_ne_or {b : UInt8} (hb : 0x02 &&& b ≠ b) (v : UInt8) : 0x02 ≠ v ||| b := by
  intro h
  rw [h, or_and_cancel] at hb
  exact hb rfl

/-- The transfer was given up : the stop command does not follow the start condition. -/
structure GivenUp (p : UInt8 × SmbState) : Prop where
  ret : p.1 = 0xff
  dataReads : p.2.dataReads = 0
  stores : ∃ v after, p.2.stores = (.control, v ||| 0x01) :: after ∧ (.control, 0x02) ∉ after

/-- The stop command was the last store. -/
def Stopped (p : UInt8 × SmbState) : Prop :=
  ∃ w, p.2.stores = w ++ [(.control, 0x02)]

section Outcomes

variable {c : SmbAnswers} (slave reg val : ℤ)

theorem i2crd_givenUp (h : ¬ PassesChecks (c .status) 0 SmbRoutine.i2crd.checks) :
    GivenUp ((i2crd c slave reg).run .fresh) := by
  have hstart := stop_ne_or (b := 0x01) (by decide)
  have hack := stop_ne_or (b := 0x10) (by decide)
  simp only [SmbRoutine.checks, PassesChecks, SmbCheck.next, if_true, Bool.false_eq_true,
    if_false] at h
  simp only [i2crd, run_data_bind, run_status_bind, run_control_bind, run_iow_bind,
    run_i2cwait_bind, run_ite]
  split_ifs with h1 h2 h3 h4 h5
  · exact ⟨rfl, rfl, _, _, rfl, by simp⟩
  · exact ⟨rfl, rfl, _, _, rfl, by simp⟩
  · exact ⟨rfl, rfl, _, _, rfl, by simp [hack]⟩
  · exact ⟨rfl, rfl, _, _, rfl, by simp [hack, hstart]⟩
  · exact ⟨rfl, rfl, _, _, rfl, by simp [hack, hstart]⟩
  · exact absurd ⟨not_not.mp h1, not_not.mp h2, not_not.mp h3, not_not.mp h4, not_not.mp h5,
      trivial⟩ h

theorem i2crd_passes (h : PassesChecks (c .status) 0 SmbRoutine.i2crd.checks) :
    ((i2crd c slave reg).run .fresh).1 = c .data 0 ∧
      ((i2crd c slave reg).run .fresh).2.dataReads = 1 ∧
      Stopped ((i2crd c slave reg).run .fresh) := by
  simp only [SmbRoutine.checks, PassesChecks, SmbCheck.next, if_true, Bool.false_eq_true,
    if_false] at h
  obtain ⟨h1, h2, h3, h4, h5, -⟩ := h
  simp only [i2crd, run_data_bind, run_status_bind, run_control_bind, run_iow_bind,
    run_i2cwait_bind, run_ite]
  split_ifs with g1 g2 g3 g4 g5
  · exact absurd h1 g1
  · exact absurd h2 g2
  · exact absurd h3 g3
  · exact absurd h4 g4
  · exact absurd h5 g5
  · exact ⟨rfl, rfl, _, rfl⟩

theorem i2cwr_givenUp (h : ¬ PassesChecks (c .status) 0 SmbRoutine.i2cwr.checks) :
    GivenUp ((i2cwr c slave reg val).run .fresh) := by
  have hack := stop_ne_or (b := 0x10) (by decide)
  simp only [SmbRoutine.checks, PassesChecks, SmbCheck.next, if_true] at h
  simp only [i2cwr, run_status_bind, run_control_bind, run_iow_bind, run_i2cwait_bind, run_ite]
  split_ifs with h1 h2 h3
  · exact ⟨rfl, rfl, _, _, rfl, by simp⟩
  · exact ⟨rfl, rfl, _, _, rfl, by simp⟩
  · exact ⟨rfl, rfl, _, _, rfl, by simp [hack]⟩
  · exact absurd ⟨not_not.mp h1, not_not.mp h2, not_not.mp h3, trivial⟩ h

theorem i2cwr_passes (h : PassesChecks (c .status) 0 SmbRoutine.i2cwr.checks) :
    Stopped ((i2cwr c slave reg val).run .fresh) := by
  simp only [SmbRoutine.checks, PassesChecks, SmbCheck.next, if_true] at h
  obtain ⟨h1, h2, h3, -⟩ := h
  simp only [i2cwr, run_status_bind, run_control_bind, run_iow_bind, run_i2cwait_bind, run_ite]
  split_ifs with g1 g2 g3
  · exact absurd h1 g1
  · exact absurd h2 g2
  · exact absurd h3 g3
  · exact ⟨_, rfl⟩

/-- The start condition comes first, so that it stays without the stop command. -/
theorem GivenUp.not_releasesBus {p : UInt8 × SmbState} (h : GivenUp p) :
    ¬ ReleasesBus p.2.stores := by
  obtain ⟨v, after, hstores, hstop⟩ := h.stores
  intro hrel
  refine hstop (hrel [] _ after hstores ?_)
  rw [or_and_cancel]
  decide

theorem Stopped.releasesBus {p : UInt8 × SmbState} (h : Stopped p) : ReleasesBus p.2.stores := by
  obtain ⟨w, hstores⟩ := h
  intro before v after hsplit hstart
  rw [hstores] at hsplit
  rcases List.eq_nil_or_concat after with rfl | ⟨after, last, rfl⟩
  · obtain ⟨-, hlast⟩ := List.append_inj' hsplit rfl
    obtain ⟨-, rfl⟩ := Prod.mk.inj (List.singleton_inj.mp hlast)
    exact absurd rfl hstart
  · rw [List.concat_eq_append, ← List.cons_append, ← List.append_assoc] at hsplit
    obtain ⟨-, hlast⟩ := List.append_inj' hsplit rfl
    simp [← List.singleton_inj.mp hlast]

/-- A call of either routine leaves the bus released exactly if no status that it checks has one
of the bits it checks. -/
theorem releasesBus_iff (c : SmbAnswers) (r : SmbRoutine) :
    ReleasesBus ((r.call c slave reg val).run .fresh).2.stores ↔
      PassesChecks (c .status) 0 r.checks := by
  cases r with
  | i2crd =>
    refine ⟨fun hrel => ?_, fun h => (i2crd_passes slave reg h).2.2.releasesBus⟩
    by_contra h
    exact (i2crd_givenUp slave reg h).not_releasesBus hrel
  | i2cwr =>
    refine ⟨fun hrel => ?_, fun h => (i2cwr_passes slave reg val h).releasesBus⟩
    by_contra h
    exact (i2cwr_givenUp slave reg val h).not_releasesBus hrel

/-- `i2crd` returns what it should exactly if a status that it checks has one of the bits it
checks, or the transfer is without errors. -/
theorem returnsChecked_iff (c : SmbAnswers) :
    ReturnsChecked (c .status) ((i2crd c slave reg).run .fresh) ↔
      (PassesChecks (c .status) 0 SmbRoutine.i2crd.checks →
        CleanPhases (c .status) 0 SmbRoutine.i2crd.checks) := by
  constructor
  · intro h hpass
    refine h.data ?_
    rw [(i2crd_passes slave reg hpass).2.1]
    decide
  · intro h
    by_cases hpass : PassesChecks (c .status) 0 SmbRoutine.i2crd.checks
    · exact ⟨fun _ => h hpass, fun hclean => absurd (h hpass) hclean⟩
    · have hgiven := i2crd_givenUp slave reg hpass
      exact ⟨fun hdata => absurd hgiven.dataReads hdata, fun _ => hgiven.ret⟩

end Outcomes

/-- A controller whose status does not change, and with 7 in the data register. -/
def stuckAt (status : UInt8) : SmbAnswers
  | .data, _ => 7
  | .status, _ => status
  | .control, _ => 0

/-- The start condition meets an error. -/
theorem not_releasesBus_busy :
    ¬ ReleasesBus ((SmbRoutine.i2crd.call (stuckAt 0x20) 0xa0 0 0).run .fresh).2.stores := by
  intro h
  have hstores : ((SmbRoutine.i2crd.call (stuckAt 0x20) 0xa0 0 0).run .fresh).2.stores =
      [(.control, 0x01)] := rfl
  rw [hstores] at h
  exact absurd (h [] 0x01 [] rfl (by decide)) (by decide)

/-- All the waits run out. -/
theorem not_returnsChecked_idle :
    ¬ ReturnsChecked (stuckAt 0 .status) ((i2crd (stuckAt 0) 0xa0 0).run .fresh) := by
  intro h
  have hpass : PassesChecks (stuckAt 0 .status) 0 SmbRoutine.i2crd.checks := by
    simp [PassesChecks, SmbRoutine.checks, stuckAt]
  have hdata := (i2crd_passes 0xa0 0 hpass).2.1
  obtain ⟨-, hwait, -⟩ := h.data (by rw [hdata]; decide)
  obtain ⟨n, -, hdone, -⟩ := hwait rfl
  exact absurd (by decide : (0 : UInt8) &&& 0x40 = 0) hdone

end LxToolset
