import Mathlib.Data.List.Infix
import Mathlib.Tactic.Common

/-!
# videoram-test

The program maps the video memory block by block and in each block stores a pattern in
every word and reads it back. The two copies of the program in the repository differ in
what they print.

`videoramTest` lists what a run does to the memory. `videoramTest_exit_eq_zero_iff` says
which memories pass, `firstBlock_tested` what a passed memory has been through :
the inner loop counts in the variable of the outer one, which ends after one block.
-/

namespace LxToolset

/-! ## The program -/

inductive VideoramProgram where
  /-- `videoram/videoram-test.c` -/
  | videoram
  /-- `emi-test/video/videoram-test.c` -/
  | emiTest
  deriving DecidableEq

inductive VideoEvent where
  | perror (text : String)
  | printf (i : ℕ)
  | mmap (offset : ℕ)
  | store (addr : ℕ) (v : UInt32)
  | load (addr : ℕ) (v : UInt32)
  | munmap (offset : ℕ)
  | close
  deriving DecidableEq

/-- What a run finds : whether `/dev/fb0` opens, whether the block at an offset is mapped,
and what each word of the memory returns of the value last stored to it. -/
structure VideoEnv where
  openFb0 : Bool
  mmap : ℕ → Bool
  returns : ℕ → UInt32 → UInt32

/-- The exit status and what has been done. -/
structure VideoRun where
  exit : ℤ
  events : List VideoEvent
  deriving DecidableEq

def blockSize : ℕ := 0x100000

def memorySize : ℕ := 0x400000

def startAddrOff : ℕ := 0x0

def tstPattern1 : UInt32 := 0xA53C5AC3

/-- Compare writing and reading data from `i` on : the value of `i` after the loop, `none`
where a word differs. -/
def compareBlock (e : VideoEnv) (offset i : ℕ) : Option ℕ × List VideoEvent :=
  if i < blockSize then
    let tmp := e.returns (offset + i) tstPattern1
    let events := [.store (offset + i) tstPattern1, .load (offset + i) tmp]
    if tmp ≠ tstPattern1 then
      (none, events)
    else
      let rest := compareBlock e offset (i + 4)
      (rest.1, events ++ rest.2)
  else
    (some i, [])
  termination_by blockSize - i

theorem compareBlock_some {e : VideoEnv} {offset i i' : ℕ}
    (h : (compareBlock e offset i).1 = some i') : blockSize ≤ i' := by
  fun_induction compareBlock e offset i with
  | case1 => simp at h
  | case2 i hi tmp events htmp rest ih => exact ih h
  | case3 i hi =>
    obtain rfl : i = i' := by simpa using h
    omega

/-- The loop over the blocks. The comparison runs in the same `i`. -/
def testBlocks (p : VideoramProgram) (e : VideoEnv) (i : ℕ) : VideoRun :=
  if i < (memorySize - startAddrOff) / blockSize then
    let offset := startAddrOff + i * blockSize
    let mapped := .mmap offset :: if p = .emiTest then [.printf i] else []
    if e.mmap offset then
      let block := compareBlock e offset 0
      match _h : block.1 with
      | none => ⟨-1, mapped ++ block.2⟩
      | some i' =>
        let rest := testBlocks p e (i' + 1)
        ⟨rest.exit, mapped ++ block.2 ++ .munmap offset :: rest.events⟩
    else
      ⟨-1, mapped ++ [.perror "mmap"]⟩
  else
    ⟨0, [.close]⟩
  termination_by memorySize - i
  decreasing_by
    have := compareBlock_some _h
    simp only [memorySize, startAddrOff, blockSize] at *
    omega

/-- `main` -/
def videoramTest (p : VideoramProgram) (e : VideoEnv) : VideoRun :=
  if e.openFb0 then testBlocks p e 0 else ⟨-1, [.perror "open"]⟩

/-! ## One block -/

/-- The word does not return the pattern stored to it. -/
def VideoEnv.Faulty (e : VideoEnv) (addr : ℕ) : Prop :=
  e.returns addr tstPattern1 ≠ tstPattern1

/-- The pattern is written to the word and read back from it. -/
def Tested (addr : ℕ) (events : List VideoEvent) : Prop :=
  [.store addr tstPattern1, .load addr tstPattern1] <:+: events

section

variable (e : VideoEnv) (offset : ℕ)

theorem compareBlock_eq_none_iff (i : ℕ) : (compareBlock e offset i).1 = none ↔
    ∃ w, i ≤ w ∧ w < blockSize ∧ 4 ∣ w - i ∧ e.Faulty (offset + w) := by
  fun_induction compareBlock e offset i with
  | case1 i hi tmp events htmp =>
    simp only [true_iff]
    exact ⟨i, le_rfl, hi, by simp, htmp⟩
  | case2 i hi tmp events htmp rest ih =>
    rw [ih]
    refine ⟨fun ⟨w, hle, hlt, hd, hf⟩ => ⟨w, by omega, hlt, by omega, hf⟩, ?_⟩
    rintro ⟨w, hle, hlt, hd, hf⟩
    -- the word at `i` is sound, so the faulty one comes later
    have hne : w ≠ i := by
      rintro rfl
      exact htmp hf
    exact ⟨w, by omega, hlt, by omega, hf⟩
  | case3 i hi =>
    simp only [reduceCtorEq, false_iff]
    rintro ⟨w, hle, hlt, -⟩
    omega

/-- A block that passes has been tested word by word. -/
theorem compareBlock_tested {i i' : ℕ} (h : (compareBlock e offset i).1 = some i') {w : ℕ}
    (hle : i ≤ w) (hlt : w < blockSize) (hd : 4 ∣ w - i) :
    Tested (offset + w) (compareBlock e offset i).2 := by
  fun_induction compareBlock e offset i with
  | case1 => simp at h
  | case2 i hi tmp events htmp rest ih =>
    rcases Nat.eq_or_lt_of_le hle with rfl | hlt'
    · have htmp' : tmp = tstPattern1 := by simpa using htmp
      refine ⟨[], rest.2, ?_⟩
      simp [events, htmp']
    · exact (ih h (by omega) (by omega)).trans (List.suffix_append _ _).isInfix
  | case3 i hi => omega

theorem addr_of_store_mem {i a : ℕ} {v : UInt32}
    (h : .store a v ∈ (compareBlock e offset i).2) : a < offset + blockSize := by
  fun_induction compareBlock e offset i with
  | case1 i hi tmp events htmp =>
    simp only [events, List.mem_cons, VideoEvent.store.injEq, reduceCtorEq, List.not_mem_nil,
      or_false] at h
    omega
  | case2 i hi tmp events htmp rest ih =>
    simp only [events, List.mem_append, List.mem_cons, VideoEvent.store.injEq, reduceCtorEq,
      List.not_mem_nil, or_false] at h
    rcases h with h | h
    · omega
    · exact ih h
  | case3 => simp at h

end

/-! ## The whole test -/

/-- `/dev/fb0` is not opened, the first block is not mapped or a word of it is faulty. -/
def FirstBlockFails (e : VideoEnv) : Prop :=
  e.openFb0 = false ∨ e.mmap startAddrOff = false ∨
    ∃ w < blockSize, 4 ∣ w ∧ e.Faulty (startAddrOff + w)

/-- After the first block `i` is past the number of blocks. -/
theorem testBlocks_of_le (p : VideoramProgram) (e : VideoEnv) {i : ℕ} (h : blockSize ≤ i) :
    testBlocks p e i = ⟨0, [.close]⟩ := by
  rw [testBlocks, if_neg]
  simp only [memorySize, startAddrOff, blockSize] at *
  omega

/-- The ways through the loop over the blocks, which is entered once. -/
theorem testBlocks_zero (p : VideoramProgram) (e : VideoEnv) :
    (e.mmap startAddrOff = false ∧ (testBlocks p e 0).exit = -1) ∨
    (e.mmap startAddrOff = true ∧ (compareBlock e startAddrOff 0).1 = none ∧
      (testBlocks p e 0).exit = -1) ∨
    ∃ i' pre, e.mmap startAddrOff = true ∧ (compareBlock e startAddrOff 0).1 = some i' ∧
      (∀ a v, .store a v ∉ pre) ∧ testBlocks p e 0 =
        ⟨0, pre ++ (compareBlock e startAddrOff 0).2 ++ [.munmap startAddrOff, .close]⟩ := by
  have hlt : 0 < (memorySize - startAddrOff) / blockSize := by decide
  have hpre : ∀ a v, VideoEvent.store a v ∉
      .mmap startAddrOff :: if p = .emiTest then [.printf 0] else [] := by
    intro a v
    split_ifs <;> simp
  rw [testBlocks, if_pos hlt]
  simp only [Nat.zero_mul, Nat.add_zero]
  by_cases hm : e.mmap startAddrOff = true
  · rw [if_pos hm]
    refine Or.inr ?_
    split
    · next hb => exact Or.inl ⟨hm, hb, rfl⟩
    · next i' hb =>
      have hi' : blockSize ≤ i' + 1 := (compareBlock_some hb).trans (Nat.le_succ _)
      refine Or.inr ⟨i', _, hm, hb, hpre, ?_⟩
      rw [testBlocks_of_le p e hi', List.append_assoc]
  · rw [if_neg hm]
    exact Or.inl ⟨by simpa using hm, rfl⟩

/-- A run passes exactly if the first block does. -/
theorem videoramTest_exit_eq_zero_iff (p : VideoramProgram) (e : VideoEnv) :
    (videoramTest p e).exit = 0 ↔ ¬FirstBlockFails e := by
  have hnone : (compareBlock e startAddrOff 0).1 = none ↔
      ∃ w < blockSize, 4 ∣ w ∧ e.Faulty (startAddrOff + w) := by
    rw [compareBlock_eq_none_iff]
    simp
  by_cases ho : e.openFb0 = true
  · simp only [videoramTest, FirstBlockFails, ← hnone, ho, reduceCtorEq, false_or]
    rcases testBlocks_zero p e with ⟨hm, hx⟩ | ⟨hm, hb, hx⟩ | ⟨i', pre, hm, hb, -, hx⟩
    · simp [hm, hx]
    · simp [hb, hx]
    · simp [hm, hb, hx]
  · have ho' : e.openFb0 = false := by simpa using ho
    simp [videoramTest, FirstBlockFails, ho']

/-- What a run that passes has done : the first block and nothing more. -/
theorem events_of_exit_eq_zero {p : VideoramProgram} {e : VideoEnv}
    (h : (videoramTest p e).exit = 0) : ∃ i' pre, (compareBlock e startAddrOff 0).1 = some i' ∧
      (∀ a v, .store a v ∉ pre) ∧ (videoramTest p e).events =
        pre ++ (compareBlock e startAddrOff 0).2 ++ [.munmap startAddrOff, .close] := by
  by_cases ho : e.openFb0 = true
  · simp only [videoramTest, if_pos ho] at h ⊢
    rcases testBlocks_zero p e with ⟨-, hx⟩ | ⟨-, -, hx⟩ | ⟨i', pre, -, hb, hpre, hx⟩
    · simp [hx] at h
    · simp [hx] at h
    · exact ⟨i', pre, hb, hpre, by rw [hx]⟩
  · simp [videoramTest, ho] at h

/-- Every word of the first block is tested in a run that passes. -/
theorem firstBlock_tested {p : VideoramProgram} {e : VideoEnv} (h : (videoramTest p e).exit = 0)
    {w : ℕ} (hlt : w < blockSize) (hd : 4 ∣ w) :
    Tested (startAddrOff + w) (videoramTest p e).events := by
  obtain ⟨i', pre, hb, -, he⟩ := events_of_exit_eq_zero h
  rw [he, List.append_assoc]
  have hw := compareBlock_tested e startAddrOff hb (Nat.zero_le w) hlt (by simpa using hd)
  exact (hw.trans (List.prefix_append _ _).isInfix).trans (List.suffix_append _ _).isInfix

/-- No word past the first block is written. -/
theorem not_tested_past_firstBlock {p : VideoramProgram} {e : VideoEnv}
    (h : (videoramTest p e).exit = 0) {w : ℕ} (hle : blockSize ≤ w) :
    ¬Tested (startAddrOff + w) (videoramTest p e).events := by
  obtain ⟨i', pre, -, hpre, he⟩ := events_of_exit_eq_zero h
  intro ht
  have hmem : VideoEvent.store (startAddrOff + w) tstPattern1 ∈ (videoramTest p e).events :=
    ht.subset (by simp)
  rw [he] at hmem
  simp only [List.mem_append, hpre, false_or, List.mem_cons, reduceCtorEq, List.not_mem_nil,
    or_false] at hmem
  have := addr_of_store_mem e startAddrOff hmem
  omega

/-! ## Coverage -/

/-- A run that passes has tested every word of the video memory. -/
def CoversMemory (p : VideoramProgram) (e : VideoEnv) : Prop :=
  (videoramTest p e).exit = 0 →
    ∀ w < memorySize, 4 ∣ w → Tested (startAddrOff + w) (videoramTest p e).events

/-- A faulty word anywhere in the video memory makes the test fail. -/
def DetectsFaults (p : VideoramProgram) (e : VideoEnv) : Prop :=
  (∃ w < memorySize, 4 ∣ w ∧ e.Faulty (startAddrOff + w)) → (videoramTest p e).exit ≠ 0

/-- A word past the first block is faulty. -/
def FaultyPastFirstBlock (e : VideoEnv) : Prop :=
  ∃ w, blockSize ≤ w ∧ w < memorySize ∧ 4 ∣ w ∧ e.Faulty (startAddrOff + w)

/-- The memory is covered only where the test fails, and a fault past the first block is
found only where the first block fails. -/
theorem videoram_coverage_iff (p : VideoramProgram) (e : VideoEnv) :
    (CoversMemory p e ↔ FirstBlockFails e) ∧
      (DetectsFaults p e ↔ FirstBlockFails e ∨ ¬FaultyPastFirstBlock e) := by
  have hexit := videoramTest_exit_eq_zero_iff p e
  refine ⟨⟨fun hc => ?_, fun hf h0 => absurd hf (hexit.1 h0)⟩, ⟨fun hd => ?_, ?_⟩⟩
  · by_contra hf
    have h0 := hexit.2 hf
    have ht := hc h0 blockSize (by decide) (by decide)
    exact not_tested_past_firstBlock h0 le_rfl ht
  · by_contra hn
    obtain ⟨hf, w, -, hlt, hdvd, hw⟩ : ¬FirstBlockFails e ∧ FaultyPastFirstBlock e := by
      simpa using hn
    exact hd ⟨w, hlt, hdvd, hw⟩ (hexit.2 hf)
  · rintro (hf | hn) ⟨w, hlt, hdvd, hw⟩ h0
    · exact hexit.1 h0 hf
    · rcases Nat.lt_or_ge w blockSize with hb | hb
      · exact hexit.1 h0 (Or.inr (Or.inr ⟨w, hb, hdvd, hw⟩))
      · exact hn ⟨w, hb, hlt, hdvd, hw⟩

/-- A memory whose word at 1 MiB returns zero. -/
def faultyBoard : VideoEnv :=
  ⟨true, fun _ => true, fun a v => if a = blockSize then 0 else v⟩

/-- The board passes with a faulty word. -/
theorem faultyBoard_passes : faultyBoard.Faulty (startAddrOff + blockSize) ∧
    ∀ p, (videoramTest p faultyBoard).exit = 0 ∧ ¬CoversMemory p faultyBoard ∧
      ¬DetectsFaults p faultyBoard := by
  have hfaulty : faultyBoard.Faulty (startAddrOff + blockSize) :=
    show (0 : UInt32) ≠ tstPattern1 by decide
  have hsound : ¬FirstBlockFails faultyBoard := by
    rintro (h | h | ⟨w, hlt, -, hw⟩)
    · exact absurd h (by decide)
    · exact absurd h (by decide)
    · have hne : startAddrOff + w ≠ blockSize := by
        simp only [startAddrOff]
        omega
      exact hw (if_neg hne)
  refine ⟨hfaulty, fun p => ?_⟩
  have h0 : (videoramTest p faultyBoard).exit = 0 :=
    (videoramTest_exit_eq_zero_iff p _).2 hsound
  refine ⟨h0, fun hc => ?_, fun hd => ?_⟩
  · exact not_tested_past_firstBlock h0 le_rfl (hc h0 blockSize (by decide) (by decide))
  · exact hd ⟨blockSize, by decide, by decide, hfaulty⟩ h0

end LxToolset
