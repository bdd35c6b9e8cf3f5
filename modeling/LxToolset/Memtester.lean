import LxToolset.FaultyRam
import Mathlib.Data.BitVec
import Mathlib.Tactic.IntervalCases

/-!
# The tests of memtester

Run on a memory in which any addresses may select the same cell, and each cell give back any
function of its word. `test_stuck_address` passes exactly if the addresses select different cells
that hold them and their complements (`testStuckAddress_eq_zero_iff`). The others compare two
halves: after a test that stores the same patterns in both they agree on these patterns
(`patternTest_eq_zero_iff`), and a fault that all cells share is invisible to all of them, so that
the exit code is that of the first test (`exitCode_of_shared`).
-/

set_option linter.unusedSectionVars false

namespace LxToolset

/-- What `memtester` works on: `bufsize` bytes from `aligned` on. -/
structure Tester (κ : Type*) where
  ram : Ram (BitVec 32) κ (BitVec 32)
  /-- What `rand_ul()` gives, call after call. -/
  rand : ℕ → BitVec 32
  /-- What `0x00000001 << n` gives from `n = 32` on. -/
  wide : ℕ → BitVec 32
  aligned : ℕ
  bufsize : ℕ
  four_dvd : 4 ∣ aligned
  eight_dvd : 8 ∣ bufsize
  fits : aligned + bufsize ≤ 2 ^ 32

/-- The memory, and how many random words were drawn. -/
structure TesterState (κ : Type*) where
  cells : κ → BitVec 32
  drawn : ℕ

namespace Tester

variable {κ : Type*} (T : Tester κ)

/-- Word `i` of the region. -/
def word (i : ℕ) : BitVec 32 :=
  BitVec.ofNat 32 (T.aligned + 4 * i)

def halflen : ℕ :=
  T.bufsize / 2

def count : ℕ :=
  T.halflen / 4

def bufa (i : ℕ) : BitVec 32 :=
  BitVec.ofNat 32 (T.aligned + 4 * i)

def bufb (i : ℕ) : BitVec 32 :=
  BitVec.ofNat 32 (T.aligned + T.halflen + 4 * i)

/-- `compare_regions`: `r` after `count` words. -/
def compareRegions (s : κ → BitVec 32) : ℤ :=
  Ram.loop (fun i r => if T.ram.load s (T.bufa i) ≠ T.ram.load s (T.bufb i) then -1 else r)
    T.count 0

variable [DecidableEq κ]

/-! ## test_stuck_address -/

/-- The word for `p1` in round `j`. -/
def addressPattern (j i : ℕ) : BitVec 32 :=
  if (j + i) % 2 = 0 then T.word i else ~~~ T.word i

/-- The first loop of a round. -/
def setAddresses (j : ℕ) (s : κ → BitVec 32) : κ → BitVec 32 :=
  T.ram.fill T.word (T.addressPattern j) (T.bufsize / 4) s

/-- The second loop does not return. -/
def addressesRead (j : ℕ) (s : κ → BitVec 32) : Prop :=
  ∀ i < T.bufsize / 4, T.ram.load s (T.word i) = T.addressPattern j i

instance (j : ℕ) (s : κ → BitVec 32) : Decidable (T.addressesRead j s) :=
  inferInstanceAs (Decidable (∀ i < _, _ = _))

/-- The rounds of `test_stuck_address`. -/
def addressRounds : List ℕ → (κ → BitVec 32) → ℤ × (κ → BitVec 32)
  | [], s => (0, s)
  | j :: js, s =>
    let s := T.setAddresses j s
    if T.addressesRead j s then addressRounds js s else (-1, s)

def testStuckAddress (s : TesterState κ) : ℤ × TesterState κ :=
  let (r, cells) := T.addressRounds (List.range 16) s.cells
  (r, { s with cells })

/-! ## The tests that compare two halves -/

/-- `test_random_value` -/
def testRandomValue (s : TesterState κ) : ℤ × TesterState κ :=
  let cells := T.ram.fillBoth T.bufa T.bufb (fun i => T.rand (s.drawn + i)) T.count s.cells
  (T.compareRegions cells, ⟨cells, s.drawn + T.count⟩)

/-- A test that changes the words of both halves with a random word. -/
def operationTest (op : BitVec 32 → BitVec 32 → BitVec 32) (s : TesterState κ) :
    ℤ × TesterState κ :=
  let q := T.rand s.drawn
  let cells := T.ram.changeBoth T.bufa T.bufb (op · q) T.count s.cells
  (T.compareRegions cells, ⟨cells, s.drawn + 1⟩)

def testXorComparison : TesterState κ → ℤ × TesterState κ :=
  T.operationTest (· ^^^ ·)

def testSubComparison : TesterState κ → ℤ × TesterState κ :=
  T.operationTest (· - ·)

def testMulComparison : TesterState κ → ℤ × TesterState κ :=
  T.operationTest (· * ·)

def testDivComparison : TesterState κ → ℤ × TesterState κ :=
  T.operationTest fun v q => v / if q = 0 then q + 1 else q

def testOrComparison : TesterState κ → ℤ × TesterState κ :=
  T.operationTest (· ||| ·)

def testAndComparison : TesterState κ → ℤ × TesterState κ :=
  T.operationTest (· &&& ·)

/-- `test_seqinc_comparison` -/
def testSeqincComparison (s : TesterState κ) : ℤ × TesterState κ :=
  let q := T.rand s.drawn
  let cells := T.ram.fillBoth T.bufa T.bufb (fun i => BitVec.ofNat 32 i + q) T.count s.cells
  (T.compareRegions cells, ⟨cells, s.drawn + 1⟩)

/-- The rounds of a test that stores `pattern j i` in word `i` of both halves in round `j`. -/
def patternRounds (pattern : ℕ → ℕ → BitVec 32) :
    List ℕ → (κ → BitVec 32) → ℤ × (κ → BitVec 32)
  | [], s => (0, s)
  | j :: js, s =>
    let s := T.ram.fillBoth T.bufa T.bufb (pattern j) T.count s
    if T.compareRegions s ≠ 0 then (-1, s) else patternRounds pattern js s

def patternTest (pattern : ℕ → ℕ → BitVec 32) (rounds : ℕ) (s : TesterState κ) :
    ℤ × TesterState κ :=
  let (r, cells) := T.patternRounds pattern (List.range rounds) s.cells
  (r, { s with cells })

end Tester

/-- `(i % 2) == 0 ? q : ~q` -/
def alternating (q : ℕ → BitVec 32) (j i : ℕ) : BitVec 32 :=
  if i % 2 = 0 then q j else ~~~ q j

def solidbits (j : ℕ) : BitVec 32 :=
  if j % 2 = 0 then 0xffffffff else 0

def checkerboard (j : ℕ) : BitVec 32 :=
  if j % 2 = 0 then 0x55555555 else 0xaaaaaaaa

/-- `UL_BYTE` -/
def ulByte (x : BitVec 32) : BitVec 32 :=
  x ||| x <<< (8 : ℕ) ||| x <<< (16 : ℕ) ||| x <<< (24 : ℕ)

/-- The bit that walks up in the first 32 rounds, and back down in the others. -/
def walking (j : ℕ) : BitVec 32 :=
  if j < 32 then 1#32 <<< j else 1#32 <<< (32 * 2 - j - 1)

/-- `q` in round `k * 8 + j` of `test_bitflip_comparison`, where it is inverted first. -/
def bitflip (n : ℕ) : BitVec 32 :=
  (~~~ ·)^[n % 8 + 1] (1#32 <<< (n / 8))

namespace Tester

variable {κ : Type*} (T : Tester κ)

/-- `0x00000001 << n` -/
def oneShl (n : ℕ) : BitVec 32 :=
  if n < 32 then 1#32 <<< n else T.wide n

/-- The two bits of `test_bitspread_comparison`. -/
def spread (j : ℕ) : BitVec 32 :=
  if j < 32 then T.oneShl j ||| T.oneShl (j + 2)
  else T.oneShl (32 * 2 - 1 - j) ||| T.oneShl (32 * 2 + 1 - j)

variable [DecidableEq κ]

def testSolidbitsComparison : TesterState κ → ℤ × TesterState κ :=
  T.patternTest (alternating solidbits) 64

def testBlockseqComparison : TesterState κ → ℤ × TesterState κ :=
  T.patternTest (fun j _ => ulByte (BitVec.ofNat 32 j)) 256

def testCheckerboardComparison : TesterState κ → ℤ × TesterState κ :=
  T.patternTest (alternating checkerboard) 64

def testBitspreadComparison : TesterState κ → ℤ × TesterState κ :=
  T.patternTest (fun j i => if i % 2 = 0 then T.spread j else 0xffffffff ^^^ T.spread j) 64

def testBitflipComparison : TesterState κ → ℤ × TesterState κ :=
  T.patternTest (alternating bitflip) 256

def testWalkbits1Comparison : TesterState κ → ℤ × TesterState κ :=
  T.patternTest (fun j _ => 0xffffffff ^^^ walking j) 64

def testWalkbits0Comparison : TesterState κ → ℤ × TesterState κ :=
  T.patternTest (fun j _ => walking j) 64

/-! ## main -/

/-- The table `tests`. -/
def tests : List (TesterState κ → ℤ × TesterState κ) :=
  [T.testRandomValue, T.testXorComparison, T.testSubComparison, T.testMulComparison,
    T.testDivComparison, T.testOrComparison, T.testAndComparison, T.testSeqincComparison,
    T.testSolidbitsComparison, T.testBlockseqComparison, T.testCheckerboardComparison,
    T.testBitspreadComparison, T.testBitflipComparison, T.testWalkbits1Comparison,
    T.testWalkbits0Comparison]

/-- `exit_code` and the state after a test, that sets `flag` if it fails. -/
def runTest (flag : ℕ) (x : ℕ × TesterState κ) (test : TesterState κ → ℤ × TesterState κ) :
    ℕ × TesterState κ :=
  let (r, s) := test x.2
  (if r = 0 then x.1 else x.1 ||| flag, s)

/-- A pass of the outer loop. -/
def pass (x : ℕ × TesterState κ) : ℕ × TesterState κ :=
  T.tests.foldl (runTest 0x04) (runTest 0x02 x T.testStuckAddress)

/-- `exit_code` after the passes of `loops`. -/
def exitCode (loops : ℕ) (s : TesterState κ) : ℕ :=
  (T.pass^[loops] (0, s)).1

/-! ## The region -/

section Region

variable {T} {s : κ → BitVec 32} {i j k n : ℕ}

theorem toNat_word (hi : i < T.bufsize / 4) : (T.word i).toNat = T.aligned + 4 * i := by
  have hfits := T.fits
  rw [word, BitVec.toNat_ofNat, Nat.mod_eq_of_lt (by omega)]

theorem halflen_eq : T.halflen = 4 * T.count := by
  have hdvd := T.eight_dvd
  rw [count, halflen]
  omega

theorem two_mul_count : 2 * T.count = T.bufsize / 4 := by
  have hdvd := T.eight_dvd
  rw [count, halflen]
  omega

theorem bufb_eq (i : ℕ) : T.bufb i = T.word (T.count + i) := by
  rw [bufb, word, halflen_eq]
  congr 1
  omega

/-- The words of the region stand in different cells. -/
def Injective (T : Tester κ) : Prop :=
  ∀ i < T.bufsize / 4, ∀ k < T.bufsize / 4,
    T.ram.decode (T.word i) = T.ram.decode (T.word k) → i = k

theorem Injective.halves (h : T.Injective) : T.ram.Halves T.bufa T.bufb T.count where
  left i hi k hk := by
    have hn : 2 * T.count = T.bufsize / 4 := two_mul_count
    exact h i (by omega) k (by omega)
  right i hi k hk hc := by
    have hn : 2 * T.count = T.bufsize / 4 := two_mul_count
    rw [bufb_eq, bufb_eq] at hc
    have heq := h _ (by omega) _ (by omega) hc
    omega
  apart i hi k hk hc := by
    have hn : 2 * T.count = T.bufsize / 4 := two_mul_count
    rw [bufb_eq] at hc
    have heq := h i (by omega) _ (by omega) hc
    omega

theorem compareRegions_eq_zero_iff : T.compareRegions s = 0 ↔
    ∀ i < T.count, T.ram.load s (T.bufa i) = T.ram.load s (T.bufb i) := by
  rw [compareRegions]
  induction T.count with
  | zero => simp [Ram.loop]
  | succ n ih =>
    rw [Ram.loop]
    split_ifs with h
    · exact iff_of_false (by decide) fun hall => h (hall n n.lt_succ_self)
    · rw [ih]
      constructor
      · intro hall i hi
        rcases Nat.lt_succ_iff_lt_or_eq.1 hi with hin | rfl
        · exact hall i hin
        · exact not_not.1 h
      · exact fun hall i hi => hall i (by omega)

end Region

/-! ## What the test of the addresses finds -/

section Addresses

variable {T} {s : κ → BitVec 32} {i j k : ℕ}

/-- The cell of each word of the region holds its address, and the complement of it. -/
def HoldsAddresses (T : Tester κ) : Prop :=
  ∀ i < T.bufsize / 4, T.ram.reads (T.ram.decode (T.word i)) (T.word i) = T.word i ∧
    T.ram.reads (T.ram.decode (T.word i)) (~~~ T.word i) = ~~~ T.word i

instance (T : Tester κ) : Decidable T.HoldsAddresses :=
  inferInstanceAs (Decidable (∀ i < _, _ = _ ∧ _ = _))

/-- What was in the memory makes no difference to a round. -/
theorem addressesRead_congr {s' : κ → BitVec 32} (h : T.addressesRead j (T.setAddresses j s)) :
    T.addressesRead j (T.setAddresses j s') := by
  intro i hi
  rw [← h i hi, Ram.load, Ram.load, setAddresses, setAddresses, Ram.fill_congr hi]

theorem addressRounds_eq_zero_iff {js : List ℕ} : (T.addressRounds js s).1 = 0 ↔
    ∀ j ∈ js, T.addressesRead j (T.setAddresses j s) := by
  induction js generalizing s with
  | nil => simp [addressRounds]
  | cons j js ih =>
    simp only [addressRounds, List.forall_mem_cons]
    by_cases h : T.addressesRead j (T.setAddresses j s)
    · rw [if_pos h, ih, and_iff_right h]
      exact forall₂_congr fun k _ => ⟨fun hk => addressesRead_congr hk,
        fun hk => addressesRead_congr hk⟩
    · rw [if_neg h]
      exact iff_of_false (fun hr => absurd hr (by simp)) fun hall => h hall.1

/-- Two words of one round are different, as all addresses are even. -/
theorem addressPattern_inj (hi : i < T.bufsize / 4) (hk : k < T.bufsize / 4)
    (h : T.addressPattern j i = T.addressPattern j k) : i = k := by
  have hi' := toNat_word hi
  have hk' := toNat_word hk
  have hfits := T.fits
  have hdvd := T.four_dvd
  have hnat := congrArg BitVec.toNat h
  rw [addressPattern, addressPattern] at hnat
  split_ifs at hnat
  · omega
  · rw [BitVec.toNat_not] at hnat
    omega
  · rw [BitVec.toNat_not] at hnat
    omega
  · rw [BitVec.toNat_not, BitVec.toNat_not] at hnat
    omega

theorem load_setAddresses (h : T.Injective) (hi : i < T.bufsize / 4) :
    T.ram.load (T.setAddresses j s) (T.word i) =
      T.ram.reads (T.ram.decode (T.word i)) (T.addressPattern j i) := by
  rw [Ram.load, setAddresses, Ram.fill_apply h hi]

/-- If two words shared a cell, one of them would be read for the other. -/
theorem injective_of_addressesRead (h : T.addressesRead j (T.setAddresses j s)) :
    T.Injective := by
  intro i hi k hk hc
  refine addressPattern_inj hi hk ((h i hi).symm.trans (Eq.trans ?_ (h k hk)))
  rw [Ram.load, Ram.load, hc]

theorem addressRounds_range_eq_zero_iff :
    (T.addressRounds (List.range 16) s).1 = 0 ↔ T.Injective ∧ T.HoldsAddresses := by
  rw [addressRounds_eq_zero_iff]
  constructor
  · intro h
    have hinj := injective_of_addressesRead (h 0 (by decide))
    refine ⟨hinj, fun i hi => ?_⟩
    have heven := h 0 (by decide) i hi
    have hodd := h 1 (by decide) i hi
    rw [load_setAddresses hinj hi] at heven hodd
    rcases Nat.mod_two_eq_zero_or_one i with hpar | hpar
    · rw [addressPattern, if_pos (by omega)] at heven
      rw [addressPattern, if_neg (by omega)] at hodd
      exact ⟨heven, hodd⟩
    · rw [addressPattern, if_neg (by omega)] at heven
      rw [addressPattern, if_pos (by omega)] at hodd
      exact ⟨hodd, heven⟩
  · rintro ⟨hinj, hholds⟩ j - i hi
    obtain ⟨haddr, hcompl⟩ := hholds i hi
    rw [load_setAddresses hinj hi, addressPattern]
    split_ifs
    · exact haddr
    · exact hcompl

/-- The first test passes iff different words stand in different cells that hold their address
and its complement, whatever else is wrong with the memory. -/
theorem testStuckAddress_eq_zero_iff (s : TesterState κ) :
    (T.testStuckAddress s).1 = 0 ↔ T.Injective ∧ T.HoldsAddresses :=
  addressRounds_range_eq_zero_iff

end Addresses

/-! ## What the comparisons find -/

section Patterns

variable {T} {s : κ → BitVec 32} {pattern : ℕ → ℕ → BitVec 32} {v : ℕ → BitVec 32} {i n : ℕ}

/-- The two halves give back the same for the word `v i`, stored in both. -/
def Agree (T : Tester κ) (v : ℕ → BitVec 32) : Prop :=
  ∀ i < T.count, T.ram.reads (T.ram.decode (T.bufa i)) (v i) =
    T.ram.reads (T.ram.decode (T.bufb i)) (v i)

theorem compareRegions_fillBoth (h : T.Injective) :
    T.compareRegions (T.ram.fillBoth T.bufa T.bufb v T.count s) = 0 ↔ T.Agree v := by
  rw [compareRegions_eq_zero_iff]
  refine forall₂_congr fun i hi => ?_
  obtain ⟨ha, hb⟩ := Ram.fillBoth_apply (v := v) (s := s) h.halves hi
  rw [Ram.load, Ram.load, ha, hb]

/-- A test with patterns passes iff the halves agree on all that it stores. -/
theorem patternTest_eq_zero_iff (h : T.Injective) (s : TesterState κ) :
    (T.patternTest pattern n s).1 = 0 ↔ ∀ j < n, T.Agree (pattern j) := by
  have hrounds : ∀ js s, (T.patternRounds pattern js s).1 = 0 ↔ ∀ j ∈ js, T.Agree (pattern j) := by
    intro js
    induction js with
    | nil => simp [patternRounds]
    | cons j js ih =>
      intro s
      rw [patternRounds, List.forall_mem_cons, ← compareRegions_fillBoth h (s := s)]
      by_cases hr : T.compareRegions (T.ram.fillBoth T.bufa T.bufb (pattern j) T.count s) = 0
      · simp only [hr, ne_eq, not_true_eq_false, if_false, ih, true_and]
      · simp [hr]
  simp only [patternTest, hrounds, List.mem_range]

/-- Four words, of which the first has its last bit stuck. -/
def stuckTester : Tester (BitVec 32) where
  ram := ⟨id, fun c v => if c = 0x1000 then v ||| 1 else v⟩
  rand _ := 0
  wide _ := 0
  aligned := 0x1000
  bufsize := 16
  four_dvd := by decide
  eight_dvd := by decide
  fits := by decide

theorem injective_stuckTester : stuckTester.Injective := by
  rw [Injective]
  decide

theorem testSolidbitsComparison_stuckTester (s : TesterState (BitVec 32)) :
    (stuckTester.testSolidbitsComparison s).1 ≠ 0 := fun h =>
  absurd ((patternTest_eq_zero_iff injective_stuckTester s).1 h 1 (by decide) 0 (by decide))
    (by decide)

end Patterns

/-! ## A fault that all cells share -/

section Shared

variable {T} {f : BitVec 32 → BitVec 32} {s : TesterState κ} {x : ℕ × TesterState κ} {n : ℕ}

/-- The halves hold the same words. -/
def Same (T : Tester κ) (s : TesterState κ) : Prop :=
  ∀ i < T.count, s.cells (T.ram.decode (T.bufa i)) = s.cells (T.ram.decode (T.bufb i))

/-- The test passes, and leaves the halves the same. -/
def Blind (T : Tester κ) (test : TesterState κ → ℤ × TesterState κ) : Prop :=
  ∀ s, T.Same s → (test s).1 = 0 ∧ T.Same (test s).2

theorem Same.compareRegions (hf : ∀ c, T.ram.reads c = f) (h : T.Same s) :
    T.compareRegions s.cells = 0 := by
  rw [compareRegions_eq_zero_iff]
  intro i hi
  rw [Ram.load, Ram.load, hf, hf, h i hi]

theorem same_fillBoth (hinj : T.Injective) (v : ℕ → BitVec 32) (s : κ → BitVec 32) (drawn : ℕ) :
    T.Same ⟨T.ram.fillBoth T.bufa T.bufb v T.count s, drawn⟩ := by
  intro i hi
  obtain ⟨ha, hb⟩ := Ram.fillBoth_apply (v := v) (s := s) hinj.halves hi
  exact ha.trans hb.symm

theorem blind_operationTest (hinj : T.Injective) (hf : ∀ c, T.ram.reads c = f)
    (op : BitVec 32 → BitVec 32 → BitVec 32) : T.Blind (T.operationTest op) := by
  intro s hs
  have hsame : T.Same (T.operationTest op s).2 := by
    intro i hi
    obtain ⟨ha, hb⟩ := Ram.changeBoth_apply (f := (op · (T.rand s.drawn))) (s := s.cells)
      hinj.halves hi
    refine ha.trans (Eq.trans ?_ hb.symm)
    rw [hf, hf, hs i hi]
  exact ⟨hsame.compareRegions hf, hsame⟩

theorem testRandomValue_of_shared (hinj : T.Injective) (hf : ∀ c, T.ram.reads c = f)
    (s : TesterState κ) : (T.testRandomValue s).1 = 0 ∧ T.Same (T.testRandomValue s).2 :=
  have hsame := same_fillBoth hinj (fun i => T.rand (s.drawn + i)) s.cells (s.drawn + T.count)
  ⟨hsame.compareRegions hf, hsame⟩

theorem blind_testSeqincComparison (hinj : T.Injective) (hf : ∀ c, T.ram.reads c = f) :
    T.Blind T.testSeqincComparison := fun s _ =>
  have hsame := same_fillBoth hinj (fun i => BitVec.ofNat 32 i + T.rand s.drawn) s.cells
    (s.drawn + 1)
  ⟨hsame.compareRegions hf, hsame⟩

theorem blind_patternTest (hinj : T.Injective) (hf : ∀ c, T.ram.reads c = f)
    (pattern : ℕ → ℕ → BitVec 32) (n : ℕ) : T.Blind (T.patternTest pattern n) := by
  have hrounds : ∀ js s d, T.Same ⟨s, d⟩ → (T.patternRounds pattern js s).1 = 0 ∧
      T.Same ⟨(T.patternRounds pattern js s).2, d⟩ := by
    intro js
    induction js with
    | nil => exact fun s d hs => ⟨rfl, hs⟩
    | cons j js ih =>
      intro s d hs
      have hsame := same_fillBoth hinj (pattern j) s d
      simp only [patternRounds]
      rw [if_neg (not_not_intro (hsame.compareRegions hf))]
      exact ih _ _ hsame
  exact fun s hs => hrounds _ _ _ hs

/-- From the second on, all tests of the table are blind to a shared fault. -/
theorem blind_of_mem_tests (hinj : T.Injective) (hf : ∀ c, T.ram.reads c = f) :
    ∀ test ∈ T.tests.tail, T.Blind test := by
  have hop := blind_operationTest hinj hf
  have hpat := blind_patternTest hinj hf
  simp only [tests, List.tail_cons, List.forall_mem_cons]
  exact ⟨hop _, hop _, hop _, hop _, hop _, hop _, blind_testSeqincComparison hinj hf, hpat _ _,
    hpat _ _, hpat _ _, hpat _ _, hpat _ _, hpat _ _, hpat _ _, fun _ h => absurd h (by simp)⟩

theorem foldl_runTest_of_blind {ts : List (TesterState κ → ℤ × TesterState κ)} {flag : ℕ}
    (h : ∀ test ∈ ts, T.Blind test) (hx : T.Same x.2) : (ts.foldl (runTest flag) x).1 = x.1 := by
  induction ts generalizing x with
  | nil => rfl
  | cons test ts ih =>
    obtain ⟨hr, hs⟩ := h test List.mem_cons_self x.2 hx
    rw [List.foldl_cons, ih (fun t ht => h t (List.mem_cons_of_mem _ ht)) hs]
    exact if_pos hr

/-- With a shared fault a pass finds what its first test finds, and no more. -/
theorem pass_of_shared (hinj : T.Injective) (hf : ∀ c, T.ram.reads c = f) :
    (T.pass x).1 = if T.HoldsAddresses then x.1 else x.1 ||| 0x02 := by
  have htests : T.tests = T.testRandomValue :: T.tests.tail := rfl
  have hstuck : (runTest 0x02 x T.testStuckAddress).1 =
      if T.HoldsAddresses then x.1 else x.1 ||| 0x02 := by
    simp only [runTest]
    exact if_congr (addressRounds_range_eq_zero_iff.trans (and_iff_right hinj)) rfl rfl
  obtain ⟨hr, hs⟩ := testRandomValue_of_shared hinj hf (runTest 0x02 x T.testStuckAddress).2
  rw [pass, htests, List.foldl_cons, foldl_runTest_of_blind (blind_of_mem_tests hinj hf) hs,
    ← hstuck]
  exact if_pos hr

theorem exitCode_eq (hinj : T.Injective) (hf : ∀ c, T.ram.reads c = f) (s : TesterState κ) :
    T.exitCode n s = if n ≠ 0 ∧ ¬ T.HoldsAddresses then 0x02 else 0 := by
  rw [exitCode]
  induction n with
  | zero => rfl
  | succ n ih =>
    rw [Function.iterate_succ_apply', pass_of_shared hinj hf, ih]
    by_cases h : T.HoldsAddresses
    · simp [h]
    · rcases n with - | n <;> simp [h]

/-- A fault that all cells share shows in the exit code iff the first test finds it: some address
of the region, or its complement, is not read as it was stored. -/
theorem exitCode_of_shared (hinj : T.Injective) (hf : ∀ c, T.ram.reads c = f) (s : TesterState κ) :
    T.exitCode n s =
      if n ≠ 0 ∧ ∃ i < T.bufsize / 4, f (T.word i) ≠ T.word i ∨ f (~~~ T.word i) ≠ ~~~ T.word i
      then 0x02 else 0 := by
  have hholds : ¬ T.HoldsAddresses ↔ ∃ i < T.bufsize / 4,
      f (T.word i) ≠ T.word i ∨ f (~~~ T.word i) ≠ ~~~ T.word i := by
    simp only [HoldsAddresses, hf, not_forall, not_and_or, exists_prop, ne_eq]
  rw [exitCode_eq hinj hf]
  exact if_congr (and_congr_right fun _ => hholds) rfl rfl

/-- The two highest bits exchanged. -/
def crossed (v : BitVec 32) : BitVec 32 :=
  v &&& 0x3fffffff ||| (v &&& 0x40000000) <<< (1 : ℕ) ||| (v &&& 0x80000000) >>> (1 : ℕ)

/-- Four words behind crossed data lines. -/
def crossedTester : Tester (BitVec 32) where
  ram := ⟨id, fun _ => crossed⟩
  rand _ := 0
  wide _ := 0
  aligned := 0x1000
  bufsize := 16
  four_dvd := by decide
  eight_dvd := by decide
  fits := by decide

theorem injective_crossedTester : crossedTester.Injective := by
  rw [Injective]
  decide

/-- No test finds them crossed. -/
theorem exitCode_of_shared_crossed :
    crossedTester.exitCode 3 ⟨fun _ => 0, 0⟩ = 0 :=
  (exitCode_of_shared injective_crossedTester (fun _ => rfl) _).trans (by decide)

end Shared

/-! ## What a run without a failure says -/

section Passed

variable {T} {s : TesterState κ} {x : ℕ × TesterState κ} {flag i n : ℕ}

/-- The patterns of the tests that store the same words in both halves in each round, and how many
rounds there are. -/
def patterns (T : Tester κ) : List ((ℕ → ℕ → BitVec 32) × ℕ) :=
  [(alternating solidbits, 64), (fun j _ => ulByte (BitVec.ofNat 32 j), 256),
    (alternating checkerboard, 64),
    (fun j i => if i % 2 = 0 then T.spread j else 0xffffffff ^^^ T.spread j, 64),
    (alternating bitflip, 256), (fun j _ => 0xffffffff ^^^ walking j, 64),
    (fun j _ => walking j, 64)]

theorem drop_tests : T.tests.drop 8 = T.patterns.map fun p => T.patternTest p.1 p.2 :=
  rfl

/-- A failure is never forgotten. -/
theorem runTest_eq_zero {test : TesterState κ → ℤ × TesterState κ} (hflag : flag ≠ 0)
    (h : (runTest flag x test).1 = 0) : x.1 = 0 ∧ (test x.2).1 = 0 := by
  simp only [runTest] at h
  split_ifs at h with hr
  · exact ⟨h, hr⟩
  · exact absurd (Nat.or_eq_zero_iff.1 h).2 hflag

theorem foldl_runTest_eq_zero {ts : List (TesterState κ → ℤ × TesterState κ)} (hflag : flag ≠ 0)
    (h : (ts.foldl (runTest flag) x).1 = 0) :
    x.1 = 0 ∧ ∀ test ∈ ts, ∃ s, (test s).1 = 0 := by
  induction ts generalizing x with
  | nil => exact ⟨h, fun _ ht => absurd ht List.not_mem_nil⟩
  | cons test ts ih =>
    obtain ⟨hrun, hts⟩ := ih h
    obtain ⟨hx, hr⟩ := runTest_eq_zero hflag hrun
    exact ⟨hx, List.forall_mem_cons.2 ⟨⟨x.2, hr⟩, hts⟩⟩

theorem pass_eq_zero (h : (T.pass x).1 = 0) :
    x.1 = 0 ∧ (T.testStuckAddress x.2).1 = 0 ∧ ∀ test ∈ T.tests, ∃ s, (test s).1 = 0 := by
  obtain ⟨hrun, hts⟩ := foldl_runTest_eq_zero (by decide) h
  obtain ⟨hx, hr⟩ := runTest_eq_zero (by decide) hrun
  exact ⟨hx, hr, hts⟩

theorem pass_of_exitCode (hn : n ≠ 0) (h : T.exitCode n s = 0) : (T.pass (0, s)).1 = 0 := by
  obtain ⟨m, rfl⟩ := Nat.exists_eq_succ_of_ne_zero hn
  rw [exitCode, Function.iterate_succ_apply] at h
  have hback : ∀ m x, (T.pass^[m] x).1 = 0 → x.1 = 0 := by
    intro m
    induction m with
    | zero => exact fun _ h => h
    | succ m ih => exact fun x h => (pass_eq_zero (ih _ h)).1
  exact hback m _ h

/-- Exit code 0 says that different words of the region stand in different cells, that each cell
holds its address and the complement of it, and that the halves agree on all patterns. -/
theorem of_exitCode_eq_zero (hn : n ≠ 0) (h : T.exitCode n s = 0) :
    T.Injective ∧ T.HoldsAddresses ∧ ∀ p ∈ T.patterns, ∀ j < p.2, T.Agree (p.1 j) := by
  obtain ⟨-, hr, hts⟩ := pass_eq_zero (pass_of_exitCode hn h)
  obtain ⟨hinj, hholds⟩ := addressRounds_range_eq_zero_iff.1 hr
  refine ⟨hinj, hholds, fun p hp => ?_⟩
  have hmem : T.patternTest p.1 p.2 ∈ T.tests.drop 8 := by
    rw [drop_tests]
    exact List.mem_map_of_mem hp
  obtain ⟨s', hs'⟩ := hts _ (List.mem_of_mem_drop hmem)
  exact (patternTest_eq_zero_iff hinj s').1 hs'

/-- Each bit read depends on at most one bit of the word. -/
def Wired (f : BitVec 32 → BitVec 32) : Prop :=
  ∀ k < 32, ∃ l, ∀ v w : BitVec 32, v.getLsbD l = w.getLsbD l → (f v).getLsbD k = (f w).getLsbD k

theorem getLsbD_one_shiftLeft {k l : ℕ} (hk : k < 32) :
    (1#32 <<< k).getLsbD l = decide (l = k) := by
  have hone : (1#32).getLsbD (l - k) = decide (l - k = 0) := by
    simp [BitVec.getLsbD_one]
  rw [BitVec.getLsbD_shiftLeft, hone, Bool.eq_iff_iff]
  simp only [Bool.and_eq_true, decide_eq_true_eq, Bool.not_eq_true', decide_eq_false_iff_not]
  omega

/-- Wires that give back 0 and each single bit are not crossed. -/
theorem Wired.eq_id {f : BitVec 32 → BitVec 32} (h : Wired f) (hzero : f 0 = 0)
    (hbit : ∀ k < 32, f (1#32 <<< k) = 1#32 <<< k) : f = id := by
  funext v
  refine BitVec.eq_of_getLsbD_eq fun k hk => ?_
  obtain ⟨l, hl⟩ := h k hk
  have hone := getLsbD_one_shiftLeft (l := k) hk
  -- the wire that bit `k` hangs on tells 0 from the bit itself
  obtain rfl : l = k := by
    by_contra hne
    have hsame := hl 0 (1#32 <<< k) (by rw [getLsbD_one_shiftLeft hk]; simp [hne])
    rw [hzero, hbit k hk, hone] at hsame
    simp at hsame
  cases hv : v.getLsbD l
  · rw [hl v 0 (by simpa using hv), hzero, id, hv]
    simp
  · rw [hl v (1#32 <<< l) (by rw [hv, hone]; simp), hbit l hk, hone, id, hv]
    simp

/-- In one of the rounds of the solid bits a word is 0. -/
theorem exists_alternating_solidbits (i : ℕ) : ∃ j < 64, alternating solidbits j i = 0 := by
  rcases Nat.mod_two_eq_zero_or_one i with hpar | hpar
  · exact ⟨1, by decide, if_pos hpar⟩
  · exact ⟨0, by decide, (if_neg (by omega)).trans (by decide)⟩

/-- Both halves are given 0, and each single bit. -/
theorem agree_zero_and_bit (h : ∀ p ∈ T.patterns, ∀ j < p.2, T.Agree (p.1 j)) (hi : i < T.count) :
    T.ram.reads (T.ram.decode (T.bufa i)) 0 = T.ram.reads (T.ram.decode (T.bufb i)) 0 ∧
      ∀ k < 32, T.ram.reads (T.ram.decode (T.bufa i)) (1#32 <<< k) =
        T.ram.reads (T.ram.decode (T.bufb i)) (1#32 <<< k) := by
  constructor
  · obtain ⟨j, hj, hzero⟩ := exists_alternating_solidbits i
    have hsolid : T.Agree (alternating solidbits j) :=
      h (alternating solidbits, 64) (by simp [patterns]) j hj
    rw [← hzero]
    exact hsolid i hi
  · intro k hk
    have hwalk : T.Agree fun _ => walking k :=
      h (fun j _ => walking j, 64) (by simp [patterns]) k (by omega)
    have hbit : walking k = 1#32 <<< k := if_pos hk
    rw [← hbit]
    exact hwalk i hi

/-- No bit of a cell is stuck that holds its address and the complement of it. -/
theorem HoldsAddresses.not_stuck (h : T.HoldsAddresses) (hi : i < T.bufsize / 4) {k : ℕ}
    (hk : k < 32) (bit : Bool) :
    ∃ v, (T.ram.reads (T.ram.decode (T.word i)) v).getLsbD k ≠ bit := by
  obtain ⟨haddr, hcompl⟩ := h i hi
  by_cases hbit : (T.word i).getLsbD k = bit
  · refine ⟨~~~ T.word i, ?_⟩
    rw [hcompl, BitVec.getLsbD_not, hbit]
    simp [hk]
  · exact ⟨T.word i, by rwa [haddr]⟩

/-- Where one of two cells that are compared is sound, and the bits of the other depend on one bit
each, the other is sound as well. -/
theorem sound_of_agree (h : ∀ p ∈ T.patterns, ∀ j < p.2, T.Agree (p.1 j)) (hi : i < T.count)
    {c c' : κ} (hc : c = T.ram.decode (T.bufa i) ∧ c' = T.ram.decode (T.bufb i) ∨
      c = T.ram.decode (T.bufb i) ∧ c' = T.ram.decode (T.bufa i))
    (hsound : T.ram.reads c = id) (hwired : Wired (T.ram.reads c')) : T.ram.reads c' = id := by
  obtain ⟨hzero, hbit⟩ := agree_zero_and_bit h hi
  rcases hc with ⟨rfl, rfl⟩ | ⟨rfl, rfl⟩
  · rw [hsound] at hzero hbit
    exact hwired.eq_id hzero.symm fun k hk => (hbit k hk).symm
  · rw [hsound] at hzero hbit
    exact hwired.eq_id hzero hbit

/-- Exit code 0 says that no two words of the region share a cell, that no bit of a cell is stuck,
and that a sound cell is not compared with one whose wires are crossed or broken. -/
theorem sound_of_exitCode_eq_zero (hn : n ≠ 0) (h : T.exitCode n s = 0) :
    T.Injective ∧
      (∀ i < T.bufsize / 4, ∀ k < 32, ∀ bit,
        ∃ v, (T.ram.reads (T.ram.decode (T.word i)) v).getLsbD k ≠ bit) ∧
      ∀ i < T.count, ∀ c c', c = T.ram.decode (T.bufa i) ∧ c' = T.ram.decode (T.bufb i) ∨
          c = T.ram.decode (T.bufb i) ∧ c' = T.ram.decode (T.bufa i) →
        T.ram.reads c = id → Wired (T.ram.reads c') → T.ram.reads c' = id := by
  obtain ⟨hinj, hholds, hagree⟩ := of_exitCode_eq_zero hn h
  exact ⟨hinj, fun i hi k hk => hholds.not_stuck hi hk,
    fun i hi c c' hc => sound_of_agree hagree hi hc⟩

/-- Four words without a fault. -/
def soundTester : Tester (BitVec 32) where
  ram := ⟨id, fun _ => id⟩
  rand _ := 0
  wide _ := 0
  aligned := 0x1000
  bufsize := 16
  four_dvd := by decide
  eight_dvd := by decide
  fits := by decide

theorem exitCode_soundTester : soundTester.exitCode 1 ⟨fun _ => 0, 0⟩ = 0 := by
  rw [exitCode_eq (f := id) (by rw [Injective]; decide) fun _ => rfl]
  decide

theorem sound_of_exitCode_eq_zero_soundTester :
    soundTester.Injective ∧
      (∀ i < 4, ∀ k < 32, ∀ bit, ∃ v,
        (soundTester.ram.reads (soundTester.ram.decode (soundTester.word i)) v).getLsbD k ≠ bit) ∧
      ∀ i < soundTester.count, ∀ c c',
        c = soundTester.ram.decode (soundTester.bufa i) ∧
            c' = soundTester.ram.decode (soundTester.bufb i) ∨
          c = soundTester.ram.decode (soundTester.bufb i) ∧
            c' = soundTester.ram.decode (soundTester.bufa i) →
        soundTester.ram.reads c = id → Wired (soundTester.ram.reads c') →
          soundTester.ram.reads c' = id :=
  sound_of_exitCode_eq_zero (by decide) exitCode_soundTester

end Passed

end Tester

end LxToolset
