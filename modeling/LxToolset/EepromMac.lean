import LxToolset.CText
import LxToolset.EepromMemory

/-!
# Writing the address of the card

Built to write a MAC address, `main` takes it from its argument with `gethex`, two characters
at a time and three characters apart, and writes a word after each two of them, whatever
`gethex` returns. An address that is well formed ends up in the words 7, 8 and 9; anything else
is written as well (`programsMac_iff`).
-/

namespace LxToolset

/-- An argument, and the memory behind it. -/
structure CArg where
  text : List Char
  not_mem : '\x00' ∉ text
  behind : ℕ → Char

/-- The characters from `av[1]` on. -/
def CArg.char (arg : CArg) (i : ℕ) : Char :=
  (arg.text ++ ['\x00']).getD i (arg.behind i)

/-! ## The program -/

/-- The digit of `gethex`, which fails at the end of the string as at any other character. -/
def gethexDigit (c : Char) : Option (BitVec 32) :=
  if '0' ≤ c ∧ c ≤ '9' then some (BitVec.ofNat 32 (c.toNat - '0'.toNat))
  else if 'a' ≤ c ∧ c ≤ 'f' then some (BitVec.ofNat 32 (c.toNat - 'a'.toNat + 10))
  else if 'A' ≤ c ∧ c ≤ 'F' then some (BitVec.ofNat 32 (c.toNat - 'A'.toNat + 10))
  else none

/-- The loop of `gethex` : the value, if it gets that far, and the characters it reads. -/
def gethexLoop (char : ℕ → Char) : ℕ → ℕ → BitVec 32 → Option (BitVec 32) × List ℕ
  | 0, _, v => (some v, [])
  | n + 1, p, v =>
    match gethexDigit (char p) with
    | none => (none, [p])
    | some digit =>
      let (r, reads) := gethexLoop char n (p + 1) (v <<< 4 ||| digit)
      (r, p :: reads)

def gethex (char : ℕ → Char) (p n : ℕ) : Option (BitVec 32) × List ℕ :=
  gethexLoop char n p 0

structure MacState where
  /-- The four bytes at `&v`, of which `v` has two. -/
  memV : BitVec 32
  /-- How far `av[1]` has gone. -/
  arg : ℕ
  /-- The characters read. -/
  reads : List ℕ
  calls : List EepromCall

namespace MacState

def v (s : MacState) : BitVec 16 :=
  s.memV.setWidth 16

/-- `gethex(&v, av[1], 2); av[1] += 3`. -/
def getByte (char : ℕ → Char) (s : MacState) : MacState :=
  let (r, reads) := gethex char s.arg 2
  { s with memV := r.getD s.memV, arg := s.arg + 3, reads := s.reads ++ reads }

/-- A round of the loop. -/
def round (char : ℕ → Char) (s : MacState) (i : ℕ) : MacState :=
  let s := s.getByte char
  let val := s.v
  let s := s.getByte char
  let val := val ||| s.v <<< 8
  { s with calls := s.calls ++ [.write (BitVec.ofNat 6 (0x7 + i)) val] }

end MacState

/-- The loop, with what was at `&v`. -/
def writeMac (char : ℕ → Char) (memV : BitVec 32) : MacState :=
  (List.range 3).foldl (MacState.round char) ⟨memV, 0, [], []⟩

/-! ## What it is for -/

/-- The bytes of a text `hh:hh:..:hh`. -/
def macBytes : List Char → Option (List (BitVec 8))
  | h :: l :: rest =>
    if isHexDigit h && isHexDigit l then
      let byte := BitVec.ofNat 8 (16 * digitVal h + digitVal l)
      match rest with
      | [] => some [byte]
      | c :: rest => if c = ':' then (macBytes rest).map (byte :: ·) else none
    else none
  | _ => none

/-- The text is a MAC address. -/
def IsMac (text : List Char) (bytes : List (BitVec 8)) : Prop :=
  macBytes text = some bytes ∧ bytes.length = 6

/-- The bytes of these words, the low one first. -/
def readBack {δ : Type} (bus : Bus δ) (ioaddr : BitVec 32) : List (BitVec 6) → δ → List (BitVec 8)
  | [], _ => []
  | location :: locations, d =>
    let (retval, d) := readEeprom bus true ioaddr (location.setWidth 32) d
    retval.setWidth 8 :: (retval >>> 8).setWidth 8 :: readBack bus ioaddr locations d

/-- An address is written to the words 7, 8 and 9 and to no others, and comes back; any other
text is not written, nor read beyond its end. -/
structure ProgramsMac (arg : CArg) (memV : BitVec 32) : Prop where
  written : ∀ bytes, IsMac arg.text bytes →
    ∃ v₇ v₈ v₉, (writeMac arg.char memV).calls = [.write 7 v₇, .write 8 v₈, .write 9 v₉]
  back : ∀ bytes, IsMac arg.text bytes → ∀ (ioaddr : BitVec 32) (d : NetCard 6 16),
    d.chip.cs = false → readBack (netCard 6 16 ioaddr) ioaddr [7, 8, 9]
      (callsEeprom (netCard 6 16 ioaddr) ioaddr d (writeMac arg.char memV).calls) = bytes
  rejected : (¬∃ bytes, IsMac arg.text bytes) → (writeMac arg.char memV).calls = [] ∧
    ∀ i ∈ (writeMac arg.char memV).reads, i ≤ arg.text.length

/-! ## The text -/

section Text

theorem gethexDigit_eq {c : Char} (h : isHexDigit c = true) :
    gethexDigit c = some (BitVec.ofNat 32 (digitVal c)) ∧ digitVal c < 16 := by
  have hlt : digitVal c < 16 := by simpa [isHexDigit] using h
  refine ⟨?_, hlt⟩
  have hle : ∀ a b : Char, a ≤ b ↔ a.toNat ≤ b.toNat := fun _ _ => Iff.rfl
  obtain ⟨ha, hf, hz, hA, hF, hZ⟩ : 'a'.toNat = 97 ∧ 'f'.toNat = 102 ∧ 'z'.toNat = 122 ∧
    'A'.toNat = 65 ∧ 'F'.toNat = 70 ∧ 'Z'.toNat = 90 := by decide
  unfold digitVal at hlt ⊢
  unfold gethexDigit
  simp only [hle] at hlt ⊢
  -- the ranges of the two functions differ only where the value is too large
  split_ifs at hlt ⊢ <;> first | omega | rfl

theorem gethex_two {char : ℕ → Char} {p : ℕ} (h : isHexDigit (char p) = true)
    (hl : isHexDigit (char (p + 1)) = true) : gethex char p 2 =
      (some (BitVec.ofNat 32 (16 * digitVal (char p) + digitVal (char (p + 1)))), [p, p + 1]) := by
  have hvalue : ∀ x < 16, ∀ y < 16, ((0 : BitVec 32) <<< 4 ||| BitVec.ofNat 32 x) <<< 4 |||
      BitVec.ofNat 32 y = BitVec.ofNat 32 (16 * x + y) := by decide
  obtain ⟨hp, hlt⟩ := gethexDigit_eq h
  obtain ⟨hp', hlt'⟩ := gethexDigit_eq hl
  simp only [gethex, gethexLoop, hp, hp', hvalue _ hlt _ hlt']

/-- Where the digits of the bytes are. -/
theorem macBytes_getElem? {text : List Char} {bytes : List (BitVec 8)}
    (h : macBytes text = some bytes) : ∀ k < bytes.length, ∃ c c', text[3 * k]? = some c ∧
      text[3 * k + 1]? = some c' ∧ isHexDigit c = true ∧ isHexDigit c' = true ∧
      bytes[k]? = some (BitVec.ofNat 8 (16 * digitVal c + digitVal c')) := by
  fun_induction macBytes text generalizing bytes with
  | case1 c c' hdigits =>
    obtain rfl := Option.some.inj h
    obtain ⟨hc, hc'⟩ := Bool.and_eq_true_iff.mp hdigits
    intro k hk
    obtain rfl : k = 0 := by simpa using hk
    exact ⟨c, c', rfl, rfl, hc, hc', rfl⟩
  | case2 c c' hdigits byte rest =>
    rename_i ih
    obtain ⟨bytes', hrest, rfl⟩ := Option.map_eq_some_iff.mp h
    obtain ⟨hc, hc'⟩ := Bool.and_eq_true_iff.mp hdigits
    intro k hk
    cases k with
    | zero => exact ⟨c, c', rfl, rfl, hc, hc', rfl⟩
    | succ k => exact ih hrest k (by simpa using hk)
  | case3 => cases h
  | case4 => cases h
  | case5 => cases h

end Text

/-! ## The words -/

section Words

variable {arg : CArg} {bytes : List (BitVec 8)} {memV : BitVec 32}

theorem char_of_getElem? {i : ℕ} {c : Char} (h : arg.text[i]? = some c) : arg.char i = c := by
  obtain ⟨hi, -⟩ := List.getElem?_eq_some_iff.mp h
  rw [CArg.char, List.getD_eq_getElem?_getD, List.getElem?_append_left hi, h, Option.getD_some]

/-- A byte of an address. -/
theorem getByte_mac (h : macBytes arg.text = some bytes) {k : ℕ} {b : BitVec 8}
    (hb : bytes[k]? = some b) {s : MacState} (hs : s.arg = 3 * k) :
    ∃ memV reads, s.getByte arg.char = ⟨memV, 3 * (k + 1), reads, s.calls⟩ ∧
      memV.setWidth 16 = b.setWidth 16 := by
  obtain ⟨hk, -⟩ := List.getElem?_eq_some_iff.mp hb
  obtain ⟨c, c', hc, hc', hdigit, hdigit', hbyte⟩ := macBytes_getElem? h k hk
  obtain rfl := Option.some.inj (hb.symm.trans hbyte)
  have hchar := char_of_getElem? hc
  have hchar' := char_of_getElem? hc'
  have hlt : 16 * digitVal c + digitVal c' < 2 ^ 8 := by
    have hlt := (gethexDigit_eq hdigit).2
    have hlt' := (gethexDigit_eq hdigit').2
    omega
  rw [← hchar] at hdigit
  rw [← hchar'] at hdigit'
  have htwo := gethex_two hdigit hdigit'
  rw [hchar, hchar'] at htwo
  refine ⟨BitVec.ofNat 32 (16 * digitVal c + digitVal c'), s.reads ++ [3 * k, 3 * k + 1], ?_, ?_⟩
  · rw [MacState.getByte, hs, htwo]
    rfl
  · apply BitVec.eq_of_toNat_eq
    simp only [BitVec.toNat_setWidth, BitVec.toNat_ofNat]
    omega

/-- Two bytes of an address make a word. -/
theorem round_mac (h : macBytes arg.text = some bytes) {j : ℕ} {b b' : BitVec 8}
    (hb : bytes[2 * j]? = some b) (hb' : bytes[2 * j + 1]? = some b') {s : MacState}
    (hs : s.arg = 3 * (2 * j)) :
    ∃ memV reads, s.round arg.char j = ⟨memV, 3 * (2 * (j + 1)), reads, s.calls ++
      [.write (BitVec.ofNat 6 (0x7 + j)) (b.setWidth 16 ||| b'.setWidth 16 <<< 8)]⟩ := by
  obtain ⟨memV, reads, hbyte, hv⟩ := getByte_mac h hb hs
  obtain ⟨memV', reads', hbyte', hv'⟩ := getByte_mac h hb'
    (s := ⟨memV, 3 * (2 * j + 1), reads, s.calls⟩) rfl
  refine ⟨memV', reads', ?_⟩
  simp only [MacState.round, MacState.v, hbyte, hbyte', hv, hv']
  rfl

/-- The words of an address. -/
def macWord (b b' : BitVec 8) : BitVec 16 :=
  b.setWidth 16 ||| b'.setWidth 16 <<< 8

theorem writeMac_calls {b₀ b₁ b₂ b₃ b₄ b₅ : BitVec 8}
    (h : macBytes arg.text = some [b₀, b₁, b₂, b₃, b₄, b₅]) :
    (writeMac arg.char memV).calls =
      [.write 7 (macWord b₀ b₁), .write 8 (macWord b₂ b₃), .write 9 (macWord b₄ b₅)] := by
  obtain ⟨m₀, r₀, h₀⟩ := round_mac h (j := 0) rfl rfl (s := ⟨memV, 0, [], []⟩) rfl
  obtain ⟨m₁, r₁, h₁⟩ := round_mac h (j := 1) rfl rfl
    (s := ⟨m₀, 6, r₀, [.write 7 (macWord b₀ b₁)]⟩) rfl
  obtain ⟨m₂, r₂, h₂⟩ := round_mac h (j := 2) rfl rfl
    (s := ⟨m₁, 12, r₁, [.write 7 (macWord b₀ b₁), .write 8 (macWord b₂ b₃)]⟩) rfl
  have hrun : writeMac arg.char memV =
      (((MacState.mk memV 0 [] []).round arg.char 0).round arg.char 1).round arg.char 2 := rfl
  have h₀' : (MacState.mk memV 0 [] []).round arg.char 0 =
      ⟨m₀, 6, r₀, [.write 7 (macWord b₀ b₁)]⟩ := h₀
  have h₁' : (MacState.mk m₀ 6 r₀ [.write 7 (macWord b₀ b₁)]).round arg.char 1 =
      ⟨m₁, 12, r₁, [.write 7 (macWord b₀ b₁), .write 8 (macWord b₂ b₃)]⟩ := h₁
  rw [hrun, h₀', h₁', h₂]
  rfl

/-- Every text is written. -/
theorem writeMac_calls_ne : (writeMac arg.char memV).calls ≠ [] :=
  List.append_ne_nil_of_right_ne_nil _ (List.cons_ne_nil _ _)

variable {ioaddr : BitVec 32}

theorem macWord_bytes (b b' : BitVec 8) :
    ((macWord b b').setWidth 32).setWidth 8 = b ∧
      ((macWord b b').setWidth 32 >>> 8).setWidth 8 = b' := by
  constructor
  · ext i hi
    simp [macWord]
  · ext i hi
    have h16 : 8 + i < 16 := by omega
    have h32 : 8 + i < 32 := by omega
    simp [macWord, h16, h32, BitVec.getLsbD_eq_getElem hi]

theorem readBack_eq {d : NetCard 6 16} (h : d.chip.Quiet) (locations : List (BitVec 6)) :
    readBack (netCard 6 16 ioaddr) ioaddr locations d = locations.flatMap fun location =>
      [((d.chip.words location).setWidth 32).setWidth 8,
        ((d.chip.words location).setWidth 32 >>> 8).setWidth 8] := by
  induction locations generalizing d with
  | nil => rfl
  | cons location locations ih =>
    obtain ⟨hread, hchip⟩ : (readEeprom (netCard 6 16 ioaddr) true ioaddr
      (location.setWidth 32) d).1 = _ ∧ _ := readEeprom_spec h location
    have hquiet : (readEeprom (netCard 6 16 ioaddr) true ioaddr
        (location.setWidth 32) d).2.chip.Quiet := by
      rw [hchip]
      exact fun _ => ⟨_, rfl⟩
    rw [readBack, List.flatMap_cons, ← hread]
    simp only [ih hquiet, hchip]
    rfl

end Words

theorem isMac_six {text : List Char} {bytes : List (BitVec 8)} (h : IsMac text bytes) :
    ∃ b₀ b₁ b₂ b₃ b₄ b₅, bytes = [b₀, b₁, b₂, b₃, b₄, b₅] := by
  obtain ⟨-, hlen⟩ := h
  rcases bytes with _ | ⟨b₀, _ | ⟨b₁, _ | ⟨b₂, _ | ⟨b₃, _ | ⟨b₄, _ | ⟨b₅, _ | ⟨b₆, bs⟩⟩⟩⟩⟩⟩⟩
  case cons.cons.cons.cons.cons.cons.nil => exact ⟨b₀, b₁, b₂, b₃, b₄, b₅, rfl⟩
  all_goals simp at hlen

theorem lastWrite_words (v₇ v₈ v₉ : BitVec 16) :
    lastWrite [.write 7 v₇, .write 8 v₈, .write 9 v₉] 7 = some v₇ ∧
      lastWrite [.write 7 v₇, .write 8 v₈, .write 9 v₉] 8 = some v₈ ∧
        lastWrite [.write 7 v₇, .write 8 v₈, .write 9 v₉] 9 = some v₉ := by
  simp [lastWrite]

/-- The program does what it should with an address, and with nothing else. -/
theorem programsMac_iff (arg : CArg) (memV : BitVec 32) :
    ProgramsMac arg memV ↔ ∃ bytes, IsMac arg.text bytes := by
  constructor
  · intro h
    by_contra hno
    exact writeMac_calls_ne (h.rejected hno).1
  · rintro ⟨bytes, hbytes⟩
    refine ⟨?_, ?_, fun hno => absurd ⟨bytes, hbytes⟩ hno⟩
    · intro bytes hbytes
      obtain ⟨b₀, b₁, b₂, b₃, b₄, b₅, rfl⟩ := isMac_six hbytes
      exact ⟨_, _, _, writeMac_calls hbytes.1⟩
    · intro bytes hbytes ioaddr d hcs
      obtain ⟨b₀, b₁, b₂, b₃, b₄, b₅, rfl⟩ := isMac_six hbytes
      rw [writeMac_calls hbytes.1]
      obtain ⟨hquiet, hwords⟩ := callsEeprom_chip ioaddr (.of_cs hcs)
        [.write 7 (macWord b₀ b₁), .write 8 (macWord b₂ b₃), .write 9 (macWord b₄ b₅)]
      obtain ⟨h₇, h₈, h₉⟩ := lastWrite_words (macWord b₀ b₁) (macWord b₂ b₃) (macWord b₄ b₅)
      rw [readBack_eq hquiet, hwords]
      simp only [List.flatMap_cons, List.flatMap_nil, h₇, h₈, h₉, Option.getD_some, macWord_bytes,
        List.cons_append, List.nil_append]

/-- An argument that is no address. -/
def shortArg : CArg where
  text := ['0', '0', ':', '1']
  not_mem := by decide
  behind _ := '\x00'

/-- Three words are written, and characters behind the string are read. -/
theorem not_programsMac_shortArg : ¬ ProgramsMac shortArg 0 := by
  intro h
  exact writeMac_calls_ne (h.rejected (by
    rintro ⟨bytes, hbytes, -⟩
    cases hbytes)).1

end LxToolset
