import Mathlib.Data.BitVec
import Mathlib.Logic.Function.Basic

/-!
# set_Parity

The two programs that test a serial port set its line with the same `set_Parity`. What it does
to a word of flags is an `Edit` : it keeps some of the bits and sets others, whatever they
were. `setsParity_iff` compares the outcome with what its arguments ask for.
-/

namespace LxToolset

/-! ## Edits of a word of flags -/

/-- The bits that are kept, and those that are set. -/
structure Edit where
  keep : BitVec 32
  set : BitVec 32
  deriving DecidableEq

namespace Edit

def apply (e : Edit) (c : BitVec 32) : BitVec 32 :=
  c &&& e.keep ||| e.set

/-- Nothing is changed. -/
def skip : Edit :=
  ⟨BitVec.allOnes 32, 0#32⟩

/-- `c &= ~mask`. -/
def clear (mask : BitVec 32) : Edit :=
  ⟨~~~mask, 0#32⟩

/-- `c |= mask`. -/
def raise (mask : BitVec 32) : Edit :=
  ⟨~~~mask, mask⟩

def andThen (e e' : Edit) : Edit :=
  ⟨e.keep &&& e'.keep, e.set &&& e'.keep ||| e'.set⟩

variable (e e' : Edit) (c mask : BitVec 32)

@[simp] theorem apply_skip : skip.apply c = c := by
  simp only [apply, skip, BitVec.and_allOnes, BitVec.or_zero]

@[simp] theorem apply_clear : (clear mask).apply c = c &&& ~~~mask := by
  simp [apply, clear]

@[simp] theorem apply_raise : (raise mask).apply c = c ||| mask := by
  ext i hi
  by_cases h : mask[i] = true <;> simp [apply, raise, h]

@[simp] theorem apply_andThen : (e.andThen e').apply c = e'.apply (e.apply c) := by
  ext i hi
  by_cases h : e'.keep[i] = true <;> simp [apply, andThen, h, Bool.or_assoc]

variable {e mask}

/-- Bits that are not kept depend on the edit alone. -/
theorem apply_and_of_keep (h : e.keep &&& mask = 0#32) : e.apply c &&& mask = e.set &&& mask := by
  rw [apply, BitVec.and_or_distrib_right, BitVec.and_assoc, h]
  simp

theorem apply_and_eq (h : e.keep &&& mask = 0#32) (c c' : BitVec 32) :
    e.apply c &&& mask = e.apply c' &&& mask := by
  rw [apply_and_of_keep c h, apply_and_of_keep c' h]

end Edit

/-! ## The program -/

/-- What `set_Parity` uses of a `struct termios`. -/
structure Termios where
  cIflag : BitVec 32
  cCflag : BitVec 32
  cCc : ℕ → UInt8

def csize : BitVec 32 := 0x30
def cs7 : BitVec 32 := 0x20
def cs8 : BitVec 32 := 0x30
def cstopb : BitVec 32 := 0x40
def parenb : BitVec 32 := 0x100
def parodd : BitVec 32 := 0x200
def inpck : BitVec 32 := 0x10
def vmin : ℕ := 4
def vtime : ℕ := 5

/-- A letter as an `int`. -/
def letter (c : Char) : ℤ :=
  c.toNat

section SetParity

/-- `switch (databits)`. -/
def setDatabits (databits : ℤ) (t : Termios) : Option Termios :=
  let t := { t with cCflag := t.cCflag &&& ~~~csize }
  if databits = 7 then some { t with cCflag := t.cCflag ||| cs7 }
  else if databits = 8 then some { t with cCflag := t.cCflag ||| cs8 }
  else none

/-- `switch (parity)`. -/
def switchParity (parity : ℤ) (t : Termios) : Option Termios :=
  if parity = letter 'n' ∨ parity = letter 'N' then
    some { t with cCflag := t.cCflag &&& ~~~parenb, cIflag := t.cIflag &&& ~~~inpck }
  else if parity = letter 'o' ∨ parity = letter 'O' then
    some { t with cCflag := t.cCflag ||| (parodd ||| parenb), cIflag := t.cIflag ||| inpck }
  else if parity = letter 'e' ∨ parity = letter 'E' then
    some { t with cCflag := (t.cCflag ||| parenb) &&& ~~~parodd, cIflag := t.cIflag ||| inpck }
  else if parity = letter 'S' ∨ parity = letter 's' then
    some { t with cCflag := t.cCflag &&& ~~~parenb &&& ~~~cstopb }
  else none

/-- `switch (stopbits)`. -/
def setStopbits (stopbits : ℤ) (t : Termios) : Option Termios :=
  if stopbits = 1 then some { t with cCflag := t.cCflag &&& ~~~cstopb }
  else if stopbits = 2 then some { t with cCflag := t.cCflag ||| cstopb }
  else none

/-- The trailing condition, and the timeout of 15 seconds. -/
def finishOptions (parity : ℤ) (t : Termios) : Termios :=
  let t := if parity ≠ letter 'n' then { t with cIflag := t.cIflag ||| inpck } else t
  { t with cCc := Function.update (Function.update t.cCc vtime 150) vmin 0 }

/-- `options` for `tcsetattr`, or a return of -1 before it. -/
def newOptions (databits stopbits parity : ℤ) (t : Termios) : Option Termios :=
  (setDatabits databits t).bind fun t => (switchParity parity t).bind fun t =>
    (setStopbits stopbits t).map (finishOptions parity)

/-- Whether `tcgetattr` and `tcsetattr` succeed. -/
structure Tty where
  get : Bool
  set : Bool

/-- A call : what it returns, whether it comes to `tcsetattr`, and the settings after it. -/
structure ParityRun where
  ret : ℤ
  applied : Bool
  termios : Termios

def setParity (tty : Tty) (databits stopbits parity : ℤ) (t : Termios) : ParityRun :=
  if tty.get = false then ⟨-1, false, t⟩
  else
    match newOptions databits stopbits parity t with
    | none => ⟨-1, false, t⟩
    | some options => if tty.set then ⟨0, true, options⟩ else ⟨-1, true, t⟩

end SetParity

/-! ## What it is for -/

/-- The letters for a line without parity, and those for one with it. -/
def plainLetters : List ℤ :=
  ['n', 'N', 's', 'S'].map letter

def parityLetters : List ℤ :=
  ['o', 'O', 'e', 'E'].map letter

/-- The same letter in the other case. -/
def otherCase (parity : ℤ) : ℤ :=
  if letter 'a' ≤ parity ∧ parity ≤ letter 'z' then parity - 32
  else if letter 'A' ≤ parity ∧ parity ≤ letter 'Z' then parity + 32
  else parity

/-- The flags that the arguments are about are the same. -/
structure SameLine (t t' : Termios) : Prop where
  size : t.cCflag &&& csize = t'.cCflag &&& csize
  stop : t.cCflag &&& cstopb = t'.cCflag &&& cstopb
  enable : t.cCflag &&& parenb = t'.cCflag &&& parenb
  check : t.cIflag &&& inpck = t'.cIflag &&& inpck
  odd : t.cCflag &&& parenb ≠ 0 → t.cCflag &&& parodd = t'.cCflag &&& parodd

/-- A call that stops early changes nothing; one that succeeds sets flags that depend on its
arguments alone, and not on the case of the letter, and checks parity exactly if it generates
it. -/
structure SetsParity (tty : Tty) (databits stopbits parity : ℤ) (t : Termios) : Prop where
  unchanged : (setParity tty databits stopbits parity t).applied = false →
    (setParity tty databits stopbits parity t).termios = t
  determined : (setParity tty databits stopbits parity t).ret = 0 → ∀ t',
    SameLine (setParity tty databits stopbits parity t).termios
      (setParity tty databits stopbits parity t').termios
  spelling : (setParity tty databits stopbits parity t).ret = 0 →
    (setParity tty databits stopbits (otherCase parity) t).termios =
      (setParity tty databits stopbits parity t).termios
  checked : (setParity tty databits stopbits parity t).ret = 0 →
    ((setParity tty databits stopbits parity t).termios.cIflag &&& inpck = inpck ↔
      (setParity tty databits stopbits parity t).termios.cCflag &&& parenb = parenb)

/-! ## A call as an edit -/

section Edits

variable {databits stopbits parity : ℤ} {t t' : Termios}

structure LineEdit where
  cflag : Edit
  iflag : Edit
  deriving DecidableEq

def LineEdit.apply (e : LineEdit) (t : Termios) : Termios where
  cIflag := e.iflag.apply t.cIflag
  cCflag := e.cflag.apply t.cCflag
  cCc := Function.update (Function.update t.cCc vtime 150) vmin 0

def databitsEdit (databits : ℤ) : Option Edit :=
  if databits = 7 then some ((Edit.clear csize).andThen (.raise cs7))
  else if databits = 8 then some ((Edit.clear csize).andThen (.raise cs8))
  else none

def parityEdit (parity : ℤ) : Option LineEdit :=
  if parity = letter 'n' ∨ parity = letter 'N' then some ⟨.clear parenb, .clear inpck⟩
  else if parity = letter 'o' ∨ parity = letter 'O' then
    some ⟨.raise (parodd ||| parenb), .raise inpck⟩
  else if parity = letter 'e' ∨ parity = letter 'E' then
    some ⟨(Edit.raise parenb).andThen (.clear parodd), .raise inpck⟩
  else if parity = letter 'S' ∨ parity = letter 's' then
    some ⟨(Edit.clear parenb).andThen (.clear cstopb), .skip⟩
  else none

def stopbitsEdit (stopbits : ℤ) : Option Edit :=
  if stopbits = 1 then some (.clear cstopb)
  else if stopbits = 2 then some (.raise cstopb)
  else none

/-- What a call does to the two words. -/
def lineEdit (databits stopbits parity : ℤ) : Option LineEdit :=
  (databitsEdit databits).bind fun d => (parityEdit parity).bind fun p =>
    (stopbitsEdit stopbits).map fun s =>
      ⟨(d.andThen p.cflag).andThen s,
        p.iflag.andThen (if parity ≠ letter 'n' then .raise inpck else .skip)⟩

theorem setDatabits_eq (t : Termios) : setDatabits databits t =
    (databitsEdit databits).map fun e => { t with cCflag := e.apply t.cCflag } := by
  unfold setDatabits databitsEdit
  split_ifs <;> simp

theorem switchParity_eq (t : Termios) : switchParity parity t = (parityEdit parity).map fun e =>
    { t with cCflag := e.cflag.apply t.cCflag, cIflag := e.iflag.apply t.cIflag } := by
  unfold switchParity parityEdit
  split_ifs <;> simp

theorem setStopbits_eq (t : Termios) : setStopbits stopbits t =
    (stopbitsEdit stopbits).map fun e => { t with cCflag := e.apply t.cCflag } := by
  unfold setStopbits stopbitsEdit
  split_ifs <;> simp

theorem newOptions_eq (t : Termios) : newOptions databits stopbits parity t =
    (lineEdit databits stopbits parity).map fun e => e.apply t := by
  rw [newOptions, lineEdit, setDatabits_eq]
  rcases databitsEdit databits with _ | d
  · rfl
  rw [Option.map_some, Option.bind_some, Option.bind_some, switchParity_eq]
  rcases parityEdit parity with _ | p
  · rfl
  rw [Option.map_some, Option.bind_some, Option.bind_some, setStopbits_eq]
  rcases stopbitsEdit stopbits with _ | s
  · rfl
  simp only [Option.map_some, finishOptions, LineEdit.apply, Edit.apply_andThen]
  split_ifs <;> simp

theorem setParity_of_newOptions {tty : Tty} (hget : tty.get = true) (hset : tty.set = true)
    {e : LineEdit} (h : lineEdit databits stopbits parity = some e) (t : Termios) :
    setParity tty databits stopbits parity t = ⟨0, true, e.apply t⟩ := by
  simp only [setParity, newOptions_eq, h, hget, hset, Option.map_some, Bool.true_eq_false, if_false,
    if_true]

/-- A call that succeeds. -/
theorem setParity_ret {tty : Tty} (h : (setParity tty databits stopbits parity t).ret = 0) :
    tty.get = true ∧ tty.set = true ∧ ∃ e, lineEdit databits stopbits parity = some e := by
  cases hget : tty.get with
  | false => simp [setParity, hget] at h
  | true =>
    rcases he : lineEdit databits stopbits parity with _ | e
    · simp [setParity, newOptions_eq, he, hget] at h
    · cases hset : tty.set with
      | false => simp [setParity, newOptions_eq, he, hget, hset] at h
      | true => exact ⟨rfl, rfl, e, rfl⟩

theorem mem_of_databitsEdit {d : Edit} (h : databitsEdit databits = some d) :
    databits ∈ [7, 8] := by
  unfold databitsEdit at h
  split_ifs at h <;> simp [*]

theorem mem_of_parityEdit {p : LineEdit} (h : parityEdit parity = some p) :
    parity ∈ plainLetters ∨ parity ∈ parityLetters := by
  unfold parityEdit at h
  split_ifs at h with hn ho he hs
  · exact .inl (by rcases hn with rfl | rfl <;> decide)
  · exact .inr (by rcases ho with rfl | rfl <;> decide)
  · exact .inr (by rcases he with rfl | rfl <;> decide)
  · exact .inl (by rcases hs with rfl | rfl <;> decide)

theorem mem_of_stopbitsEdit {s : Edit} (h : stopbitsEdit stopbits = some s) :
    stopbits ∈ [1, 2] := by
  unfold stopbitsEdit at h
  split_ifs at h <;> simp [*]

/-- The arguments of a call that succeeds. -/
theorem mem_of_lineEdit {e : LineEdit} (h : lineEdit databits stopbits parity = some e) :
    databits ∈ [7, 8] ∧ stopbits ∈ [1, 2] ∧ parity ∈ plainLetters ++ parityLetters := by
  obtain ⟨d, hd, h⟩ := Option.bind_eq_some_iff.mp h
  obtain ⟨p, hp, h⟩ := Option.bind_eq_some_iff.mp h
  obtain ⟨s, hs, -⟩ := Option.map_eq_some_iff.mp h
  exact ⟨mem_of_databitsEdit hd, mem_of_stopbitsEdit hs, List.mem_append.mpr (mem_of_parityEdit hp)⟩

/-- The flags of the line are not kept. -/
structure LineEdit.Fixes (e : LineEdit) : Prop where
  size : e.cflag.keep &&& csize = 0#32
  stop : e.cflag.keep &&& cstopb = 0#32
  enable : e.cflag.keep &&& parenb = 0#32
  check : e.iflag.keep &&& inpck = 0#32
  odd : e.cflag.set &&& parenb ≠ 0#32 → e.cflag.keep &&& parodd = 0#32

instance : DecidablePred LineEdit.Fixes := fun e =>
  decidable_of_iff (e.cflag.keep &&& csize = 0#32 ∧ e.cflag.keep &&& cstopb = 0#32 ∧
    e.cflag.keep &&& parenb = 0#32 ∧ e.iflag.keep &&& inpck = 0#32 ∧
    (e.cflag.set &&& parenb ≠ 0#32 → e.cflag.keep &&& parodd = 0#32))
    ⟨fun ⟨h, h', h'', h''', h''''⟩ => ⟨h, h', h'', h''', h''''⟩,
      fun ⟨h, h', h'', h''', h''''⟩ => ⟨h, h', h'', h''', h''''⟩⟩

theorem LineEdit.Fixes.sameLine {e : LineEdit} (h : e.Fixes) (t t' : Termios) :
    SameLine (e.apply t) (e.apply t') where
  size := Edit.apply_and_eq h.size ..
  stop := Edit.apply_and_eq h.stop ..
  enable := Edit.apply_and_eq h.enable ..
  check := Edit.apply_and_eq h.check ..
  odd hen := by
    have hset : e.cflag.set &&& parenb ≠ 0#32 := by
      rwa [LineEdit.apply, Edit.apply_and_of_keep _ h.enable] at hen
    exact Edit.apply_and_eq (h.odd hset) ..

/-- With arguments that are accepted there is an edit, which fixes the flags of the line. -/
theorem lineEdit_fixes : ∀ databits ∈ [7, 8], ∀ stopbits ∈ [1, 2],
    ∀ parity ∈ plainLetters ++ parityLetters,
      (lineEdit databits stopbits parity).isSome ∧
        ∀ e ∈ lineEdit databits stopbits parity, e.Fixes := by
  decide

/-- With odd and even parity the input is checked, and the case of the letter does not matter. -/
theorem checks_of_letters : ∀ databits ∈ [7, 8], ∀ stopbits ∈ [1, 2],
    ∀ parity ∈ parityLetters, ∀ e ∈ lineEdit databits stopbits parity,
      e.iflag.set &&& inpck = inpck ∧ e.cflag.set &&& parenb = parenb ∧
        lineEdit databits stopbits (otherCase parity) = some e := by
  decide

/-- Without parity it is checked as well, but for the letter `n`. -/
theorem checks_of_none : ∀ databits ∈ [7, 8], ∀ stopbits ∈ [1, 2],
    ∀ parity ∈ ['N', 's', 'S'].map letter, ∀ e ∈ lineEdit databits stopbits parity,
      e.iflag.set &&& inpck = inpck ∧ e.cflag.set &&& parenb ≠ parenb := by
  decide

theorem spelling_of_n : ∀ databits ∈ [7, 8], ∀ stopbits ∈ [1, 2],
    ∀ e ∈ lineEdit databits stopbits (letter 'n'),
      ∀ e' ∈ lineEdit databits stopbits (otherCase (letter 'n')),
        e.iflag.set &&& inpck ≠ e'.iflag.set &&& inpck := by
  decide

/-- A call that does not come to `tcsetattr`. -/
theorem setParity_early {tty : Tty}
    (h : (setParity tty databits stopbits parity t).applied = false) :
    (setParity tty databits stopbits parity t).termios = t := by
  cases hget : tty.get with
  | false => simp [setParity, hget]
  | true =>
    rcases ho : newOptions databits stopbits parity t with _ | options
    · simp [setParity, hget, ho]
    · cases hset : tty.set <;> simp [setParity, hget, ho, hset] at h

section Letters

variable {tty : Tty}

/-- With `n` the input is not checked, with `N` it is. -/
theorem setParity_spelling_n (hget : tty.get = true) (hset : tty.set = true)
    (hdata : databits ∈ [7, 8]) (hstop : stopbits ∈ [1, 2]) (t : Termios) :
    (setParity tty databits stopbits (otherCase (letter 'n')) t).termios ≠
      (setParity tty databits stopbits (letter 'n') t).termios := by
  obtain ⟨hsome, hfix⟩ := lineEdit_fixes databits hdata stopbits hstop (letter 'n') (by decide)
  obtain ⟨hsome', hfix'⟩ := lineEdit_fixes databits hdata stopbits hstop
    (otherCase (letter 'n')) (by decide)
  obtain ⟨e, he⟩ := Option.isSome_iff_exists.mp hsome
  obtain ⟨e', he'⟩ := Option.isSome_iff_exists.mp hsome'
  intro hspell
  rw [setParity_of_newOptions hget hset he, setParity_of_newOptions hget hset he'] at hspell
  have hflags := congrArg (fun t => t.cIflag &&& inpck) hspell
  simp only [LineEdit.apply, Edit.apply_and_of_keep _ (hfix e he).check,
    Edit.apply_and_of_keep _ (hfix' e' he').check] at hflags
  exact spelling_of_n databits hdata stopbits hstop e he e' he' hflags.symm

/-- With the other letters without parity it is checked, though there is none. -/
theorem setParity_checked_none (hget : tty.get = true) (hset : tty.set = true)
    (hdata : databits ∈ [7, 8]) (hstop : stopbits ∈ [1, 2])
    (hparity : parity ∈ ['N', 's', 'S'].map letter) (t : Termios) :
    (setParity tty databits stopbits parity t).termios.cIflag &&& inpck = inpck ∧
      (setParity tty databits stopbits parity t).termios.cCflag &&& parenb ≠ parenb := by
  have hmem : parity ∈ plainLetters ++ parityLetters :=
    List.mem_append_left _ (List.mem_cons_of_mem _ hparity)
  obtain ⟨hsome, hfix⟩ := lineEdit_fixes databits hdata stopbits hstop parity hmem
  obtain ⟨e, he⟩ := Option.isSome_iff_exists.mp hsome
  rw [setParity_of_newOptions hget hset he]
  simp only [LineEdit.apply, Edit.apply_and_of_keep _ (hfix e he).check,
    Edit.apply_and_of_keep _ (hfix e he).enable]
  exact checks_of_none databits hdata stopbits hstop parity hparity e he

/-- A call that succeeds and asks for a parity, with either case of the letter. -/
theorem setParity_parity (hplain : parity ∉ plainLetters)
    (h : (setParity tty databits stopbits parity t).ret = 0) :
    ∃ e : LineEdit, (∀ t, setParity tty databits stopbits parity t = ⟨0, true, e.apply t⟩) ∧
      (∀ t, setParity tty databits stopbits (otherCase parity) t = ⟨0, true, e.apply t⟩) ∧
      e.Fixes ∧ e.iflag.set &&& inpck = inpck ∧ e.cflag.set &&& parenb = parenb := by
  obtain ⟨hget, hset, e, he⟩ := setParity_ret h
  obtain ⟨hdata, hstop, hparity⟩ := mem_of_lineEdit he
  have hmem := (List.mem_append.mp hparity).resolve_left hplain
  obtain ⟨hon, hen, hother⟩ := checks_of_letters databits hdata stopbits hstop parity hmem e he
  exact ⟨e, setParity_of_newOptions hget hset he, setParity_of_newOptions hget hset hother,
    (lineEdit_fixes databits hdata stopbits hstop parity hparity).2 e he, hon, hen⟩

end Letters

/-- `set_Parity` does what its arguments ask for if it fails, or they ask for a parity. -/
theorem setsParity_iff (tty : Tty) (databits stopbits parity : ℤ) (t : Termios) :
    SetsParity tty databits stopbits parity t ↔
      tty.get = false ∨ tty.set = false ∨ databits ∉ [7, 8] ∨ stopbits ∉ [1, 2] ∨
        parity ∉ plainLetters := by
  constructor
  · intro h
    by_contra hno
    simp only [not_or, not_not, Bool.not_eq_false] at hno
    obtain ⟨hget, hset, hdata, hstop, hparity⟩ := hno
    obtain ⟨hsome, -⟩ := lineEdit_fixes databits hdata stopbits hstop parity
      (List.mem_append_left _ hparity)
    obtain ⟨e, he⟩ := Option.isSome_iff_exists.mp hsome
    have hret : (setParity tty databits stopbits parity t).ret = 0 := by
      rw [setParity_of_newOptions hget hset he]
    obtain rfl | hmem := List.mem_cons.mp hparity
    · exact setParity_spelling_n hget hset hdata hstop t (h.spelling hret)
    · obtain ⟨hon, hoff⟩ := setParity_checked_none hget hset hdata hstop hmem t
      exact hoff ((h.checked hret).mp hon)
  · intro hcond
    have hplain : (setParity tty databits stopbits parity t).ret = 0 → parity ∉ plainLetters := by
      intro h
      obtain ⟨hget, hset, e, he⟩ := setParity_ret h
      obtain ⟨hdata, hstop, -⟩ := mem_of_lineEdit he
      simpa [hget, hset, hdata, hstop] using hcond
    refine ⟨setParity_early, fun h t' => ?_, fun h => ?_, fun h => ?_⟩ <;>
      obtain ⟨e, hrun, hother, hfix, hon, hen⟩ := setParity_parity (hplain h) h
    · rw [hrun, hrun]
      exact hfix.sameLine t t'
    · rw [hrun, hother]
    · rw [hrun]
      refine iff_of_true ?_ ?_
      · exact (Edit.apply_and_of_keep _ hfix.check).trans hon
      · exact (Edit.apply_and_of_keep _ hfix.enable).trans hen

/-- `N`, as the program asks for it, checks a parity that it turns off. -/
theorem not_setsParity_N :
    ¬ SetsParity ⟨true, true⟩ 8 1 (letter 'N') ⟨0x10, 0xbd, fun _ => 0⟩ := by
  intro h
  exact absurd (h.checked rfl) (by decide)

end Edits

end LxToolset
