import LxToolset.CText
import Mathlib.Data.BitVec

/-!
# nas-tool : is-serv-ok and beep_test

Two programs that take a mode and a time. `arg_filter` reads both arguments with `atoi`;
`main` then compares the mode as a string, installs the `SIGALRM` handler of the mode, arms
a timer and waits until the handler has counted to `time`.

The mains are modelled up to the waiting loop. `starts_of_selects` and `mode_of_waits` say which
mode is started, `validatorAgrees_iff` when `arg_filter` agrees with it.
-/

namespace LxToolset

/-! ## Surroundings -/

/-- The functions `signal` is called with. -/
inductive NasHandler where
  | lightLedContinuously
  | lightLedBlinking
  | beep
  deriving DecidableEq

/-- `struct itimerval`. -/
structure ItimerVal where
  valueSec : ℤ
  valueUsec : ℤ
  intervalSec : ℤ
  intervalUsec : ℤ
  deriving DecidableEq

namespace ItimerVal

/-- `setitimer` takes the values. -/
def Valid (t : ItimerVal) : Prop :=
  0 ≤ t.valueSec ∧ (0 ≤ t.valueUsec ∧ t.valueUsec < 1000000) ∧
    0 ≤ t.intervalSec ∧ (0 ≤ t.intervalUsec ∧ t.intervalUsec < 1000000)

instance (t : ItimerVal) : Decidable t.Valid :=
  inferInstanceAs (Decidable (0 ≤ t.valueSec ∧ (0 ≤ t.valueUsec ∧ t.valueUsec < 1000000) ∧
    0 ≤ t.intervalSec ∧ (0 ≤ t.intervalUsec ∧ t.intervalUsec < 1000000)))

/-- `setitimer` with these values arms the timer. -/
def Arms (t : ItimerVal) : Prop :=
  t.Valid ∧ (t.valueSec ≠ 0 ∨ t.valueUsec ≠ 0)

instance (t : ItimerVal) : Decidable t.Arms :=
  inferInstanceAs (Decidable (t.Valid ∧ (t.valueSec ≠ 0 ∨ t.valueUsec ≠ 0)))

end ItimerVal

inductive NasEvent where
  | printf (text : String)
  | perror (text : String)
  | signal (handler : NasHandler)
  | setitimer (t : ItimerVal)
  deriving DecidableEq

/-- Whether `/dev/mem` opens, whether `mmap` maps the GPIO registers, and what they hold, by
their offset from `gpioaddr`. -/
structure NasEnv where
  openMem : Bool
  mapped : Bool
  gpio : ℕ → BitVec 32

/-- The globals, with the registers and what has been done. -/
structure NasState where
  gpio : ℕ → BitVec 32
  time : BitVec 32
  count : BitVec 32
  mark : ℤ
  events : List NasEvent

/-- How far `main` comes. -/
inductive NasRun where
  | exit (status : ℤ) (events : List NasEvent)
  /-- An access to registers that are not mapped. -/
  | fault
  /-- The waiting loop. -/
  | waits (s : NasState)

namespace NasState

def log (s : NasState) (e : NasEvent) : NasState :=
  { s with events := s.events ++ [e] }

def store (s : NasState) (addr : ℕ) (v : BitVec 32) : NasState :=
  { s with gpio := Function.update s.gpio addr v }

/-- `set_reg_bit` -/
def setRegBit (s : NasState) (addr n : ℕ) : NasState :=
  s.store addr (s.gpio addr &&& ~~~(0x00010000#32 <<< n) ||| 0x00000001#32 <<< n)

def lightOn (s : NasState) : NasState :=
  (s.setRegBit 0x00 0x07).setRegBit 0x04 0x07

def signal (s : NasState) (handler : NasHandler) : NasState :=
  s.log (.signal handler)

/-- `setitimer`, and the message if it fails. -/
def setitimer (s : NasState) (t : ItimerVal) : NasState :=
  let s := s.log (.setitimer t)
  if t.Valid then s else s.log (.printf "Set timer failed!!\n")

/-- `set_timer0` of is-serv-ok. -/
def setTimer0 (s : NasState) (n : ℤ) : NasState :=
  s.setitimer ⟨n, 0, 0, 0⟩

/-- `set_timer1` of is-serv-ok, which sets `time` to the count of its ticks. -/
def setTimer1 (s : NasState) (interval : ℤ) : NasState :=
  { s with time := 500000 * s.time / BitVec.ofInt 32 interval }.setitimer ⟨0, interval, 0, interval⟩

/-- `set_timer` of beep_test. -/
def setTimer (s : NasState) : NasState :=
  s.setitimer ⟨1, 0, 1, 0⟩

@[simp] theorem setitimer_time (s : NasState) (t : ItimerVal) : (s.setitimer t).time = s.time := by
  unfold setitimer
  split_ifs <;> rfl

@[simp] theorem setitimer_mark (s : NasState) (t : ItimerVal) : (s.setitimer t).mark = s.mark := by
  unfold setitimer
  split_ifs <;> rfl

theorem setitimer_events (s : NasState) {t : ItimerVal} (h : t.Valid) :
    (s.setitimer t).events = s.events ++ [.setitimer t] := by
  rw [setitimer, if_pos h]
  rfl

end NasState

/-! ## The programs -/

/-- `arg_filter`, with the modes and the usage text of a program : the result and what is
printed. -/
def argFilter (modes : List ℤ) (cmdOptions : String) (argv : List (List Char)) :
    ℤ × List String :=
  if argv.length < 3 then (-1, ["Not enough arguments.\n", cmdOptions ++ "\n"])
  else if 3 < argv.length then (-1, ["Too many arguments.\n", cmdOptions ++ "\n"])
  else if ∀ m ∈ modes, atoi (argv.getD 1 []) ≠ m then (-1, ["Invalid option argument.\n"])
  else if atoi (argv.getD 2 []) = 0 then (-1, ["Invalid time argument.\n"])
  else (0, [])

/-- `arg_filter` of is-serv-ok. -/
def isServOkArgFilter : List (List Char) → ℤ × List String :=
  argFilter [0, 1] ("\nisservok option time\n--------------------------------------------\n" ++
    "option:\t 0 -- light continuously,\n\t 1-- blinkling. \n\ntime:\t > 0")

/-- `arg_filter` of beep_test. -/
def beepTestArgFilter : List (List Char) → ℤ × List String :=
  argFilter [0, 1, 2] ("\nbeep option time\n--------------------------------------------\n" ++
    "option:\t 0 -- short beep.\n\t 1 -- long beep.\n\t 2 -- short & long beep.\n\ntime:\t > 0")

/-- is-serv-ok registers the function of the option to `SIGALRM`. -/
def isServOkRegister (env : NasEnv) (option : List Char) (s : NasState) : NasRun :=
  if option = ['0'] then
    if env.mapped then
      .waits ((s.lightOn.signal .lightLedContinuously).setTimer0 s.time.toInt)
    else .fault
  else if option = ['1'] then
    if env.mapped then .waits ((s.lightOn.signal .lightLedBlinking).setTimer1 200000)
    else .fault
  else .waits s

/-- `main` of is-serv-ok up to its loop. -/
def isServOk (env : NasEnv) (argv : List (List Char)) : NasRun :=
  let filtered := isServOkArgFilter argv
  if filtered.1 ≠ 0 then .exit (-1) (filtered.2.map .printf)
  else if env.openMem = false then .exit (-1) [.perror "open"]
  else isServOkRegister env (argv.getD 1 [])
    ⟨env.gpio, BitVec.ofInt 32 (atoi (argv.getD 2 [])), 0, 0, []⟩

/-- beep_test sets `mark` for the option and registers `beep`. -/
def beepTestRegister (option : List Char) (s : NasState) : NasState :=
  let s := if option = ['0'] then ({ s with mark := 0 }.signal .beep).setTimer else s
  let s := if option = ['1'] then ({ s with mark := 1 }.signal .beep).setTimer else s
  if option = ['2'] then ({ s with mark := 2 }.signal .beep).setTimer else s

/-- `main` of beep_test up to its loop. -/
def beepTest (env : NasEnv) (argv : List (List Char)) : NasRun :=
  let filtered := beepTestArgFilter argv
  if filtered.1 ≠ 0 then .exit (-1) (filtered.2.map .printf)
  else if env.openMem = false then .exit (-1) [.perror "open"]
  else if env.mapped = false then .fault
  else
    let s : NasState := ⟨env.gpio, 0, 0, 0, []⟩
    let s := ((s.store 0x00 0xffff0000).store 0x10 0x2fffd000).store 0x04 0x2ffdd002
    .waits (beepTestRegister (argv.getD 1 [])
      { s with time := BitVec.ofInt 32 (atoi (argv.getD 2 [])) })

/-! ## Modes -/

/-- A mode of the usage text : the option that selects it, its handler and `mark`, and, for
`time` as `main` reads it, its timer and the limit of the waiting loop. -/
structure NasMode where
  option : List Char
  handler : NasHandler
  mark : ℤ
  timer : BitVec 32 → ItimerVal
  limit : BitVec 32 → BitVec 32

inductive NasProgram where
  | isServOk
  | beepTest
  deriving DecidableEq

namespace NasProgram

def argFilter : NasProgram → List (List Char) → ℤ × List String
  | .isServOk => isServOkArgFilter
  | .beepTest => beepTestArgFilter

def main : NasProgram → NasEnv → List (List Char) → NasRun
  | .isServOk => LxToolset.isServOk
  | .beepTest => LxToolset.beepTest

def modes : NasProgram → List NasMode
  | .isServOk =>
    [⟨['0'], .lightLedContinuously, 0, fun time => ⟨time.toInt, 0, 0, 0⟩, fun time => time⟩,
     ⟨['1'], .lightLedBlinking, 0, fun _ => ⟨0, 200000, 0, 200000⟩,
      fun time => 500000 * time / 200000⟩]
  | .beepTest =>
    [⟨['0'], .beep, 0, fun _ => ⟨1, 0, 1, 0⟩, fun time => time⟩,
     ⟨['1'], .beep, 1, fun _ => ⟨1, 0, 1, 0⟩, fun time => time⟩,
     ⟨['2'], .beep, 2, fun _ => ⟨1, 0, 1, 0⟩, fun time => time⟩]

/-- The values of `atoi` for which `arg_filter` takes the option. -/
def values : NasProgram → List ℤ
  | .isServOk => [0, 1]
  | .beepTest => [0, 1, 2]

variable (p : NasProgram) (env : NasEnv) (argv : List (List Char))

/-- The arguments select a mode and give it a positive time. -/
def Selects (argv : List (List Char)) (m : NasMode) : Prop :=
  argv.length = 3 ∧ argv.getD 1 [] = m.option ∧ 0 < atoi (argv.getD 2 [])

/-- `main` comes to its loop having installed the handler of exactly one mode and armed its
timer, with a limit derived from a positive time. -/
def Starts : Prop :=
  ∃ m ∈ p.modes, ∃ s, p.main env argv = .waits s ∧ 0 < atoi (argv.getD 2 []) ∧
    s.events = [.signal m.handler, .setitimer (m.timer (BitVec.ofInt 32 (atoi (argv.getD 2 []))))] ∧
      (m.timer (BitVec.ofInt 32 (atoi (argv.getD 2 [])))).Arms ∧ s.mark = m.mark ∧
        s.time = m.limit (BitVec.ofInt 32 (atoi (argv.getD 2 [])))

/-- `arg_filter` accepts only arguments that `main` starts, and rejects those that select no
mode. -/
def ValidatorAgrees : Prop :=
  ((p.argFilter argv).1 = 0 → p.Starts env argv) ∧
    ((¬∃ m ∈ p.modes, Selects argv m) → (p.argFilter argv).1 ≠ 0)

/-- There are not two arguments, or the option is no number of a mode, or the time is
zero. -/
def Rejects : Prop :=
  argv.length ≠ 3 ∨ atoi (argv.getD 1 []) ∉ p.values ∨ atoi (argv.getD 2 []) = 0

end NasProgram

theorem argFilter_eq_zero_iff (modes : List ℤ) (cmdOptions : String) (argv : List (List Char)) :
    (argFilter modes cmdOptions argv).1 = 0 ↔
      argv.length = 3 ∧ atoi (argv.getD 1 []) ∈ modes ∧ atoi (argv.getD 2 []) ≠ 0 := by
  have hmem : (∀ m ∈ modes, atoi (argv.getD 1 []) ≠ m) ↔ atoi (argv.getD 1 []) ∉ modes := by
    refine ⟨fun h hm => h _ hm rfl, fun h m hm heq => h (heq ▸ hm)⟩
  unfold argFilter
  simp only [hmem]
  split_ifs <;> simp_all <;> omega

namespace NasProgram

variable (p : NasProgram) (env : NasEnv) (argv : List (List Char))

theorem argFilter_ne_zero_iff : (p.argFilter argv).1 ≠ 0 ↔ p.Rejects argv := by
  have h : (p.argFilter argv).1 = 0 ↔
      argv.length = 3 ∧ atoi (argv.getD 1 []) ∈ p.values ∧ atoi (argv.getD 2 []) ≠ 0 := by
    cases p <;> exact argFilter_eq_zero_iff _ _ _
  rw [ne_eq, h, Rejects]
  tauto

/-- The spelling of a mode is one of the numbers `arg_filter` takes. -/
theorem atoi_option_mem {m : NasMode} (hm : m ∈ p.modes) : atoi m.option ∈ p.values := by
  cases p <;> simp only [modes, List.mem_cons, List.not_mem_nil, or_false] at hm
  · rcases hm with rfl | rfl <;> decide
  · rcases hm with rfl | rfl | rfl <;> decide

variable {p argv} in
theorem not_rejects_of_selects {m : NasMode} (hm : m ∈ p.modes) (h : Selects argv m) :
    ¬p.Rejects argv := by
  obtain ⟨hlen, hopt, hpos⟩ := h
  rintro (h | h | h)
  · exact h hlen
  · exact h (hopt ▸ p.atoi_option_mem hm)
  · omega

/-- The timer of a mode is armed for a positive time. -/
theorem timer_arms {m : NasMode} (hm : m ∈ p.modes) {t : ℤ} (hpos : 0 < t) (hlt : t < 2 ^ 31) :
    (m.timer (BitVec.ofInt 32 t)).Arms := by
  have hint : (BitVec.ofInt 32 t).toInt = t := by
    rw [BitVec.toInt_ofInt, Int.bmod_eq_of_le] <;> omega
  have hserv : (⟨0, 200000, 0, 200000⟩ : ItimerVal).Arms := by decide
  have hbeep : (⟨1, 0, 1, 0⟩ : ItimerVal).Arms := by decide
  cases p <;> simp only [modes, List.mem_cons, List.not_mem_nil, or_false] at hm
  · rcases hm with rfl | rfl
    · simp only [ItimerVal.Arms, ItimerVal.Valid, hint]
      omega
    · exact hserv
  · rcases hm with rfl | rfl | rfl <;> exact hbeep

end NasProgram

/-! ## When a mode is started -/

section

variable {env : NasEnv} {argv : List (List Char)}

theorem isServOk_eq (hf : (isServOkArgFilter argv).1 = 0) (ho : env.openMem = true) :
    isServOk env argv = isServOkRegister env (argv.getD 1 [])
      ⟨env.gpio, BitVec.ofInt 32 (atoi (argv.getD 2 [])), 0, 0, []⟩ := by
  rw [isServOk, if_neg (not_not.2 hf), if_neg (by simp [ho])]

/-- The GPIO registers as beep_test sets them. -/
theorem beepTest_eq (hf : (beepTestArgFilter argv).1 = 0) (ho : env.openMem = true)
    (hmap : env.mapped = true) : ∃ gpio, beepTest env argv = .waits (beepTestRegister
      (argv.getD 1 []) ⟨gpio, BitVec.ofInt 32 (atoi (argv.getD 2 [])), 0, 0, []⟩) := by
  rw [beepTest, if_neg (not_not.2 hf), if_neg (by simp [ho]), if_neg (by simp [hmap])]
  exact ⟨_, rfl⟩

theorem isServOk_waits {s : NasState} (h : isServOk env argv = .waits s) : env.openMem = true ∧
    isServOkRegister env (argv.getD 1 [])
      ⟨env.gpio, BitVec.ofInt 32 (atoi (argv.getD 2 [])), 0, 0, []⟩ = .waits s := by
  unfold isServOk at h
  dsimp only at h
  split_ifs at h with hf ho
  exact ⟨by simpa using ho, h⟩

theorem beepTest_waits {s : NasState} (h : beepTest env argv = .waits s) : env.openMem = true ∧
    env.mapped = true ∧ ∃ gpio, s = beepTestRegister (argv.getD 1 [])
      ⟨gpio, BitVec.ofInt 32 (atoi (argv.getD 2 [])), 0, 0, []⟩ := by
  unfold beepTest at h
  dsimp only at h
  split_ifs at h with hf ho hmap
  exact ⟨by simpa using ho, by simpa using hmap, _, (NasRun.waits.inj h).symm⟩

/-- What registering a mode leaves for the loop. -/
def Registers (m : NasMode) (s s' : NasState) : Prop :=
  s'.events = s.events ++ [.signal m.handler, .setitimer (m.timer s.time)] ∧ s'.mark = m.mark ∧
    s'.time = m.limit s.time

theorem isServOkRegister_of_mem {m : NasMode} (hm : m ∈ NasProgram.isServOk.modes) {s : NasState}
    (hmark : s.mark = 0) (hmap : env.mapped = true) (hv : (m.timer s.time).Valid) :
    ∃ s', isServOkRegister env m.option s = .waits s' ∧ Registers m s s' := by
  simp only [NasProgram.modes, List.mem_cons, List.not_mem_nil, or_false] at hm
  rcases hm with rfl | rfl
  · refine ⟨_, by rw [isServOkRegister, if_pos rfl, if_pos hmap], ?_, ?_, ?_⟩
    · rw [NasState.setTimer0, NasState.setitimer_events _ hv]
      simp [NasState.signal, NasState.log, NasState.lightOn, NasState.setRegBit, NasState.store]
    · rw [NasState.setTimer0, NasState.setitimer_mark]
      exact hmark
    · rw [NasState.setTimer0, NasState.setitimer_time]
      rfl
  · refine ⟨_, by rw [isServOkRegister, if_neg (by decide), if_pos rfl, if_pos hmap], ?_, ?_, ?_⟩
    · rw [NasState.setTimer1, NasState.setitimer_events _ hv]
      simp [NasState.signal, NasState.log, NasState.lightOn, NasState.setRegBit, NasState.store]
    · rw [NasState.setTimer1, NasState.setitimer_mark]
      exact hmark
    · rw [NasState.setTimer1, NasState.setitimer_time]
      rfl

theorem beepTestRegister_of_mem {m : NasMode} (hm : m ∈ NasProgram.beepTest.modes) (s : NasState) :
    Registers m s (beepTestRegister m.option s) := by
  have hv : (⟨1, 0, 1, 0⟩ : ItimerVal).Valid := by decide
  simp only [NasProgram.modes, List.mem_cons, List.not_mem_nil, or_false] at hm
  rcases hm with rfl | rfl | rfl <;>
    simp [beepTestRegister, Registers, NasState.setTimer, NasState.setitimer_events _ hv,
      NasState.signal, NasState.log]

/-- Without a mode nothing is registered, and without the GPIO registers `main` does not come
to its loop with a mode. -/
theorem isServOkRegister_waits {option : List Char} {s s' : NasState}
    (hs : isServOkRegister env option s = .waits s') :
    s' = s ∨ env.mapped = true ∧ ∃ m ∈ NasProgram.isServOk.modes, option = m.option := by
  unfold isServOkRegister at hs
  split_ifs at hs with h0 hmap h1 hmap
  · exact Or.inr ⟨hmap, _, List.mem_cons_self, h0⟩
  · exact Or.inr ⟨hmap, _, List.mem_cons_of_mem _ List.mem_cons_self, h1⟩
  · exact Or.inl (NasRun.waits.inj hs).symm

theorem beepTestRegister_of_ne {option : List Char}
    (h : ∀ m ∈ NasProgram.beepTest.modes, option ≠ m.option) (s : NasState) :
    (beepTestRegister option s).events = s.events := by
  simp only [NasProgram.modes, List.forall_mem_cons] at h
  simp only [beepTestRegister, if_neg h.1, if_neg h.2.1, if_neg h.2.2.1]

end

namespace NasProgram

variable {p : NasProgram} {env : NasEnv} {argv : List (List Char)}

/-- Arguments that select a mode start it. -/
theorem starts_of_selects {m : NasMode} (hm : m ∈ p.modes) (h : Selects argv m)
    (ho : env.openMem = true) (hmap : env.mapped = true) : p.Starts env argv := by
  have hf : (p.argFilter argv).1 = 0 := by
    by_contra hne
    exact not_rejects_of_selects hm h ((p.argFilter_ne_zero_iff argv).1 hne)
  obtain ⟨-, hopt, hpos⟩ := h
  have harms := p.timer_arms hm hpos (atoi_range _).2
  cases p with
  | isServOk =>
    obtain ⟨s, hs, hev, hmark, htime⟩ := isServOkRegister_of_mem
      (s := ⟨env.gpio, BitVec.ofInt 32 (atoi (argv.getD 2 [])), 0, 0, []⟩) hm rfl hmap harms.1
    exact ⟨m, hm, s, (isServOk_eq hf ho).trans (hopt ▸ hs), hpos, hev, harms, hmark, htime⟩
  | beepTest =>
    obtain ⟨gpio, hs⟩ := beepTest_eq hf ho hmap
    obtain ⟨hev, hmark, htime⟩ := beepTestRegister_of_mem hm
      ⟨gpio, BitVec.ofInt 32 (atoi (argv.getD 2 [])), 0, 0, []⟩
    exact ⟨m, hm, _, hopt ▸ hs, hpos, hev, harms, hmark, htime⟩

/-- A program that comes to its loop with something registered was given a mode. -/
theorem mode_of_waits {s : NasState} (hs : p.main env argv = .waits s) (hev : s.events ≠ []) :
    env.openMem = true ∧ env.mapped = true ∧ ∃ m ∈ p.modes, argv.getD 1 [] = m.option := by
  cases p with
  | isServOk =>
    obtain ⟨ho, hs⟩ := isServOk_waits hs
    rcases isServOkRegister_waits hs with rfl | ⟨hmap, hm⟩
    · exact absurd rfl hev
    · exact ⟨ho, hmap, hm⟩
  | beepTest =>
    obtain ⟨ho, hmap, gpio, rfl⟩ := beepTest_waits hs
    refine ⟨ho, hmap, ?_⟩
    by_contra hnone
    exact hev (beepTestRegister_of_ne (fun m hm hopt => hnone ⟨m, hm, hopt⟩) _)

/-- The validator agrees with the dispatcher exactly if it rejects, or the arguments select a
mode and the registers can be mapped. -/
theorem validatorAgrees_iff (p : NasProgram) (env : NasEnv) (argv : List (List Char)) :
    p.ValidatorAgrees env argv ↔ p.Rejects argv ∨
      env.openMem = true ∧ env.mapped = true ∧ ∃ m ∈ p.modes, Selects argv m := by
  have hrej := p.argFilter_ne_zero_iff argv
  refine ⟨fun ⟨hstart, _⟩ => ?_, ?_⟩
  · by_cases hr : p.Rejects argv
    · exact Or.inl hr
    · have hf : (p.argFilter argv).1 = 0 := by
        by_contra hne
        exact hr (hrej.1 hne)
      obtain ⟨m, -, s, hs, hpos, hev, -⟩ := hstart hf
      obtain ⟨ho, hmap, m, hm, hopt⟩ := mode_of_waits hs (by rw [hev]; simp)
      have hlen : argv.length = 3 := by
        by_contra hlen
        exact hr (Or.inl hlen)
      exact Or.inr ⟨ho, hmap, m, hm, hlen, hopt, hpos⟩
  · rintro (hr | ⟨ho, hmap, m, hm, hsel⟩)
    · exact ⟨fun hf => absurd hf (hrej.2 hr), fun _ => hrej.2 hr⟩
    · exact ⟨fun _ => starts_of_selects hm hsel ho hmap, fun hnone => absurd ⟨m, hm, hsel⟩ hnone⟩

/-- A board whose registers can be mapped. -/
def openBoard : NasEnv :=
  ⟨true, true, fun _ => 0⟩

/-- The arguments `00 5`. -/
def doubleZero : List (List Char) :=
  [['p'], ['0', '0'], ['5']]

/-- Both programs accept `00 5` and do not start a mode. -/
theorem doubleZero_accepted : isServOk.argFilter doubleZero = (0, []) ∧
    ¬isServOk.ValidatorAgrees openBoard doubleZero ∧
      beepTest.argFilter doubleZero = (0, []) ∧
        ¬beepTest.ValidatorAgrees openBoard doubleZero := by
  have hnone : ∀ p : NasProgram, ¬∃ m ∈ p.modes, Selects doubleZero m := by
    rintro p ⟨m, hm, -, hopt, -⟩
    cases p <;> simp only [modes, List.mem_cons, List.not_mem_nil, or_false] at hm
    · rcases hm with rfl | rfl <;> exact absurd hopt (by decide)
    · rcases hm with rfl | rfl | rfl <;> exact absurd hopt (by decide)
  refine ⟨by decide, fun h => ?_, by decide, fun h => ?_⟩
  · exact h.2 (hnone _) (by decide)
  · exact h.2 (hnone _) (by decide)

end NasProgram

end LxToolset
