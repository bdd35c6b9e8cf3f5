import LxToolset.Machine
import LxToolset.NasTool

/-!
# The waiting loop of is-serv-ok

`main` tests `count < time` and calls `pause`, and `SIGALRM` comes between any two of its steps. The
handler of the continuous mode counts to `time` at once and its timer fires once : a signal after
the test and before `pause` leaves `main` waiting for another that does not come
(`not_stuck_of_reach`).
-/

namespace LxToolset

/-! ## Handlers -/

namespace NasState

/-- `clear_reg_bit` -/
def clearRegBit (s : NasState) (addr n : ℕ) : NasState :=
  s.store addr ((s.gpio addr ||| 0x00010000#32 <<< n) &&& ~~~(0x00000001#32 <<< n))

def lightOff (s : NasState) : NasState :=
  (s.clearRegBit 0x00 0x07).clearRegBit 0x04 0x07

def lightLedContinuously (s : NasState) : NasState :=
  { s.lightOff with count := s.lightOff.count + s.lightOff.time }

/-- `tmp` is what the read of the register yields. -/
def lightLedBlinking (s : NasState) (tmp : BitVec 32) : NasState :=
  if tmp &&& 0x00000080 ≠ 0 then { s.lightOff with count := s.lightOff.count + 1 } else s.lightOn

/-- The function that was registered last. -/
def handler (s : NasState) : Option NasHandler :=
  (s.events.filterMap fun
    | .signal h => some h
    | _ => none).getLast?

/-- The timer as it was set last. -/
def timer (s : NasState) : Option ItimerVal :=
  ((s.events.filterMap fun
    | .setitimer t => some t
    | _ => none).filter fun t => t.Valid).getLast?.filter fun t => t.Arms

end NasState

/-- The timer once it has fired. -/
def ItimerVal.reload (t : ItimerVal) : Option ItimerVal :=
  if t.intervalSec = 0 ∧ t.intervalUsec = 0 then none
  else some ⟨t.intervalSec, t.intervalUsec, t.intervalSec, t.intervalUsec⟩

/-! ## The loop -/

/-- Where `main` is. -/
inductive ServPc where
  /-- Before the test of `count < time`. -/
  | test
  /-- After it, before `pause`. -/
  | enter
  /-- In `pause`. -/
  | blocked
  /-- A handler has returned, and so does `pause`. -/
  | woken
  | exited
  deriving DecidableEq

structure ServState where
  nas : NasState
  /-- The timer, if another signal is to come. -/
  timer : Option ItimerVal
  pc : ServPc

inductive ServAction where
  | main
  | alarm (tmp : BitVec 32)

def ServAction.isAlarm : ServAction → Bool
  | .main => false
  | .alarm _ => true

namespace ServState

def mainStep (s : ServState) : Option ServState :=
  match s.pc with
  | .test => some { s with pc := if s.nas.count < s.nas.time then .enter else .exited }
  | .enter => some { s with pc := .blocked }
  | .woken => some { s with pc := .test }
  | .blocked | .exited => none

/-- `pause` returns after the handler. -/
def wake : ServPc → ServPc
  | .blocked => .woken
  | pc => pc

/-- `SIGALRM`, which ends a program that has no function for it. -/
def handle (s : ServState) (tmp : BitVec 32) : ServState :=
  match s.nas.handler with
  | some .lightLedContinuously => { s with nas := s.nas.lightLedContinuously, pc := wake s.pc }
  | some .lightLedBlinking => { s with nas := s.nas.lightLedBlinking tmp, pc := wake s.pc }
  | _ => { s with pc := .exited }

def alarmStep (s : ServState) (tmp : BitVec 32) : Option ServState :=
  match s.pc, s.timer with
  | .exited, _ => none
  | _, none => none
  | _, some t => some { s.handle tmp with timer := t.reload }

def step (s : ServState) : ServAction → Option ServState
  | .main => s.mainStep
  | .alarm tmp => s.alarmStep tmp

end ServState

/-- is-serv-ok from its loop on, for arguments that select a mode. -/
def servMachine : Machine ServState ServAction where
  init s := s.pc = .test ∧ s.timer = s.nas.timer ∧ ∃ env argv, isServOk env argv = .waits s.nas ∧
    ∃ m ∈ NasProgram.isServOk.modes, NasProgram.Selects argv m
  step := ServState.step

/-- `main` waits though there is nothing to wait for, and no signal will come. -/
structure StuckInPause (s : ServState) : Prop where
  blocked : s.pc = .blocked
  counted : s.nas.time ≤ s.nas.count
  unarmed : s.timer = none

/-- A signal between the test and `pause`, and none after it. -/
def LastAlarmInGap (s : ServState) (a : ServAction) : Prop :=
  a.isAlarm ∧ s.pc = .enter ∧ s.timer.bind ItimerVal.reload = none

instance (s : ServState) (a : ServAction) : Decidable (¬ LastAlarmInGap s a) :=
  inferInstanceAs (Decidable (¬ (_ ∧ _ ∧ _)))

/-! ## The start of the loop -/

section Start

variable {env : NasEnv} {argv : List (List Char)} {s : NasState} {m : NasMode}

@[simp] theorem NasState.setitimer_count (t : ItimerVal) : (s.setitimer t).count = s.count := by
  unfold NasState.setitimer
  split_ifs <;> rfl

/-- Registering a mode needs the registers, and counts nothing. -/
theorem mapped_of_registers {s₀ : NasState} (hm : m ∈ NasProgram.isServOk.modes)
    (h : isServOkRegister env m.option s₀ = .waits s) : env.mapped = true ∧ s.count = s₀.count := by
  simp only [NasProgram.modes, List.mem_cons, List.not_mem_nil, or_false] at hm
  rcases hm with rfl | rfl
  · rw [isServOkRegister, if_pos rfl] at h
    split_ifs at h with hmap
    obtain rfl := NasRun.waits.inj h
    exact ⟨hmap, NasState.setitimer_count _⟩
  · rw [isServOkRegister, if_neg (by decide), if_pos rfl] at h
    split_ifs at h with hmap
    obtain rfl := NasRun.waits.inj h
    exact ⟨hmap, NasState.setitimer_count _⟩

/-- `main` comes to its loop with a count of 0, and with what it registers for its mode. -/
theorem registers_of_waits (h : isServOk env argv = .waits s) (hm : m ∈ NasProgram.isServOk.modes)
    (hsel : NasProgram.Selects argv m) : s.count = 0 ∧
      Registers m ⟨env.gpio, BitVec.ofInt 32 (atoi (argv.getD 2 [])), 0, 0, []⟩ s := by
  obtain ⟨-, hopt, hpos⟩ := hsel
  obtain ⟨-, hreg⟩ := isServOk_waits h
  rw [hopt] at hreg
  obtain ⟨hmap, hcount⟩ := mapped_of_registers hm hreg
  have harms := NasProgram.isServOk.timer_arms hm hpos (atoi_range _).2
  obtain ⟨s', hs', hregs⟩ := isServOkRegister_of_mem
    (s := ⟨env.gpio, BitVec.ofInt 32 (atoi (argv.getD 2 [])), 0, 0, []⟩) hm rfl hmap harms.1
  obtain rfl := NasRun.waits.inj (hs'.symm.trans hreg)
  exact ⟨hcount, hregs⟩

theorem handler_of_registers {s₀ : NasState} (h : Registers m s₀ s) (h₀ : s₀.events = []) :
    s.handler = some m.handler := by
  rw [NasState.handler, h.1, h₀]
  rfl

theorem timer_of_registers {s₀ : NasState} (h : Registers m s₀ s) (h₀ : s₀.events = [])
    (harms : (m.timer s₀.time).Arms) : s.timer = some (m.timer s₀.time) := by
  rw [NasState.timer, h.1, h₀]
  simp [harms, harms.1, Option.filter]

end Start

/-! ## Runs -/

/-- What holds of the timer and the count along a run without a last alarm in the gap : the timer
of the blinking mode stays armed, and that of the continuous mode has fired once `count` is `time`,
with `main` on its way to the test. -/
inductive WaitInvariant (s : ServState) : Prop where
  | blinking (t : ItimerVal) (handler : s.nas.handler = some .lightLedBlinking)
      (armed : s.timer = some t) (periodic : t.reload = some t)
  | armed (t : ItimerVal) (handler : s.nas.handler = some .lightLedContinuously)
      (armed : s.timer = some t) (oneShot : t.reload = none) (count : s.nas.count = 0)
  | fired (unarmed : s.timer = none) (count : s.nas.count = s.nas.time)
      (pc : s.pc ≠ .enter ∧ s.pc ≠ .blocked)

section Runs

variable {s s' : ServState} {a : ServAction}

theorem waiting_of_init (h : servMachine.init s) : WaitInvariant s := by
  obtain ⟨-, htimer, env, argv, hwaits, m, hm, hsel⟩ := h
  have harms := NasProgram.isServOk.timer_arms hm hsel.2.2 (atoi_range _).2
  obtain ⟨hcount, hregs⟩ := registers_of_waits hwaits hm hsel
  have hhandler := handler_of_registers hregs rfl
  rw [timer_of_registers hregs rfl harms] at htimer
  simp only [NasProgram.modes, List.mem_cons, List.not_mem_nil, or_false] at hm
  rcases hm with rfl | rfl
  · exact .armed _ hhandler htimer rfl hcount
  · exact .blinking _ hhandler htimer rfl

/-- A step of `main` moves on, and changes nothing else. -/
theorem mainStep_cases (hs : s.mainStep = some s') : s'.nas = s.nas ∧ s'.timer = s.timer ∧
    ((s.pc = .test ∧ s'.pc = if s.nas.count < s.nas.time then .enter else .exited) ∨
      (s.pc = .enter ∧ s'.pc = .blocked) ∨ (s.pc = .woken ∧ s'.pc = .test)) := by
  unfold ServState.mainStep at hs
  cases hpc : s.pc <;> rw [hpc] at hs
  case test => cases hs; exact ⟨rfl, rfl, .inl ⟨rfl, rfl⟩⟩
  case enter => cases hs; exact ⟨rfl, rfl, .inr (.inl ⟨rfl, rfl⟩)⟩
  case woken => cases hs; exact ⟨rfl, rfl, .inr (.inr ⟨rfl, rfl⟩)⟩
  case blocked => cases hs
  case exited => cases hs

theorem alarmStep_cases {tmp : BitVec 32} (hs : s.alarmStep tmp = some s') :
    s.pc ≠ .exited ∧ ∃ t, s.timer = some t ∧ s' = { s.handle tmp with timer := t.reload } := by
  unfold ServState.alarmStep at hs
  cases hpc : s.pc <;> cases ht : s.timer <;> rw [hpc, ht] at hs <;> cases hs <;>
    exact ⟨by simp, _, rfl, rfl⟩

theorem waiting_mainStep (h : WaitInvariant s) (hs : s.mainStep = some s') : WaitInvariant s' := by
  obtain ⟨hnas, htimer, hpc⟩ := mainStep_cases hs
  cases h with
  | blinking t handler armed periodic =>
    exact .blinking t (hnas ▸ handler) (htimer ▸ armed) periodic
  | armed t handler armed oneShot count =>
    exact .armed t (hnas ▸ handler) (htimer ▸ armed) oneShot (hnas ▸ count)
  | fired unarmed count pc =>
    refine .fired (htimer ▸ unarmed) (hnas ▸ count) ?_
    rcases hpc with ⟨-, hpc⟩ | ⟨henter, -⟩ | ⟨-, hpc⟩
    · rw [if_neg (by rw [count]; exact BitVec.lt_irrefl _)] at hpc
      simp [hpc]
    · exact absurd henter pc.1
    · simp [hpc]

/-- The function of the continuous mode counts to `time` and that of the blinking mode may count
one; both are still registered. -/
theorem waiting_alarmStep {tmp : BitVec 32} (h : WaitInvariant s)
    (hgap : ¬ LastAlarmInGap s (.alarm tmp)) (hs : s.alarmStep tmp = some s') :
    WaitInvariant s' := by
  obtain ⟨-, t', ht', rfl⟩ := alarmStep_cases hs
  cases h with
  | blinking t handler armed periodic =>
    obtain rfl := Option.some.inj (ht'.symm.trans armed)
    have hhandler : (s.nas.lightLedBlinking tmp).handler = s.nas.handler := by
      unfold NasState.lightLedBlinking
      split_ifs <;> rfl
    refine .blinking t' ?_ periodic periodic
    rw [ServState.handle, handler]
    exact hhandler.trans handler
  | armed t handler armed oneShot count =>
    obtain rfl := Option.some.inj (ht'.symm.trans armed)
    have hpc : s.pc ≠ .enter := by
      intro henter
      refine hgap ⟨rfl, henter, ?_⟩
      rw [armed]
      exact oneShot
    rw [ServState.handle, handler]
    refine .fired oneShot ?_ ?_
    · show s.nas.count + s.nas.time = s.nas.time
      rw [count]
      exact BitVec.zero_add _
    · show ServState.wake s.pc ≠ .enter ∧ ServState.wake s.pc ≠ .blocked
      cases hp : s.pc <;> simp [ServState.wake, hp] at hpc ⊢
  | fired unarmed _ _ =>
    rw [unarmed] at ht'
    cases ht'

theorem waiting_of_reach (h : servMachine.Reach (fun s a => ¬ LastAlarmInGap s a) s) :
    WaitInvariant s := by
  refine h.invariant (fun s => waiting_of_init) fun s a s' hI hgap hs => ?_
  cases a with
  | main => exact waiting_mainStep hI hs
  | alarm tmp => exact waiting_alarmStep hI hgap hs

end Runs

/-- `main` does not get stuck in a run in which no last alarm comes between the test and
`pause`. -/
theorem not_stuck_of_reach {s : ServState}
    (h : servMachine.Reach (fun s a => ¬ LastAlarmInGap s a) s) : ¬ StuckInPause s := by
  rintro ⟨hblocked, hcounted, hunarmed⟩
  cases waiting_of_reach h with
  | blinking t _ harmed _ => simp [hunarmed] at harmed
  | armed t _ harmed _ _ => simp [hunarmed] at harmed
  | fired _ _ hpc => exact hpc.2 hblocked

/-- is-serv-ok with the arguments `0 5`. -/
def continuousFive : ServState :=
  ⟨(((⟨NasProgram.openBoard.gpio, 5, 0, 0, []⟩ : NasState).lightOn.signal
    .lightLedContinuously).setTimer0 5), some ⟨5, 0, 0, 0⟩, .test⟩

theorem init_continuousFive : servMachine.init continuousFive :=
  ⟨rfl, rfl, NasProgram.openBoard, [['p'], ['0'], ['5']], rfl, _, List.mem_cons_self, rfl, rfl,
    by decide⟩

/-- A signal in `pause` ends it. -/
theorem not_stuck_woken : ∃ s, servMachine.run (fun s a => ¬ LastAlarmInGap s a) continuousFive
    [.main, .main, .alarm 0] = some s ∧ ¬ StuckInPause s := by
  obtain ⟨s, hs⟩ : ∃ s, servMachine.run (fun s a => ¬ LastAlarmInGap s a) continuousFive
    [.main, .main, .alarm 0] = some s := ⟨_, rfl⟩
  exact ⟨s, hs, not_stuck_of_reach (Machine.reach_of_run (.start init_continuousFive) hs)⟩

/-- A signal before `pause` does not. -/
theorem exists_stuck : ∃ s, servMachine.Reach Machine.free s ∧ StuckInPause s := by
  obtain ⟨s, hs, hstuck⟩ : ∃ s, servMachine.run Machine.free continuousFive
      [.main, .alarm 0, .main] = some s ∧ StuckInPause s := ⟨_, rfl, rfl, by decide, rfl⟩
  exact ⟨s, Machine.reach_of_run (.start init_continuousFive) hs, hstuck⟩

end LxToolset
