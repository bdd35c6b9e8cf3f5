import LxToolset.NasWait
import Mathlib.Data.Nat.Count
import Mathlib.Algebra.Order.Group.Abs
import Mathlib.Algebra.Order.Ring.Int

/-!
# The blinking mode of is-serv-ok

A tick switches the LED, and every second one, that switches it off, counts. `set_timer1` rescales
`time` to half seconds of `interval` microseconds in 32 bits, so that the loop ends about when it
should as long as `500000 * time` is not cut off (`blinksRight_iff`).
-/

namespace LxToolset

namespace NasState

/-- `SIGALRM` with a register that holds what was stored in it. -/
def tick (s : NasState) : NasState :=
  s.lightLedBlinking (s.gpio 0x00)

def afterTicks (s : NasState) : ℕ → NasState
  | 0 => s
  | n + 1 => (s.afterTicks n).tick

def LedOn (s : NasState) : Prop :=
  s.gpio 0x00 &&& 0x00000080 ≠ 0

instance (s : NasState) : Decidable s.LedOn :=
  inferInstanceAs (Decidable (_ ≠ _))

/-- Tick `n` switches the LED off. -/
def SwitchesOff (s : NasState) (n : ℕ) : Prop :=
  (s.afterTicks n).LedOn ∧ ¬ (s.afterTicks (n + 1)).LedOn

instance (s : NasState) (n : ℕ) : Decidable (s.SwitchesOff n) :=
  inferInstanceAs (Decidable (_ ∧ _))

/-- The loop goes on after each of the first `n` tests, one before each tick. -/
def InLoop (s : NasState) (n : ℕ) : Prop :=
  ∀ i < n, (s.afterTicks i).count < (s.afterTicks i).time

/-- `main` leaves its loop after `k` ticks. -/
def LeavesAfter (s : NasState) (k : ℕ) : Prop :=
  s.InLoop k ∧ ¬ (s.afterTicks k).count < (s.afterTicks k).time

end NasState

/-- The LED blinks for `t` seconds, give or take one of its periods, and stays off. -/
structure BlinksRight (s : NasState) (t : ℤ) : Prop where
  alternates : ∀ n, (s.afterTicks (n + 1)).LedOn ↔ ¬ (s.afterTicks n).LedOn
  counts : ∀ n, s.InLoop n → (s.afterTicks n).count.toNat = Nat.count s.SwitchesOff n
  leaves : ∃ k, s.LeavesAfter k ∧ |(k : ℤ) * 200000 - t * 1000000| ≤ 400000 ∧
    ¬ (s.afterTicks k).LedOn

/-- The second mode. -/
def blinkMode : NasMode :=
  ⟨['1'], .lightLedBlinking, 0, fun _ => ⟨0, 200000, 0, 200000⟩,
    fun time => 500000 * time / 200000⟩

theorem blinkMode_mem : blinkMode ∈ NasProgram.isServOk.modes :=
  List.mem_cons_of_mem _ List.mem_cons_self

section Led

variable {s : NasState}

/-- A bit that was set, and one that was cleared. -/
theorem or_and_self (x b : BitVec 32) : (x ||| b) &&& b = b := by
  ext i hi
  simpa using Or.inr

theorem and_not_self (x b : BitVec 32) : x &&& ~~~b &&& b = 0 := by
  ext i hi
  simp

theorem ledOn_lightOn : s.lightOn.LedOn := by
  have hbit : s.lightOn.gpio 0x00 &&& 0x00000080 = 0x00000080 := or_and_self _ _
  rw [NasState.LedOn, hbit]
  decide

theorem not_ledOn_lightOff : ¬ s.lightOff.LedOn :=
  not_not_intro (and_not_self _ _)

theorem tick_of_ledOn (h : s.LedOn) :
    s.tick = { s.lightOff with count := s.lightOff.count + 1 } :=
  if_pos h

theorem tick_of_not_ledOn (h : ¬ s.LedOn) : s.tick = s.lightOn :=
  if_neg h

/-- A tick switches the LED. -/
theorem ledOn_tick : s.tick.LedOn ↔ ¬ s.LedOn := by
  by_cases h : s.LedOn
  · rw [tick_of_ledOn h]
    exact iff_of_false not_ledOn_lightOff (not_not_intro h)
  · rw [tick_of_not_ledOn h]
    exact iff_of_true ledOn_lightOn h

theorem tick_time : s.tick.time = s.time := by
  by_cases h : s.LedOn
  · rw [tick_of_ledOn h]
    rfl
  · rw [tick_of_not_ledOn h]
    rfl

theorem tick_count_of_ledOn (h : s.LedOn) : s.tick.count = s.count + 1 := by
  rw [tick_of_ledOn h]
  rfl

theorem tick_count_of_not_ledOn (h : ¬ s.LedOn) : s.tick.count = s.count := by
  rw [tick_of_not_ledOn h]
  rfl

theorem afterTicks_time (n : ℕ) : (s.afterTicks n).time = s.time := by
  induction n with
  | zero => rfl
  | succ n ih => exact tick_time.trans ih

/-- The LED is on after an even number of ticks. -/
theorem ledOn_afterTicks (hon : s.LedOn) (n : ℕ) : (s.afterTicks n).LedOn ↔ n % 2 = 0 := by
  induction n with
  | zero => exact iff_of_true hon rfl
  | succ n ih =>
    rw [NasState.afterTicks, ledOn_tick, ih]
    omega

theorem switchesOff_iff (hon : s.LedOn) (n : ℕ) : s.SwitchesOff n ↔ n % 2 = 0 := by
  rw [NasState.SwitchesOff, ledOn_afterTicks hon, ledOn_afterTicks hon]
  omega

theorem count_switchesOff (hon : s.LedOn) (n : ℕ) : Nat.count s.SwitchesOff n = (n + 1) / 2 := by
  induction n with
  | zero => rfl
  | succ n ih =>
    rw [Nat.count_succ, ih]
    have hoff := switchesOff_iff hon n
    split_ifs with h
    · have heven := hoff.mp h
      omega
    · have hodd := mt hoff.mpr h
      omega

theorem NasState.InLoop.of_succ {n : ℕ} (h : s.InLoop (n + 1)) : s.InLoop n :=
  fun i hi => h i (Nat.lt_succ_of_lt hi)

/-- Below `time` the count does not wrap. -/
theorem count_afterTicks (hon : s.LedOn) (hcount : s.count = 0) {n : ℕ} (h : s.InLoop n) :
    (s.afterTicks n).count.toNat = (n + 1) / 2 := by
  induction n with
  | zero => rw [NasState.afterTicks, hcount]; rfl
  | succ n ih =>
    have hn := ih h.of_succ
    have hlt := h n (Nat.lt_succ_self n)
    by_cases heven : n % 2 = 0
    · rw [NasState.afterTicks, tick_count_of_ledOn ((ledOn_afterTicks hon n).mpr heven)]
      have hmax := ((s.afterTicks n).time).isLt
      rw [BitVec.lt_def] at hlt
      have hone : (1 : BitVec 32).toNat = 1 := rfl
      rw [BitVec.toNat_add, hone, hn, Nat.mod_eq_of_lt (by omega)]
      omega
    · rw [NasState.afterTicks, tick_count_of_not_ledOn (mt (ledOn_afterTicks hon n).mp heven), hn]
      omega

/-- `main` leaves its loop with the tick that switches the LED off for the `time`th time. -/
theorem leavesAfter_iff (hon : s.LedOn) (hcount : s.count = 0) {k : ℕ} :
    s.LeavesAfter k ↔ k = 2 * s.time.toNat - 1 := by
  have hloop (i : ℕ) (hi : s.InLoop i) :
      (s.afterTicks i).count < (s.afterTicks i).time ↔ (i + 1) / 2 < s.time.toNat := by
    rw [BitVec.lt_def, count_afterTicks hon hcount hi, afterTicks_time]
  constructor
  · rintro ⟨hin, hout⟩
    rw [hloop k hin] at hout
    cases k with
    | zero => omega
    | succ k =>
      have hlast := (hloop k hin.of_succ).mp (hin k (Nat.lt_succ_self k))
      omega
  · rintro rfl
    have hin : ∀ n ≤ 2 * s.time.toNat - 1, s.InLoop n := by
      intro n hn
      induction n with
      | zero => exact fun i hi => absurd hi (Nat.not_lt_zero i)
      | succ n ih =>
        intro i hi
        rcases Nat.lt_succ_iff_lt_or_eq.mp hi with hi | rfl
        · exact ih (Nat.le_of_succ_le hn) i hi
        · exact (hloop i (ih (Nat.le_of_succ_le hn))).mpr (by omega)
    refine ⟨hin _ le_rfl, ?_⟩
    rw [hloop _ (hin _ le_rfl)]
    omega

end Led

section Start

variable {env : NasEnv} {argv : List (List Char)} {s : NasState}

/-- The LED is on when `main` comes to its loop. -/
theorem ledOn_of_waits (h : isServOk env argv = .waits s) (hopt : argv.getD 1 [] = ['1']) :
    s.LedOn := by
  obtain ⟨-, hreg⟩ := isServOk_waits h
  rw [isServOkRegister, hopt, if_neg (by decide), if_pos rfl] at hreg
  split_ifs at hreg
  obtain rfl := NasRun.waits.inj hreg
  have hgpio : ∀ (s : NasState) (t : ItimerVal), (s.setitimer t).gpio = s.gpio := by
    intro s t
    unfold NasState.setitimer
    split_ifs <;> rfl
  rw [NasState.LedOn, NasState.setTimer1, hgpio]
  exact ledOn_lightOn

/-- The limit of the loop for a time of `t` seconds. -/
theorem toNat_limit {t : ℤ} (hpos : 0 < t) (hlt : t < 2 ^ 31) :
    ((500000 * BitVec.ofInt 32 t / 200000 : BitVec 32).toNat : ℤ) =
      500000 * t % 2 ^ 32 / 200000 := by
  have h5 : (500000 : BitVec 32).toNat = 500000 := rfl
  have h2 : (200000 : BitVec 32).toNat = 200000 := rfl
  rw [BitVec.toNat_udiv, BitVec.toNat_mul, h5, h2, BitVec.toNat_ofInt]
  omega

end Start

/-- For arguments that select the blinking mode, the LED blinks for as long as it should exactly if
that is at most 8589 seconds. -/
theorem blinksRight_iff {env : NasEnv} {argv : List (List Char)} {s : NasState}
    (h : isServOk env argv = .waits s) (hsel : NasProgram.Selects argv blinkMode) :
    BlinksRight s (atoi (argv.getD 2 [])) ↔ atoi (argv.getD 2 []) ≤ 8589 := by
  have hpos := hsel.2.2
  have hlt := (atoi_range (argv.getD 2 [])).2
  have hon := ledOn_of_waits h hsel.2.1
  obtain ⟨hcount, -, -, htime⟩ := registers_of_waits h blinkMode_mem hsel
  have hlimit : (s.time.toNat : ℤ) = 500000 * atoi (argv.getD 2 []) % 2 ^ 32 / 200000 := by
    rw [htime]
    exact toNat_limit hpos hlt
  constructor
  · rintro ⟨-, -, k, hk, hnear, -⟩
    have hticks := (leavesAfter_iff hon hcount).mp hk
    obtain ⟨hlow, -⟩ := abs_le.mp hnear
    -- there are at most 42947 ticks
    omega
  · intro hle
    have hexact : 500000 * atoi (argv.getD 2 []) % 2 ^ 32 = 500000 * atoi (argv.getD 2 []) :=
      Int.emod_eq_of_lt (by omega) (by omega)
    rw [hexact] at hlimit
    refine ⟨fun n => ledOn_tick, fun n hn => ?_, _, (leavesAfter_iff hon hcount).mpr rfl, ?_, ?_⟩
    · rw [count_afterTicks hon hcount hn, count_switchesOff hon]
    · rw [abs_le]
      omega
    · rw [ledOn_afterTicks hon]
      omega

/-- The arguments `1` and `time`. -/
def blinkFor (time : List Char) : List (List Char) :=
  [['p'], ['1'], time]

/-- The arguments `1 3`. -/
theorem blinksRight_three : ∃ s, isServOk NasProgram.openBoard (blinkFor ['3']) = .waits s ∧
    BlinksRight s 3 :=
  ⟨_, rfl, (@blinksRight_iff NasProgram.openBoard (blinkFor ['3']) _ rfl
    ⟨rfl, rfl, by decide⟩).2 (show (3 : ℤ) ≤ 8589 by decide)⟩

/-- For 8590 seconds `main` leaves its loop at once, and the LED on. -/
theorem not_blinksRight_8590 : ∃ s, isServOk NasProgram.openBoard (blinkFor ['8', '5', '9', '0']) =
    .waits s ∧ ¬ BlinksRight s 8590 := by
  obtain ⟨s, hs, htime⟩ : ∃ s, isServOk NasProgram.openBoard (blinkFor ['8', '5', '9', '0']) =
    .waits s ∧ s.time = 0 := ⟨_, rfl, rfl⟩
  refine ⟨s, hs, fun h => ?_⟩
  obtain ⟨k, ⟨hin, -⟩, hnear, -⟩ := h.leaves
  have hk : k = 0 := by
    by_contra hk
    have hfirst := hin 0 (Nat.pos_of_ne_zero hk)
    rw [NasState.afterTicks, htime] at hfirst
    exact BitVec.not_lt_zero hfirst
  rw [hk] at hnear
  exact absurd hnear (by decide)

/-! ## Runs -/

/-- A signal comes while `main` is in `pause`, and its handler reads what the register holds. -/
def Prompt (s : ServState) : ServAction → Prop
  | .main => True
  | .alarm tmp => s.pc = .blocked ∧ tmp = s.nas.gpio 0x00

/-- The state of a run of `n` ticks from the state `s` before the loop. -/
structure AfterTicks (s s' : ServState) (n : ℕ) : Prop where
  nas : s'.nas = s.nas.afterTicks n
  inLoop : s.nas.InLoop n
  tested : s'.pc = .enter ∨ s'.pc = .blocked → s.nas.InLoop (n + 1)
  left : s'.pc = .exited → s.nas.LeavesAfter n

section Runs

variable {s₀ s s' : ServState} {n : ℕ}

/-- `SIGALRM` leaves the functions that are registered. -/
theorem handler_handle (tmp : BitVec 32) : (s.handle tmp).nas.handler = s.nas.handler := by
  unfold ServState.handle
  split
  · rfl
  · unfold NasState.lightLedBlinking
    split_ifs <;> rfl
  · rfl

theorem AfterTicks.main (h : AfterTicks s₀ s n) (hs : s.mainStep = some s') :
    AfterTicks s₀ s' n := by
  obtain ⟨hnas, -, hpc⟩ := mainStep_cases hs
  have hnas' := hnas.trans h.nas
  rcases hpc with ⟨-, hpc⟩ | ⟨henter, hpc⟩ | ⟨-, hpc⟩
  · by_cases hlt : s.nas.count < s.nas.time
    · rw [if_pos hlt] at hpc
      refine ⟨hnas', h.inLoop, fun _ i hi => ?_, by simp [hpc]⟩
      rcases Nat.lt_succ_iff_lt_or_eq.mp hi with hi | rfl
      · exact h.inLoop i hi
      · rwa [← h.nas]
    · rw [if_neg hlt] at hpc
      exact ⟨hnas', h.inLoop, by simp [hpc], fun _ => ⟨h.inLoop, h.nas ▸ hlt⟩⟩
  · exact ⟨hnas', h.inLoop, fun _ => h.tested (.inl henter), by simp [hpc]⟩
  · exact ⟨hnas', h.inLoop, by simp [hpc], by simp [hpc]⟩

theorem AfterTicks.alarm (h : AfterTicks s₀ s n) (hblink : s.nas.handler = some .lightLedBlinking)
    (hblocked : s.pc = .blocked) (hs : s.alarmStep (s.nas.gpio 0x00) = some s') :
    AfterTicks s₀ s' (n + 1) := by
  obtain ⟨-, t, -, rfl⟩ := alarmStep_cases hs
  rw [ServState.handle, hblink, hblocked]
  refine ⟨?_, h.tested (.inr hblocked), fun hpc => ?_, fun hpc => ?_⟩
  · show s.nas.tick = _
    rw [h.nas]
    rfl
  · rcases hpc with hpc | hpc <;> cases hpc
  · cases hpc

end Runs

/-- Where no signal comes but in `pause`, a run in the blinking mode is one of ticks, and ends as
they do. -/
theorem exists_afterTicks {s : ServState} (h : servMachine.Reach Prompt s)
    (hblink : s.nas.handler = some .lightLedBlinking) :
    ∃ s₀ n, servMachine.init s₀ ∧ AfterTicks s₀ s n := by
  refine h.invariant (I := fun s => s.nas.handler = some .lightLedBlinking →
    ∃ s₀ n, servMachine.init s₀ ∧ AfterTicks s₀ s n) ?_ ?_ hblink
  · intro s hs _
    have htest : s.pc = .test := hs.1
    exact ⟨s, 0, hs, rfl, fun i hi => absurd hi (Nat.not_lt_zero i), by simp [htest],
      by simp [htest]⟩
  · intro s a s' ih hprompt hstep hblink'
    cases a with
    | main =>
      obtain ⟨hnas, -⟩ := mainStep_cases hstep
      obtain ⟨s₀, n, hinit, hticks⟩ := ih (hnas ▸ hblink')
      exact ⟨s₀, n, hinit, hticks.main hstep⟩
    | alarm tmp =>
      obtain ⟨hblocked, rfl⟩ := hprompt
      have hhandler : s.nas.handler = some .lightLedBlinking := by
        obtain ⟨-, t, -, rfl⟩ := alarmStep_cases hstep
        rw [← handler_handle (s.nas.gpio 0x00)]
        exact hblink'
      obtain ⟨s₀, n, hinit, hticks⟩ := ih hhandler
      exact ⟨s₀, n + 1, hinit, hticks.alarm hhandler hblocked hstep⟩

end LxToolset
