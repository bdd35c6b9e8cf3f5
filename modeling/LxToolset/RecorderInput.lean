import LxToolset.RecorderOwnership

/-!
# The capture loop and its supply of buffers

The capture loop of `Recorder::start` takes `m_inputBuffers[0]` without looking at the
size, while `prepareBuffers` refills the deque in its own time. In any run no buffer that
passes through the deques is NULL (`NonNull`), so the path of `start` for a NULL buffer,
which unlocks the mutex twice, is not taken. `recorder_input_safe` adds what the loop needs
from the schedule : when it locks the mutex, `prepareBuffers` has executed more of its
`push_back`s than the loop of its `pop_front`s.
-/

namespace LxToolset

/-! ## The schedule -/

/-- A step of the recorder, with the state before it. -/
abbrev RecorderStep :=
  RecorderState × RecorderAct

/-- `prepareBuffers` executes `m_inputBuffers.push_back`. -/
def isPush : RecorderStep → Bool
  | (s, .prep) => match s.prep.pc with
    | .push => true
    | _ => false
  | _ => false

/-- The capture loop executes `m_inputBuffers.pop_front`. -/
def isPop : RecorderStep → Bool
  | (s, .main _) => s.main.pc = .popFront
  | _ => false

/-- Whenever the capture loop locks `m_inputBuffersLock`, the schedule has let `prepareBuffers`
push more buffers than the loop has popped. -/
def Supplied (x : RecorderState × List RecorderStep) (a : RecorderAct) : Prop :=
  a.thread = some .main → x.1.main.pc = .lockInput → x.2.countP isPop < x.2.countP isPush

instance (x : RecorderState × List RecorderStep) (a : RecorderAct) : Decidable (Supplied x a) :=
  inferInstanceAs (Decidable (a.thread = some .main → x.1.main.pc = .lockInput →
    x.2.countP isPop < x.2.countP isPush))

/-! ## No NULL buffer -/

/-- The deques hold no NULL, and `m_pSndbuf` is not NULL to a thread that needs it. -/
structure NonNull (s : RecorderState) : Prop where
  live : ∀ p ∈ s.shared.buf.inputBuffers ++ s.shared.buf.fullBuffers, p ≠ 0
  fresh : s.shared.buf.fresh ≠ 0
  sndbuf : ∀ t, s.role t ≠ .idle → s.shared.buf.sndbuf ≠ 0

theorem Effect.nonNull {assigning : Bool} {r r' : Role} {b b' : Buffers}
    (h : Effect assigning r b r' b') (live : ∀ p ∈ b.inputBuffers ++ b.fullBuffers, p ≠ 0)
    (fresh : b.fresh ≠ 0) (sndbuf : r ≠ .idle → b.sndbuf ≠ 0) :
    (∀ p ∈ b'.inputBuffers ++ b'.fullBuffers, p ≠ 0) ∧ b'.fresh ≠ 0 ∧
      (r' ≠ .idle ∨ b.sndbuf ≠ 0 → b'.sndbuf ≠ 0) := by
  cases h with
  | quiet => exact ⟨live, fresh, fun h => h.elim sndbuf id⟩
  | null hnull => exact ⟨live, fresh, fun _ => absurd hnull (sndbuf (by decide))⟩
  | alloc => exact ⟨live, Nat.succ_ne_zero _, fun _ => fresh⟩
  | blank h =>
    obtain ⟨hne, rfl⟩ := Buffers.store_eq_some.1 h
    exact ⟨live, fresh, fun _ => hne⟩
  | pushInput =>
    have hne := sndbuf (by decide)
    refine ⟨fun p hp => ?_, fresh, fun _ => hne⟩
    simp only [Buffers.pushInput, List.append_assoc, List.singleton_append, List.mem_append,
      List.mem_cons] at hp live
    rcases hp with hp | rfl | hp
    · exact live p (Or.inl hp)
    · exact hne
    · exact live p (Or.inr hp)
  | loadInput _ h =>
    obtain ⟨p, q, hq, rfl⟩ := Buffers.loadInput_eq_some.1 h
    exact ⟨live, fresh, fun _ => live p (by simp [hq])⟩
  | popInput h =>
    obtain ⟨p, q, hq, rfl⟩ := Buffers.popInput_eq_some.1 h
    rw [hq, List.cons_append] at live
    exact ⟨fun p hp => live p (List.mem_cons_of_mem _ hp), fresh, fun _ => sndbuf (by decide)⟩
  | readDsp h =>
    obtain ⟨-, hne, rfl⟩ := Buffers.readDsp_eq_some.1 h
    exact ⟨live, fresh, fun _ => hne⟩
  | pushFull =>
    have hne := sndbuf (by decide)
    refine ⟨fun p hp => ?_, fresh, fun _ => hne⟩
    simp only [Buffers.pushFull, List.mem_append, List.mem_singleton] at hp live
    rcases hp with hp | hp | rfl
    · exact live p (Or.inl hp)
    · exact live p (Or.inr hp)
    · exact hne
  | loadFull _ h =>
    obtain ⟨p, q, hq, rfl⟩ := Buffers.loadFull_eq_some.1 h
    exact ⟨live, fresh, fun _ => live p (by simp [hq])⟩
  | popFull h =>
    obtain ⟨p, q, hq, rfl⟩ := Buffers.popFull_eq_some.1 h
    refine ⟨fun p hp => live p ?_, fresh, fun _ => sndbuf (by decide)⟩
    simp only [hq, List.mem_append, List.mem_cons] at hp ⊢
    tauto
  | write h =>
    obtain ⟨hne, rfl⟩ := Buffers.write_eq_some.1 h
    exact ⟨live, fresh, fun _ => hne⟩

theorem nonNull_init {s : RecorderState} (h : RecorderInit s) : NonNull s := by
  refine ⟨by simp [h.inputBuffers, h.fullBuffers], h.fresh.ne', fun t ht => absurd ?_ ht⟩
  cases t <;> simp [RecorderState.role, h.prep, h.main, h.enc, PrepPc.role, MainPc.role,
    EncPc.role]

theorem nonNull_step {c : RecorderConfig} {s s' : RecorderState} {a : RecorderAct}
    (hc : Created s) (hn : NonNull s) (h : recorderStep c s a = some s') : NonNull s' := by
  obtain ⟨live, fresh, sndbuf⟩ := hn
  cases ht : a.thread with
  | none =>
    cases a <;> cases ht
    cases h
    exact ⟨live, fresh, sndbuf⟩
  | some t =>
    have hothers : ∀ u, u ≠ t → s'.role u = s.role u := fun u => role_step hc ht h
    rcases effect_or_readError_of_step ht h with heff | ⟨rfl, hrole, hrole', v, hv⟩
    · obtain ⟨live', fresh', hsnd⟩ := heff.nonNull live fresh (sndbuf t)
      refine ⟨live', fresh', fun u hu => hsnd ?_⟩
      by_cases hut : u = t
      · exact Or.inl (hut ▸ hu)
      · exact Or.inr (sndbuf u (hothers u hut ▸ hu))
    · obtain ⟨hne, heq⟩ := Buffers.store_eq_some.1 hv
      refine ⟨?_, ?_, fun _ _ => ?_⟩ <;> rw [heq]
      · exact live
      · exact fresh
      · exact hne

/-! ## The lock and the deque -/

/-- What the capture loop needs at its statements. -/
def MainPc.Captures (s : Shared) : MainPc → Prop
  | .loadFront | .testNull | .popFront =>
    s.inputBuffersLock = some .main ∧ s.buf.inputBuffers ≠ []
  | .unlockInput => s.inputBuffersLock = some .main
  | .unlockNull | .newBuffer | .usedZero => False
  | _ => True

/-- A thread other than the capture loop leaves it what it has. -/
theorem MainPc.Captures.mono {s s' : Shared} {pc : MainPc} (h : pc.Captures s)
    (hl : s.inputBuffersLock = some .main → s'.inputBuffersLock = some .main)
    (hb : s.buf.inputBuffers ≠ [] → s'.buf.inputBuffers ≠ []) : pc.Captures s' := by
  cases pc <;> first | trivial | exact ⟨hl h.1, hb h.2⟩ | exact hl h

/-- Only a thread with a buffer of its own or at the front of `m_inputBuffers` changes this
deque. -/
theorem Effect.inputBuffers_eq {assigning : Bool} {r r' : Role} {b b' : Buffers}
    (h : Effect assigning r b r' b') (hin : r ≠ .inFront) (howned : r ≠ .owned) :
    b'.inputBuffers = b.inputBuffers := by
  cases h with
  | quiet | alloc | pushFull => rfl
  | null | popInput => exact absurd rfl hin
  | blank | pushInput | readDsp => exact absurd rfl howned
  | loadInput _ h =>
    obtain ⟨p, q, -, rfl⟩ := Buffers.loadInput_eq_some.1 h
    rfl
  | loadFull _ h =>
    obtain ⟨p, q, -, rfl⟩ := Buffers.loadFull_eq_some.1 h
    rfl
  | popFull h =>
    obtain ⟨p, q, -, rfl⟩ := Buffers.popFull_eq_some.1 h
    rfl
  | write h =>
    obtain ⟨-, rfl⟩ := Buffers.write_eq_some.1 h
    rfl

theorem ShipPc.role_ne (pc : ShipPc) : pc.role ≠ .inFront ∧ pc.role ≠ .owned := by
  cases pc <;> exact ⟨by decide, by decide⟩

theorem inputBuffers_of_prepareBuffers {c : RecorderConfig} {f f' : PrepFrame} {s s' : Shared}
    (h : prepareBuffers c f s = some (s', f')) : s'.buf.inputBuffers =
      s.buf.inputBuffers ++ match f.pc with
        | .push => [s.buf.sndbuf]
        | _ => [] := by
  obtain ⟨pc, onesecond, i, sz⟩ := f
  cases pc <;> simp only [prepareBuffers, Option.map_eq_some_iff, Option.some.injEq,
    Prod.mk.injEq, reduceCtorEq, List.append_nil] at h ⊢
  case memset =>
    obtain ⟨b, hb, rfl, -⟩ := h
    obtain ⟨-, rfl⟩ := Buffers.store_eq_some.1 hb
    rfl
  case pushLock | sizeLock =>
    obtain ⟨s₁, hs, rfl, -⟩ := h
    obtain ⟨-, rfl⟩ := Shared.lockInput_eq_some.1 hs
    rfl
  case pushUnlock | sizeUnlock =>
    obtain ⟨s₁, hs, rfl, -⟩ := h
    obtain ⟨-, rfl⟩ := Shared.unlockInput_eq_some.1 hs
    rfl
  all_goals
    obtain ⟨rfl, -⟩ := h
    rfl

theorem inputBuffers_of_start {c : RecorderConfig} {r : Option Block} {exited : Bool}
    {f f' : MainFrame} {s s' : Shared} (h : start c r exited f s = some (s', f')) :
    s.buf.inputBuffers.length = s'.buf.inputBuffers.length +
      if f.pc = .popFront then 1 else 0 := by
  obtain ⟨pc, total, bytesRead⟩ := f
  cases pc
  case drain g =>
    obtain ⟨-, rfl, -⟩ | ⟨g', hg, -⟩ := start_drain h
    · rfl
    · have heff := effect_of_shipToEncoder hg
      rw [heff.inputBuffers_eq g.pc.role_ne.1 g.pc.role_ne.2]
      rfl
  case returned => cases h
  case join =>
    cases exited <;> cases h
    rfl
  case popFront =>
    obtain ⟨b, hb, heq⟩ := Option.map_eq_some_iff.1 h
    obtain ⟨p, q, hq, rfl⟩ := Buffers.popInput_eq_some.1 hb
    cases heq
    rw [hq]
    rfl
  case loadFront =>
    obtain ⟨b, hb, heq⟩ := Option.map_eq_some_iff.1 h
    obtain ⟨p, q, -, rfl⟩ := Buffers.loadInput_eq_some.1 hb
    cases heq
    rfl
  case usedZero =>
    obtain ⟨b, hb, heq⟩ := Option.map_eq_some_iff.1 h
    obtain ⟨-, rfl⟩ := Buffers.store_eq_some.1 hb
    cases heq
    rfl
  case read =>
    obtain ⟨b, hb, heq⟩ := Option.map_eq_some_iff.1 h
    obtain ⟨-, rfl⟩ := Buffers.store_eq_some.1 (Option.ite_none_right_eq_some.1 hb).2
    cases heq
    rfl
  case addBytes =>
    obtain ⟨_, -, heq⟩ := Option.map_eq_some_iff.1 h
    cases heq
    rfl
  case lockInput =>
    obtain ⟨s₁, hs, heq⟩ := Option.map_eq_some_iff.1 h
    obtain ⟨-, rfl⟩ := Shared.lockInput_eq_some.1 hs
    cases heq
    rfl
  case unlockNull | unlockInput =>
    obtain ⟨s₁, hs, heq⟩ := Option.map_eq_some_iff.1 h
    obtain ⟨-, rfl⟩ := Shared.unlockInput_eq_some.1 hs
    cases heq
    rfl
  case lockFull =>
    obtain ⟨s₁, hs, heq⟩ := Option.map_eq_some_iff.1 h
    obtain ⟨-, rfl⟩ := Shared.lockFull_eq_some.1 hs
    cases heq
    rfl
  case unlockFull =>
    obtain ⟨s₁, hs, heq⟩ := Option.map_eq_some_iff.1 h
    obtain ⟨-, rfl⟩ := Shared.unlockFull_eq_some.1 hs
    cases heq
    rfl
  all_goals
    cases h
    rfl

theorem inputBuffers_of_encode {c : RecorderConfig} {f f' : EncFrame} {s s' : Shared}
    (h : encode c f s = some (s', f')) : s'.buf.inputBuffers = s.buf.inputBuffers := by
  have hrole : f.pc.role ≠ .inFront ∧ f.pc.role ≠ .owned := by
    cases hpc : f.pc with
    | ship g => exact g.pc.role_ne
    | _ => exact ⟨by simp [EncPc.role], by simp [EncPc.role]⟩
  exact (effect_of_encode h).inputBuffers_eq hrole.1 hrole.2

/-- The deque grows with the pushes of `prepareBuffers` and shrinks with the pops of the
loop. -/
theorem inputBuffers_step {c : RecorderConfig} {s s' : RecorderState} {a : RecorderAct}
    (h : (recorder c).step s a = some s') :
    s'.shared.buf.inputBuffers.length + (isPop (s, a)).toNat =
      s.shared.buf.inputBuffers.length + (isPush (s, a)).toNat := by
  cases a with
  | prep =>
    obtain ⟨⟨sh, f⟩, hf, rfl⟩ := Option.map_eq_some_iff.1 h
    dsimp only
    rw [inputBuffers_of_prepareBuffers hf, List.length_append, isPush]
    cases s.prep.pc <;> rfl
  | main r =>
    obtain ⟨⟨sh, f⟩, hf, rfl⟩ := Option.map_eq_some_iff.1 h
    dsimp only
    rw [spawn_shared, inputBuffers_of_start hf]
    by_cases hpc : s.main.pc = .popFront <;> simp [isPop, isPush, hpc]
  | enc =>
    obtain ⟨⟨sh, f⟩, hf, rfl⟩ := Option.map_eq_some_iff.1 h
    dsimp only
    rw [inputBuffers_of_encode hf]
    rfl
  | stop =>
    cases h
    rfl

/-- `prepareBuffers` waits while the capture loop holds the mutex. -/
theorem lock_of_prepareBuffers {c : RecorderConfig} {f f' : PrepFrame} {s s' : Shared}
    (h : prepareBuffers c f s = some (s', f')) (hl : s.inputBuffersLock = some .main) :
    s'.inputBuffersLock = some .main := by
  obtain ⟨pc, onesecond, i, sz⟩ := f
  have hlock : s.lockInput .prep = none := by simp [Shared.lockInput, hl]
  have hunlock : s.unlockInput .prep = none := by simp [Shared.unlockInput, hl]
  cases pc <;>
    simp only [prepareBuffers, hlock, hunlock, Option.map_none, Option.map_eq_some_iff,
      Option.some.injEq, Prod.mk.injEq, reduceCtorEq] at h
  case memset =>
    obtain ⟨b, -, rfl, -⟩ := h
    exact hl
  all_goals
    obtain ⟨rfl, -⟩ := h
    exact hl

theorem lock_of_shipToEncoder {t : Thread} {wanted : Bool} {f f' : ShipFrame} {s s' : Shared}
    (h : shipToEncoder t wanted f s = some (s', f')) :
    s'.inputBuffersLock = s.inputBuffersLock := by
  have hframe := congrArg Shared.inputBuffersLock (frame_of_shipToEncoder h)
  exact hframe

theorem lock_of_encode {c : RecorderConfig} {f f' : EncFrame} {s s' : Shared}
    (h : encode c f s = some (s', f')) : s'.inputBuffersLock = s.inputBuffersLock := by
  obtain ⟨pc, lastSize, bytesProcessed, processed⟩ := f
  cases pc
  case ship g =>
    obtain ⟨-, rfl, -⟩ | ⟨g', hg, -⟩ := encode_ship h
    · rfl
    · exact lock_of_shipToEncoder hg
  case notCreated | exited => cases h
  all_goals
    cases h
    rfl

/-- A step of `start` keeps what the capture loop needs, if it finds a buffer when it locks
the mutex. -/
theorem captures_of_start {c : RecorderConfig} {r : Option Block} {exited : Bool}
    {f f' : MainFrame} {s s' : Shared} (hready : f.pc = .lockInput → s.buf.inputBuffers ≠ [])
    (hnull : f.pc = .testNull → s.buf.sndbuf ≠ 0) (hc : f.pc.Captures s)
    (h : start c r exited f s = some (s', f')) : f'.pc.Captures s' := by
  obtain ⟨pc, total, bytesRead⟩ := f
  cases pc
  case drain g =>
    obtain ⟨-, -, rfl⟩ | ⟨g', -, rfl⟩ := start_drain h
    · dsimp only
      split <;> trivial
    · trivial
  case returned => cases h
  case join =>
    cases exited <;> cases h
    trivial
  case lockInput =>
    obtain ⟨s₁, hs, heq⟩ := Option.map_eq_some_iff.1 h
    cases heq
    obtain ⟨-, rfl⟩ := Shared.lockInput_eq_some.1 hs
    exact ⟨rfl, hready rfl⟩
  case loadFront =>
    obtain ⟨b, hb, heq⟩ := Option.map_eq_some_iff.1 h
    obtain ⟨p, q, -, rfl⟩ := Buffers.loadInput_eq_some.1 hb
    cases heq
    exact hc
  case testNull =>
    cases h
    dsimp only
    rw [if_neg (hnull rfl)]
    exact hc
  case popFront =>
    obtain ⟨b, hb, heq⟩ := Option.map_eq_some_iff.1 h
    cases heq
    exact hc.1
  case unlockNull | newBuffer | usedZero => exact hc.elim
  case waitInit | openDevices | testStop | testSec =>
    cases h
    dsimp only
    split <;> trivial
  case unlockInput | read | addBytes | lockFull | unlockFull =>
    obtain ⟨_, -, heq⟩ := Option.map_eq_some_iff.1 h
    cases heq
    trivial
  all_goals
    cases h
    trivial

theorem captures_step {c : RecorderConfig} {s s' : RecorderState} {a : RecorderAct}
    (hn : NonNull s) (hready : a.thread = some .main → s.main.pc = .lockInput →
      s.shared.buf.inputBuffers ≠ []) (hc : s.main.pc.Captures s.shared)
    (h : recorderStep c s a = some s') : s'.main.pc.Captures s'.shared := by
  cases a with
  | prep =>
    obtain ⟨⟨sh, f⟩, hf, rfl⟩ := Option.map_eq_some_iff.1 h
    refine hc.mono (lock_of_prepareBuffers hf) fun hne => ?_
    rw [inputBuffers_of_prepareBuffers hf]
    exact List.append_ne_nil_of_left_ne_nil hne _
  | main r =>
    obtain ⟨⟨sh, f⟩, hf, rfl⟩ := Option.map_eq_some_iff.1 h
    dsimp only
    rw [spawn_main, spawn_shared]
    refine captures_of_start (hready rfl) (fun hpc => hn.sndbuf .main ?_) hc hf
    simp [RecorderState.role, hpc, MainPc.role]
  | enc =>
    obtain ⟨⟨sh, f⟩, hf, rfl⟩ := Option.map_eq_some_iff.1 h
    refine hc.mono (fun hl => (lock_of_encode hf).trans hl) fun hne => ?_
    rw [inputBuffers_of_encode hf]
    exact hne
  | stop =>
    cases h
    exact hc

/-- What holds in a run of the recorder whose schedule supplies the loop. -/
structure InputSafe (x : RecorderState × List RecorderStep) : Prop where
  created : Created x.1
  nonNull : NonNull x.1
  balance : x.1.shared.buf.inputBuffers.length + x.2.countP isPop = x.2.countP isPush
  captures : x.1.main.pc.Captures x.1.shared

theorem inputSafe_of_reach {c : RecorderConfig} {x : RecorderState × List RecorderStep}
    (h : (recorder c).traced.Reach Supplied x) : InputSafe x := by
  refine h.invariant (fun x (hi : RecorderInit x.1 ∧ x.2 = []) => ?_) fun x a x' hI hG hs => ?_
  · obtain ⟨hinit, hnil⟩ := hi
    exact ⟨⟨fun _ => hinit.prep, fun _ => hinit.enc⟩, nonNull_init hinit,
      by rw [hinit.inputBuffers, hnil]; rfl, by rw [hinit.main]; trivial⟩
  · have hbalance := Machine.balance_step (fun s a s' => inputBuffers_step) hs hI.balance
    obtain ⟨s, hstep, rfl⟩ := Machine.traced_step_eq_some.1 hs
    refine ⟨created_step hI.created hstep, nonNull_step hI.created hI.nonNull hstep, hbalance,
      captures_step hI.nonNull (fun ht hpc => ?_) hI.captures hstep⟩
    -- more pushes than pops so far : what is left of them is in the deque
    have hlt := hG ht hpc
    have hsum := hI.balance
    exact List.ne_nil_of_length_pos (by omega)

/-- If, whenever the capture loop locks the mutex, `prepareBuffers` has pushed more buffers than
the loop has popped, the loop never takes the front of an empty `m_inputBuffers` and never
unlocks the mutex without holding it. -/
theorem recorder_input_safe {c : RecorderConfig} {x : RecorderState × List RecorderStep}
    (h : (recorder c).traced.Reach Supplied x) :
    (x.1.main.pc = .loadFront ∨ x.1.main.pc = .popFront → x.1.shared.buf.inputBuffers ≠ []) ∧
      (x.1.main.pc = .unlockNull ∨ x.1.main.pc = .unlockInput →
        x.1.shared.inputBuffersLock = some .main) := by
  have hc := (inputSafe_of_reach h).captures
  refine ⟨?_, ?_⟩ <;> rintro (hpc | hpc) <;> rw [hpc] at hc
  · exact hc.2
  · exact hc.2
  · exact hc.elim
  · exact hc

/-- The capture loop comes to the first of three prepared buffers, which is there. -/
theorem recorder_input_safe_mp3 : ∃ x, (recorder mp3Config).traced.Reach Supplied x ∧
    x.1.main.pc = .popFront ∧ x.2.countP isPush = 3 ∧ x.1.shared.buf.inputBuffers ≠ [] := by
  have hrun : ((recorder mp3Config).traced.run Supplied (freshRecorder, [])
      (untilRead.take 41)).map (fun x => (x.1.main.pc, x.2.countP isPush)) =
        some (.popFront, 3) := by
    decide +kernel
  obtain ⟨x, hx, heq⟩ := Option.map_eq_some_iff.1 hrun
  obtain ⟨hpc, hpushes⟩ := Prod.mk.inj heq
  have hstart : (recorder mp3Config).traced.Reach Supplied (freshRecorder, []) :=
    .start ⟨freshRecorder_init, rfl⟩
  have hreach := Machine.reach_of_run hstart hx
  exact ⟨x, hreach, hpc, hpushes, (recorder_input_safe hreach).1 (.inr hpc)⟩

/-- Three blocks are captured before `prepareBuffers` runs again : the capture loop comes to
`m_inputBuffers[0]` with the deque empty. -/
theorem recorder_takes_from_empty :
    ¬∀ (c : RecorderConfig) (s : RecorderState), (recorder c).Reach Machine.free s →
      (s.main.pc = .loadFront ∨ s.main.pc = .popFront → s.shared.buf.inputBuffers ≠ []) ∧
        (s.main.pc = .unlockNull ∨ s.main.pc = .unlockInput →
          s.shared.inputBuffersLock = some .main) := by
  intro h
  have hrun : ((recorder mp3Config).run Machine.free freshRecorder
      (untilRead ++ List.replicate 32 (.main (some [])))).map
      (fun s => (s.main.pc, s.shared.buf.inputBuffers)) = some (.loadFront, []) := by
    decide +kernel
  obtain ⟨s, hs, heq⟩ := Option.map_eq_some_iff.1 hrun
  obtain ⟨hpc, hnil⟩ := Prod.mk.inj heq
  have hsafe := h mp3Config s (Machine.reach_of_run (.start freshRecorder_init) hs)
  exact hsafe.1 (Or.inl hpc) hnil

end LxToolset
