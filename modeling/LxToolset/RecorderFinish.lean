import LxToolset.RecorderInput
import LxToolset.RecorderShutdown

/-!
# The recorder comes to its end

`m_fullBuffersLock` is held by the thread that is between its lock and its unlock
(`Exclusive`), and what a call of `shipToEncoder` has counted under it stays right. Once
`m_doneRecording` is set, each statement of `start` and of `encode` lowers `stepsLeft`, and
one of the two can always run until `start` returns (`recorder_finishes`) : there is no
deadlock, and no schedule that runs both again and again keeps `start` from its end.
-/

namespace LxToolset

/-! ## The mutex of the full buffers -/

/-- Between the lock and the unlock of `shipToEncoder`. -/
def ShipPc.locks : ShipPc → Bool
  | .size | .emptyTest | .emptyUnlock | .load | .pop | .unlock => true
  | _ => false

def MainPc.locks : MainPc → Bool
  | .pushFull | .unlockFull => true
  | .drain f => f.pc.locks
  | _ => false

def EncPc.locks : EncPc → Bool
  | .ship f => f.pc.locks
  | _ => false

/-- What a statement of thread `t` does to the mutex, and to whether `t` is to unlock it. -/
inductive LockStep (t : Thread) : Bool → Option Thread → Bool → Option Thread → Prop where
  | keep (b : Bool) (l : Option Thread) : LockStep t b l b l
  | lock : LockStep t false none true (some t)
  | unlock : LockStep t true (some t) false none

/-- The mutex is held by the thread that is to unlock it. -/
structure Exclusive (s : RecorderState) : Prop where
  main : s.main.pc.locks = true ↔ s.shared.fullBuffersLock = some .main
  enc : s.enc.pc.locks = true ↔ s.shared.fullBuffersLock = some .enc
  prep : s.shared.fullBuffersLock ≠ some .prep

theorem lockStep_of_shipToEncoder {t : Thread} {wanted : Bool} {f f' : ShipFrame} {s s' : Shared}
    (h : shipToEncoder t wanted f s = some (s', f')) :
    LockStep t f.pc.locks s.fullBuffersLock f'.pc.locks s'.fullBuffersLock := by
  obtain ⟨pc, lastSize, processed⟩ := f
  cases pc <;>
    simp only [shipToEncoder, Option.map_eq_some_iff, Option.some.injEq, Prod.mk.injEq,
      reduceCtorEq] at h
  case lock =>
    obtain ⟨s₁, hs, rfl, rfl⟩ := h
    obtain ⟨hnone, rfl⟩ := Shared.lockFull_eq_some.1 hs
    rw [hnone]
    exact .lock
  case emptyUnlock | unlock =>
    obtain ⟨s₁, hs, rfl, rfl⟩ := h
    obtain ⟨hheld, rfl⟩ := Shared.unlockFull_eq_some.1 hs
    rw [hheld]
    exact .unlock
  case emptyTest =>
    obtain ⟨rfl, rfl⟩ := h
    dsimp only
    split <;> exact .keep _ _
  case load | pop | write =>
    obtain ⟨b, -, rfl, rfl⟩ := h
    exact .keep _ _
  case setProcessed =>
    split_ifs at h
    · obtain ⟨n, -, heq⟩ := Option.map_eq_some_iff.1 h
      cases heq
      exact .keep _ _
    · cases h
      exact .keep _ _
  all_goals
    obtain ⟨rfl, rfl⟩ := h
    exact .keep _ _

theorem lockStep_of_encode {c : RecorderConfig} {f f' : EncFrame} {s s' : Shared}
    (h : encode c f s = some (s', f')) :
    LockStep .enc f.pc.locks s.fullBuffersLock f'.pc.locks s'.fullBuffersLock := by
  obtain ⟨pc, lastSize, bytesProcessed, processed⟩ := f
  cases pc
  case ship g =>
    obtain ⟨hret, rfl, rfl⟩ | ⟨g', hg, rfl⟩ := encode_ship h
    · obtain ⟨pc, n, p⟩ := g
      cases hret
      exact .keep _ _
    · exact lockStep_of_shipToEncoder hg
  case notCreated | exited => cases h
  case whileTest | testBytes | testSize =>
    cases h
    dsimp only
    split <;> exact .keep _ _
  all_goals
    cases h
    exact .keep _ _

theorem lockStep_of_start {c : RecorderConfig} {r : Option Block} {exited : Bool}
    {f f' : MainFrame} {s s' : Shared} (h : start c r exited f s = some (s', f')) :
    LockStep .main f.pc.locks s.fullBuffersLock f'.pc.locks s'.fullBuffersLock := by
  obtain ⟨pc, total, bytesRead⟩ := f
  cases pc
  case drain g =>
    obtain ⟨hret, rfl, rfl⟩ | ⟨g', hg, rfl⟩ := start_drain h
    · obtain ⟨pc, n, p⟩ := g
      cases hret
      dsimp only
      split <;> exact .keep _ _
    · exact lockStep_of_shipToEncoder hg
  case returned => cases h
  case join =>
    cases exited <;> cases h
    exact .keep _ _
  case waitInit | openDevices | testNull | testStop | testSec =>
    cases h
    dsimp only
    split <;> exact .keep _ _
  case lockFull =>
    obtain ⟨s₁, hs, heq⟩ := Option.map_eq_some_iff.1 h
    obtain ⟨hnone, rfl⟩ := Shared.lockFull_eq_some.1 hs
    cases heq
    rw [hnone]
    exact .lock
  case unlockFull =>
    obtain ⟨s₁, hs, heq⟩ := Option.map_eq_some_iff.1 h
    obtain ⟨hheld, rfl⟩ := Shared.unlockFull_eq_some.1 hs
    cases heq
    rw [hheld]
    exact .unlock
  case lockInput =>
    obtain ⟨s₁, hs, heq⟩ := Option.map_eq_some_iff.1 h
    obtain ⟨-, rfl⟩ := Shared.lockInput_eq_some.1 hs
    cases heq
    exact .keep _ _
  case unlockNull | unlockInput =>
    obtain ⟨s₁, hs, heq⟩ := Option.map_eq_some_iff.1 h
    obtain ⟨-, rfl⟩ := Shared.unlockInput_eq_some.1 hs
    cases heq
    exact .keep _ _
  case loadFront | usedZero | popFront | read | addBytes =>
    obtain ⟨_, -, heq⟩ := Option.map_eq_some_iff.1 h
    cases heq
    exact .keep _ _
  all_goals
    cases h
    exact .keep _ _

theorem fullBuffersLock_of_prepareBuffers {c : RecorderConfig} {f f' : PrepFrame} {s s' : Shared}
    (h : prepareBuffers c f s = some (s', f')) : s'.fullBuffersLock = s.fullBuffersLock := by
  obtain ⟨pc, onesecond, i, sz⟩ := f
  cases pc <;>
    simp only [prepareBuffers, Option.map_eq_some_iff, Option.some.injEq, Prod.mk.injEq,
      reduceCtorEq] at h
  case memset =>
    obtain ⟨b, -, rfl, -⟩ := h
    rfl
  case pushLock | sizeLock =>
    obtain ⟨s₁, hs, rfl, -⟩ := h
    obtain ⟨-, rfl⟩ := Shared.lockInput_eq_some.1 hs
    rfl
  case pushUnlock | sizeUnlock =>
    obtain ⟨s₁, hs, rfl, -⟩ := h
    obtain ⟨-, rfl⟩ := Shared.unlockInput_eq_some.1 hs
    rfl
  all_goals
    obtain ⟨rfl, -⟩ := h
    rfl

theorem LockStep.own {t : Thread} {b b' : Bool} {l l' : Option Thread} (h : LockStep t b l b' l')
    (hb : b = true ↔ l = some t) : b' = true ↔ l' = some t := by
  cases h with
  | keep => exact hb
  | lock | unlock => simp

theorem LockStep.other {t u : Thread} {b b' : Bool} {l l' : Option Thread}
    (h : LockStep t b l b' l') (hu : u ≠ t) : l' = some u ↔ l = some u := by
  cases h with
  | keep => rfl
  | lock | unlock => simp [hu.symm]

theorem spawn_enc_locks {pc : MainPc} (s : RecorderState)
    (he : pc.beforeEnc = true → s.enc.pc = .notCreated) :
    (spawn pc s).enc.pc.locks = s.enc.pc.locks := by
  cases pc <;> try rfl
  case createEncode =>
    rw [he rfl]
    rfl

theorem exclusive_init {s : RecorderState} (h : RecorderInit s) : Exclusive s := by
  refine ⟨?_, ?_, ?_⟩ <;> simp [h.main, h.enc, h.fullBuffersLock, MainPc.locks, EncPc.locks]

theorem exclusive_step {c : RecorderConfig} {s s' : RecorderState} {a : RecorderAct}
    (hc : Created s) (he : Exclusive s) (h : recorderStep c s a = some s') : Exclusive s' := by
  obtain ⟨main, enc, prep⟩ := he
  cases a with
  | prep =>
    obtain ⟨⟨sh, f⟩, hf, rfl⟩ := Option.map_eq_some_iff.1 h
    have hlock := fullBuffersLock_of_prepareBuffers hf
    refine ⟨?_, ?_, ?_⟩ <;> rw [hlock] <;> assumption
  | main r =>
    obtain ⟨⟨sh, f⟩, hf, rfl⟩ := Option.map_eq_some_iff.1 h
    have hlock := lockStep_of_start hf
    have hspawn := spawn_enc_locks { s with shared := sh, main := f } hc.enc
    refine ⟨?_, ?_, ?_⟩ <;> dsimp only <;> rw [spawn_shared]
    · rw [spawn_main]
      exact hlock.own main
    · rw [hspawn, hlock.other (by decide)]
      exact enc
    · rw [ne_eq, hlock.other (by decide)]
      exact prep
  | enc =>
    obtain ⟨⟨sh, f⟩, hf, rfl⟩ := Option.map_eq_some_iff.1 h
    have hlock := lockStep_of_encode hf
    refine ⟨?_, hlock.own enc, ?_⟩
    · rw [hlock.other (by decide)]
      exact main
    · rw [ne_eq, hlock.other (by decide)]
      exact prep
  | stop =>
    cases h
    exact ⟨main, enc, prep⟩

/-! ## What is counted under the mutex -/

/-- What a call of `shipToEncoder` knows of the `n` full buffers. -/
def ShipFrame.Counted (f : ShipFrame) (n : ℕ) : Prop :=
  match f.pc with
  | .emptyTest => f.lastSize = n
  | .load | .pop => f.lastSize = n ∧ n ≠ 0
  | .emptyUnlock | .emptyProcessed => f.lastSize = 0
  | _ => True

/-- Only a thread with the mutex changes the full buffers. -/
theorem ShipFrame.Counted.mono {f : ShipFrame} {n n' : ℕ} (h : f.Counted n)
    (hn : f.pc.locks = true → n' = n) : f.Counted n' := by
  obtain ⟨pc, lastSize, processed⟩ := f
  cases pc <;> first | trivial | exact h | exact hn rfl ▸ h

theorem counted_of_shipToEncoder {t : Thread} {wanted : Bool} {f f' : ShipFrame} {s s' : Shared}
    (h : shipToEncoder t wanted f s = some (s', f')) (hf : f.Counted s.buf.fullBuffers.length) :
    f'.Counted s'.buf.fullBuffers.length := by
  obtain ⟨pc, lastSize, processed⟩ := f
  cases pc <;>
    simp only [shipToEncoder, Option.map_eq_some_iff, Option.some.injEq, Prod.mk.injEq,
      reduceCtorEq] at h
  case size =>
    obtain ⟨rfl, rfl⟩ := h
    rfl
  case emptyTest =>
    obtain ⟨rfl, rfl⟩ := h
    simp only [ShipFrame.Counted] at hf ⊢
    split_ifs with h0
    · exact h0
    · exact ⟨hf, hf ▸ h0⟩
  case lock | emptyUnlock | load | pop | unlock | write =>
    obtain ⟨b, hb, rfl, rfl⟩ := h
    first
    | trivial
    | exact hf
    | obtain ⟨p, q, -, rfl⟩ := Buffers.loadFull_eq_some.1 hb
      exact hf
  case setProcessed =>
    split_ifs at h
    · obtain ⟨n, -, heq⟩ := Option.map_eq_some_iff.1 h
      cases heq
      trivial
    · cases h
      trivial
  all_goals
    obtain ⟨rfl, rfl⟩ := h
    trivial

theorem Buffers.store_fullBuffers {b b' : Buffers} {v : SndBuffer} (h : b.store v = some b') :
    b'.fullBuffers = b.fullBuffers := by
  obtain ⟨-, rfl⟩ := Buffers.store_eq_some.1 h
  rfl

theorem ShipPc.role_of_not_locks {pc : ShipPc} (h : pc.locks = false) :
    pc.role ≠ .filled ∧ pc.role ≠ .outFront := by
  revert h
  cases pc <;> decide

theorem fullBuffers_of_encode {c : RecorderConfig} {f f' : EncFrame} {s s' : Shared}
    (hl : f.pc.locks = false) (h : encode c f s = some (s', f')) :
    s'.buf.fullBuffers = s.buf.fullBuffers := by
  have hrole : f.pc.role ≠ .filled ∧ f.pc.role ≠ .outFront := by
    cases hpc : f.pc with
    | ship g =>
      rw [hpc] at hl
      exact ShipPc.role_of_not_locks hl
    | _ => simp [EncPc.role]
  exact (effect_of_encode h).fullBuffers_eq hrole.1 hrole.2

theorem fullBuffers_of_start {c : RecorderConfig} {r : Option Block} {exited : Bool}
    {f f' : MainFrame} {s s' : Shared} (hl : f.pc.locks = false)
    (h : start c r exited f s = some (s', f')) : s'.buf.fullBuffers = s.buf.fullBuffers := by
  by_cases hfilled : f.pc.role = .filled
  · obtain ⟨pc, total, bytesRead⟩ := f
    cases pc
    case addBytes =>
      obtain ⟨n, -, heq⟩ := Option.map_eq_some_iff.1 h
      cases heq
      rfl
    case lockFull =>
      obtain ⟨s₁, hs, heq⟩ := Option.map_eq_some_iff.1 h
      cases heq
      rw [Shared.lockFull_buf hs]
    case pushFull => cases hl
    case drain g =>
      obtain ⟨pc, n, p⟩ := g
      cases pc <;> cases hfilled
    all_goals cases hfilled
  · have hfront : f.pc.role ≠ .outFront := by
      cases hpc : f.pc with
      | drain g =>
        rw [hpc] at hl
        exact (ShipPc.role_of_not_locks hl).2
      | _ => simp [MainPc.role]
    by_cases hread : f.pc = .read ∧ r = none
    · obtain ⟨pc, total, bytesRead⟩ := f
      obtain ⟨rfl, rfl⟩ := hread
      obtain ⟨b, hb, heq⟩ := Option.map_eq_some_iff.1 h
      cases heq
      exact Buffers.store_fullBuffers (Buffers.store_of_readDsp_none hb)
    · have hr : f.pc = .read → r ≠ none := fun hpc hnone => hread ⟨hpc, hnone⟩
      exact (effect_of_start hr h).fullBuffers_eq hfilled hfront

/-- `m_pSndbuf` does not become NULL again. -/
theorem sndbuf_step {c : RecorderConfig} {s s' : RecorderState} {a : RecorderAct}
    (hn : NonNull s) (h : recorderStep c s a = some s') (hne : s.shared.buf.sndbuf ≠ 0) :
    s'.shared.buf.sndbuf ≠ 0 := by
  cases ht : a.thread with
  | none =>
    cases a <;> cases ht
    cases h
    exact hne
  | some t =>
    rcases effect_or_readError_of_step ht h with heff | ⟨rfl, -, -, v, hv⟩
    · exact (heff.nonNull hn.live hn.fresh (hn.sndbuf t)).2.2 (Or.inr hne)
    · obtain ⟨hne', heq⟩ := Buffers.store_eq_some.1 hv
      rw [heq]
      exact hne'

/-! ## The invariant -/

/-- `start` is past its capture loop. -/
def MainPc.finishing : MainPc → Bool
  | .closeDsp | .join | .drain _ | .pclose | .returned => true
  | _ => false

structure Steady (s : RecorderState) : Prop where
  created : Created s
  nonNull : NonNull s
  exclusive : Exclusive s
  main : ∀ f, s.main.pc = .drain f → f.Counted s.shared.buf.fullBuffers.length
  enc : ∀ f, s.enc.pc = .ship f → f.Counted s.shared.buf.fullBuffers.length ∧
    (f.pc = .setProcessed → s.shared.buf.sndbuf ≠ 0)
  encCreated : s.main.pc.beforeEnc = false → s.main.pc ≠ .returned → s.enc.pc ≠ .notCreated
  done : s.shared.doneRecording = true → s.main.pc.finishing = true

theorem steady_init {s : RecorderState} (h : RecorderInit s) : Steady s where
  created := ⟨fun _ => h.prep, fun _ => h.enc⟩
  nonNull := nonNull_init h
  exclusive := exclusive_init h
  main := by simp [h.main]
  enc := by simp [h.enc]
  encCreated := by simp [h.main, MainPc.beforeEnc]
  done := by simp [h.doneRecording]

theorem ship_of_encode {c : RecorderConfig} {f f' : EncFrame} {s s' : Shared} {g' : ShipFrame}
    (h : encode c f s = some (s', f')) (hg : f'.pc = .ship g') :
    g'.pc = .lock ∨ ∃ g, f.pc = .ship g ∧ shipToEncoder .enc true g s = some (s', g') := by
  obtain ⟨pc, lastSize, bytesProcessed, processed⟩ := f
  cases pc
  case ship g =>
    obtain ⟨-, -, rfl⟩ | ⟨g₁, hg₁, rfl⟩ := encode_ship h
    · cases hg
    · cases hg
      exact Or.inr ⟨g, rfl, hg₁⟩
  case whileTest =>
    cases h
    dsimp only at hg
    split at hg <;> cases hg
    exact Or.inl rfl
  case notCreated | exited => cases h
  case testBytes | testSize =>
    cases h
    dsimp only at hg
    split at hg <;> cases hg
  all_goals
    cases h
    cases hg

theorem drain_of_start {c : RecorderConfig} {r : Option Block} {exited : Bool}
    {f f' : MainFrame} {s s' : Shared} {g' : ShipFrame}
    (h : start c r exited f s = some (s', f')) (hg : f'.pc = .drain g') :
    g'.pc = .lock ∨ ∃ g, f.pc = .drain g ∧ shipToEncoder .main false g s = some (s', g') := by
  obtain ⟨pc, total, bytesRead⟩ := f
  cases pc
  case drain g =>
    obtain ⟨-, -, rfl⟩ | ⟨g₁, hg₁, rfl⟩ := start_drain h
    · dsimp only at hg
      split at hg <;> cases hg
      exact Or.inl rfl
    · cases hg
      exact Or.inr ⟨g, rfl, hg₁⟩
  case join =>
    cases exited <;> cases h
    cases hg
    exact Or.inl rfl
  case returned => cases h
  case waitInit | openDevices | testNull | testStop | testSec =>
    cases h
    dsimp only at hg
    split at hg <;> cases hg
  case lockInput | loadFront | unlockNull | usedZero | popFront | unlockInput | read | addBytes |
      lockFull | unlockFull =>
    obtain ⟨_, -, heq⟩ := Option.map_eq_some_iff.1 h
    cases heq
    cases hg
  all_goals
    cases h
    cases hg

theorem ShipFrame.counted_lock {f : ShipFrame} (h : f.pc = .lock) (n : ℕ) : f.Counted n := by
  rw [ShipFrame.Counted, h]
  trivial

theorem sndbuf_of_ship {t : Thread} {wanted : Bool} {f f' : ShipFrame} {s s' : Shared}
    (h : shipToEncoder t wanted f s = some (s', f')) (hpc : f'.pc = .setProcessed) :
    s'.buf.sndbuf ≠ 0 := by
  obtain ⟨pc, lastSize, processed⟩ := f
  cases pc <;>
    simp only [shipToEncoder, Option.map_eq_some_iff, Option.some.injEq, Prod.mk.injEq,
      reduceCtorEq] at h
  case write =>
    obtain ⟨b, hb, rfl, rfl⟩ := h
    obtain ⟨hne, rfl⟩ := Buffers.write_eq_some.1 hb
    exact hne
  case emptyTest =>
    obtain ⟨rfl, rfl⟩ := h
    dsimp only at hpc
    split at hpc <;> cases hpc
  case setProcessed =>
    split_ifs at h
    · obtain ⟨n, -, heq⟩ := Option.map_eq_some_iff.1 h
      cases heq
      cases hpc
    · cases h
      cases hpc
  case lock | emptyUnlock | load | pop | unlock =>
    obtain ⟨b, -, rfl, rfl⟩ := h
    cases hpc
  all_goals
    obtain ⟨rfl, rfl⟩ := h
    cases hpc

/-- Only `start` sets `m_doneRecording`, as the last statement of its capture. -/
theorem finishing_of_start {c : RecorderConfig} {r : Option Block} {exited : Bool}
    {f f' : MainFrame} {s s' : Shared} (h : start c r exited f s = some (s', f'))
    (hf : s.doneRecording = true → f.pc.finishing = true) :
    (s.doneRecording = true → s'.doneRecording = true) ∧
      (s'.doneRecording = true → f'.pc.finishing = true) := by
  obtain ⟨pc, total, bytesRead⟩ := f
  have hkeep : ∀ {s' : Shared} {pc' : MainPc}, s'.doneRecording = s.doneRecording →
      (pc.finishing = true → pc'.finishing = true) →
      (s.doneRecording = true → s'.doneRecording = true) ∧
        (s'.doneRecording = true → pc'.finishing = true) := by
    intro s' pc' hdone hpc
    rw [hdone]
    exact ⟨id, fun hd => hpc (hf hd)⟩
  cases pc
  case drain g =>
    obtain ⟨-, rfl, rfl⟩ | ⟨g₁, hg₁, rfl⟩ := start_drain h
    · dsimp only
      split <;> exact hkeep rfl fun _ => rfl
    · have hframe := congrArg Shared.doneRecording (frame_of_shipToEncoder hg₁)
      exact hkeep hframe fun _ => rfl
  case join =>
    cases exited <;> cases h
    exact hkeep rfl fun _ => rfl
  case doneOn =>
    cases h
    exact ⟨fun _ => rfl, fun _ => rfl⟩
  case closeDsp | pclose =>
    cases h
    exact hkeep rfl fun _ => rfl
  case returned => cases h
  case waitInit | openDevices | testNull | testStop | testSec =>
    cases h
    exact hkeep rfl nofun
  case lockInput =>
    obtain ⟨_, hs, heq⟩ := Option.map_eq_some_iff.1 h
    obtain ⟨-, rfl⟩ := Shared.lockInput_eq_some.1 hs
    cases heq
    exact hkeep rfl nofun
  case unlockNull | unlockInput =>
    obtain ⟨_, hs, heq⟩ := Option.map_eq_some_iff.1 h
    obtain ⟨-, rfl⟩ := Shared.unlockInput_eq_some.1 hs
    cases heq
    exact hkeep rfl nofun
  case lockFull =>
    obtain ⟨_, hs, heq⟩ := Option.map_eq_some_iff.1 h
    obtain ⟨-, rfl⟩ := Shared.lockFull_eq_some.1 hs
    cases heq
    exact hkeep rfl nofun
  case unlockFull =>
    obtain ⟨_, hs, heq⟩ := Option.map_eq_some_iff.1 h
    obtain ⟨-, rfl⟩ := Shared.unlockFull_eq_some.1 hs
    cases heq
    exact hkeep rfl nofun
  case loadFront | usedZero | popFront | read | addBytes =>
    obtain ⟨_, -, heq⟩ := Option.map_eq_some_iff.1 h
    cases heq
    exact hkeep rfl nofun
  all_goals
    cases h
    exact hkeep rfl nofun

theorem doneRecording_of_prepareBuffers {c : RecorderConfig} {f f' : PrepFrame} {s s' : Shared}
    (h : prepareBuffers c f s = some (s', f')) : s'.doneRecording = s.doneRecording := by
  obtain ⟨pc, onesecond, i, sz⟩ := f
  cases pc <;>
    simp only [prepareBuffers, Option.map_eq_some_iff, Option.some.injEq, Prod.mk.injEq,
      reduceCtorEq] at h
  case memset =>
    obtain ⟨b, -, rfl, -⟩ := h
    rfl
  case pushLock | sizeLock =>
    obtain ⟨s₁, hs, rfl, -⟩ := h
    obtain ⟨-, rfl⟩ := Shared.lockInput_eq_some.1 hs
    rfl
  case pushUnlock | sizeUnlock =>
    obtain ⟨s₁, hs, rfl, -⟩ := h
    obtain ⟨-, rfl⟩ := Shared.unlockInput_eq_some.1 hs
    rfl
  all_goals
    obtain ⟨rfl, -⟩ := h
    rfl

theorem doneRecording_of_encode {c : RecorderConfig} {f f' : EncFrame} {s s' : Shared}
    (h : encode c f s = some (s', f')) : s'.doneRecording = s.doneRecording := by
  obtain ⟨pc, lastSize, bytesProcessed, processed⟩ := f
  cases pc
  case ship g =>
    obtain ⟨-, rfl, -⟩ | ⟨g', hg, -⟩ := encode_ship h
    · rfl
    · have hframe := congrArg Shared.doneRecording (frame_of_shipToEncoder hg)
      exact hframe
  case notCreated | exited => cases h
  all_goals
    cases h
    rfl

theorem created_of_encode {c : RecorderConfig} {f f' : EncFrame} {s s' : Shared}
    (h : encode c f s = some (s', f')) : f'.pc ≠ .notCreated := by
  obtain ⟨pc, lastSize, bytesProcessed, processed⟩ := f
  cases pc
  case ship g =>
    obtain ⟨-, -, rfl⟩ | ⟨g', -, rfl⟩ := encode_ship h <;> nofun
  case notCreated | exited => cases h
  case whileTest | testBytes | testSize =>
    cases h
    dsimp only
    split <;> nofun
  all_goals
    cases h
    nofun

/-- `start` comes past the creation of the encode thread by creating it. -/
theorem beforeEnc_of_start {c : RecorderConfig} {r : Option Block} {exited : Bool}
    {f f' : MainFrame} {s s' : Shared} (h : start c r exited f s = some (s', f'))
    (hb : f'.pc.beforeEnc = false) (hret : f'.pc ≠ .returned) :
    f.pc = .createEncode ∨ f.pc.beforeEnc = false ∧ f.pc ≠ .returned := by
  obtain ⟨pc, total, bytesRead⟩ := f
  cases pc
  case createEncode => exact Or.inl rfl
  case openDevices =>
    cases h
    dsimp only at hb hret
    split at hb
    · cases hb
    · rw [if_neg ‹_›] at hret
      exact absurd rfl hret
  case waitInit =>
    cases h
    dsimp only at hb
    split at hb <;> cases hb
  case setHeader | createPrep | setTotal | recordingOn | writeHeader =>
    cases h
    cases hb
  case returned => cases h
  all_goals exact Or.inr ⟨rfl, nofun⟩

theorem spawn_ship {pc : MainPc} {s : RecorderState} {g : ShipFrame}
    (h : (spawn pc s).enc.pc = .ship g) : s.enc.pc = .ship g := by
  by_cases hpc : pc = .createEncode
  · rw [hpc] at h
    cases h
  · rwa [spawn_enc s hpc] at h

theorem spawn_created {pc : MainPc} {s : RecorderState}
    (h : pc = .createEncode ∨ s.enc.pc ≠ .notCreated) : (spawn pc s).enc.pc ≠ .notCreated := by
  by_cases hpc : pc = .createEncode
  · rw [hpc]
    nofun
  · rw [spawn_enc s hpc]
    exact h.resolve_left hpc

theorem steady_step {c : RecorderConfig} {s s' : RecorderState} {a : RecorderAct}
    (hs : Steady s) (h : recorderStep c s a = some s') : Steady s' := by
  have hcreated := created_step hs.created h
  have hnonNull := nonNull_step hs.created hs.nonNull h
  have hexclusive := exclusive_step hs.created hs.exclusive h
  have hsndbuf := sndbuf_step hs.nonNull h
  cases a with
  | prep =>
    obtain ⟨⟨sh, f⟩, hf, rfl⟩ := Option.map_eq_some_iff.1 h
    have hrole : s.prep.pc.role ≠ .filled ∧ s.prep.pc.role ≠ .outFront := by
      cases s.prep.pc <;> simp [PrepPc.role]
    have hfull := (effect_of_prepareBuffers hf).fullBuffers_eq hrole.1 hrole.2
    refine ⟨hcreated, hnonNull, hexclusive, fun g hg => ?_, fun g hg => ⟨?_, fun hpc => ?_⟩,
      hs.encCreated, ?_⟩
    · dsimp only
      rw [hfull]
      exact hs.main g hg
    · dsimp only
      rw [hfull]
      exact (hs.enc g hg).1
    · exact hsndbuf ((hs.enc g hg).2 hpc)
    · dsimp only
      rw [doneRecording_of_prepareBuffers hf]
      exact hs.done
  | main r =>
    obtain ⟨⟨sh, f⟩, hf, rfl⟩ := Option.map_eq_some_iff.1 h
    refine ⟨hcreated, hnonNull, hexclusive, fun g hg => ?_, fun g hg => ⟨?_, fun hpc => ?_⟩,
      fun hb hret => ?_, ?_⟩ <;> dsimp only at *
    · rw [spawn_main] at hg
      rw [spawn_shared]
      rcases drain_of_start hf hg with hlock | ⟨g₀, hg₀, hship⟩
      · exact ShipFrame.counted_lock hlock _
      · exact counted_of_shipToEncoder hship (hs.main g₀ hg₀)
    · have hg₀ := spawn_ship hg
      rw [spawn_shared]
      refine (hs.enc g hg₀).1.mono fun hl => ?_
      have henc : s.shared.fullBuffersLock = some .enc :=
        hs.exclusive.enc.1 (by rw [hg₀]; exact hl)
      have hmain : s.main.pc.locks = false := by
        rw [Bool.eq_false_iff, ne_eq, hs.exclusive.main, henc]
        decide
      exact congrArg List.length (fullBuffers_of_start hmain hf)
    · have hg₀ := spawn_ship hg
      exact hsndbuf ((hs.enc g hg₀).2 hpc)
    · rw [spawn_main] at hb hret
      refine spawn_created ?_
      rcases beforeEnc_of_start hf hb hret with hpc | ⟨hb₀, hret₀⟩
      · exact Or.inl hpc
      · exact Or.inr (hs.encCreated hb₀ hret₀)
    · rw [spawn_main, spawn_shared]
      exact (finishing_of_start hf hs.done).2
  | enc =>
    obtain ⟨⟨sh, f⟩, hf, rfl⟩ := Option.map_eq_some_iff.1 h
    refine ⟨hcreated, hnonNull, hexclusive, fun g hg => ?_, fun g hg => ⟨?_, fun hpc => ?_⟩,
      fun _ _ => created_of_encode hf, ?_⟩
    · refine (hs.main g hg).mono fun hl => ?_
      -- `start` holds the mutex, so the encode thread does not
      have hmain : s.shared.fullBuffersLock = some .main :=
        hs.exclusive.main.1 (by rw [hg]; exact hl)
      have henc : s.enc.pc.locks = false := by
        rw [Bool.eq_false_iff, ne_eq, hs.exclusive.enc, hmain]
        decide
      exact congrArg List.length (fullBuffers_of_encode henc hf)
    · rcases ship_of_encode hf hg with hlock | ⟨g₀, hg₀, hship⟩
      · exact ShipFrame.counted_lock hlock _
      · exact counted_of_shipToEncoder hship (hs.enc g₀ hg₀).1
    · rcases ship_of_encode hf hg with hlock | ⟨g₀, -, hship⟩
      · rw [hlock] at hpc
        cases hpc
      · exact sndbuf_of_ship hship hpc
    · dsimp only
      rw [doneRecording_of_encode hf]
      exact hs.done
  | stop =>
    cases h
    exact ⟨hcreated, hnonNull, hexclusive, hs.main, hs.enc, hs.encCreated, hs.done⟩

/-! ## Progress -/

/-- What a call of `shipToEncoder` in thread `t` needs to go on. -/
structure ShipFrame.Ready (f : ShipFrame) (t : Thread) (wanted : Bool) (s : Shared) : Prop where
  free : f.pc = .lock → s.fullBuffersLock = none
  held : f.pc.locks = true → s.fullBuffersLock = some t
  counted : f.Counted s.buf.fullBuffers.length
  buffer : f.pc = .write ∨ f.pc = .setProcessed ∧ wanted = true → s.buf.sndbuf ≠ 0

theorem shipToEncoder_isSome {t : Thread} {wanted : Bool} {f : ShipFrame} {s : Shared}
    (h : f.Ready t wanted s) (hret : f.pc ≠ .ret) : (shipToEncoder t wanted f s).isSome := by
  obtain ⟨free, held, counted, buffer⟩ := h
  obtain ⟨pc, lastSize, processed⟩ := f
  cases pc
  case lock => simp [shipToEncoder, Shared.lockFull, free rfl]
  case emptyUnlock | unlock => simp [shipToEncoder, Shared.unlockFull, held rfl]
  case load =>
    obtain ⟨p, q, hq⟩ := List.length_pos_iff_exists_cons.1 (Nat.pos_of_ne_zero counted.2)
    simp [shipToEncoder, Buffers.loadFull, hq]
  case pop =>
    have hne : s.buf.fullBuffers ≠ [] := List.ne_nil_of_length_pos (Nat.pos_of_ne_zero counted.2)
    simp [shipToEncoder, Buffers.popFull, hne]
  case write => simp [shipToEncoder, Buffers.write, buffer (Or.inl rfl)]
  case setProcessed =>
    simp only [shipToEncoder]
    split_ifs with hwanted
    · simp [Buffers.used, buffer (Or.inr ⟨rfl, hwanted⟩)]
    · rfl
  case ret => exact absurd rfl hret
  all_goals rfl

theorem encode_isSome {c : RecorderConfig} {f : EncFrame} {s : Shared}
    (h : ∀ g, f.pc = .ship g → g.Ready .enc true s) (hcreated : f.pc ≠ .notCreated)
    (hexited : f.pc ≠ .exited) : (encode c f s).isSome := by
  obtain ⟨pc, lastSize, bytesProcessed, processed⟩ := f
  cases pc
  case ship g =>
    by_cases hret : g.pc = .ret
    · obtain ⟨pc, n, p⟩ := g
      cases hret
      rfl
    · have hship := shipToEncoder_isSome (h g rfl) hret
      have hcall : encode c ⟨.ship g, lastSize, bytesProcessed, processed⟩ s =
          (shipToEncoder .enc true g s).map fun p =>
            (p.1, ⟨.ship p.2, lastSize, bytesProcessed, processed⟩) := by
        obtain ⟨pc, n, p⟩ := g
        cases pc <;> first | rfl | exact absurd rfl hret
      rw [hcall, Option.isSome_map]
      exact hship
  case notCreated => exact absurd rfl hcreated
  case exited => exact absurd rfl hexited
  all_goals rfl

theorem start_isSome {c : RecorderConfig} {r : Option Block} {exited : Bool} {f : MainFrame}
    {s : Shared} (hfinishing : f.pc.finishing = true)
    (h : ∀ g, f.pc = .drain g → g.Ready .main false s) (hjoin : f.pc = .join → exited = true)
    (hreturned : f.pc ≠ .returned) : (start c r exited f s).isSome := by
  obtain ⟨pc, total, bytesRead⟩ := f
  cases pc
  case drain g =>
    by_cases hret : g.pc = .ret
    · obtain ⟨pc, n, p⟩ := g
      cases hret
      rfl
    · have hship := shipToEncoder_isSome (h g rfl) hret
      have hcall : start c r exited ⟨.drain g, total, bytesRead⟩ s =
          (shipToEncoder .main false g s).map fun p =>
            (p.1, ⟨.drain p.2, total, bytesRead⟩) := by
        obtain ⟨pc, n, p⟩ := g
        cases pc <;> first | rfl | exact absurd rfl hret
      rw [hcall, Option.isSome_map]
      exact hship
  case join =>
    rw [hjoin rfl]
    rfl
  case closeDsp | pclose => rfl
  case returned => exact absurd rfl hreturned
  all_goals cases hfinishing

theorem Steady.enc_ready {s : RecorderState} (hs : Steady s)
    (hlock : s.shared.fullBuffersLock ≠ some .main) :
    ∀ g, s.enc.pc = .ship g → g.Ready .enc true s.shared := by
  intro g hg
  have hlocks : g.pc.locks = true ↔ s.shared.fullBuffersLock = some .enc := by
    have henc := hs.exclusive.enc
    rwa [hg] at henc
  refine ⟨fun hpc => ?_, hlocks.1, (hs.enc g hg).1, ?_⟩
  · rw [hpc] at hlocks
    rcases hl : s.shared.fullBuffersLock with - | (_ | _ | _)
    · rfl
    · exact absurd hl hs.exclusive.prep
    · exact absurd hl hlock
    · exact absurd (hlocks.2 hl) (by decide)
  · rintro (hpc | ⟨hpc, -⟩)
    · exact hs.nonNull.sndbuf .enc (by simp [RecorderState.role, hg, EncPc.role, hpc, ShipPc.role])
    · exact (hs.enc g hg).2 hpc

theorem Steady.main_ready {s : RecorderState} (hs : Steady s)
    (hlock : s.shared.fullBuffersLock ≠ some .enc) :
    ∀ g, s.main.pc = .drain g → g.Ready .main false s.shared := by
  intro g hg
  have hlocks : g.pc.locks = true ↔ s.shared.fullBuffersLock = some .main := by
    have hmain := hs.exclusive.main
    rwa [hg] at hmain
  refine ⟨fun hpc => ?_, hlocks.1, hs.main g hg, ?_⟩
  · rw [hpc] at hlocks
    rcases hl : s.shared.fullBuffersLock with - | (_ | _ | _)
    · rfl
    · exact absurd hl hs.exclusive.prep
    · exact absurd (hlocks.2 hl) (by decide)
    · exact absurd hl hlock
  · rintro (hpc | ⟨-, hwanted⟩)
    · exact hs.nonNull.sndbuf .main
        (by simp [RecorderState.role, hg, MainPc.role, hpc, ShipPc.role])
    · cases hwanted

/-- Until `start` has returned, it or the encode thread has a statement to run. -/
theorem Steady.progress {c : RecorderConfig} {s : RecorderState} (hs : Steady s)
    (hdone : s.shared.doneRecording = true) (hpc : s.main.pc ≠ .returned) :
    (∀ r, (recorderStep c s (.main r)).isSome) ∨ (recorderStep c s .enc).isSome := by
  have hfinishing := hs.done hdone
  have hbefore : s.main.pc.beforeEnc = false := by
    cases hm : s.main.pc <;> rw [hm] at hfinishing <;> first | rfl | cases hfinishing
  have hcreated := hs.encCreated hbefore hpc
  by_cases hmain : s.shared.fullBuffersLock = some .main
  · have hlocks := hs.exclusive.main.2 hmain
    refine Or.inl fun r => ?_
    rw [recorderStep, Option.isSome_map]
    refine start_isSome hfinishing (hs.main_ready (by rw [hmain]; decide)) (fun hjoin => ?_) hpc
    rw [hjoin] at hlocks
    cases hlocks
  · by_cases hexited : s.enc.pc = .exited
    · have hfree : s.shared.fullBuffersLock ≠ some .enc := by
        rw [ne_eq, ← hs.exclusive.enc, hexited]
        decide
      refine Or.inl fun r => ?_
      rw [recorderStep, Option.isSome_map]
      exact start_isSome hfinishing (hs.main_ready hfree) (fun _ => by rw [hexited]; rfl) hpc
    · refine Or.inr ?_
      rw [recorderStep, Option.isSome_map]
      exact encode_isSome (hs.enc_ready hmain) hcreated hexited

/-! ## The measure -/

/-- The statements of a call of `shipToEncoder` that are left, and of what its caller does with
its result. A buffer that is popped stands for 16. -/
def ShipFrame.weight (f : ShipFrame) : ℕ :=
  match f.pc with
  | .lock => 14
  | .size => 13
  | .emptyTest => 12
  | .load => 11
  | .pop => 10
  | .unlock => 25
  | .write => 24
  | .setProcessed => 23
  | .decLastSize => 22
  | .emptyUnlock => 9
  | .emptyProcessed => 8
  | .ret => if f.lastSize = 0 then 7 else 21

def MainPc.weight : MainPc → ℕ
  | .closeDsp => 16
  | .join => 15
  | .drain f => f.weight
  | .pclose => 1
  | _ => 0

def EncFrame.weight (f : EncFrame) : ℕ :=
  let again := if f.lastSize = 0 then 0 else 14
  match f.pc with
  | .ship g => g.weight
  | .addProcessed => again + 6
  | .testBytes => again + 5
  | .resetBytes => again + 4
  | .testSize => again + 3
  | .yield => again + 2
  | .whileTest => again + 1
  | .exited | .notCreated => 0

/-- A bound on the statements of `start` and `encode` until `start` returns. -/
def RecorderState.stepsLeft (s : RecorderState) : ℕ :=
  16 * s.shared.buf.fullBuffers.length + s.main.pc.weight + s.enc.weight

theorem ShipFrame.weight_le (f : ShipFrame) : f.weight ≤ 25 := by
  obtain ⟨pc, lastSize, processed⟩ := f
  cases pc <;> simp only [ShipFrame.weight] <;> first | omega | (split <;> omega)

theorem weight_of_shipToEncoder {t : Thread} {wanted : Bool} {f f' : ShipFrame} {s s' : Shared}
    (h : shipToEncoder t wanted f s = some (s', f')) (hf : f.Counted s.buf.fullBuffers.length) :
    16 * s'.buf.fullBuffers.length + f'.weight < 16 * s.buf.fullBuffers.length + f.weight := by
  obtain ⟨pc, lastSize, processed⟩ := f
  cases pc <;>
    simp only [shipToEncoder, Option.map_eq_some_iff, Option.some.injEq, Prod.mk.injEq,
      reduceCtorEq] at h
  case lock =>
    obtain ⟨s₁, hs, rfl, rfl⟩ := h
    rw [Shared.lockFull_buf hs]
    simp [ShipFrame.weight]
  case size =>
    obtain ⟨rfl, rfl⟩ := h
    simp [ShipFrame.weight]
  case emptyTest =>
    obtain ⟨rfl, rfl⟩ := h
    simp only [ShipFrame.weight]
    split_ifs <;> simp
  case emptyUnlock | unlock =>
    obtain ⟨s₁, hs, rfl, rfl⟩ := h
    rw [Shared.unlockFull_buf hs]
    simp [ShipFrame.weight]
  case emptyProcessed =>
    obtain ⟨rfl, rfl⟩ := h
    have hzero : lastSize = 0 := hf
    simp [ShipFrame.weight, hzero]
  case load =>
    obtain ⟨b, hb, rfl, rfl⟩ := h
    obtain ⟨p, q, -, rfl⟩ := Buffers.loadFull_eq_some.1 hb
    simp [ShipFrame.weight]
  case pop =>
    obtain ⟨b, hb, rfl, rfl⟩ := h
    obtain ⟨p, q, hq, rfl⟩ := Buffers.popFull_eq_some.1 hb
    simp only [ShipFrame.weight, hq, List.length_cons]
    omega
  case write =>
    obtain ⟨b, hb, rfl, rfl⟩ := h
    obtain ⟨-, rfl⟩ := Buffers.write_eq_some.1 hb
    simp [ShipFrame.weight]
  case setProcessed =>
    split_ifs at h
    · obtain ⟨n, -, heq⟩ := Option.map_eq_some_iff.1 h
      cases heq
      simp [ShipFrame.weight]
    · cases h
      simp [ShipFrame.weight]
  case decLastSize =>
    obtain ⟨rfl, rfl⟩ := h
    simp only [ShipFrame.weight]
    split_ifs <;> simp

theorem weight_of_encode {c : RecorderConfig} {f f' : EncFrame} {s s' : Shared}
    (h : encode c f s = some (s', f')) (hdone : s.doneRecording = true)
    (hf : ∀ g, f.pc = .ship g → g.Counted s.buf.fullBuffers.length) :
    16 * s'.buf.fullBuffers.length + f'.weight < 16 * s.buf.fullBuffers.length + f.weight := by
  obtain ⟨pc, lastSize, bytesProcessed, processed⟩ := f
  cases pc
  case ship g =>
    obtain ⟨hret, rfl, rfl⟩ | ⟨g', hg, rfl⟩ := encode_ship h
    · simp only [EncFrame.weight, ShipFrame.weight, hret]
      split_ifs <;> simp
    · exact weight_of_shipToEncoder hg (hf g rfl)
  case notCreated | exited => cases h
  case whileTest =>
    cases h
    by_cases hzero : lastSize = 0 <;> simp [EncFrame.weight, ShipFrame.weight, hdone, hzero]
  case testSize =>
    cases h
    by_cases hzero : lastSize = 0 <;> simp [EncFrame.weight, hzero]
  case testBytes =>
    cases h
    dsimp only
    split <;> simp [EncFrame.weight]
  all_goals
    cases h
    simp [EncFrame.weight]

theorem weight_of_start {c : RecorderConfig} {r : Option Block} {exited : Bool}
    {f f' : MainFrame} {s s' : Shared} (h : start c r exited f s = some (s', f'))
    (hfinishing : f.pc.finishing = true)
    (hf : ∀ g, f.pc = .drain g → g.Counted s.buf.fullBuffers.length) :
    16 * s'.buf.fullBuffers.length + f'.pc.weight <
      16 * s.buf.fullBuffers.length + f.pc.weight := by
  obtain ⟨pc, total, bytesRead⟩ := f
  cases pc
  case drain g =>
    obtain ⟨hret, rfl, rfl⟩ | ⟨g', hg, rfl⟩ := start_drain h
    · by_cases hzero : g.lastSize = 0 <;> simp [MainPc.weight, ShipFrame.weight, hret, hzero]
    · exact weight_of_shipToEncoder hg (hf g rfl)
  case join =>
    cases exited <;> cases h
    simp [MainPc.weight, ShipFrame.weight]
  case closeDsp | pclose =>
    cases h
    simp [MainPc.weight]
  case returned => cases h
  all_goals cases hfinishing

/-- A statement of `start` or of `encode`. -/
def RecorderAct.finishes : RecorderAct → Bool
  | .main _ | .enc => true
  | _ => false

theorem stepsLeft_step {c : RecorderConfig} {s s' : RecorderState} {a : RecorderAct}
    (hs : Steady s) (hdone : s.shared.doneRecording = true) (h : recorderStep c s a = some s') :
    s'.shared.doneRecording = true ∧
      s'.stepsLeft + (if a.finishes then 1 else 0) ≤ s.stepsLeft := by
  have hfinishing := hs.done hdone
  cases a with
  | prep =>
    obtain ⟨⟨sh, f⟩, hf, rfl⟩ := Option.map_eq_some_iff.1 h
    have hrole : s.prep.pc.role ≠ .filled ∧ s.prep.pc.role ≠ .outFront := by
      cases s.prep.pc <;> simp [PrepPc.role]
    have hfull := (effect_of_prepareBuffers hf).fullBuffers_eq hrole.1 hrole.2
    refine ⟨(doneRecording_of_prepareBuffers hf).trans hdone, ?_⟩
    simp [RecorderState.stepsLeft, hfull, RecorderAct.finishes]
  | main r =>
    obtain ⟨⟨sh, f⟩, hf, rfl⟩ := Option.map_eq_some_iff.1 h
    have hweight := weight_of_start hf hfinishing hs.main
    have hspawn : s.main.pc ≠ .createEncode := by
      intro hpc
      rw [hpc] at hfinishing
      cases hfinishing
    dsimp only
    refine ⟨?_, ?_⟩
    · rw [spawn_shared]
      exact (finishing_of_start hf hs.done).1 hdone
    · rw [RecorderState.stepsLeft, RecorderState.stepsLeft, spawn_shared, spawn_main,
        spawn_enc _ hspawn]
      simp only [RecorderAct.finishes, if_true]
      omega
  | enc =>
    obtain ⟨⟨sh, f⟩, hf, rfl⟩ := Option.map_eq_some_iff.1 h
    have hweight := weight_of_encode hf hdone fun g hg => (hs.enc g hg).1
    refine ⟨(doneRecording_of_encode hf).trans hdone, ?_⟩
    simp only [RecorderState.stepsLeft, RecorderAct.finishes, if_true]
    omega
  | stop =>
    cases h
    exact ⟨hdone, le_rfl⟩

theorem stepsLeft_le (s : RecorderState) :
    s.stepsLeft ≤ 16 * s.shared.buf.fullBuffers.length + 50 := by
  have hmain : s.main.pc.weight ≤ 25 := by
    cases hpc : s.main.pc <;> simp only [MainPc.weight] <;> first
      | omega
      | exact ShipFrame.weight_le _
  have henc : s.enc.weight ≤ 25 := by
    obtain ⟨pc, lastSize, bytesProcessed, processed⟩ := s.enc
    cases pc <;> simp only [EncFrame.weight] <;> first
      | exact ShipFrame.weight_le _
      | (split <;> omega)
      | omega
  rw [RecorderState.stepsLeft]
  omega

theorem steady_of_reach {c : RecorderConfig} {s : RecorderState}
    (h : (recorder c).Reach Machine.free s) : Steady s := by
  refine h.invariant (fun s (hi : RecorderInit s) => steady_init hi) fun s a s' hs _ hstep => ?_
  exact steady_step hs hstep

/-- Once `m_doneRecording` is set, in every interleaving : until `start` has returned, it or the
encode thread can run, and the two run no more than 16 statements for each full buffer and 50 in
all. -/
theorem recorder_finishes {c : RecorderConfig} {s : RecorderState}
    (h : (recorder c).Reach Machine.free s) (hdone : s.shared.doneRecording = true) :
    ∀ as s', (recorder c).run Machine.free s as = some s' →
      as.countP RecorderAct.finishes ≤ 16 * s.shared.buf.fullBuffers.length + 50 ∧
        (s'.main.pc ≠ .returned →
          (∀ r, (recorderStep c s' (.main r)).isSome) ∨ (recorderStep c s' .enc).isSome) := by
  have hstep : ∀ s a s', Steady s ∧ s.shared.doneRecording = true → Machine.free s a →
      (recorder c).step s a = some s' → (Steady s' ∧ s'.shared.doneRecording = true) ∧
        s'.stepsLeft + (if a.finishes then 1 else 0) ≤ s.stepsLeft := by
    intro s a s' hI _ hstep
    obtain ⟨hdone', hle⟩ := stepsLeft_step hI.1 hI.2 hstep
    exact ⟨⟨steady_step hI.1 hstep, hdone'⟩, hle⟩
  intro as s' hrun
  obtain ⟨⟨hs', hdone'⟩, hcount⟩ :=
    Machine.countP_add_le_of_run hstep ⟨steady_of_reach h, hdone⟩ hrun
  have hle := stepsLeft_le s
  exact ⟨by omega, hs'.progress hdone'⟩

/-- The capture is stopped behind its first block, which the encode thread has not seen. -/
theorem recorder_finishes_mp3 :
    ∃ s : RecorderState, s.main.pc = .join ∧ s.shared.buf.fullBuffers.length = 1 ∧
      ∀ as s', (recorder mp3Config).run Machine.free s as = some s' →
        as.countP RecorderAct.finishes ≤ 16 * s.shared.buf.fullBuffers.length + 50 ∧
          (s'.main.pc ≠ .returned → (∀ r, (recorderStep mp3Config s' (.main r)).isSome) ∨
            (recorderStep mp3Config s' .enc).isSome) := by
  have hrun : ((recorder mp3Config).run Machine.free freshRecorder
      (untilRead ++ .main (some [1, 2]) :: List.replicate 4 (.main (some [])) ++
        .stop :: List.replicate 4 (.main (some [])))).map
      (fun s => (s.main.pc, s.shared.buf.fullBuffers.length, s.shared.doneRecording)) =
        some (.join, 1, true) := by
    decide +kernel
  obtain ⟨s, hs, heq⟩ := Option.map_eq_some_iff.1 hrun
  obtain ⟨hpc, hrest⟩ := Prod.mk.inj heq
  obtain ⟨hlen, hdone⟩ := Prod.mk.inj hrest
  exact ⟨s, hpc, hlen, recorder_finishes
    (Machine.reach_of_run (.start freshRecorder_init) hs) hdone⟩

end LxToolset
