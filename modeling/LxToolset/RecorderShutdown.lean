import LxToolset.RecorderOwnership

/-!
# The shutdown of the recorder

`Recorder::start` sets `m_doneRecording`, joins the encode thread and calls
`shipToEncoder` until it returns 0. `Accounted` counts the buffers through the recorder in
any run : pushed buffers are popped or queued, popped buffers are written or about to be.
`Draining` says what a call of `shipToEncoder` knows of the queue once the encode thread
has ended, and `recorder_pclose_drained` that nothing is left at `pclose`.
-/

namespace LxToolset

/-! ## Counts -/

/-- The popped buffers that a thread in this role is still to write. -/
def Role.inFlight : Role → ℕ
  | .sending => 1
  | _ => 0

/-- The popped buffers still to be written. -/
def RecorderState.inFlight (s : RecorderState) : ℕ :=
  (s.role .prep).inFlight + (s.role .main).inFlight + (s.role .enc).inFlight

/-- No buffer is lost between the counts. -/
structure Accounted (s : RecorderState) : Prop where
  pushed : s.shared.buf.pushed = s.shared.buf.popped + s.shared.buf.fullBuffers.length
  popped : s.shared.buf.popped = s.shared.buf.sent.length + s.inFlight

/-- An effect moves a buffer from one count to the next. -/
theorem Effect.counts {assigning : Bool} {r r' : Role} {b b' : Buffers}
    (h : Effect assigning r b r' b') :
    b'.pushed + (b.popped + b.fullBuffers.length) =
        b.pushed + (b'.popped + b'.fullBuffers.length) ∧
      b'.popped + (b.sent.length + r.inFlight) = b.popped + (b'.sent.length + r'.inFlight) := by
  cases h with
  | quiet => exact ⟨rfl, rfl⟩
  | null | alloc | pushInput => simp [Role.inFlight, Buffers.newBuffer, Buffers.pushInput]
  | blank h =>
    obtain ⟨-, rfl⟩ := Buffers.store_eq_some.1 h
    simp
  | loadInput _ h =>
    obtain ⟨p, q, -, rfl⟩ := Buffers.loadInput_eq_some.1 h
    simp [Role.inFlight]
  | popInput h =>
    obtain ⟨p, q, -, rfl⟩ := Buffers.popInput_eq_some.1 h
    simp [Role.inFlight]
  | readDsp h =>
    obtain ⟨-, -, rfl⟩ := Buffers.readDsp_eq_some.1 h
    simp [Role.inFlight]
  | pushFull =>
    refine ⟨?_, rfl⟩
    simp only [Buffers.pushFull, List.length_append, List.length_singleton]
    omega
  | loadFull _ h =>
    obtain ⟨p, q, -, rfl⟩ := Buffers.loadFull_eq_some.1 h
    simp [Role.inFlight]
  | popFull h =>
    obtain ⟨p, q, hq, rfl⟩ := Buffers.popFull_eq_some.1 h
    simp only [hq, List.length_cons, Role.inFlight]
    omega
  | write h =>
    obtain ⟨-, rfl⟩ := Buffers.write_eq_some.1 h
    simp [Role.inFlight]

theorem accounted_init {s : RecorderState} (h : RecorderInit s) : Accounted s := by
  refine ⟨by simp [h.pushed, h.popped, h.fullBuffers], ?_⟩
  simp [h.popped, h.sent, RecorderState.inFlight, RecorderState.role, h.prep, h.main, h.enc,
    PrepPc.role, MainPc.role, EncPc.role, Role.inFlight]

/-- A step changes what is in flight by what it does to its own thread's role. -/
theorem inFlight_step {c : RecorderConfig} {s s' : RecorderState} {a : RecorderAct} {t : Thread}
    (hc : Created s) (ht : a.thread = some t) (h : recorderStep c s a = some s') :
    s'.inFlight + (s.role t).inFlight = s.inFlight + (s'.role t).inFlight := by
  have hothers : ∀ u, u ≠ t → s'.role u = s.role u := fun u => role_step hc ht h
  cases t with
  | prep =>
    rw [RecorderState.inFlight, RecorderState.inFlight, hothers .main (by decide),
      hothers .enc (by decide)]
    omega
  | main =>
    rw [RecorderState.inFlight, RecorderState.inFlight, hothers .prep (by decide),
      hothers .enc (by decide)]
    omega
  | enc =>
    rw [RecorderState.inFlight, RecorderState.inFlight, hothers .prep (by decide),
      hothers .main (by decide)]
    omega

theorem accounted_step {c : RecorderConfig} {s s' : RecorderState} {a : RecorderAct}
    (hc : Created s) (ha : Accounted s) (h : recorderStep c s a = some s') : Accounted s' := by
  obtain ⟨hpush, hpop⟩ := ha
  cases ht : a.thread with
  | none =>
    cases a <;> cases ht
    cases h
    exact ⟨hpush, hpop⟩
  | some t =>
    have hflight := inFlight_step hc ht h
    rcases effect_or_readError_of_step ht h with heff | ⟨rfl, hrole, hrole', v, hv⟩
    · obtain ⟨h1, h2⟩ := heff.counts
      exact ⟨by omega, by omega⟩
    · obtain ⟨-, heq⟩ := Buffers.store_eq_some.1 hv
      simp only [hrole, hrole', Role.inFlight] at hflight
      refine ⟨by rw [heq]; exact hpush, ?_⟩
      rw [heq]
      dsimp only
      omega

/-! ## Draining -/

/-- `start` is past its `pthread_join`. -/
def MainPc.joined : MainPc → Bool
  | .drain _ | .pclose => true
  | _ => false

/-- What a call of `shipToEncoder` knows of the `n` buffers queued, if nobody else takes
any. -/
def ShipFrame.Knows (f : ShipFrame) (n : ℕ) : Prop :=
  match f.pc with
  | .lock | .size => True
  | .emptyTest | .load | .pop | .ret => f.lastSize = n
  | .emptyUnlock | .emptyProcessed => f.lastSize = 0 ∧ n = 0
  | .unlock | .write | .setProcessed | .decLastSize => f.lastSize = n + 1

/-- What `start` knows of the queue after the join. -/
def MainPc.Knows : MainPc → ℕ → Prop
  | .drain f, n => f.Knows n
  | .pclose, n => n = 0
  | _, _ => True

/-- After the join the encode thread has ended, and `start` alone takes from the queue. -/
structure Draining (s : RecorderState) : Prop where
  exited : s.main.pc.joined = true → s.enc.pc = .exited
  knows : s.main.pc.Knows s.shared.buf.fullBuffers.length

theorem knows_of_shipToEncoder {t : Thread} {wanted : Bool} {f f' : ShipFrame} {s s' : Shared}
    (h : shipToEncoder t wanted f s = some (s', f')) (hf : f.Knows s.buf.fullBuffers.length) :
    f'.Knows s'.buf.fullBuffers.length := by
  obtain ⟨pc, lastSize, processed⟩ := f
  cases pc <;>
    simp only [shipToEncoder, Option.map_eq_some_iff, Option.some.injEq, Prod.mk.injEq,
      reduceCtorEq] at h
  case lock =>
    obtain ⟨_, -, rfl, rfl⟩ := h
    trivial
  case size =>
    obtain ⟨rfl, rfl⟩ := h
    rfl
  case emptyTest =>
    obtain ⟨rfl, rfl⟩ := h
    simp only [ShipFrame.Knows] at hf ⊢
    split_ifs with h0
    · exact ⟨h0, hf ▸ h0⟩
    · exact hf
  case emptyUnlock =>
    obtain ⟨_, hs, rfl, rfl⟩ := h
    rw [Shared.unlockFull_buf hs]
    exact hf
  case emptyProcessed =>
    obtain ⟨rfl, rfl⟩ := h
    exact hf.1.trans hf.2.symm
  case load =>
    obtain ⟨b, hb, rfl, rfl⟩ := h
    obtain ⟨p, q, -, rfl⟩ := Buffers.loadFull_eq_some.1 hb
    exact hf
  case pop =>
    obtain ⟨b, hb, rfl, rfl⟩ := h
    obtain ⟨p, q, hq, rfl⟩ := Buffers.popFull_eq_some.1 hb
    simp only [ShipFrame.Knows, hq, List.length_cons] at hf ⊢
    exact hf
  case unlock =>
    obtain ⟨_, hs, rfl, rfl⟩ := h
    rw [Shared.unlockFull_buf hs]
    exact hf
  case write =>
    obtain ⟨b, hb, rfl, rfl⟩ := h
    obtain ⟨-, rfl⟩ := Buffers.write_eq_some.1 hb
    exact hf
  case setProcessed =>
    split_ifs at h
    · obtain ⟨n, -, heq⟩ := Option.map_eq_some_iff.1 h
      cases heq
      exact hf
    · cases h
      exact hf
  case decLastSize =>
    obtain ⟨rfl, rfl⟩ := h
    simp only [ShipFrame.Knows] at hf ⊢
    omega

/-- `start` comes to the drain loop from the join only, and each of its statements there
knows what it needs of the queue. -/
theorem draining_of_start {c : RecorderConfig} {r : Option Block} {exited : Bool}
    {f f' : MainFrame} {s s' : Shared} (h : start c r exited f s = some (s', f')) :
    (f'.pc.joined = true → f.pc.joined = true ∨ f.pc = .join ∧ exited = true) ∧
      (f.pc.Knows s.buf.fullBuffers.length → f'.pc.Knows s'.buf.fullBuffers.length) := by
  obtain ⟨pc, total, bytesRead⟩ := f
  cases pc
  case drain g =>
    refine ⟨fun _ => .inl rfl, fun hk => ?_⟩
    obtain ⟨hret, rfl, rfl⟩ | ⟨g', hg, rfl⟩ := start_drain h
    · simp only [MainPc.Knows, ShipFrame.Knows, hret] at hk
      dsimp only
      split_ifs with h0
      · exact hk.symm.trans h0
      · trivial
    · exact knows_of_shipToEncoder hg hk
  case returned => cases h
  case join =>
    cases exited <;> cases h
    exact ⟨fun _ => .inr ⟨rfl, rfl⟩, fun _ => trivial⟩
  case waitInit | openDevices | testNull | testStop | testSec =>
    cases h
    dsimp only
    split <;> simp [MainPc.joined, MainPc.Knows]
  case lockInput | loadFront | unlockNull | usedZero | popFront | unlockInput | read | addBytes |
      lockFull | unlockFull =>
    obtain ⟨_, -, heq⟩ := Option.map_eq_some_iff.1 h
    cases heq
    simp [MainPc.joined, MainPc.Knows]
  all_goals
    cases h
    simp [MainPc.joined, MainPc.Knows]

/-- Only a thread that has a buffer to push, or the front to pop, changes the queue. -/
theorem Effect.fullBuffers_eq {assigning : Bool} {r r' : Role} {b b' : Buffers}
    (h : Effect assigning r b r' b') (hfilled : r ≠ .filled) (hfront : r ≠ .outFront) :
    b'.fullBuffers = b.fullBuffers := by
  cases h with
  | quiet | null | alloc | pushInput => rfl
  | pushFull => exact absurd rfl hfilled
  | popFull => exact absurd rfl hfront
  | blank h =>
    obtain ⟨-, rfl⟩ := Buffers.store_eq_some.1 h
    rfl
  | loadInput _ h =>
    obtain ⟨p, q, -, rfl⟩ := Buffers.loadInput_eq_some.1 h
    rfl
  | popInput h =>
    obtain ⟨p, q, -, rfl⟩ := Buffers.popInput_eq_some.1 h
    rfl
  | readDsp h =>
    obtain ⟨-, -, rfl⟩ := Buffers.readDsp_eq_some.1 h
    rfl
  | loadFull _ h =>
    obtain ⟨p, q, -, rfl⟩ := Buffers.loadFull_eq_some.1 h
    rfl
  | write h =>
    obtain ⟨-, rfl⟩ := Buffers.write_eq_some.1 h
    rfl

theorem draining_init {s : RecorderState} (h : RecorderInit s) : Draining s :=
  ⟨by simp [h.main, MainPc.joined], by simp [h.main, MainPc.Knows]⟩

theorem knows_of_not_joined {pc : MainPc} (h : pc.joined = false) (n : ℕ) : pc.Knows n := by
  cases pc <;> trivial

theorem draining_step {c : RecorderConfig} {s s' : RecorderState} {a : RecorderAct}
    (hd : Draining s) (h : recorderStep c s a = some s') : Draining s' := by
  obtain ⟨hexited, hknows⟩ := hd
  cases a with
  | prep =>
    obtain ⟨⟨sh, f⟩, hf, rfl⟩ := Option.map_eq_some_iff.1 h
    have hrole : s.prep.pc.role ≠ .filled ∧ s.prep.pc.role ≠ .outFront := by
      cases s.prep.pc <;> simp [PrepPc.role]
    refine ⟨hexited, ?_⟩
    dsimp only
    rw [(effect_of_prepareBuffers hf).fullBuffers_eq hrole.1 hrole.2]
    exact hknows
  | main r =>
    obtain ⟨⟨sh, f⟩, hf, rfl⟩ := Option.map_eq_some_iff.1 h
    obtain ⟨hjoined, hk⟩ := draining_of_start hf
    refine ⟨fun hj => ?_, ?_⟩
    · rw [spawn_main] at hj
      rcases hjoined hj with hj | ⟨hpc, hex⟩
      · have hne : s.main.pc ≠ .createEncode := by
          rintro hpc
          simp [hpc, MainPc.joined] at hj
        rw [spawn_enc _ hne]
        exact hexited hj
      · rw [spawn_enc _ (by simp [hpc])]
        cases he : s.enc.pc <;> simp [he, EncPc.hasExited] at hex ⊢
    · rw [spawn_main, spawn_shared]
      exact hk hknows
  | enc =>
    obtain ⟨⟨sh, f⟩, hf, rfl⟩ := Option.map_eq_some_iff.1 h
    -- the encode thread still runs, so `start` has not joined it
    have hj : s.main.pc.joined = false := by
      by_contra hj
      rw [encode, hexited (by simpa using hj)] at hf
      cases hf
    exact ⟨fun hj' => by simp [hj] at hj', knows_of_not_joined hj _⟩
  | stop =>
    cases h
    exact ⟨hexited, hknows⟩

/-! ## At `pclose` -/

/-- In every interleaving, when `start` reaches `pclose` the queue is empty, every buffer
pushed has been popped, and every buffer popped has been written. -/
theorem recorder_pclose_drained {c : RecorderConfig} {s : RecorderState}
    (h : (recorder c).Reach Machine.free s) (hpc : s.main.pc = .pclose) :
    s.shared.buf.fullBuffers = [] ∧ s.shared.buf.popped = s.shared.buf.pushed ∧
      s.shared.buf.sent.length = s.shared.buf.pushed := by
  obtain ⟨hc, ha, hd⟩ : Created s ∧ Accounted s ∧ Draining s := by
    refine h.invariant (I := fun s => Created s ∧ Accounted s ∧ Draining s)
      (fun s (hi : RecorderInit s) => ?_) fun s a s' hI _ hs => ?_
    · exact ⟨⟨fun _ => hi.prep, fun _ => hi.enc⟩, accounted_init hi, draining_init hi⟩
    · exact ⟨created_step hI.1 hs, accounted_step hI.1 hI.2.1 hs, draining_step hI.2.2 hs⟩
  have hlen : s.shared.buf.fullBuffers.length = 0 := by
    have hk := hd.knows
    rwa [hpc] at hk
  have henc : s.enc.pc = .exited := hd.exited (by rw [hpc]; rfl)
  have hflight : s.inFlight = 0 := by
    have hprep : (s.role .prep).inFlight = 0 := by
      simp only [RecorderState.role]
      cases s.prep.pc <;> rfl
    rw [RecorderState.inFlight, hprep]
    simp [RecorderState.role, hpc, henc, MainPc.role, EncPc.role, Role.inFlight]
  have hpush := ha.pushed
  have hpop := ha.popped
  exact ⟨List.length_eq_zero_iff.1 hlen, by omega, by omega⟩

/-- The encode thread finds the queue empty and ends before the only block is pushed : the
drain loop writes it. -/
theorem recorder_pclose_drained_mp3 :
    ∃ s : RecorderState, s.main.pc = .pclose ∧ s.shared.buf.pushed = 1 ∧
      s.shared.buf.fullBuffers = [] ∧ s.shared.buf.popped = s.shared.buf.pushed ∧
        s.shared.buf.sent.length = s.shared.buf.pushed := by
  have hrun : ((recorder mp3Config).run Machine.free freshRecorder
      (untilRead ++ List.replicate 11 .enc ++ .main (some [1, 2]) ::
        List.replicate 4 (.main (some [])) ++ .stop :: List.replicate 4 (.main (some [])) ++
          .enc :: List.replicate 11 (.main (some [])))).map
      (fun s => (s.main.pc, s.shared.buf.pushed)) = some (.pclose, 1) := by
    decide +kernel
  obtain ⟨s, hs, heq⟩ := Option.map_eq_some_iff.1 hrun
  obtain ⟨hpc, hpushed⟩ := Prod.mk.inj heq
  exact ⟨s, hpc, hpushed, recorder_pclose_drained
    (Machine.reach_of_run (.start freshRecorder_init) hs) hpc⟩

end LxToolset
