import LxToolset.RecorderOwnership

/-!
# The bytes that the capture loop counts

`bytesRead` is a 32-bit total of what `read` returned, and `totalBytesRequested` a 32-bit
product. `Tallied` relates the total to the blocks captured, in every undisturbed run without
read errors, and `LoopStep` says what a statement of `start` does to the loop.
-/

namespace LxToolset

def totalBytes (bs : List Block) : ℕ :=
  (bs.map List.length).sum

/-- How far the capture loop of `start` is. -/
inductive LoopPhase where
  | before
  /-- In a round, up to its `read`. -/
  | head
  /-- A block is read and not yet added to `bytesRead`. -/
  | delivered
  /-- In a round, after the addition. -/
  | added
  | ended
  | returned
  deriving DecidableEq

def MainPc.phase : MainPc → LoopPhase
  | .setHeader | .createPrep | .waitInit | .setTotal | .openDevices | .recordingOn
  | .writeHeader | .createEncode | .initBytes => .before
  | .lockInput | .loadFront | .testNull | .unlockNull | .newBuffer | .usedZero | .popFront
  | .unlockInput | .read => .head
  | .addBytes => .delivered
  | .lockFull | .pushFull | .unlockFull | .testStop | .testSec => .added
  | .recordingOff | .doneOn | .closeDsp | .join | .drain _ | .pclose => .ended
  | .returned => .returned

/-- `start` has not yet computed `totalBytesRequested`. -/
def MainPc.beforeTotal : MainPc → Bool
  | .setHeader | .createPrep | .waitInit | .setTotal => true
  | _ => false

/-! ## Statements of `start` -/

/-- What a statement of `start` does to the capture loop, where `r` answers its `read`. -/
inductive LoopStep (c : RecorderConfig) (r : Option Block) (s : Shared) (f : MainFrame)
    (s' : Shared) (f' : MainFrame) : Prop where
  | stay (hphase : f'.pc.phase = f.pc.phase) (hcaptured : s'.buf.captured = s.buf.captured)
    (hbytes : f'.bytesRead = f.bytesRead)
  | enter (hphase : f.pc.phase = .before) (hphase' : f'.pc.phase = .head)
    (hcaptured : s'.buf.captured = s.buf.captured) (hbytes : f'.bytesRead = 0)
  | read (hpc : f.pc = .read) (hphase' : f'.pc.phase = .delivered) (data : Block)
    (hr : r = some data) (hlen : data.length ≤ bufferSize)
    (hcaptured : s'.buf.captured = s.buf.captured ++ [data]) (hbytes : f'.bytesRead = f.bytesRead)
  | add (hphase : f.pc.phase = .delivered) (hphase' : f'.pc.phase = .added)
    (hcaptured : s'.buf.captured = s.buf.captured)
    (hbytes : f'.bytesRead = f.bytesRead + (s.buf.heap s.buf.sndbuf).used)
  | again (hphase : f.pc.phase = .added) (hphase' : f'.pc.phase = .head)
    (hcaptured : s'.buf.captured = s.buf.captured) (hbytes : f'.bytesRead = f.bytesRead)
    (htest : ¬(c.sec ≠ 0 ∧ f.totalBytesRequested < f.bytesRead))
  | leave (hphase : f.pc.phase = .added) (hphase' : f'.pc.phase = .ended)
    (hcaptured : s'.buf.captured = s.buf.captured) (hbytes : f'.bytesRead = f.bytesRead)
    (htest : s.stopRequested ≠ 0 ∨ c.sec ≠ 0 ∧ f.totalBytesRequested < f.bytesRead)
  | return (hphase' : f'.pc.phase = .returned) (hcaptured : s'.buf.captured = s.buf.captured)

/-- Only `read` adds to what is captured. -/
theorem Effect.captured_eq {assigning : Bool} {r r' : Role} {b b' : Buffers}
    (h : Effect assigning r b r' b') (hr : r = .filled ∨ r' ≠ .filled) :
    b'.captured = b.captured := by
  cases h with
  | quiet | null | alloc | pushInput | pushFull => rfl
  | readDsp => exact absurd hr (by decide)
  | blank h =>
    obtain ⟨-, rfl⟩ := Buffers.store_eq_some.1 h
    rfl
  | loadInput _ h =>
    obtain ⟨p, q, -, rfl⟩ := Buffers.loadInput_eq_some.1 h
    rfl
  | popInput h =>
    obtain ⟨p, q, -, rfl⟩ := Buffers.popInput_eq_some.1 h
    rfl
  | loadFull _ h =>
    obtain ⟨p, q, -, rfl⟩ := Buffers.loadFull_eq_some.1 h
    rfl
  | popFull h =>
    obtain ⟨p, q, -, rfl⟩ := Buffers.popFull_eq_some.1 h
    rfl
  | write h =>
    obtain ⟨-, rfl⟩ := Buffers.write_eq_some.1 h
    rfl

theorem PrepPc.role_ne_filled (pc : PrepPc) : pc.role ≠ .filled := by
  cases pc <;> simp [PrepPc.role]

theorem ShipPc.role_ne_filled (pc : ShipPc) : pc.role ≠ .filled := by
  cases pc <;> simp [ShipPc.role]

theorem EncPc.role_ne_filled (pc : EncPc) : pc.role ≠ .filled := by
  cases pc with
  | ship f => exact f.pc.role_ne_filled
  | _ => simp [EncPc.role]

/-- What every statement of `start` is to the loop. -/
theorem loopStep_of_start {c : RecorderConfig} {r : Option Block} {exited : Bool}
    {f f' : MainFrame} {s s' : Shared} (hr : f.pc = .read → r ≠ none)
    (h : start c r exited f s = some (s', f')) : LoopStep c r s f s' f' := by
  have hcap := (effect_of_start hr h).captured_eq
  obtain ⟨pc, total, bytesRead⟩ := f
  cases pc
  case drain g =>
    obtain ⟨-, rfl, rfl⟩ | ⟨g', -, rfl⟩ := start_drain h
    · refine .stay ?_ rfl rfl
      dsimp only
      split_ifs <;> rfl
    · exact .stay rfl (hcap (.inr g'.pc.role_ne_filled)) rfl
  case returned => cases h
  case openDevices =>
    cases h
    dsimp only
    split_ifs
    · exact .stay rfl rfl rfl
    · exact .return rfl rfl
  case initBytes =>
    cases h
    exact .enter rfl rfl rfl rfl
  case waitInit | testNull =>
    cases h
    dsimp only
    split_ifs <;> exact .stay rfl rfl rfl
  case lockInput | loadFront | unlockNull | usedZero | popFront | unlockInput | unlockFull =>
    obtain ⟨_, -, heq⟩ := Option.map_eq_some_iff.1 h
    cases heq
    exact .stay rfl (hcap (.inr (by simp [MainPc.role]))) rfl
  case read =>
    obtain ⟨b, hb, heq⟩ := Option.map_eq_some_iff.1 h
    cases heq
    obtain ⟨data, rfl⟩ := Option.ne_none_iff_exists'.1 (hr rfl)
    obtain ⟨hlen, -, rfl⟩ := Buffers.readDsp_eq_some.1 hb
    exact .read rfl rfl data rfl hlen rfl rfl
  case addBytes =>
    obtain ⟨n, hn, heq⟩ := Option.map_eq_some_iff.1 h
    cases heq
    unfold Buffers.used at hn
    split_ifs at hn
    exact .add rfl rfl rfl (by rw [Option.some.inj hn])
  case lockFull =>
    obtain ⟨_, -, heq⟩ := Option.map_eq_some_iff.1 h
    cases heq
    exact .stay rfl (hcap (.inl rfl)) rfl
  case testStop =>
    cases h
    dsimp only
    split_ifs with hstop
    · exact .leave rfl rfl rfl rfl (.inl hstop)
    · exact .stay rfl rfl rfl
  case testSec =>
    cases h
    dsimp only
    split_ifs with htest
    · exact .leave rfl rfl rfl rfl (.inr htest)
    · exact .again rfl rfl rfl rfl htest
  case join =>
    cases exited <;> cases h
    exact .stay rfl rfl rfl
  case pclose =>
    cases h
    exact .return rfl rfl
  all_goals
    cases h
    exact .stay rfl rfl rfl

theorem total_of_start {c : RecorderConfig} {r : Option Block} {exited : Bool}
    {f f' : MainFrame} {s s' : Shared} (h : start c r exited f s = some (s', f'))
    (ht : f.pc.beforeTotal = false → f.totalBytesRequested = c.totalBytesRequested) :
    f'.pc.beforeTotal = false → f'.totalBytesRequested = c.totalBytesRequested := by
  obtain ⟨pc, total, bytesRead⟩ := f
  cases pc
  case drain g =>
    obtain ⟨-, -, rfl⟩ | ⟨g', -, rfl⟩ := start_drain h
    · exact fun _ => ht rfl
    · exact fun _ => ht rfl
  case returned => cases h
  case setHeader | createPrep =>
    cases h
    simp [MainPc.beforeTotal]
  case waitInit =>
    cases h
    dsimp only
    split_ifs <;> simp [MainPc.beforeTotal]
  case setTotal =>
    cases h
    exact fun _ => rfl
  case join =>
    cases exited <;> cases h
    exact fun _ => ht rfl
  case lockInput | loadFront | unlockNull | usedZero | popFront | unlockInput | read | addBytes |
      lockFull | unlockFull =>
    obtain ⟨_, -, heq⟩ := Option.map_eq_some_iff.1 h
    cases heq
    exact fun _ => ht rfl
  all_goals
    cases h
    exact fun _ => ht rfl

/-! ## The running total -/

/-- What `bytesRead` is in each phase, modulo `2 ^ 32`. -/
def LoopPhase.Counts (captured : List Block) (bytesRead : BitVec 32) : LoopPhase → Prop
  | .before => captured = []
  | .head | .added | .ended => bytesRead = BitVec.ofNat 32 (totalBytes captured)
  | .delivered => ∃ bs b, captured = bs ++ [b] ∧ bytesRead = BitVec.ofNat 32 (totalBytes bs)
  | .returned => True

theorem totalBytes_snoc (bs : List Block) (b : Block) :
    totalBytes (bs ++ [b]) = totalBytes bs + b.length := by
  simp [totalBytes]

theorem LoopStep.counts {c : RecorderConfig} {r : Option Block} {s s' : Shared}
    {f f' : MainFrame} (h : LoopStep c r s f s' f')
    (hc : f.pc.phase.Counts s.buf.captured f.bytesRead)
    (hused : f.pc.phase = .delivered → ∀ bs b, s.buf.captured = bs ++ [b] →
      (s.buf.heap s.buf.sndbuf).used = BitVec.ofNat 32 b.length) :
    f'.pc.phase.Counts s'.buf.captured f'.bytesRead := by
  cases h with
  | stay hphase hcaptured hbytes => rwa [hphase, hcaptured, hbytes]
  | enter hphase hphase' hcaptured hbytes =>
    rw [hphase] at hc
    rw [hphase', hcaptured, hbytes, show s.buf.captured = [] from hc]
    rfl
  | read hpc hphase' data hr hlen hcaptured hbytes =>
    rw [hpc] at hc
    rw [hphase', hcaptured, hbytes]
    exact ⟨_, _, rfl, hc⟩
  | add hphase hphase' hcaptured hbytes =>
    rw [hphase] at hc
    obtain ⟨bs, b, hbs, hold⟩ := hc
    rw [hphase', hcaptured, hbytes, hold, hused hphase bs b hbs, hbs, ← BitVec.ofNat_add,
      ← totalBytes_snoc]
    rfl
  | again hphase hphase' hcaptured hbytes | leave hphase hphase' hcaptured hbytes =>
    rw [hphase] at hc
    rw [hphase', hcaptured, hbytes]
    exact hc
  | «return» hphase' hcaptured =>
    rw [hphase']
    trivial

/-- What a statement of `start` adds to the blocks captured. -/
theorem LoopStep.captured {c : RecorderConfig} {r : Option Block} {s s' : Shared}
    {f f' : MainFrame} (h : LoopStep c r s f s' f') : s'.buf.captured = s.buf.captured ∨
      f.pc = .read ∧ ∃ data : Block, r = some data ∧ data.length ≤ bufferSize ∧
        s'.buf.captured = s.buf.captured ++ [data] := by
  cases h with
  | read hpc _ data hr hlen hcaptured => exact .inr ⟨hpc, data, hr, hlen, hcaptured⟩
  | stay _ hcaptured | enter _ _ hcaptured | add _ _ hcaptured | again _ _ hcaptured
    | leave _ _ hcaptured | «return» _ hcaptured => exact .inl hcaptured

/-- Only a `read` of `start` captures anything. -/
theorem captured_step {c : RecorderConfig} {s s' : RecorderState} {a : RecorderAct}
    (hr : ReadSucceeds s a) (h : recorderStep c s a = some s') :
    s'.shared.buf.captured = s.shared.buf.captured ∨ s.main.pc = .read ∧
      ∃ data : Block, a = .main (some data) ∧ data.length ≤ bufferSize ∧
        s'.shared.buf.captured = s.shared.buf.captured ++ [data] := by
  cases a with
  | prep =>
    obtain ⟨⟨sh, f⟩, hf, rfl⟩ := Option.map_eq_some_iff.1 h
    exact .inl ((effect_of_prepareBuffers hf).captured_eq (.inr f.pc.role_ne_filled))
  | main r =>
    obtain ⟨⟨sh, f⟩, hf, rfl⟩ := Option.map_eq_some_iff.1 h
    rw [spawn_shared]
    rcases (loopStep_of_start (fun hpc he => hr hpc (he ▸ rfl)) hf).captured with
      hcap | ⟨hpc, data, rfl, hlen, hcap⟩
    · exact .inl hcap
    · exact .inr ⟨hpc, data, rfl, hlen, hcap⟩
  | enc =>
    obtain ⟨⟨sh, f⟩, hf, rfl⟩ := Option.map_eq_some_iff.1 h
    exact .inl ((effect_of_encode hf).captured_eq (.inr f.pc.role_ne_filled))
  | stop =>
    cases h
    exact .inl rfl

/-- The invariant of the undisturbed runs without read errors. -/
structure Tallied (c : RecorderConfig) (s : RecorderState) : Prop where
  orderly : Orderly s
  conserved : (pipe s.hold s.shared.buf).Conserved
  total : s.main.pc.beforeTotal = false → s.main.totalBytesRequested = c.totalBytesRequested
  lengths : ∀ b ∈ s.shared.buf.captured, b.length ≤ bufferSize
  counts : s.main.pc.phase.Counts s.shared.buf.captured s.main.bytesRead

theorem SndBuffer.length_block (b : SndBuffer) : b.block.length = b.used.toNat := by
  simp [SndBuffer.block]

/-- After its `read` the buffer of `start` holds the last block captured. -/
theorem Tallied.used_eq {c : RecorderConfig} {s : RecorderState} (h : Tallied c s)
    (hphase : s.main.pc.phase = .delivered) {bs : List Block} {b : Block}
    (hbs : s.shared.buf.captured = bs ++ [b]) :
    (s.shared.buf.heap s.shared.buf.sndbuf).used = BitVec.ofNat 32 b.length := by
  have hpc : s.main.pc = .addBytes := by
    cases hpc : s.main.pc <;> simp [hpc, MainPc.phase] at hphase ⊢
  have hrole : s.role .main = .filled := by simp [RecorderState.role, hpc, MainPc.role]
  have hhold : s.hold = .filled := by
    refine (hold_eq fun u hu => ?_).trans hrole
    by_contra hact
    exact hu (h.orderly.one u .main hact (by simp [hrole]))
  have hlast : s.shared.buf.captured.getLast? =
      some (s.shared.buf.heap s.shared.buf.sndbuf).block := by
    have hc := h.conserved
    simp only [Pipe.Conserved, pipe, hhold, if_true] at hc
    rw [hc]
    simp
  rw [hbs, List.getLast?_append, List.getLast?_singleton, Option.some_or] at hlast
  rw [Option.some.inj hlast, SndBuffer.length_block, BitVec.ofNat_toNat, BitVec.setWidth_eq]

theorem tallied_init {c : RecorderConfig} {s : RecorderState} (h : RecorderInit s) :
    Tallied c s := by
  refine ⟨orderly_init h, ?_, ?_, by simp [h.captured], ?_⟩
  · rw [pipe_init h]
    rfl
  · simp [h.main, MainPc.beforeTotal]
  · rw [h.main]
    exact h.captured

theorem tallied_step {c : RecorderConfig} {s s' : RecorderState} {a : RecorderAct}
    (ht : Tallied c s) (hr : ReadSucceeds s a) (hu : Undisturbed s a)
    (h : recorderStep c s a = some s') : Tallied c s' := by
  obtain ⟨ho', hpipe⟩ := orderly_step ht.orderly hr hu h
  have hconserved : (pipe s'.hold s'.shared.buf).Conserved := by
    rcases hpipe with heq | ⟨act, hact⟩
    · exact heq ▸ ht.conserved
    · exact ht.conserved.step hact
  have hlengths : ∀ b ∈ s'.shared.buf.captured, b.length ≤ bufferSize := by
    rcases captured_step hr h with hcap | ⟨-, data, -, hlen, hcap⟩
    · exact hcap ▸ ht.lengths
    · rw [hcap]
      exact List.forall_mem_append.2 ⟨ht.lengths, by simpa using hlen⟩
  cases a with
  | prep =>
    obtain ⟨⟨sh, f⟩, hf, rfl⟩ := Option.map_eq_some_iff.1 h
    have hcap := (effect_of_prepareBuffers hf).captured_eq (.inr f.pc.role_ne_filled)
    exact ⟨ho', hconserved, ht.total, hlengths, hcap ▸ ht.counts⟩
  | main r =>
    obtain ⟨⟨sh, f⟩, hf, rfl⟩ := Option.map_eq_some_iff.1 h
    refine ⟨ho', hconserved, ?_, hlengths, ?_⟩
    · rw [spawn_main]
      exact total_of_start hf ht.total
    · rw [spawn_main, spawn_shared]
      exact (loopStep_of_start (fun hpc he => hr hpc (he ▸ rfl)) hf).counts ht.counts
        fun hphase bs b => ht.used_eq hphase
  | enc =>
    obtain ⟨⟨sh, f⟩, hf, rfl⟩ := Option.map_eq_some_iff.1 h
    have hcap := (effect_of_encode hf).captured_eq (.inr f.pc.role_ne_filled)
    exact ⟨ho', hconserved, ht.total, hlengths, hcap ▸ ht.counts⟩
  | stop =>
    cases h
    exact ⟨ho', hconserved, ht.total, hlengths, ht.counts⟩

/-! ## Lengths and totals -/

/-- Each write has the length of the block that the device delivered, and `bytesRead` is the
number of bytes delivered and added so far. -/
structure BytesAgree (s : RecorderState) : Prop where
  sent : s.shared.buf.sent.map List.length <+: s.shared.buf.captured.map List.length
  le : ∀ b ∈ s.shared.buf.sent, b.length ≤ bufferSize
  bytesRead : s.main.pc.phase = .head ∨ s.main.pc.phase = .added ∨ s.main.pc.phase = .ended →
    s.main.bytesRead.toNat = totalBytes s.shared.buf.captured
  /-- Between `read` and the addition the last block is still to be counted. -/
  delivered : s.main.pc.phase = .delivered →
    s.main.bytesRead.toNat = totalBytes s.shared.buf.captured.dropLast

/-- What `read` delivers in this step. -/
def RecorderAct.delivered : RecorderAct → ℕ
  | .main (some data) => data.length
  | _ => 0

/-- `read` does not take the number of bytes delivered to `2 ^ 32`. -/
def TotalFits (s : RecorderState) (a : RecorderAct) : Prop :=
  s.main.pc = .read → totalBytes s.shared.buf.captured + a.delivered < 2 ^ 32

instance (s : RecorderState) (a : RecorderAct) : Decidable (TotalFits s a) :=
  inferInstanceAs (Decidable (_ → _))

theorem Tallied.bytesAgree {c : RecorderConfig} {s : RecorderState} (h : Tallied c s)
    (hlt : totalBytes s.shared.buf.captured < 2 ^ 32) : BytesAgree s := by
  have hcons := h.conserved
  simp only [Pipe.Conserved, pipe] at hcons
  have hpre : s.shared.buf.sent <+: s.shared.buf.captured := by
    rw [hcons, List.append_assoc, List.append_assoc]
    exact List.prefix_append _ _
  have hcounts := h.counts
  refine ⟨hpre.map _, fun b hb => h.lengths b (hpre.subset hb), ?_, fun hphase => ?_⟩
  · rintro (hphase | hphase | hphase) <;> rw [hphase] at hcounts <;>
      rw [show s.main.bytesRead = _ from hcounts, BitVec.toNat_ofNat, Nat.mod_eq_of_lt hlt]
  · rw [hphase] at hcounts
    obtain ⟨bs, b, hbs, hread⟩ := hcounts
    rw [hbs, totalBytes_snoc] at hlt
    rw [hread, hbs, List.dropLast_concat, BitVec.toNat_ofNat, Nat.mod_eq_of_lt (by omega)]

/-- In an undisturbed run without read errors, and of less than `2 ^ 32` bytes, the lengths
and the total agree with what the device delivered. -/
theorem recorder_bytes_agree {c : RecorderConfig} {s : RecorderState}
    (h : (recorder c).Reach (fun s a => ReadSucceeds s a ∧ TotalFits s a ∧ Undisturbed s a) s) :
    BytesAgree s := by
  have hinv : Tallied c s ∧ totalBytes s.shared.buf.captured < 2 ^ 32 := by
    refine h.invariant (I := fun s => Tallied c s ∧ totalBytes s.shared.buf.captured < 2 ^ 32)
      (fun s (hi : RecorderInit s) => ?_) fun s a s' hI hG hs => ?_
    · exact ⟨tallied_init hi, by simp [hi.captured, totalBytes]⟩
    · refine ⟨tallied_step hI.1 hG.1 hG.2.2 hs, ?_⟩
      rcases captured_step hG.1 hs with hcap | ⟨hpc, data, rfl, -, hcap⟩
      · exact hcap ▸ hI.2
      · rw [hcap, totalBytes_snoc]
        exact hG.2.1 hpc
  exact hinv.1.bytesAgree hinv.2

theorem recorder_bytes_agree_mp3 :
    ∃ s : RecorderState, s.shared.buf.captured = [[1, 2]] ∧ s.shared.buf.sent = [[1, 2]] ∧
      BytesAgree s := by
  have hrun : ((recorder mp3Config).run
      (fun s a => ReadSucceeds s a ∧ TotalFits s a ∧ Undisturbed s a)
      freshRecorder (untilRead ++ .main (some [1, 2]) :: List.replicate 4 (.main (some [])) ++
        List.replicate 8 .enc)).map
      (fun s => (s.shared.buf.captured, s.shared.buf.sent)) = some ([[1, 2]], [[1, 2]]) := by
    decide +kernel
  obtain ⟨s, hs, heq⟩ := Option.map_eq_some_iff.1 hrun
  obtain ⟨hc, hw⟩ := Prod.mk.inj heq
  exact ⟨s, hc, hw, recorder_bytes_agree (Machine.reach_of_run (.start freshRecorder_init) hs)⟩

/-- After a failed `read` the encoder is sent `2 ^ 32 - 1` bytes. -/
theorem recorder_writes_error :
    ¬∀ (c : RecorderConfig) (s : RecorderState), (recorder c).Reach Undisturbed s →
      BytesAgree s := by
  intro h
  have hrun : ((recorder mp3Config).run Undisturbed freshRecorder
      (untilRead ++ .main none :: List.replicate 4 (.main (some [])) ++
        List.replicate 7 .enc)).map
      (fun s => (s.enc.pc, s.shared.buf.sndbuf,
        (s.shared.buf.heap s.shared.buf.sndbuf).used)) =
        some (.ship ⟨.write, 1, 0⟩, 1, 0xffffffff#32) := by
    decide +kernel
  obtain ⟨s, hs, heq⟩ := Option.map_eq_some_iff.1 hrun
  obtain ⟨hpc, hrest⟩ := Prod.mk.inj heq
  obtain ⟨hbuf, hused⟩ := Prod.mk.inj hrest
  have hwrite : s.shared.buf.write = some { s.shared.buf with
      sent := s.shared.buf.sent ++ [(s.shared.buf.heap s.shared.buf.sndbuf).block] } :=
    Buffers.write_eq_some.2 ⟨by simp [hbuf], rfl⟩
  obtain ⟨s', hstep, hsent⟩ : ∃ s', recorderStep mp3Config s .enc = some s' ∧
      (s.shared.buf.heap s.shared.buf.sndbuf).block ∈ s'.shared.buf.sent := by
    simp [recorderStep, encode, hpc, shipToEncoder, hwrite]
  have hquiet : Undisturbed s .enc := by
    intro t ht hassigns
    obtain rfl := Option.some.inj ht
    simp [RecorderState.assigns, hpc, EncPc.assigns, ShipPc.assigns] at hassigns
  have hreach : (recorder mp3Config).Reach Undisturbed s' :=
    (Machine.reach_of_run (.start freshRecorder_init) hs).next hquiet hstep
  have hle := (h mp3Config s' hreach).le _ hsent
  rw [SndBuffer.length_block, hused] at hle
  exact absurd hle (by decide)

/-! ## The end of the loop -/

/-- The bytes of the duration, as a number. -/
def RecorderConfig.requested (c : RecorderConfig) : ℕ :=
  c.sec.toNat * c.rate.toNat * 4

/-- The loop goes on while at most `limit` bytes are captured, and ends with the first block
that takes them above it. -/
structure StopsAt (limit : ℕ) (s : RecorderState) : Prop where
  head : s.main.pc.phase = .head → totalBytes s.shared.buf.captured ≤ limit
  ended : s.main.pc.phase = .ended → limit < totalBytes s.shared.buf.captured ∧
    totalBytes s.shared.buf.captured.dropLast ≤ limit

/-- Nothing has asked the recorder to stop. -/
def NotStopped (s : RecorderState) (_ : RecorderAct) : Prop :=
  s.shared.stopRequested = 0

instance (s : RecorderState) (a : RecorderAct) : Decidable (NotStopped s a) :=
  inferInstanceAs (Decidable (_ = _))

/-- The bytes captured in each phase of a loop that stops at `limit`. -/
def LoopPhase.Within (limit : ℕ) (captured : List Block) : LoopPhase → Prop
  | .before | .returned => True
  | .head => totalBytes captured ≤ limit
  | .delivered | .added =>
    totalBytes captured.dropLast ≤ limit ∧ totalBytes captured ≤ limit + bufferSize
  | .ended => limit < totalBytes captured ∧ totalBytes captured.dropLast ≤ limit

/-- The 32-bit product is exact as long as it fits. -/
theorem requested_eq {c : RecorderConfig} (hsec : c.sec ≠ 0)
    (hlt : c.requested < 2 ^ 32) : c.totalBytesRequested.toNat = c.requested := by
  have hpos : 0 < c.sec.toNat := Nat.pos_of_ne_zero fun h => hsec (BitVec.eq_of_toNat_eq h)
  have hprod : c.sec.toNat * (c.rate.toNat * 4) = c.requested := by
    rw [RecorderConfig.requested, Nat.mul_assoc]
  have hrate : c.rate.toNat * 4 < 2 ^ 32 :=
    (Nat.le_mul_of_pos_left _ hpos).trans_lt (hprod ▸ hlt)
  rw [RecorderConfig.totalBytesRequested, if_neg hsec, BitVec.toNat_mul, BitVec.toNat_shiftLeft,
    Nat.shiftLeft_eq, show (2 : ℕ) ^ 2 = 4 from rfl, Nat.mod_eq_of_lt hrate, hprod,
    Nat.mod_eq_of_lt hlt]

theorem LoopStep.within {c : RecorderConfig} {r : Option Block} {s s' : Shared}
    {f f' : MainFrame} {limit : ℕ} (h : LoopStep c r s f s' f') (hsec : c.sec ≠ 0)
    (hstop : s.stopRequested = 0) (hc : f.pc.phase.Counts s.buf.captured f.bytesRead)
    (hw : f.pc.phase.Within limit s.buf.captured)
    (htotal : f.pc.phase = .added → f.totalBytesRequested.toNat = limit)
    (hlimit : limit + bufferSize < 2 ^ 32) :
    f'.pc.phase.Within limit s'.buf.captured := by
  have hread : f.pc.phase = .added → (f.totalBytesRequested < f.bytesRead ↔
      limit < totalBytes s.buf.captured) := by
    intro hphase
    rw [hphase] at hc hw
    rw [BitVec.lt_def, htotal hphase, show f.bytesRead = _ from hc, BitVec.toNat_ofNat,
      Nat.mod_eq_of_lt (hw.2.trans_lt hlimit)]
  cases h with
  | stay hphase hcaptured => rwa [hphase, hcaptured]
  | enter hphase hphase' hcaptured =>
    rw [hphase] at hc
    rw [hphase', hcaptured, show s.buf.captured = [] from hc]
    exact Nat.zero_le _
  | read hpc hphase' data hr hlen hcaptured =>
    rw [hpc] at hw
    rw [hphase', hcaptured, LoopPhase.Within, List.dropLast_concat, totalBytes_snoc]
    exact ⟨hw, Nat.add_le_add hw hlen⟩
  | add hphase hphase' hcaptured =>
    rw [hphase] at hw
    rw [hphase', hcaptured]
    exact hw
  | again hphase hphase' hcaptured hbytes htest =>
    rw [hphase', hcaptured]
    exact Nat.le_of_not_lt fun hlt => htest ⟨hsec, (hread hphase).2 hlt⟩
  | leave hphase hphase' hcaptured hbytes htest =>
    have hgt := (hread hphase).1 (htest.resolve_left fun hne => hne hstop).2
    rw [hphase] at hw
    rw [hphase', hcaptured]
    exact ⟨hgt, hw.1⟩
  | «return» hphase' => rw [hphase']; trivial

theorem within_step {c : RecorderConfig} {s s' : RecorderState} {a : RecorderAct}
    (ht : Tallied c s) (hw : s.main.pc.phase.Within c.requested s.shared.buf.captured)
    (hsec : c.sec ≠ 0) (hfit : c.requested + bufferSize < 2 ^ 32) (hr : ReadSucceeds s a)
    (hstop : NotStopped s a) (h : recorderStep c s a = some s') :
    s'.main.pc.phase.Within c.requested s'.shared.buf.captured := by
  cases a with
  | prep =>
    obtain ⟨⟨sh, f⟩, hf, rfl⟩ := Option.map_eq_some_iff.1 h
    exact (effect_of_prepareBuffers hf).captured_eq (.inr f.pc.role_ne_filled) ▸ hw
  | main r =>
    obtain ⟨⟨sh, f⟩, hf, rfl⟩ := Option.map_eq_some_iff.1 h
    rw [spawn_main, spawn_shared]
    refine (loopStep_of_start (fun hpc he => hr hpc (he ▸ rfl)) hf).within hsec hstop ht.counts hw
      (fun hphase => ?_) hfit
    have htotal : s.main.pc.beforeTotal = false := by
      cases hpc : s.main.pc <;> simp [hpc, MainPc.phase, MainPc.beforeTotal] at hphase ⊢
    rw [ht.total htotal, requested_eq hsec (by omega)]
  | enc =>
    obtain ⟨⟨sh, f⟩, hf, rfl⟩ := Option.map_eq_some_iff.1 h
    exact (effect_of_encode hf).captured_eq (.inr f.pc.role_ne_filled) ▸ hw
  | stop =>
    cases h
    exact hw

/-- The recorder stops at the duration asked for, if the bytes of the duration and of one
buffer fit in 32 bits. -/
theorem recorder_stops_at {kbps sec rate : BitVec 32} {s : RecorderState}
    (hfit : (RecorderConfig.ofStart kbps sec rate).requested + bufferSize < 2 ^ 32)
    (h : (recorder (.ofStart kbps sec rate)).Reach
      (fun s a => ReadSucceeds s a ∧ NotStopped s a ∧ Undisturbed s a) s) :
    StopsAt (RecorderConfig.ofStart kbps sec rate).requested s := by
  generalize hc : RecorderConfig.ofStart kbps sec rate = c at *
  have hne : c.sec ≠ 0 := by
    rw [← hc]
    dsimp only [RecorderConfig.ofStart]
    split_ifs with h0
    · decide
    · exact h0
  have hinv : Tallied c s ∧ s.main.pc.phase.Within c.requested s.shared.buf.captured := by
    refine h.invariant
      (I := fun s => Tallied c s ∧ s.main.pc.phase.Within c.requested s.shared.buf.captured)
      (fun s (hi : RecorderInit s) => ?_) fun s a s' hI hG hs => ?_
    · refine ⟨tallied_init hi, ?_⟩
      rw [hi.main]
      trivial
    · exact ⟨tallied_step hI.1 hG.1 hG.2.2 hs, within_step hI.1 hI.2 hne hfit hG.1 hG.2.1 hs⟩
  have hw := hinv.2
  refine ⟨fun hphase => ?_, fun hphase => ?_⟩ <;> rw [hphase] at hw
  · exact hw
  · exact hw

/-- Ten seconds, of which two bytes are captured. -/
theorem recorder_stops_at_mp3 :
    ∃ s : RecorderState, s.main.pc = .lockInput ∧ s.shared.buf.captured = [[1, 2]] ∧
      StopsAt (RecorderConfig.ofStart 128 10 44100).requested s := by
  have hrun : ((recorder (.ofStart 128 10 44100)).run
      (fun s a => ReadSucceeds s a ∧ NotStopped s a ∧ Undisturbed s a)
      freshRecorder (untilRead ++ .main (some [1, 2]) :: List.replicate 6 (.main (some [])))).map
      (fun s => (s.main.pc, s.shared.buf.captured)) = some (.lockInput, [[1, 2]]) := by
    decide +kernel
  obtain ⟨s, hs, heq⟩ := Option.map_eq_some_iff.1 hrun
  obtain ⟨hpc, hcaptured⟩ := Prod.mk.inj heq
  exact ⟨s, hpc, hcaptured, recorder_stops_at (by decide)
    (Machine.reach_of_run (.start freshRecorder_init) hs)⟩

/-- Nine hours at 32768 Hz are `2 ^ 32` bytes, which wrap to none : two bytes end the loop. -/
theorem recorder_stops_early :
    ¬∀ (kbps sec rate : BitVec 32) (s : RecorderState), sec.toNat ≤ 86400 → 0 < rate.toNat →
      rate.toNat ≤ 48000 → (recorder (.ofStart kbps sec rate)).Reach
        (fun s a => ReadSucceeds s a ∧ NotStopped s a ∧ Undisturbed s a) s →
      StopsAt (RecorderConfig.ofStart kbps sec rate).requested s := by
  intro h
  have hrun : ((recorder (.ofStart 128 32768 32768)).run
      (fun s a => ReadSucceeds s a ∧ NotStopped s a ∧ Undisturbed s a)
      freshRecorder (untilRead ++ .main (some [1, 2]) :: List.replicate 6 (.main (some [])))).map
      (fun s => (s.main.pc, s.shared.buf.captured)) = some (.recordingOff, [[1, 2]]) := by
    decide +kernel
  obtain ⟨s, hs, heq⟩ := Option.map_eq_some_iff.1 hrun
  obtain ⟨hpc, hcaptured⟩ := Prod.mk.inj heq
  have hend := ((h 128 32768 32768 s (by decide) (by decide) (by decide)
    (Machine.reach_of_run (.start freshRecorder_init) hs)).ended (by rw [hpc]; rfl)).1
  rw [hcaptured] at hend
  exact absurd hend (by decide)

end LxToolset
