import LxToolset.RecorderBytes

/-!
# The WAV header

`start` fills in five fields of the header that it writes before the stream. `Describes` says
what they should be, `recorder_header_wrong` which of them are : every run writes a header with
four times the rate and with eight bytes too many in the length of the file.
-/

namespace LxToolset

/-- The header describes `sec` seconds of the stream at the rate of the recorder. -/
structure RecorderConfig.Describes (c : RecorderConfig) (h : WaveHeader) : Prop where
  sampleRate : h.sampleRate = c.rate
  blockAlign : h.blockAlign.toNat = h.channels.toNat * h.bits.toNat / 8
  bytesPerSecond : h.bytesPerSecond.toNat = h.sampleRate.toNat * h.blockAlign.toNat
  dataLength : c.requested ≤ h.dataLength.toNat
  /-- The file but for its first two words; `sizeof(m_genericWaveHeader)` is 44. -/
  fileLength : h.fileLength.toNat = h.dataLength.toNat + 44 - 8

/-! ## The header of a run -/

/-- The header as it is set, and as it was written. -/
def Shared.headers (s : Shared) : WaveHeader × Option WaveHeader :=
  (s.header, s.headerSent)

section Threads

variable {s s' : Shared} {t : Thread}

theorem headers_of_shipToEncoder {wanted : Bool} {f f' : ShipFrame}
    (h : shipToEncoder t wanted f s = some (s', f')) : s'.headers = s.headers := by
  have hframe := congrArg Shared.headers (frame_of_shipToEncoder h)
  exact hframe

theorem headers_of_prepareBuffers {c : RecorderConfig} {f f' : PrepFrame}
    (h : prepareBuffers c f s = some (s', f')) : s'.headers = s.headers := by
  obtain ⟨pc, onesecond, i, sz⟩ := f
  cases pc <;>
    simp only [prepareBuffers, Option.map_eq_some_iff, Option.some.injEq, Prod.mk.injEq,
      reduceCtorEq] at h
  case pushLock | sizeLock =>
    obtain ⟨s₁, hs, rfl, -⟩ := h
    obtain ⟨-, rfl⟩ := Shared.lockInput_eq_some.1 hs
    rfl
  case pushUnlock | sizeUnlock =>
    obtain ⟨s₁, hs, rfl, -⟩ := h
    obtain ⟨-, rfl⟩ := Shared.unlockInput_eq_some.1 hs
    rfl
  case memset =>
    obtain ⟨b, -, rfl, -⟩ := h
    rfl
  all_goals
    obtain ⟨rfl, -⟩ := h
    rfl

theorem headers_of_encode {c : RecorderConfig} {f f' : EncFrame}
    (h : encode c f s = some (s', f')) : s'.headers = s.headers := by
  obtain ⟨pc, lastSize, bytesProcessed, processed⟩ := f
  cases pc
  case ship g =>
    obtain ⟨-, rfl, -⟩ | ⟨g', hg, -⟩ := encode_ship h
    · rfl
    · exact headers_of_shipToEncoder hg
  case notCreated | exited => cases h
  all_goals
    cases h
    rfl

end Threads

/-- A statement of `start` sets the header, writes it or leaves it alone. -/
theorem headers_of_start {c : RecorderConfig} {r : Option Block} {exited : Bool}
    {f f' : MainFrame} {s s' : Shared} (h : start c r exited f s = some (s', f')) :
    f.pc = .setHeader ∧ s'.headers = (c.waveHeader, s.headerSent) ∨
      f.pc = .writeHeader ∧ s'.headers = (s.header, some s.header) ∨
      f.pc ≠ .setHeader ∧ s'.headers = s.headers := by
  obtain ⟨pc, total, bytesRead⟩ := f
  cases pc
  case drain g =>
    refine .inr (.inr ⟨by simp, ?_⟩)
    obtain ⟨-, rfl, -⟩ | ⟨g', hg, -⟩ := start_drain h
    · rfl
    · exact headers_of_shipToEncoder hg
  case returned => cases h
  case setHeader =>
    cases h
    exact .inl ⟨rfl, rfl⟩
  case writeHeader =>
    cases h
    exact .inr (.inl ⟨rfl, rfl⟩)
  case join =>
    cases exited <;> cases h
    exact .inr (.inr ⟨by simp, rfl⟩)
  case lockInput =>
    obtain ⟨s₁, hs, heq⟩ := Option.map_eq_some_iff.1 h
    obtain ⟨-, rfl⟩ := Shared.lockInput_eq_some.1 hs
    cases heq
    exact .inr (.inr ⟨by simp, rfl⟩)
  case unlockNull | unlockInput =>
    obtain ⟨s₁, hs, heq⟩ := Option.map_eq_some_iff.1 h
    obtain ⟨-, rfl⟩ := Shared.unlockInput_eq_some.1 hs
    cases heq
    exact .inr (.inr ⟨by simp, rfl⟩)
  case lockFull =>
    obtain ⟨s₁, hs, heq⟩ := Option.map_eq_some_iff.1 h
    obtain ⟨-, rfl⟩ := Shared.lockFull_eq_some.1 hs
    cases heq
    exact .inr (.inr ⟨by simp, rfl⟩)
  case unlockFull =>
    obtain ⟨s₁, hs, heq⟩ := Option.map_eq_some_iff.1 h
    obtain ⟨-, rfl⟩ := Shared.unlockFull_eq_some.1 hs
    cases heq
    exact .inr (.inr ⟨by simp, rfl⟩)
  case loadFront | usedZero | popFront | read | addBytes =>
    obtain ⟨_, -, heq⟩ := Option.map_eq_some_iff.1 h
    cases heq
    exact .inr (.inr ⟨by simp, rfl⟩)
  all_goals
    cases h
    exact .inr (.inr ⟨by simp, rfl⟩)

/-- The header is set before it is used, and no other is written. -/
structure HeaderSet (c : RecorderConfig) (s : RecorderState) : Prop where
  set : s.main.pc ≠ .setHeader → s.shared.header = c.waveHeader
  sent : ∀ hdr, s.shared.headerSent = some hdr → hdr = c.waveHeader

theorem headerSet_step {c : RecorderConfig} {s s' : RecorderState} {a : RecorderAct}
    (hs : HeaderSet c s) (h : recorderStep c s a = some s') : HeaderSet c s' := by
  have hsame : ∀ sh : Shared, sh.headers = s.shared.headers →
      (s.main.pc ≠ .setHeader → sh.header = c.waveHeader) ∧
        ∀ hdr, sh.headerSent = some hdr → hdr = c.waveHeader := by
    intro sh heq
    obtain ⟨hheader, hsent⟩ := Prod.mk.inj heq
    exact ⟨hheader ▸ hs.set, hsent ▸ hs.sent⟩
  cases a with
  | prep =>
    obtain ⟨⟨sh, f⟩, hf, rfl⟩ := Option.map_eq_some_iff.1 h
    obtain ⟨hset, hsent⟩ := hsame sh (headers_of_prepareBuffers hf)
    exact ⟨hset, hsent⟩
  | main r =>
    obtain ⟨⟨sh, f⟩, hf, rfl⟩ := Option.map_eq_some_iff.1 h
    refine ⟨fun _ => ?_, ?_⟩ <;> rw [spawn_shared]
    · obtain ⟨-, heq⟩ | ⟨hpc, heq⟩ | ⟨hpc, heq⟩ := headers_of_start hf
      · exact (Prod.mk.inj heq).1
      · exact (Prod.mk.inj heq).1.trans (hs.set (by simp [hpc]))
      · exact (hsame sh heq).1 hpc
    · obtain ⟨-, heq⟩ | ⟨hpc, heq⟩ | ⟨-, heq⟩ := headers_of_start hf
      · exact (Prod.mk.inj heq).2 ▸ hs.sent
      · intro hdr hhdr
        have hwritten := Option.some.inj ((Prod.mk.inj heq).2.symm.trans hhdr)
        exact hwritten ▸ hs.set (by simp [hpc])
      · exact (hsame sh heq).2
  | enc =>
    obtain ⟨⟨sh, f⟩, hf, rfl⟩ := Option.map_eq_some_iff.1 h
    obtain ⟨hset, hsent⟩ := hsame sh (headers_of_encode hf)
    exact ⟨hset, hsent⟩
  | stop =>
    cases h
    exact ⟨hs.set, hs.sent⟩

/-- Every run writes the header that `start` sets. -/
theorem headerSent_eq {c : RecorderConfig} {s : RecorderState}
    (h : (recorder c).Reach Machine.free s) {hdr : WaveHeader}
    (hsent : s.shared.headerSent = some hdr) : hdr = c.waveHeader := by
  have hinv : HeaderSet c s := by
    refine h.invariant (I := HeaderSet c) (fun s (hi : RecorderInit s) => ?_)
      fun s a s' hI _ hs => headerSet_step hI hs
    exact ⟨fun hpc => absurd hi.main hpc, by simp [hi.headerSent]⟩
  exact hinv.sent hdr hsent

/-! ## Its fields -/

section Fields

variable {c : RecorderConfig}

theorem fileLength_ne (c : RecorderConfig) :
    c.waveHeader.fileLength.toNat ≠ c.waveHeader.dataLength.toNat + 44 - 8 := by
  have hlt := c.waveHeader.dataLength.isLt
  have hfile : c.waveHeader.fileLength.toNat = (c.waveHeader.dataLength.toNat + 44) % 2 ^ 32 := by
    simp [RecorderConfig.waveHeader]
  omega

theorem toNat_sampleRate (hrate : c.rate.toNat ≤ 48000) :
    c.waveHeader.sampleRate.toNat = c.rate.toNat * 4 := by
  simp only [RecorderConfig.waveHeader, BitVec.toNat_shiftLeft, Nat.shiftLeft_eq]
  omega

/-- The length is that of one second more, and long enough if it does not wrap around. -/
theorem requested_le_dataLength_iff (hsec : c.sec.toNat ≤ 86400) (hrate : c.rate.toNat ≤ 48000) :
    c.requested ≤ c.waveHeader.dataLength.toNat ↔
      c.rate.toNat * 4 * (c.sec.toNat + 1) < 2 ^ 32 := by
  have hsucc : (c.sec + 1).toNat = c.sec.toNat + 1 := by
    rw [BitVec.toNat_add, Nat.mod_eq_of_lt]
    · rfl
    · change c.sec.toNat + 1 < 2 ^ 32
      omega
  have hlen : c.waveHeader.dataLength.toNat =
      c.rate.toNat * 4 * (c.sec.toNat + 1) % 2 ^ 32 := by
    rw [← toNat_sampleRate hrate, ← hsucc]
    exact BitVec.toNat_mul ..
  have hreq : c.rate.toNat * 4 * (c.sec.toNat + 1) = c.requested + c.rate.toNat * 4 := by
    rw [RecorderConfig.requested, Nat.mul_add, Nat.mul_one, Nat.mul_comm, Nat.mul_assoc]
  rw [hlen, hreq]
  omega

/-- Of the five fields the header of a run has the sample rate and the length of the file
wrong, whatever is recorded. -/
theorem recorder_header_wrong {s : RecorderState} {hdr : WaveHeader}
    (hsec : c.sec.toNat ≤ 86400) (hpos : 0 < c.rate.toNat) (hrate : c.rate.toNat ≤ 48000)
    (h : (recorder c).Reach Machine.free s) (hsent : s.shared.headerSent = some hdr) :
    ¬c.Describes hdr ∧ hdr.sampleRate ≠ c.rate ∧
      hdr.fileLength.toNat ≠ hdr.dataLength.toNat + 44 - 8 ∧
      hdr.blockAlign.toNat = hdr.channels.toNat * hdr.bits.toNat / 8 ∧
      (hdr.bytesPerSecond.toNat = hdr.sampleRate.toNat * hdr.blockAlign.toNat ↔
        c.kbps.toNat = 16 * c.rate.toNat) ∧
      (c.requested ≤ hdr.dataLength.toNat ↔
        c.rate.toNat * 4 * (c.sec.toNat + 1) < 2 ^ 32) := by
  obtain rfl := headerSent_eq h hsent
  have hrate' := toNat_sampleRate hrate
  refine ⟨fun hd => fileLength_ne c hd.fileLength, fun heq => ?_, fileLength_ne c, ?_, ?_,
    requested_le_dataLength_iff hsec hrate⟩
  · rw [heq] at hrate'
    omega
  · simp [RecorderConfig.waveHeader, genericWaveHeader]
  · have halign : c.waveHeader.blockAlign.toNat = 4 := rfl
    have hbytes : c.waveHeader.bytesPerSecond = c.kbps := rfl
    rw [hrate', halign, hbytes]
    omega

end Fields

/-- The header of ten seconds at 44100 Hz. -/
theorem recorder_header_wrong_mp3 : ∃ s hdr, (recorder mp3Config).Reach Machine.free s ∧
    s.shared.headerSent = some hdr ∧ ¬mp3Config.Describes hdr ∧ hdr.sampleRate ≠ mp3Config.rate := by
  have hrun : ((recorder mp3Config).run Machine.free freshRecorder untilRead).map
      (fun s => s.shared.headerSent.isSome) = some true := by
    decide +kernel
  obtain ⟨s, hs, hsome⟩ := Option.map_eq_some_iff.1 hrun
  obtain ⟨hdr, hsent⟩ := Option.isSome_iff_exists.1 hsome
  have hreach := Machine.reach_of_run (.start freshRecorder_init) hs
  have hwrong := recorder_header_wrong (by decide) (by decide) (by decide) hreach hsent
  exact ⟨s, hdr, hreach, hsent, hwrong.1, hwrong.2.1⟩

/-- It is written with a sample rate of 176400. -/
theorem recorder_header_not_described : ¬∀ (c : RecorderConfig) (s : RecorderState)
    (hdr : WaveHeader), 0 < c.sec.toNat → c.sec.toNat ≤ 86400 → 0 < c.rate.toNat →
      c.rate.toNat ≤ 48000 → (recorder c).Reach Machine.free s →
      s.shared.headerSent = some hdr → c.Describes hdr := by
  intro h
  have hrun : ((recorder mp3Config).run Machine.free freshRecorder untilRead).map
      (fun s => s.shared.headerSent.map (·.sampleRate)) = some (some 176400) := by
    decide +kernel
  obtain ⟨s, hs, hmap⟩ := Option.map_eq_some_iff.1 hrun
  obtain ⟨hdr, hsent, hsample⟩ := Option.map_eq_some_iff.1 hmap
  have hd := h mp3Config s hdr (by decide) (by decide) (by decide) (by decide)
    (Machine.reach_of_run (.start freshRecorder_init) hs) hsent
  exact absurd (hsample.symm.trans hd.sampleRate) (by decide)

end LxToolset
