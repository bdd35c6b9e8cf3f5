import LxToolset.Pipeline
import LxToolset.Recorder

/-!
# Who owns `m_pSndbuf`

The three threads of the recorder pass buffers through one member, `m_pSndbuf`. A
thread's `Role` says what that member is to it at its next statement. A run is
undisturbed as long as no thread assigns `m_pSndbuf` while it is something to another
thread (`Undisturbed`). `Effect` lists what a statement can do to the buffers,
`effect_of_step` finds it for every statement of the program, and on undisturbed runs
every effect keeps the buffers owned (`Owned`) and is a step of a `Pipe` of blocks or
none (`Effect.refines`).
-/

namespace LxToolset

/-- What `m_pSndbuf` is to a thread about to run its next statement. -/
inductive Role where
  /-- Nothing : the thread assigns it before it uses it again, or never uses it. -/
  | idle
  /-- The front of `m_inputBuffers`. -/
  | inFront
  /-- A buffer of its own, in no deque. -/
  | owned
  /-- A buffer of its own that holds a block of the sound device. -/
  | filled
  /-- The front of `m_fullBuffers`. -/
  | outFront
  /-- A buffer of its own that is still to be written to the encoder. -/
  | sending
  deriving DecidableEq

def PrepPc.role : PrepPc → Role
  | .memset | .pushLock | .push => .owned
  | _ => .idle

def ShipPc.role : ShipPc → Role
  | .pop => .outFront
  | .unlock | .write => .sending
  | _ => .idle

def MainPc.role : MainPc → Role
  | .testNull | .popFront => .inFront
  | .usedZero | .unlockInput | .read => .owned
  | .addBytes | .lockFull | .pushFull => .filled
  | .drain f => f.pc.role
  | _ => .idle

def EncPc.role : EncPc → Role
  | .ship f => f.pc.role
  | _ => .idle

def RecorderState.role (s : RecorderState) : Thread → Role
  | .prep => s.prep.pc.role
  | .main => s.main.pc.role
  | .enc => s.enc.pc.role

def PrepPc.assigns : PrepPc → Bool
  | .newBuffer => true
  | _ => false

def ShipPc.assigns : ShipPc → Bool
  | .load => true
  | _ => false

def MainPc.assigns : MainPc → Bool
  | .loadFront | .newBuffer => true
  | .drain f => f.pc.assigns
  | _ => false

def EncPc.assigns : EncPc → Bool
  | .ship f => f.pc.assigns
  | _ => false

/-- The next statement of the thread assigns `m_pSndbuf`. -/
def RecorderState.assigns (s : RecorderState) : Thread → Bool
  | .prep => s.prep.pc.assigns
  | .main => s.main.pc.assigns
  | .enc => s.enc.pc.assigns

/-- No other thread still needs the `m_pSndbuf` that this step assigns. -/
def Undisturbed (s : RecorderState) (a : RecorderAct) : Prop :=
  ∀ t, a.thread = some t → s.assigns t = true → ∀ u, u ≠ t → s.role u = .idle

/-- `read` on the sound device succeeds. -/
def ReadSucceeds (s : RecorderState) (a : RecorderAct) : Prop :=
  s.main.pc = .read → a ≠ .main none

/-- `start` has not yet created the thread of `prepareBuffers`. -/
def MainPc.beforePrep : MainPc → Bool
  | .setHeader | .createPrep => true
  | _ => false

/-- `start` has not yet created the thread of `encode`. -/
def MainPc.beforeEnc : MainPc → Bool
  | .setHeader | .createPrep | .waitInit | .setTotal | .openDevices | .recordingOn
  | .writeHeader | .createEncode => true
  | _ => false

instance (s : RecorderState) (a : RecorderAct) : Decidable (Undisturbed s a) :=
  inferInstanceAs (Decidable (∀ t, a.thread = some t → s.assigns t = true →
    ∀ u, u ≠ t → s.role u = .idle))

instance (s : RecorderState) (a : RecorderAct) : Decidable (ReadSucceeds s a) :=
  inferInstanceAs (Decidable (s.main.pc = .read → a ≠ .main none))

/-! ## Effects on the buffers -/

/-- What one statement does to its thread's role and to the buffers. `assigning` if the
statement assigns `m_pSndbuf`. -/
inductive Effect (assigning : Bool) : Role → Buffers → Role → Buffers → Prop where
  | quiet (r : Role) (b : Buffers) : Effect assigning r b r b
  | null {b : Buffers} (h : b.sndbuf = 0) : Effect assigning .inFront b .idle b
  | alloc {b : Buffers} (ha : assigning = true) : Effect assigning .idle b .owned b.newBuffer
  | blank {b b' : Buffers} {v : SndBuffer} (h : b.store v = some b') :
    Effect assigning .owned b .owned b'
  | pushInput {b : Buffers} : Effect assigning .owned b .idle b.pushInput
  | loadInput {b b' : Buffers} (ha : assigning = true) (h : b.loadInput = some b') :
    Effect assigning .idle b .inFront b'
  | popInput {b b' : Buffers} (h : b.popInput = some b') : Effect assigning .inFront b .owned b'
  | readDsp {b b' : Buffers} {data : Block} (h : b.readDsp (some data) = some b') :
    Effect assigning .owned b .filled b'
  | pushFull {b : Buffers} : Effect assigning .filled b .idle b.pushFull
  | loadFull {b b' : Buffers} (ha : assigning = true) (h : b.loadFull = some b') :
    Effect assigning .idle b .outFront b'
  | popFull {b b' : Buffers} (h : b.popFull = some b') : Effect assigning .outFront b .sending b'
  | write {b b' : Buffers} (h : b.write = some b') : Effect assigning .sending b .idle b'

/-! ## Ownership -/

/-- The role `r` fits the buffers. -/
def Role.Fits (b : Buffers) : Role → Prop
  | .idle => True
  | .inFront => b.inputBuffers.head? = some b.sndbuf
  | .outFront => b.fullBuffers.head? = some b.sndbuf
  | .owned | .filled | .sending =>
    0 < b.sndbuf ∧ b.sndbuf < b.fresh ∧ b.sndbuf ∉ b.inputBuffers ++ b.fullBuffers

/-- No buffer is in two places, where `m_pSndbuf` has the role `r`. -/
structure Owned (r : Role) (b : Buffers) : Prop where
  nodup : (b.inputBuffers ++ b.fullBuffers).Nodup
  live : ∀ p ∈ b.inputBuffers ++ b.fullBuffers, 0 < p ∧ p < b.fresh
  fresh_pos : 0 < b.fresh
  fits : r.Fits b

/-- The buffers as a pipeline of blocks. -/
def pipe (r : Role) (b : Buffers) : Pipe Block where
  captured := b.captured
  filled := if r = .filled then some (b.heap b.sndbuf).block else none
  queue := b.fullBuffers.map fun p => (b.heap p).block
  taken := if r = .sending then some (b.heap b.sndbuf).block else none
  sent := b.sent

/-- A store through a buffer of no deque leaves the queued blocks alone. -/
theorem map_block_update {b : Buffers} {v : SndBuffer} (h : b.sndbuf ∉ b.fullBuffers) :
    (b.fullBuffers.map fun p => (Function.update b.heap b.sndbuf v p).block) =
      b.fullBuffers.map fun p => (b.heap p).block := by
  refine List.map_congr_left fun p hp => ?_
  rw [Function.update_of_ne]
  rintro rfl
  exact h hp

theorem Buffers.store_eq_some {b b' : Buffers} {v : SndBuffer} :
    b.store v = some b' ↔
      b.sndbuf ≠ 0 ∧ b' = { b with heap := Function.update b.heap b.sndbuf v } := by
  unfold store
  split_ifs with h <;> simp [h, eq_comm]

theorem Buffers.write_eq_some {b b' : Buffers} :
    b.write = some b' ↔
      b.sndbuf ≠ 0 ∧ b' = { b with sent := b.sent ++ [(b.heap b.sndbuf).block] } := by
  unfold write
  split_ifs with h <;> simp [h, eq_comm]

theorem Buffers.readDsp_eq_some {b b' : Buffers} {data : Block} :
    b.readDsp (some data) = some b' ↔ data.length ≤ bufferSize ∧ b.sndbuf ≠ 0 ∧
      b' = { b with captured := b.captured ++ [data],
                    heap := Function.update b.heap b.sndbuf
                      ((b.heap b.sndbuf).receive (some data)) } := by
  unfold readDsp
  split_ifs with h
  · rw [store_eq_some]
    exact (and_iff_right h).symm
  · simpa using fun hle => absurd hle h

theorem Buffers.store_of_readDsp_none {b b' : Buffers} (h : b.readDsp none = some b') :
    b.store ((b.heap b.sndbuf).receive none) = some b' := by
  unfold readDsp at h
  simpa using h

theorem Buffers.loadInput_eq_some {b b' : Buffers} :
    b.loadInput = some b' ↔ ∃ p q, b.inputBuffers = p :: q ∧ b' = { b with sndbuf := p } := by
  unfold loadInput
  cases b.inputBuffers <;> simp [eq_comm]

theorem Buffers.popInput_eq_some {b b' : Buffers} :
    b.popInput = some b' ↔ ∃ p q, b.inputBuffers = p :: q ∧ b' = { b with inputBuffers := q } := by
  unfold popInput
  cases b.inputBuffers <;> simp [eq_comm]

theorem Buffers.loadFull_eq_some {b b' : Buffers} :
    b.loadFull = some b' ↔ ∃ p q, b.fullBuffers = p :: q ∧ b' = { b with sndbuf := p } := by
  unfold loadFull
  cases b.fullBuffers <;> simp [eq_comm]

theorem Buffers.popFull_eq_some {b b' : Buffers} :
    b.popFull = some b' ↔ ∃ p q, b.fullBuffers = p :: q ∧
      b' = { b with fullBuffers := q, popped := b.popped + 1 } := by
  unfold popFull
  cases b.fullBuffers <;> simp [eq_comm]

/-- An effect keeps the buffers owned, and is a step of the pipeline or none. -/
theorem Effect.refines {assigning : Bool} {r r' : Role} {b b' : Buffers}
    (h : Effect assigning r b r' b') (ho : Owned r b) :
    Owned r' b' ∧
      (pipe r' b' = pipe r b ∨ ∃ act, (pipe r b).step act = some (pipe r' b')) := by
  obtain ⟨nodup, live, fresh_pos, fits⟩ := ho
  cases h with
  | quiet => exact ⟨⟨nodup, live, fresh_pos, fits⟩, .inl rfl⟩
  | null => exact ⟨⟨nodup, live, fresh_pos, trivial⟩, .inl rfl⟩
  | alloc =>
    refine ⟨⟨nodup, fun p hp => ⟨(live p hp).1, (live p hp).2.trans (Nat.lt_succ_self _)⟩,
      Nat.succ_pos _, fresh_pos, Nat.lt_succ_self _, fun hp => ?_⟩, .inl rfl⟩
    exact lt_irrefl _ (live _ hp).2
  | blank h =>
    obtain ⟨-, rfl⟩ := Buffers.store_eq_some.1 h
    obtain ⟨hpos, hlt, hmem⟩ := fits
    refine ⟨⟨nodup, live, fresh_pos, hpos, hlt, hmem⟩, .inl ?_⟩
    simp only [pipe, map_block_update fun hp => hmem (List.mem_append_right _ hp)]
    simp
  | pushInput =>
    obtain ⟨hpos, hlt, hmem⟩ := fits
    refine ⟨⟨?_, ?_, fresh_pos, trivial⟩, .inl rfl⟩
    · simp only [Buffers.pushInput, List.nodup_append, List.mem_append] at nodup hmem ⊢
      grind
    · simp only [Buffers.pushInput, List.mem_append] at live ⊢
      grind
  | loadInput _ h =>
    obtain ⟨p, q, hq, rfl⟩ := Buffers.loadInput_eq_some.1 h
    exact ⟨⟨nodup, live, fresh_pos, by simp [Role.Fits, hq]⟩, .inl rfl⟩
  | popInput h =>
    obtain ⟨p, q, hq, rfl⟩ := Buffers.popInput_eq_some.1 h
    obtain rfl : p = b.sndbuf := by simpa [Role.Fits, hq] using fits
    rw [hq, List.cons_append] at nodup live
    obtain ⟨hmem, nodup⟩ := List.nodup_cons.1 nodup
    obtain ⟨hpos, hlt⟩ := live _ List.mem_cons_self
    exact ⟨⟨nodup, fun p hp => live p (List.mem_cons_of_mem _ hp), fresh_pos, hpos, hlt, hmem⟩,
      .inl rfl⟩
  | @readDsp b b' data h =>
    obtain ⟨hlen, -, rfl⟩ := Buffers.readDsp_eq_some.1 h
    obtain ⟨hpos, hlt, hmem⟩ := fits
    refine ⟨⟨nodup, live, fresh_pos, hpos, hlt, hmem⟩, .inr ⟨.capture data, ?_⟩⟩
    simp only [pipe, map_block_update fun hp => hmem (List.mem_append_right _ hp)]
    simp [Pipe.step, SndBuffer.block_receive _ hlen]
  | pushFull =>
    obtain ⟨hpos, hlt, hmem⟩ := fits
    refine ⟨⟨?_, ?_, fresh_pos, trivial⟩, .inr ⟨.put, ?_⟩⟩
    · simp only [Buffers.pushFull, List.nodup_append, List.mem_append] at nodup hmem ⊢
      grind
    · simp only [Buffers.pushFull, List.mem_append] at live ⊢
      grind
    · simp [pipe, Pipe.step, Buffers.pushFull]
  | loadFull _ h =>
    obtain ⟨p, q, hq, rfl⟩ := Buffers.loadFull_eq_some.1 h
    exact ⟨⟨nodup, live, fresh_pos, by simp [Role.Fits, hq]⟩, .inl rfl⟩
  | popFull h =>
    obtain ⟨p, q, hq, rfl⟩ := Buffers.popFull_eq_some.1 h
    obtain rfl : p = b.sndbuf := by simpa [Role.Fits, hq] using fits
    obtain ⟨hpos, hlt⟩ := live b.sndbuf (by simp [hq])
    rw [hq] at nodup live
    obtain ⟨hmem, nodup⟩ := List.nodup_cons.1 (List.nodup_middle.1 nodup)
    refine ⟨⟨nodup, fun p hp => live p ?_, fresh_pos, hpos, hlt, hmem⟩, .inr ⟨.take, ?_⟩⟩
    · simp only [List.mem_append, List.mem_cons] at hp ⊢
      tauto
    · simp [pipe, Pipe.step, hq]
  | write h =>
    obtain ⟨-, rfl⟩ := Buffers.write_eq_some.1 h
    exact ⟨⟨nodup, live, fresh_pos, trivial⟩, .inr ⟨.send, by simp [pipe, Pipe.step]⟩⟩

/-! ## The statements -/

/-- No thread runs before `start` creates it. -/
structure Created (s : RecorderState) : Prop where
  prep : s.main.pc.beforePrep = true → s.prep.pc = .notCreated
  enc : s.main.pc.beforeEnc = true → s.enc.pc = .notCreated

theorem Shared.lockInput_buf {s s' : Shared} {t : Thread} (h : s.lockInput t = some s') :
    s'.buf = s.buf := by
  obtain ⟨-, rfl⟩ := lockInput_eq_some.1 h
  rfl

theorem Shared.unlockInput_buf {s s' : Shared} {t : Thread} (h : s.unlockInput t = some s') :
    s'.buf = s.buf := by
  obtain ⟨-, rfl⟩ := unlockInput_eq_some.1 h
  rfl

theorem Shared.lockFull_buf {s s' : Shared} {t : Thread} (h : s.lockFull t = some s') :
    s'.buf = s.buf := by
  obtain ⟨-, rfl⟩ := lockFull_eq_some.1 h
  rfl

theorem Shared.unlockFull_buf {s s' : Shared} {t : Thread} (h : s.unlockFull t = some s') :
    s'.buf = s.buf := by
  obtain ⟨-, rfl⟩ := unlockFull_eq_some.1 h
  rfl

theorem effect_of_shipToEncoder {t : Thread} {wanted : Bool} {f f' : ShipFrame} {s s' : Shared}
    (h : shipToEncoder t wanted f s = some (s', f')) :
    Effect f.pc.assigns f.pc.role s.buf f'.pc.role s'.buf := by
  obtain ⟨pc, lastSize, processed⟩ := f
  cases pc <;>
    simp only [shipToEncoder, Option.map_eq_some_iff, Option.some.injEq, Prod.mk.injEq,
      reduceCtorEq] at h
  case size | emptyProcessed | decLastSize =>
    obtain ⟨rfl, rfl⟩ := h
    exact .quiet _ _
  case lock =>
    obtain ⟨s₁, hs, rfl, rfl⟩ := h
    exact Shared.lockFull_buf hs ▸ .quiet _ _
  case emptyUnlock | unlock =>
    obtain ⟨s₁, hs, rfl, rfl⟩ := h
    exact Shared.unlockFull_buf hs ▸ .quiet _ _
  case emptyTest =>
    obtain ⟨rfl, rfl⟩ := h
    dsimp only
    split <;> exact .quiet _ _
  case load =>
    obtain ⟨b, hb, rfl, rfl⟩ := h
    exact .loadFull rfl hb
  case pop =>
    obtain ⟨b, hb, rfl, rfl⟩ := h
    exact .popFull hb
  case write =>
    obtain ⟨b, hb, rfl, rfl⟩ := h
    exact .write hb
  case setProcessed =>
    split_ifs at h
    · obtain ⟨n, hn, heq⟩ := Option.map_eq_some_iff.1 h
      cases heq
      exact .quiet _ _
    · cases h
      exact .quiet _ _

/-- `shipToEncoder` works on the buffers, under their mutex. -/
theorem frame_of_shipToEncoder {t : Thread} {wanted : Bool} {f f' : ShipFrame} {s s' : Shared}
    (h : shipToEncoder t wanted f s = some (s', f')) :
    s' = { s with buf := s'.buf, fullBuffersLock := s'.fullBuffersLock } := by
  obtain ⟨pc, lastSize, processed⟩ := f
  cases pc <;>
    simp only [shipToEncoder, Option.map_eq_some_iff, Option.some.injEq, Prod.mk.injEq,
      reduceCtorEq] at h
  case lock =>
    obtain ⟨s₁, hs, rfl, -⟩ := h
    obtain ⟨-, rfl⟩ := Shared.lockFull_eq_some.1 hs
    rfl
  case emptyUnlock | unlock =>
    obtain ⟨s₁, hs, rfl, -⟩ := h
    obtain ⟨-, rfl⟩ := Shared.unlockFull_eq_some.1 hs
    rfl
  case load | pop | write =>
    obtain ⟨b, -, rfl, -⟩ := h
    rfl
  case setProcessed =>
    split_ifs at h
    · obtain ⟨n, -, heq⟩ := Option.map_eq_some_iff.1 h
      cases heq
      rfl
    · cases h
      rfl
  all_goals
    obtain ⟨rfl, -⟩ := h
    rfl

theorem effect_of_prepareBuffers {c : RecorderConfig} {f f' : PrepFrame} {s s' : Shared}
    (h : prepareBuffers c f s = some (s', f')) :
    Effect f.pc.assigns f.pc.role s.buf f'.pc.role s'.buf := by
  obtain ⟨pc, onesecond, i, sz⟩ := f
  cases pc <;>
    simp only [prepareBuffers, Option.map_eq_some_iff, Option.some.injEq, Prod.mk.injEq,
      reduceCtorEq] at h
  case onesecond | onesecondInc | forInit | forInc | size | ready | yield =>
    obtain ⟨rfl, rfl⟩ := h
    exact .quiet _ _
  case pushLock | sizeLock =>
    obtain ⟨s₁, hs, rfl, rfl⟩ := h
    exact Shared.lockInput_buf hs ▸ .quiet _ _
  case pushUnlock =>
    obtain ⟨s₁, hs, rfl, rfl⟩ := h
    exact Shared.unlockInput_buf hs ▸ .quiet _ _
  case sizeUnlock ready =>
    obtain ⟨s₁, hs, rfl, rfl⟩ := h
    cases ready <;> exact Shared.unlockInput_buf hs ▸ .quiet _ _
  case forTest =>
    obtain ⟨rfl, rfl⟩ := h
    dsimp only
    split <;> exact .quiet _ _
  case whileTest =>
    obtain ⟨rfl, rfl⟩ := h
    dsimp only
    split <;> exact .quiet _ _
  case newBuffer =>
    obtain ⟨rfl, rfl⟩ := h
    exact .alloc rfl
  case memset =>
    obtain ⟨b, hb, rfl, rfl⟩ := h
    exact .blank hb
  case push =>
    obtain ⟨rfl, rfl⟩ := h
    exact .pushInput

/-- A statement of `encode` in its call of `shipToEncoder`. -/
theorem encode_ship {c : RecorderConfig} {g : ShipFrame} {lastSize : ℕ}
    {bytesProcessed processed : BitVec 32} {f' : EncFrame} {s s' : Shared}
    (h : encode c ⟨.ship g, lastSize, bytesProcessed, processed⟩ s = some (s', f')) :
    (g.pc = .ret ∧ s' = s ∧ f' = ⟨.addProcessed, g.lastSize, bytesProcessed, g.processed⟩) ∨
      ∃ g', shipToEncoder .enc true g s = some (s', g') ∧
        f' = ⟨.ship g', lastSize, bytesProcessed, processed⟩ := by
  obtain ⟨pc, n, p⟩ := g
  by_cases hret : pc = .ret
  · subst hret
    cases h
    exact .inl ⟨rfl, rfl, rfl⟩
  · have hcall : (shipToEncoder .enc true ⟨pc, n, p⟩ s).map (fun x =>
        (x.1, (⟨.ship x.2, lastSize, bytesProcessed, processed⟩ : EncFrame))) =
          some (s', f') := by
      cases pc <;> first | exact absurd rfl hret | exact h
    obtain ⟨⟨s₁, g'⟩, hg, heq⟩ := Option.map_eq_some_iff.1 hcall
    cases heq
    exact .inr ⟨g', hg, rfl⟩

/-- A statement of `start` in its calls of `shipToEncoder`, which it repeats up to the last
buffer. -/
theorem start_drain {c : RecorderConfig} {r : Option Block} {exited : Bool} {g : ShipFrame}
    {total bytesRead : BitVec 32} {f' : MainFrame} {s s' : Shared}
    (h : start c r exited ⟨.drain g, total, bytesRead⟩ s = some (s', f')) :
    (g.pc = .ret ∧ s' = s ∧
      f' = ⟨if g.lastSize = 0 then .pclose else .drain ⟨.lock, 0, 0⟩, total, bytesRead⟩) ∨
      ∃ g', shipToEncoder .main false g s = some (s', g') ∧
        f' = ⟨.drain g', total, bytesRead⟩ := by
  obtain ⟨pc, n, p⟩ := g
  by_cases hret : pc = .ret
  · subst hret
    cases h
    exact .inl ⟨rfl, rfl, rfl⟩
  · have hcall : (shipToEncoder .main false ⟨pc, n, p⟩ s).map (fun x =>
        (x.1, (⟨.drain x.2, total, bytesRead⟩ : MainFrame))) = some (s', f') := by
      cases pc <;> first | exact absurd rfl hret | exact h
    obtain ⟨⟨s₁, g'⟩, hg, heq⟩ := Option.map_eq_some_iff.1 hcall
    cases heq
    exact .inr ⟨g', hg, rfl⟩

theorem effect_of_encode {c : RecorderConfig} {f f' : EncFrame} {s s' : Shared}
    (h : encode c f s = some (s', f')) :
    Effect f.pc.assigns f.pc.role s.buf f'.pc.role s'.buf := by
  obtain ⟨pc, lastSize, bytesProcessed, processed⟩ := f
  cases pc
  case ship g =>
    obtain ⟨hret, rfl, rfl⟩ | ⟨g', hg, rfl⟩ := encode_ship h
    · obtain ⟨pc, n, p⟩ := g
      cases hret
      exact .quiet _ _
    · exact effect_of_shipToEncoder hg
  case notCreated | exited => cases h
  case addProcessed | resetBytes | yield =>
    cases h
    exact .quiet _ _
  case whileTest =>
    cases h
    dsimp only
    split <;> exact .quiet _ _
  case testBytes =>
    cases h
    dsimp only
    split <;> exact .quiet _ _
  case testSize =>
    cases h
    dsimp only
    split <;> exact .quiet _ _

theorem effect_of_start {c : RecorderConfig} {r : Option Block} {exited : Bool}
    {f f' : MainFrame} {s s' : Shared} (hr : f.pc = .read → r ≠ none)
    (h : start c r exited f s = some (s', f')) :
    Effect f.pc.assigns f.pc.role s.buf f'.pc.role s'.buf := by
  obtain ⟨pc, total, bytesRead⟩ := f
  cases pc
  case drain g =>
    obtain ⟨hret, rfl, rfl⟩ | ⟨g', hg, rfl⟩ := start_drain h
    · obtain ⟨pc, n, p⟩ := g
      cases hret
      dsimp only
      split <;> exact .quiet _ _
    · exact effect_of_shipToEncoder hg
  case returned => cases h
  case setHeader | createPrep | setTotal | recordingOn | writeHeader | createEncode | initBytes |
      recordingOff | doneOn | closeDsp | pclose =>
    cases h
    exact .quiet _ _
  case waitInit | openDevices | testStop | testSec =>
    cases h
    dsimp only
    split <;> exact .quiet _ _
  case testNull =>
    cases h
    dsimp only
    split
    · exact .null ‹_›
    · exact .quiet _ _
  case lockInput =>
    obtain ⟨s₁, hs, heq⟩ := Option.map_eq_some_iff.1 h
    cases heq
    exact Shared.lockInput_buf hs ▸ .quiet _ _
  case unlockNull | unlockInput =>
    obtain ⟨s₁, hs, heq⟩ := Option.map_eq_some_iff.1 h
    cases heq
    exact Shared.unlockInput_buf hs ▸ .quiet _ _
  case lockFull =>
    obtain ⟨s₁, hs, heq⟩ := Option.map_eq_some_iff.1 h
    cases heq
    exact Shared.lockFull_buf hs ▸ .quiet _ _
  case unlockFull =>
    obtain ⟨s₁, hs, heq⟩ := Option.map_eq_some_iff.1 h
    cases heq
    exact Shared.unlockFull_buf hs ▸ .quiet _ _
  case loadFront =>
    obtain ⟨b, hb, heq⟩ := Option.map_eq_some_iff.1 h
    cases heq
    exact .loadInput rfl hb
  case newBuffer =>
    cases h
    exact .alloc rfl
  case usedZero =>
    obtain ⟨b, hb, heq⟩ := Option.map_eq_some_iff.1 h
    cases heq
    exact .blank hb
  case popFront =>
    obtain ⟨b, hb, heq⟩ := Option.map_eq_some_iff.1 h
    cases heq
    exact .popInput hb
  case read =>
    obtain ⟨b, hb, heq⟩ := Option.map_eq_some_iff.1 h
    cases heq
    obtain ⟨data, rfl⟩ := Option.ne_none_iff_exists'.1 (hr rfl)
    exact .readDsp hb
  case addBytes =>
    obtain ⟨n, hn, heq⟩ := Option.map_eq_some_iff.1 h
    cases heq
    exact .quiet _ _
  case pushFull =>
    cases h
    exact .pushFull
  case join =>
    cases exited <;> cases h
    exact .quiet _ _

/-- `start` goes forward to the creation of each thread and never back to it. -/
theorem before_of_start {c : RecorderConfig} {r : Option Block} {exited : Bool}
    {f f' : MainFrame} {s s' : Shared} (h : start c r exited f s = some (s', f')) :
    (f'.pc.beforePrep = true → f.pc = .setHeader) ∧
      (f'.pc.beforeEnc = true → f.pc.beforeEnc = true ∧ f.pc ≠ .createEncode) := by
  obtain ⟨pc, total, bytesRead⟩ := f
  cases pc
  case drain g =>
    obtain ⟨-, -, rfl⟩ | ⟨g', -, rfl⟩ := start_drain h
    · dsimp only
      split <;> simp [MainPc.beforePrep, MainPc.beforeEnc]
    · simp [MainPc.beforePrep, MainPc.beforeEnc]
  case returned => cases h
  case waitInit | openDevices | testNull | testStop | testSec =>
    cases h
    dsimp only
    split <;> simp [MainPc.beforePrep, MainPc.beforeEnc]
  case join => cases exited <;> cases h; simp [MainPc.beforePrep, MainPc.beforeEnc]
  case lockInput | loadFront | unlockNull | usedZero | popFront | unlockInput | read | addBytes |
      lockFull | unlockFull =>
    obtain ⟨_, -, heq⟩ := Option.map_eq_some_iff.1 h
    cases heq
    simp [MainPc.beforePrep, MainPc.beforeEnc]
  all_goals
    cases h
    simp [MainPc.beforePrep, MainPc.beforeEnc]

/-- `pthread_create` starts a thread at a statement that does not need `m_pSndbuf`. -/
theorem spawn_roles {pc : MainPc} {s : RecorderState}
    (hp : pc.beforePrep = true → s.prep.pc = .notCreated)
    (he : pc.beforeEnc = true → s.enc.pc = .notCreated) : (spawn pc s).role = s.role := by
  funext u
  cases pc <;> try rfl
  case createPrep => cases u <;> simp [spawn, RecorderState.role, hp rfl, PrepPc.role]
  case createEncode => cases u <;> simp [spawn, RecorderState.role, he rfl, EncPc.role]

theorem spawn_shared (pc : MainPc) (s : RecorderState) : (spawn pc s).shared = s.shared := by
  cases pc <;> rfl

theorem spawn_main (pc : MainPc) (s : RecorderState) : (spawn pc s).main = s.main := by
  cases pc <;> rfl

theorem spawn_prep {pc : MainPc} (s : RecorderState) (h : pc ≠ .createPrep) :
    (spawn pc s).prep = s.prep := by
  cases pc <;> first | rfl | exact absurd rfl h

theorem spawn_enc {pc : MainPc} (s : RecorderState) (h : pc ≠ .createEncode) :
    (spawn pc s).enc = s.enc := by
  cases pc <;> first | rfl | exact absurd rfl h

/-! ## Runs -/

/-- The role of `m_pSndbuf` to the thread that needs it, `idle` if none does. -/
def RecorderState.hold (s : RecorderState) : Role :=
  if s.role .prep ≠ .idle then s.role .prep
  else if s.role .main ≠ .idle then s.role .main
  else s.role .enc

theorem hold_eq {s : RecorderState} {t : Thread} (h : ∀ u, u ≠ t → s.role u = .idle) :
    s.hold = s.role t := by
  unfold RecorderState.hold
  cases t with
  | prep =>
    rw [h .main (by decide), h .enc (by decide)]
    by_cases hp : s.role .prep = .idle <;> simp [hp]
  | main =>
    rw [h .prep (by decide), h .enc (by decide)]
    by_cases hm : s.role .main = .idle <;> simp [hm]
  | enc => rw [h .prep (by decide), h .main (by decide)]; rfl

/-- The invariant of the undisturbed runs. -/
structure Orderly (s : RecorderState) : Prop where
  created : Created s
  one : ∀ t u, s.role t ≠ .idle → s.role u ≠ .idle → t = u
  owned : Owned s.hold s.shared.buf

theorem orderly_init {s : RecorderState} (h : RecorderInit s) : Orderly s := by
  have hidle : ∀ t, s.role t = .idle := by
    rintro (_ | _ | _) <;> simp [RecorderState.role, h.prep, h.main, h.enc, PrepPc.role,
      MainPc.role, EncPc.role]
  refine ⟨⟨fun _ => h.prep, fun _ => h.enc⟩, fun t _ ht => absurd (hidle t) ht, ?_⟩
  rw [hold_eq (t := .prep) fun u _ => hidle u, hidle]
  exact ⟨by simp [h.inputBuffers, h.fullBuffers], by simp [h.inputBuffers, h.fullBuffers],
    h.fresh, trivial⟩

theorem pipe_init {s : RecorderState} (h : RecorderInit s) :
    pipe s.hold s.shared.buf = ⟨[], none, [], none, []⟩ := by
  have hidle : s.hold = .idle := by
    simp [RecorderState.hold, RecorderState.role, h.prep, h.main, h.enc, PrepPc.role,
      MainPc.role, EncPc.role]
  simp [pipe, hidle, h.captured, h.sent, h.fullBuffers]

theorem created_step {c : RecorderConfig} {s s' : RecorderState} {a : RecorderAct}
    (hc : Created s) (h : recorderStep c s a = some s') : Created s' := by
  cases a with
  | prep =>
    obtain ⟨⟨sh, f⟩, hf, rfl⟩ := Option.map_eq_some_iff.1 h
    refine ⟨fun hb => ?_, hc.enc⟩
    rw [prepareBuffers, hc.prep hb] at hf
    cases hf
  | main r =>
    obtain ⟨⟨sh, f⟩, hf, rfl⟩ := Option.map_eq_some_iff.1 h
    obtain ⟨hp, he⟩ := before_of_start hf
    refine ⟨fun hb => ?_, fun hb => ?_⟩ <;> rw [spawn_main] at hb
    · have hpc := hp hb
      rw [spawn_prep _ (by simp [hpc])]
      exact hc.prep (by simp [hpc, MainPc.beforePrep])
    · obtain ⟨hpc, hne⟩ := he hb
      rw [spawn_enc _ hne]
      exact hc.enc hpc
  | enc =>
    obtain ⟨⟨sh, f⟩, hf, rfl⟩ := Option.map_eq_some_iff.1 h
    refine ⟨hc.prep, fun hb => ?_⟩
    rw [encode, hc.enc hb] at hf
    cases hf
  | stop =>
    cases h
    exact ⟨hc.prep, hc.enc⟩

/-- A step of `t` leaves the other threads' roles alone. -/
theorem role_step {c : RecorderConfig} {s s' : RecorderState} {a : RecorderAct} {t u : Thread}
    (hc : Created s) (ht : a.thread = some t) (h : recorderStep c s a = some s') (hu : u ≠ t) :
    s'.role u = s.role u := by
  cases a with
  | prep =>
    cases ht
    obtain ⟨⟨sh, f⟩, hf, rfl⟩ := Option.map_eq_some_iff.1 h
    cases u <;> first | exact absurd rfl hu | rfl
  | main r =>
    cases ht
    obtain ⟨⟨sh, f⟩, hf, rfl⟩ := Option.map_eq_some_iff.1 h
    dsimp only
    rw [spawn_roles (s := { s with shared := sh, main := f }) hc.prep hc.enc]
    cases u <;> first | exact absurd rfl hu | rfl
  | enc =>
    cases ht
    obtain ⟨⟨sh, f⟩, hf, rfl⟩ := Option.map_eq_some_iff.1 h
    cases u <;> first | exact absurd rfl hu | rfl
  | stop => cases ht

theorem effect_of_step {c : RecorderConfig} {s s' : RecorderState} {a : RecorderAct} {t : Thread}
    (hr : ReadSucceeds s a) (ht : a.thread = some t) (h : recorderStep c s a = some s') :
    Effect (s.assigns t) (s.role t) s.shared.buf (s'.role t) s'.shared.buf := by
  cases a with
  | prep =>
    cases ht
    obtain ⟨⟨sh, f⟩, hf, rfl⟩ := Option.map_eq_some_iff.1 h
    exact effect_of_prepareBuffers hf
  | main r =>
    cases ht
    obtain ⟨⟨sh, f⟩, hf, rfl⟩ := Option.map_eq_some_iff.1 h
    have heff := effect_of_start (fun hpc he => hr hpc (he ▸ rfl)) hf
    simpa only [RecorderState.role, RecorderState.assigns, spawn_shared, spawn_main] using heff
  | enc =>
    cases ht
    obtain ⟨⟨sh, f⟩, hf, rfl⟩ := Option.map_eq_some_iff.1 h
    exact effect_of_encode hf
  | stop => cases ht

/-- What a step of `t` does to the buffers, in any run : an effect, or a `read` that failed. -/
theorem effect_or_readError_of_step {c : RecorderConfig} {s s' : RecorderState} {a : RecorderAct}
    {t : Thread} (ht : a.thread = some t) (h : recorderStep c s a = some s') :
    Effect (s.assigns t) (s.role t) s.shared.buf (s'.role t) s'.shared.buf ∨
      t = .main ∧ s.role t = .owned ∧ s'.role t = .filled ∧
        ∃ v, s.shared.buf.store v = some s'.shared.buf := by
  by_cases hr : ReadSucceeds s a
  · exact .inl (effect_of_step hr ht h)
  · obtain ⟨hpc, rfl⟩ : s.main.pc = .read ∧ a = .main none := by simpa [ReadSucceeds] using hr
    cases ht
    obtain ⟨⟨sh, f⟩, hf, rfl⟩ := Option.map_eq_some_iff.1 h
    rw [start, hpc] at hf
    obtain ⟨b, hb, heq⟩ := Option.map_eq_some_iff.1 hf
    cases heq
    refine .inr ⟨rfl, by simp [RecorderState.role, hpc, MainPc.role], ?_,
      (s.shared.buf.heap s.shared.buf.sndbuf).receive none, ?_⟩
    · simp [RecorderState.role, spawn_main, MainPc.role]
    · simpa only [spawn_shared] using Buffers.store_of_readDsp_none hb

/-- A statement that does anything with `m_pSndbuf` runs while no other thread needs it. -/
theorem alone_of_effect {s : RecorderState} {t : Thread} {r' : Role} {b' : Buffers}
    (hone : ∀ t u, s.role t ≠ .idle → s.role u ≠ .idle → t = u)
    (hu : s.assigns t = true → ∀ u, u ≠ t → s.role u = .idle)
    (h : Effect (s.assigns t) (s.role t) s.shared.buf r' b') :
    (r' = s.role t ∧ b' = s.shared.buf) ∨ ∀ u, u ≠ t → s.role u = .idle := by
  by_cases hidle : s.role t = .idle
  · rw [hidle] at h ⊢
    cases h with
    | quiet => exact .inl ⟨rfl, rfl⟩
    | alloc ha | loadInput ha | loadFull ha => exact .inr (hu ha)
  · refine .inr fun u hne => ?_
    by_contra hact
    exact hne (hone u t hact hidle)

/-- An undisturbed step keeps the run orderly, and is a step of the pipeline or none. -/
theorem orderly_step {c : RecorderConfig} {s s' : RecorderState} {a : RecorderAct}
    (ho : Orderly s) (hr : ReadSucceeds s a) (hu : Undisturbed s a)
    (h : recorderStep c s a = some s') :
    Orderly s' ∧ (pipe s'.hold s'.shared.buf = pipe s.hold s.shared.buf ∨
      ∃ act, (pipe s.hold s.shared.buf).step act = some (pipe s'.hold s'.shared.buf)) := by
  cases ht : a.thread with
  | none =>
    cases a <;> cases ht
    have hc := created_step ho.created h
    cases h
    exact ⟨⟨hc, ho.one, ho.owned⟩, .inl rfl⟩
  | some t =>
    have heff := effect_of_step hr ht h
    have hothers : ∀ u, u ≠ t → s'.role u = s.role u := fun u => role_step ho.created ht h
    rcases alone_of_effect ho.one (hu t ht) heff with ⟨hrole, hbuf⟩ | halone
    · have hall : s'.role = s.role := by
        funext u
        by_cases hut : u = t
        · exact hut ▸ hrole
        · exact hothers u hut
      have hhold : s'.hold = s.hold := by simp only [RecorderState.hold, hall]
      refine ⟨⟨created_step ho.created h, hall ▸ ho.one, ?_⟩, .inl ?_⟩
      · rw [hhold, hbuf]
        exact ho.owned
      · rw [hhold, hbuf]
    · have halone' : ∀ u, u ≠ t → s'.role u = .idle := fun u hne =>
        (hothers u hne).trans (halone u hne)
      have howned := ho.owned
      rw [hold_eq halone] at howned ⊢
      rw [hold_eq halone']
      obtain ⟨howned', href⟩ := heff.refines howned
      refine ⟨⟨created_step ho.created h, fun u v hu hv => ?_, hold_eq halone' ▸ howned'⟩, href⟩
      by_cases hut : u = t
      · by_cases hvt : v = t
        · rw [hut, hvt]
        · exact absurd (halone' v hvt) hv
      · exact absurd (halone' u hut) hu

/-- As long as no thread assigns `m_pSndbuf` while another still needs it, the audio
blocks written to the encoder are a prefix of the blocks read from the sound device. -/
theorem recorder_sent_prefix_captured {c : RecorderConfig} {s : RecorderState}
    (h : (recorder c).Reach (fun s a => ReadSucceeds s a ∧ Undisturbed s a) s) :
    s.shared.buf.sent <+: s.shared.buf.captured := by
  have hsim : Orderly s ∧ (Pipe.machine Block).Reach Machine.free (pipe s.hold s.shared.buf) :=
    h.simulates (f := fun s => pipe s.hold s.shared.buf)
      (fun s hi => ⟨orderly_init hi, pipe_init hi⟩)
      fun s a s' ho hG hs => orderly_step ho hG.1 hG.2 hs
  exact Pipe.sent_prefix_captured hsim.2

/-- The recorder of `main` in record.cpp. -/
def mp3Config : RecorderConfig :=
  ⟨128, 10, 44100⟩

/-- `start` of a recorder in zeroed memory. -/
def freshRecorder : RecorderState where
  shared :=
    { buf := ⟨0, fun _ => .zeroed, 1, [], [], [], [], 0, 0⟩
      inputBuffersLock := none
      fullBuffersLock := none
      recordingNow := false
      doneRecording := false
      stopRequested := 0
      binitialized := false
      header := genericWaveHeader
      headerSent := none }
  prep := ⟨.notCreated, 0, 0, 0⟩
  main := ⟨.setHeader, 0, 0⟩
  enc := ⟨.notCreated, 0, 0, 0⟩

theorem freshRecorder_init : RecorderInit freshRecorder := by
  constructor <;> first | rfl | decide

/-- `start` up to its first `read`, with the first three buffers prepared. -/
def untilRead : List RecorderAct :=
  List.replicate 2 (.main (some [])) ++ List.replicate 29 .prep ++
    List.replicate 12 (.main (some []))

/-- One block is captured and written, while `prepareBuffers` waits. -/
theorem recorder_sent_prefix_captured_mp3 :
    ∃ s : RecorderState, s.shared.buf.captured = [[1, 2]] ∧ s.shared.buf.sent = [[1, 2]] ∧
      s.shared.buf.sent <+: s.shared.buf.captured := by
  have hrun : ((recorder mp3Config).run (fun s a => ReadSucceeds s a ∧ Undisturbed s a)
      freshRecorder (untilRead ++ .main (some [1, 2]) :: List.replicate 4 (.main (some [])) ++
        List.replicate 8 .enc)).map
      (fun s => (s.shared.buf.captured, s.shared.buf.sent)) = some ([[1, 2]], [[1, 2]]) := by
    decide +kernel
  obtain ⟨s, hs, heq⟩ := Option.map_eq_some_iff.1 hrun
  obtain ⟨hc, hw⟩ := Prod.mk.inj heq
  exact ⟨s, hc, hw, recorder_sent_prefix_captured
    (Machine.reach_of_run (.start freshRecorder_init) hs)⟩

/-- `prepareBuffers` assigns `m_pSndbuf` between the `read` into it and the `push_back`
of it : the block read is lost, and an empty buffer is written in its place. -/
theorem recorder_loses_block :
    ¬∀ (c : RecorderConfig) (s : RecorderState), (recorder c).Reach ReadSucceeds s →
      s.shared.buf.sent <+: s.shared.buf.captured := by
  intro h
  have hrun : ((recorder mp3Config).run ReadSucceeds freshRecorder
      (untilRead ++ .main (some [1, 2]) :: .main (some []) :: List.replicate 7 .prep ++
        List.replicate 3 (.main (some [])) ++ List.replicate 8 .enc)).map
      (fun s => (s.shared.buf.captured, s.shared.buf.sent)) = some ([[1, 2]], [[]]) := by
    decide +kernel
  obtain ⟨s, hs, heq⟩ := Option.map_eq_some_iff.1 hrun
  obtain ⟨hc, hw⟩ := Prod.mk.inj heq
  have hprefix := h mp3Config s (Machine.reach_of_run (.start freshRecorder_init) hs)
  rw [hc, hw] at hprefix
  exact absurd hprefix (by decide)

end LxToolset
