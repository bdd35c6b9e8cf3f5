import Mathlib.Data.Fintype.Defs
import Mathlib.Data.BitVec
import LxToolset.Machine

/-!
# The recorder of 7inch-mp3

`7inch-mp3/record.cpp` as three threads over the members of `Recorder`. Each
statement of `prepareBuffers`, of `Recorder::start` from its loop on, and of `encode`
with `shipToEncoder` is one step; the statements of `start` before its loop are
grouped where no other thread can see between them. A step between
`pthread_mutex_lock` and `pthread_mutex_unlock` runs with the mutex held, and a lock
of a held mutex is blocked.

A step is `none` where the thread is blocked, has ended, or where the statement has no
defined result : the front of an empty deque, a member of a NULL `m_pSndbuf`, an unlock
of a mutex another thread holds. `int` and `unsigned long` have 32 bits.
-/

namespace LxToolset

/-- `BUFFER_SIZE` -/
def bufferSize : ℕ :=
  65535

/-- `MIN_BUFFERS` -/
def minBuffers : ℕ :=
  10

/-- Addresses of `SndBuffer`s. `0` is NULL. -/
abbrev Ptr :=
  ℕ

/-- Bytes of one `read` from the sound device, or of one `write` to the encoder. -/
abbrev Block :=
  List UInt8

structure SndBuffer where
  used : BitVec 32
  buffer : ℕ → UInt8

namespace SndBuffer

/-- What `write( m_outputFd, buffer, used )` sends. -/
def block (b : SndBuffer) : Block :=
  (List.range b.used.toNat).map b.buffer

/-- `memset( ..., 0, sizeof(SndBuffer) )` -/
def zeroed : SndBuffer :=
  ⟨0, fun _ => 0⟩

/-- `used = read( dsp, buffer, BUFFER_SIZE )`. `none` is the error result `-1`. -/
def receive (b : SndBuffer) : Option Block → SndBuffer
  | some data => ⟨BitVec.ofNat 32 data.length, fun i => data.getD i (b.buffer i)⟩
  | none => ⟨-1, b.buffer⟩

theorem block_receive (b : SndBuffer) {data : Block} (h : data.length ≤ bufferSize) :
    (b.receive (some data)).block = data := by
  have hlt : data.length < 2 ^ 32 := h.trans_lt (by decide)
  simp only [block, receive, BitVec.toNat_ofNat, Nat.mod_eq_of_lt hlt]
  refine List.ext_getElem (by simp) fun i h1 h2 => ?_
  simp [List.getD_eq_getElem?_getD, h2]

end SndBuffer

inductive Thread where
  /-- `prepareBuffers` -/
  | prep
  /-- `Recorder::start` -/
  | main
  /-- `encode` -/
  | enc
  deriving DecidableEq

instance : Fintype Thread :=
  ⟨{.prep, .main, .enc}, fun t => by cases t <;> decide⟩

/-- `WaveHeader`, 44 bytes. -/
structure WaveHeader where
  riff : BitVec 32
  fileLength : BitVec 32
  wave : BitVec 32
  fmt : BitVec 32
  fmtLength : BitVec 32
  fmtTag : BitVec 16
  channels : BitVec 16
  sampleRate : BitVec 32
  bytesPerSecond : BitVec 32
  blockAlign : BitVec 16
  bits : BitVec 16
  data : BitVec 32
  dataLength : BitVec 32

/-- `m_genericWaveHeader` as initialised. -/
def genericWaveHeader : WaveHeader where
  riff := 0x46464952
  fileLength := 0xFFFFFFFF
  wave := 0x45564157
  fmt := 0x20746d66
  fmtLength := 16
  fmtTag := 1
  channels := 2
  sampleRate := 44100
  bytesPerSecond := 192000
  blockAlign := 4
  bits := 16
  data := 0x61746164
  dataLength := 0xFFFFFFFF

/-- `m_kbps`, `m_sec` and `m_rate`, fixed while `start` runs. -/
structure RecorderConfig where
  kbps : BitVec 32
  sec : BitVec 32
  rate : BitVec 32

namespace RecorderConfig

def getBytesPerSec (c : RecorderConfig) : BitVec 32 :=
  c.rate <<< 2

/-- The header fields `start` sets. `sizeof(m_genericWaveHeader)` is 44. -/
def waveHeader (c : RecorderConfig) : WaveHeader :=
  let dataLength := (c.rate <<< 2) * (c.sec + 1)
  { genericWaveHeader with
    sampleRate := c.rate <<< 2
    bytesPerSecond := c.kbps
    dataLength := dataLength
    fileLength := dataLength + 44 }

def totalBytesRequested (c : RecorderConfig) : BitVec 32 :=
  if c.sec = 0 then 0 else c.sec * (c.rate <<< 2)

/-- What `start(kbps, enc_proc_name, sec, rate, o_fname, extra)` sets : no duration is 24 hours. -/
def ofStart (kbps sec rate : BitVec 32) : RecorderConfig :=
  ⟨kbps, if sec = 0 then 3600 * 24 else sec, rate⟩

end RecorderConfig

/-! ## Program counters -/

/-- The statements of `shipToEncoder`. -/
inductive ShipPc where
  | lock | size | emptyTest | emptyUnlock | emptyProcessed
  | load | pop | unlock | write | setProcessed | decLastSize | ret
  deriving DecidableEq

/-- A call of `shipToEncoder` : its local `lastSize`, and what `*processed` holds. -/
structure ShipFrame where
  pc : ShipPc
  lastSize : ℕ
  processed : BitVec 32
  deriving DecidableEq

/-- The statements of `prepareBuffers`, `buffer_prepare`, `input_buffer_push`,
`input_buffer_get_size` and `input_buffer_ready`. -/
inductive PrepPc where
  | notCreated
  | onesecond | onesecondInc | forInit | forTest
  | newBuffer | memset | pushLock | push | pushUnlock | forInc
  | sizeLock (ready : Bool) | size (ready : Bool) | sizeUnlock (ready : Bool)
  | ready | whileTest | yield

structure PrepFrame where
  pc : PrepPc
  onesecond : BitVec 32
  i : BitVec 32
  sz : ℕ

/-- The statements of `Recorder::start`. -/
inductive MainPc where
  | setHeader | createPrep | waitInit | setTotal | openDevices | recordingOn | writeHeader
  | createEncode | initBytes
  | lockInput | loadFront | testNull | unlockNull | newBuffer | usedZero | popFront | unlockInput
  | read | addBytes | lockFull | pushFull | unlockFull | testStop | testSec
  | recordingOff | doneOn | closeDsp | join
  | drain (f : ShipFrame) | pclose | returned
  deriving DecidableEq

structure MainFrame where
  pc : MainPc
  totalBytesRequested : BitVec 32
  bytesRead : BitVec 32

/-- The statements of `encode`. -/
inductive EncPc where
  | notCreated
  | whileTest | ship (f : ShipFrame) | addProcessed | testBytes | resetBytes | testSize | yield
  | exited
  deriving DecidableEq

def EncPc.hasExited : EncPc → Bool
  | .exited => true
  | _ => false

structure EncFrame where
  pc : EncPc
  lastSize : ℕ
  bytesProcessed : BitVec 32
  processed : BitVec 32

/-! ## State -/

/-- The buffers : `m_pSndbuf`, the heap, the two deques, and what passed the two
devices. -/
structure Buffers where
  /-- `m_pSndbuf` -/
  sndbuf : Ptr
  heap : Ptr → SndBuffer
  /-- The address the next `new SndBuffer` returns. -/
  fresh : Ptr
  inputBuffers : List Ptr
  fullBuffers : List Ptr
  /-- Blocks read from the sound device. -/
  captured : List Block
  /-- Blocks written to `m_outputFd` after the WAV header. -/
  sent : List Block
  /-- Count of `push_back`s on `m_fullBuffers`. -/
  pushed : ℕ
  /-- Count of `pop_front`s on `m_fullBuffers`. -/
  popped : ℕ

/-- The members the threads share. -/
structure Shared where
  buf : Buffers
  inputBuffersLock : Option Thread
  fullBuffersLock : Option Thread
  recordingNow : Bool
  doneRecording : Bool
  stopRequested : ℕ
  binitialized : Bool
  header : WaveHeader
  /-- The header `m_outputFd` received. -/
  headerSent : Option WaveHeader

structure RecorderState where
  shared : Shared
  prep : PrepFrame
  main : MainFrame
  enc : EncFrame

namespace Shared

def lockInput (s : Shared) (t : Thread) : Option Shared :=
  if s.inputBuffersLock = none then some { s with inputBuffersLock := some t } else none

def unlockInput (s : Shared) (t : Thread) : Option Shared :=
  if s.inputBuffersLock = some t then some { s with inputBuffersLock := none } else none

def lockFull (s : Shared) (t : Thread) : Option Shared :=
  if s.fullBuffersLock = none then some { s with fullBuffersLock := some t } else none

def unlockFull (s : Shared) (t : Thread) : Option Shared :=
  if s.fullBuffersLock = some t then some { s with fullBuffersLock := none } else none

variable {s s' : Shared} {t : Thread}

theorem lockInput_eq_some : s.lockInput t = some s' ↔
    s.inputBuffersLock = none ∧ { s with inputBuffersLock := some t } = s' :=
  Option.ite_none_right_eq_some.trans (and_congr_right fun _ => Option.some_inj)

theorem unlockInput_eq_some : s.unlockInput t = some s' ↔
    s.inputBuffersLock = some t ∧ { s with inputBuffersLock := none } = s' :=
  Option.ite_none_right_eq_some.trans (and_congr_right fun _ => Option.some_inj)

theorem lockFull_eq_some : s.lockFull t = some s' ↔
    s.fullBuffersLock = none ∧ { s with fullBuffersLock := some t } = s' :=
  Option.ite_none_right_eq_some.trans (and_congr_right fun _ => Option.some_inj)

theorem unlockFull_eq_some : s.unlockFull t = some s' ↔
    s.fullBuffersLock = some t ∧ { s with fullBuffersLock := none } = s' :=
  Option.ite_none_right_eq_some.trans (and_congr_right fun _ => Option.some_inj)

end Shared

namespace Buffers

/-- `m_pSndbuf = new SndBuffer`. The contents are whatever the block held. -/
def newBuffer (b : Buffers) : Buffers :=
  { b with sndbuf := b.fresh, fresh := b.fresh + 1 }

/-- Store through `m_pSndbuf`. -/
def store (b : Buffers) (v : SndBuffer) : Option Buffers :=
  if b.sndbuf = 0 then none else some { b with heap := Function.update b.heap b.sndbuf v }

/-- `m_inputBuffers.push_back(m_pSndbuf)` -/
def pushInput (b : Buffers) : Buffers :=
  { b with inputBuffers := b.inputBuffers ++ [b.sndbuf] }

/-- `m_pSndbuf = m_inputBuffers[0]` -/
def loadInput (b : Buffers) : Option Buffers :=
  b.inputBuffers.head?.map fun p => { b with sndbuf := p }

/-- `m_inputBuffers.pop_front()` -/
def popInput (b : Buffers) : Option Buffers :=
  if b.inputBuffers = [] then none else some { b with inputBuffers := b.inputBuffers.tail }

/-- `m_fullBuffers.push_back( m_pSndbuf )` -/
def pushFull (b : Buffers) : Buffers :=
  { b with fullBuffers := b.fullBuffers ++ [b.sndbuf], pushed := b.pushed + 1 }

/-- `m_pSndbuf = m_fullBuffers[0]` -/
def loadFull (b : Buffers) : Option Buffers :=
  b.fullBuffers.head?.map fun p => { b with sndbuf := p }

/-- `m_fullBuffers.pop_front()` -/
def popFull (b : Buffers) : Option Buffers :=
  if b.fullBuffers = [] then none
  else some { b with fullBuffers := b.fullBuffers.tail, popped := b.popped + 1 }

/-- `m_pSndbuf->used = read( dsp, m_pSndbuf->buffer, BUFFER_SIZE )`. The device delivers
at most `BUFFER_SIZE` bytes. -/
def readDsp (b : Buffers) (r : Option Block) : Option Buffers :=
  if (r.getD []).length ≤ bufferSize then
    { b with captured := b.captured ++ r.toList }.store ((b.heap b.sndbuf).receive r)
  else none

/-- `write( m_outputFd, m_pSndbuf->buffer, m_pSndbuf->used )` -/
def write (b : Buffers) : Option Buffers :=
  if b.sndbuf = 0 then none else some { b with sent := b.sent ++ [(b.heap b.sndbuf).block] }

/-- `m_pSndbuf->used` -/
def used (b : Buffers) : Option (BitVec 32) :=
  if b.sndbuf = 0 then none else some (b.heap b.sndbuf).used

end Buffers

/-! ## Steps -/

/-- One statement of `shipToEncoder`, called by thread `t` with a non-NULL `processed`
when `wanted`. -/
def shipToEncoder (t : Thread) (wanted : Bool) (f : ShipFrame) (s : Shared) :
    Option (Shared × ShipFrame) :=
  match f.pc with
  | .lock => (s.lockFull t).map fun s => (s, { f with pc := .size })
  | .size => some (s, { f with lastSize := s.buf.fullBuffers.length, pc := .emptyTest })
  | .emptyTest => some (s, { f with pc := if f.lastSize = 0 then .emptyUnlock else .load })
  | .emptyUnlock => (s.unlockFull t).map fun s => (s, { f with pc := .emptyProcessed })
  | .emptyProcessed =>
    some (s, { f with processed := if wanted then 0 else f.processed, pc := .ret })
  | .load => s.buf.loadFull.map fun b => ({ s with buf := b }, { f with pc := .pop })
  | .pop => s.buf.popFull.map fun b => ({ s with buf := b }, { f with pc := .unlock })
  | .unlock => (s.unlockFull t).map fun s => (s, { f with pc := .write })
  | .write => s.buf.write.map fun b => ({ s with buf := b }, { f with pc := .setProcessed })
  | .setProcessed =>
    if wanted then
      s.buf.used.map fun n => (s, { f with processed := n, pc := .decLastSize })
    else some (s, { f with pc := .decLastSize })
  | .decLastSize => some (s, { f with lastSize := f.lastSize - 1, pc := .ret })
  | .ret => none

/-- One statement of `prepareBuffers`. -/
def prepareBuffers (c : RecorderConfig) (f : PrepFrame) (s : Shared) :
    Option (Shared × PrepFrame) :=
  match f.pc with
  | .notCreated => none
  | .onesecond =>
    some (s, { f with onesecond := c.getBytesPerSec.sdiv (BitVec.ofNat 32 bufferSize),
                      pc := .onesecondInc })
  | .onesecondInc => some (s, { f with onesecond := f.onesecond + 1, pc := .forInit })
  | .forInit => some (s, { f with i := 0, pc := .forTest })
  | .forTest => some (s, { f with pc := if f.i < f.onesecond then .newBuffer else .sizeLock false })
  | .newBuffer => some ({ s with buf := s.buf.newBuffer }, { f with pc := .memset })
  | .memset => (s.buf.store .zeroed).map fun b => ({ s with buf := b }, { f with pc := .pushLock })
  | .pushLock => (s.lockInput .prep).map fun s => (s, { f with pc := .push })
  | .push => some ({ s with buf := s.buf.pushInput }, { f with pc := .pushUnlock })
  | .pushUnlock => (s.unlockInput .prep).map fun s => (s, { f with pc := .forInc })
  | .forInc => some (s, { f with i := f.i + 1, pc := .forTest })
  | .sizeLock r => (s.lockInput .prep).map fun s => (s, { f with pc := .size r })
  | .size r => some (s, { f with sz := s.buf.inputBuffers.length, pc := .sizeUnlock r })
  | .sizeUnlock r =>
    (s.unlockInput .prep).map fun s => (s, { f with pc := if r then .whileTest else .ready })
  | .ready => some ({ s with binitialized := true }, { f with pc := .whileTest })
  | .whileTest => some (s, { f with pc := if minBuffers < f.sz then .yield else .onesecond })
  | .yield => some (s, { f with pc := .sizeLock true })

/-- One statement of `encode`. -/
def encode (c : RecorderConfig) (f : EncFrame) (s : Shared) : Option (Shared × EncFrame) :=
  match f.pc with
  | .notCreated => none
  | .whileTest =>
    some (s, { f with pc := if !s.doneRecording || f.lastSize ≠ 0 then .ship ⟨.lock, 0, f.processed⟩
                            else .exited })
  | .ship ⟨.ret, lastSize, processed⟩ =>
    some (s, { f with lastSize := lastSize, processed := processed, pc := .addProcessed })
  | .ship g => (shipToEncoder .enc true g s).map fun (s, g) => (s, { f with pc := .ship g })
  | .addProcessed =>
    some (s, { f with bytesProcessed := f.bytesProcessed + f.processed, pc := .testBytes })
  | .testBytes =>
    some (s, { f with pc := if c.getBytesPerSec.sdiv 2 < f.bytesProcessed then .resetBytes
                            else .testSize })
  | .resetBytes => some (s, { f with bytesProcessed := 0, pc := .testSize })
  | .testSize => some (s, { f with pc := if f.lastSize = 0 then .yield else .whileTest })
  | .yield => some (s, { f with pc := .whileTest })
  | .exited => none

/-- One statement of `Recorder::start`. `r` answers the system calls : what the sound
device delivers to `read`, `none` for a failure. `pthread_join` waits for `encExited`. -/
def start (c : RecorderConfig) (r : Option Block) (encExited : Bool) (f : MainFrame)
    (s : Shared) : Option (Shared × MainFrame) :=
  match f.pc with
  | .setHeader => some ({ s with header := c.waveHeader }, { f with pc := .createPrep })
  | .createPrep => some (s, { f with pc := .waitInit })
  | .waitInit => some (s, { f with pc := if s.binitialized then .setTotal else .waitInit })
  | .setTotal =>
    some (s, { f with totalBytesRequested := c.totalBytesRequested, pc := .openDevices })
  | .openDevices => some (s, { f with pc := if r.isSome then .recordingOn else .returned })
  | .recordingOn => some ({ s with recordingNow := true }, { f with pc := .writeHeader })
  | .writeHeader => some ({ s with headerSent := some s.header }, { f with pc := .createEncode })
  | .createEncode => some (s, { f with pc := .initBytes })
  | .initBytes => some (s, { f with bytesRead := 0, pc := .lockInput })
  | .lockInput => (s.lockInput .main).map fun s => (s, { f with pc := .loadFront })
  | .loadFront => s.buf.loadInput.map fun b => ({ s with buf := b }, { f with pc := .testNull })
  | .testNull => some (s, { f with pc := if s.buf.sndbuf = 0 then .unlockNull else .popFront })
  | .unlockNull => (s.unlockInput .main).map fun s => (s, { f with pc := .newBuffer })
  | .newBuffer => some ({ s with buf := s.buf.newBuffer }, { f with pc := .usedZero })
  | .usedZero =>
    (s.buf.store { s.buf.heap s.buf.sndbuf with used := 0 }).map fun b =>
      ({ s with buf := b }, { f with pc := .unlockInput })
  | .popFront => s.buf.popInput.map fun b => ({ s with buf := b }, { f with pc := .unlockInput })
  | .unlockInput => (s.unlockInput .main).map fun s => (s, { f with pc := .read })
  | .read => (s.buf.readDsp r).map fun b => ({ s with buf := b }, { f with pc := .addBytes })
  | .addBytes =>
    s.buf.used.map fun n => (s, { f with bytesRead := f.bytesRead + n, pc := .lockFull })
  | .lockFull => (s.lockFull .main).map fun s => (s, { f with pc := .pushFull })
  | .pushFull => some ({ s with buf := s.buf.pushFull }, { f with pc := .unlockFull })
  | .unlockFull => (s.unlockFull .main).map fun s => (s, { f with pc := .testStop })
  | .testStop =>
    some (s, { f with pc := if s.stopRequested ≠ 0 then .recordingOff else .testSec })
  | .testSec =>
    some (s, { f with pc := if c.sec ≠ 0 ∧ f.totalBytesRequested < f.bytesRead then .recordingOff
                            else .lockInput })
  | .recordingOff => some ({ s with recordingNow := false }, { f with pc := .doneOn })
  | .doneOn => some ({ s with doneRecording := true }, { f with pc := .closeDsp })
  | .closeDsp => some (s, { f with pc := .join })
  | .join => if encExited then some (s, { f with pc := .drain ⟨.lock, 0, 0⟩ }) else none
  | .drain ⟨.ret, lastSize, _⟩ =>
    some (s, { f with pc := if lastSize = 0 then .pclose else .drain ⟨.lock, 0, 0⟩ })
  | .drain g => (shipToEncoder .main false g s).map fun (s, g) => (s, { f with pc := .drain g })
  | .pclose => some (s, { f with pc := .returned })
  | .returned => none

/-- What `pthread_create` adds to the statements of `start` that call it. -/
def spawn (pc : MainPc) (s : RecorderState) : RecorderState :=
  match pc with
  | .createPrep => { s with prep := { s.prep with pc := .onesecond } }
  | .createEncode =>
    { s with enc := { lastSize := 1, bytesProcessed := 0, processed := 0, pc := .whileTest } }
  | _ => s

/-- What may happen next : a statement of one of the threads, or `Recorder::stop`. -/
inductive RecorderAct where
  | prep
  | main (r : Option Block)
  | enc
  | stop
  deriving DecidableEq

def RecorderAct.thread : RecorderAct → Option Thread
  | .prep => some .prep
  | .main _ => some .main
  | .enc => some .enc
  | .stop => none

def recorderStep (c : RecorderConfig) (s : RecorderState) : RecorderAct → Option RecorderState
  | .prep =>
    (prepareBuffers c s.prep s.shared).map fun (sh, f) => { s with shared := sh, prep := f }
  | .main r => (start c r s.enc.pc.hasExited s.main s.shared).map fun (sh, f) =>
    spawn s.main.pc { s with shared := sh, main := f }
  | .enc => (encode c s.enc s.shared).map fun (sh, f) => { s with shared := sh, enc := f }
  | .stop => some { s with shared.stopRequested := s.shared.stopRequested + 1 }

/-- `start` is about to run : no buffer, both mutexes free, all flags 0. Memory and
`m_pSndbuf`, which the constructor leaves alone, hold anything. -/
structure RecorderInit (s : RecorderState) : Prop where
  inputBuffers : s.shared.buf.inputBuffers = []
  fullBuffers : s.shared.buf.fullBuffers = []
  fresh : 0 < s.shared.buf.fresh
  captured : s.shared.buf.captured = []
  sent : s.shared.buf.sent = []
  pushed : s.shared.buf.pushed = 0
  popped : s.shared.buf.popped = 0
  inputBuffersLock : s.shared.inputBuffersLock = none
  fullBuffersLock : s.shared.fullBuffersLock = none
  recordingNow : s.shared.recordingNow = false
  doneRecording : s.shared.doneRecording = false
  stopRequested : s.shared.stopRequested = 0
  binitialized : s.shared.binitialized = false
  header : s.shared.header = genericWaveHeader
  headerSent : s.shared.headerSent = none
  prep : s.prep.pc = .notCreated
  main : s.main.pc = .setHeader
  enc : s.enc.pc = .notCreated

/-- The recorder : every interleaving of its threads. -/
def recorder (c : RecorderConfig) : Machine RecorderState RecorderAct where
  init := RecorderInit
  step := recorderStep c

end LxToolset
