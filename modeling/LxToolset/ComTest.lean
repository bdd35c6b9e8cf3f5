import LxToolset.SerialParity
import Mathlib.Data.List.Basic

/-!
# com_test

The program writes a sample to a port and reads the echo, ten times over. A round ends with its
first read that is not empty, so that an echo which comes in pieces is taken for a wrong one :
`verdictRight_iff`.
-/

namespace LxToolset

def sampleStr : List UInt8 :=
  [0x30, 0x31, 0x32, 0x33, 0x34, 0x35, 0x36, 0x37]

/-- `COUNT`. -/
def comCount : ℕ := 10

def bufferLength : ℕ := 1024

/-- A port with an echo, and how many bytes the driver would deliver to each `read`. -/
structure ComPort where
  stream : List UInt8
  split : ℕ → ℕ

/-- The state of a run : the writes and reads so far, the bytes read, and `buffer`. -/
structure ComState where
  writes : ℕ
  reads : ℕ
  taken : ℕ
  buffer : List UInt8

namespace ComPort

variable (p : ComPort)

/-- What `read` returns : no more than it asks for, and than has come back for the writes. -/
def ready (s : ComState) : ℕ :=
  min (p.split s.reads) (min sampleStr.length
    (min (sampleStr.length * s.writes) p.stream.length - s.taken))

/-- `write(fd, sample_str, strlen(sample_str))`. -/
def write (s : ComState) : ComState :=
  { s with writes := s.writes + 1 }

/-- `res = read(fd, buffer, strlen(sample_str))`. -/
def read (s : ComState) : ComState :=
  { s with
    reads := s.reads + 1
    taken := s.taken + p.ready s
    buffer := (p.stream.drop s.taken).take (p.ready s) ++ s.buffer.drop (p.ready s) }

/-- `do ... while (res == 0)`, of at most `fuel` rounds. -/
def receive : ℕ → ComState → Option ComState
  | 0, _ => none
  | fuel + 1, s => if p.ready s = 0 then receive fuel (p.read s) else some (p.read s)

/-- The string in `buffer`. -/
def text (s : ComState) : List UInt8 :=
  s.buffer.takeWhile (· ≠ 0)

/-- The rounds of `main`; whether `flag` is set. -/
def rounds (fuel : ℕ) : ℕ → ComState → Option Bool
  | 0, _ => some false
  | n + 1, s =>
    (p.receive fuel (write s)).bind fun s =>
      if text s ≠ sampleStr then some true
      else rounds fuel n { s with buffer := List.replicate bufferLength 0 }

end ComPort

/-- `main`, with the results of `openDev` and of the calls for the port; `none` : a round is still
reading. -/
def comTest (fd : ℤ) (tty : Tty) (t : Termios) (p : ComPort) (fuel : ℕ) : Option ℤ :=
  if fd ≤ 0 then some (-1)
  else if (setParity tty 8 1 (letter 'N') t).ret = -1 then some (-1)
  else (p.rounds fuel comCount ⟨0, 0, 0, List.replicate bufferLength 0⟩).map fun flag =>
    if flag then -1 else 0

/-- The program reports success exactly if the echo begins with the samples. -/
def VerdictRight (fd : ℤ) (tty : Tty) (t : Termios) (p : ComPort) : Prop :=
  (∃ fuel, comTest fd tty t p fuel = some 0) ↔
    (List.replicate comCount sampleStr).flatten <+: p.stream

/-- What the driver delivers to the first `k` reads, less the empty ones. -/
def pieces (split : ℕ → ℕ) (k : ℕ) : List ℕ :=
  ((List.range k).map split).filter (· ≠ 0)

/-- The first `n` reads that are not empty could each take a whole sample. -/
def WholeReads (split : ℕ → ℕ) (n : ℕ) : Prop :=
  ∃ k, (pieces split k).length = n ∧ ∀ c ∈ pieces split k, sampleStr.length ≤ c

/-! ## A round -/

/-- The start of a round after `w` good ones. -/
def roundStart (w k : ℕ) : ComState :=
  ⟨w, k, sampleStr.length * w, List.replicate bufferLength 0⟩

/-- A round that still waits for its echo. -/
def waiting (w k : ℕ) : ComState :=
  ComPort.write (roundStart w k)

section Round

variable {p : ComPort} {w k fuel : ℕ} {s : ComState}

theorem sampleStr_length_pos : 0 < sampleStr.length := by
  decide

theorem read_waiting_of_zero (h : p.ready (waiting w k) = 0) :
    p.read (waiting w k) = waiting w (k + 1) := by
  simp only [ComPort.read, h, List.take_zero, List.drop_zero, List.nil_append, Nat.add_zero]
  rfl

/-- The read that ends a round. -/
theorem receive_waiting : p.receive fuel (waiting w k) = some s ↔ ∃ j < fuel,
    (∀ i < j, p.ready (waiting w (k + i)) = 0) ∧ p.ready (waiting w (k + j)) ≠ 0 ∧
      p.read (waiting w (k + j)) = s := by
  induction fuel generalizing k with
  | zero => simp [ComPort.receive]
  | succ fuel ih =>
    by_cases hready : p.ready (waiting w k) = 0
    · rw [ComPort.receive, if_pos hready, read_waiting_of_zero hready, ih]
      constructor
      · rintro ⟨j, hj, hwait, hend, hs⟩
        have hnext : ∀ i, k + 1 + i = k + (i + 1) := by omega
        simp only [hnext] at hwait hend hs
        refine ⟨j + 1, Nat.succ_lt_succ hj, fun i hi => ?_, hend, hs⟩
        cases i with
        | zero => exact hready
        | succ i => exact hwait i (Nat.lt_of_succ_lt_succ hi)
      · rintro ⟨j, hj, hwait, hend, hs⟩
        cases j with
        | zero => exact absurd hready hend
        | succ j =>
          have hnext : ∀ i, k + 1 + i = k + (i + 1) := by omega
          simp only [hnext]
          exact ⟨j, Nat.lt_of_succ_lt_succ hj, fun i hi => hwait (i + 1) (Nat.succ_lt_succ hi),
            hend, hs⟩
    · rw [ComPort.receive, if_neg hready, Option.some.injEq]
      constructor
      · rintro rfl
        exact ⟨0, Nat.succ_pos _, fun i hi => absurd hi (Nat.not_lt_zero i), hready, rfl⟩
      · rintro ⟨j, hj, hwait, hend, rfl⟩
        cases j with
        | zero => rfl
        | succ j => exact absurd (hwait 0 (Nat.succ_pos _)) hready

/-- Where the echo goes on with a sample, a read is empty if the driver delivers nothing. -/
theorem ready_waiting (h : sampleStr <+: p.stream.drop (sampleStr.length * w)) :
    p.ready (waiting w k) = min (p.split k) sampleStr.length := by
  have hlen := h.length_le
  rw [List.length_drop] at hlen
  have hpos := sampleStr_length_pos
  have havail : min (sampleStr.length * (w + 1)) p.stream.length - sampleStr.length * w =
      sampleStr.length := by
    rw [Nat.mul_succ]
    omega
  simp only [ComPort.ready, waiting, ComPort.write, roundStart, havail, Nat.min_self]

/-- A string in a buffer of zeros. -/
theorem takeWhile_append_zeros (bs : List UInt8) (n : ℕ) :
    (bs ++ List.replicate n 0).takeWhile (· ≠ 0) = bs.takeWhile (· ≠ 0) := by
  induction bs with
  | nil => cases n <;> rfl
  | cons b bs ih =>
    rw [List.cons_append, List.takeWhile_cons, List.takeWhile_cons, ih]

variable (p w k) in
/-- The string in `buffer` after a read. -/
theorem text_read : ComPort.text (p.read (waiting w k)) =
    ((p.stream.drop (sampleStr.length * w)).take (p.ready (waiting w k))).takeWhile (· ≠ 0) := by
  have hbuffer : (p.read (waiting w k)).buffer =
      (p.stream.drop (sampleStr.length * w)).take (p.ready (waiting w k)) ++
        List.replicate (bufferLength - p.ready (waiting w k)) 0 := by
    rw [ComPort.read, waiting, ComPort.write, roundStart]
    simp only [List.drop_replicate]
  rw [ComPort.text, hbuffer, takeWhile_append_zeros]

/-- The string in `buffer` is the sample exactly after a read of all of it. -/
theorem text_read_iff : ComPort.text (p.read (waiting w k)) = sampleStr ↔
    sampleStr.length ≤ p.split k ∧ sampleStr <+: p.stream.drop (sampleStr.length * w) := by
  rw [text_read]
  constructor
  · intro h
    have hle : p.ready (waiting w k) ≤ sampleStr.length :=
      (Nat.min_le_right ..).trans (Nat.min_le_left ..)
    have hsplit : p.ready (waiting w k) ≤ p.split k := Nat.min_le_left ..
    have hpre : sampleStr <+: (p.stream.drop (sampleStr.length * w)).take
        (p.ready (waiting w k)) := by
      have := List.takeWhile_prefix (· ≠ 0)
        (l := (p.stream.drop (sampleStr.length * w)).take (p.ready (waiting w k)))
      rwa [h] at this
    have hlen := hpre.length_le
    rw [List.length_take] at hlen
    exact ⟨by omega, hpre.trans (List.take_prefix ..)⟩
  · rintro ⟨hsplit, hpre⟩
    rw [ready_waiting hpre, Nat.min_eq_right hsplit, ← List.prefix_iff_eq_take.mp hpre]
    decide

/-- The next round follows a read of a whole sample. -/
theorem read_waiting_of_whole (hsplit : sampleStr.length ≤ p.split k)
    (hpre : sampleStr <+: p.stream.drop (sampleStr.length * w)) :
    { p.read (waiting w k) with buffer := List.replicate bufferLength 0 } =
      roundStart (w + 1) (k + 1) := by
  have hready : p.ready (waiting w k) = sampleStr.length := by
    rw [ready_waiting hpre, Nat.min_eq_right hsplit]
  simp only [ComPort.read, hready]
  simp only [waiting, ComPort.write, roundStart, Nat.mul_succ]

/-! ## The rounds -/

theorem receive_mono {fuel' : ℕ} {r : ComState} (hle : fuel ≤ fuel')
    (h : p.receive fuel s = some r) : p.receive fuel' s = some r := by
  induction fuel generalizing fuel' s with
  | zero => simp [ComPort.receive] at h
  | succ fuel ih =>
    obtain ⟨fuel', rfl⟩ := Nat.exists_eq_add_of_lt hle
    rw [ComPort.receive] at h ⊢
    split at h
    · next hready => rw [if_pos hready, ih (Nat.le_add_right ..) h]
    · next hready => rw [if_neg hready, h]

theorem rounds_mono {fuel' n : ℕ} {b : Bool} (hle : fuel ≤ fuel')
    (h : p.rounds fuel n s = some b) : p.rounds fuel' n s = some b := by
  induction n generalizing s with
  | zero => exact h
  | succ n ih =>
    rw [ComPort.rounds, Option.bind_eq_some_iff] at h
    obtain ⟨r, hr, h⟩ := h
    rw [ComPort.rounds, receive_mono hle hr, Option.bind_some]
    split at h
    · next htext => rw [if_pos htext, h]
    · next htext => rw [if_neg htext, ih h]

/-- `n` good rounds. -/
def Passes (p : ComPort) (n : ℕ) (s : ComState) : Prop :=
  ∃ fuel, p.rounds fuel n s = some false

theorem passes_succ {n : ℕ} : Passes p (n + 1) (roundStart w k) ↔
    ∃ j, (∀ i < j, p.split (k + i) = 0) ∧ sampleStr.length ≤ p.split (k + j) ∧
      sampleStr <+: p.stream.drop (sampleStr.length * w) ∧
        Passes p n (roundStart (w + 1) (k + j + 1)) := by
  constructor
  · rintro ⟨fuel, h⟩
    rw [ComPort.rounds, Option.bind_eq_some_iff] at h
    obtain ⟨r, hr, h⟩ := h
    obtain ⟨j, -, hwait, -, rfl⟩ := receive_waiting.mp hr
    split at h
    · simp at h
    next htext =>
    obtain ⟨hsplit, hpre⟩ := text_read_iff.mp (not_not.mp htext)
    refine ⟨j, fun i hi => ?_, hsplit, hpre, fuel, ?_⟩
    · -- an empty read, with a sample still to come
      have hzero := hwait i hi
      rw [ready_waiting hpre] at hzero
      have hpos := sampleStr_length_pos
      omega
    · rwa [read_waiting_of_whole hsplit hpre] at h
  · rintro ⟨j, hwait, hsplit, hpre, fuel, h⟩
    have hpos := sampleStr_length_pos
    have hreceive : p.receive (j + 1) (waiting w k) = some (p.read (waiting w (k + j))) := by
      refine receive_waiting.mpr ⟨j, Nat.lt_succ_self j, fun i hi => ?_, ?_, rfl⟩
      · rw [ready_waiting hpre, hwait i hi, Nat.zero_min]
      · rw [ready_waiting hpre]
        omega
    refine ⟨max (j + 1) fuel, ?_⟩
    rw [ComPort.rounds, ← waiting, receive_mono (Nat.le_max_left ..) hreceive, Option.bind_some,
      if_neg (not_not.mpr (text_read_iff.mpr ⟨hsplit, hpre⟩)),
      read_waiting_of_whole hsplit hpre]
    exact rounds_mono (Nat.le_max_right ..) h

end Round

/-! ## All of them -/

theorem append_prefix_iff {α : Type*} {as bs l : List α} :
    as ++ bs <+: l ↔ as <+: l ∧ bs <+: l.drop as.length := by
  constructor
  · rintro ⟨cs, rfl⟩
    rw [List.append_assoc, List.drop_left]
    exact ⟨List.prefix_append .., List.prefix_append ..⟩
  · rintro ⟨⟨cs, rfl⟩, hbs⟩
    rw [List.drop_left] at hbs
    exact (List.prefix_append_right_inj as).mpr hbs

section Pieces

variable {split : ℕ → ℕ} {j k n : ℕ}

theorem pieces_eq_nil (h : ∀ i < k, split i = 0) : pieces split k = [] := by
  simpa [pieces] using h

theorem pieces_add (split : ℕ → ℕ) (k n : ℕ) :
    pieces split (k + n) = pieces split k ++ pieces (fun i => split (k + i)) n := by
  rw [pieces, List.range_add, List.map_append, List.filter_append, List.map_map]
  rfl

/-- The pieces from the first one on. -/
theorem pieces_cons (hwait : ∀ i < j, split i = 0) (hj : split j ≠ 0) (n : ℕ) :
    pieces split (j + 1 + n) = split j :: pieces (fun i => split (j + 1 + i)) n := by
  have hone : pieces (fun i => split (j + i)) 1 = [split j] := by simp [pieces, hj]
  rw [pieces_add, pieces_add, pieces_eq_nil hwait, hone]
  rfl

theorem wholeReads_succ : WholeReads split (n + 1) ↔ ∃ j, (∀ i < j, split i = 0) ∧
    sampleStr.length ≤ split j ∧ WholeReads (fun i => split (j + 1 + i)) n := by
  have hpos := sampleStr_length_pos
  constructor
  · rintro ⟨k, hlen, hwhole⟩
    have hex : ∃ i, split i ≠ 0 ∧ i < k := by
      by_contra hnone
      push Not at hnone
      rw [pieces_eq_nil fun i hi => of_not_not fun h => absurd (hnone i h) (Nat.not_le.mpr hi)]
        at hlen
      simp at hlen
    -- the first of them
    have hfind := Nat.find_spec hex
    have hwait : ∀ i < Nat.find hex, split i = 0 := fun i hi =>
      of_not_not fun h => Nat.find_min hex hi ⟨h, hi.trans hfind.2⟩
    obtain ⟨m, hm⟩ := Nat.exists_eq_add_of_lt hfind.2
    rw [Nat.add_right_comm] at hm
    rw [hm, pieces_cons hwait hfind.1] at hlen hwhole
    exact ⟨_, hwait, hwhole _ (List.mem_cons_self ..), m, Nat.succ.inj hlen, fun c hc =>
      hwhole c (List.mem_cons_of_mem _ hc)⟩
  · rintro ⟨j, hwait, hsplit, m, hlen, hwhole⟩
    refine ⟨j + 1 + m, ?_⟩
    rw [pieces_cons hwait (by omega)]
    refine ⟨congrArg Nat.succ hlen, fun c hc => ?_⟩
    obtain rfl | hc := List.mem_cons.mp hc
    exacts [hsplit, hwhole c hc]

end Pieces

variable {p : ComPort}

/-- Rounds are good if the echo goes on with their samples, each in one piece. -/
theorem passes_iff {n w k : ℕ} : Passes p n (roundStart w k) ↔
    (List.replicate n sampleStr).flatten <+: p.stream.drop (sampleStr.length * w) ∧
      WholeReads (fun i => p.split (k + i)) n := by
  induction n generalizing w k with
  | zero =>
    have hnone : WholeReads (fun i => p.split (k + i)) 0 := ⟨0, rfl, by simp [pieces]⟩
    exact iff_of_true ⟨0, rfl⟩ ⟨List.nil_prefix, hnone⟩
  | succ n ih =>
    have hdrop : (p.stream.drop (sampleStr.length * w)).drop sampleStr.length =
        p.stream.drop (sampleStr.length * (w + 1)) := by
      rw [List.drop_drop, Nat.mul_succ]
    have hshift : ∀ j i, k + j + 1 + i = k + (j + 1 + i) := by omega
    rw [passes_succ, wholeReads_succ, List.replicate_succ, List.flatten_cons, append_prefix_iff,
      hdrop]
    simp only [ih, hshift]
    constructor
    · rintro ⟨j, hwait, hsplit, hsample, hsamples, hreads⟩
      exact ⟨⟨hsample, hsamples⟩, j, hwait, hsplit, hreads⟩
    · rintro ⟨⟨hsample, hsamples⟩, j, hwait, hsplit, hreads⟩
      exact ⟨j, hwait, hsplit, hsample, hsamples, hreads⟩

section Main

variable {fd : ℤ} {tty : Tty}

/-- The settings of `main` are refused only if a call for them fails. -/
theorem setParity_main (hget : tty.get = true) (hset : tty.set = true) (t : Termios) :
    (setParity tty 8 1 (letter 'N') t).ret ≠ -1 := by
  simp [setParity, hget, hset, newOptions, setDatabits, switchParity, setStopbits]

theorem comTest_eq_zero_iff (hfd : 0 < fd) (hget : tty.get = true) (hset : tty.set = true)
    (t : Termios) : (∃ fuel, comTest fd tty t p fuel = some 0) ↔
      (List.replicate comCount sampleStr).flatten <+: p.stream ∧ WholeReads p.split comCount := by
  have hrun : (∃ fuel, comTest fd tty t p fuel = some 0) ↔ Passes p comCount (roundStart 0 0) := by
    refine exists_congr fun fuel => ?_
    rw [comTest, if_neg (not_le.mpr hfd), if_neg (setParity_main hget hset t),
      Option.map_eq_some_iff]
    constructor
    · rintro ⟨flag, h, hflag⟩
      cases flag with
      | false => exact h
      | true => simp at hflag
    · exact fun h => ⟨false, h, rfl⟩
  rw [hrun, passes_iff]
  simp only [Nat.mul_zero, List.drop_zero, Nat.zero_add]

/-- On an open port, the program says what it should exactly if the echo is a wrong one or each
sample of it comes in one piece. -/
theorem verdictRight_iff (hfd : 0 < fd) (hget : tty.get = true) (hset : tty.set = true)
    (t : Termios) (p : ComPort) : VerdictRight fd tty t p ↔
      ((List.replicate comCount sampleStr).flatten <+: p.stream → WholeReads p.split comCount) := by
  rw [VerdictRight, comTest_eq_zero_iff hfd hget hset, and_iff_left_iff_imp]

/-- A fast port. -/
theorem verdictRight_iff_fast : VerdictRight 3 ⟨true, true⟩ ⟨0, 0, fun _ => 0⟩
    ⟨(List.replicate comCount sampleStr).flatten, fun _ => 8⟩ :=
  (verdictRight_iff (by decide) rfl rfl _ _).mpr fun _ => ⟨10, by decide, by decide⟩

/-- A good echo that comes in halves. -/
theorem not_verdictRight_halves : ¬ VerdictRight 3 ⟨true, true⟩ ⟨0, 0, fun _ => 0⟩
    ⟨(List.replicate comCount sampleStr).flatten, fun _ => 4⟩ := by
  intro h
  obtain ⟨-, hreads⟩ := ((comTest_eq_zero_iff (by decide) rfl rfl _).mp
    (h.mpr List.prefix_rfl))
  obtain ⟨k, hlen, hwhole⟩ := hreads
  cases k with
  | zero => exact absurd hlen (by decide)
  | succ k =>
    have := hwhole 4 (by simp [pieces])
    exact absurd this (by decide)

end Main

end LxToolset
