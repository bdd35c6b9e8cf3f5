import Mathlib.Data.BitVec
import Mathlib.Order.Monotone.Basic

/-!
# sendpkt

The program sends a packet, takes the time that this took from the interval it was given, and
sleeps for the rest. It counts a second as 1000 microseconds, so that the rest is wrong for a
send that the clock sees end in a later second than it began : `pacesSends_iff`.
-/

namespace LxToolset

/-- `struct timeval`. -/
structure Timeval where
  sec : ℕ
  usec : ℕ
  sec_lt : sec < 2 ^ 31
  usec_lt : usec < 1000000

def Timeval.micros (t : Timeval) : ℕ :=
  1000000 * t.sec + t.usec

/-- What the calls of a run return : the readings of the clock, which does not go back, and the
results of `libnet_write_link`. -/
structure SendEnv where
  clock : ℕ → Timeval
  mono : Monotone fun k => (clock k).micros
  write : ℕ → BitVec 32

namespace SendEnv

variable (env : SendEnv)

/-- The readings around send `i`. -/
def preTime (i : ℕ) : Timeval :=
  env.clock (2 * i)

def curTime (i : ℕ) : Timeval :=
  env.clock (2 * i + 1)

/-- The microseconds between them. -/
def duration (i : ℕ) : ℕ :=
  (env.curTime i).micros - (env.preTime i).micros

end SendEnv

/-- `time_elapse`. -/
def timeElapse (pre cur : Timeval) : BitVec 32 :=
  (BitVec.ofNat 32 cur.sec - BitVec.ofNat 32 pre.sec) * 1000 + BitVec.ofNat 32 cur.usec -
    BitVec.ofNat 32 pre.usec

/-- `time_left`. -/
def timeLeft (freq elapse : BitVec 32) : BitVec 32 :=
  if elapse < freq then freq - elapse else 0

/-- The arguments of `usleep`, and what `sendpkt` returns; `none` : it is still sending. -/
structure SendRun where
  sleeps : List (BitVec 32)
  ret : Option ℤ

/-- At most this many rounds of `sendpkt`, from send `i` on. -/
def sendpkt (env : SendEnv) (freq : BitVec 32) : (rounds i : ℕ) → SendRun
  | 0, _ => ⟨[], none⟩
  | rounds + 1, i =>
    if env.write i = -1 then ⟨[], some 1⟩
    else
      let rest := sendpkt env freq rounds (i + 1)
      ⟨timeLeft freq (timeElapse (env.preTime i) (env.curTime i)) :: rest.sleeps, rest.ret⟩

/-- Send `i`, with the sleep after it, takes `freq` or all the time it needs if that is more. -/
structure PacesSend (env : SendEnv) (freq : BitVec 32) (i : ℕ) (left : BitVec 32) : Prop where
  remainder : left.toNat = freq.toNat - env.duration i
  interval : env.duration i < freq.toNat → freq.toNat ≤ env.duration i + left.toNat

/-- The sleep after every packet that is sent is the right one. -/
def PacesSends (env : SendEnv) (freq : BitVec 32) (rounds : ℕ) : Prop :=
  ∀ i left, (sendpkt env freq rounds 0).sleeps[i]? = some left → PacesSend env freq i left

section Rounds

variable {env : SendEnv} {freq : BitVec 32}

/-- There is a sleep after each send before the first that fails. -/
theorem getElem?_sleeps {rounds i k : ℕ} {left : BitVec 32} :
    (sendpkt env freq rounds i).sleeps[k]? = some left ↔
      (k < rounds ∧ ∀ j ≤ k, env.write (i + j) ≠ -1) ∧
        timeLeft freq (timeElapse (env.preTime (i + k)) (env.curTime (i + k))) = left := by
  induction rounds generalizing i k with
  | zero => simp [sendpkt]
  | succ rounds ih =>
    rw [sendpkt]
    by_cases hfail : env.write i = -1
    · rw [if_pos hfail]
      refine iff_of_false (by simp) fun h => ?_
      exact h.1.2 0 (Nat.zero_le k) hfail
    · rw [if_neg hfail]
      cases k with
      | zero => simpa using fun _ => hfail
      | succ k =>
        have hshift : ∀ j, i + 1 + j = i + (j + 1) := by omega
        simp only [List.getElem?_cons_succ, ih, hshift, Nat.add_lt_add_iff_right]
        refine and_congr_left fun _ => and_congr_right fun _ => ?_
        constructor
        · intro h j hj
          cases j with
          | zero => exact hfail
          | succ j => exact h j (Nat.le_of_succ_le_succ hj)
        · exact fun h j hj => h (j + 1) (Nat.succ_le_succ hj)

theorem timeElapse_eq_ofInt (pre cur : Timeval) : timeElapse pre cur =
    BitVec.ofInt 32 (1000 * ((cur.sec : ℤ) - pre.sec) + cur.usec - pre.usec) := by
  simp only [timeElapse, Int.sub_eq_add_neg, BitVec.ofInt_add, BitVec.ofInt_mul, BitVec.ofInt_neg,
    BitVec.ofInt_natCast, BitVec.sub_eq_add_neg]
  rw [BitVec.mul_comm]
  rfl

/-- The seconds count a thousand. -/
theorem toNat_timeElapse (pre cur : Timeval) : ((timeElapse pre cur).toNat : ℤ) =
    (1000 * ((cur.sec : ℤ) - pre.sec) + cur.usec - pre.usec) % 2 ^ 32 := by
  rw [timeElapse_eq_ofInt, BitVec.toNat_ofInt]
  exact Int.toNat_of_nonneg (Int.emod_nonneg _ (by decide))

theorem toNat_timeLeft (freq elapse : BitVec 32) :
    (timeLeft freq elapse).toNat = freq.toNat - elapse.toNat := by
  unfold timeLeft
  split_ifs with h
  · rw [BitVec.toNat_sub_of_le (BitVec.le_of_lt h)]
  · have hle := BitVec.not_lt.mp h
    rw [BitVec.le_def] at hle
    simp only [BitVec.ofNat_eq_ofNat, BitVec.toNat_ofNat, Nat.zero_mod]
    omega

theorem pacesSend_iff {i : ℕ} {left : BitVec 32} :
    PacesSend env freq i left ↔ left.toNat = freq.toNat - env.duration i := by
  refine ⟨fun h => h.remainder, fun h => ⟨h, fun hlt => ?_⟩⟩
  omega

/-- The two times agree within a second, and in no other case. -/
theorem timeElapse_eq_iff {pre cur : Timeval} (h : pre.micros ≤ cur.micros) :
    (timeElapse pre cur).toNat = cur.micros - pre.micros ↔ cur.sec = pre.sec := by
  have helapse := toNat_timeElapse pre cur
  have hlt := (timeElapse pre cur).isLt
  have hcur := cur.usec_lt
  have hpre := pre.usec_lt
  unfold Timeval.micros at h ⊢
  constructor
  · intro heq
    have hsec : pre.sec ≤ cur.sec := by omega
    obtain ⟨n, hn⟩ := Nat.exists_eq_add_of_le hsec
    -- `999000 * n` is a multiple of `2 ^ 32` and below it
    omega
  · intro hsec
    rw [hsec] at h helapse ⊢
    omega

/-- The sleep is right if no second begins during the send, or it takes all of `freq` also as the
program counts it. -/
theorem exact_iff {pre cur : Timeval} (h : pre.micros ≤ cur.micros) :
    freq.toNat - (timeElapse pre cur).toNat = freq.toNat - (cur.micros - pre.micros) ↔
      cur.sec = pre.sec ∨ (freq.toNat ≤ cur.micros - pre.micros ∧
        (freq.toNat : ℤ) ≤
          (1000 * ((cur.sec : ℤ) - pre.sec) + cur.usec - pre.usec) % 2 ^ 32) := by
  have hsub : ∀ f e d : ℕ, f - e = f - d ↔ e = d ∨ (f ≤ d ∧ f ≤ e) := by omega
  rw [hsub, timeElapse_eq_iff h, ← toNat_timeElapse, Int.ofNat_le]

/-- `sendpkt` paces the packets exactly if for each that is sent both readings of the clock are of
one second, or the send takes all of `freq`, in microseconds as in the units of the program. -/
theorem pacesSends_iff (env : SendEnv) (freq : BitVec 32) (rounds : ℕ) :
    PacesSends env freq rounds ↔ ∀ i < rounds, (∀ j ≤ i, env.write j ≠ -1) →
      (env.curTime i).sec = (env.preTime i).sec ∨ (freq.toNat ≤ env.duration i ∧
        (freq.toNat : ℤ) ≤ (1000 * (((env.curTime i).sec : ℤ) - (env.preTime i).sec) +
          (env.curTime i).usec - (env.preTime i).usec) % 2 ^ 32) := by
  have hmono : ∀ i, (env.preTime i).micros ≤ (env.curTime i).micros :=
    fun i => env.mono (Nat.le_succ (2 * i))
  constructor
  · intro h i hi hsent
    have hpace := h i _ (getElem?_sleeps.mpr ⟨⟨hi, by simpa using hsent⟩, rfl⟩)
    rw [Nat.zero_add, pacesSend_iff, toNat_timeLeft] at hpace
    exact (exact_iff (hmono i)).mp hpace
  · intro h i left hleft
    obtain ⟨⟨hi, hsent⟩, rfl⟩ := getElem?_sleeps.mp hleft
    simp only [Nat.zero_add] at hsent ⊢
    rw [pacesSend_iff, toNat_timeLeft]
    exact (exact_iff (hmono i)).mpr (h i hi hsent)

end Rounds

/-- A send that begins 100 microseconds before the end of a second and takes 200. -/
def straddle : SendEnv where
  clock k := if k = 0 then ⟨0, 999900, by decide, by decide⟩ else ⟨1, 100, by decide, by decide⟩
  mono := by
    refine monotone_nat_of_le_succ fun k => ?_
    cases k with
    | zero => decide
    | succ k => exact le_of_eq rfl
  write _ := 1024

/-- There is no sleep after it, for an interval of 1000. -/
theorem not_pacesSends_straddle : ¬ PacesSends straddle 1000 1 := by
  intro h
  exact absurd (h 0 0 (by decide)).remainder (by decide)

end LxToolset
