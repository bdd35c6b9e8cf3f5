import Mathlib.Data.BitVec
import Mathlib.Data.List.GetD
import Mathlib.Algebra.BigOperators.Group.List.Basic

/-!
# The statistics file of urumt

A file of numbers of four bytes: for each page frame how often it was checked, and how many bad
bits were found. What `record_incr` adds to one number changes no other one (`Records.incr`), so
after any additions each number is the sum of what was added to it, up to the maximum or modulo
2^32 (`shown`), according to the width of `unsigned long`.
-/

namespace LxToolset

namespace UrumtStats

/-- `v = v * 256 + buf[i]` for each byte. -/
def valueOf (buf : List UInt8) : ℕ :=
  buf.foldl (fun v x => v * 256 + x.toNat) 0

/-- `buf[i] = v2 & 255; v2 /= 256;` for `n` bytes down to the first one, before `buf`. -/
def lowBytes : ℕ → ℕ → List UInt8 → List UInt8
  | 0, _, buf => buf
  | n + 1, v2, buf => lowBytes n (v2 / 256) (UInt8.ofNat (v2 % 256) :: buf)

/-- `pread` of a file -/
def pread (file : List UInt8) (length offset : ℕ) : List UInt8 :=
  (file.drop offset).take length

/-- `pwrite` to a file, which grows with zeros. -/
def pwrite (file buf : List UInt8) (offset : ℕ) : List UInt8 :=
  file.take offset ++ List.replicate (offset - file.length) 0 ++ buf ++
    file.drop (offset + buf.length)

/-- `record_incr`, where `unsigned long` has `W` bits. The number of bytes of a short read is the
error. -/
def recordIncr (W : ℕ) (stats : List UInt8) (offset inc : ℕ) : Except ℕ (List UInt8) := do
  let buf := pread stats 4 (offset * 4)
  let buf ← if buf.length = 0 then .ok (List.replicate 4 0)
    else if buf.length ≠ 4 then .error buf.length
    else .ok buf
  let v := valueOf buf
  let v2 := (v + inc) % 2 ^ W
  let buf := if v2 < v then List.replicate 4 255 else lowBytes 4 v2 []
  return pwrite stats buf (offset * 4)

/-- `record_bad_bits` -/
def recordBadBits (W : ℕ) (stats : List UInt8) (page n : ℕ) : Except ℕ (List UInt8) :=
  recordIncr W stats (page * 2 + 1) n

/-- `record_checked` -/
def recordChecked (W : ℕ) (stats : List UInt8) (page : ℕ) : Except ℕ (List UInt8) :=
  recordIncr W stats (page * 2) 1

/-- The lines of `print_stats` from a page on: as long as 8 bytes are read. -/
def printStats : ℕ → List UInt8 → List (ℕ × ℕ × ℕ)
  | page, a :: b :: c :: d :: e :: f :: g :: h :: stats =>
    (page, valueOf [a, b, c, d], valueOf [e, f, g, h]) :: printStats (page + 1) stats
  | _, _ => []

/-! ## The numbers of a file -/

/-- Number `k`, which is 0 beyond the end. -/
def counter (file : List UInt8) (k : ℕ) : ℕ :=
  valueOf ((List.range 4).map fun i => file.getD (4 * k + i) 0)

section Counter

variable {W n v offset inc k : ℕ} {file buf : List UInt8}

theorem valueOf_append (buf : List UInt8) (x : UInt8) :
    valueOf (buf ++ [x]) = valueOf buf * 256 + x.toNat := by
  rw [valueOf, List.foldl_append, List.foldl_cons, List.foldl_nil, valueOf]

theorem valueOf_lt (buf : List UInt8) : valueOf buf < 256 ^ buf.length := by
  induction buf using List.reverseRecOn with
  | nil => exact Nat.one_pos
  | append_singleton buf x ih =>
    have hx := x.toNat_lt
    rw [valueOf_append, List.length_append, List.length_singleton, pow_succ]
    omega

theorem counter_lt (file : List UInt8) (k : ℕ) : counter file k < 2 ^ 32 := by
  have h := valueOf_lt ((List.range 4).map fun i => file.getD (4 * k + i) 0)
  rwa [List.length_map, List.length_range] at h

theorem length_lowBytes (n v : ℕ) (buf : List UInt8) :
    (lowBytes n v buf).length = n + buf.length := by
  induction n generalizing v buf with
  | zero => exact (Nat.zero_add _).symm
  | succ n ih =>
    rw [lowBytes, ih, List.length_cons]
    omega

theorem lowBytes_append (n v : ℕ) (buf : List UInt8) :
    lowBytes n v buf = lowBytes n v [] ++ buf := by
  induction n generalizing v buf with
  | zero => rfl
  | succ n ih => rw [lowBytes, lowBytes, ih, ih _ [_], List.append_assoc, List.singleton_append]

/-- What is written reads as the number, modulo what fits. -/
theorem valueOf_lowBytes (n v : ℕ) : valueOf (lowBytes n v []) = v % 256 ^ n := by
  induction n generalizing v with
  | zero => exact (Nat.mod_one v).symm
  | succ n ih =>
    have hlow : (UInt8.ofNat (v % 256)).toNat = v % 256 := by simp
    calc valueOf (lowBytes (n + 1) v []) = v / 256 % 256 ^ n * 256 + v % 256 := by
          rw [lowBytes, lowBytes_append, valueOf_append, ih, hlow]
      _ = v % 256 ^ (n + 1) := by
          rw [pow_succ', Nat.mod_mul, Nat.mul_comm, Nat.add_comm]

theorem length_pwrite (file buf : List UInt8) (offset : ℕ) :
    (pwrite file buf offset).length = max file.length (offset + buf.length) := by
  simp only [pwrite, List.length_append, List.length_take, List.length_replicate,
    List.length_drop]
  omega

/-- Beside the bytes written a file keeps its bytes. -/
theorem getD_pwrite (file buf : List UInt8) (offset i : ℕ) :
    (pwrite file buf offset).getD i 0 =
      if offset ≤ i ∧ i < offset + buf.length then buf.getD (i - offset) 0
      else file.getD i 0 := by
  have hstart : (file.take offset ++ List.replicate (offset - file.length) (0 : UInt8)).length =
      offset := by
    rw [List.length_append, List.length_take, List.length_replicate]
    omega
  rw [pwrite, List.append_assoc]
  rcases Nat.lt_or_ge i offset with hlt | hge
  · rw [List.getD_append _ _ _ _ (by omega), if_neg (by omega)]
    rcases Nat.lt_or_ge i file.length with hi | hi
    · rw [List.getD_append _ _ _ _ (by rw [List.length_take]; omega)]
      simp [List.getD, hlt]
    · rw [List.getD_append_right _ _ _ _ (by rw [List.length_take]; omega),
        List.getD_eq_default _ _ hi, List.getD, List.getElem?_replicate]
      split_ifs <;> rfl
  · rw [List.getD_append_right _ _ _ _ (by omega), hstart]
    by_cases hbuf : i < offset + buf.length
    · rw [List.getD_append _ _ _ _ (by omega), if_pos ⟨hge, hbuf⟩]
    · rw [List.getD_append_right _ _ _ _ (by omega), if_neg (by omega)]
      have hi : offset + buf.length + (i - offset - buf.length) = i := by omega
      simp [List.getD, hi]

/-- Numbers of a file without a piece of one are read whole, or not at all. -/
theorem pread_counter (h : 4 ∣ file.length) (k : ℕ) :
    (pread file 4 (k * 4) = [] ∧ file.length ≤ 4 * k ∧ counter file k = 0) ∨
      ((pread file 4 (k * 4)).length = 4 ∧ valueOf (pread file 4 (k * 4)) = counter file k) := by
  have hlen : (pread file 4 (k * 4)).length = min 4 (file.length - k * 4) := by
    rw [pread, List.length_take, List.length_drop]
  rcases Nat.lt_or_ge (4 * k) file.length with hlt | hge
  · refine Or.inr ⟨by omega, congrArg valueOf (List.ext_getElem ?_ fun i hi _ => ?_)⟩
    · rw [hlen, List.length_map, List.length_range]
      omega
    · have hin : 4 * k + i < file.length := by omega
      simp only [pread, List.getElem_take, List.getElem_drop, List.getElem_map,
        List.getElem_range, Nat.mul_comm k 4]
      rw [List.getD_eq_getElem _ _ hin]
  · refine Or.inl ⟨List.length_eq_zero_iff.1 (by omega), hge, ?_⟩
    have hzero : ∀ i, file.getD (4 * k + i) 0 = 0 := fun i =>
      List.getD_eq_default _ _ (by omega)
    simp only [counter, hzero]
    rfl

theorem counter_pwrite (hbuf : buf.length = 4) (file : List UInt8) (offset k : ℕ) :
    counter (pwrite file buf (offset * 4)) k = if k = offset then valueOf buf
      else counter file k := by
  by_cases hk : k = offset
  · rw [if_pos hk, counter]
    congr 1
    refine List.ext_getElem (by rw [List.length_map, List.length_range, hbuf]) fun i hi hi' => ?_
    rw [List.getElem_map, List.getElem_range, getD_pwrite, if_pos (by omega)]
    have hsub : 4 * k + i - offset * 4 = i := by omega
    rw [hsub, List.getD_eq_getElem _ _ hi']
  · rw [if_neg hk, counter, counter]
    refine congrArg valueOf (List.map_congr_left fun i hi => ?_)
    rw [List.mem_range] at hi
    rw [getD_pwrite, if_neg (by omega)]

/-- The line of a frame has its two numbers. -/
theorem printStats_eq (page : ℕ) (file : List UInt8) :
    printStats page file = (List.range (file.length / 8)).map fun i =>
      (page + i, counter file (2 * i), counter file (2 * i + 1)) := by
  fun_induction printStats page file with
  | case1 page a b c d e f g h stats ih =>
    have hlen : (a :: b :: c :: d :: e :: f :: g :: h :: stats).length / 8 =
        stats.length / 8 + 1 := by
      simp only [List.length_cons]
      omega
    rw [ih, hlen, List.range_succ_eq_map, List.map_cons, List.map_map]
    refine congrArg₂ _ rfl (List.map_congr_left fun i _ => ?_)
    have hshift : ∀ k, counter (a :: b :: c :: d :: e :: f :: g :: h :: stats) (k + 2) =
        counter stats k := by
      intro k
      refine congrArg valueOf (List.map_congr_left fun j _ => ?_)
      have hj : 4 * (k + 2) + j = 4 * k + j + 8 := by omega
      rw [hj]
      rfl
    have heven : 2 * (i + 1) = 2 * i + 2 := rfl
    have hodd : 2 * (i + 1) + 1 = 2 * i + 1 + 2 := rfl
    have hpage : page + 1 + i = page + (i + 1) := by omega
    rw [Function.comp_apply, Nat.succ_eq_add_one, hodd, heven, hshift, hshift, hpage]
  | case2 stats page h =>
    have hlen : stats.length / 8 = 0 := by
      by_contra hne
      obtain ⟨a, b, c, d, e, f, g, i, rest, rfl⟩ : ∃ a b c d e f g i rest,
          stats = a :: b :: c :: d :: e :: f :: g :: i :: rest := by
        rcases stats with
          _ | ⟨a, _ | ⟨b, _ | ⟨c, _ | ⟨d, _ | ⟨e, _ | ⟨f, _ | ⟨g, _ | ⟨i, rest⟩⟩⟩⟩⟩⟩⟩⟩
        all_goals first
          | exact ⟨a, b, c, d, e, f, g, i, rest, rfl⟩
          | simp at hne
      exact h _ _ _ _ _ _ _ _ _ rfl
    rw [hlen]
    rfl

end Counter

/-! ## Additions -/

/-- What `record_incr` makes of a number. -/
def bump (W v inc : ℕ) : ℕ :=
  if (v + inc) % 2 ^ W < v then 2 ^ 32 - 1 else (v + inc) % 2 ^ W % 2 ^ 32

/-- The number in the file for a sum: the test `v2 < v` only sees an overflow where
`unsigned long` has no more bits than the file. -/
def shown (W total : ℕ) : ℕ :=
  if W = 32 then min total (2 ^ 32 - 1) else total % 2 ^ 32

/-- What was added to number `k`. -/
def total (log : List (ℕ × ℕ)) (k : ℕ) : ℕ :=
  ((log.filter fun e => e.1 = k).map Prod.snd).sum

/-- A file of whole numbers after the additions of `log` to the numbers of `base`. -/
structure Records (W : ℕ) (base : ℕ → ℕ) (size : ℕ) (log : List (ℕ × ℕ)) (file : List UInt8) :
    Prop where
  whole : 4 ∣ file.length
  counter : ∀ k, counter file k = shown W (base k + total log k)
  length : ∀ k, 4 * k < file.length ↔ 4 * k < size ∨ ∃ e ∈ log, k ≤ e.1

section Additions

variable {W size offset inc v : ℕ} {base : ℕ → ℕ} {log : List (ℕ × ℕ)} {file : List UInt8}

theorem recordIncr_eq (W offset inc : ℕ) (h : 4 ∣ file.length) :
    ∃ file', recordIncr W file offset inc = .ok file' ∧
      file'.length = max file.length (4 * (offset + 1)) ∧
      ∀ k, counter file' k = if k = offset then bump W (counter file k) inc
        else counter file k := by
  have hwritten : ∀ v2, (lowBytes 4 v2 []).length = 4 := fun v2 => length_lowBytes 4 v2 []
  have hwrite : ∀ v, ∃ buf : List UInt8, buf.length = 4 ∧ valueOf buf = bump W v inc ∧
      buf = if (v + inc) % 2 ^ W < v then List.replicate 4 255
        else lowBytes 4 ((v + inc) % 2 ^ W) [] := by
    intro v
    refine ⟨_, ?_, ?_, rfl⟩
    · split_ifs
      · rfl
      · exact hwritten _
    · rw [bump]
      split_ifs
      · rfl
      · exact valueOf_lowBytes 4 _
  obtain ⟨buf, hlen, hvalue, hbuf⟩ := hwrite (counter file offset)
  refine ⟨pwrite file buf (offset * 4), ?_, ?_, fun k => ?_⟩
  · obtain ⟨hnil, -, hzero⟩ | ⟨hfour, hread⟩ := pread_counter h offset
    · rw [hzero] at hbuf
      simp only [recordIncr, hnil, hbuf]
      rfl
    · rw [← hread] at hbuf
      simp only [recordIncr, hfour, hbuf]
      rfl
  · rw [length_pwrite, hlen]
    omega
  · rw [counter_pwrite hlen]
    split_ifs with hk
    · rw [hvalue, hk]
    · rfl

theorem bump_shown (hW : 32 ≤ W) (hinc : inc < 2 ^ 32) (v : ℕ) :
    bump W (shown W v) inc = shown W (v + inc) := by
  rcases hW.eq_or_lt with rfl | hlt
  · simp only [bump, shown, if_true]
    split_ifs <;> omega
  · -- no overflow
    have hpow : 2 ^ 33 ≤ 2 ^ W := Nat.pow_le_pow_right (by decide) hlt
    have hlow := Nat.mod_lt v (Nat.two_pow_pos 32)
    have hsum : (v % 2 ^ 32 + inc) % 2 ^ W = v % 2 ^ 32 + inc :=
      Nat.mod_eq_of_lt (by omega)
    simp only [bump, shown, if_neg hlt.ne', hsum]
    split_ifs <;> omega

theorem shown_of_lt (h : v < 2 ^ 32) : shown W v = v := by
  rw [shown]
  split_ifs <;> omega

theorem total_append (l l' : List (ℕ × ℕ)) (k : ℕ) :
    total (l ++ l') k = total l k + total l' k := by
  simp [total]

theorem total_cons (e : ℕ × ℕ) (l : List (ℕ × ℕ)) (k : ℕ) :
    total (e :: l) k = (if e.1 = k then e.2 else 0) + total l k := by
  by_cases hk : e.1 = k <;> simp [total, hk]

theorem total_nil (k : ℕ) : total [] k = 0 :=
  rfl

theorem Records.start (h : 4 ∣ file.length) :
    Records W (UrumtStats.counter file) file.length [] file where
  whole := h
  counter k := by
    rw [total_nil, Nat.add_zero, shown_of_lt (counter_lt file k)]
  length k := by simp

/-- One more addition. -/
theorem Records.incr (h : Records W base size log file) (hW : 32 ≤ W) (offset : ℕ)
    (hinc : inc < 2 ^ 32) :
    ∃ file', recordIncr W file offset inc = .ok file' ∧
      Records W base size (log ++ [(offset, inc)]) file' := by
  obtain ⟨file', hfile, hlen, hcounter⟩ := recordIncr_eq W offset inc h.whole
  refine ⟨file', hfile, ?_, fun k => ?_, fun k => ?_⟩
  · have hwhole := h.whole
    rw [hlen]
    omega
  · rw [hcounter, total_append, total_cons, total_nil, Nat.add_zero, ← Nat.add_assoc]
    by_cases hk : k = offset
    · rw [if_pos hk, if_pos hk.symm, h.counter, bump_shown hW hinc]
    · rw [if_neg hk, if_neg (Ne.symm hk), h.counter, Nat.add_zero]
  · rw [hlen, lt_max_iff, h.length, or_assoc]
    simp only [List.mem_append, List.mem_singleton, or_and_right, exists_or, exists_eq_left]
    have hlast : 4 * k < 4 * (offset + 1) ↔ k ≤ offset := by omega
    rw [hlast]

end Additions

end UrumtStats

end LxToolset
