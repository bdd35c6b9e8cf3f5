import LxToolset.Md5
import Mathlib.Data.Nat.ModEq

/-!
# The stream of md5stream.c

The hash of the seed is the state of a generator that compresses blocks of 16 words which count
from 0 on (`seedStream`). Whatever the pieces in which the seed is given and the areas are filled,
these get the blocks of the stream one after the other (`md5stream_fills`), so that two runs from
one seed write the same bytes.
-/

set_option linter.unusedSectionVars false

namespace LxToolset

/-- The static variables. -/
structure Md5Stream (W : ℕ) where
  context : Md5Ctx W
  stopped : Bool
  input : ℕ → BitVec W

namespace Md5Stream

variable {W : ℕ}

/-- `md5stream_init` -/
def init (s : Md5Stream W) : Md5Stream W :=
  { s with context := md5Start W, stopped := false }

/-- `md5stream_seed` -/
def seed (s : Md5Stream W) (data : List UInt8) : Md5Stream W :=
  { s with context := data.foldl md5Feed s.context }

/-- `for(i = 0; i < 16 && (++in[i] & 0xFFFFFFFFUL) == 0; i++) in[i] &= 0xffffffffUL;`, from word `i`
on, with `n` words to go. -/
def increment : ℕ → ℕ → (ℕ → BitVec W) → ℕ → BitVec W
  | 0, _, input => input
  | n + 1, i, input =>
    let input := Function.update input i (input i + 1)
    if input i &&& low W = 0 then
      increment n (i + 1) (Function.update input i (input i &&& low W))
    else input

/-- `while(length >= 16)`, at most `fuel` times. -/
def fillLoop : ℕ → ℕ → Md5Stream W → List UInt8 → Md5Stream W × List UInt8
  | 0, _, s, area => (s, area)
  | fuel + 1, length, s, area =>
    if length ≥ 16 then
      fillLoop fuel (length - 16)
        { s with
          context := { s.context with buf := transform s.context.buf s.input }
          input := increment 16 0 s.input }
        (area ++ s.context.buf.bytes)
    else (s, area)

/-- `md5stream_fill`, and the bytes it writes to the beginning of `area`. -/
def fill (s : Md5Stream W) (length : ℕ) : Option (Md5Stream W × List UInt8) := do
  let s ← if s.stopped then some s else do
    let context ← md5Stop 64 s.context
    some ⟨context, true, fun _ => 0⟩
  return fillLoop length length s []

/-- Areas of these lengths, one after the other. -/
def fills (s : Md5Stream W) : List ℕ → Option (List (List UInt8))
  | [] => some []
  | length :: lengths => do
    let (s, area) ← s.fill length
    return area :: (← s.fills lengths)

end Md5Stream

/-! ## The stream -/

/-- Word `j` of the counter. -/
def counterWord (k j : ℕ) : BitVec 32 :=
  BitVec.ofNat 32 (k / 2 ^ (32 * j))

def streamState (seed : List UInt8) : ℕ → Md5Buf 32
  | 0 => md5State seed
  | k + 1 => specTransform (streamState seed k) (counterWord k)

/-- The first `n` blocks that a seed gives. -/
def seedStream (seed : List UInt8) (n : ℕ) : List UInt8 :=
  (List.range n).flatMap fun k => (streamState seed k).bytes

section Counter

variable {W i j k n : ℕ} {input : ℕ → BitVec W}

/-- A carry goes on as long as the words become 0. -/
theorem counterWord_succ (h : 2 ^ (32 * i) ∣ k + 1) :
    counterWord (k + 1) i = counterWord k i + 1 := by
  have hdiv : (k + 1) / 2 ^ (32 * i) = k / 2 ^ (32 * i) + 1 := by
    rw [Nat.succ_div, if_pos h]
  rw [counterWord, hdiv, BitVec.ofNat_add]
  rfl

theorem counterWord_succ_of_not_dvd (h : ¬ 2 ^ (32 * j) ∣ k + 1) :
    counterWord (k + 1) j = counterWord k j := by
  rw [counterWord, Nat.succ_div, if_neg h, Nat.add_zero, counterWord]

theorem dvd_of_counterWord_eq_zero (h : 2 ^ (32 * i) ∣ k + 1) (hzero : counterWord (k + 1) i = 0) :
    2 ^ (32 * (i + 1)) ∣ k + 1 := by
  have hnat := congrArg BitVec.toNat hzero
  rw [counterWord, BitVec.toNat_ofNat] at hnat
  obtain ⟨c, hc⟩ := h
  have hc32 : 2 ^ 32 ∣ c := by
    rw [hc, Nat.mul_div_cancel_left _ (Nat.two_pow_pos _)] at hnat
    exact Nat.dvd_of_mod_eq_zero hnat
  rw [hc, Nat.mul_succ, pow_add]
  exact Nat.mul_dvd_mul_left _ hc32

theorem counterWord_eq_zero (h : 2 ^ (32 * (i + 1)) ∣ k + 1) : counterWord (k + 1) i = 0 := by
  obtain ⟨c, hc⟩ := h
  rw [Nat.mul_succ, pow_add, Nat.mul_assoc] at hc
  apply BitVec.eq_of_toNat_eq
  rw [counterWord, BitVec.toNat_ofNat, hc, Nat.mul_div_cancel_left _ (Nat.two_pow_pos _),
    Nat.mul_mod_right]
  rfl

/-- Words that can be counted up are not at their end. -/
theorem widen_add_one {x : BitVec 32} (hW : 32 ≤ W) (h : x + 1 ≠ 0) :
    x.setWidth W + 1 = (x + 1).setWidth W := by
  have hone : (1 : BitVec 32).toNat = 1 := rfl
  have hpow : 2 ^ 32 ≤ 2 ^ W := Nat.pow_le_pow_right (by decide) hW
  have hmax : x.toNat + 1 < 2 ^ 32 := by
    by_contra hge
    refine h (BitVec.eq_of_toNat_eq ?_)
    have hlt := x.isLt
    rw [BitVec.toNat_add, hone]
    change (x.toNat + 1) % 2 ^ 32 = 0
    omega
  have hwone : (1 : BitVec W) = BitVec.ofNat W 1 := rfl
  apply BitVec.eq_of_toNat_eq
  rw [BitVec.toNat_add, BitVec.toNat_setWidth, BitVec.toNat_setWidth, BitVec.toNat_add, hone,
    Nat.mod_eq_of_lt hmax, hwone, BitVec.toNat_ofNat, ← Nat.add_mod]

/-- The loop counts one up. -/
theorem increment_eq (hW : 32 ≤ W) (hn : n + i = 16)
    (hlow : ∀ j < i, input j = (counterWord (k + 1) j).setWidth W)
    (hhigh : ∀ j, i ≤ j → j < 16 → input j = (counterWord k j).setWidth W)
    (hdvd : 2 ^ (32 * i) ∣ k + 1) :
    ∀ j < 16, Md5Stream.increment n i input j = (counterWord (k + 1) j).setWidth W := by
  induction n generalizing i input with
  | zero =>
    obtain rfl : i = 16 := by omega
    exact hlow
  | succ n ih =>
    have hi : input i + 1 = (counterWord k i).setWidth W + 1 := by
      rw [hhigh i le_rfl (by omega)]
    have hmask : (input i + 1) &&& low W = (counterWord (k + 1) i).setWidth W := by
      have hone : (1 : BitVec W).setWidth 32 = 1 := BitVec.setWidth_ofNat_of_le hW 1
      rw [hi, and_low, BitVec.setWidth_add _ _ hW, setWidth_widen hW, hone,
        counterWord_succ hdvd]
    rw [Md5Stream.increment]
    simp only [Function.update_self, hmask]
    by_cases hzero : counterWord (k + 1) i = 0
    · rw [if_pos (by rw [hzero]; exact BitVec.setWidth_zero ..)]
      refine ih (by omega) (fun j hj => ?_) (fun j hj hj' => ?_)
        (dvd_of_counterWord_eq_zero hdvd hzero)
      · rcases Nat.lt_succ_iff_lt_or_eq.1 hj with hlt | rfl
        · rw [Function.update_of_ne hlt.ne, Function.update_of_ne hlt.ne, hlow j hlt]
        · rw [Function.update_self]
      · rw [Function.update_of_ne (by omega), Function.update_of_ne (by omega),
          hhigh j (by omega) hj']
    · have hne : (counterWord (k + 1) i).setWidth W ≠ 0 := fun h => hzero (by
        rw [← setWidth_widen (x := counterWord (k + 1) i) hW, h]
        exact BitVec.setWidth_zero ..)
      rw [if_neg hne]
      intro j hj
      rcases Nat.lt_trichotomy j i with hlt | rfl | hgt
      · rw [Function.update_of_ne hlt.ne, hlow j hlt]
      · rw [Function.update_self, hi, widen_add_one hW (counterWord_succ hdvd ▸ hzero),
          counterWord_succ hdvd]
      · -- the carry ended at word `i`
        have hnot : ¬ 2 ^ (32 * j) ∣ k + 1 := fun h =>
          hzero (counterWord_eq_zero ((Nat.pow_dvd_pow 2 (by omega)).trans h))
        rw [Function.update_of_ne hgt.ne', hhigh j hgt.le hj, counterWord_succ_of_not_dvd hnot]

end Counter

/-! ## Filling -/

section Fill

variable {W k n length : ℕ} {data : List UInt8} {s : Md5Stream W}

/-- The first `k` blocks of the stream of `data` were written. -/
structure StreamAfter (s : Md5Stream W) (data : List UInt8) (k : ℕ) : Prop where
  stopped : s.stopped = true
  buf : s.context.buf = (streamState data k).widen W
  input : ∀ j < 16, s.input j = (counterWord k j).setWidth W

theorem index_lt : ∀ step ∈ md5Steps, step.2.1 < 16 := by
  decide

/-- Only 16 words are read. -/
theorem transform_congr {q : Md5Buf W} {input input' : ℕ → BitVec W}
    (h : ∀ j < 16, input j = input' j) : transform q input = transform q input' := by
  have hfold : ∀ l : List (Md5F × ℕ × ℕ × ℕ), (∀ step ∈ l, step.2.1 < 16) → ∀ r : Md5Buf W,
      l.foldl (transformStep input) r = l.foldl (transformStep input') r := by
    intro l
    induction l with
    | nil => exact fun _ _ => rfl
    | cons step l ih =>
      intro hl r
      have hstep : transformStep input r step = transformStep input' r step := by
        simp only [transformStep, h _ (hl step List.mem_cons_self)]
      rw [List.foldl_cons, List.foldl_cons, hstep]
      exact ih (fun t ht => hl t (List.mem_cons_of_mem _ ht)) _
  simp only [transform, hfold _ index_lt]

theorem seedStream_add (data : List UInt8) (k n : ℕ) :
    seedStream data (k + n) =
      seedStream data k ++ (List.range n).flatMap fun i => (streamState data (k + i)).bytes := by
  rw [seedStream, List.range_add, List.flatMap_append, List.flatMap_map, seedStream]

theorem length_seedStream (data : List UInt8) (n : ℕ) : (seedStream data n).length = n * 16 := by
  have hbytes : ∀ q : Md5Buf 32, q.bytes.length = 16 := fun _ => rfl
  simp [seedStream, List.length_flatMap, hbytes]

/-- A block is written, and the next one made from it. -/
theorem StreamAfter.next (hW : 32 ≤ W) (h : StreamAfter s data k) :
    StreamAfter { s with
      context := { s.context with buf := transform s.context.buf s.input }
      input := Md5Stream.increment 16 0 s.input } data (k + 1) where
  stopped := h.stopped
  buf := by
    change transform s.context.buf s.input = _
    rw [h.buf, transform_congr h.input, transform_widen hW, streamState]
  input := increment_eq hW rfl (fun j hj => absurd hj j.not_lt_zero) (fun j _ hj => h.input j hj)
    (by simp)

theorem StreamAfter.fillLoop (hW : 32 ≤ W) {fuel : ℕ} (area : List UInt8)
    (h : StreamAfter s data k) (hfuel : length ≤ fuel) :
    ∃ t, Md5Stream.fillLoop fuel length s area = (t, area ++ (List.range (length / 16)).flatMap
      fun i => (streamState data (k + i)).bytes) ∧ StreamAfter t data (k + length / 16) := by
  induction fuel generalizing length s area k with
  | zero =>
    obtain rfl : length = 0 := by omega
    exact ⟨s, by simp [Md5Stream.fillLoop], h⟩
  | succ fuel ih =>
    rw [Md5Stream.fillLoop]
    split_ifs with hlen
    · have hrest : length - 16 ≤ fuel := by omega
      obtain ⟨t, ht, hafter⟩ := ih (area ++ s.context.buf.bytes) (h.next hW) hrest
      have hdiv : length / 16 = (length - 16) / 16 + 1 := by omega
      refine ⟨t, ?_, ?_⟩
      · rw [ht, hdiv, List.range_succ_eq_map, List.flatMap_cons, List.flatMap_map, h.buf,
          bytes_widen hW, List.append_assoc]
        simp only [Nat.add_zero, Nat.add_assoc, Nat.succ_eq_add_one, Nat.add_comm 1]
      · rw [hdiv, Nat.add_comm _ 1, ← Nat.add_assoc]
        exact hafter
    · have hdiv : length / 16 = 0 := by omega
      exact ⟨s, by simp [hdiv], by rwa [hdiv]⟩

/-- The first call of `md5stream_fill` ends the seed, the others go on. -/
theorem StreamAfter.fill (hW : 32 ≤ W) (h : StreamAfter s data k) (length : ℕ) :
    ∃ t, s.fill length = some (t, (List.range (length / 16)).flatMap
      fun i => (streamState data (k + i)).bytes) ∧ StreamAfter t data (k + length / 16) := by
  obtain ⟨t, ht, hafter⟩ := h.fillLoop hW [] (le_refl length)
  refine ⟨t, ?_, hafter⟩
  rw [List.nil_append] at ht
  simp only [Md5Stream.fill, h.stopped, if_true, Option.bind_eq_bind, Option.bind_some, ht]
  rfl

theorem StreamAfter.fills (hW : 32 ≤ W) (h : StreamAfter s data k) (lengths : List ℕ) :
    ∃ areas, s.fills lengths = some areas ∧
      areas.map List.length = lengths.map (· / 16 * 16) ∧
      seedStream data k ++ areas.flatten = seedStream data (k + (lengths.map (· / 16)).sum) := by
  induction lengths generalizing s k with
  | nil => exact ⟨[], rfl, rfl, by simp⟩
  | cons length lengths ih =>
    obtain ⟨t, ht, hafter⟩ := h.fill hW length
    obtain ⟨areas, hareas, hlens, hflat⟩ := ih hafter
    refine ⟨((List.range (length / 16)).flatMap fun i => (streamState data (k + i)).bytes) :: areas,
      ?_, ?_, ?_⟩
    · rw [Md5Stream.fills, ht]
      simp only [Option.bind_eq_bind, Option.bind_some, hareas]
      rfl
    · have hbytes : ∀ q : Md5Buf 32, q.bytes.length = 16 := fun _ => rfl
      simp [hlens, List.length_flatMap, hbytes]
    · rw [List.flatten_cons, ← List.append_assoc, ← seedStream_add, hflat, List.map_cons,
        List.sum_cons, Nat.add_assoc]

variable (s)

theorem seeded (seeds : List (List UInt8)) :
    (seeds.foldl Md5Stream.seed s.init).stopped = false ∧
      (seeds.foldl Md5Stream.seed s.init).context = seeds.flatten.foldl md5Feed (md5Start W) := by
  have hrun : ∀ t : Md5Stream W, (seeds.foldl Md5Stream.seed t).stopped = t.stopped ∧
      (seeds.foldl Md5Stream.seed t).context = seeds.flatten.foldl md5Feed t.context := by
    induction seeds with
    | nil => exact fun _ => ⟨rfl, rfl⟩
    | cons data seeds ih =>
      intro t
      obtain ⟨hstopped, hcontext⟩ := ih (t.seed data)
      rw [List.foldl_cons, List.flatten_cons, List.foldl_append]
      exact ⟨hstopped, hcontext⟩
  exact hrun s.init

/-- The first area after the seed gets the first blocks of the stream. -/
theorem fill_seeded (hW : 32 ≤ W) (seeds : List (List UInt8)) (length : ℕ) :
    ∃ t, (seeds.foldl Md5Stream.seed s.init).fill length =
        some (t, seedStream seeds.flatten (length / 16)) ∧
      StreamAfter t seeds.flatten (length / 16) := by
  obtain ⟨hstopped, hcontext⟩ := seeded s seeds
  have hstop := md5Stop_start hW seeds.flatten
  rw [← hcontext] at hstop
  generalize seeds.foldl Md5Stream.seed s.init = t at hstopped hstop ⊢
  -- from the end of the seed on
  have hafter : StreamAfter (⟨ctxOf W (md5State seeds.flatten) [] (md5Pad seeds.flatten).length,
      true, fun _ => 0⟩ : Md5Stream W) seeds.flatten 0 :=
    ⟨rfl, rfl, fun j _ => by simp [counterWord]⟩
  obtain ⟨u, hu, hnext⟩ := hafter.fill hW length
  rw [Nat.zero_add] at hnext
  refine ⟨u, ?_, hnext⟩
  simp only [Nat.zero_add] at hu
  rw [seedStream, ← hu]
  simp [Md5Stream.fill, hstopped, hstop]

/-- After `md5stream_init` and the seed, in pieces, areas of any lengths are filled with the blocks
of the stream of the seed, one after the other, as many as are full. -/
theorem md5stream_fills (hW : 32 ≤ W) (seeds : List (List UInt8)) (lengths : List ℕ) :
    ∃ areas, (seeds.foldl Md5Stream.seed s.init).fills lengths = some areas ∧
      areas.map List.length = lengths.map (· / 16 * 16) ∧
      areas.flatten = seedStream seeds.flatten (lengths.map (· / 16)).sum := by
  rcases lengths with - | ⟨length, lengths⟩
  · exact ⟨[], rfl, rfl, rfl⟩
  obtain ⟨t, ht, hafter⟩ := fill_seeded s hW seeds length
  obtain ⟨areas, hareas, hlens, hflat⟩ := hafter.fills hW lengths
  refine ⟨seedStream seeds.flatten (length / 16) :: areas, ?_, ?_, ?_⟩
  · rw [Md5Stream.fills, ht]
    simp only [Option.bind_eq_bind, Option.bind_some, hareas]
    rfl
  · rw [List.map_cons, List.map_cons, hlens, length_seedStream]
  · rw [List.flatten_cons, hflat, List.map_cons, List.sum_cons]

/-- Words of 64 bits, and a seed and an area in two pieces. -/
theorem md5stream_fills_two :
    ∃ areas, ([[1, 2], [3]].foldl Md5Stream.seed (Md5Stream.init ⟨md5Start 64, true, 0⟩)).fills
        [16, 40] = some areas ∧
      areas.map List.length = [16, 32] ∧ areas.flatten = seedStream [1, 2, 3] 3 :=
  md5stream_fills ⟨md5Start 64, true, 0⟩ (by decide) [[1, 2], [3]] [16, 40]

end Fill

end LxToolset
