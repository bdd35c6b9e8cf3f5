import Mathlib.Data.BitVec
import Mathlib.Data.Int.Notation
import Mathlib.Data.List.Basic
import Mathlib.Data.Set.Function
import Mathlib.Tactic.Positivity

/-!
# Byte memory

Addresses are integers taken modulo a power of two, words are little endian, and a
list of stores acts on a memory from left to right. `forall_addr_lt_iff` decides when a
run of bytes that may pass the top of the address space stays below a bound;
`write_eq_of_forall` and `write_eq_of_notMem` read one byte after a list of stores.
-/

namespace Memory

/-! ## Addresses -/

/-- The address `z` in a space of `2 ^ bits` bytes. -/
def addr (bits : ℕ) (z : ℤ) : ℕ :=
  (z % 2 ^ bits).toNat

variable {bits : ℕ}

theorem addr_cast (bits : ℕ) (z : ℤ) : (addr bits z : ℤ) = z % 2 ^ bits :=
  Int.toNat_of_nonneg (Int.emod_nonneg _ (by positivity))

theorem addr_lt (bits : ℕ) (z : ℤ) : addr bits z < 2 ^ bits := by
  have h := Int.emod_lt_of_pos z (show (0 : ℤ) < 2 ^ bits by positivity)
  rw [← addr_cast] at h
  exact_mod_cast h

theorem addr_of_lt {n : ℕ} (h : n < 2 ^ bits) : addr bits n = n := by
  have hz : ((n : ℤ)) % 2 ^ bits = n := Int.emod_eq_of_lt (by omega) (by exact_mod_cast h)
  rw [addr, hz, Int.toNat_natCast]

theorem addr_le (bits n : ℕ) : addr bits n ≤ n := by
  have h := Nat.mod_le n (2 ^ bits)
  have hcast : (n : ℤ) % 2 ^ bits = ((n % 2 ^ bits : ℕ) : ℤ) := by push_cast; rfl
  rw [addr, hcast, Int.toNat_natCast]
  exact h

theorem addr_add {z : ℤ} {s : ℕ} (h : addr bits z + s < 2 ^ bits) :
    addr bits (z + s) = addr bits z + s := by
  have hz : (addr bits z + s : ℤ) % 2 ^ bits = addr bits z + s :=
    Int.emod_eq_of_lt (by omega) (by exact_mod_cast h)
  rw [addr_cast, Int.emod_add_emod, ← addr_cast, ← addr_cast bits z] at hz
  exact_mod_cast hz

/-- `n` bytes from `z` on lie below `P`, which the address space reaches or which they
must end below without passing its top. -/
theorem forall_addr_lt_iff {z : ℤ} {n P : ℕ} :
    (∀ s < n, addr bits (z + s) < P) ↔ n = 0 ∨ 2 ^ bits ≤ P ∨ addr bits z + n ≤ P := by
  constructor
  · intro h
    by_contra hne
    obtain ⟨hn, hP, hend⟩ : n ≠ 0 ∧ P < 2 ^ bits ∧ P < addr bits z + n := by
      simpa only [not_or, not_le] using hne
    have hz := addr_lt bits z
    -- the first byte at or above `P`
    have hlow : addr bits z < P := by simpa using h 0 (by omega)
    have hs := h (P - addr bits z) (by omega)
    rw [addr_add (by omega)] at hs
    omega
  · rintro (rfl | hP | hend) s hs
    · omega
    · exact (addr_lt bits _).trans_le hP
    · by_cases hlt : addr bits z + s < 2 ^ bits
      · rw [addr_add hlt]
        omega
      · have := addr_lt bits (z + s)
        omega

/-- A run of `c * n` places, taken `c` at a time. -/
theorem forall_lt_mul_iff {Q : ℕ → Prop} {c n : ℕ} (hc : 0 < c) :
    (∀ j < n, ∀ k < c, Q (c * j + k)) ↔ ∀ s < c * n, Q s := by
  constructor
  · intro h s hs
    have hj : s / c < n := Nat.div_lt_of_lt_mul hs
    have hq := h (s / c) hj (s % c) (Nat.mod_lt s hc)
    rwa [Nat.div_add_mod] at hq
  · intro h j hj k hk
    have hle : c * (j + 1) ≤ c * n := Nat.mul_le_mul_left c hj
    rw [Nat.mul_succ] at hle
    exact h (c * j + k) (by omega)

theorem forall_lt_three {Q : ℕ → Prop} : (∀ k < 3, Q k) ↔ Q 0 ∧ Q 1 ∧ Q 2 := by
  refine ⟨fun h => ⟨h 0 (by omega), h 1 (by omega), h 2 (by omega)⟩, fun ⟨h0, h1, h2⟩ k hk => ?_⟩
  obtain rfl | rfl | rfl : k = 0 ∨ k = 1 ∨ k = 2 := by omega
  · exact h0
  · exact h1
  · exact h2

theorem exists_lt_three {Q : ℕ → Prop} : (∃ k < 3, Q k) ↔ Q 0 ∨ Q 1 ∨ Q 2 := by
  have h := forall_lt_three (Q := fun k => ¬Q k)
  rw [← not_iff_not]
  simpa only [not_exists, not_and, not_or] using h

/-! ## Little-endian words -/

/-- The value of `n` bytes from `k` on. -/
def word (f : ℕ → UInt8) (k n : ℕ) : ℕ :=
  ((List.range n).map fun i => (f (k + i)).toNat * 256 ^ i).sum

/-- Byte `k` of a word. -/
def byteOf (v k : ℕ) : UInt8 :=
  UInt8.ofNat (v >>> (8 * k))

theorem word_succ (f : ℕ → UInt8) (k n : ℕ) :
    word f k (n + 1) = word f k n + (f (k + n)).toNat * 256 ^ n := by
  simp [word, List.range_succ]

theorem toNat_byteOf (v k : ℕ) : (byteOf v k).toNat = v / 256 ^ k % 256 := by
  rw [byteOf, UInt8.toNat_ofNat', Nat.shiftRight_eq_div_pow, Nat.pow_mul]

/-- The bytes of a value, one after the other, read as a word. -/
theorem word_of_byteOf {f : ℕ → UInt8} {k n v : ℕ} (h : ∀ i < n, f (k + i) = byteOf v i) :
    word f k n = v % 256 ^ n := by
  induction n with
  | zero => simp [word, Nat.mod_one]
  | succ n ih =>
    have hlow := ih fun i hi => h i (by omega)
    rw [word_succ, hlow, h n (by omega), toNat_byteOf, Nat.mod_pow_succ, Nat.mul_comm (256 ^ n)]

theorem word_lt (f : ℕ → UInt8) (k n : ℕ) : word f k n < 256 ^ n := by
  induction n with
  | zero => simp [word]
  | succ n ih =>
    have hbyte : (f (k + n)).toNat * 256 ^ n ≤ 255 * 256 ^ n :=
      Nat.mul_le_mul_right _ (Nat.le_of_lt_succ (f (k + n)).toNat_lt)
    rw [word_succ, Nat.pow_succ]
    omega

theorem toNat_setWidth_byte (v : UInt8) : (v.toBitVec.setWidth 32).toNat = v.toNat := by
  have hv : v.toNat < 2 ^ 8 := v.toNat_lt
  rw [BitVec.toNat_setWidth, UInt8.toNat_toBitVec, Nat.mod_eq_of_lt (by omega)]

/-- A byte shifted above a smaller number. -/
theorem toNat_shiftLeft_or {x : BitVec 32} {n : ℕ} (v : UInt8) (hx : x.toNat < 2 ^ n)
    (hn : n + 8 ≤ 32) :
    (v.toBitVec.setWidth 32 <<< n ||| x).toNat = x.toNat + v.toNat * 2 ^ n := by
  have hv : v.toNat < 2 ^ 8 := v.toNat_lt
  have hv32 : v.toNat % 2 ^ 32 = v.toNat := Nat.mod_eq_of_lt (by omega)
  have hshift : v.toNat * 2 ^ n < 2 ^ 32 := by
    have hpow : 2 ^ 8 * 2 ^ n ≤ 2 ^ 32 := by
      rw [← Nat.pow_add]
      exact Nat.pow_le_pow_right (by omega) (by omega)
    have hlt : v.toNat * 2 ^ n < 2 ^ 8 * 2 ^ n := Nat.mul_lt_mul_of_pos_right hv (by positivity)
    omega
  rw [BitVec.toNat_or, BitVec.toNat_shiftLeft, BitVec.toNat_setWidth, UInt8.toNat_toBitVec, hv32,
    Nat.shiftLeft_eq, Nat.mod_eq_of_lt hshift, ← Nat.shiftLeft_eq,
    ← Nat.shiftLeft_add_eq_or_of_lt hx, Nat.shiftLeft_eq, Nat.add_comm]

/-- Two bytes put together with shifts. -/
theorem toNat_shiftLeft_or_two (f : ℕ → UInt8) (k : ℕ) :
    ((f (k + 1)).toBitVec.setWidth 32 <<< 8 ||| (f k).toBitVec.setWidth 32).toNat =
      word f k 2 := by
  have hlow := toNat_setWidth_byte (f k)
  rw [toNat_shiftLeft_or _ (hlow.trans_lt (f k).toNat_lt) (by omega), hlow]
  simp [word, List.range_succ]

/-- Four bytes put together with shifts. -/
theorem toNat_shiftLeft_or_four (f : ℕ → UInt8) (k : ℕ) :
    ((f (k + 3)).toBitVec.setWidth 32 <<< 24 ||| ((f (k + 2)).toBitVec.setWidth 32 <<< 16 |||
      ((f (k + 1)).toBitVec.setWidth 32 <<< 8 ||| (f k).toBitVec.setWidth 32))).toNat =
      word f k 4 := by
  have hlt : ∀ n, word f k n < 256 ^ n := word_lt f k
  have htwo := toNat_shiftLeft_or_two f k
  have hthree := toNat_shiftLeft_or (n := 16) (f (k + 2)) (htwo.trans_lt (hlt 2)) (by omega)
  rw [htwo, show (2 : ℕ) ^ 16 = 256 ^ 2 from rfl, ← word_succ] at hthree
  rw [toNat_shiftLeft_or _ (hthree.trans_lt (hlt 3)) (by omega), hthree,
    show (2 : ℕ) ^ 24 = 256 ^ 3 from rfl, ← word_succ]

/-! ## Stores -/

/-- The memory after a list of byte stores. -/
def write (m : ℕ → UInt8) (ws : List (ℕ × UInt8)) : ℕ → UInt8 :=
  ws.foldl (fun m w => Function.update m w.1 w.2) m

variable {m : ℕ → UInt8} {ws ws' : List (ℕ × UInt8)} {o : ℕ} {v : UInt8}

@[simp] theorem write_nil : write m [] = m :=
  rfl

theorem write_cons (w : ℕ × UInt8) :
    write m (w :: ws) = write (Function.update m w.1 w.2) ws :=
  rfl

/-- A byte that no store hits is unchanged. -/
theorem write_eq_of_notMem (h : ∀ w ∈ ws, w.1 ≠ o) : write m ws o = m o := by
  induction ws generalizing m with
  | nil => rfl
  | cons w ws ih =>
    have hw : o ≠ w.1 := (h w List.mem_cons_self).symm
    rw [write_cons, ih fun w' hw' => h w' (List.mem_cons_of_mem _ hw'),
      Function.update_of_ne hw]

/-- A byte that is stored, and with one value only, holds it. -/
theorem write_eq_of_forall (hex : ∃ w ∈ ws, w.1 = o) (h : ∀ w ∈ ws, w.1 = o → w.2 = v) :
    write m ws o = v := by
  induction ws generalizing m with
  | nil => simp at hex
  | cons w ws ih =>
    rw [write_cons]
    by_cases hlater : ∃ w' ∈ ws, w'.1 = o
    · exact ih hlater fun w' hw' => h w' (List.mem_cons_of_mem _ hw')
    · have hnot : ∀ w' ∈ ws, w'.1 ≠ o := fun w' hw' he => hlater ⟨w', hw', he⟩
      have hw : w.1 = o := by
        obtain ⟨w', hw', he⟩ := hex
        rcases List.mem_cons.1 hw' with rfl | hw'
        · exact he
        · exact absurd he (hnot w' hw')
      rw [write_eq_of_notMem hnot, ← hw, Function.update_self]
      exact h w List.mem_cons_self hw

/-- The stores are those of `v p` at `a p` for the `p` in `S`, in any order. -/
def Scatter {ι : Type*} (ws : List (ℕ × UInt8)) (S : Set ι) (a : ι → ℕ) (v : ι → UInt8) : Prop :=
  ∀ w, w ∈ ws ↔ ∃ p ∈ S, w = (a p, v p)

section Scatter

variable {ι : Type*} {S : Set ι} {a : ι → ℕ} {u u' : ι → UInt8}

theorem Scatter.write_of_mem (h : Scatter ws S a u) (ha : Set.InjOn a S) {p : ι} (hp : p ∈ S) :
    write m ws (a p) = u p := by
  refine write_eq_of_forall ⟨(a p, u p), (h _).2 ⟨p, hp, rfl⟩, rfl⟩ fun w hw he => ?_
  obtain ⟨q, hq, rfl⟩ := (h w).1 hw
  rw [ha hq hp he]

theorem Scatter.write_of_notMem (h : Scatter ws S a u) (ho : ∀ p ∈ S, a p ≠ o) :
    write m ws o = m o := by
  refine write_eq_of_notMem fun w hw he => ?_
  obtain ⟨p, hp, rfl⟩ := (h w).1 hw
  exact ho p hp he

/-- Two scatters over the same addresses agree where their values do. -/
theorem Scatter.write_eq_write_iff (h : Scatter ws S a u) (h' : Scatter ws' S a u')
    (ha : Set.InjOn a S) : write m ws = write m ws' ↔ ∀ p ∈ S, u p = u' p := by
  constructor
  · intro heq p hp
    rw [← h.write_of_mem ha hp, heq, h'.write_of_mem ha hp]
  · intro heq
    funext o
    by_cases ho : ∃ p ∈ S, a p = o
    · obtain ⟨p, hp, rfl⟩ := ho
      rw [h.write_of_mem ha hp, h'.write_of_mem ha hp, heq p hp]
    · have hno : ∀ p ∈ S, a p ≠ o := fun p hp he => ho ⟨p, hp, he⟩
      rw [h.write_of_notMem hno, h'.write_of_notMem hno]

/-- A scatter leaves a memory as it is where that already holds its values. -/
theorem Scatter.write_eq_self_iff (h : Scatter ws S a u) (ha : Set.InjOn a S) :
    write m ws = m ↔ ∀ p ∈ S, u p = m (a p) := by
  constructor
  · intro heq p hp
    rw [← h.write_of_mem ha hp, heq]
  · intro heq
    funext o
    by_cases ho : ∃ p ∈ S, a p = o
    · obtain ⟨p, hp, rfl⟩ := ho
      rw [h.write_of_mem ha hp, heq p hp]
    · exact h.write_of_notMem fun p hp he => ho ⟨p, hp, he⟩

end Scatter

end Memory
