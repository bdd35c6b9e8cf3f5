import Mathlib.Data.Nat.Bitwise

/-!
# Bits in transmission order

The `n` low bits of a word from the most to the least significant, as a serial line carries
them, and the word that a receiver builds from them. `ofMsb_msb` is their round trip,
`msb_add` cuts a word into two fields.
-/

namespace Bits

/-- The `n` low bits of `v`, most significant first. -/
def msb : ℕ → ℕ → List Bool
  | 0, _ => []
  | n + 1, v => v.testBit n :: msb n v

/-- The word whose bits arrive most significant first. -/
def ofMsb (bits : List Bool) : ℕ :=
  bits.foldl (fun v b => 2 * v + b.toNat) 0

@[simp] theorem length_msb (n v : ℕ) : (msb n v).length = n := by
  induction n with
  | zero => rfl
  | succ n ih => simp [msb, ih]

/-- The bits above the first `n` do not matter. -/
theorem msb_mul_add (n a v : ℕ) : msb n (2 ^ n * a + v) = msb n v := by
  have h : ∀ k ≤ n, msb k (2 ^ n * a + v) = msb k v := by
    intro k hk
    induction k with
    | zero => rfl
    | succ k ih =>
      have hbit : (2 ^ n * a + v).testBit k = v.testBit k := by
        have hmod : (2 ^ n * a + v) % 2 ^ n = v % 2 ^ n := Nat.mul_add_mod ..
        have h1 := Nat.testBit_mod_two_pow (2 ^ n * a + v) n k
        have h2 := Nat.testBit_mod_two_pow v n k
        rw [hmod, h2] at h1
        simpa [show k < n by omega] using h1.symm
      rw [msb, msb, hbit, ih (by omega)]
  exact h n le_rfl

/-- A word of two fields is sent field by field. -/
theorem msb_add (m n v : ℕ) : msb (m + n) v = msb m (v / 2 ^ n) ++ msb n v := by
  induction m with
  | zero => simp [msb]
  | succ m ih =>
    rw [Nat.add_right_comm, msb, ih, msb, Nat.testBit_div_two_pow, List.cons_append]

/-- The field `a` above the `n` bits of `c`. -/
theorem msb_field {m n a c : ℕ} (hc : c < 2 ^ n) :
    msb (m + n) (2 ^ n * a + c) = msb m a ++ msb n c := by
  rw [msb_add, msb_mul_add, Nat.mul_add_div (Nat.two_pow_pos n), Nat.div_eq_of_lt hc, Nat.add_zero]

theorem foldl_msb (n v a : ℕ) :
    (msb n v).foldl (fun v b => 2 * v + b.toNat) a = 2 ^ n * a + v % 2 ^ n := by
  induction n generalizing a with
  | zero => simp [msb, Nat.mod_one]
  | succ n ih =>
    have hmod : v % 2 ^ (n + 1) = v % 2 ^ n + 2 ^ n * (v.testBit n).toNat := by
      rw [Nat.mod_pow_succ, Nat.toNat_testBit]
    rw [msb, List.foldl_cons, ih, hmod, Nat.pow_succ, Nat.mul_add, Nat.mul_assoc]
    omega

theorem ofMsb_msb (n v : ℕ) : ofMsb (msb n v) = v % 2 ^ n := by
  rw [ofMsb, foldl_msb, Nat.mul_zero, Nat.zero_add]

end Bits
