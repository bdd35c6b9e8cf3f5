import Mathlib.Data.Nat.ModEq
import Mathlib.Logic.Function.Basic

/-!
# Bits that flip

A bit differs from what it was exactly when it has flipped an odd number of times since (`odd`).
Slots of a bit each that are written in turn, one at each time, keep what was written to them up to
the flips since then, until their next turn (`Ring.Holds.turn`).
-/

namespace Flips

/-- There is an odd number of flips from time `s` on before time `t`. -/
def odd (flip : ℕ → Bool) (s t : ℕ) : Bool :=
  (List.range' s (t - s)).countP flip % 2 = 1

variable {flip : ℕ → Bool} {s t n : ℕ}

theorem odd_self : odd flip s s = false := by
  simp [odd]

theorem odd_succ (h : s ≤ t) : odd flip s (t + 1) = (odd flip s t ^^ flip t) := by
  have hlen : t + 1 - s = t - s + 1 := by omega
  have hend : s + (t - s) = t := by omega
  rw [odd, odd, hlen, List.range'_1_concat, hend, List.countP_append, List.countP_singleton]
  generalize (List.range' s (t - s)).countP flip = c
  rcases Nat.mod_two_eq_zero_or_one c with hc | hc <;> cases flip t <;>
    simp [Nat.add_mod, hc]

namespace Ring

variable (n) (content : ℕ → Bool) (flip : ℕ → ℕ → Bool)

/-- Time `t`: bits flip, and a slot is written. -/
def turn (t : ℕ) (mem : ℕ → Bool) : ℕ → Bool :=
  Function.update (fun j => mem j ^^ flip t j) (t % n) (content t)

/-- The slots keep what was written in the last `n` turns before time `t`, up to flips. -/
def Holds (t : ℕ) (mem : ℕ → Bool) : Prop :=
  ∀ s < t, t ≤ s + n → mem (s % n) = (content s ^^ odd (fun i => flip i (s % n)) (s + 1) t)

variable {n content flip} {mem : ℕ → Bool}

theorem holds_zero : Holds n content flip 0 mem :=
  fun _ hs => absurd hs (Nat.not_lt_zero _)

/-- Turns that are less than `n` apart are of different slots. -/
theorem mod_ne (hst : s < t) (htn : t < s + n) : s % n ≠ t % n := by
  intro heq
  have hle := Nat.le_of_dvd (Nat.sub_pos_of_lt hst) ((Nat.modEq_iff_dvd' hst.le).1 heq)
  omega

theorem Holds.turn (h : Holds n content flip t mem) :
    Holds n content flip (t + 1) (turn n content flip t mem) := by
  intro s hs hn
  rcases Nat.lt_succ_iff_lt_or_eq.1 hs with hlt | rfl
  · rw [Ring.turn, Function.update_of_ne (mod_ne hlt (by omega)), h s hlt (by omega),
      odd_succ (by omega), Bool.xor_assoc]
  · rw [Ring.turn, Function.update_self, odd_self, Bool.xor_false]

end Ring

end Flips
