import Mathlib.Data.List.Basic

/-!
# Hashing by blocks

A state is changed by blocks of `n` letters. Fed letter by letter, with the letters of a block that
is not full kept until it is, it is changed by the blocks of all that was fed (`foldl_push`), in
whatever pieces.
-/

namespace Blocks

variable {σ β : Type*} (n : ℕ) (compress : σ → List β → σ)

/-- The state after the first `k` blocks of `l`. -/
def fold : ℕ → σ → List β → σ
  | 0, s, _ => s
  | k + 1, s, l => fold k (compress s (l.take n)) (l.drop n)

/-- The state after the blocks of `l` that are full. -/
def absorb (s : σ) (l : List β) : σ :=
  fold n compress (l.length / n) s l

/-- A state, and the letters of a block that is not full, with a letter more. -/
def push (a : σ × List β) (x : β) : σ × List β :=
  if a.2.length + 1 = n then (compress a.1 (a.2 ++ [x]), []) else (a.1, a.2 ++ [x])

variable {n compress} {s : σ} {p l : List β} {x : β}

theorem push_of_full (h : p.length + 1 = n) :
    push n compress (s, p) x = (compress s (p ++ [x]), []) :=
  if_pos h

theorem push_of_not_full (h : p.length + 1 ≠ n) :
    push n compress (s, p) x = (s, p ++ [x]) :=
  if_neg h

theorem length_push_lt (hn : 0 < n) (h : p.length < n) :
    (push n compress (s, p) x).2.length < n := by
  by_cases hfull : p.length + 1 = n
  · rwa [push_of_full hfull]
  · rw [push_of_not_full hfull, List.length_append, List.length_singleton]
    omega

theorem absorb_of_lt (h : l.length < n) : absorb n compress s l = s := by
  rw [absorb, Nat.div_eq_of_lt h, fold]

theorem absorb_append (hn : 0 < n) (h : p.length = n) :
    absorb n compress s (p ++ l) = absorb n compress (compress s p) l := by
  have hlen : (p ++ l).length / n = l.length / n + 1 := by
    rw [List.length_append, h, Nat.add_comm, Nat.add_div_right _ hn]
  rw [absorb, hlen, fold, ← h, List.take_left, List.drop_left, absorb, h]

/-- The letters kept are those after the last full block. -/
theorem foldl_push_of_lt (hn : 0 < n) (h : p.length < n) :
    l.foldl (push n compress) (s, p) =
      (absorb n compress s (p ++ l), (p ++ l).drop (n * ((p ++ l).length / n))) := by
  induction l generalizing s p with
  | nil =>
    rw [List.append_nil, absorb_of_lt h, Nat.div_eq_of_lt h, Nat.mul_zero, List.drop_zero,
      List.foldl_nil]
  | cons x l ih =>
    rw [List.foldl_cons, List.append_cons]
    by_cases hfull : p.length + 1 = n
    · have hlen : (p ++ [x]).length = n := by
        rw [List.length_append, List.length_singleton, hfull]
      have hdiv : (p ++ [x] ++ l).length / n = l.length / n + 1 := by
        rw [List.length_append, hlen, Nat.add_comm, Nat.add_div_right _ hn]
      have hdrop : (p ++ [x] ++ l).drop n = l := by
        rw [← hlen, List.drop_left]
      have hnil : ([] : List β).length < n := hn
      rw [push_of_full hfull, ih hnil, absorb_append hn hlen, hdiv, Nat.mul_succ, Nat.add_comm,
        ← List.drop_drop, hdrop, List.nil_append]
    · rw [push_of_not_full hfull, ih (by
        rw [List.length_append, List.length_singleton]
        omega)]

/-- Full blocks leave nothing over. -/
theorem foldl_push (hn : 0 < n) (h : n ∣ l.length) :
    l.foldl (push n compress) (s, []) = (absorb n compress s l, []) := by
  have hnil : ([] : List β).length < n := hn
  rw [foldl_push_of_lt hn hnil, List.nil_append, Nat.mul_div_cancel' h, List.drop_length]

end Blocks
