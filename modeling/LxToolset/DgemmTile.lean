import Mathlib.Algebra.BigOperators.Group.Finset.Basic
import LxToolset.Dgemm

/-!
# The linpack kernel: what a tile computes

`Pipelined s n t` is the loop invariant of `Kloop52A` : after `n` rounds of the tile
that began at `s` the sums hold `4 * n + 1` steps of the products, and the operands of
the next step are loaded. `Tiled beta s t` is what the tile as a whole has done.
-/

namespace LxToolset

open StraightLine Finset

namespace Dgemm

open Reg Ptr

variable {R : Type*} {s t : State Reg Ptr Arr R}

/-- Operand `k` of row `i`, from where its pointer is. -/
def opA (s : State Reg Ptr Arr R) (i : Fin 4) (k : ℕ) : R :=
  s.mem .A (s.ptr (pA i) + k)

/-- Operand `k` of column `j`, from where its pointer is. -/
def opB (s : State Reg Ptr Arr R) (j : Fin 4) (k : ℕ) : R :=
  s.mem .B (s.ptr (pB j) + k)

/-- The cell of one of the first `K` operands of a row or a column. -/
def Operand (s : State Reg Ptr Arr R) (K : ℤ) (q : Arr × ℤ) : Prop :=
  ∃ p k, Ptr.arr p ≠ .C ∧ 0 ≤ k ∧ k < K ∧ (p.arr, s.ptr p + k) = q

theorem Operand.mono {K L : ℤ} {q : Arr × ℤ} (h : Operand s K q) (hKL : K ≤ L) :
    Operand s L q := by
  obtain ⟨p, k, hp, h0, hk, hq⟩ := h
  exact ⟨p, k, hp, h0, by omega, hq⟩

variable [CommRing R] {beta : R}

/-- The first `K` steps of the product of row `i` and column `j`. -/
def dot (s : State Reg Ptr Arr R) (i j : Fin 4) (K : ℕ) : R :=
  ∑ k ∈ range K, opA s i k * opB s j k

theorem dot_succ (i j : Fin 4) (K : ℕ) :
    dot s i j (K + 1) = dot s i j K + opA s i K * opB s j K :=
  sum_range_succ _ _

theorem eval_product (i j : Fin 4) (k : ℕ) :
    (product i j k).eval Ptr.arr beta s = opA s i k * opB s j k :=
  rfl

/-! ## The loop -/

structure Pipelined (s : State Reg Ptr Arr R) (n : ℕ) (t : State Reg Ptr Arr R) : Prop where
  mem : t.mem = s.mem
  atAB : ∀ p, Ptr.arr p ≠ .C → t.ptr p = s.ptr p + 4 * n
  atC : ∀ j, t.ptr (pC j) = s.ptr (pC j)
  nextA : ∀ i, t.reg (ra i) = opA s i (4 * n + 1)
  nextB : ∀ j, t.reg (rb j) = opB s j (4 * n + 1)
  sums : ∀ i j, t.reg (rC i j) = dot s i j (4 * n + 1)
  reads : ∀ q ∈ t.reads, q ∈ s.reads ∨ Operand s (4 * n + 2) q

namespace Pipelined

variable {n : ℕ}

theorem opA_eq (h : Pipelined s n t) (i : Fin 4) (k : ℕ) : opA t i k = opA s i (4 * n + k) := by
  have hp := h.atAB (pA i) (by simp)
  have haddr : t.ptr (pA i) + (k : ℤ) = s.ptr (pA i) + ((4 * n + k : ℕ) : ℤ) := by omega
  rw [opA, opA, h.mem, haddr]

theorem opB_eq (h : Pipelined s n t) (j : Fin 4) (k : ℕ) : opB t j k = opB s j (4 * n + k) := by
  have hp := h.atAB (pB j) (by simp)
  have haddr : t.ptr (pB j) + (k : ℤ) = s.ptr (pB j) + ((4 * n + k : ℕ) : ℤ) := by omega
  rw [opB, opB, h.mem, haddr]

/-- An operand of a later state is one further on. -/
theorem operand (h : Pipelined s n t) {p : Ptr} {k : ℤ} (hp : p.arr ≠ .C) (h0 : 0 ≤ k) :
    Operand s (4 * n + (k + 1)) (p.arr, t.ptr p + k) := by
  have hptr := h.atAB p hp
  exact ⟨p, 4 * n + k, hp, by omega, by omega, by rw [hptr, add_assoc]⟩

/-- The next three steps, with the one that was loaded. -/
theorem dot_add_three (h : Pipelined s n t) (i j : Fin 4) :
    t.reg (rC i j) + t.reg (ra i) * t.reg (rb j) + opA t i 2 * opB t j 2 + opA t i 3 * opB t j 3 =
      dot s i j (4 * n + 4) := by
  rw [h.sums, h.nextA, h.nextB, h.opA_eq, h.opB_eq, h.opA_eq, h.opB_eq]
  rw [dot_succ i j (4 * n + 3), dot_succ i j (4 * n + 2), dot_succ i j (4 * n + 1)]

end Pipelined

theorem pipelined_entrance : Pipelined s 0 (entranceEffect.apply Ptr.arr beta s) := by
  obtain ⟨-, hrC, hnext, hptr, hstores, hreads⟩ := entrance_effect
  exact
    { mem := by simp [Sym.apply, Sym.commit, hstores]
      atAB := by simp [Sym.apply, hptr]
      atC := by simp [Sym.apply, hptr]
      nextA := fun i => congrArg _ (hnext i).1
      nextB := fun j => congrArg _ (hnext j).2
      sums := fun i j => by simp [Sym.apply, hrC, eval_product, dot]
      reads := fun q hq => by
        rcases Sym.mem_reads_apply.mp hq with hq | ⟨w, hw, rfl⟩
        · exact .inl hq
        · obtain ⟨hC, h0, h2⟩ := hreads w hw
          exact .inr ⟨w.1, w.2, hC, h0, h2, rfl⟩ }

/-- A round adds the step that was loaded and the three after it, and loads the next. -/
theorem Pipelined.round {n : ℕ} (h : Pipelined s n t) :
    Pipelined s (n + 1) (kloopEffect.apply Ptr.arr beta t) := by
  obtain ⟨-, hrC, hnext, hptr, hstores, hreads⟩ := kloop_effect
  exact
    { mem := by simpa [Sym.apply, Sym.commit, hstores] using h.mem
      atAB := fun p hp => by
        have hat := h.atAB p hp
        simp only [Sym.apply, hptr, if_neg hp]
        omega
      atC := fun j => by simpa [Sym.apply, hptr] using h.atC j
      nextA := fun i => by
        rw [Nat.mul_succ, add_assoc, ← h.opA_eq]
        exact congrArg _ (hnext i).1
      nextB := fun j => by
        rw [Nat.mul_succ, add_assoc, ← h.opB_eq]
        exact congrArg _ (hnext j).2
      sums := fun i j => by
        rw [Nat.mul_succ, dot_succ, ← h.dot_add_three, ← h.opA_eq, ← h.opB_eq]
        exact congrArg _ (hrC i j)
      reads := fun q hq => by
        rcases Sym.mem_reads_apply.mp hq with hq | ⟨w, hw, rfl⟩
        · exact (h.reads q hq).imp_right fun hop => hop.mono (by omega)
        · obtain ⟨hC, h2, h6⟩ := hreads w hw
          exact .inr ((h.operand hC (by omega)).mono (by omega)) }

theorem pipelined_iterate (n : ℕ) :
    Pipelined s n ((run Ptr.arr beta Kloop52A)^[n] (run Ptr.arr beta entranceB1 s)) := by
  induction n with
  | zero =>
    rw [Function.iterate_zero_apply, Sym.run_eq_effect entrance_effect.1]
    exact pipelined_entrance
  | succ n ih =>
    rw [Function.iterate_succ_apply', Sym.run_eq_effect kloop_effect.1]
    exact ih.round

/-! ## The tile -/

structure Tiled (beta : R) (s t : State Reg Ptr Arr R) : Prop where
  atA : ∀ i, t.ptr (pA i) = s.ptr (pA i) + 240
  atB : ∀ j, t.ptr (pB j) = s.ptr (pB j)
  atC : ∀ j, t.ptr (pC j) = s.ptr (pC j) + 4
  memAB : ∀ a, a ≠ .C → t.mem a = s.mem a
  cell : ∀ (i j : Fin 4) (x : ℤ), s.ptr (pC j) + i.val = x →
    (∀ i' j' : Fin 4, s.ptr (pC j') + i'.val = x → i' = i ∧ j' = j) →
    t.mem .C x = dot s i j 60 + beta * s.mem .C x
  other : ∀ x, (∀ i j : Fin 4, s.ptr (pC j) + i.val ≠ x) → t.mem .C x = s.mem .C x
  reads : ∀ q ∈ t.reads, q ∈ s.reads ∨ Operand s 60 q ∨ q.1 = .C

theorem mem_flush_stores {w : Ptr × ℤ × Expr Reg Ptr} :
    w ∈ flushEffect.stores ↔ ∃ i j : Fin 4, (pC j, (i.val : ℤ), stored i j) = w := by
  obtain ⟨-, -, hstores, -⟩ := flush_effect
  simp only [hstores, List.mem_flatMap, List.mem_map, List.mem_finRange, true_and]
  exact exists_comm

theorem eval_stored (h : Pipelined s 14 t) (i j : Fin 4) :
    (stored i j).eval Ptr.arr beta t =
      dot s i j 60 + beta * s.mem .C (s.ptr (pC j) + i.val) := by
  have hsum := h.dot_add_three i j
  rw [← h.mem, ← h.atC]
  exact congrArg (· + _) hsum

theorem tiled_flush (h : Pipelined s 14 t) :
    Tiled beta s (flushEffect.apply Ptr.arr beta t) := by
  obtain ⟨-, hptr, -, hreads⟩ := flush_effect
  exact
    { atA := fun i => by
        have hat := h.atAB (pA i) (by simp)
        simp only [Sym.apply, hptr]
        omega
      atB := fun j => by
        have hat := h.atAB (pB j) (by simp)
        simp only [Sym.apply, hptr]
        omega
      atC := fun j => by
        have hat := h.atC j
        simp only [Sym.apply, hptr]
        omega
      memAB := fun a ha => by
        rw [← h.mem]
        refine Sym.commit_other fun w hw => ?_
        obtain ⟨i, j, rfl⟩ := mem_flush_stores.mp hw
        exact ha.symm
      cell := fun i j x hx huniq => by
        refine Sym.commit_of_forall_eq (fun w hw hwx => ?_)
          ⟨_, mem_flush_stores.mpr ⟨i, j, rfl⟩, by rw [h.atC, hx]; rfl⟩
        obtain ⟨i', j', rfl⟩ := mem_flush_stores.mp hw
        have haddr : s.ptr (pC j') + i'.val = x := by
          rw [← h.atC]
          exact (Prod.mk.inj hwx).2
        obtain ⟨rfl, rfl⟩ := huniq i' j' haddr
        rw [← haddr]
        exact eval_stored h i' j'
      other := fun x hx => by
        rw [← h.mem]
        refine Sym.commit_of_forall_ne fun w hw hwx => ?_
        obtain ⟨i, j, rfl⟩ := mem_flush_stores.mp hw
        rw [h.atC] at hwx
        exact hx i j (Prod.mk.inj hwx).2
      reads := fun q hq => by
        rcases Sym.mem_reads_apply.mp hq with hq | ⟨w, hw, rfl⟩
        · exact (h.reads q hq).imp_right fun hop => .inl (hop.mono (by omega))
        · by_cases hC : w.1.arr = .C
          · exact .inr (.inr hC)
          · obtain ⟨h2, h4⟩ := hreads w hw hC
            exact .inr (.inl ((h.operand hC (by omega)).mono (by omega))) }

theorem tiled_tile : Tiled beta s (tile beta s) := by
  rw [tile, Sym.run_eq_effect flush_effect.1]
  exact tiled_flush (pipelined_iterate Kloop)

end Dgemm

end LxToolset
