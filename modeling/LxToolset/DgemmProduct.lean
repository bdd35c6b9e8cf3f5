import Mathlib.Tactic.FinCases
import Mathlib.Tactic.Ring
import LxToolset.DgemmTile

/-!
# The linpack kernel: the product

The two loops of `dgemm` over the tiles. The inner one ends when `pA0` has come to `stM`,
the outer one when `pB0` has come to `stN`, both after 15 rounds of four rows or columns.
`Tiles` is the invariant of both, and `exists_dgemm` says what `C` holds at the end.
-/

namespace LxToolset

open StraightLine Finset

namespace Dgemm

open Reg Ptr

variable {R : Type*} [CommRing R]

/-! ## Where the elements of `C` are -/

theorem colMajor_inj {ldc : ℤ} (hldc : 60 ≤ ldc) {i j i' j' : ℕ} (hi : i < 60) (hi' : i' < 60)
    (h : (i + j * ldc : ℤ) = i' + j' * ldc) : i = i' ∧ j = j' := by
  have hrow : (i + j * ldc : ℤ) % ldc = i := by
    rw [Int.add_mul_emod_self_right, Int.emod_eq_of_lt (by omega) (by omega)]
  have hrow' : (i' + j' * ldc : ℤ) % ldc = i' := by
    rw [Int.add_mul_emod_self_right, Int.emod_eq_of_lt (by omega) (by omega)]
  have hii : (i : ℤ) = i' := by rw [← hrow, ← hrow', h]
  have hjj : (j * ldc : ℤ) = j' * ldc := by omega
  have hj : (j : ℤ) = j' := Int.eq_of_mul_eq_mul_right (by omega) hjj
  omega

theorem exists_fin_of_block {b i : ℕ} (hb : b ≤ i) (hi : i < b + 4) :
    ∃ i' : Fin 4, i = b + i'.val :=
  ⟨⟨i - b, by omega⟩, (Nat.add_sub_cancel' hb).symm⟩

/-- What element `i`, `j` of `C` is to become. -/
def entry (A B : ℤ → R) (beta : R) (C : ℤ → R) (ldc : ℤ) (i j : ℕ) : R :=
  ∑ k ∈ range 60, A (60 * i + k) * B (60 * j + k) + beta * C (i + j * ldc)

/-- The elements that are done, after `jb` panels and `ib` tiles of the next. -/
def Done (jb ib i j : ℕ) : Prop :=
  j < 4 * jb ∨ j < 4 * jb + 4 ∧ i < 4 * ib

instance (jb ib i j : ℕ) : Decidable (Done jb ib i j) :=
  inferInstanceAs (Decidable (_ ∨ _))

structure Tiles (A B : ℤ → R) (beta : R) (C : ℤ → R) (ldc : ℤ) (jb ib : ℕ)
    (s : State Reg Ptr Arr R) : Prop where
  atA : ∀ i, s.ptr (pA i) = 60 * (4 * ib + i.val : ℕ)
  atB : ∀ j, s.ptr (pB j) = 60 * (4 * jb + j.val : ℕ)
  atC : ∀ j, s.ptr (pC j) = (4 * ib : ℕ) + (4 * jb + j.val : ℕ) * ldc
  memA : s.mem .A = A
  memB : s.mem .B = B
  cell : ∀ i j : ℕ, i < 60 → j < 60 → s.mem .C (i + j * ldc) =
    if Done jb ib i j then entry A B beta C ldc i j else C (i + j * ldc)
  other : ∀ x, (∀ i j : ℕ, i < 60 → j < 60 → (i + j * ldc : ℤ) ≠ x) → s.mem .C x = C x
  reads : ∀ q ∈ s.reads, q.1 ≠ .C → 0 ≤ q.2 ∧ q.2 < 3600

namespace Tiles

variable {A B C : ℤ → R} {beta : R} {ldc : ℤ} {jb ib : ℕ} {s t : State Reg Ptr Arr R}

theorem addr (h : Tiles A B beta C ldc jb ib s) (i j : Fin 4) :
    s.ptr (pC j) + i.val = ((4 * ib + i.val : ℕ) + (4 * jb + j.val : ℕ) * ldc : ℤ) := by
  rw [h.atC]
  omega

theorem dot_eq (h : Tiles A B beta C ldc jb ib s) (i j : Fin 4) :
    dot s i j 60 = ∑ k ∈ range 60, A (60 * (4 * ib + i.val : ℕ) + k) *
      B (60 * (4 * jb + j.val : ℕ) + k) := by
  refine sum_congr rfl fun k _ => ?_
  rw [opA, opB, h.memA, h.memB, h.atA, h.atB]

/-- An operand of a tile is in the first 60 rows of its array. -/
theorem operand (h : Tiles A B beta C ldc jb ib s) (hjb : jb < 15) (hib : ib < 15)
    {q : Arr × ℤ} (hq : Operand s 60 q) : 0 ≤ q.2 ∧ q.2 < 3600 := by
  obtain ⟨p, k, hp, h0, hk, rfl⟩ := hq
  cases p with
  | pA i =>
    have hat := h.atA i
    omega
  | pB j =>
    have hat := h.atB j
    omega
  | pC j => exact absurd rfl hp

/-- A tile does its sixteen elements and no other. -/
theorem tile (h : Tiles A B beta C ldc jb ib s) (hldc : 60 ≤ ldc) (hjb : jb < 15) (hib : ib < 15)
    (ht : Tiled beta s t) : Tiles A B beta C ldc jb (ib + 1) t where
  atA i := by
    have hat := h.atA i
    rw [ht.atA, hat]
    omega
  atB j := by rw [ht.atB, h.atB]
  atC j := by
    have hat := h.atC j
    rw [ht.atC, hat]
    omega
  memA := by rw [ht.memAB .A (by simp), h.memA]
  memB := by rw [ht.memAB .B (by simp), h.memB]
  cell i j hi hj := by
    by_cases hin : (4 * ib ≤ i ∧ i < 4 * ib + 4) ∧ 4 * jb ≤ j ∧ j < 4 * jb + 4
    · obtain ⟨i', rfl⟩ := exists_fin_of_block hin.1.1 hin.1.2
      obtain ⟨j', rfl⟩ := exists_fin_of_block hin.2.1 hin.2.2
      rw [ht.cell i' j' _ (h.addr i' j'), h.cell _ _ hi hj, if_neg (by unfold Done; omega),
        if_pos (by unfold Done; omega), h.dot_eq, entry]
      intro i'' j'' haddr
      rw [h.addr] at haddr
      have hinj := colMajor_inj hldc (by omega) hi haddr
      exact ⟨Fin.ext (by omega), Fin.ext (by omega)⟩
    · rw [ht.other, h.cell _ _ hi hj]
      · refine if_congr ?_ rfl rfl
        unfold Done
        omega
      · intro i' j' haddr
        rw [h.addr] at haddr
        have hinj := colMajor_inj hldc (by omega) hi haddr
        omega
  other x hx := by
    rw [ht.other, h.other x hx]
    intro i j haddr
    rw [h.addr] at haddr
    exact hx _ _ (by omega) (by omega) haddr
  reads q hq hC := by
    rcases ht.reads q hq with hq | hq | hq
    · exact h.reads q hq hC
    · exact h.operand hjb hib hq
    · exact absurd hq hC

/-- The fifteen tiles of a panel. -/
theorem inner (h : Tiles A B beta C ldc jb 0 s) (hldc : 60 ≤ ldc) (hjb : jb < 15) {fuel : ℕ}
    (hfuel : 15 ≤ fuel) :
    ∃ s', doWhile (fun s => some (Dgemm.tile beta s)) (fun s => s.ptr (pA 0) ≠ stM) fuel s =
      some s' ∧ Tiles A B beta C ldc jb 15 s' := by
  refine exists_doWhile (I := fun n s => Tiles A B beta C ldc jb n s)
    (fun n s hn hs => ⟨_, rfl, hs.tile hldc hjb hn tiled_tile⟩) (fun n s hn hs => ?_)
    (by omega) (by omega) h
  have hat := hs.atA 0
  rw [decide_eq_true_iff, stM, hat]
  simp only [Fin.val_zero]
  omega

theorem nextPanel_ptr (s : State Reg Ptr Arr R) (i : Fin 4) :
    (run Ptr.arr beta (nextPanel ldc) s).ptr (pA i) = s.ptr (pA i) + incAn ∧
      (run Ptr.arr beta (nextPanel ldc) s).ptr (pB i) = s.ptr (pB i) + incBn ∧
      (run Ptr.arr beta (nextPanel ldc) s).ptr (pC i) = s.ptr (pC i) + incCn ldc := by
  fin_cases i <;> simp [run, nextPanel, exec]

theorem nextPanel_keeps (s : State Reg Ptr Arr R) :
    (run Ptr.arr beta (nextPanel ldc) s).mem = s.mem ∧
      (run Ptr.arr beta (nextPanel ldc) s).reads = s.reads := by
  simp [run, nextPanel, exec]

/-- The pointers go back to the first row, and on to the next panel. -/
theorem next (h : Tiles A B beta C ldc jb 15 s) :
    Tiles A B beta C ldc (jb + 1) 0 (run Ptr.arr beta (nextPanel ldc) s) where
  atA i := by
    have hat := h.atA i
    rw [(nextPanel_ptr s i).1, hat, incAn]
    omega
  atB j := by
    have hat := h.atB j
    rw [(nextPanel_ptr s j).2.1, hat, incBn]
    omega
  atC j := by
    rw [(nextPanel_ptr s j).2.2, h.atC, incCn, Int.shiftLeft_eq]
    push_cast
    ring
  memA := by rw [(nextPanel_keeps s).1, h.memA]
  memB := by rw [(nextPanel_keeps s).1, h.memB]
  cell i j hi hj := by
    rw [(nextPanel_keeps s).1, h.cell i j hi hj]
    refine if_congr ?_ rfl rfl
    unfold Done
    omega
  other x hx := by rw [(nextPanel_keeps s).1, h.other x hx]
  reads q hq := by
    rw [(nextPanel_keeps s).2] at hq
    exact h.reads q hq

/-- The fifteen panels. -/
theorem outer (h : Tiles A B beta C ldc 0 0 s) (hldc : 60 ≤ ldc) {fuel : ℕ} (hfuel : 15 ≤ fuel) :
    ∃ s', doWhile (panel fuel beta ldc) (fun s => s.ptr (pB 0) ≠ stN) fuel s = some s' ∧
      Tiles A B beta C ldc 15 0 s' := by
  refine exists_doWhile (I := fun n s => Tiles A B beta C ldc n 0 s)
    (fun n s hn hs => ?_) (fun n s hn hs => ?_) (by omega) (by omega) h
  · obtain ⟨t, ht, hI⟩ := hs.inner hldc hn hfuel
    exact ⟨_, by rw [panel, ht, Option.map_some], hI.next⟩
  · have hat := hs.atB 0
    rw [decide_eq_true_iff, stN, hat]
    simp only [Fin.val_zero]
    omega

theorem start (reg : Reg → R) :
    Tiles A B beta C ldc 0 0 (start reg A 60 B 60 C ldc) where
  atA i := by simp [Dgemm.start, mul_comm]
  atB j := by simp [Dgemm.start, mul_comm]
  atC j := by simp [Dgemm.start]
  memA := rfl
  memB := rfl
  cell i j hi hj := (if_neg (by unfold Done; omega)).symm
  other _ _ := rfl
  reads q hq := absurd hq List.not_mem_nil

end Tiles

/-- `C` holds `A` times the transpose of `B` plus `beta` times what it held, in its 60 rows
and 60 columns and nowhere else, and `A` and `B` were read inside their 3600 numbers. -/
structure Multiplied (A B : ℤ → R) (beta : R) (C : ℤ → R) (ldc : ℤ) (s : State Reg Ptr Arr R) :
    Prop where
  cell : ∀ i j : ℕ, i < 60 → j < 60 → s.mem .C (i + j * ldc) =
    ∑ k ∈ range 60, A (60 * i + k) * B (60 * j + k) + beta * C (i + j * ldc)
  other : ∀ x, (∀ i j : ℕ, i < 60 → j < 60 → (i + j * ldc : ℤ) ≠ x) → s.mem .C x = C x
  reads : ∀ q ∈ s.reads, q.1 ≠ .C → 0 ≤ q.2 ∧ q.2 < 3600

/-- The kernel comes to its end and multiplies. -/
theorem exists_dgemm (reg : Reg → R) (A B : ℤ → R) (beta : R) (C : ℤ → R) {ldc : ℤ}
    (hldc : 60 ≤ ldc) {fuel : ℕ} (hfuel : 15 ≤ fuel) :
    ∃ s, dgemm fuel reg A 60 B 60 beta C ldc = some s ∧ Multiplied A B beta C ldc s := by
  obtain ⟨s, hs, hI⟩ := (Tiles.start reg).outer hldc hfuel
  refine ⟨s, hs, fun i j hi hj => ?_, hI.other, hI.reads⟩
  have hdone : Done 15 0 i j := Or.inl (by omega)
  rw [hI.cell i j hi hj, if_pos hdone, entry]

theorem exists_dgemm_int :
    ∃ s, dgemm 15 (fun _ => 7) (fun x => x) 60 (fun x => x + 1) 60 2 (fun x => -x) 61 = some s ∧
      Multiplied (fun x => x) (fun x => x + 1) (2 : ℤ) (fun x => -x) 61 s :=
  exists_dgemm _ _ _ _ _ (by decide) (by decide)

end Dgemm

end LxToolset
