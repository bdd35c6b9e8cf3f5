import Mathlib.Algebra.BigOperators.Group.Finset.Basic
import Mathlib.Algebra.Ring.Defs
import Mathlib.Data.Fintype.Sum
import Mathlib.Tactic.DeriveFintype
import LxToolset.StraightLine

/-!
# The linpack kernel: one tile

`dgemm` of `presure_test_linpack/test.c` multiplies 60 by 60 matrices in tiles of four by
four. A tile is software pipelined: while the products of one step are added, the
operands of the next are loaded, so that the loop starts with step 0 done and step 1
loaded, and the last three steps are after it. The four parts of a tile are straight-line
code, in the order of the source, and what each does is read off its symbolic effect.
-/

namespace LxToolset

open StraightLine

namespace Dgemm

inductive Arr
  | A
  | B
  | C
  deriving DecidableEq

/-- `rA0` is `rA 0`, `rC1_0` is `rC 1 0`. -/
inductive Reg
  | rA (i : Fin 4)
  | ra (i : Fin 4)
  | rB (j : Fin 4)
  | rb (j : Fin 4)
  | rC (i j : Fin 4)
  deriving DecidableEq

inductive Ptr
  | pA (i : Fin 4)
  | pB (j : Fin 4)
  | pC (j : Fin 4)
  deriving DecidableEq, Fintype

/-- The array a pointer walks over. -/
def Ptr.arr : Ptr → Arr
  | .pA _ => .A
  | .pB _ => .B
  | .pC _ => .C

@[simp] theorem arr_pA (i : Fin 4) : (Ptr.pA i).arr = .A :=
  rfl

@[simp] theorem arr_pB (j : Fin 4) : (Ptr.pB j).arr = .B :=
  rfl

@[simp] theorem arr_pC (j : Fin 4) : (Ptr.pC j).arr = .C :=
  rfl

open Stmt Reg Ptr

/-! ## The text -/

def incAk : ℤ := 4
def incAm : ℤ := 180
def incAn : ℤ := -3600
def incBk : ℤ := 4
def incBm : ℤ := -60
def incBn : ℤ := 240
def incCm : ℤ := 4

def incCn (ldc : ℤ) : ℤ :=
  ldc <<< (2 : ℕ) - 60

/-- The rounds of the loop `Kloop52A`. -/
def Kloop : ℕ := 14

/-- Step 0 of the products, and the operands of step 1. -/
def entranceB1 : List (Stmt Reg Ptr) :=
  [ load (rA 0) (pA 0) 0, load (rB 0) (pB 0) 0, load (rA 1) (pA 1) 0, load (rB 1) (pB 1) 0,
    load (rA 2) (pA 2) 0, load (rB 2) (pB 2) 0, load (rA 3) (pA 3) 0, load (rB 3) (pB 3) 0,
    load (ra 0) (pA 0) 1, mul (rC 0 0) (rA 0) (rB 0), mul (rC 1 0) (rA 1) (rB 0),
    load (rb 0) (pB 0) 1, mul (rC 0 1) (rA 0) (rB 1), mul (rC 1 1) (rA 1) (rB 1),
    load (ra 1) (pA 1) 1, mul (rC 2 0) (rA 2) (rB 0), mul (rC 2 1) (rA 2) (rB 1),
    load (rb 1) (pB 1) 1, mul (rC 0 2) (rA 0) (rB 2), mul (rC 1 2) (rA 1) (rB 2),
    load (ra 2) (pA 2) 1, mul (rC 2 2) (rA 2) (rB 2), mul (rC 3 2) (rA 3) (rB 2),
    load (rb 2) (pB 2) 1, mul (rC 3 0) (rA 3) (rB 0), mul (rC 3 1) (rA 3) (rB 1),
    load (ra 3) (pA 3) 1, mul (rC 0 3) (rA 0) (rB 3), mul (rC 1 3) (rA 1) (rB 3),
    load (rb 3) (pB 3) 1, mul (rC 2 3) (rA 2) (rB 3), mul (rC 3 3) (rA 3) (rB 3) ]

/-- Two steps of the products, with the operands of the next loaded and the pointers moved on. The
text is the same in the loop and after it. -/
def twoSteps : List (Stmt Reg Ptr) :=
  [ load (rA 0) (pA 0) 2, mulAdd (rC 0 0) (ra 0) (rb 0), mulAdd (rC 1 0) (ra 1) (rb 0),
    load (rB 0) (pB 0) 2, mulAdd (rC 0 1) (ra 0) (rb 1), mulAdd (rC 1 1) (ra 1) (rb 1),
    load (rA 1) (pA 1) 2, mulAdd (rC 2 0) (ra 2) (rb 0), mulAdd (rC 2 1) (ra 2) (rb 1),
    load (rB 1) (pB 1) 2, mulAdd (rC 0 2) (ra 0) (rb 2), mulAdd (rC 1 2) (ra 1) (rb 2),
    load (rA 2) (pA 2) 2, mulAdd (rC 2 2) (ra 2) (rb 2), mulAdd (rC 3 2) (ra 3) (rb 2),
    load (rB 2) (pB 2) 2, mulAdd (rC 3 0) (ra 3) (rb 0), mulAdd (rC 3 1) (ra 3) (rb 1),
    load (rA 3) (pA 3) 2, mulAdd (rC 0 3) (ra 0) (rb 3), mulAdd (rC 1 3) (ra 1) (rb 3),
    load (rB 3) (pB 3) 2, mulAdd (rC 2 3) (ra 2) (rb 3), mulAdd (rC 3 3) (ra 3) (rb 3),
    load (ra 0) (pA 0) 3, mulAdd (rC 0 0) (rA 0) (rB 0), mulAdd (rC 1 0) (rA 1) (rB 0),
      advance (pA 0) incAk,
    load (rb 0) (pB 0) 3, mulAdd (rC 0 1) (rA 0) (rB 1), mulAdd (rC 1 1) (rA 1) (rB 1),
      advance (pB 0) incBk,
    load (ra 1) (pA 1) 3, mulAdd (rC 2 0) (rA 2) (rB 0), mulAdd (rC 2 1) (rA 2) (rB 1),
      advance (pA 1) incAk,
    load (rb 1) (pB 1) 3, mulAdd (rC 0 2) (rA 0) (rB 2), mulAdd (rC 1 2) (rA 1) (rB 2),
      advance (pB 1) incBk,
    load (ra 2) (pA 2) 3, mulAdd (rC 2 2) (rA 2) (rB 2), mulAdd (rC 3 2) (rA 3) (rB 2),
      advance (pA 2) incAk,
    load (rb 2) (pB 2) 3, mulAdd (rC 3 0) (rA 3) (rB 0), mulAdd (rC 3 1) (rA 3) (rB 1),
      advance (pB 2) incBk,
    load (ra 3) (pA 3) 3, mulAdd (rC 0 3) (rA 0) (rB 3), mulAdd (rC 1 3) (rA 1) (rB 3),
      advance (pA 3) incAk,
    load (rb 3) (pB 3) 3, mulAdd (rC 2 3) (rA 2) (rB 3), mulAdd (rC 3 3) (rA 3) (rB 3),
      advance (pB 3) incBk ]

/-- Four steps of the products. -/
def Kloop52A : List (Stmt Reg Ptr) :=
  twoSteps ++
  [ load (rA 0) (pA 0) 0, mulAdd (rC 0 0) (ra 0) (rb 0), mulAdd (rC 1 0) (ra 1) (rb 0),
    load (rB 0) (pB 0) 0, mulAdd (rC 0 1) (ra 0) (rb 1), mulAdd (rC 1 1) (ra 1) (rb 1),
    load (rA 1) (pA 1) 0, mulAdd (rC 2 0) (ra 2) (rb 0), mulAdd (rC 2 1) (ra 2) (rb 1),
    load (rB 1) (pB 1) 0, mulAdd (rC 0 2) (ra 0) (rb 2), mulAdd (rC 1 2) (ra 1) (rb 2),
    load (rA 2) (pA 2) 0, mulAdd (rC 2 2) (ra 2) (rb 2), mulAdd (rC 3 2) (ra 3) (rb 2),
    load (rB 2) (pB 2) 0, mulAdd (rC 3 0) (ra 3) (rb 0), mulAdd (rC 3 1) (ra 3) (rb 1),
    load (rA 3) (pA 3) 0, mulAdd (rC 0 3) (ra 0) (rb 3), mulAdd (rC 1 3) (ra 1) (rb 3),
    load (rB 3) (pB 3) 0, mulAdd (rC 2 3) (ra 2) (rb 3), mulAdd (rC 3 3) (ra 3) (rb 3),
    load (ra 0) (pA 0) 1, mulAdd (rC 0 0) (rA 0) (rB 0), mulAdd (rC 1 0) (rA 1) (rB 0),
    load (rb 0) (pB 0) 1, mulAdd (rC 0 1) (rA 0) (rB 1), mulAdd (rC 1 1) (rA 1) (rB 1),
    load (ra 1) (pA 1) 1, mulAdd (rC 2 0) (rA 2) (rB 0), mulAdd (rC 2 1) (rA 2) (rB 1),
    load (rb 1) (pB 1) 1, mulAdd (rC 0 2) (rA 0) (rB 2), mulAdd (rC 1 2) (rA 1) (rB 2),
    load (ra 2) (pA 2) 1, mulAdd (rC 2 2) (rA 2) (rB 2), mulAdd (rC 3 2) (rA 3) (rB 2),
    load (rb 2) (pB 2) 1, mulAdd (rC 3 0) (rA 3) (rB 0), mulAdd (rC 3 1) (rA 3) (rB 1),
    load (ra 3) (pA 3) 1, mulAdd (rC 0 3) (rA 0) (rB 3), mulAdd (rC 1 3) (rA 1) (rB 3),
    load (rb 3) (pB 3) 1, mulAdd (rC 2 3) (rA 2) (rB 3), mulAdd (rC 3 3) (rA 3) (rB 3) ]

/-- The last three steps of the products. -/
def drain : List (Stmt Reg Ptr) :=
  twoSteps ++
  [ mulAdd (rC 0 0) (ra 0) (rb 0), mulAdd (rC 1 0) (ra 1) (rb 0),
    mulAdd (rC 0 1) (ra 0) (rb 1), mulAdd (rC 1 1) (ra 1) (rb 1),
    mulAdd (rC 2 0) (ra 2) (rb 0), mulAdd (rC 2 1) (ra 2) (rb 1),
    mulAdd (rC 0 2) (ra 0) (rb 2), mulAdd (rC 1 2) (ra 1) (rb 2),
    mulAdd (rC 2 2) (ra 2) (rb 2), mulAdd (rC 3 2) (ra 3) (rb 2),
    mulAdd (rC 3 0) (ra 3) (rb 0), mulAdd (rC 3 1) (ra 3) (rb 1),
    mulAdd (rC 0 3) (ra 0) (rb 3), mulAdd (rC 1 3) (ra 1) (rb 3),
    mulAdd (rC 2 3) (ra 2) (rb 3), mulAdd (rC 3 3) (ra 3) (rb 3) ]

/-- `beta` times what `C` held. -/
def addBeta : List (Stmt Reg Ptr) :=
  [ scale (rA 0) (pC 0) 0, scale (rA 1) (pC 0) 1, scale (rA 2) (pC 0) 2, scale (rA 3) (pC 0) 3,
    scale (rB 0) (pC 1) 0, scale (rB 1) (pC 1) 1, scale (rB 2) (pC 1) 2, scale (rB 3) (pC 1) 3,
    scale (ra 0) (pC 2) 0, add (rC 0 0) (rA 0),
    scale (ra 1) (pC 2) 1, add (rC 1 0) (rA 1),
    scale (ra 2) (pC 2) 2, add (rC 0 1) (rB 0),
    scale (ra 3) (pC 2) 3, add (rC 1 1) (rB 1),
    scale (rb 0) (pC 3) 0, add (rC 2 0) (rA 2),
    scale (rb 1) (pC 3) 1, add (rC 3 0) (rA 3),
    scale (rb 2) (pC 3) 2, add (rC 3 1) (rB 3),
    scale (rb 3) (pC 3) 3, add (rC 2 1) (rB 2),
    add (rC 0 2) (ra 0), add (rC 1 2) (ra 1), add (rC 2 2) (ra 2), add (rC 3 2) (ra 3),
    add (rC 0 3) (rb 0), add (rC 1 3) (rb 1), add (rC 2 3) (rb 2), add (rC 3 3) (rb 3) ]

def storeC : List (Stmt Reg Ptr) :=
  [ store (pC 0) 0 (rC 0 0), store (pC 0) 1 (rC 1 0), store (pC 0) 2 (rC 2 0),
      store (pC 0) 3 (rC 3 0),
    store (pC 1) 0 (rC 0 1), store (pC 1) 1 (rC 1 1), store (pC 1) 2 (rC 2 1),
      store (pC 1) 3 (rC 3 1),
    store (pC 2) 0 (rC 0 2), store (pC 2) 1 (rC 1 2), store (pC 2) 2 (rC 2 2),
      store (pC 2) 3 (rC 3 2),
    store (pC 3) 0 (rC 0 3), store (pC 3) 1 (rC 1 3), store (pC 3) 2 (rC 2 3),
      store (pC 3) 3 (rC 3 3) ]

/-- The pointers at the end of the inner loop. -/
def nextTile : List (Stmt Reg Ptr) :=
  [ advance (pC 0) incCm, advance (pC 1) incCm, advance (pC 2) incCm, advance (pC 3) incCm,
    advance (pA 0) incAm, advance (pA 1) incAm, advance (pA 2) incAm, advance (pA 3) incAm,
    advance (pB 0) incBm, advance (pB 1) incBm, advance (pB 2) incBm, advance (pB 3) incBm ]

/-- The pointers at the end of the outer loop. -/
def nextPanel (ldc : ℤ) : List (Stmt Reg Ptr) :=
  [ advance (pC 0) (incCn ldc), advance (pC 1) (incCn ldc), advance (pC 2) (incCn ldc),
      advance (pC 3) (incCn ldc),
    advance (pA 0) incAn, advance (pA 1) incAn, advance (pA 2) incAn, advance (pA 3) incAn,
    advance (pB 0) incBn, advance (pB 1) incBn, advance (pB 2) incBn, advance (pB 3) incBn ]

/-- What follows the loop in a tile. -/
def flush : List (Stmt Reg Ptr) :=
  drain ++ addBeta ++ storeC ++ nextTile

variable {R : Type*} [CommRing R]

/-- One round of the inner loop. -/
def tile (beta : R) (s : State Reg Ptr Arr R) : State Reg Ptr Arr R :=
  run Ptr.arr beta flush
    ((run Ptr.arr beta Kloop52A)^[Kloop] (run Ptr.arr beta entranceB1 s))

/-- `A + 3600` -/
def stM : ℤ := 3600

/-- `B + 3600` -/
def stN : ℤ := 3600

/-- The arrays as they are given, `pA1 = pA0 + lda` and so on. What the registers hold
is not known. -/
def start (reg : Reg → R) (A : ℤ → R) (lda : ℤ) (B : ℤ → R) (ldb : ℤ) (C : ℤ → R) (ldc : ℤ) :
    State Reg Ptr Arr R where
  reg := reg
  ptr
    | pA i => i.val * lda
    | pB j => j.val * ldb
    | pC j => j.val * ldc
  mem
    | .A => A
    | .B => B
    | .C => C
  reads := []

/-- One round of the outer loop: four columns of `C`. -/
def panel (fuel : ℕ) (beta : R) (ldc : ℤ) (s : State Reg Ptr Arr R) :
    Option (State Reg Ptr Arr R) :=
  (doWhile (fun s => some (tile beta s)) (fun s => s.ptr (pA 0) ≠ stM) fuel s).map
    (run Ptr.arr beta (nextPanel ldc))

/-- `M`, `N`, `K` and `alpha` are not used, and the prefetch at `pD4` has no effect. -/
def dgemm (fuel : ℕ) (reg : Reg → R) (A : ℤ → R) (lda : ℤ) (B : ℤ → R) (ldb : ℤ) (beta : R)
    (C : ℤ → R) (ldc : ℤ) : Option (State Reg Ptr Arr R) :=
  doWhile (panel fuel beta ldc) (fun s => s.ptr (pB 0) ≠ stN) fuel
    (start reg A lda B ldb C ldc)

/-! ## What the parts do -/

/-- Step `k` of the products of row `i` and column `j`. -/
def product (i j : Fin 4) (k : ℕ) : Expr Reg Ptr :=
  .mul (.cell (pA i) k) (.cell (pB j) k)

def entranceEffect : Sym Reg Ptr :=
  Sym.effect Ptr.arr entranceB1

def kloopEffect : Sym Reg Ptr :=
  Sym.effect Ptr.arr Kloop52A

def flushEffect : Sym Reg Ptr :=
  Sym.effect Ptr.arr flush

theorem entrance_effect :
    (Sym.ofCode Ptr.arr entranceB1).isSome ∧
    (∀ i j, entranceEffect.reg (rC i j) = product i j 0) ∧
    (∀ i, entranceEffect.reg (ra i) = .cell (pA i) 1 ∧
      entranceEffect.reg (rb i) = .cell (pB i) 1) ∧
    (∀ p, entranceEffect.ptr p = 0) ∧
    entranceEffect.stores = [] ∧
    ∀ q ∈ entranceEffect.reads, q.1.arr ≠ .C ∧ 0 ≤ q.2 ∧ q.2 < 2 := by
  decide +kernel

theorem kloop_effect :
    (Sym.ofCode Ptr.arr Kloop52A).isSome ∧
    (∀ i j, kloopEffect.reg (rC i j) =
      .add (.add (.add (.add (.reg (rC i j)) (.mul (.reg (ra i)) (.reg (rb j))))
        (product i j 2)) (product i j 3)) (product i j 4)) ∧
    (∀ i, kloopEffect.reg (ra i) = .cell (pA i) 5 ∧ kloopEffect.reg (rb i) = .cell (pB i) 5) ∧
    (∀ p, kloopEffect.ptr p = if p.arr = .C then 0 else 4) ∧
    kloopEffect.stores = [] ∧
    ∀ q ∈ kloopEffect.reads, q.1.arr ≠ .C ∧ 2 ≤ q.2 ∧ q.2 < 6 := by
  decide +kernel

/-- What is stored at row `i` and column `j` of a tile. -/
def stored (i j : Fin 4) : Expr Reg Ptr :=
  .add (.add (.add (.add (.reg (rC i j)) (.mul (.reg (ra i)) (.reg (rb j)))) (product i j 2))
    (product i j 3)) (.scaled (pC j) i.val)

theorem flush_effect :
    (Sym.ofCode Ptr.arr flush).isSome ∧
    (∀ i, flushEffect.ptr (pA i) = 184 ∧ flushEffect.ptr (pB i) = -56 ∧
      flushEffect.ptr (pC i) = 4) ∧
    (flushEffect.stores = (List.finRange 4).flatMap fun j =>
      (List.finRange 4).map fun i => (pC j, (i.val : ℤ), stored i j)) ∧
    ∀ q ∈ flushEffect.reads, q.1.arr ≠ .C → 2 ≤ q.2 ∧ q.2 < 4 := by
  decide +kernel

end Dgemm

end LxToolset
