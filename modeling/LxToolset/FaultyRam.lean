import Mathlib.Logic.Function.Basic
import Mathlib.Order.Basic
import Mathlib.Data.Nat.Notation

/-!
# A memory with faults

An address selects a cell, perhaps the same one as another address does, and a cell gives back a
function of the word it holds, perhaps not that word. `Halves` are two runs of addresses that
select different cells, each of which a loop over both treats on its own (`fillBoth_apply`,
`changeBoth_apply`). Where two addresses of a run select one cell, what a loop leaves there still
does not depend on what was there before (`fill_congr`).
-/

structure Ram (A κ ω : Type*) where
  /-- The cell that an address selects. -/
  decode : A → κ
  /-- What a cell that holds a word gives back. -/
  reads : κ → ω → ω

namespace Ram

variable {A κ ω σ : Type*}

/-- `for (i = 0; i < n; i++)` -/
def loop (body : ℕ → σ → σ) : ℕ → σ → σ
  | 0, s => s
  | n + 1, s => body n (loop body n s)

/-- Two runs of `n` addresses that select different cells. -/
structure Halves (R : Ram A κ ω) (a b : ℕ → A) (n : ℕ) : Prop where
  left : ∀ i < n, ∀ k < n, R.decode (a i) = R.decode (a k) → i = k
  right : ∀ i < n, ∀ k < n, R.decode (b i) = R.decode (b k) → i = k
  apart : ∀ i < n, ∀ k < n, R.decode (a i) ≠ R.decode (b k)

theorem Halves.mono {R : Ram A κ ω} {a b : ℕ → A} {m n : ℕ} (h : Halves R a b n) (hm : m ≤ n) :
    Halves R a b m :=
  ⟨fun i hi k hk => h.left i (by omega) k (by omega),
    fun i hi k hk => h.right i (by omega) k (by omega),
    fun i hi k hk => h.apart i (by omega) k (by omega)⟩

section Cells

variable [DecidableEq κ] (R : Ram A κ ω)

def load (s : κ → ω) (a : A) : ω :=
  R.reads (R.decode a) (s (R.decode a))

def store (s : κ → ω) (a : A) (v : ω) : κ → ω :=
  Function.update s (R.decode a) v

/-- `*p++ = v i`, with `p` going through the addresses `a i`. -/
def fill (a : ℕ → A) (v : ℕ → ω) : ℕ → (κ → ω) → κ → ω :=
  loop fun i s => R.store s (a i) (v i)

/-- `*p1++ = *p2++ = v i` -/
def fillBoth (a b : ℕ → A) (v : ℕ → ω) : ℕ → (κ → ω) → κ → ω :=
  loop fun i s => R.store (R.store s (b i) (v i)) (a i) (v i)

/-- The word at `a` is replaced by `f` of what is read there. -/
def change (f : ω → ω) (s : κ → ω) (a : A) : κ → ω :=
  R.store s a (f (R.load s a))

/-- `f` on `*p1++`, then on `*p2++`. -/
def changeBoth (a b : ℕ → A) (f : ω → ω) : ℕ → (κ → ω) → κ → ω :=
  loop fun i s => R.change f (R.change f s (a i)) (b i)

variable {R} {a b : ℕ → A} {v : ℕ → ω} {f : ω → ω} {s : κ → ω} {c : κ} {i n : ℕ}

theorem store_apply_of_ne {x : A} {u : ω} (h : R.decode x ≠ c) : R.store s x u c = s c :=
  Function.update_of_ne (Ne.symm h) ..

@[simp] theorem store_apply_self {x : A} {u : ω} : R.store s x u (R.decode x) = u :=
  Function.update_self ..

theorem change_apply_of_ne {x : A} (h : R.decode x ≠ c) : R.change f s x c = s c :=
  store_apply_of_ne h

theorem change_apply_self {x : A} :
    R.change f s x (R.decode x) = f (R.reads (R.decode x) (s (R.decode x))) :=
  store_apply_self

/-! ## One run of addresses -/

/-- What is left in the cells of a run does not depend on what was there before. -/
theorem fill_congr {s' : κ → ω} (hi : i < n) :
    R.fill a v n s (R.decode (a i)) = R.fill a v n s' (R.decode (a i)) := by
  induction n with
  | zero => omega
  | succ n ih =>
    by_cases hc : R.decode (a n) = R.decode (a i)
    · simp only [fill, loop, ← hc, store_apply_self]
    · have hne : i ≠ n := fun h => hc (by rw [h])
      have hin : i < n := by omega
      simp only [fill, loop, store_apply_of_ne hc]
      exact ih hin

/-- Each word is in its cell if no other address of the run selects it. -/
theorem fill_apply (h : ∀ i < n, ∀ k < n, R.decode (a i) = R.decode (a k) → i = k) (hi : i < n) :
    R.fill a v n s (R.decode (a i)) = v i := by
  induction n with
  | zero => omega
  | succ n ih =>
    rcases Nat.lt_succ_iff_lt_or_eq.1 hi with hin | rfl
    · have hc : R.decode (a n) ≠ R.decode (a i) := fun hc => by
        have heq := h n n.lt_succ_self i hi hc
        omega
      simp only [fill, loop, store_apply_of_ne hc]
      exact ih (fun i hi k hk => h i (by omega) k (by omega)) hin
    · simp only [fill, loop, store_apply_self]

/-! ## Two runs -/

theorem fillBoth_apply (h : Halves R a b n) (hi : i < n) :
    R.fillBoth a b v n s (R.decode (a i)) = v i ∧ R.fillBoth a b v n s (R.decode (b i)) = v i := by
  induction n with
  | zero => omega
  | succ n ih =>
    rcases Nat.lt_succ_iff_lt_or_eq.1 hi with hin | rfl
    · have haa : R.decode (a n) ≠ R.decode (a i) := fun hc => by
        have heq := h.left n n.lt_succ_self i hi hc
        omega
      have hbb : R.decode (b n) ≠ R.decode (b i) := fun hc => by
        have heq := h.right n n.lt_succ_self i hi hc
        omega
      have hab := h.apart n n.lt_succ_self i hi
      have hba := (h.apart i hi n n.lt_succ_self).symm
      simp only [fillBoth, loop, store_apply_of_ne haa, store_apply_of_ne hbb,
        store_apply_of_ne hab, store_apply_of_ne hba]
      exact ih (h.mono n.le_succ) hin
    · have hab := h.apart i hi i hi
      simp only [fillBoth, loop, store_apply_self, store_apply_of_ne hab, and_self]

theorem changeBoth_frame (h : ∀ i < n, R.decode (a i) ≠ c ∧ R.decode (b i) ≠ c) :
    R.changeBoth a b f n s c = s c := by
  induction n with
  | zero => rfl
  | succ n ih =>
    obtain ⟨ha, hb⟩ := h n n.lt_succ_self
    simp only [changeBoth, loop, change_apply_of_ne ha, change_apply_of_ne hb]
    exact ih fun i hi => h i (by omega)

theorem changeBoth_apply (h : Halves R a b n) (hi : i < n) :
    R.changeBoth a b f n s (R.decode (a i)) =
        f (R.reads (R.decode (a i)) (s (R.decode (a i)))) ∧
      R.changeBoth a b f n s (R.decode (b i)) =
        f (R.reads (R.decode (b i)) (s (R.decode (b i)))) := by
  induction n with
  | zero => omega
  | succ n ih =>
    rcases Nat.lt_succ_iff_lt_or_eq.1 hi with hin | rfl
    · have haa : R.decode (a n) ≠ R.decode (a i) := fun hc => by
        have heq := h.left n n.lt_succ_self i hi hc
        omega
      have hbb : R.decode (b n) ≠ R.decode (b i) := fun hc => by
        have heq := h.right n n.lt_succ_self i hi hc
        omega
      have hab := h.apart n n.lt_succ_self i hi
      have hba := (h.apart i hi n n.lt_succ_self).symm
      simp only [changeBoth, loop, change_apply_of_ne haa, change_apply_of_ne hbb,
        change_apply_of_ne hab, change_apply_of_ne hba]
      exact ih (h.mono n.le_succ) hin
    · have hab := h.apart i hi i hi
      have hframe : ∀ c, (∀ k < i, R.decode (a k) ≠ c ∧ R.decode (b k) ≠ c) →
          loop (fun i s => R.change f (R.change f s (a i)) (b i)) i s c = s c :=
        fun c hc => changeBoth_frame hc
      have ha := hframe (R.decode (a i)) fun k hk =>
        ⟨fun hc => by have heq := h.left k (by omega) i hi hc; omega,
          (h.apart i hi k (by omega)).symm⟩
      have hb := hframe (R.decode (b i)) fun k hk =>
        ⟨h.apart k (by omega) i hi,
          fun hc => by have heq := h.right k (by omega) i hi hc; omega⟩
      simp only [changeBoth, loop, change_apply_self, change_apply_of_ne hab,
        change_apply_of_ne hab.symm, ha, hb, and_self]

end Cells

end Ram
