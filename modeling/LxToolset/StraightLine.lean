import Mathlib.Data.Int.Notation
import Mathlib.Data.List.Induction
import Mathlib.Logic.Function.Basic

/-!
# Straight-line code, its symbolic effect, counted loops

Statements that load, combine and store numbers through moving pointers, each pointer into
one array. `Sym.ofCode` computes the effect of a block once, in terms of the state before
it, and `run_eq_effect` says that the block has this effect in every state: what a block
does is then read off a closed term. `exists_doWhile` is the rule for a do-while loop
whose number of rounds is known.
-/

set_option linter.unusedSectionVars false

namespace StraightLine

/-- A statement over registers `ρ` and pointers `π`. `scale` multiplies a cell by the
constant the code is run with. -/
inductive Stmt (ρ π : Type*) where
  | load (r : ρ) (p : π) (off : ℤ)
  | scale (r : ρ) (p : π) (off : ℤ)
  | mul (r a b : ρ)
  | mulAdd (r a b : ρ)
  | add (r a : ρ)
  | store (p : π) (off : ℤ) (r : ρ)
  | advance (p : π) (n : ℤ)

/-- Pointers are indices into the array they walk over. -/
structure State (ρ π α R : Type*) where
  reg : ρ → R
  ptr : π → ℤ
  mem : α → ℤ → R
  reads : List (α × ℤ)

variable {ρ π α R : Type*} [DecidableEq ρ] [DecidableEq π] [DecidableEq α] [Add R] [Mul R]

/-- One cell of one array replaced. -/
def write (m : α → ℤ → R) (a : α) (x : ℤ) (v : R) : α → ℤ → R :=
  Function.update m a (Function.update (m a) x v)

theorem write_self (m : α → ℤ → R) (a : α) (x : ℤ) (v : R) : write m a x v a x = v := by
  simp [write]

theorem write_of_ne {m : α → ℤ → R} {a b : α} {x y : ℤ} {v : R} (h : (a, x) ≠ (b, y)) :
    write m a x v b y = m b y := by
  by_cases hab : b = a
  · subst hab
    have hxy : y ≠ x := fun he => h (by rw [he])
    simp [write, hxy]
  · simp [write, hab]

variable (base : π → α) (c : R)

def exec (s : State ρ π α R) : Stmt ρ π → State ρ π α R
  | .load r p off =>
    { s with
      reg := Function.update s.reg r (s.mem (base p) (s.ptr p + off))
      reads := s.reads ++ [(base p, s.ptr p + off)] }
  | .scale r p off =>
    { s with
      reg := Function.update s.reg r (c * s.mem (base p) (s.ptr p + off))
      reads := s.reads ++ [(base p, s.ptr p + off)] }
  | .mul r a b => { s with reg := Function.update s.reg r (s.reg a * s.reg b) }
  | .mulAdd r a b => { s with reg := Function.update s.reg r (s.reg r + s.reg a * s.reg b) }
  | .add r a => { s with reg := Function.update s.reg r (s.reg r + s.reg a) }
  | .store p off r => { s with mem := write s.mem (base p) (s.ptr p + off) (s.reg r) }
  | .advance p n => { s with ptr := Function.update s.ptr p (s.ptr p + n) }

def run (code : List (Stmt ρ π)) (s : State ρ π α R) : State ρ π α R :=
  code.foldl (exec base c) s

/-! ## Symbolic effects -/

/-- A number in terms of the state before a block: its registers, its cells at a fixed
distance from a pointer, and these cells times the constant. -/
inductive Expr (ρ π : Type*) where
  | reg (r : ρ)
  | cell (p : π) (off : ℤ)
  | scaled (p : π) (off : ℤ)
  | add (x y : Expr ρ π)
  | mul (x y : Expr ρ π)
  deriving DecidableEq

def Expr.eval (s : State ρ π α R) : Expr ρ π → R
  | .reg r => s.reg r
  | .cell p off => s.mem (base p) (s.ptr p + off)
  | .scaled p off => c * s.mem (base p) (s.ptr p + off)
  | .add x y => x.eval s + y.eval s
  | .mul x y => x.eval s * y.eval s

/-- What a block has done so far: the registers, how far each pointer has moved, and what
was read and stored, in order, at distances from where the pointers were. -/
structure Sym (ρ π : Type*) where
  reg : ρ → Expr ρ π
  ptr : π → ℤ
  reads : List (π × ℤ)
  stores : List (π × ℤ × Expr ρ π)

namespace Sym

/-- The effect of no code. -/
def init : Sym ρ π :=
  ⟨.reg, fun _ => 0, [], []⟩

/-- Nothing was stored to the array of `p`, so that its cells are those before the block. -/
def Fresh (σ : Sym ρ π) (p : π) : Prop :=
  ∀ w ∈ σ.stores, base w.1 ≠ base p

instance (σ : Sym ρ π) (p : π) : Decidable (σ.Fresh base p) :=
  inferInstanceAs (Decidable (∀ w ∈ σ.stores, base w.1 ≠ base p))

def step (σ : Sym ρ π) : Stmt ρ π → Option (Sym ρ π)
  | .load r p off =>
    if σ.Fresh base p then
      some { σ with
        reg := Function.update σ.reg r (.cell p (σ.ptr p + off))
        reads := σ.reads ++ [(p, σ.ptr p + off)] }
    else none
  | .scale r p off =>
    if σ.Fresh base p then
      some { σ with
        reg := Function.update σ.reg r (.scaled p (σ.ptr p + off))
        reads := σ.reads ++ [(p, σ.ptr p + off)] }
    else none
  | .mul r a b => some { σ with reg := Function.update σ.reg r (.mul (σ.reg a) (σ.reg b)) }
  | .mulAdd r a b =>
    some { σ with reg := Function.update σ.reg r (.add (σ.reg r) (.mul (σ.reg a) (σ.reg b))) }
  | .add r a => some { σ with reg := Function.update σ.reg r (.add (σ.reg r) (σ.reg a)) }
  | .store p off r => some { σ with stores := σ.stores ++ [(p, σ.ptr p + off, σ.reg r)] }
  | .advance p n => some { σ with ptr := Function.update σ.ptr p (σ.ptr p + n) }

/-- The effect of a block, where no cell is read back after a store to its array. -/
def ofCode (code : List (Stmt ρ π)) : Option (Sym ρ π) :=
  code.foldlM (step base) init

/-- What `ofCode` computes, where it computes anything. -/
def effect (code : List (Stmt ρ π)) : Sym ρ π :=
  (ofCode base code).getD init

/-- The memory after a list of stores, from left to right. -/
def commit (s : State ρ π α R) (m : α → ℤ → R) (ws : List (π × ℤ × Expr ρ π)) : α → ℤ → R :=
  ws.foldl (fun m w => write m (base w.1) (s.ptr w.1 + w.2.1) (w.2.2.eval base c s)) m

def apply (σ : Sym ρ π) (s : State ρ π α R) : State ρ π α R where
  reg r := (σ.reg r).eval base c s
  ptr p := s.ptr p + σ.ptr p
  mem := commit base c s s.mem σ.stores
  reads := s.reads ++ σ.reads.map fun q => (base q.1, s.ptr q.1 + q.2)

variable {base c} {s : State ρ π α R} {σ σ' : Sym ρ π}

theorem apply_init : (init : Sym ρ π).apply base c s = s := by
  simp [apply, init, commit, Expr.eval]

theorem commit_append {m : α → ℤ → R} (ws ws' : List (π × ℤ × Expr ρ π)) :
    commit base c s m (ws ++ ws') = commit base c s (commit base c s m ws) ws' :=
  List.foldl_append

/-- A cell that no store is to keeps its value. -/
theorem commit_of_forall_ne {m : α → ℤ → R} {ws : List (π × ℤ × Expr ρ π)} {a : α} {x : ℤ}
    (h : ∀ w ∈ ws, (base w.1, s.ptr w.1 + w.2.1) ≠ (a, x)) :
    commit base c s m ws a x = m a x := by
  induction ws generalizing m with
  | nil => rfl
  | cons w ws ih =>
    have htail := @ih (write m (base w.1) (s.ptr w.1 + w.2.1) (w.2.2.eval base c s))
      fun w' hw' => h w' (List.mem_cons_of_mem _ hw')
    exact htail.trans (write_of_ne (h w List.mem_cons_self))

/-- A cell that is stored to holds `v` if every store to it stores `v`. -/
theorem commit_of_forall_eq {m : α → ℤ → R} {ws : List (π × ℤ × Expr ρ π)} {a : α} {x : ℤ} {v : R}
    (h : ∀ w ∈ ws, (base w.1, s.ptr w.1 + w.2.1) = (a, x) → w.2.2.eval base c s = v)
    (hex : ∃ w ∈ ws, (base w.1, s.ptr w.1 + w.2.1) = (a, x)) :
    commit base c s m ws a x = v := by
  induction ws using List.reverseRecOn with
  | nil => simp at hex
  | append_singleton ws w ih =>
    rw [commit_append]
    by_cases hw : (base w.1, s.ptr w.1 + w.2.1) = (a, x)
    · have hv := h w (by simp) hw
      obtain ⟨rfl, rfl⟩ := Prod.mk.inj hw
      rw [← hv]
      exact write_self _ _ _ _
    · refine (write_of_ne hw).trans (ih (fun w' hw' => h w' (by simp [hw'])) ?_)
      obtain ⟨w', hmem, hw'⟩ := hex
      rcases List.mem_append.mp hmem with hmem | hmem
      · exact ⟨w', hmem, hw'⟩
      · exact absurd (List.mem_singleton.mp hmem ▸ hw') hw

/-- An array that no store is to is unchanged. -/
theorem commit_other {m : α → ℤ → R} {ws : List (π × ℤ × Expr ρ π)} {a : α}
    (h : ∀ w ∈ ws, base w.1 ≠ a) : commit base c s m ws a = m a := by
  funext x
  exact commit_of_forall_ne fun w hw he => h w hw (Prod.mk.inj he).1

theorem mem_reads_apply {q : α × ℤ} : q ∈ (σ.apply base c s).reads ↔
    q ∈ s.reads ∨ ∃ w ∈ σ.reads, (base w.1, s.ptr w.1 + w.2) = q := by
  simp only [apply, List.mem_append, List.mem_map]

theorem apply_mem_fresh {p : π} (h : σ.Fresh base p) :
    (σ.apply base c s).mem (base p) = s.mem (base p) :=
  commit_other h

theorem apply_update_reg (r : ρ) (e : Expr ρ π) :
    (fun x => (Function.update σ.reg r e x).eval base c s) =
      Function.update (fun x => (σ.reg x).eval base c s) r (e.eval base c s) := by
  funext x
  exact Function.apply_update (fun _ e => Expr.eval base c s e) _ _ _ _

/-- A statement does to the state what its symbolic step records. -/
theorem exec_apply {st : Stmt ρ π} (h : σ.step base st = some σ') :
    exec base c (σ.apply base c s) st = σ'.apply base c s := by
  cases st with
  | load r p off =>
    obtain ⟨hf, rfl⟩ : σ.Fresh base p ∧ _ = σ' := by simpa [step] using h
    simp only [exec, apply_mem_fresh hf]
    simp [apply, apply_update_reg, Expr.eval, Int.add_assoc]
  | scale r p off =>
    obtain ⟨hf, rfl⟩ : σ.Fresh base p ∧ _ = σ' := by simpa [step] using h
    simp only [exec, apply_mem_fresh hf]
    simp [apply, apply_update_reg, Expr.eval, Int.add_assoc]
  | mul r a b =>
    obtain rfl := Option.some.inj h
    simp [exec, apply, apply_update_reg, Expr.eval]
  | mulAdd r a b =>
    obtain rfl := Option.some.inj h
    simp [exec, apply, apply_update_reg, Expr.eval]
  | add r a =>
    obtain rfl := Option.some.inj h
    simp [exec, apply, apply_update_reg, Expr.eval]
  | store p off r =>
    obtain rfl := Option.some.inj h
    simp [exec, apply, commit, Int.add_assoc]
  | advance p n =>
    obtain rfl := Option.some.inj h
    simp only [exec, apply]
    congr 1
    funext q
    by_cases hq : q = p
    · subst hq
      simp [Int.add_assoc]
    · simp [hq]

theorem run_eq_apply {code : List (Stmt ρ π)} (h : ofCode base code = some σ) :
    run base c code s = σ.apply base c s := by
  suffices ∀ τ : Sym ρ π, code.foldlM (step base) τ = some σ →
      run base c code (τ.apply base c s) = σ.apply base c s by
    have hrun := this init h
    rwa [apply_init] at hrun
  clear h
  intro τ hτ
  induction code generalizing τ with
  | nil =>
    obtain rfl := Option.some.inj hτ
    rfl
  | cons st code ih =>
    obtain ⟨τ', hstep, hrest⟩ := Option.bind_eq_some_iff.mp hτ
    exact (congrArg (run base c code) (exec_apply hstep)).trans (ih τ' hrest)

/-- A block whose effect can be computed has that effect in every state. -/
theorem run_eq_effect {code : List (Stmt ρ π)} (h : (ofCode base code).isSome) :
    run base c code s = (effect base code).apply base c s := by
  obtain ⟨σ, hσ⟩ := Option.isSome_iff_exists.mp h
  rw [run_eq_apply hσ, effect, hσ, Option.getD_some]

end Sym

/-! ## Loops -/

/-- `do body while (more)`, for at most `fuel` rounds. -/
def doWhile {S : Type*} (body : S → Option S) (more : S → Bool) : ℕ → S → Option S
  | 0, _ => none
  | fuel + 1, s => (body s).bind fun s' => if more s' then doWhile body more fuel s' else some s'

/-- A loop whose rounds keep `I` and which goes on exactly until round `N` ends with `I N`,
given fuel for its rounds. -/
theorem exists_doWhile {S : Type*} {body : S → Option S} {more : S → Bool} {I : ℕ → S → Prop}
    {N : ℕ}
    (hbody : ∀ n s, n < N → I n s → ∃ s', body s = some s' ∧ I (n + 1) s')
    (hmore : ∀ n s, n < N → I (n + 1) s → (more s = true ↔ n + 1 < N)) {fuel n : ℕ}
    (hn : n < N) (hfuel : N ≤ n + fuel) {s : S} (hs : I n s) :
    ∃ s', doWhile body more fuel s = some s' ∧ I N s' := by
  induction fuel generalizing n s with
  | zero => omega
  | succ fuel ih =>
    obtain ⟨s', hs', hI⟩ := hbody n s hn hs
    have hm := hmore n s' hn hI
    rw [doWhile, hs', Option.bind_some]
    by_cases hlast : n + 1 < N
    · rw [if_pos (hm.mpr hlast)]
      exact ih hlast (by omega) hI
    · have hN : n + 1 = N := by omega
      rw [if_neg fun he => hlast (hm.mp he)]
      exact ⟨s', rfl, hN ▸ hI⟩

end StraightLine
