import Mathlib.Logic.Relation
import Mathlib.Data.List.Basic

/-!
# State machines, guarded runs, simulation

A `Machine` is a set of initial states and a computable step that may be blocked.
`Reach G` are the states reached by steps that satisfy the guard `G` on the state
before them; `G := fun _ _ => True` gives every reachable state. `Reach.invariant`
is the induction over a guarded run, `Reach.simulates` carries a guarded run to an
abstract machine along a state abstraction, with stutters. `traced` keeps the steps
taken, for guards on the schedule so far.
-/

/-- Initial states, and the step an action takes. `none` is a blocked or undefined step. -/
structure Machine (σ α : Type*) where
  init : σ → Prop
  step : σ → α → Option σ

namespace Machine

variable {σ α τ β : Type*} (M : Machine σ α)

/-- One step whose action satisfies `G` in the state before it. -/
def Next (G : σ → α → Prop) (s s' : σ) : Prop :=
  ∃ a, G s a ∧ M.step s a = some s'

/-- Reached from an initial state by steps that all satisfy `G`. -/
def Reach (G : σ → α → Prop) (s : σ) : Prop :=
  ∃ s₀, M.init s₀ ∧ Relation.ReflTransGen (M.Next G) s₀ s

/-- The guard that lets every step through. -/
def free (_ : σ) (_ : α) : Prop :=
  True

/-- Run a list of actions, each under a decidable guard. -/
def run (G : σ → α → Prop) [∀ s a, Decidable (G s a)] (s : σ) (as : List α) : Option σ :=
  as.foldlM (fun s a => if G s a then M.step s a else none) s

instance : ∀ (s : σ) (a : α), Decidable (free s a) :=
  fun _ _ => inferInstanceAs (Decidable True)

variable {M} {G : σ → α → Prop}

theorem Reach.start {s : σ} (h : M.init s) : M.Reach G s :=
  ⟨s, h, .refl⟩

theorem Reach.next {s s' : σ} {a : α} (h : M.Reach G s) (hG : G s a)
    (hs : M.step s a = some s') : M.Reach G s' := by
  obtain ⟨s₀, h0, hr⟩ := h
  exact ⟨s₀, h0, hr.tail ⟨a, hG, hs⟩⟩

/-- What holds initially and is kept by every guarded step holds in every state a
guarded run reaches. -/
theorem Reach.invariant {I : σ → Prop} (h0 : ∀ s, M.init s → I s)
    (hs : ∀ s a s', I s → G s a → M.step s a = some s' → I s') {s : σ}
    (h : M.Reach G s) : I s := by
  obtain ⟨s₀, hi, hr⟩ := h
  induction hr with
  | refl => exact h0 _ hi
  | tail _ hstep ih =>
    obtain ⟨a, hG, hstep⟩ := hstep
    exact hs _ _ _ ih hG hstep

/-- Forward simulation along `f` : if `I` is an invariant of the guarded runs, and each
guarded step from an `I`-state is a step of the abstract machine `N` or leaves the
abstraction unchanged, then a guarded run abstracts to a run of `N`. -/
theorem Reach.simulates {N : Machine τ β} {f : σ → τ} {I : σ → Prop}
    (h0 : ∀ s, M.init s → I s ∧ N.init (f s))
    (hs : ∀ s a s', I s → G s a → M.step s a = some s' →
      I s' ∧ (f s' = f s ∨ ∃ b, N.step (f s) b = some (f s'))) {s : σ}
    (h : M.Reach G s) : I s ∧ N.Reach free (f s) := by
  refine Reach.invariant (I := fun s => I s ∧ N.Reach free (f s)) ?_ ?_ h
  · intro s hi
    exact ⟨(h0 s hi).1, .start (h0 s hi).2⟩
  · intro s a s' hI hG hstep
    obtain ⟨hI', heq | ⟨b, hb⟩⟩ := hs s a s' hI.1 hG hstep
    · exact ⟨hI', heq ▸ hI.2⟩
    · exact ⟨hI', hI.2.next trivial hb⟩

/-- A computed run from an initial state reaches its last state. -/
theorem reach_of_run [∀ s a, Decidable (G s a)] {s s' : σ} {as : List α} (hs : M.Reach G s)
    (h : M.run G s as = some s') : M.Reach G s' := by
  induction as generalizing s with
  | nil =>
    obtain rfl : s = s' := by simpa [run] using h
    exact hs
  | cons a as ih =>
    simp only [run, List.foldlM_cons] at h
    split_ifs at h with hG
    · cases hstep : M.step s a with
      | none => simp [hstep] at h
      | some t =>
        rw [hstep] at h
        exact ih (hs.next hG hstep) h
    · simp at h

/-- If the steps of the actions in `p` lower a measure, and no step raises it, then a run has no
more of these actions than the measure it starts with. -/
theorem countP_add_le_of_run [∀ s a, Decidable (G s a)] {I : σ → Prop} {μ : σ → ℕ} {p : α → Bool}
    (hs : ∀ s a s', I s → G s a → M.step s a = some s' →
      I s' ∧ μ s' + (if p a then 1 else 0) ≤ μ s) {s s' : σ} {as : List α} (hI : I s)
    (h : M.run G s as = some s') : I s' ∧ as.countP p + μ s' ≤ μ s := by
  induction as generalizing s with
  | nil =>
    obtain rfl : s = s' := by simpa [run] using h
    exact ⟨hI, by simp⟩
  | cons a as ih =>
    simp only [run, List.foldlM_cons] at h
    split_ifs at h with hG
    · cases hstep : M.step s a with
      | none => simp [hstep] at h
      | some t =>
        rw [hstep] at h
        obtain ⟨hIt, hle⟩ := hs s a t hI hG hstep
        obtain ⟨hI', hrest⟩ := ih hIt h
        refine ⟨hI', ?_⟩
        rw [List.countP_cons]
        omega
    · simp at h

/-! ## Traces -/

/-- The machine that keeps the steps it takes, each with the state before it. -/
def traced (M : Machine σ α) : Machine (σ × List (σ × α)) α where
  init x := M.init x.1 ∧ x.2 = []
  step x a := (M.step x.1 a).map fun s => (s, x.2 ++ [(x.1, a)])

theorem traced_step_eq_some {x x' : σ × List (σ × α)} {a : α} :
    M.traced.step x a = some x' ↔ ∃ s, M.step x.1 a = some s ∧ (s, x.2 ++ [(x.1, a)]) = x' :=
  Option.map_eq_some_iff

/-- If a step of `q` raises `f` by one, one of `p` lowers it by one and no other changes it, then
`f` is the steps of `q` taken without those of `p`. -/
theorem balance_step {f : σ → ℕ} {p q : σ × α → Bool}
    (hs : ∀ s a s', M.step s a = some s' → f s' + (p (s, a)).toNat = f s + (q (s, a)).toNat)
    {x x' : σ × List (σ × α)} {a : α} (h : M.traced.step x a = some x')
    (hx : f x.1 + x.2.countP p = x.2.countP q) : f x'.1 + x'.2.countP p = x'.2.countP q := by
  obtain ⟨s, hstep, rfl⟩ := traced_step_eq_some.1 h
  have hone := hs x.1 a s hstep
  have hcount : ∀ r : σ × α → Bool, [(x.1, a)].countP r = (r (x.1, a)).toNat := fun r => by
    rw [List.countP_singleton]
    cases r (x.1, a) <;> rfl
  simp only [List.countP_append, hcount]
  omega

end Machine
