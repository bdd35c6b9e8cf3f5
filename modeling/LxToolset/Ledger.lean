import Mathlib.Data.List.Basic

/-!
# Ledgers

The resources a program holds, from the list of what it acquired and released. A release of
what is not held is `stray`, and is not made good by what comes later (`stray_of_apply`).
-/

/-- Something done to a resource. -/
inductive ResourceOp (ρ : Type*) where
  | acquire (r : ρ)
  | release (r : ρ)
  deriving DecidableEq

structure Ledger (ρ : Type*) where
  held : List ρ
  stray : List ρ
  deriving DecidableEq

namespace Ledger

variable {ρ : Type*} [DecidableEq ρ]

/-- Nothing held, and nothing released that was not held. -/
def clear : Ledger ρ :=
  ⟨[], []⟩

def apply (l : Ledger ρ) : ResourceOp ρ → Ledger ρ
  | .acquire r => { l with held := r :: l.held }
  | .release r =>
    if r ∈ l.held then { l with held := l.held.erase r } else { l with stray := r :: l.stray }

def run (l : Ledger ρ) (ops : List (ResourceOp ρ)) : Ledger ρ :=
  ops.foldl apply l

variable {l : Ledger ρ} {op : ResourceOp ρ} {ops ops' : List (ResourceOp ρ)} {r : ρ}

@[simp] theorem run_nil : l.run [] = l :=
  rfl

@[simp] theorem run_cons : l.run (op :: ops) = (l.apply op).run ops :=
  rfl

theorem run_append : l.run (ops ++ ops') = (l.run ops).run ops' :=
  List.foldl_append

@[simp] theorem apply_acquire : l.apply (.acquire r) = ⟨r :: l.held, l.stray⟩ :=
  rfl

theorem apply_release (h : r ∈ l.held) : l.apply (.release r) = ⟨l.held.erase r, l.stray⟩ :=
  if_pos h

theorem apply_release_stray (h : r ∉ l.held) : l.apply (.release r) = ⟨l.held, r :: l.stray⟩ :=
  if_neg h

/-- What has just been acquired can be released. -/
theorem apply_acquire_release : (l.apply (.acquire r)).apply (.release r) = l := by
  rw [apply_acquire, apply_release List.mem_cons_self, List.erase_cons_head]

theorem stray_of_apply (h : (l.apply op).stray = []) : l.stray = [] := by
  cases op with
  | acquire r => exact h
  | release r =>
    by_cases hr : r ∈ l.held
    · rwa [apply_release hr] at h
    · rw [apply_release_stray hr] at h
      exact absurd h (List.cons_ne_nil _ _)

/-- To acquire is not to release. -/
theorem stray_run_acquire (h : ∀ op ∈ ops, ∃ r, op = .acquire r) :
    (l.run ops).stray = l.stray := by
  induction ops generalizing l with
  | nil => rfl
  | cons op ops ih =>
    obtain ⟨r, rfl⟩ := h op List.mem_cons_self
    rw [run_cons, ih fun op' hop' => h op' (List.mem_cons_of_mem _ hop'), apply_acquire]

/-- What was acquired last is held. -/
theorem mem_run_append_acquire : r ∈ (l.run (ops ++ [.acquire r])).held := by
  rw [run_append]
  exact List.mem_cons_self

end Ledger
