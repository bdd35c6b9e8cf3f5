import Mathlib.Data.List.Basic

/-!
# Frames of stateful code

`Keeps f m` says that the computation `m` leaves the part `f` of the state as it is. It is
closed under sequencing, branches and loops, so that code which never touches `f` is shown
to keep it along its text.
-/

namespace Frame

variable {σ α β γ : Type}

def Keeps (f : σ → γ) (m : StateM σ α) : Prop :=
  ∀ s, f (m.run s).2 = f s

variable {f : σ → γ}

theorem Keeps.pure (a : α) : Keeps f (Pure.pure a : StateM σ α) :=
  fun _ => rfl

theorem Keeps.bind {m : StateM σ α} {k : α → StateM σ β} (hm : Keeps f m)
    (hk : ∀ a, Keeps f (k a)) : Keeps f (m >>= k) := by
  intro s
  rw [StateT.run_bind]
  exact (hk _ _).trans (hm s)

theorem Keeps.modify {g : σ → σ} (h : ∀ s, f (g s) = f s) : Keeps f (modify g : StateM σ PUnit) :=
  h

theorem Keeps.ite {p : Prop} [Decidable p] {m m' : StateM σ α} (h : Keeps f m)
    (h' : Keeps f m') : Keeps f (if p then m else m') := by
  split
  · exact h
  · exact h'

theorem Keeps.forM {k : α → StateM σ PUnit} (hk : ∀ a, Keeps f (k a)) (as : List α) :
    Keeps f (as.forM k) := by
  induction as with
  | nil => exact Keeps.pure _
  | cons a as ih => exact Keeps.bind (hk a) fun _ => ih

end Frame
