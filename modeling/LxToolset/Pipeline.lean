import Mathlib.Data.List.Basic
import Mathlib.Data.Option.Basic
import LxToolset.Machine

/-!
# A capture pipeline

Items are captured one at a time into the producer's hand, put at the back of a
queue, taken from its front into the consumer's hand, and sent. `Pipe.Conserved` :
what was captured is what was sent, then the consumer's hand, the queue and the
producer's hand, in this order. Every run keeps it (`Pipe.conserved_of_reach`), so
the sent items are always a prefix of the captured ones
(`Pipe.sent_prefix_captured`).
-/

/-- A pipeline of items of type `α`. -/
@[ext]
structure Pipe (α : Type*) where
  /-- Every item captured so far. -/
  captured : List α
  /-- The producer's hand. -/
  filled : Option α
  /-- Items handed over and not yet taken, oldest first. -/
  queue : List α
  /-- The consumer's hand. -/
  taken : Option α
  /-- Every item sent so far. -/
  sent : List α

namespace Pipe

variable {α : Type*}

/-- What the pipeline can do. -/
inductive Act (α : Type*) where
  | capture (a : α)
  | put
  | take
  | send

/-- A step is blocked when the hand it fills is full or the place it empties is empty. -/
def step (p : Pipe α) : Act α → Option (Pipe α)
  | .capture a =>
    match p.filled with
    | none => some { p with captured := p.captured ++ [a], filled := some a }
    | some _ => none
  | .put =>
    match p.filled with
    | some a => some { p with filled := none, queue := p.queue ++ [a] }
    | none => none
  | .take =>
    match p.taken, p.queue with
    | none, a :: q => some { p with queue := q, taken := some a }
    | _, _ => none
  | .send =>
    match p.taken with
    | some a => some { p with taken := none, sent := p.sent ++ [a] }
    | none => none

/-- The empty pipeline and its steps. -/
def machine (α : Type*) : Machine (Pipe α) (Act α) where
  init p := p = ⟨[], none, [], none, []⟩
  step := step

/-- No item is lost, duplicated, altered or reordered. -/
def Conserved (p : Pipe α) : Prop :=
  p.captured = p.sent ++ p.taken.toList ++ p.queue ++ p.filled.toList

theorem Conserved.step {p q : Pipe α} {a : Act α} (h : p.Conserved) (hs : p.step a = some q) :
    q.Conserved := by
  obtain ⟨captured, filled, queue, taken, sent⟩ := p
  simp only [Conserved] at h
  subst h
  cases a with
  | capture a => cases filled <;> cases hs; simp [Conserved]
  | put => cases filled <;> cases hs; simp [Conserved]
  | take => cases taken <;> cases queue <;> cases hs; simp [Conserved]
  | send => cases taken <;> cases hs; simp [Conserved]

theorem conserved_of_reach {p : Pipe α} (h : (machine α).Reach Machine.free p) :
    p.Conserved := by
  refine h.invariant (fun q hi => ?_) fun _ _ _ hq _ hs => hq.step hs
  obtain rfl : q = _ := hi
  rfl

/-- Sent is a prefix of captured, whatever the order of the steps. -/
theorem sent_prefix_captured {p : Pipe α} (h : (machine α).Reach Machine.free p) :
    p.sent <+: p.captured := by
  rw [conserved_of_reach h, List.append_assoc, List.append_assoc]
  exact List.prefix_append _ _

end Pipe
