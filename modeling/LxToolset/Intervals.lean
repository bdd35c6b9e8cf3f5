import Mathlib.Data.List.Basic
import Mathlib.Order.Lattice

/-!
# Lists of intervals

Intervals `[a, b)` in increasing order that do not touch (`Apart`), as sets of points (`Mem`). What
is before all intervals is in none of them (`lt_of_mem`), and a list of apart intervals stays one if
the first of them loses its beginning (`apart_trim`).
-/

namespace Intervals

variable {α : Type*} [LinearOrder α]

/-- The points of the intervals. -/
def Mem (x : α) (l : List (α × α)) : Prop :=
  ∃ i ∈ l, i.1 ≤ x ∧ x < i.2

/-- Intervals that are not empty, each before the next one with a gap between them. -/
def Apart (l : List (α × α)) : Prop :=
  (∀ i ∈ l, i.1 < i.2) ∧ l.Pairwise fun i j => i.2 < j.1

/-- An interval lies in one of the list. -/
def Inside (u : α × α) (l : List (α × α)) : Prop :=
  ∃ i ∈ l, i.1 ≤ u.1 ∧ u.2 ≤ i.2

variable {x a b c : α} {i u : α × α} {l l' : List (α × α)}

theorem not_mem_nil : ¬ Mem x [] := by
  rintro ⟨i, hi, -⟩
  exact List.not_mem_nil hi

theorem mem_cons : Mem x (i :: l) ↔ (i.1 ≤ x ∧ x < i.2) ∨ Mem x l := by
  simp [Mem]

theorem mem_append : Mem x (l ++ l') ↔ Mem x l ∨ Mem x l' := by
  simp only [Mem, List.mem_append, or_and_right, exists_or]

theorem apart_nil : Apart ([] : List (α × α)) :=
  ⟨fun _ hi => absurd hi List.not_mem_nil, List.Pairwise.nil⟩

theorem apart_cons : Apart (i :: l) ↔ i.1 < i.2 ∧ (∀ j ∈ l, i.2 < j.1) ∧ Apart l := by
  rw [Apart, Apart, List.forall_mem_cons, List.pairwise_cons]
  constructor
  · rintro ⟨⟨hi, hl⟩, hlt, hpair⟩
    exact ⟨hi, hlt, hl, hpair⟩
  · rintro ⟨hi, hlt, hl, hpair⟩
    exact ⟨⟨hi, hl⟩, hlt, hpair⟩

theorem lt_of_mem (h : ∀ j ∈ l, a < j.1) (hx : Mem x l) : a < x := by
  obtain ⟨j, hj, hle, -⟩ := hx
  exact (h j hj).trans_le hle

/-- The first interval loses its beginning. -/
theorem apart_trim (h : Apart ((a, b) :: l)) (hc : c < b) : Apart ((c, b) :: l) := by
  obtain ⟨-, hlt, hl⟩ := apart_cons.1 h
  exact apart_cons.2 ⟨hc, hlt, hl⟩

theorem apart_append : Apart (l ++ l') ↔
    Apart l ∧ Apart l' ∧ ∀ i ∈ l, ∀ j ∈ l', i.2 < j.1 := by
  simp only [Apart, List.pairwise_append, List.mem_append, or_imp, forall_and]
  constructor
  · rintro ⟨⟨hl, hl'⟩, hpair, hpair', hcross⟩
    exact ⟨⟨hl, hpair⟩, ⟨hl', hpair'⟩, hcross⟩
  · rintro ⟨⟨hl, hpair⟩, ⟨hl', hpair'⟩, hcross⟩
    exact ⟨⟨hl, hl'⟩, hpair, hpair', hcross⟩

/-! ## Differences -/

/-- `d` has the points of `l` that are not in `m`, and its ends are ends of these. -/
structure Difference (l m d : List (α × α)) : Prop where
  apart : Apart d
  mem : ∀ x, Mem x d ↔ Mem x l ∧ ¬ Mem x m
  ends : ∀ p : α → Prop, (∀ i ∈ l, p i.1 ∧ p i.2) → (∀ i ∈ m, p i.1 ∧ p i.2) →
    ∀ i ∈ d, p i.1 ∧ p i.2

theorem difference_nil (h : Apart l) : Difference l [] l :=
  ⟨h, fun x => by simp [not_mem_nil], fun _ hl _ => hl⟩

/-- What is left of the interval `(a, b)` in front of `u`. -/
def before (a : α) (u : α × α) : List (α × α) :=
  if a < u.1 then [(a, u.1)] else []

/-- What is left of it behind `u`. -/
def behind (u : α × α) (b : α) (l : List (α × α)) : List (α × α) :=
  if u.2 = b then l else (u.2, b) :: l

theorem mem_before : Mem x (before a u) ↔ a ≤ x ∧ x < u.1 := by
  rw [before]
  split_ifs with h
  · simp [Mem]
  · exact iff_of_false not_mem_nil fun hx => h (hx.1.trans_lt hx.2)

theorem mem_behind : Mem x (behind u b l) ↔ (u.2 ≤ x ∧ x < b) ∨ Mem x l := by
  rw [behind]
  split_ifs with h
  · exact ⟨Or.inr, fun hx => hx.resolve_left fun hin => absurd (h ▸ hin.1) (not_le.2 hin.2)⟩
  · exact mem_cons

theorem apart_behind (h : Apart ((a, b) :: l)) (hu : u.2 ≤ b) : Apart (behind u b l) := by
  rw [behind]
  split_ifs with hb
  · exact (apart_cons.1 h).2.2
  · exact apart_trim h (lt_of_le_of_ne hu hb)

variable {front rest us d : List (α × α)}

/-- The next interval to subtract lies in `(a, b)`, behind the intervals of `front`. -/
theorem Difference.step (hl : Apart (front ++ (a, b) :: rest)) (hm : Apart (u :: us))
    (hfront : ∀ i ∈ front, i.2 < u.1) (ha : a ≤ u.1) (hb : u.2 ≤ b)
    (h : Difference (behind u b rest) us d) :
    Difference (front ++ (a, b) :: rest) (u :: us) (front ++ before a u ++ d) := by
  obtain ⟨hapart, hab, hcross⟩ := apart_append.1 hl
  obtain ⟨hlt, hrest, -⟩ := apart_cons.1 hab
  obtain ⟨hu, hus, husapart⟩ := apart_cons.1 hm
  have hends := h.ends (u.2 ≤ ·) (fun i hi => by
      rw [behind] at hi
      have hbehind : ∀ i ∈ (u.2, b) :: rest, u.2 ≤ i.1 ∧ u.2 ≤ i.2 := by
        refine List.forall_mem_cons.2 ⟨⟨le_rfl, hb⟩, fun j hj => ?_⟩
        have hlow := hb.trans (hrest j hj).le
        exact ⟨hlow, hlow.trans ((apart_cons.1 hab).2.2.1 j hj).le⟩
      split_ifs at hi
      · exact hbehind i (List.mem_cons_of_mem _ hi)
      · exact hbehind i hi)
    (fun i hi => ⟨(hus i hi).le, (hus i hi).le.trans (husapart.1 i hi).le⟩)
  refine ⟨?_, fun x => ?_, fun p hpl hpm i hi => ?_⟩
  · refine apart_append.2 ⟨apart_append.2 ⟨hapart, ?_, ?_⟩, h.apart, ?_⟩
    · rw [before]
      split_ifs with hau
      · exact apart_cons.2 ⟨hau, by simp, apart_nil⟩
      · exact apart_nil
    · intro i hi j hj
      rw [before] at hj
      split_ifs at hj
      · rw [List.mem_singleton.1 hj]
        exact hcross i hi (a, b) List.mem_cons_self
      · exact absurd hj List.not_mem_nil
    · intro i hi j hj
      have hj' := hu.trans_le (hends j hj).1
      rcases List.mem_append.1 hi with hi | hi
      · exact (hfront i hi).trans hj'
      · rw [before] at hi
        split_ifs at hi
        · rwa [List.mem_singleton.1 hi]
        · exact absurd hi List.not_mem_nil
  · have hF : Mem x front → x < u.1 := by
      rintro ⟨i, hi, -, hx⟩
      exact hx.trans (hfront i hi)
    have hR : Mem x rest → b < x := lt_of_mem hrest
    have hU : Mem x us → u.2 < x := lt_of_mem hus
    rw [mem_append, mem_append, mem_append, mem_cons, mem_cons, mem_before, h.mem, mem_behind]
    grind
  · rcases List.mem_append.1 hi with hi | hi
    · rcases List.mem_append.1 hi with hi | hi
      · exact hpl i (List.mem_append_left _ hi)
      · rw [before] at hi
        split_ifs at hi
        · rw [List.mem_singleton.1 hi]
          exact ⟨(hpl _ (List.mem_append_right _ List.mem_cons_self)).1,
            (hpm _ List.mem_cons_self).1⟩
        · exact absurd hi List.not_mem_nil
    · refine h.ends p (fun j hj => ?_) (fun j hj => hpm j (List.mem_cons_of_mem _ hj)) i hi
      have hin : ∀ j ∈ (u.2, b) :: rest, p j.1 ∧ p j.2 := by
        refine List.forall_mem_cons.2 ⟨⟨(hpm _ List.mem_cons_self).2,
          (hpl _ (List.mem_append_right _ List.mem_cons_self)).2⟩, fun j hj => ?_⟩
        exact hpl j (List.mem_append_right _ (List.mem_cons_of_mem _ hj))
      rw [behind] at hj
      split_ifs at hj
      · exact hin j (List.mem_cons_of_mem _ hj)
      · exact hin j hj

end Intervals
