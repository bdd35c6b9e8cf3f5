import Mathlib.Data.Set.Card
import LxToolset.KeyboardTest

/-!
# The count of count_keys

Over any calls of `count_keys`, `key_count` is the number of entries marked, and grows by
the number of entries that were not (`countCalls_counts`).
-/

namespace LxToolset

open Keyboard

/-- The positions of a list with this property. -/
def positions {α : Type*} (l : List α) (p : α → Bool) : Set ℕ :=
  {c | ∃ a, l[c]? = some a ∧ p a = true}

theorem positions_cons {α : Type*} (a : α) (l : List α) (p : α → Bool) :
    positions (a :: l) p = (if p a then {0} else ∅) ∪ Nat.succ '' positions l p := by
  ext c
  cases c <;> by_cases ha : p a = true <;> simp [positions, ha]

theorem positions_finite {α : Type*} (l : List α) (p : α → Bool) : (positions l p).Finite := by
  induction l with
  | nil => simp [positions]
  | cons a l ih =>
    rw [positions_cons]
    exact Set.Finite.union (by split_ifs <;> simp) (ih.image _)

theorem ncard_positions {α : Type*} (l : List α) (p : α → Bool) :
    (positions l p).ncard = l.countP p := by
  induction l with
  | nil => simp [positions]
  | cons a l ih =>
    have hcard := Set.ncard_image_of_injective (positions l p) Nat.succ_injective
    rw [positions_cons, List.countP_cons, ← ih, ← hcard]
    by_cases ha : p a = true
    · simp only [ha, if_true]
      rw [Set.singleton_union,
        Set.ncard_insert_of_notMem (by simp) ((positions_finite l p).image _)]
    · simp [ha]

namespace Keyboard

variable {kb kb' : Keyboard}

/-- The entries of both tables with this property. -/
def entriesWith (kb : Keyboard) (p : KeyPoint → Bool) : Set (KeyTable × ℕ) :=
  {x | ∃ k, (kb.table x.1)[x.2]? = some k ∧ p k = true}

/-- The entries marked. -/
def pressedSet (kb : Keyboard) : Set (KeyTable × ℕ) :=
  kb.entriesWith (·.isPressed)

theorem entriesWith_eq (kb : Keyboard) (p : KeyPoint → Bool) : kb.entriesWith p =
    Prod.mk .plain '' positions kb.keys p ∪ Prod.mk .e0 '' positions kb.e0Keys p := by
  ext ⟨t, c⟩
  cases t <;> simp [entriesWith, positions, table]

theorem entriesWith_finite (kb : Keyboard) (p : KeyPoint → Bool) : (kb.entriesWith p).Finite := by
  rw [entriesWith_eq]
  exact ((positions_finite _ p).image _).union ((positions_finite _ p).image _)

theorem ncard_entriesWith (kb : Keyboard) (p : KeyPoint → Bool) :
    (kb.entriesWith p).ncard = kb.keys.countP p + kb.e0Keys.countP p := by
  have hdisj : Disjoint (Prod.mk KeyTable.plain '' positions kb.keys p)
      (Prod.mk KeyTable.e0 '' positions kb.e0Keys p) := by
    rw [Set.disjoint_left]
    rintro _ ⟨c, -, rfl⟩ ⟨c', -, h⟩
    simp at h
  rw [entriesWith_eq, Set.ncard_union_eq hdisj ((positions_finite _ p).image _)
    ((positions_finite _ p).image _), Set.ncard_image_of_injective _ (Prod.mk_right_injective _),
    Set.ncard_image_of_injective _ (Prod.mk_right_injective _), ncard_positions, ncard_positions]

/-- What a set of entries adds to the count. -/
theorem Marked.keyCount_eq {S : Set (KeyTable × ℕ)} (h : Marked kb kb' S) (hkb : kb.Consistent) :
    kb'.keyCount = kb.keyCount + (kb'.pressedSet \ kb.pressedSet).ncard := by
  have hsub : kb.pressedSet ⊆ kb'.pressedSet := fun x hx => (h.2 x.1 x.2).2 (.inl hx)
  rw [h.1.count, hkb.count, pressedCount, pressedCount, ← ncard_entriesWith, ← ncard_entriesWith,
    Nat.add_comm]
  exact (Set.ncard_sdiff_add_ncard_of_subset hsub (entriesWith_finite _ _)).symm

end Keyboard

/-- `key_count` is the number of marks, which are on listed entries and stay, and counts
each entry once. -/
theorem countCalls_counts {vs vs' : List (List UInt8 × ℤ)} {kb kb' : Keyboard}
    (h : countCalls .initial vs = some kb) (h' : countCalls kb vs' = some kb') :
    kb.keyCount = kb.pressedCount ∧
    (∀ t, ∀ k ∈ kb.table t, k.isPressed = true → k.isValid = true) ∧
    (∀ t c, kb.Pressed t c → kb'.Pressed t c) ∧
    kb.keyCount ≤ kb'.keyCount ∧
    kb'.keyCount = kb.keyCount + (kb'.pressedSet \ kb.pressedSet).ncard := by
  have hkb : kb.Consistent := by
    rcases countCalls_outcome vs consistent_initial with ⟨-, kb₁, h₁, hm⟩ | ⟨-, hnone⟩
    · exact Option.some.inj (h₁.symm.trans h) ▸ hm.1
    · exact absurd (hnone.symm.trans h) (by simp)
  obtain ⟨S, hm⟩ : ∃ S, Marked kb kb' S := by
    rcases countCalls_outcome vs' hkb with ⟨-, kb₁, h₁, hm⟩ | ⟨-, hnone⟩
    · exact ⟨_, Option.some.inj (h₁.symm.trans h') ▸ hm⟩
    · exact absurd (hnone.symm.trans h') (by simp)
  have hcount := hm.keyCount_eq hkb
  exact ⟨hkb.count, hkb.listed, fun t c hp => (hm.2 t c).2 (.inl hp),
    hcount ▸ Nat.le_add_right _ _, hcount⟩

/-- The make and break codes of A, and A again with B. -/
theorem countCalls_counts_ab : ∃ kb kb', countCalls .initial [([0x1e, 0x9e], 2)] = some kb ∧
    countCalls kb [([0x1e, 0x30], 2)] = some kb' ∧ kb.keyCount = kb.pressedCount ∧
    kb'.keyCount = kb.keyCount + (kb'.pressedSet \ kb.pressedSet).ncard := by
  obtain ⟨kb, h⟩ := Option.isSome_iff_exists.1
    (show (countCalls .initial [([0x1e, 0x9e], 2)]).isSome = true by decide)
  obtain ⟨kb', h'⟩ : ∃ kb', countCalls kb [([0x1e, 0x30], 2)] = some kb' := by
    have hboth : (countCalls .initial [([0x1e, 0x9e], 2)]).bind
        (countCalls · [([0x1e, 0x30], 2)]) ≠ none := by decide
    rw [h, Option.bind_some] at hboth
    exact Option.ne_none_iff_exists'.1 hboth
  have hcounts := countCalls_counts h h'
  exact ⟨kb, kb', h, h', hcounts.1, hcounts.2.2.2.2⟩

end LxToolset
