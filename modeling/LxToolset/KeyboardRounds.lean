import Mathlib.Order.Bounds.Basic
import LxToolset.KeyboardCount

/-!
# The rounds of count_keys

The marks and `key_count` may be any here, so that a call may return early. `after` is what
some rounds leave as long as none of them does, `Reached` says in terms of the state before
the call that a round is run at all, and `countKeys_run` puts the two together.
-/

namespace LxToolset

open Keyboard

/-- The compiled entry. -/
def entry (x : KeyTable × ℕ) : KeyPoint :=
  ((Keyboard.initial.table x.1)[x.2]?).getD .blank

section Rounds

variable (buf : List UInt8) (kb : Keyboard)

/-- The keyboard and `buf1` after `i` rounds. -/
def after : ℕ → Option (Keyboard × List UInt8)
  | 0 => some (kb, List.replicate 18 0)
  | i + 1 => (after i).bind fun s => countKey buf i s.1 s.2

/-- The entries not marked before that the first `i` rounds look up. -/
def newKeys (i : ℕ) : Set (KeyTable × ℕ) :=
  {x ∈ lookups buf 0 i | kb.Fresh x}

/-- Round `i` is the first to look up `x`, which is not marked. -/
structure FirstAt (i : ℕ) (x : KeyTable × ℕ) : Prop where
  lookup : lookup buf i = some (some x)
  fresh : kb.Fresh x
  first : ∀ j < i, LxToolset.lookup buf j ≠ some (some x)

/-- The loop is not left before round `i` : the rounds before it leave `key_count` at
`KEYNUMS` or below. -/
def Reached (i : ℕ) : Prop :=
  i = 0 ∨ kb.keyCount + (newKeys buf kb i).ncard ≤ keyNums

/-- The lengths of the names that the first `i` rounds blank. -/
def nameLengths (i : ℕ) : Set ℕ :=
  {l | ∃ j < i, ∃ x, FirstAt buf kb j x ∧ (entry x).keyname.length = l}

/-- What `i` rounds leave : `buf1` holds as many blanks as the longest name so far has
characters, and that many are printed for each key. -/
structure After (i : ℕ) (s : Keyboard × List UInt8) : Prop where
  compiled : s.1.Compiled
  pressed : ∀ t c, s.1.Pressed t c ↔ kb.Pressed t c ∨ (t, c) ∈ newKeys buf kb i
  keyCount : s.1.keyCount = kb.keyCount + (newKeys buf kb i).ncard
  blanks : ∃ w, IsLUB (nameLengths buf kb i) w ∧
    s.2 = List.replicate w 0x20 ++ List.replicate (18 - w) 0
  printed : ∃ new, s.1.printed = kb.printed ++ new ∧ ∀ p, p ∈ new ↔
    ∃ j < i, ∃ x w, FirstAt buf kb j x ∧ IsLUB (nameLengths buf kb (j + 1)) w ∧
      p = ((entry x).row, (entry x).col, List.replicate w 0x20)

end Rounds

section Step

variable {buf : List UInt8} {kb : Keyboard} {i j : ℕ} {x : KeyTable × ℕ}

theorem lookups_snoc : lookups buf 0 (i + 1) =
    lookups buf 0 i ∪ {x | lookup buf i = some (some x)} := by
  ext x
  constructor
  · rintro ⟨j, h0, hj, hx⟩
    by_cases hji : j = i
    · subst hji
      exact .inr hx
    · exact .inl ⟨j, h0, by omega, hx⟩
  · rintro (⟨j, h0, hj, hx⟩ | hx)
    · exact ⟨j, h0, by omega, hx⟩
    · exact ⟨i, by omega, by omega, hx⟩

theorem lookups_finite (buf : List UInt8) (i : ℕ) : (lookups buf 0 i).Finite := by
  induction i with
  | zero =>
    refine Set.finite_empty.subset ?_
    rintro x ⟨j, -, hj, -⟩
    omega
  | succ i ih =>
    rw [lookups_snoc]
    refine ih.union (Set.Subsingleton.finite fun x hx y hy => ?_)
    exact Option.some.inj (Option.some.inj (hx.symm.trans hy))

theorem newKeys_finite (buf : List UInt8) (kb : Keyboard) (i : ℕ) : (newKeys buf kb i).Finite :=
  (lookups_finite buf i).subset fun _ hx => hx.1

theorem newKeys_zero : newKeys buf kb 0 = ∅ := by
  ext x
  simp only [newKeys, Set.mem_ofPred_eq, Set.mem_empty_iff_false, iff_false, not_and]
  rintro ⟨j, -, hj, -⟩
  omega

theorem newKeys_mono (h : i ≤ j) : newKeys buf kb i ⊆ newKeys buf kb j := by
  rintro x ⟨⟨k, h0, hk, hx⟩, hfresh⟩
  exact ⟨⟨k, h0, by omega, hx⟩, hfresh⟩

theorem Reached.mono (h : Reached buf kb j) (hij : i ≤ j) : Reached buf kb i := by
  rcases h with rfl | h
  · exact .inl (by omega)
  · have hle := Set.ncard_le_ncard (newKeys_mono hij) (newKeys_finite buf kb j)
    exact .inr (by omega)

/-- As long as `key_count` is the number of marks no call returns early : too few keys are
listed. -/
theorem reached_of_consistent (h : kb.Consistent) (i : ℕ) : Reached buf kb i := by
  have hlisted : (Keyboard.initial.entriesWith (·.isValid)).ncard = 79 := by
    rw [ncard_entriesWith]
    decide
  have hdisj : Disjoint kb.pressedSet (newKeys buf kb i) :=
    Set.disjoint_left.2 fun x hp hx => hx.2.2 hp
  have hsub : kb.pressedSet ∪ newKeys buf kb i ⊆ Keyboard.initial.entriesWith (·.isValid) := by
    rintro x (⟨k, hk, hp⟩ | hx)
    · exact ⟨_, h.compiled.released_getElem hk, h.listed _ k (List.mem_of_getElem? hk) hp⟩
    · exact hx.2.1
  have hle := Set.ncard_le_ncard hsub (entriesWith_finite _ _)
  rw [Set.ncard_union_eq hdisj (entriesWith_finite _ _) (newKeys_finite buf kb i), pressedSet,
    ncard_entriesWith, hlisted] at hle
  refine .inr ?_
  rw [h.count, pressedCount, keyNums]
  omega

theorem firstAt_iff : FirstAt buf kb i x ↔
    lookup buf i = some (some x) ∧ kb.Fresh x ∧ x ∉ newKeys buf kb i := by
  constructor
  · rintro ⟨hl, hfresh, hfirst⟩
    refine ⟨hl, hfresh, ?_⟩
    rintro ⟨⟨j, -, hj, hx⟩, -⟩
    exact hfirst j (by omega) hx
  · rintro ⟨hl, hfresh, hnot⟩
    exact ⟨hl, hfresh, fun j hj hx => hnot ⟨⟨j, by omega, by omega, hx⟩, hfresh⟩⟩

theorem FirstAt.newKeys_succ (h : FirstAt buf kb i x) :
    newKeys buf kb (i + 1) = insert x (newKeys buf kb i) := by
  ext y
  rw [Set.mem_insert_iff, newKeys, lookups_snoc, newKeys]
  constructor
  · rintro ⟨hy | hy, hfresh⟩
    · exact .inr ⟨hy, hfresh⟩
    · exact .inl (Option.some.inj (Option.some.inj (Eq.trans (Eq.symm hy) h.lookup)))
  · rintro (rfl | ⟨hy, hfresh⟩)
    · exact ⟨.inr h.lookup, h.fresh⟩
    · exact ⟨.inl hy, hfresh⟩

theorem newKeys_succ_of_not (h : ∀ x, ¬FirstAt buf kb i x) :
    newKeys buf kb (i + 1) = newKeys buf kb i := by
  refine Set.Subset.antisymm ?_ (newKeys_mono (Nat.le_succ i))
  intro y hy
  by_contra hnot
  rw [newKeys, lookups_snoc] at hy
  rcases hy with ⟨hold | hl, hfresh⟩
  · exact hnot ⟨hold, hfresh⟩
  · exact h y (firstAt_iff.2 ⟨hl, hfresh, hnot⟩)

theorem FirstAt.unique {y : KeyTable × ℕ} (h : FirstAt buf kb i x) (h' : FirstAt buf kb i y) :
    x = y :=
  Option.some.inj (Option.some.inj (h.lookup.symm.trans h'.lookup))

theorem FirstAt.nameLengths_succ (h : FirstAt buf kb i x) :
    nameLengths buf kb (i + 1) = insert (entry x).keyname.length (nameLengths buf kb i) := by
  ext l
  rw [Set.mem_insert_iff]
  constructor
  · rintro ⟨j, hj, y, hy, rfl⟩
    by_cases hji : j = i
    · subst hji
      exact .inl (by rw [h.unique hy])
    · exact .inr ⟨j, by omega, y, hy, rfl⟩
  · rintro (rfl | ⟨j, hj, hy⟩)
    · exact ⟨i, by omega, x, h, rfl⟩
    · exact ⟨j, by omega, hy⟩

theorem nameLengths_succ_of_not (h : ∀ x, ¬FirstAt buf kb i x) :
    nameLengths buf kb (i + 1) = nameLengths buf kb i := by
  ext l
  constructor
  · rintro ⟨j, hj, y, hy, rfl⟩
    have hji : j ≠ i := by
      rintro rfl
      exact h y hy
    exact ⟨j, by omega, y, hy, rfl⟩
  · rintro ⟨j, hj, hy⟩
    exact ⟨j, by omega, hy⟩

theorem Keyboard.Fresh.entry_eq (h : kb.Fresh x) :
    (Keyboard.initial.table x.1)[x.2]? = some (entry x) := by
  obtain ⟨k, hk, -⟩ := h.1
  rw [entry, hk, Option.getD_some]

theorem length_entry_le (h : kb.Fresh x) : (entry x).keyname.length ≤ 18 :=
  consistent_initial.compiled.length_keyname h.entry_eq

theorem le_of_isLUB_nameLengths {w : ℕ} (h : IsLUB (nameLengths buf kb i) w) : w ≤ 18 := by
  refine h.2 ?_
  rintro l ⟨j, -, x, hx, rfl⟩
  exact length_entry_le hx.fresh

theorem after_zero (buf : List UInt8) (h : kb.Compiled) :
    After buf kb 0 (kb, List.replicate 18 0) where
  compiled := h
  pressed t c := by simp [newKeys_zero]
  keyCount := by simp [newKeys_zero]
  blanks := by
    refine ⟨0, ⟨?_, fun w _ => Nat.zero_le w⟩, rfl⟩
    rintro l ⟨j, hj, -⟩
    omega
  printed := ⟨[], by simp, by simp⟩

/-- The entry that a round looks up is fresh where the round is its first. -/
theorem After.fresh_iff {s : Keyboard × List UInt8} (hs : After buf kb i s)
    (hl : lookup buf i = some (some x)) : s.1.Fresh x ↔ FirstAt buf kb i x := by
  rw [firstAt_iff, Fresh, Fresh, hs.pressed]
  tauto

/-- Blanks over a buffer that begins with blanks. -/
theorem blanks_fill {l w : ℕ} (hl : l ≤ 18) (hw : w ≤ 18) :
    List.replicate l (0x20 : UInt8) ++
      (List.replicate w (0x20 : UInt8) ++ List.replicate (18 - w) 0).drop l =
    List.replicate (max l w) 0x20 ++ List.replicate (18 - max l w) 0 := by
  rw [List.drop_append, List.drop_replicate, List.drop_replicate, List.length_replicate,
    ← List.append_assoc, List.replicate_append_replicate, show l + (w - l) = max l w by omega,
    show 18 - w - (l - w) = 18 - max l w by omega]

theorem takeWhile_blanks (w n : ℕ) :
    (List.replicate w (0x20 : UInt8) ++ List.replicate n 0).takeWhile (· ≠ 0) =
      List.replicate w 0x20 := by
  rw [List.takeWhile_append_of_pos (by simp)]
  simp

theorem After.of_first {s : Keyboard × List UInt8} (hs : After buf kb i s)
    (hx : FirstAt buf kb i x) :
    ∃ s', countKey buf i s.1 s.2 = some s' ∧ After buf kb (i + 1) s' := by
  obtain ⟨w, hw, hblanks⟩ := hs.blanks
  obtain ⟨new, hprinted, hnew⟩ := hs.printed
  have hw18 := le_of_isLUB_nameLengths hw
  have hlub : IsLUB (nameLengths buf kb (i + 1)) (max (entry x).keyname.length w) := by
    rw [hx.nameLengths_succ]
    exact hw.insert _
  rcases countKey_of_some hx.lookup with ⟨t, c, he, hlt, hkey⟩ | ⟨he, -⟩
  swap
  · exact absurd he (by simp)
  obtain rfl := Option.some.inj he
  have hlen : s.2.length = 18 := by
    rw [hblanks]
    simp
    omega
  rcases markKey_cases hs.compiled hlen hx.fresh.entry_eq with
    ⟨-, kb', buf1', hmark, hbuf1, hprint, hm⟩ | ⟨hnot, -⟩
  swap
  · exact absurd ((hs.fresh_iff hx.lookup).2 hx) hnot
  rw [hblanks, blanks_fill (length_entry_le hx.fresh) hw18] at hbuf1
  rw [hbuf1, takeWhile_blanks] at hprint
  refine ⟨(kb', buf1'), (hkey _ _).trans hmark, hm.compiled, fun t' c' => ?_, ?_,
    ⟨_, hlub, hbuf1⟩, new ++ [_], by rw [hprint, hprinted, List.append_assoc], fun p => ?_⟩
  · rw [hm.pressed, hs.pressed, hx.newKeys_succ, Set.mem_insert_iff]
    tauto
  · rw [hm.keyCount, hs.keyCount, hx.newKeys_succ,
      Set.ncard_insert_of_notMem (firstAt_iff.1 hx).2.2 (newKeys_finite buf kb i), Nat.add_assoc]
  · rw [List.mem_append, List.mem_singleton, hnew]
    constructor
    · rintro (⟨j, hj, y, v, hy⟩ | rfl)
      · exact ⟨j, by omega, y, v, hy⟩
      · exact ⟨i, by omega, _, _, hx, hlub, rfl⟩
    · rintro ⟨j, hj, y, v, hy, hv, rfl⟩
      by_cases hji : j = i
      · subst hji
        obtain rfl := hx.unique hy
        exact .inr (by rw [hv.unique hlub])
      · exact .inl ⟨j, by omega, y, v, hy, hv, rfl⟩

theorem After.of_not {s : Keyboard × List UInt8} (hs : After buf kb i s)
    {e : Option (KeyTable × ℕ)} (hl : lookup buf i = some e) (hx : ∀ x, ¬FirstAt buf kb i x) :
    countKey buf i s.1 s.2 = some s ∧ After buf kb (i + 1) s := by
  obtain ⟨w, hw, hblanks⟩ := hs.blanks
  obtain ⟨new, hprinted, hnew⟩ := hs.printed
  refine ⟨?_, hs.compiled, fun t c => ?_, ?_, ⟨w, ?_, hblanks⟩, new, hprinted, fun p => ?_⟩
  · rcases countKey_of_some hl with ⟨t, c, rfl, hlt, hkey⟩ | ⟨rfl, hkey⟩
    · obtain ⟨k, hk⟩ := exists_entry t hlt
      have hlen : s.2.length = 18 := by
        have := le_of_isLUB_nameLengths hw
        rw [hblanks]
        simp
        omega
      rcases markKey_cases hs.compiled hlen hk with ⟨hfresh, -⟩ | ⟨-, hmark⟩
      · exact absurd ((hs.fresh_iff hl).1 hfresh) (hx _)
      · exact (hkey _ _).trans hmark
    · exact hkey _ _
  · rw [hs.pressed, newKeys_succ_of_not hx]
  · rw [hs.keyCount, newKeys_succ_of_not hx]
  · rwa [nameLengths_succ_of_not hx]
  · rw [hnew]
    constructor
    · rintro ⟨j, hj, y, v, hy⟩
      exact ⟨j, by omega, y, v, hy⟩
    · rintro ⟨j, hj, y, v, hy, hp⟩
      have hji : j ≠ i := by
        rintro rfl
        exact hx y hy
      exact ⟨j, by omega, y, v, hy, hp⟩

/-- A round that is defined leaves what the next finds. -/
theorem After.succ {s : Keyboard × List UInt8} (hs : After buf kb i s)
    {e : Option (KeyTable × ℕ)} (hl : lookup buf i = some e) :
    ∃ s', countKey buf i s.1 s.2 = some s' ∧ After buf kb (i + 1) s' := by
  by_cases hfirst : ∃ x, FirstAt buf kb i x
  · obtain ⟨x, hx⟩ := hfirst
    exact hs.of_first hx
  · exact ⟨s, hs.of_not hl (not_exists.1 hfirst)⟩

theorem After.reached_succ {s : Keyboard × List UInt8} (hs : After buf kb (i + 1) s) :
    Reached buf kb (i + 1) ↔ s.1.keyCount ≤ keyNums := by
  rw [hs.keyCount]
  exact or_iff_right (Nat.succ_ne_zero i)

/-- The loop from round `i` : it ends after round `m`, or in a round that is undefined. -/
theorem countLoop_run {s : Keyboard × List UInt8} (left : ℕ) (hs : After buf kb i s)
    (hr : Reached buf kb i) :
    (∃ m s', i ≤ m ∧ After buf kb m s' ∧ countLoop buf left i s.1 s.2 = some s'.1 ∧
      ∀ j, i ≤ j → (j < m ↔ j < i + left ∧ Reached buf kb j) ∧ (j < m → lookup buf j ≠ none)) ∨
    (∃ j, i ≤ j ∧ j < i + left ∧ Reached buf kb j ∧ lookup buf j = none ∧
      countLoop buf left i s.1 s.2 = none) := by
  induction left generalizing i s with
  | zero => exact .inl ⟨i, s, le_rfl, hs, rfl, fun j hj => by omega⟩
  | succ left ih =>
    cases hl : lookup buf i with
    | none =>
      refine .inr ⟨i, le_rfl, by omega, hr, hl, ?_⟩
      simp [countLoop, countKey_of_none hs.compiled hl]
    | some e =>
      obtain ⟨s₁, hkey, hs₁⟩ := hs.succ hl
      have hi : lookup buf i ≠ none := by simp [hl]
      by_cases hgt : keyNums < s₁.1.keyCount
      · refine .inl ⟨i + 1, s₁, by omega, hs₁, by simp [countLoop, hkey, hgt],
          fun j hj => ⟨⟨fun hlt => ?_, fun hlt => ?_⟩, fun hlt => ?_⟩⟩
        · obtain rfl : j = i := by omega
          exact ⟨by omega, hr⟩
        · by_contra hge
          have hle := hs₁.reached_succ.1 (hlt.2.mono (by omega))
          omega
        · obtain rfl : j = i := by omega
          exact hi
      · have hloop : countLoop buf (left + 1) i s.1 s.2 = countLoop buf left (i + 1) s₁.1 s₁.2 := by
          simp [countLoop, hkey, hgt]
        have hr₁ := hs₁.reached_succ.2 (Nat.le_of_not_lt hgt)
        rw [hloop]
        rcases ih hs₁ hr₁ with ⟨m, s', hm, hs', hrun, hrounds⟩ | ⟨j, hij, hj, hrj, hnone, hrun⟩
        · refine .inl ⟨m, s', by omega, hs', hrun, fun j hj => ?_⟩
          rcases Nat.eq_or_lt_of_le hj with rfl | hlt
          · exact ⟨iff_of_true (by omega) ⟨by omega, hr⟩, fun _ => hi⟩
          · rw [show i + (left + 1) = i + 1 + left by omega]
            exact hrounds j hlt
        · exact .inr ⟨j, by omega, by omega, hrj, hnone, hrun⟩

/-- A call from any marks runs the rounds that are reached, if they are defined. -/
theorem countKeys_run (buf : List UInt8) (n : ℤ) (h : kb.Compiled) :
    (∃ m s', After buf kb m s' ∧ countKeys buf n kb = some s'.1 ∧
      ∀ j, (j < m ↔ j < n.toNat ∧ Reached buf kb j) ∧ (j < m → lookup buf j ≠ none)) ∨
    (∃ j < n.toNat, Reached buf kb j ∧ lookup buf j = none ∧ countKeys buf n kb = none) := by
  rcases countLoop_run n.toNat (after_zero buf h) (.inl rfl) with
    ⟨m, s', -, hs', hrun, hrounds⟩ | ⟨j, -, hj, hrj, hnone, hrun⟩
  · refine .inl ⟨m, s', hs', hrun, fun j => ?_⟩
    simpa using hrounds j (Nat.zero_le j)
  · exact .inr ⟨j, by omega, hrj, hnone, hrun⟩

end Step

end LxToolset
