import LxToolset.KeyboardDecode

/-!
# PASS

`main` reports PASS when `key_count` reaches `KEYNUMS`, which is 80. The tables list 79
keys : F12 was taken out of the list, and `KEYNUMS` was kept. So no run reports PASS
(`mainLoop_eq_feed`), whichever keys work.
-/

namespace LxToolset

open Keyboard

variable {buf : List UInt8} {kb : Keyboard} {rs : List (Option (List UInt8))}

/-- `main` never stops reading. -/
theorem mainLoop_eq_feed (h : kb.Consistent) :
    mainLoop buf kb rs = (feed buf kb rs).map fun kb => (false, kb) := by
  induction rs generalizing buf kb with
  | nil => rfl
  | cons r rs ih =>
    rcases countKeys_outcome (readBuf buf r).1 (readBuf buf r).2 h with
      ⟨-, kb', hkb', hm⟩ | ⟨-, hnone⟩
    · have hlt : ¬keyNums ≤ kb'.keyCount := by
        have := hm.1.keyCount_le
        unfold keyNums
        omega
      simp [mainLoop, feed, hkb', hlt, ih hm.1]
    · simp [mainLoop, feed, hnone]

/-- The bytes delivered, each with the one in front of it. -/
def withPrev (bytes : List UInt8) : List (UInt8 × UInt8) :=
  (0 :: bytes).zip bytes

/-- The make code of entry `c` is among the bytes : a code of `e0_keys` comes behind `e0`, one
of `keys` does not. -/
def Delivered (bytes : List UInt8) : KeyTable → ℕ → Prop
  | .plain, c => ∃ x ∈ withPrev bytes, x.1 ≠ 0xe0 ∧ x.2.toNat = c
  | .e0, c => ∃ x ∈ withPrev bytes, x.1 = 0xe0 ∧ x.2.toNat = c

instance (bytes : List UInt8) (c : ℕ) : (t : KeyTable) → Decidable (Delivered bytes t c)
  | .plain => inferInstanceAs (Decidable (∃ x ∈ withPrev bytes, x.1 ≠ 0xe0 ∧ x.2.toNat = c))
  | .e0 => inferInstanceAs (Decidable (∃ x ∈ withPrev bytes, x.1 = 0xe0 ∧ x.2.toNat = c))

/-- Every listed key works : what `read` delivers holds the make code of each. -/
def AllMade (rs : List (Option (List UInt8))) : Prop :=
  ∀ t c, Listed t c → Delivered (rs.flatMap (·.getD [])) t c

/-- `pass` says whether every listed entry is marked, and whether every listed key works. -/
structure PassIsRight (pass : Bool) (kb : Keyboard) (rs : List (Option (List UInt8))) : Prop where
  marked : pass = true ↔ ∀ t c, Listed t c → kb.Pressed t c
  works : AllMade rs → pass = true
  dead : ¬AllMade rs → pass = false

theorem listed_ralt : Listed .e0 0x38 :=
  ⟨.key "RAlt" 18 50, by decide, rfl⟩

/-- On every run without an undefined access, PASS is right exactly when some listed key
does not work. -/
theorem passIsRight_iff (hbuf : buf.length = 18)
    (hle : ∀ chunk, some chunk ∈ rs → chunk.length ≤ 18) {pass : Bool}
    (hrun : mainLoop buf .initial rs = some (pass, kb)) :
    PassIsRight pass kb rs ↔ ¬AllMade rs := by
  rw [mainLoop_eq_feed consistent_initial, Option.map_eq_some_iff] at hrun
  obtain ⟨kb, hfeed, heq⟩ := hrun
  cases heq
  have hd : ∀ v ∈ views buf rs, Defined v.1 0 v.2.toNat := by
    rcases feed_outcome buf rs consistent_initial with ⟨hd, -⟩ | ⟨-, hnone⟩
    · exact hd
    · rw [hfeed] at hnone
      cases hnone
  have hralt : ¬kb.Pressed .e0 0x38 := not_pressed_e0 hbuf hle hd (pressed_of_feed hfeed).2
  constructor
  · exact fun h hall => absurd (h.works hall) (by decide)
  · intro hdead
    exact ⟨⟨fun h => absurd h (by decide), fun h => absurd (h .e0 0x38 listed_ralt) hralt⟩,
      fun h => absurd h hdead, fun _ => rfl⟩

/-- The codes a table lists. -/
def listedCodes (t : KeyTable) : List ℕ :=
  (List.range 128).filter fun c => ((Keyboard.initial.table t)[c]?).any (·.isValid)

theorem Listed.lt {t : KeyTable} {c : ℕ} (h : Listed t c) : c < 128 := by
  obtain ⟨k, hk, -⟩ := h
  rw [← consistent_initial.compiled.length_table (t := t)]
  exact (List.getElem?_eq_some_iff.1 hk).1

theorem Listed.mem_listedCodes {t : KeyTable} {c : ℕ} (h : Listed t c) : c ∈ listedCodes t := by
  have hlt := h.lt
  obtain ⟨k, hk, hv⟩ := h
  simp [listedCodes, hlt, hk, hv]

/-- The make code of every listed key, one at a time; an extended one is read behind the
release of ESC. -/
def everyKeyReads : List (Option (List UInt8)) :=
  (listedCodes .plain).map (fun c => some [UInt8.ofNat c]) ++
    (listedCodes .e0).map fun c => some [0x81, 0xe0, UInt8.ofNat c]

theorem length_le_of_mem_everyKeyReads {r : Option (List UInt8)} (h : r ∈ everyKeyReads) :
    (r.getD []).length ≤ 18 := by
  have hall : ∀ r ∈ everyKeyReads, (r.getD []).length ≤ 18 := by
    simp only [everyKeyReads, List.forall_mem_append, List.forall_mem_map]
    exact ⟨fun _ _ => (by decide : 1 ≤ 18), fun _ _ => (by decide : 3 ≤ 18)⟩
  exact hall r h

/-- ESC is dead and every other listed key works : PASS is not reported, and rightly. -/
theorem passIsRight_iff_deadEsc :
    ∃ kb, mainLoop (List.replicate 18 0) .initial everyKeyReads.tail = some (false, kb) ∧
      PassIsRight false kb everyKeyReads.tail := by
  have hrun : (mainLoop (List.replicate 18 0) .initial everyKeyReads.tail).map Prod.fst =
      some false := by
    decide +kernel
  obtain ⟨⟨pass, kb⟩, hkb, rfl⟩ := Option.map_eq_some_iff.1 hrun
  have hdead : ¬AllMade everyKeyReads.tail := by
    intro h
    exact absurd (h .plain 1 listed_esc) (by decide +kernel)
  exact ⟨kb, hkb, (passIsRight_iff (by decide)
    (fun chunk hc => length_le_of_mem_everyKeyReads (List.mem_of_mem_tail hc)) hkb).2 hdead⟩

/-- Every listed key works, no access is undefined, and PASS is not reported. -/
theorem never_passes :
    ¬∀ (buf : List UInt8) (rs : List (Option (List UInt8))) (pass : Bool) (kb : Keyboard),
      buf.length = 18 → (∀ chunk, some chunk ∈ rs → chunk.length ≤ 18) →
      mainLoop buf .initial rs = some (pass, kb) → PassIsRight pass kb rs := by
  intro h
  have hmade : AllMade everyKeyReads := by
    have hcodes : ∀ t, ∀ c ∈ listedCodes t,
        Delivered (everyKeyReads.flatMap (·.getD [])) t c := by
      intro t
      cases t <;> decide +kernel
    exact fun t c hl => hcodes t c hl.mem_listedCodes
  have hrun : (mainLoop (List.replicate 18 0) .initial everyKeyReads).map Prod.fst =
      some false := by
    decide +kernel
  obtain ⟨⟨pass, kb⟩, hkb, rfl⟩ := Option.map_eq_some_iff.1 hrun
  have hright := h _ everyKeyReads _ kb (by decide)
    (fun chunk hc => length_le_of_mem_everyKeyReads hc) hkb
  exact absurd (hright.works hmade) (by decide)

end LxToolset
