import LxToolset.KeyboardDecode
import LxToolset.KeyboardRounds

/-!
# The accesses of count_keys

Two of the three branches of `count_keys` use a byte of the buffer as an index without a
test of its range, and the look-ahead for Pause reads the byte after the one at hand.
`countKeys_inFirst_iff` says when a call stays in the two tables and in the bytes that were
read.
-/

namespace LxToolset

open Keyboard

/-- A byte of `buf` that is read, or a table entry that is looked up. -/
inductive KeyAccess where
  | buf (i : ℕ)
  | table (t : KeyTable) (ch : ℕ)
  deriving DecidableEq

/-- The accesses of round `i`; after a read past the memory of the buffer nothing is known. -/
def roundAccesses (buf : List UInt8) (i : ℕ) : List KeyAccess :=
  match buf[i]? with
  | none => [.buf i]
  | some ch =>
    .buf i :: ((if ch = 0x1d then [.buf (i + 1)] else []) ++
      if ch = 0x1d ∧ buf[i + 1]? = none then []
      else if ch = 0x1d ∧ buf[i + 1]? = some 0x45 then [.table .e0 ch.toNat]
      else if buf[0]? = some 0xe0 then [.buf 0, .table .e0 ch.toNat]
      else if ch ≤ 0x7f then [.buf 0, .buf 0, .table .plain ch.toNat]
      else [.buf 0])

/-- The accesses of `countLoop`. -/
def keyAccesses (buf : List UInt8) : ℕ → ℕ → Keyboard → List UInt8 → List KeyAccess
  | 0, _, _, _ => []
  | left + 1, i, kb, buf1 =>
    roundAccesses buf i ++
      match countKey buf i kb buf1 with
      | none => []
      | some (kb, buf1) =>
        if keyNums < kb.keyCount then [] else keyAccesses buf left (i + 1) kb buf1

/-- The accesses of `count_keys( buf, n )`. -/
def countAccesses (buf : List UInt8) (n : ℕ) (kb : Keyboard) : List KeyAccess :=
  keyAccesses buf n 0 kb (List.replicate 18 0)

/-- In the first `n` bytes of the buffer, or in a table. -/
def KeyAccess.Inside (n : ℕ) : KeyAccess → Prop
  | .buf i => i < n
  | .table _ ch => ch < 128

/-- The call stays in the tables and in the first `n` bytes of the buffer, and what it does
is determined by these. -/
structure InFirst (buf : List UInt8) (n : ℕ) (kb : Keyboard) : Prop where
  inside : ∀ a ∈ countAccesses buf n kb, a.Inside n
  determined : ∀ buf', buf'.length = 18 → buf'.take n = buf.take n →
    countKeys buf' n kb = countKeys buf n kb

/-! ## One round -/

section Round

variable {buf buf' : List UInt8} {kb : Keyboard} {i n : ℕ} {ch : UInt8}

theorem ahead_of_inside (h : ∀ a ∈ roundAccesses buf i, a.Inside n)
    (hch : buf[i]? = some 0x1d) : i + 1 < n := by
  refine h (.buf (i + 1)) ?_
  simp [roundAccesses, hch]

theorem not_inside_e0 (hfirst : buf[0]? = some 0xe0) :
    ¬∀ a ∈ roundAccesses buf 0, a.Inside n := by
  intro h
  have htable : (224 : ℕ) < 128 := h (.table .e0 224) (by simp [roundAccesses, hfirst])
  omega

theorem inside_of_ne (hlen : buf.length = 18) (hi : i < n) (hn : n ≤ 18)
    (hfirst : buf[0]? ≠ some 0xe0) (hahead : buf[i]? = some 0x1d → i + 1 < n) :
    ∀ a ∈ roundAccesses buf i, a.Inside n := by
  have hch : buf[i]? = some buf[i] := List.getElem?_eq_getElem (by omega)
  rw [hch] at hahead
  generalize buf[i] = ch at hch hahead
  have hpos : 0 < n := by omega
  by_cases h1d : ch = 0x1d
  · subst h1d
    have hnext := hahead rfl
    by_cases h45 : buf[i + 1]? = some 0x45
    · simp [roundAccesses, hch, h45, KeyAccess.Inside, hi, hnext]
    · have hsome : buf[i + 1]? ≠ none := by simpa using (show i + 1 < buf.length by omega)
      simp only [roundAccesses, hch, h45, hsome, hfirst, and_false, if_false, if_true]
      simp [KeyAccess.Inside, hi, hnext, hpos]
  · by_cases hle : ch ≤ 0x7f
    · simp [roundAccesses, hch, h1d, hfirst, hle, KeyAccess.Inside, hi, hpos, le_7f_iff.1 hle]
    · simp [roundAccesses, hch, h1d, hfirst, hle, KeyAccess.Inside, hi, hpos]

/-- A round that is undefined has an access outside. -/
theorem not_inside_of_none (hlen : buf.length = 18) (hi : i < n) (hn : n ≤ 18)
    (hl : lookup buf i = none) : ¬∀ a ∈ roundAccesses buf i, a.Inside n := by
  intro h
  by_cases he0 : buf[0]? = some 0xe0
  · have hch : buf[i]? = some buf[i] := List.getElem?_eq_getElem (by omega)
    generalize buf[i] = ch at hch
    by_cases h1d : ch = 0x1d
    · subst h1d
      have hahead := ahead_of_inside h hch
      obtain ⟨next, hnext⟩ : ∃ next, buf[i + 1]? = some next :=
        ⟨_, List.getElem?_eq_getElem (by omega)⟩
      by_cases h45 : next = 0x45 <;> simp [lookup, classify, hch, hnext, he0, h45] at hl
    · have hge : ¬ch.toNat < 128 := by simpa [lookup, classify, hch, h1d, he0] using hl
      exact hge (h (.table .e0 ch.toNat) (by simp [roundAccesses, hch, h1d, he0]))
  · obtain ⟨rfl, h1d⟩ := (lookup_eq_none_iff hlen (by omega) he0).1 hl
    have hahead := ahead_of_inside h h1d
    omega

/-- A round uses the byte at hand, the first one and, after `1d`, the next. -/
theorem countKey_congr (hch : buf'[i]? = buf[i]?) (hfirst : buf'[0]? = buf[0]?)
    (hahead : buf[i]? = some 0x1d → buf'[i + 1]? = buf[i + 1]?) (kb : Keyboard)
    (buf1 : List UInt8) : countKey buf' i kb buf1 = countKey buf i kb buf1 := by
  unfold countKey classify
  rw [hch, hfirst]
  cases h : buf[i]? with
  | none => rfl
  | some ch =>
    by_cases h1d : ch = 0x1d
    · rw [hahead (h1d ▸ h)]
    · simp [h1d]

end Round

/-! ## The loop -/

section Loop

variable {buf buf' : List UInt8} {kb : Keyboard} {i n left : ℕ} {s : Keyboard × List UInt8}

/-- The accesses of the loop are those of the rounds that are reached, if an undefined one
is never inside. -/
theorem forall_mem_keyAccesses {P : KeyAccess → Prop} (left : ℕ)
    (hP : ∀ j, j < i + left → lookup buf j = none → ¬∀ a ∈ roundAccesses buf j, P a)
    (hs : After buf kb i s) (hr : Reached buf kb i) :
    (∀ a ∈ keyAccesses buf left i s.1 s.2, P a) ↔
      ∀ j, i ≤ j → j < i + left → Reached buf kb j → ∀ a ∈ roundAccesses buf j, P a := by
  induction left generalizing i s with
  | zero => exact ⟨fun _ j hj hlt => by omega, fun _ => by simp [keyAccesses]⟩
  | succ left ih =>
    have hrest : (∀ j, i ≤ j → j < i + (left + 1) → Reached buf kb j →
        ∀ a ∈ roundAccesses buf j, P a) ↔ (∀ a ∈ roundAccesses buf i, P a) ∧
        ∀ j, i + 1 ≤ j → j < i + 1 + left → Reached buf kb j → ∀ a ∈ roundAccesses buf j, P a := by
      refine ⟨fun h => ⟨h i le_rfl (by omega) hr, fun j hj hlt => h j (by omega) (by omega)⟩, ?_⟩
      rintro ⟨h0, h⟩ j hj hlt hrj
      rcases Nat.eq_or_lt_of_le hj with rfl | hgt
      · exact h0
      · exact h j hgt (by omega) hrj
    rw [hrest, keyAccesses, List.forall_mem_append]
    refine and_congr_right fun hround => ?_
    cases hl : lookup buf i with
    | none => exact absurd hround (hP i (by omega) hl)
    | some e =>
      obtain ⟨s₁, hkey, hs₁⟩ := hs.succ hl
      rw [hkey]
      by_cases hgt : keyNums < s₁.1.keyCount
      · have hno : ∀ j, i + 1 ≤ j → ¬Reached buf kb j := fun j hj hrj => by
          have hle := hs₁.reached_succ.1 (hrj.mono hj)
          omega
        simp only [hgt, if_true, List.not_mem_nil, false_imp_iff, implies_true, true_iff]
        exact fun j hj _ hrj => absurd hrj (hno j hj)
      · simp only [hgt, if_false]
        exact ih (fun j hj => hP j (by omega)) hs₁ (hs₁.reached_succ.2 (Nat.le_of_not_lt hgt))

theorem countLoop_congr (left : ℕ) (hs : After buf kb i s) (hr : Reached buf kb i)
    (hkey : ∀ j, i ≤ j → j < i + left → Reached buf kb j →
      ∀ kb buf1, countKey buf' j kb buf1 = countKey buf j kb buf1) :
    countLoop buf' left i s.1 s.2 = countLoop buf left i s.1 s.2 := by
  induction left generalizing i s with
  | zero => rfl
  | succ left ih =>
    rw [countLoop, countLoop, hkey i le_rfl (by omega) hr]
    cases hl : lookup buf i with
    | none => rw [countKey_of_none hs.compiled hl]; rfl
    | some e =>
      obtain ⟨s₁, hs₁, hafter⟩ := hs.succ hl
      rw [hs₁]
      by_cases hgt : keyNums < s₁.1.keyCount
      · simp [hgt]
      · have hr₁ := hafter.reached_succ.2 (Nat.le_of_not_lt hgt)
        simpa [hgt] using ih hafter hr₁ fun j hj hlt => hkey j (by omega) (by omega)

end Loop

/-! ## The call -/

/-- The first byte is not the prefix, and the last one is not `1d`, unless the call returns
before it gets there. -/
def StaysInFirst (buf : List UInt8) (n : ℕ) (kb : Keyboard) : Prop :=
  n = 0 ∨ buf[0]? ≠ some 0xe0 ∧ (buf[n - 1]? = some 0x1d → ¬Reached buf kb (n - 1))

section Call

variable {buf : List UInt8} {n : ℕ} {kb : Keyboard}

theorem countAccesses_inside_iff (hlen : buf.length = 18) (hn : n ≤ 18) (h : kb.Compiled) :
    (∀ a ∈ countAccesses buf n kb, a.Inside n) ↔ StaysInFirst buf n kb := by
  have hP : ∀ j, j < 0 + n → lookup buf j = none → ¬∀ a ∈ roundAccesses buf j, a.Inside n :=
    fun j hj => not_inside_of_none hlen (by omega) hn
  rw [countAccesses, forall_mem_keyAccesses n hP (after_zero buf h) (.inl rfl)]
  constructor
  · intro hin
    refine or_iff_not_imp_left.2 fun hpos => ⟨fun he0 => ?_, fun h1d hr => ?_⟩
    · exact not_inside_e0 he0 (hin 0 le_rfl (by omega) (.inl rfl))
    · have hahead := ahead_of_inside (hin (n - 1) (by omega) (by omega) hr) h1d
      omega
  · rintro (rfl | ⟨he0, hlast⟩) j hj hlt hr
    · omega
    · refine inside_of_ne hlen (by omega) hn he0 fun h1d => ?_
      by_contra hge
      obtain rfl : j = n - 1 := by omega
      exact hlast h1d hr

theorem countKeys_determined (hn : n ≤ 18) (h : kb.Compiled) (hin : StaysInFirst buf n kb)
    {buf' : List UInt8} (htake : buf'.take n = buf.take n) :
    countKeys buf' n kb = countKeys buf n kb := by
  have hget : ∀ k < n, buf'[k]? = buf[k]? := fun k hk => by
    rw [← List.getElem?_take_of_lt hk, htake, List.getElem?_take_of_lt hk]
  refine countLoop_congr _ (after_zero buf h) (.inl rfl) fun j _ hj hr => ?_
  rw [Int.toNat_natCast, Nat.zero_add] at hj
  refine countKey_congr (hget j hj) (hget 0 (by omega)) fun h1d => hget (j + 1) ?_
  rcases hin with rfl | ⟨-, hlast⟩
  · omega
  · by_contra hge
    obtain rfl : j = n - 1 := by omega
    exact hlast h1d hr

/-- When a call stays in the tables and in the bytes that were read. -/
theorem countKeys_inFirst_iff (hlen : buf.length = 18) (hn : n ≤ 18) (h : kb.Compiled) :
    InFirst buf n kb ↔ StaysInFirst buf n kb := by
  rw [← countAccesses_inside_iff hlen hn h]
  refine ⟨fun hin => hin.inside, fun hin => ⟨hin, fun buf' _ htake => ?_⟩⟩
  exact countKeys_determined hn h ((countAccesses_inside_iff hlen hn h).1 hin) htake

end Call

/-- A received as `1e 9e`. -/
theorem countKeys_inFirst_iff_a :
    InFirst ([0x1e, 0x9e] ++ List.replicate 16 0) 2 Keyboard.initial :=
  (countKeys_inFirst_iff rfl (by omega) consistent_initial.compiled).2
    (.inr ⟨by decide, fun h => absurd h (by decide)⟩)

/-- The cursor key Up, `e0 48`, is looked up at `e0_keys[0xe0]`. -/
theorem up_not_inFirst : ¬∀ buf n kb, buf.length = 18 → n ≤ 18 → kb.Compiled →
    InFirst buf n kb := by
  intro h
  have hup := h ([0xe0, 0x48] ++ List.replicate 16 0) 2 Keyboard.initial rfl (by omega)
    consistent_initial.compiled
  have hindex : (224 : ℕ) < 128 := hup.inside (.table .e0 224) (by decide)
  omega

end LxToolset
