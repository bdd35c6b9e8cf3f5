import Mathlib.Data.Set.Insert
import Mathlib.Data.List.Count
import LxToolset.Keyboard

/-!
# What the keyboard test marks

`lookup` is the table entry one round of `count_keys` tests. A run marks the listed
entries among its lookups and no others, `key_count` is their number, and it is
undefined as soon as one lookup is (`feed_outcome`). The tables list 79 keys, fewer than
`KEYNUMS`.
-/

namespace LxToolset

namespace KeyPoint

/-- The entry before its key was pressed. -/
def released (k : KeyPoint) : KeyPoint :=
  { k with isPressed := false }

end KeyPoint

/-- The key of entry `c` is listed for the test. -/
def Listed (t : KeyTable) (c : ℕ) : Prop :=
  ∃ k, (Keyboard.initial.table t)[c]? = some k ∧ k.isValid = true

namespace Keyboard

/-- Entry `c` is marked `is_pressed`. -/
def Pressed (kb : Keyboard) (t : KeyTable) (c : ℕ) : Prop :=
  ∃ k, (kb.table t)[c]? = some k ∧ k.isPressed = true

/-- The number of entries marked `is_pressed`. -/
def pressedCount (kb : Keyboard) : ℕ :=
  kb.keys.countP (·.isPressed) + kb.e0Keys.countP (·.isPressed)

/-- The entries are those compiled in, whatever their marks and `key_count`. -/
def Compiled (kb : Keyboard) : Prop :=
  ∀ t, (kb.table t).map KeyPoint.released = initial.table t

/-- The tables differ from the compiled ones only in marks on listed entries, and
`key_count` is the number of marks. -/
structure Consistent (kb : Keyboard) : Prop where
  released : ∀ t, (kb.table t).map KeyPoint.released = initial.table t
  listed : ∀ t, ∀ k ∈ kb.table t, k.isPressed = true → k.isValid = true
  count : kb.keyCount = kb.pressedCount

theorem consistent_initial : initial.Consistent where
  released t := by cases t <;> rfl
  listed t := by cases t <;> decide +kernel
  count := by decide

variable {kb kb' : Keyboard} {t t' : KeyTable} {c ch : ℕ} {k : KeyPoint}

theorem not_pressed_initial : ¬initial.Pressed t c := by
  rintro ⟨k, hk, hp⟩
  have hall : ∀ k ∈ initial.table t, k.isPressed = false := by cases t <;> decide +kernel
  rw [hall k (List.mem_of_getElem? hk)] at hp
  exact absurd hp (by decide)

namespace Compiled

theorem length_table (h : kb.Compiled) : (kb.table t).length = 128 := by
  rw [← List.length_map KeyPoint.released, h]
  cases t <;> rfl

theorem released_getElem (h : kb.Compiled) (hk : (kb.table t)[c]? = some k) :
    (initial.table t)[c]? = some k.released := by
  rw [← h, List.getElem?_map, hk, Option.map_some]

theorem listed_iff (h : kb.Compiled) (hk : (kb.table t)[c]? = some k) :
    Listed t c ↔ k.isValid = true := by
  unfold Listed
  rw [h.released_getElem hk]
  simp [KeyPoint.released]

theorem length_keyname (h : kb.Compiled) (hk : (kb.table t)[c]? = some k) :
    k.keyname.length ≤ 18 := by
  have hall : ∀ k ∈ initial.table t, k.keyname.length ≤ 18 := by
    cases t <;> decide +kernel
  exact hall k.released (List.mem_of_getElem? (h.released_getElem hk))

end Compiled

namespace Consistent

theorem compiled (h : kb.Consistent) : kb.Compiled :=
  h.released

/-- The tables list 79 keys. -/
theorem keyCount_le (h : kb.Consistent) : kb.keyCount ≤ 79 := by
  have hle : ∀ t, (kb.table t).countP (·.isPressed) ≤ (initial.table t).countP (·.isValid) := by
    intro t
    rw [← h.released t, List.countP_map]
    exact List.countP_mono_left fun k hk hp => h.listed t k hk hp
  have hkeys := hle .plain
  have he0 := hle .e0
  have h68 : (initial.table .plain).countP (·.isValid) = 68 := by decide
  have h11 : (initial.table .e0).countP (·.isValid) = 11 := by decide
  rw [h68] at hkeys
  rw [h11] at he0
  rw [h.count, pressedCount]
  exact Nat.add_le_add hkeys he0

end Consistent

/-! ## Marking entries -/

/-- A listed entry that is not marked. -/
def Fresh (kb : Keyboard) (x : KeyTable × ℕ) : Prop :=
  Listed x.1 x.2 ∧ ¬kb.Pressed x.1 x.2

theorem Compiled.fresh_iff (h : kb.Compiled) (hk : (kb.table t)[c]? = some k) :
    kb.Fresh (t, c) ↔ k.isPressed = false ∧ k.isValid = true := by
  simp only [Fresh, h.listed_iff hk, Pressed, hk, Option.some.injEq, exists_eq_left',
    Bool.not_eq_true]
  exact and_comm

/-- `kb'` is `kb` with the entry `x` marked and counted. -/
structure Marks (kb kb' : Keyboard) (x : KeyTable × ℕ) : Prop where
  compiled : kb'.Compiled
  pressed : ∀ t c, kb'.Pressed t c ↔ kb.Pressed t c ∨ (t, c) = x
  keyCount : kb'.keyCount = kb.keyCount + 1
  pressedCount : kb'.pressedCount = kb.pressedCount + 1
  listed : (∀ t, ∀ k ∈ kb.table t, k.isPressed = true → k.isValid = true) →
    ∀ t, ∀ k ∈ kb'.table t, k.isPressed = true → k.isValid = true

/-- `kb'` is `kb` with the listed entries of `S` marked. -/
def Marked (kb kb' : Keyboard) (S : Set (KeyTable × ℕ)) : Prop :=
  kb'.Consistent ∧ ∀ t c, kb'.Pressed t c ↔ kb.Pressed t c ∨ Listed t c ∧ (t, c) ∈ S

theorem Marked.trans {kb'' : Keyboard} {S S' : Set (KeyTable × ℕ)} (h : Marked kb kb' S)
    (h' : Marked kb' kb'' S') : Marked kb kb'' (S ∪ S') := by
  refine ⟨h'.1, fun t c => ?_⟩
  rw [h'.2, h.2, Set.mem_union]
  tauto

/-- The result `o` of a run from `kb` : undefined unless `ok`, else `S` is marked. -/
def Outcome (o : Option Keyboard) (kb : Keyboard) (ok : Prop) (S : Set (KeyTable × ℕ)) : Prop :=
  (ok ∧ ∃ kb', o = some kb' ∧ Marked kb kb' S) ∨ (¬ok ∧ o = none)

theorem Outcome.congr {o : Option Keyboard} {ok ok' : Prop} {S S' : Set (KeyTable × ℕ)}
    (h : Outcome o kb ok S) (hok : ok ↔ ok') (hS : S = S') : Outcome o kb ok' S' := by
  subst hS
  rwa [Outcome, ← hok]

theorem Outcome.bind {o : Option Keyboard} {f : Keyboard → Option Keyboard} {ok ok' : Prop}
    {S S' : Set (KeyTable × ℕ)} (h : Outcome o kb ok S)
    (hf : ∀ kb', kb'.Consistent → Outcome (f kb') kb' ok' S') :
    Outcome (o.bind f) kb (ok ∧ ok') (S ∪ S') := by
  rcases h with ⟨hok, kb₁, rfl, h₁⟩ | ⟨hok, rfl⟩
  · rcases hf kb₁ h₁.1 with ⟨hok', kb₂, h2, h₂⟩ | ⟨hok', h2⟩
    · exact .inl ⟨⟨hok, hok'⟩, kb₂, h2, h₁.trans h₂⟩
    · exact .inr ⟨fun h => hok' h.2, h2⟩
  · exact .inr ⟨fun h => hok h.1, rfl⟩

end Keyboard

open Keyboard

variable {kb kb' : Keyboard} {t t' : KeyTable} {c ch i : ℕ} {buf buf1 : List UInt8}

/-- A mark set in a table is not seen in the released table. -/
theorem map_released_set {l : List KeyPoint} {k : KeyPoint} (hk : l[ch]? = some k) :
    (l.set ch { k with isPressed := true }).map KeyPoint.released = l.map KeyPoint.released := by
  obtain ⟨hlt, hget⟩ := List.getElem?_eq_some_iff.1 hk
  have hlt' : ch < (l.map KeyPoint.released).length := by simpa using hlt
  have hself : (KeyPoint.released { k with isPressed := true }) =
      (l.map KeyPoint.released)[ch] := by
    simp [hget, KeyPoint.released]
  rw [List.map_set, hself, List.set_getElem_self]

/-- It adds one to the marks, in whichever table it is set. -/
theorem pressedCount_set {k : KeyPoint} (hk : (kb.table t)[ch]? = some k)
    (hp : k.isPressed = false)
    (htable : kb'.table t = (kb.table t).set ch { k with isPressed := true })
    (hother : ∀ t', t' ≠ t → kb'.table t' = kb.table t') :
    kb'.pressedCount = kb.pressedCount + 1 := by
  obtain ⟨hlt, hget⟩ := List.getElem?_eq_some_iff.1 hk
  have hset : (kb'.table t).countP (·.isPressed) = (kb.table t).countP (·.isPressed) + 1 := by
    rw [htable, List.countP_set hlt, hget]
    simp [hp]
  cases t with
  | plain =>
    have he0 : kb'.e0Keys = kb.e0Keys := hother .e0 (by decide)
    rw [pressedCount, pressedCount, he0]
    simp only [table] at hset
    omega
  | e0 =>
    have hkeys : kb'.keys = kb.keys := hother .plain (by decide)
    rw [pressedCount, pressedCount, hkeys]
    simp only [table] at hset
    omega

/-- Setting the mark of an entry that is not marked. -/
theorem marks_set {k : KeyPoint} {kb' : Keyboard} (h : kb.Compiled)
    (hk : (kb.table t)[ch]? = some k) (hp : k.isPressed = false) (hv : k.isValid = true)
    (htable : kb'.table t = (kb.table t).set ch { k with isPressed := true })
    (hother : ∀ t', t' ≠ t → kb'.table t' = kb.table t')
    (hcount : kb'.keyCount = kb.keyCount + 1) : Marks kb kb' (t, ch) := by
  obtain ⟨hlt, -⟩ := List.getElem?_eq_some_iff.1 hk
  refine ⟨fun t' => ?_, fun t' c => ?_, hcount, pressedCount_set hk hp htable hother,
    fun hlisted t' k' hk' hp' => ?_⟩
  · by_cases ht : t' = t
    · subst ht
      rw [htable, map_released_set hk, h]
    · rw [hother t' ht, h]
  · rw [Prod.mk.injEq]
    unfold Pressed
    by_cases ht : t' = t
    · subst ht
      rw [htable, List.getElem?_set]
      by_cases hc : ch = c
      · subst hc
        simp [hlt]
      · simp [hc, Ne.symm hc]
    · simp [hother t' ht, ht]
  · by_cases ht : t' = t
    · subst ht
      rw [htable] at hk'
      rcases List.mem_or_eq_of_mem_set hk' with hmem | rfl
      · exact hlisted t' k' hmem hp'
      · exact hv
    · exact hlisted t' k' (hother t' ht ▸ hk') hp'

/-- A marked state is consistent if the one before was. -/
theorem Keyboard.Marks.marked {x : KeyTable × ℕ} (hm : Marks kb kb' x) (h : kb.Consistent)
    (hx : Listed x.1 x.2) : Marked kb kb' {x} := by
  refine ⟨⟨hm.compiled, hm.listed h.listed, ?_⟩, fun t c => ?_⟩
  · rw [hm.keyCount, hm.pressedCount, h.count]
  · rw [hm.pressed, Set.mem_singleton_iff]
    refine or_congr_right ⟨?_, And.right⟩
    rintro rfl
    exact ⟨hx, rfl⟩

/-- A round that looks up an entry marks it, blanks its name and counts it, or has nothing
to do. -/
theorem markKey_cases {k : KeyPoint} (h : kb.Compiled) (hb : buf1.length = 18)
    (hk : (initial.table t)[ch]? = some k) :
    (kb.Fresh (t, ch) ∧ ∃ kb' buf1', markKey t ch kb buf1 = some (kb', buf1') ∧
      buf1' = List.replicate k.keyname.length 0x20 ++ buf1.drop k.keyname.length ∧
      kb'.printed = kb.printed ++ [(k.row, k.col, buf1'.takeWhile (· ≠ 0))] ∧
      Marks kb kb' (t, ch)) ∨
    (¬kb.Fresh (t, ch) ∧ markKey t ch kb buf1 = some (kb, buf1)) := by
  obtain ⟨e, he, rfl⟩ : ∃ e, (kb.table t)[ch]? = some e ∧ e.released = k := by
    have hk' := hk
    rw [← h, List.getElem?_map] at hk'
    simpa using hk'
  have hname := h.length_keyname he
  by_cases hnew : kb.Fresh (t, ch)
  · obtain ⟨hp, hv⟩ := (h.fresh_iff he).1 hnew
    have hfill : fillBlanks e.keyname.length buf1 =
        some (List.replicate e.keyname.length 0x20 ++ buf1.drop e.keyname.length) := by
      rw [fillBlanks, if_pos (hb.symm ▸ hname)]
    have hcond : (!e.isPressed && e.isValid) = true := by simp [hp, hv]
    refine .inl ⟨hnew, _, _, by simp only [markKey, he, hcond, if_true, hfill]; rfl, rfl, ?_, ?_⟩
    · cases t <;> rfl
    · refine marks_set h he hp hv ?_ (fun t' ht => ?_) rfl
      · cases t <;> rfl
      · cases t <;> cases t' <;> first | exact absurd rfl ht | rfl
  · refine .inr ⟨hnew, ?_⟩
    rw [h.fresh_iff he] at hnew
    have hcond : (!e.isPressed && e.isValid) = false := by
      simpa [← Bool.not_eq_true] using hnew
    simp only [markKey, he, hcond]
    rfl

theorem exists_entry (t : KeyTable) (hch : ch < 128) :
    ∃ k, (Keyboard.initial.table t)[ch]? = some k := by
  have hlen : (Keyboard.initial.table t).length = 128 := by cases t <;> rfl
  exact ⟨_, List.getElem?_eq_getElem (hlen ▸ hch)⟩

theorem markKey_of_lt (h : kb.Consistent) (hb : buf1.length = 18) (hch : ch < 128) :
    ∃ kb' buf1', markKey t ch kb buf1 = some (kb', buf1') ∧ buf1'.length = 18 ∧
      Marked kb kb' {(t, ch)} := by
  obtain ⟨k, hk⟩ := exists_entry t hch
  have hname := consistent_initial.compiled.length_keyname hk
  rcases markKey_cases h.compiled hb hk with ⟨hnew, kb', buf1', hmark, rfl, -, hm⟩ | ⟨hnew, hmark⟩
  · refine ⟨kb', _, hmark, ?_, hm.marked h hnew.1⟩
    simp [hb]
    omega
  · refine ⟨kb, buf1, hmark, hb, h, fun t' c => ⟨.inl, ?_⟩⟩
    rintro (hp | ⟨hl, he⟩)
    · exact hp
    · obtain ⟨rfl, rfl⟩ := Prod.mk.inj (Set.mem_singleton_iff.1 he)
      by_contra hp
      exact hnew ⟨hl, hp⟩

theorem markKey_of_ge (h : kb.Compiled) (hch : 128 ≤ ch) : markKey t ch kb buf1 = none := by
  have hnone : (kb.table t)[ch]? = none := List.getElem?_eq_none (h.length_table.trans_le hch)
  simp only [markKey, hnone]

/-! ## Lookups -/

/-- The entry that round `i` of `count_keys` tests, if any. `none` : the round reads past
the buffer, or past the table. -/
def lookup (buf : List UInt8) (i : ℕ) : Option (Option (KeyTable × ℕ)) := do
  let ch ← buf[i]?
  match ← classify buf i ch with
  | some t => if ch.toNat < 128 then some (some (t, ch.toNat)) else none
  | none => some none

theorem countKey_of_none (h : kb.Compiled) (hl : lookup buf i = none) :
    countKey buf i kb buf1 = none := by
  unfold lookup at hl
  unfold countKey
  cases hch : buf[i]? with
  | none => rfl
  | some ch =>
    cases hcl : classify buf i ch with
    | none => simp [hcl]
    | some o =>
      cases o with
      | none => simp [hch, hcl] at hl
      | some t =>
        have hge : ¬ch.toNat < 128 := by simpa [hch, hcl] using hl
        simp [hcl, markKey_of_ge h (Nat.le_of_not_lt hge)]

/-- A round with an entry to test tests it, and one without leaves everything as it is. -/
theorem countKey_of_some {e : Option (KeyTable × ℕ)} (hl : lookup buf i = some e) :
    (∃ t c, e = some (t, c) ∧ c < 128 ∧
      ∀ kb buf1, countKey buf i kb buf1 = markKey t c kb buf1) ∨
    (e = none ∧ ∀ kb buf1, countKey buf i kb buf1 = some (kb, buf1)) := by
  unfold lookup at hl
  unfold countKey
  cases hch : buf[i]? with
  | none => simp [hch] at hl
  | some ch =>
    cases hcl : classify buf i ch with
    | none => simp [hch, hcl] at hl
    | some o =>
      cases o with
      | none =>
        obtain rfl : none = e := by simpa [hch, hcl] using hl
        exact .inr ⟨rfl, fun kb buf1 => by simp [hcl]⟩
      | some t =>
        by_cases hlt : ch.toNat < 128
        · obtain rfl : some (t, ch.toNat) = e := by simpa [hch, hcl, hlt] using hl
          exact .inl ⟨t, ch.toNat, rfl, hlt, fun kb buf1 => by simp [hcl]⟩
        · simp [hch, hcl, hlt] at hl

variable (buf i) in
theorem countKey_outcome (h : kb.Consistent) (hb : buf1.length = 18) :
    (∃ e, lookup buf i = some e ∧ ∃ kb' buf1', countKey buf i kb buf1 = some (kb', buf1') ∧
      buf1'.length = 18 ∧ Marked kb kb' {x | e = some x}) ∨
    (lookup buf i = none ∧ countKey buf i kb buf1 = none) := by
  cases hl : lookup buf i with
  | none => exact .inr ⟨rfl, countKey_of_none h.compiled hl⟩
  | some e =>
    rcases countKey_of_some hl with ⟨t, c, rfl, hlt, hkey⟩ | ⟨rfl, hkey⟩
    · obtain ⟨kb', buf1', hmark, hb', hm⟩ := markKey_of_lt (t := t) h hb hlt
      refine .inl ⟨_, rfl, kb', buf1', by rw [hkey, hmark], hb', hm.1, fun t' c' => ?_⟩
      rw [hm.2]
      simp [eq_comm]
    · refine .inl ⟨none, rfl, kb, buf1, hkey kb buf1, hb, h, fun t c => ?_⟩
      simp

/-- The entries that rounds `i` to `i + left - 1` test. -/
def lookups (buf : List UInt8) (i left : ℕ) : Set (KeyTable × ℕ) :=
  {x | ∃ j, i ≤ j ∧ j < i + left ∧ lookup buf j = some (some x)}

/-- Rounds `i` to `i + left - 1` are defined. -/
def Defined (buf : List UInt8) (i left : ℕ) : Prop :=
  ∀ j, i ≤ j → j < i + left → lookup buf j ≠ none

theorem lookups_succ {e : Option (KeyTable × ℕ)} {left : ℕ} (h : lookup buf i = some e) :
    lookups buf i (left + 1) = {x | e = some x} ∪ lookups buf (i + 1) left := by
  ext x
  constructor
  · rintro ⟨j, hij, hj, hx⟩
    rcases Nat.eq_or_lt_of_le hij with rfl | hlt
    · exact .inl (Option.some.inj (h ▸ hx))
    · exact .inr ⟨j, hlt, by omega, hx⟩
  · rintro (rfl | ⟨j, hij, hj, hx⟩)
    · exact ⟨i, le_rfl, by omega, h⟩
    · exact ⟨j, by omega, by omega, hx⟩

theorem defined_succ {left : ℕ} :
    Defined buf i (left + 1) ↔ lookup buf i ≠ none ∧ Defined buf (i + 1) left := by
  constructor
  · exact fun h => ⟨h i le_rfl (by omega), fun j hij hj => h j (by omega) (by omega)⟩
  · rintro ⟨h0, h⟩ j hij hj
    rcases Nat.eq_or_lt_of_le hij with rfl | hlt
    · exact h0
    · exact h j hlt (by omega)

theorem countLoop_outcome {left : ℕ} (h : kb.Consistent) (hb : buf1.length = 18) :
    Outcome (countLoop buf left i kb buf1) kb (Defined buf i left) (lookups buf i left) := by
  induction left generalizing i kb buf1 with
  | zero =>
    refine .inl ⟨fun j hij hj => by omega, kb, rfl, h, fun t c => ?_⟩
    have hempty : (t, c) ∉ lookups buf i 0 := by
      rintro ⟨j, hij, hj, -⟩
      omega
    simp [hempty]
  | succ left ih =>
    rcases countKey_outcome i buf h hb with
      ⟨e, he, kb₁, buf1', hkey, hb', hm⟩ | ⟨hnone, hkey⟩
    · have hle := hm.1.keyCount_le
      -- 79 keys are listed, so the early return is never taken
      have hloop : countLoop buf (left + 1) i kb buf1 = countLoop buf left (i + 1) kb₁ buf1' := by
        have hgt : ¬keyNums < kb₁.keyCount := by
          unfold keyNums
          omega
        simp [countLoop, hkey, hgt]
      rw [hloop, lookups_succ he, defined_succ, he]
      rcases ih hm.1 hb' with ⟨hok, kb₂, h2, h₂⟩ | ⟨hok, h2⟩
      · exact .inl ⟨⟨by simp, hok⟩, kb₂, h2, hm.trans h₂⟩
      · exact .inr ⟨fun h => hok h.2, h2⟩
    · refine .inr ⟨fun hd => (defined_succ.1 hd).1 hnone, ?_⟩
      simp [countLoop, hkey]

variable (buf) in
/-- One call marks what its rounds look up. -/
theorem countKeys_outcome (n : ℤ) (h : kb.Consistent) :
    Outcome (countKeys buf n kb) kb (Defined buf 0 n.toNat) (lookups buf 0 n.toNat) :=
  countLoop_outcome h (by simp)

/-! ## Runs -/

/-- `count_keys` on one buffer after the other. -/
def countCalls (kb : Keyboard) : List (List UInt8 × ℤ) → Option Keyboard
  | [] => some kb
  | v :: vs => (countKeys v.1 v.2 kb).bind fun kb => countCalls kb vs

/-- A run of calls marks what they look up, and is undefined as soon as one lookup is. -/
theorem countCalls_outcome (vs : List (List UInt8 × ℤ)) (h : kb.Consistent) :
    Outcome (countCalls kb vs) kb (∀ v ∈ vs, Defined v.1 0 v.2.toNat)
      {x | ∃ v ∈ vs, x ∈ lookups v.1 0 v.2.toNat} := by
  induction vs generalizing kb with
  | nil => exact .inl ⟨by simp, kb, rfl, h, fun t c => by simp⟩
  | cons v vs ih =>
    refine ((countKeys_outcome _ _ h).bind fun kb' h' => ih h').congr ?_ ?_
    · simp
    · ext x
      simp

/-- The memory of the buffer at each call of `count_keys`, with its `n`. -/
def views (buf : List UInt8) : List (Option (List UInt8)) → List (List UInt8 × ℤ)
  | [] => []
  | r :: rs => readBuf buf r :: views (readBuf buf r).1 rs

theorem feed_eq_countCalls (buf : List UInt8) (kb : Keyboard) (rs : List (Option (List UInt8))) :
    feed buf kb rs = countCalls kb (views buf rs) := by
  induction rs generalizing buf kb with
  | nil => rfl
  | cons r rs ih =>
    simp only [feed, views, countCalls, ← ih]
    rfl

theorem feed_outcome (buf : List UInt8) (rs : List (Option (List UInt8))) (h : kb.Consistent) :
    Outcome (feed buf kb rs) kb (∀ v ∈ views buf rs, Defined v.1 0 v.2.toNat)
      {x | ∃ v ∈ views buf rs, x ∈ lookups v.1 0 v.2.toNat} :=
  feed_eq_countCalls buf kb rs ▸ countCalls_outcome _ h

/-- The keyboard of a run that starts with the compiled tables. -/
theorem pressed_of_feed {rs : List (Option (List UInt8))}
    (h : feed buf Keyboard.initial rs = some kb) : kb.Consistent ∧ ∀ t c, kb.Pressed t c ↔
      Listed t c ∧ ∃ v ∈ views buf rs, (t, c) ∈ lookups v.1 0 v.2.toNat := by
  rcases feed_outcome buf rs consistent_initial with
    ⟨-, kb', hkb', hm⟩ | ⟨-, hnone⟩
  · obtain rfl : kb = kb' := Option.some.inj (h.symm.trans hkb')
    refine ⟨hm.1, fun t c => ?_⟩
    rw [hm.2]
    simp [not_pressed_initial]
  · rw [h] at hnone
    cases hnone

end LxToolset
