import Mathlib.Order.Lattice.Nat
import LxToolset.KeyboardDecode
import LxToolset.KeyboardRounds

/-!
# The screen of the keyboard test

`count_keys` erases the name of a key it marks with blanks from a scratch buffer that all
keys of a call share. It is never cut back, so that a shorter name after a longer one takes
neighbouring cells with it : `countKeys_blanks_iff`.
-/

namespace LxToolset

open Keyboard

/-- The characters of the screen, by row and column. -/
abbrev Grid :=
  ℕ → ℕ → UInt8

/-- `mvprintw( row, col, text )`, of a text without conversions. -/
def mvprintw (g : Grid) (p : ℕ × ℕ × List UInt8) : Grid := fun row col =>
  if row = p.1 ∧ p.2.1 ≤ col then p.2.2.getD (col - p.2.1) (g row col) else g row col

/-- The screen after some prints. -/
def display (g : Grid) (ps : List (ℕ × ℕ × List UInt8)) : Grid :=
  ps.foldl mvprintw g

/-- A cell of the name of the entry. -/
def InName (x : KeyTable × ℕ) (row col : ℕ) : Prop :=
  row = (entry x).row ∧ (entry x).col ≤ col ∧ col < (entry x).col + (entry x).keyname.length

/-- Between the two states the names of the keys newly marked are blanked, whatever is on
the screen, and nothing else has changed. -/
def BlanksNames (kb kb' : Keyboard) : Prop :=
  ∃ ps, kb'.printed = kb.printed ++ ps ∧ ∀ g row col,
    ((∃ x : KeyTable × ℕ, kb'.Pressed x.1 x.2 ∧ ¬kb.Pressed x.1 x.2 ∧ InName x row col) →
      display g ps row col = 0x20) ∧
    ((¬∃ x : KeyTable × ℕ, kb'.Pressed x.1 x.2 ∧ ¬kb.Pressed x.1 x.2 ∧ InName x row col) →
      display g ps row col = g row col)

/-- No table is indexed past its end, nor `buf` : it does not start with the prefix, and
does not end with `1d` where the loop gets there. -/
def StaysInArrays (buf : List UInt8) (n : ℤ) (kb : Keyboard) : Prop :=
  n ≤ 0 ∨ buf[0]? ≠ some 0xe0 ∧ (n = 18 → buf[17]? = some 0x1d → ¬Reached buf kb 17)

/-- Round `i` of the call marks `x`. -/
structure MarksAt (buf : List UInt8) (n : ℤ) (kb : Keyboard) (i : ℕ) (x : KeyTable × ℕ) :
    Prop where
  lt : i < n.toNat
  reached : Reached buf kb i
  firstAt : FirstAt buf kb i x

/-- Every name is at least as long as those of the keys that the call marks before. -/
def GrowingNames (buf : List UInt8) (n : ℤ) (kb : Keyboard) : Prop :=
  ∀ i j x y, i < j → MarksAt buf n kb i x → MarksAt buf n kb j y →
    (entry x).keyname.length ≤ (entry y).keyname.length

/-! ## Prints of blanks -/

section Display

variable {ps : List (ℕ × ℕ × List UInt8)} {row col : ℕ}

/-- The cells of a print. -/
def Covers (p : ℕ × ℕ × List UInt8) (row col : ℕ) : Prop :=
  row = p.1 ∧ p.2.1 ≤ col ∧ col < p.2.1 + p.2.2.length

theorem mvprintw_blanks {p : ℕ × ℕ × List UInt8} (hp : ∀ b ∈ p.2.2, b = 0x20) (g : Grid) :
    (Covers p row col → mvprintw g p row col = 0x20) ∧
      (¬Covers p row col → mvprintw g p row col = g row col) := by
  unfold mvprintw Covers
  constructor
  · rintro ⟨hrow, hle, hlt⟩
    have hidx : col - p.2.1 < p.2.2.length := by omega
    rw [if_pos ⟨hrow, hle⟩, List.getD_eq_getElem?_getD, List.getElem?_eq_getElem hidx]
    exact hp _ (List.getElem_mem hidx)
  · intro hnot
    by_cases hcell : row = p.1 ∧ p.2.1 ≤ col
    · have hlen : p.2.2.length ≤ col - p.2.1 := by
        by_contra hlt
        exact hnot ⟨hcell.1, hcell.2, by omega⟩
      rw [if_pos hcell, List.getD_eq_getElem?_getD, List.getElem?_eq_none hlen, Option.getD_none]
    · rw [if_neg hcell]

theorem display_blanks (hps : ∀ p ∈ ps, ∀ b ∈ p.2.2, b = 0x20) (g : Grid) :
    ((∃ p ∈ ps, Covers p row col) → display g ps row col = 0x20) ∧
      ((¬∃ p ∈ ps, Covers p row col) → display g ps row col = g row col) := by
  induction ps generalizing g with
  | nil => simp [display]
  | cons p ps ih =>
    have hhead : (Covers p row col → mvprintw g p row col = 0x20) ∧
        (¬Covers p row col → mvprintw g p row col = g row col) :=
      mvprintw_blanks (hps p List.mem_cons_self) g
    have htail := ih (fun q hq => hps q (List.mem_cons_of_mem _ hq)) (mvprintw g p)
    have hcons : display g (p :: ps) = display (mvprintw g p) ps := rfl
    rw [hcons]
    by_cases hlater : ∃ q ∈ ps, Covers q row col
    · obtain ⟨q, hq, hc⟩ := hlater
      exact ⟨fun _ => htail.1 ⟨q, hq, hc⟩,
        fun hnot => absurd ⟨q, List.mem_cons_of_mem _ hq, hc⟩ hnot⟩
    · rw [htail.2 hlater]
      constructor
      · rintro ⟨q, hq, hc⟩
        rcases List.mem_cons.1 hq with rfl | hq
        · exact hhead.1 hc
        · exact absurd ⟨q, hq, hc⟩ hlater
      · exact fun hnot => hhead.2 fun hc => hnot ⟨p, List.mem_cons_self, hc⟩

end Display

/-! ## The layout -/

/-- The listed entries of both tables. -/
def listedKeys : List KeyPoint :=
  (keys ++ e0Keys).filter (·.isValid)

/-- No name covers the cell behind another. -/
theorem names_apart : ∀ k ∈ listedKeys, ∀ k' ∈ listedKeys, k.row = k'.row →
    ¬(k'.col ≤ k.col + k.keyname.length ∧
      k.col + k.keyname.length < k'.col + k'.keyname.length) := by
  decide +kernel

theorem Keyboard.Fresh.mem_listedKeys {kb : Keyboard} {x : KeyTable × ℕ} (h : kb.Fresh x) :
    entry x ∈ listedKeys := by
  obtain ⟨k, hk, hv⟩ := h.1
  have he : entry x = k := by rw [entry, hk, Option.getD_some]
  rw [he, listedKeys, List.mem_filter, List.mem_append]
  refine ⟨?_, hv⟩
  obtain ⟨t, c⟩ := x
  cases t with
  | plain => exact .inl (List.mem_of_getElem? hk)
  | e0 => exact .inr (List.mem_of_getElem? hk)

/-! ## The names of a call -/

section Call

variable {buf : List UInt8} {n : ℤ} {kb kb' : Keyboard} {ps : List (ℕ × ℕ × List UInt8)}
  {i j m : ℕ} {x : KeyTable × ℕ}

theorem exists_firstAt (hx : x ∈ newKeys buf kb m) : ∃ j < m, FirstAt buf kb j x := by
  induction m with
  | zero => simp [newKeys_zero] at hx
  | succ m ih =>
    by_cases hold : x ∈ newKeys buf kb m
    · obtain ⟨j, hj, hfirst⟩ := ih hold
      exact ⟨j, by omega, hfirst⟩
    · have hlook := hx.1
      rw [lookups_snoc] at hlook
      rcases hlook with hlook | hlook
      · exact absurd ⟨hlook, hx.2⟩ hold
      · exact ⟨m, by omega, firstAt_iff.2 ⟨hlook, hx.2, hold⟩⟩

theorem FirstAt.mem_newKeys (h : FirstAt buf kb j x) (hj : j < m) : x ∈ newKeys buf kb m :=
  ⟨⟨j, by omega, by omega, h.lookup⟩, h.fresh⟩

/-- Whatever is on the screen, blanks are exact where they cover the names and no more. -/
theorem blanksNames_iff (hprinted : kb'.printed = kb.printed ++ ps)
    (hps : ∀ p ∈ ps, ∀ b ∈ p.2.2, b = 0x20) :
    BlanksNames kb kb' ↔ ∀ row col, (∃ p ∈ ps, Covers p row col) ↔
      ∃ x : KeyTable × ℕ, kb'.Pressed x.1 x.2 ∧ ¬kb.Pressed x.1 x.2 ∧ InName x row col := by
  constructor
  · rintro ⟨ps', hps', hcells⟩ row col
    obtain rfl : ps' = ps := List.append_cancel_left (hps'.symm.trans hprinted)
    -- a screen of other characters shows which cells are blanked
    obtain ⟨hin, hout⟩ := hcells (fun _ _ => 0) row col
    have hdisplay : (_ → display (fun _ _ => 0) ps' row col = 0x20) ∧
        (_ → display (fun _ _ => 0) ps' row col = 0) := display_blanks hps fun _ _ => 0
    obtain ⟨hcov, hnot⟩ := hdisplay
    by_cases hname : ∃ x : KeyTable × ℕ,
        kb'.Pressed x.1 x.2 ∧ ¬kb.Pressed x.1 x.2 ∧ InName x row col
    · refine iff_of_true ?_ hname
      by_contra hno
      exact absurd ((hin hname).symm.trans (hnot hno)) (by decide)
    · refine iff_of_false (fun hc => ?_) hname
      exact absurd ((hcov hc).symm.trans (hout hname)) (by decide)
  · intro h
    refine ⟨ps, hprinted, fun g row col => ?_⟩
    rw [← h row col]
    exact display_blanks hps g

theorem exists_isLUB_nameLengths (h : FirstAt buf kb j x) (hj : j < m) :
    ∃ w, IsLUB (nameLengths buf kb m) w ∧ (entry x).keyname.length ≤ w := by
  have hmem : (entry x).keyname.length ∈ nameLengths buf kb m := ⟨j, hj, x, h, rfl⟩
  have hbdd : BddAbove (nameLengths buf kb m) := by
    refine ⟨18, ?_⟩
    rintro l ⟨i, -, y, hy, rfl⟩
    exact length_entry_le hy.fresh
  have hlub := isLUB_csSup ⟨_, hmem⟩ hbdd
  exact ⟨_, hlub, hlub.1 hmem⟩

theorem After.newlyPressed_iff {s : Keyboard × List UInt8} (hs : After buf kb m s) :
    (s.1.Pressed x.1 x.2 ∧ ¬kb.Pressed x.1 x.2) ↔ x ∈ newKeys buf kb m := by
  rw [hs.pressed]
  refine ⟨fun h => h.1.resolve_left h.2, fun h => ⟨.inr h, h.2.2⟩⟩

/-- The blanks printed for a key are as many as the longest name so far has characters. -/
theorem After.blanksNames_iff {s : Keyboard × List UInt8} (hs : After buf kb m s) :
    BlanksNames kb s.1 ↔ ∀ i j x y, i < j → j < m → FirstAt buf kb i x → FirstAt buf kb j y →
      (entry x).keyname.length ≤ (entry y).keyname.length := by
  obtain ⟨new, hprinted, hnew⟩ := hs.printed
  have hps : ∀ p ∈ new, ∀ b ∈ p.2.2, b = 0x20 := by
    intro p hp b hb
    obtain ⟨j, -, x, w, -, -, rfl⟩ := (hnew p).1 hp
    exact List.eq_of_mem_replicate hb
  have hcovers : ∀ row col, (∃ p ∈ new, Covers p row col) ↔ ∃ j < m, ∃ x w, FirstAt buf kb j x ∧
      IsLUB (nameLengths buf kb (j + 1)) w ∧ row = (entry x).row ∧ (entry x).col ≤ col ∧
      col < (entry x).col + w := by
    intro row col
    constructor
    · rintro ⟨p, hp, hc⟩
      obtain ⟨j, hj, x, w, hx, hw, rfl⟩ := (hnew p).1 hp
      exact ⟨j, hj, x, w, hx, hw, by simpa [Covers] using hc⟩
    · rintro ⟨j, hj, x, w, hx, hw, hc⟩
      exact ⟨_, (hnew _).2 ⟨j, hj, x, w, hx, hw, rfl⟩, by simpa [Covers] using hc⟩
  simp only [LxToolset.blanksNames_iff hprinted hps, hcovers, ← and_assoc, hs.newlyPressed_iff]
  constructor
  · intro h i j x y hij hj hx hy
    by_contra hlt
    obtain ⟨w, hw, -⟩ := exists_isLUB_nameLengths hy (Nat.lt_succ_self j)
    have hle : (entry x).keyname.length ≤ w := hw.1 ⟨i, by omega, x, hx, rfl⟩
    -- the cell behind the shorter name
    obtain ⟨z, hz, hrow, hcol⟩ := (h (entry y).row ((entry y).col + (entry y).keyname.length)).1
      ⟨j, hj, y, w, ⟨⟨⟨hy, hw⟩, rfl⟩, by omega⟩, by omega⟩
    exact names_apart _ hy.fresh.mem_listedKeys _ hz.2.mem_listedKeys hrow hcol
  · intro h row col
    constructor
    · rintro ⟨j, hj, x, w, ⟨⟨⟨hx, hw⟩, hrow⟩, hle⟩, hlt⟩
      have hwx : w ≤ (entry x).keyname.length := by
        refine hw.2 ?_
        rintro l ⟨i, hi, y, hy, rfl⟩
        rcases Nat.lt_succ_iff_lt_or_eq.1 hi with hlt | rfl
        · exact h i j y x hlt hj hy hx
        · rw [hx.unique hy]
      exact ⟨x, hx.mem_newKeys hj, hrow, hle, by omega⟩
    · rintro ⟨x, hx, hrow, hle, hlt⟩
      obtain ⟨j, hj, hfirst⟩ := exists_firstAt hx
      obtain ⟨w, hw, hxw⟩ := exists_isLUB_nameLengths hfirst (Nat.lt_succ_self j)
      exact ⟨j, hj, x, w, ⟨⟨⟨hfirst, hw⟩, hrow⟩, hle⟩, by omega⟩

/-- The rounds of a call that stays in the arrays are defined. -/
theorem staysInArrays_iff (hlen : buf.length = 18) (hn : n ≤ 18) :
    StaysInArrays buf n kb ↔ ∀ j < n.toNat, Reached buf kb j → lookup buf j ≠ none := by
  constructor
  · rintro (hle | ⟨he0, hlast⟩) j hj hr hnone
    · omega
    · obtain ⟨rfl, h1d⟩ := (lookup_eq_none_iff hlen (by omega) he0).1 hnone
      exact hlast (by omega) h1d hr
  · intro h
    refine or_iff_not_imp_left.2 fun hpos => ?_
    have he0 : buf[0]? ≠ some 0xe0 := fun he0 =>
      h 0 (by omega) (.inl rfl) (lookup_e0_start he0)
    refine ⟨he0, fun h18 h1d hr => ?_⟩
    exact h 17 (by omega) hr ((lookup_eq_none_iff hlen (by omega) he0).2 ⟨rfl, h1d⟩)

/-- When a call blanks the names of the keys it marks and nothing else. -/
theorem countKeys_blanks_iff (hlen : buf.length = 18) (hn : n ≤ 18) (h : kb.Compiled) :
    (∃ kb', countKeys buf n kb = some kb' ∧ BlanksNames kb kb') ↔
      StaysInArrays buf n kb ∧ GrowingNames buf n kb := by
  rw [staysInArrays_iff hlen hn]
  rcases countKeys_run buf n h with ⟨m, s', hs', hrun, hrounds⟩ | ⟨j, hj, hr, hnone, hrun⟩
  · have hblanks := hs'.blanksNames_iff
    have hdefined : ∀ j < n.toNat, Reached buf kb j → lookup buf j ≠ none := fun j hj hr =>
      (hrounds j).2 ((hrounds j).1.2 ⟨hj, hr⟩)
    rw [and_iff_right hdefined]
    constructor
    · rintro ⟨kb', hkb', hkeys⟩ i j x y hij hx hy
      obtain rfl : s'.1 = kb' := Option.some.inj (hrun.symm.trans hkb')
      exact hblanks.1 hkeys i j x y hij ((hrounds j).1.2 ⟨hy.lt, hy.reached⟩) hx.firstAt hy.firstAt
    · intro hgrow
      refine ⟨s'.1, hrun, hblanks.2 fun i j x y hij hj hx hy => ?_⟩
      have hrj := (hrounds j).1.1 hj
      have hri := (hrounds i).1.1 (hij.trans hj)
      exact hgrow i j x y hij ⟨hri.1, hri.2, hx⟩ ⟨hrj.1, hrj.2, hy⟩
  · refine iff_of_false ?_ fun hd => hd.1 j hj hr hnone
    rintro ⟨kb', hkb', -⟩
    exact absurd (hrun.symm.trans hkb') (by simp)

end Call

/-! ## Esc and 1 in one buffer -/

theorem listed_one : Listed .plain 2 :=
  ⟨.key "1" 10 1, by decide, rfl⟩

/-- The shorter name comes first. -/
theorem countKeys_blanks_iff_one_esc :
    ∃ kb', countKeys ([2, 1] ++ List.replicate 16 0) 2 Keyboard.initial = some kb' ∧
      BlanksNames Keyboard.initial kb' := by
  refine (countKeys_blanks_iff rfl (by decide) consistent_initial.compiled).2
    ⟨.inr ⟨by decide, fun h => absurd h (by decide)⟩, fun i j x y hij hx hy => ?_⟩
  have hj := hy.lt
  obtain ⟨rfl, rfl⟩ : i = 0 ∧ j = 1 := by omega
  have h0 : lookup ([2, 1] ++ List.replicate 16 0) 0 = some (some (.plain, 2)) := by decide
  have h1 : lookup ([2, 1] ++ List.replicate 16 0) 1 = some (some (.plain, 1)) := by decide
  obtain rfl := Option.some.inj (Option.some.inj (h0.symm.trans hx.firstAt.lookup))
  obtain rfl := Option.some.inj (Option.some.inj (h1.symm.trans hy.firstAt.lookup))
  decide

/-- `1` after `ESC` is blanked over three cells. -/
theorem esc_one_not_blanked : ¬∀ buf n kb kb', buf.length = 18 → n ≤ 18 → kb.Compiled →
    countKeys buf n kb = some kb' → BlanksNames kb kb' := by
  intro h
  have h0 : lookup ([1, 2] ++ List.replicate 16 0) 0 = some (some (.plain, 1)) := by decide
  have h1 : lookup ([1, 2] ++ List.replicate 16 0) 1 = some (some (.plain, 2)) := by decide
  rcases countKeys_run ([1, 2] ++ List.replicate 16 0) 2 consistent_initial.compiled with
    ⟨m, s', hs', hrun, hrounds⟩ | ⟨j, hj, -, hnone, -⟩
  · have hm : 1 < m := (hrounds 1).1.2 ⟨by decide, reached_of_consistent consistent_initial 1⟩
    have hle := hs'.blanksNames_iff.1
      (h _ 2 _ _ rfl (by decide) consistent_initial.compiled hrun) 0 1 _ _ Nat.one_pos hm
      ⟨h0, ⟨listed_esc, not_pressed_initial⟩, by omega⟩
      ⟨h1, ⟨listed_one, not_pressed_initial⟩, fun j hj => by
        obtain rfl : j = 0 := by omega
        rw [h0]
        simp⟩
    exact absurd hle (by decide)
  · have hj' : j = 0 ∨ j = 1 := by omega
    rcases hj' with rfl | rfl
    · exact absurd (h0.symm.trans hnone) (by simp)
    · exact absurd (h1.symm.trans hnone) (by simp)

end LxToolset
