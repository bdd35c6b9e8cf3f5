import Mathlib.Data.List.Infix
import Mathlib.Data.Nat.Find
import Mathlib.Order.Bounds.Basic

/-!
# Overlaps of a word

How much of a word `w` stands at the end of a text (`overlap`), and what a matcher reports that
keeps the first `b` letters of `w`, and nothing else, after each match (`hits`). It reports
occurrences only iff these letters are a border of `w` (`hits_sound_iff`), and all of them iff
they are the longest one (`hits_exact_iff`).
-/

namespace Borders

variable {α : Type*} {w v text : List α} {b c k m n x : ℕ}

/-! ## Beginnings of a word at the end of a text -/

section Overlap

variable [DecidableEq α]

/-- The largest `k ≤ m` such that the first `k` letters of `w` end `v`. -/
def overlap (w v : List α) : ℕ → ℕ
  | 0 => 0
  | m + 1 => if w.take (m + 1) <:+ v then m + 1 else overlap w v m

theorem isGreatest_overlap (w v : List α) (m : ℕ) :
    IsGreatest {k | k ≤ m ∧ w.take k <:+ v} (overlap w v m) := by
  induction m with
  | zero => exact ⟨⟨le_rfl, by simp [overlap]⟩, fun k hk => hk.1⟩
  | succ m ih =>
    rw [overlap]
    split_ifs with h
    · exact ⟨⟨le_rfl, h⟩, fun k hk => hk.1⟩
    · refine ⟨⟨ih.1.1.trans m.le_succ, ih.1.2⟩, ?_⟩
      rintro k ⟨hk, hv⟩
      rcases hk.eq_or_lt with rfl | hlt
      · exact absurd hv h
      · exact ih.2 ⟨Nat.lt_succ_iff.1 hlt, hv⟩

theorem overlap_le : overlap w v m ≤ m :=
  (isGreatest_overlap w v m).1.1

theorem take_overlap_suffix : w.take (overlap w v m) <:+ v :=
  (isGreatest_overlap w v m).1.2

theorem le_overlap (hk : k ≤ m) (h : w.take k <:+ v) : k ≤ overlap w v m :=
  (isGreatest_overlap w v m).2 ⟨hk, h⟩

theorem overlap_eq_of_isGreatest (h : IsGreatest {k | k ≤ m ∧ w.take k <:+ v} k) :
    overlap w v m = k :=
  (isGreatest_overlap w v m).unique h

end Overlap

/-- Below an overlap, the others are borders of it. -/
theorem take_suffix_iff (h : w.take m <:+ v) (hk : k ≤ m) :
    w.take k <:+ v ↔ w.take k <:+ w.take m := by
  refine ⟨fun hv => List.suffix_of_suffix_length_le hv h ?_, fun hm => hm.trans h⟩
  simp only [List.length_take]
  omega

/-- An overlap grows by a letter of the word. -/
theorem take_succ_suffix_concat {a : α} (hk : k < w.length) :
    w.take (k + 1) <:+ v ++ [a] ↔ w.take k <:+ v ∧ w[k]? = some a := by
  rw [List.take_add_one, List.getElem?_eq_getElem hk, Option.toList_some, Option.some_inj]
  constructor
  · rintro ⟨u, hu⟩
    obtain ⟨h, ha⟩ := List.append_inj' ((List.append_assoc ..).trans hu) rfl
    exact ⟨⟨u, h⟩, List.singleton_inj.1 ha⟩
  · rintro ⟨⟨u, rfl⟩, rfl⟩
    exact ⟨u, (List.append_assoc ..).symm⟩

/-- The whole word ends the text when its last letter comes after the rest of it. -/
theorem suffix_concat_iff {a : α} (hw : w ≠ []) :
    w <:+ v ++ [a] ↔ w.take (w.length - 1) <:+ v ∧ w[w.length - 1]? = some a := by
  have hpos : 0 < w.length := List.length_pos_of_ne_nil hw
  rw [← take_succ_suffix_concat (by omega : w.length - 1 < w.length),
    Nat.sub_add_cancel hpos, List.take_length]

/-! ## Occurrences -/

/-- `w` stands in `text` from position `x` on. -/
def Occurs (w text : List α) (x : ℕ) : Prop :=
  w <+: text.drop x

instance [DecidableEq α] : Decidable (Occurs w text x) :=
  inferInstanceAs (Decidable (_ <+: _))

theorem Occurs.le (h : Occurs w text x) (hw : w ≠ []) : x + w.length ≤ text.length := by
  have hle := h.length_le
  have hpos : 0 < w.length := List.length_pos_of_ne_nil hw
  rw [List.length_drop] at hle
  omega

theorem occurs_of_suffix (h : w <:+ text) (rest : List α) :
    Occurs w (text ++ rest) (text.length - w.length) := by
  obtain ⟨u, rfl⟩ := h
  refine ⟨rest, ?_⟩
  simp

/-- What stands at the end of the text so far. -/
theorem Occurs.suffix {pre rest : List α} (h : Occurs w (pre ++ rest) x)
    (hx : x + w.length = pre.length) : w <:+ pre := by
  have hw : w = (pre.drop x).take w.length := by
    have hpre := List.prefix_iff_eq_take.1 h
    rwa [List.drop_append_of_le_length (by omega),
      List.take_append_of_le_length (by simp; omega)] at hpre
  rw [List.take_of_length_le (by simp; omega)] at hw
  exact hw ▸ List.drop_suffix ..

/-- Of two occurrences that overlap, the common part is a border. -/
theorem Occurs.border {y : ℕ} (hy : Occurs w text y) (hx : Occurs w text x) (hyx : y ≤ x)
    (hxy : x ≤ y + w.length) : w.take (y + w.length - x) <:+ w := by
  have hdrop : w.drop (x - y) <+: text.drop x := by
    have h := hy.drop (x - y)
    rwa [List.drop_drop, Nat.add_sub_cancel' hyx] at h
  have htake : w.take (y + w.length - x) <+: text.drop x := (List.take_prefix ..).trans hx
  have heq : w.take (y + w.length - x) = w.drop (x - y) := by
    refine (List.prefix_of_prefix_length_le htake hdrop ?_).eq_of_length ?_ <;>
      simp only [List.length_take, List.length_drop] <;> omega
  exact heq ▸ List.drop_suffix ..

theorem Occurs.of_append {pre rest : List α} (h : Occurs w (pre ++ rest) x)
    (hx : x + w.length ≤ pre.length) : Occurs w pre x := by
  rw [Occurs, List.drop_append_of_le_length (by omega)] at h
  exact List.prefix_of_prefix_length_le h (List.prefix_append ..) (by simp; omega)

/-- After a border of `k` letters the word comes again. -/
theorem occurs_append_drop (hk : w.take k <:+ w) (hkw : k ≤ w.length) :
    Occurs w (w ++ w.drop k) (w.length - k) := by
  have hdrop := List.suffix_iff_eq_drop.1 hk
  rw [List.length_take_of_le hkw] at hdrop
  rw [Occurs, List.drop_append_of_le_length (Nat.sub_le ..), ← hdrop, List.take_append_drop]

/-! ## A matcher that keeps `b` letters after a match -/

section Hits

variable [DecidableEq α]

/-- The positions reported on `rest`, `o` letters into the text, by a matcher that takes `v` for
what it has read. -/
def hits (w : List α) (b : ℕ) : ℕ → List α → List α → List ℕ
  | _, _, [] => []
  | o, v, a :: rest =>
    if w <:+ v ++ [a] then (o + 1 - w.length) :: hits w b (o + 1) (w.take b) rest
    else hits w b (o + 1) (v ++ [a]) rest

variable {o : ℕ} {a : α} {rest : List α}

theorem hits_cons_of_suffix (h : w <:+ v ++ [a]) :
    hits w b o v (a :: rest) = (o + 1 - w.length) :: hits w b (o + 1) (w.take b) rest :=
  if_pos h

theorem hits_cons_of_not_suffix (h : ¬ w <:+ v ++ [a]) :
    hits w b o v (a :: rest) = hits w b (o + 1) (v ++ [a]) rest :=
  if_neg h

/-- The rest `l` of the word is read: the match ends with it. -/
theorem hits_append_of_eq {l : List α} (hl : l ≠ []) (h : v ++ l = w) :
    hits w b o v (l ++ rest) =
      (o + l.length - w.length) :: hits w b (o + l.length) (w.take b) rest := by
  induction l generalizing o v with
  | nil => exact absurd rfl hl
  | cons a l ih =>
    rcases eq_or_ne l [] with rfl | hl'
    · exact hits_cons_of_suffix (h ▸ List.suffix_rfl)
    · have hlen := congrArg List.length h
      have hpos : 0 < l.length := List.length_pos_of_ne_nil hl'
      have hnot : ¬ w <:+ v ++ [a] := by
        intro hs
        have hle := hs.length_le
        simp only [List.length_append, List.length_cons, List.length_nil] at hlen hle
        omega
      rw [List.cons_append, hits_cons_of_not_suffix hnot, ih hl' (by simpa using h),
        List.length_cons, Nat.add_right_comm, Nat.add_assoc]

theorem hits_self_append (hw : w ≠ []) :
    hits w b 0 [] (w ++ rest) = 0 :: hits w b w.length (w.take b) rest := by
  have h : hits w b 0 [] (w ++ rest) = _ := hits_append_of_eq hw (List.nil_append w)
  simpa using h

/-- What is reported ends in the text. -/
theorem add_length_le_of_mem_hits (hv : v.length ≤ o) (hx : x ∈ hits w b o v rest) :
    x + w.length ≤ o + rest.length := by
  induction rest generalizing o v with
  | nil => exact absurd hx List.not_mem_nil
  | cons a rest ih =>
    have hva : (v ++ [a]).length ≤ o + 1 := by
      rw [List.length_append, List.length_singleton]
      omega
    rw [List.length_cons]
    by_cases h : w <:+ v ++ [a]
    · have hle := h.length_le
      rw [hits_cons_of_suffix h] at hx
      rcases List.mem_cons.1 hx with rfl | hx
      · omega
      · have hx' := ih ((List.length_take_le' ..).trans (hle.trans hva)) hx
        omega
    · rw [hits_cons_of_not_suffix h] at hx
      have hx' := ih hva hx
      omega

/-- While it has read what it takes for read, the matcher finds what begins there and is not cut
off by an earlier match. -/
theorem mem_hits_iff {pre : List α} (hb : w.take b <:+ w) (hbw : b < w.length) (hv : v <:+ pre) :
    x ∈ hits w b pre.length v rest ↔
      Occurs w (pre ++ rest) x ∧ pre.length < x + w.length ∧ pre.length ≤ x + v.length ∧
        ∀ y ∈ hits w b pre.length v rest, y < x → y + (w.length - b) ≤ x := by
  have hw : w ≠ [] := List.ne_nil_of_length_pos (by omega)
  induction rest generalizing pre v x with
  | nil =>
    refine iff_of_false List.not_mem_nil ?_
    rintro ⟨hocc, hlt, -⟩
    have hle := hocc.le hw
    rw [List.append_nil] at hle
    omega
  | cons a rest ih =>
    have hpre : v ++ [a] <:+ pre ++ [a] := by
      obtain ⟨u, rfl⟩ := hv
      exact ⟨u, (List.append_assoc ..).symm⟩
    have hlen : (pre ++ [a]).length = pre.length + 1 := List.length_append
    have hcons : pre ++ a :: rest = pre ++ [a] ++ rest := List.append_cons ..
    have hva : (v ++ [a]).length = v.length + 1 := List.length_append
    rw [hcons]
    by_cases h : w <:+ v ++ [a]
    · -- a match ends here: what follows starts from its first `b` letters
      have hle := h.length_le
      have hle' := (h.trans hpre).length_le
      have hocc := occurs_of_suffix (h.trans hpre) rest
      have hih := fun y => @ih (w.take b) y (pre ++ [a]) (hb.trans (h.trans hpre))
      rw [hlen, List.length_take_of_le hbw.le] at hih
      rw [hits_cons_of_suffix h, List.mem_cons]
      rw [hlen] at hocc
      constructor
      · rintro (rfl | hx)
        · refine ⟨hocc, by omega, by omega, fun y hy hlt => ?_⟩
          rcases List.mem_cons.1 hy with rfl | hy
          · omega
          · have hstart := ((hih y).1 hy).2.2.1
            omega
        · obtain ⟨hx', hend, hstart, hcut⟩ := (hih x).1 hx
          refine ⟨hx', by omega, by omega, fun y hy hlt => ?_⟩
          rcases List.mem_cons.1 hy with rfl | hy
          · omega
          · exact hcut y hy hlt
      · rintro ⟨hx', hend, hstart, hcut⟩
        rw [or_iff_not_imp_left]
        intro hne
        have hfree := hcut _ List.mem_cons_self (by omega)
        exact (hih x).2 ⟨hx', by omega, by omega, fun y hy => hcut y (List.mem_cons_of_mem _ hy)⟩
    · rw [hits_cons_of_not_suffix h]
      have hih := @ih (v ++ [a]) x (pre ++ [a]) hpre
      rw [hlen, hva] at hih
      refine hih.trans (and_congr_right fun hocc => ?_)
      constructor
      · rintro ⟨hlt, hle, hcut⟩
        exact ⟨by omega, by omega, hcut⟩
      · rintro ⟨hlt, hle, hcut⟩
        refine ⟨?_, by omega, hcut⟩
        by_contra hend
        have hs : w <:+ pre ++ [a] := hocc.suffix (by omega)
        exact h (List.suffix_of_suffix_length_le hs hpre (by omega))

/-- Of a match that keeps a border, the reports are those of the occurrences that do not begin in
what an earlier report has used up. -/
theorem mem_hits_nil_iff (hb : w.take b <:+ w) (hbw : b < w.length) :
    x ∈ hits w b 0 [] text ↔
      Occurs w text x ∧ ∀ y ∈ hits w b 0 [] text, y < x → y + (w.length - b) ≤ x := by
  have h : x ∈ hits w b ([] : List α).length [] text ↔ _ := mem_hits_iff hb hbw List.suffix_rfl
  refine h.trans (and_congr_right fun _ => ?_)
  rw [List.length_nil, Nat.add_zero, and_iff_right (by omega), and_iff_right (Nat.zero_le x)]

/-- What follows a false start: the word, and its end once more. -/
theorem hits_append_drop (hbw : b < w.length) :
    hits w b 0 [] (w ++ w.drop b) = [0, w.length - b] := by
  have hw : w ≠ [] := List.ne_nil_of_length_pos (by omega)
  have hdrop : w.drop b ≠ [] := List.ne_nil_of_length_pos (by simp; omega)
  have hrest : hits w b w.length (w.take b) (w.drop b ++ []) = _ :=
    hits_append_of_eq hdrop (List.take_append_drop b w)
  rw [List.append_nil] at hrest
  rw [hits_self_append hw, hrest, List.length_drop, Nat.add_sub_cancel_left]
  rfl

/-- Every report is an occurrence, in every text that may be twice as long as the word, iff what is
kept is a border. -/
theorem hits_sound_iff (hbw : b < w.length) (hn : 2 * w.length ≤ n) :
    (∀ text, text.length ≤ n → ∀ x ∈ hits w b 0 [] text, Occurs w text x) ↔ w.take b <:+ w := by
  constructor
  · intro h
    have hocc := h (w ++ w.drop b) (by simp; omega) (w.length - b) (by simp [hits_append_drop hbw])
    have hstart : Occurs w (w ++ w.drop b) 0 := List.prefix_append ..
    have hborder := hstart.border hocc (Nat.zero_le _) (by omega)
    rwa [Nat.zero_add, Nat.sub_sub_self hbw.le] at hborder
  · exact fun hb text _ x hx => ((mem_hits_nil_iff hb hbw).1 hx).1

/-- The reports are the occurrences iff what is kept is the longest border. -/
theorem hits_exact_iff (hbw : b < w.length) (hn : 2 * w.length ≤ n) :
    (∀ text, text.length ≤ n → ∀ x, x ∈ hits w b 0 [] text ↔ Occurs w text x) ↔
      overlap w w (w.length - 1) = b := by
  constructor
  · intro h
    have hb := (hits_sound_iff hbw hn).1 fun text ht x => (h text ht x).1
    refine overlap_eq_of_isGreatest ⟨⟨by omega, hb⟩, ?_⟩
    rintro k ⟨hkw, hk⟩
    -- a longer border would put an occurrence before what the matcher has kept
    by_contra! hbk
    have hocc := (h _ (by simp; omega) _).2 (occurs_append_drop hk (by omega))
    have hzero : 0 ∈ hits w b 0 [] (w ++ w.drop k) := by
      rw [hits_self_append (List.ne_nil_of_length_pos (by omega))]
      exact List.mem_cons_self
    have hcut := ((mem_hits_nil_iff hb hbw).1 hocc).2 0 hzero (by omega)
    omega
  · rintro rfl text - x
    have hb : w.take (overlap w w (w.length - 1)) <:+ w := take_overlap_suffix
    rw [mem_hits_nil_iff hb hbw, and_iff_left_iff_imp]
    intro hx y hy hyx
    have hocc := ((mem_hits_nil_iff hb hbw).1 hy).1
    by_contra! hlt
    have hborder := hocc.border hx hyx.le (by omega)
    have hle := le_overlap (m := w.length - 1) (by omega) hborder
    omega

theorem head_hits_of_not_occurs {pre : List α} (hw : w ≠ []) (hpre : ∀ x, ¬ Occurs w pre x) :
    (hits w b pre.length pre rest).head? = some x ↔
      IsLeast {x | Occurs w (pre ++ rest) x} x := by
  induction rest generalizing pre with
  | nil =>
    rw [List.append_nil]
    exact iff_of_false (by simp [hits]) fun h => hpre x h.1
  | cons a rest ih =>
    have hlen : (pre ++ [a]).length = pre.length + 1 := List.length_append
    rw [List.append_cons]
    by_cases h : w <:+ pre ++ [a]
    · have hle := h.length_le
      have hleast : IsLeast {x | Occurs w (pre ++ [a] ++ rest) x} (pre.length + 1 - w.length) := by
        refine ⟨hlen ▸ occurs_of_suffix h rest, fun y hy => ?_⟩
        by_contra! hlt
        have hy' : Occurs w (pre ++ ([a] ++ rest)) y := List.append_assoc pre [a] rest ▸ hy
        exact hpre y (hy'.of_append (by omega))
      rw [hits_cons_of_suffix h, List.head?_cons, Option.some_inj]
      exact ⟨fun hx => hx ▸ hleast, hleast.unique⟩
    · rw [hits_cons_of_not_suffix h, ← hlen]
      refine ih fun y hy => ?_
      have hend := hy.le hw
      rcases (hlen ▸ hend).eq_or_lt with heq | hlt
      · have hy' : Occurs w (pre ++ [a] ++ []) y := by rwa [List.append_nil]
        exact h (hy'.suffix (heq.trans hlen.symm))
      · exact hpre y (hy.of_append (by omega))

/-- The first report is the first occurrence, whatever is kept. -/
theorem head_hits (hw : w ≠ []) :
    (hits w b 0 [] text).head? = some x ↔ IsLeast {x | Occurs w text x} x := by
  have hnil : ∀ x, ¬ Occurs w ([] : List α) x := by
    intro x h
    have hle := h.le hw
    have hpos := List.length_pos_of_ne_nil hw
    rw [List.length_nil] at hle
    omega
  exact head_hits_of_not_occurs hw hnil

/-- Nothing is reported iff the word does not occur. -/
theorem hits_eq_nil_iff (hw : w ≠ []) :
    hits w b 0 [] text = [] ↔ ∀ x, ¬ Occurs w text x := by
  constructor
  · intro h x hx
    classical
    have hex : ∃ x, Occurs w text x := ⟨x, hx⟩
    have hhead := (head_hits (b := b) hw).2 ⟨Nat.find_spec hex, fun y hy => Nat.find_min' hex hy⟩
    rw [h] at hhead
    exact absurd hhead (by simp)
  · intro h
    rcases hl : hits w b 0 [] text with - | ⟨x, l⟩
    · rfl
    · have hhead : (hits w b 0 [] text).head? = some x := by rw [hl, List.head?_cons]
      exact absurd ((head_hits hw).1 hhead).1 (h x)

end Hits

end Borders
