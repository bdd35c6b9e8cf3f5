import LxToolset.Borders
import Mathlib.Data.BitVec

/-!
# bgrep

The bytes of the arguments are stored last first, so that the tool does not find itself, and the
links of `make_kmp_links` are positions in that order. Through them `p` stands for the letters that
are read of the word (`Reads`), and what is printed are the `hits` of a matcher that keeps as much
as `look_for_link[0]` says (`scan_eq`). That link is one of the word without its last letter, so
that the reports of some words are wrong (`kept`).
-/

namespace LxToolset

open Borders

/-! ## The arguments -/

/-- `push_hex_digit`: `v` with a digit more. -/
def pushHexDigit (x : UInt8) (v : ℕ) : Option ℕ :=
  let x := (x ||| 32).toNat
  if 48 ≤ x ∧ x ≤ 57 then some (v * 16 + (x - 48))
  else if 97 ≤ x ∧ x ≤ 102 then some (v * 16 + (x - 97 + 10))
  else none

/-- The messages with which `main` gives up on its arguments. -/
inductive BgrepError where
  /-- `Bad hex digit (%d+%d)` -/
  | badHexDigit (i p : ℕ)
  /-- `Truncated byte (%d)` -/
  | truncatedByte (i : ℕ)
  deriving DecidableEq

/-- The loop over the characters of `argv[i]`, from its character `p` on. -/
def bgrepArg (i : ℕ) : ℕ → List UInt8 → ℕ → List UInt8 → Except BgrepError (ℕ × List UInt8)
  | _, [], a, lookFor => .ok (a, lookFor)
  | p, x :: rest, a, lookFor =>
    match pushHexDigit x a with
    | none => .error (.badHexDigit i p)
    | some a =>
      if a &&& 0x100 ≠ 0 then bgrepArg i (p + 1) rest 1 (lookFor ++ [UInt8.ofNat (a &&& 0xFF)])
      else bgrepArg i (p + 1) rest a lookFor

/-- The loop over the arguments, from `argv[i]` on. -/
def bgrepArgs : ℕ → List (List UInt8) → ℕ → List UInt8 → Except BgrepError (List UInt8)
  | _, [], _, lookFor => .ok lookFor
  | i, arg :: args, a, lookFor => do
    let (a, lookFor) ← bgrepArg i 0 arg a lookFor
    if a ≠ 1 then .error (.truncatedByte i) else bgrepArgs (i + 1) args a lookFor

/-! ## The search -/

/-- `look_for[i+1 .. ] == look_for[j .. ]`, as `memcmp` compares them. -/
def sameRest (lookFor : List UInt8) (i j : ℕ) : Bool :=
  (lookFor.drop (i + 1)).take (lookFor.length - j) = (lookFor.drop j).take (lookFor.length - j)

/-- The link of `i`: the first `j` from `i + 2` on decides, else it stays what it was set to. -/
def kmpLink (lookFor : List UInt8) (i : ℕ) : ℕ :=
  match (List.range' (i + 2) (lookFor.length - (i + 2))).find? (sameRest lookFor i) with
  | some j => j - 1
  | none => lookFor.length - 1

/-- `make_kmp_links`. -/
def makeKmpLinks (lookFor : List UInt8) : List ℕ :=
  (List.range lookFor.length).map (kmpLink lookFor)

/-- `while(p != n_look_for - 1 && c != look_for[p]) p = look_for_link[p];`, at most `fuel` times. -/
def followLinks (lookFor : List UInt8) (link : List ℕ) (c : UInt8) : ℕ → ℕ → Option ℕ
  | 0, _ => none
  | fuel + 1, p =>
    if p = lookFor.length - 1 then some p
    else do
      if c = (← lookFor[p]?) then some p else followLinks lookFor link c fuel (← link[p]?)

/-- The variables of the search, and the offsets printed. -/
structure BgrepState where
  o : UInt64
  p : ℕ
  printed : List UInt64
  deriving DecidableEq

/-- A byte of `buf`. It is `none` if the loop does not end, or reads outside its tables. -/
def BgrepState.byte (lookFor : List UInt8) (link : List ℕ) (s : BgrepState) (c : UInt8) :
    Option BgrepState := do
  let o := s.o + 1
  let p ← followLinks lookFor link c lookFor.length s.p
  if c = (← lookFor[p]?) then
    if p = 0 then some ⟨o, ← link[p]?, s.printed ++ [o - UInt64.ofNat lookFor.length]⟩
    else some ⟨o, p - 1, s.printed⟩
  else some ⟨o, p, s.printed⟩

/-- The loop over `fread`, that ends when nothing is read. -/
def BgrepState.search (lookFor : List UInt8) (link : List ℕ) :
    BgrepState → List (List UInt8) → Option BgrepState
  | s, [] => some s
  | s, buf :: reads =>
    if buf.length = 0 then some s
    else do BgrepState.search lookFor link (← buf.foldlM (BgrepState.byte lookFor link) s) reads

/-- How `main` ends. -/
inductive BgrepEnd where
  | usage
  | failed (e : BgrepError)
  | printed (offsets : List UInt64)
  deriving DecidableEq

/-- `main`, from `argv[optind]` on. Without a byte to look for it is `none`: `q` and `p` begin
outside `look_for`. -/
def bgrep (optind : ℕ) (args reads : List (List UInt8)) : Option BgrepEnd :=
  if args.length * 2 = 0 then some .usage
  else
    match bgrepArgs optind args 1 [] with
    | .error e => some (.failed e)
    | .ok bytes =>
      if bytes = [] then none
      else
        let lookFor := bytes.reverse
        let s : BgrepState := ⟨0, lookFor.length - 1, []⟩
        (s.search lookFor (makeKmpLinks lookFor) reads).map fun s => .printed s.printed

/-! ## The links -/

section Links

variable {w : List UInt8} {i j k m : ℕ}

theorem sameRest_reverse (hk : k < m) (hm : m < w.length) :
    sameRest w.reverse (w.length - 1 - m) (w.length - k) ↔ w.take k <:+ w.take m := by
  have hfirst : w.length - (w.length - (w.length - k)) = w.length - k := by omega
  have hlast : w.length - (w.length - 1 - m + 1) = m := by omega
  have hlen : (w.take m).length = m := List.length_take_of_le hm.le
  have hlenk : (w.take k).length = k := List.length_take_of_le (by omega)
  have hsub : w.length - (w.length - k) = k := by omega
  rw [sameRest, decide_eq_true_iff, List.length_reverse, hsub, List.drop_reverse,
    List.drop_reverse, hlast, hsub, List.take_of_length_le (l := (w.take k).reverse) (by simp),
    List.take_reverse, List.reverse_inj, List.suffix_iff_eq_drop, hlen, hlenk]
  exact eq_comm

/-- The link of `p` stands for the next shorter overlap. -/
theorem kmpLink_reverse (hm : m < w.length) :
    kmpLink w.reverse (w.length - 1 - m) = w.length - 1 - overlap w (w.take m) (m - 1) := by
  have hle : overlap w (w.take m) (m - 1) ≤ m - 1 := overlap_le
  rw [kmpLink, List.length_reverse]
  split
  · rename_i j hj
    rw [List.find?_range'_eq_some, List.mem_range'_1] at hj
    obtain ⟨hsame, ⟨hj1, hj2⟩, hfirst⟩ := hj
    have hjk : w.length - (w.length - j) = j := by omega
    have hk : w.take (w.length - j) <:+ w.take m := by
      rwa [← sameRest_reverse (by omega) hm, hjk]
    rw [overlap_eq_of_isGreatest (k := w.length - j)]
    · omega
    · refine ⟨⟨by omega, hk⟩, ?_⟩
      rintro k ⟨hkm, hk'⟩
      by_contra! hlt
      have hnot := hfirst (w.length - k) (by omega) (by omega)
      rw [(sameRest_reverse (by omega) hm).2 hk'] at hnot
      exact absurd hnot (by simp)
  · rename_i hj
    rw [List.find?_range'_eq_none] at hj
    rw [overlap_eq_of_isGreatest (k := 0), Nat.sub_zero]
    refine ⟨⟨Nat.zero_le _, by simp⟩, ?_⟩
    rintro k ⟨hkm, hk'⟩
    by_contra! hpos
    have hnot := hj (w.length - k) (by omega) (by omega)
    rw [(sameRest_reverse (by omega) hm).2 hk'] at hnot
    exact absurd hnot (by simp)

theorem getElem?_makeKmpLinks (hm : m < w.length) :
    (makeKmpLinks w.reverse)[w.length - 1 - m]? =
      some (w.length - 1 - overlap w (w.take m) (m - 1)) := by
  rw [makeKmpLinks, List.getElem?_map, List.length_reverse, List.getElem?_range (by omega),
    Option.map_some, kmpLink_reverse hm]

theorem getElem?_lookFor (hm : m < w.length) : w.reverse[w.length - 1 - m]? = w[m]? := by
  rw [List.getElem?_reverse (by omega)]
  congr 1
  omega

end Links

/-! ## What the search has read -/

section Search

variable {w v : List UInt8} {c : UInt8} {k m fuel : ℕ}

/-- The letters kept after a match: those that `look_for_link[0]` stands for. -/
def kept (w : List UInt8) : ℕ :=
  overlap w (w.take (w.length - 1)) (w.length - 1 - 1)

theorem kept_lt (hw : w ≠ []) : kept w < w.length := by
  have hpos := List.length_pos_of_ne_nil hw
  have hle : kept w ≤ w.length - 1 - 1 := overlap_le
  omega

theorem overlap_take_kept (hw : w ≠ []) : overlap w (w.take (kept w)) (w.length - 1) = kept w := by
  have hlt := kept_lt hw
  refine overlap_eq_of_isGreatest ⟨⟨by omega, List.suffix_rfl⟩, ?_⟩
  rintro k ⟨hk, hv⟩
  have hle := hv.length_le
  simp only [List.length_take] at hle
  omega

/-- The longest overlap that the next letter is one of. -/
structure Follows (w v : List UInt8) (c : UInt8) (m r : ℕ) : Prop where
  le : r ≤ m
  suffix : w.take r <:+ v
  stop : r = 0 ∨ w[r]? = some c
  max : ∀ k ≤ m, w.take k <:+ v → w[k]? = some c → k ≤ r

theorem followLinks_reverse (hm : m < w.length) (hv : w.take m <:+ v) (hfuel : m < fuel) :
    ∃ r, Follows w v c m r ∧ followLinks w.reverse (makeKmpLinks w.reverse) c fuel
      (w.length - 1 - m) = some (w.length - 1 - r) := by
  induction fuel generalizing m with
  | zero => omega
  | succ fuel ih =>
    rw [followLinks, List.length_reverse]
    split_ifs with hend
    · obtain rfl : m = 0 := by omega
      exact ⟨0, ⟨le_rfl, hv, .inl rfl, fun k hk _ _ => hk⟩, rfl⟩
    rw [getElem?_lookFor hm, List.getElem?_eq_getElem hm, getElem?_makeKmpLinks hm]
    by_cases hc : c = w[m]
    · exact ⟨m, ⟨le_rfl, hv, .inr (hc ▸ List.getElem?_eq_getElem hm), fun k hk _ _ => hk⟩,
        if_pos hc⟩
    · have hle : overlap w (w.take m) (m - 1) ≤ m - 1 := overlap_le
      have hborder : w.take (overlap w (w.take m) (m - 1)) <:+ w.take m := take_overlap_suffix
      obtain ⟨r, hr, heq⟩ := ih (by omega) (hborder.trans hv) (by omega)
      refine ⟨r, ⟨hr.le.trans (by omega), hr.suffix, hr.stop, fun k hk hkv hkc => ?_⟩,
        (if_neg hc).trans heq⟩
      -- a letter read at `m` itself would have stopped the loop
      have hkm : k ≠ m := by
        rintro rfl
        rw [List.getElem?_eq_getElem hm, Option.some_inj] at hkc
        exact hc hkc.symm
      exact hr.max k (le_overlap (by omega) ((take_suffix_iff hv hk).1 hkv)) hkv hkc

/-- The letter ends the word only where the overlap is all but its last letter. -/
theorem Follows.eq_of_suffix {r : ℕ} (h : Follows w v c (overlap w v (w.length - 1)) r)
    (hw : w ≠ []) (hs : w <:+ v ++ [c]) : r = w.length - 1 := by
  obtain ⟨hv, hc⟩ := (suffix_concat_iff hw).1 hs
  have hm : w.length - 1 ≤ overlap w v (w.length - 1) := le_overlap le_rfl hv
  exact le_antisymm (h.le.trans overlap_le) (h.max _ hm hv hc)

/-- The overlap with the letter, where it does not end the word. -/
theorem Follows.overlap_concat {r : ℕ} (h : Follows w v c (overlap w v (w.length - 1)) r)
    (hr : w[r]? = some c → r < w.length - 1) :
    overlap w (v ++ [c]) (w.length - 1) = if w[r]? = some c then r + 1 else r := by
  have hext : ∀ k, k + 1 ≤ w.length - 1 → w.take (k + 1) <:+ v ++ [c] → w[k]? = some c ∧ k ≤ r := by
    intro k hk hs
    obtain ⟨hv, hc⟩ := (take_succ_suffix_concat (by omega)).1 hs
    exact ⟨hc, h.max k (le_overlap (by omega) hv) hv hc⟩
  split_ifs with hc
  · have hlt := hr hc
    have hs := (take_succ_suffix_concat (by omega)).2 ⟨h.suffix, hc⟩
    refine overlap_eq_of_isGreatest ⟨⟨hlt, hs⟩, ?_⟩
    rintro (_ | k) ⟨hk, hs⟩
    · exact Nat.zero_le _
    · exact Nat.succ_le_succ (hext k hk hs).2
  · obtain rfl : r = 0 := h.stop.resolve_right hc
    refine overlap_eq_of_isGreatest ⟨⟨Nat.zero_le _, by simp⟩, ?_⟩
    rintro (_ | k) ⟨hk, hs⟩
    · exact le_rfl
    · obtain ⟨hkc, hk0⟩ := hext k hk hs
      obtain rfl : k = 0 := Nat.le_zero.1 hk0
      exact absurd hkc hc

/-- The state after `o` bytes, with `v` taken for read. -/
def searchState (w : List UInt8) (o : ℕ) (v : List UInt8) (printed : List UInt64) : BgrepState :=
  ⟨UInt64.ofNat o, w.length - 1 - overlap w v (w.length - 1), printed⟩

variable {o : ℕ} {printed : List UInt64}

/-- A match is printed, and the letters are forgotten that are not kept. -/
theorem byte_of_suffix (hw : w ≠ []) (hs : w <:+ v ++ [c]) (ho : v.length ≤ o) :
    (searchState w o v printed).byte w.reverse (makeKmpLinks w.reverse) c =
      some (searchState w (o + 1) (w.take (kept w))
        (printed ++ [UInt64.ofNat (o + 1 - w.length)])) := by
  have hpos := List.length_pos_of_ne_nil hw
  have hle := hs.length_le
  rw [List.length_append, List.length_singleton] at hle
  have hm : overlap w v (w.length - 1) < w.length := by
    have hm' : overlap w v (w.length - 1) ≤ w.length - 1 := overlap_le
    omega
  obtain ⟨r, hr, heq⟩ := followLinks_reverse (c := c) hm take_overlap_suffix hm
  obtain rfl := hr.eq_of_suffix hw hs
  obtain ⟨-, hc⟩ := (suffix_concat_iff hw).1 hs
  have hlink := getElem?_makeKmpLinks (w := w) (m := w.length - 1) (by omega)
  have hread := getElem?_lookFor (w := w) (m := w.length - 1) (by omega)
  have hnext : UInt64.ofNat o + 1 = UInt64.ofNat (o + 1) := (UInt64.ofNat_add o 1).symm
  have hoff := UInt64.ofNat_sub (a := o + 1) (b := w.length) (by omega)
  rw [Nat.sub_self] at hlink heq
  rw [Nat.sub_self, hc] at hread
  simp only [BgrepState.byte, searchState, List.length_reverse, heq, hread, hlink, hnext, hoff,
    overlap_take_kept hw, Option.bind_eq_bind, Option.bind_some, if_true]
  rfl

/-- Without a match the letter is read, and nothing printed. -/
theorem byte_of_not_suffix (hw : w ≠ []) (hs : ¬ w <:+ v ++ [c]) :
    (searchState w o v printed).byte w.reverse (makeKmpLinks w.reverse) c =
      some (searchState w (o + 1) (v ++ [c]) printed) := by
  have hpos := List.length_pos_of_ne_nil hw
  have hm : overlap w v (w.length - 1) < w.length := by
    have hm' : overlap w v (w.length - 1) ≤ w.length - 1 := overlap_le
    omega
  obtain ⟨r, hr, heq⟩ := followLinks_reverse (c := c) hm take_overlap_suffix hm
  have hrw : r < w.length := hr.le.trans_lt hm
  have hread := getElem?_lookFor hrw
  have hnext : UInt64.ofNat o + 1 = UInt64.ofNat (o + 1) := (UInt64.ofNat_add o 1).symm
  have hlt : w[r]? = some c → r < w.length - 1 := by
    intro hc
    refine lt_of_le_of_ne (by omega) fun heq => hs ?_
    rw [suffix_concat_iff hw, ← heq]
    exact ⟨hr.suffix, hc⟩
  have hover := hr.overlap_concat hlt
  rw [List.getElem?_eq_getElem hrw] at hread hlt hover
  by_cases hc : c = w[r]
  · have hne : w.length - 1 - r ≠ 0 := by
      have hlt' := hlt (congrArg some hc.symm)
      omega
    rw [if_pos (congrArg some hc.symm)] at hover
    simp only [BgrepState.byte, searchState, List.length_reverse, heq, hread, hover, if_neg hne,
      if_pos hc, hnext, Option.bind_eq_bind, Option.bind_some]
    rfl
  · rw [if_neg fun h => hc (Option.some_inj.1 h).symm] at hover
    simp only [BgrepState.byte, searchState, List.length_reverse, heq, hread, hover, if_neg hc,
      hnext, Option.bind_eq_bind, Option.bind_some]

theorem foldlM_byte (hw : w ≠ []) (text : List UInt8) (printed : List UInt64)
    (ho : v.length ≤ o) :
    ∃ u, text.foldlM (BgrepState.byte w.reverse (makeKmpLinks w.reverse))
        (searchState w o v printed) =
      some (searchState w (o + text.length) u
        (printed ++ (hits w (kept w) o v text).map UInt64.ofNat)) := by
  induction text generalizing o v printed with
  | nil => exact ⟨v, by simp [hits]⟩
  | cons c text ih =>
    rw [List.foldlM_cons]
    by_cases hs : w <:+ v ++ [c]
    · have hlen : (w.take (kept w)).length ≤ o + 1 := by
        have hle := hs.length_le
        rw [List.length_append, List.length_singleton] at hle
        simp only [List.length_take]
        omega
      obtain ⟨u, hu⟩ := ih (printed ++ [UInt64.ofNat (o + 1 - w.length)]) hlen
      rw [byte_of_suffix hw hs ho, hits_cons_of_suffix hs]
      exact ⟨u, by simpa [Nat.add_assoc, Nat.add_comm 1] using hu⟩
    · obtain ⟨u, hu⟩ := ih (v := v ++ [c]) (o := o + 1) printed (by simpa using ho)
      rw [byte_of_not_suffix hw hs, hits_cons_of_not_suffix hs]
      exact ⟨u, by simpa [Nat.add_assoc, Nat.add_comm 1] using hu⟩

/-- What `fread` delivers, up to the first time it delivers nothing. -/
def delivered (reads : List (List UInt8)) : List UInt8 :=
  (reads.takeWhile (·.length ≠ 0)).flatten

/-- How the bytes are cut up by `fread` makes no difference. -/
theorem search_eq_foldlM {lookFor : List UInt8} {link : List ℕ} {s : BgrepState}
    {reads : List (List UInt8)} : s.search lookFor link reads =
      (delivered reads).foldlM (BgrepState.byte lookFor link) s := by
  induction reads generalizing s with
  | nil => rfl
  | cons buf reads ih =>
    rw [BgrepState.search, delivered, List.takeWhile_cons]
    by_cases hbuf : buf.length = 0
    · rw [if_pos hbuf, if_neg (by simpa using hbuf)]
      rfl
    · rw [if_neg hbuf, if_pos (by simpa using hbuf), List.flatten_cons, List.foldlM_append]
      exact bind_congr fun s => ih

end Search

/-! ## What the arguments spell -/

section Arguments

variable {x y : UInt8} {a v i p : ℕ} {arg lookFor bs : List UInt8} {args : List (List UInt8)}

/-- The value of a digit. -/
def hexDigit (x : UInt8) : Option ℕ :=
  pushHexDigit x 0

/-- The bytes whose digits stand in `arg`, two for each. -/
def spelled : List UInt8 → Option (List UInt8)
  | [] => some []
  | [_] => none
  | x :: y :: rest => do
    let a ← hexDigit x
    let b ← hexDigit y
    return UInt8.ofNat (a * 16 + b) :: (← spelled rest)

theorem pushHexDigit_eq (x : UInt8) (v : ℕ) :
    pushHexDigit x v = (hexDigit x).map (v * 16 + ·) := by
  simp only [hexDigit, pushHexDigit]
  split_ifs <;> simp

theorem hexDigit_lt (h : hexDigit x = some a) : a < 16 := by
  simp only [hexDigit, pushHexDigit] at h
  split_ifs at h <;> simp only [Option.some_inj] at h <;> omega

theorem hundred_of_first : ∀ a < 16, (1 * 16 + a) &&& 0x100 = 0 := by
  decide

theorem hundred_of_second : ∀ a < 16, ∀ b < 16,
    ((1 * 16 + a) * 16 + b) &&& 0x100 ≠ 0 ∧ ((1 * 16 + a) * 16 + b) &&& 0xFF = a * 16 + b := by
  decide +kernel

/-- Two digits make a byte, and leave `a` as it was. -/
theorem bgrepArg_cons_cons {b : ℕ} {rest : List UInt8} (hx : hexDigit x = some a)
    (hy : hexDigit y = some b) : bgrepArg i p (x :: y :: rest) 1 lookFor =
      bgrepArg i (p + 1 + 1) rest 1 (lookFor ++ [UInt8.ofNat (a * 16 + b)]) := by
  have ha := hexDigit_lt hx
  have hb := hexDigit_lt hy
  obtain ⟨hbit, hbyte⟩ := hundred_of_second a ha b hb
  simp only [bgrepArg, pushHexDigit_eq, hx, hy, Option.map_some, hundred_of_first a ha, ne_eq,
    not_true_eq_false, if_false, hbyte]
  rw [if_pos hbit]

theorem bgrepArg_of_spelled (h : spelled arg = some bs) :
    bgrepArg i p arg 1 lookFor = .ok (1, lookFor ++ bs) := by
  induction arg using spelled.induct generalizing p lookFor bs with
  | case1 =>
    obtain rfl : [] = bs := Option.some_inj.1 h
    rw [bgrepArg, List.append_nil]
  | case2 x => exact absurd h (by simp [spelled])
  | case3 x y rest ih =>
    simp only [spelled, Option.bind_eq_bind, Option.bind_eq_some_iff] at h
    obtain ⟨a, hx, b, hy, rest', hrest, hbs⟩ := h
    obtain rfl := Option.some_inj.1 hbs
    rw [bgrepArg_cons_cons hx hy, ih hrest, List.append_assoc]
    rfl

/-- What is not spelled out stops the loop, or leaves a digit over. -/
theorem bgrepArg_of_not_spelled (h : spelled arg = none) :
    ∀ r, bgrepArg i p arg 1 lookFor = .ok r → r.1 ≠ 1 := by
  induction arg using spelled.induct generalizing p lookFor with
  | case1 => exact absurd h (by simp [spelled])
  | case2 x =>
    intro r hr
    rcases hx : hexDigit x with - | a
    · simp [bgrepArg, pushHexDigit_eq, hx] at hr
    · have ha := hexDigit_lt hx
      simp only [bgrepArg, pushHexDigit_eq, hx, Option.map_some, hundred_of_first a ha, ne_eq,
        not_true_eq_false, if_false, Except.ok.injEq] at hr
      subst hr
      simp only [ne_eq]
      omega
  | case3 x y rest ih =>
    intro r hr
    rcases hx : hexDigit x with - | a
    · simp [bgrepArg, pushHexDigit_eq, hx] at hr
    rcases hy : hexDigit y with - | b
    · simp [bgrepArg, pushHexDigit_eq, hx, hy, hundred_of_first a (hexDigit_lt hx)] at hr
    rw [bgrepArg_cons_cons hx hy] at hr
    refine ih ?_ r hr
    rcases hrest : spelled rest with - | rest'
    · rfl
    · simp [spelled, hx, hy, hrest] at h

/-- The arguments are accepted when each spells out bytes, and these are looked for. -/
theorem bgrepArgs_toOption (i : ℕ) (args : List (List UInt8)) (lookFor : List UInt8) :
    (bgrepArgs i args 1 lookFor).toOption = (args.mapM spelled).map (lookFor ++ ·.flatten) := by
  induction args generalizing i lookFor with
  | nil => simp [bgrepArgs, Except.toOption]
  | cons arg args ih =>
    rw [List.mapM_cons]
    rcases hs : spelled arg with - | bs
    · rcases hr : bgrepArg i 0 arg 1 lookFor with e | r
      · simp [bgrepArgs, hr, Except.toOption, bind, Except.bind]
      · have hne := bgrepArg_of_not_spelled hs r hr
        simp [bgrepArgs, hr, hne, Except.toOption, bind, Except.bind]
    · have hr : bgrepArg i 0 arg 1 lookFor = .ok (1, lookFor ++ bs) := bgrepArg_of_spelled hs
      have hargs := ih (i + 1) (lookFor ++ bs)
      rcases hp : args.mapM spelled with - | parts
      · simpa [bgrepArgs, hr, hp, bind, Except.bind] using hargs
      · simpa [bgrepArgs, hr, hp, bind, Except.bind] using hargs

theorem bgrepArgs_eq_ok_iff {parts : List (List UInt8)} (hargs : args.mapM spelled = some parts) :
    bgrepArgs i args 1 [] = .ok parts.flatten := by
  have h := bgrepArgs_toOption i args []
  rw [hargs, Option.map_some, List.nil_append] at h
  rcases hr : bgrepArgs i args 1 [] with e | bytes
  · rw [hr] at h
    exact absurd h (by simp [Except.toOption])
  · rw [hr, Except.toOption, Option.some_inj] at h
    rw [h]

end Arguments

/-! ## What is printed -/

section Main

variable {optind : ℕ} {args parts reads : List (List UInt8)} {stdin : List UInt8}

/-- The tool takes its arguments for the bytes that they spell, and prints the hits of a matcher
that keeps `kept` letters of them, however its input comes in. -/
theorem bgrep_prints (hargs : args.mapM spelled = some parts) (hw : parts.flatten ≠ []) :
    bgrep optind args reads = some (.printed ((hits parts.flatten (kept parts.flatten) 0 []
      (delivered reads)).map UInt64.ofNat)) := by
  have hne : args.length * 2 ≠ 0 := by
    rcases args with - | ⟨arg, args⟩
    · obtain rfl : [] = parts := Option.some_inj.1 hargs
      exact absurd rfl hw
    · simp
  have hstart : searchState parts.flatten 0 [] [] =
      ⟨0, parts.flatten.reverse.length - 1, []⟩ := by
    have hzero : overlap parts.flatten [] (parts.flatten.length - 1) = 0 := by
      refine overlap_eq_of_isGreatest ⟨⟨Nat.zero_le _, by simp⟩, ?_⟩
      rintro k ⟨hk, hs⟩
      have hle := hs.length_le
      simp only [List.length_take, List.length_nil] at hle
      omega
    rw [searchState, hzero, List.length_reverse]
    rfl
  obtain ⟨u, hu⟩ := foldlM_byte hw (v := []) (o := 0) (delivered reads) [] le_rfl
  rw [hstart, ← search_eq_foldlM] at hu
  simp only [bgrep, if_neg hne, bgrepArgs_eq_ok_iff hargs, if_neg hw, hu, Option.map_some]
  rfl

/-- What `fread` delivers of `stdin` to a `buf` of 4096 bytes, one read after the other. -/
def freads : ℕ → List UInt8 → List (List UInt8)
  | 0, _ => []
  | n + 1, stdin => stdin.take 4096 :: freads n (stdin.drop 4096)

theorem delivered_freads {n : ℕ} (h : stdin.length ≤ n) : delivered (freads n stdin) = stdin := by
  induction n generalizing stdin with
  | zero =>
    rw [List.length_eq_zero_iff.1 (Nat.le_zero.1 h)]
    rfl
  | succ n ih =>
    rw [delivered, freads, List.takeWhile_cons]
    rcases eq_or_ne stdin [] with rfl | hne
    · rfl
    · have hpos := List.length_pos_of_ne_nil hne
      have htake : (stdin.take 4096).length ≠ 0 := by
        rw [List.length_take]
        omega
      have hdrop : (stdin.drop 4096).length ≤ n := by
        rw [List.length_drop]
        omega
      rw [if_pos (by simpa using htake), List.flatten_cons]
      exact (congrArg _ (ih hdrop)).trans (List.take_append_drop ..)

/-- The offsets printed for `stdin`. -/
def offsets (optind : ℕ) (args : List (List UInt8)) (stdin : List UInt8) : Option (List UInt64) :=
  match bgrep optind args (freads stdin.length stdin) with
  | some (.printed offsets) => some offsets
  | _ => none

theorem offsets_eq (hargs : args.mapM spelled = some parts) (hw : parts.flatten ≠ []) :
    offsets optind args stdin =
      some ((hits parts.flatten (kept parts.flatten) 0 [] stdin).map UInt64.ofNat) := by
  rw [offsets, bgrep_prints hargs hw, delivered_freads le_rfl]

theorem toNat_ofNat_of_mem_hits {w : List UInt8} {b x : ℕ} (hlen : stdin.length < 2 ^ 64)
    (hx : x ∈ hits w b 0 [] stdin) : (UInt64.ofNat x).toNat = x := by
  have hle := add_length_le_of_mem_hits (Nat.zero_le 0) hx
  have hsize : UInt64.size = 2 ^ 64 := rfl
  exact UInt64.toNat_ofNat_of_lt' (by omega)

theorem mem_map_ofNat_iff {w : List UInt8} {b : ℕ} {x : UInt64} (hlen : stdin.length < 2 ^ 64) :
    x ∈ (hits w b 0 [] stdin).map UInt64.ofNat ↔ x.toNat ∈ hits w b 0 [] stdin := by
  rw [List.mem_map]
  constructor
  · rintro ⟨y, hy, rfl⟩
    rwa [toNat_ofNat_of_mem_hits hlen hy]
  · exact fun h => ⟨x.toNat, h, UInt64.ofNat_toNat⟩

theorem mapM_spelled_aab : [[54, 49, 54, 49, 54, 50]].mapM spelled = some [[97, 97, 98]] := by
  decide

theorem mapM_spelled_ab : [[54, 49], [54, 50]].mapM spelled = some [[97], [98]] := by
  decide

/-- `bgrep 616162` goes on after a match as if it had read an `a`. -/
theorem bgrep_prints_aab : bgrep 1 [[54, 49, 54, 49, 54, 50]] [[97, 97, 98, 97, 98]] =
    some (.printed [0, 2]) :=
  bgrep_prints mapM_spelled_aab (by decide)

/-- The tool prints only offsets where the bytes stand, whatever its input, iff what it keeps is a
border of them. -/
theorem bgrep_sound_iff (hargs : args.mapM spelled = some parts) (hw : parts.flatten ≠ [])
    (hlen : parts.flatten.length < 2 ^ 31) :
    (∀ stdin, stdin.length < 2 ^ 64 → ∀ l, offsets optind args stdin = some l →
      ∀ x ∈ l, Occurs parts.flatten stdin x.toNat) ↔
        parts.flatten.take (kept parts.flatten) <:+ parts.flatten := by
  rw [← hits_sound_iff (n := 2 ^ 64 - 1) (kept_lt hw) (by omega)]
  constructor
  · intro h text htext x hx
    have hlt : text.length < 2 ^ 64 := by omega
    have hocc := h text hlt _ (offsets_eq hargs hw) _ (List.mem_map_of_mem hx)
    rwa [toNat_ofNat_of_mem_hits hlt hx] at hocc
  · intro h stdin hstdin l hl x hx
    rw [offsets_eq hargs hw, Option.some_inj] at hl
    subst hl
    exact h stdin (by omega) _ ((mem_map_ofNat_iff hstdin).1 hx)

theorem bgrep_sound_iff_aab : ¬ ∀ stdin, stdin.length < 2 ^ 64 → ∀ l,
    offsets 1 [[54, 49, 54, 49, 54, 50]] stdin = some l →
      ∀ x ∈ l, Occurs [97, 97, 98] stdin x.toNat :=
  fun h => absurd ((bgrep_sound_iff mapM_spelled_aab (by decide) (by decide)).1 h) (by decide)

/-- It prints all of these offsets iff what it keeps is the longest border of the bytes. -/
theorem bgrep_exact_iff (hargs : args.mapM spelled = some parts) (hw : parts.flatten ≠ [])
    (hlen : parts.flatten.length < 2 ^ 31) :
    (∀ stdin, stdin.length < 2 ^ 64 → ∀ l, offsets optind args stdin = some l →
      ∀ x, x ∈ l ↔ Occurs parts.flatten stdin x.toNat) ↔
        overlap parts.flatten parts.flatten (parts.flatten.length - 1) = kept parts.flatten := by
  rw [← hits_exact_iff (n := 2 ^ 64 - 1) (kept_lt hw) (by omega)]
  constructor
  · intro h text htext x
    have hlt : text.length < 2 ^ 64 := by omega
    have hmem := h text hlt _ (offsets_eq hargs hw)
    have hiff : ∀ y < 2 ^ 64,
        y ∈ hits parts.flatten (kept parts.flatten) 0 [] text ↔ Occurs parts.flatten text y := by
      intro y hy
      have hy' : (UInt64.ofNat y).toNat = y := UInt64.toNat_ofNat_of_lt' hy
      rw [← hy', ← mem_map_ofNat_iff hlt, hmem]
    constructor
    · intro hx
      have hle := add_length_le_of_mem_hits (Nat.zero_le 0) hx
      exact (hiff x (by omega)).1 hx
    · intro hx
      have hle := hx.le hw
      exact (hiff x (by omega)).2 hx
  · intro h stdin hstdin l hl x
    rw [offsets_eq hargs hw, Option.some_inj] at hl
    subst hl
    rw [mem_map_ofNat_iff hstdin, h stdin (by omega)]

theorem bgrep_exact_iff_ab : kept [97, 98] = 0 ∧ ∀ stdin, stdin.length < 2 ^ 64 → ∀ l,
    offsets 1 [[54, 49], [54, 50]] stdin = some l → ∀ x, x ∈ l ↔ Occurs [97, 98] stdin x.toNat :=
  ⟨by decide, (bgrep_exact_iff mapM_spelled_ab (by decide) (by decide)).2 (by decide)⟩

/-- Nothing is printed iff the bytes do not stand in the input, and what is printed first is where
they stand first. -/
theorem bgrep_first (hargs : args.mapM spelled = some parts) (hw : parts.flatten ≠ [])
    (hstdin : stdin.length < 2 ^ 64) :
    ∃ l, offsets optind args stdin = some l ∧
      (l = [] ↔ ∀ x, ¬ Occurs parts.flatten stdin x) ∧
      ∀ x, l.head? = some x ↔ IsLeast {y | Occurs parts.flatten stdin y} x.toNat := by
  refine ⟨_, offsets_eq hargs hw, by rw [List.map_eq_nil_iff, hits_eq_nil_iff hw], fun x => ?_⟩
  rw [← head_hits (b := kept parts.flatten) hw]
  rcases hl : hits parts.flatten (kept parts.flatten) 0 [] stdin with - | ⟨y, l⟩
  · simp
  · have hy := toNat_ofNat_of_mem_hits hstdin (hl ▸ List.mem_cons_self)
    rw [List.map_cons, List.head?_cons, List.head?_cons, Option.some_inj, Option.some_inj]
    exact ⟨fun h => h ▸ hy.symm, fun h => UInt64.toNat_inj.1 (hy.trans h)⟩

/-- The bytes `ab` in `aab`. -/
theorem bgrep_first_ab : ∃ l, offsets 1 [[54, 49], [54, 50]] [97, 97, 98] = some l ∧
    l.head? = some 1 := by
  have hlen : ([97, 97, 98] : List UInt8).length < 2 ^ 64 := by decide
  obtain ⟨l, hl, -, hfirst⟩ := @bgrep_first 1 _ _ [97, 97, 98] mapM_spelled_ab (by decide) hlen
  refine ⟨l, hl, (hfirst 1).2 ⟨by decide, fun y hy => Nat.pos_of_ne_zero ?_⟩⟩
  rintro rfl
  exact absurd hy (by decide)

end Main

end LxToolset
