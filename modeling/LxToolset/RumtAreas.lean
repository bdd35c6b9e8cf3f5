import LxToolset.CText
import LxToolset.PrintHoles
import LxToolset.RumtDaemon
import Mathlib.Data.Nat.Digits.Lemmas

/-!
# The areas that rumt_trymem reads

`rumt_trymem` takes areas as text, computed with an `int` of 32 bits. What `print_holes_linux`
prints of a hole is read as this hole exactly where its address and its size are below 2^31 and on
page boundaries (`parseArea_holeText`); so the two programs together test exactly the addresses that
the BIOS has and the user does not (`covered_holes`).
-/

namespace LxToolset

namespace Trymem

open PrintHoles

/-- The messages of `main` for an area. -/
inductive AreaError where
  | lowerBound | lowerUnit | upperBound | upperUnit | interval | lowerBoundary | upperBoundary
  deriving DecidableEq

def AreaError.message (a : String) : AreaError → String
  | lowerBound => "Invalid lower bound: '" ++ a ++ "'\n"
  | lowerUnit => "Invalid interval or lower unit: '" ++ a ++ "'\n"
  | upperBound => "Invalid upper bound: '" ++ a ++ "'\n"
  | upperUnit => "Invalid upper unit: '" ++ a ++ "'\n"
  | interval => "Invalid interval: '" ++ a ++ "'\n'"
  | lowerBoundary => "Lower bound not on page boundary: '" ++ a ++ "'\n'"
  | upperBoundary => "Upper bound not on page boundary: '" ++ a ++ "'\n'"

/-- Where `strtol` with base 0 ends, after the sign. -/
def digitsEnd : List Char → Option (List Char)
  | '0' :: x :: c :: cs =>
    if (x = 'x' ∨ x = 'X') ∧ digitVal c < 16 then
      some ((c :: cs).dropWhile fun c => digitVal c < 16)
    else some ((x :: c :: cs).dropWhile fun c => digitVal c < 8)
  | '0' :: cs => some (cs.dropWhile fun c => digitVal c < 8)
  | c :: cs => if digitVal c < 10 then some (cs.dropWhile fun c => digitVal c < 10) else none
  | [] => none

/-- `e` after `strtol(*t, &e, 0)`, unless it is `*t`. -/
def strtolEnd (t : List Char) : Option (List Char) :=
  match t.dropWhile isSpace with
  | '-' :: cs => digitsEnd cs
  | '+' :: cs => digitsEnd cs
  | cs => digitsEnd cs

/-- `u` after the `switch` -/
def unitOf (pageSize : ℕ) (c : Char) : ℤ :=
  if c = 'b' ∨ c = 'B' then 1
  else if c = 'k' ∨ c = 'K' then 1024
  else if c = 'm' ∨ c = 'M' then 1024 * 1024
  else if c = 'p' ∨ c = 'P' then pageSize
  else 0

/-- `number`, and the text behind the number. The product is one of `int`, which wraps. -/
def number (pageSize : ℕ) (t : List Char) : Option (ℤ × List Char) := do
  let e ← strtolEnd t
  match e with
  | c :: rest =>
    if unitOf pageSize c > 0 then return ((strtol t * unitOf pageSize c).bmod (2 ^ 32), rest)
    else return (strtol t, e)
  | [] => return (strtol t, [])

/-- The loop of `main` for one area. -/
def parseArea (pageSize : ℕ) (a : List Char) : Except AreaError Area :=
  match number pageSize a with
  | none => .error .lowerBound
  | some (l1, t) =>
    if l1 < 0 then .error .lowerBound
    else match t with
    | [] => .error .lowerUnit
    | c :: t =>
      if c ≠ '+' ∧ c ≠ '-' then .error .lowerUnit
      else match number pageSize t with
      | none => .error .upperBound
      | some (l2, t) =>
        if l2 < 0 then .error .upperBound
        else if t ≠ [] then .error .upperUnit
        else if c = '-' ∧ l2 - l1 < 0 then .error .interval
        else
          let l2 := if c = '-' then l2 - l1 else l2
          if l1 % pageSize ≠ 0 then .error .lowerBoundary
          else if l2 % pageSize ≠ 0 then .error .upperBoundary
          else .ok ⟨l1.toNat, (l2 / pageSize).toNat⟩

example : (parseArea 4096 "0x40000k+32768k".toList).toOption = some ⟨0x10000000, 8192⟩ := by
  decide

/-! ## Numbers in texts -/

section Text

variable {b n v : ℕ} {c : Char} {rest : List Char}

theorem digitVal_lowerDigit : ∀ d < 16, digitVal (lowerDigit d) = d := by
  decide

/-- The digits of a number, the highest first. -/
def digitList (b n : ℕ) : List ℕ :=
  if n = 0 then [0] else (Nat.digits b n).reverse

theorem numberText_eq (b n : ℕ) : numberText b n = (digitList b n).map lowerDigit := by
  rw [numberText, digitList]
  split_ifs <;> rfl

theorem lt_of_mem_digitList (hb : 1 < b) : ∀ d ∈ digitList b n, d < b := by
  intro d hd
  rw [digitList] at hd
  split_ifs at hd
  · rw [List.mem_singleton.1 hd]
    omega
  · exact Nat.digits_lt_base hb (List.mem_reverse.1 hd)

theorem foldl_digitList (b n : ℕ) : (digitList b n).foldl (fun v d => v * b + d) 0 = n := by
  rw [digitList]
  split_ifs with hzero
  · simp [hzero]
  · rw [List.foldl_reverse]
    have hof : ∀ l : List ℕ, l.foldr (fun d v => v * b + d) 0 = Nat.ofDigits b l := by
      intro l
      induction l with
      | nil => rfl
      | cons d l ih => rw [List.foldr_cons, ih, Nat.ofDigits_cons, Nat.mul_comm, Nat.add_comm]
    rw [hof, Nat.ofDigits_digits]

/-- Digits are read up to something that is none. -/
theorem digits_append (hb : b ≤ 16) (hc : b ≤ digitVal c) :
    ∀ (l : List ℕ) (v : ℕ), (∀ d ∈ l, d < b) →
      digits b v (l.map lowerDigit ++ c :: rest) = l.foldl (fun v d => v * b + d) v := by
  intro l
  induction l with
  | nil =>
    intro v _
    rw [List.map_nil, List.nil_append, digits, if_neg (Nat.not_lt_of_le hc), List.foldl_nil]
  | cons d l ih =>
    intro v hl
    have hd := hl d List.mem_cons_self
    rw [List.map_cons, List.cons_append, digits, digitVal_lowerDigit d (hd.trans_le hb), if_pos hd,
      ih _ fun e he => hl e (List.mem_cons_of_mem _ he), List.foldl_cons]

theorem dropWhile_append (hb : b ≤ 16) (hc : b ≤ digitVal c) :
    ∀ l : List ℕ, (∀ d ∈ l, d < b) →
      ((l.map lowerDigit ++ c :: rest).dropWhile fun c => digitVal c < b) = c :: rest := by
  intro l
  induction l with
  | nil =>
    intro _
    exact List.dropWhile_cons_of_neg (by simpa using hc)
  | cons d l ih =>
    intro hl
    have hd := hl d List.mem_cons_self
    rw [List.map_cons, List.cons_append, List.dropWhile_cons_of_pos
      (by simpa [digitVal_lowerDigit d (hd.trans_le hb)] using hd)]
    exact ih fun e he => hl e (List.mem_cons_of_mem _ he)

theorem digitList_eq_cons (b n : ℕ) : ∃ d l, digitList b n = d :: l := by
  rcases hlist : digitList b n with - | ⟨d, l⟩
  · have hvalue := foldl_digitList b n
    rw [hlist, List.foldl_nil] at hvalue
    rw [digitList, if_pos hvalue.symm] at hlist
    cases hlist
  · exact ⟨d, l, rfl⟩

/-- The first digit of a number that is not 0. -/
theorem head_digitList (hn : 0 < n) {d : ℕ} {l : List ℕ} (h : digitList b n = d :: l) :
    d ≠ 0 := by
  have hne : Nat.digits b n ≠ [] := Nat.digits_ne_nil_iff_ne_zero.2 hn.ne'
  have hlast := Nat.getLast_digit_ne_zero b hn.ne'
  rw [digitList, if_neg hn.ne'] at h
  have hhead : (Nat.digits b n).getLast hne = d := by
    have hsome := List.getLast?_eq_some_getLast hne
    rw [← List.head?_reverse, h, List.head?_cons] at hsome
    exact (Option.some.inj hsome).symm
  rwa [hhead] at hlast

theorem strtolDigits_hex {d : Char} (cs : List Char) (hd : digitVal d < 16) :
    strtolDigits ('0' :: 'x' :: d :: cs) = digits 16 0 (d :: cs) ∧
      digitsEnd ('0' :: 'x' :: d :: cs) =
        some ((d :: cs).dropWhile fun c => digitVal c < 16) := by
  constructor
  · simp [strtolDigits, hd]
  · simp [digitsEnd, hd]

theorem strtolDigits_dec {d : Char} (cs : List Char) (hzero : d ≠ '0') (hd : digitVal d < 10) :
    strtolDigits (d :: cs) = digits 10 0 (d :: cs) ∧
      digitsEnd (d :: cs) = some (cs.dropWhile fun c => digitVal c < 10) := by
  constructor
  · unfold strtolDigits
    split
    · exact absurd (List.cons.inj ‹_›).1 hzero
    · exact absurd (List.cons.inj ‹_›).1 hzero
    · rfl
  · unfold digitsEnd
    split
    · exact absurd (List.cons.inj ‹_›).1 hzero
    · exact absurd (List.cons.inj ‹_›).1 hzero
    · obtain ⟨rfl, rfl⟩ := List.cons.inj ‹_›
      exact if_pos hd
    · cases ‹_ :: _ = []›

/-- A number without a blank or a sign before it. -/
theorem strtol_cons {d : Char} (cs : List Char) (hspace : isSpace d = false) (hminus : d ≠ '-')
    (hplus : d ≠ '+') : strtol (d :: cs) = min (2 ^ 31 - 1) (strtolDigits (d :: cs) : ℤ) ∧
      strtolEnd (d :: cs) = digitsEnd (d :: cs) := by
  have hskip : (d :: cs).dropWhile isSpace = d :: cs :=
    List.dropWhile_cons_of_neg (by simp [hspace])
  constructor
  · unfold strtol
    rw [hskip]
    split
    · exact absurd (List.cons.inj ‹_›).1 hminus
    · exact absurd (List.cons.inj ‹_›).1 hplus
    · rfl
  · unfold strtolEnd
    rw [hskip]
    split
    · exact absurd (List.cons.inj ‹_›).1 hminus
    · exact absurd (List.cons.inj ‹_›).1 hplus
    · rfl

/-- `0x` and digits, as `strtol` reads them. -/
theorem strtol_hex (hc : 16 ≤ digitVal c) :
    strtol ('0' :: 'x' :: numberText 16 n ++ c :: rest) = min (2 ^ 31 - 1) (n : ℤ) ∧
      strtolEnd ('0' :: 'x' :: numberText 16 n ++ c :: rest) = some (c :: rest) := by
  obtain ⟨d, l, hlist⟩ := digitList_eq_cons 16 n
  have hlt := lt_of_mem_digitList (b := 16) (n := n) (by decide)
  have hd : digitVal (lowerDigit d) < 16 := by
    have hd := hlt d (by rw [hlist]; exact List.mem_cons_self)
    rwa [digitVal_lowerDigit d hd]
  have htext : numberText 16 n ++ c :: rest =
      lowerDigit d :: (l.map lowerDigit ++ c :: rest) := by
    rw [numberText_eq, hlist]
    rfl
  obtain ⟨hvalue, hend⟩ := strtolDigits_hex (l.map lowerDigit ++ c :: rest) hd
  obtain ⟨hstrtol, hstrtolEnd⟩ := strtol_cons (d := '0')
    ('x' :: lowerDigit d :: (l.map lowerDigit ++ c :: rest)) (by decide) (by decide)
    (by decide)
  rw [List.cons_append, List.cons_append, htext]
  rw [hstrtol, hstrtolEnd, hvalue, hend, ← htext, numberText_eq,
    digits_append le_rfl hc _ 0 hlt, dropWhile_append le_rfl hc _ hlt, foldl_digitList]
  exact ⟨rfl, rfl⟩

/-- Decimal digits, as `strtol` reads them. -/
theorem strtol_dec (hc : 10 ≤ digitVal c) (hpos : 0 < n) :
    strtol (numberText 10 n ++ c :: rest) = min (2 ^ 31 - 1) (n : ℤ) ∧
      strtolEnd (numberText 10 n ++ c :: rest) = some (c :: rest) := by
  obtain ⟨d, l, hlist⟩ := digitList_eq_cons 10 n
  have hlt := lt_of_mem_digitList (b := 10) (n := n) (by decide)
  have hd : d < 10 := hlt d (by rw [hlist]; exact List.mem_cons_self)
  have hdigit : ∀ d < 10, d ≠ 0 → lowerDigit d ≠ '0' ∧ lowerDigit d ≠ '-' ∧ lowerDigit d ≠ '+' ∧
      isSpace (lowerDigit d) = false := by decide
  obtain ⟨hzero, hminus, hplus, hspace⟩ := hdigit d hd (head_digitList hpos hlist)
  have hdv : digitVal (lowerDigit d) < 10 := by
    rwa [digitVal_lowerDigit d (by omega)]
  have htext : numberText 10 n ++ c :: rest =
      lowerDigit d :: (l.map lowerDigit ++ c :: rest) := by
    rw [numberText_eq, hlist]
    rfl
  obtain ⟨hvalue, hend⟩ := strtolDigits_dec (l.map lowerDigit ++ c :: rest) hzero hdv
  obtain ⟨hstrtol, hstrtolEnd⟩ := strtol_cons (l.map lowerDigit ++ c :: rest) hspace hminus
    hplus
  have htail : ∀ e ∈ l, e < 10 := fun e he =>
    hlt e (by rw [hlist]; exact List.mem_cons_of_mem _ he)
  rw [htext, hstrtol, hstrtolEnd, hvalue, hend, ← htext, numberText_eq,
    digits_append (by decide) hc _ 0 hlt, dropWhile_append (by decide) hc _ htail,
    foldl_digitList]
  exact ⟨rfl, rfl⟩

end Text

/-! ## Areas in texts -/

section Areas

variable {pageSize n : ℕ} {rest : List Char} {h : ℕ × ℕ}

/-- What is read of `n` kilobytes. -/
def kilobytes (n : ℕ) : ℤ :=
  (min (2 ^ 31 - 1) (n : ℤ) * 1024).bmod (2 ^ 32)

theorem kilobytes_lt (n : ℕ) : kilobytes n < 2 ^ 31 := by
  rw [kilobytes, Int.bmod]
  split_ifs <;> omega

theorem kilobytes_div {a : ℕ} (hkb : 1024 ∣ a) (ha : a < 2 ^ 31) : kilobytes (a / 1024) = a := by
  rw [kilobytes, Int.bmod]
  split_ifs <;> omega

/-- What is too large is read as something negative, or as something much smaller. -/
theorem kilobytes_large {a : ℕ} (hkb : 1024 ∣ a) (ha : 2 ^ 31 ≤ a) :
    kilobytes (a / 1024) < 0 ∨ kilobytes (a / 1024) + 2 ^ 32 ≤ a := by
  rw [kilobytes, Int.bmod]
  split_ifs <;> omega

theorem number_of_strtol {t : List Char} {v : ℤ} (hvalue : strtol t = v)
    (hend : strtolEnd t = some ('k' :: rest)) :
    number pageSize t = some ((v * 1024).bmod (2 ^ 32), rest) := by
  have hunit : unitOf pageSize 'k' = 1024 := by simp [unitOf]
  simp [number, hend, hvalue, hunit]

theorem number_hex : number pageSize ('0' :: 'x' :: numberText 16 n ++ 'k' :: rest) =
    some (kilobytes n, rest) := by
  obtain ⟨hvalue, hend⟩ := strtol_hex (c := 'k') (n := n) (by decide)
  exact number_of_strtol hvalue hend

theorem number_dec (hn : 0 < n) : number pageSize (numberText 10 n ++ 'k' :: rest) =
    some (kilobytes n, rest) := by
  obtain ⟨hvalue, hend⟩ := strtol_dec (c := 'k') (by decide) hn
  exact number_of_strtol hvalue hend

/-- What `main` makes of a hole. -/
theorem parseArea_kilobytes (hkb : 1024 ∣ h.1 ∧ 1024 ∣ h.2) (hlt : h.1 < h.2) :
    parseArea pageSize (holeText h) =
      if kilobytes (h.1 / 1024) < 0 then .error .lowerBound
      else if kilobytes ((h.2 - h.1) / 1024) < 0 then .error .upperBound
      else if kilobytes (h.1 / 1024) % pageSize ≠ 0 then .error .lowerBoundary
      else if kilobytes ((h.2 - h.1) / 1024) % pageSize ≠ 0 then .error .upperBoundary
      else .ok ⟨(kilobytes (h.1 / 1024)).toNat,
        (kilobytes ((h.2 - h.1) / 1024) / pageSize).toNat⟩ := by
  have hpos : 0 < (h.2 - h.1) / 1024 := by omega
  have htext : holeText h = '0' :: 'x' :: numberText 16 (h.1 / 1024) ++
      'k' :: '+' :: (numberText 10 ((h.2 - h.1) / 1024) ++ 'k' :: []) := by
    rw [holeText]
    simp
  rw [htext, parseArea, number_hex]
  have hplus : '+' ≠ '-' := by decide
  simp only [number_dec hpos]
  simp [hplus]

/-- Accepted areas have what was read. -/
theorem parseArea_ok {area : Area} (hkb : 1024 ∣ h.1 ∧ 1024 ∣ h.2) (hlt : h.1 < h.2)
    (hok : parseArea pageSize (holeText h) = .ok area) :
    0 ≤ kilobytes (h.1 / 1024) ∧ 0 ≤ kilobytes ((h.2 - h.1) / 1024) ∧
      kilobytes (h.1 / 1024) % pageSize = 0 ∧ kilobytes ((h.2 - h.1) / 1024) % pageSize = 0 ∧
      area = ⟨(kilobytes (h.1 / 1024)).toNat,
        (kilobytes ((h.2 - h.1) / 1024) / pageSize).toNat⟩ := by
  rw [parseArea_kilobytes hkb hlt] at hok
  split_ifs at hok with hlow hhigh hlower hupper
  exact ⟨Int.le_of_not_gt hlow, Int.le_of_not_gt hhigh, not_not.1 hlower, not_not.1 hupper,
    (Except.ok.inj hok).symm⟩

/-- What is printed of a hole is read as the hole exactly where its address and its size fit in an
`int` and are on page boundaries. -/
theorem parseArea_holeText (pageSize : ℕ) (h : ℕ × ℕ) (hpage : 0 < pageSize ∧ pageSize < 2 ^ 31)
    (hkb : 1024 ∣ h.1 ∧ 1024 ∣ h.2) (hlt : h.1 < h.2) :
    parseArea pageSize (holeText h) = .ok ⟨h.1, (h.2 - h.1) / pageSize⟩ ↔
      h.1 < 2 ^ 31 ∧ h.2 - h.1 < 2 ^ 31 ∧ pageSize ∣ h.1 ∧ pageSize ∣ h.2 - h.1 := by
  have hsize : 1024 ∣ h.2 - h.1 := Nat.dvd_sub hkb.2 hkb.1
  constructor
  · intro hok
    obtain ⟨hlow, hhigh, hlower, hupper, harea⟩ := parseArea_ok hkb hlt hok
    obtain ⟨hoffset, hpages⟩ := Area.mk.inj harea
    have hfirst : h.1 < 2 ^ 31 := by
      have hbound := kilobytes_lt (h.1 / 1024)
      omega
    have hsecond : h.2 - h.1 < 2 ^ 31 := by
      by_contra hge
      rcases kilobytes_large hsize (Nat.le_of_not_lt hge) with hneg | hsmall
      · omega
      · -- at least one page less than the hole has
        have hless : (kilobytes ((h.2 - h.1) / 1024)).toNat + pageSize ≤ h.2 - h.1 := by omega
        have hdiv := Nat.div_le_div_right (c := pageSize) hless
        rw [Nat.add_div_right _ hpage.1] at hdiv
        have hcast : (kilobytes ((h.2 - h.1) / 1024) / pageSize).toNat =
            (kilobytes ((h.2 - h.1) / 1024)).toNat / pageSize := by
          obtain ⟨v, hv⟩ := Int.eq_ofNat_of_zero_le hhigh
          rw [hv]
          norm_cast
        omega
    rw [kilobytes_div hkb.1 hfirst] at hlower
    rw [kilobytes_div hsize hsecond] at hupper
    exact ⟨hfirst, hsecond, Nat.dvd_of_mod_eq_zero (by exact_mod_cast hlower),
      Nat.dvd_of_mod_eq_zero (by exact_mod_cast hupper)⟩
  · rintro ⟨hfirst, hsecond, hlower, hupper⟩
    have hmod := Nat.mod_eq_zero_of_dvd hlower
    have hmod' := Nat.mod_eq_zero_of_dvd hupper
    rw [parseArea_kilobytes hkb hlt, kilobytes_div hkb.1 hfirst, kilobytes_div hsize hsecond,
      if_neg (by omega), if_neg (by omega), if_neg (not_not.2 (by exact_mod_cast hmod)),
      if_neg (not_not.2 (by exact_mod_cast hmod'))]
    norm_cast

theorem parseArea_holeText_small :
    parseArea 4096 (holeText (0x4000000, 0x8000000)) = .ok ⟨0x4000000, 0x4000⟩ :=
  (parseArea_holeText 4096 (0x4000000, 0x8000000) (by decide) ⟨by decide, by decide⟩
    (by decide)).2 ⟨by decide, by decide, by decide, by decide⟩

end Areas

/-! ## The holes as areas -/

section Cover

variable {dev : Device} {bios user hs : List (ℕ × ℕ)}

/-- The loop of `main` over its arguments -/
def parseAreas (pageSize : ℕ) (args : List (List Char)) : Except AreaError (List Area) :=
  args.mapM (parseArea pageSize)

/-- The hole as an area. -/
def areaOf (dev : Device) (h : ℕ × ℕ) : Area :=
  ⟨h.1, (h.2 - h.1) / dev.pageSize⟩

theorem parseAreas_holeText (hparse : ∀ h ∈ hs,
    parseArea dev.pageSize (holeText h) = .ok (areaOf dev h)) :
    parseAreas dev.pageSize (hs.map holeText) = .ok (hs.map (areaOf dev)) := by
  induction hs with
  | nil => rfl
  | cons h hs ih =>
    obtain ⟨hfirst, hrest⟩ := List.forall_mem_cons.1 hparse
    have hmore := ih hrest
    rw [parseAreas] at hmore ⊢
    rw [List.map_cons, List.mapM_cons, hfirst, hmore]
    rfl

/-- The pages of a hole are the multiples of the page size in it. -/
theorem mem_hole {h : ℕ × ℕ} (hdvd : dev.pageSize ∣ h.1 ∧ dev.pageSize ∣ h.2) {o : ℕ} :
    (∃ j < (h.2 - h.1) / dev.pageSize, h.1 + j * dev.pageSize = o) ↔
      dev.pageSize ∣ o ∧ h.1 ≤ o ∧ o < h.2 := by
  obtain ⟨⟨m, hm⟩, ⟨n, hn⟩⟩ := hdvd
  rw [hm, hn, ← Nat.mul_sub, Nat.mul_div_cancel_left _ dev.pos]
  constructor
  · rintro ⟨j, hj, rfl⟩
    have ho : dev.pageSize * m + j * dev.pageSize = dev.pageSize * (m + j) := by ring
    rw [ho]
    exact ⟨Nat.dvd_mul_right .., Nat.mul_le_mul_left _ (by omega),
      Nat.mul_lt_mul_of_pos_left (by omega) dev.pos⟩
  · rintro ⟨⟨k, rfl⟩, hle, hlt⟩
    have hle' := Nat.le_of_mul_le_mul_left hle dev.pos
    have hlt' := Nat.lt_of_mul_lt_mul_left hlt
    refine ⟨k - m, by omega, ?_⟩
    rw [Nat.mul_comm _ dev.pageSize, ← Nat.mul_add, Nat.add_sub_cancel' hle']

theorem pages_cons (h : ℕ × ℕ) : pages dev ((h :: hs).map (areaOf dev)) =
    ((List.range ((h.2 - h.1) / dev.pageSize)).map fun j => h.1 + j * dev.pageSize) ++
      pages dev (hs.map (areaOf dev)) := by
  rw [pages, List.map_cons, List.flatMap_cons]
  rfl

theorem mem_pages_areaOf (hdvd : ∀ h ∈ hs, dev.pageSize ∣ h.1 ∧ dev.pageSize ∣ h.2) {o : ℕ} :
    o ∈ pages dev (hs.map (areaOf dev)) ↔ dev.pageSize ∣ o ∧ Intervals.Mem o hs := by
  induction hs with
  | nil => simp [pages, Intervals.Mem]
  | cons h hs ih =>
    obtain ⟨hfirst, hrest⟩ := List.forall_mem_cons.1 hdvd
    rw [pages_cons, List.mem_append, ih hrest, Intervals.mem_cons, and_or_left, ← mem_hole hfirst]
    simp only [List.mem_map, List.mem_range]

theorem nodup_pages_areaOf (hdvd : ∀ h ∈ hs, dev.pageSize ∣ h.1 ∧ dev.pageSize ∣ h.2)
    (hapart : Intervals.Apart hs) : (pages dev (hs.map (areaOf dev))).Nodup := by
  induction hs with
  | nil => exact List.nodup_nil
  | cons h hs ih =>
    obtain ⟨hfirst, hrest⟩ := List.forall_mem_cons.1 hdvd
    obtain ⟨-, hgap, hapart'⟩ := Intervals.apart_cons.1 hapart
    rw [pages_cons, List.nodup_append]
    refine ⟨?_, ih hrest hapart', fun o ho o' ho' heq => ?_⟩
    · refine List.Nodup.map (fun j j' hj => ?_) List.nodup_range
      exact Nat.eq_of_mul_eq_mul_right dev.pos (Nat.add_left_cancel hj)
    · obtain ⟨j, hj, hjo⟩ := List.mem_map.1 ho
      have hend := ((mem_hole hfirst).1 ⟨j, List.mem_range.1 hj, hjo⟩).2.2
      have hstart := Intervals.lt_of_mem hgap ((mem_pages_areaOf hrest).1 ho').2
      omega

theorem page_le_of_lt {p o c : ℕ} (ho : p ∣ o) (hc : p ∣ c) (hlt : o < c) : o + p ≤ c := by
  obtain ⟨m, rfl⟩ := ho
  obtain ⟨n, rfl⟩ := hc
  rw [← Nat.mul_succ]
  exact Nat.mul_le_mul_left _ (Nat.lt_of_mul_lt_mul_left hlt)

/-- An address is in a hole where its page is. -/
theorem mem_of_page (hdvd : ∀ h ∈ hs, dev.pageSize ∣ h.1 ∧ dev.pageSize ∣ h.2) {o a : ℕ}
    (ho : dev.pageSize ∣ o) (ha : o ≤ a ∧ a < o + dev.pageSize) :
    Intervals.Mem o hs ↔ Intervals.Mem a hs := by
  have hboundary : ∀ c, dev.pageSize ∣ c → (c ≤ o ↔ c ≤ a) := by
    intro c hc
    refine ⟨fun hle => hle.trans ha.1, fun hle => Nat.le_of_not_lt fun hlt => ?_⟩
    have hpage := page_le_of_lt ho hc hlt
    omega
  refine exists_congr fun h => and_congr_right fun hh => ?_
  rw [hboundary h.1 (hdvd h hh).1, ← not_le, ← not_le, hboundary h.2 (hdvd h hh).2]

/-- If all holes are on page boundaries, below 2^31 and in the device, then `rumt_trymem` takes what
is printed of them, and tests exactly the addresses from 1M on that the BIOS has and the user does
not. -/
theorem covered_holes {r : List (ℕ × ℕ) × List (ℕ × ℕ)} (hpage : dev.pageSize < 2 ^ 31)
    (hfind : findHoles bios user = .ok r)
    (hholes : ∀ h ∈ r.2, dev.pageSize ∣ h.1 ∧ dev.pageSize ∣ h.2 ∧ h.2 ≤ 2 ^ 31 ∧
      h.2 ≤ dev.size) :
    ∃ areas, parseAreas dev.pageSize (r.2.map holeText) = .ok areas ∧ Proper dev areas ∧
      ∀ a, Daemon.Covered dev areas a ↔
        Intervals.Mem a (highPart bios) ∧ ¬ Intervals.Mem a (highPart user) := by
  obtain ⟨htaken, hmem⟩ := taken_of_findHoles hfind
  have hdvd : ∀ h ∈ r.2, dev.pageSize ∣ h.1 ∧ dev.pageSize ∣ h.2 := fun h hh =>
    ⟨(hholes h hh).1, (hholes h hh).2.1⟩
  refine ⟨r.2.map (areaOf dev), parseAreas_holeText fun h hh => ?_, ⟨?_, ?_, ?_⟩, fun a => ?_⟩
  · obtain ⟨hlow, hhigh, hint, -⟩ := hholes h hh
    have hlt := htaken.apart.1 h hh
    have h1M := htaken.high h hh
    exact (parseArea_holeText dev.pageSize h ⟨dev.pos, hpage⟩ (htaken.kb h hh) hlt).2
      ⟨by omega, by omega, hlow, Nat.dvd_sub hhigh hlow⟩
  · intro area harea
    obtain ⟨h, hh, rfl⟩ := List.mem_map.1 harea
    exact (hdvd h hh).1
  · exact nodup_pages_areaOf hdvd htaken.apart
  · intro o ho
    obtain ⟨hdvd', h, hh, hle, hlt⟩ := (mem_pages_areaOf hdvd).1 ho
    obtain ⟨-, hhigh, -, hsize⟩ := hholes h hh
    exact (page_le_of_lt hdvd' hhigh hlt).trans hsize
  · rw [← hmem]
    constructor
    · rintro ⟨o, ho, hle, hlt⟩
      obtain ⟨hdvd', hin⟩ := (mem_pages_areaOf hdvd).1 ho
      exact (mem_of_page hdvd hdvd' ⟨hle, hlt⟩).1 hin
    · intro hin
      have hpos := dev.pos
      have hmod := Nat.mod_lt a hpos
      have hpage' : a / dev.pageSize * dev.pageSize ≤ a ∧
          a < a / dev.pageSize * dev.pageSize + dev.pageSize := by
        have hdiv := Nat.div_add_mod' a dev.pageSize
        omega
      have hdvd' : dev.pageSize ∣ a / dev.pageSize * dev.pageSize := Nat.dvd_mul_left ..
      exact ⟨_, (mem_pages_areaOf hdvd).2 ⟨hdvd', (mem_of_page hdvd hdvd' hpage').2 hin⟩, hpage'⟩

def pcDevice : Device :=
  ⟨4096, 0x8000000, by decide, by decide⟩

theorem covered_holes_small :
    ∃ areas, parseAreas 4096 ["0x10000k+65536k".toList] = .ok areas ∧
      Proper pcDevice areas ∧
      ∀ a, Daemon.Covered pcDevice areas a ↔
        Intervals.Mem a (highPart [(0, 0xa0000), (0x100000, 0x8000000)]) ∧
          ¬ Intervals.Mem a (highPart [(0x100000, 0x4000000)]) := by
  have hfind : findHoles [(0, 0xa0000), (0x100000, 0x8000000)] [(0x100000, 0x4000000)] =
      .ok ([(0x100000, 0x4000000)], [(0x4000000, 0x8000000)]) := by decide
  have htext : [(0x4000000, 0x8000000)].map holeText = ["0x10000k+65536k".toList] := by decide
  have hpage : pcDevice.pageSize < 2 ^ 31 := by decide
  have hholes : ∀ h ∈ [(0x4000000, 0x8000000)], pcDevice.pageSize ∣ h.1 ∧
      pcDevice.pageSize ∣ h.2 ∧ h.2 ≤ 2 ^ 31 ∧ h.2 ≤ pcDevice.size := by decide
  have hcovered := covered_holes hpage hfind hholes
  rwa [htext] at hcovered

end Cover

end Trymem

end LxToolset
