import Mathlib.Data.BitVec
import Mathlib.Data.List.Infix
import Mathlib.Data.List.TakeWhile

/-!
# Numbers read from text

The functions of the C library that the programs read their arguments with, over texts as
lists of characters. `long` has 32 bits.
-/

namespace LxToolset

/-- The value of a digit in any base up to 36. -/
def digitVal (c : Char) : ℕ :=
  if '0' ≤ c ∧ c ≤ '9' then c.toNat - '0'.toNat
  else if 'a' ≤ c ∧ c ≤ 'z' then c.toNat - 'a'.toNat + 10
  else if 'A' ≤ c ∧ c ≤ 'Z' then c.toNat - 'A'.toNat + 10
  else 36

/-- The number at the start of a text, in this base. -/
def digits (base : ℕ) : ℕ → List Char → ℕ
  | v, [] => v
  | v, c :: cs => if digitVal c < base then digits base (v * base + digitVal c) cs else v

/-- The digits of `strtol` with base 0. -/
def strtolDigits : List Char → ℕ
  | '0' :: x :: c :: cs =>
    if (x = 'x' ∨ x = 'X') ∧ digitVal c < 16 then digits 16 0 (c :: cs)
    else digits 8 0 (x :: c :: cs)
  | '0' :: cs => digits 8 0 cs
  | cs => digits 10 0 cs

/-- A character that `strtol` skips. -/
def isSpace (c : Char) : Bool :=
  c = ' ' ∨ '\t' ≤ c ∧ c ≤ '\r'

/-- `strtol(p, NULL, 0)` with a 32-bit `long`, to whose range the value is clamped. -/
def strtol (p : List Char) : ℤ :=
  match p.dropWhile isSpace with
  | '-' :: cs => max (-2 ^ 31) (-(strtolDigits cs))
  | '+' :: cs => min (2 ^ 31 - 1) (strtolDigits cs)
  | cs => min (2 ^ 31 - 1) (strtolDigits cs)

/-- A `long`. -/
theorem strtol_range (p : List Char) : -2 ^ 31 ≤ strtol p ∧ strtol p < 2 ^ 31 := by
  unfold strtol
  split <;> omega

/-- `atoi`. -/
def atoi (p : List Char) : ℤ :=
  match p.dropWhile isSpace with
  | '-' :: cs => max (-2 ^ 31) (-(digits 10 0 cs))
  | '+' :: cs => min (2 ^ 31 - 1) (digits 10 0 cs)
  | cs => min (2 ^ 31 - 1) (digits 10 0 cs)

/-- An `int`. -/
theorem atoi_range (p : List Char) : -2 ^ 31 ≤ atoi p ∧ atoi p < 2 ^ 31 := by
  unfold atoi
  split <;> omega

/-! ## `%x` of `scanf` -/

/-- The outcomes of a conversion, with the input it leaves. -/
inductive ScanHex where
  | converted (v : BitVec 32) (rest : List Char)
  /-- A matching failure. -/
  | failed (rest : List Char)
  /-- The input ended before a character to convert. -/
  | ended
  deriving DecidableEq

def isHexDigit (c : Char) : Bool :=
  digitVal c < 16

/-- The value of a number with these digits, as `strtoul` with a 32-bit `long` gives it. -/
def hexValue (negative : Bool) (ds : List Char) : BitVec 32 :=
  let n := digits 16 0 ds
  if 2 ^ 32 ≤ n then BitVec.allOnes 32
  else if negative then -BitVec.ofNat 32 n else BitVec.ofNat 32 n

/-- Digits are converted as far as they go; without one the conversion fails. -/
def scanDigits (negative : Bool) (cs : List Char) : ScanHex :=
  if cs.head?.all fun c => !isHexDigit c then .failed cs
  else .converted (hexValue negative (cs.takeWhile isHexDigit)) (cs.dropWhile isHexDigit)

/-- The number after its sign, with `0x` or without. -/
def scanNumber (negative : Bool) : List Char → ScanHex
  | '0' :: 'x' :: cs => scanDigits negative cs
  | '0' :: 'X' :: cs => scanDigits negative cs
  | cs => scanDigits negative cs

/-- `%x`. -/
def scanHex (text : List Char) : ScanHex :=
  match text.dropWhile isSpace with
  | [] => .ended
  | '-' :: cs => scanNumber true cs
  | '+' :: cs => scanNumber false cs
  | cs => scanNumber false cs

/-- What a conversion leaves is an end of what it found. -/
theorem suffix_of_scanDigits {negative : Bool} {cs rest : List Char}
    (h : (∃ v, scanDigits negative cs = .converted v rest) ∨
      scanDigits negative cs = .failed rest) : rest <:+ cs := by
  unfold scanDigits at h
  split_ifs at h
  · obtain ⟨v, h⟩ | h := h
    · cases h
    · cases h
      exact List.suffix_rfl
  · obtain ⟨v, h⟩ | h := h
    · cases h
      exact List.dropWhile_suffix _
    · cases h

theorem suffix_of_scanNumber {negative : Bool} {cs rest : List Char}
    (h : (∃ v, scanNumber negative cs = .converted v rest) ∨
      scanNumber negative cs = .failed rest) : rest <:+ cs := by
  unfold scanNumber at h
  split at h
  · exact (suffix_of_scanDigits h).trans ⟨['0', 'x'], rfl⟩
  · exact (suffix_of_scanDigits h).trans ⟨['0', 'X'], rfl⟩
  · exact suffix_of_scanDigits h

theorem suffix_of_scanHex {text rest : List Char}
    (h : (∃ v, scanHex text = .converted v rest) ∨ scanHex text = .failed rest) :
    rest <:+ text := by
  have hspace : text.dropWhile isSpace <:+ text := List.dropWhile_suffix _
  unfold scanHex at h
  split at h
  · simp at h
  · next cs hcs =>
    exact (suffix_of_scanNumber h).trans ((List.suffix_cons _ _).trans (hcs ▸ hspace))
  · next cs hcs =>
    exact (suffix_of_scanNumber h).trans ((List.suffix_cons _ _).trans (hcs ▸ hspace))
  · exact (suffix_of_scanNumber h).trans hspace

theorem digit_of_scanDigits {negative : Bool} {cs rest : List Char} {v : BitVec 32}
    (h : scanDigits negative cs = .converted v rest) :
    ∃ c mid, isHexDigit c = true ∧ c :: mid <:+ cs ∧ rest <:+ mid := by
  unfold scanDigits at h
  split_ifs at h with hhead
  cases h
  cases cs with
  | nil => simp at hhead
  | cons c cs =>
    have hc : isHexDigit c = true := by simpa using hhead
    rw [List.dropWhile_cons_of_pos hc]
    exact ⟨c, cs, hc, List.suffix_rfl, List.dropWhile_suffix _⟩

theorem digit_of_scanNumber {negative : Bool} {cs rest : List Char} {v : BitVec 32}
    (h : scanNumber negative cs = .converted v rest) :
    ∃ c mid, isHexDigit c = true ∧ c :: mid <:+ cs ∧ rest <:+ mid := by
  unfold scanNumber at h
  split at h <;> obtain ⟨c, mid, hc, hmid, hrest⟩ := digit_of_scanDigits h
  · exact ⟨c, mid, hc, hmid.trans ⟨['0', 'x'], rfl⟩, hrest⟩
  · exact ⟨c, mid, hc, hmid.trans ⟨['0', 'X'], rfl⟩, hrest⟩
  · exact ⟨c, mid, hc, hmid, hrest⟩

/-- A conversion takes a digit, and leaves an end of what follows it. -/
theorem digit_of_scanHex {text rest : List Char} {v : BitVec 32}
    (h : scanHex text = .converted v rest) :
    ∃ c mid, isHexDigit c = true ∧ c :: mid <:+ text ∧ rest <:+ mid := by
  have hspace : text.dropWhile isSpace <:+ text := List.dropWhile_suffix _
  unfold scanHex at h
  split at h
  · cases h
  · next cs hcs =>
    obtain ⟨c, mid, hc, hmid, hrest⟩ := digit_of_scanNumber h
    exact ⟨c, mid, hc, hmid.trans ((List.suffix_cons _ _).trans (hcs ▸ hspace)), hrest⟩
  · next cs hcs =>
    obtain ⟨c, mid, hc, hmid, hrest⟩ := digit_of_scanNumber h
    exact ⟨c, mid, hc, hmid.trans ((List.suffix_cons _ _).trans (hcs ▸ hspace)), hrest⟩
  · obtain ⟨c, mid, hc, hmid, hrest⟩ := digit_of_scanNumber h
    exact ⟨c, mid, hc, hmid.trans hspace, hrest⟩

/-! ## Lines and `fgets` -/

/-- The string in an array. -/
def cString (cs : List Char) : List Char :=
  cs.takeWhile (· ≠ '\x00')

/-- The text up to its first newline. -/
def lineOf (text : List Char) : List Char :=
  text.takeWhile (· ≠ '\n')

/-- The text after its first newline. -/
def afterLine (text : List Char) : List Char :=
  (text.dropWhile (· ≠ '\n')).tail

/-- Before its first newline and after. -/
theorem lineOf_append {text : List Char} (h : '\n' ∈ text) :
    lineOf text ++ '\n' :: afterLine text = text := by
  induction text with
  | nil => simp at h
  | cons c cs ih =>
    by_cases hc : c = '\n'
    · simp [lineOf, afterLine, hc]
    · have hcs := ih ((List.mem_cons.1 h).resolve_left (Ne.symm hc))
      have hline : lineOf (c :: cs) = c :: lineOf cs :=
        List.takeWhile_cons_of_pos (by simpa using hc)
      have hafter : afterLine (c :: cs) = afterLine cs :=
        congrArg List.tail (List.dropWhile_cons_of_pos (by simpa using hc))
      rw [hline, hafter, List.cons_append, hcs]

theorem lineOf_eq_self {text : List Char} (h : '\n' ∉ text) : lineOf text = text :=
  List.takeWhile_eq_self_iff.2 fun c hc => by
    simpa using fun h' : c = '\n' => h (h' ▸ hc)

theorem afterLine_eq_nil {text : List Char} (h : '\n' ∉ text) : afterLine text = [] := by
  have hdrop : text.dropWhile (· ≠ '\n') = [] := List.dropWhile_eq_nil_iff.2 fun c hc => by
    simpa using fun h' : c = '\n' => h (h' ▸ hc)
  rw [afterLine, hdrop]
  rfl

theorem length_afterLine_lt {text : List Char} (h : '\n' ∈ text) :
    (afterLine text).length < text.length := by
  have hlen := congrArg List.length (lineOf_append h)
  rw [List.length_append, List.length_cons] at hlen
  omega

theorem eq_cons_of_lineOf {text : List Char} (htext : text ≠ []) (hline : lineOf text = []) :
    text = '\n' :: afterLine text := by
  have hmem : '\n' ∈ text := by
    by_contra hnl
    exact htext ((lineOf_eq_self hnl).symm.trans hline)
  have happ := lineOf_append hmem
  rw [hline] at happ
  exact happ.symm

theorem not_mem_lineOf (text : List Char) : '\n' ∉ lineOf text := fun h => by
  simpa using List.mem_takeWhile_imp h

/-- The lines of a text are its first and the others. -/
theorem splitOn_newline (text : List Char) : text.splitOn '\n' =
    lineOf text :: if '\n' ∈ text then (afterLine text).splitOn '\n' else [] := by
  split_ifs with h
  · conv_lhs => rw [← lineOf_append h]
    exact List.splitOn_append_cons_self_of_not_mem (not_mem_lineOf text) _
  · rw [List.splitOn_eq_singleton h, lineOf_eq_self h]

/-- `fgets(buf, n + 1, stdin)` : what is stored, and what is left on standard input. Nothing is
stored at the end of the input. -/
def fgets : ℕ → List Char → List Char × List Char
  | 0, cs => ([], cs)
  | _ + 1, [] => ([], [])
  | n + 1, c :: cs =>
    if c = '\n' then ([c], cs) else (c :: (fgets n cs).1, (fgets n cs).2)

theorem fgets_append (n : ℕ) (text : List Char) : (fgets n text).1 ++ (fgets n text).2 = text := by
  fun_induction fgets n text with
  | case1 => rfl
  | case2 => rfl
  | case3 => rfl
  | case4 n c cs hc ih => exact congrArg (c :: ·) ih

/-- `fgets` takes a line with its newline, as far as there is room. -/
theorem fgets_fst (n : ℕ) (text : List Char) : (fgets n text).1 =
    (lineOf text ++ if '\n' ∈ text then ['\n'] else []).take n := by
  fun_induction fgets n text with
  | case1 => simp
  | case2 => simp [lineOf]
  | case3 => simp [lineOf]
  | case4 n c cs hc ih =>
    rw [ih]
    simp [lineOf, hc, Ne.symm hc]

/-- A line that fits is read whole. -/
theorem fgets_line {n : ℕ} {text : List Char} (hnl : '\n' ∈ text)
    (hlen : (lineOf text).length < n) :
    fgets n text = (lineOf text ++ ['\n'], afterLine text) := by
  have hfst : (fgets n text).1 = lineOf text ++ ['\n'] := by
    rw [fgets_fst, if_pos hnl, List.take_of_length_le (by simp; omega)]
  have hsnd : (fgets n text).2 = afterLine text := by
    refine (List.append_right_inj (lineOf text ++ ['\n'])).1 ?_
    rw [← hfst, fgets_append, hfst, List.append_assoc, List.singleton_append,
      lineOf_append hnl]
  rw [← hfst, ← hsnd]

end LxToolset
