import LxToolset.RumtFusion
import LxToolset.RumtTrymem
import Mathlib.Data.Nat.Digits.Defs

/-!
# The lines between rumt_trymem and rumt_fusion

`rumt_trymem` prints a bit as `0x%12.12lX.%d%c`. Different bits have different texts
(`keyText_injective`), and `rumt_fusion` reads each line as the bit and its sign
(`parseNew_lineText`).
-/

namespace LxToolset

namespace Trymem

open Fusion

def digitChar (d : ℕ) : Char :=
  if d < 10 then Char.ofNat (48 + d) else Char.ofNat (55 + d)

/-- `%12.12lX` -/
def hexText (n : ℕ) : List Char :=
  let digits := (Nat.digits 16 n).reverse.map digitChar
  List.replicate (12 - digits.length) '0' ++ digits

/-- `%d` -/
def decText (n : ℕ) : List Char :=
  if n = 0 then ['0'] else (Nat.digits 10 n).reverse.map digitChar

/-- `0x%12.12lX.%d` -/
def keyText (address bit : ℕ) : List Char :=
  '0' :: 'x' :: hexText address ++ '.' :: decText bit

/-- The line of a bit, without its newline. -/
def lineText (l : BadBit) : List Char :=
  keyText l.address l.bit ++ [if l.plus then '+' else '-']

def signOf (plus : Bool) : Sign :=
  if plus then .plus else .minus

example : lineText ⟨0x1F4000, 5, true⟩ = "0x0000001F4000.5+".toList := by decide

/-! ## Reading -/

section Digits

variable {b n : ℕ}

/-- The number of some digits. -/
def digitsValue (b : ℕ) (l : List Char) : ℕ :=
  l.foldl (fun v c => v * b + (if c.toNat < 58 then c.toNat - 48 else c.toNat - 55)) 0

theorem digitsValue_replicate (b m : ℕ) (l : List Char) :
    digitsValue b (List.replicate m '0' ++ l) = digitsValue b l := by
  induction m with
  | zero => rfl
  | succ m ih =>
    have hzero : digitsValue b ('0' :: (List.replicate m '0' ++ l)) =
        digitsValue b (List.replicate m '0' ++ l) := by
      simp [digitsValue]
    rw [List.replicate_succ, List.cons_append, hzero, ih]

theorem digitChar_value : ∀ d < 16, (if (digitChar d).toNat < 58 then (digitChar d).toNat - 48
    else (digitChar d).toNat - 55) = d := by
  decide

theorem isHex_digitChar : ∀ d < 16, isHex (digitChar d) = true := by
  decide

theorem isDigit_digitChar : ∀ d < 10, isDigit (digitChar d) = true := by
  decide

theorem digitsValue_digits (hb : 1 < b) (hb' : b ≤ 16) (n : ℕ) :
    digitsValue b ((Nat.digits b n).reverse.map digitChar) = n := by
  have hfold : ∀ l : List ℕ, (∀ d ∈ l, d < b) →
      digitsValue b (l.reverse.map digitChar) = Nat.ofDigits b l := by
    intro l
    induction l with
    | nil => exact fun _ => rfl
    | cons d l ih =>
      intro hl
      have hd := hl d List.mem_cons_self
      rw [List.reverse_cons, List.map_append, digitsValue, List.foldl_append, Nat.ofDigits_cons,
        ← ih fun e he => hl e (List.mem_cons_of_mem _ he)]
      simp only [List.map_cons, List.map_nil, List.foldl_cons, List.foldl_nil,
        digitChar_value d (hd.trans_le hb'), digitsValue]
      rw [Nat.mul_comm, Nat.add_comm]
  rw [hfold _ fun d hd => Nat.digits_lt_base hb hd, Nat.ofDigits_digits]

theorem mem_digits_isHex : ∀ c ∈ hexText n, isHex c = true := by
  intro c hc
  rcases List.mem_append.1 hc with hzero | hdigit
  · rw [List.eq_of_mem_replicate hzero]
    rfl
  · obtain ⟨d, hd, rfl⟩ := List.mem_map.1 hdigit
    exact isHex_digitChar d (Nat.digits_lt_base (by decide) (List.mem_reverse.1 hd))

theorem mem_decText_isDigit : ∀ c ∈ decText n, isDigit c = true := by
  intro c hc
  rw [decText] at hc
  split_ifs at hc
  · rw [List.mem_singleton.1 hc]
    rfl
  · obtain ⟨d, hd, rfl⟩ := List.mem_map.1 hc
    exact isDigit_digitChar d (Nat.digits_lt_base (by decide) (List.mem_reverse.1 hd))

theorem hexText_ne_nil (n : ℕ) : hexText n ≠ [] := by
  intro hnil
  have hlen := congrArg List.length hnil
  simp only [hexText, List.length_append, List.length_replicate, List.length_nil] at hlen
  omega

theorem digitsValue_decText (n : ℕ) : digitsValue 10 (decText n) = n := by
  rw [decText]
  split_ifs with hzero
  · rw [hzero]
    rfl
  · exact digitsValue_digits (by decide) (by decide) n

theorem decText_ne_nil (n : ℕ) : decText n ≠ [] := by
  rw [decText]
  split_ifs with hzero
  · simp
  · intro hnil
    have hvalue := digitsValue_digits (b := 10) (by decide) (by decide) n
    rw [hnil] at hvalue
    exact hzero hvalue.symm

end Digits

section Key

variable {a a' b b' : ℕ}

theorem isKey_keyText (a b : ℕ) : IsKey (keyText a b) :=
  isKey_of_digits (Or.inl rfl) mem_digits_isHex mem_decText_isDigit (hexText_ne_nil a)
    (decText_ne_nil b)

/-- No two bits have the same text. -/
theorem keyText_injective (h : keyText a b = keyText a' b') : a = a' ∧ b = b' := by
  have htail : hexText a ++ '.' :: decText b = hexText a' ++ '.' :: decText b' :=
    (List.cons.inj (List.cons.inj h).2).2
  obtain ⟨htake, hdrop⟩ := takeWhile_of_all (mem_digits_isHex (n := a)) (c := '.') rfl (decText b)
  obtain ⟨htake', hdrop'⟩ :=
    takeWhile_of_all (mem_digits_isHex (n := a')) (c := '.') rfl (decText b')
  rw [htail, htake'] at htake
  rw [htail, hdrop'] at hdrop
  constructor
  · have hvalue : ∀ n, digitsValue 16 (hexText n) = n := by
      intro n
      rw [hexText, digitsValue_replicate, digitsValue_digits (by decide) le_rfl]
    rw [← hvalue a, ← htake, hvalue]
  · rw [← digitsValue_decText b, ← (List.cons.inj hdrop).2, digitsValue_decText]

theorem parseNew_lineText (l : BadBit) :
    parseNew (lineText l) = some (keyText l.address l.bit, signOf l.plus) := by
  obtain ⟨address, bit, plus⟩ := l
  have hkey : ∀ s : Sign, parseKey (keyText address bit ++ [s.toChar]) =
      some (keyText address bit, [s.toChar]) :=
    fun s => isKey_keyText address bit _ [] (isDigit_toChar s)
  cases plus
  · have hline : lineText ⟨address, bit, false⟩ = keyText address bit ++ [Sign.minus.toChar] := rfl
    rw [hline, parseNew, hkey]
    rfl
  · have hline : lineText ⟨address, bit, true⟩ = keyText address bit ++ [Sign.plus.toChar] := rfl
    rw [hline, parseNew, hkey]
    rfl

end Key

end Trymem

end LxToolset
