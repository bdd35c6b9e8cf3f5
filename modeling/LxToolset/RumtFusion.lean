import LxToolset.Sightings
import Mathlib.Data.Char
import Mathlib.Data.List.AList
import Mathlib.Data.List.Lex
import Mathlib.Data.List.Sort
import Mathlib.Data.List.TakeWhile

/-!
# rumt_fusion

The list of bad bits as a file: a line for each bit, with the directions in which it was wrong and
the stamp of the first time. A fusion with a list that `rumt_trymem` printed joins the directions,
and writes a file exactly when there is something new in it; the file reads back as the joined
table (`fusion_eq`).
-/

namespace LxToolset

namespace Fusion

/-- `+`, `-`, and `*` for both. -/
inductive Sign where
  | plus | minus | star
  deriving DecidableEq

def Sign.toChar : Sign → Char
  | plus => '+'
  | minus => '-'
  | star => '*'

def Sign.ofChar (c : Char) : Option Sign :=
  if c = '+' then some plus else if c = '-' then some minus else if c = '*' then some star else none

instance : Max Sign where
  max a b := if a = b then a else .star

instance : SemilatticeSup Sign :=
  SemilatticeSup.mk' (fun a b => by cases a <;> cases b <;> rfl)
    (fun a b c => by cases a <;> cases b <;> cases c <;> rfl) (fun a => by cases a <;> rfl)

/-- `%bits` and `%stamp`, which have the same keys. -/
abbrev Table := AList fun _ : List Char => Sign × List Char

def isHex (c : Char) : Bool :=
  '0' ≤ c ∧ c ≤ '9' ∨ 'A' ≤ c ∧ c ≤ 'F' ∨ 'a' ≤ c ∧ c ≤ 'f'

def isDigit (c : Char) : Bool :=
  '0' ≤ c ∧ c ≤ '9'

/-- `/^(0x[0-9A-F]+\.\d+)/i` and the rest of the line. -/
def parseKey : List Char → Option (List Char × List Char)
  | zero :: x :: line =>
    let hex := line.takeWhile isHex
    match line.dropWhile isHex with
    | dot :: line =>
      let digits := line.takeWhile isDigit
      if zero = '0' ∧ (x = 'x' ∨ x = 'X') ∧ hex ≠ [] ∧ dot = '.' ∧ digits ≠ [] then
        some (zero :: x :: hex ++ dot :: digits, line.dropWhile isDigit)
      else none
    | [] => none
  | _ => none

/-- A line of the old file: `([+*-])(.*)` after the key. Lines are without their newline. -/
def parseOld (line : List Char) : Option (List Char × Sign × List Char) := do
  let (key, rest) ← parseKey line
  match rest with
  | c :: stamp => return (key, ← Sign.ofChar c, stamp)
  | [] => none

/-- A line of the new file: `([+-])` after the key. -/
def parseNew (line : List Char) : Option (List Char × Sign) := do
  let (key, rest) ← parseKey line
  match rest with
  | [c] => if c = '+' ∨ c = '-' then return (key, ← Sign.ofChar c) else none
  | _ => none

/-- The first loop. -/
def readOld : List (List Char) → Table → Option Table
  | [], t => some t
  | line :: lines, t => do
    let (key, sign, stamp) ← parseOld line
    readOld lines (t.insert key (sign, stamp))

/-- The body of the second loop, with the variable `$is_new`. -/
def seeLine (stamp : List Char) (t : Table × Bool) (key : List Char) (s : Sign) : Table × Bool :=
  match t.1.lookup key with
  | some (sign, first) =>
    if sign ≠ .star ∧ sign ≠ s then (t.1.insert key (.star, first), true) else t
  | none => (t.1.insert key (s, stamp), true)

/-- The second loop. -/
def readNew (stamp : List Char) : List (List Char) → Table × Bool → Option (Table × Bool)
  | [], t => some t
  | line :: lines, t => do
    let (key, s) ← parseNew line
    readNew stamp lines (seeLine stamp t key s)

/-- The lines for keys. -/
def outLines (t : Table) (keys : List (List Char)) : List (List Char) :=
  keys.map fun key =>
    match t.lookup key with
    | some (sign, stamp) => key ++ sign.toChar :: stamp
    | none => key

/-- `rumt_fusion`: `none` if it dies, and else the new file, if it writes one. -/
def fusion (stamp : List Char) (old new : List (List Char)) :
    Option (Option (List (List Char))) := do
  let t ← readOld old ∅
  let (t, isNew) ← readNew stamp new (t, false)
  return if isNew then some (outLines t (t.keys.insertionSort (· ≤ ·))) else none

/-! ## Keys -/

section Key

variable {key line rest stamp : List Char} {sign : Sign}

/-- A key is read up to something that is not a digit. -/
def IsKey (key : List Char) : Prop :=
  ∀ c rest, isDigit c = false → parseKey (key ++ c :: rest) = some (key, c :: rest)

theorem ofChar_toChar (s : Sign) : Sign.ofChar s.toChar = some s := by
  cases s <;> rfl

theorem isDigit_toChar (s : Sign) : isDigit s.toChar = false := by
  cases s <;> rfl

theorem takeWhile_of_all {p : Char → Bool} {l : List Char} (h : ∀ c ∈ l, p c = true) {c : Char}
    (hc : p c = false) (rest : List Char) :
    (l ++ c :: rest).takeWhile p = l ∧ (l ++ c :: rest).dropWhile p = c :: rest := by
  constructor
  · rw [List.takeWhile_append_of_pos h, List.takeWhile_cons_of_neg (by simp [hc]), List.append_nil]
  · rw [List.dropWhile_append_of_pos h, List.dropWhile_cons_of_neg (by simp [hc])]

/-- Digits in upper case after `0x`, a point and decimal digits. -/
theorem isKey_of_digits {x : Char} {hex digits : List Char} (hx : x = 'x' ∨ x = 'X')
    (hhex : ∀ c ∈ hex, isHex c = true) (hdigits : ∀ c ∈ digits, isDigit c = true)
    (hne : hex ≠ []) (hne' : digits ≠ []) : IsKey ('0' :: x :: hex ++ '.' :: digits) := by
  intro c rest hc
  have hassoc : '0' :: x :: hex ++ '.' :: digits ++ c :: rest =
      '0' :: x :: (hex ++ '.' :: (digits ++ c :: rest)) := by simp
  obtain ⟨htake, hdrop⟩ := takeWhile_of_all hhex (c := '.') rfl (digits ++ c :: rest)
  obtain ⟨htake', hdrop'⟩ := takeWhile_of_all hdigits hc rest
  rw [hassoc, parseKey]
  simp only [htake, hdrop, htake', hdrop']
  rw [if_pos ⟨trivial, hx, hne, trivial, hne'⟩]

/-- What is read before a sign: `0x`, digits, a point, and digits. -/
theorem parseKey_eq_some (h : parseKey line = some (key, rest)) :
    line = key ++ rest ∧ ∃ x hex digits, (x = 'x' ∨ x = 'X') ∧ (∀ c ∈ hex, isHex c = true) ∧
      (∀ c ∈ digits, isDigit c = true) ∧ hex ≠ [] ∧ digits ≠ [] ∧
      key = '0' :: x :: hex ++ '.' :: digits := by
  rcases line with - | ⟨zero, - | ⟨x, line⟩⟩
  · cases h
  · cases h
  · simp only [parseKey] at h
    rcases hdrop : line.dropWhile isHex with - | ⟨dot, line'⟩
    · rw [hdrop] at h
      cases h
    · rw [hdrop] at h
      simp only at h
      split_ifs at h with hcond
      obtain ⟨rfl, hx, hne, rfl, hne'⟩ := hcond
      obtain ⟨rfl, rfl⟩ := Prod.mk.inj (Option.some.inj h)
      refine ⟨?_, x, _, _, hx, fun c => List.mem_takeWhile_imp, fun c => List.mem_takeWhile_imp,
        hne, hne', rfl⟩
      have hsplit := List.takeWhile_append_dropWhile (p := isHex) (l := line)
      rw [hdrop] at hsplit
      simp [List.takeWhile_append_dropWhile, hsplit]

/-- What was read as a key is one. -/
theorem isKey_of_parseKey (h : parseKey line = some (key, rest)) : IsKey key := by
  obtain ⟨-, x, hex, digits, hx, hhex, hdigits, hne, hne', rfl⟩ := parseKey_eq_some h
  exact isKey_of_digits hx hhex hdigits hne hne'

theorem IsKey.newline_notMem (h : IsKey key) : '\n' ∉ key := by
  obtain ⟨-, x, hex, digits, hx, hhex, hdigits, -, -, rfl⟩ :=
    parseKey_eq_some (h '\n' [] (by decide))
  have hhex' : '\n' ∉ hex := fun hmem => absurd (hhex _ hmem) (by decide)
  have hdigits' : '\n' ∉ digits := fun hmem => absurd (hdigits _ hmem) (by decide)
  rcases hx with rfl | rfl <;> simp [hhex', hdigits']

theorem parseOld_append (h : IsKey key) (sign : Sign) (stamp : List Char) :
    parseOld (key ++ sign.toChar :: stamp) = some (key, sign, stamp) := by
  rw [parseOld, h _ _ (isDigit_toChar sign)]
  simp [ofChar_toChar]

theorem isKey_of_parseOld (h : parseOld line = some (key, sign, stamp)) : IsKey key := by
  rw [parseOld] at h
  obtain ⟨⟨key', rest⟩, hkey, hrest⟩ := Option.bind_eq_some_iff.1 h
  rcases rest with - | ⟨c, rest⟩
  · cases hrest
  · obtain ⟨s, -, hs⟩ := Option.bind_eq_some_iff.1 hrest
    obtain ⟨rfl, -⟩ := Prod.mk.inj (Option.some.inj hs)
    exact isKey_of_parseKey hkey

/-- The stamp is what is left of the line. -/
theorem suffix_of_parseOld (h : parseOld line = some (key, sign, stamp)) : stamp <:+ line := by
  rw [parseOld] at h
  obtain ⟨⟨key', rest⟩, hkey, hrest⟩ := Option.bind_eq_some_iff.1 h
  obtain ⟨rfl, -⟩ := parseKey_eq_some hkey
  rcases rest with - | ⟨c, rest⟩
  · cases hrest
  · obtain ⟨s, -, hs⟩ := Option.bind_eq_some_iff.1 hrest
    obtain ⟨-, hstamp⟩ := Prod.mk.inj (Option.some.inj hs)
    obtain ⟨-, rfl⟩ := Prod.mk.inj hstamp
    exact (List.suffix_cons c rest).trans (List.suffix_append _ _)

/-- A new line has no star. -/
theorem isKey_of_parseNew (h : parseNew line = some (key, sign)) : IsKey key ∧ sign ≠ .star := by
  rw [parseNew] at h
  obtain ⟨⟨key', rest⟩, hkey, hrest⟩ := Option.bind_eq_some_iff.1 h
  rcases rest with - | ⟨c, - | ⟨c', rest⟩⟩
  · cases hrest
  · simp only at hrest
    split_ifs at hrest with hc
    obtain ⟨s, hs, hpure⟩ := Option.bind_eq_some_iff.1 hrest
    obtain ⟨rfl, rfl⟩ := Prod.mk.inj (Option.some.inj hpure)
    refine ⟨isKey_of_parseKey hkey, ?_⟩
    rintro rfl
    rcases hc with rfl | rfl <;> cases hs
  · cases hrest

end Key

/-! ## Files and tables -/

section Files

variable {stamp : List Char} {lines old new : List (List Char)} {t u : Table}
  {seen : List (List Char × Sign)}

def tableEntry (t : Table) (key : List Char) : Option (Sign × List Char) :=
  t.lookup key

/-- A table as it is read from a file. -/
def Keyed (t : Table) : Prop :=
  ∀ key ∈ t, IsKey key

theorem Keyed.insert (h : Keyed t) {key : List Char} (hkey : IsKey key) (x : Sign × List Char) :
    Keyed (t.insert key x) := by
  intro k hk
  rcases (AList.mem_insert t).1 hk with rfl | hk
  · exact hkey
  · exact h k hk

theorem keyed_of_readOld (h : Keyed t) (hread : readOld lines t = some u) : Keyed u := by
  induction lines generalizing t with
  | nil => rwa [← Option.some.inj hread]
  | cons line lines ih =>
    obtain ⟨⟨key, sign, first⟩, hline, hrest⟩ := Option.bind_eq_some_iff.1 hread
    exact ih (h.insert (isKey_of_parseOld hline) _) hrest

/-- A file that was written reads back. -/
theorem readOld_outLines (ht : Keyed t) (keys : List (List Char)) (hkeys : ∀ k ∈ keys, k ∈ t)
    (start : Table) :
    ∃ u, readOld (outLines t keys) start = some u ∧
      ∀ k, tableEntry u k = if k ∈ keys then tableEntry t k else tableEntry start k := by
  induction keys generalizing start with
  | nil => exact ⟨start, rfl, fun k => by simp⟩
  | cons key keys ih =>
    have hmem := hkeys key List.mem_cons_self
    obtain ⟨⟨sign, first⟩, hlookup⟩ := Option.isSome_iff_exists.1 (AList.lookup_isSome.2 hmem)
    obtain ⟨u, hu, hall⟩ := ih (fun k hk => hkeys k (List.mem_cons_of_mem _ hk))
      (start.insert key (sign, first))
    refine ⟨u, ?_, fun k => ?_⟩
    · rw [outLines, List.map_cons, hlookup]
      simp only [readOld, parseOld_append (ht key hmem)]
      exact hu
    · rw [hall]
      by_cases hk : k = key
      · subst hk
        by_cases hin : k ∈ keys
        · rw [if_pos hin, if_pos (List.mem_cons_self)]
        · rw [if_neg hin, if_pos (List.mem_cons_self), tableEntry, AList.lookup_insert, tableEntry,
            hlookup]
      · simp [tableEntry, hk]

/-- The second loop reads all lines, and adds them to the table. -/
theorem readNew_eq (stamp : List Char) (lines : List (List Char)) (t : Table × Bool) :
    readNew stamp lines t = (lines.mapM parseNew).map fun seen =>
      seen.foldl (fun t e => seeLine stamp t e.1 e.2) t := by
  induction lines generalizing t with
  | nil => rfl
  | cons line lines ih =>
    rw [readNew, List.mapM_cons]
    rcases parseNew line with - | ⟨key, s⟩
    · rfl
    · simp only [Option.bind_eq_bind, Option.bind_some, ih]
      rcases lines.mapM parseNew with - | seen
      · rfl
      · rfl

theorem seeLine_of_none {t : Table × Bool} {key : List Char} {s : Sign}
    (h : tableEntry t.1 key = none) :
    seeLine stamp t key s = (t.1.insert key (s, stamp), true) := by
  rw [tableEntry] at h
  simp only [seeLine, h]

theorem seeLine_of_some {t : Table × Bool} {key first : List Char} {s sign : Sign}
    (h : tableEntry t.1 key = some (sign, first)) :
    seeLine stamp t key s =
      if sign ≠ .star ∧ sign ≠ s then (t.1.insert key (.star, first), true) else t := by
  rw [tableEntry] at h
  simp only [seeLine, h]

/-- A line that was seen is joined to the entry of its key, and the flag is set if this changes
it. -/
theorem lookup_seeLine (stamp : List Char) (t : Table × Bool) (key : List Char) {s : Sign}
    (hs : s ≠ .star) :
    tableEntry (seeLine stamp t key s).1 = Sightings.record (tableEntry t.1) (key, s, stamp) ∧
      ((seeLine stamp t key s).2 = false ↔
        t.2 = false ∧ Sightings.see (tableEntry t.1 key) (s, stamp) = tableEntry t.1 key) := by
  have hjoin : ∀ sign : Sign, (sign ≠ .star ∧ sign ≠ s → sign ⊔ s = .star) ∧
      (¬ (sign ≠ .star ∧ sign ≠ s) → sign ⊔ s = sign) := by
    intro sign
    cases sign <;> cases s <;> first | exact absurd rfl hs | decide
  have hinsert : ∀ x, tableEntry (t.1.insert key x) =
      Function.update (tableEntry t.1) key (some x) := by
    intro x
    funext k
    rw [tableEntry]
    by_cases hk : k = key
    · subst hk
      rw [AList.lookup_insert, Function.update_self]
    · rw [AList.lookup_insert_ne hk, Function.update_of_ne hk, tableEntry]
  rw [Sightings.record]
  rcases hlookup : tableEntry t.1 key with - | ⟨sign, first⟩
  · rw [seeLine_of_none hlookup]
    exact ⟨hinsert _, by simp [Sightings.see]⟩
  · obtain ⟨hstar, hsame⟩ := hjoin sign
    rw [seeLine_of_some hlookup]
    by_cases hcond : sign ≠ .star ∧ sign ≠ s
    · simp only [if_pos hcond, Sightings.see, hstar hcond]
      exact ⟨hinsert _, by simp [Ne.symm hcond.1]⟩
    · simp only [if_neg hcond, Sightings.see, hsame hcond, ← hlookup]
      exact ⟨(Function.update_eq_self key _).symm, by simp⟩

/-- The sightings in the lines of a file. -/
def sightings (stamp : List Char) (seen : List (List Char × Sign)) :
    List (List Char × Sign × List Char) :=
  seen.map fun e => (e.1, e.2, stamp)

theorem lookup_foldl (stamp : List Char) (hseen : ∀ e ∈ seen, e.2 ≠ .star) (t : Table × Bool) :
    tableEntry (seen.foldl (fun t e => seeLine stamp t e.1 e.2) t).1 =
        (sightings stamp seen).foldl Sightings.record (tableEntry t.1) ∧
      ((seen.foldl (fun t e => seeLine stamp t e.1 e.2) t).2 = false ↔ t.2 = false ∧
        ∀ e ∈ seen, Sightings.see (tableEntry t.1 e.1) (e.2, stamp) = tableEntry t.1 e.1) := by
  induction seen generalizing t with
  | nil => exact ⟨rfl, by simp⟩
  | cons e seen ih =>
    obtain ⟨hlookup, hflag⟩ := lookup_seeLine stamp t e.1 (hseen e List.mem_cons_self)
    obtain ⟨hall, hflags⟩ := ih (fun e' he' => hseen e' (List.mem_cons_of_mem _ he'))
      (seeLine stamp t e.1 e.2)
    refine ⟨?_, ?_⟩
    · rw [List.foldl_cons, hall, hlookup]
      rfl
    · rw [List.foldl_cons, hflags, hflag, List.forall_mem_cons, and_assoc, hlookup]
      -- a line that changes nothing leaves the table for the others
      refine and_congr_right fun _ => and_congr_right fun hsame => ?_
      have hrecord : Sightings.record (tableEntry t.1) (e.1, e.2, stamp) = tableEntry t.1 := by
        rw [Sightings.record, hsame]
        exact Function.update_eq_self ..
      rw [hrecord]

theorem keyed_foldl (stamp : List Char) (hseen : ∀ e ∈ seen, IsKey e.1) (t : Table × Bool)
    (ht : Keyed t.1) :
    Keyed (seen.foldl (fun t e => seeLine stamp t e.1 e.2) t).1 := by
  induction seen generalizing t with
  | nil => exact ht
  | cons e seen ih =>
    refine ih (fun e' he' => hseen e' (List.mem_cons_of_mem _ he')) (seeLine stamp t e.1 e.2) ?_
    have hkey := hseen e List.mem_cons_self
    rcases hlookup : tableEntry t.1 e.1 with - | ⟨sign, first⟩
    · rw [seeLine_of_none hlookup]
      exact ht.insert hkey _
    · rw [seeLine_of_some hlookup]
      split_ifs
      · exact ht.insert hkey _
      · exact ht

theorem mapM_parseNew (h : new.mapM parseNew = some seen) :
    ∀ e ∈ seen, IsKey e.1 ∧ e.2 ≠ .star := by
  induction new generalizing seen with
  | nil =>
    obtain rfl := Option.some.inj h
    exact fun e he => absurd he List.not_mem_nil
  | cons line new ih =>
    rw [List.mapM_cons] at h
    obtain ⟨⟨key, s⟩, hline, hrest⟩ := Option.bind_eq_some_iff.1 h
    obtain ⟨seen', hseen, hpure⟩ := Option.bind_eq_some_iff.1 hrest
    obtain rfl := Option.some.inj hpure
    exact List.forall_mem_cons.2 ⟨isKey_of_parseNew hline, ih hseen⟩

/-- The entry of a key after a fusion. -/
def fused (stamp : List Char) (t : Table) (seen : List (List Char × Sign)) (key : List Char) :
    Option (Sign × List Char) :=
  Sightings.seeAll (tableEntry t key)
    ((seen.filter fun e => e.1 = key).map fun e => (e.2, stamp))

theorem ofKey_sightings (stamp : List Char) (seen : List (List Char × Sign)) (key : List Char) :
    Sightings.ofKey (sightings stamp seen) key =
      (seen.filter fun e => e.1 = key).map fun e => (e.2, stamp) := by
  rw [Sightings.ofKey, sightings, List.filter_map, List.map_map]
  rfl

/-- The lines of an output. -/
theorem outLines_eq {keys : List (List Char)} (hkeys : ∀ k ∈ keys, k ∈ t) :
    outLines t keys =
      keys.filterMap fun k => (tableEntry t k).map fun x => k ++ x.1.toChar :: x.2 := by
  rw [outLines, ← List.filterMap_eq_map]
  refine List.filterMap_congr fun k hk => ?_
  obtain ⟨x, hx⟩ := Option.isSome_iff_exists.1 (AList.lookup_isSome.2 (hkeys k hk))
  simp [tableEntry, hx]

/-- Each stamp in a table is the end of a line. -/
theorem suffix_of_readOld (hread : readOld lines t = some u) {key first : List Char} {sign : Sign}
    (hentry : tableEntry u key = some (sign, first)) :
    (∃ line ∈ lines, first <:+ line) ∨ tableEntry t key = some (sign, first) := by
  induction lines generalizing t with
  | nil =>
    rw [Option.some.inj hread]
    exact Or.inr hentry
  | cons line lines ih =>
    obtain ⟨⟨key', sign', first'⟩, hline, hrest⟩ := Option.bind_eq_some_iff.1 hread
    rcases ih hrest with ⟨line', hmem, hsuffix⟩ | hbefore
    · exact Or.inl ⟨line', List.mem_cons_of_mem _ hmem, hsuffix⟩
    · by_cases hk : key = key'
      · subst hk
        rw [tableEntry, AList.lookup_insert] at hbefore
        obtain ⟨-, rfl⟩ := Prod.mk.inj (Option.some.inj hbefore)
        exact Or.inl ⟨line, List.mem_cons_self, suffix_of_parseOld hline⟩
      · rw [tableEntry, AList.lookup_insert_ne hk] at hbefore
        exact Or.inr hbefore

/-- What is written are lines, if the stamp has no newline. -/
theorem newline_notMem_fused (hread : readOld old ∅ = some t) (hnew : new.mapM parseNew = some seen)
    (hstamp : '\n' ∉ stamp) (hlines : ∀ line ∈ old, '\n' ∉ line) {key first : List Char}
    {sign : Sign} (hentry : fused stamp t seen key = some (sign, first)) :
    '\n' ∉ key ++ sign.toChar :: first := by
  have hkeyed := keyed_of_readOld (fun k hk => absurd hk (AList.notMem_empty k)) hread
  have hsign : '\n' ≠ sign.toChar := by cases sign <;> decide
  have hboth : IsKey key ∧ '\n' ∉ first := by
    rcases Sightings.stamp_of_seeAll hentry with ⟨sign', hbefore⟩ | ⟨x, hx, hfirst⟩
    · refine ⟨hkeyed key (AList.lookup_isSome.1 (Option.isSome_of_mem hbefore)), ?_⟩
      rcases suffix_of_readOld hread hbefore with ⟨line, hmem, hsuffix⟩ | hnone
      · exact fun hin => hlines line hmem (hsuffix.subset hin)
      · cases hnone
    · obtain ⟨e, he, rfl⟩ := List.mem_map.1 hx
      obtain ⟨hmem, hkey⟩ := List.mem_filter.1 he
      obtain rfl := of_decide_eq_true hkey
      exact ⟨(mapM_parseNew hnew e hmem).1, hfirst ▸ hstamp⟩
  simp [hboth.1.newline_notMem, hsign, hboth.2]

/-- The second loop leaves the joined entries. -/
theorem tableEntry_foldl (stamp : List Char) (t : Table) (hseen : ∀ e ∈ seen, e.2 ≠ .star) :
    tableEntry (seen.foldl (fun t e => seeLine stamp t e.1 e.2) (t, false)).1 =
      fused stamp t seen := by
  obtain ⟨hlookup, -⟩ := lookup_foldl stamp hseen (t, false)
  funext key
  rw [hlookup, Sightings.foldl_record, ofKey_sightings, fused]

/-- The variable `$is_new` says whether an entry has changed. -/
theorem isNew_foldl (stamp : List Char) (t : Table) (hseen : ∀ e ∈ seen, e.2 ≠ .star) :
    (seen.foldl (fun t e => seeLine stamp t e.1 e.2) (t, false)).2 = false ↔
      ∀ key, fused stamp t seen key = tableEntry t key := by
  obtain ⟨-, hflag⟩ := lookup_foldl stamp hseen (t, false)
  rw [hflag]
  constructor
  · rintro ⟨-, hsame⟩ key
    refine Sightings.seeAll_eq_self.2 fun x hx => ?_
    obtain ⟨e, he, rfl⟩ := List.mem_map.1 hx
    obtain ⟨hmem, hkey⟩ := List.mem_filter.1 he
    rw [← of_decide_eq_true hkey]
    exact hsame e hmem
  · intro hsame
    refine ⟨rfl, fun e he => Sightings.seeAll_eq_self.1 (hsame e.1) _ ?_⟩
    exact List.mem_map.2 ⟨e, List.mem_filter.2 ⟨he, by simp⟩, rfl⟩

/-- The keys of a table, sorted, are in strictly increasing order. -/
theorem pairwise_sortedKeys (t : Table) :
    (t.keys.insertionSort (· ≤ ·)).Pairwise (· < ·) := by
  have hsorted := List.pairwise_insertionSort (· ≤ ·) t.keys
  have hnodup := (List.perm_insertionSort (· ≤ ·) t.keys).nodup_iff.2 t.keys_nodup
  exact (hsorted.and hnodup).imp fun h => lt_of_le_of_ne h.1 h.2

theorem mem_sortedKeys {key : List Char} : key ∈ t.keys.insertionSort (· ≤ ·) ↔ key ∈ t :=
  (List.perm_insertionSort (· ≤ ·) t.keys).mem_iff

/-- The file of a table reads back as the table. -/
theorem readOld_sortedLines (ht : Keyed t) :
    ∃ u, readOld (outLines t (t.keys.insertionSort (· ≤ ·))) ∅ = some u ∧
      ∀ key, tableEntry u key = tableEntry t key := by
  obtain ⟨u, hu, hall⟩ := readOld_outLines ht (t.keys.insertionSort (· ≤ ·))
    (fun key hkey => mem_sortedKeys.1 hkey) ∅
  refine ⟨u, hu, fun key => ?_⟩
  rw [hall]
  split_ifs with hkey
  · rfl
  · have hno : t.lookup key = none :=
      AList.lookup_eq_none.2 fun hin => hkey (mem_sortedKeys.2 hin)
    rw [tableEntry, tableEntry, hno]
    rfl

/-- If both files can be read, the entry of each bit is joined with what was seen of it. A file is
written exactly when an entry changes, has the bits in increasing order, and reads back as these
entries. Its lines are lines, unless the stamp has a newline. -/
theorem fusion_of_read (stamp : List Char) (hold : readOld old ∅ = some t)
    (hnew : new.mapM parseNew = some seen) :
    ∃ out, fusion stamp old new = some out ∧
      (out = none ↔ ∀ k, fused stamp t seen k = tableEntry t k) ∧
      ∀ lines, out = some lines →
        (∃ keys : List (List Char), keys.Pairwise (· < ·) ∧
          (∀ k, k ∈ keys ↔ (fused stamp t seen k).isSome) ∧
          lines = keys.filterMap fun k =>
            (fused stamp t seen k).map fun x => k ++ x.1.toChar :: x.2) ∧
        (∃ u, readOld lines ∅ = some u ∧ ∀ k, tableEntry u k = fused stamp t seen k) ∧
        ('\n' ∉ stamp → (∀ line ∈ old, '\n' ∉ line) → ∀ line ∈ lines, '\n' ∉ line) := by
  have hparsed := mapM_parseNew hnew
  have hkeyed := keyed_foldl stamp (fun e he => (hparsed e he).1) (t, false)
    (keyed_of_readOld (fun k hk => absurd hk (AList.notMem_empty k)) hold)
  have hentry := tableEntry_foldl stamp t fun e he => (hparsed e he).2
  have hchange := isNew_foldl stamp t fun e he => (hparsed e he).2
  have hfusion : fusion stamp old new =
      some (let r := seen.foldl (fun t e => seeLine stamp t e.1 e.2) (t, false)
        if r.2 then some (outLines r.1 (r.1.keys.insertionSort (· ≤ ·))) else none) := by
    simp only [fusion, hold, readNew_eq, hnew, Option.bind_eq_bind, Option.bind_some,
      Option.map_some]
    rfl
  generalize seen.foldl (fun t e => seeLine stamp t e.1 e.2) (t, false) = r at *
  obtain ⟨u, isNew⟩ := r
  refine ⟨_, hfusion, ?_, fun lines hlines => ?_⟩
  · rw [← hchange]
    cases isNew <;> simp
  · obtain rfl : outLines u (u.keys.insertionSort (· ≤ ·)) = lines := by
      cases isNew
      · cases hlines
      · exact Option.some.inj hlines
    have hout := outLines_eq (t := u) fun key hkey => mem_sortedKeys.1 hkey
    have hmem : ∀ key, key ∈ u.keys.insertionSort (· ≤ ·) ↔ (fused stamp t seen key).isSome := by
      intro key
      rw [mem_sortedKeys, ← hentry, tableEntry, AList.lookup_isSome]
    rw [hentry] at hout
    refine ⟨⟨_, pairwise_sortedKeys u, hmem, hout⟩, hentry ▸ readOld_sortedLines hkeyed,
      fun hstamp hclean line hline => ?_⟩
    rw [hout] at hline
    obtain ⟨key, -, hkey⟩ := List.mem_filterMap.1 hline
    obtain ⟨⟨sign, first⟩, hfused, rfl⟩ := Option.map_eq_some_iff.1 hkey
    exact newline_notMem_fused hold hnew hstamp hclean hfused

/-- `rumt_fusion` dies exactly when a line of one of the files cannot be read. Else the entry of
each bit is joined with what was seen of it; a file is written exactly when an entry changes, has
the bits in increasing order, and reads back as these entries. Its lines are lines, unless the stamp
has a newline. -/
theorem fusion_eq (stamp : List Char) (old new : List (List Char)) :
    (fusion stamp old new = none ↔ readOld old ∅ = none ∨ new.mapM parseNew = none) ∧
      ∀ t seen, readOld old ∅ = some t → new.mapM parseNew = some seen →
        ∃ out, fusion stamp old new = some out ∧
          (out = none ↔ ∀ k, fused stamp t seen k = tableEntry t k) ∧
          ∀ lines, out = some lines →
            (∃ keys : List (List Char), keys.Pairwise (· < ·) ∧
              (∀ k, k ∈ keys ↔ (fused stamp t seen k).isSome) ∧
              lines = keys.filterMap fun k =>
                (fused stamp t seen k).map fun x => k ++ x.1.toChar :: x.2) ∧
            (∃ u, readOld lines ∅ = some u ∧ ∀ k, tableEntry u k = fused stamp t seen k) ∧
            ('\n' ∉ stamp → (∀ line ∈ old, '\n' ∉ line) → ∀ line ∈ lines, '\n' ∉ line) := by
  refine ⟨?_, fun t seen hold hnew => fusion_of_read stamp hold hnew⟩
  rcases hold : readOld old ∅ with - | t
  · simp [fusion, hold]
  · rcases hnew : new.mapM parseNew with - | seen
    · simp [fusion, hold, readNew_eq, hnew]
    · obtain ⟨out, hout, -⟩ := fusion_of_read stamp hold hnew
      simp [hout]

end Files

end Fusion

end LxToolset
