import LxToolset.Intervals
import Mathlib.Data.Nat.Digits.Defs

/-!
# print_holes_linux

The usable memory of the BIOS, less the memory that the kernel was told to use. Where the script
does not die, the holes are the points of the one that are not in the other, in order
(`findHoles_eq`); it dies for no other reason than an interval that it cannot take, or that is not
inside one of the BIOS.
-/

namespace LxToolset

namespace PrintHoles

open Intervals

/-- The messages of `die`. -/
inductive Die where
  | noMap
  | inverted (name : String)
  | around1M (name : String)
  | unsorted (name : String)
  | notKb (name : String)
  | notInside
  deriving DecidableEq

def Die.text : Die → String
  | noMap => "No BIOS memory map nor user memory map." ++
    "Maybe we are not a Linux, or a too old one.\n"
  | inverted name => name ++ " map: inverted interval\n"
  | around1M name => name ++ " map: interval around 1M\n"
  | unsorted name => name ++ " map: unsorted intervals\n"
  | notKb name => name ++ " map: interval not on kb boundary"
  | notInside => "User area not inside BIOS interval\n"

/-- The loop of `check_areas` -/
def checkLoop (name : String) : List (ℕ × ℕ) → ℤ → Except Die (List (ℕ × ℕ))
  | [], _ => .ok []
  | a :: areas, old =>
    if a.1 < 0x100000 ∧ a.2 < 0x100000 then checkLoop name areas old
    else if a.1 ≥ a.2 then .error (.inverted name)
    else if a.1 < 0x100000 then .error (.around1M name)
    else if a.1 ≤ old then .error (.unsorted name)
    else if a.1 % 1024 ≠ 0 ∨ a.2 % 1024 ≠ 0 then .error (.notKb name)
    else do return a :: (← checkLoop name areas a.2)

/-- `check_areas` -/
def checkAreas (name : String) (areas : List (ℕ × ℕ)) : Except Die (List (ℕ × ℕ)) :=
  checkLoop name areas (-1)

/-- `while(defined($bios) && $u->[0] > $bios->[1])`: what is pushed, and what is left. -/
def skip (u : ℕ × ℕ) : List (ℕ × ℕ) → List (ℕ × ℕ) × List (ℕ × ℕ)
  | [] => ([], [])
  | b :: bios => if u.1 > b.2 then (b :: (skip u bios).1, (skip u bios).2) else ([], b :: bios)

/-- The loop over the user intervals, and what follows it. The first interval of the second list is
`$bios`. -/
def holes : List (ℕ × ℕ) → List (ℕ × ℕ) → Except Die (List (ℕ × ℕ))
  | [], bios => .ok bios
  | u :: user, bios =>
    match (skip u bios).2 with
    | [] => .error .notInside
    | b :: rest =>
      if u.1 ≥ b.1 ∧ u.2 ≤ b.2 then do
        let front := if u.1 > b.1 then [(b.1, u.1)] else []
        let more ← holes user (if u.2 = b.2 then rest else (u.2, b.2) :: rest)
        return (skip u bios).1 ++ front ++ more
      else .error .notInside

/-- The user intervals and the holes, of which the two lines are printed. -/
def findHoles (bios user : List (ℕ × ℕ)) : Except Die (List (ℕ × ℕ) × List (ℕ × ℕ)) := do
  if bios = [] ∧ user = [] then .error .noMap
  let bios ← checkAreas "BIOS" bios
  let user ← checkAreas "user" user
  return (user, ← holes user bios)

def lowerDigit (d : ℕ) : Char :=
  if d < 10 then Char.ofNat (48 + d) else Char.ofNat (87 + d)

/-- `%x` or `%d` -/
def numberText (base n : ℕ) : List Char :=
  if n = 0 then ['0'] else (Nat.digits base n).reverse.map lowerDigit

/-- `0x%xk+%dk ` without its blank. -/
def holeText (h : ℕ × ℕ) : List Char :=
  '0' :: 'x' :: numberText 16 (h.1 / 1024) ++ 'k' :: '+' ::
    numberText 10 ((h.2 - h.1) / 1024) ++ ['k']

/-- An interval of the first line, without its blank. -/
def memText (u : ℕ × ℕ) : List Char :=
  if u.1 = 0x100000 then "mem=".toList ++ numberText 10 (u.2 / 1024) ++ ['k']
  else "mem=".toList ++ numberText 10 ((u.2 - u.1) / 1024) ++ 'k' :: '@' ::
    numberText 10 (u.1 / 1024) ++ ['k']

example : (findHoles [(0x100000, 0x8000000)] [(0x100000, 0x4000000)]).toOption.map
    (fun r => (r.1.map memText, r.2.map holeText)) =
      some (["mem=65536k".toList], ["0x10000k+65536k".toList]) := by
  decide

/-! ## The intervals that are checked -/

section Check

variable {name : String} {areas kept : List (ℕ × ℕ)} {old : ℤ}

/-- What `check_areas` takes. -/
structure Taken (areas : List (ℕ × ℕ)) : Prop where
  apart : Apart areas
  high : ∀ a ∈ areas, 0x100000 ≤ a.1
  kb : ∀ a ∈ areas, 1024 ∣ a.1 ∧ 1024 ∣ a.2

/-- The intervals that are not below 1M. -/
def highPart (areas : List (ℕ × ℕ)) : List (ℕ × ℕ) :=
  areas.filter fun a => ¬ (a.1 < 0x100000 ∧ a.2 < 0x100000)

theorem taken_cons {a : ℕ × ℕ} : Taken (a :: kept) ↔
    a.1 < a.2 ∧ 0x100000 ≤ a.1 ∧ (1024 ∣ a.1 ∧ 1024 ∣ a.2) ∧ (∀ j ∈ kept, a.2 < j.1) ∧
      Taken kept := by
  constructor
  · rintro ⟨hapart, hhigh, hkb⟩
    obtain ⟨hlt, hgap, hrest⟩ := apart_cons.1 hapart
    obtain ⟨hhigh', hhighs⟩ := List.forall_mem_cons.1 hhigh
    obtain ⟨hkb', hkbs⟩ := List.forall_mem_cons.1 hkb
    exact ⟨hlt, hhigh', hkb', hgap, hrest, hhighs, hkbs⟩
  · rintro ⟨hlt, hhigh, hkb, hgap, hrest⟩
    exact ⟨apart_cons.2 ⟨hlt, hgap, hrest.apart⟩, List.forall_mem_cons.2 ⟨hhigh, hrest.high⟩,
      List.forall_mem_cons.2 ⟨hkb, hrest.kb⟩⟩

/-- `check_areas` takes the intervals that are not below 1M, if they are as they should be. -/
theorem checkLoop_ok : checkLoop name areas old = .ok kept ↔
    kept = highPart areas ∧ Taken kept ∧ ∀ a ∈ kept, old < a.1 := by
  induction areas generalizing old kept with
  | nil =>
    constructor
    · intro h
      obtain rfl : [] = kept := Except.ok.inj h
      exact ⟨rfl, ⟨apart_nil, by simp, by simp⟩, by simp⟩
    · rintro ⟨rfl, -⟩
      rfl
  | cons a areas ih =>
    rw [checkLoop]
    by_cases hlow : a.1 < 0x100000 ∧ a.2 < 0x100000
    · have hskip : highPart (a :: areas) = highPart areas :=
        List.filter_cons_of_neg (by simp [hlow])
      rw [if_pos hlow, ih, hskip]
    · have hkeep : highPart (a :: areas) = a :: highPart areas :=
        List.filter_cons_of_pos (decide_eq_true hlow)
      rw [if_neg hlow, hkeep]
      split_ifs with hinv haround hsort hkb
      · refine ⟨nofun, ?_⟩
        rintro ⟨rfl, htaken, -⟩
        exact absurd (taken_cons.1 htaken).1 (Nat.not_lt_of_ge hinv)
      · refine ⟨nofun, ?_⟩
        rintro ⟨rfl, htaken, -⟩
        exact absurd (taken_cons.1 htaken).2.1 (Nat.not_le_of_lt haround)
      · refine ⟨nofun, ?_⟩
        rintro ⟨rfl, -, hold⟩
        exact absurd (hold a List.mem_cons_self) (Int.not_lt_of_ge hsort)
      · refine ⟨nofun, ?_⟩
        rintro ⟨rfl, htaken, -⟩
        obtain ⟨hdvd, hdvd'⟩ := (taken_cons.1 htaken).2.2.1
        exact absurd hkb (by omega)
      · have hrest : checkLoop name areas a.2 = .ok (highPart areas) ↔
            Taken (highPart areas) ∧ ∀ j ∈ highPart areas, a.2 < j.1 := by
          rw [ih]
          simp
        constructor
        · intro h
          obtain ⟨rest, hok, rfl⟩ : ∃ rest, checkLoop name areas a.2 = .ok rest ∧
              a :: rest = kept := by
            rcases hrun : checkLoop name areas a.2 with e | rest
            · rw [hrun] at h
              cases h
            · rw [hrun] at h
              exact ⟨rest, rfl, Except.ok.inj h⟩
          obtain ⟨rfl, htaken, hgap⟩ := ih.1 hok
          have hgap' : ∀ j ∈ highPart areas, a.2 < j.1 := fun j hj => by
            exact_mod_cast hgap j hj
          rw [not_or, not_not, not_not] at hkb
          refine ⟨rfl, taken_cons.2 ⟨Nat.lt_of_not_le hinv, Nat.le_of_not_lt haround,
            ⟨Nat.dvd_of_mod_eq_zero hkb.1, Nat.dvd_of_mod_eq_zero hkb.2⟩, hgap', htaken⟩, ?_⟩
          refine List.forall_mem_cons.2 ⟨Int.lt_of_not_ge hsort, fun j hj => ?_⟩
          have hlt := hgap' j hj
          omega
        · rintro ⟨rfl, htaken, -⟩
          obtain ⟨-, -, -, hgap, hrest'⟩ := taken_cons.1 htaken
          rw [hrest.2 ⟨hrest', hgap⟩]
          rfl

theorem checkAreas_ok : checkAreas name areas = .ok kept ↔
    kept = highPart areas ∧ Taken kept := by
  rw [checkAreas, checkLoop_ok, ← and_assoc]
  refine and_iff_left_of_imp fun _ a _ => ?_
  omega

end Check

/-! ## The holes -/

section Holes

variable {u : ℕ × ℕ} {user bios hs : List (ℕ × ℕ)}

/-- Intervals that end before `u` are skipped, and the next one does not. -/
theorem skip_eq (u : ℕ × ℕ) (bios : List (ℕ × ℕ)) :
    bios = (skip u bios).1 ++ (skip u bios).2 ∧ (∀ b ∈ (skip u bios).1, b.2 < u.1) ∧
      ∀ b rest, (skip u bios).2 = b :: rest → u.1 ≤ b.2 := by
  induction bios with
  | nil => exact ⟨rfl, by simp [skip], by simp [skip]⟩
  | cons b bios ih =>
    obtain ⟨heq, hbefore, hnext⟩ := ih
    rw [skip]
    split_ifs with hskip
    · exact ⟨congrArg (b :: ·) heq, List.forall_mem_cons.2 ⟨hskip, hbefore⟩, hnext⟩
    · refine ⟨rfl, by simp, fun b' rest hb => ?_⟩
      rw [← (List.cons.inj hb).1]
      exact Nat.le_of_not_lt hskip

/-- The intervals of the user that are left lie where they did. -/
theorem inside_behind {front rest : List (ℕ × ℕ)} {a b : ℕ} {v : ℕ × ℕ}
    (hfront : ∀ i ∈ front, i.2 < u.1) (ha : a ≤ u.1) (hu : u.1 < u.2) (hv : v.1 < v.2)
    (hlt : u.2 < v.1) : Inside v (behind u b rest) ↔ Inside v (front ++ (a, b) :: rest) := by
  constructor
  · rintro ⟨i, hi, hin⟩
    rw [behind] at hi
    split_ifs at hi
    · exact ⟨i, List.mem_append_right _ (List.mem_cons_of_mem _ hi), hin⟩
    · rcases List.mem_cons.1 hi with rfl | hi
      · exact ⟨(a, b), List.mem_append_right _ List.mem_cons_self, by omega, hin.2⟩
      · exact ⟨i, List.mem_append_right _ (List.mem_cons_of_mem _ hi), hin⟩
  · rintro ⟨i, hi, hin⟩
    rcases List.mem_append.1 hi with hi | hi
    · have hlow := hfront i hi
      omega
    · rcases List.mem_cons.1 hi with rfl | hi
      · have hne : u.2 ≠ b := by
          have hle := hin.2
          omega
        rw [behind, if_neg hne]
        exact ⟨(u.2, b), List.mem_cons_self, hlt.le, hin.2⟩
      · rw [behind]
        split_ifs
        · exact ⟨i, hi, hin⟩
        · exact ⟨i, List.mem_cons_of_mem _ hi, hin⟩

/-- The loop finds the difference exactly where each interval of the user is inside one of the
BIOS. -/
theorem holes_spec (hbios : Apart bios) (huser : Apart user) :
    ((∃ hs, holes user bios = .ok hs) ↔ ∀ u ∈ user, Inside u bios) ∧
      ∀ hs, holes user bios = .ok hs → Difference bios user hs := by
  induction user generalizing bios with
  | nil =>
    refine ⟨by simp [holes], fun hs h => ?_⟩
    obtain rfl : bios = hs := Except.ok.inj h
    exact difference_nil hbios
  | cons u user ih =>
    obtain ⟨hu, hlt, huser'⟩ := apart_cons.1 huser
    obtain ⟨heq, hbefore, hnext⟩ := skip_eq u bios
    rcases hrest : (skip u bios).2 with - | ⟨⟨a, b⟩, rest⟩
    · -- all intervals end before `u`
      have hno : ¬ Inside u bios := by
        rintro ⟨i, hi, hin⟩
        rw [heq, hrest, List.append_nil] at hi
        have hlow := hbefore i hi
        omega
      rw [holes, hrest]
      exact ⟨iff_of_false (by simp) fun hall => hno (hall u List.mem_cons_self), by simp⟩
    · rw [hrest] at heq
      have hin : Inside u bios ↔ a ≤ u.1 ∧ u.2 ≤ b := by
        constructor
        · rintro ⟨i, hi, hi'⟩
          rw [heq] at hi
          rcases List.mem_append.1 hi with hi | hi
          · have hlow := hbefore i hi
            omega
          · rcases List.mem_cons.1 hi with rfl | hi
            · exact hi'
            · rw [heq] at hbios
              obtain ⟨-, hgap, -⟩ := apart_cons.1 (apart_append.1 hbios).2.1
              have hhigh := hgap i hi
              have hlow := hnext (a, b) rest hrest
              simp only at hhigh hlow
              omega
        · intro hi
          exact ⟨(a, b), by rw [heq]; simp, hi⟩
      by_cases hcond : a ≤ u.1 ∧ u.2 ≤ b
      · have hbios' : Apart ((skip u bios).1 ++ (a, b) :: rest) := heq ▸ hbios
        have hbehind : Apart (behind u b rest) :=
          apart_behind (apart_append.1 hbios').2.1 hcond.2
        obtain ⟨hok, hdiff⟩ := ih hbehind huser'
        have hinside : (∀ v ∈ user, Inside v (behind u b rest)) ↔ ∀ v ∈ user, Inside v bios := by
          refine forall₂_congr fun v hv => ?_
          rw [heq]
          exact inside_behind hbefore hcond.1 hu (huser'.1 v hv) (hlt v hv)
        have hrun : holes (u :: user) bios = (do
            let more ← holes user (behind u b rest)
            return (skip u bios).1 ++ before a u ++ more) := by
          rw [holes, hrest]
          simp only
          rw [if_pos hcond]
          rfl
        rw [hrun, List.forall_mem_cons, hin, and_iff_right hcond, ← hinside, ← hok]
        rcases hmore : holes user (behind u b rest) with e | more
        · exact ⟨by simp, by simp⟩
        · refine ⟨by simp, fun hs h => ?_⟩
          obtain rfl : (skip u bios).1 ++ before a u ++ more = hs := Except.ok.inj h
          have hstep := Difference.step hbios' huser hbefore hcond.1 hcond.2 (hdiff more hmore)
          rwa [← heq] at hstep
      · rw [holes, hrest]
        simp only
        rw [if_neg hcond, List.forall_mem_cons, hin]
        exact ⟨iff_of_false (by simp) fun hall => hcond hall.1, by simp⟩

theorem findHoles_of_taken (hnil : ¬ (bios = [] ∧ user = [])) (h : Taken (highPart bios))
    (h' : Taken (highPart user)) : findHoles bios user =
      (holes (highPart user) (highPart bios)).map fun hs => (highPart user, hs) := by
  rw [findHoles, if_neg hnil, checkAreas_ok.2 ⟨rfl, h⟩, checkAreas_ok.2 ⟨rfl, h'⟩]
  change (do return (highPart user, ← holes (highPart user) (highPart bios)) :
    Except Die (List (ℕ × ℕ) × List (ℕ × ℕ))) = _
  cases holes (highPart user) (highPart bios) <;> rfl

theorem taken_of_ok {r : List (ℕ × ℕ) × List (ℕ × ℕ)} (h : findHoles bios user = .ok r) :
    ¬ (bios = [] ∧ user = []) ∧ Taken (highPart bios) ∧ Taken (highPart user) := by
  rw [findHoles] at h
  split_ifs at h with hnil
  · cases h
  · rcases hb : checkAreas "BIOS" bios with e | kept
    · rw [hb] at h
      cases h
    · rcases hu : checkAreas "user" user with e | kept'
      · rw [hb, hu] at h
        cases h
      · obtain ⟨rfl, htaken⟩ := checkAreas_ok.1 hb
        obtain ⟨rfl, htaken'⟩ := checkAreas_ok.1 hu
        exact ⟨hnil, htaken, htaken'⟩

theorem findHoles_iff (r : List (ℕ × ℕ) × List (ℕ × ℕ)) : findHoles bios user = .ok r ↔
    ¬ (bios = [] ∧ user = []) ∧ Taken (highPart bios) ∧ Taken (highPart user) ∧
      r.1 = highPart user ∧ holes (highPart user) (highPart bios) = .ok r.2 := by
  have hmap : ∀ hs : Except Die (List (ℕ × ℕ)),
      (hs.map fun hs => (highPart user, hs)) = .ok r ↔ r.1 = highPart user ∧ hs = .ok r.2 := by
    obtain ⟨kept, found⟩ := r
    rintro (e | hs)
    · simp [Except.map]
    · simp [Except.map, eq_comm]
  constructor
  · intro h
    obtain ⟨hnil, htaken, htaken'⟩ := taken_of_ok h
    rw [findHoles_of_taken hnil htaken htaken', hmap] at h
    exact ⟨hnil, htaken, htaken', h⟩
  · rintro ⟨hnil, htaken, htaken', h⟩
    rwa [findHoles_of_taken hnil htaken htaken', hmap]

/-- The holes are as the intervals of `check_areas` are, and have the right points. -/
theorem taken_of_findHoles {r : List (ℕ × ℕ) × List (ℕ × ℕ)} (h : findHoles bios user = .ok r) :
    Taken r.2 ∧ ∀ x, Mem x r.2 ↔ Mem x (highPart bios) ∧ ¬ Mem x (highPart user) := by
  obtain ⟨-, htaken, htaken', -, hholes⟩ := (findHoles_iff r).1 h
  have hdiff := (holes_spec htaken.apart htaken'.apart).2 r.2 hholes
  have hbounds : ∀ l, Taken l → ∀ i ∈ l, (0x100000 ≤ i.1 ∧ 1024 ∣ i.1) ∧
      0x100000 ≤ i.2 ∧ 1024 ∣ i.2 := by
    intro l hl i hi
    have hlt := hl.apart.1 i hi
    exact ⟨⟨hl.high i hi, (hl.kb i hi).1⟩, (hl.high i hi).trans hlt.le, (hl.kb i hi).2⟩
  have hends := hdiff.ends (fun a => 0x100000 ≤ a ∧ 1024 ∣ a) (hbounds _ htaken)
    (hbounds _ htaken')
  exact ⟨⟨hdiff.apart, fun a ha => (hends a ha).1.1, fun a ha => ⟨(hends a ha).1.2,
    (hends a ha).2.2⟩⟩, hdiff.mem⟩

/-- The script does not die exactly where there are intervals, those from 1M on are in order, and
each of the user is inside one of the BIOS. The holes are then in order on kb boundaries, and are
the addresses from 1M on that the BIOS has and the user does not. -/
theorem findHoles_eq (bios user : List (ℕ × ℕ)) :
    ((∃ r, findHoles bios user = .ok r) ↔ ¬ (bios = [] ∧ user = []) ∧ Taken (highPart bios) ∧
        Taken (highPart user) ∧ ∀ u ∈ highPart user, Inside u (highPart bios)) ∧
      ∀ r, findHoles bios user = .ok r → r.1 = highPart user ∧ Taken r.2 ∧
        ∀ x, Mem x r.2 ↔ Mem x (highPart bios) ∧ ¬ Mem x (highPart user) := by
  constructor
  · constructor
    · rintro ⟨r, hr⟩
      obtain ⟨hnil, htaken, htaken', -, hholes⟩ := (findHoles_iff r).1 hr
      exact ⟨hnil, htaken, htaken',
        (holes_spec htaken.apart htaken'.apart).1.1 ⟨r.2, hholes⟩⟩
    · rintro ⟨hnil, htaken, htaken', hinside⟩
      obtain ⟨hs, hholes⟩ := (holes_spec htaken.apart htaken'.apart).1.2 hinside
      exact ⟨(highPart user, hs), (findHoles_iff _).2 ⟨hnil, htaken, htaken', rfl, hholes⟩⟩
  · intro r hr
    exact ⟨((findHoles_iff r).1 hr).2.2.2.1, taken_of_findHoles hr⟩

end Holes

end PrintHoles

end LxToolset
