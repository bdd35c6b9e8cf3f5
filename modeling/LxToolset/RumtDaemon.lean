import LxToolset.RumtLines

/-!
# rumt_daemon

In each round the memory is compared with what the last round wrote, the bits that flipped are
joined to the file of bad bits, and the memory is written with a new seed. After any rounds, with
any flips between them, the entry of a bit is the join of the directions in which it flipped, with
the stamp of the first time, and nothing else is in the file that was not there before
(`daemon_run`). This takes a start without the file `$BAD_BITS.new`, which a round would take for
what `rumt_fusion` writes.
-/

namespace LxToolset

namespace Daemon

open Trymem Fusion

/-- A seed is a date: it is not empty, and has no newline. -/
structure Seed where
  text : List Char
  ne_nil : text ≠ []
  noNewline : '\n' ∉ text

/-- The argument of `rumt_trymem` -/
def seedBytes (seed : List Char) : List UInt8 :=
  seed.map fun c => UInt8.ofNat c.toNat

/-- ` $SEED`, the first argument of `rumt_fusion` -/
def stampOf (seed : Seed) : List Char :=
  ' ' :: seed.text

/-- The lines of the log. -/
inductive Message where
  | prepared (seed : List Char)
  | checked (seed : List Char)
  | bad (lines : ℕ) (diff : ℤ)
  | nothingNew (lines : ℕ)

/-- The static variables of a process that starts. -/
def staticMd5 (W : ℕ) : Md5Stream W :=
  ⟨⟨⟨0, 0, 0, 0⟩, 0, 0, fun _ => 0, 0⟩, false, fun _ => 0⟩

/-- The variables of the loop, the memory, the file of bad bits and `$BAD_BITS.new`, if there is
one. -/
structure State where
  oldSeed : List Char
  mem : ℕ → UInt8
  badBits : List (List Char)
  newBits : Option (List (List Char))
  log : List Message

section Code

variable (W : ℕ) (dev : Device) (areas : List Area)

/-- `$BAD_BITS.new` after `rumt_fusion`, which leaves it alone if it dies or has nothing new. -/
def written (stamp : List Char) (lines : List BadBit) (badBits : List (List Char))
    (newBits : Option (List (List Char))) : Option (List (List Char)) :=
  match fusion stamp badBits (lines.map lineText) with
  | some (some new) => some new
  | _ => newBits

/-- The file of bad bits after a round with these lines of `rumt_trymem`, and the message. There is
no `$BAD_BITS.new` then. -/
def fuse (stamp : List Char) (lines : List BadBit) (badBits : List (List Char))
    (newBits : Option (List (List Char))) : List (List Char) × Message :=
  match written stamp lines badBits newBits with
  | some new => (new, .bad lines.length (new.length - badBits.length))
  | none => (badBits, .nothingNew lines.length)

/-- A round of the loop after the bits in `flip` have flipped, where the date is `seed`. The daemon
exits if `rumt_trymem` fails. -/
def round (flip : ℕ → UInt8) (seed : Seed) (s : State) : Option (Option State) := do
  let mem := fun a => s.mem a ^^^ flip a
  if s.oldSeed = [] then
    let (_, mem, ok) ← trymem dev areas none (some (seedBytes seed.text)) (staticMd5 W) mem
    if ok then
      return some ⟨seed.text, mem, s.badBits, s.newBits, s.log ++ [.prepared seed.text]⟩
    else return none
  else
    let (lines, mem, ok) ← trymem dev areas (some (seedBytes s.oldSeed))
      (some (seedBytes seed.text)) (staticMd5 W) mem
    if ok then
      let log := s.log ++ [.checked s.oldSeed]
      if lines = [] then
        return some ⟨seed.text, mem, s.badBits, s.newBits, log ++ [.prepared seed.text]⟩
      else
        let (badBits, message) := fuse (stampOf seed) lines s.badBits s.newBits
        return some ⟨seed.text, mem, badBits, none, log ++ [message, .prepared seed.text]⟩
    else return none

/-- The rounds of the loop. -/
def run : List ((ℕ → UInt8) × Seed) → State → Option (Option State)
  | [], s => some (some s)
  | (flip, seed) :: rounds, s => do
    match ← round W dev areas flip seed s with
    | none => return none
    | some s => run rounds s

end Code

/-! ## What is known of a bit -/

section Spec

variable (dev : Device) (areas : List Area)

/-- The address is in one of the areas. -/
def Covered (a : ℕ) : Prop :=
  ∃ o ∈ pages dev areas, o ≤ a ∧ a < o + dev.pageSize

/-- What is written to an address. -/
def content (seed : List Char) (a : ℕ) : UInt8 :=
  fillPages dev (seedBytes seed) 0 (pages dev areas) (fun _ => 0) a

/-- The directions in which a bit flips in rounds after `old`, with the stamps. A plus is a bit that
was written as 0. -/
def seen (a b : ℕ) : List Char → List ((ℕ → UInt8) × Seed) → List (Sign × List Char)
  | _, [] => []
  | old, (flip, seed) :: rounds =>
    if (flip a).toNat.testBit b then
      (signOf !(content dev areas old a).toNat.testBit b, stampOf seed) :: seen a b seed.text rounds
    else seen a b seed.text rounds

end Spec

section Lines

variable {W : ℕ} {dev : Device} {areas : List Area} {data : List UInt8} {flip mem mem' : ℕ → UInt8}
  {a b : ℕ}

/-- What is written does not depend on what was there. -/
theorem fillPages_of_covered {os : List ℕ} {k : ℕ} (mem mem' : ℕ → UInt8)
    (h : ∃ o ∈ os, o ≤ a ∧ a < o + dev.pageSize) :
    fillPages dev data k os mem a = fillPages dev data k os mem' a := by
  induction os generalizing k mem mem' with
  | nil =>
    obtain ⟨o, ho, -⟩ := h
    exact absurd ho List.not_mem_nil
  | cons o os ih =>
    by_cases hrest : ∃ o ∈ os, o ≤ a ∧ a < o + dev.pageSize
    · exact ih _ _ hrest
    · have hout : ∀ o' ∈ os, ¬ (o' ≤ a ∧ a < o' + dev.pageSize) :=
        fun o' ho' hin => hrest ⟨o', ho', hin⟩
      obtain ⟨o', ho', hin⟩ := h
      rcases List.mem_cons.1 ho' with rfl | ho'
      · rw [fillPages, fillPages, fillPages_of_outside hout, fillPages_of_outside hout, writePage,
          writePage, if_pos hin, if_pos hin]
      · exact absurd hin (hout o' ho')

/-- The lines of a check are those of the bits that flipped. -/
theorem mem_flippedLines (plus : Bool) :
    (⟨a, b, plus⟩ : BadBit) ∈ (pages dev areas).flatMap (flippedLines dev mem flip) ↔
      Covered dev areas a ∧ b < 7 ∧ (flip a).toNat.testBit b = true ∧
        plus = !(mem a).toNat.testBit b := by
  simp only [List.mem_flatMap, flippedLines, List.mem_map, List.mem_filter, List.mem_range,
    BadBit.mk.injEq, Covered]
  constructor
  · rintro ⟨o, ho, x, hx, b', ⟨hb, hflip⟩, rfl, rfl, rfl⟩
    exact ⟨⟨o, ho, by omega, by omega⟩, hb, hflip, rfl⟩
  · rintro ⟨⟨o, ho, hle, hlt⟩, hb, hflip, rfl⟩
    have ha : o + (a - o) = a := by omega
    exact ⟨o, ho, a - o, by omega, b, ⟨hb, by rwa [ha]⟩, ha, rfl, by rw [ha]⟩

/-- What `rumt_fusion` reads in the lines. -/
def sighted (lines : List BadBit) : List (List Char × Sign) :=
  lines.map fun l => (keyText l.address l.bit, signOf l.plus)

theorem mapM_lineText (lines : List BadBit) :
    (lines.map lineText).mapM parseNew = some (sighted lines) := by
  induction lines with
  | nil => rfl
  | cons l lines ih =>
    rw [List.map_cons, List.mapM_cons, parseNew_lineText, ih]
    rfl

/-- The entry of a bit after a fusion with the lines of a check. -/
theorem fused_keyText (stamp : List Char) (t : Table) (ha : Covered dev areas a) (hb : b < 7) :
    fused stamp t (sighted ((pages dev areas).flatMap (flippedLines dev mem flip)))
        (keyText a b) =
      if (flip a).toNat.testBit b then
        Sightings.see (tableEntry t (keyText a b)) (signOf !(mem a).toNat.testBit b, stamp)
      else tableEntry t (keyText a b) := by
  have hmem : ∀ y ∈ ((sighted ((pages dev areas).flatMap (flippedLines dev mem flip))).filter
      fun e => e.1 = keyText a b).map fun e => (e.2, stamp),
      (flip a).toNat.testBit b = true ∧ y = (signOf !(mem a).toNat.testBit b, stamp) := by
    intro y hy
    obtain ⟨e, he, rfl⟩ := List.mem_map.1 hy
    obtain ⟨hin, hkey⟩ := List.mem_filter.1 he
    obtain ⟨⟨a', b', plus⟩, hl, rfl⟩ := List.mem_map.1 hin
    obtain ⟨rfl, rfl⟩ := keyText_injective (of_decide_eq_true hkey)
    obtain ⟨-, -, hflip, rfl⟩ := (mem_flippedLines plus).1 hl
    exact ⟨hflip, rfl⟩
  rw [fused]
  split_ifs with hflip
  · have hline : (⟨a, b, !(mem a).toNat.testBit b⟩ : BadBit) ∈
        (pages dev areas).flatMap (flippedLines dev mem flip) :=
      (mem_flippedLines _).2 ⟨ha, hb, hflip, rfl⟩
    have hin : (keyText a b, signOf !(mem a).toNat.testBit b) ∈
        (sighted ((pages dev areas).flatMap (flippedLines dev mem flip))).filter
          fun e => e.1 = keyText a b :=
      List.mem_filter.2 ⟨List.mem_map.2 ⟨_, hline, rfl⟩, by simp⟩
    exact Sightings.seeAll_of_forall_eq (List.ne_nil_of_mem (List.mem_map.2 ⟨_, hin, rfl⟩))
      fun y hy => (hmem y hy).2
  · have hnone := List.eq_nil_iff_forall_not_mem.2 fun y hy => hflip (hmem y hy).1
    rw [hnone]
    rfl

/-- Other entries stay as they are. -/
theorem fused_other (stamp : List Char) (t : Table) {key : List Char}
    (h : ∀ a b, Covered dev areas a → b < 7 → key ≠ keyText a b) :
    fused stamp t (sighted ((pages dev areas).flatMap (flippedLines dev mem flip))) key =
      tableEntry t key := by
  have hnone : ((sighted ((pages dev areas).flatMap (flippedLines dev mem flip))).filter
      fun e => e.1 = key) = [] := by
    refine List.filter_eq_nil_iff.2 fun e he => ?_
    obtain ⟨⟨a, b, plus⟩, hl, rfl⟩ := List.mem_map.1 he
    obtain ⟨ha, hb, -⟩ := (mem_flippedLines plus).1 hl
    simpa using (h a b ha hb).symm
  rw [fused, hnone]
  rfl

/-- The file of bad bits reads as the entries after the fusion, whether it was written or not. -/
theorem fuse_eq {stamp : List Char} (hstamp : '\n' ∉ stamp) (lines : List BadBit)
    {badBits : List (List Char)} {t : Table} (h : readOld badBits ∅ = some t)
    (hclean : ∀ line ∈ badBits, '\n' ∉ line) :
    (∀ line ∈ (fuse stamp lines badBits none).1, '\n' ∉ line) ∧
      ∃ u, readOld (fuse stamp lines badBits none).1 ∅ = some u ∧
        ∀ key, tableEntry u key = fused stamp t (sighted lines) key := by
  obtain ⟨out, hout, hnew, hlines⟩ := fusion_of_read stamp h (mapM_lineText lines)
  rcases out with - | new
  · simp only [fuse, written, hout]
    exact ⟨hclean, t, h, fun key => ((hnew.1 rfl) key).symm⟩
  · obtain ⟨-, hread, hnewline⟩ := hlines new rfl
    simp only [fuse, written, hout]
    exact ⟨hnewline hstamp hclean, hread⟩

theorem trymem_first (hW : 32 ≤ W) (h : Proper dev areas) (new : List UInt8) (md5 : Md5Stream W)
    (mem : ℕ → UInt8) :
    trymem dev areas none (some new) md5 mem =
      some ([], fillPages dev new 0 (pages dev areas) mem, true) := by
  obtain ⟨next, hwrite⟩ := writeAreas_eq hW h new md5 mem
  simp only [trymem, Option.bind_eq_bind, Option.bind_some, if_true, hwrite]
  rfl

theorem trymem_next (hW : 32 ≤ W) (h : Proper dev areas) (old new : List UInt8) (flip : ℕ → UInt8)
    (md5 : Md5Stream W) (mem : ℕ → UInt8) :
    trymem dev areas (some old) (some new) md5
        (fun a => fillPages dev old 0 (pages dev areas) mem a ^^^ flip a) =
      some ((pages dev areas).flatMap
          (flippedLines dev (fillPages dev old 0 (pages dev areas) mem) flip),
        fillPages dev new 0 (pages dev areas)
          (fun a => fillPages dev old 0 (pages dev areas) mem a ^^^ flip a), true) := by
  obtain ⟨md5', hcheck⟩ := checkAreas_eq hW h old flip md5 mem
  obtain ⟨next, hwrite⟩ := writeAreas_eq hW h new md5'
    (fun a => fillPages dev old 0 (pages dev areas) mem a ^^^ flip a)
  simp only [trymem, hcheck, Option.bind_eq_bind, Option.bind_some, if_true, hwrite]
  rfl

end Lines

/-! ## Rounds -/

/-- Between two rounds: the memory was written with the old seed, and the file can be read. -/
structure Known (dev : Device) (areas : List Area) (t : Table) (s : State) : Prop where
  oldSeed : s.oldSeed ≠ []
  mem : ∃ mem, s.mem = fillPages dev (seedBytes s.oldSeed) 0 (pages dev areas) mem
  table : readOld s.badBits ∅ = some t
  lines : ∀ line ∈ s.badBits, '\n' ∉ line
  newBits : s.newBits = none

section Rounds

variable {W : ℕ} {dev : Device} {areas : List Area} {s : State} {t : Table}

/-- What a round makes of the table. -/
structure Next (dev : Device) (areas : List Area) (old : List Char) (flip : ℕ → UInt8)
    (seed : Seed) (t u : Table) : Prop where
  bit : ∀ a b, Covered dev areas a → b < 7 → tableEntry u (keyText a b) =
    if (flip a).toNat.testBit b then
      Sightings.see (tableEntry t (keyText a b))
        (signOf !(content dev areas old a).toNat.testBit b, stampOf seed)
    else tableEntry t (keyText a b)
  other : ∀ key, (∀ a b, Covered dev areas a → b < 7 → key ≠ keyText a b) →
    tableEntry u key = tableEntry t key

theorem Known.round (hW : 32 ≤ W) (h : Proper dev areas) (hs : Known dev areas t s)
    (flip : ℕ → UInt8) (seed : Seed) :
    ∃ next u, Daemon.round W dev areas flip seed s = some (some next) ∧
      next.oldSeed = seed.text ∧ Known dev areas u next ∧
      Next dev areas s.oldSeed flip seed t u := by
  obtain ⟨mem, hmem⟩ := hs.mem
  have htry := trymem_next hW h (seedBytes s.oldSeed) (seedBytes seed.text) flip (staticMd5 W) mem
  rw [← hmem] at htry
  have hcontent : ∀ a, Covered dev areas a → s.mem a = content dev areas s.oldSeed a := by
    intro a ha
    rw [hmem, content, fillPages_of_covered mem (fun _ => 0) ha]
  have hstamp : '\n' ∉ stampOf seed := by
    rw [stampOf, List.mem_cons, not_or]
    exact ⟨by decide, seed.noNewline⟩
  obtain ⟨hclean, u, hu, hentry⟩ := fuse_eq hstamp
    ((pages dev areas).flatMap (flippedLines dev s.mem flip)) hs.table hs.lines
  have hnext : Next dev areas s.oldSeed flip seed t u := by
    refine ⟨fun a b ha hb => ?_, fun key hkey => ?_⟩
    · rw [hentry, fused_keyText _ _ ha hb, hcontent a ha]
    · rw [hentry, fused_other _ _ hkey]
  rw [Daemon.round]
  simp only [if_neg hs.oldSeed, htry, Option.bind_eq_bind, Option.bind_some, if_true, hs.newBits]
  by_cases hlines : (pages dev areas).flatMap (flippedLines dev s.mem flip) = []
  · rw [if_pos hlines]
    refine ⟨_, t, rfl, rfl, ⟨seed.ne_nil, ⟨_, rfl⟩, hs.table, hs.lines, rfl⟩, ?_⟩
    have hsame : ∀ key, tableEntry u key = tableEntry t key := by
      intro key
      rw [hentry, hlines]
      rfl
    exact ⟨fun a b ha hb => (hsame _).symm.trans (hnext.bit a b ha hb), fun key _ => rfl⟩
  · rw [if_neg hlines]
    exact ⟨_, u, rfl, rfl, ⟨seed.ne_nil, ⟨_, rfl⟩, hu, hclean, rfl⟩, hnext⟩

/-- After all rounds, each bit has the join of what was seen of it. -/
theorem Known.run (hW : 32 ≤ W) (h : Proper dev areas) (hs : Known dev areas t s)
    (rounds : List ((ℕ → UInt8) × Seed)) :
    ∃ last u, Daemon.run W dev areas rounds s = some (some last) ∧
      Known dev areas u last ∧
      (∀ a b, Covered dev areas a → b < 7 → tableEntry u (keyText a b) =
        Sightings.seeAll (tableEntry t (keyText a b)) (seen dev areas a b s.oldSeed rounds)) ∧
      ∀ key, (∀ a b, Covered dev areas a → b < 7 → key ≠ keyText a b) →
        tableEntry u key = tableEntry t key := by
  induction rounds generalizing s t with
  | nil => exact ⟨s, t, rfl, hs, fun _ _ _ _ => rfl, fun _ _ => rfl⟩
  | cons round rounds ih =>
    obtain ⟨flip, seed⟩ := round
    obtain ⟨next, u, hround, hold, hknown, hnext⟩ := hs.round hW h flip seed
    obtain ⟨last, v, hrun, hlast, hbits, hothers⟩ := ih hknown
    refine ⟨last, v, ?_, hlast, fun a b ha hb => ?_, fun key hkey => ?_⟩
    · rw [Daemon.run, hround]
      exact hrun
    · rw [hbits a b ha hb, hnext.bit a b ha hb, hold, seen]
      split_ifs <;> rfl
    · rw [hothers key hkey, hnext.other key hkey]

theorem Known.first (hW : 32 ≤ W) (h : Proper dev areas) {badBits : List (List Char)}
    (ht : readOld badBits ∅ = some t) (hlines : ∀ line ∈ badBits, '\n' ∉ line)
    (mem flip : ℕ → UInt8) (seed : Seed) :
    ∃ next, Daemon.round W dev areas flip seed ⟨[], mem, badBits, none, []⟩ = some (some next) ∧
      next.oldSeed = seed.text ∧ Known dev areas t next := by
  have htry := trymem_first hW h (seedBytes seed.text) (staticMd5 W) fun a => mem a ^^^ flip a
  rw [Daemon.round]
  simp only [if_true, htry, Option.bind_eq_bind, Option.bind_some]
  exact ⟨_, rfl, rfl, seed.ne_nil, ⟨_, rfl⟩, ht, hlines, rfl⟩

/-- From a start without `$BAD_BITS.new` on, whatever bits flip between the rounds: the daemon goes
on, and in the file of bad bits, the entry of each of the seven lower bits of a byte in the areas is
what the file had, joined with the direction of the bit in each round in which it flipped. All other
entries stay. -/
theorem daemon_run (hW : 32 ≤ W) (h : Proper dev areas) {badBits : List (List Char)}
    (ht : readOld badBits ∅ = some t) (hlines : ∀ line ∈ badBits, '\n' ∉ line)
    (mem flip : ℕ → UInt8) (seed : Seed) (rounds : List ((ℕ → UInt8) × Seed)) :
    ∃ last u, run W dev areas ((flip, seed) :: rounds) ⟨[], mem, badBits, none, []⟩ =
        some (some last) ∧
      readOld last.badBits ∅ = some u ∧ (∀ line ∈ last.badBits, '\n' ∉ line) ∧
      (∀ a b, Covered dev areas a → b < 7 → tableEntry u (keyText a b) =
        Sightings.seeAll (tableEntry t (keyText a b)) (seen dev areas a b seed.text rounds)) ∧
      ∀ key, (∀ a b, Covered dev areas a → b < 7 → key ≠ keyText a b) →
        tableEntry u key = tableEntry t key := by
  obtain ⟨next, hround, hold, hknown⟩ := Known.first hW h ht hlines mem flip seed
  obtain ⟨last, u, hrun, hlast, hbits, hothers⟩ := hknown.run hW h rounds
  rw [hold] at hbits
  refine ⟨last, u, ?_, hlast.table, hlast.lines, hbits, hothers⟩
  rw [run, hround]
  exact hrun

def seedOne : Seed :=
  ⟨"20030101-000000".toList, by decide, by decide⟩

def seedTwo : Seed :=
  ⟨"20030101-003000".toList, by decide, by decide⟩

/-- A bit that was written as 0 flips in the second round. -/
theorem daemon_run_small :
    ∃ last u, run 64 smallDevice [⟨16, 2⟩, ⟨64, 1⟩]
        [(fun _ => 0, seedOne), (fun a => if a = 16 then 1 else 0, seedTwo)]
        ⟨[], fun _ => 0, [], none, []⟩ = some (some last) ∧
      readOld last.badBits ∅ = some u ∧
      tableEntry u (keyText 16 0) = some (.plus, stampOf seedTwo) := by
  have hproper : Proper smallDevice [⟨16, 2⟩, ⟨64, 1⟩] := ⟨by decide, by decide, by decide⟩
  have hread : readOld [] ∅ = some ∅ := rfl
  obtain ⟨last, u, hrun, hlast, -, hbits, -⟩ := daemon_run (W := 64) (by decide) hproper hread
    (fun _ h => absurd h List.not_mem_nil) (fun _ => 0) (fun _ => 0) seedOne
    [(fun a => if a = 16 then 1 else 0, seedTwo)]
  have hcovered : Covered smallDevice [⟨16, 2⟩, ⟨64, 1⟩] 16 := ⟨16, by decide, by decide, by decide⟩
  have hseen : seen smallDevice [⟨16, 2⟩, ⟨64, 1⟩] 16 0 seedOne.text
      [(fun a => if a = 16 then 1 else 0, seedTwo)] = [(.plus, stampOf seedTwo)] := by
    decide +kernel
  refine ⟨last, u, hrun, hlast, ?_⟩
  rw [hbits 16 0 hcovered (by decide), hseen]
  rfl

end Rounds

end Daemon

end LxToolset
