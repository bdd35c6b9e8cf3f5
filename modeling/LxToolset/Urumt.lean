import LxToolset.Flips
import LxToolset.Md5stream
import LxToolset.UrumtStats
import Mathlib.Data.Nat.Bitwise

/-!
# The loop of urumt

`do_tests` writes page after page, and checks each of them before it is written again. At the
beginning of each iteration any bits of the pages may flip. What an iteration prints is exactly the
bits of one page that flipped an odd number of times since it was written (`doTests_eq`), whatever
the flips, until more bits are bad in one page than are allowed.
-/

namespace LxToolset

namespace Urumt

/-- The variables that `main` sets, which takes two pages at least. A page has a frame if
`look_for_pages` found one. -/
structure Config where
  nPages : ℕ
  pageSize : ℕ
  pid : ℕ
  maxBugsPanic : ℕ
  pageMap : ℕ → Option ℕ
  two_le : 2 ≤ nPages
  aligned : 16 ∣ pageSize
  small : pageSize < 2 ^ 29

def magic : ℕ := 0xDEADBEEF

/-- The messages. The lines of pages without a frame show it as -1, and `%d` the `unsigned` pass
as an `int`. -/
inductive Line where
  | pass (n : ℤ)
  | badBit (frame : Option ℕ) (byte bit : ℕ) (plus : Bool)
  | tooMany
  | unknownPage
  | preadStats (r : ℕ)
  deriving DecidableEq

/-- The variables of `do_tests`, the memory, the statistics file and the state of md5stream.c. -/
structure State (W : ℕ) where
  ipage : ℕ
  ipass : ℕ
  opage : ℕ
  opass : ℕ
  retard : ℕ
  pass : BitVec 32
  arena : ℕ → ℕ → UInt8
  memBuf : ℕ → UInt8
  stats : List UInt8
  md5 : Md5Stream W

/-- A `long` in memory. -/
def longBytes (W x : ℕ) : List UInt8 :=
  (List.range (W / 8)).map fun i => byteAt (BitVec.ofNat W x) (8 * i)

def seedBytes (W pid page pass : ℕ) : List UInt8 :=
  [page, pass, pid, magic].flatMap (longBytes W)

section Code

variable {W : ℕ} (cfg : Config)

/-- `prepare_area` -/
def prepareArea (page pass : ℕ) (md5 : Md5Stream W) (dst : ℕ → UInt8) :
    Option (Md5Stream W × (ℕ → UInt8)) := do
  let (md5, area) ← (md5.init.seed (seedBytes W cfg.pid page pass)).fill cfg.pageSize
  return (md5, fun byte => area.getD byte (dst byte))

/-- The messages of the two loops over the bytes and the bits of a page. -/
def badBits (frame : Option ℕ) (memBuf page : ℕ → UInt8) : List Line :=
  (List.range cfg.pageSize).flatMap fun byte =>
    let diff := memBuf byte ^^^ page byte
    if diff = 0 then []
    else (List.range 8).filterMap fun bit =>
      if diff.toNat &&& 1 <<< bit ≠ 0 then
        some (.badBit frame byte bit ((memBuf byte).toNat &&& 1 <<< bit ≠ 0))
      else none

/-- The numbers of a page that was checked, of which `nErrors` bits are bad. -/
def record (W : ℕ) (frame : Option ℕ) (differs : Bool) (nErrors : ℕ) (stats : List UInt8) :
    List Line × Option (List UInt8) :=
  match frame with
  | none => (if differs then [.unknownPage] else [], some stats)
  | some page =>
    let bad := if differs then UrumtStats.recordBadBits W stats page nErrors else .ok stats
    match bad with
    | .error r => ([.preadStats r], none)
    | .ok stats =>
      match UrumtStats.recordChecked W stats page with
      | .error r => ([.preadStats r], none)
      | .ok stats => ([], some stats)

/-- The check of page `opage`. There is no state left after a fatal error. -/
def check (s : State W) : Option (List Line × Option (State W)) := do
  let (md5, memBuf) ← prepareArea cfg s.opage s.opass s.md5 s.memBuf
  let page := s.arena s.opage
  let frame := cfg.pageMap s.opage
  let differs := (List.range cfg.pageSize).any fun byte => memBuf byte ≠ page byte
  let bad := if differs then badBits cfg frame memBuf page else []
  if bad.length > cfg.maxBugsPanic then return (bad ++ [.tooMany], none)
  let (lines, stats) := record W frame differs bad.length s.stats
  return (bad ++ lines, stats.map fun stats =>
    { s with
      md5 := md5, memBuf := memBuf, stats := stats
      opage := (s.opage + 1) % cfg.nPages, opass := s.opass + 1 })

/-- One iteration of `do_tests`, at whose beginning the bits in `flips` flip. -/
def iteration (flips : ℕ → ℕ → UInt8) (s : State W) :
    Option (List Line × Option (State W)) := do
  let arena := fun page byte => s.arena page byte ^^^ flips page byte
  let (md5, page) ← prepareArea cfg s.ipage s.ipass s.md5 (arena s.ipage)
  let ipage := (s.ipage + 1) % cfg.nPages
  let pass := if ipage = 0 then s.pass + 1 else s.pass
  let lines := if ipage = 0 then [.pass pass.toInt] else []
  let s := { s with
    md5 := md5, arena := Function.update arena s.ipage page
    ipage := ipage, ipass := s.ipass + 1, pass := pass }
  if s.retard ≠ 0 then return (lines, some { s with retard := s.retard - 1 })
  let (more, s) ← check cfg s
  return (lines ++ more, s)

/-- The iterations of `do_tests` from number `t` on, until a fatal error or the `n`-th of them. -/
def doTests (flips : ℕ → ℕ → ℕ → UInt8) :
    ℕ → ℕ → State W → Option (List (List Line) × Option (State W))
  | 0, _, s => some ([], some s)
  | n + 1, t, s => do
    let (lines, s) ← iteration cfg (flips t) s
    match s with
    | none => return ([lines], none)
    | some s =>
      let (rest, s) ← doTests flips n (t + 1) s
      return (lines :: rest, s)

/-- The variables at the beginning of `do_tests`. -/
def start (arena : ℕ → ℕ → UInt8) (memBuf : ℕ → UInt8) (stats : List UInt8)
    (md5 : Md5Stream W) : State W :=
  ⟨0, 0, 0, 0, cfg.nPages - 1, 0, arena, memBuf, stats, md5⟩

end Code

/-! ## What an iteration prints -/

section Spec

variable (W : ℕ) (cfg : Config) (flips : ℕ → ℕ → ℕ → UInt8)

/-- A byte of the page that is written at time `t`. -/
def written (t byte : ℕ) : UInt8 :=
  (seedStream (seedBytes W cfg.pid (t % cfg.nPages) t) (cfg.pageSize / 16)).getD byte 0

/-- A bit of the page that is written at time `t` is not as it was when the page is checked. -/
def flipped (t byte bit : ℕ) : Bool :=
  Flips.odd (fun i => (flips i (t % cfg.nPages) byte).toNat.testBit bit) (t + 1) (t + cfg.nPages)

/-- The bits to report of the page that is written at time `t`. A plus is a bit that was set. -/
def oddBits (t : ℕ) : List Line :=
  (List.range cfg.pageSize).flatMap fun byte =>
    ((List.range 8).filter fun bit => flipped cfg flips t byte bit).map fun bit =>
      .badBit (cfg.pageMap (t % cfg.nPages)) byte bit ((written W cfg t byte).toNat.testBit bit)

/-- The check in iteration `i` is the last one. -/
def stops (i : ℕ) : Bool :=
  cfg.nPages ≤ i + 1 ∧ cfg.maxBugsPanic < (oddBits W cfg flips (i + 1 - cfg.nPages)).length

/-- The messages of the check of the page that was written at time `t`. -/
def checkLines (t : ℕ) : List Line :=
  let bad := oddBits W cfg flips t
  if cfg.maxBugsPanic < bad.length then bad ++ [.tooMany]
  else if bad ≠ [] ∧ cfg.pageMap (t % cfg.nPages) = none then bad ++ [.unknownPage]
  else bad

/-- The message of the end of a pass, of which the number is taken modulo `2 ^ 32` into the range
of an `int`. -/
def passLines (i : ℕ) : List Line :=
  if (i + 1) % cfg.nPages = 0 then [.pass ((((i + 1) / cfg.nPages : ℕ) : ℤ).bmod (2 ^ 32))] else []

/-- The messages of iteration `i`. -/
def specLines (i : ℕ) : List Line :=
  passLines cfg i ++
    if i + 1 < cfg.nPages then [] else checkLines W cfg flips (i + 1 - cfg.nPages)

/-- The messages of `n` iterations from number `i` on, and whether they are not the last ones. -/
def specRun : ℕ → ℕ → List (List Line) × Bool
  | 0, _ => ([], true)
  | n + 1, i =>
    if stops W cfg flips i then ([specLines W cfg flips i], false)
    else (specLines W cfg flips i :: (specRun n (i + 1)).1, (specRun n (i + 1)).2)

/-- The additions to the statistics of the check of the page that was written at time `t`. -/
def checkLog (t : ℕ) : List (ℕ × ℕ) :=
  match cfg.pageMap (t % cfg.nPages) with
  | none => []
  | some page =>
    if oddBits W cfg flips t = [] then [(page * 2, 1)]
    else [(page * 2 + 1, (oddBits W cfg flips t).length), (page * 2, 1)]

/-- The additions of the first `i` iterations. -/
def log (i : ℕ) : List (ℕ × ℕ) :=
  (List.range (i + 1 - cfg.nPages)).flatMap (checkLog W cfg flips)

end Spec

section Bits

variable {W : ℕ} {cfg : Config} {flips : ℕ → ℕ → ℕ → UInt8} {t : ℕ}

theorem and_shift (n bit : ℕ) : decide (n &&& 1 <<< bit ≠ 0) = n.testBit bit := by
  rw [Nat.one_shiftLeft, Nat.and_two_pow]
  cases n.testBit bit <;> simp

theorem eq_zero_of_testBit {x : UInt8} (h : ∀ bit < 8, x.toNat.testBit bit = false) : x = 0 := by
  refine UInt8.toNat_inj.1 (Nat.eq_of_testBit_eq fun bit => ?_)
  rw [UInt8.toNat_zero, Nat.zero_testBit]
  rcases Nat.lt_or_ge bit 8 with hlt | hge
  · exact h bit hlt
  · exact Nat.testBit_lt_two_pow (x.toNat_lt.trans_le (Nat.pow_le_pow_right (by decide) hge))

/-- The area depends on the page and the pass only. -/
theorem prepareArea_eq (hW : 32 ≤ W) (cfg : Config) (page pass : ℕ) (md5 : Md5Stream W)
    (dst : ℕ → UInt8) :
    ∃ md5' area, prepareArea cfg page pass md5 dst = some (md5', area) ∧
      ∀ byte < cfg.pageSize, area byte =
        (seedStream (seedBytes W cfg.pid page pass) (cfg.pageSize / 16)).getD byte 0 := by
  obtain ⟨t, ht, -⟩ := fill_seeded md5 hW [seedBytes W cfg.pid page pass] cfg.pageSize
  rw [List.flatten_singleton] at ht
  refine ⟨t, fun byte => (seedStream (seedBytes W cfg.pid page pass) (cfg.pageSize / 16)).getD byte
    (dst byte), ?_, fun byte hbyte => ?_⟩
  · rw [List.foldl_cons, List.foldl_nil] at ht
    rw [prepareArea, ht]
    rfl
  · have hlen : byte < (seedStream (seedBytes W cfg.pid page pass) (cfg.pageSize / 16)).length := by
      rwa [length_seedStream, Nat.div_mul_cancel cfg.aligned]
    exact (List.getD_eq_getElem _ _ hlen).trans (List.getD_eq_getElem _ _ hlen).symm

/-- A page and its flips. -/
structure Differs (cfg : Config) (flips : ℕ → ℕ → ℕ → UInt8) (t : ℕ) (memBuf page : ℕ → UInt8) :
    Prop where
  memBuf : ∀ byte < cfg.pageSize, memBuf byte = written W cfg t byte
  page : ∀ byte < cfg.pageSize, ∀ bit < 8, (page byte).toNat.testBit bit =
    ((written W cfg t byte).toNat.testBit bit ^^ flipped cfg flips t byte bit)

variable {memBuf page : ℕ → UInt8}

theorem Differs.testBit (h : Differs (W := W) cfg flips t memBuf page) {byte bit : ℕ}
    (hbyte : byte < cfg.pageSize) (hbit : bit < 8) :
    (memBuf byte ^^^ page byte).toNat.testBit bit = flipped cfg flips t byte bit := by
  rw [UInt8.toNat_xor, Nat.testBit_xor, h.page byte hbyte bit hbit, h.memBuf byte hbyte,
    ← Bool.xor_assoc, Bool.xor_self, Bool.false_xor]

/-- The loops print the bits that flipped. -/
theorem badBits_eq (h : Differs (W := W) cfg flips t memBuf page) :
    badBits cfg (cfg.pageMap (t % cfg.nPages)) memBuf page = oddBits W cfg flips t := by
  rw [badBits, oddBits]
  refine List.flatMap_congr fun byte hbyte => ?_
  rw [List.mem_range] at hbyte
  have hfilter : ((List.range 8).filter fun bit => flipped cfg flips t byte bit) =
      (List.range 8).filter fun bit => (memBuf byte ^^^ page byte).toNat.testBit bit :=
    List.filter_congr fun bit hbit => (h.testBit hbyte (List.mem_range.1 hbit)).symm
  rw [hfilter, ← h.memBuf byte hbyte, ← List.filterMap_eq_map, List.filterMap_filter]
  simp only
  split_ifs with hzero
  · simp [hzero]
  · refine List.filterMap_congr fun bit _ => ?_
    have hset : (memBuf byte ^^^ page byte).toNat &&& 1 <<< bit ≠ 0 ↔
        (memBuf byte ^^^ page byte).toNat.testBit bit = true := by
      rw [← and_shift, decide_eq_true_eq]
    simp only [hset, and_shift]
    rfl

/-- `memcmp` sees whether a bit flipped. -/
theorem differs_eq (h : Differs (W := W) cfg flips t memBuf page) :
    ((List.range cfg.pageSize).any fun byte => memBuf byte ≠ page byte) =
      decide (oddBits W cfg flips t ≠ []) := by
  rw [Bool.eq_iff_iff, List.any_eq_true, decide_eq_true_eq, ← badBits_eq h]
  constructor
  · rintro ⟨byte, hbyte, hne⟩ hnil
    have hdiff : memBuf byte ^^^ page byte ≠ 0 := by
      simpa using hne
    refine hdiff (eq_zero_of_testBit fun bit hbit => ?_)
    have hnone := List.flatMap_eq_nil_iff.1 hnil byte hbyte
    simp only [if_neg hdiff] at hnone
    have hbit' := List.filterMap_eq_nil_iff.1 hnone bit (List.mem_range.2 hbit)
    rw [← and_shift]
    simpa using hbit'
  · intro hne
    by_contra hall
    refine hne (List.flatMap_eq_nil_iff.2 fun byte hbyte => ?_)
    have heq : memBuf byte = page byte := by
      by_contra hbyte'
      exact hall ⟨byte, hbyte, by simpa using hbyte'⟩
    simp [heq]

end Bits

/-! ## The loop -/

/-- The pages keep what was written, up to flips. -/
def Kept (W : ℕ) (cfg : Config) (flips : ℕ → ℕ → ℕ → UInt8) (i : ℕ) (arena : ℕ → ℕ → UInt8) :
    Prop :=
  ∀ byte < cfg.pageSize, ∀ bit, Flips.Ring.Holds cfg.nPages
    (fun t => (written W cfg t byte).toNat.testBit bit)
    (fun t page => (flips t page byte).toNat.testBit bit) i
    (fun page => (arena page byte).toNat.testBit bit)

/-- What holds at the beginning of iteration `i`. -/
structure Reached (cfg : Config) (flips : ℕ → ℕ → ℕ → UInt8) (base : ℕ → ℕ) (size i : ℕ)
    {W : ℕ} (s : State W) : Prop where
  ipage : s.ipage = i % cfg.nPages
  ipass : s.ipass = i
  opage : s.opage = (i + 1 - cfg.nPages) % cfg.nPages
  opass : s.opass = i + 1 - cfg.nPages
  retard : s.retard = cfg.nPages - 1 - i
  pass : s.pass = BitVec.ofNat 32 (i / cfg.nPages)
  arena : Kept W cfg flips i s.arena
  stats : UrumtStats.Records W base size (log W cfg flips i) s.stats

section Loop

variable {W : ℕ} {cfg : Config} {flips : ℕ → ℕ → ℕ → UInt8} {base : ℕ → ℕ} {size i t : ℕ}
  {arena : ℕ → ℕ → UInt8} {memBuf page : ℕ → UInt8} {s : State W}

theorem Kept.write (h : Kept W cfg flips i arena)
    (hpage : ∀ byte < cfg.pageSize, page byte = written W cfg i byte) :
    Kept W cfg flips (i + 1)
      (Function.update (fun j byte => arena j byte ^^^ flips i j byte) (i % cfg.nPages) page) := by
  intro byte hbyte bit
  convert (h byte hbyte bit).turn using 1
  funext j
  by_cases hj : j = i % cfg.nPages
  · subst hj
    rw [Flips.Ring.turn, Function.update_self, Function.update_self, hpage byte hbyte]
  · rw [Flips.Ring.turn, Function.update_of_ne hj, Function.update_of_ne hj, UInt8.toNat_xor,
      Nat.testBit_xor]

/-- The page that is checked was written as many iterations before as there are pages. -/
theorem Kept.differs (h : Kept W cfg flips (i + 1) arena) (hi : cfg.nPages ≤ i + 1)
    (hbuf : ∀ byte < cfg.pageSize, memBuf byte = written W cfg (i + 1 - cfg.nPages) byte) :
    Differs (W := W) cfg flips (i + 1 - cfg.nPages) memBuf
      (arena ((i + 1 - cfg.nPages) % cfg.nPages)) where
  memBuf := hbuf
  page byte hbyte bit _ := by
    have htwo := cfg.two_le
    have hend : i + 1 - cfg.nPages + cfg.nPages = i + 1 := by omega
    rw [flipped, hend]
    exact h byte hbyte bit _ (by omega) (by omega)

theorem length_oddBits (W : ℕ) (cfg : Config) (flips : ℕ → ℕ → ℕ → UInt8) (t : ℕ) :
    (oddBits W cfg flips t).length < 2 ^ 32 := by
  have hle : ∀ l : List ℕ, (l.flatMap fun byte =>
      ((List.range 8).filter fun bit => flipped cfg flips t byte bit).map fun bit =>
        Line.badBit (cfg.pageMap (t % cfg.nPages)) byte bit
          ((written W cfg t byte).toNat.testBit bit)).length ≤ 8 * l.length := by
    intro l
    induction l with
    | nil => exact le_rfl
    | cons byte l ih =>
      have hbyte := List.length_filter_le (fun bit => flipped cfg flips t byte bit) (List.range 8)
      rw [List.length_range] at hbyte
      rw [List.flatMap_cons, List.length_append, List.length_map, List.length_cons]
      omega
  have hsize := hle (List.range cfg.pageSize)
  have hsmall := cfg.small
  rw [List.length_range] at hsize
  rw [oddBits]
  omega

/-- A check adds what it should to the numbers of its frame. -/
theorem record_eq (hW : 32 ≤ W) (cfg : Config) (flips : ℕ → ℕ → ℕ → UInt8) (t : ℕ)
    {before : List (ℕ × ℕ)} {stats : List UInt8}
    (h : UrumtStats.Records W base size before stats) :
    ∃ stats', record W (cfg.pageMap (t % cfg.nPages)) (decide (oddBits W cfg flips t ≠ []))
        (oddBits W cfg flips t).length stats =
        (if oddBits W cfg flips t ≠ [] ∧ cfg.pageMap (t % cfg.nPages) = none then [.unknownPage]
          else [], some stats') ∧
      UrumtStats.Records W base size (before ++ checkLog W cfg flips t) stats' := by
  have hlen := length_oddBits W cfg flips t
  have hone : 1 < 2 ^ 32 := by decide
  unfold record checkLog
  generalize oddBits W cfg flips t = bad at hlen ⊢
  rcases cfg.pageMap (t % cfg.nPages) with - | page
  · exact ⟨stats, by simp, by simpa using h⟩
  · by_cases hbad : bad = []
    · obtain ⟨stats', hincr, hrecords⟩ := h.incr hW (page * 2) hone
      refine ⟨stats', ?_, by simpa [hbad] using hrecords⟩
      simp [hbad, UrumtStats.recordChecked, hincr]
    · obtain ⟨mid, hmid, hrecords⟩ := h.incr hW (page * 2 + 1) hlen
      obtain ⟨stats', hincr, hrecords⟩ := hrecords.incr hW (page * 2) hone
      refine ⟨stats', ?_, by simpa [hbad] using hrecords⟩
      simp [hbad, UrumtStats.recordBadBits, UrumtStats.recordChecked, hmid, hincr]

theorem log_succ (hi : cfg.nPages ≤ i + 1) :
    log W cfg flips (i + 1) = log W cfg flips i ++ checkLog W cfg flips (i + 1 - cfg.nPages) := by
  have hlen : i + 1 + 1 - cfg.nPages = i + 1 - cfg.nPages + 1 := by omega
  rw [log, hlen, List.range_succ, List.flatMap_append, List.flatMap_singleton, log]

/-- The check of the page that was written at time `t`. -/
theorem check_eq (hW : 32 ≤ W) {before : List (ℕ × ℕ)} (hopage : s.opage = t % cfg.nPages)
    (hopass : s.opass = t) (hstats : UrumtStats.Records W base size before s.stats)
    (hpage : ∀ memBuf : ℕ → UInt8, (∀ byte < cfg.pageSize, memBuf byte = written W cfg t byte) →
      Differs (W := W) cfg flips t memBuf (s.arena (t % cfg.nPages))) :
    ∃ md5 memBuf stats, check cfg s = some (checkLines W cfg flips t,
        if cfg.maxBugsPanic < (oddBits W cfg flips t).length then none
        else some { s with
          md5 := md5, memBuf := memBuf, stats := stats
          opage := (t + 1) % cfg.nPages, opass := t + 1 }) ∧
      UrumtStats.Records W base size (before ++ checkLog W cfg flips t) stats := by
  obtain ⟨md5, memBuf, hprep, hbuf⟩ := prepareArea_eq hW cfg (t % cfg.nPages) t s.md5 s.memBuf
  obtain ⟨stats, hrecord, hrecords⟩ := record_eq hW cfg flips t hstats
  have hdiff := hpage memBuf hbuf
  have hbad : (if decide (oddBits W cfg flips t ≠ []) then oddBits W cfg flips t else []) =
      oddBits W cfg flips t := by
    by_cases hnil : oddBits W cfg flips t = [] <;> simp [hnil]
  have hnext : (t % cfg.nPages + 1) % cfg.nPages = (t + 1) % cfg.nPages := Nat.mod_add_mod ..
  refine ⟨md5, memBuf, stats, ?_, hrecords⟩
  simp only [check, hopage, hopass, hprep, Option.bind_eq_bind, Option.bind_some,
    differs_eq hdiff, badBits_eq hdiff, hbad, hrecord, checkLines, hnext]
  split_ifs with hmany hunknown
  · rfl
  · rfl
  · rw [List.append_nil]
    rfl

/-- Between the two halves of iteration `i`. -/
structure Wrote (cfg : Config) (flips : ℕ → ℕ → ℕ → UInt8) (base : ℕ → ℕ) (size i : ℕ)
    {W : ℕ} (s : State W) : Prop where
  ipage : s.ipage = (i + 1) % cfg.nPages
  ipass : s.ipass = i + 1
  opage : s.opage = (i + 1 - cfg.nPages) % cfg.nPages
  opass : s.opass = i + 1 - cfg.nPages
  retard : s.retard = cfg.nPages - 1 - i
  pass : s.pass = BitVec.ofNat 32 ((i + 1) / cfg.nPages)
  arena : Kept W cfg flips (i + 1) s.arena
  stats : UrumtStats.Records W base size (log W cfg flips i) s.stats

theorem Reached.wrote (hW : 32 ≤ W) (h : Reached cfg flips base size i s) :
    ∃ mid : State W, Wrote cfg flips base size i mid ∧
      iteration cfg (flips i) s =
        if mid.retard ≠ 0 then some (passLines cfg i, some { mid with retard := mid.retard - 1 })
        else (check cfg mid).map fun r => (passLines cfg i ++ r.1, r.2) := by
  obtain ⟨md5, page, hprep, hpage⟩ := prepareArea_eq hW cfg (i % cfg.nPages) i s.md5
    (fun byte => s.arena (i % cfg.nPages) byte ^^^ flips i (i % cfg.nPages) byte)
  have hipage : (i % cfg.nPages + 1) % cfg.nPages = (i + 1) % cfg.nPages := Nat.mod_add_mod ..
  have hpass : (if (i + 1) % cfg.nPages = 0 then BitVec.ofNat 32 (i / cfg.nPages) + 1
      else BitVec.ofNat 32 (i / cfg.nPages)) = BitVec.ofNat 32 ((i + 1) / cfg.nPages) := by
    rw [Nat.succ_div]
    simp only [Nat.dvd_iff_mod_eq_zero]
    split_ifs
    · exact (BitVec.ofNat_add ..).symm
    · rfl
  refine ⟨{ s with
    md5 := md5
    arena := Function.update (fun j byte => s.arena j byte ^^^ flips i j byte) (i % cfg.nPages) page
    ipage := (i + 1) % cfg.nPages, ipass := i + 1
    pass := BitVec.ofNat 32 ((i + 1) / cfg.nPages) }, ?_, ?_⟩
  · exact ⟨rfl, rfl, h.opage, h.opass, h.retard, rfl, h.arena.write hpage, h.stats⟩
  · simp only [iteration, h.ipage, h.ipass, h.pass, hprep, Option.bind_eq_bind, Option.bind_some,
      hipage, hpass, passLines, ← BitVec.toInt_ofNat]
    by_cases hretard : s.retard ≠ 0
    · rw [if_pos hretard, if_pos hretard]
      rfl
    · rw [if_neg hretard, if_neg hretard]
      exact Option.map_eq_bind.symm

/-- No page is checked before all are written. -/
theorem Wrote.wait (h : Wrote cfg flips base size i s) (hi : i + 1 < cfg.nPages) :
    Reached cfg flips base size (i + 1) { s with retard := s.retard - 1 } := by
  have hnone : i + 1 + 1 - cfg.nPages = i + 1 - cfg.nPages := by omega
  have hretard : s.retard - 1 = cfg.nPages - 1 - (i + 1) := by
    rw [h.retard]
    omega
  have hlog : log W cfg flips (i + 1) = log W cfg flips i := by
    rw [log, log, hnone]
  exact ⟨h.ipage, h.ipass, hnone ▸ h.opage, hnone ▸ h.opass, hretard, h.pass, h.arena,
    hlog ▸ h.stats⟩

theorem Wrote.check (hW : 32 ≤ W) (h : Wrote cfg flips base size i s) (hi : cfg.nPages ≤ i + 1) :
    ∃ next : State W, Urumt.check cfg s = some (checkLines W cfg flips (i + 1 - cfg.nPages),
        if stops W cfg flips i then none else some next) ∧
      Reached cfg flips base size (i + 1) next := by
  have htwo := cfg.two_le
  obtain ⟨md5, memBuf, stats, hcheck, hrecords⟩ := check_eq hW h.opage h.opass h.stats
    fun _ hbuf => h.arena.differs hi hbuf
  have hnext : i + 1 - cfg.nPages + 1 = i + 1 + 1 - cfg.nPages := by omega
  have hretard : s.retard = cfg.nPages - 1 - (i + 1) := by
    rw [h.retard]
    omega
  rw [hnext] at hcheck
  rw [← log_succ hi] at hrecords
  refine ⟨{ s with
    md5 := md5, memBuf := memBuf, stats := stats
    opage := (i + 1 + 1 - cfg.nPages) % cfg.nPages, opass := i + 1 + 1 - cfg.nPages }, ?_,
    ⟨h.ipage, h.ipass, rfl, rfl, hretard, h.pass, h.arena, hrecords⟩⟩
  rw [hcheck]
  simp [stops, hi]

/-- One iteration prints what it should, and goes on unless its check is the last one. -/
theorem Reached.iteration (hW : 32 ≤ W) (h : Reached cfg flips base size i s) :
    ∃ next : State W, iteration cfg (flips i) s =
        some (specLines W cfg flips i, if stops W cfg flips i then none else some next) ∧
      Reached cfg flips base size (i + 1) next := by
  obtain ⟨mid, hmid, hiter⟩ := h.wrote hW
  have hretard := hmid.retard
  by_cases hi : i + 1 < cfg.nPages
  · have hstops : stops W cfg flips i = false := by
      simp [stops, hi]
    refine ⟨_, ?_, hmid.wait hi⟩
    rw [hiter, if_pos (by omega), hstops, specLines, if_pos hi, List.append_nil]
    rfl
  · have hge := Nat.le_of_not_lt hi
    obtain ⟨next, hcheck, hreached⟩ := hmid.check hW hge
    refine ⟨next, ?_, hreached⟩
    rw [hiter, if_neg (by omega), hcheck, specLines, if_neg hi]
    rfl

/-- All iterations print what they should. -/
theorem Reached.doTests (hW : 32 ≤ W) (n : ℕ) (h : Reached cfg flips base size i s) :
    ∃ last : State W, Urumt.doTests cfg flips n i s =
        some ((specRun W cfg flips n i).1, if (specRun W cfg flips n i).2 then some last
          else none) ∧
      ((specRun W cfg flips n i).2 = true → Reached cfg flips base size (i + n) last) := by
  induction n generalizing i s with
  | zero => exact ⟨s, rfl, fun _ => h⟩
  | succ n ih =>
    obtain ⟨next, hiter, hreached⟩ := h.iteration hW
    obtain ⟨last, hrest, hlast⟩ := ih hreached
    have hsum : i + 1 + n = i + (n + 1) := by omega
    rw [Urumt.doTests, hiter, specRun]
    cases hstops : stops W cfg flips i
    · refine ⟨last, ?_, fun hgo => hsum ▸ hlast hgo⟩
      simp [hrest]
    · exact ⟨s, by simp, fun hgo => absurd hgo (by simp)⟩

theorem reached_start (cfg : Config) (flips : ℕ → ℕ → ℕ → UInt8) (arena : ℕ → ℕ → UInt8)
    (memBuf : ℕ → UInt8) (md5 : Md5Stream W) {stats : List UInt8} (hstats : 4 ∣ stats.length) :
    Reached cfg flips (UrumtStats.counter stats) stats.length 0
      (start cfg arena memBuf stats md5) := by
  have htwo := cfg.two_le
  have hnone : 0 + 1 - cfg.nPages = 0 := by omega
  have hlog : log W cfg flips 0 = [] := by
    rw [log, hnone]
    rfl
  exact {
    ipage := (Nat.zero_mod _).symm
    ipass := rfl
    opage := by
      rw [hnone]
      exact (Nat.zero_mod _).symm
    opass := hnone.symm
    retard := rfl
    pass := congrArg (BitVec.ofNat 32) (Nat.zero_div _).symm
    arena := fun _ _ _ => Flips.Ring.holds_zero
    stats := by
      rw [hlog]
      exact UrumtStats.Records.start hstats }

end Loop

/-! ## Runs -/

section Runs

variable {W : ℕ} (cfg : Config) (flips : ℕ → ℕ → ℕ → UInt8) (n : ℕ) (arena : ℕ → ℕ → UInt8)
  (memBuf : ℕ → UInt8) (md5 : Md5Stream W) {stats : List UInt8}

/-- Whatever bits flip when, the messages of each iteration are the bits of one page that flipped an
odd number of times since it was written, until these are too many. -/
theorem doTests_eq (hW : 32 ≤ W) (hstats : 4 ∣ stats.length) :
    ∃ last, doTests cfg flips n 0 (start cfg arena memBuf stats md5) =
        some ((specRun W cfg flips n 0).1, last) ∧
      last.isSome = (specRun W cfg flips n 0).2 := by
  obtain ⟨last, hrun, -⟩ :=
    (reached_start cfg flips arena memBuf md5 hstats).doTests hW n
  refine ⟨_, hrun, ?_⟩
  cases (specRun W cfg flips n 0).2 <;> rfl

/-- Two pages of 16 bytes. -/
def twoPages : Config :=
  ⟨2, 16, 1, 16, fun page => some (7 - page), Nat.le_refl 2, ⟨1, rfl⟩,
    Nat.lt_of_sub_pos (by decide)⟩

/-- A bit of page 0 flips after the page is written. -/
def oneFlip (t page byte : ℕ) : UInt8 :=
  if t = 1 ∧ page = 0 ∧ byte = 3 then 1 else 0

/-- The bit is reported in the iteration that checks the page. -/
theorem doTests_eq_twoPages :
    ∃ last, doTests twoPages oneFlip 4 0
        (start twoPages (fun _ _ => 0) (fun _ => 0) [] (Md5Stream.init ⟨md5Start 64, true, 0⟩)) =
        some ([[], [.pass 1, .badBit (some 7) 3 0 true], [], [.pass 2]], last) ∧
      last.isSome = true := by
  have hspec : specRun 64 twoPages oneFlip 4 0 =
      ([[], [.pass 1, .badBit (some 7) 3 0 true], [], [.pass 2]], true) := by
    decide +kernel
  have hrun := @doTests_eq 64 twoPages oneFlip 4 (fun _ _ => 0) (fun _ => 0)
    (Md5Stream.init ⟨md5Start 64, true, 0⟩) [] (by decide) (by decide)
  rwa [hspec] at hrun

/-- The checks of a frame in the first `n` iterations, by the time the page was written. -/
def checks (page : ℕ) : List ℕ :=
  (List.range (n + 1 - cfg.nPages)).filter fun t => cfg.pageMap (t % cfg.nPages) = some page

variable {cfg flips n}

/-- What the additions of some checks come to. -/
theorem total_checkLog (W : ℕ) (cfg : Config) (flips : ℕ → ℕ → ℕ → UInt8) (l : List ℕ)
    (page : ℕ) :
    UrumtStats.total (l.flatMap (checkLog W cfg flips)) (2 * page) =
        (l.filter fun t => cfg.pageMap (t % cfg.nPages) = some page).length ∧
      UrumtStats.total (l.flatMap (checkLog W cfg flips)) (2 * page + 1) =
        ((l.filter fun t => cfg.pageMap (t % cfg.nPages) = some page).map fun t =>
          (oddBits W cfg flips t).length).sum := by
  induction l with
  | nil => exact ⟨rfl, rfl⟩
  | cons t l ih =>
    obtain ⟨heven, hodd⟩ := ih
    have hone : UrumtStats.total (checkLog W cfg flips t) (2 * page) =
          (if cfg.pageMap (t % cfg.nPages) = some page then 1 else 0) ∧
        UrumtStats.total (checkLog W cfg flips t) (2 * page + 1) =
          (if cfg.pageMap (t % cfg.nPages) = some page then (oddBits W cfg flips t).length
            else 0) := by
      unfold checkLog
      rcases cfg.pageMap (t % cfg.nPages) with - | page'
      · exact ⟨rfl, rfl⟩
      · have heven : page' * 2 = 2 * page ↔ page' = page := by omega
        have hcross : page' * 2 + 1 ≠ 2 * page := by omega
        have hcross' : page' * 2 ≠ 2 * page + 1 := by omega
        by_cases hnil : oddBits W cfg flips t = [] <;>
          simp [hnil, UrumtStats.total_cons, UrumtStats.total_nil, heven, hcross, hcross']
    rw [List.flatMap_cons, UrumtStats.total_append, UrumtStats.total_append, heven, hodd, hone.1,
      hone.2, List.filter_cons]
    by_cases hpage : cfg.pageMap (t % cfg.nPages) = some page
    · simp [hpage, Nat.add_comm]
    · simp [hpage]

/-- A frame below the length of the statistics is one of those below the last one checked, or below
the last one with bad bits. -/
theorem lt_of_mem_log (page : ℕ) :
    (∃ e ∈ log W cfg flips n, 2 * page + 1 ≤ e.1) ↔
      ∃ t < n + 1 - cfg.nPages, ∃ page', cfg.pageMap (t % cfg.nPages) = some page' ∧
        (page < page' ∨ page = page' ∧ oddBits W cfg flips t ≠ []) := by
  have hcheck : ∀ t, (∃ e ∈ checkLog W cfg flips t, 2 * page + 1 ≤ e.1) ↔
      ∃ page', cfg.pageMap (t % cfg.nPages) = some page' ∧
        (page < page' ∨ page = page' ∧ oddBits W cfg flips t ≠ []) := by
    intro t
    unfold checkLog
    rcases cfg.pageMap (t % cfg.nPages) with - | page'
    · simp
    · by_cases hnil : oddBits W cfg flips t = [] <;> simp [hnil] <;> omega
  constructor
  · rintro ⟨e, he, hle⟩
    obtain ⟨t, ht, het⟩ := List.mem_flatMap.1 he
    exact ⟨t, List.mem_range.1 ht, (hcheck t).1 ⟨e, het, hle⟩⟩
  · rintro ⟨t, ht, hpage⟩
    obtain ⟨e, het, hle⟩ := (hcheck t).2 hpage
    exact ⟨e, List.mem_flatMap.2 ⟨t, List.mem_range.2 ht, het⟩, hle⟩

/-- After any iterations, `print_stats` shows for each frame the number of its checks and the number
of bits that were bad in them, added to what the file had. The last frame checked has no line as
long as it has no bad bits. -/
theorem printStats_doTests (hW : 32 ≤ W) (hstats : 4 ∣ stats.length)
    (hgo : (specRun W cfg flips n 0).2 = true) :
    ∃ last, doTests cfg flips n 0 (start cfg arena memBuf stats md5) =
        some ((specRun W cfg flips n 0).1, some last) ∧
      (UrumtStats.printStats 0 last.stats =
        (List.range (last.stats.length / 8)).map fun page => (page,
          UrumtStats.shown W (UrumtStats.counter stats (2 * page) +
            (checks cfg n page).length),
          UrumtStats.shown W (UrumtStats.counter stats (2 * page + 1) +
            ((checks cfg n page).map fun t => (oddBits W cfg flips t).length).sum))) ∧
      ∀ page, page < last.stats.length / 8 ↔ page < stats.length / 8 ∨
        ∃ t < n + 1 - cfg.nPages, ∃ page', cfg.pageMap (t % cfg.nPages) = some page' ∧
          (page < page' ∨ page = page' ∧ oddBits W cfg flips t ≠ []) := by
  obtain ⟨last, hrun, hlast⟩ :=
    (reached_start cfg flips arena memBuf md5 hstats).doTests hW n
  have hreached := hlast hgo
  rw [Nat.zero_add] at hreached
  have hrecords := hreached.stats
  refine ⟨last, by rw [hrun, hgo, if_pos rfl], ?_, fun page => ?_⟩
  · rw [UrumtStats.printStats_eq]
    refine List.map_congr_left fun page _ => ?_
    obtain ⟨heven, hodd⟩ := total_checkLog W cfg flips (List.range (n + 1 - cfg.nPages)) page
    rw [hrecords.counter, hrecords.counter, log, heven, hodd, Nat.zero_add, checks]
  · have hwhole := hrecords.whole
    have hlength := hrecords.length (2 * page + 1)
    rw [lt_of_mem_log] at hlength
    have hnew : page < last.stats.length / 8 ↔ 4 * (2 * page + 1) < last.stats.length := by omega
    have hold : page < stats.length / 8 ↔ 4 * (2 * page + 1) < stats.length := by omega
    rw [hnew, hold, hlength]

/-- After three checks, of which one found a bit. -/
theorem printStats_doTests_twoPages :
    ∃ last, doTests twoPages oneFlip 4 0
        (start twoPages (fun _ _ => 0) (fun _ => 0) [] (Md5Stream.init ⟨md5Start 64, true, 0⟩)) =
        some ((specRun 64 twoPages oneFlip 4 0).1, some last) ∧
      UrumtStats.printStats 0 last.stats =
        [(0, 0, 0), (1, 0, 0), (2, 0, 0), (3, 0, 0), (4, 0, 0), (5, 0, 0), (6, 1, 0),
          (7, 2, 1)] := by
  have hgo : (specRun 64 twoPages oneFlip 4 0).2 = true := by decide +kernel
  obtain ⟨last, hrun, hlines, hlength⟩ := @printStats_doTests 64 twoPages oneFlip 4
    (fun _ _ => 0) (fun _ => 0) (Md5Stream.init ⟨md5Start 64, true, 0⟩) [] (by decide) (by decide)
    hgo
  have hbad : oddBits 64 twoPages oneFlip 0 ≠ [] := by decide +kernel
  have hframe : 7 < last.stats.length / 8 :=
    (hlength 7).2 (.inr ⟨0, by decide, 7, rfl, .inr ⟨rfl, hbad⟩⟩)
  have hnext : ¬ 8 < last.stats.length / 8 := by
    rw [hlength 8]
    rintro (hold | ⟨t, -, page', hpage, hor⟩)
    · exact absurd hold (by decide)
    · have hle : 7 - t % 2 = page' := Option.some.inj hpage
      omega
  have hlast : last.stats.length / 8 = 8 := by omega
  refine ⟨last, hrun, ?_⟩
  rw [hlines, hlast]
  decide +kernel

end Runs

end Urumt

end LxToolset
