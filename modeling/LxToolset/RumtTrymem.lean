import LxToolset.Md5stream
import Mathlib.Data.Nat.Bitwise

/-!
# rumt_trymem

Pages of the memory device are filled with the stream of a seed, and compared with it later. If no
page is given twice, a check prints the bits that flipped in between and no others, except that it
looks at seven bits of each byte only (`checkAreas_writeAreas`).
-/

namespace LxToolset

namespace Trymem

/-- The memory device, of which the bytes below `size` can be read and written, and the page size
that `main` asserts to be a multiple of 16. -/
structure Device where
  pageSize : ℕ
  size : ℕ
  pos : 0 < pageSize
  aligned : 16 ∣ pageSize

/-- `memory_area_t` -/
structure Area where
  offset : ℕ
  nPages : ℕ
  deriving DecidableEq

/-- A line that is printed. -/
structure BadBit where
  address : ℕ
  bit : ℕ
  plus : Bool
  deriving DecidableEq

section Code

variable {W : ℕ} (dev : Device)

/-- The values of `o` in the two loops over the areas and their pages. -/
def pages (areas : List Area) : List ℕ :=
  areas.flatMap fun a => (List.range a.nPages).map fun j => a.offset + j * dev.pageSize

/-- `write` of a page at `o` -/
def writePage (mem : ℕ → UInt8) (o : ℕ) (buffer : List UInt8) : ℕ → UInt8 :=
  fun a => if o ≤ a ∧ a < o + dev.pageSize then buffer.getD (a - o) 0 else mem a

/-- The loops of `write_areas`. The flag is unset if the program exits because a page is not
written. -/
def writePages : List ℕ → Md5Stream W → (ℕ → UInt8) → Option ((ℕ → UInt8) × Md5Stream W × Bool)
  | [], md5, mem => some (mem, md5, true)
  | o :: os, md5, mem => do
    let (md5, buffer) ← md5.fill dev.pageSize
    if o + dev.pageSize ≤ dev.size then writePages os md5 (writePage dev mem o buffer)
    else return (mem, md5, false)

/-- `write_areas` -/
def writeAreas (areas : List Area) (seed : List UInt8) (md5 : Md5Stream W) (mem : ℕ → UInt8) :
    Option ((ℕ → UInt8) × Md5Stream W × Bool) :=
  writePages dev (pages dev areas) (md5.init.seed seed) mem

/-- The lines of the loops over the bytes of a page and their bits. -/
def pageLines (o : ℕ) (buffer buffer2 : List UInt8) : List BadBit :=
  (List.range dev.pageSize).flatMap fun k =>
    let x := buffer.getD k 0 ^^^ buffer2.getD k 0
    if x = 0 then []
    else (List.range 7).filterMap fun b =>
      if (x.toNat >>> b) &&& 1 ≠ 0 then
        some ⟨o + k, b, ((buffer2.getD k 0).toNat >>> b) &&& 1 ≠ 0⟩
      else none

/-- The loops of `check_areas`. -/
def checkPages : List ℕ → Md5Stream W → (ℕ → UInt8) → Option (List BadBit × Md5Stream W × Bool)
  | [], md5, _ => some ([], md5, true)
  | o :: os, md5, mem => do
    let (md5, buffer) ← md5.fill dev.pageSize
    if o + dev.pageSize ≤ dev.size then
      let lines := pageLines dev o buffer ((List.range dev.pageSize).map fun k => mem (o + k))
      let (rest, md5, ok) ← checkPages os md5 mem
      return (lines ++ rest, md5, ok)
    else return ([], md5, false)

/-- `check_areas` -/
def checkAreas (areas : List Area) (seed : List UInt8) (md5 : Md5Stream W) (mem : ℕ → UInt8) :
    Option (List BadBit × Md5Stream W × Bool) :=
  checkPages dev (pages dev areas) (md5.init.seed seed) mem

/-- The end of `main`: what is printed, the memory, and whether the exit status is 0. -/
def trymem (areas : List Area) (inputSeed outputSeed : Option (List UInt8)) (md5 : Md5Stream W)
    (mem : ℕ → UInt8) : Option (List BadBit × (ℕ → UInt8) × Bool) := do
  let (lines, md5, ok) ← match inputSeed with
    | none => some ([], md5, true)
    | some seed => checkAreas dev areas seed md5 mem
  if ok then
    match outputSeed with
    | none => return (lines, mem, true)
    | some seed =>
      let (mem, _, ok) ← writeAreas dev areas seed md5 mem
      return (lines, mem, ok)
  else return (lines, mem, false)

end Code

/-! ## What is written -/

section Write

variable {W k n : ℕ} {dev : Device} {data : List UInt8} {md5 : Md5Stream W} {mem : ℕ → UInt8}
  {os : List ℕ} {areas : List Area}

/-- Page number `k` of a stream. -/
def streamPage (dev : Device) (data : List UInt8) (k : ℕ) : List UInt8 :=
  (List.range (dev.pageSize / 16)).flatMap fun i =>
    (streamState data (k * (dev.pageSize / 16) + i)).bytes

/-- The memory with the pages of a stream from number `k` on. -/
def fillPages (dev : Device) (data : List UInt8) : ℕ → List ℕ → (ℕ → UInt8) → ℕ → UInt8
  | _, [], mem => mem
  | k, o :: os, mem => fillPages dev data (k + 1) os (writePage dev mem o (streamPage dev data k))

/-- The next page is number `k` of the stream. -/
def Ready (dev : Device) (data : List UInt8) (k : ℕ) (md5 : Md5Stream W) : Prop :=
  ∃ next, md5.fill dev.pageSize = some (next, streamPage dev data k) ∧
    StreamAfter next data ((k + 1) * (dev.pageSize / 16))

theorem ready_of_after (hW : 32 ≤ W) (h : StreamAfter md5 data (k * (dev.pageSize / 16))) :
    Ready dev data k md5 := by
  obtain ⟨next, hfill, hnext⟩ := h.fill hW dev.pageSize
  refine ⟨next, hfill, ?_⟩
  rwa [Nat.succ_mul]

theorem ready_seed (hW : 32 ≤ W) (dev : Device) (md5 : Md5Stream W) (data : List UInt8) :
    Ready dev data 0 (md5.init.seed data) := by
  obtain ⟨next, hfill, hnext⟩ := fill_seeded md5 hW [data] dev.pageSize
  rw [List.flatten_singleton, seedStream] at hfill
  rw [List.flatten_singleton, ← Nat.one_mul (dev.pageSize / 16)] at hnext
  refine ⟨next, ?_, hnext⟩
  simpa [streamPage] using hfill

theorem writePages_eq (hW : 32 ≤ W) (mem : ℕ → UInt8) (h : Ready dev data k md5)
    (hfits : ∀ o ∈ os, o + dev.pageSize ≤ dev.size) :
    ∃ next, writePages dev os md5 mem = some (fillPages dev data k os mem, next, true) := by
  induction os generalizing k md5 mem with
  | nil => exact ⟨md5, rfl⟩
  | cons o os ih =>
    obtain ⟨next, hfill, hnext⟩ := h
    obtain ⟨last, hrest⟩ := ih (writePage dev mem o (streamPage dev data k))
      (ready_of_after hW hnext) fun o' ho' => hfits o' (List.mem_cons_of_mem _ ho')
    refine ⟨last, ?_⟩
    rw [writePages, hfill]
    simp only [Option.bind_eq_bind, Option.bind_some, if_pos (hfits o List.mem_cons_self), hrest,
      fillPages]

/-- Pages that are not given twice do not overlap. -/
theorem not_mem_page {o o' x : ℕ} (ho : dev.pageSize ∣ o) (ho' : dev.pageSize ∣ o') (hne : o ≠ o')
    (hx : x < dev.pageSize) : ¬ (o' ≤ o + x ∧ o + x < o' + dev.pageSize) := by
  obtain ⟨c, rfl⟩ := ho
  obtain ⟨c', rfl⟩ := ho'
  rintro ⟨hle, hlt⟩
  have hdiv : (dev.pageSize * c + x) / dev.pageSize = c := by
    rw [Nat.mul_add_div dev.pos, Nat.div_eq_of_lt hx, Nat.add_zero]
  have hdiv' : (dev.pageSize * c + x) / dev.pageSize = c' := by
    refine Nat.div_eq_of_lt_le ?_ ?_
    · rwa [Nat.mul_comm]
    · rwa [Nat.succ_mul, Nat.mul_comm c']
  exact hne (congrArg _ (hdiv.symm.trans hdiv'))

/-- Pages that are written later leave a page alone. -/
theorem fillPages_of_notMem {o x : ℕ} (ho : dev.pageSize ∣ o) (hdvd : ∀ o' ∈ os, dev.pageSize ∣ o')
    (hnot : o ∉ os) (hx : x < dev.pageSize) :
    fillPages dev data k os mem (o + x) = mem (o + x) := by
  induction os generalizing k mem with
  | nil => rfl
  | cons o' os ih =>
    obtain ⟨hne, hnot'⟩ := not_or.1 (mt List.mem_cons.2 hnot)
    rw [fillPages, ih (fun o'' ho'' => hdvd o'' (List.mem_cons_of_mem _ ho'')) hnot', writePage,
      if_neg (not_mem_page ho (hdvd o' List.mem_cons_self) hne hx)]

/-- Each page has the bytes of the stream that are its own. -/
theorem fillPages_getElem (hdvd : ∀ o ∈ os, dev.pageSize ∣ o) (hnodup : os.Nodup) (j : ℕ)
    (hj : j < os.length) {x : ℕ} (hx : x < dev.pageSize) :
    fillPages dev data k os mem (os[j] + x) = (streamPage dev data (k + j)).getD x 0 := by
  induction os generalizing k mem j with
  | nil => exact absurd hj (Nat.not_lt_zero _)
  | cons o os ih =>
    obtain ⟨hnot, hnodup'⟩ := List.nodup_cons.1 hnodup
    have hdvd' : ∀ o' ∈ os, dev.pageSize ∣ o' := fun o' ho' =>
      hdvd o' (List.mem_cons_of_mem _ ho')
    rw [fillPages]
    rcases j with - | j
    · have hin : o ≤ o + x ∧ o + x < o + dev.pageSize := by omega
      rw [List.getElem_cons_zero,
        fillPages_of_notMem (hdvd o List.mem_cons_self) hdvd' hnot hx, writePage, if_pos hin,
        Nat.add_sub_cancel_left, Nat.add_zero]
    · have hshift : k + 1 + j = k + (j + 1) := by omega
      rw [List.getElem_cons_succ, ih hdvd' hnodup', hshift]

/-- Memory that belongs to no page is left alone. -/
theorem fillPages_of_outside {a : ℕ} (h : ∀ o ∈ os, ¬ (o ≤ a ∧ a < o + dev.pageSize)) :
    fillPages dev data k os mem a = mem a := by
  induction os generalizing k mem with
  | nil => rfl
  | cons o os ih =>
    rw [fillPages, ih fun o' ho' => h o' (List.mem_cons_of_mem _ ho'), writePage,
      if_neg (h o List.mem_cons_self)]

/-- The areas of a run: pages of the device that are given once. -/
structure Proper (dev : Device) (areas : List Area) : Prop where
  aligned : ∀ a ∈ areas, dev.pageSize ∣ a.offset
  nodup : (pages dev areas).Nodup
  fits : ∀ o ∈ pages dev areas, o + dev.pageSize ≤ dev.size

theorem Proper.dvd (h : Proper dev areas) : ∀ o ∈ pages dev areas, dev.pageSize ∣ o := by
  intro o ho
  obtain ⟨a, ha, hmem⟩ := List.mem_flatMap.1 ho
  obtain ⟨j, -, rfl⟩ := List.mem_map.1 hmem
  exact Nat.dvd_add (h.aligned a ha) (Nat.dvd_mul_left ..)

theorem writeAreas_eq (hW : 32 ≤ W) (h : Proper dev areas) (data : List UInt8)
    (md5 : Md5Stream W) (mem : ℕ → UInt8) :
    ∃ next, writeAreas dev areas data md5 mem =
      some (fillPages dev data 0 (pages dev areas) mem, next, true) :=
  writePages_eq hW mem (ready_seed hW dev md5 data) h.fits

end Write

/-! ## What a check prints -/

section Check

variable {W k : ℕ} {dev : Device} {data : List UInt8} {md5 : Md5Stream W} {mem : ℕ → UInt8}
  {os : List ℕ} {areas : List Area}

/-- The lines of a page whose bits flip. -/
def flippedLines (dev : Device) (mem flip : ℕ → UInt8) (o : ℕ) : List BadBit :=
  (List.range dev.pageSize).flatMap fun x =>
    ((List.range 7).filter fun b => (flip (o + x)).toNat.testBit b).map fun b =>
      ⟨o + x, b, !(mem (o + x)).toNat.testBit b⟩

theorem shift_and (x b : ℕ) : decide ((x >>> b) &&& 1 ≠ 0) = x.testBit b := by
  rw [Nat.testBit, Nat.and_comm, Bool.eq_iff_iff, decide_eq_true_eq, bne_iff_ne]

/-- A page that was filled is compared with what filled it. -/
theorem pageLines_eq {o : ℕ} {buffer : List UInt8} (flip : ℕ → UInt8)
    (h : ∀ x < dev.pageSize, mem (o + x) = buffer.getD x 0) :
    pageLines dev o buffer
        ((List.range dev.pageSize).map fun x => mem (o + x) ^^^ flip (o + x)) =
      flippedLines dev mem flip o := by
  refine List.flatMap_congr fun x hx => ?_
  rw [List.mem_range] at hx
  have hread : ((List.range dev.pageSize).map fun x => mem (o + x) ^^^ flip (o + x)).getD x 0 =
      mem (o + x) ^^^ flip (o + x) := by
    simp [List.getD, hx]
  have hxor : buffer.getD x 0 ^^^ (mem (o + x) ^^^ flip (o + x)) = flip (o + x) := by
    rw [← h x hx, ← UInt8.xor_assoc, UInt8.xor_self, UInt8.zero_xor]
  rw [hread, hxor, ← List.filterMap_eq_map, List.filterMap_filter]
  simp only
  split_ifs with hzero
  · simp [hzero]
  · refine List.filterMap_congr fun b _ => ?_
    have hset : ((flip (o + x)).toNat >>> b) &&& 1 ≠ 0 ↔ (flip (o + x)).toNat.testBit b = true := by
      rw [← shift_and, decide_eq_true_eq]
    simp only [hset, shift_and, UInt8.toNat_xor, Nat.testBit_xor]
    cases hbit : (flip (o + x)).toNat.testBit b
    · rfl
    · simp

theorem checkPages_eq (hW : 32 ≤ W) (flip : ℕ → UInt8) (h : Ready dev data k md5)
    (hfits : ∀ o ∈ os, o + dev.pageSize ≤ dev.size)
    (hmem : ∀ j, (hj : j < os.length) → ∀ x < dev.pageSize,
      mem (os[j] + x) = (streamPage dev data (k + j)).getD x 0) :
    ∃ next, checkPages dev os md5 (fun a => mem a ^^^ flip a) =
      some (os.flatMap (flippedLines dev mem flip), next, true) := by
  induction os generalizing k md5 with
  | nil => exact ⟨md5, rfl⟩
  | cons o os ih =>
    obtain ⟨next, hfill, hnext⟩ := h
    have hrest : ∀ j, (hj : j < os.length) → ∀ x < dev.pageSize,
        mem (os[j] + x) = (streamPage dev data (k + 1 + j)).getD x 0 := by
      intro j hj x hx
      have hshift : k + 1 + j = k + (j + 1) := by omega
      rw [hshift]
      exact hmem (j + 1) (Nat.succ_lt_succ hj) x hx
    obtain ⟨last, hlast⟩ := ih (ready_of_after hW hnext)
      (fun o' ho' => hfits o' (List.mem_cons_of_mem _ ho')) hrest
    have hpage := pageLines_eq flip fun x hx => hmem 0 (Nat.succ_pos _) x hx
    refine ⟨last, ?_⟩
    rw [checkPages, hfill]
    simp only [Option.bind_eq_bind, Option.bind_some, if_pos (hfits o List.mem_cons_self), hlast]
    rw [Nat.add_zero, List.getElem_cons_zero] at hpage
    rw [hpage, List.flatMap_cons]
    rfl

theorem checkAreas_eq (hW : 32 ≤ W) (h : Proper dev areas) (data : List UInt8)
    (flip : ℕ → UInt8) (md5 : Md5Stream W) (mem : ℕ → UInt8) :
    ∃ next, checkAreas dev areas data md5
        (fun a => fillPages dev data 0 (pages dev areas) mem a ^^^ flip a) =
      some ((pages dev areas).flatMap
        (flippedLines dev (fillPages dev data 0 (pages dev areas) mem) flip), next, true) :=
  checkPages_eq hW flip (ready_seed hW dev md5 data) h.fits fun j hj _ hx =>
    fillPages_getElem h.dvd h.nodup j hj hx

/-- After `-o` of a seed and any flips, `-i` of the seed prints the bits that flipped, in the order
of the areas, except the highest bit of each byte. -/
theorem checkAreas_writeAreas (hW : 32 ≤ W) (h : Proper dev areas) (data : List UInt8)
    (md5 : Md5Stream W) (mem : ℕ → UInt8) :
    ∃ written next, writeAreas dev areas data md5 mem = some (written, next, true) ∧
      (∀ a, (∀ o ∈ pages dev areas, ¬ (o ≤ a ∧ a < o + dev.pageSize)) → written a = mem a) ∧
      ∀ (flip : ℕ → UInt8) (md5' : Md5Stream W), ∃ last,
        checkAreas dev areas data md5' (fun a => written a ^^^ flip a) =
          some ((pages dev areas).flatMap fun o => (List.range dev.pageSize).flatMap fun x =>
            ((List.range 7).filter fun b => (flip (o + x)).toNat.testBit b).map fun b =>
              ⟨o + x, b, !(written (o + x)).toNat.testBit b⟩, last, true) := by
  obtain ⟨next, hwrite⟩ := writeAreas_eq hW h data md5 mem
  exact ⟨_, next, hwrite, fun a ha => fillPages_of_outside ha,
    fun flip md5' => checkAreas_eq hW h data flip md5' mem⟩

/-- Two areas of three pages in all. -/
def smallDevice : Device :=
  ⟨16, 96, by decide, by decide⟩

theorem checkAreas_writeAreas_small :
    ∃ written next, writeAreas smallDevice [⟨16, 2⟩, ⟨64, 1⟩] [0x31]
        (Md5Stream.init ⟨md5Start 64, true, 0⟩) (fun _ => 0) = some (written, next, true) ∧
      (∀ a, (∀ o ∈ [16, 32, 64], ¬ (o ≤ a ∧ a < o + 16)) → written a = 0) ∧
      ∀ (flip : ℕ → UInt8) (md5' : Md5Stream 64), ∃ last,
        checkAreas smallDevice [⟨16, 2⟩, ⟨64, 1⟩] [0x31] md5' (fun a => written a ^^^ flip a) =
          some ([16, 32, 64].flatMap fun o => (List.range 16).flatMap fun x =>
            ((List.range 7).filter fun b => (flip (o + x)).toNat.testBit b).map fun b =>
              ⟨o + x, b, !(written (o + x)).toNat.testBit b⟩, last, true) :=
  checkAreas_writeAreas (by decide) ⟨by decide, by decide, by decide⟩ [0x31] _ _

end Check

end Trymem

end LxToolset
