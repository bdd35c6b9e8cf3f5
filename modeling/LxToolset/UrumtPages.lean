import LxToolset.Urumt
import Mathlib.Data.Finset.Card
import Mathlib.Data.Finset.Range

/-!
# The frames of the pages of urumt

`look_for_pages` writes to each page how it looks, and then reads all frames. It succeeds exactly
when no two frames look the same (`lookForPages_eq`). A page whose frame can be read is then found
there, so that the bits which `do_tests` reports are those that flipped in this frame
(`doTests_frames`).
-/

namespace LxToolset

namespace Urumt

/-- The four words at the beginning of a page. -/
structure Header where
  page : ℕ
  magic : ℕ
  pid : ℕ
  rest : ℕ
  deriving DecidableEq

inductive LookError where
  | pread
  | lookTheSame (old new : ℕ)
  deriving DecidableEq

/-- How a page looks. -/
def headerOf (nPages pid page : ℕ) : Header :=
  ⟨page, magic, pid, nPages - page⟩

/-- The second loop of `look_for_pages`, from frame `i` on: the frames can be read up to the end of
the list, `none` stands for an error other than `EFAULT`. The map, the number of frames and the
number of pages that were found. -/
def scan (nPages pid : ℕ) :
    List (Option Header) → ℕ → (ℕ → Option ℕ) → ℕ → Except LookError ((ℕ → Option ℕ) × ℕ × ℕ)
  | [], i, pageMap, f => .ok (pageMap, i, f)
  | none :: _, _, _, _ => .error .pread
  | some mb :: frames, i, pageMap, f =>
    let e := mb.page
    if e ≥ nPages ∨ mb.magic ≠ magic ∨ mb.pid ≠ pid ∨ mb.rest ≠ nPages - e then
      scan nPages pid frames (i + 1) pageMap f
    else
      match pageMap e with
      | some old => .error (.lookTheSame old i)
      | none => scan nPages pid frames (i + 1) (Function.update pageMap e (some i)) (f + 1)

/-- `look_for_pages`, given what it reads after the pages were written -/
def lookForPages (nPages pid : ℕ) (frames : List (Option Header)) :
    Except LookError ((ℕ → Option ℕ) × ℕ × ℕ) :=
  scan nPages pid frames 0 (fun _ => none) 0

/-- Frame `i` looks like a page. -/
def Looks (nPages pid : ℕ) (frames : List (Option Header)) (page i : ℕ) : Prop :=
  page < nPages ∧ frames[i]? = some (some (headerOf nPages pid page))

section Look

variable {nPages pid f : ℕ} {pageMap : ℕ → Option ℕ} {seen frames : List (Option Header)}

/-- What is known of the frames that were read. -/
structure Found (nPages pid : ℕ) (seen : List (Option Header)) (pageMap : ℕ → Option ℕ) (f : ℕ) :
    Prop where
  readable : none ∉ seen
  map : ∀ page i, pageMap page = some i ↔ Looks nPages pid seen page i
  count : f = ((Finset.range nPages).filter fun page => (pageMap page).isSome).card

theorem found_nil (nPages pid : ℕ) : Found nPages pid [] (fun _ => none) 0 where
  readable := List.not_mem_nil
  map page i := by simp [Looks]
  count := by simp

theorem looks_append (mb : Header) (page i : ℕ) :
    Looks nPages pid (seen ++ [some mb]) page i ↔ Looks nPages pid seen page i ∨
      page < nPages ∧ i = seen.length ∧ mb = headerOf nPages pid page := by
  unfold Looks
  rcases Nat.lt_trichotomy i seen.length with hlt | rfl | hgt
  · simp [List.getElem?_append_left hlt, hlt.ne]
  · simp
  · have hnone : seen[i]? = none := List.getElem?_eq_none hgt.le
    have hnone' : (seen ++ [some mb])[i]? = none := List.getElem?_eq_none (by simp; omega)
    simp [hnone, hnone', hgt.ne']

/-- The test of the loop. -/
theorem headerOf_iff (nPages pid : ℕ) (mb : Header) (page : ℕ) :
    page < nPages ∧ mb = headerOf nPages pid page ↔ mb.page = page ∧
      ¬ (mb.page ≥ nPages ∨ mb.magic ≠ magic ∨ mb.pid ≠ pid ∨ mb.rest ≠ nPages - mb.page) := by
  obtain ⟨e, m, p, r⟩ := mb
  simp only [headerOf, Header.mk.injEq, not_or, not_not, ge_iff_le, not_le]
  constructor
  · rintro ⟨hlt, rfl, rfl, rfl, rfl⟩
    exact ⟨rfl, hlt, rfl, rfl, rfl⟩
  · rintro ⟨rfl, hlt, rfl, rfl, rfl⟩
    exact ⟨hlt, rfl, rfl, rfl, rfl⟩

theorem Found.skip (h : Found nPages pid seen pageMap f) {mb : Header}
    (hmb : mb.page ≥ nPages ∨ mb.magic ≠ magic ∨ mb.pid ≠ pid ∨ mb.rest ≠ nPages - mb.page) :
    Found nPages pid (seen ++ [some mb]) pageMap f where
  readable := by simpa using h.readable
  map page i := by
    have hno : ¬ (page < nPages ∧ mb = headerOf nPages pid page) := fun hpage =>
      ((headerOf_iff nPages pid mb page).1 hpage).2 hmb
    rw [h.map, looks_append]
    exact ⟨Or.inl, fun hor => hor.resolve_right fun hpage => hno ⟨hpage.1, hpage.2.2⟩⟩
  count := h.count

/-- A page that was not found before. -/
theorem Found.add (h : Found nPages pid seen pageMap f) {mb : Header}
    (hmb : ¬ (mb.page ≥ nPages ∨ mb.magic ≠ magic ∨ mb.pid ≠ pid ∨ mb.rest ≠ nPages - mb.page))
    (hnew : pageMap mb.page = none) :
    Found nPages pid (seen ++ [some mb]) (Function.update pageMap mb.page (some seen.length))
      (f + 1) where
  readable := by simpa using h.readable
  map page i := by
    have hpage := headerOf_iff nPages pid mb page
    rw [looks_append, ← h.map]
    by_cases heq : page = mb.page
    · subst heq
      simp only [Function.update_self, hnew, Option.some.injEq, reduceCtorEq, false_or]
      have hlook := hpage.2 ⟨rfl, hmb⟩
      exact ⟨fun hi => ⟨hlook.1, hi.symm, hlook.2⟩, fun hi => hi.2.1.symm⟩
    · rw [Function.update_of_ne heq]
      refine ⟨Or.inl, fun hor => hor.resolve_right fun hlook => ?_⟩
      exact heq (hpage.1 ⟨hlook.1, hlook.2.2⟩).1.symm
  count := by
    have hlt : mb.page < nPages := by
      by_contra hge
      exact hmb (Or.inl (Nat.le_of_not_lt hge))
    have hset : ((Finset.range nPages).filter fun page =>
        (Function.update pageMap mb.page (some seen.length) page).isSome) =
        insert mb.page ((Finset.range nPages).filter fun page => (pageMap page).isSome) := by
      ext page
      by_cases heq : page = mb.page
      · simp [heq, hlt]
      · simp [heq]
    rw [hset, Finset.card_insert_of_notMem (by simp [hnew]), h.count]

/-- The frames that are left. -/
theorem Found.scan (h : Found nPages pid seen pageMap f) (frames : List (Option Header)) :
    (∃ pageMap' f', Urumt.scan nPages pid frames seen.length pageMap f =
        .ok (pageMap', (seen ++ frames).length, f') ∧
      Found nPages pid (seen ++ frames) pageMap' f') ∨
    (Urumt.scan nPages pid frames seen.length pageMap f = .error .pread ∧ none ∈ seen ++ frames) ∨
    ∃ old new page, Urumt.scan nPages pid frames seen.length pageMap f =
        .error (.lookTheSame old new) ∧ old < new ∧
      Looks nPages pid (seen ++ frames) page old ∧ Looks nPages pid (seen ++ frames) page new := by
  induction frames generalizing seen pageMap f with
  | nil => exact Or.inl ⟨pageMap, f, by rw [Urumt.scan, List.append_nil], by rwa [List.append_nil]⟩
  | cons frame frames ih =>
    rcases frame with - | mb
    · exact Or.inr (Or.inl ⟨rfl, by simp⟩)
    · have hlen : seen.length + 1 = (seen ++ [some mb]).length := by simp
      have hcons : seen ++ some mb :: frames = seen ++ [some mb] ++ frames := by simp
      rw [Urumt.scan, hcons, hlen]
      by_cases hmb : mb.page ≥ nPages ∨ mb.magic ≠ magic ∨ mb.pid ≠ pid ∨
          mb.rest ≠ nPages - mb.page
      · simp only [if_pos hmb]
        exact ih (h.skip hmb)
      · simp only [if_neg hmb]
        cases hold : pageMap mb.page with
        | none => exact ih (h.add hmb hold)
        | some old =>
          obtain ⟨hlt, hhead⟩ := (headerOf_iff nPages pid mb mb.page).2 ⟨rfl, hmb⟩
          obtain ⟨-, hseen⟩ := (h.map mb.page old).1 hold
          have hold' : old < seen.length := (List.getElem?_eq_some_iff.1 hseen).1
          refine Or.inr (Or.inr ⟨old, seen.length, mb.page, rfl, hold', ⟨hlt, ?_⟩, ⟨hlt, ?_⟩⟩)
          · rw [← hcons, List.getElem?_append_left hold', hseen]
          · rw [← hcons, List.getElem?_append_right le_rfl, Nat.sub_self, List.getElem?_cons_zero,
              ← hhead]

theorem found_of_ok {total : ℕ}
    (hok : lookForPages nPages pid frames = .ok (pageMap, total, f)) :
    Found nPages pid frames pageMap f ∧ total = frames.length := by
  rcases (found_nil nPages pid).scan frames with
    ⟨pageMap', f', hrun, hfound⟩ | ⟨hrun, -⟩ | ⟨old, new, page, hrun, -⟩
  · obtain ⟨rfl, rfl, rfl⟩ : pageMap' = pageMap ∧ frames.length = total ∧ f' = f := by
      simpa using hrun.symm.trans hok
    exact ⟨hfound, rfl⟩
  · cases hrun.symm.trans hok
  · cases hrun.symm.trans hok

/-- `look_for_pages` succeeds exactly when all frames up to the end can be read and no two of them
look like one page. A page then has the frame that looks like it. -/
theorem lookForPages_eq (nPages pid : ℕ) (frames : List (Option Header)) :
    ((∃ r, lookForPages nPages pid frames = .ok r) ↔ none ∉ frames ∧
        ∀ page i j, Looks nPages pid frames page i → Looks nPages pid frames page j → i = j) ∧
      ∀ pageMap total f, lookForPages nPages pid frames = .ok (pageMap, total, f) →
        total = frames.length ∧
        (∀ page i, pageMap page = some i ↔ Looks nPages pid frames page i) ∧
        f = ((Finset.range nPages).filter fun page => (pageMap page).isSome).card := by
  refine ⟨?_, fun pageMap total f hrun => ?_⟩
  · rcases (found_nil nPages pid).scan frames with
      ⟨pageMap, f, hok, hfound⟩ | ⟨herr, hnone⟩ | ⟨old, new, page, herr, hlt, hold, hnew⟩
    · refine ⟨fun _ => ⟨hfound.readable, fun page i j hi hj => ?_⟩, fun _ => ⟨_, hok⟩⟩
      exact Option.some.inj (((hfound.map page i).2 hi).symm.trans ((hfound.map page j).2 hj))
    · refine ⟨fun hr => ?_, fun hr => absurd hnone hr.1⟩
      obtain ⟨r, hr⟩ := hr
      cases herr.symm.trans hr
    · refine ⟨fun hr => ?_, fun hr => absurd (hr.2 page _ _ hold hnew) hlt.ne⟩
      obtain ⟨r, hr⟩ := hr
      cases herr.symm.trans hr
  · obtain ⟨hfound, htotal⟩ := found_of_ok hrun
    exact ⟨htotal, hfound.map, hfound.count⟩

end Look

/-! ## The bits that are reported -/

section Frames

variable {W : ℕ} {cfg : Config} {flips : ℕ → ℕ → ℕ → UInt8}

theorem getElem?_specRun (n start i : ℕ) {l : List Line}
    (h : (specRun W cfg flips n start).1[i]? = some l) : l = specLines W cfg flips (start + i) := by
  induction n generalizing start i with
  | zero => simp [specRun] at h
  | succ n ih =>
    rw [specRun] at h
    cases hstops : stops W cfg flips start
    · simp only [hstops, Bool.false_eq_true, if_false] at h
      rcases i with - | i
      · exact (Option.some.inj h).symm
      · rw [ih (start + 1) i h, Nat.add_assoc, Nat.add_comm 1]
    · simp only [hstops, if_true] at h
      rcases i with - | i
      · exact (Option.some.inj h).symm
      · simp at h

theorem mem_oddBits (t : ℕ) (frame : Option ℕ) (byte bit : ℕ) (plus : Bool) :
    Line.badBit frame byte bit plus ∈ oddBits W cfg flips t ↔
      frame = cfg.pageMap (t % cfg.nPages) ∧ byte < cfg.pageSize ∧ bit < 8 ∧
        flipped cfg flips t byte bit = true ∧ plus = (written W cfg t byte).toNat.testBit bit := by
  simp only [oddBits, List.mem_flatMap, List.mem_map, List.mem_filter, List.mem_range,
    Line.badBit.injEq]
  constructor
  · rintro ⟨_, hbyte, _, ⟨hbit, hflipped⟩, rfl, rfl, rfl, rfl⟩
    exact ⟨rfl, hbyte, hbit, hflipped, rfl⟩
  · rintro ⟨rfl, hbyte, hbit, hflipped, rfl⟩
    exact ⟨byte, hbyte, bit, ⟨hbit, hflipped⟩, rfl, rfl, rfl, rfl⟩

/-- The other messages are none of a bad bit. -/
theorem mem_specLines (i : ℕ) (frame : Option ℕ) (byte bit : ℕ) (plus : Bool) :
    Line.badBit frame byte bit plus ∈ specLines W cfg flips i ↔ cfg.nPages ≤ i + 1 ∧
      Line.badBit frame byte bit plus ∈ oddBits W cfg flips (i + 1 - cfg.nPages) := by
  have hpass : Line.badBit frame byte bit plus ∉ passLines cfg i := by
    unfold passLines
    split_ifs <;> simp
  rw [specLines, List.mem_append, or_iff_right hpass]
  split_ifs with hi
  · simp [Nat.not_le_of_lt hi]
  · rw [and_iff_right (Nat.le_of_not_lt hi), checkLines]
    split_ifs <;> simp

/-- Where the frame of a page can be read, the bits that are reported of it are those that flipped
an odd number of times since it was written, and the frame is the right one. -/
theorem doTests_frames (hW : 32 ≤ W) (cfg : Config) (flips : ℕ → ℕ → ℕ → UInt8)
    (frames : List (Option Header)) {total f : ℕ}
    (hlook : lookForPages cfg.nPages cfg.pid frames = .ok (cfg.pageMap, total, f))
    (frame : ℕ → ℕ) (hframe : ∀ page < cfg.nPages, frame page < frames.length →
      frames[frame page]? = some (some (headerOf cfg.nPages cfg.pid page)))
    (n : ℕ) (arena : ℕ → ℕ → UInt8) (memBuf : ℕ → UInt8) (md5 : Md5Stream W)
    {stats : List UInt8} (hstats : 4 ∣ stats.length) :
    ∃ lines last, doTests cfg flips n 0 (start cfg arena memBuf stats md5) = some (lines, last) ∧
      ∀ i l, lines[i]? = some l → frame ((i + 1 - cfg.nPages) % cfg.nPages) < frames.length →
        ∀ number byte bit plus, Line.badBit number byte bit plus ∈ l ↔
          cfg.nPages ≤ i + 1 ∧ number = some (frame ((i + 1 - cfg.nPages) % cfg.nPages)) ∧
            byte < cfg.pageSize ∧ bit < 8 ∧
            flipped cfg flips (i + 1 - cfg.nPages) byte bit = true ∧
            plus = (written W cfg (i + 1 - cfg.nPages) byte).toNat.testBit bit := by
  obtain ⟨last, hrun, -⟩ := (reached_start cfg flips arena memBuf md5 hstats).doTests hW n
  refine ⟨_, _, hrun, fun i l hl hread number byte bit plus => ?_⟩
  have hpos : 0 < cfg.nPages := Nat.zero_lt_of_lt cfg.two_le
  have hpage := Nat.mod_lt (i + 1 - cfg.nPages) hpos
  have hmap : cfg.pageMap ((i + 1 - cfg.nPages) % cfg.nPages) =
      some (frame ((i + 1 - cfg.nPages) % cfg.nPages)) :=
    ((found_of_ok hlook).1.map _ _).2 ⟨hpage, hframe _ hpage hread⟩
  rw [getElem?_specRun n 0 i hl, Nat.zero_add, mem_specLines, mem_oddBits, hmap]

/-- A frame of something else before those of two pages. -/
def twoFrames : List (Option Header) :=
  [some ⟨0, 0, 0, 0⟩, some (headerOf 2 1 1), some (headerOf 2 1 0)]

def twoPagesFound : Config :=
  { twoPages with
    pageMap := Function.update (Function.update (fun _ => none) 1 (some 1)) 0 (some 2) }

theorem doTests_frames_twoPages :
    ∃ lines last, doTests twoPagesFound (fun _ _ _ => 1) 5 0
        (start twoPagesFound (fun _ _ => 0) (fun _ => 0) []
          (Md5Stream.init ⟨md5Start 64, true, 0⟩)) = some (lines, last) ∧
      ∀ i l, lines[i]? = some l → 2 - (i + 1 - 2) % 2 < 3 →
        ∀ number byte bit plus, Line.badBit number byte bit plus ∈ l ↔
          2 ≤ i + 1 ∧ number = some (2 - (i + 1 - 2) % 2) ∧ byte < 16 ∧ bit < 8 ∧
            flipped twoPagesFound (fun _ _ _ => 1) (i + 1 - 2) byte bit = true ∧
            plus = (written 64 twoPagesFound (i + 1 - 2) byte).toNat.testBit bit := by
  have hframe : ∀ page < 2, 2 - page < 3 →
      twoFrames[2 - page]? = some (some (headerOf 2 1 page)) := by decide
  exact doTests_frames (by decide) twoPagesFound (fun _ _ _ => 1) twoFrames rfl
    (fun page => 2 - page) hframe 5 (fun _ _ => 0) (fun _ => 0) _ (by decide)

end Frames

end Urumt

end LxToolset
