import LxToolset.ShowBitmap
import LxToolset.Ledger

/-!
# What `load_winbmp` leaves behind

The FILE and the blocks that `load_winbmp` acquires, as a ledger over its events and those of
`release_bitmap`. The returns before the image is read release everything. An image that is loaded
leaves its FILE open, since the `fclose` is under an `#else` that is not compiled, and the return
for want of memory for the image leaves the palette (`loadBalances_iff`).
-/

namespace LxToolset

open Memory

/-- What `load_winbmp` acquires. -/
inductive LoadResource where
  | file
  | block (b : HeapBlock)
  deriving DecidableEq

/-- A `malloc` acquires its block if it succeeds. -/
def LoadEvent.op (env : LoadEnv) : LoadEvent → Option (ResourceOp LoadResource)
  | .fopen => some (.acquire .file)
  | .fclose => some (.release .file)
  | .malloc b size => if (env.malloc b size).isSome then some (.acquire (.block b)) else none
  | .free b => some (.release (.block b))
  | .stdout _ | .stderr _ => none

/-- `release_bitmap`. -/
def releaseBitmap (b : Bitmap) : List LoadEvent :=
  (if b.bmPalettes.size.isSome then [.free .palette] else []) ++
    (if b.bmBits.size.isSome then [.free .bits] else []) ++ [.free .bitmap]

/-- The events that are still to come once `load_winbmp` has returned; a fault does not return. -/
def Loaded.cleanup : Loaded → Option (List LoadEvent)
  | .null => some []
  | .bitmap b => some (releaseBitmap b)
  | .fault => none

/-- From the ledger `l` on, the events before the return and those of the cleanup after it leave
nothing held. -/
def Settles (env : LoadEnv) (l : Ledger LoadResource) (p : List LoadEvent × Loaded) : Prop :=
  ∀ cleanup, p.2.cleanup = some cleanup →
    l.run ((p.1 ++ cleanup).filterMap (LoadEvent.op env)) = Ledger.clear

/-- All that `load_winbmp` acquires has been released when it returns, but for the blocks that
`release_bitmap` frees if it returns a BITMAP. -/
def LoadBalances (env : LoadEnv) (filename : Option String) : Prop :=
  Settles env Ledger.clear (loadWinbmp env filename)

/-- The palette is not read through NULL. -/
def PaletteReads (env : LoadEnv) (file : List UInt8) (nums : ℕ) : Prop :=
  nums = 0 ∨ (env.malloc .palette (4 * nums)).isSome ∨ file.length ≤ 54

/-- There is no palette to be freed. -/
def NoPalette (env : LoadEnv) (nums : ℕ) : Prop :=
  nums = 0 ∨ env.malloc .palette (4 * nums) = none

section Returns

variable {env : LoadEnv} {l : Ledger LoadResource} {file : List UInt8} {h : WinbmpHeader}

theorem settles_fault {events : List LoadEvent} : Settles env l (events, .fault) := by
  intro cleanup hc
  cases hc

theorem settles_null {events : List LoadEvent} : Settles env l (events, .null) ↔
    l.run (events.filterMap (LoadEvent.op env)) = Ledger.clear := by
  simp [Settles, Loaded.cleanup]

theorem settles_bitmap {events : List LoadEvent} {b : Bitmap} : Settles env l (events, .bitmap b) ↔
    l.run ((events ++ releaseBitmap b).filterMap (LoadEvent.op env)) = Ledger.clear := by
  simp [Settles, Loaded.cleanup]

theorem settles_cons {e : LoadEvent} {events : List LoadEvent} {r : Loaded} :
    Settles env l (e :: events, r) ↔
      Settles env (l.run ([e].filterMap (LoadEvent.op env))) (events, r) := by
  refine forall₂_congr fun cleanup _ => ?_
  rw [← Ledger.run_append, ← List.filterMap_append, List.singleton_append, List.cons_append]

/-- The palette that is read, and whether it has a block. -/
theorem exists_palette_size {nums : ℕ} (hreads : PaletteReads env file nums) :
    ∃ palette, loadPalette env file nums = some palette ∧
      (palette.2.size.isSome ↔ ¬ NoPalette env nums) := by
  unfold loadPalette NoPalette
  rcases Nat.eq_zero_or_pos nums with rfl | hpos
  · exact ⟨_, rfl, by simp⟩
  · rw [if_pos hpos]
    cases hp : env.malloc .palette (4 * nums) with
    | none =>
      obtain hlen : ¬ 54 < file.length := by simpa [PaletteReads, hp, hpos.ne'] using hreads
      exact ⟨_, if_neg hlen, by simp⟩
    | some junk => exact ⟨_, rfl, by simp [hpos.ne']⟩

theorem loadPalette_eq_none {nums : ℕ} (hreads : ¬ PaletteReads env file nums) :
    loadPalette env file nums = none := by
  obtain ⟨hpos, hp, hlen⟩ : nums ≠ 0 ∧ env.malloc .palette (4 * nums) = none ∧
      54 < file.length := by simpa [PaletteReads] using hreads
  simp [loadPalette, Nat.pos_of_ne_zero hpos, hp, hlen]

/-- The block that the palette's `malloc` acquires. -/
theorem ops_paletteMallocs (env : LoadEnv) (nums : ℕ) :
    let mallocs := if 0 < nums then [LoadEvent.malloc .palette (4 * nums)] else []
    (NoPalette env nums → mallocs.filterMap (LoadEvent.op env) = []) ∧
      (¬ NoPalette env nums →
        mallocs.filterMap (LoadEvent.op env) = [.acquire (.block .palette)]) := by
  unfold NoPalette
  rcases Nat.eq_zero_or_pos nums with rfl | hpos
  · simp
  · cases hp : env.malloc .palette (4 * nums) with
    | none => simp [hpos, hp, LoadEvent.op]
    | some junk => simp [hpos, hp, hpos.ne', LoadEvent.op]

/-- With the BITMAP and the FILE in hand. -/
theorem settles_loadBits :
    Settles env ⟨[.block .bitmap, .file], []⟩ (loadBits env file h) ↔
      (PaletteReads env file (palNums h.bfOffBits) →
        env.malloc .bits (bitsSize h) = none ∧ NoPalette env (palNums h.bfOffBits)) := by
  simp only [loadBits]
  by_cases hreads : PaletteReads env file (palNums h.bfOffBits)
  · obtain ⟨palette, hload, hsize⟩ := exists_palette_size hreads
    obtain ⟨hnone, hsome⟩ := ops_paletteMallocs env (palNums h.bfOffBits)
    simp only [hload, hreads, forall_const]
    cases hb : env.malloc .bits (bitsSize h) with
    | none =>
      -- all but a palette is released
      have hbits : [.malloc .bits (bitsSize h), .free .bitmap, .fclose].filterMap
          (LoadEvent.op env) = [.release (.block .bitmap), .release .file] := by
        simp [LoadEvent.op, hb]
      rw [settles_null, List.filterMap_append, hbits]
      by_cases hpal : NoPalette env (palNums h.bfOffBits)
      · rw [hnone hpal]
        exact iff_of_true (by decide) ⟨rfl, hpal⟩
      · rw [hsome hpal]
        exact iff_of_false (by decide) fun hno => hpal hno.2
    | some junk =>
      -- all but the file is released
      have hbits : [.malloc .bits (bitsSize h)].filterMap (LoadEvent.op env) =
          [.acquire (.block .bits)] := by
        simp [LoadEvent.op, hb]
      rw [settles_bitmap, List.filterMap_append, List.filterMap_append, hbits]
      refine iff_of_false ?_ fun hno => Option.some_ne_none junk hno.1
      by_cases hpal : NoPalette env (palNums h.bfOffBits)
      · rw [hnone hpal]
        have hrel : (releaseBitmap (newBitmap h palette ⟨some (bitsSize h),
            fread file (bitsPos file h.bfOffBits) (bitsSize h) junk⟩)).filterMap
            (LoadEvent.op env) = [.release (.block .bits), .release (.block .bitmap)] := by
          simp [releaseBitmap, newBitmap, hsize, hpal, LoadEvent.op]
        rw [hrel]
        decide
      · rw [hsome hpal]
        have hrel : (releaseBitmap (newBitmap h palette ⟨some (bitsSize h),
            fread file (bitsPos file h.bfOffBits) (bitsSize h) junk⟩)).filterMap
            (LoadEvent.op env) = [.release (.block .palette), .release (.block .bits),
              .release (.block .bitmap)] := by
          simp [releaseBitmap, newBitmap, hsize, hpal, LoadEvent.op]
        rw [hrel]
        decide
  · rw [loadPalette_eq_none hreads]
    exact iff_of_true settles_fault fun h => absurd h hreads

/-- With the FILE in hand. -/
theorem settles_loadFile : Settles env ⟨[.file], []⟩ (loadFile env file h) ↔
    (h.bfType = 0x4d42 → (env.malloc .bitmap sizeofBitmap).isSome →
      PaletteReads env file (palNums h.bfOffBits) →
      env.malloc .bits (bitsSize h) = none ∧ NoPalette env (palNums h.bfOffBits)) := by
  unfold loadFile
  by_cases htype : h.bfType = 0x4d42
  · rw [if_neg (not_not_intro htype)]
    cases hb : env.malloc .bitmap sizeofBitmap with
    | none =>
      refine iff_of_true (settles_null.mpr ?_) (by simp)
      simp only [List.filterMap_cons, LoadEvent.op, hb, Option.isSome_none, Bool.false_eq_true,
        if_false, List.filterMap_nil]
      decide
    | some junk =>
      have hop : [.malloc .bitmap sizeofBitmap].filterMap (LoadEvent.op env) =
          [.acquire (.block .bitmap)] := by
        simp [LoadEvent.op, hb]
      simp only [settles_cons, hop, htype, forall_const, Option.isSome_some]
      exact settles_loadBits
  · rw [if_pos htype]
    exact iff_of_true (settles_null.mpr rfl) fun h => absurd h htype

end Returns

/-- `load_winbmp` and `release_bitmap` balance exactly if the file is not loaded, or only its last
block could not be had, and there was no palette. -/
theorem loadBalances_iff (env : LoadEnv) (filename : Option String) :
    LoadBalances env filename ↔ ∀ name file, filename = some name →
      env.fopen name = some file → (readHeader env.stack file).bfType = 0x4d42 →
      (env.malloc .bitmap sizeofBitmap).isSome →
      PaletteReads env file (palNums (readHeader env.stack file).bfOffBits) →
      env.malloc .bits (bitsSize (readHeader env.stack file)) = none ∧
        NoPalette env (palNums (readHeader env.stack file).bfOffBits) := by
  unfold LoadBalances loadWinbmp
  cases filename with
  | none =>
    refine iff_of_true (settles_null.mpr rfl) fun name file hname => ?_
    exact absurd hname.symm (Option.some_ne_none name)
  | some name =>
    cases hopen : env.fopen name with
    | none =>
      simp only [hopen]
      refine iff_of_true (settles_null.mpr rfl) fun name' file hname hfile => ?_
      cases hname
      rw [hopen] at hfile
      cases hfile
    | some file =>
      simp only [hopen, settles_cons]
      refine settles_loadFile.trans ⟨fun h name' file' hname hfile => ?_, fun h => ?_⟩
      · cases hname
        rw [hopen] at hfile
        cases hfile
        exact h
      · exact h name file rfl hopen

/-- An image of one pixel without a palette, and memory for everything. -/
def onePixel : LoadEnv where
  fopen _ := some ([0x42, 0x4d, 57, 0, 0, 0, 0, 0, 0, 0, 54, 0, 0, 0, 40, 0, 0, 0,
    1, 0, 0, 0, 1, 0, 0, 0, 1, 0, 24, 0] ++ List.replicate 24 0 ++ [1, 2, 3])
  malloc _ _ := some fun _ => 0
  stack _ := 0
  null _ := 0

/-- Its FILE stays open. -/
theorem not_loadBalances_onePixel : ¬ LoadBalances onePixel (some "logo.bmp") := by
  intro h
  have hclear := h (releaseBitmap (newBitmap (readHeader onePixel.stack _) (0, ⟨none, _⟩)
    ⟨some 3, _⟩)) rfl
  exact absurd hclear (by decide)

end LxToolset
