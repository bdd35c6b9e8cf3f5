import LxToolset.SisPokes

/-!
# The command write

`pokes_of_cmdWrite` and `cmdWrite_returns` say what a write command does from the answers its
prompts get. `cmdWrite_converted_iff` is the condition under which it returns and writes only
numbers converted for their prompts, `cmdWrite_writesAsShown_iff` the one under which it
writes each number to the address shown.
-/

namespace LxToolset

open Memory

/-! ## The command -/

/-- What the arguments of the command write come to. -/
structure WriteArgs where
  custom : Option SisRegs
  start : ℤ
  count : ℤ
  width : ℕ
  deriving DecidableEq

/-- The count of a write command, 1 if none is given. -/
def writeCount (beyond argv0 : List Char) : ℤ :=
  let count := strtol (countText beyond argv0)
  if count = 0 then 1 else count

/-- The arguments as `cmd_write` takes them, if it gets to its loops. -/
def writeArgs (beyond : List Char) : List (List Char) → Option WriteArgs
  | argv0 :: argv1 :: rest =>
    if isName argv1 then
      (sisregs.find? (·.name = argv1)).map fun r =>
        ⟨some r, (match rest with
          | argv2 :: _ => strtol argv2
          | [] => 0), writeCount beyond argv0, readWidth argv0⟩
    else some ⟨none, strtol argv1, writeCount beyond argv0, readWidth argv0⟩
  | _ => none

theorem width_of_writeArgs {beyond : List Char} {argv : List (List Char)} {a : WriteArgs}
    (h : writeArgs beyond argv = some a) : a.width = 1 ∨ a.width = 2 ∨ a.width = 4 := by
  unfold writeArgs at h
  split at h
  · split_ifs at h
    · obtain ⟨r, -, rfl⟩ := Option.map_eq_some_iff.1 h
      exact readWidth_cases _
    · cases h
      exact readWidth_cases _
  · cases h

theorem mem_sisregs_of_writeArgs {beyond : List Char} {argv : List (List Char)} {a : WriteArgs}
    (h : writeArgs beyond argv = some a) {r : SisRegs} (hr : r ∈ a.custom) : r ∈ sisregs := by
  unfold writeArgs at h
  split at h
  · split_ifs at h
    · obtain ⟨r', hfind, rfl⟩ := Option.map_eq_some_iff.1 h
      obtain rfl := Option.some.inj hr
      exact List.mem_of_find?_eq_some hfind
    · cases h
      cases hr
  · cases h

theorem width_ne_zero {beyond : List Char} {argv : List (List Char)} {a : WriteArgs}
    (h : writeArgs beyond argv = some a) : a.width ≠ 0 := by
  rcases width_of_writeArgs h with h | h | h <;> omega

/-- The accesses are of the lock register of the bank. -/
def LockAccesses (custom : Option SisRegs) (l : List SisAccess) : Prop :=
  ∀ a ∈ l, ∃ r ∈ custom, a.OfLock r

/-- The command prints nothing and accesses the lock register of the bank only. -/
def LockOnly (custom : Option SisRegs) (m : SisM Unit) : Prop :=
  ∀ s, ∃ l, (m.run s).2.accesses = s.accesses ++ l ∧ (m.run s).2.out = s.out ∧
    LockAccesses custom l

theorem LockOnly.pure (custom : Option SisRegs) : LockOnly custom (Pure.pure ()) :=
  fun _ => ⟨[], (List.append_nil _).symm, rfl, by simp [LockAccesses]⟩

theorem LockOnly.of_touchesLock {r : SisRegs} {m : SisM Unit} (h : TouchesLock r m) :
    LockOnly (some r) m := by
  intro s
  obtain ⟨l, hl, hout, hlock⟩ := h s
  exact ⟨l, hl, hout, fun a ha => ⟨r, rfl, hlock a ha⟩⟩

/-- Unlock the bank, if one is named. -/
def unlockBank (pw : Password) : Option SisRegs → SisM Unit
  | some r => sisUnlock pw r
  | none => pure ()

/-- Lock the bank, if one is named. -/
def lockBank (pw : Password) : Option SisRegs → SisM Unit
  | some r => sisLock pw r
  | none => pure ()

theorem unlockBank_lockOnly (pw : Password) (custom : Option SisRegs) :
    LockOnly custom (unlockBank pw custom) := by
  cases custom with
  | none => exact LockOnly.pure _
  | some r => exact LockOnly.of_touchesLock (sisUnlock_touchesLock pw r)

theorem lockBank_lockOnly (pw : Password) (custom : Option SisRegs) :
    LockOnly custom (lockBank pw custom) := by
  cases custom with
  | none => exact LockOnly.pure _
  | some r => exact LockOnly.of_touchesLock (sisLock_touchesLock pw r)

section Command

variable (pw : Password) (beyond : List Char) (j : ℕ → BitVec 32) (n : ℕ)
  {argv : List (List Char)} {a : WriteArgs}

/-- The command that gets to its loops. -/
theorem cmdWrite_eq (h : writeArgs beyond argv = some a) : cmdWrite pw beyond j n argv = do
    onChip (unlockBank pw a.custom)
    pokeRows pw a.custom a.start a.count a.width j n
    onChip (lockBank pw a.custom)
    return 0 := by
  unfold writeArgs at h
  split at h
  · next argv0 argv1 rest =>
    split_ifs at h with hname
    · obtain ⟨r, hr, rfl⟩ := Option.map_eq_some_iff.1 h
      simp only [cmdWrite, if_pos hname, hr]
      rfl
    · cases h
      simp only [cmdWrite, if_neg hname]
      rfl
  · cases h

/-- The command that does not get to its loops fails, and prints at most. -/
theorem cmdWrite_none (h : writeArgs beyond argv = none) (s : DebugState) :
    ∃ r out, r < 0 ∧ cmdWrite pw beyond j n argv s =
      some (r, { s with chip := { s.chip with out := out } }) := by
  rcases argv with _ | ⟨argv0, _ | ⟨argv1, rest⟩⟩
  · exact ⟨-1, s.chip.out, by decide, rfl⟩
  · exact ⟨-1, s.chip.out, by decide, rfl⟩
  · unfold writeArgs at h
    dsimp only at h
    split_ifs at h with hname
    simp only [cmdWrite, if_pos hname, Option.map_eq_none_iff.1 h]
    exact ⟨-2, _, by decide, rfl⟩

/-- From `s` to `s'` the rounds `ps` have been gone through, and besides theirs there are
accesses of the lock register of the bank only. -/
structure Pokes (custom : Option SisRegs) (s s' : DebugState) (ps : List Poke) : Prop where
  pokes : s'.pokes = s.pokes ++ ps
  accesses : ∃ unlock lock, LockAccesses custom unlock ∧ LockAccesses custom lock ∧
    s'.chip.accesses = s.chip.accesses ++ (unlock ++ ps.flatMap Poke.accesses ++ lock)

variable {pw beyond j n}

/-- The command that returns has gone through its loops between unlocking and locking. -/
theorem forM_of_cmdWrite (h : writeArgs beyond argv = some a) {s s' : DebugState} {r : ℤ}
    (hrun : cmdWrite pw beyond j n argv s = some (r, s')) : r = 0 ∧ ∃ s₁,
      ((cells a.count a.width).forM fun cell =>
        pokeCell pw a.custom a.start a.width (j cell.1) n cell.1 cell.2)
          { s with chip := ((unlockBank pw a.custom).run s.chip).2 } = some ((), s₁) ∧
        s' = { s₁ with chip := ((lockBank pw a.custom).run s₁.chip).2 } := by
  rw [cmdWrite_eq pw beyond j n h] at hrun
  obtain ⟨⟨⟨⟩, s₁⟩, hrows, hrest⟩ := Option.bind_eq_some_iff.1 (show
    (pokeRows pw a.custom a.start a.count a.width j n
      { s with chip := ((unlockBank pw a.custom).run s.chip).2 }).bind _ = some (r, s') from hrun)
  rw [pokeRows_eq] at hrows
  cases hrest
  exact ⟨rfl, s₁, hrows, rfl⟩

/-- What the command does, if it returns. -/
theorem pokes_of_cmdWrite (h : writeArgs beyond argv = some a) {s s' : DebugState} {r : ℤ}
    (hrun : cmdWrite pw beyond j n argv s = some (r, s')) :
    ∃ ps, Pokes a.custom s s' ps ∧ s'.chip.out = s.chip.out ++ ps.flatMap Poke.out ∧
      ps.length = (cells a.count a.width).length ∧
      ∀ k cell, (cells a.count a.width)[k]? = some cell → ∃ p, ps[k]? = some p ∧
        RoundAt pw a.custom a.start a.width j (cells a.count a.width)
          { s with chip := ((unlockBank pw a.custom).run s.chip).2 } k cell p := by
  obtain ⟨-, s₁, hrows, rfl⟩ := forM_of_cmdWrite h hrun
  obtain ⟨unlock, hunlock, hout, hul⟩ := unlockBank_lockOnly pw a.custom s.chip
  obtain ⟨ps, hps, hlen, hall⟩ := pokes_of_forM (width_of_writeArgs h) n _ hrows
  obtain ⟨lock, hlock, hout', hll⟩ := lockBank_lockOnly pw a.custom s₁.chip
  refine ⟨ps, ⟨hps.pokes, unlock, lock, hul, hll, ?_⟩, ?_, hlen, hall⟩
  · have haccesses := hps.accesses
    dsimp only at haccesses ⊢
    rw [hlock, haccesses, hunlock]
    simp only [List.append_assoc]
  · have hshown := hps.out
    dsimp only at hshown ⊢
    rw [hout', hshown, hout]

/-- What the command leaves on standard input. -/
theorem leftAt_of_cmdWrite (h : writeArgs beyond argv = some a) {s s' : DebugState} {r : ℤ}
    (hrun : cmdWrite pw beyond j n argv s = some (r, s')) :
    leftAt s.stdin (cells a.count a.width).length = some s'.stdin := by
  obtain ⟨-, s₁, hrows, rfl⟩ := forM_of_cmdWrite h hrun
  have hleft := leftAt_of_forM (width_of_writeArgs h) n _ hrows
  exact hleft

variable (pw j) in
/-- The command returns if no answer is stuck. -/
theorem cmdWrite_returns (h : writeArgs beyond argv = some a) {s : DebugState}
    (hn : s.stdin.length < n)
    (hstuck : ∀ k < (cells a.count a.width).length, answerAt s.stdin k ≠ .stuck) :
    ∃ s', cmdWrite pw beyond j n argv s = some (0, s') := by
  obtain ⟨s₁, hrows⟩ := forM_returns pw a.custom a.start j (width_of_writeArgs h)
    (cells a.count a.width) (s := { s with chip := ((unlockBank pw a.custom).run s.chip).2 })
    hn hstuck
  rw [← pokeRows_eq] at hrows
  refine ⟨{ s₁ with chip := ((lockBank pw a.custom).run s₁.chip).2 }, ?_⟩
  rw [cmdWrite_eq pw beyond j _ h]
  exact Option.bind_eq_some_iff.2 ⟨(⟨⟩, s₁), hrows, rfl⟩

end Command

/-! ## Numbers converted -/

/-- The command returns, and its accesses are those of the lock register of the bank and of
its rounds, which store at most the number converted for their prompts. -/
def WritesConverted (pw : Password) (beyond : List Char) (j : ℕ → BitVec 32)
    (argv : List (List Char)) (s : DebugState) : Prop :=
  (∃ n, (cmdWrite pw beyond j n argv s).isSome) ∧
    ∀ n r s', cmdWrite pw beyond j n argv s = some (r, s') →
      ∃ ps, Pokes ((writeArgs beyond argv).bind WriteArgs.custom) s s' ps ∧
        ∀ k p, ps[k]? = some p → p.stores ≠ [] → ∃ a ∈ writeArgs beyond argv, ∃ cell v,
          (cells a.count a.width)[k]? = some cell ∧ (answerAt s.stdin k).typed = some v ∧
          p.typed = some v ∧
          p.stores = storesAt a.custom (pokeAddr a.start a.width j cell) a.width v

theorem storesAt_ne_nil (custom : Option SisRegs) (idx : ℤ) {width : ℕ} (hw : width ≠ 0)
    (value : BitVec 32) : storesAt custom idx width value ≠ [] := by
  simpa [storesAt] using hw

theorem writeStores_eq_nil_iff (custom : Option SisRegs) (idx : ℤ) {width : ℕ} (hw : width ≠ 0)
    (value : BitVec 32) :
    writeStores custom idx width value = [] ↔ WriteRefused custom idx width := by
  unfold writeStores
  split_ifs with h
  · simp [h]
  · simp [h, storesAt_ne_nil custom idx hw value]

theorem typed_eq_none_iff {x : Answer} (h : x ≠ .stuck) : x.typed = none ↔ x = .ended := by
  cases x <;> simp_all [Answer.typed]

/-- The answers to the prompts of a command that returns and writes converted numbers only. -/
theorem WritesConverted.answers {pw : Password} {beyond : List Char} {j : ℕ → BitVec 32}
    {argv : List (List Char)} {s : DebugState} (h : WritesConverted pw beyond j argv s)
    {a : WriteArgs} (ha : writeArgs beyond argv = some a) {k : ℕ} {cell : ℕ × ℕ}
    (hk : (cells a.count a.width)[k]? = some cell) :
    answerAt s.stdin k ≠ .stuck ∧ (answerAt s.stdin k = .ended →
      WriteRefused a.custom (pokeAddr a.start a.width j cell) a.width) := by
  have hw := width_ne_zero ha
  obtain ⟨⟨n, hsome⟩, hall⟩ := h
  obtain ⟨⟨r, s'⟩, hrun⟩ := Option.isSome_iff_exists.1 hsome
  obtain ⟨ps, hps, -, hlen, hcells⟩ := pokes_of_cmdWrite ha hrun
  obtain ⟨ps', hps', hconv⟩ := hall n r s' hrun
  obtain rfl : ps' = ps := List.append_cancel_left (hps'.pokes.symm.trans hps.pokes)
  obtain ⟨p, hp, hstuck, m, w, chip, -, rfl, -⟩ := hcells k cell hk
  refine ⟨hstuck, fun hended => ?_⟩
  by_contra hnot
  have hne := (writeStores_eq_nil_iff a.custom _ hw w).not.2 hnot
  rw [← stores_pokeAt] at hne
  obtain ⟨-, -, -, v, -, htyped, -⟩ := hconv k _ hp hne
  simp [hended, Answer.typed] at htyped

/-- A write command returns and writes converted numbers only, exactly if no prompt is stuck
at text that is no number and where the input has ended the write is refused. -/
theorem cmdWrite_converted_iff (pw : Password) (beyond : List Char) (j : ℕ → BitVec 32)
    (argv : List (List Char)) (s : DebugState) : WritesConverted pw beyond j argv s ↔
      ∀ a ∈ writeArgs beyond argv, ∀ k cell, (cells a.count a.width)[k]? = some cell →
        answerAt s.stdin k ≠ .stuck ∧ (answerAt s.stdin k = .ended →
          WriteRefused a.custom (pokeAddr a.start a.width j cell) a.width) := by
  rcases ha : writeArgs beyond argv with _ | a
  · simp only [Option.mem_def, reduceCtorEq, false_imp_iff, implies_true, iff_true]
    refine ⟨?_, fun n r s' hrun => ⟨[], ⟨?_, [], [], ?_⟩, by simp⟩⟩
    · obtain ⟨r, out, -, hrun⟩ := cmdWrite_none pw beyond j 0 ha s
      exact ⟨0, by rw [hrun]; rfl⟩
    · obtain ⟨r', out, -, heq⟩ := cmdWrite_none pw beyond j n ha s
      cases heq.symm.trans hrun
      exact (List.append_nil _).symm
    · obtain ⟨r', out, -, heq⟩ := cmdWrite_none pw beyond j n ha s
      cases heq.symm.trans hrun
      exact ⟨by simp [LockAccesses], by simp [LockAccesses], (List.append_nil _).symm⟩
  · have hw := width_ne_zero ha
    simp only [Option.mem_def, Option.some.injEq, forall_eq']
    refine ⟨fun h k cell hk => h.answers ha hk, fun h => ⟨?_, fun n r s' hrun => ?_⟩⟩
    · obtain ⟨s', hs'⟩ := cmdWrite_returns pw j ha (Nat.lt_succ_self s.stdin.length) fun k hk =>
        (h k _ (List.getElem?_eq_getElem hk)).1
      exact ⟨_, by rw [hs']; rfl⟩
    · obtain ⟨ps, hps, -, hlen, hcells⟩ := pokes_of_cmdWrite ha hrun
      refine ⟨ps, by rwa [ha], fun k p hp hne => ⟨a, ha, ?_⟩⟩
      have hk : k < (cells a.count a.width).length :=
        hlen ▸ (List.getElem?_eq_some_iff.1 hp).1
      have hcell := List.getElem?_eq_getElem hk
      obtain ⟨p', hp', hstuck, m, w, chip, hv, rfl, -⟩ := hcells k _ hcell
      obtain rfl := Option.some.inj (hp'.symm.trans hp)
      rw [stores_pokeAt] at hne ⊢
      have hok := (writeStores_eq_nil_iff a.custom _ hw w).not.1 hne
      rcases htyped : (answerAt s.stdin k).typed with _ | v
      · exact absurd ((h k _ hcell).2 ((typed_eq_none_iff hstuck).1 htyped)) hok
      · obtain rfl : w = v := hv v htyped
        exact ⟨_, w, hcell, rfl, rfl, by rw [writeStores, if_neg hok]⟩

/-! ## Numbers written where shown -/

/-- The registers written lie in the bank named, or are ports whose numbers are `int`s. -/
def WriteArgs.Inside (a : WriteArgs) : Prop :=
  a.start + a.count * a.width ≤ match a.custom with
    | some r => r.length
    | none => 2 ^ 31 - 1

/-- The prompt that shows an address and the value there. -/
def shownPrompt (custom : Option SisRegs) (addr : ℤ) (width : ℕ) (old : BitVec 32) : List Char :=
  (match custom with
    | some r => r.name ++ ['['] ++ hex 2 (BitVec.ofInt 32 addr) ++ [']', ':', '\t']
    | none => hex 8 (BitVec.ofInt 32 addr) ++ [':', '\t']) ++ hex (fmtDigits width) old ++
      [' ', '#', ' ']

theorem promptText_eq (custom : Option SisRegs) (addr : ℤ) (width : ℕ) (old : BitVec 32) :
    promptText custom addr (hex (fmtDigits width) old ++ [' ']) =
      shownPrompt custom addr width old := by
  cases custom <;> simp [promptText, shownPrompt]

/-- The round shows the address and the value `old`, loads the bytes there, and stores there
the number `v` that was typed. -/
structure Poke.ShownAt (p : Poke) (custom : Option SisRegs) (addr : ℤ) (width : ℕ)
    (old v : BitVec 32) : Prop where
  typed : p.typed = some v
  out : ∃ m, p.out = (List.replicate (m + 1) (shownPrompt custom addr width old)).flatten
  accesses : p.accesses = loadsAt custom addr width ++ storesAt custom addr width v

/-- Every number typed is written with the command's width to the address that its prompt
shows, with what the registers there held when the bank was unlocked. All that the command
prints are these prompts, and all that it accesses besides is the lock register of the bank. -/
def WritesAsShown (pw : Password) (beyond : List Char) (j : ℕ → BitVec 32)
    (argv : List (List Char)) (a : WriteArgs) (s : DebugState) : Prop :=
  (∃ n, (cmdWrite pw beyond j n argv s).isSome) ∧
    ∀ n r s', cmdWrite pw beyond j n argv s = some (r, s') →
      ∃ ps, Pokes a.custom s s' ps ∧ s'.chip.out = s.chip.out ++ ps.flatMap Poke.out ∧
        ps.length = a.count.toNat ∧ ∀ k < a.count.toNat, ∃ p v, ps[k]? = some p ∧
          (answerAt s.stdin k).typed = some v ∧ p.ShownAt a.custom (a.start + k * a.width) a.width
            (valueFrom pw a.custom ((unlockBank pw a.custom).run s.chip).2 (a.start + k * a.width)
              a.width) v

theorem eq_of_storesAt {custom : Option SisRegs} {idx idx' : ℤ} {width : ℕ} (hw : width ≠ 0)
    {v v' : BitVec 32} (h : storesAt custom idx width v = storesAt custom idx' width v') :
    idx = idx' := by
  obtain ⟨m, rfl⟩ := Nat.exists_eq_succ_of_ne_zero hw
  rw [storesAt, storesAt, List.range_succ_eq_map, List.map_cons, List.map_cons] at h
  have hhead : idx = idx' ∧ valueByte v 0 = valueByte v' 0 := by
    cases custom <;> simpa [storeAccess] using (List.cons.inj h).1
  exact hhead.1

/-- Only adding 0 to an address keeps it. -/
theorem eq_zero_of_int32_add {addr : ℤ} {x : BitVec 32} (h0 : 0 ≤ addr) (h : addr < 2 ^ 31)
    (hx : int32 (addr + x.toInt) = addr) : x = 0 := by
  have hle := BitVec.two_mul_toInt_lt (x := x)
  have hge := BitVec.le_two_mul_toInt (x := x)
  have hzero : x.toInt = 0 := by
    rw [int32, Int.bmod_def] at hx
    split_ifs at hx <;> omega
  exact BitVec.eq_of_toInt_eq (by simpa using hzero)

theorem inside_lt {beyond : List Char} {argv : List (List Char)} {a : WriteArgs}
    (ha : writeArgs beyond argv = some a) (hin : a.Inside) :
    a.start + a.count * a.width < 2 ^ 31 := by
  unfold writeArgs at ha
  split at ha
  · split_ifs at ha
    · obtain ⟨r, hr, rfl⟩ := Option.map_eq_some_iff.1 ha
      have hlen := length_le_of_mem_sisregs (List.mem_of_find?_eq_some hr)
      exact ((show _ ≤ r.length from hin).trans hlen).trans_lt (by decide)
    · cases ha
      exact Int.lt_of_le_sub_one hin
  · cases ha

section Shown

variable {pw : Password} {beyond : List Char} {j : ℕ → BitVec 32} {argv : List (List Char)}
  {a : WriteArgs} {s : DebugState}

/-- The bytes of prompt `k` end where those of the command do, or before. -/
theorem address_le {k : ℕ} (hk : k < a.count.toNat) :
    a.start + k * a.width + a.width ≤ a.start + a.count * a.width := by
  have hmul : ((k + 1 : ℕ) * a.width : ℤ) ≤ a.count * a.width :=
    mul_le_mul_of_nonneg_right (by omega) (by omega)
  rw [Nat.cast_succ, add_mul] at hmul
  omega

/-- No address overflows. -/
theorem address_range (ha : writeArgs beyond argv = some a) (hstart : 0 ≤ a.start)
    (hin : a.Inside) {k : ℕ} (hk : k < a.count.toNat) :
    0 ≤ a.start + k * a.width ∧ a.start + k * a.width < 2 ^ 31 := by
  have hle := address_le hk
  have hlt := inside_lt ha hin
  have hk0 : (0 : ℤ) ≤ k * a.width := by positivity
  omega

theorem int32_address (ha : writeArgs beyond argv = some a) (hstart : 0 ≤ a.start)
    (hin : a.Inside) {k : ℕ} (hk : k < a.count.toNat) :
    int32 (a.start + k * a.width) = a.start + k * a.width := by
  obtain ⟨h0, hlt⟩ := address_range ha hstart hin hk
  exact int32_of_lt (by omega) hlt

/-- The cell of prompt `k`, and its address. -/
theorem cell_of_lt (ha : writeArgs beyond argv = some a) (hstart : 0 ≤ a.start)
    (hin : a.Inside) {k : ℕ} (hk : k < a.count.toNat) :
    (cells a.count a.width)[k]? = some (k / (32 / a.width), k % (32 / a.width)) ∧
      cellAddr a.start a.width (k / (32 / a.width)) (k % (32 / a.width)) =
        a.start + k * a.width := by
  have hw := width_of_writeArgs ha
  have hle := inside_lt ha hin
  obtain ⟨n, hn⟩ := Int.eq_ofNat_of_zero_le (a := a.count) (by omega)
  rw [hn, Int.toNat_natCast] at hk
  rw [hn] at hle ⊢
  have hlt : n * a.width < 2 ^ 31 := by
    have : (n * a.width : ℤ) < 2 ^ 31 := by omega
    exact_mod_cast this
  refine ⟨?_, ?_⟩
  · rw [cells_eq hw hlt, List.getElem?_map, List.getElem?_range hk]
    rfl
  · rw [cellAddr]
    rcases hw with h | h | h <;> rw [h] <;> omega

theorem length_cells (ha : writeArgs beyond argv = some a) (hcount : 0 ≤ a.count)
    (hstart : 0 ≤ a.start) (hin : a.Inside) :
    (cells a.count a.width).length = a.count.toNat := by
  have hle := inside_lt ha hin
  obtain ⟨n, hn⟩ := Int.eq_ofNat_of_zero_le hcount
  rw [hn] at hle ⊢
  have hlt : n * a.width < 2 ^ 31 := by
    have : (n * a.width : ℤ) < 2 ^ 31 := by omega
    exact_mod_cast this
  rw [cells_eq (width_of_writeArgs ha) hlt, List.length_map, List.length_range, Int.toNat_natCast]

/-- Inside the bank no read is refused. -/
theorem not_loadRefused (ha : writeArgs beyond argv = some a) (hstart : 0 ≤ a.start)
    (hin : a.Inside) {k : ℕ} (hk : k < a.count.toNat) :
    ¬LoadRefused a.custom (a.start + k * a.width) a.width := by
  rintro ⟨r, hr, href⟩
  have hle := address_le hk
  have h0 := (address_range ha hstart hin hk).1
  rw [WriteArgs.Inside, Option.mem_def.1 hr] at hin
  exact not_readRefused_of_le (mem_sisregs_of_writeArgs ha hr) h0 (hle.trans hin) href

/-- Inside the bank no write is refused. -/
theorem not_writeRefused (ha : writeArgs beyond argv = some a) (hstart : 0 ≤ a.start)
    (hin : a.Inside) {k : ℕ} (hk : k < a.count.toNat) :
    ¬WriteRefused a.custom (a.start + k * a.width) a.width := by
  rintro ⟨-, r, hr, hpast⟩
  have hle := address_le hk
  have hlt := inside_lt ha hin
  have h0 := (address_range ha hstart hin hk).1
  rw [int32_of_lt (by omega) (by omega)] at hpast
  rw [WriteArgs.Inside, Option.mem_def.1 hr] at hin
  dsimp only at hin
  omega

variable (j a) in
/-- Where the number typed at prompt `k` goes. -/
def storeAddr (k : ℕ) : ℤ :=
  int32 (a.start + k * a.width + (j (k / (32 / a.width))).toInt)

theorem storeAddr_of_zero (ha : writeArgs beyond argv = some a) (hstart : 0 ≤ a.start)
    (hin : a.Inside) {k : ℕ} (hk : k < a.count.toNat) (hj : j (k / (32 / a.width)) = 0) :
    storeAddr j a k = a.start + k * a.width := by
  rw [storeAddr, hj, show (0 : BitVec 32).toInt = 0 from rfl, add_zero,
    int32_address ha hstart hin hk]

/-- The numbers stored before prompt `k` are stored below its address. -/
theorem valueFrom_of_kept (ha : writeArgs beyond argv = some a) (hstart : 0 ≤ a.start)
    (hin : a.Inside) {k : ℕ} (hk : k < a.count.toNat)
    (hj : ∀ k' < k, j (k' / (32 / a.width)) = 0) {chip chip' : SisState}
    (hkept : ∀ i, (∀ c ∈ (cells a.count a.width).take k, i < pokeAddr a.start a.width j c ∨
      pokeAddr a.start a.width j c + a.width ≤ i) →
        inByteAt pw a.custom chip i = inByteAt pw a.custom chip' i) :
    valueFrom pw a.custom chip (a.start + k * a.width) a.width =
      valueFrom pw a.custom chip' (a.start + k * a.width) a.width := by
  have hbyte : ∀ n : ℕ, inByteAt pw a.custom chip (a.start + k * a.width + n) =
      inByteAt pw a.custom chip' (a.start + k * a.width + n) := fun n => by
    refine hkept _ fun c hc => Or.inr ?_
    obtain ⟨k', hget⟩ := List.mem_iff_getElem?.1 hc
    rw [List.getElem?_take] at hget
    split_ifs at hget with hk'
    obtain ⟨hcell, haddr⟩ := cell_of_lt ha hstart hin (hk'.trans hk)
    obtain rfl := Option.some.inj (hcell.symm.trans hget)
    have hstore := storeAddr_of_zero ha hstart hin (hk'.trans hk) (hj k' hk')
    rw [storeAddr] at hstore
    rw [pokeAddr, haddr, hstore]
    have hmul : ((k' + 1 : ℕ) * a.width : ℤ) ≤ k * a.width :=
      mul_le_mul_of_nonneg_right (by omega) (by omega)
    rw [Nat.cast_succ, add_mul] at hmul
    omega
  simp only [valueFrom, hbyte]

/-- The rounds of the command where all prompts get a number. -/
theorem pokes_of_supplied (ha : writeArgs beyond argv = some a) (hstart : 0 ≤ a.start)
    (hin : a.Inside) (hsupply : ∀ k < a.count.toNat, (answerAt s.stdin k).typed ≠ none)
    {n : ℕ} {r : ℤ} {s' : DebugState} (hrun : cmdWrite pw beyond j n argv s = some (r, s')) :
    ∃ ps, Pokes a.custom s s' ps ∧ s'.chip.out = s.chip.out ++ ps.flatMap Poke.out ∧
      ps.length = (cells a.count a.width).length ∧
      ∀ k < a.count.toNat, ∃ p v old, ps[k]? = some p ∧ (answerAt s.stdin k).typed = some v ∧
        p.typed = some v ∧
        (∃ m, p.out = (List.replicate (m + 1)
          (shownPrompt a.custom (a.start + k * a.width) a.width old)).flatten) ∧
        p.accesses = loadsAt a.custom (a.start + k * a.width) a.width ++
          writeStores a.custom (storeAddr j a k) a.width v ∧
        ((∀ k' < k, j (k' / (32 / a.width)) = 0) → old = valueFrom pw a.custom
          ((unlockBank pw a.custom).run s.chip).2 (a.start + k * a.width) a.width) := by
  obtain ⟨ps, hps, hout, hlen, hcells⟩ := pokes_of_cmdWrite ha hrun
  refine ⟨ps, hps, hout, hlen, fun k hk => ?_⟩
  obtain ⟨hcell, haddr⟩ := cell_of_lt ha hstart hin hk
  obtain ⟨p, hp, -, m, w, chip, hw, rfl, hkept⟩ := hcells k _ hcell
  obtain ⟨v, hv⟩ := Option.ne_none_iff_exists'.1 (hsupply k hk)
  obtain rfl : w = v := hw v hv
  have hload := not_loadRefused ha hstart hin hk
  have hint := int32_address ha hstart hin hk
  refine ⟨_, w, valueFrom pw a.custom chip (a.start + k * a.width) a.width, hp, hv, hv,
    ⟨m, ?_⟩, ?_, fun hj => valueFrom_of_kept ha hstart hin hk hj hkept⟩
  · rw [pokeAt, haddr, hint, loadedValue, if_neg hload, promptText_eq]
  · rw [pokeAt, haddr, hint, loads, if_neg hload, pokeAddr, haddr, storeAddr]

/-- What is written somewhere else than shown is seen in the accesses. -/
theorem WritesAsShown.eq_zero (ha : writeArgs beyond argv = some a) (hstart : 0 ≤ a.start)
    (hin : a.Inside) (hsupply : ∀ k < a.count.toNat, (answerAt s.stdin k).typed ≠ none)
    (h : WritesAsShown pw beyond j argv a s) {k : ℕ} (hk : k < a.count.toNat) :
    j (k / (32 / a.width)) = 0 := by
  have hw := width_ne_zero ha
  obtain ⟨h0, hlt⟩ := address_range ha hstart hin hk
  obtain ⟨⟨n, hsome⟩, hall⟩ := h
  obtain ⟨⟨r, s'⟩, hrun⟩ := Option.isSome_iff_exists.1 hsome
  obtain ⟨ps, hps, -, -, hcells⟩ := pokes_of_supplied ha hstart hin hsupply hrun
  obtain ⟨ps', hps', -, -, hshown⟩ := hall n r s' hrun
  obtain rfl : ps' = ps := List.append_cancel_left (hps'.pokes.symm.trans hps.pokes)
  obtain ⟨p, v, old, hp, hv, -, -, haccesses, -⟩ := hcells k hk
  obtain ⟨p', v', hp', hv', hround⟩ := hshown k hk
  obtain rfl : v = v' := Option.some.inj (hv.symm.trans hv')
  obtain rfl := Option.some.inj (hp.symm.trans hp')
  have hstores := List.append_cancel_left (haccesses.symm.trans hround.accesses)
  unfold writeStores at hstores
  split_ifs at hstores
  · exact absurd hstores.symm (storesAt_ne_nil a.custom _ hw v)
  · exact eq_zero_of_int32_add h0 hlt (eq_of_storesAt hw hstores)

/-- A write command inside the bank writes the numbers typed where their prompts say, exactly
if the variable `j` is 0 in each row. -/
theorem cmdWrite_writesAsShown_iff (pw : Password) (beyond : List Char) (j : ℕ → BitVec 32)
    (argv : List (List Char)) (a : WriteArgs) (s : DebugState)
    (ha : writeArgs beyond argv = some a) (hcount : 1 ≤ a.count) (hstart : 0 ≤ a.start)
    (hin : a.Inside) (hsupply : ∀ k < a.count.toNat, (answerAt s.stdin k).typed ≠ none) :
    WritesAsShown pw beyond j argv a s ↔
      ∀ k < a.count.toNat, j (k / (32 / a.width)) = 0 := by
  refine ⟨fun h k hk => h.eq_zero ha hstart hin hsupply hk, fun hj => ⟨?_, fun n r s' hrun => ?_⟩⟩
  · obtain ⟨s', hs'⟩ := cmdWrite_returns pw j ha (Nat.lt_succ_self s.stdin.length) fun k hk
        hstuck => by
      refine hsupply k ?_ (by rw [hstuck]; rfl)
      rwa [length_cells ha (by omega) hstart hin] at hk
    exact ⟨_, by rw [hs']; rfl⟩
  · obtain ⟨ps, hps, hout, hlen, hcells⟩ := pokes_of_supplied ha hstart hin hsupply hrun
    refine ⟨ps, hps, hout, hlen.trans (length_cells ha (by omega) hstart hin), fun k hk => ?_⟩
    obtain ⟨p, v, old, hp, hv, htyped, hprompt, haccesses, hold⟩ := hcells k hk
    rw [hold fun k' hk' => hj k' (hk'.trans hk)] at hprompt
    rw [storeAddr_of_zero ha hstart hin hk (hj k hk), writeStores,
      if_neg (not_writeRefused ha hstart hin hk)] at haccesses
    exact ⟨p, v, hp, hv, htyped, hprompt, haccesses⟩

end Shown

/-- The command line `write/1b sr 0`. -/
def writeSr : List (List Char) :=
  [['w', 'r', 'i', 't', 'e', '/', '1', 'b'], ['s', 'r'], ['0']]

theorem writeArgs_writeSr :
    writeArgs [] writeSr = some ⟨some ⟨['s', 'r'], 0x60, .sr⟩, 0, 1, 1⟩ := by
  decide

theorem cells_writeSr : cells 1 1 = [(0, 0)] := by
  decide

/-- A chip with this text on standard input. -/
def atPrompt (stdin : List Char) : DebugState :=
  ⟨openChip, stdin, 0, []⟩

theorem answer_typed : (answerAt ['5', 'a', '\n'] 0).typed = some 0x5a := by
  rw [answerAt, answer, show scanHex ['5', 'a', '\n'] = .converted 0x5a ['\n'] by decide]
  rfl

theorem inside_writeSr : WriteArgs.Inside ⟨some ⟨['s', 'r'], 0x60, .sr⟩, 0, 1, 1⟩ :=
  show (0 : ℤ) + 1 * 1 ≤ 0x60 by decide

theorem supplied_writeSr (k : ℕ) (hk : k < (1 : ℤ).toNat) :
    (answerAt (atPrompt ['5', 'a', '\n']).stdin k).typed ≠ none := by
  obtain rfl : k = 0 := by omega
  rw [atPrompt, answer_typed]
  exact Option.some_ne_none _

/-- With 0 in `j`, the number goes to register 0 of `SR`. -/
theorem cmdWrite_writesAsShown_iff_writeSr : WritesAsShown password [] (fun _ => 0) writeSr
    ⟨some ⟨['s', 'r'], 0x60, .sr⟩, 0, 1, 1⟩ (atPrompt ['5', 'a', '\n']) :=
  (cmdWrite_writesAsShown_iff password [] (fun _ => 0) writeSr _ _ writeArgs_writeSr
    (by decide) (by decide) inside_writeSr supplied_writeSr).2 fun _ _ => rfl

/-- With 1 in `j`, it does not. -/
theorem writeSr_not_shown : ¬WritesAsShown password [] (fun _ => 1) writeSr
    ⟨some ⟨['s', 'r'], 0x60, .sr⟩, 0, 1, 1⟩ (atPrompt ['5', 'a', '\n']) := by
  intro h
  have hj := h.eq_zero writeArgs_writeSr (by decide) inside_writeSr supplied_writeSr
    (k := 0) (by decide)
  exact absurd hj (by decide)

/-- On `g` the prompt is repeated for ever. At the end of the input, what `value` holds is
written. -/
theorem writeSr_not_converted :
    ¬WritesConverted password [] (fun _ => 0) writeSr (atPrompt ['g']) ∧
      ¬WritesConverted password [] (fun _ => 0) writeSr (atPrompt []) := by
  have hcell : (cells 1 1)[0]? = some (0, 0) := by rw [cells_writeSr]; rfl
  have hstuck : answer ['g'] = .stuck := by
    rw [answer, show scanHex ['g'] = .failed ['g'] by decide]
    rfl
  refine ⟨fun h => ?_, fun h => ?_⟩
  · exact (h.answers writeArgs_writeSr hcell).1 hstuck
  · exact ((h.answers writeArgs_writeSr hcell).2 answer_nil).1 rfl

end LxToolset
