import LxToolset.SisReadCommand
import LxToolset.SisWriteCommand

/-!
# Registers past the end of a bank

The accessors compare with the length of a bank as if it were the last index, compute the
index they compare in an `int`, and never look for a negative index; `sis_write_1` does not
compare. `readAccesses_inBank_iff` and `writeStores_inBank_iff` say which indices they let
through, `commands_inBank_iff` which commands stay inside the bank they name.
-/

namespace LxToolset

/-! ## Accessors -/

/-- An access of a register that the bank has, or of its lock register. -/
def SisAccess.InBank (r : SisRegs) (a : SisAccess) : Prop :=
  ∃ idx, (a = .inIdx r.type idx ∨ ∃ v, a = .outIdx r.type idx v) ∧
    (0 ≤ idx ∧ idx < r.length ∨ lockReg r.type = some idx)

theorem SisAccess.OfLock.inBank {r : SisRegs} {a : SisAccess} (h : a.OfLock r) : a.InBank r := by
  obtain ⟨idx, hidx, ha⟩ := h
  exact ⟨idx, ha, Or.inr hidx⟩

/-- A read from this index on is refused or stays in the bank : it does not begin below it and
does not end one register past it, and its last index is an `int`. -/
def ReadFits (r : SisRegs) (width : ℕ) (idx : ℤ) : Prop :=
  0 ≤ idx ∧ idx + width ≠ r.length + 1 ∧ idx + width ≤ 2 ^ 31

/-- A write from this index on is refused or stays in the bank; one of a byte is never
refused. -/
def WriteFits (r : SisRegs) (width : ℕ) (idx : ℤ) : Prop :=
  if width = 1 then 0 ≤ idx ∧ idx < r.length else ReadFits r width idx

section Banks

variable {r : SisRegs} (hr : r ∈ sisregs)

include hr

theorem length_ge_of_mem_sisregs : 0x10 ≤ r.length := by
  simp only [sisregs, List.mem_cons, List.not_mem_nil, or_false] at hr
  rcases hr with rfl | rfl | rfl | rfl | rfl | rfl | rfl <;> decide

/-- The lock registers are in their banks. -/
theorem inside_of_lockReg {idx : ℤ} (h : lockReg r.type = some idx) :
    0 ≤ idx ∧ idx < r.length := by
  simp only [sisregs, List.mem_cons, List.not_mem_nil, or_false] at hr
  rcases hr with rfl | rfl | rfl | rfl | rfl | rfl | rfl <;> cases h <;> decide

theorem inBank_inIdx_iff {idx : ℤ} :
    (SisAccess.inIdx r.type idx).InBank r ↔ 0 ≤ idx ∧ idx < r.length := by
  refine ⟨?_, fun h => ⟨idx, Or.inl rfl, Or.inl h⟩⟩
  rintro ⟨idx', hacc, hin⟩
  obtain ⟨-, rfl⟩ | ⟨v, hv⟩ := hacc.imp SisAccess.inIdx.inj id
  · exact hin.elim id (inside_of_lockReg hr)
  · cases hv

theorem inBank_outIdx_iff {idx : ℤ} {v : UInt8} :
    (SisAccess.outIdx r.type idx v).InBank r ↔ 0 ≤ idx ∧ idx < r.length := by
  refine ⟨?_, fun h => ⟨idx, Or.inr ⟨v, rfl⟩, Or.inl h⟩⟩
  rintro ⟨idx', hacc, hin⟩
  obtain hv | ⟨v', hv⟩ := hacc
  · cases hv
  · obtain ⟨-, rfl, -⟩ := SisAccess.outIdx.inj hv
    exact hin.elim id (inside_of_lockReg hr)

variable {width : ℕ} (hw : width = 1 ∨ width = 2 ∨ width = 4) {idx : ℤ} (hge : -2 ^ 31 ≤ idx)
  (hlt : idx < 2 ^ 31)

include hw hge hlt

theorem readFits_iff : ReadFits r width idx ↔
    ReadRefused r width idx ∨ 0 ≤ idx ∧ idx + width ≤ r.length := by
  have hmin := length_ge_of_mem_sisregs hr
  have hmax := length_le_of_mem_sisregs hr
  unfold ReadFits ReadRefused
  rcases hw with rfl | rfl | rfl
  · rw [if_pos rfl]
    omega
  · rw [if_neg (by omega), int32_def]
    split_ifs <;> omega
  · rw [if_neg (by omega), int32_def]
    split_ifs <;> omega

theorem readAccesses_inBank_iff :
    (∀ a ∈ readAccesses r width idx, a.InBank r) ↔ ReadFits r width idx := by
  rw [readFits_iff hr hw hge hlt, readAccesses]
  split_ifs with h
  · simp [h]
  · simp only [List.mem_map, List.mem_range, forall_exists_index, and_imp, forall_apply_eq_imp_iff₂,
      inBank_inIdx_iff hr, h, false_or]
    refine ⟨fun hall => ?_, fun hin n hn => by omega⟩
    have hfirst := hall 0 (by omega)
    have hlast := hall (width - 1) (by omega)
    omega

theorem writeStores_inBank_iff (v : BitVec 32) :
    (∀ a ∈ writeStores (some r) idx width v, a.InBank r) ↔ WriteFits r width idx := by
  have hrefused : WriteRefused (some r) idx width ↔ width ≠ 1 ∧ ReadRefused r width idx := by
    refine and_congr_right fun h1 => ?_
    rw [past_some, ReadRefused, if_neg h1]
  have hfits : WriteFits r width idx ↔
      WriteRefused (some r) idx width ∨ 0 ≤ idx ∧ idx + width ≤ r.length := by
    rw [hrefused, WriteFits]
    split_ifs with h1
    · subst h1
      simp only [ne_eq, not_true_eq_false, false_and, false_or, Nat.cast_one, Int.lt_iff_add_one_le]
    · rw [readFits_iff hr hw hge hlt]
      simp [h1]
  rw [hfits, writeStores]
  split_ifs with h
  · simp [h]
  · simp only [storesAt, storeAccess, List.mem_map, List.mem_range, forall_exists_index, and_imp,
      forall_apply_eq_imp_iff₂, inBank_outIdx_iff hr, h, false_or]
    refine ⟨fun hall => ?_, fun hin n hn => by omega⟩
    have hfirst := hall 0 (by omega)
    have hlast := hall (width - 1) (by omega)
    omega

end Banks

/-! ## Runs -/

/-- From `s` to `s'` accesses are made, all of them in the bank exactly if `p`. -/
def Accesses (r : SisRegs) (s s' : SisState) (p : Prop) : Prop :=
  ∃ l, s'.accesses = s.accesses ++ l ∧ ((∀ a ∈ l, a.InBank r) ↔ p)

section Accesses

variable {r : SisRegs} {s s' s'' : SisState} {p q : Prop}

theorem Accesses.refl (r : SisRegs) (s : SisState) : Accesses r s s True :=
  ⟨[], (List.append_nil _).symm, by simp⟩

theorem Accesses.trans (h : Accesses r s s' p) (h' : Accesses r s' s'' q) :
    Accesses r s s'' (p ∧ q) := by
  obtain ⟨l, hl, hp⟩ := h
  obtain ⟨l', hl', hq⟩ := h'
  refine ⟨l ++ l', by rw [hl', hl, List.append_assoc], ?_⟩
  rw [List.forall_mem_append, hp, hq]

theorem Accesses.congr (h : Accesses r s s' p) (hpq : p ↔ q) : Accesses r s s' q := by
  obtain ⟨l, hl, hp⟩ := h
  exact ⟨l, hl, hp.trans hpq⟩

/-- What was accessed since `s` is in the bank. -/
def InBankSince (r : SisRegs) (s s' : SisState) : Prop :=
  ∀ a ∈ s'.accesses.drop s.accesses.length, a.InBank r

theorem Accesses.inBankSince_iff (h : Accesses r s s' p) : InBankSince r s s' ↔ p := by
  obtain ⟨l, hl, hp⟩ := h
  rw [InBankSince, hl, List.drop_left, hp]

theorem accesses_of_touchesLock {m : SisM Unit} (h : TouchesLock r m) (s : SisState) :
    Accesses r s (m.run s).2 True := by
  obtain ⟨l, hl, -, hlock⟩ := h s
  exact ⟨l, hl, by simpa using fun a ha => (hlock a ha).inBank⟩

end Accesses

/-! ## The command read -/

/-- The values of the command are read inside the bank or not at all : there are none, or
the first is not below the bank, the last is at an `int`, and none ends one register past
the bank. -/
def ReadArgs.Fits (a : ReadArgs) : Prop :=
  valueCount a.count a.width = 0 ∨
    0 ≤ a.start ∧ a.start + valueCount a.count a.width * a.width ≤ 2 ^ 31 ∧
      ∀ k < valueCount a.count a.width, a.start + k * a.width + a.width ≠ a.regs.length + 1

section Read

variable {beyond : List Char} {argv : List (List Char)} {a : ReadArgs}

theorem start_range (ha : readArgs beyond argv = some a) :
    -2 ^ 31 ≤ a.start ∧ a.start < 2 ^ 31 := by
  unfold readArgs at ha
  split at ha
  · split_ifs at ha
    obtain ⟨r, -, rfl⟩ := Option.map_eq_some_iff.1 ha
    dsimp only
    split
    · exact strtol_range _
    · omega
  · cases ha

/-- Values that fit go up from the start without passing the largest `int`. -/
theorem end_le_of_readFits {r : SisRegs} {start : ℤ} {width n : ℕ} (hge : -2 ^ 31 ≤ start)
    (hlt : start < 2 ^ 31) (h : ∀ k < n, ReadFits r width (int32 (start + k * width)))
    {k : ℕ} (hk : k ≤ n) (hne : k ≠ 0) : 0 ≤ start ∧ start + k * width ≤ 2 ^ 31 := by
  induction k with
  | zero => exact absurd rfl hne
  | succ k ih =>
    have hfits := h k (by omega)
    have hpos : (0 : ℤ) ≤ k * width := by positivity
    have hcast : ((k + 1 : ℕ) * width : ℤ) = k * width + width := by
      rw [Nat.cast_succ, add_mul, one_mul]
    rcases Nat.eq_zero_or_pos k with rfl | hk0
    · rw [Nat.cast_zero, zero_mul, add_zero, int32_of_lt hge hlt] at hfits
      obtain ⟨h0, -, hend⟩ := hfits
      omega
    · obtain ⟨hstart, hend⟩ := ih (by omega) (by omega)
      obtain ⟨h0, -, hend'⟩ := hfits
      rw [int32_def] at h0 hend'
      refine ⟨hstart, ?_⟩
      split_ifs at h0 hend' <;> omega

/-- The addresses of the values fit if the first, the last and those at the end do. -/
theorem fits_iff (ha : readArgs beyond argv = some a) : a.Fits ↔
    ∀ k < valueCount a.count a.width,
      ReadFits a.regs a.width (int32 (a.start + k * a.width)) := by
  obtain ⟨hge, hlt⟩ := start_range ha
  obtain ⟨-, hw, -⟩ := cmdRead_eq ha plainStorage openChip
  set n := valueCount a.count a.width with hn
  have hle : ∀ k < n, (k * a.width + a.width : ℤ) ≤ n * a.width := fun k hk => by
    have hmul : ((k + 1 : ℕ) * a.width : ℤ) ≤ n * a.width :=
      mul_le_mul_of_nonneg_right (by omega) (by omega)
    rwa [Nat.cast_succ, add_mul, one_mul] at hmul
  rw [ReadArgs.Fits, ← hn]
  constructor
  · rintro (h0 | ⟨hstart, hend, hne⟩) k hk
    · omega
    · have hpos : (0 : ℤ) ≤ k * a.width := by positivity
      have hk' := hle k hk
      rw [int32_of_lt (by omega) (by omega)]
      exact ⟨by omega, hne k hk, by omega⟩
  · intro h
    rcases Nat.eq_zero_or_pos n with h0 | hpos
    · exact Or.inl h0
    · obtain ⟨hstart, hend⟩ := end_le_of_readFits hge hlt h le_rfl (by omega)
      refine Or.inr ⟨hstart, hend, fun k hk => ?_⟩
      have hk' := hle k hk
      have hkpos : (0 : ℤ) ≤ k * a.width := by positivity
      have hfits := h k hk
      rw [int32_of_lt (by omega) (by omega)] at hfits
      exact hfits.2.1

/-- A read command accesses registers of its bank only, exactly if its values fit. -/
theorem cmdRead_inBank_iff (ha : readArgs beyond argv = some a) (pw : Readback) (s : SisState) :
    InBankSince a.regs s ((cmdRead pw beyond argv).run s).2 ↔ a.Fits := by
  obtain ⟨hr, hw, -⟩ := cmdRead_eq ha pw s
  obtain ⟨-, unlock, lock, hlock, haccesses⟩ := cmdRead_dump ha pw s
  rw [fits_iff ha]
  refine Accesses.inBankSince_iff ⟨_, haccesses, ?_⟩
  rw [values_dumpedLines _ _ _ _ _ hw]
  have hlock : ∀ x ∈ unlock ++ lock, x.InBank a.regs := fun x hx => (hlock x hx).inBank
  have hread : ∀ k : ℕ, (∀ x ∈ readAccesses a.regs a.width (int32 (a.start + k * a.width)),
      x.InBank a.regs) ↔ ReadFits a.regs a.width (int32 (a.start + k * a.width)) := fun k =>
    readAccesses_inBank_iff hr hw (int32_range _).1 (int32_range _).2
  simp only [List.forall_mem_append] at hlock ⊢
  simp only [List.mem_flatMap, List.mem_map, List.mem_range, forall_exists_index, and_imp,
    forall_apply_eq_imp_iff₂, valueAt]
  exact ⟨fun h k hk => (hread k).1 fun x hx => h.1.2 x k hk hx, fun h =>
    ⟨⟨hlock.1, fun x k hk hx => (hread k).2 (h k hk) x hx⟩, hlock.2⟩⟩

end Read

/-! ## The command write -/

/-- The first `k` rounds of the command. -/
def rounds (pw : Password) (a : WriteArgs) (j : ℕ → BitVec 32) (n k : ℕ) : DebugM Unit := do
  onChip (unlockBank pw a.custom)
  ((cells a.count a.width).take k).forM fun cell =>
    pokeCell pw a.custom a.start a.width (j cell.1) n cell.1 cell.2

/-- The states of the chip that a write command passes through, also if it never returns :
after some of its rounds, at the prompt of the next, and at its end. -/
inductive ChipReached (pw : Password) (beyond : List Char) (j : ℕ → BitVec 32)
    (argv : List (List Char)) (a : WriteArgs) (s : DebugState) : SisState → Prop where
  | round {n k : ℕ} {s' : DebugState} (h : rounds pw a j n k s = some ((), s')) :
      ChipReached pw beyond j argv a s s'.chip
  | prompt {n k : ℕ} {s' : DebugState} {cell : ℕ × ℕ} (h : rounds pw a j n k s = some ((), s'))
      (hcell : (cells a.count a.width)[k]? = some cell) : ChipReached pw beyond j argv a s
        ((sisRead pw a.width a.custom (int32 (cellAddr a.start a.width cell.1 cell.2))).run
          s'.chip).2
  | done {n : ℕ} {ret : ℤ} {s' : DebugState} (h : cmdWrite pw beyond j n argv s = some (ret, s')) :
      ChipReached pw beyond j argv a s s'.chip

/-- The round of a cell reads and writes inside the bank or not at all. -/
def RoundFits (r : SisRegs) (start : ℤ) (width : ℕ) (j : ℕ → BitVec 32) (cell : ℕ × ℕ) : Prop :=
  ReadFits r width (int32 (cellAddr start width cell.1 cell.2)) ∧
    WriteFits r width (int32 (cellAddr start width cell.1 cell.2 + (j cell.1).toInt))

/-- As far as the prompts are answered, the values are read and written inside the bank or not
at all. -/
def WriteArgs.Fits (r : SisRegs) (j : ℕ → BitVec 32) (stdin : List Char) (a : WriteArgs) : Prop :=
  ∀ k cell, (cells a.count a.width)[k]? = some cell → (∀ i < k, answerAt stdin i ≠ .stuck) →
    ReadFits r a.width (int32 (cellAddr a.start a.width cell.1 cell.2)) ∧
      (answerAt stdin k ≠ .stuck → WriteFits r a.width
        (int32 (cellAddr a.start a.width cell.1 cell.2 + (j cell.1).toInt)))

section Write

variable {r : SisRegs} (hr : r ∈ sisregs) {width : ℕ} (hw : width = 1 ∨ width = 2 ∨ width = 4)
  {pw : Password} {start : ℤ} {j : ℕ → BitVec 32} {n : ℕ}

include hr hw

/-- The read of a round. -/
theorem accesses_of_sisRead (z : ℤ) (s : SisState) :
    Accesses r s ((sisRead pw width (some r) (int32 z)).run s).2 (ReadFits r width (int32 z)) := by
  rw [sisRead_run _ _ _ _ hw]
  exact ⟨_, rfl, readAccesses_inBank_iff hr hw (int32_range z).1 (int32_range z).2⟩

/-- A round that returns has read and written its value. -/
theorem accesses_of_pokeCell {cell : ℕ × ℕ} {s s' : DebugState}
    (h : pokeCell pw (some r) start width (j cell.1) n cell.1 cell.2 s = some ((), s')) :
    Accesses r s.chip s'.chip (RoundFits r start width j cell) := by
  obtain ⟨p, hstep⟩ := pokeStep_of_pokeCell hw h
  obtain ⟨m, rfl⟩ := hstep.poke
  refine ⟨_, hstep.accesses, ?_⟩
  rw [pokeAt, loads_some, List.forall_mem_append]
  exact and_congr (readAccesses_inBank_iff hr hw (int32_range _).1 (int32_range _).2)
    (writeStores_inBank_iff hr hw (int32_range _).1 (int32_range _).2 _)

/-- The rounds that return have read and written their values. -/
theorem accesses_of_forM (l : List (ℕ × ℕ)) {s s' : DebugState} (h : (l.forM fun cell =>
      pokeCell pw (some r) start width (j cell.1) n cell.1 cell.2) s = some ((), s')) :
    Accesses r s.chip s'.chip (∀ cell ∈ l, RoundFits r start width j cell) := by
  induction l generalizing s with
  | nil =>
    cases h
    exact (Accesses.refl r _).congr (by simp)
  | cons cell l ih =>
    obtain ⟨⟨⟨⟩, s₁⟩, hcell, hrest⟩ := Option.bind_eq_some_iff.1 h
    exact ((accesses_of_pokeCell hr hw hcell).trans (ih hrest)).congr List.forall_mem_cons.symm

end Write

section WriteCommand

variable {beyond : List Char} {argv : List (List Char)} {a : WriteArgs} {r : SisRegs}
  {pw : Password} {j : ℕ → BitVec 32} {s : DebugState}

variable (ha : writeArgs beyond argv = some a)

include ha

/-- The prompts of rounds that return were answered. -/
theorem ne_stuck_of_rounds {n k : ℕ} {s' : DebugState} (h : rounds pw a j n k s = some ((), s')) :
    ∀ i < ((cells a.count a.width).take k).length, answerAt s.stdin i ≠ .stuck := by
  have hleft : leftAt s.stdin ((cells a.count a.width).take k).length = some s'.stdin :=
    leftAt_of_forM (s := { s with chip := ((unlockBank pw a.custom).run s.chip).2 })
      (width_of_writeArgs ha) n _ h
  exact ne_stuck_of_leftAt hleft

variable (pw j) in
/-- Rounds whose prompts are answered return. -/
theorem rounds_return {k : ℕ} (h : ∀ i < k, answerAt s.stdin i ≠ .stuck) :
    ∃ s', rounds pw a j (s.stdin.length + 1) k s = some ((), s') := by
  refine forM_returns pw a.custom a.start j (width_of_writeArgs ha) _
    (s := { s with chip := ((unlockBank pw a.custom).run s.chip).2 }) (Nat.lt_succ_self _)
    fun i hi => h i ?_
  rw [List.length_take] at hi
  omega

/-- A command that returns has gone through all rounds. -/
theorem rounds_of_cmdWrite {n : ℕ} {ret : ℤ} {s' : DebugState}
    (h : cmdWrite pw beyond j n argv s = some (ret, s')) :
    ∃ s₁, rounds pw a j n (cells a.count a.width).length s = some ((), s₁) ∧
      s'.chip = ((lockBank pw a.custom).run s₁.chip).2 := by
  obtain ⟨-, s₁, hrows, rfl⟩ := forM_of_cmdWrite ha h
  rw [← List.take_length (l := cells a.count a.width)] at hrows
  exact ⟨s₁, hrows, rfl⟩

variable (hc : a.custom = some r)

include hc

/-- Rounds that return have read and written their values, in a bank that was unlocked. -/
theorem accesses_of_rounds {n k : ℕ} {s' : DebugState}
    (h : rounds pw a j n k s = some ((), s')) : Accesses r s.chip s'.chip
      (∀ cell ∈ (cells a.count a.width).take k, RoundFits r a.start a.width j cell) := by
  have hr := mem_sisregs_of_writeArgs ha hc
  have hunlock := accesses_of_touchesLock (sisUnlock_touchesLock pw r) s.chip
  have hrows : (((cells a.count a.width).take k).forM fun cell => pokeCell pw a.custom a.start
      a.width (j cell.1) n cell.1 cell.2)
        { s with chip := ((unlockBank pw a.custom).run s.chip).2 } = some ((), s') := h
  rw [hc] at hrows
  exact (hunlock.trans (accesses_of_forM hr (width_of_writeArgs ha) _ hrows)).congr (by simp)

/-- A write command accesses registers of its bank only, at whatever point of its run, exactly
if its values fit. -/
theorem cmdWrite_inBank_iff :
    (∀ chip, ChipReached pw beyond j argv a s chip → InBankSince r s.chip chip) ↔
      a.Fits r j s.stdin := by
  have hr := mem_sisregs_of_writeArgs ha hc
  have hw := width_of_writeArgs ha
  have hprompt : ∀ cell : ℕ × ℕ, ∀ s' : SisState, Accesses r s' ((sisRead pw a.width a.custom
      (int32 (cellAddr a.start a.width cell.1 cell.2))).run s').2
        (ReadFits r a.width (int32 (cellAddr a.start a.width cell.1 cell.2))) := fun cell s' => by
    rw [hc]
    exact accesses_of_sisRead hr hw _ s'
  constructor
  · intro h k cell hcell hanswered
    obtain ⟨s₁, hs₁⟩ := rounds_return pw j ha hanswered
    have hread := ((accesses_of_rounds ha hc hs₁).trans (hprompt cell _)).inBankSince_iff.1
      (h _ (.prompt hs₁ hcell))
    refine ⟨hread.2, fun hk => ?_⟩
    have hanswered' : ∀ i < k + 1, answerAt s.stdin i ≠ .stuck := fun i hi => by
      rcases Nat.lt_succ_iff_lt_or_eq.1 hi with hlt | rfl
      · exact hanswered i hlt
      · exact hk
    obtain ⟨s₂, hs₂⟩ := rounds_return pw j ha hanswered'
    have hround := (accesses_of_rounds ha hc hs₂).inBankSince_iff.1 (h _ (.round hs₂))
    have hmem : cell ∈ (cells a.count a.width).take (k + 1) :=
      List.mem_of_getElem? (i := k) (by rw [List.getElem?_take_of_lt (Nat.lt_succ_self k), hcell])
    exact (hround cell hmem).2
  · intro h chip hchip
    have hall : ∀ n k s', rounds pw a j n k s = some ((), s') →
        ∀ cell ∈ (cells a.count a.width).take k, RoundFits r a.start a.width j cell := by
      intro n k s' hs' cell hcell
      have hanswered := ne_stuck_of_rounds ha hs'
      obtain ⟨i, hi, rfl⟩ := List.getElem_of_mem hcell
      have hget : (cells a.count a.width)[i]? = some (((cells a.count a.width).take k)[i]) := by
        rw [List.getElem_take, List.getElem?_eq_getElem]
      obtain ⟨hread, hwrite⟩ := h i _ hget fun i' hi' => hanswered i' (by omega)
      exact ⟨hread, hwrite (hanswered i hi)⟩
    rcases hchip with ⟨hs'⟩ | ⟨hs', hcell⟩ | ⟨hdone⟩
    · exact (accesses_of_rounds ha hc hs').inBankSince_iff.2 (hall _ _ _ hs')
    · refine ((accesses_of_rounds ha hc hs').trans (hprompt _ _)).inBankSince_iff.2
        ⟨hall _ _ _ hs', (h _ _ hcell fun i hi => ?_).1⟩
      have hk := (List.getElem?_eq_some_iff.1 hcell).1
      exact ne_stuck_of_rounds ha hs' i (by rwa [List.length_take_of_le hk.le])
    · obtain ⟨s₁, hs₁, hlock⟩ := rounds_of_cmdWrite ha hdone
      rw [hlock, hc]
      exact ((accesses_of_rounds ha hc hs₁).trans (accesses_of_touchesLock
        (sisLock_touchesLock pw r) _)).inBankSince_iff.2 ⟨hall _ _ _ hs₁, trivial⟩

end WriteCommand

/-- The commands on a bank access no register outside of it, exactly if the values that they
read and write fit. -/
theorem commands_inBank_iff (pw : Password) (beyond : List Char) (argv : List (List Char))
    (j : ℕ → BitVec 32) (s : DebugState) :
    (∀ a ∈ readArgs beyond argv,
      (InBankSince a.regs s.chip ((cmdRead pw beyond argv).run s.chip).2 ↔ a.Fits)) ∧
    ∀ a ∈ writeArgs beyond argv, ∀ r ∈ a.custom,
      ((∀ chip, ChipReached pw beyond j argv a s chip → InBankSince r s.chip chip) ↔
        a.Fits r j s.stdin) :=
  ⟨fun _ ha => cmdRead_inBank_iff ha pw s.chip, fun _ ha _ hc => cmdWrite_inBank_iff ha hc⟩

theorem readArgs_writeSr : readArgs [] writeSr = some ⟨⟨['s', 'r'], 0x60, .sr⟩, 0, 1, 1⟩ := by
  decide

/-- At register 0 of `SR`. -/
theorem commands_inBank_iff_writeSr :
    InBankSince ⟨['s', 'r'], 0x60, .sr⟩ openChip ((cmdRead password [] writeSr).run openChip).2 ∧
    ∀ chip, ChipReached password [] (fun _ => 0) writeSr ⟨some ⟨['s', 'r'], 0x60, .sr⟩, 0, 1, 1⟩
      (atPrompt ['5', 'a', '\n']) chip → InBankSince ⟨['s', 'r'], 0x60, .sr⟩ openChip chip := by
  obtain ⟨hread, hwrite⟩ := commands_inBank_iff password [] writeSr (fun _ => 0)
    (atPrompt ['5', 'a', '\n'])
  refine ⟨(hread _ readArgs_writeSr).2 ?_, (hwrite _ writeArgs_writeSr _ rfl).2 ?_⟩
  · refine Or.inr ⟨le_rfl, by decide, fun k hk => ?_⟩
    obtain rfl : k = 0 := Nat.lt_one_iff.1 hk
    decide
  · intro k cell hcell _
    obtain ⟨rfl, rfl⟩ : k = 0 ∧ cell = (0, 0) := by
      dsimp only at hcell
      rw [cells_writeSr] at hcell
      obtain ⟨hk, hcell⟩ := List.getElem?_eq_some_iff.1 hcell
      obtain rfl : k = 0 := Nat.lt_one_iff.1 hk
      exact ⟨rfl, hcell.symm⟩
    exact ⟨⟨by decide, by decide, by decide⟩, fun _ => ⟨by decide, by decide⟩⟩

/-- `read/1b sr 96` reads the register after the last, and `write/1b sr 200` writes a register
far past it. -/
theorem commands_not_inBank :
    ¬InBankSince ⟨['s', 'r'], 0x60, .sr⟩ openChip ((cmdRead password []
      [['r', 'e', 'a', 'd', '/', '1', 'b'], ['s', 'r'], ['9', '6']]).run openChip).2 ∧
    ¬∀ chip, ChipReached password [] (fun _ => 0)
      [['w', 'r', 'i', 't', 'e', '/', '1', 'b'], ['s', 'r'], ['2', '0', '0']]
      ⟨some ⟨['s', 'r'], 0x60, .sr⟩, 200, 1, 1⟩ (atPrompt ['5', 'a', '\n']) chip →
        InBankSince ⟨['s', 'r'], 0x60, .sr⟩ openChip chip := by
  refine ⟨fun h => ?_, fun h => ?_⟩
  · have ha : readArgs [] [['r', 'e', 'a', 'd', '/', '1', 'b'], ['s', 'r'], ['9', '6']] =
        some ⟨⟨['s', 'r'], 0x60, .sr⟩, 96, 1, 1⟩ := by decide
    obtain h0 | ⟨-, -, hne⟩ := (cmdRead_inBank_iff ha password openChip).1 h
    · exact absurd h0 (by decide)
    · exact hne 0 (by decide) rfl
  · have hfits : WriteArgs.Fits ⟨['s', 'r'], 0x60, .sr⟩ (fun _ => 0) ['5', 'a', '\n']
        ⟨some ⟨['s', 'r'], 0x60, .sr⟩, 200, 1, 1⟩ :=
      (cmdWrite_inBank_iff (by decide) rfl).1 h
    have hcell : (cells 1 1)[0]? = some (0, 0) := by rw [cells_writeSr]; rfl
    have hanswer : answerAt ['5', 'a', '\n'] 0 ≠ .stuck := fun hstuck => by
      have htyped := answer_typed
      rw [hstuck] at htyped
      cases htyped
    exact absurd ((hfits 0 (0, 0) hcell (by simp)).2 hanswer).2 (by decide)

end LxToolset
