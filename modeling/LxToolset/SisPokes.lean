import LxToolset.SisAccessors

/-!
# What the command write writes

`answer` is what the retry loop of `cmd_write` gets from a text, `answerAt` what it gets for
each prompt in turn. `pokes_of_forM` says what the rounds of the loops do : what they print,
what they load and what they store, with nothing else between them.
-/

namespace LxToolset

open Memory

/-! ## The retry loop -/

/-- What comes of a prompt : a number, the end of the input, or no end of retries. -/
inductive Answer where
  | converted (v : BitVec 32) (rest : List Char)
  | ended
  | stuck
  deriving DecidableEq

/-- The answer in a text. A conversion that fails without taking anything fails again. -/
def answer (text : List Char) : Answer :=
  match scanHex text with
  | .converted v rest => .converted v rest
  | .ended => .ended
  | .failed rest => if rest.length < text.length then answer rest else .stuck
  termination_by text.length

/-- The answer to prompt `k`. -/
def answerAt (text : List Char) : ℕ → Answer
  | 0 => answer text
  | k + 1 =>
    match answer text with
    | .converted _ rest => answerAt rest k
    | .ended => .ended
    | .stuck => .stuck

/-- The number converted, if any. -/
def Answer.typed : Answer → Option (BitVec 32)
  | .converted v _ => some v
  | _ => none

/-- What the answer leaves of the text. -/
def Answer.left : Answer → Option (List Char)
  | .converted _ rest => some rest
  | .ended => some []
  | .stuck => none

/-- What the answers to `n` prompts leave of a text. -/
def leftAt (text : List Char) : ℕ → Option (List Char)
  | 0 => some text
  | n + 1 => (answer text).left.bind (leftAt · n)

theorem answer_nil : answer [] = .ended := by
  rw [answer]
  rfl

theorem answerAt_nil (k : ℕ) : answerAt [] k = .ended := by
  cases k <;> simp [answerAt, answer_nil]

/-- A number converted has a digit, and what it leaves follows it. -/
theorem digit_of_answer {text rest : List Char} {v : BitVec 32}
    (h : answer text = .converted v rest) :
    ∃ c mid, isHexDigit c = true ∧ c :: mid <:+ text ∧ rest <:+ mid := by
  fun_induction answer text with
  | case1 text v' rest' hs =>
    cases h
    exact digit_of_scanHex hs
  | case2 => cases h
  | case3 text rest' hs hlt ih =>
    obtain ⟨c, mid, hc, hmid, hrest⟩ := ih h
    exact ⟨c, mid, hc, hmid.trans (suffix_of_scanHex (Or.inr hs)), hrest⟩
  | case4 => cases h

theorem left_eq_none_iff {x : Answer} : x.left = none ↔ x = .stuck := by
  cases x <;> simp [Answer.left]

section Left

variable {text rest : List Char} (h : (answer text).left = some rest)

include h

theorem ne_stuck_of_left : answer text ≠ .stuck := by
  rw [Ne, ← left_eq_none_iff, h]
  exact Option.some_ne_none _

theorem suffix_of_left : rest <:+ text := by
  rcases hans : answer text with ⟨v, rest'⟩ | _ | _ <;> rw [hans] at h <;> cases h
  · obtain ⟨c, mid, -, hmid, hrest⟩ := digit_of_answer hans
    exact hrest.trans ((List.suffix_cons _ _).trans hmid)
  · exact List.nil_suffix

/-- The later prompts are answered from what is left. -/
theorem answerAt_succ (k : ℕ) : answerAt text (k + 1) = answerAt rest k := by
  rcases hans : answer text with ⟨v, rest'⟩ | _ | _ <;> rw [hans] at h <;> cases h
  · simp only [answerAt, hans]
  · simp only [answerAt, hans, answerAt_nil]

end Left

theorem suffix_of_leftAt {text rest : List Char} {k : ℕ} (h : leftAt text k = some rest) :
    rest <:+ text := by
  induction k generalizing text with
  | zero =>
    cases h
    exact List.suffix_rfl
  | succ k ih =>
    obtain ⟨mid, hmid, hrest⟩ := Option.bind_eq_some_iff.1 h
    exact (ih hrest).trans (suffix_of_left hmid)

/-- Prompts that leave something have taken a digit. -/
theorem digit_of_leftAt {text rest : List Char} {k : ℕ} (h : leftAt text k = some rest)
    (hk : k ≠ 0) (hrest : rest ≠ []) :
    ∃ c mid, isHexDigit c = true ∧ c :: mid <:+ text ∧ rest <:+ mid := by
  obtain ⟨k, rfl⟩ := Nat.exists_eq_succ_of_ne_zero hk
  obtain ⟨left, hleft, hlast⟩ := Option.bind_eq_some_iff.1 h
  have hsuffix := suffix_of_leftAt hlast
  rcases hans : answer text with ⟨v, rest'⟩ | _ | _ <;> rw [hans] at hleft <;> cases hleft
  · obtain ⟨c, mid, hc, hmid, hend⟩ := digit_of_answer hans
    exact ⟨c, mid, hc, hmid, hsuffix.trans hend⟩
  · exact absurd (List.suffix_nil.1 hsuffix) hrest

/-- As far as something is left, no answer is stuck. -/
theorem ne_stuck_of_leftAt {text rest : List Char} {n : ℕ} (h : leftAt text n = some rest)
    (k : ℕ) (hk : k < n) : answerAt text k ≠ .stuck := by
  induction n generalizing text k with
  | zero => omega
  | succ n ih =>
    obtain ⟨mid, hmid, hrest⟩ := Option.bind_eq_some_iff.1 h
    cases k with
    | zero => exact ne_stuck_of_left hmid
    | succ k =>
      rw [answerAt_succ hmid]
      exact ih hrest k (Nat.lt_of_succ_lt_succ hk)

/-- The state after an answer. -/
def DebugState.answered (s : DebugState) (out : List Char) :
    Option (Option (BitVec 32) × DebugState) :=
  (answer s.stdin).left.map fun rest => ((answer s.stdin).typed,
    ⟨{ s.chip with out := out }, rest, (answer s.stdin).typed.getD s.value, s.pokes⟩)

theorem ask_succ (prompt : List Char) (n : ℕ) (s : DebugState) : ask prompt (n + 1) s =
    match scanHex s.stdin with
    | .converted v rest =>
      some (some v, ⟨{ s.chip with out := s.chip.out ++ prompt }, rest, v, s.pokes⟩)
    | .ended => some (none, ⟨{ s.chip with out := s.chip.out ++ prompt }, [], s.value, s.pokes⟩)
    | .failed rest =>
      ask prompt n ⟨{ s.chip with out := s.chip.out ++ prompt }, rest, s.value, s.pokes⟩ := by
  rw [ask]
  change (match scanHex s.stdin with
    | .converted v rest => _
    | .ended => _
    | .failed rest => _ : DebugM (Option (BitVec 32))) _ = _
  cases scanHex s.stdin <;> rfl

/-- A conversion that takes nothing is tried for ever. -/
theorem ask_of_failed {prompt : List Char} {s : DebugState} (h : scanHex s.stdin = .failed s.stdin)
    (n : ℕ) : ask prompt n s = none := by
  induction n generalizing s with
  | zero => rfl
  | succ n ih =>
    rw [ask_succ, h]
    exact ih (s := ⟨_, s.stdin, s.value, s.pokes⟩) h

/-- The retry loop gets the answer after some prompts, or has too few attempts. -/
theorem ask_eq (prompt : List Char) (n : ℕ) (s : DebugState) : ∃ m, ask prompt n s =
      s.answered (s.chip.out ++ (List.replicate (m + 1) prompt).flatten) ∨
    ask prompt n s = none ∧ n ≤ s.stdin.length := by
  have hone : (List.replicate (0 + 1) prompt).flatten = prompt := by simp
  induction n generalizing s with
  | zero => exact ⟨0, Or.inr ⟨rfl, Nat.zero_le _⟩⟩
  | succ n ih =>
    simp only [ask_succ, DebugState.answered]
    rw [answer]
    rcases hs : scanHex s.stdin with ⟨v, rest⟩ | rest | _
    · exact ⟨0, Or.inl (by rw [hone]; rfl)⟩
    · dsimp only
      by_cases hlt : rest.length < s.stdin.length
      · simp only [if_pos hlt]
        obtain ⟨m, ho | ⟨hn, hle⟩⟩ :=
          ih ⟨{ s.chip with out := s.chip.out ++ prompt }, rest, s.value, s.pokes⟩
        · have hout : s.chip.out ++ (List.replicate (m + 1 + 1) prompt).flatten =
              s.chip.out ++ prompt ++ (List.replicate (m + 1) prompt).flatten := by
            rw [List.replicate_succ, List.flatten_cons, List.append_assoc]
          refine ⟨m + 1, Or.inl (ho.trans ?_)⟩
          rw [hout]
          rfl
        · exact ⟨0, Or.inr ⟨hn, by dsimp only at hle; omega⟩⟩
      · have heq : rest = s.stdin :=
          (suffix_of_scanHex (Or.inr hs)).eq_of_length_le (not_lt.1 hlt)
        subst heq
        refine ⟨0, Or.inl ?_⟩
        simp only [lt_irrefl, if_false]
        exact ask_of_failed
          (s := ⟨{ s.chip with out := s.chip.out ++ prompt }, s.stdin, s.value, s.pokes⟩) hs n
    · exact ⟨0, Or.inl (by rw [hone]; rfl)⟩

/-! ## Loads -/

/-- The access stores something. -/
def SisAccess.isStore : SisAccess → Bool
  | .outIdx .. | .outPort .. => true
  | _ => false

/-- What a byte of the bank or port reads. -/
def inByteAt (pw : Readback) (custom : Option SisRegs) (s : SisState) (idx : ℤ) : UInt8 :=
  match custom with
  | some r => readReg pw s.regs r.type idx
  | none => s.ports idx

/-- The value of the bytes from an address on. -/
def valueFrom (pw : Readback) (custom : Option SisRegs) (s : SisState) (idx : ℤ) (width : ℕ) :
    BitVec 32 :=
  BitVec.ofNat 32 (word (fun n => inByteAt pw custom s (idx + n)) 0 width)

/-- The load of a byte of the bank or port. -/
def loadAccess (custom : Option SisRegs) (idx : ℤ) : SisAccess :=
  match custom with
  | some r => .inIdx r.type idx
  | none => .inPort idx

/-- The loads of the bytes from an address on. -/
def loadsAt (custom : Option SisRegs) (idx : ℤ) (width : ℕ) : List SisAccess :=
  (List.range width).map fun n : ℕ => loadAccess custom (idx + n)

/-- The read is one that the accessors refuse. -/
def LoadRefused (custom : Option SisRegs) (idx : ℤ) (width : ℕ) : Prop :=
  ∃ r ∈ custom, ReadRefused r width idx

instance (custom : Option SisRegs) (idx : ℤ) (width : ℕ) :
    Decidable (LoadRefused custom idx width) :=
  inferInstanceAs (Decidable (∃ r ∈ custom, ReadRefused r width idx))

/-- The value of a read. -/
def loadedValue (pw : Readback) (custom : Option SisRegs) (s : SisState) (idx : ℤ) (width : ℕ) :
    BitVec 32 :=
  if LoadRefused custom idx width then 0 else valueFrom pw custom s idx width

/-- The loads of a read. -/
def loads (custom : Option SisRegs) (idx : ℤ) (width : ℕ) : List SisAccess :=
  if LoadRefused custom idx width then [] else loadsAt custom idx width

section Loads

variable {pw : Readback} {custom : Option SisRegs} {width : ℕ}

theorem inByte_run (idx : ℤ) (s : SisState) : (inByte pw custom idx).run s =
    ((inByteAt pw custom s idx).toBitVec.setWidth 32,
      { s with accesses := s.accesses ++ [loadAccess custom idx] }) := by
  cases custom <;> rfl

/-- A value, from its bytes. -/
theorem eq_valueFrom {idx : ℤ} {s : SisState} {v : BitVec 32}
    (h : v.toNat = word (fun n => inByteAt pw custom s (idx + n)) 0 width) :
    v = valueFrom pw custom s idx width := by
  rw [valueFrom, ← h, BitVec.ofNat_toNat, BitVec.setWidth_eq]

/-- What a read gives and what it loads. -/
theorem sisRead_eq (hw : width = 1 ∨ width = 2 ∨ width = 4) (custom : Option SisRegs) (idx : ℤ)
    (s : SisState) : (sisRead pw width custom idx).run s = (loadedValue pw custom s idx width,
      { s with accesses := s.accesses ++ loads custom idx width }) := by
  simp only [loadedValue, loads]
  rcases hw with rfl | rfl | rfl
  · have hpast : past custom idx ↔ LoadRefused custom idx 1 := Iff.rfl
    change (sisRead1 pw custom idx).run s = _
    simp only [sisRead1, hpast]
    split_ifs
    · rw [List.append_nil]
      rfl
    · rw [inByte_run]
      refine Prod.ext (eq_valueFrom ?_) (by simp [loadsAt])
      rw [toNat_setWidth_byte]
      simp [word]
  · have hpast : past custom (int32 (idx + 1)) ↔ LoadRefused custom idx 2 := Iff.rfl
    change (sisRead2 pw custom idx).run s = _
    simp only [sisRead2, hpast]
    split_ifs
    · rw [List.append_nil]
      rfl
    · simp only [StateT.run_bind, inByte_run]
      refine Prod.ext (eq_valueFrom (v := _ <<< 8 ||| _) ?_) ?_
      · rw [← toNat_shiftLeft_or_two]
        simp only [Nat.cast_zero, Nat.cast_one, add_zero, zero_add]
        rfl
      · change ({ s with accesses := s.accesses ++ [loadAccess custom idx] ++
          [loadAccess custom (idx + 1)] } : SisState) = _
        simp [loadsAt, List.range_succ]
  · have hpast : past custom (int32 (idx + 3)) ↔ LoadRefused custom idx 4 := Iff.rfl
    change (sisRead4 pw custom idx).run s = _
    simp only [sisRead4, hpast]
    split_ifs
    · rw [List.append_nil]
      rfl
    · simp only [StateT.run_bind, inByte_run]
      refine Prod.ext (eq_valueFrom (v := _ <<< 24 ||| _ <<< 16 ||| _ <<< 8 ||| _) ?_) ?_
      · rw [← toNat_shiftLeft_or_four]
        simp only [Nat.cast_zero, Nat.cast_one, Nat.cast_ofNat, add_zero, zero_add, BitVec.or_assoc]
        rfl
      · change ({ s with accesses := s.accesses ++ [loadAccess custom idx] ++
          [loadAccess custom (idx + 1)] ++ [loadAccess custom (idx + 2)] ++
            [loadAccess custom (idx + 3)] } : SisState) = _
        simp [loadsAt, List.range_succ]

/-- The loads from a bank. -/
theorem loads_some (r : SisRegs) (idx : ℤ) (width : ℕ) :
    loads (some r) idx width = readAccesses r width idx := by
  have href : LoadRefused (some r) idx width ↔ ReadRefused r width idx := by simp [LoadRefused]
  simp only [loads, readAccesses, href]
  rfl

theorem filter_loads (idx : ℤ) : (loads custom idx width).filter SisAccess.isStore = [] := by
  refine List.filter_eq_nil_iff.2 fun a ha => ?_
  unfold loads at ha
  split_ifs at ha
  · simp at ha
  · obtain ⟨n, -, rfl⟩ := List.mem_map.1 ha
    cases custom <;> exact Bool.false_ne_true

end Loads

/-! ## Stores -/

/-- The stores of a round. -/
def Poke.stores (p : Poke) : List SisAccess :=
  p.accesses.filter SisAccess.isStore

/-- The store of a byte to the bank or port. -/
def storeAccess (custom : Option SisRegs) (idx : ℤ) (v : UInt8) : SisAccess :=
  match custom with
  | some r => .outIdx r.type idx v
  | none => .outPort idx v

/-- The stores of the bytes of a value from an address on. -/
def storesAt (custom : Option SisRegs) (idx : ℤ) (width : ℕ) (value : BitVec 32) :
    List SisAccess :=
  (List.range width).map fun n : ℕ => storeAccess custom (idx + n) (valueByte value n)

/-- `sis_write_2` and `sis_write_4` refuse to write past the bank. -/
def WriteRefused (custom : Option SisRegs) (idx : ℤ) (width : ℕ) : Prop :=
  width ≠ 1 ∧ past custom (int32 (idx + (width - 1)))

instance (custom : Option SisRegs) (idx : ℤ) (width : ℕ) :
    Decidable (WriteRefused custom idx width) :=
  inferInstanceAs (Decidable (width ≠ 1 ∧ past custom (int32 (idx + (width - 1)))))

/-- The stores of a write. -/
def writeStores (custom : Option SisRegs) (idx : ℤ) (width : ℕ) (value : BitVec 32) :
    List SisAccess :=
  if WriteRefused custom idx width then [] else storesAt custom idx width value

theorem outByte_accesses (custom : Option SisRegs) (idx : ℤ) (v : UInt8) (s : SisState) :
    ((outByte custom idx v).run s).2.accesses = s.accesses ++ [storeAccess custom idx v] := by
  cases custom <;> rfl

theorem sisWrite_accesses {width : ℕ} (hw : width = 1 ∨ width = 2 ∨ width = 4)
    (custom : Option SisRegs) (idx : ℤ) (value : BitVec 32) (s : SisState) :
    ((sisWrite width custom idx value).run s).2.accesses =
      s.accesses ++ writeStores custom idx width value := by
  rcases hw with rfl | rfl | rfl
  · change ((outByte custom idx (valueByte value 0)).run s).2.accesses = _
    rw [writeStores, if_neg (fun h => h.1 rfl), outByte_accesses]
    simp [storesAt]
  · have hpast : WriteRefused custom idx 2 ↔ past custom (int32 (idx + 1)) := by simp [WriteRefused]
    change ((sisWrite2 custom idx value).run s).2.accesses = _
    simp only [sisWrite2, writeStores, hpast]
    split_ifs
    · exact (List.append_nil _).symm
    · change ((outByte custom (idx + 1) (valueByte value 1)).run
        ((outByte custom idx (valueByte value 0)).run s).2).2.accesses = _
      simp [outByte_accesses, storesAt, List.range_succ]
  · have hpast : WriteRefused custom idx 4 ↔ past custom (int32 (idx + 3)) := by simp [WriteRefused]
    change ((sisWrite4 custom idx value).run s).2.accesses = _
    simp only [sisWrite4, writeStores, hpast]
    split_ifs
    · exact (List.append_nil _).symm
    · change ((outByte custom (idx + 3) (valueByte value 3)).run
        ((outByte custom (idx + 2) (valueByte value 2)).run
          ((outByte custom (idx + 1) (valueByte value 1)).run
            ((outByte custom idx (valueByte value 0)).run s).2).2).2).2.accesses = _
      simp [outByte_accesses, storesAt, List.range_succ]

theorem filter_writeStores (custom : Option SisRegs) (idx : ℤ) (width : ℕ) (value : BitVec 32) :
    (writeStores custom idx width value).filter SisAccess.isStore =
      writeStores custom idx width value := by
  refine List.filter_eq_self.2 fun a ha => ?_
  unfold writeStores at ha
  split_ifs at ha
  · simp at ha
  · obtain ⟨n, -, rfl⟩ := List.mem_map.1 ha
    cases custom <;> rfl

section Keeps

variable {pw : Readback} {custom : Option SisRegs} {i : ℤ}

theorem inByteAt_outByte {idx : ℤ} (h : i ≠ idx) (v : UInt8) (s : SisState) :
    inByteAt pw custom ((outByte custom idx v).run s).2 i = inByteAt pw custom s i := by
  cases custom with
  | none => exact Function.update_of_ne h v s.ports
  | some r =>
    have hreg : setReg s.regs r.type idx v r.type i = s.regs r.type i := setReg_of_ne fun _ => h
    change readReg pw (setReg s.regs r.type idx v) r.type i = readReg pw s.regs r.type i
    rw [readReg, readReg, hreg]

/-- A write keeps what the bytes before and after those written read. -/
theorem inByteAt_sisWrite {width : ℕ} (hw : width = 1 ∨ width = 2 ∨ width = 4) {idx : ℤ}
    (h : i < idx ∨ idx + width ≤ i) (value : BitVec 32) (s : SisState) :
    inByteAt pw custom ((sisWrite width custom idx value).run s).2 i = inByteAt pw custom s i := by
  rcases hw with rfl | rfl | rfl
  · exact inByteAt_outByte (by omega) _ s
  · change inByteAt pw custom ((sisWrite2 custom idx value).run s).2 i = _
    rw [sisWrite2]
    split_ifs
    · rfl
    · exact (inByteAt_outByte (by omega) _ _).trans (inByteAt_outByte (by omega) _ s)
  · change inByteAt pw custom ((sisWrite4 custom idx value).run s).2 i = _
    rw [sisWrite4]
    split_ifs
    · rfl
    · exact (inByteAt_outByte (by omega) _ _).trans ((inByteAt_outByte (by omega) _ _).trans
        ((inByteAt_outByte (by omega) _ _).trans (inByteAt_outByte (by omega) _ s)))

theorem sisWrite_out {width : ℕ} (hw : width = 1 ∨ width = 2 ∨ width = 4)
    (custom : Option SisRegs) (idx : ℤ) (value : BitVec 32) (s : SisState) :
    ((sisWrite width custom idx value).run s).2.out = s.out := by
  rcases hw with rfl | rfl | rfl
  · cases custom <;> rfl
  · change ((sisWrite2 custom idx value).run s).2.out = _
    rw [sisWrite2]
    split_ifs <;> cases custom <;> rfl
  · change ((sisWrite4 custom idx value).run s).2.out = _
    rw [sisWrite4]
    split_ifs <;> cases custom <;> rfl

end Keeps

/-! ## One round -/

section Round

variable {pw : Password} {custom : Option SisRegs} {start : ℤ} {width : ℕ} {j : ℕ → BitVec 32}

variable (start width j) in
/-- Where a round stores. -/
def pokeAddr (cell : ℕ × ℕ) : ℤ :=
  int32 (cellAddr start width cell.1 cell.2 + (j cell.1).toInt)

variable (pw custom start width j) in
/-- The round of a cell on a chip, with `m` failed conversions, what was converted for it at
last, and the value written. -/
def pokeAt (cell : ℕ × ℕ) (chip : SisState) (m : ℕ) (typed : Option (BitVec 32))
    (value : BitVec 32) : Poke :=
  let idx := int32 (cellAddr start width cell.1 cell.2)
  let prompt := promptText custom (cellAddr start width cell.1 cell.2)
    (hex (fmtDigits width) (loadedValue pw custom chip idx width) ++ [' '])
  ⟨typed, (List.replicate (m + 1) prompt).flatten,
    loads custom idx width ++ writeStores custom (pokeAddr start width j cell) width value⟩

theorem stores_pokeAt (cell : ℕ × ℕ) (chip : SisState) (m : ℕ) (typed : Option (BitVec 32))
    (value : BitVec 32) : (pokeAt pw custom start width j cell chip m typed value).stores =
      writeStores custom (pokeAddr start width j cell) width value := by
  rw [Poke.stores, pokeAt, List.filter_append, filter_loads, filter_writeStores, List.nil_append]

variable (pw custom start width j) in
/-- What a round does to the state. -/
structure PokeStep (cell : ℕ × ℕ) (s s' : DebugState) (p : Poke) : Prop where
  left : (answer s.stdin).left = some s'.stdin
  value : ∀ v ∈ (answer s.stdin).typed, s'.value = v
  poke : ∃ m, p = pokeAt pw custom start width j cell s.chip m (answer s.stdin).typed s'.value
  pokes : s'.pokes = s.pokes ++ [p]
  out : s'.chip.out = s.chip.out ++ p.out
  accesses : s'.chip.accesses = s.chip.accesses ++ p.accesses
  kept : ∀ i, i < pokeAddr start width j cell ∨ pokeAddr start width j cell + width ≤ i →
    inByteAt pw custom s'.chip i = inByteAt pw custom s.chip i

/-- The round as a whole, after the read. -/
theorem pokeCell_eq (n : ℕ) (cell : ℕ × ℕ) (s : DebugState) :
    pokeCell pw custom start width (j cell.1) n cell.1 cell.2 s =
      let read := (sisRead pw width custom (int32 (cellAddr start width cell.1 cell.2))).run s.chip
      (ask (promptText custom (cellAddr start width cell.1 cell.2)
        (hex (fmtDigits width) read.1 ++ [' '])) n { s with chip := read.2 }).bind fun r =>
          let chip := ((sisWrite width custom (pokeAddr start width j cell) r.2.value).run
            r.2.chip).2
          some ((), { r.2 with
            chip := chip
            pokes := r.2.pokes ++ [⟨r.1, chip.out.drop s.chip.out.length,
              chip.accesses.drop s.chip.accesses.length⟩] }) := by
  rfl

variable (pw custom start j) in
/-- A round returns unless its answer is stuck, given more attempts than there are characters
left. -/
theorem pokeCell_spec (hw : width = 1 ∨ width = 2 ∨ width = 4) (n : ℕ) (cell : ℕ × ℕ)
    (s : DebugState) :
    (∃ s' p, pokeCell pw custom start width (j cell.1) n cell.1 cell.2 s = some ((), s') ∧
      PokeStep pw custom start width j cell s s' p) ∨
    pokeCell pw custom start width (j cell.1) n cell.1 cell.2 s = none ∧
      (answer s.stdin = .stuck ∨ n ≤ s.stdin.length) := by
  rw [pokeCell_eq, sisRead_eq hw]
  dsimp only
  set idx := int32 (cellAddr start width cell.1 cell.2)
  set prompt := promptText custom (cellAddr start width cell.1 cell.2)
    (hex (fmtDigits width) (loadedValue pw custom s.chip idx width) ++ [' ']) with hprompt
  set read : SisState :=
    { s.chip with accesses := s.chip.accesses ++ loads custom idx width } with hread
  obtain ⟨m, hask | ⟨hask, hle⟩⟩ := ask_eq prompt n { s with chip := read }
  · rw [hask, DebugState.answered]
    dsimp only
    rcases hleft : (answer s.stdin).left with _ | rest
    · exact Or.inr ⟨rfl, Or.inl (left_eq_none_iff.1 hleft)⟩
    · set value := (answer s.stdin).typed.getD s.value with hvalue
      set shown : SisState :=
        { read with out := read.out ++ (List.replicate (m + 1) prompt).flatten } with hshown
      have hout := sisWrite_out hw custom (pokeAddr start width j cell) value shown
      have haccesses := sisWrite_accesses hw custom (pokeAddr start width j cell) value shown
      have hpoke : (⟨(answer s.stdin).typed,
          ((sisWrite width custom (pokeAddr start width j cell) value).run shown).2.out.drop
            s.chip.out.length,
          ((sisWrite width custom (pokeAddr start width j cell) value).run shown).2.accesses.drop
            s.chip.accesses.length⟩ : Poke) =
          pokeAt pw custom start width j cell s.chip m (answer s.stdin).typed value := by
        rw [hout, haccesses, hshown, hread, pokeAt]
        dsimp only
        rw [List.append_assoc, List.drop_left, List.drop_left]
      refine Or.inl ⟨_, _, rfl, hleft, fun v hv => ?_, ⟨m, rfl⟩, ?_, ?_, ?_, fun i hi => ?_⟩
      · change value = v
        rw [hvalue, Option.mem_def.1 hv]
        rfl
      · exact congrArg (fun p => s.pokes ++ [p]) hpoke
      · exact hout
      · refine haccesses.trans ?_
        rw [hshown, hread, pokeAt]
        dsimp only
        rw [List.append_assoc]
      · exact inByteAt_sisWrite hw hi value shown
  · rw [hask]
    exact Or.inr ⟨rfl, Or.inr hle⟩

/-- What a round that returns does. -/
theorem pokeStep_of_pokeCell (hw : width = 1 ∨ width = 2 ∨ width = 4) {n : ℕ} {cell : ℕ × ℕ}
    {s s' : DebugState}
    (h : pokeCell pw custom start width (j cell.1) n cell.1 cell.2 s = some ((), s')) :
    ∃ p, PokeStep pw custom start width j cell s s' p := by
  obtain ⟨s₁, p, heq, hstep⟩ | ⟨hnone, -⟩ := pokeCell_spec pw custom start j hw n cell s
  · obtain rfl : s₁ = s' := (Prod.mk.inj (Option.some.inj (heq.symm.trans h))).2
    exact ⟨p, hstep⟩
  · cases hnone.symm.trans h

end Round

/-! ## All rounds -/

section Rounds

variable {pw : Password} {custom : Option SisRegs} {start : ℤ} {width : ℕ} {j : ℕ → BitVec 32}

theorem pokeRows_eq (count : ℤ) (n : ℕ) : pokeRows pw custom start count width j n =
    (cells count width).forM fun cell =>
      pokeCell pw custom start width (j cell.1) n cell.1 cell.2 := by
  unfold pokeRows cells
  induction List.range (((int32 (count * width)).tdiv 32).toNat + 1) with
  | nil => rfl
  | cons tmp rows ih =>
    simp only [List.forM_eq_forM] at ih ⊢
    rw [List.flatMap_cons, List.forM_append, List.forM_cons, ih, List.forM_map]

variable (custom) in
/-- From `s` to `s'` the rounds `ps` have been gone through, and nothing else. -/
structure Rounds (s s' : DebugState) (ps : List Poke) : Prop where
  pokes : s'.pokes = s.pokes ++ ps
  out : s'.chip.out = s.chip.out ++ ps.flatMap Poke.out
  accesses : s'.chip.accesses = s.chip.accesses ++ ps.flatMap Poke.accesses

variable (pw custom start width j) in
/-- Round `k` of the rounds `l`, which began at `s` : its answer, its trace, and that the chip
it finds reads as at the beginning where no round before it has stored. -/
structure RoundAt (l : List (ℕ × ℕ)) (s : DebugState) (k : ℕ) (cell : ℕ × ℕ) (p : Poke) :
    Prop where
  answered : answerAt s.stdin k ≠ .stuck
  poke : ∃ m w chip, (∀ v ∈ (answerAt s.stdin k).typed, w = v) ∧
    p = pokeAt pw custom start width j cell chip m (answerAt s.stdin k).typed w ∧
    ∀ i, (∀ c ∈ l.take k, i < pokeAddr start width j c ∨ pokeAddr start width j c + width ≤ i) →
      inByteAt pw custom chip i = inByteAt pw custom s.chip i

/-- What the rounds do, if they return. -/
theorem pokes_of_forM (hw : width = 1 ∨ width = 2 ∨ width = 4) (n : ℕ) (l : List (ℕ × ℕ))
    {s s' : DebugState} (h : (l.forM fun cell =>
      pokeCell pw custom start width (j cell.1) n cell.1 cell.2) s = some ((), s')) :
    ∃ ps, Rounds s s' ps ∧ ps.length = l.length ∧ ∀ k cell, l[k]? = some cell →
      ∃ p, ps[k]? = some p ∧ RoundAt pw custom start width j l s k cell p := by
  induction l generalizing s with
  | nil =>
    cases h
    exact ⟨[], ⟨by simp, by simp, by simp⟩, rfl, by simp⟩
  | cons cell l ih =>
    obtain ⟨⟨⟨⟩, s₁⟩, hcell, hrest⟩ := Option.bind_eq_some_iff.1 h
    obtain ⟨p, hstep⟩ := pokeStep_of_pokeCell hw hcell
    obtain ⟨ps, hps, hlen, hall⟩ := ih hrest
    refine ⟨p :: ps, ⟨?_, ?_, ?_⟩, by simp [hlen], fun k c hk => ?_⟩
    · rw [hps.pokes, hstep.pokes, List.append_assoc]
      rfl
    · rw [hps.out, hstep.out, List.append_assoc]
      rfl
    · rw [hps.accesses, hstep.accesses, List.append_assoc]
      rfl
    · cases k with
      | zero =>
        cases hk
        obtain ⟨m, hm⟩ := hstep.poke
        exact ⟨p, rfl, ne_stuck_of_left hstep.left, m, _, _, hstep.value, hm, fun i _ => rfl⟩
      | succ k =>
        obtain ⟨p', hp', hans, m, w, chip, hw', hpoke, hkept⟩ := hall k c hk
        rw [← answerAt_succ hstep.left k] at hans hw' hpoke
        refine ⟨p', hp', hans, m, w, chip, hw', hpoke, fun i hi => ?_⟩
        rw [List.take_succ_cons, List.forall_mem_cons] at hi
        exact (hkept i hi.2).trans (hstep.kept i hi.1)

/-- What the rounds leave on standard input. -/
theorem leftAt_of_forM (hw : width = 1 ∨ width = 2 ∨ width = 4) (n : ℕ) (l : List (ℕ × ℕ))
    {s s' : DebugState} (h : (l.forM fun cell =>
      pokeCell pw custom start width (j cell.1) n cell.1 cell.2) s = some ((), s')) :
    leftAt s.stdin l.length = some s'.stdin := by
  induction l generalizing s with
  | nil =>
    cases h
    rfl
  | cons cell l ih =>
    obtain ⟨⟨⟨⟩, s₁⟩, hcell, hrest⟩ := Option.bind_eq_some_iff.1 h
    obtain ⟨p, hstep⟩ := pokeStep_of_pokeCell hw hcell
    rw [List.length_cons, leftAt, hstep.left]
    exact ih hrest

variable (pw custom start j) in
/-- The rounds return if no answer is stuck. -/
theorem forM_returns (hw : width = 1 ∨ width = 2 ∨ width = 4) {n : ℕ} (l : List (ℕ × ℕ))
    {s : DebugState} (hn : s.stdin.length < n)
    (h : ∀ k < l.length, answerAt s.stdin k ≠ .stuck) : ∃ s', (l.forM fun cell =>
      pokeCell pw custom start width (j cell.1) n cell.1 cell.2) s = some ((), s') := by
  induction l generalizing s with
  | nil => exact ⟨s, rfl⟩
  | cons cell l ih =>
    obtain ⟨s₁, p, heq, hstep⟩ | ⟨-, hstuck | hle⟩ := pokeCell_spec pw custom start j hw n cell s
    · obtain ⟨s', hs'⟩ := ih ((suffix_of_left hstep.left).length_le.trans_lt hn) fun k hk => by
        rw [← answerAt_succ hstep.left k]
        exact h (k + 1) (Nat.succ_lt_succ hk)
      exact ⟨s', Option.bind_eq_some_iff.2 ⟨_, heq, hs'⟩⟩
    · exact absurd hstuck (h 0 (Nat.succ_pos _))
    · omega

end Rounds

end LxToolset
