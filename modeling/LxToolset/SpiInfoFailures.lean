import LxToolset.SpiInfoFlash

/-!
# What the exit status of saveinfo and readinfo is worth

`saveinfo` does not look at what `read` returns, and puts the size together that it reads back
without comparing it; for an empty file it leaves the slot as it is. A status of 0 then says
that the slot holds the file in the runs of `savesOrFails_iff`. `readinfo` takes the size of a
slot as it is : `readsSlot_iff` gives the runs in which it fits.
-/

namespace LxToolset

open Memory

/-! ## saveinfo -/

/-- What `IOCTL_PROGRAM_IE` does : it fails, stores its buffer, or only says that it did. -/
inductive ProgramOutcome where
  | fails (left : Flash)
  | stores
  | lost (left : Flash)

def ProgramOutcome.run (buf : ℕ → UInt8) (flash : Flash) : ProgramOutcome → ℤ × Flash
  | .fails left => (-1, left)
  | .stores => (0, programIe buf flash)
  | .lost left => (0, left)

/-- A driver with this outcome, and any outcomes of `IOCTL_READ_EC`. -/
def ProgramOutcome.driver (o : ProgramOutcome) (readEc : ℕ → Flash → ℤ × Option UInt8) :
    EcMisc where
  programIe buf flash := o.run buf flash
  readEc := readEc

/-- The slot holds the size and the bytes of the file. -/
structure HoldsFile (flash : Flash) (s : Slot) (file : List UInt8) : Prop where
  fits : file.length ≤ 0xfffc
  size : word flash (ieStartAddress s.name) 4 = file.length
  bytes : ∀ k (hk : k < file.length), flash (ieStartAddress s.name + (4 + k)) = file[k]

/-- A run of `saveinfo` that ends with status 0 has left the file in its slot. -/
def SavesOrFails (d : EcMisc) (env : SaveEnv) (argv0 path : String) (s : Slot) (flash : Flash) :
    Prop :=
  ∀ file, env.openFile path = some file →
    (saveinfo d env [argv0, path, s.name] flash).exit = .status 0 →
    HoldsFile (saveinfo d env [argv0, path, s.name] flash).flash s file

/-- The slot is as it should be after this outcome, the block of `malloc` having held `junk`. -/
def ProgramOutcome.Leaves (o : ProgramOutcome) (env : SaveEnv) (s : Slot) (file : List UInt8)
    (junk : ℕ → UInt8) : Prop :=
  match o with
  | .fails _ => True
  | .stores => file.length ≤ 0xfffc ∧
      ∀ k (hk : k < file.length), env.readLimit ≤ k → junk (12 + k) = file[k]
  | .lost left => HoldsFile left s file

section Save

variable {d : EcMisc} {env : SaveEnv} {s : Slot} {file : List UInt8} {flash : Flash}
  {junk : ℕ → UInt8}

theorem saveBuffer_tail {step : ℕ} {stSize : ℤ} {data : List UInt8} (k : ℕ) :
    saveBuffer step stSize data junk (8 + (4 + k)) = (data[k]?).getD (junk (12 + k)) := by
  have hlong : 12 ≤ 8 + (4 + k) := by omega
  have hindex : 8 + (4 + k) - 12 = k := by omega
  rw [saveBuffer]
  simp only [hlong, if_true, hindex]
  rw [poke_of_notMem (by omega), poke_of_notMem (by omega), poke_of_notMem (by omega),
    ← Nat.add_assoc]

variable (flash) in
/-- What is in the slot after the buffer is programmed. -/
theorem holdsFile_programIe_iff : HoldsFile (programIe (saveBuffer (writeStep s.name) file.length
      (file.take (min env.readLimit (addr 32 file.length))) junk) flash) s file ↔
    ProgramOutcome.Leaves .stores env s file junk := by
  obtain ⟨data, hdata⟩ : ∃ data, data = file.take (min env.readLimit (addr 32 file.length)) :=
    ⟨_, rfl⟩
  rw [← hdata]
  by_cases hfits : file.length ≤ 0xfffc
  · have hcount : addr 32 (file.length : ℤ) = file.length := addr_of_lt (by omega)
    have hsize : word (programIe (saveBuffer (writeStep s.name) file.length data junk) flash)
        (ieStartAddress s.name) 4 = file.length := by
      refine (word_of_byteOf (v := file.length) fun i hi => ?_).trans (Nat.mod_eq_of_lt (by omega))
      rw [programIe_saveBuffer (by omega) (by omega), saveBuffer_size hi, hcount]
    have hread : ∀ k (hk : k < file.length), (data[k]?).getD (junk (12 + k)) =
        if env.readLimit ≤ k then junk (12 + k) else file[k] := by
      intro k hk
      rw [hdata, hcount]
      split_ifs with hlimit
      · rw [List.getElem?_eq_none (by simp; omega), Option.getD_none]
      · rw [List.getElem?_take, if_pos (by omega), List.getElem?_eq_getElem hk, Option.getD_some]
    have hbyte : ∀ k (hk : k < file.length),
        programIe (saveBuffer (writeStep s.name) file.length data junk) flash
          (ieStartAddress s.name + (4 + k)) =
        if env.readLimit ≤ k then junk (12 + k) else file[k] := by
      intro k hk
      rw [programIe_saveBuffer (by omega) (by omega), saveBuffer_tail, hread k hk]
    constructor
    · rintro ⟨-, -, hbytes⟩
      refine ⟨hfits, fun k hk hlimit => ?_⟩
      rw [← hbytes k hk, hbyte k hk, if_pos hlimit]
    · rintro ⟨-, hjunk⟩
      refine ⟨hfits, hsize, fun k hk => ?_⟩
      rw [hbyte k hk]
      split_ifs with hlimit
      · exact hjunk k hk hlimit
      · rfl
  · exact iff_of_false (fun h => hfits h.fits) (fun h => hfits h.1)

/-- A status of 0 says that the slot holds the file exactly if an empty file is there already, and
of any other the driver stores what it says it does, of what has been read. -/
theorem savesOrFails_iff (o : ProgramOutcome) (readEc : ℕ → Flash → ℤ × Option UInt8)
    (env : SaveEnv) (hstat : env.statFails = none) (argv0 path : String) (s : Slot)
    (flash : Flash) :
    SavesOrFails (o.driver readEc) env argv0 path s flash ↔
      ∀ file, env.openFile path = some file →
        (file = [] → HoldsFile flash s file) ∧
        ∀ junk, file ≠ [] → env.malloc (addr 32 (file.length + 12)) = some junk →
          env.openDevice = true → o.Leaves env s file junk := by
  refine forall_congr' fun file => forall_congr' fun hopen => ?_
  have hrun : saveinfo (o.driver readEc) env [argv0, path, s.name] flash =
      saveFile (o.driver readEc) env s.name file flash := by
    simp only [saveinfo, hopen]
  have hsize : env.stSize file = file.length := by rw [SaveEnv.stSize, hstat, Option.getD_none]
  rw [hrun]
  by_cases hempty : file = []
  · have hzero : env.stSize file = 0 := by rw [hsize, hempty, List.length_nil, Nat.cast_zero]
    have hskip : saveFile (o.driver readEc) env s.name file flash = ⟨.status 0, flash, "", []⟩ := by
      simp only [saveFile, hzero, if_true]
    rw [hskip]
    simp [hempty]
  have hne : (file.length : ℤ) ≠ 0 := by
    have := List.length_pos_iff.mpr hempty
    omega
  simp only [saveFile, hsize, hne, if_false, hempty, ne_eq, not_false_eq_true, false_implies,
    true_and, forall_const]
  rcases hmalloc : env.malloc (addr 32 (file.length + 12)) with _ | junk
  · simp
  by_cases hdevice : env.openDevice = true
  · simp only [hdevice, if_true, Option.some.injEq, forall_eq', forall_const]
    cases o with
    | fails left => simp [ProgramOutcome.driver, ProgramOutcome.run, ProgramOutcome.Leaves]
    | stores =>
      rw [← holdsFile_programIe_iff flash]
      simp [ProgramOutcome.driver, ProgramOutcome.run]
    | lost left => simp [ProgramOutcome.driver, ProgramOutcome.run, ProgramOutcome.Leaves]
  · simp [hdevice]

/-- A file of one byte is stored. -/
theorem savesOrFails_iff_stores : SavesOrFails (ProgramOutcome.stores.driver ecMisc.readEc)
    (workingEnv [0x41]) "saveinfo" "log" .smt fun _ => 0xff := by
  refine (savesOrFails_iff .stores ecMisc.readEc (workingEnv [0x41]) rfl "saveinfo" "log" .smt
    fun _ => 0xff).2 fun file hfile => ?_
  obtain rfl : [0x41] = file := Option.some.inj hfile
  refine ⟨fun h => absurd h (by decide), fun junk _ _ _ => ⟨by decide, fun k hk hlimit => ?_⟩⟩
  -- all of the file is read
  exact absurd hk (Nat.not_lt.2 hlimit)

/-- The driver says that it has programmed a blank slot, which is still blank. -/
theorem saveinfo_lost : ¬ SavesOrFails ((ProgramOutcome.lost fun _ => 0xff).driver ecMisc.readEc)
    (workingEnv [0x41]) "saveinfo" "log" .smt fun _ => 0xff := by
  intro h
  have hbyte := (h [0x41] rfl rfl).bytes 0 (by decide)
  exact absurd hbyte (by decide)

end Save

/-! ## readinfo -/

/-- A run of `readinfo` fails or writes as many bytes as the slot says, reads the slot only, and
stores in its block only. -/
structure ReadsSlot (flash : Flash) (s : Slot) (r : ReadRun) : Prop where
  written : (∃ code ≠ 0, r.exit = .status code) ∨
    ∃ bytes, r.file = some bytes ∧ bytes.length = word flash (ieStartAddress s.name) 4
  reads : ∀ a ∈ r.reads, ieStartAddress s.name ≤ a ∧ a < ieStartAddress s.name + 0x10000
  stores : ∀ i ∈ r.stores, ∃ n, r.block = some n ∧ 0 ≤ i ∧ i < n

section Read

variable {flash : Flash} {s : Slot}

theorem length_readBytes (d : EcMisc) (start n : ℕ) (val : UInt8) :
    (readBytes d flash start n val).length = n := by
  induction n generalizing start val with
  | zero => rfl
  | succ n ih => rw [readBytes, List.length_cons, ih]

/-- Reads of a range below the top of the address space. -/
theorem forall_readAddrs {start n : ℕ} (h : start + n ≤ 2 ^ 32) {p : ℕ → Prop} :
    (∀ a ∈ readAddrs start n, p a) ↔ ∀ k < n, p (start + k) := by
  have haddr : ∀ k < n, addr 32 (start + k : ℕ) = start + k := fun k hk => addr_of_lt (by omega)
  constructor
  · intro hall k hk
    exact hall _ (List.mem_map.mpr ⟨k, List.mem_range.mpr hk, haddr k hk⟩)
  · intro hall a ha
    obtain ⟨k, hk, rfl⟩ := List.mem_map.mp ha
    rw [haddr k (List.mem_range.mp hk)]
    exact hall k (List.mem_range.mp hk)

variable (flash s) in
theorem readinfo_opened {env : ReadEnv} (hdevice : env.openDevice = true) (argv0 path : String)
    (rest : List String) :
    ∃ val, readinfo ecMisc env (argv0 :: path :: s.name :: rest) flash =
      readFile ecMisc env path (ieStartAddress s.name) flash
        (BitVec.ofNat 32 (word flash (ieStartAddress s.name) 4)) val := by
  have hstart : ieStartAddress s.name = 0x20000 + writeStep s.name := rfl
  have hstep := writeStep_le s.name
  have hsize : (readSize ecMisc flash (ieStartAddress s.name)).1 =
      BitVec.ofNat 32 (word flash (ieStartAddress s.name) 4) := by
    rw [← readSize_ecMisc (by omega), BitVec.ofNat_toNat, BitVec.setWidth_eq]
  refine ⟨(readSize ecMisc flash (ieStartAddress s.name)).2, ?_⟩
  simp only [readinfo, hdevice, if_true, hsize]

/-- The stores of the loop, while `i` does not wrap around. -/
theorem forall_stores {n : ℕ} (h : n < 2 ^ 31) :
    ∀ i ∈ (List.range n).map fun (i : ℕ) => Int.bmod i (2 ^ 32), 0 ≤ i ∧ i < n := by
  intro i hi
  obtain ⟨k, hk, rfl⟩ := List.mem_map.mp hi
  have hlt := List.mem_range.mp hk
  rw [Int.bmod_eq_of_le (by omega) (by omega)]
  omega

section ReadFile

variable {env : ReadEnv} {path : String} {n : ℕ}

theorem toNat_ofNat_size (hlt : n < 2 ^ 32) : (BitVec.ofNat 32 n).toNat = n := by
  rw [BitVec.toNat_ofNat, Nat.mod_eq_of_lt hlt]

/-- A run that stores through NULL. -/
theorem readFile_null (hlt : n < 2 ^ 32) (hfopen : env.fopen path = true)
    (hmalloc : env.malloc n = false) (hpos : 0 < n) (start : ℕ) (val : UInt8) :
    ¬ReadsSlot flash s (readFile ecMisc env path start flash (BitVec.ofNat 32 n) val) := by
  intro h
  have hsize := toNat_ofNat_size hlt
  have hstore := h.stores 0 (by simp [readFile, hsize, hfopen, hmalloc, hpos])
  simp [readFile, hsize, hfopen, hmalloc, hpos] at hstore

/-- A run with a block for the bytes. -/
theorem readFile_of_block (hlt : n < 2 ^ 32) (hfopen : env.fopen path = true)
    (hblock : n = 0 ∨ env.malloc n = true) (start : ℕ) (val : UInt8) :
    readFile ecMisc env path start flash (BitVec.ofNat 32 n) val =
      ⟨.status 0, "", some (readBytes ecMisc flash (start + 4) n val),
        readAddrs start 4 ++ readAddrs (start + 4) n,
        if env.malloc n = true then some n else none,
        (List.range n).map fun (i : ℕ) => Int.bmod i (2 ^ 32)⟩ := by
  have hfault : ¬((if env.malloc n = true then some n else none) = none ∧ 0 < n) := by
    rcases hblock with hzero | hmalloc
    · omega
    · simp [hmalloc]
  simp only [readFile, toNat_ofNat_size hlt, hfopen, if_true, hfault, if_false]

end ReadFile

variable (s) in
/-- The size is read from the slot. -/
theorem sizes_in_slot : ∀ a ∈ readAddrs (ieStartAddress s.name) 4,
    ieStartAddress s.name ≤ a ∧ a < ieStartAddress s.name + 0x10000 := by
  have hstart : ieStartAddress s.name = 0x20000 + writeStep s.name := rfl
  have hstep := writeStep_le s.name
  rw [forall_readAddrs (by omega)]
  intro k hk
  omega

variable (s) in
/-- The bytes are read from the slot if their number fits. -/
theorem bytes_in_slot_iff (n : ℕ) : (∀ a ∈ readAddrs (ieStartAddress s.name + 4) n,
    ieStartAddress s.name ≤ a ∧ a < ieStartAddress s.name + 0x10000) ↔ n ≤ 0xfffc := by
  have hstart : ieStartAddress s.name = 0x20000 + writeStep s.name := rfl
  have hstep := writeStep_le s.name
  constructor
  · intro hreads
    by_contra hlong
    -- the first byte behind the slot
    have hmem : addr 32 ↑(ieStartAddress s.name + 4 + 0xfffc) ∈
        readAddrs (ieStartAddress s.name + 4) n :=
      List.mem_map.mpr ⟨0xfffc, List.mem_range.mpr (by omega), rfl⟩
    have hin := hreads _ hmem
    rw [addr_of_lt (by omega)] at hin
    omega
  · intro hfits
    rw [forall_readAddrs (by omega)]
    intro k hk
    omega

/-- `readinfo` keeps to its slot exactly if it does not come to read it, or the size of the slot
fits, and a block is found for it. -/
theorem readsSlot_iff (env : ReadEnv) (argv0 path : String) (rest : List String) (s : Slot)
    (flash : Flash) :
    ReadsSlot flash s (readinfo ecMisc env (argv0 :: path :: s.name :: rest) flash) ↔
      env.openDevice = false ∨ env.fopen path = false ∨
        (word flash (ieStartAddress s.name) 4 ≤ 0xfffc ∧
          (word flash (ieStartAddress s.name) 4 = 0 ∨
            env.malloc (word flash (ieStartAddress s.name) 4) = true)) := by
  cases hdevice : env.openDevice with
  | false =>
    refine iff_of_true ?_ (.inl rfl)
    simp only [readinfo, hdevice, Bool.false_eq_true, if_false]
    exact ⟨.inl ⟨-1, by decide, rfl⟩, by simp, by simp⟩
  | true =>
    obtain ⟨val, hrun⟩ := readinfo_opened flash s hdevice argv0 path rest
    obtain ⟨n, hn⟩ : ∃ n, n = word flash (ieStartAddress s.name) 4 := ⟨_, rfl⟩
    have hlt : n < 2 ^ 32 := by
      rw [hn]
      exact word_lt ..
    rw [hrun, ← hn]
    cases hfopen : env.fopen path with
    | false =>
      refine iff_of_true ?_ (.inr (.inl rfl))
      simp only [readFile, hfopen, Bool.false_eq_true, if_false]
      exact ⟨.inl ⟨-1, by decide, rfl⟩, sizes_in_slot s, by simp⟩
    | true =>
      by_cases hblock : n = 0 ∨ env.malloc n = true
      · rw [readFile_of_block hlt hfopen hblock]
        constructor
        · rintro ⟨-, hreads, -⟩
          exact .inr (.inr ⟨(bytes_in_slot_iff s n).1 (List.forall_mem_append.1 hreads).2, hblock⟩)
        · rintro (hclosed | hno | ⟨hfits, -⟩)
          · cases hclosed
          · cases hno
          refine ⟨.inr ⟨_, rfl, (length_readBytes ..).trans hn⟩,
            List.forall_mem_append.2 ⟨sizes_in_slot s, (bytes_in_slot_iff s n).2 hfits⟩, ?_⟩
          intro i hi
          have hbound := forall_stores (by omega) i hi
          rcases hblock with hzero | hmalloc
          · omega
          · exact ⟨n, if_pos hmalloc, hbound⟩
      · obtain ⟨hpos, hmalloc⟩ := not_or.1 hblock
        refine iff_of_false (readFile_null hlt hfopen (Bool.eq_false_iff.2 hmalloc)
          (Nat.pos_of_ne_zero hpos) _ val) ?_
        rintro (hclosed | hno | ⟨-, hno⟩)
        · cases hclosed
        · cases hno
        · exact hblock hno

/-- The size that a blank slot has is more than there is memory. -/
theorem readinfo_blank : ¬ ReadsSlot (fun _ => 0xff) .smt
    (readinfo ecMisc ⟨true, fun _ => false, fun _ => true⟩ ["readinfo", "copy", "smt"]
      fun _ => 0xff) := by
  intro h
  have hstores : (readinfo ecMisc ⟨true, fun _ => false, fun _ => true⟩
      ["readinfo", "copy", "smt"] fun _ => 0xff).stores = [0] := by decide
  obtain ⟨n, hblock, -⟩ := h.stores 0 (by rw [hstores]; exact List.mem_singleton_self 0)
  have hnull : (readinfo ecMisc ⟨true, fun _ => false, fun _ => true⟩
      ["readinfo", "copy", "smt"] fun _ => 0xff).block = none := by decide
  rw [hnull] at hblock
  cases hblock

end Read

end LxToolset
