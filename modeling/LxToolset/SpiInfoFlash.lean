import LxToolset.SpiInfo

/-!
# The flash as a shelf of logs

Abstractly the flash is a shelf with a place for a log under each name. A save that runs to
its end puts its log there, and no save touches another place (`Represents.save`), so that
`readinfo` finds the last log of its slot (`readinfo_saves`).

The slots are not guarded : `saveinfo` programs the size and the bytes of its file from the
start of a slot on, however many they are, and an unknown name selects the slot `smt`.
`saveinfo_frame` says which bytes can change.
-/

namespace LxToolset

open Memory

/-! ## The programmed bytes -/

section Program

variable {buf : ℕ → UInt8} {flash : Flash} {a : ℕ}

theorem programIe_scatter (buf : ℕ → UInt8) :
    Scatter ((List.range (word buf 4 4)).map fun (k : ℕ) =>
      (addr 32 (0x20000 + word buf 0 4 + k), buf (8 + k))) {k | k < word buf 4 4}
      (fun k => addr 32 (0x20000 + word buf 0 4 + k)) fun k => buf (8 + k) := by
  intro w
  simp only [List.mem_map, List.mem_range, Set.mem_ofPred_eq, eq_comm (a := w)]

/-- A byte that is not programmed stays. -/
theorem programIe_of_ne (h : ∀ k < word buf 4 4, addr 32 (0x20000 + word buf 0 4 + k) ≠ a) :
    programIe buf flash a = flash a :=
  (programIe_scatter buf).write_of_notMem h

/-- A range below the top of the address space is programmed in order. -/
theorem programIe_of_lt (htop : 0x20000 + word buf 0 4 + word buf 4 4 ≤ 2 ^ 32) {k : ℕ}
    (hk : k < word buf 4 4) :
    programIe buf flash (0x20000 + word buf 0 4 + k) = buf (8 + k) := by
  have haddr : ∀ j < word buf 4 4,
      addr 32 (0x20000 + word buf 0 4 + j) = 0x20000 + word buf 0 4 + j := fun j hj => by
    exact_mod_cast addr_of_lt (n := 0x20000 + word buf 0 4 + j) (by omega)
  have hinj : Set.InjOn (fun k : ℕ => addr 32 (0x20000 + word buf 0 4 + k))
      {k | k < word buf 4 4} := by
    intro i hi j hj hij
    have hij' : addr 32 (0x20000 + word buf 0 4 + i) = addr 32 (0x20000 + word buf 0 4 + j) := hij
    rw [haddr i hi, haddr j hj] at hij'
    omega
  have hwrite := (programIe_scatter buf).write_of_mem (m := flash) hinj hk
  rwa [haddr k hk] at hwrite

end Program

/-! ## The buffer of saveinfo -/

section Buffer

variable {buf junk : ℕ → UInt8} {data : List UInt8} {step k v i : ℕ} {stSize : ℤ}

theorem poke_of_mem (h : k ≤ i) (h' : i < k + 4) : poke buf k v i = byteOf v (i - k) :=
  if_pos ⟨h, h'⟩

theorem poke_of_notMem (h : i < k ∨ k + 4 ≤ i) : poke buf k v i = buf i :=
  if_neg (by omega)

theorem saveBuffer_of_lt (h : i < 12) : saveBuffer step stSize data junk i =
    poke (poke (poke junk 0 step) 4 (addr 32 (stSize + 4))) 8 (addr 32 stSize) i :=
  if_neg (by omega)

theorem word_saveBuffer_step (h : step < 2 ^ 32) :
    word (saveBuffer step stSize data junk) 0 4 = step := by
  refine (word_of_byteOf fun i hi => ?_).trans (Nat.mod_eq_of_lt h)
  rw [saveBuffer_of_lt (by omega), poke_of_notMem (by omega), poke_of_notMem (by omega),
    poke_of_mem (by omega) (by omega), Nat.zero_add, Nat.sub_zero]

theorem word_saveBuffer_length :
    word (saveBuffer step stSize data junk) 4 4 = addr 32 (stSize + 4) := by
  refine (word_of_byteOf fun i hi => ?_).trans (Nat.mod_eq_of_lt (addr_lt 32 _))
  rw [saveBuffer_of_lt (by omega), poke_of_notMem (by omega),
    poke_of_mem (by omega) (by omega), Nat.add_sub_cancel_left]

theorem saveBuffer_size (h : i < 4) :
    saveBuffer step stSize data junk (8 + i) = byteOf (addr 32 stSize) i := by
  rw [saveBuffer_of_lt (by omega), poke_of_mem (by omega) (by omega), Nat.add_sub_cancel_left]

theorem saveBuffer_data (h : i < data.length) :
    saveBuffer step stSize data junk (8 + (4 + i)) = data[i] := by
  have hi : 8 + (4 + i) - 12 = i := by omega
  have hlong : 12 ≤ 8 + (4 + i) := by omega
  simp only [saveBuffer, hlong, if_true, hi, List.getElem?_eq_getElem h, Option.getD_some]

end Buffer

/-! ## What a save can change -/

section Save

variable {env : SaveEnv} {name : String} {file : List UInt8} {flash : Flash} {a : ℕ}

theorem writeStep_le (name : String) : writeStep name ≤ 0x30000 := by
  unfold writeStep
  split_ifs <;> omega

theorem word_saveBuffer_name {stSize : ℤ} {data : List UInt8} {junk : ℕ → UInt8} :
    word (saveBuffer (writeStep name) stSize data junk) 0 4 = writeStep name := by
  have h := writeStep_le name
  exact word_saveBuffer_step (by omega)

variable (env name file flash) in
/-- A save stops before it reaches the flash, or programs its buffer. -/
theorem saveFile_cases : (saveFile ecMisc env name file flash).flash = flash ∨
    env.stSize file ≠ 0 ∧ ∃ data junk, (saveFile ecMisc env name file flash).flash =
      programIe (saveBuffer (writeStep name) (env.stSize file) data junk) flash := by
  unfold saveFile
  by_cases hsize : env.stSize file = 0
  · exact .inl (by simp only [hsize, if_true])
  · simp only [hsize, if_false]
    rcases env.malloc (addr 32 (env.stSize file + 12)) with _ | junk
    · exact .inl rfl
    · by_cases hdevice : env.openDevice
      · simp only [hdevice, if_true]
        exact .inr ⟨hsize, _, junk, rfl⟩
      · exact .inl (by simp only [hdevice]; rfl)

/-- The first `n` bytes of the slot that a name selects. -/
def slotBytes (name : String) (n : ℕ) : Set ℕ :=
  {a | ∃ k < n, a = addr 32 ↑(ieStartAddress name + k)}

/-- A save changes the flash where it puts the size and the file. -/
theorem saveFile_frame (h : (saveFile ecMisc env name file flash).flash a ≠ flash a) :
    env.stSize file ≠ 0 ∧ a ∈ slotBytes name (addr 32 (env.stSize file + 4)) := by
  rcases saveFile_cases env name file flash with hsame | ⟨hsize, data, junk, hprogram⟩
  · rw [hsame] at h
    exact absurd rfl h
  · refine ⟨hsize, ?_⟩
    by_contra hout
    rw [hprogram, programIe_of_ne] at h
    · exact h rfl
    · intro k hk ha
      rw [word_saveBuffer_length] at hk
      rw [word_saveBuffer_name] at ha
      exact hout ⟨k, hk, by rw [← ha, ieStartAddress]; push_cast; rfl⟩

/-- No slot reaches the top of the address space. -/
theorem mem_slotBytes_iff {n : ℕ} (hn : n ≤ 0x10000) :
    a ∈ slotBytes name n ↔ ieStartAddress name ≤ a ∧ a < ieStartAddress name + n := by
  have hstep := writeStep_le name
  have hstart : ieStartAddress name = 0x20000 + writeStep name := rfl
  constructor
  · rintro ⟨k, hk, rfl⟩
    rw [addr_of_lt (by omega)]
    omega
  · rintro ⟨hle, hlt⟩
    refine ⟨a - ieStartAddress name, by omega, ?_⟩
    rw [addr_of_lt (by omega)]
    omega

/-- A save that nothing stops. -/
structure Completes (env : SaveEnv) (file : List UInt8) : Prop where
  stat : env.statFails = none
  malloc : (env.malloc (file.length + 12)).isSome
  read : file.length ≤ env.readLimit
  device : env.openDevice

variable (name flash) in
/-- A save that nothing stops programs the size and then the file. -/
theorem saveFile_programs (h : Completes env file) (hpos : 0 < file.length)
    (hlen : file.length + 12 < 2 ^ 32) : ∃ junk,
    (saveFile ecMisc env name file flash).flash =
      programIe (saveBuffer (writeStep name) file.length file junk) flash := by
  obtain ⟨hstat, hmalloc, hread, hdevice⟩ := h
  obtain ⟨junk, hjunk⟩ := Option.isSome_iff_exists.1 hmalloc
  have hsize : env.stSize file = file.length := by rw [SaveEnv.stSize, hstat, Option.getD_none]
  have hblock : addr 32 ((file.length : ℤ) + 12) = file.length + 12 := by
    exact_mod_cast addr_of_lt (n := file.length + 12) hlen
  have hcount : addr 32 (file.length : ℤ) = file.length := addr_of_lt (by omega)
  have hdata : file.take (min env.readLimit file.length) = file :=
    List.take_of_length_le (by omega)
  have hne : (file.length : ℤ) ≠ 0 := by omega
  refine ⟨junk, ?_⟩
  simp only [saveFile, hsize, hne, if_false, hblock, hjunk, hcount, hdata, hdevice, if_true]
  rfl

/-- Byte `k` of what the buffer programs. -/
theorem programIe_saveBuffer {data : List UInt8} {junk : ℕ → UInt8}
    (hlen : file.length + 0x60000 < 2 ^ 32) {k : ℕ} (hk : k < file.length + 4) :
    programIe (saveBuffer (writeStep name) file.length data junk) flash
      (ieStartAddress name + k) = saveBuffer (writeStep name) file.length data junk (8 + k) := by
  obtain ⟨buf, hbuf⟩ : ∃ buf, buf = saveBuffer (writeStep name) file.length data junk := ⟨_, rfl⟩
  have hstep := writeStep_le name
  have hoffset : word buf 0 4 = writeStep name := by rw [hbuf, word_saveBuffer_name]
  have hlength : word buf 4 4 = file.length + 4 := by
    rw [hbuf, word_saveBuffer_length]
    exact_mod_cast addr_of_lt (n := file.length + 4) (by omega)
  have hbyte : programIe buf flash (0x20000 + word buf 0 4 + k) = buf (8 + k) :=
    programIe_of_lt (by omega) (by omega)
  rw [ieStartAddress, ← hbuf, ← hbyte, hoffset]

variable (name flash) in
/-- Byte `k` of what a save programs. -/
theorem saveFile_byte (h : Completes env file) (hpos : 0 < file.length)
    (hlen : file.length + 0x60000 < 2 ^ 32) : ∃ junk, ∀ k < file.length + 4,
    (saveFile ecMisc env name file flash).flash (ieStartAddress name + k) =
      saveBuffer (writeStep name) file.length file junk (8 + k) := by
  obtain ⟨junk, hprogram⟩ := saveFile_programs name flash h hpos (by omega)
  refine ⟨junk, fun k hk => ?_⟩
  rw [hprogram, programIe_saveBuffer hlen hk]

end Save

/-- Under any name, `saveinfo` changes no byte but the first `st_size + 4` of a slot, and none
for a file that is empty or does not open. It stays within the slot if these bytes do, and a
name that is not known selects `smt`. `st_size` is the size of the file, unless `stat` fails. -/
theorem saveinfo_frame (env : SaveEnv) (argv0 path name : String) (rest : List String)
    (flash : Flash) :
    (∀ a, (saveinfo ecMisc env (argv0 :: path :: name :: rest) flash).flash a ≠ flash a →
      ∃ file, env.openFile path = some file ∧ env.stSize file ≠ 0 ∧
        a ∈ slotBytes name (addr 32 (env.stSize file + 4)) ∧
        (0 ≤ env.stSize file → env.stSize file ≤ 0xfffc → a ∈ slotBytes name 0x10000)) ∧
    (name ∉ ["smt", "fat", "frt", "fft"] → slotBytes name = slotBytes "smt") := by
  refine ⟨fun a h => ?_, fun hname => ?_⟩
  · rcases hopen : env.openFile path with _ | file
    · simp only [saveinfo, hopen, ne_eq, not_true_eq_false] at h
    · simp only [saveinfo, hopen] at h
      obtain ⟨hsize, k, hk, ha⟩ := saveFile_frame h
      refine ⟨file, rfl, hsize, ⟨k, hk, ha⟩, fun hnonneg hle => ⟨k, ?_, ha⟩⟩
      have hlength := addr_cast 32 (env.stSize file + 4)
      omega
  · obtain ⟨hsmt, hfat, hfrt, hfft⟩ :
        name ≠ "smt" ∧ name ≠ "fat" ∧ name ≠ "frt" ∧ name ≠ "fft" := by
      simpa using hname
    funext n
    simp only [slotBytes, ieStartAddress, writeStep, hsmt, hfat, hfrt, hfft, if_false, if_true,
      Nat.zero_mul]

/-- A system on which nothing fails and every path is this file. -/
def workingEnv (file : List UInt8) : SaveEnv where
  openFile _ := some file
  statFails := none
  malloc _ := some fun _ => 0
  readLimit := file.length
  openDevice := true

theorem completes_workingEnv (file : List UInt8) : Completes (workingEnv file) file :=
  ⟨rfl, rfl, le_rfl, rfl⟩

/-- The last byte of a file one byte too long for `smt` is the first of `fat`. -/
theorem saveinfo_overrun {file : List UInt8} (h : file.length = 0xfffd) (flash : Flash) :
    (saveinfo ecMisc (workingEnv file) ["saveinfo", "log", "smt"] flash).flash 0x30000 =
      file[0xfffc] := by
  obtain ⟨junk, hbyte⟩ :=
    saveFile_byte "smt" flash (completes_workingEnv file) (by omega) (by omega)
  rw [← saveBuffer_data (by omega), ← hbyte (4 + 0xfffc) (by omega)]
  rfl

/-- A name that is not known changes a byte of `smt`, and a file of 0xfffd bytes for `smt` one
of `fat`. -/
theorem saveinfo_leaves_slot :
    (saveinfo ecMisc (workingEnv [0x41]) ["saveinfo", "log", "xyz"] fun _ => 0xff).flash 0x20000 ≠
      0xff ∧
    (saveinfo ecMisc (workingEnv (List.replicate 0xfffd 0x41)) ["saveinfo", "log", "smt"]
      fun _ => 0xff).flash 0x30000 ≠ 0xff := by
  refine ⟨by decide, ?_⟩
  rw [saveinfo_overrun List.length_replicate, List.getElem_replicate]
  decide

/-! ## The shelf -/

/-- The places on the flash. -/
inductive Slot where
  | smt
  | fat
  | frt
  | fft
  deriving DecidableEq

def Slot.name : Slot → String
  | .smt => "smt"
  | .fat => "fat"
  | .frt => "frt"
  | .fft => "fft"

/-- A file that fits in a place. -/
structure Log where
  bytes : List UInt8
  pos : 0 < bytes.length
  fits : bytes.length ≤ 0xfffc

/-- The logs that are known. -/
abbrev Shelf := Slot → Option Log

theorem Slot.start_disjoint {s s' : Slot} (h : s ≠ s') :
    ieStartAddress s.name + 0x10000 ≤ ieStartAddress s'.name ∨
      ieStartAddress s'.name + 0x10000 ≤ ieStartAddress s.name := by
  revert h
  cases s <;> cases s' <;> decide

/-- The slot holds the size and the bytes of the log. -/
structure Holds (flash : Flash) (s : Slot) (log : Log) : Prop where
  size : word flash (ieStartAddress s.name) 4 = log.bytes.length
  bytes : ∀ k (hk : k < log.bytes.length),
    flash (ieStartAddress s.name + (4 + k)) = log.bytes[k]

def Represents (flash : Flash) (shelf : Shelf) : Prop :=
  ∀ s, ∀ log ∈ shelf s, Holds flash s log

/-- A run of `saveinfo` that opens a log and finds its size. -/
structure Save where
  env : SaveEnv
  argv0 : String
  path : String
  slot : Slot
  log : Log
  opens : env.openFile path = some log.bytes
  stat : env.statFails = none

/-- The flash after the run. -/
def Save.run (flash : Flash) (sv : Save) : Flash :=
  (saveinfo ecMisc sv.env [sv.argv0, sv.path, sv.slot.name] flash).flash

open Classical in
/-- A save that something stops leaves its place unknown. -/
noncomputable def Shelf.save (shelf : Shelf) (sv : Save) : Shelf :=
  Function.update shelf sv.slot (if Completes sv.env sv.log.bytes then some sv.log else none)

theorem Save.run_eq (flash : Flash) (sv : Save) :
    sv.run flash = (saveFile ecMisc sv.env sv.slot.name sv.log.bytes flash).flash := by
  simp only [Save.run, saveinfo, sv.opens]

/-- A save touches no other place. -/
theorem Save.run_of_ne {flash : Flash} {sv : Save} {s : Slot} (hs : s ≠ sv.slot) {k : ℕ}
    (hk : k < 0x10000) :
    sv.run flash (ieStartAddress s.name + k) = flash (ieStartAddress s.name + k) := by
  by_contra h
  rw [Save.run_eq] at h
  obtain ⟨-, j, hj, ha⟩ := saveFile_frame h
  have hsize : sv.env.stSize sv.log.bytes = sv.log.bytes.length := by
    rw [SaveEnv.stSize, sv.stat, Option.getD_none]
  have hfits := sv.log.fits
  have hlength := addr_cast 32 (sv.env.stSize sv.log.bytes + 4)
  have hmem : ieStartAddress s.name + k ∈ slotBytes sv.slot.name 0x10000 := ⟨j, by omega, ha⟩
  rw [mem_slotBytes_iff le_rfl] at hmem
  have hdisjoint := Slot.start_disjoint hs
  omega

theorem Holds.of_eq {flash flash' : Flash} {s : Slot} {log : Log} (h : Holds flash s log)
    (heq : ∀ k < 0x10000, flash' (ieStartAddress s.name + k) = flash (ieStartAddress s.name + k)) :
    Holds flash' s log := by
  have hfits := log.fits
  refine ⟨?_, fun k hk => ?_⟩
  · rw [← h.size, word, word]
    refine congrArg List.sum (List.map_congr_left fun i hi => ?_)
    rw [heq i (by have := List.mem_range.1 hi; omega)]
  · rw [heq _ (by omega), h.bytes k hk]

/-- A save that nothing stops puts its log in its place. -/
theorem Save.run_holds {flash : Flash} {sv : Save} (h : Completes sv.env sv.log.bytes) :
    Holds (sv.run flash) sv.slot sv.log := by
  have hpos := sv.log.pos
  have hfits := sv.log.fits
  obtain ⟨junk, hbyte⟩ := saveFile_byte sv.slot.name flash h hpos (by omega)
  rw [← Save.run_eq] at hbyte
  refine ⟨?_, fun k hk => ?_⟩
  · have hcount : addr 32 (sv.log.bytes.length : ℤ) = sv.log.bytes.length := addr_of_lt (by omega)
    refine (word_of_byteOf (v := sv.log.bytes.length) fun i hi => ?_).trans
      (Nat.mod_eq_of_lt (by omega))
    rw [hbyte i (by omega), saveBuffer_size hi, hcount]
  · rw [hbyte (4 + k) (by omega), saveBuffer_data hk]

/-- A run of `saveinfo` is a save on the shelf. -/
theorem Represents.save {flash : Flash} {shelf : Shelf} (h : Represents flash shelf) (sv : Save) :
    Represents (sv.run flash) (shelf.save sv) := by
  intro s log hlog
  by_cases hs : s = sv.slot
  · subst hs
    rw [Shelf.save, Function.update_self] at hlog
    by_cases hcompletes : Completes sv.env sv.log.bytes
    · rw [if_pos hcompletes, Option.mem_some_iff] at hlog
      subst hlog
      exact Save.run_holds hcompletes
    · rw [if_neg hcompletes] at hlog
      exact absurd hlog (Option.not_mem_none log)
  · rw [Shelf.save, Function.update_of_ne hs] at hlog
    exact (h s log hlog).of_eq fun k hk => Save.run_of_ne hs hk

/-- Runs of `saveinfo`, one after the other. -/
theorem Represents.saves {flash : Flash} {shelf : Shelf} (h : Represents flash shelf)
    (svs : List Save) : Represents (svs.foldl Save.run flash) (svs.foldl Shelf.save shelf) := by
  induction svs generalizing flash shelf with
  | nil => exact h
  | cons sv svs ih => exact ih (h.save sv)

theorem saves_of_ne {shelf : Shelf} {s : Slot} {svs : List Save} (h : ∀ sv ∈ svs, sv.slot ≠ s) :
    svs.foldl Shelf.save shelf s = shelf s := by
  induction svs generalizing shelf with
  | nil => rfl
  | cons sv svs ih =>
    rw [List.foldl_cons, ih fun sv' hsv' => h sv' (List.mem_cons_of_mem _ hsv'), Shelf.save,
      Function.update_of_ne (h sv List.mem_cons_self).symm]

/-! ## Reading a slot back -/

section Reading

variable {flash : Flash}

@[simp]
theorem readEcVal_ecMisc (val : UInt8) (a : ℕ) : readEcVal ecMisc flash val a = flash (addr 32 a) :=
  rfl

/-- The size that is put together is the little-endian word. -/
theorem readSize_ecMisc {start : ℕ} (h : start + 4 ≤ 2 ^ 32) :
    (readSize ecMisc flash start).1.toNat = word flash start 4 := by
  have haddr : ∀ k < 4, addr 32 (start + k : ℕ) = start + k := fun k hk => addr_of_lt (by omega)
  have h0 : addr 32 (start : ℤ) = start := addr_of_lt (by omega)
  rw [← toNat_shiftLeft_or_four]
  simp only [readSize, readEcVal_ecMisc, h0, haddr 1 (by omega), haddr 2 (by omega),
    haddr 3 (by omega)]

theorem readBytes_ecMisc {start n : ℕ} (h : start + n ≤ 2 ^ 32) (val : UInt8) :
    readBytes ecMisc flash start n val = (List.range n).map fun (k : ℕ) => flash (start + k) := by
  induction n generalizing start val with
  | zero => rfl
  | succ n ih =>
    have haddr : addr 32 (start : ℤ) = start := addr_of_lt (by omega)
    rw [readBytes, ih (by omega), readEcVal_ecMisc, haddr, List.range_succ_eq_map, List.map_cons,
      List.map_map, Nat.add_zero]
    refine congrArg _ (List.map_congr_left fun k _ => ?_)
    rw [Function.comp_apply, Nat.add_assoc, Nat.add_comm 1 k]

/-- `readinfo` writes the log that its slot holds. -/
theorem Holds.readinfo {s : Slot} {log : Log} (h : Holds flash s log) {env : ReadEnv}
    {path : String} (hdevice : env.openDevice) (hmalloc : env.malloc log.bytes.length)
    (hfopen : env.fopen path) (argv0 : String) :
    (readinfo ecMisc env [argv0, path, s.name] flash).exit = .status 0 ∧
    (readinfo ecMisc env [argv0, path, s.name] flash).file = some log.bytes := by
  have hfits := log.fits
  have hstart : ieStartAddress s.name = 0x20000 + writeStep s.name := rfl
  have hstep := writeStep_le s.name
  have hsize : (readSize ecMisc flash (ieStartAddress s.name)).1.toNat = log.bytes.length :=
    (readSize_ecMisc (by omega)).trans h.size
  have hbytes (val : UInt8) :
      readBytes ecMisc flash (ieStartAddress s.name + 4) log.bytes.length val = log.bytes := by
    rw [readBytes_ecMisc (by omega)]
    refine List.ext_getElem (by simp) fun k hk hk' => ?_
    rw [List.getElem_map, List.getElem_range, Nat.add_assoc, h.bytes k hk']
  simp only [LxToolset.readinfo, hdevice, if_true, readFile, hsize, hmalloc, hfopen, hbytes]
  exact ⟨rfl, rfl⟩

end Reading

/-- After a save that nothing stops and any saves to other slots, `readinfo` writes the log
that was saved. -/
theorem readinfo_saves (flash : Flash) (sv : Save) (h : Completes sv.env sv.log.bytes)
    (later : List Save) (hlater : ∀ sv' ∈ later, sv'.slot ≠ sv.slot) (env : ReadEnv)
    (argv0 path : String) (hdevice : env.openDevice) (hmalloc : env.malloc sv.log.bytes.length)
    (hfopen : env.fopen path) :
    (readinfo ecMisc env [argv0, path, sv.slot.name] (later.foldl Save.run (sv.run flash))).exit =
      .status 0 ∧
    (readinfo ecMisc env [argv0, path, sv.slot.name] (later.foldl Save.run (sv.run flash))).file =
      some sv.log.bytes := by
  have hempty : Represents flash fun _ => none := fun _ log hlog =>
    absurd hlog (Option.not_mem_none log)
  have hshelf := (hempty.save sv).saves later
  refine (hshelf sv.slot sv.log ?_).readinfo hdevice hmalloc hfopen argv0
  rw [saves_of_ne hlater, Shelf.save, Function.update_self, if_pos h]
  rfl

def plainSave (slot : Slot) (log : Log) : Save where
  env := workingEnv log.bytes
  argv0 := "saveinfo"
  path := "log"
  slot := slot
  log := log
  opens := rfl
  stat := rfl

/-- A log of two bytes on a blank flash, and one for another slot after it. -/
theorem readinfo_saves_fat :
    (readinfo ecMisc ⟨true, fun _ => true, fun _ => true⟩ ["readinfo", "copy", "fat"]
      ([plainSave .smt ⟨[0x43], by decide, by decide⟩].foldl Save.run
        ((plainSave .fat ⟨[0x41, 0x42], by decide, by decide⟩).run fun _ => 0xff))).exit =
      .status 0 ∧
    (readinfo ecMisc ⟨true, fun _ => true, fun _ => true⟩ ["readinfo", "copy", "fat"]
      ([plainSave .smt ⟨[0x43], by decide, by decide⟩].foldl Save.run
        ((plainSave .fat ⟨[0x41, 0x42], by decide, by decide⟩).run fun _ => 0xff))).file =
      some [0x41, 0x42] :=
  readinfo_saves _ (plainSave .fat ⟨[0x41, 0x42], by decide, by decide⟩) (completes_workingEnv _)
    [plainSave .smt ⟨[0x43], by decide, by decide⟩] (by simp [plainSave])
    ⟨true, fun _ => true, fun _ => true⟩ "readinfo" "copy" rfl rfl rfl

end LxToolset
