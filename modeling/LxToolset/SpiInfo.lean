import LxToolset.Memory
import Mathlib.Data.BitVec

/-!
# saveinfo and readinfo

Two programs that share the flash of the embedded controller. `saveinfo` programs a file
behind its size into the slot of a name, `readinfo` writes what a slot holds to a file. Both
reach the flash through the driver `ec_misc`, which is only there as a binary : `EcMisc` is
any driver, `ecMisc` the one the programs take it for.

An `unsigned long` has 32 bits.
-/

namespace LxToolset

open Memory

/-- The flash, by 32-bit address. -/
abbrev Flash := ℕ → UInt8

/-- The driver : what an ioctl returns, what `IOCTL_PROGRAM_IE` does with the buffer, and the
`val` that `IOCTL_READ_EC` stores, if it stores one. -/
structure EcMisc where
  programIe : (ℕ → UInt8) → Flash → ℤ × Flash
  readEc : ℕ → Flash → ℤ × Option UInt8

/-- `IOCTL_PROGRAM_IE` with the words `offset` and `length` and the bytes after them. -/
def programIe (buf : ℕ → UInt8) (flash : Flash) : Flash :=
  write flash ((List.range (word buf 4 4)).map fun (k : ℕ) =>
    (addr 32 (0x20000 + word buf 0 4 + k), buf (8 + k)))

/-- The driver that does what it is asked. -/
def ecMisc : EcMisc where
  programIe buf flash := (0, programIe buf flash)
  readEc a flash := (0, some (flash a))

/-- How a program ends : with a status, or by a store through NULL. -/
inductive Exit where
  | status (code : ℤ)
  | fault
  deriving DecidableEq

/-- `write_step` after the chain of `strcmp`s. -/
def writeStep (name : String) : ℕ :=
  if name = "smt" then 0 * 0x10000
  else if name = "fat" then 1 * 0x10000
  else if name = "frt" then 2 * 0x10000
  else if name = "fft" then 3 * 0x10000
  else 0

/-- `IE_START_ADDRESS`. -/
def ieStartAddress (name : String) : ℕ :=
  0x20000 + writeStep name

section Reading

variable (d : EcMisc) (flash : Flash)

/-- `ecreg.val` after `IOCTL_READ_EC`. -/
def readEcVal (val : UInt8) (a : ℕ) : UInt8 :=
  (d.readEc (addr 32 a) flash).2.getD val

/-- The size as both programs put it together, with the last `ecreg.val`. -/
def readSize (start : ℕ) : BitVec 32 × UInt8 :=
  let val0 := readEcVal d flash 0 start
  let val1 := readEcVal d flash val0 (start + 1)
  let val2 := readEcVal d flash val1 (start + 2)
  let val3 := readEcVal d flash val2 (start + 3)
  let size : BitVec 32 := val0.toBitVec.setWidth 32
  let size := val1.toBitVec.setWidth 32 <<< 8 ||| size
  let size := val2.toBitVec.setWidth 32 <<< 16 ||| size
  (val3.toBitVec.setWidth 32 <<< 24 ||| size, val3)

/-- The bytes that `n` rounds of the loop of `readinfo` read from `start` on. -/
def readBytes (start : ℕ) : ℕ → UInt8 → List UInt8
  | 0, _ => []
  | n + 1, val =>
    let val := readEcVal d flash val start
    val :: readBytes (start + 1) n val

/-- The addresses of `n` reads. -/
def readAddrs (start n : ℕ) : List ℕ :=
  (List.range n).map fun (k : ℕ) => addr 32 ↑(start + k)

end Reading

/-! ## saveinfo -/

/-- What `saveinfo` finds : the files, the `st_size` on its stack if `stat` fails, the
outcome of `malloc` with the bytes of the new block, how many bytes `read` stores at most,
and whether the device opens. -/
structure SaveEnv where
  openFile : String → Option (List UInt8)
  statFails : Option ℤ
  malloc : ℕ → Option (ℕ → UInt8)
  readLimit : ℕ
  openDevice : Bool

/-- `st.st_size`. -/
def SaveEnv.stSize (env : SaveEnv) (file : List UInt8) : ℤ :=
  env.statFails.getD file.length

/-- `*(unsigned long *)(buf + k) = v`. -/
def poke (buf : ℕ → UInt8) (k v : ℕ) : ℕ → UInt8 :=
  fun i => if k ≤ i ∧ i < k + 4 then byteOf v (i - k) else buf i

/-- The buffer for `IOCTL_PROGRAM_IE`, in a block that held `junk`. -/
def saveBuffer (step : ℕ) (stSize : ℤ) (data : List UInt8) (junk : ℕ → UInt8) : ℕ → UInt8 :=
  let buf := poke (poke (poke junk 0 step) 4 (addr 32 (stSize + 4))) 8 (addr 32 stSize)
  fun i => if 12 ≤ i then (data[i - 12]?).getD (buf i) else buf i

/-- A run of `saveinfo` : its end, the flash after it, what it printed and the addresses of
its `IOCTL_READ_EC`s. -/
structure SaveRun where
  exit : Exit
  flash : Flash
  stdout : String
  reads : List ℕ

/-- `saveinfo` once its file is open. -/
def saveFile (d : EcMisc) (env : SaveEnv) (name : String) (file : List UInt8) (flash : Flash) :
    SaveRun :=
  let stSize := env.stSize file
  if stSize = 0 then ⟨.status 0, flash, "", []⟩
  else
    match env.malloc (addr 32 (stSize + 12)) with
    | none => ⟨.fault, flash, "", []⟩
    | some junk =>
      let data := file.take (min env.readLimit (addr 32 stSize))
      if env.openDevice then
        let (ret, flash) := d.programIe (saveBuffer (writeStep name) stSize data junk) flash
        if ret < 0 then ⟨.status 2, flash, "program ie : ioctl error.\n", []⟩
        -- the size is read back and dropped
        else ⟨.status 0, flash, "", readAddrs (ieStartAddress name) 4⟩
      else ⟨.status 1, flash, "open error.\n", []⟩

/-- `main` of `saveinfo`. -/
def saveinfo (d : EcMisc) (env : SaveEnv) (argv : List String) (flash : Flash) : SaveRun :=
  match argv with
  | _ :: path :: name :: _ =>
    match env.openFile path with
    | none => ⟨.status (-2), flash, path ++ " not found\n", []⟩
    | some file => saveFile d env name file flash
  | argv0 :: _ => ⟨.status (-1), flash, argv0 ++ " file\n", []⟩
  | [] => ⟨.status (-1), flash, "(null) file\n", []⟩

/-! ## readinfo -/

/-- What `readinfo` finds : whether the device opens, a `malloc` succeeds and a file can be
written. -/
structure ReadEnv where
  openDevice : Bool
  malloc : ℕ → Bool
  fopen : String → Bool

/-- A run of `readinfo` : its end, what it printed, the file it wrote, the addresses of its
`IOCTL_READ_EC`s, the size of its block and the indices of its stores there. -/
structure ReadRun where
  exit : Exit
  stdout : String
  file : Option (List UInt8)
  reads : List ℕ
  block : Option ℕ
  stores : List ℤ

/-- `readinfo` once it has the size. -/
def readFile (d : EcMisc) (env : ReadEnv) (path : String) (start : ℕ) (flash : Flash)
    (size : BitVec 32) (val : UInt8) : ReadRun :=
  let n := size.toNat
  let block := if env.malloc n then some n else none
  let reads := readAddrs start 4
  if env.fopen path then
    -- the first store through NULL comes before the first byte is written
    if block = none ∧ 0 < n then ⟨.fault, "", some [], reads ++ readAddrs (start + 4) 1, none, [0]⟩
    else ⟨.status 0, "", some (readBytes d flash (start + 4) n val),
      reads ++ readAddrs (start + 4) n, block,
      (List.range n).map fun (i : ℕ) => Int.bmod i (2 ^ 32)⟩
  else ⟨.status (-1), "", none, reads, block, []⟩

/-- `main` of `readinfo`. -/
def readinfo (d : EcMisc) (env : ReadEnv) (argv : List String) (flash : Flash) : ReadRun :=
  match argv with
  | _ :: path :: name :: _ =>
    if env.openDevice then
      readFile d env path (ieStartAddress name) flash (readSize d flash (ieStartAddress name)).1
        (readSize d flash (ieStartAddress name)).2
    else ⟨.status (-1), "open error.\n", none, [], none, []⟩
  | _ => ⟨.status (-1), "", none, [], none, []⟩

end LxToolset
