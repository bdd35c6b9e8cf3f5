import LxToolset.Blocks
import Mathlib.Data.BitVec
import Mathlib.Data.List.GetD

/-!
# The hash of md5stream.c

MD5 computed in words of any width from 32 bits on, of which the code keeps the upper bits zero.
`md5` is the hash as it is defined, on words of 32 bits and on the padded message as a whole.
`MD5_transform` is its compression function on widened words (`transform_widen`), and the digest
after `MD5_start`, `MD5_feed` for each byte and `MD5_stop` is the hash of these bytes, however many
(`md5Stop_eq`).
-/

set_option linter.unusedSectionVars false

namespace LxToolset

/-- The four chaining variables. -/
structure Md5Buf (W : ℕ) where
  a : BitVec W
  b : BitVec W
  c : BitVec W
  d : BitVec W
  deriving DecidableEq

/-- `struct md5_ctx`, with the 16 words of `in` as a function. -/
structure Md5Ctx (W : ℕ) where
  buf : Md5Buf W
  bits0 : BitVec W
  bits1 : BitVec W
  input : ℕ → BitVec W
  b : ℕ

/-- The functions of the four rounds. -/
inductive Md5F where
  | f1 | f2 | f3 | f4
  deriving DecidableEq

/-- The function, the word of the block, the constant and the shift of each `MD5STEP`. From one to
the next the variables move on by one place. -/
def md5Steps : List (Md5F × ℕ × ℕ × ℕ) :=
  [(.f1, 0, 0xd76aa478, 7), (.f1, 1, 0xe8c7b756, 12), (.f1, 2, 0x242070db, 17),
    (.f1, 3, 0xc1bdceee, 22), (.f1, 4, 0xf57c0faf, 7), (.f1, 5, 0x4787c62a, 12),
    (.f1, 6, 0xa8304613, 17), (.f1, 7, 0xfd469501, 22), (.f1, 8, 0x698098d8, 7),
    (.f1, 9, 0x8b44f7af, 12), (.f1, 10, 0xffff5bb1, 17), (.f1, 11, 0x895cd7be, 22),
    (.f1, 12, 0x6b901122, 7), (.f1, 13, 0xfd987193, 12), (.f1, 14, 0xa679438e, 17),
    (.f1, 15, 0x49b40821, 22), (.f2, 1, 0xf61e2562, 5), (.f2, 6, 0xc040b340, 9),
    (.f2, 11, 0x265e5a51, 14), (.f2, 0, 0xe9b6c7aa, 20), (.f2, 5, 0xd62f105d, 5),
    (.f2, 10, 0x02441453, 9), (.f2, 15, 0xd8a1e681, 14), (.f2, 4, 0xe7d3fbc8, 20),
    (.f2, 9, 0x21e1cde6, 5), (.f2, 14, 0xc33707d6, 9), (.f2, 3, 0xf4d50d87, 14),
    (.f2, 8, 0x455a14ed, 20), (.f2, 13, 0xa9e3e905, 5), (.f2, 2, 0xfcefa3f8, 9),
    (.f2, 7, 0x676f02d9, 14), (.f2, 12, 0x8d2a4c8a, 20), (.f3, 5, 0xfffa3942, 4),
    (.f3, 8, 0x8771f681, 11), (.f3, 11, 0x6d9d6122, 16), (.f3, 14, 0xfde5380c, 23),
    (.f3, 1, 0xa4beea44, 4), (.f3, 4, 0x4bdecfa9, 11), (.f3, 7, 0xf6bb4b60, 16),
    (.f3, 10, 0xbebfbc70, 23), (.f3, 13, 0x289b7ec6, 4), (.f3, 0, 0xeaa127fa, 11),
    (.f3, 3, 0xd4ef3085, 16), (.f3, 6, 0x04881d05, 23), (.f3, 9, 0xd9d4d039, 4),
    (.f3, 12, 0xe6db99e5, 11), (.f3, 15, 0x1fa27cf8, 16), (.f3, 2, 0xc4ac5665, 23),
    (.f4, 0, 0xf4292244, 6), (.f4, 7, 0x432aff97, 10), (.f4, 14, 0xab9423a7, 15),
    (.f4, 5, 0xfc93a039, 21), (.f4, 12, 0x655b59c3, 6), (.f4, 3, 0x8f0ccc92, 10),
    (.f4, 10, 0xffeff47d, 15), (.f4, 1, 0x85845dd1, 21), (.f4, 8, 0x6fa87e4f, 6),
    (.f4, 15, 0xfe2ce6e0, 10), (.f4, 6, 0xa3014314, 15), (.f4, 13, 0x4e0811a1, 21),
    (.f4, 4, 0xf7537e82, 6), (.f4, 11, 0xbd3af235, 10), (.f4, 2, 0x2ad7d2bb, 15),
    (.f4, 9, 0xeb86d391, 21)]

section Code

variable {W : ℕ}

/-- `0xffffffffUL` -/
def low (W : ℕ) : BitVec W :=
  BitVec.ofNat W 0xffffffff

/-- `F1` to `F4`. -/
def Md5F.apply : Md5F → BitVec W → BitVec W → BitVec W → BitVec W
  | .f1, x, y, z => z ^^^ (x &&& (y ^^^ z))
  | .f2, x, y, z => y ^^^ (z &&& (x ^^^ y))
  | .f3, x, y, z => x ^^^ y ^^^ z
  | .f4, x, y, z => (y ^^^ (x ||| ~~~z)) &&& low W

/-- `MD5STEP` -/
def md5Step (f : Md5F) (w x y z data : BitVec W) (s : ℕ) : BitVec W :=
  let w := w + (f.apply x y z + data)
  let w := ((w <<< s) &&& low W) ||| ((w &&& low W) >>> (32 - s))
  (w + x) &&& low W

/-- An `MD5STEP` of `MD5_transform` on the variables in their order. -/
def transformStep (input : ℕ → BitVec W) (q : Md5Buf W) (step : Md5F × ℕ × ℕ × ℕ) : Md5Buf W :=
  let (f, k, t, s) := step
  ⟨q.d, md5Step f q.a q.b q.c q.d (input k + BitVec.ofNat W t) s, q.b, q.c⟩

/-- `MD5_transform` -/
def transform (buf : Md5Buf W) (input : ℕ → BitVec W) : Md5Buf W :=
  let q := md5Steps.foldl (transformStep input) buf
  ⟨(buf.a + q.a) &&& low W, (buf.b + q.b) &&& low W, (buf.c + q.c) &&& low W,
    (buf.d + q.d) &&& low W⟩

/-- `MD5_start` -/
def md5Start (W : ℕ) : Md5Ctx W where
  buf := ⟨BitVec.ofNat W 0x67452301, BitVec.ofNat W 0xefcdab89, BitVec.ofNat W 0x98badcfe,
    BitVec.ofNat W 0x10325476⟩
  bits0 := 0
  bits1 := 0
  input _ := 0
  b := 0

/-- `MD5_feed` -/
def md5Feed (ctx : Md5Ctx W) (inb : UInt8) : Md5Ctx W :=
  let word := ctx.input (ctx.b / 4) ||| (inb.toBitVec.setWidth W) <<< (ctx.b % 4 * 8)
  let ctx := { ctx with input := Function.update ctx.input (ctx.b / 4) word, b := ctx.b + 1 }
  let ctx := if ctx.b ≥ 64 then
    { ctx with buf := transform ctx.buf ctx.input, b := 0, input := fun _ => 0 } else ctx
  let temp := ctx.bits0
  let ctx := { ctx with bits0 := (ctx.bits0 + 8) &&& low W }
  if temp > ctx.bits0 then { ctx with bits1 := ctx.bits1 + 1 } else ctx

/-- `for ( ; ctx->b!=56 ; ) MD5_feed (ctx, 0);`, at most `fuel` times. -/
def md5Fill : ℕ → Md5Ctx W → Option (Md5Ctx W)
  | 0, _ => none
  | fuel + 1, ctx => if ctx.b ≠ 56 then md5Fill fuel (md5Feed ctx 0) else some ctx

/-- The byte of `x` from bit `s` on. -/
def byteAt (x : BitVec W) (s : ℕ) : UInt8 :=
  UInt8.ofBitVec (((x >>> s) &&& BitVec.ofNat W 0xff).setWidth 8)

def wordBytes (x : BitVec W) : List UInt8 :=
  [byteAt x 0, byteAt x 8, byteAt x 16, byteAt x 24]

def Md5Buf.bytes (q : Md5Buf W) : List UInt8 :=
  wordBytes q.a ++ wordBytes q.b ++ wordBytes q.c ++ wordBytes q.d

/-- `MD5_stop`: the context it leaves, of which the digest is `bytes`. -/
def md5Stop (fuel : ℕ) (ctx : Md5Ctx W) : Option (Md5Ctx W) := do
  let lengths := wordBytes ctx.bits0 ++ wordBytes ctx.bits1
  let ctx ← md5Fill fuel (md5Feed ctx 0x80)
  return lengths.foldl md5Feed ctx

end Code

/-! ## The hash -/

/-- The functions of the four rounds, as the hash defines them. -/
def specF : ℕ → BitVec 32 → BitVec 32 → BitVec 32 → BitVec 32
  | 0, x, y, z => (x &&& y) ||| (~~~x &&& z)
  | 1, x, y, z => (x &&& z) ||| (y &&& ~~~z)
  | 2, x, y, z => x ^^^ y ^^^ z
  | _, x, y, z => y ^^^ (x ||| ~~~z)

/-- The word of the block that step `i` takes. -/
def specIndex (i : ℕ) : ℕ :=
  match i / 16 with
  | 0 => i % 16
  | 1 => (5 * i + 1) % 16
  | 2 => (3 * i + 5) % 16
  | _ => 7 * i % 16

/-- How far step `i` rotates. -/
def specShift (i : ℕ) : ℕ :=
  ([[7, 12, 17, 22], [5, 9, 14, 20], [4, 11, 16, 23], [6, 10, 15, 21]].getD (i / 16) []).getD
    (i % 4) 0

/-- The table of the hash : entry `i` is the whole part of `2 ^ 32 * |sin (i + 1)|`. -/
def sineTable : List ℕ :=
  [0xd76aa478, 0xe8c7b756, 0x242070db, 0xc1bdceee, 0xf57c0faf, 0x4787c62a, 0xa8304613, 0xfd469501,
    0x698098d8, 0x8b44f7af, 0xffff5bb1, 0x895cd7be, 0x6b901122, 0xfd987193, 0xa679438e, 0x49b40821,
    0xf61e2562, 0xc040b340, 0x265e5a51, 0xe9b6c7aa, 0xd62f105d, 0x02441453, 0xd8a1e681, 0xe7d3fbc8,
    0x21e1cde6, 0xc33707d6, 0xf4d50d87, 0x455a14ed, 0xa9e3e905, 0xfcefa3f8, 0x676f02d9, 0x8d2a4c8a,
    0xfffa3942, 0x8771f681, 0x6d9d6122, 0xfde5380c, 0xa4beea44, 0x4bdecfa9, 0xf6bb4b60, 0xbebfbc70,
    0x289b7ec6, 0xeaa127fa, 0xd4ef3085, 0x04881d05, 0xd9d4d039, 0xe6db99e5, 0x1fa27cf8, 0xc4ac5665,
    0xf4292244, 0x432aff97, 0xab9423a7, 0xfc93a039, 0x655b59c3, 0x8f0ccc92, 0xffeff47d, 0x85845dd1,
    0x6fa87e4f, 0xfe2ce6e0, 0xa3014314, 0x4e0811a1, 0xf7537e82, 0xbd3af235, 0x2ad7d2bb, 0xeb86d391]

/-- The constant of step `i`. -/
def specConst (i : ℕ) : ℕ :=
  sineTable.getD i 0

def specStep (block : ℕ → BitVec 32) (q : Md5Buf 32) (i : ℕ) : Md5Buf 32 :=
  ⟨q.d, q.b + (q.a + specF (i / 16) q.b q.c q.d + block (specIndex i) +
    BitVec.ofNat 32 (specConst i)).rotateLeft (specShift i), q.b, q.c⟩

/-- Byte `i` of a block, in its place of a word. -/
def placed (W : ℕ) (block : List UInt8) (i : ℕ) : BitVec W :=
  (block.getD i 0).toBitVec.setWidth W <<< (i % 4 * 8)

/-- Word `k` of a block of bytes, the lowest byte first. -/
def leWord (W : ℕ) (block : List UInt8) (k : ℕ) : BitVec W :=
  placed W block (4 * k) ||| placed W block (4 * k + 1) ||| placed W block (4 * k + 2) |||
    placed W block (4 * k + 3)

/-- The compression function, on the words of a block. -/
def specTransform (q : Md5Buf 32) (block : ℕ → BitVec 32) : Md5Buf 32 :=
  let r := (List.range 64).foldl (specStep block) q
  ⟨q.a + r.a, q.b + r.b, q.c + r.c, q.d + r.d⟩

def specCompress (q : Md5Buf 32) (block : List UInt8) : Md5Buf 32 :=
  specTransform q (leWord 32 block)

/-- The message, a bit set, zeros, and the length in bits, up to a multiple of 64 bytes. -/
def md5Pad (message : List UInt8) : List UInt8 :=
  message ++ 0x80 :: List.replicate ((119 - message.length % 64) % 64) 0 ++
    (wordBytes (BitVec.ofNat 32 (8 * message.length)) ++
      wordBytes (BitVec.ofNat 32 (8 * message.length / 2 ^ 32)))

def md5Init : Md5Buf 32 :=
  ⟨0x67452301, 0xefcdab89, 0x98badcfe, 0x10325476⟩

/-- The chaining variables at the end. -/
def md5State (message : List UInt8) : Md5Buf 32 :=
  Blocks.absorb 64 specCompress md5Init (md5Pad message)

/-- The hash of a message. -/
def md5 (message : List UInt8) : List UInt8 :=
  (md5State message).bytes

theorem md5_abc : md5 [0x61, 0x62, 0x63] =
    [0x90, 0x01, 0x50, 0x98, 0x3c, 0xd2, 0x4f, 0xb0,
      0xd6, 0x96, 0x3f, 0x7d, 0x28, 0xe1, 0x7f, 0x72] := by
  decide +kernel

/-! ## Widened words -/

section Widen

variable {W s : ℕ} {x y z : BitVec 32}

theorem getLsbD_low (i : ℕ) : (low W).getLsbD i = (decide (i < W) && decide (i < 32)) := by
  have hlow : 0xffffffff = 2 ^ 32 - 1 := rfl
  rw [low, BitVec.getLsbD_ofNat, hlow, Nat.testBit_two_pow_sub_one]

/-- The mask keeps the word of 32 bits, and nothing above it. -/
theorem and_low (v : BitVec W) : v &&& low W = (v.setWidth 32).setWidth W := by
  refine BitVec.eq_of_getLsbD_eq fun i hi => ?_
  rw [BitVec.getLsbD_and, getLsbD_low, BitVec.getLsbD_setWidth, BitVec.getLsbD_setWidth]
  cases v.getLsbD i <;> simp [hi]

theorem setWidth_widen (hW : 32 ≤ W) : (x.setWidth W).setWidth 32 = x := by
  rw [BitVec.setWidth_setWidth_of_le _ hW, BitVec.setWidth_eq]

theorem rotate_widen (hs : s < 32) (hW : 32 ≤ W) (v : BitVec W) :
    ((v <<< s) &&& low W) ||| ((v &&& low W) >>> (32 - s)) =
      ((v.setWidth 32).rotateLeft s).setWidth W := by
  refine BitVec.eq_of_getLsbD_eq fun i hi => ?_
  rw [BitVec.getLsbD_or, BitVec.getLsbD_and, BitVec.getLsbD_ushiftRight, BitVec.getLsbD_and,
    BitVec.getLsbD_shiftLeft, getLsbD_low, getLsbD_low, BitVec.getLsbD_setWidth,
    BitVec.getLsbD_rotateLeft, Nat.mod_eq_of_lt hs, BitVec.getLsbD_setWidth,
    BitVec.getLsbD_setWidth]
  rcases Nat.lt_or_ge i s with h | h
  · have hback : 32 - s + i < 32 := by omega
    have hwide : 32 - s + i < W := by omega
    simp [h, hi, hback, hwide]
  · have hback : ¬ 32 - s + i < 32 := by omega
    have hlow : i < 32 → i - s < 32 := fun h => by omega
    by_cases hi' : i < 32
    · simp [hback, hi, hi', hlow hi', Nat.not_lt.2 h]
    · simp [hback, hi, hi', Nat.not_lt.2 h]

/-- The function of round `j`. -/
def roundF (j : ℕ) : Md5F :=
  [Md5F.f1, .f2, .f3, .f4].getD j .f4

/-- The functions on widened words. -/
theorem apply_widen (hW : 32 ≤ W) (j : ℕ) :
    (roundF j).apply (x.setWidth W) (y.setWidth W) (z.setWidth W) =
      (specF j x y z).setWidth W := by
  have hmux : ∀ x y z : BitVec 32, z ^^^ (x &&& (y ^^^ z)) = (x &&& y) ||| (~~~x &&& z) := by
    intro x y z
    refine BitVec.eq_of_getLsbD_eq fun i hi => ?_
    simp only [BitVec.getLsbD_xor, BitVec.getLsbD_and, BitVec.getLsbD_or, BitVec.getLsbD_not, hi,
      decide_true, Bool.true_and]
    cases x.getLsbD i <;> cases y.getLsbD i <;> cases z.getLsbD i <;> rfl
  rcases j with - | - | - | j
  · change z.setWidth W ^^^ (x.setWidth W &&& (y.setWidth W ^^^ z.setWidth W)) = _
    rw [specF, ← hmux, BitVec.setWidth_xor, BitVec.setWidth_and, BitVec.setWidth_xor]
  · change y.setWidth W ^^^ (z.setWidth W &&& (x.setWidth W ^^^ y.setWidth W)) = _
    rw [specF, BitVec.and_comm x z, BitVec.and_comm y, ← hmux z x y, BitVec.setWidth_xor,
      BitVec.setWidth_and, BitVec.setWidth_xor]
  · change x.setWidth W ^^^ y.setWidth W ^^^ z.setWidth W = _
    rw [specF, BitVec.setWidth_xor, BitVec.setWidth_xor]
  · have hlast : roundF (j + 1 + 1 + 1) = .f4 := by cases j <;> rfl
    rw [hlast]
    change (y.setWidth W ^^^ (x.setWidth W ||| ~~~z.setWidth W)) &&& low W = _
    rw [and_low, BitVec.setWidth_xor, BitVec.setWidth_or, BitVec.setWidth_not hW,
      setWidth_widen hW, setWidth_widen hW, setWidth_widen hW]
    rfl

/-- A step on widened words rotates in 32 bits. -/
theorem step_widen {w : BitVec 32} {data : BitVec W} (hW : 32 ≤ W) (hs : s < 32) (j : ℕ) :
    md5Step (roundF j) (w.setWidth W) (x.setWidth W) (y.setWidth W) (z.setWidth W) data s =
      (x + (w + specF j x y z + data.setWidth 32).rotateLeft s).setWidth W := by
  simp only [md5Step, apply_widen hW, rotate_widen hs hW]
  rw [and_low, BitVec.setWidth_add _ _ hW, BitVec.setWidth_add _ _ hW, BitVec.setWidth_add _ _ hW,
    setWidth_widen hW, setWidth_widen hW, setWidth_widen hW, setWidth_widen hW, BitVec.add_comm x,
    BitVec.add_assoc w]

def Md5Buf.widen (W : ℕ) (q : Md5Buf 32) : Md5Buf W :=
  ⟨q.a.setWidth W, q.b.setWidth W, q.c.setWidth W, q.d.setWidth W⟩

/-- The steps that the code spells out are those of the definition. -/
theorem md5Steps_eq : md5Steps = (List.range 64).map fun i =>
    (roundF (i / 16), specIndex i, specConst i, specShift i) := by
  decide +kernel

theorem specShift_lt : ∀ i < 64, specShift i < 32 := by
  decide +kernel

theorem transformStep_widen {block : ℕ → BitVec 32} {q : Md5Buf 32} {i : ℕ} (hW : 32 ≤ W)
    (hi : i < 64) :
    transformStep (fun k => (block k).setWidth W) (q.widen W)
        (roundF (i / 16), specIndex i, specConst i, specShift i) =
      (specStep block q i).widen W := by
  have hdata : ((block (specIndex i)).setWidth W + BitVec.ofNat W (specConst i)).setWidth 32 =
      block (specIndex i) + BitVec.ofNat 32 (specConst i) := by
    rw [BitVec.setWidth_add _ _ hW, setWidth_widen hW, BitVec.setWidth_ofNat_of_le hW]
  simp only [transformStep, Md5Buf.widen, step_widen hW (specShift_lt i hi), hdata, specStep,
    BitVec.add_assoc]

/-- `MD5_transform` is the compression function, whatever the width of a `long`. -/
theorem transform_widen (hW : 32 ≤ W) (q : Md5Buf 32) (block : ℕ → BitVec 32) :
    transform (q.widen W) (fun k => (block k).setWidth W) = (specTransform q block).widen W := by
  have hfold : ∀ l : List ℕ, (∀ i ∈ l, i < 64) → ∀ r : Md5Buf 32,
      (l.map fun i => (roundF (i / 16), specIndex i, specConst i, specShift i)).foldl
        (transformStep fun k => (block k).setWidth W) (r.widen W) =
      (l.foldl (specStep block) r).widen W := by
    intro l
    induction l with
    | nil => exact fun _ _ => rfl
    | cons i l ih =>
      intro hl r
      rw [List.map_cons, List.foldl_cons, List.foldl_cons,
        transformStep_widen hW (hl i List.mem_cons_self)]
      exact ih (fun k hk => hl k (List.mem_cons_of_mem _ hk)) _
  have hadd : ∀ u v : BitVec 32, (u.setWidth W + v.setWidth W) &&& low W = (u + v).setWidth W := by
    intro u v
    rw [and_low, BitVec.setWidth_add _ _ hW, setWidth_widen hW, setWidth_widen hW]
  simp only [transform, md5Steps_eq, hfold _ (fun i => List.mem_range.1) q, specTransform]
  simp only [Md5Buf.widen, hadd]

end Widen

/-! ## Feeding -/

section Feed

variable {W n k m : ℕ} {q : Md5Buf 32} {p : List UInt8} {x : UInt8}

theorem getD_concat (p : List UInt8) (x : UInt8) (k : ℕ) :
    (p ++ [x]).getD k 0 = if k = p.length then x else p.getD k 0 := by
  split_ifs with h
  · subst h
    simp
  · rcases Nat.lt_or_gt_of_ne h with hlt | hgt
    · rw [List.getD_append _ _ _ _ hlt]
    · rw [List.getD_append_right _ _ _ _ hgt.le, List.getD_eq_default _ _ hgt.le,
        List.getD_eq_default _ _ (by simp; omega)]

/-- A byte more goes into its place. -/
theorem placed_concat (p : List UInt8) (x : UInt8) (k : ℕ) :
    placed W (p ++ [x]) k = placed W p k |||
      if k = p.length then (x.toBitVec.setWidth W) <<< (p.length % 4 * 8) else 0 := by
  rw [placed, placed, getD_concat]
  split_ifs with h
  · have hzero : p.getD k 0 = 0 := List.getD_eq_default _ _ h.ge
    rw [hzero, h]
    simp
  · simp

theorem leWord_concat (p : List UInt8) (x : UInt8) (k : ℕ) :
    leWord W (p ++ [x]) k = leWord W p k |||
      if k = p.length / 4 then (x.toBitVec.setWidth W) <<< (p.length % 4 * 8) else 0 := by
  have hplace : ∀ u : BitVec W, (if k = p.length / 4 then u else 0) =
      ((if 4 * k = p.length then u else 0) ||| (if 4 * k + 1 = p.length then u else 0) |||
        (if 4 * k + 2 = p.length then u else 0) ||| if 4 * k + 3 = p.length then u else 0) := by
    intro u
    by_cases hk : k = p.length / 4
    · have hlen : 4 * k = p.length ∨ 4 * k + 1 = p.length ∨ 4 * k + 2 = p.length ∨
          4 * k + 3 = p.length := by omega
      rw [if_pos hk]
      rcases hlen with h | h | h | h <;> simp [← h]
    · have h0 : 4 * k ≠ p.length := by omega
      have h1 : 4 * k + 1 ≠ p.length := by omega
      have h2 : 4 * k + 2 ≠ p.length := by omega
      have h3 : 4 * k + 3 ≠ p.length := by omega
      simp [hk, h0, h1, h2, h3]
  simp only [leWord, placed_concat, hplace]
  ac_rfl

theorem placed_widen (hW : 32 ≤ W) (p : List UInt8) (k : ℕ) :
    placed W p k = (placed 32 p k).setWidth W := by
  refine BitVec.eq_of_getLsbD_eq fun i hi => ?_
  rw [placed, placed, BitVec.getLsbD_setWidth, BitVec.getLsbD_shiftLeft, BitVec.getLsbD_shiftLeft,
    BitVec.getLsbD_setWidth, BitVec.getLsbD_setWidth]
  cases hbit : (p.getD k 0).toBitVec.getLsbD (i - k % 4 * 8)
  · simp
  · have hlt : i - k % 4 * 8 < 8 := BitVec.lt_of_getLsbD hbit
    have hsmall : i < 32 := by omega
    have hwide : i - k % 4 * 8 < W := by omega
    have hback : i - k % 4 * 8 < 32 := by omega
    simp [hi, hsmall, hwide, hback]

theorem leWord_widen (hW : 32 ≤ W) (p : List UInt8) (k : ℕ) :
    leWord W p k = (leWord 32 p k).setWidth W := by
  simp only [leWord, placed_widen hW, BitVec.setWidth_or]

theorem leWord_nil (k : ℕ) : leWord W [] k = 0 := by
  simp [leWord, placed]

/-- The context after `n` bytes, of which `p` are not hashed yet. -/
def ctxOf (W : ℕ) (q : Md5Buf 32) (p : List UInt8) (n : ℕ) : Md5Ctx W where
  buf := q.widen W
  bits0 := BitVec.ofNat W (8 * n % 2 ^ 32)
  bits1 := BitVec.ofNat W (8 * n / 2 ^ 32)
  input := leWord W p
  b := p.length

theorem ofNat_widen (c : ℕ) :
    (BitVec.ofNat 32 c).setWidth W = BitVec.ofNat W (c % 2 ^ 32) := by
  apply BitVec.eq_of_toNat_eq
  rw [BitVec.toNat_setWidth, BitVec.toNat_ofNat, BitVec.toNat_ofNat]

theorem md5Start_eq : md5Start W = ctxOf W md5Init [] 0 := by
  have hzero : (fun _ => 0) = leWord W [] := funext fun k => (leWord_nil k).symm
  have ha := ofNat_widen (W := W) 0x67452301
  have hb := ofNat_widen (W := W) 0xefcdab89
  have hc := ofNat_widen (W := W) 0x98badcfe
  have hd := ofNat_widen (W := W) 0x10325476
  simp only [md5Start, ctxOf, Md5Buf.widen, hzero]
  congr 1
  exact Md5Buf.mk.injEq .. ▸ ⟨ha.symm, hb.symm, hc.symm, hd.symm⟩

theorem input_concat (p : List UInt8) (x : UInt8) :
    Function.update (leWord W p) (p.length / 4)
      (leWord W p (p.length / 4) ||| (x.toBitVec.setWidth W) <<< (p.length % 4 * 8)) =
        leWord W (p ++ [x]) := by
  funext k
  rw [leWord_concat, Function.update_apply]
  split_ifs with h
  · rw [h]
  · simp

/-- The lower word of the count of the bits. -/
theorem bits_add (hW : 32 ≤ W) (n : ℕ) :
    (BitVec.ofNat W (8 * n % 2 ^ 32) + 8) &&& low W = BitVec.ofNat W (8 * (n + 1) % 2 ^ 32) := by
  have hsum : (BitVec.ofNat W (8 * n % 2 ^ 32) + 8).setWidth 32 =
      BitVec.ofNat 32 (8 * n % 2 ^ 32 + 8) := by
    have height : (8 : BitVec W) = BitVec.ofNat W 8 := rfl
    rw [height, ← BitVec.ofNat_add, BitVec.setWidth_ofNat_of_le hW]
  rw [and_low, hsum, ofNat_widen]
  congr 1
  omega

/-- It has overflowed if it is smaller than before. -/
theorem bits_lt_iff (hW : 32 ≤ W) (n : ℕ) :
    BitVec.ofNat W (8 * n % 2 ^ 32) > BitVec.ofNat W (8 * (n + 1) % 2 ^ 32) ↔
      8 * (n + 1) / 2 ^ 32 = 8 * n / 2 ^ 32 + 1 := by
  have hpow : 2 ^ 32 ≤ 2 ^ W := Nat.pow_le_pow_right (by decide) hW
  have hlt : ∀ c, c % 2 ^ 32 % 2 ^ W = c % 2 ^ 32 := fun c =>
    Nat.mod_eq_of_lt ((Nat.mod_lt _ (by decide)).trans_le hpow)
  rw [gt_iff_lt, BitVec.lt_def, BitVec.toNat_ofNat, BitVec.toNat_ofNat, hlt, hlt]
  omega

theorem md5Feed_ctxOf (hW : 32 ≤ W) (hp : p.length < 64) :
    md5Feed (ctxOf W q p n) x =
      ctxOf W (Blocks.push 64 specCompress (q, p) x).1 (Blocks.push 64 specCompress (q, p) x).2
        (n + 1) := by
  have hwide : leWord W (p ++ [x]) = fun k => (leWord 32 (p ++ [x]) k).setWidth W :=
    funext fun k => leWord_widen hW _ k
  have hblock : transform (q.widen W) (leWord W (p ++ [x])) =
      (specCompress q (p ++ [x])).widen W := by
    rw [hwide, transform_widen hW, specCompress]
  have hlen : (p ++ [x]).length = p.length + 1 := List.length_append
  have hzero : (fun _ => 0) = leWord W [] := funext fun k => (leWord_nil k).symm
  have hcarry : ∀ f : BitVec W → Md5Ctx W,
      (if BitVec.ofNat W (8 * n % 2 ^ 32) > BitVec.ofNat W (8 * (n + 1) % 2 ^ 32) then
        f (BitVec.ofNat W (8 * n / 2 ^ 32) + 1) else f (BitVec.ofNat W (8 * n / 2 ^ 32))) =
        f (BitVec.ofNat W (8 * (n + 1) / 2 ^ 32)) := by
    intro f
    by_cases h : 8 * (n + 1) / 2 ^ 32 = 8 * n / 2 ^ 32 + 1
    · rw [if_pos ((bits_lt_iff hW n).2 h), h, BitVec.ofNat_add]
      rfl
    · rw [if_neg fun hlt => h ((bits_lt_iff hW n).1 hlt)]
      congr 2
      omega
  by_cases hfull : p.length + 1 = 64
  · rw [Blocks.push_of_full hfull]
    simp only [md5Feed, ctxOf, input_concat, bits_add hW, hfull, ge_iff_le, le_refl, if_true,
      hblock, hzero]
    exact hcarry fun u => ⟨(specCompress q (p ++ [x])).widen W, _, u, _, 0⟩
  · rw [Blocks.push_of_not_full hfull]
    have hless : ¬ p.length + 1 ≥ 64 := by omega
    simp only [md5Feed, ctxOf, input_concat, bits_add hW, if_neg hless, hlen]
    exact hcarry fun u => ⟨q.widen W, _, u, _, p.length + 1⟩

theorem foldl_md5Feed (hW : 32 ≤ W) (l : List UInt8) (hp : p.length < 64) :
    l.foldl md5Feed (ctxOf W q p n) =
      ctxOf W (l.foldl (Blocks.push 64 specCompress) (q, p)).1
        (l.foldl (Blocks.push 64 specCompress) (q, p)).2 (n + l.length) := by
  induction l generalizing q p n with
  | nil => rfl
  | cons x l ih =>
    rw [List.foldl_cons, md5Feed_ctxOf hW hp, List.foldl_cons,
      ih (Blocks.length_push_lt (by decide) hp), List.length_cons, Nat.add_assoc, Nat.add_comm 1]

theorem length_push (hp : p.length < 64) :
    (Blocks.push 64 specCompress (q, p) x).2.length = (p.length + 1) % 64 := by
  by_cases hfull : p.length + 1 = 64
  · rw [Blocks.push_of_full hfull, hfull]
    rfl
  · rw [Blocks.push_of_not_full hfull, List.length_append, List.length_singleton,
      Nat.mod_eq_of_lt (by omega)]

/-- Zeros are fed until 56 bytes are kept. -/
theorem md5Fill_eq (hW : 32 ≤ W) {fuel : ℕ} (hp : p.length < 64)
    (hfuel : (120 - p.length) % 64 < fuel) :
    md5Fill fuel (ctxOf W q p n) =
      some ((List.replicate ((120 - p.length) % 64) 0).foldl md5Feed (ctxOf W q p n)) := by
  induction fuel generalizing q p n with
  | zero => omega
  | succ fuel ih =>
    rw [md5Fill]
    by_cases h : p.length = 56
    · rw [h]
      exact if_neg (not_not_intro h)
    · have hlen := length_push (q := q) (x := 0) hp
      have hcount : (120 - p.length) % 64 = (120 - (p.length + 1) % 64) % 64 + 1 := by omega
      have hgo : (ctxOf W q p n).b ≠ 56 := h
      rw [if_pos hgo, md5Feed_ctxOf hW hp, ih (by omega) (by omega), hcount, List.replicate_succ,
        List.foldl_cons, md5Feed_ctxOf hW hp, hlen]

theorem byteAt_setWidth (hW : 32 ≤ W) {s : ℕ} (hs : s ≤ 24) (v : BitVec W) :
    byteAt v s = byteAt (v.setWidth 32) s := by
  rw [byteAt, byteAt]
  refine congrArg UInt8.ofBitVec (BitVec.eq_of_getLsbD_eq fun i hi => ?_)
  have hsum : s + i < 32 := by omega
  simp only [BitVec.getLsbD_setWidth, BitVec.getLsbD_and, BitVec.getLsbD_ushiftRight,
    BitVec.getLsbD_ofNat, hsum, decide_true, Bool.true_and]
  have hwide : i < W := by omega
  have hlow : i < 32 := by omega
  simp only [hwide, hlow, decide_true, Bool.true_and]

theorem wordBytes_setWidth (hW : 32 ≤ W) (v : BitVec W) :
    wordBytes v = wordBytes (v.setWidth 32) := by
  simp only [wordBytes]
  rw [byteAt_setWidth hW (by decide), byteAt_setWidth hW (by decide),
    byteAt_setWidth hW (by decide), byteAt_setWidth hW (by decide)]

theorem bytes_widen (hW : 32 ≤ W) (q : Md5Buf 32) : (q.widen W).bytes = q.bytes := by
  simp only [Md5Buf.bytes, Md5Buf.widen, wordBytes_setWidth hW, setWidth_widen hW]

/-- What `MD5_stop` feeds after the message is its padding. -/
theorem md5Stop_foldl (hW : 32 ≤ W) (message : List UInt8) :
    md5Stop 64 (message.foldl md5Feed (md5Start W)) =
      some ((md5Pad message).foldl md5Feed (md5Start W)) := by
  have hnil : ([] : List UInt8).length < 64 := by decide
  obtain ⟨q, p, hp, hmod, hctx⟩ : ∃ q p, p.length < 64 ∧ p.length = message.length % 64 ∧
      message.foldl md5Feed (md5Start W) = ctxOf W q p message.length := by
    have hpush : message.foldl (Blocks.push 64 specCompress) (md5Init, []) = _ :=
      Blocks.foldl_push_of_lt (by decide) hnil
    refine ⟨_, _, ?_, ?_, by rw [md5Start_eq, foldl_md5Feed hW _ hnil, Nat.zero_add]⟩
    all_goals
      rw [hpush, List.nil_append, List.length_drop]
      omega
  have hpush := length_push (q := q) (x := 0x80) hp
  have hlt : (Blocks.push 64 specCompress (q, p) 0x80).2.length < 64 := by omega
  have hzeros : (120 - (Blocks.push 64 specCompress (q, p) 0x80).2.length) % 64 =
      (119 - message.length % 64) % 64 := by omega
  have hbits0 : (BitVec.ofNat W (8 * message.length % 2 ^ 32)).setWidth 32 =
      BitVec.ofNat 32 (8 * message.length) := by
    rw [BitVec.setWidth_ofNat_of_le hW]
    exact BitVec.eq_of_toNat_eq (by simp)
  have hbits1 : (BitVec.ofNat W (8 * message.length / 2 ^ 32)).setWidth 32 =
      BitVec.ofNat 32 (8 * message.length / 2 ^ 32) := BitVec.setWidth_ofNat_of_le hW _
  have hwords0 : wordBytes (ctxOf W q p message.length).bits0 =
      wordBytes (BitVec.ofNat 32 (8 * message.length)) := by
    rw [ctxOf, wordBytes_setWidth hW, hbits0]
  have hwords1 : wordBytes (ctxOf W q p message.length).bits1 =
      wordBytes (BitVec.ofNat 32 (8 * message.length / 2 ^ 32)) := by
    rw [ctxOf, wordBytes_setWidth hW, hbits1]
  simp only [md5Pad, List.foldl_append, List.foldl_cons, List.append_assoc, List.cons_append, hctx,
    md5Stop, hwords0, hwords1]
  rw [md5Feed_ctxOf hW hp, md5Fill_eq hW hlt (by omega), hzeros]
  rfl

/-- The chaining variables at the end are those of the hash, and nothing is kept. -/
theorem md5Stop_start (hW : 32 ≤ W) (message : List UInt8) :
    md5Stop 64 (message.foldl md5Feed (md5Start W)) =
      some (ctxOf W (md5State message) [] (md5Pad message).length) := by
  have hdvd : 64 ∣ (md5Pad message).length := by
    simp only [md5Pad, List.length_append, List.length_cons, List.length_replicate, wordBytes,
      List.length_nil]
    omega
  have hnil : ([] : List UInt8).length < 64 := by decide
  rw [md5Stop_foldl hW, md5Start_eq, foldl_md5Feed hW _ hnil,
    Blocks.foldl_push (by decide) hdvd, Nat.zero_add, md5State]

/-- The digest is the hash of what was fed. -/
theorem md5Stop_eq (hW : 32 ≤ W) (message : List UInt8) :
    (md5Stop 64 (message.foldl md5Feed (md5Start W))).map (fun ctx => ctx.buf.bytes) =
      some (md5 message) := by
  rw [md5Stop_start hW, Option.map_some, md5]
  exact congrArg some (bytes_widen hW _)

/-- The digest of `abc`, with a `long` of 64 bits. -/
theorem md5Stop_eq_abc :
    (md5Stop 64 ([0x61, 0x62, 0x63].foldl md5Feed (md5Start 64))).map (fun ctx => ctx.buf.bytes) =
      some [0x90, 0x01, 0x50, 0x98, 0x3c, 0xd2, 0x4f, 0xb0,
        0xd6, 0x96, 0x3f, 0x7d, 0x28, 0xe1, 0x7f, 0x72] :=
  (md5Stop_eq (by decide) [0x61, 0x62, 0x63]).trans (congrArg some md5_abc)

end Feed

end LxToolset
