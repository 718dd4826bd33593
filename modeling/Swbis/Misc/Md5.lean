import Mathlib.Tactic.IntervalCases
import Swbis.Lib.BlockHash
import Swbis.Lib.ByteOrder
import Swbis.Lib.Memory

/-!
# The MD5 message digest

`MD5Update` is given a message in pieces of any length, keeps a count of its bits
in two words, and compresses it in blocks of 64 bytes that it copies into the
context.  `MD5Final` pads the last block and stores the digest.  On a host that
stores the most significant byte first, the bytes of a block are moved before they
are read as words.

`md5` is the digest of a message as the standard defines it: 64 rounds for each
block, each with its own function, word, constant and rotation.  `md5Transform`
is the same with the rounds written out one after another, the four registers in
changing roles, and two of the functions in another form; `md5Transform_eq` is the
equality.  `md5Digest_eq` is the result: on both kinds of host, and however the message
is cut, the digest is the one of the message.
-/

namespace Swbis.Misc.Md5

open CLib

/-! ## The digest of a message -/

/-- The four words of the state. -/
structure Regs where
  a : BitVec 32
  b : BitVec 32
  c : BitVec 32
  d : BitVec 32
deriving DecidableEq

namespace Regs

/-- The initial state. -/
def start : Regs := ⟨0x67452301#32, 0xefcdab89#32, 0x98badcfe#32, 0x10325476#32⟩

/-- Add two states word by word. -/
def add (r s : Regs) : Regs := ⟨r.a + s.a, r.b + s.b, r.c + s.c, r.d + s.d⟩

/-- The state as sixteen bytes. -/
def bytes (r : Regs) : Bytes := bytesLE 4 r.a ++ bytesLE 4 r.b ++ bytesLE 4 r.c ++ bytesLE 4 r.d

end Regs

/-- The function of a round. -/
def roundFunction (i : Nat) (x y z : BitVec 32) : BitVec 32 :=
  if i < 16 then x &&& y ||| ~~~x &&& z
  else if i < 32 then z &&& x ||| ~~~z &&& y
  else if i < 48 then x ^^^ y ^^^ z
  else y ^^^ (x ||| ~~~z)

/-- The word of the block that a round adds. -/
def roundWord (i : Nat) : Nat :=
  if i < 16 then i
  else if i < 32 then (5 * i + 1) % 16
  else if i < 48 then (3 * i + 5) % 16
  else 7 * i % 16

/-- The constant of a round: the digits of the sine of its number. -/
def roundConstant (i : Nat) : BitVec 32 :=
  BitVec.ofNat 32 ([
    0xd76aa478, 0xe8c7b756, 0x242070db, 0xc1bdceee, 0xf57c0faf, 0x4787c62a, 0xa8304613, 0xfd469501,
    0x698098d8, 0x8b44f7af, 0xffff5bb1, 0x895cd7be, 0x6b901122, 0xfd987193, 0xa679438e, 0x49b40821,
    0xf61e2562, 0xc040b340, 0x265e5a51, 0xe9b6c7aa, 0xd62f105d, 0x02441453, 0xd8a1e681, 0xe7d3fbc8,
    0x21e1cde6, 0xc33707d6, 0xf4d50d87, 0x455a14ed, 0xa9e3e905, 0xfcefa3f8, 0x676f02d9, 0x8d2a4c8a,
    0xfffa3942, 0x8771f681, 0x6d9d6122, 0xfde5380c, 0xa4beea44, 0x4bdecfa9, 0xf6bb4b60, 0xbebfbc70,
    0x289b7ec6, 0xeaa127fa, 0xd4ef3085, 0x04881d05, 0xd9d4d039, 0xe6db99e5, 0x1fa27cf8, 0xc4ac5665,
    0xf4292244, 0x432aff97, 0xab9423a7, 0xfc93a039, 0x655b59c3, 0x8f0ccc92, 0xffeff47d, 0x85845dd1,
    0x6fa87e4f, 0xfe2ce6e0, 0xa3014314, 0x4e0811a1, 0xf7537e82, 0xbd3af235, 0x2ad7d2bb, 0xeb86d391
  ].getD i 0)

/-- How far a round rotates. -/
def roundShift (i : Nat) : Nat :=
  ([[7, 12, 17, 22], [5, 9, 14, 20], [4, 11, 16, 23], [6, 10, 15, 21]].getD (i / 16) []).getD
    (i % 4) 0

/-- A round, with the words `x` of the block. -/
def round (x : Nat → BitVec 32) (r : Regs) (i : Nat) : Regs :=
  ⟨r.d, r.b + (r.a + roundFunction i r.b r.c r.d + roundConstant i +
    x (roundWord i)).rotateLeft (roundShift i), r.b, r.c⟩

/-- The words of a block. -/
def blockWord (block : Bytes) (i : Nat) : BitVec 32 := ByteOrder.little.load 32 4 block i

/-- Blocks of 64 bytes, and 64 rounds for each. -/
def md5Hash : BlockHash Regs where
  size := 64
  size_pos := BlockHash.sixtyFour_pos
  compress r block := r.add ((List.range 64).foldl (round (blockWord block)) r)

/-- The MD5 digest of a message. -/
def md5 (msg : Bytes) : Bytes :=
  (md5Hash.run Regs.start (msg ++ (padding 64 8 msg.length ++
    bytesLE 8 (BitVec.ofNat 64 (8 * msg.length))))).bytes

example : md5 [97, 98, 99] =
    [0x90, 0x01, 0x50, 0x98, 0x3c, 0xd2, 0x4f, 0xb0, 0xd6, 0x96, 0x3f, 0x7d, 0x28, 0xe1, 0x7f,
      0x72] := by
  decide +kernel

/-! ## `MD5Transform` -/

/-- `F1` -/
def f1 (x y z : BitVec 32) : BitVec 32 := z ^^^ (x &&& (y ^^^ z))

/-- `F2` -/
def f2 (x y z : BitVec 32) : BitVec 32 := f1 z x y

/-- `F3` -/
def f3 (x y z : BitVec 32) : BitVec 32 := x ^^^ y ^^^ z

/-- `F4` -/
def f4 (x y z : BitVec 32) : BitVec 32 := y ^^^ (x ||| ~~~z)

/-- `MD5STEP`: the new value of `w`. -/
def md5Step (f : BitVec 32 → BitVec 32 → BitVec 32 → BitVec 32) (w x y z data : BitVec 32)
    (s : Nat) : BitVec 32 :=
  let w := w + (f x y z + data)
  let w := w <<< s ||| w >>> (32 - s)
  w + x

namespace Regs

variable (r : Regs) (f : BitVec 32 → BitVec 32 → BitVec 32 → BitVec 32) (data : BitVec 32) (s : Nat)

/-- `MD5STEP (f, a, b, c, d, data, s)` -/
def stepA : Regs := { r with a := md5Step f r.a r.b r.c r.d data s }

/-- `MD5STEP (f, d, a, b, c, data, s)` -/
def stepD : Regs := { r with d := md5Step f r.d r.a r.b r.c data s }

/-- `MD5STEP (f, c, d, a, b, data, s)` -/
def stepC : Regs := { r with c := md5Step f r.c r.d r.a r.b data s }

/-- `MD5STEP (f, b, c, d, a, data, s)` -/
def stepB : Regs := { r with b := md5Step f r.b r.c r.d r.a data s }

end Regs

/-- The sixteen lines for each of the four functions in `MD5Transform`. -/
def md5Steps (r : Regs) (x : Nat → BitVec 32) : Regs :=
  r
    |>.stepA f1 (x 0 + 0xd76aa478#32) 7 |>.stepD f1 (x 1 + 0xe8c7b756#32) 12
    |>.stepC f1 (x 2 + 0x242070db#32) 17 |>.stepB f1 (x 3 + 0xc1bdceee#32) 22
    |>.stepA f1 (x 4 + 0xf57c0faf#32) 7 |>.stepD f1 (x 5 + 0x4787c62a#32) 12
    |>.stepC f1 (x 6 + 0xa8304613#32) 17 |>.stepB f1 (x 7 + 0xfd469501#32) 22
    |>.stepA f1 (x 8 + 0x698098d8#32) 7 |>.stepD f1 (x 9 + 0x8b44f7af#32) 12
    |>.stepC f1 (x 10 + 0xffff5bb1#32) 17 |>.stepB f1 (x 11 + 0x895cd7be#32) 22
    |>.stepA f1 (x 12 + 0x6b901122#32) 7 |>.stepD f1 (x 13 + 0xfd987193#32) 12
    |>.stepC f1 (x 14 + 0xa679438e#32) 17 |>.stepB f1 (x 15 + 0x49b40821#32) 22
    |>.stepA f2 (x 1 + 0xf61e2562#32) 5 |>.stepD f2 (x 6 + 0xc040b340#32) 9
    |>.stepC f2 (x 11 + 0x265e5a51#32) 14 |>.stepB f2 (x 0 + 0xe9b6c7aa#32) 20
    |>.stepA f2 (x 5 + 0xd62f105d#32) 5 |>.stepD f2 (x 10 + 0x02441453#32) 9
    |>.stepC f2 (x 15 + 0xd8a1e681#32) 14 |>.stepB f2 (x 4 + 0xe7d3fbc8#32) 20
    |>.stepA f2 (x 9 + 0x21e1cde6#32) 5 |>.stepD f2 (x 14 + 0xc33707d6#32) 9
    |>.stepC f2 (x 3 + 0xf4d50d87#32) 14 |>.stepB f2 (x 8 + 0x455a14ed#32) 20
    |>.stepA f2 (x 13 + 0xa9e3e905#32) 5 |>.stepD f2 (x 2 + 0xfcefa3f8#32) 9
    |>.stepC f2 (x 7 + 0x676f02d9#32) 14 |>.stepB f2 (x 12 + 0x8d2a4c8a#32) 20
    |>.stepA f3 (x 5 + 0xfffa3942#32) 4 |>.stepD f3 (x 8 + 0x8771f681#32) 11
    |>.stepC f3 (x 11 + 0x6d9d6122#32) 16 |>.stepB f3 (x 14 + 0xfde5380c#32) 23
    |>.stepA f3 (x 1 + 0xa4beea44#32) 4 |>.stepD f3 (x 4 + 0x4bdecfa9#32) 11
    |>.stepC f3 (x 7 + 0xf6bb4b60#32) 16 |>.stepB f3 (x 10 + 0xbebfbc70#32) 23
    |>.stepA f3 (x 13 + 0x289b7ec6#32) 4 |>.stepD f3 (x 0 + 0xeaa127fa#32) 11
    |>.stepC f3 (x 3 + 0xd4ef3085#32) 16 |>.stepB f3 (x 6 + 0x04881d05#32) 23
    |>.stepA f3 (x 9 + 0xd9d4d039#32) 4 |>.stepD f3 (x 12 + 0xe6db99e5#32) 11
    |>.stepC f3 (x 15 + 0x1fa27cf8#32) 16 |>.stepB f3 (x 2 + 0xc4ac5665#32) 23
    |>.stepA f4 (x 0 + 0xf4292244#32) 6 |>.stepD f4 (x 7 + 0x432aff97#32) 10
    |>.stepC f4 (x 14 + 0xab9423a7#32) 15 |>.stepB f4 (x 5 + 0xfc93a039#32) 21
    |>.stepA f4 (x 12 + 0x655b59c3#32) 6 |>.stepD f4 (x 3 + 0x8f0ccc92#32) 10
    |>.stepC f4 (x 10 + 0xffeff47d#32) 15 |>.stepB f4 (x 1 + 0x85845dd1#32) 21
    |>.stepA f4 (x 8 + 0x6fa87e4f#32) 6 |>.stepD f4 (x 15 + 0xfe2ce6e0#32) 10
    |>.stepC f4 (x 6 + 0xa3014314#32) 15 |>.stepB f4 (x 13 + 0x4e0811a1#32) 21
    |>.stepA f4 (x 4 + 0xf7537e82#32) 6 |>.stepD f4 (x 11 + 0xbd3af235#32) 10
    |>.stepC f4 (x 2 + 0x2ad7d2bb#32) 15 |>.stepB f4 (x 9 + 0xeb86d391#32) 21

/-- `MD5Transform` -/
def md5Transform (buf : Regs) (x : Nat → BitVec 32) : Regs := buf.add (md5Steps buf x)

/-- The form of the function that the code has. -/
theorem f1_eq (x y z : BitVec 32) : f1 x y z = x &&& y ||| ~~~x &&& z := by
  apply BitVec.eq_of_getLsbD_eq
  intro i hi
  simp only [f1, BitVec.getLsbD_xor, BitVec.getLsbD_and, BitVec.getLsbD_or, BitVec.getLsbD_not, hi,
    decide_true, Bool.true_and]
  cases x.getLsbD i <;> cases y.getLsbD i <;> cases z.getLsbD i <;> rfl

/-- The function that the code calls in a round. -/
def codeFunction (i : Nat) : BitVec 32 → BitVec 32 → BitVec 32 → BitVec 32 :=
  if i < 16 then f1 else if i < 32 then f2 else if i < 48 then f3 else f4

theorem codeFunction_eq (i : Nat) (x y z : BitVec 32) :
    codeFunction i x y z = roundFunction i x y z := by
  rw [codeFunction, roundFunction]
  split
  · exact f1_eq x y z
  · split
    · exact f1_eq z x y
    · split
      · rfl
      · rfl

theorem roundShift_lt (i : Nat) : roundShift i < 32 := by
  rw [roundShift]
  rcases i / 16 with _ | _ | _ | _ | p
  · rcases i % 4 with _ | _ | _ | _ | q <;> simp
  · rcases i % 4 with _ | _ | _ | _ | q <;> simp
  · rcases i % 4 with _ | _ | _ | _ | q <;> simp
  · rcases i % 4 with _ | _ | _ | _ | q <;> simp
  · simp

/-- A step of the code computes what a round puts into its second register. -/
theorem md5Step_codeFunction (m : Nat → BitVec 32) (i : Nat) (w x y z : BitVec 32) :
    md5Step (codeFunction i) w x y z (m (roundWord i) + roundConstant i) (roundShift i) =
      x + (w + roundFunction i x y z + roundConstant i + m (roundWord i)).rotateLeft
        (roundShift i) := by
  rw [md5Step, codeFunction_eq, BitVec.rotateLeft_def, Nat.mod_eq_of_lt (roundShift_lt i),
    BitVec.add_comm x]
  have hsum : w + (roundFunction i x y z + (m (roundWord i) + roundConstant i)) =
      w + roundFunction i x y z + roundConstant i + m (roundWord i) := by
    rw [BitVec.add_comm (m (roundWord i)), ← BitVec.add_assoc, ← BitVec.add_assoc]
  rw [hsum]

/-! The registers in the order in which the next round takes them. -/

/-- Before a step that assigns to `a`. -/
def fromA (r : Regs) : Regs := r

/-- Before a step that assigns to `d`. -/
def fromD (r : Regs) : Regs := ⟨r.d, r.a, r.b, r.c⟩

/-- Before a step that assigns to `c`. -/
def fromC (r : Regs) : Regs := ⟨r.c, r.d, r.a, r.b⟩

/-- Before a step that assigns to `b`. -/
def fromB (r : Regs) : Regs := ⟨r.b, r.c, r.d, r.a⟩

section

variable (x : Nat → BitVec 32) (r : Regs) (i : Nat)

theorem round_fromA : round x (fromA r) i =
    fromD (r.stepA (codeFunction i) (x (roundWord i) + roundConstant i) (roundShift i)) := by
  rw [Regs.stepA, md5Step_codeFunction]
  rfl

theorem round_fromD : round x (fromD r) i =
    fromC (r.stepD (codeFunction i) (x (roundWord i) + roundConstant i) (roundShift i)) := by
  rw [Regs.stepD, md5Step_codeFunction]
  rfl

theorem round_fromC : round x (fromC r) i =
    fromB (r.stepC (codeFunction i) (x (roundWord i) + roundConstant i) (roundShift i)) := by
  rw [Regs.stepC, md5Step_codeFunction]
  rfl

theorem round_fromB : round x (fromB r) i =
    fromA (r.stepB (codeFunction i) (x (roundWord i) + roundConstant i) (roundShift i)) := by
  rw [Regs.stepB, md5Step_codeFunction]
  rfl

end

/-- The rounds one after another. -/
theorem md5Transform_eq (buf : Regs) (x : Nat → BitVec 32) :
    md5Transform buf x = buf.add ((List.range 64).foldl (round x) buf) := by
  have hlist : List.range 64 =
      [0, 1, 2, 3, 4, 5, 6, 7, 8, 9, 10, 11, 12, 13, 14, 15, 16, 17, 18, 19, 20, 21, 22, 23, 24,
      25, 26, 27, 28, 29, 30, 31, 32, 33, 34, 35, 36, 37, 38, 39, 40, 41, 42, 43, 44, 45, 46,
      47, 48, 49, 50, 51, 52, 53, 54, 55, 56, 57, 58, 59, 60, 61, 62, 63] := rfl
  -- the registers are back in their places after every fourth round
  have hrounds : (List.range 64).foldl (round x) (fromA buf) = fromA (md5Steps buf x) := by
    rw [hlist]
    simp only [List.foldl_cons, List.foldl_nil, round_fromA, round_fromB, round_fromC, round_fromD]
    rfl
  rw [md5Transform]
  exact congrArg buf.add hrounds.symm

/-! ## The context -/

/-- `MD5Context`.  `in` is `inBuf`. -/
structure Md5Context where
  buf : Regs
  bits : Counter 32
  inBuf : CField 64
  doByteReverse : Bool
deriving DecidableEq

/-- A byte of a buffer, as `unsigned`. -/
def byteAt (buf : Bytes) (i : Nat) : BitVec 32 := (buf.getD i 0).toBitVec.setWidth 32

/-- The four bytes that `byteReverse` puts together. -/
def longOf (buf : Bytes) : BitVec 32 :=
  ((byteAt buf 3 <<< 8 ||| byteAt buf 2) <<< 16) ||| (byteAt buf 1 <<< 8 ||| byteAt buf 0)

/-- `byteReverse` on a host of byte order `o`. -/
def byteReverse (o : ByteOrder) : Nat → Bytes → Bytes
  | 0, buf => buf
  | longs + 1, buf => o.bytes 4 (longOf buf) ++ byteReverse o longs (buf.drop 4)

theorem length_byteReverse (o : ByteOrder) {longs : Nat} {buf : Bytes}
    (h : 4 * longs ≤ buf.length) : (byteReverse o longs buf).length = buf.length := by
  induction longs generalizing buf with
  | zero => rfl
  | succ longs ih =>
      rw [byteReverse, List.length_append, ByteOrder.length_bytes,
        ih (by rw [List.length_drop]; omega), List.length_drop]
      omega

namespace Md5Context

variable (o : ByteOrder)

/-- `byteReverse` on the first words of `in`, if it is to be done. -/
def reverse (ctx : Md5Context) (longs : Nat) (h : longs ≤ 16) : Md5Context :=
  if ctx.doByteReverse then
    { ctx with inBuf := ⟨byteReverse o longs ctx.inBuf.bytes, by
        rw [length_byteReverse o (by rw [ctx.inBuf.size_eq]; omega), ctx.inBuf.size_eq]⟩ }
  else ctx

/-- `MD5Transform (ctx->buf, (uint32 *) ctx->in)` -/
def transform (ctx : Md5Context) : Md5Context :=
  { ctx with buf := md5Transform ctx.buf (o.load 32 4 ctx.inBuf.bytes) }

/-- `memcpy` into `in`. -/
def copyIn (ctx : Md5Context) (i : Nat) (buf : Bytes) : Outcome Md5Context :=
  ctx.inBuf.store i buf >>= fun inBuf => .returned { ctx with inBuf := inBuf }

end Md5Context

/-- `MD5Init` -/
def md5Init (o : ByteOrder) (ctx : Md5Context) (brokenEndian : Bool) : Md5Context :=
  { ctx with
    buf := Regs.start
    bits := ⟨0, 0⟩
    doByteReverse := match o with
      | .little => false
      | .big => !brokenEndian }

/-- The loop of `MD5Update` over whole blocks, and the bytes behind them. -/
def md5Chunks (o : ByteOrder) (ctx : Md5Context) (buf : Bytes) : Outcome Md5Context :=
  if 64 ≤ buf.length then
    ctx.copyIn 0 (buf.take 64) >>= fun ctx =>
      md5Chunks o ((ctx.reverse o 16 (by decide)).transform o) (buf.drop 64)
  else ctx.copyIn 0 buf
termination_by buf.length
decreasing_by
  rw [List.length_drop]
  omega

/-- `MD5Update` -/
def md5Update (o : ByteOrder) (ctx : Md5Context) (buf : Bytes) : Outcome Md5Context :=
  let len := BitVec.ofNat 32 buf.length
  let t := ctx.bits.low
  let low := t + len <<< 3
  let high := if low < t then ctx.bits.high + 1#32 else ctx.bits.high
  let ctx := { ctx with bits := ⟨low, high + len >>> 29⟩ }
  let t := ((t >>> 3) &&& 0x3f#32).toNat
  if t ≠ 0 then
    if buf.length < 64 - t then ctx.copyIn t buf
    else
      ctx.copyIn t (buf.take (64 - t)) >>= fun ctx =>
        md5Chunks o ((ctx.reverse o 16 (by decide)).transform o) (buf.drop (64 - t))
  else md5Chunks o ctx buf

/-- Where `MD5Final` has the last block, but for the count. -/
def md5Pad (o : ByteOrder) (ctx : Md5Context) : Outcome Md5Context :=
  let count := ((ctx.bits.low >>> 3) &&& 0x3f#32).toNat
  ctx.copyIn count [0x80] >>= fun ctx =>
    if 64 - 1 - count < 8 then
      ctx.copyIn (count + 1) (List.replicate (64 - 1 - count) 0) >>= fun ctx =>
        ((ctx.reverse o 16 (by decide)).transform o).copyIn 0 (List.replicate 56 0)
    else ctx.copyIn (count + 1) (List.replicate (64 - 1 - count - 8) 0)

/-- The state in memory. -/
def Regs.stored (o : ByteOrder) (r : Regs) : Bytes :=
  o.bytes 4 r.a ++ o.bytes 4 r.b ++ o.bytes 4 r.c ++ o.bytes 4 r.d

/-- `MD5Final`: the digest, and the context.  The last call clears as many bytes
as a pointer has. -/
def md5Final (o : ByteOrder) (ctx : Md5Context) : Outcome (Bytes × Md5Context) :=
  md5Pad o ctx >>= fun ctx =>
    (ctx.reverse o 14 (by decide)).copyIn 56 (o.bytes 4 ctx.bits.low) >>= fun ctx =>
      ctx.copyIn 60 (o.bytes 4 ctx.bits.high) >>= fun ctx =>
        let ctx := ctx.transform o
        let stored := ctx.buf.stored o
        let digest := if ctx.doByteReverse then byteReverse o 4 stored else stored
        .returned (digest, { ctx with buf := { ctx.buf with a := 0, b := 0 } })

/-! ## Bytes and words -/

theorem longOf_eq (buf : Bytes) : longOf buf = wordLE 32 (buf.take 4) := by
  apply BitVec.eq_of_getLsbD_eq
  intro i hi
  rw [getLsbD_wordLE _ hi, List.getD_eq_getElem?_getD, List.getElem?_take_of_lt (by omega),
    ← List.getD_eq_getElem?_getD]
  interval_cases i <;> simp [longOf, byteAt]

/-- A host that moves the bytes of the words reads them as the other one does. -/
theorem load_byteReverse {n : Nat} {buf : Bytes} (hlen : buf.length = 4 * n) (i : Nat) :
    ByteOrder.big.load 32 4 (byteReverse .big n buf) i = blockWord buf i := by
  induction n generalizing buf i with
  | zero =>
      rw [List.length_eq_zero_iff.mp hlen]
      simp [byteReverse, blockWord, ByteOrder.load, ByteOrder.word]
  | succ n ih =>
      rw [byteReverse]
      cases i with
      | zero =>
          rw [ByteOrder.load_append_left _ _ (by rw [ByteOrder.length_bytes]), ByteOrder.load,
            Nat.mul_zero, List.drop_zero,
            List.take_of_length_le (by rw [ByteOrder.length_bytes]),
            ByteOrder.word_bytes (w := 32) (n := 4) _ rfl,
            longOf_eq]
          rfl
      | succ i =>
          rw [Nat.add_comm i 1,
            ByteOrder.load_append_right _ (by rw [ByteOrder.length_bytes]),
            ih (by rw [List.length_drop]; omega)]
          change ByteOrder.little.load 32 4 (buf.drop 4) i = ByteOrder.little.load 32 4 buf (1 + i)
          have hpart := ByteOrder.little.load_append_right (w := 32) (n := 4) (i := 1)
            (a := buf.take 4) (b := buf.drop 4) (by rw [List.length_take]; omega) i
          rw [List.take_append_drop] at hpart
          exact hpart.symm

theorem byteReverse_append (o : ByteOrder) {n : Nat} {front : Bytes} (rest : Bytes) (k : Nat)
    (hlen : front.length = 4 * n) :
    byteReverse o (n + k) (front ++ rest) =
      byteReverse o n front ++ byteReverse o k rest := by
  induction n generalizing front with
  | zero =>
      rw [List.length_eq_zero_iff.mp hlen, Nat.zero_add]
      rfl
  | succ n ih =>
      have hle : 4 ≤ front.length := by omega
      rw [Nat.add_right_comm, byteReverse, byteReverse, List.drop_append_of_le_length hle,
        ih (by rw [List.length_drop]; omega), List.append_assoc, longOf_eq, longOf_eq,
        List.take_append_of_le_length hle]

/-- The bytes of a word are moved. -/
theorem byteReverse_one (o : ByteOrder) (x : BitVec 32) :
    byteReverse o 1 (bytesLE 4 x) = o.bytes 4 x := by
  rw [byteReverse, byteReverse, longOf_eq, List.take_of_length_le (by rw [length_bytesLE]),
    wordLE_bytesLE (w := 32) (n := 4) rfl, List.drop_of_length_le (by rw [length_bytesLE]),
    List.append_nil]

/-! ## What the context stands for -/

namespace Md5Context

variable {o : ByteOrder} {ctx : Md5Context} {msg pending buf : Bytes}

@[simp] theorem reverse_buf (ctx : Md5Context) (longs : Nat) (h : longs ≤ 16) :
    (ctx.reverse o longs h).buf = ctx.buf := by
  rw [reverse]
  split <;> rfl

@[simp] theorem reverse_bits (ctx : Md5Context) (longs : Nat) (h : longs ≤ 16) :
    (ctx.reverse o longs h).bits = ctx.bits := by
  rw [reverse]
  split <;> rfl

@[simp] theorem reverse_doByteReverse (ctx : Md5Context) (longs : Nat) (h : longs ≤ 16) :
    (ctx.reverse o longs h).doByteReverse = ctx.doByteReverse := by
  rw [reverse]
  split <;> rfl

/-- The bytes are moved exactly on a host that has to. -/
def Ordered (o : ByteOrder) (ctx : Md5Context) : Prop :=
  ctx.doByteReverse = decide (o = .big)

theorem transform_doByteReverse (ctx : Md5Context) :
    (ctx.transform o).doByteReverse = ctx.doByteReverse := by
  rw [transform]

theorem transform_buf (ctx : Md5Context) :
    (ctx.transform o).buf = md5Transform ctx.buf (o.load 32 4 ctx.inBuf.bytes) := by
  rw [transform]

theorem transform_bits (ctx : Md5Context) : (ctx.transform o).bits = ctx.bits := by
  rw [transform]

/-- The block in the context is compressed. -/
theorem transform_reverse (hord : ctx.Ordered o) :
    ((ctx.reverse o 16 (by decide)).transform o).buf =
      md5Hash.compress ctx.buf ctx.inBuf.bytes := by
  change md5Transform _ _ = _
  rw [md5Transform_eq, reverse_buf]
  have hload : o.load 32 4 (ctx.reverse o 16 (by decide)).inBuf.bytes =
      blockWord ctx.inBuf.bytes := by
    cases o with
    | little =>
        rw [reverse, hord]
        rfl
    | big =>
        rw [reverse, hord]
        funext i
        exact load_byteReverse ctx.inBuf.size_eq i
  rw [hload]
  rfl

/-- Bytes are copied into the context. -/
theorem copyIn_eq (ctx : Md5Context) {i : Nat} {b : Bytes} (h : i + b.length ≤ 64) :
    ∃ f : CField 64, ctx.copyIn i b = .returned { ctx with inBuf := f } ∧
      f.bytes = overwrite ctx.inBuf.bytes i b := by
  obtain ⟨f, hstore, hbytes⟩ := ctx.inBuf.store_bytes i b h
  exact ⟨f, by rw [copyIn, hstore]; rfl, hbytes⟩

/-- The context stands for a message, and fewer bytes than a block are in `in`. -/
def Keeps (ctx : Md5Context) (msg : Bytes) : Prop :=
  ∃ pending, md5Hash.Stands Regs.start msg ctx.buf pending ∧ pending.length < 64 ∧
    ctx.inBuf.bytes.take pending.length = pending

/-- What the calls keep: the context stands for the bytes given so far, and the
number of their bits is counted. -/
structure Holds (o : ByteOrder) (ctx : Md5Context) (msg : Bytes) : Prop where
  ordered : ctx.Ordered o
  keeps : ctx.Keeps msg
  bits : ctx.bits.joined = BitVec.ofNat (32 + 32) (8 * msg.length)

/-- The number of bytes in `in`. -/
theorem Holds.pending_length (h : ctx.Holds o msg) :
    ((ctx.bits.low >>> 3) &&& 0x3f#32).toNat = msg.length % 64 := by
  have hbits := Counter.joined_eq_ofNat_iff.mp h.bits
  have hlow := ctx.bits.low.isLt
  have hmask : (63 : Nat) = 2 ^ 6 - 1 := rfl
  rw [BitVec.toNat_and, BitVec.toNat_ushiftRight, Nat.shiftRight_eq_div_pow]
  change ctx.bits.low.toNat / 2 ^ 3 &&& 63 = _
  rw [hmask, Nat.and_two_pow_sub_one_eq_mod]
  omega

/-- The count of the bits. -/
theorem bits_update {c : Counter 32} {n k : Nat} (hc : c.joined = BitVec.ofNat (32 + 32) (8 * n))
    (hk : k < 2 ^ 32) :
    (Counter.mk (c.low + BitVec.ofNat 32 k <<< 3)
      ((if c.low + BitVec.ofNat 32 k <<< 3 < c.low then c.high + 1#32 else c.high) +
        BitVec.ofNat 32 k >>> 29)).joined = BitVec.ofNat (32 + 32) (8 * (n + k)) := by
  rw [Counter.joined_eq_ofNat_iff] at hc ⊢
  have hlow := c.low.isLt
  have hhigh := c.high.isLt
  have hshl : (BitVec.ofNat 32 k <<< 3).toNat = k * 8 % 2 ^ 32 := by
    rw [BitVec.toNat_shiftLeft, BitVec.toNat_ofNat, Nat.mod_eq_of_lt hk, Nat.shiftLeft_eq]
  have hshr : (BitVec.ofNat 32 k >>> 29).toNat = k / 2 ^ 29 := by
    rw [BitVec.toNat_ushiftRight, BitVec.toNat_ofNat, Nat.mod_eq_of_lt hk,
      Nat.shiftRight_eq_div_pow]
  have hcarry := Counter.add_lt_iff (BitVec.ofNat 32 k <<< 3) c.low
  rw [BitVec.add_comm] at hcarry
  rw [BitVec.toNat_add, BitVec.toNat_add, hshl, hshr]
  rw [hshl] at hcarry
  split
  next hlt =>
    have hge := hcarry.mp hlt
    rw [BitVec.toNat_add]
    change 2 ^ 32 * (((c.high.toNat + 1) % 2 ^ 32 + k / 2 ^ 29) % 2 ^ 32) + _ = _
    omega
  next hnot =>
    have hlt := mt hcarry.mpr hnot
    omega

/-! ## The loop over blocks -/

/-- A block in the context is compressed, and more is pending. -/
theorem compress_spec {f : CField 64} {rest : Bytes} (hord : ctx.Ordered o)
    (hst : md5Hash.Stands Regs.start msg ctx.buf (f.bytes ++ rest)) :
    ∃ ctx', (({ ctx with inBuf := f } : Md5Context).reverse o 16 (by decide)).transform o = ctx' ∧
      ctx'.Ordered o ∧ ctx'.bits = ctx.bits ∧ md5Hash.Stands Regs.start msg ctx'.buf rest := by
  have hord' : ({ ctx with inBuf := f } : Md5Context).Ordered o := hord
  refine ⟨_, rfl, ?_, ?_, ?_⟩
  · rw [Ordered, transform_doByteReverse, reverse_doByteReverse]
    exact hord
  · rw [transform_bits, reverse_bits]
  · rw [transform_reverse hord', ← md5Hash.run_block f.size_eq]
    exact hst.compress (by rw [f.size_eq]; exact Nat.dvd_refl 64)

/-- Fewer bytes than a block are copied to the start of `in`. -/
theorem keeps_copyIn {f : CField 64} (hst : md5Hash.Stands Regs.start msg ctx.buf buf)
    (hlt : buf.length < 64) (hf : f.bytes = overwrite ctx.inBuf.bytes 0 buf) :
    ({ ctx with inBuf := f } : Md5Context).Keeps msg := by
  refine ⟨buf, hst, hlt, ?_⟩
  change f.bytes.take buf.length = buf
  have htake := take_overwrite_end ctx.inBuf.bytes 0 buf (Nat.zero_le _)
  rwa [Nat.zero_add, List.take_zero, List.nil_append, ← hf] at htake

end Md5Context

open Md5Context

variable {o : ByteOrder} {ctx : Md5Context} {msg buf : Bytes}

/-- The loop returns, and leaves fewer bytes than a block in `in`. -/
theorem md5Chunks_spec (hord : ctx.Ordered o)
    (hst : md5Hash.Stands Regs.start msg ctx.buf buf) :
    ∃ ctx', md5Chunks o ctx buf = .returned ctx' ∧ ctx'.Ordered o ∧ ctx'.Keeps msg ∧
      ctx'.bits = ctx.bits := by
  induction hn : buf.length using Nat.strong_induction_on generalizing ctx buf with
  | _ n ih =>
      rw [md5Chunks]
      split
      next hle =>
        -- one block, and the rest by induction
        have hlen : (buf.take 64).length = 64 := by
          rw [List.length_take]
          omega
        obtain ⟨f, hcopy, hf⟩ := ctx.copyIn_eq (i := 0) (b := buf.take 64) (by omega)
        have hblock : f.bytes = buf.take 64 := by
          rw [hf, overwrite, List.take_zero, List.nil_append,
            List.drop_of_length_le (by rw [ctx.inBuf.size_eq]; omega), List.append_nil]
        rw [← List.take_append_drop 64 buf, ← hblock] at hst
        obtain ⟨ctx₁, hcompress, hord₁, hbits₁, hst₁⟩ := compress_spec hord hst
        obtain ⟨ctx', hret, hkept, hkeeps, hbits⟩ := ih (buf.drop 64).length
          (by rw [List.length_drop]; omega) hord₁ hst₁ rfl
        rw [hcopy, Outcome.returned_bind, hcompress]
        exact ⟨ctx', hret, hkept, hkeeps, hbits.trans hbits₁⟩
      next hlt =>
        obtain ⟨f, hcopy, hf⟩ := ctx.copyIn_eq (i := 0) (b := buf) (by omega)
        exact ⟨_, hcopy, hord, keeps_copyIn hst (by omega) hf, rfl⟩

/-- A context after `MD5Init` stands for the empty message. -/
theorem holds_md5Init (o : ByteOrder) (ctx : Md5Context) : (md5Init o ctx false).Holds o [] where
  ordered := by
    cases o <;> rfl
  keeps := ⟨[], BlockHash.Stands.start _, by decide, List.take_zero⟩
  bits := by
    change (Counter.mk 0 0 : Counter 32).joined = BitVec.ofNat (32 + 32) 0
    decide

/-- `MD5Update` does not leave its buffer, and what the context stands for grows by
the bytes it is given. -/
theorem md5Update_spec (h : ctx.Holds o msg) (hlen : buf.length < 2 ^ 32) :
    ∃ ctx', md5Update o ctx buf = .returned ctx' ∧ ctx'.Holds o (msg ++ buf) := by
  obtain ⟨hord, ⟨pending, hst, hlt, htake⟩, hbits⟩ := h
  have hcount := Holds.pending_length ⟨hord, ⟨pending, hst, hlt, htake⟩, hbits⟩
  have hmod := hst.length_mod
  change pending.length % 64 = msg.length % 64 at hmod
  have hpend : ((ctx.bits.low >>> 3) &&& 0x3f#32).toNat = pending.length := by
    rw [hcount]
    omega
  have hnew := bits_update hbits hlen
  rw [← List.length_append] at hnew
  simp only [md5Update, hpend]
  generalize hctx : ({ ctx with bits := _ } : Md5Context) = ctx₁
  have hord₁ : ctx₁.Ordered o := by rw [← hctx]; exact hord
  have hst₁ : md5Hash.Stands Regs.start (msg ++ buf) ctx₁.buf (pending ++ buf) := by
    rw [← hctx]
    exact hst.append buf
  have htake₁ : ctx₁.inBuf.bytes.take pending.length = pending := by rw [← hctx]; exact htake
  have hbits₁ : ctx₁.bits.joined = BitVec.ofNat (32 + 32) (8 * (msg ++ buf).length) := by
    rw [← hctx]
    exact hnew
  have hsize := ctx₁.inBuf.size_eq
  by_cases hnil : pending = []
  · -- nothing is pending
    rw [if_neg (by rw [hnil]; exact fun h => h rfl)]
    rw [hnil, List.nil_append] at hst₁
    obtain ⟨ctx', hret, hkept, hkeeps, heq⟩ := md5Chunks_spec hord₁ hst₁
    exact ⟨ctx', hret, hkept, hkeeps, by rwa [heq]⟩
  · rw [if_pos (by rwa [ne_eq, List.length_eq_zero_iff])]
    by_cases hshort : buf.length < 64 - pending.length
    · -- the block does not get full
      obtain ⟨f, hcopy, hf⟩ := ctx₁.copyIn_eq (i := pending.length) (b := buf) (by omega)
      rw [if_pos hshort]
      refine ⟨_, hcopy, hord₁, ⟨pending ++ buf, hst₁, by rw [List.length_append]; omega, ?_⟩,
        hbits₁⟩
      change f.bytes.take (pending ++ buf).length = pending ++ buf
      rw [hf, List.length_append, take_overwrite_end _ _ _ (by omega), htake₁]
    · -- it gets full, and the rest goes through the loop
      have hlen64 : (buf.take (64 - pending.length)).length = 64 - pending.length := by
        rw [List.length_take]
        omega
      obtain ⟨f, hcopy, hf⟩ := ctx₁.copyIn_eq (i := pending.length)
        (b := buf.take (64 - pending.length)) (by omega)
      have hblock : f.bytes = pending ++ buf.take (64 - pending.length) := by
        rw [hf, overwrite, htake₁, List.drop_of_length_le (by omega), List.append_nil]
      have hcut : pending ++ buf = f.bytes ++ buf.drop (64 - pending.length) := by
        rw [hblock, List.append_assoc, List.take_append_drop]
      rw [hcut] at hst₁
      obtain ⟨ctx₂, hcompress, hord₂, hbits₂, hst₂⟩ := compress_spec hord₁ hst₁
      obtain ⟨ctx', hret, hkept, hkeeps, heq⟩ := md5Chunks_spec hord₂ hst₂
      rw [if_neg hshort, hcopy, Outcome.returned_bind, hcompress]
      exact ⟨ctx', hret, hkept, hkeeps, by rwa [heq, hbits₂]⟩

/-! ## The end -/

/-- `md5Pad` leaves 56 bytes of the padded message in `in`. -/
theorem md5Pad_spec (h : ctx.Holds o msg) :
    ∃ ctx', md5Pad o ctx = .returned ctx' ∧ ctx'.Ordered o ∧ ctx'.bits = ctx.bits ∧
      md5Hash.Stands Regs.start (msg ++ padding 64 8 msg.length) ctx'.buf
        (ctx'.inBuf.bytes.take 56) := by
  obtain ⟨hord, ⟨pending, hst, hlt, htake⟩, hbits⟩ := h
  have hcount := Holds.pending_length ⟨hord, ⟨pending, hst, hlt, htake⟩, hbits⟩
  have hmod := hst.length_mod
  change pending.length % 64 = msg.length % 64 at hmod
  have hpend : ((ctx.bits.low >>> 3) &&& 0x3f#32).toNat = pending.length := by
    rw [hcount]
    omega
  have hpadded := hst.append (padding 64 8 msg.length)
  rw [padding_congr hmod.symm] at hpadded
  have hsize := ctx.inBuf.size_eq
  obtain ⟨f, hmark, hf⟩ := ctx.copyIn_eq (i := pending.length) (b := [0x80])
    (by rw [List.length_singleton]; omega)
  have hfront : f.bytes.take (pending.length + 1) = pending ++ [0x80] := by
    have htake₁ := take_overwrite_end ctx.inBuf.bytes pending.length [0x80] (by omega)
    rwa [htake, ← hf] at htake₁
  simp only [md5Pad, hpend, hmark, Outcome.returned_bind]
  by_cases hsplit : 64 - 1 - pending.length < 8
  · -- no room for the count: the padding goes on in another block
    have hzeros : padZeros 64 8 pending.length = 64 - 1 - pending.length + 56 := by
      rw [padZeros]
      omega
    obtain ⟨g, hfill, hg⟩ := Md5Context.copyIn_eq { ctx with inBuf := f } (i := pending.length + 1)
      (b := List.replicate (64 - 1 - pending.length) 0) (by rw [List.length_replicate]; omega)
    have hblock : g.bytes = pending ++ 0x80 :: List.replicate (64 - 1 - pending.length) 0 := by
      rw [hg, overwrite]
      change f.bytes.take _ ++ _ ++ f.bytes.drop _ = _
      rw [hfront, List.drop_of_length_le (by rw [f.size_eq, List.length_replicate]; omega),
        List.append_nil, List.append_assoc, List.singleton_append]
    rw [padding, hzeros, ← List.replicate_append_replicate, ← List.cons_append,
      ← List.append_assoc, ← List.append_assoc, ← hblock] at hpadded
    obtain ⟨ctx₁, hcompress, hord₁, hbits₁, hst₁⟩ := compress_spec hord hpadded
    obtain ⟨k, hclear, hk⟩ := ctx₁.copyIn_eq (i := 0) (b := List.replicate 56 0)
      (by rw [List.length_replicate]; omega)
    have hlast : k.bytes.take 56 = List.replicate 56 0 := by
      have htake56 := take_overwrite_end ctx₁.inBuf.bytes 0 (List.replicate 56 0) (Nat.zero_le _)
      rwa [← hk, List.take_zero, List.nil_append, List.length_replicate] at htake56
    rw [if_pos hsplit, hfill, Outcome.returned_bind, hcompress, hclear]
    refine ⟨_, rfl, hord₁, hbits₁, ?_⟩
    rw [padding_congr hmod.symm, padding, hzeros, ← List.replicate_append_replicate,
      ← List.cons_append, ← List.append_assoc]
    change md5Hash.Stands Regs.start _ ctx₁.buf (k.bytes.take 56)
    rwa [hlast]
  · have hzeros : padZeros 64 8 pending.length = 64 - 1 - pending.length - 8 := by
      rw [padZeros]
      omega
    obtain ⟨g, hfill, hg⟩ := copyIn_eq { ctx with inBuf := f } (i := pending.length + 1)
      (b := List.replicate (64 - 1 - pending.length - 8) 0)
      (by rw [List.length_replicate]; omega)
    have hlast : g.bytes.take 56 = pending ++ padding 64 8 pending.length := by
      have htake56 := take_overwrite_end f.bytes (pending.length + 1)
        (List.replicate (64 - 1 - pending.length - 8) 0) (by rw [f.size_eq]; omega)
      have hend : pending.length + 1 + (64 - 1 - pending.length - 8) = 56 := by omega
      rw [hfront, List.length_replicate, hend] at htake56
      rw [hg]
      change (overwrite f.bytes _ _).take 56 = _
      rw [htake56, padding, hzeros, List.append_assoc, List.singleton_append]
    rw [if_neg hsplit, hfill]
    refine ⟨_, rfl, hord, rfl, ?_⟩
    change md5Hash.Stands Regs.start _ ctx.buf (g.bytes.take 56)
    rw [hlast, padding_congr hmod.symm]
    exact hpadded

/-- The bytes of the state are moved. -/
theorem byteReverse_stored (r : Regs) : byteReverse .big 4 (r.stored .big) = r.bytes := by
  have hword : ∀ x : BitVec 32, byteReverse .big 1 (ByteOrder.big.bytes 4 x) = bytesLE 4 x := by
    intro x
    have hlen : (bytesLE 4 x).reverse.length = 4 := by rw [List.length_reverse, length_bytesLE]
    change byteReverse .big 1 (bytesLE 4 x).reverse = _
    rw [byteReverse, byteReverse, longOf_eq, List.take_of_length_le (by omega),
      List.drop_of_length_le (by omega), List.append_nil, ByteOrder.bytes,
      bytesLE_wordLE (w := 32) (n := 4) rfl hlen, List.reverse_reverse]
  have hlen : ∀ x : BitVec 32, (ByteOrder.big.bytes 4 x).length = 4 * 1 :=
    fun x => ByteOrder.length_bytes _ _ _
  rw [Regs.stored, Regs.bytes, List.append_assoc, List.append_assoc,
    byteReverse_append .big (n := 1) _ 3 (hlen _), hword,
    byteReverse_append .big (n := 1) _ 2 (hlen _), hword,
    byteReverse_append .big (n := 1) _ 1 (hlen _), hword, hword, List.append_assoc,
    List.append_assoc]

/-- The last block, with the count of the bits. -/
theorem load_lastBlock {low high : BitVec 32} {last : Bytes} (hord : ctx.Ordered o)
    (hlast : last = (ctx.reverse o 14 (by decide)).inBuf.bytes.take 56 ++
      (o.bytes 4 low ++ o.bytes 4 high)) :
    o.load 32 4 last = blockWord (ctx.inBuf.bytes.take 56 ++ bytesLE 8 (high ++ low)) := by
  have hcount : bytesLE 8 (high ++ low) = bytesLE 4 low ++ bytesLE 4 high :=
    bytesLE_append (n := 4) (m := 4) rfl high low
  have hlen : (ctx.inBuf.bytes.take 56).length = 4 * 14 := by
    rw [List.length_take, ctx.inBuf.size_eq]
    rfl
  rw [hcount, hlast, reverse, hord]
  cases o with
  | little => rfl
  | big =>
      funext i
      have hmoved : (byteReverse .big 14 ctx.inBuf.bytes).take 56 =
          byteReverse .big 14 (ctx.inBuf.bytes.take 56) := by
        have hcut := byteReverse_append .big (ctx.inBuf.bytes.drop 56) 0 hlen
        rw [List.take_append_drop] at hcut
        rw [hcut, List.take_left' (by rw [length_byteReverse _ (by omega), hlen])]
      have hwhole := byteReverse_append .big (bytesLE 4 low ++ bytesLE 4 high) 2 hlen
      rw [byteReverse_append .big (n := 1) _ 1 (length_bytesLE _ _), byteReverse_one,
        byteReverse_one, ← hmoved] at hwhole
      rw [← load_byteReverse (n := 16) (by
        rw [List.length_append, List.length_append, hlen, length_bytesLE, length_bytesLE])]
      exact congrArg (fun mem => ByteOrder.big.load 32 4 mem i) hwhole.symm

/-- `MD5Final` stores the digest of the bytes given so far. -/
theorem md5Final_spec (h : ctx.Holds o msg) :
    ∃ ctx', md5Final o ctx = .returned (md5 msg, ctx') := by
  obtain ⟨ctx₁, hpad, hord, hbits, hst⟩ := md5Pad_spec h
  have hsize := (ctx₁.reverse o 14 (by decide)).inBuf.size_eq
  obtain ⟨f, hlow, hf⟩ := (ctx₁.reverse o 14 (by decide)).copyIn_eq (i := 56)
    (b := o.bytes 4 ctx₁.bits.low) (by rw [ByteOrder.length_bytes]; decide)
  obtain ⟨g, hhigh, hg⟩ := copyIn_eq { ctx₁.reverse o 14 (by decide) with inBuf := f } (i := 60)
    (b := o.bytes 4 (ctx₁.reverse o 14 (by decide)).bits.high) (by rw [ByteOrder.length_bytes])
  have hlast : g.bytes = (ctx₁.reverse o 14 (by decide)).inBuf.bytes.take 56 ++
      (o.bytes 4 ctx₁.bits.low ++ o.bytes 4 ctx₁.bits.high) := by
    have hfront := take_overwrite_end (ctx₁.reverse o 14 (by decide)).inBuf.bytes 56
      (o.bytes 4 ctx₁.bits.low) (by omega)
    rw [← hf, ByteOrder.length_bytes] at hfront
    rw [hg, overwrite]
    change f.bytes.take 60 ++ _ ++ f.bytes.drop _ = _
    rw [hfront, List.drop_of_length_le (by rw [f.size_eq, ByteOrder.length_bytes]),
      List.append_nil, List.append_assoc, reverse_bits]
  -- the words of the last block, and what it is compressed to
  have hjoined : ctx₁.bits.high ++ ctx₁.bits.low = BitVec.ofNat 64 (8 * msg.length) := by
    rw [hbits]
    exact h.bits
  have hend := hst.finish (bytesLE 8 (BitVec.ofNat 64 (8 * msg.length)))
  rw [md5Hash.run_block (by
    rw [List.length_append, List.length_take, ctx₁.inBuf.size_eq, length_bytesLE]; rfl)] at hend
  have hstate : md5Transform ctx₁.buf (o.load 32 4 g.bytes) =
      md5Hash.run Regs.start (msg ++ (padding 64 8 msg.length ++
        bytesLE 8 (BitVec.ofNat 64 (8 * msg.length)))) := by
    rw [load_lastBlock hord hlast, hjoined, md5Transform_eq, ← List.append_assoc, ← hend]
    rfl
  rw [md5Final, hpad, Outcome.returned_bind, hlow, Outcome.returned_bind]
  dsimp only
  rw [hhigh, Outcome.returned_bind]
  dsimp only
  rw [transform_doByteReverse, transform_buf]
  dsimp only
  rw [reverse_buf, reverse_doByteReverse, hstate, hord]
  cases o with
  | little => exact ⟨_, rfl⟩
  | big =>
      rw [byteReverse_stored]
      exact ⟨_, rfl⟩

/-! ## Messages in pieces -/

/-- `MD5Update` with one piece after another. -/
def md5Updates (o : ByteOrder) (ctx : Md5Context) : List Bytes → Outcome Md5Context
  | [] => .returned ctx
  | piece :: pieces => md5Update o ctx piece >>= fun ctx => md5Updates o ctx pieces

theorem md5Updates_spec {pieces : List Bytes} (h : ctx.Holds o msg)
    (hlen : ∀ piece ∈ pieces, piece.length < 2 ^ 32) :
    ∃ ctx', md5Updates o ctx pieces = .returned ctx' ∧ ctx'.Holds o (msg ++ pieces.flatten) := by
  induction pieces generalizing ctx msg with
  | nil =>
      refine ⟨ctx, rfl, ?_⟩
      rwa [List.flatten_nil, List.append_nil]
  | cons piece pieces ih =>
      obtain ⟨ctx₁, hupdate, h₁⟩ := md5Update_spec h (hlen piece List.mem_cons_self)
      obtain ⟨ctx', hrest, h'⟩ := ih h₁ fun p hp => hlen p (List.mem_cons_of_mem _ hp)
      refine ⟨ctx', by rw [md5Updates, hupdate, Outcome.returned_bind, hrest], ?_⟩
      rwa [List.flatten_cons, ← List.append_assoc]

/-- A message in pieces, from `MD5Init` to `MD5Final`. -/
def md5Digest (o : ByteOrder) (ctx : Md5Context) (pieces : List Bytes) : Outcome Bytes :=
  md5Updates o (md5Init o ctx false) pieces >>= fun ctx =>
    md5Final o ctx >>= fun r => .returned r.1

/-- The digest is the one of the message, however it is cut, on both kinds of host
and whatever the context was before. -/
theorem md5Digest_eq (o : ByteOrder) (ctx : Md5Context) {pieces : List Bytes}
    (hlen : ∀ piece ∈ pieces, piece.length < 2 ^ 32) :
    md5Digest o ctx pieces = .returned (md5 pieces.flatten) := by
  obtain ⟨ctx₁, hupdates, h₁⟩ := md5Updates_spec (holds_md5Init o ctx) hlen
  obtain ⟨ctx₂, hfinal⟩ := md5Final_spec h₁
  rw [md5Digest, hupdates, Outcome.returned_bind, hfinal]
  rfl

/-- A message in three pieces, on a big-endian host. -/
theorem md5Digest_eq_pieces :
    md5Digest .big ⟨Regs.start, ⟨0, 0⟩, CField.zero 64, false⟩ [[97], [], [98, 99]] =
      .returned (md5 [97, 98, 99]) :=
  md5Digest_eq .big _ (by decide)

end Swbis.Misc.Md5
