import Mathlib.Tactic.IntervalCases
import Swbis.Lib.BlockHash
import Swbis.Lib.ByteOrder
import Swbis.Lib.FullRead
import Swbis.Lib.Memory
import Swbis.Lib.Recurrence

/-!
# The SHA-512 and SHA-384 message digests

`sha512_process_bytes` is built like the function for SHA-1, on blocks of 128 bytes
and with a buffer of 256, but when it has filled its buffer it masks the count of
bytes to process with the size of a SHA-1 block.  With 192 to 255 bytes in the buffer
the count is 192, and `sha512_process_block` goes on to the end of the block: the
second block it compresses ends with old bytes of the buffer.  `Undisturbed` says of
the lengths of some pieces that this does not happen, and `sha512Digest_eq` that the
digest of a message in such pieces is the right one, on both kinds of host and
whether or not the pieces are aligned.

`sha512` and `sha384` are the digests as the standard defines them.
-/

namespace Swbis.Misc.Sha512

open CLib

/-! ## The digest of a message -/

/-- The eight words of the state. -/
structure Regs where
  a : BitVec 64
  b : BitVec 64
  c : BitVec 64
  d : BitVec 64
  e : BitVec 64
  f : BitVec 64
  g : BitVec 64
  h : BitVec 64
deriving DecidableEq

namespace Regs

/-- The initial state of SHA-512. -/
def start512 : Regs :=
  ⟨0x6a09e667f3bcc908#64, 0xbb67ae8584caa73b#64, 0x3c6ef372fe94f82b#64, 0xa54ff53a5f1d36f1#64,
    0x510e527fade682d1#64, 0x9b05688c2b3e6c1f#64, 0x1f83d9abfb41bd6b#64, 0x5be0cd19137e2179#64⟩

/-- The initial state of SHA-384. -/
def start384 : Regs :=
  ⟨0xcbbb9d5dc1059ed8#64, 0x629a292a367cd507#64, 0x9159015a3070dd17#64, 0x152fecd8f70e5939#64,
    0x67332667ffc00b31#64, 0x8eb44a8768581511#64, 0xdb0c2e0d64f98fa7#64, 0x47b5481dbefa4fa4#64⟩

/-- Add two states word by word. -/
def add (r s : Regs) : Regs :=
  ⟨r.a + s.a, r.b + s.b, r.c + s.c, r.d + s.d, r.e + s.e, r.f + s.f, r.g + s.g, r.h + s.h⟩

/-- The first six words as bytes. -/
def bytes384 (r : Regs) : Bytes :=
  ByteOrder.big.bytes 8 r.a ++ ByteOrder.big.bytes 8 r.b ++ ByteOrder.big.bytes 8 r.c ++
    ByteOrder.big.bytes 8 r.d ++ ByteOrder.big.bytes 8 r.e ++ ByteOrder.big.bytes 8 r.f

/-- The state as 64 bytes. -/
def bytes512 (r : Regs) : Bytes :=
  r.bytes384 ++ ByteOrder.big.bytes 8 r.g ++ ByteOrder.big.bytes 8 r.h

end Regs

/-- A word of a block. -/
def blockWord (block : Bytes) (t : Nat) : BitVec 64 := ByteOrder.big.load 64 8 block t

/-- The first function of the schedule. -/
def sigma0 (x : BitVec 64) : BitVec 64 := x.rotateRight 1 ^^^ x.rotateRight 8 ^^^ x >>> 7

/-- The second function of the schedule. -/
def sigma1 (x : BitVec 64) : BitVec 64 := x.rotateRight 19 ^^^ x.rotateRight 61 ^^^ x >>> 6

/-- The next word of the schedule of a block. -/
def nextWord (block : Bytes) (ws : List (BitVec 64)) : BitVec 64 :=
  let t := ws.length
  if t < 16 then blockWord block t
  else sigma1 (ws.getD (t - 2) 0) + ws.getD (t - 7) 0 + sigma0 (ws.getD (t - 15) 0) +
    ws.getD (t - 16) 0

/-- The constant of a round, from the cube root of a prime: `sha512_round_constants`. -/
def k (t : Nat) : BitVec 64 :=
  BitVec.ofNat 64 ([
    0x428a2f98d728ae22, 0x7137449123ef65cd, 0xb5c0fbcfec4d3b2f, 0xe9b5dba58189dbbc,
    0x3956c25bf348b538, 0x59f111f1b605d019, 0x923f82a4af194f9b, 0xab1c5ed5da6d8118,
    0xd807aa98a3030242, 0x12835b0145706fbe, 0x243185be4ee4b28c, 0x550c7dc3d5ffb4e2,
    0x72be5d74f27b896f, 0x80deb1fe3b1696b1, 0x9bdc06a725c71235, 0xc19bf174cf692694,
    0xe49b69c19ef14ad2, 0xefbe4786384f25e3, 0x0fc19dc68b8cd5b5, 0x240ca1cc77ac9c65,
    0x2de92c6f592b0275, 0x4a7484aa6ea6e483, 0x5cb0a9dcbd41fbd4, 0x76f988da831153b5,
    0x983e5152ee66dfab, 0xa831c66d2db43210, 0xb00327c898fb213f, 0xbf597fc7beef0ee4,
    0xc6e00bf33da88fc2, 0xd5a79147930aa725, 0x06ca6351e003826f, 0x142929670a0e6e70,
    0x27b70a8546d22ffc, 0x2e1b21385c26c926, 0x4d2c6dfc5ac42aed, 0x53380d139d95b3df,
    0x650a73548baf63de, 0x766a0abb3c77b2a8, 0x81c2c92e47edaee6, 0x92722c851482353b,
    0xa2bfe8a14cf10364, 0xa81a664bbc423001, 0xc24b8b70d0f89791, 0xc76c51a30654be30,
    0xd192e819d6ef5218, 0xd69906245565a910, 0xf40e35855771202a, 0x106aa07032bbd1b8,
    0x19a4c116b8d2d0c8, 0x1e376c085141ab53, 0x2748774cdf8eeb99, 0x34b0bcb5e19b48a8,
    0x391c0cb3c5c95a63, 0x4ed8aa4ae3418acb, 0x5b9cca4f7763e373, 0x682e6ff3d6b2b8a3,
    0x748f82ee5defb2fc, 0x78a5636f43172f60, 0x84c87814a1f0ab72, 0x8cc702081a6439ec,
    0x90befffa23631e28, 0xa4506cebde82bde9, 0xbef9a3f7b2c67915, 0xc67178f2e372532b,
    0xca273eceea26619c, 0xd186b8c721c0c207, 0xeada7dd6cde0eb1e, 0xf57d4f7fee6ed178,
    0x06f067aa72176fba, 0x0a637dc5a2c898a6, 0x113f9804bef90dae, 0x1b710b35131c471b,
    0x28db77f523047d84, 0x32caab7b40c72493, 0x3c9ebe0a15c9bebc, 0x431d67c49c100d4c,
    0x4cc5d4becb3e42b6, 0x597f299cfc657e2a, 0x5fcb6fab3ad6faec, 0x6c44198c4a475817].getD t 0)

/-- A round, with the word `w` of the schedule. -/
def round (w : Nat → BitVec 64) (r : Regs) (t : Nat) : Regs :=
  let sum1 := r.e.rotateRight 14 ^^^ r.e.rotateRight 18 ^^^ r.e.rotateRight 41
  let ch := r.e &&& r.f ||| ~~~r.e &&& r.g
  let t1 := r.h + sum1 + ch + k t + w t
  let sum0 := r.a.rotateRight 28 ^^^ r.a.rotateRight 34 ^^^ r.a.rotateRight 39
  let maj := r.a &&& r.b ||| r.a &&& r.c ||| r.b &&& r.c
  ⟨t1 + (sum0 + maj), r.a, r.b, r.c, r.d + t1, r.e, r.f, r.g⟩

/-- Blocks of 128 bytes, and 80 rounds for each.  The schedule is made once. -/
def shaHash : BlockHash Regs where
  size := 128
  size_pos := Nat.succ_pos _
  compress r block :=
    let ws := terms (nextWord block) 80
    r.add ((List.range 80).foldl (round fun t => ws.getD t 0) r)

/-- The state after a message and its padding. -/
def finalState (start : Regs) (msg : Bytes) : Regs :=
  shaHash.run start (msg ++ (padding 128 16 msg.length ++
    ByteOrder.big.bytes 16 (BitVec.ofNat 128 (8 * msg.length))))

/-- The SHA-512 digest of a message. -/
def sha512 (msg : Bytes) : Bytes := (finalState Regs.start512 msg).bytes512

/-- The SHA-384 digest of a message. -/
def sha384 (msg : Bytes) : Bytes := (finalState Regs.start384 msg).bytes384

example : sha512 [97, 98, 99] =
    [0xdd, 0xaf, 0x35, 0xa1, 0x93, 0x61, 0x7a, 0xba, 0xcc, 0x41, 0x73, 0x49, 0xae, 0x20, 0x41, 0x31,
    0x12, 0xe6, 0xfa, 0x4e, 0x89, 0xa9, 0x7e, 0xa2, 0x0a, 0x9e, 0xee, 0xe6, 0x4b, 0x55, 0xd3, 0x9a,
    0x21, 0x92, 0x99, 0x2a, 0x27, 0x4f, 0xc1, 0xa8, 0x36, 0xba, 0x3c, 0x23, 0xa3, 0xfe, 0xeb, 0xbd,
    0x45, 0x4d, 0x44, 0x23, 0x64, 0x3c, 0xe8, 0x0e, 0x2a, 0x9a, 0xc9, 0x4f, 0xa5, 0x4c, 0xa4,
    0x9f] := by
  decide +kernel

/-! ## `sha512_process_block` -/

/-- `u64rol` -/
def u64rol (x : BitVec 64) (n : Nat) : BitVec 64 := x <<< n ||| x >>> (64 - n)

/-- `F1` -/
def f1 (e f g : BitVec 64) : BitVec 64 := g ^^^ (e &&& (f ^^^ g))

/-- `F2` -/
def f2 (a b c : BitVec 64) : BitVec 64 := (a &&& b) ||| (c &&& (a ||| b))

/-- `S0` -/
def s0 (x : BitVec 64) : BitVec 64 := u64rol x 63 ^^^ (u64rol x 56 ^^^ x >>> 7)

/-- `S1` -/
def s1 (x : BitVec 64) : BitVec 64 := u64rol x 45 ^^^ (u64rol x 3 ^^^ x >>> 6)

/-- `SS0` -/
def ss0 (x : BitVec 64) : BitVec 64 := u64rol x 36 ^^^ (u64rol x 30 ^^^ u64rol x 25)

/-- `SS1` -/
def ss1 (x : BitVec 64) : BitVec 64 := u64rol x 50 ^^^ (u64rol x 46 ^^^ u64rol x 23)

/-- `x[i]`, and the array. -/
def word (i : Nat) (x : List (BitVec 64)) : BitVec 64 × List (BitVec 64) := (x.getD i 0, x)

/-- `M (i)`, and the array after it. -/
def mix (i : Nat) (x : List (BitVec 64)) : BitVec 64 × List (BitVec 64) :=
  let v := x.getD (i % 16) 0 + (s1 (x.getD ((i - 2) % 16) 0) +
    (x.getD ((i - 7) % 16) 0 + s0 (x.getD ((i - 15) % 16) 0)))
  (v, x.set (i % 16) v)

/-- `t0` of a line. -/
def lineT0 (a b c : BitVec 64) : BitVec 64 := ss0 a + f2 a b c

/-- `t1` of a line. -/
def lineT1 (e f g h k m : BitVec 64) : BitVec 64 := h + (ss1 e + (f1 e f g + (k + m)))

/-- The registers and the array `x`. -/
structure Work where
  regs : Regs
  x : List (BitVec 64)

namespace Work

variable (s : Work) (k : BitVec 64) (m : List (BitVec 64) → BitVec 64 × List (BitVec 64))

/-- `R (a, b, c, d, e, f, g, h, k, m)` -/
def rA : Work :=
  let r := s.regs
  let t0 := lineT0 r.a r.b r.c
  let t1 := lineT1 r.e r.f r.g r.h k (m s.x).1
  ⟨{ r with d := r.d + t1, h := t0 + t1 }, (m s.x).2⟩

/-- `R (h, a, b, c, d, e, f, g, k, m)` -/
def rH : Work :=
  let r := s.regs
  let t0 := lineT0 r.h r.a r.b
  let t1 := lineT1 r.d r.e r.f r.g k (m s.x).1
  ⟨{ r with c := r.c + t1, g := t0 + t1 }, (m s.x).2⟩

/-- `R (g, h, a, b, c, d, e, f, k, m)` -/
def rG : Work :=
  let r := s.regs
  let t0 := lineT0 r.g r.h r.a
  let t1 := lineT1 r.c r.d r.e r.f k (m s.x).1
  ⟨{ r with b := r.b + t1, f := t0 + t1 }, (m s.x).2⟩

/-- `R (f, g, h, a, b, c, d, e, k, m)` -/
def rF : Work :=
  let r := s.regs
  let t0 := lineT0 r.f r.g r.h
  let t1 := lineT1 r.b r.c r.d r.e k (m s.x).1
  ⟨{ r with a := r.a + t1, e := t0 + t1 }, (m s.x).2⟩

/-- `R (e, f, g, h, a, b, c, d, k, m)` -/
def rE : Work :=
  let r := s.regs
  let t0 := lineT0 r.e r.f r.g
  let t1 := lineT1 r.a r.b r.c r.d k (m s.x).1
  ⟨{ r with h := r.h + t1, d := t0 + t1 }, (m s.x).2⟩

/-- `R (d, e, f, g, h, a, b, c, k, m)` -/
def rD : Work :=
  let r := s.regs
  let t0 := lineT0 r.d r.e r.f
  let t1 := lineT1 r.h r.a r.b r.c k (m s.x).1
  ⟨{ r with g := r.g + t1, c := t0 + t1 }, (m s.x).2⟩

/-- `R (c, d, e, f, g, h, a, b, k, m)` -/
def rC : Work :=
  let r := s.regs
  let t0 := lineT0 r.c r.d r.e
  let t1 := lineT1 r.g r.h r.a r.b k (m s.x).1
  ⟨{ r with f := r.f + t1, b := t0 + t1 }, (m s.x).2⟩

/-- `R (b, c, d, e, f, g, h, a, k, m)` -/
def rB : Work :=
  let r := s.regs
  let t0 := lineT0 r.b r.c r.d
  let t1 := lineT1 r.f r.g r.h r.a k (m s.x).1
  ⟨{ r with e := r.e + t1, a := t0 + t1 }, (m s.x).2⟩

end Work

/-- The lines of `sha512_process_block` for a block. -/
def shaLines (s : Work) : Work :=
  s
    |>.rA (k 0) (word 0) |>.rH (k 1) (word 1) |>.rG (k 2) (word 2) |>.rF (k 3) (word 3)
    |>.rE (k 4) (word 4) |>.rD (k 5) (word 5) |>.rC (k 6) (word 6) |>.rB (k 7) (word 7)
    |>.rA (k 8) (word 8) |>.rH (k 9) (word 9) |>.rG (k 10) (word 10) |>.rF (k 11) (word 11)
    |>.rE (k 12) (word 12) |>.rD (k 13) (word 13) |>.rC (k 14) (word 14) |>.rB (k 15) (word 15)
    |>.rA (k 16) (mix 16) |>.rH (k 17) (mix 17) |>.rG (k 18) (mix 18) |>.rF (k 19) (mix 19)
    |>.rE (k 20) (mix 20) |>.rD (k 21) (mix 21) |>.rC (k 22) (mix 22) |>.rB (k 23) (mix 23)
    |>.rA (k 24) (mix 24) |>.rH (k 25) (mix 25) |>.rG (k 26) (mix 26) |>.rF (k 27) (mix 27)
    |>.rE (k 28) (mix 28) |>.rD (k 29) (mix 29) |>.rC (k 30) (mix 30) |>.rB (k 31) (mix 31)
    |>.rA (k 32) (mix 32) |>.rH (k 33) (mix 33) |>.rG (k 34) (mix 34) |>.rF (k 35) (mix 35)
    |>.rE (k 36) (mix 36) |>.rD (k 37) (mix 37) |>.rC (k 38) (mix 38) |>.rB (k 39) (mix 39)
    |>.rA (k 40) (mix 40) |>.rH (k 41) (mix 41) |>.rG (k 42) (mix 42) |>.rF (k 43) (mix 43)
    |>.rE (k 44) (mix 44) |>.rD (k 45) (mix 45) |>.rC (k 46) (mix 46) |>.rB (k 47) (mix 47)
    |>.rA (k 48) (mix 48) |>.rH (k 49) (mix 49) |>.rG (k 50) (mix 50) |>.rF (k 51) (mix 51)
    |>.rE (k 52) (mix 52) |>.rD (k 53) (mix 53) |>.rC (k 54) (mix 54) |>.rB (k 55) (mix 55)
    |>.rA (k 56) (mix 56) |>.rH (k 57) (mix 57) |>.rG (k 58) (mix 58) |>.rF (k 59) (mix 59)
    |>.rE (k 60) (mix 60) |>.rD (k 61) (mix 61) |>.rC (k 62) (mix 62) |>.rB (k 63) (mix 63)
    |>.rA (k 64) (mix 64) |>.rH (k 65) (mix 65) |>.rG (k 66) (mix 66) |>.rF (k 67) (mix 67)
    |>.rE (k 68) (mix 68) |>.rD (k 69) (mix 69) |>.rC (k 70) (mix 70) |>.rB (k 71) (mix 71)
    |>.rA (k 72) (mix 72) |>.rH (k 73) (mix 73) |>.rG (k 74) (mix 74) |>.rF (k 75) (mix 75)
    |>.rE (k 76) (mix 76) |>.rD (k 77) (mix 77) |>.rC (k 78) (mix 78) |>.rB (k 79) (mix 79)

/-! ## The lines are the rounds -/

theorem f1_eq (x y z : BitVec 64) : f1 x y z = x &&& y ||| ~~~x &&& z := by
  apply BitVec.eq_of_getLsbD_eq
  intro i hi
  simp only [f1, BitVec.getLsbD_xor, BitVec.getLsbD_and, BitVec.getLsbD_or, BitVec.getLsbD_not, hi,
    decide_true, Bool.true_and]
  cases x.getLsbD i <;> cases y.getLsbD i <;> cases z.getLsbD i <;> rfl

theorem f2_eq (x y z : BitVec 64) : f2 x y z = x &&& y ||| x &&& z ||| y &&& z := by
  apply BitVec.eq_of_getLsbD_eq
  intro i hi
  simp only [f2, BitVec.getLsbD_and, BitVec.getLsbD_or]
  cases x.getLsbD i <;> cases y.getLsbD i <;> cases z.getLsbD i <;> rfl

/-- A rotation to the left is one to the right. -/
theorem u64rol_eq (x : BitVec 64) (n m : Nat) (hsum : n + m = 64) (hpos : 0 < n) :
    u64rol x n = x.rotateRight m := by
  have hback : 64 - m = n := by omega
  have hm : 64 - n = m := by omega
  rw [u64rol, BitVec.rotateRight_def, Nat.mod_eq_of_lt (by omega), hback, hm, BitVec.or_comm]

theorem s0_eq (x : BitVec 64) : s0 x = sigma0 x := by
  rw [s0, sigma0, u64rol_eq x 63 1 rfl (by omega), u64rol_eq x 56 8 rfl (by omega),
    BitVec.xor_assoc]

theorem s1_eq (x : BitVec 64) : s1 x = sigma1 x := by
  rw [s1, sigma1, u64rol_eq x 45 19 rfl (by omega), u64rol_eq x 3 61 rfl (by omega),
    BitVec.xor_assoc]

theorem ss0_eq (x : BitVec 64) :
    ss0 x = x.rotateRight 28 ^^^ x.rotateRight 34 ^^^ x.rotateRight 39 := by
  rw [ss0, u64rol_eq x 36 28 rfl (by omega), u64rol_eq x 30 34 rfl (by omega),
    u64rol_eq x 25 39 rfl (by omega), BitVec.xor_assoc]

theorem ss1_eq (x : BitVec 64) :
    ss1 x = x.rotateRight 14 ^^^ x.rotateRight 18 ^^^ x.rotateRight 41 := by
  rw [ss1, u64rol_eq x 50 14 rfl (by omega), u64rol_eq x 46 18 rfl (by omega),
    u64rol_eq x 23 41 rfl (by omega), BitVec.xor_assoc]

/-- A round in terms of the sums of a line. -/
theorem round_eq (w : Nat → BitVec 64) (r : Regs) (t : Nat) :
    round w r t =
      ⟨lineT0 r.a r.b r.c + lineT1 r.e r.f r.g r.h (k t) (w t), r.a, r.b, r.c,
        r.d + lineT1 r.e r.f r.g r.h (k t) (w t), r.e, r.f, r.g⟩ := by
  have ht1 : lineT1 r.e r.f r.g r.h (k t) (w t) = r.h +
      (r.e.rotateRight 14 ^^^ r.e.rotateRight 18 ^^^ r.e.rotateRight 41) +
      (r.e &&& r.f ||| ~~~r.e &&& r.g) + k t + w t := by
    rw [lineT1, ss1_eq, f1_eq]
    simp only [BitVec.add_assoc]
  rw [round, ht1, lineT0, ss0_eq, f2_eq]
  congr 1
  exact BitVec.add_comm _ _

/-- Where a line has its word from. -/
def codeWord (t : Nat) : List (BitVec 64) → BitVec 64 × List (BitVec 64) :=
  if t < 16 then word t else mix t

section

variable {block : Bytes} {r₀ : Regs} {t : Nat} {s : Work}

/-- A line finds the word of its round, and leaves what the next ones need. -/
theorem codeWord_spec {x : List (BitVec 64)}
    (h : InRing (term (nextWord block)) 0 16 (max 16 t) x) :
    (codeWord t x).1 = term (nextWord block) t ∧
      InRing (term (nextWord block)) 0 16 (max 16 (t + 1)) (codeWord t x).2 := by
  rw [codeWord]
  split
  next hlt =>
    have hget := h.holds t (by omega) (by omega)
    rw [Nat.mod_eq_of_lt hlt] at hget
    refine ⟨hget, ?_⟩
    have hmax : max 16 (t + 1) = max 16 t := by omega
    rw [hmax]
    exact h
  next hge =>
    rw [Nat.max_eq_right (by omega)] at h
    rw [Nat.max_eq_right (by omega)]
    have hwrap : (t - 16) % 16 = t % 16 := by omega
    have hold : ∀ k, 0 < k → k ≤ 16 →
        x.getD ((t - k) % 16) 0 = (terms (nextWord block) t).getD (t - k) 0 := by
      intro k hpos hk
      rw [h.get hpos hk (by omega), getD_terms _ (by omega)]
    have h16 := hold 16 (by omega) (by omega)
    rw [hwrap] at h16
    have hword : (mix t x).1 = term (nextWord block) t := by
      rw [mix, term, nextWord, length_terms, if_neg hge, h16, hold 15 (by omega) (by omega),
        hold 7 (by omega) (by omega), hold 2 (by omega) (by omega), s0_eq, s1_eq]
      dsimp only
      ac_rfl
    refine ⟨hword, ?_⟩
    change InRing _ 0 16 (t + 1) (x.set (t % 16) (mix t x).1)
    rw [hword]
    exact h.set (by omega)

/-! The registers in the order in which the next round takes them. -/

/-- Before a line that begins with `a`. -/
def fromA (r : Regs) : Regs := r

/-- Before a line that begins with `h`. -/
def fromH (r : Regs) : Regs := ⟨r.h, r.a, r.b, r.c, r.d, r.e, r.f, r.g⟩

/-- Before a line that begins with `g`. -/
def fromG (r : Regs) : Regs := ⟨r.g, r.h, r.a, r.b, r.c, r.d, r.e, r.f⟩

/-- Before a line that begins with `f`. -/
def fromF (r : Regs) : Regs := ⟨r.f, r.g, r.h, r.a, r.b, r.c, r.d, r.e⟩

/-- Before a line that begins with `e`. -/
def fromE (r : Regs) : Regs := ⟨r.e, r.f, r.g, r.h, r.a, r.b, r.c, r.d⟩

/-- Before a line that begins with `d`. -/
def fromD (r : Regs) : Regs := ⟨r.d, r.e, r.f, r.g, r.h, r.a, r.b, r.c⟩

/-- Before a line that begins with `c`. -/
def fromC (r : Regs) : Regs := ⟨r.c, r.d, r.e, r.f, r.g, r.h, r.a, r.b⟩

/-- Before a line that begins with `b`. -/
def fromB (r : Regs) : Regs := ⟨r.b, r.c, r.d, r.e, r.f, r.g, r.h, r.a⟩

/-- The registers before the `t`-th line, read in the order `view`, are the state
after `t` rounds, and the array holds the words that are needed. -/
structure Sim (block : Bytes) (r₀ : Regs) (view : Regs → Regs) (t : Nat) (s : Work) : Prop where
  regs : view s.regs = (List.range t).foldl (round (term (nextWord block))) r₀
  ring : InRing (term (nextWord block)) 0 16 (max 16 t) s.x

/-- A line that computes what a round does. -/
theorem Sim.step {view view' : Regs → Regs} {s' : Work} (h : Sim block r₀ view t s)
    (hregs : view' s'.regs = round (fun _ => (codeWord t s.x).1) (view s.regs) t)
    (hx : s'.x = (codeWord t s.x).2) : Sim block r₀ view' (t + 1) s' where
  regs := by
    rw [List.range_succ, List.foldl_append, ← h.regs, hregs, (codeWord_spec h.ring).1]
    rfl
  ring := by
    rw [hx]
    exact (codeWord_spec h.ring).2

theorem Sim.rA (h : Sim block r₀ fromA t s) :
    Sim block r₀ fromH (t + 1) (s.rA (k t) (codeWord t)) :=
  h.step (by rw [round_eq]; rfl) rfl

theorem Sim.rH (h : Sim block r₀ fromH t s) :
    Sim block r₀ fromG (t + 1) (s.rH (k t) (codeWord t)) :=
  h.step (by rw [round_eq]; rfl) rfl

theorem Sim.rG (h : Sim block r₀ fromG t s) :
    Sim block r₀ fromF (t + 1) (s.rG (k t) (codeWord t)) :=
  h.step (by rw [round_eq]; rfl) rfl

theorem Sim.rF (h : Sim block r₀ fromF t s) :
    Sim block r₀ fromE (t + 1) (s.rF (k t) (codeWord t)) :=
  h.step (by rw [round_eq]; rfl) rfl

theorem Sim.rE (h : Sim block r₀ fromE t s) :
    Sim block r₀ fromD (t + 1) (s.rE (k t) (codeWord t)) :=
  h.step (by rw [round_eq]; rfl) rfl

theorem Sim.rD (h : Sim block r₀ fromD t s) :
    Sim block r₀ fromC (t + 1) (s.rD (k t) (codeWord t)) :=
  h.step (by rw [round_eq]; rfl) rfl

theorem Sim.rC (h : Sim block r₀ fromC t s) :
    Sim block r₀ fromB (t + 1) (s.rC (k t) (codeWord t)) :=
  h.step (by rw [round_eq]; rfl) rfl

theorem Sim.rB (h : Sim block r₀ fromB t s) :
    Sim block r₀ fromA (t + 1) (s.rB (k t) (codeWord t)) :=
  h.step (by rw [round_eq]; rfl) rfl

/-- Eight lines, after which the registers are back in their places. -/
theorem Sim.eight (h : Sim block r₀ fromA t s) :
    Sim block r₀ fromA (t + 8)
      ((((((((s.rA (k t) (codeWord t)).rH (k (t + 1)) (codeWord (t + 1))).rG
        (k (t + 2)) (codeWord (t + 2))).rF (k (t + 3)) (codeWord (t + 3))).rE
        (k (t + 4)) (codeWord (t + 4))).rD (k (t + 5)) (codeWord (t + 5))).rC
        (k (t + 6)) (codeWord (t + 6))).rB (k (t + 7)) (codeWord (t + 7))) :=
  h.rA.rH.rG.rF.rE.rD.rC.rB

/-- The lines compute the rounds. -/
theorem sim_shaLines (h : Sim block r₀ fromA 0 s) : Sim block r₀ fromA 80 (shaLines s) :=
  h.eight.eight.eight.eight.eight.eight.eight.eight.eight.eight

end

/-! ## The context -/

/-- `sha512_ctx` -/
structure Sha512Ctx where
  state : Regs
  total : Counter 64
  buflen : Nat
  buffer : CField 256
deriving DecidableEq

/-- `SWAP` -/
def swap (o : ByteOrder) (n : BitVec 64) : BitVec 64 :=
  match o with
  | .little =>
      ((n <<< 56 ||| ((n &&& 0x0000ff00#64) <<< 40)) |||
        (((n &&& 0x00ff0000#64) <<< 24) ||| ((n &&& 0xff000000#64) <<< 8))) |||
      ((((n >>> 8) &&& 0xff000000#64) ||| ((n >>> 24) &&& 0x00ff0000#64)) |||
        (((n >>> 40) &&& 0x0000ff00#64) ||| n >>> 56))
  | .big => n

/-- The array `x` that is read for a block. -/
def readBlock (o : ByteOrder) (mem : Bytes) : List (BitVec 64) :=
  (List.range 16).map fun t => swap o (o.load 64 8 mem t)

/-- The loop of `sha512_process_block`, with `nwords` words left. -/
def shaBlocks (o : ByteOrder) (nwords : Nat) (mem : Bytes) (r : Regs) : Outcome Regs :=
  if nwords = 0 then .returned r
  else if 128 ≤ mem.length then
    shaBlocks o (nwords - 16) (mem.drop 128) (r.add (shaLines ⟨r, readBlock o mem⟩).regs)
  else .fault

/-- `sha512_process_block`, with the bytes from `buffer` on. -/
def sha512ProcessBlock (o : ByteOrder) (buffer : Bytes) (len : Nat) (ctx : Sha512Ctx) :
    Outcome Sha512Ctx :=
  shaBlocks o (len / 8) buffer ctx.state >>= fun state =>
    .returned { ctx with state := state, total := ctx.total.add (BitVec.ofNat 64 len) }

/-- `sha512_init_ctx`, and `sha384_init_ctx`, from the initial state of each. -/
def initCtx (start : Regs) (ctx : Sha512Ctx) : Sha512Ctx :=
  { ctx with state := start, total := ⟨0, 0⟩, buflen := 0 }

/-- `sha384_read_ctx`: the bytes that are stored. -/
def sha384ReadCtx (o : ByteOrder) (ctx : Sha512Ctx) : Bytes :=
  o.bytes 8 (swap o ctx.state.a) ++ o.bytes 8 (swap o ctx.state.b) ++
    o.bytes 8 (swap o ctx.state.c) ++ o.bytes 8 (swap o ctx.state.d) ++
    o.bytes 8 (swap o ctx.state.e) ++ o.bytes 8 (swap o ctx.state.f)

/-- `sha512_read_ctx`: the bytes that are stored. -/
def sha512ReadCtx (o : ByteOrder) (ctx : Sha512Ctx) : Bytes :=
  sha384ReadCtx o ctx ++ o.bytes 8 (swap o ctx.state.g) ++ o.bytes 8 (swap o ctx.state.h)

/-- `memcpy` into `buffer`. -/
def Sha512Ctx.copyIn (ctx : Sha512Ctx) (i : Nat) (bs : Bytes) : Outcome Sha512Ctx :=
  ctx.buffer.store i bs >>= fun buffer => .returned { ctx with buffer := buffer }

/-- The part of `sha512_process_bytes` for bytes in the buffer: the context, and what
is left of the data.  The count of the bytes to process is masked with `~63`. -/
def fillBuffer (o : ByteOrder) (data : Bytes) (ctx : Sha512Ctx) : Outcome (Sha512Ctx × Bytes) :=
  if ctx.buflen ≠ 0 then
    let leftOver := ctx.buflen
    let add := if 256 - leftOver > data.length then data.length else 256 - leftOver
    ctx.copyIn leftOver (data.take add) >>= fun ctx =>
      if leftOver + add > 128 then
        sha512ProcessBlock o ctx.buffer.bytes ((leftOver + add) / 64 * 64) ctx >>= fun ctx =>
          load ctx.buffer.bytes ((leftOver + add) / 128 * 128 : Nat)
              ((leftOver + add) % 128 : Nat) >>= fun moved =>
            ctx.copyIn 0 moved >>= fun ctx =>
              .returned ({ ctx with buflen := (leftOver + add) % 128 }, data.drop add)
      else .returned ({ ctx with buflen := leftOver + add }, data.drop add)
  else .returned (ctx, data)

/-- The loop of `sha512_process_bytes` for data that are not aligned. -/
def unalignedLoop (o : ByteOrder) (data : Bytes) (ctx : Sha512Ctx) : Outcome (Sha512Ctx × Bytes) :=
  if 128 < data.length then
    ctx.copyIn 0 (data.take 128) >>= fun ctx =>
      sha512ProcessBlock o ctx.buffer.bytes 128 ctx >>= fun ctx =>
        unalignedLoop o (data.drop 128) ctx
  else .returned (ctx, data)
termination_by data.length
decreasing_by
  rw [List.length_drop]
  omega

/-- The part of `sha512_process_bytes` for whole blocks of the data. -/
def processWhole (o : ByteOrder) (unaligned : Bool) (data : Bytes) (ctx : Sha512Ctx) :
    Outcome (Sha512Ctx × Bytes) :=
  if 128 ≤ data.length then
    if unaligned then unalignedLoop o data ctx
    else
      sha512ProcessBlock o data (data.length / 128 * 128) ctx >>= fun ctx =>
        .returned (ctx, data.drop (data.length / 128 * 128))
  else .returned (ctx, data)

/-- The part of `sha512_process_bytes` for the bytes that remain. -/
def keepRest (o : ByteOrder) (data : Bytes) (ctx : Sha512Ctx) : Outcome Sha512Ctx :=
  if data.length > 0 then
    let leftOver := ctx.buflen + data.length
    ctx.copyIn ctx.buflen data >>= fun ctx =>
      if 128 ≤ leftOver then
        sha512ProcessBlock o ctx.buffer.bytes 128 ctx >>= fun ctx =>
          load ctx.buffer.bytes 128 (leftOver - 128 : Nat) >>= fun moved =>
            ctx.copyIn 0 moved >>= fun ctx => .returned { ctx with buflen := leftOver - 128 }
      else .returned { ctx with buflen := leftOver }
  else .returned ctx

/-- `sha512_process_bytes`.  Whether what is left of the data behind those that fill
the buffer is aligned is a matter of the host. -/
def sha512ProcessBytes (o : ByteOrder) (unaligned : Bool) (data : Bytes) (ctx : Sha512Ctx) :
    Outcome Sha512Ctx :=
  fillBuffer o data ctx >>= fun (ctx, data) =>
    processWhole o unaligned data ctx >>= fun (ctx, data) => keepRest o data ctx

/-- `sha512_conclude_ctx` -/
def sha512ConcludeCtx (o : ByteOrder) (ctx : Sha512Ctx) : Outcome Sha512Ctx :=
  let bytes := ctx.buflen
  let size := if bytes < 112 then 16 else 32
  let total := ctx.total.add (BitVec.ofNat 64 bytes)
  { ctx with total := total }.copyIn ((size - 2) * 8)
      (o.bytes 8 (swap o (total.high <<< 3 ||| total.low >>> 61))) >>= fun ctx =>
    ctx.copyIn ((size - 1) * 8) (o.bytes 8 (swap o (total.low <<< 3))) >>= fun ctx =>
      ctx.copyIn bytes
          ((0x80 :: List.replicate 127 0).take ((size - 2) * 8 - bytes)) >>= fun ctx =>
        sha512ProcessBlock o ctx.buffer.bytes (size * 8) ctx

/-- `sha512_finish_ctx`: the bytes in `resbuf`, and the context. -/
def sha512FinishCtx (o : ByteOrder) (ctx : Sha512Ctx) : Outcome (Bytes × Sha512Ctx) :=
  sha512ConcludeCtx o ctx >>= fun ctx => .returned (sha512ReadCtx o ctx, ctx)

/-- `sha384_finish_ctx`: the bytes in `resbuf`, and the context. -/
def sha384FinishCtx (o : ByteOrder) (ctx : Sha512Ctx) : Outcome (Bytes × Sha512Ctx) :=
  sha512ConcludeCtx o ctx >>= fun ctx => .returned (sha384ReadCtx o ctx, ctx)

/-! ## Words in memory -/

theorem swaps_swap (x : BitVec 64) : Swaps 8 x (swap .little x) := by
  intro i hi
  interval_cases i <;> simp [swap]

/-- A word of a block, on both kinds of host. -/
theorem swap_load (o : ByteOrder) {mem : Bytes} {t : Nat} (h : 8 * t + 8 ≤ mem.length) :
    swap o (o.load 64 8 mem t) = blockWord mem t := by
  cases o with
  | little => exact (swaps_swap _).word_eq rfl (by rw [List.length_take, List.length_drop]; omega)
  | big => rfl

/-- A word that is stored, on both kinds of host. -/
theorem bytes_swap (o : ByteOrder) (x : BitVec 64) :
    o.bytes 8 (swap o x) = ByteOrder.big.bytes 8 x := by
  cases o with
  | little => exact (swaps_swap x).bytes_eq rfl
  | big => rfl

theorem sha384ReadCtx_eq (o : ByteOrder) (ctx : Sha512Ctx) :
    sha384ReadCtx o ctx = ctx.state.bytes384 := by
  simp only [sha384ReadCtx, bytes_swap, Regs.bytes384]

theorem sha512ReadCtx_eq (o : ByteOrder) (ctx : Sha512Ctx) :
    sha512ReadCtx o ctx = ctx.state.bytes512 := by
  simp only [sha512ReadCtx, sha384ReadCtx_eq, bytes_swap, Regs.bytes512]

/-- The array holds the first sixteen words of the schedule. -/
theorem inRing_readBlock (o : ByteOrder) {block : Bytes} (hlen : 128 ≤ block.length) :
    InRing (term (nextWord (block.take 128))) 0 16 16 (readBlock o block) where
  length_eq := by simp [readBlock]
  holds := by
    intro j hj _
    rw [Nat.mod_eq_of_lt hj, readBlock, List.getD_eq_getElem?_getD, List.getElem?_map,
      List.getElem?_range hj, Option.map_some, Option.getD_some, swap_load o (by omega), term,
      nextWord, length_terms, if_pos hj]
    have happ := ByteOrder.big.load_append_left (w := 64) (n := 8) (i := j) (block.drop 128)
      (a := block.take 128) (by rw [List.length_take]; omega)
    rwa [List.take_append_drop] at happ

/-- The lines compress a block. -/
theorem compress_eq (o : ByteOrder) {block : Bytes} (hlen : 128 ≤ block.length) (r : Regs) :
    r.add (shaLines ⟨r, readBlock o block⟩).regs = shaHash.compress r (block.take 128) := by
  have hsim : Sim (block.take 128) r fromA 0 ⟨r, readBlock o block⟩ :=
    ⟨rfl, inRing_readBlock o hlen⟩
  have hwords : (List.range 80).foldl (round (term (nextWord (block.take 128)))) r =
      (List.range 80).foldl
        (round fun t => (terms (nextWord (block.take 128)) 80).getD t 0) r := by
    apply List.foldl_ext
    intro s t ht
    rw [round, round, getD_terms _ (List.mem_range.mp ht)]
  change r.add (fromA (shaLines ⟨r, readBlock o block⟩).regs) = _
  rw [(sim_shaLines hsim).regs, hwords]
  rfl

/-- The loop goes on to the end of a block. -/
theorem shaBlocks_spec (o : ByteOrder) {n k : Nat} {m : Bytes} (hk : (n + 15) / 16 = k)
    (hle : 128 * k ≤ m.length) (r : Regs) :
    shaBlocks o n m r = .returned (shaHash.run r (m.take (128 * k))) := by
  induction k generalizing n m r with
  | zero =>
      rw [shaBlocks, if_pos (by omega), Nat.mul_zero, List.take_zero, shaHash.run_nil]
  | succ k ih =>
      have hcut : m.take (128 * (k + 1)) = m.take 128 ++ (m.drop 128).take (128 * k) := by
        rw [Nat.mul_succ, Nat.add_comm, List.take_add]
      have hblock : (m.take 128).length = shaHash.size := by
        rw [List.length_take]
        change min 128 m.length = 128
        omega
      rw [shaBlocks, if_neg (by omega), if_pos (by omega),
        ih (by omega) (by rw [List.length_drop]; omega), compress_eq o (by omega), hcut,
        shaHash.run_block_append hblock]

/-! ## What the context stands for -/

namespace Sha512Ctx

variable {o : ByteOrder} {start : Regs} {ctx : Sha512Ctx} {msg data : Bytes}

/-- The state and some pending bytes, wherever they are, stand for a message, and the
bytes before these are counted. -/
structure Keeps (start : Regs) (ctx : Sha512Ctx) (msg pending : Bytes) : Prop where
  stands : shaHash.Stands start msg ctx.state pending
  count : ctx.total.joined = BitVec.ofNat (64 + 64) (msg.length - pending.length)

/-- What the calls keep: the pending bytes are at the start of the buffer, and they
are no more than a block. -/
structure Holds (start : Regs) (ctx : Sha512Ctx) (msg : Bytes) : Prop where
  keeps : ctx.Keeps start msg (ctx.buffer.bytes.take ctx.buflen)
  buflen_le : ctx.buflen ≤ 128

theorem Keeps.append {pending : Bytes} (h : ctx.Keeps start msg pending) (data : Bytes) :
    ctx.Keeps start (msg ++ data) (pending ++ data) where
  stands := h.stands.append data
  count := by
    rw [List.length_append, List.length_append, Nat.add_sub_add_right]
    exact h.count

theorem copyIn_eq (ctx : Sha512Ctx) {i : Nat} {b : Bytes} (h : i + b.length ≤ 256) :
    ∃ f : CField 256, ctx.copyIn i b = .returned { ctx with buffer := f } ∧
      f.bytes = overwrite ctx.buffer.bytes i b := by
  obtain ⟨f, hstore, hbytes⟩ := ctx.buffer.store_bytes i b h
  exact ⟨f, by rw [copyIn, hstore]; rfl, hbytes⟩

/-- Some bytes are copied to the start of the buffer. -/
theorem copyIn_front (ctx : Sha512Ctx) {b : Bytes} (h : b.length ≤ 256) :
    ∃ f : CField 256, ctx.copyIn 0 b = .returned { ctx with buffer := f } ∧
      f.bytes.take b.length = b := by
  obtain ⟨f, hcopy, hf⟩ := ctx.copyIn_eq (i := 0) (b := b) (by omega)
  refine ⟨f, hcopy, ?_⟩
  have htake := take_overwrite_end ctx.buffer.bytes 0 b (Nat.zero_le _)
  rwa [← hf, Nat.zero_add, List.take_zero, List.nil_append] at htake

/-- The count of the bytes. -/
theorem joined_total {total : Counter 64} {len : Nat} (hlen : len < 2 ^ 64) :
    (total.add (BitVec.ofNat 64 len)).joined = total.joined + BitVec.ofNat (64 + 64) len := by
  rw [Counter.joined_add, BitVec.toNat_ofNat, Nat.mod_eq_of_lt hlen]

/-- Whole blocks at the start of a buffer are processed. -/
theorem Keeps.process {m front rest : Bytes} {k : Nat} (h : ctx.Keeps start msg (front ++ rest))
    (hfront : m.take (128 * k) = front) (hle : 128 * k ≤ m.length) (hlt : 128 * k < 2 ^ 64) :
    ∃ state total, sha512ProcessBlock o m (128 * k) ctx =
        .returned { ctx with state := state, total := total } ∧
      ({ ctx with state := state, total := total } : Sha512Ctx).Keeps start msg rest := by
  have hlen : front.length = 128 * k := by
    rw [← hfront, List.length_take]
    omega
  refine ⟨_, _, by rw [sha512ProcessBlock, shaBlocks_spec o (k := k) (by omega) hle]; rfl, ?_, ?_⟩
  · rw [hfront]
    exact h.stands.compress (by rw [hlen]; exact Nat.dvd_mul_right 128 k)
  · have hall := h.stands.length_le
    have hcount := h.count
    rw [List.length_append] at hall hcount
    have hsum : msg.length - (front.length + rest.length) + 128 * k = msg.length - rest.length := by
      omega
    change (ctx.total.add (BitVec.ofNat 64 (128 * k))).joined = _
    rw [joined_total hlt, hcount, ← BitVec.ofNat_add, hsum]

end Sha512Ctx

open Sha512Ctx

/-- The number of pending bytes after `n` more. -/
def nextPending (p n : Nat) : Nat := if p ≠ 0 ∧ p + n = 128 then 128 else (p + n) % 128

/-- With `p` bytes pending, `n` more do not have bytes compressed that are not part of
the message. -/
def Harmless (p n : Nat) : Prop := p = 0 ∨ p + n < 192 ∨ 256 ≤ p + n

instance (p n : Nat) : Decidable (Harmless p n) :=
  inferInstanceAs (Decidable (p = 0 ∨ p + n < 192 ∨ 256 ≤ p + n))

section

variable {o : ByteOrder} {start : Regs} {ctx : Sha512Ctx} {msg data : Bytes}

/-- The buffer takes all of the data, or it is empty afterwards. -/
theorem fillBuffer_spec (h : ctx.Holds start msg) (hharm : Harmless ctx.buflen data.length) :
    ∃ ctx' rest, fillBuffer o data ctx = .returned (ctx', rest) ∧ rest.length ≤ data.length ∧
      (rest = [] ∧ ctx'.Holds start (msg ++ data) ∧
          ctx'.buflen = nextPending ctx.buflen data.length ∨
        ctx'.buflen = 0 ∧ ctx'.Keeps start (msg ++ data) rest ∧
          rest.length % 128 = nextPending ctx.buflen data.length) := by
  have hkeeps := h.keeps.append data
  have hle := h.buflen_le
  have hsize := ctx.buffer.size_eq
  by_cases hzero : ctx.buflen = 0
  · rw [fillBuffer, if_neg (by simpa using hzero)]
    refine ⟨ctx, data, rfl, Nat.le_refl _, .inr ⟨hzero, ?_, ?_⟩⟩
    · rwa [hzero, List.take_zero, List.nil_append] at hkeeps
    · rw [nextPending, if_neg (by omega), hzero, Nat.zero_add]
  · rw [fillBuffer, if_pos hzero]
    dsimp only
    generalize hadd :
      (if 256 - ctx.buflen > data.length then data.length else 256 - ctx.buflen) = add
    have haddle : add ≤ data.length := by
      rw [← hadd]
      split <;> omega
    have hroom : ctx.buflen + add ≤ 256 := by
      rw [← hadd]
      split <;> omega
    have hlen : (data.take add).length = add := by
      rw [List.length_take]
      omega
    obtain ⟨f, hcopy, hf⟩ := ctx.copyIn_eq (i := ctx.buflen) (b := data.take add) (by omega)
    have hfilled : f.bytes.take (ctx.buflen + add) =
        ctx.buffer.bytes.take ctx.buflen ++ data.take add := by
      have htake := take_overwrite_end ctx.buffer.bytes ctx.buflen (data.take add) (by omega)
      rwa [← hf, hlen] at htake
    have hcut : ctx.buffer.bytes.take ctx.buflen ++ data =
        f.bytes.take (ctx.buflen + add) ++ data.drop add := by
      rw [hfilled, List.append_assoc, List.take_append_drop]
    rw [hcut] at hkeeps
    rw [hcopy, Outcome.returned_bind]
    have hkept : ({ ctx with buffer := f } : Sha512Ctx).Keeps start (msg ++ data)
        (f.bytes.take (ctx.buflen + add) ++ data.drop add) := ⟨hkeeps.stands, hkeeps.count⟩
    by_cases hfull : ctx.buflen + add > 128
    · -- the two masks agree, since the data are harmless
      rw [if_pos hfull]
      have hmask : (ctx.buflen + add) / 64 * 64 = 128 * ((ctx.buflen + add) / 128) := by
        rcases hharm with hnone | hfew | hmany
        · exact absurd hnone hzero
        · split at hadd <;> omega
        · split at hadd <;> omega
      generalize hk : (ctx.buflen + add) / 128 = k at *
      have hwhole : k * 128 = 128 * k := Nat.mul_comm _ _
      have hrest : ctx.buflen + add = 128 * k + (ctx.buflen + add) % 128 := by omega
      have hsplit : f.bytes.take (ctx.buflen + add) =
          f.bytes.take (128 * k) ++ (f.bytes.drop (128 * k)).take ((ctx.buflen + add) % 128) := by
        rw [← List.take_add, ← hrest]
      have hfsize := f.size_eq
      rw [hsplit, List.append_assoc] at hkept
      obtain ⟨state, total, hprocess, hafter⟩ := hkept.process (o := o) (m := f.bytes) rfl
        (by omega) (by omega)
      have hmoved : ((f.bytes.drop (128 * k)).take ((ctx.buflen + add) % 128)).length =
          (ctx.buflen + add) % 128 := by
        rw [List.length_take, List.length_drop]
        omega
      obtain ⟨g, hback, hg⟩ := copyIn_front { ctx with buffer := f, state := state, total := total }
        (b := (f.bytes.drop (128 * k)).take ((ctx.buflen + add) % 128)) (by omega)
      rw [hmoved] at hg
      rw [hmask, hwhole, hprocess, Outcome.returned_bind]
      dsimp only
      rw [load_eq _ _ _ (by omega), Outcome.returned_bind, hback, Outcome.returned_bind]
      refine ⟨_, _, rfl, by rw [List.length_drop]; omega, ?_⟩
      by_cases hnil : data.drop add = []
      · rw [hnil, List.append_nil] at hafter
        have hall : add = data.length := by
          rw [List.drop_eq_nil_iff] at hnil
          omega
        refine .inl ⟨hnil, ⟨⟨?_, ?_⟩, by change (ctx.buflen + add) % 128 ≤ 128; omega⟩, ?_⟩
        · change shaHash.Stands start _ state (g.bytes.take ((ctx.buflen + add) % 128))
          rw [hg]
          exact hafter.stands
        · change total.joined = BitVec.ofNat (64 + 64)
            ((msg ++ data).length - (g.bytes.take ((ctx.buflen + add) % 128)).length)
          rw [hg]
          exact hafter.count
        · rw [nextPending, if_neg (by omega), ← hall]
      · -- data are left over: the buffer was filled
        rw [List.drop_eq_nil_iff] at hnil
        have hadd' : add = 256 - ctx.buflen := by split at hadd <;> omega
        have hnone : (ctx.buflen + add) % 128 = 0 := by omega
        rw [hnone, List.take_zero, List.nil_append] at hafter
        refine .inr ⟨hnone, ⟨hafter.stands, hafter.count⟩, ?_⟩
        rw [nextPending, if_neg (by omega), List.length_drop]
        omega
    · have hall : add = data.length := by split at hadd <;> omega
      have hnil : data.drop add = [] := by
        rw [List.drop_eq_nil_iff]
        omega
      rw [if_neg hfull]
      rw [hnil, List.append_nil] at hkept
      refine ⟨_, _, rfl, by rw [List.length_drop]; omega,
        .inl ⟨hnil, ⟨⟨hkept.stands, hkept.count⟩, by change ctx.buflen + add ≤ 128; omega⟩, ?_⟩⟩
      change ctx.buflen + add = _
      rw [nextPending]
      split <;> omega

/-- The loop for data that are not aligned leaves a block at most. -/
theorem unalignedLoop_spec (hkeeps : ctx.Keeps start msg data) :
    ∃ ctx' rest, unalignedLoop o data ctx = .returned (ctx', rest) ∧ ctx'.buflen = ctx.buflen ∧
      ctx'.Keeps start msg rest ∧ rest.length ≤ 128 ∧ rest.length % 128 = data.length % 128 := by
  induction hn : data.length using Nat.strong_induction_on generalizing ctx data with
  | _ n ih =>
      rw [unalignedLoop]
      split
      next hgt =>
        have hlen : (data.take 128).length = 128 := by
          rw [List.length_take]
          omega
        obtain ⟨f, hcopy, hf⟩ := ctx.copyIn_front (b := data.take 128) (by omega)
        rw [hlen] at hf
        have hkept : ({ ctx with buffer := f } : Sha512Ctx).Keeps start msg
            (data.take 128 ++ data.drop 128) := by
          rw [List.take_append_drop]
          exact ⟨hkeeps.stands, hkeeps.count⟩
        obtain ⟨state, total, hprocess, hafter⟩ := hkept.process (o := o) (m := f.bytes)
          (k := 1) hf (by rw [f.size_eq]; omega) (by omega)
        obtain ⟨ctx', rest, hret, hbuflen, hrest, hle, hmod⟩ := ih (data.drop 128).length
          (by rw [List.length_drop]; omega) hafter rfl
        rw [hcopy, Outcome.returned_bind, hprocess, Outcome.returned_bind]
        refine ⟨ctx', rest, hret, hbuflen, hrest, hle, ?_⟩
        rw [hmod, List.length_drop]
        omega
      next hle => exact ⟨ctx, data, rfl, rfl, hkeeps, by omega, by rw [hn]⟩

/-- Whole blocks of the data are processed; no more than a block is left. -/
theorem processWhole_spec (unaligned : Bool) (hlt : data.length < 2 ^ 64)
    (hkeeps : ctx.Keeps start msg data) :
    ∃ ctx' rest, processWhole o unaligned data ctx = .returned (ctx', rest) ∧
      ctx'.buflen = ctx.buflen ∧ ctx'.Keeps start msg rest ∧ rest.length ≤ 128 ∧
      rest.length % 128 = data.length % 128 := by
  rw [processWhole]
  split
  next hge =>
    cases unaligned with
    | true => exact unalignedLoop_spec hkeeps
    | false =>
        have hwhole : data.length / 128 * 128 = 128 * (data.length / 128) := Nat.mul_comm _ _
        rw [← List.take_append_drop (128 * (data.length / 128)) data] at hkeeps
        obtain ⟨state, total, hprocess, hafter⟩ := hkeeps.process (o := o) rfl (by omega) (by omega)
        rw [if_neg (by decide), hwhole, hprocess]
        refine ⟨_, _, rfl, rfl, hafter, ?_, ?_⟩
        · rw [List.length_drop]
          omega
        · rw [List.length_drop]
          omega
  next hlt' => exact ⟨ctx, data, rfl, rfl, hkeeps, by omega, rfl⟩

/-- What remains is kept, unless it is a block. -/
theorem keepRest_spec (hzero : ctx.buflen = 0) (hkeeps : ctx.Keeps start msg data)
    (hle : data.length ≤ 128) :
    ∃ ctx', keepRest o data ctx = .returned ctx' ∧ ctx'.Holds start msg ∧
      ctx'.buflen = data.length % 128 := by
  rw [keepRest]
  split
  next hpos =>
    obtain ⟨f, hcopy, hf⟩ := ctx.copyIn_front (b := data) (by omega)
    rw [hzero, hcopy, Outcome.returned_bind, Nat.zero_add]
    split
    next hblock =>
      have hlen : data.length = 128 := by omega
      have hkept : ({ ctx with buffer := f } : Sha512Ctx).Keeps start msg (data ++ []) := by
        rw [List.append_nil]
        exact ⟨hkeeps.stands, hkeeps.count⟩
      obtain ⟨state, total, hprocess, hafter⟩ := hkept.process (o := o) (m := f.bytes) (k := 1)
        (by rw [← hf, hlen]) (by rw [f.size_eq]; omega) (by omega)
      obtain ⟨g, hback, -⟩ := copyIn_front
        { ctx with buffer := f, state := state, total := total } (b := []) (Nat.zero_le _)
      change sha512ProcessBlock o f.bytes 128 _ = _ at hprocess
      rw [hprocess, Outcome.returned_bind, hlen]
      have hload : load f.bytes 128 ((128 - 128 : Nat) : Int) = .returned [] := by
        have hnone := load_eq f.bytes 128 0 (by rw [f.size_eq]; omega)
        rwa [List.take_zero] at hnone
      dsimp only
      rw [hload, Outcome.returned_bind, hback]
      refine ⟨_, rfl, ⟨⟨?_, ?_⟩, Nat.zero_le _⟩, rfl⟩
      · change shaHash.Stands start msg state (g.bytes.take 0)
        rw [List.take_zero]
        exact hafter.stands
      · change total.joined = BitVec.ofNat (64 + 64) (msg.length - (g.bytes.take 0).length)
        rw [List.take_zero]
        exact hafter.count
    next hpart =>
      refine ⟨_, rfl, ⟨⟨?_, ?_⟩, by change data.length ≤ 128; omega⟩, ?_⟩
      · change shaHash.Stands start msg ctx.state (f.bytes.take data.length)
        rw [hf]
        exact hkeeps.stands
      · change ctx.total.joined = BitVec.ofNat (64 + 64)
          (msg.length - (f.bytes.take data.length).length)
        rw [hf]
        exact hkeeps.count
      · change data.length = data.length % 128
        rw [Nat.mod_eq_of_lt (by omega)]
  next hnone =>
    have hnil : data = [] := List.length_eq_zero_iff.mp (by omega)
    rw [hnil] at hkeeps
    refine ⟨ctx, rfl, ⟨?_, by omega⟩, by rw [hzero, hnil, List.length_nil]⟩
    rw [hzero, List.take_zero]
    exact hkeeps

/-- `sha512_process_bytes` does not leave its buffer, and what the context stands for
grows by the bytes it is given, if they are harmless. -/
theorem sha512ProcessBytes_spec (unaligned : Bool) (h : ctx.Holds start msg)
    (hlt : data.length < 2 ^ 64) (hharm : Harmless ctx.buflen data.length) :
    ∃ ctx', sha512ProcessBytes o unaligned data ctx = .returned ctx' ∧
      ctx'.Holds start (msg ++ data) ∧ ctx'.buflen = nextPending ctx.buflen data.length := by
  obtain ⟨ctx₁, rest, hfill, hrest, hcase⟩ := fillBuffer_spec (o := o) h hharm
  rw [sha512ProcessBytes, hfill, Outcome.returned_bind]
  dsimp only
  rcases hcase with ⟨hnil, hholds, hbuflen⟩ | ⟨hzero, hkeeps, hmod⟩
  · rw [hnil]
    exact ⟨ctx₁, rfl, hholds, hbuflen⟩
  · obtain ⟨ctx₂, rest', hwhole, hbuflen, hkept, hle, hmod'⟩ :=
      processWhole_spec (o := o) unaligned (by omega) hkeeps
    obtain ⟨ctx', hret, hholds, hnext⟩ := keepRest_spec (o := o) (hbuflen.trans hzero) hkept hle
    rw [hwhole, Outcome.returned_bind]
    exact ⟨ctx', hret, hholds, by rw [hnext, hmod', hmod]⟩

end

/-! ## The end -/

section

variable {o : ByteOrder} {start : Regs} {ctx : Sha512Ctx} {msg data : Bytes}

/-- The count in bits, as it is stored. -/
theorem bytes_count {total : Counter 64} {n : Nat} (h : total.joined = BitVec.ofNat (64 + 64) n) :
    ByteOrder.big.bytes 8 (total.high <<< 3 ||| total.low >>> 61) ++
      ByteOrder.big.bytes 8 (total.low <<< 3) =
        ByteOrder.big.bytes 16 (BitVec.ofNat 128 (8 * n)) := by
  have hshift := Counter.joined_shift (by omega) total
  have height : BitVec.ofNat (64 + 64) n <<< 3 = BitVec.ofNat 128 (8 * n) := by
    apply BitVec.eq_of_toNat_eq
    rw [BitVec.toNat_shiftLeft, BitVec.toNat_ofNat, BitVec.toNat_ofNat, Nat.shiftLeft_eq]
    omega
  rw [h, height] at hshift
  rw [← hshift]
  exact (ByteOrder.bytes_big_append (n := 8) (m := 8) rfl _ _).symm

/-- Two words are stored in the buffer, and then the bytes before them. -/
theorem take_words_pad {l a high low b : Bytes} {n : Nat}
    (hfront : l.take a.length = a) (hn : a.length + b.length = n)
    (hhigh : high.length = 8) (hlow : low.length = 8) (hle : n + 16 ≤ l.length) :
    (overwrite (overwrite (overwrite l n high) (n + 8) low) a.length b).take (n + 16) =
      a ++ (b ++ (high ++ low)) := by
  have hlen₁ : (overwrite l n high).length = l.length := length_overwrite_of_le (by omega)
  have hwords : (overwrite (overwrite l n high) (n + 8) low).take (n + 16) =
      l.take n ++ (high ++ low) := by
    have htake := take_overwrite_end (overwrite l n high) (n + 8) low (by omega)
    have hhighTake := take_overwrite_end l n high (by omega)
    rw [hlow] at htake
    rw [hhigh] at hhighTake
    rw [htake, hhighTake, List.append_assoc]
  have hkept : (overwrite (overwrite l n high) (n + 8) low).take a.length = a := by
    rw [take_overwrite_of_le (by omega) (by omega), take_overwrite_of_le (by omega) (by omega),
      hfront]
  have hbehind : ((overwrite (overwrite l n high) (n + 8) low).drop n).take 16 = high ++ low := by
    have hdrop := congrArg (List.drop n) hwords
    rwa [List.drop_take, Nat.add_sub_cancel_left,
      List.drop_left' (by rw [List.length_take]; omega)] at hdrop
  have hcut : n + 16 = (a ++ b).length + 16 := by rw [List.length_append, hn]
  rw [overwrite, hkept, hn, hcut, List.take_length_add_append, hbehind, List.append_assoc]

/-- `sha512_conclude_ctx` leaves the final state. -/
theorem sha512ConcludeCtx_spec (h : ctx.Holds start msg) :
    ∃ ctx', sha512ConcludeCtx o ctx = .returned ctx' ∧ ctx'.state = finalState start msg := by
  obtain ⟨⟨hstands, hcount⟩, hle⟩ := h
  have hsize := ctx.buffer.size_eq
  have hlen : (ctx.buffer.bytes.take ctx.buflen).length = ctx.buflen := by
    rw [List.length_take]
    omega
  have hmod := hstands.length_mod
  have hall := hstands.length_le
  change _ % 128 = _ % 128 at hmod
  rw [hlen] at hmod hall hcount
  -- all bytes are counted
  have htotal : (ctx.total.add (BitVec.ofNat 64 ctx.buflen)).joined =
      BitVec.ofNat (64 + 64) msg.length := by
    rw [joined_total (by omega), hcount, ← BitVec.ofNat_add, Nat.sub_add_cancel hall]
  -- the padding
  have hend : ∃ k, (if ctx.buflen < 112 then 16 else 32) = 16 * k ∧ 1 ≤ k ∧ k ≤ 2 ∧
      (16 * k - 2) * 8 - ctx.buflen = padZeros 128 16 msg.length + 1 ∧
      ctx.buflen ≤ (16 * k - 2) * 8 := by
    rw [padZeros]
    rcases Nat.lt_or_ge ctx.buflen 112 with hlt | hge
    · exact ⟨1, by rw [if_pos hlt], by omega, by omega, by omega, by omega⟩
    · exact ⟨2, by rw [if_neg (by omega)], by omega, by omega, by omega, by omega⟩
  obtain ⟨k, hk, hk1, hk2, hzeros, hroom⟩ := hend
  have hfill : (0x80 :: List.replicate 127 0 : Bytes).take ((16 * k - 2) * 8 - ctx.buflen) =
      padding 128 16 msg.length := by
    rw [hzeros, List.take_succ_cons, List.take_replicate, padding,
      Nat.min_eq_left (by rw [padZeros]; omega)]
  have hpadLen : (padding 128 16 msg.length).length = (16 * k - 2) * 8 - ctx.buflen := by
    rw [length_padding, hzeros]
  obtain ⟨f, hcopy₁, hf⟩ := copyIn_eq
    { ctx with total := ctx.total.add (BitVec.ofNat 64 ctx.buflen) } (i := (16 * k - 2) * 8)
    (b := ByteOrder.big.bytes 8 ((ctx.total.add (BitVec.ofNat 64 ctx.buflen)).high <<< 3 |||
      (ctx.total.add (BitVec.ofNat 64 ctx.buflen)).low >>> 61))
    (by rw [ByteOrder.length_bytes]; omega)
  obtain ⟨g, hcopy₂, hg⟩ := copyIn_eq
    { ctx with total := ctx.total.add (BitVec.ofNat 64 ctx.buflen), buffer := f }
    (i := (16 * k - 1) * 8)
    (b := ByteOrder.big.bytes 8 ((ctx.total.add (BitVec.ofNat 64 ctx.buflen)).low <<< 3))
    (by rw [ByteOrder.length_bytes]; omega)
  obtain ⟨q, hcopy₃, hq⟩ := copyIn_eq
    { ctx with total := ctx.total.add (BitVec.ofNat 64 ctx.buflen), buffer := g }
    (i := ctx.buflen) (b := padding 128 16 msg.length) (by omega)
  have hwhole : 16 * k * 8 = 128 * k := by omega
  have hlast : q.bytes.take (128 * k) = ctx.buffer.bytes.take ctx.buflen ++
      (padding 128 16 msg.length ++
        ByteOrder.big.bytes 16 (BitVec.ofNat 128 (8 * msg.length))) := by
    have hstep : (16 * k - 1) * 8 = (16 * k - 2) * 8 + 8 := by omega
    have htotalLen : 128 * k = (16 * k - 2) * 8 + 16 := by omega
    have hwords := take_words_pad (l := ctx.buffer.bytes)
      (a := ctx.buffer.bytes.take ctx.buflen) (b := padding 128 16 msg.length)
      (n := (16 * k - 2) * 8) (by rw [hlen]) (by rw [hlen, hpadLen]; omega)
      (ByteOrder.length_bytes .big 8 ((ctx.total.add (BitVec.ofNat 64 ctx.buflen)).high <<< 3 |||
        (ctx.total.add (BitVec.ofNat 64 ctx.buflen)).low >>> 61))
      (ByteOrder.length_bytes .big 8 ((ctx.total.add (BitVec.ofNat 64 ctx.buflen)).low <<< 3))
      (by omega)
    rw [hlen, bytes_count htotal] at hwords
    change f.bytes = overwrite ctx.buffer.bytes _ _ at hf
    change g.bytes = overwrite f.bytes _ _ at hg
    change q.bytes = overwrite g.bytes _ _ at hq
    rw [hq, hg, hf, hstep, htotalLen, hwords]
  have hstate := hstands.finish
    (padding 128 16 msg.length ++ ByteOrder.big.bytes 16 (BitVec.ofNat 128 (8 * msg.length)))
  simp only [sha512ConcludeCtx, hk, hfill, bytes_swap]
  rw [hcopy₁, Outcome.returned_bind, hcopy₂, Outcome.returned_bind, hcopy₃, Outcome.returned_bind,
    hwhole, sha512ProcessBlock, shaBlocks_spec o (k := k) (by omega) (by rw [q.size_eq]; omega),
    Outcome.returned_bind]
  refine ⟨_, rfl, ?_⟩
  change shaHash.run ctx.state (q.bytes.take (128 * k)) = _
  rw [hlast, hstate]
  rfl

/-- `sha512_finish_ctx` stores the digest of the bytes given so far. -/
theorem sha512FinishCtx_spec (h : ctx.Holds Regs.start512 msg) :
    ∃ ctx', sha512FinishCtx o ctx = .returned (sha512 msg, ctx') := by
  obtain ⟨ctx', hret, hstate⟩ := sha512ConcludeCtx_spec (o := o) h
  exact ⟨ctx', by rw [sha512FinishCtx, hret, Outcome.returned_bind, sha512ReadCtx_eq, hstate]; rfl⟩

/-- `sha384_finish_ctx` stores the digest of the bytes given so far. -/
theorem sha384FinishCtx_spec (h : ctx.Holds Regs.start384 msg) :
    ∃ ctx', sha384FinishCtx o ctx = .returned (sha384 msg, ctx') := by
  obtain ⟨ctx', hret, hstate⟩ := sha512ConcludeCtx_spec (o := o) h
  exact ⟨ctx', by rw [sha384FinishCtx, hret, Outcome.returned_bind, sha384ReadCtx_eq, hstate]; rfl⟩

/-! ## A message in pieces -/

/-- `sha512_process_bytes` with one piece after another. -/
def processPieces (o : ByteOrder) (unaligned : Bytes → Bool) (ctx : Sha512Ctx) :
    List Bytes → Outcome Sha512Ctx
  | [] => .returned ctx
  | piece :: pieces =>
      sha512ProcessBytes o (unaligned piece) piece ctx >>= fun ctx =>
        processPieces o unaligned ctx pieces

/-- None of some pieces has bytes compressed that are not part of the message. -/
def Undisturbed : Nat → List Bytes → Prop
  | _, [] => True
  | p, piece :: pieces => Harmless p piece.length ∧ Undisturbed (nextPending p piece.length) pieces

instance decidableUndisturbed : (p : Nat) → (pieces : List Bytes) → Decidable (Undisturbed p pieces)
  | _, [] => .isTrue trivial
  | p, piece :: pieces =>
      @instDecidableAnd _ _ _ (decidableUndisturbed (nextPending p piece.length) pieces)

theorem processPieces_spec (unaligned : Bytes → Bool) {pieces : List Bytes}
    (h : ctx.Holds start msg) (hlt : ∀ piece ∈ pieces, piece.length < 2 ^ 64)
    (hund : Undisturbed ctx.buflen pieces) :
    ∃ ctx', processPieces o unaligned ctx pieces = .returned ctx' ∧
      ctx'.Holds start (msg ++ pieces.flatten) := by
  induction pieces generalizing ctx msg with
  | nil =>
      refine ⟨ctx, rfl, ?_⟩
      rwa [List.flatten_nil, List.append_nil]
  | cons piece pieces ih =>
      obtain ⟨ctx₁, hret, hholds, hnext⟩ := sha512ProcessBytes_spec (o := o) (unaligned piece) h
        (hlt piece List.mem_cons_self) hund.1
      obtain ⟨ctx', hrest, hall⟩ := ih hholds (fun p hp => hlt p (List.mem_cons_of_mem _ hp))
        (by rw [hnext]; exact hund.2)
      refine ⟨ctx', by rw [processPieces, hret, Outcome.returned_bind, hrest], ?_⟩
      rwa [List.flatten_cons, ← List.append_assoc]

/-- A context after `sha512_init_ctx` or `sha384_init_ctx` stands for the empty
message. -/
theorem holds_initCtx (start : Regs) (ctx : Sha512Ctx) : (initCtx start ctx).Holds start [] where
  keeps := {
    stands := by
      change shaHash.Stands start [] start (ctx.buffer.bytes.take 0)
      rw [List.take_zero]
      exact BlockHash.Stands.start _
    count := by
      change (Counter.mk 0 0 : Counter 64).joined =
        BitVec.ofNat (64 + 64) (0 - (ctx.buffer.bytes.take 0).length)
      rw [List.take_zero]
      decide }
  buflen_le := Nat.zero_le _

/-- A message in pieces, from `sha512_init_ctx` to `sha512_finish_ctx`. -/
def sha512Digest (o : ByteOrder) (unaligned : Bytes → Bool) (ctx : Sha512Ctx)
    (pieces : List Bytes) : Outcome Bytes :=
  processPieces o unaligned (initCtx Regs.start512 ctx) pieces >>= fun ctx =>
    sha512FinishCtx o ctx >>= fun r => .returned r.1

/-- The digest is the one of the message, on both kinds of host and whatever the
context was before, if the pieces leave it undisturbed. -/
theorem sha512Digest_eq (o : ByteOrder) (unaligned : Bytes → Bool) (ctx : Sha512Ctx)
    {pieces : List Bytes} (hlt : ∀ piece ∈ pieces, piece.length < 2 ^ 64)
    (hund : Undisturbed 0 pieces) :
    sha512Digest o unaligned ctx pieces = .returned (sha512 pieces.flatten) := by
  obtain ⟨ctx₁, hret, hholds⟩ := processPieces_spec (o := o) unaligned
    (holds_initCtx Regs.start512 ctx) hlt hund
  obtain ⟨ctx₂, hfinish⟩ := sha512FinishCtx_spec (o := o) hholds
  rw [sha512Digest, hret, Outcome.returned_bind, hfinish]
  rfl

/-- A message in three pieces. -/
theorem sha512Digest_eq_pieces :
    sha512Digest .little (fun _ => false) ⟨Regs.start512, ⟨0, 0⟩, 0, CField.zero 256⟩
        [[97], [98], [99]] =
      .returned (sha512 [97, 98, 99]) :=
  sha512Digest_eq .little (fun _ => false) _ (by decide) (by decide)

/-- Otherwise the rest of the buffer is compressed with the bytes given so far, and
those behind the first block stay pending. -/
theorem sha512ProcessBytes_disturbed (unaligned : Bool) (hpos : ctx.buflen ≠ 0)
    (hge : 192 ≤ ctx.buflen + data.length) (hlt : ctx.buflen + data.length < 256) :
    ∃ ctx', sha512ProcessBytes o unaligned data ctx = .returned ctx' ∧
      ctx'.state = shaHash.run ctx.state (overwrite ctx.buffer.bytes ctx.buflen data) ∧
      ctx'.total = ctx.total.add 192#64 ∧ ctx'.buflen = ctx.buflen + data.length - 128 ∧
      ctx'.buffer.bytes.take ctx'.buflen =
        (ctx.buffer.bytes.take ctx.buflen ++ data).drop 128 := by
  have hsize := ctx.buffer.size_eq
  have hadd : (if 256 - ctx.buflen > data.length then data.length else 256 - ctx.buflen) =
      data.length := if_pos (by omega)
  obtain ⟨f, hcopy, hf⟩ := ctx.copyIn_eq (i := ctx.buflen) (b := data) (by omega)
  have hfsize := f.size_eq
  have hmask : (ctx.buflen + data.length) / 64 * 64 = 192 := by omega
  have hwhole : (ctx.buflen + data.length) / 128 * 128 = 128 := by omega
  have hmod : (ctx.buflen + data.length) % 128 = ctx.buflen + data.length - 128 := by omega
  have hblocks := shaBlocks_spec o (n := 24) (k := 2) (m := f.bytes) rfl (by omega) ctx.state
  rw [List.take_of_length_le (by omega)] at hblocks
  have hprocess : sha512ProcessBlock o f.bytes 192 { ctx with buffer := f } =
      .returned { ctx with
        buffer := f
        state := shaHash.run ctx.state f.bytes
        total := ctx.total.add 192#64 } := by
    rw [sha512ProcessBlock]
    change shaBlocks o 24 f.bytes ctx.state >>= _ = _
    rw [hblocks]
    rfl
  have hpending : (f.bytes.drop 128).take (ctx.buflen + data.length - 128) =
      (ctx.buffer.bytes.take ctx.buflen ++ data).drop 128 := by
    rw [List.take_drop, show 128 + (ctx.buflen + data.length - 128) = ctx.buflen + data.length by
      omega, hf, take_overwrite_end _ _ _ (by omega)]
  have hlen : ((f.bytes.drop 128).take (ctx.buflen + data.length - 128)).length =
      ctx.buflen + data.length - 128 := by
    rw [List.length_take, List.length_drop]
    omega
  obtain ⟨g, hback, hg⟩ := copyIn_front
    { ctx with
      buffer := f
      state := shaHash.run ctx.state f.bytes
      total := ctx.total.add 192#64 }
    (b := (f.bytes.drop 128).take (ctx.buflen + data.length - 128)) (by omega)
  rw [hlen, hpending] at hg
  have hload := load_eq f.bytes 128 (ctx.buflen + data.length - 128) (by omega)
  rw [sha512ProcessBytes, fillBuffer, if_pos hpos]
  dsimp only
  rw [hadd, List.take_length, hcopy, Outcome.returned_bind, if_pos (by omega), hmask, hprocess,
    Outcome.returned_bind, hwhole, hmod, hload, Outcome.returned_bind, hback,
    Outcome.returned_bind, Outcome.returned_bind, List.drop_length]
  exact ⟨_, rfl, by rw [← hf], rfl, rfl, hg⟩

/-- 92 bytes behind 100 that are pending: 64 zeros of the buffer are compressed. -/
theorem sha512ProcessBytes_disturbed_hundred :
    ∃ ctx', sha512ProcessBytes .little false (List.replicate 92 97)
        ⟨Regs.start512, ⟨0, 0⟩, 100, CField.zero 256⟩ = .returned ctx' ∧
      ctx'.state = shaHash.run Regs.start512
        (overwrite (CField.zero 256).bytes 100 (List.replicate 92 97)) ∧
      ctx'.total = (⟨0, 0⟩ : Counter 64).add 192#64 ∧ ctx'.buflen = 64 ∧
      ctx'.buffer.bytes.take ctx'.buflen =
        ((CField.zero 256).bytes.take 100 ++ List.replicate 92 97).drop 128 :=
  sha512ProcessBytes_disturbed false (by decide)
    (by rw [List.length_replicate]) (by rw [List.length_replicate]; decide)

/-- The SHA-384 digest of a message in pieces. -/
def sha384Digest (o : ByteOrder) (unaligned : Bytes → Bool) (ctx : Sha512Ctx)
    (pieces : List Bytes) : Outcome Bytes :=
  processPieces o unaligned (initCtx Regs.start384 ctx) pieces >>= fun ctx =>
    sha384FinishCtx o ctx >>= fun r => .returned r.1

theorem sha384Digest_eq (o : ByteOrder) (unaligned : Bytes → Bool) (ctx : Sha512Ctx)
    {pieces : List Bytes} (hlt : ∀ piece ∈ pieces, piece.length < 2 ^ 64)
    (hund : Undisturbed 0 pieces) :
    sha384Digest o unaligned ctx pieces = .returned (sha384 pieces.flatten) := by
  obtain ⟨ctx₁, hret, hholds⟩ := processPieces_spec (o := o) unaligned
    (holds_initCtx Regs.start384 ctx) hlt hund
  obtain ⟨ctx₂, hfinish⟩ := sha384FinishCtx_spec (o := o) hholds
  rw [sha384Digest, hret, Outcome.returned_bind, hfinish]
  rfl

/-! ## Blocks of 512 bytes -/

/-- 512 bytes that are processed directly, with none pending. -/
theorem sha512ProcessBlock_next (h : ctx.Holds start msg) (hzero : ctx.buflen = 0)
    (hlen : data.length = 512) :
    ∃ ctx', sha512ProcessBlock o data 512 ctx = .returned ctx' ∧ ctx'.Holds start (msg ++ data) ∧
      ctx'.buflen = 0 := by
  have hkeeps : ctx.Keeps start (msg ++ data) (data ++ []) := by
    have happ := h.keeps.append data
    rw [List.append_nil]
    rwa [hzero, List.take_zero, List.nil_append] at happ
  obtain ⟨state, total, hret, hafter⟩ := hkeeps.process (o := o) (m := data) (k := 4)
    (List.take_of_length_le (by omega)) (by omega) (by omega)
  refine ⟨_, hret, ⟨?_, Nat.le_trans (Nat.le_of_eq hzero) (Nat.zero_le _)⟩, hzero⟩
  have hnone : ctx.buffer.bytes.take ctx.buflen = [] := by rw [hzero, List.take_zero]
  change Keeps start _ _ (ctx.buffer.bytes.take ctx.buflen)
  rw [hnone]
  exact hafter

/-- `sha512_block`: what is stored in `resblock`, and the context.  `iblock` is the
memory from the pointer on. -/
def sha512Block (o : ByteOrder) (unaligned : Bool) (ctx : Sha512Ctx) (iblock : Option Bytes)
    (icount : Int) : Outcome (Option Bytes × Sha512Ctx) :=
  match iblock with
  | none =>
      if icount < 0 then .returned (none, initCtx Regs.start512 ctx)
      else if icount = 512 then .fault
      else sha512FinishCtx o ctx >>= fun (digest, ctx) => .returned (some digest, ctx)
  | some mem =>
      if icount = 512 then
        load mem 0 512 >>= fun buffer =>
          sha512ProcessBlock o buffer 512 ctx >>= fun ctx => .returned (none, ctx)
      else if 0 ≤ icount then
        if icount ≠ 0 then
          load mem 0 icount >>= fun data =>
            sha512ProcessBytes o unaligned data ctx >>= fun ctx => .returned (none, ctx)
        else .returned (none, ctx)
      else sha512FinishCtx o ctx >>= fun (digest, ctx) => .returned (some digest, ctx)

/-- A piece of 512 bytes, with none pending. -/
theorem sha512Block_full (unaligned : Bool) (h : ctx.Holds start msg) (hzero : ctx.buflen = 0)
    (hlen : data.length = 512) :
    ∃ ctx', sha512Block o unaligned ctx (some data) data.length = .returned (none, ctx') ∧
      ctx'.Holds start (msg ++ data) ∧ ctx'.buflen = 0 := by
  have hload : load data 0 512 = .returned data := by
    have hall := load_eq data 0 512 (by omega)
    rwa [List.drop_zero, List.take_of_length_le (by omega)] at hall
  obtain ⟨ctx', hret, hnext⟩ := sha512ProcessBlock_next (o := o) h hzero hlen
  refine ⟨ctx', ?_, hnext⟩
  rw [sha512Block, if_pos (by omega), hload, Outcome.returned_bind, hret]
  rfl

/-- A piece of fewer bytes, with none pending. -/
theorem sha512Block_bytes (unaligned : Bool) (h : ctx.Holds start msg) (hzero : ctx.buflen = 0)
    (hlt : data.length < 512) :
    ∃ ctx', sha512Block o unaligned ctx (some data) data.length = .returned (none, ctx') ∧
      ctx'.Holds start (msg ++ data) := by
  have hload : load data 0 data.length = .returned data := by
    have hall := load_eq data 0 data.length (by omega)
    rwa [List.drop_zero, List.take_length] at hall
  rw [sha512Block]
  dsimp only
  rw [if_neg (by omega), if_pos (by omega)]
  by_cases hnil : data.length = 0
  · rw [if_neg (by omega)]
    refine ⟨ctx, rfl, ?_⟩
    rwa [List.length_eq_zero_iff.mp hnil, List.append_nil]
  · obtain ⟨ctx', hret, hholds, -⟩ := sha512ProcessBytes_spec (o := o) unaligned h
      (show data.length < 2 ^ 64 by omega) (.inl hzero)
    rw [if_pos (by omega), hload, Outcome.returned_bind, hret]
    exact ⟨ctx', rfl, hholds⟩

/-! ## A stream -/

/-- The loop of `sha512_stream` and `sha384_stream`: the context after the bytes of the
stream, unless a read fails. -/
def streamLoop (o : ByteOrder) (unaligned : Bool) (fd : Source) (ctx : Sha512Ctx) :
    Outcome (Option Sha512Ctx) :=
  let r := Source.fill 512 fd []
  if r.1 < 0 then .returned none
  else if 0 < r.1 then
    sha512ProcessBlock o r.2.1 512 ctx >>= fun ctx => streamLoop o unaligned r.2.2 ctx
  else
    (if r.2.1.length > 0 then sha512ProcessBytes o unaligned r.2.1 ctx else .returned ctx) >>=
      fun ctx => .returned (some ctx)
termination_by fd.rest.length
decreasing_by
  next h => exact Source.length_rest_fill_lt h

/-- `sha512_stream`, with the context on its stack. -/
def sha512Stream (o : ByteOrder) (unaligned : Bool) (fd : Source) (ctx : Sha512Ctx) :
    Outcome (Option Bytes) :=
  streamLoop o unaligned fd (initCtx Regs.start512 ctx) >>= fun
    | none => .returned none
    | some ctx => sha512FinishCtx o ctx >>= fun r => .returned (some r.1)

/-- `sha384_stream`, with the context on its stack. -/
def sha384Stream (o : ByteOrder) (unaligned : Bool) (fd : Source) (ctx : Sha512Ctx) :
    Outcome (Option Bytes) :=
  streamLoop o unaligned fd (initCtx Regs.start384 ctx) >>= fun
    | none => .returned none
    | some ctx => sha384FinishCtx o ctx >>= fun r => .returned (some r.1)

theorem streamLoop_spec (unaligned : Bool) {fd : Source} (hrel : fd.Reliable)
    (h : ctx.Holds start msg) (hzero : ctx.buflen = 0) :
    ∃ ctx', streamLoop o unaligned fd ctx = .returned (some ctx') ∧
      ctx'.Holds start (msg ++ fd.rest) := by
  induction hn : fd.rest.length using Nat.strong_induction_on generalizing fd ctx msg with
  | _ k ih =>
      obtain ⟨n, fd', hfill, hnonneg, hiff, hdrop, hnext⟩ :=
        Source.fill_spec hrel (show ([] : Bytes).length < 512 by decide)
      rw [List.length_nil, Nat.sub_zero, List.nil_append] at hfill
      rw [List.length_nil, Nat.zero_add] at hiff
      rw [List.length_nil, Nat.sub_zero] at hdrop
      rw [streamLoop, hfill]
      dsimp only
      rw [if_neg (by omega)]
      split
      next hpos =>
        have hlen : (fd.rest.take 512).length = 512 := by
          rw [List.length_take]
          omega
        obtain ⟨ctx₁, hret, hholds, hbuflen⟩ := sha512ProcessBlock_next (o := o) h hzero hlen
        obtain ⟨ctx', hloop, hall⟩ := ih fd'.rest.length (by rw [hdrop, List.length_drop]; omega)
          hnext hholds hbuflen rfl
        rw [hret, Outcome.returned_bind, hloop]
        refine ⟨ctx', rfl, ?_⟩
        rwa [hdrop, List.append_assoc, List.take_append_drop] at hall
      next hend =>
        -- the last bytes
        have hall : fd.rest.take 512 = fd.rest := List.take_of_length_le (by omega)
        rw [hall]
        by_cases hsome : fd.rest.length > 0
        · obtain ⟨ctx', hret, hholds, -⟩ := sha512ProcessBytes_spec (o := o)
            unaligned h (show fd.rest.length < 2 ^ 64 by omega) (.inl hzero)
          rw [if_pos hsome, hret]
          exact ⟨ctx', rfl, hholds⟩
        · have hempty : fd.rest = [] := List.length_eq_zero_iff.mp (by omega)
          rw [if_neg hsome, hempty, List.append_nil]
          exact ⟨ctx, rfl, h⟩

/-- The SHA-512 digest of a stream, however its reads cut it. -/
theorem sha512Stream_eq (o : ByteOrder) (unaligned : Bool) (ctx : Sha512Ctx) {fd : Source}
    (hrel : fd.Reliable) :
    sha512Stream o unaligned fd ctx = .returned (some (sha512 fd.rest)) := by
  obtain ⟨ctx₁, hloop, hholds⟩ := streamLoop_spec (o := o) unaligned hrel
    (holds_initCtx Regs.start512 ctx) rfl
  obtain ⟨ctx₂, hfinish⟩ := sha512FinishCtx_spec (o := o) hholds
  rw [sha512Stream, hloop, Outcome.returned_bind]
  change sha512FinishCtx o ctx₁ >>= _ = _
  rw [hfinish]
  rfl

/-- Five bytes, two a read. -/
theorem sha512Stream_eq_five :
    sha512Stream .big true
        ⟨⟨fun _ => 2, fun _ => by decide⟩, 0, [104, 101, 108, 108, 111], false⟩
        ⟨Regs.start512, ⟨0, 0⟩, 0, CField.zero 256⟩ =
      .returned (some (sha512 [104, 101, 108, 108, 111])) :=
  sha512Stream_eq .big true _ (fun _ => (by decide : (0 : Int) < 2))

/-- The SHA-384 digest of a stream, however its reads cut it. -/
theorem sha384Stream_eq (o : ByteOrder) (unaligned : Bool) (ctx : Sha512Ctx) {fd : Source}
    (hrel : fd.Reliable) :
    sha384Stream o unaligned fd ctx = .returned (some (sha384 fd.rest)) := by
  obtain ⟨ctx₁, hloop, hholds⟩ := streamLoop_spec (o := o) unaligned hrel
    (holds_initCtx Regs.start384 ctx) rfl
  obtain ⟨ctx₂, hfinish⟩ := sha384FinishCtx_spec (o := o) hholds
  rw [sha384Stream, hloop, Outcome.returned_bind]
  change sha384FinishCtx o ctx₁ >>= _ = _
  rw [hfinish]
  rfl

end

end Swbis.Misc.Sha512
