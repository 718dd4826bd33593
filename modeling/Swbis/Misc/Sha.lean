import Mathlib.Tactic.IntervalCases
import Swbis.Lib.BlockHash
import Swbis.Lib.ByteOrder
import Swbis.Lib.FullRead
import Swbis.Lib.Memory
import Swbis.Lib.Recurrence

/-!
# The SHA-1 message digest

`sha_process_bytes` keeps up to one full block of a message back in a buffer of 128
bytes, and hands everything before it to `sha_process_block`; `sha_finish_ctx` pads
what is left.  The count of the bytes is kept in two words.

`sha1` is the digest of a message as the standard defines it, with a schedule of 80
words and 80 rounds for each block.  `sha_process_block` computes a word of the
schedule when it is needed, in a ring of sixteen, and has the rounds written out
with the five registers in changing roles.  `sim_shaLines` says that these are the
rounds.  `shaBlockPieces_eq` is the result for a message in pieces, on both kinds of
host, and `shaStream_eq` that for a stream.
-/

namespace Swbis.Misc.Sha

open CLib

/-! ## The digest of a message -/

/-- The five words of the state. -/
structure Regs where
  a : BitVec 32
  b : BitVec 32
  c : BitVec 32
  d : BitVec 32
  e : BitVec 32
deriving DecidableEq

namespace Regs

/-- The initial state. -/
def start : Regs := ⟨0x67452301#32, 0xefcdab89#32, 0x98badcfe#32, 0x10325476#32, 0xc3d2e1f0#32⟩

/-- Add two states word by word. -/
def add (r s : Regs) : Regs := ⟨r.a + s.a, r.b + s.b, r.c + s.c, r.d + s.d, r.e + s.e⟩

/-- The state as twenty bytes. -/
def bytes (r : Regs) : Bytes :=
  ByteOrder.big.bytes 4 r.a ++ ByteOrder.big.bytes 4 r.b ++ ByteOrder.big.bytes 4 r.c ++
    ByteOrder.big.bytes 4 r.d ++ ByteOrder.big.bytes 4 r.e

end Regs

/-- A word of a block. -/
def blockWord (block : Bytes) (t : Nat) : BitVec 32 := ByteOrder.big.load 32 4 block t

/-- The next word of the schedule of a block. -/
def nextWord (block : Bytes) (ws : List (BitVec 32)) : BitVec 32 :=
  let t := ws.length
  if t < 16 then blockWord block t
  else (ws.getD (t - 3) 0 ^^^ ws.getD (t - 8) 0 ^^^ ws.getD (t - 14) 0 ^^^
    ws.getD (t - 16) 0).rotateLeft 1

/-- The function of a round. -/
def roundFunction (t : Nat) (x y z : BitVec 32) : BitVec 32 :=
  if t < 20 then x &&& y ||| ~~~x &&& z
  else if t < 40 then x ^^^ y ^^^ z
  else if t < 60 then x &&& y ||| x &&& z ||| y &&& z
  else x ^^^ y ^^^ z

/-- The constant of a round. -/
def roundConstant (t : Nat) : BitVec 32 :=
  if t < 20 then 0x5a827999#32
  else if t < 40 then 0x6ed9eba1#32
  else if t < 60 then 0x8f1bbcdc#32
  else 0xca62c1d6#32

/-- A round, with the words `w` of the schedule. -/
def round (w : Nat → BitVec 32) (r : Regs) (t : Nat) : Regs :=
  ⟨r.a.rotateLeft 5 + roundFunction t r.b r.c r.d + r.e + roundConstant t + w t, r.a,
    r.b.rotateLeft 30, r.c, r.d⟩

/-- Blocks of 64 bytes, and 80 rounds for each.  The schedule is made once. -/
def shaHash : BlockHash Regs where
  size := 64
  size_pos := BlockHash.sixtyFour_pos
  compress r block :=
    let ws := terms (nextWord block) 80
    r.add ((List.range 80).foldl (round fun t => ws.getD t 0) r)

/-- The SHA-1 digest of a message. -/
def sha1 (msg : Bytes) : Bytes :=
  (shaHash.run Regs.start (msg ++ (padding 64 8 msg.length ++
    ByteOrder.big.bytes 8 (BitVec.ofNat 64 (8 * msg.length))))).bytes

example : sha1 [97, 98, 99] =
    [0xa9, 0x99, 0x3e, 0x36, 0x47, 0x06, 0x81, 0x6a, 0xba, 0x3e, 0x25, 0x71, 0x78, 0x50, 0xc2, 0x6c,
      0x9c, 0xd0, 0xd8, 0x9d] := by
  decide +kernel

/-! ## `sha_process_block` -/

/-- `rol` -/
def rol (x : BitVec 32) (n : Nat) : BitVec 32 := x <<< n ||| x >>> (32 - n)

/-- `F1` -/
def f1 (b c d : BitVec 32) : BitVec 32 := d ^^^ (b &&& (c ^^^ d))

/-- `F2` -/
def f2 (b c d : BitVec 32) : BitVec 32 := b ^^^ c ^^^ d

/-- `F3` -/
def f3 (b c d : BitVec 32) : BitVec 32 := (b &&& c) ||| (d &&& (b ||| c))

/-- `F4` -/
def f4 (b c d : BitVec 32) : BitVec 32 := b ^^^ c ^^^ d

/-- `K1` -/
def k1 : BitVec 32 := 0x5a827999#32

/-- `K2` -/
def k2 : BitVec 32 := 0x6ed9eba1#32

/-- `K3` -/
def k3 : BitVec 32 := 0x8f1bbcdc#32

/-- `K4` -/
def k4 : BitVec 32 := 0xca62c1d6#32

/-- `x[i]`, and the array. -/
def word (i : Nat) (x : List (BitVec 32)) : BitVec 32 × List (BitVec 32) := (x.getD i 0, x)

/-- `M(i)`, and the array after it. -/
def mix (i : Nat) (x : List (BitVec 32)) : BitVec 32 × List (BitVec 32) :=
  let tm := x.getD (i % 16) 0 ^^^ x.getD ((i - 14) % 16) 0 ^^^ x.getD ((i - 8) % 16) 0 ^^^
    x.getD ((i - 3) % 16) 0
  (rol tm 1, x.set (i % 16) (rol tm 1))

/-- The registers and the array `x`. -/
structure Work where
  regs : Regs
  x : List (BitVec 32)

namespace Work

variable (s : Work) (f : BitVec 32 → BitVec 32 → BitVec 32 → BitVec 32) (k : BitVec 32)
  (m : List (BitVec 32) → BitVec 32 × List (BitVec 32))

/-- `R (a, b, c, d, e, f, k, m)` -/
def rA : Work :=
  let r := s.regs
  ⟨{ r with e := r.e + (rol r.a 5 + f r.b r.c r.d + k + (m s.x).1), b := rol r.b 30 }, (m s.x).2⟩

/-- `R (e, a, b, c, d, f, k, m)` -/
def rE : Work :=
  let r := s.regs
  ⟨{ r with d := r.d + (rol r.e 5 + f r.a r.b r.c + k + (m s.x).1), a := rol r.a 30 }, (m s.x).2⟩

/-- `R (d, e, a, b, c, f, k, m)` -/
def rD : Work :=
  let r := s.regs
  ⟨{ r with c := r.c + (rol r.d 5 + f r.e r.a r.b + k + (m s.x).1), e := rol r.e 30 }, (m s.x).2⟩

/-- `R (c, d, e, a, b, f, k, m)` -/
def rC : Work :=
  let r := s.regs
  ⟨{ r with b := r.b + (rol r.c 5 + f r.d r.e r.a + k + (m s.x).1), d := rol r.d 30 }, (m s.x).2⟩

/-- `R (b, c, d, e, a, f, k, m)` -/
def rB : Work :=
  let r := s.regs
  ⟨{ r with a := r.a + (rol r.b 5 + f r.c r.d r.e + k + (m s.x).1), c := rol r.c 30 }, (m s.x).2⟩

end Work

/-- The lines of `sha_process_block` for a block. -/
def shaLines (s : Work) : Work :=
  s
    |>.rA f1 k1 (word 0) |>.rE f1 k1 (word 1) |>.rD f1 k1 (word 2) |>.rC f1 k1 (word 3)
    |>.rB f1 k1 (word 4) |>.rA f1 k1 (word 5) |>.rE f1 k1 (word 6) |>.rD f1 k1 (word 7)
    |>.rC f1 k1 (word 8) |>.rB f1 k1 (word 9) |>.rA f1 k1 (word 10) |>.rE f1 k1 (word 11)
    |>.rD f1 k1 (word 12) |>.rC f1 k1 (word 13) |>.rB f1 k1 (word 14) |>.rA f1 k1 (word 15)
    |>.rE f1 k1 (mix 16) |>.rD f1 k1 (mix 17) |>.rC f1 k1 (mix 18) |>.rB f1 k1 (mix 19)
    |>.rA f2 k2 (mix 20) |>.rE f2 k2 (mix 21) |>.rD f2 k2 (mix 22) |>.rC f2 k2 (mix 23)
    |>.rB f2 k2 (mix 24) |>.rA f2 k2 (mix 25) |>.rE f2 k2 (mix 26) |>.rD f2 k2 (mix 27)
    |>.rC f2 k2 (mix 28) |>.rB f2 k2 (mix 29) |>.rA f2 k2 (mix 30) |>.rE f2 k2 (mix 31)
    |>.rD f2 k2 (mix 32) |>.rC f2 k2 (mix 33) |>.rB f2 k2 (mix 34) |>.rA f2 k2 (mix 35)
    |>.rE f2 k2 (mix 36) |>.rD f2 k2 (mix 37) |>.rC f2 k2 (mix 38) |>.rB f2 k2 (mix 39)
    |>.rA f3 k3 (mix 40) |>.rE f3 k3 (mix 41) |>.rD f3 k3 (mix 42) |>.rC f3 k3 (mix 43)
    |>.rB f3 k3 (mix 44) |>.rA f3 k3 (mix 45) |>.rE f3 k3 (mix 46) |>.rD f3 k3 (mix 47)
    |>.rC f3 k3 (mix 48) |>.rB f3 k3 (mix 49) |>.rA f3 k3 (mix 50) |>.rE f3 k3 (mix 51)
    |>.rD f3 k3 (mix 52) |>.rC f3 k3 (mix 53) |>.rB f3 k3 (mix 54) |>.rA f3 k3 (mix 55)
    |>.rE f3 k3 (mix 56) |>.rD f3 k3 (mix 57) |>.rC f3 k3 (mix 58) |>.rB f3 k3 (mix 59)
    |>.rA f4 k4 (mix 60) |>.rE f4 k4 (mix 61) |>.rD f4 k4 (mix 62) |>.rC f4 k4 (mix 63)
    |>.rB f4 k4 (mix 64) |>.rA f4 k4 (mix 65) |>.rE f4 k4 (mix 66) |>.rD f4 k4 (mix 67)
    |>.rC f4 k4 (mix 68) |>.rB f4 k4 (mix 69) |>.rA f4 k4 (mix 70) |>.rE f4 k4 (mix 71)
    |>.rD f4 k4 (mix 72) |>.rC f4 k4 (mix 73) |>.rB f4 k4 (mix 74) |>.rA f4 k4 (mix 75)
    |>.rE f4 k4 (mix 76) |>.rD f4 k4 (mix 77) |>.rC f4 k4 (mix 78) |>.rB f4 k4 (mix 79)

/-! ## The lines are the rounds -/

theorem f1_eq (x y z : BitVec 32) : f1 x y z = x &&& y ||| ~~~x &&& z := by
  apply BitVec.eq_of_getLsbD_eq
  intro i hi
  simp only [f1, BitVec.getLsbD_xor, BitVec.getLsbD_and, BitVec.getLsbD_or, BitVec.getLsbD_not, hi,
    decide_true, Bool.true_and]
  cases x.getLsbD i <;> cases y.getLsbD i <;> cases z.getLsbD i <;> rfl

theorem f3_eq (x y z : BitVec 32) : f3 x y z = x &&& y ||| x &&& z ||| y &&& z := by
  apply BitVec.eq_of_getLsbD_eq
  intro i hi
  simp only [f3, BitVec.getLsbD_and, BitVec.getLsbD_or]
  cases x.getLsbD i <;> cases y.getLsbD i <;> cases z.getLsbD i <;> rfl

/-- The function of a line. -/
def codeFunction (t : Nat) : BitVec 32 → BitVec 32 → BitVec 32 → BitVec 32 :=
  if t < 20 then f1 else if t < 40 then f2 else if t < 60 then f3 else f4

/-- Where a line has its word from. -/
def codeWord (t : Nat) : List (BitVec 32) → BitVec 32 × List (BitVec 32) :=
  if t < 16 then word t else mix t

theorem codeFunction_eq (t : Nat) (x y z : BitVec 32) :
    codeFunction t x y z = roundFunction t x y z := by
  rw [codeFunction, roundFunction]
  split
  · exact f1_eq x y z
  · split
    · rfl
    · split
      · exact f3_eq x y z
      · rfl

theorem rol_eq (x : BitVec 32) {n : Nat} (hn : n < 32) : rol x n = x.rotateLeft n := by
  rw [rol, BitVec.rotateLeft_def, Nat.mod_eq_of_lt hn]

section

variable {block : Bytes} {w : Nat → BitVec 32} {r₀ : Regs} {t : Nat} {s : Work}

/-- A line finds the word of its round, and leaves what the next ones need. -/
theorem codeWord_spec {x : List (BitVec 32)}
    (h : InRing (term (nextWord block)) 0 16 (max 16 t) x) :
    (codeWord t x).1 = term (nextWord block) t ∧
      InRing (term (nextWord block)) 0 16 (max 16 (t + 1)) (codeWord t x).2 := by
  rw [codeWord]
  split
  next hlt =>
    have hget := h.holds t (by omega) (by omega)
    rw [Nat.mod_eq_of_lt hlt] at hget
    refine ⟨hget, ?_⟩
    have hmax : max 16 (t + 1) = max 16 t := by omega
    rw [hmax]
    exact h
  next hge =>
    rw [Nat.max_eq_right (by omega)] at h
    rw [Nat.max_eq_right (by omega)]
    have hwrap : (t - 16) % 16 = t % 16 := by omega
    have hold : ∀ k, 0 < k → k ≤ 16 →
        x.getD ((t - k) % 16) 0 = (terms (nextWord block) t).getD (t - k) 0 := by
      intro k hpos hk
      rw [h.get hpos hk (by omega), getD_terms _ (by omega)]
    have h16 := hold 16 (by omega) (by omega)
    rw [hwrap] at h16
    have hword : (mix t x).1 = term (nextWord block) t := by
      rw [mix, term, nextWord, length_terms, if_neg hge, h16, hold 14 (by omega) (by omega),
        hold 8 (by omega) (by omega), hold 3 (by omega) (by omega), rol_eq _ (by omega)]
      ac_rfl
    refine ⟨hword, ?_⟩
    change InRing _ 0 16 (t + 1) (x.set (t % 16) (mix t x).1)
    rw [hword]
    exact h.set (by omega)

/-! The registers in the order in which the next round takes them. -/

/-- Before a line that begins with `a`. -/
def fromA (r : Regs) : Regs := r

/-- Before a line that begins with `e`. -/
def fromE (r : Regs) : Regs := ⟨r.e, r.a, r.b, r.c, r.d⟩

/-- Before a line that begins with `d`. -/
def fromD (r : Regs) : Regs := ⟨r.d, r.e, r.a, r.b, r.c⟩

/-- Before a line that begins with `c`. -/
def fromC (r : Regs) : Regs := ⟨r.c, r.d, r.e, r.a, r.b⟩

/-- Before a line that begins with `b`. -/
def fromB (r : Regs) : Regs := ⟨r.b, r.c, r.d, r.e, r.a⟩

/-- The registers before the `t`-th line, read in the order `view`, are the state
after `t` rounds, and the array holds the words that are needed. -/
structure Sim (block : Bytes) (r₀ : Regs) (view : Regs → Regs) (t : Nat) (s : Work) : Prop where
  regs : view s.regs = (List.range t).foldl (round (term (nextWord block))) r₀
  ring : InRing (term (nextWord block)) 0 16 (max 16 t) s.x

/-- A line that computes what a round does. -/
theorem Sim.step {view view' : Regs → Regs} {s' : Work} (h : Sim block r₀ view t s)
    (hregs : view' s'.regs = round (fun _ => (codeWord t s.x).1) (view s.regs) t)
    (hx : s'.x = (codeWord t s.x).2) : Sim block r₀ view' (t + 1) s' where
  regs := by
    rw [List.range_succ, List.foldl_append, ← h.regs, hregs, round, (codeWord_spec h.ring).1]
    rfl
  ring := by
    rw [hx]
    exact (codeWord_spec h.ring).2

/-- The sum of a line is the one of a round. -/
theorem line_sum (t : Nat) (a b c d e m : BitVec 32) :
    e + (rol a 5 + codeFunction t b c d + roundConstant t + m) =
      a.rotateLeft 5 + roundFunction t b c d + e + roundConstant t + m := by
  rw [codeFunction_eq, rol_eq _ (by omega)]
  ac_rfl

theorem Sim.rA (h : Sim block r₀ fromA t s) :
    Sim block r₀ fromE (t + 1) (s.rA (codeFunction t) (roundConstant t) (codeWord t)) :=
  h.step (by rw [fromE, Work.rA, line_sum, rol_eq _ (by omega)]; rfl) rfl

theorem Sim.rE (h : Sim block r₀ fromE t s) :
    Sim block r₀ fromD (t + 1) (s.rE (codeFunction t) (roundConstant t) (codeWord t)) :=
  h.step (by rw [fromD, Work.rE, line_sum, rol_eq _ (by omega)]; rfl) rfl

theorem Sim.rD (h : Sim block r₀ fromD t s) :
    Sim block r₀ fromC (t + 1) (s.rD (codeFunction t) (roundConstant t) (codeWord t)) :=
  h.step (by rw [fromC, Work.rD, line_sum, rol_eq _ (by omega)]; rfl) rfl

theorem Sim.rC (h : Sim block r₀ fromC t s) :
    Sim block r₀ fromB (t + 1) (s.rC (codeFunction t) (roundConstant t) (codeWord t)) :=
  h.step (by rw [fromB, Work.rC, line_sum, rol_eq _ (by omega)]; rfl) rfl

theorem Sim.rB (h : Sim block r₀ fromB t s) :
    Sim block r₀ fromA (t + 1) (s.rB (codeFunction t) (roundConstant t) (codeWord t)) :=
  h.step (by rw [fromA, Work.rB, line_sum, rol_eq _ (by omega)]; rfl) rfl

/-- Five lines, after which the registers are back in their places. -/
theorem Sim.five (h : Sim block r₀ fromA t s) :
    Sim block r₀ fromA (t + 5)
      (((((s.rA (codeFunction t) (roundConstant t) (codeWord t)).rE
        (codeFunction (t + 1)) (roundConstant (t + 1)) (codeWord (t + 1))).rD
        (codeFunction (t + 2)) (roundConstant (t + 2)) (codeWord (t + 2))).rC
        (codeFunction (t + 3)) (roundConstant (t + 3)) (codeWord (t + 3))).rB
        (codeFunction (t + 4)) (roundConstant (t + 4)) (codeWord (t + 4))) :=
  h.rA.rE.rD.rC.rB

/-- The lines compute the rounds. -/
theorem sim_shaLines (h : Sim block r₀ fromA 0 s) : Sim block r₀ fromA 80 (shaLines s) :=
  h.five.five.five.five.five.five.five.five.five.five.five.five.five.five.five.five

end

/-! ## The context -/

/-- `sha_ctx`.  The registers `A` to `E` are `regs`. -/
structure ShaCtx where
  regs : Regs
  total : Counter 32
  buflen : Nat
  buffer : CField 128
deriving DecidableEq

/-- `NOTSWAP` -/
def notswap (o : ByteOrder) (n : BitVec 32) : BitVec 32 :=
  match o with
  | .little =>
      n <<< 24 ||| ((n &&& 0xff00#32) <<< 8) ||| ((n >>> 8) &&& 0xff00#32) ||| n >>> 24
  | .big => n

/-- The array `x` that is read for a block. -/
def readBlock (o : ByteOrder) (mem : Bytes) : List (BitVec 32) :=
  (List.range 16).map fun t => notswap o (o.load 32 4 mem t)

/-- The loop of `sha_process_block`, with `nwords` words left. -/
def shaBlocks (o : ByteOrder) (nwords : Nat) (mem : Bytes) (r : Regs) : Outcome Regs :=
  if nwords = 0 then .returned r
  else if 64 ≤ mem.length then
    shaBlocks o (nwords - 16) (mem.drop 64) (r.add (shaLines ⟨r, readBlock o mem⟩).regs)
  else .fault

/-- `total` after `len` more bytes. -/
def addTotal (total : Counter 32) (len : Nat) : Counter 32 :=
  let low := total.low + BitVec.ofNat 32 len
  ⟨low, if low.toNat < len then total.high + 1#32 else total.high⟩

/-- `sha_process_block`, with the bytes from `buffer` on. -/
def shaProcessBlock (o : ByteOrder) (buffer : Bytes) (len : Nat) (ctx : ShaCtx) : Outcome ShaCtx :=
  shaBlocks o (len / 4) buffer ctx.regs >>= fun regs =>
    .returned { ctx with regs := regs, total := addTotal ctx.total len }

/-- `sha_init_ctx` -/
def shaInitCtx (ctx : ShaCtx) : ShaCtx :=
  { ctx with regs := Regs.start, total := ⟨0, 0⟩, buflen := 0 }

/-- `sha_read_ctx`: the bytes that are stored. -/
def shaReadCtx (o : ByteOrder) (ctx : ShaCtx) : Bytes :=
  o.bytes 4 (notswap o ctx.regs.a) ++ o.bytes 4 (notswap o ctx.regs.b) ++
    o.bytes 4 (notswap o ctx.regs.c) ++ o.bytes 4 (notswap o ctx.regs.d) ++
    o.bytes 4 (notswap o ctx.regs.e)

/-- `memcpy` into `buffer`. -/
def ShaCtx.copyIn (ctx : ShaCtx) (i : Nat) (bs : Bytes) : Outcome ShaCtx :=
  ctx.buffer.store i bs >>= fun buffer => .returned { ctx with buffer := buffer }

/-- The part of `sha_process_bytes` for bytes in the buffer: the context, and what
is left of the data. -/
def fillBuffer (o : ByteOrder) (data : Bytes) (ctx : ShaCtx) : Outcome (ShaCtx × Bytes) :=
  if ctx.buflen ≠ 0 then
    let leftOver := ctx.buflen
    let add := if 128 - leftOver > data.length then data.length else 128 - leftOver
    ctx.copyIn leftOver (data.take add) >>= fun ctx =>
      if leftOver + add > 64 then
        let whole := (leftOver + add) / 64 * 64
        shaProcessBlock o ctx.buffer.bytes whole ctx >>= fun ctx =>
          load ctx.buffer.bytes whole ((leftOver + add) % 64 : Nat) >>= fun moved =>
            ctx.copyIn 0 moved >>= fun ctx =>
              .returned ({ ctx with buflen := (leftOver + add) % 64 }, data.drop add)
      else .returned ({ ctx with buflen := leftOver + add }, data.drop add)
  else .returned (ctx, data)

/-- The part of `sha_process_bytes` for whole blocks of the data. -/
def processWhole (o : ByteOrder) (data : Bytes) (ctx : ShaCtx) : Outcome (ShaCtx × Bytes) :=
  if data.length > 64 then
    shaProcessBlock o data (data.length / 64 * 64) ctx >>= fun ctx =>
      .returned (ctx, data.drop (data.length / 64 * 64))
  else .returned (ctx, data)

/-- `sha_process_bytes` -/
def shaProcessBytes (o : ByteOrder) (data : Bytes) (ctx : ShaCtx) : Outcome ShaCtx :=
  fillBuffer o data ctx >>= fun (ctx, data) =>
    processWhole o data ctx >>= fun (ctx, data) =>
      if data.length > 0 then
        ctx.copyIn 0 data >>= fun ctx => .returned { ctx with buflen := data.length }
      else .returned ctx

/-- `sha_finish_ctx`: the bytes in `resbuf`, and the context. -/
def shaFinishCtx (o : ByteOrder) (ctx : ShaCtx) : Outcome (Bytes × ShaCtx) :=
  let bytes := ctx.buflen
  let total := addTotal ctx.total bytes
  let pad := if bytes ≥ 56 then 64 + 56 - bytes else 56 - bytes
  { ctx with total := total }.copyIn bytes ((0x80 :: List.replicate 63 0).take pad) >>= fun ctx =>
    ctx.copyIn (bytes + pad + 4) (o.bytes 4 (notswap o (total.low <<< 3))) >>= fun ctx =>
      ctx.copyIn (bytes + pad)
          (o.bytes 4 (notswap o (total.high <<< 3 ||| total.low >>> 29))) >>= fun ctx =>
        shaProcessBlock o ctx.buffer.bytes (bytes + pad + 8) ctx >>= fun ctx =>
          .returned (shaReadCtx o ctx, ctx)

/-! ## Words in memory -/

theorem swaps_notswap (x : BitVec 32) : Swaps 4 x (notswap .little x) := by
  intro i hi
  interval_cases i <;> simp [notswap]

/-- A word of a block, on both kinds of host. -/
theorem notswap_load (o : ByteOrder) {mem : Bytes} {t : Nat} (h : 4 * t + 4 ≤ mem.length) :
    notswap o (o.load 32 4 mem t) = blockWord mem t := by
  cases o with
  | little =>
      exact (swaps_notswap _).word_eq rfl (by rw [List.length_take, List.length_drop]; omega)
  | big => rfl

/-- A word that is stored, on both kinds of host. -/
theorem bytes_notswap (o : ByteOrder) (x : BitVec 32) :
    o.bytes 4 (notswap o x) = ByteOrder.big.bytes 4 x := by
  cases o with
  | little => exact (swaps_notswap x).bytes_eq rfl
  | big => rfl

theorem shaReadCtx_eq (o : ByteOrder) (ctx : ShaCtx) : shaReadCtx o ctx = ctx.regs.bytes := by
  simp only [shaReadCtx, bytes_notswap, Regs.bytes]

/-- The array holds the first sixteen words of the schedule. -/
theorem inRing_readBlock (o : ByteOrder) {block : Bytes} (hlen : 64 ≤ block.length) :
    InRing (term (nextWord (block.take 64))) 0 16 16 (readBlock o block) where
  length_eq := by simp [readBlock]
  holds := by
    intro j hj _
    rw [Nat.mod_eq_of_lt hj, readBlock, List.getD_eq_getElem?_getD, List.getElem?_map,
      List.getElem?_range hj, Option.map_some, Option.getD_some, notswap_load o (by omega), term,
      nextWord, length_terms, if_pos hj]
    have happ := ByteOrder.big.load_append_left (w := 32) (n := 4) (i := j) (block.drop 64)
      (a := block.take 64) (by rw [List.length_take]; omega)
    rwa [List.take_append_drop] at happ

/-- The lines compress a block. -/
theorem compress_eq (o : ByteOrder) {block : Bytes} (hlen : 64 ≤ block.length) (r : Regs) :
    r.add (shaLines ⟨r, readBlock o block⟩).regs = shaHash.compress r (block.take 64) := by
  have hsim : Sim (block.take 64) r fromA 0 ⟨r, readBlock o block⟩ := ⟨rfl, inRing_readBlock o hlen⟩
  have hwords : (List.range 80).foldl (round (term (nextWord (block.take 64)))) r =
      (List.range 80).foldl
        (round fun t => (terms (nextWord (block.take 64)) 80).getD t 0) r := by
    apply List.foldl_ext
    intro s t ht
    rw [round, round, getD_terms _ (List.mem_range.mp ht)]
  change r.add (fromA (shaLines ⟨r, readBlock o block⟩).regs) = _
  rw [(sim_shaLines hsim).regs, hwords]
  rfl

/-- The loop over whole blocks. -/
theorem shaBlocks_spec (o : ByteOrder) {k : Nat} {m : Bytes} (hle : 64 * k ≤ m.length)
    (r : Regs) : shaBlocks o (16 * k) m r = .returned (shaHash.run r (m.take (64 * k))) := by
  induction k generalizing m r with
  | zero =>
      rw [shaBlocks, if_pos rfl, Nat.mul_zero, List.take_zero, shaHash.run_nil]
  | succ k ih =>
      have hwords : 16 * (k + 1) - 16 = 16 * k := by omega
      have hcut : m.take (64 * (k + 1)) = m.take 64 ++ (m.drop 64).take (64 * k) := by
        rw [Nat.mul_succ, Nat.add_comm, List.take_add]
      have hblock : (m.take 64).length = shaHash.size := by
        rw [List.length_take]
        change min 64 m.length = 64
        omega
      rw [shaBlocks, if_neg (by omega), if_pos (by omega), hwords,
        ih (by rw [List.length_drop]; omega), compress_eq o (by omega), hcut,
        shaHash.run_block_append hblock]

/-! ## What the context stands for -/

/-- The count of the bytes. -/
theorem joined_addTotal {total : Counter 32} {len : Nat} (hlen : len < 2 ^ 32) :
    (addTotal total len).joined = total.joined + BitVec.ofNat (32 + 32) len := by
  have hadd := Counter.joined_add total (BitVec.ofNat 32 len)
  have hnat : (BitVec.ofNat 32 len).toNat = len := by
    rw [BitVec.toNat_ofNat, Nat.mod_eq_of_lt hlen]
  simp only [Counter.add, BitVec.lt_def, hnat] at hadd
  exact hadd

namespace ShaCtx

variable {o : ByteOrder} {ctx : ShaCtx} {msg data : Bytes}

/-- The state and some pending bytes, wherever they are, stand for a message, and the
bytes before these are counted. -/
structure Keeps (ctx : ShaCtx) (msg pending : Bytes) : Prop where
  stands : shaHash.Stands Regs.start msg ctx.regs pending
  count : ctx.total.joined = BitVec.ofNat (32 + 32) (msg.length - pending.length)

/-- What the calls keep: the pending bytes are at the start of the buffer, and they
are no more than a block. -/
structure Holds (ctx : ShaCtx) (msg : Bytes) : Prop where
  keeps : ctx.Keeps msg (ctx.buffer.bytes.take ctx.buflen)
  buflen_le : ctx.buflen ≤ 64

theorem length_pending (h : ctx.buflen ≤ 128) :
    (ctx.buffer.bytes.take ctx.buflen).length = ctx.buflen := by
  rw [List.length_take, ctx.buffer.size_eq, Nat.min_eq_left h]

theorem Keeps.append {pending : Bytes} (h : ctx.Keeps msg pending) (data : Bytes) :
    ctx.Keeps (msg ++ data) (pending ++ data) where
  stands := h.stands.append data
  count := by
    rw [List.length_append, List.length_append, Nat.add_sub_add_right]
    exact h.count

theorem copyIn_eq (ctx : ShaCtx) {i : Nat} {b : Bytes} (h : i + b.length ≤ 128) :
    ∃ f : CField 128, ctx.copyIn i b = .returned { ctx with buffer := f } ∧
      f.bytes = overwrite ctx.buffer.bytes i b := by
  obtain ⟨f, hstore, hbytes⟩ := ctx.buffer.store_bytes i b h
  exact ⟨f, by rw [copyIn, hstore]; rfl, hbytes⟩

/-- Whole blocks at the start of a buffer are processed. -/
theorem Keeps.process {m front rest : Bytes} {k : Nat} (h : ctx.Keeps msg (front ++ rest))
    (hfront : m.take (64 * k) = front) (hle : 64 * k ≤ m.length) (hlt : 64 * k < 2 ^ 32) :
    ∃ regs total, shaProcessBlock o m (64 * k) ctx =
        .returned { ctx with regs := regs, total := total } ∧
      ({ ctx with regs := regs, total := total } : ShaCtx).Keeps msg rest := by
  have hlen : front.length = 64 * k := by
    rw [← hfront, List.length_take]
    omega
  have hwords : 64 * k / 4 = 16 * k := by omega
  refine ⟨_, _, by rw [shaProcessBlock, hwords, shaBlocks_spec o hle]; rfl, ?_, ?_⟩
  · rw [hfront]
    exact h.stands.compress (by rw [hlen]; exact Nat.dvd_mul_right 64 k)
  · have hall := h.stands.length_le
    have hcount := h.count
    rw [List.length_append] at hall hcount
    have hsum : msg.length - (front.length + rest.length) + 64 * k = msg.length - rest.length := by
      omega
    change (addTotal ctx.total (64 * k)).joined = _
    rw [joined_addTotal hlt, hcount, ← BitVec.ofNat_add, hsum]

end ShaCtx

open ShaCtx

variable {o : ByteOrder} {ctx : ShaCtx} {msg data : Bytes}

/-- The buffer takes all of the data, or it is empty afterwards. -/
theorem fillBuffer_spec (h : ctx.Holds msg) :
    ∃ ctx' rest, fillBuffer o data ctx = .returned (ctx', rest) ∧ rest.length ≤ data.length ∧
      (rest = [] ∧ ctx'.Holds (msg ++ data) ∨ ctx'.buflen = 0 ∧ ctx'.Keeps (msg ++ data) rest) := by
  have hkeeps := h.keeps.append data
  have hle := h.buflen_le
  have hsize := ctx.buffer.size_eq
  by_cases hzero : ctx.buflen = 0
  · rw [fillBuffer, if_neg (by simpa using hzero)]
    refine ⟨ctx, data, rfl, Nat.le_refl _, .inr ⟨hzero, ?_⟩⟩
    rwa [hzero, List.take_zero, List.nil_append] at hkeeps
  · rw [fillBuffer, if_pos hzero]
    dsimp only
    generalize hadd :
      (if 128 - ctx.buflen > data.length then data.length else 128 - ctx.buflen) = add
    have haddle : add ≤ data.length := by
      rw [← hadd]
      split <;> omega
    have hroom : ctx.buflen + add ≤ 128 := by
      rw [← hadd]
      split <;> omega
    have hlen : (data.take add).length = add := by
      rw [List.length_take]
      omega
    obtain ⟨f, hcopy, hf⟩ := ctx.copyIn_eq (i := ctx.buflen) (b := data.take add) (by omega)
    have hfilled : f.bytes.take (ctx.buflen + add) =
        ctx.buffer.bytes.take ctx.buflen ++ data.take add := by
      have htake := take_overwrite_end ctx.buffer.bytes ctx.buflen (data.take add) (by omega)
      rwa [← hf, hlen] at htake
    have hcut : ctx.buffer.bytes.take ctx.buflen ++ data =
        f.bytes.take (ctx.buflen + add) ++ data.drop add := by
      rw [hfilled, List.append_assoc, List.take_append_drop]
    rw [hcut] at hkeeps
    rw [hcopy, Outcome.returned_bind]
    have hkept : ({ ctx with buffer := f } : ShaCtx).Keeps (msg ++ data)
        (f.bytes.take (ctx.buflen + add) ++ data.drop add) := ⟨hkeeps.stands, hkeeps.count⟩
    by_cases hfull : ctx.buflen + add > 64
    · -- the whole blocks of the buffer are processed, and what is behind them is moved
      rw [if_pos hfull]
      generalize hk : (ctx.buflen + add) / 64 = k at *
      have hwhole : k * 64 = 64 * k := Nat.mul_comm _ _
      have hrest : ctx.buflen + add = 64 * k + (ctx.buflen + add) % 64 := by omega
      have hsplit : f.bytes.take (ctx.buflen + add) =
          f.bytes.take (64 * k) ++ (f.bytes.drop (64 * k)).take ((ctx.buflen + add) % 64) := by
        rw [← List.take_add, ← hrest]
      have hfsize := f.size_eq
      rw [hsplit, List.append_assoc] at hkept
      obtain ⟨regs, total, hprocess, hafter⟩ := hkept.process (o := o) (m := f.bytes) rfl
        (by omega) (by omega)
      have hmoved : ((f.bytes.drop (64 * k)).take ((ctx.buflen + add) % 64)).length =
          (ctx.buflen + add) % 64 := by
        rw [List.length_take, List.length_drop]
        omega
      obtain ⟨g, hback, hg⟩ := copyIn_eq { ctx with buffer := f, regs := regs, total := total }
        (i := 0) (b := (f.bytes.drop (64 * k)).take ((ctx.buflen + add) % 64)) (by omega)
      have hfront : g.bytes.take ((ctx.buflen + add) % 64) =
          (f.bytes.drop (64 * k)).take ((ctx.buflen + add) % 64) := by
        have htake := take_overwrite_end f.bytes 0
          ((f.bytes.drop (64 * k)).take ((ctx.buflen + add) % 64)) (Nat.zero_le _)
        change g.bytes = overwrite f.bytes 0 _ at hg
        rwa [← hg, Nat.zero_add, List.take_zero, List.nil_append, hmoved] at htake
      rw [hwhole, hprocess, Outcome.returned_bind]
      dsimp only
      rw [load_eq _ _ _ (by omega), Outcome.returned_bind, hback, Outcome.returned_bind]
      refine ⟨_, _, rfl, by rw [List.length_drop]; omega, ?_⟩
      by_cases hnil : data.drop add = []
      · rw [hnil, List.append_nil] at hafter
        refine .inl ⟨hnil, ⟨?_, ?_⟩, by change (ctx.buflen + add) % 64 ≤ 64; omega⟩
        · change shaHash.Stands Regs.start _ regs (g.bytes.take ((ctx.buflen + add) % 64))
          rw [hfront]
          exact hafter.stands
        · change total.joined = BitVec.ofNat (32 + 32)
            ((msg ++ data).length - (g.bytes.take ((ctx.buflen + add) % 64)).length)
          rw [hfront]
          exact hafter.count
      · -- data are left over: the buffer was filled
        have hnone : (ctx.buflen + add) % 64 = 0 := by
          rw [List.drop_eq_nil_iff] at hnil
          split at hadd <;> omega
        rw [hnone, List.take_zero, List.nil_append] at hafter
        exact .inr ⟨hnone, hafter.stands, hafter.count⟩
    · have hnil : data.drop add = [] := by
        rw [List.drop_eq_nil_iff]
        split at hadd <;> omega
      rw [if_neg hfull]
      rw [hnil, List.append_nil] at hkept
      exact ⟨_, _, rfl, by rw [List.length_drop]; omega,
        .inl ⟨hnil, ⟨hkept.stands, hkept.count⟩, by change ctx.buflen + add ≤ 64; omega⟩⟩

/-- Whole blocks of the data are processed; no more than a block is left. -/
theorem processWhole_spec (hlt : data.length < 2 ^ 32) (hkeeps : ctx.Keeps msg data) :
    ∃ regs total rest, processWhole o data ctx =
        .returned ({ ctx with regs := regs, total := total }, rest) ∧
      ({ ctx with regs := regs, total := total } : ShaCtx).Keeps msg rest ∧ rest.length ≤ 64 := by
  rw [processWhole]
  split
  next hgt =>
    have hwhole : data.length / 64 * 64 = 64 * (data.length / 64) := Nat.mul_comm _ _
    rw [← List.take_append_drop (64 * (data.length / 64)) data] at hkeeps
    obtain ⟨regs, total, hprocess, hafter⟩ := hkeeps.process (o := o) rfl (by omega) (by omega)
    rw [hwhole, hprocess]
    refine ⟨regs, total, _, rfl, hafter, ?_⟩
    rw [List.length_drop]
    omega
  next hle => exact ⟨ctx.regs, ctx.total, data, rfl, hkeeps, by omega⟩

/-- `sha_process_bytes` does not leave its buffer, and what the context stands for
grows by the bytes it is given. -/
theorem shaProcessBytes_spec (h : ctx.Holds msg) (hlt : data.length < 2 ^ 32) :
    ∃ ctx', shaProcessBytes o data ctx = .returned ctx' ∧ ctx'.Holds (msg ++ data) := by
  obtain ⟨ctx₁, rest, hfill, hrest, hcase⟩ := @fillBuffer_spec o ctx msg data h
  rw [shaProcessBytes, hfill, Outcome.returned_bind]
  dsimp only
  rcases hcase with ⟨hnil, hholds⟩ | ⟨hzero, hkeeps⟩
  · rw [hnil]
    exact ⟨ctx₁, rfl, hholds⟩
  · obtain ⟨regs, total, rest', hwhole, hkept, hle⟩ := processWhole_spec (o := o) (by omega) hkeeps
    rw [hwhole, Outcome.returned_bind]
    dsimp only
    split
    next hpos =>
      obtain ⟨f, hcopy, hf⟩ := copyIn_eq { ctx₁ with regs := regs, total := total } (i := 0)
        (b := rest') (by omega)
      have hfront : f.bytes.take rest'.length = rest' := by
        have htake := take_overwrite_end ctx₁.buffer.bytes 0 rest' (Nat.zero_le _)
        change f.bytes = overwrite ctx₁.buffer.bytes 0 rest' at hf
        rwa [← hf, Nat.zero_add, List.take_zero, List.nil_append] at htake
      rw [hcopy, Outcome.returned_bind]
      refine ⟨_, rfl, ⟨?_, ?_⟩, hle⟩
      · change shaHash.Stands Regs.start _ regs (f.bytes.take rest'.length)
        rw [hfront]
        exact hkept.stands
      · change total.joined = BitVec.ofNat (32 + 32)
          ((msg ++ data).length - (f.bytes.take rest'.length).length)
        rw [hfront]
        exact hkept.count
    next hnone =>
      have hnil : rest' = [] := List.length_eq_zero_iff.mp (by omega)
      rw [hnil] at hkept
      refine ⟨_, rfl, ⟨?_, ?_⟩, by change ctx₁.buflen ≤ 64; omega⟩
      · change shaHash.Stands Regs.start _ regs (ctx₁.buffer.bytes.take ctx₁.buflen)
        rw [hzero]
        exact hkept.stands
      · change total.joined = BitVec.ofNat (32 + 32)
          ((msg ++ data).length - (ctx₁.buffer.bytes.take ctx₁.buflen).length)
        rw [hzero]
        exact hkept.count

/-! ## The end -/

/-- The count in bits, as it is stored. -/
theorem bytes_count {total : Counter 32} {n : Nat} (h : total.joined = BitVec.ofNat (32 + 32) n) :
    ByteOrder.big.bytes 4 (total.high <<< 3 ||| total.low >>> 29) ++
      ByteOrder.big.bytes 4 (total.low <<< 3) =
        ByteOrder.big.bytes 8 (BitVec.ofNat 64 (8 * n)) := by
  have hshift := Counter.joined_shift (by omega) total
  have height : BitVec.ofNat (32 + 32) n <<< 3 = BitVec.ofNat 64 (8 * n) := by
    apply BitVec.eq_of_toNat_eq
    rw [BitVec.toNat_shiftLeft, BitVec.toNat_ofNat, BitVec.toNat_ofNat, Nat.shiftLeft_eq]
    omega
  rw [h, height] at hshift
  rw [← hshift]
  exact (ByteOrder.bytes_big_append (n := 4) (m := 4) rfl _ _).symm

/-- Two words are stored behind a beginning of the buffer, the second one first. -/
theorem take_two_words {l front high low : Bytes} {n : Nat} (hfront : l.take n = front)
    (hhigh : high.length = 4) (hlow : low.length = 4) (hn : n + 8 ≤ l.length) :
    (overwrite (overwrite l (n + 4) low) n high).take (n + 8) = front ++ (high ++ low) := by
  have hlen : (l.take (n + 4)).length = n + 4 := by
    rw [List.length_take]
    omega
  have hdrop : (overwrite l (n + 4) low).drop (n + 4) = low ++ l.drop (n + 8) := by
    rw [overwrite, List.append_assoc, List.drop_left' hlen, hlow]
  have htake : (overwrite l (n + 4) low).take n = front := by
    rw [take_overwrite_of_le (by omega) (by omega), hfront]
  have hfrontLen : front.length = n := by
    rw [← hfront, List.length_take]
    omega
  rw [overwrite, htake, hhigh, hdrop, ← List.append_assoc, List.append_assoc front,
    List.take_left' (by rw [List.length_append, List.length_append]; omega)]

/-- `sha_finish_ctx` stores the digest of the bytes given so far. -/
theorem shaFinishCtx_spec (h : ctx.Holds msg) :
    ∃ ctx', shaFinishCtx o ctx = .returned (sha1 msg, ctx') := by
  obtain ⟨⟨hstands, hcount⟩, hle⟩ := h
  have hlen := length_pending (show ctx.buflen ≤ 128 by omega)
  have hmod := hstands.length_mod
  have hall := hstands.length_le
  change _ % 64 = _ % 64 at hmod
  rw [hlen] at hmod hall hcount
  -- all bytes are counted
  have htotal : (addTotal ctx.total ctx.buflen).joined = BitVec.ofNat (32 + 32) msg.length := by
    rw [joined_addTotal (by omega), hcount, ← BitVec.ofNat_add, Nat.sub_add_cancel hall]
  -- the padding
  generalize hpad : (if ctx.buflen ≥ 56 then 64 + 56 - ctx.buflen else 56 - ctx.buflen) = pad
  have hzeros : pad = padZeros 64 8 msg.length + 1 := by
    rw [padZeros, ← hpad]
    split <;> omega
  have hfill : (0x80 :: List.replicate 63 0 : Bytes).take pad = padding 64 8 msg.length := by
    rw [hzeros, List.take_succ_cons, List.take_replicate, padding,
      Nat.min_eq_left (by rw [padZeros]; omega)]
  have hpadLen : (padding 64 8 msg.length).length = pad := by
    rw [length_padding, hzeros]
  have hend : ∃ k, ctx.buflen + pad + 8 = 64 * k ∧ 64 * k ≤ 128 := by
    rcases Nat.lt_or_ge ctx.buflen 56 with hlt | hge
    · rw [if_neg (by omega)] at hpad
      exact ⟨1, by omega, by omega⟩
    · rw [if_pos hge] at hpad
      exact ⟨2, by omega, by omega⟩
  obtain ⟨k, hk, hkle⟩ := hend
  have hsize := ctx.buffer.size_eq
  obtain ⟨f, hcopy₁, hf⟩ := copyIn_eq { ctx with total := addTotal ctx.total ctx.buflen }
    (i := ctx.buflen) (b := padding 64 8 msg.length) (by omega)
  have hfront : f.bytes.take (ctx.buflen + pad) =
      ctx.buffer.bytes.take ctx.buflen ++ padding 64 8 msg.length := by
    have htake := take_overwrite_end ctx.buffer.bytes ctx.buflen (padding 64 8 msg.length)
      (by omega)
    change f.bytes = overwrite ctx.buffer.bytes _ _ at hf
    rwa [← hf, hpadLen] at htake
  obtain ⟨g, hcopy₂, hg⟩ := copyIn_eq
    { ctx with total := addTotal ctx.total ctx.buflen, buffer := f } (i := ctx.buflen + pad + 4)
    (b := ByteOrder.big.bytes 4 ((addTotal ctx.total ctx.buflen).low <<< 3))
    (by rw [ByteOrder.length_bytes]; omega)
  obtain ⟨q, hcopy₃, hq⟩ := copyIn_eq
    { ctx with total := addTotal ctx.total ctx.buflen, buffer := g } (i := ctx.buflen + pad)
    (b := ByteOrder.big.bytes 4 ((addTotal ctx.total ctx.buflen).high <<< 3 |||
      (addTotal ctx.total ctx.buflen).low >>> 29))
    (by rw [ByteOrder.length_bytes]; omega)
  have hlast : q.bytes.take (64 * k) = ctx.buffer.bytes.take ctx.buflen ++
      (padding 64 8 msg.length ++ ByteOrder.big.bytes 8 (BitVec.ofNat 64 (8 * msg.length))) := by
    change g.bytes = overwrite f.bytes _ _ at hg
    change q.bytes = overwrite g.bytes _ _ at hq
    rw [hq, hg, ← hk, take_two_words hfront (ByteOrder.length_bytes _ _ _)
      (ByteOrder.length_bytes _ _ _) (by rw [f.size_eq]; omega), bytes_count htotal,
      List.append_assoc]
  have hwords : 64 * k / 4 = 16 * k := by omega
  have hstate := hstands.finish
    (padding 64 8 msg.length ++ ByteOrder.big.bytes 8 (BitVec.ofNat 64 (8 * msg.length)))
  simp only [shaFinishCtx, hpad, hfill, bytes_notswap]
  rw [hcopy₁, Outcome.returned_bind, hcopy₂, Outcome.returned_bind, hcopy₃, Outcome.returned_bind,
    hk, shaProcessBlock, hwords, shaBlocks_spec o (by rw [q.size_eq]; omega),
    Outcome.returned_bind, Outcome.returned_bind, shaReadCtx_eq, hlast, hstate]
  exact ⟨_, rfl⟩

/-! ## A message in pieces -/

/-- `sha_block`: what is stored in `resblock`, and the context.  `iblock` is the
memory from the pointer on. -/
def shaBlock (o : ByteOrder) (ctx : ShaCtx) (iblock : Option Bytes) (icount : Int) :
    Outcome (Option Bytes × ShaCtx) :=
  match iblock with
  | none =>
      if icount < 0 then .returned (none, shaInitCtx ctx)
      else if icount = 512 then .fault
      else shaFinishCtx o ctx >>= fun (digest, ctx) => .returned (some digest, ctx)
  | some mem =>
      if icount = 512 then
        load mem 0 512 >>= fun buffer =>
          shaProcessBlock o buffer 512 ctx >>= fun ctx => .returned (none, ctx)
      else if 0 ≤ icount then
        if icount ≠ 0 then
          load mem 0 icount >>= fun data =>
            shaProcessBytes o data ctx >>= fun ctx => .returned (none, ctx)
        else .returned (none, ctx)
      else shaFinishCtx o ctx >>= fun (digest, ctx) => .returned (some digest, ctx)

/-- `sha_block` with one piece after another, and then without one for the digest. -/
def shaBlockPieces (o : ByteOrder) (ctx : ShaCtx) : List Bytes → Outcome (Option Bytes)
  | [] => shaBlock o ctx none 0 >>= fun r => .returned r.1
  | piece :: pieces =>
      shaBlock o ctx (some piece) piece.length >>= fun r => shaBlockPieces o r.2 pieces

/-- A context after `sha_init_ctx` stands for the empty message. -/
theorem holds_shaInitCtx (ctx : ShaCtx) : (shaInitCtx ctx).Holds [] where
  keeps := {
    stands := by
      change shaHash.Stands Regs.start [] Regs.start (ctx.buffer.bytes.take 0)
      rw [List.take_zero]
      exact BlockHash.Stands.start _
    count := by
      change (Counter.mk 0 0 : Counter 32).joined =
        BitVec.ofNat (32 + 32) (0 - (ctx.buffer.bytes.take 0).length)
      rw [List.take_zero]
      decide }
  buflen_le := Nat.zero_le _

/-- A piece of any other length than 512. -/
theorem shaBlock_bytes (h : ctx.Holds msg) (hlt : data.length < 2 ^ 31) (hne : data.length ≠ 512) :
    ∃ ctx', shaBlock o ctx (some data) data.length = .returned (none, ctx') ∧
      ctx'.Holds (msg ++ data) := by
  have hload : load data 0 data.length = .returned data := by
    have hall := load_eq data 0 data.length (by omega)
    rwa [List.drop_zero, List.take_length] at hall
  rw [shaBlock]
  dsimp only
  rw [if_neg (by omega), if_pos (by omega)]
  by_cases hnil : data.length = 0
  · rw [if_neg (by omega)]
    refine ⟨ctx, rfl, ?_⟩
    rwa [List.length_eq_zero_iff.mp hnil, List.append_nil]
  · obtain ⟨ctx', hret, hholds⟩ := shaProcessBytes_spec (o := o) h
      (show data.length < 2 ^ 32 by omega)
    rw [if_pos (by omega), hload, Outcome.returned_bind, hret]
    exact ⟨ctx', rfl, hholds⟩

/-- 512 bytes that are processed directly are put before the bytes that are pending. -/
theorem shaProcessBlock_full (h : ctx.Holds msg) (hlen : data.length = 512) :
    ∃ ctx' done, msg = done ++ ctx.buffer.bytes.take ctx.buflen ∧
      shaProcessBlock o data 512 ctx = .returned ctx' ∧
      ctx'.Holds (done ++ data ++ ctx.buffer.bytes.take ctx.buflen) ∧ ctx'.buflen = ctx.buflen := by
  obtain ⟨⟨⟨done, hdvd, hmsg, hregs⟩, hcount⟩, hle⟩ := h
  have hrun := shaBlocks_spec o (k := 8) (m := data) (by omega) ctx.regs
  have hwhole : data.take (64 * 8) = data := List.take_of_length_le (by omega)
  rw [hwhole] at hrun
  have hret : shaProcessBlock o data 512 ctx = .returned
      { ctx with regs := shaHash.run ctx.regs data, total := addTotal ctx.total 512 } := by
    rw [shaProcessBlock]
    change shaBlocks o (16 * 8) data ctx.regs >>= _ = _
    rw [hrun]
    rfl
  refine ⟨_, done, hmsg, hret, ⟨⟨⟨done ++ data, ?_, rfl, ?_⟩, ?_⟩, hle⟩, rfl⟩
  · rw [List.length_append, hlen]
    exact Nat.dvd_add hdvd (by decide)
  · change shaHash.run ctx.regs data = _
    rw [hregs, shaHash.run_append hdvd]
  · have hlenMsg := congrArg List.length hmsg
    rw [List.length_append] at hlenMsg
    change (addTotal ctx.total 512).joined = BitVec.ofNat (32 + 32)
      ((done ++ data ++ ctx.buffer.bytes.take ctx.buflen).length -
        (ctx.buffer.bytes.take ctx.buflen).length)
    rw [joined_addTotal (by omega), hcount, ← BitVec.ofNat_add, List.length_append,
      List.length_append, hlen, Nat.add_sub_cancel]
    congr 1
    omega

/-- 512 bytes that are processed directly, with none pending. -/
theorem shaProcessBlock_next (h : ctx.Holds msg) (hzero : ctx.buflen = 0)
    (hlen : data.length = 512) :
    ∃ ctx', shaProcessBlock o data 512 ctx = .returned ctx' ∧ ctx'.Holds (msg ++ data) ∧
      ctx'.buflen = 0 := by
  obtain ⟨ctx', done, hmsg, hret, hholds, hbuflen⟩ := shaProcessBlock_full (o := o) h hlen
  rw [hzero, List.take_zero, List.append_nil] at hmsg hholds
  exact ⟨ctx', hret, hmsg ▸ hholds, hbuflen.trans hzero⟩

/-- A piece of 512 bytes, with none pending. -/
theorem shaBlock_full (h : ctx.Holds msg) (hzero : ctx.buflen = 0) (hlen : data.length = 512) :
    ∃ ctx', shaBlock o ctx (some data) data.length = .returned (none, ctx') ∧
      ctx'.Holds (msg ++ data) ∧ ctx'.buflen = 0 := by
  have hload : load data 0 512 = .returned data := by
    have hall := load_eq data 0 512 (by omega)
    rwa [List.drop_zero, List.take_of_length_le (by omega)] at hall
  obtain ⟨ctx', hret, hnext⟩ := shaProcessBlock_next (o := o) h hzero hlen
  refine ⟨ctx', ?_, hnext⟩
  rw [shaBlock, if_pos (by omega), hload, Outcome.returned_bind, hret]
  rfl

/-- Pieces of 512 bytes, and then others. -/
theorem shaBlockPieces_spec {full rest : List Bytes} (h : ctx.Holds msg)
    (hzero : full ≠ [] → ctx.buflen = 0) (hfull : ∀ piece ∈ full, piece.length = 512)
    (hrest : ∀ piece ∈ rest, piece.length < 2 ^ 31 ∧ piece.length ≠ 512) :
    shaBlockPieces o ctx (full ++ rest) =
      .returned (some (sha1 (msg ++ (full ++ rest).flatten))) := by
  induction full generalizing ctx msg with
  | nil =>
      rw [List.nil_append]
      clear hzero hfull
      induction rest generalizing ctx msg with
      | nil =>
          obtain ⟨ctx', hfinish⟩ := shaFinishCtx_spec (o := o) h
          rw [shaBlockPieces, shaBlock, if_neg (by omega), if_neg (by omega), hfinish,
            List.flatten_nil, List.append_nil]
          rfl
      | cons piece rest ih =>
          obtain ⟨hlt, hne⟩ := hrest piece List.mem_cons_self
          obtain ⟨ctx', hret, hholds⟩ := shaBlock_bytes (o := o) h hlt hne
          rw [shaBlockPieces, hret, Outcome.returned_bind,
            ih (fun p hp => hrest p (List.mem_cons_of_mem _ hp)) hholds, List.flatten_cons,
            List.append_assoc]
  | cons piece full ih =>
      obtain ⟨ctx', hret, hholds, hbuflen⟩ := shaBlock_full (o := o) h
        (hzero (List.cons_ne_nil _ _)) (hfull piece List.mem_cons_self)
      rw [List.cons_append, shaBlockPieces, hret, Outcome.returned_bind,
        ih hholds (fun _ => hbuflen) (fun p hp => hfull p (List.mem_cons_of_mem _ hp)),
        List.flatten_cons, List.append_assoc]

/-- The digest of `sha_block` is the one of the message if no piece of 512 bytes
comes behind a piece of another length. -/
theorem shaBlockPieces_eq (o : ByteOrder) (ctx : ShaCtx) {full rest : List Bytes}
    (hfull : ∀ piece ∈ full, piece.length = 512)
    (hrest : ∀ piece ∈ rest, piece.length < 2 ^ 31 ∧ piece.length ≠ 512) :
    shaBlockPieces o (shaInitCtx ctx) (full ++ rest) =
      .returned (some (sha1 (full ++ rest).flatten)) := by
  have h := shaBlockPieces_spec (o := o) (holds_shaInitCtx ctx) (fun _ => rfl) hfull hrest
  rwa [List.nil_append] at h

/-- A full block and a part of one. -/
theorem shaBlockPieces_eq_two :
    shaBlockPieces .big (shaInitCtx ⟨Regs.start, ⟨0, 0⟩, 0, CField.zero 128⟩)
        ([List.replicate 512 7] ++ [[97, 98, 99]]) =
      .returned (some (sha1 ([List.replicate 512 7] ++ [[97, 98, 99]] : List Bytes).flatten)) :=
  shaBlockPieces_eq .big ⟨Regs.start, ⟨0, 0⟩, 0, CField.zero 128⟩
    (fun piece hpiece => by rw [List.mem_singleton.mp hpiece, List.length_replicate])
    (fun piece hpiece => by rw [List.mem_singleton.mp hpiece]; decide)

/-! ## A stream -/

/-- The loop of `sha_stream`: the digest, unless a read fails. -/
def shaStreamLoop (o : ByteOrder) (ifd : Source) (ctx : ShaCtx) : Outcome (Option Bytes) :=
  let r := Source.fill 512 ifd []
  if r.1 < 0 then .returned none
  else if 0 < r.1 then
    shaProcessBlock o r.2.1 512 ctx >>= fun ctx => shaStreamLoop o r.2.2 ctx
  else
    (if r.2.1.length > 0 then shaProcessBytes o r.2.1 ctx else .returned ctx) >>= fun ctx =>
      shaFinishCtx o ctx >>= fun e => .returned (some e.1)
termination_by ifd.rest.length
decreasing_by
  next h => exact Source.length_rest_fill_lt h

/-- `sha_stream`, with the context on its stack. -/
def shaStream (o : ByteOrder) (ifd : Source) (ctx : ShaCtx) : Outcome (Option Bytes) :=
  shaStreamLoop o ifd (shaInitCtx ctx)

theorem shaStreamLoop_spec {ifd : Source} (hrel : ifd.Reliable) (h : ctx.Holds msg)
    (hzero : ctx.buflen = 0) :
    shaStreamLoop o ifd ctx = .returned (some (sha1 (msg ++ ifd.rest))) := by
  induction hn : ifd.rest.length using Nat.strong_induction_on generalizing ifd ctx msg with
  | _ k ih =>
      obtain ⟨n, fd', hfill, hnonneg, hiff, hdrop, hnext⟩ :=
        Source.fill_spec hrel (show ([] : Bytes).length < 512 by decide)
      rw [List.length_nil, Nat.sub_zero, List.nil_append] at hfill
      rw [List.length_nil, Nat.zero_add] at hiff
      rw [List.length_nil, Nat.sub_zero] at hdrop
      rw [shaStreamLoop, hfill]
      dsimp only
      rw [if_neg (by omega)]
      split
      next hpos =>
        have hlen : (ifd.rest.take 512).length = 512 := by
          rw [List.length_take]
          omega
        obtain ⟨ctx', hret, hholds, hbuflen⟩ := shaProcessBlock_next (o := o) h hzero hlen
        rw [hret, Outcome.returned_bind, ih fd'.rest.length (by rw [hdrop, List.length_drop]; omega)
          hnext hholds hbuflen rfl, hdrop, List.append_assoc, List.take_append_drop]
      next hend =>
        -- the last bytes
        have hall : ifd.rest.take 512 = ifd.rest := List.take_of_length_le (by omega)
        rw [hall]
        by_cases hnil : ifd.rest.length > 0
        · obtain ⟨ctx₁, hret, hholds⟩ := shaProcessBytes_spec (o := o) h
            (show ifd.rest.length < 2 ^ 32 by omega)
          obtain ⟨ctx₂, hfinish⟩ := shaFinishCtx_spec (o := o) hholds
          rw [if_pos hnil, hret, Outcome.returned_bind, hfinish]
          rfl
        · have hempty : ifd.rest = [] := List.length_eq_zero_iff.mp (by omega)
          obtain ⟨ctx₂, hfinish⟩ := shaFinishCtx_spec (o := o) h
          rw [if_neg hnil, Outcome.returned_bind, hfinish, hempty, List.append_nil]
          rfl

/-- The digest of a stream, however its reads cut it. -/
theorem shaStream_eq (o : ByteOrder) (ctx : ShaCtx) {ifd : Source} (hrel : ifd.Reliable) :
    shaStream o ifd ctx = .returned (some (sha1 ifd.rest)) := by
  rw [shaStream, shaStreamLoop_spec hrel (holds_shaInitCtx ctx) rfl, List.nil_append]

/-- Five bytes, two a read. -/
theorem shaStream_eq_five :
    shaStream .little ⟨⟨fun _ => 2, fun _ => by decide⟩, 0, [104, 101, 108, 108, 111], false⟩
        ⟨Regs.start, ⟨0, 0⟩, 0, CField.zero 128⟩ =
      .returned (some (sha1 [104, 101, 108, 108, 111])) :=
  shaStream_eq .little _ (fun _ => (by decide : (0 : Int) < 2))

end Swbis.Misc.Sha
