import Mathlib.Algebra.CharP.Two
import Mathlib.Algebra.Field.ZMod
import Mathlib.RingTheory.AdjoinRoot
import Swbis.Lib.CString

/-!
# Cyclic redundancy checks

The remainder of a message by a polynomial over the field with two elements, in a
register of `w` bits.  `g` holds the generator without its highest power.  A byte enters
at the high end of the register, and eight steps move it out (`byteStep`); a program
that looks these steps up in a table does the same (`byteStep_table`).

The register is the remainder of the message times the highest power of the generator
(`poly_run`).  So a register that is right for one message is wrong for every other
message of the same length that differs from it in no more than `w` bits in a row
(`run_ne_of_burst`).
-/

namespace CLib.Crc

open Polynomial

/-! ## Bits as coefficients -/

section Poly

variable {w : Nat}

/-- The polynomial whose coefficients are the bits of a word. -/
noncomputable def poly (r : BitVec w) : (ZMod 2)[X] :=
  ∑ i ∈ Finset.range w, if r.getLsbD i then X ^ i else 0

theorem coeff_poly (r : BitVec w) (i : Nat) :
    (poly r).coeff i = if r.getLsbD i then 1 else 0 := by
  rw [poly, finsetSum_coeff]
  have hterm : ∀ j ∈ Finset.range w, (if r.getLsbD j then (X : (ZMod 2)[X]) ^ j else 0).coeff i =
      if j = i then (if r.getLsbD i then 1 else 0) else 0 := by
    intro j _
    split
    next hbit =>
      rw [coeff_X_pow]
      by_cases hij : i = j
      · rw [if_pos hij, if_pos hij.symm, hij, if_pos hbit]
      · rw [if_neg hij, if_neg (Ne.symm hij)]
    next hbit =>
      rw [coeff_zero]
      split
      next hij => rw [← hij, if_neg hbit]
      next => rfl
  rw [Finset.sum_congr rfl hterm, Finset.sum_ite_eq']
  split
  next => rfl
  next hout =>
    rw [Finset.mem_range, Nat.not_lt] at hout
    rw [BitVec.getLsbD_of_ge r i hout, if_neg (by decide)]

@[simp] theorem poly_zero : poly (0#w) = 0 := by
  ext i
  rw [coeff_poly, BitVec.getLsbD_zero, if_neg (by decide), coeff_zero]

/-- Exclusive or is the sum. -/
theorem poly_xor (r s : BitVec w) : poly (r ^^^ s) = poly r + poly s := by
  ext i
  rw [coeff_add, coeff_poly, coeff_poly, coeff_poly, BitVec.getLsbD_xor]
  cases r.getLsbD i
  · cases s.getLsbD i
    · rfl
    · rfl
  · cases s.getLsbD i
    · rfl
    · rfl

theorem degree_poly_lt (r : BitVec w) : (poly r).degree < w := by
  rw [degree_lt_iff_coeff_zero]
  intro i hi
  rw [coeff_poly, BitVec.getLsbD_of_ge r i hi, if_neg (by decide)]

/-- A step to the left is the product with the variable, less the highest power. -/
theorem X_mul_poly (r : BitVec w) :
    X * poly r = poly (r <<< 1) + if r.msb then X ^ w else 0 := by
  have hmsb : r.msb = r.getLsbD (w - 1) := BitVec.msb_eq_getLsbD_last r
  ext i
  rw [coeff_add, coeff_poly, BitVec.getLsbD_shiftLeft]
  cases i with
  | zero =>
      rw [coeff_X_mul_zero]
      simp only [Nat.lt_one_iff, decide_true, Bool.not_true, Bool.and_false, Bool.false_and,
        Bool.false_eq_true, if_false, zero_add]
      split
      next hset =>
        rw [coeff_X_pow, if_neg]
        rintro rfl
        rw [hmsb, BitVec.getLsbD_of_ge r _ (Nat.zero_le _)] at hset
        cases hset
      next => rfl
  | succ i =>
      rw [coeff_X_mul, coeff_poly]
      simp only [Nat.add_sub_cancel, Nat.not_lt.mpr (Nat.le_add_left 1 i), decide_false,
        Bool.not_false, Bool.and_true]
      rcases Nat.lt_trichotomy (i + 1) w with hlt | heq | hgt
      · have hpow : (if r.msb then (X : (ZMod 2)[X]) ^ w else 0).coeff (i + 1) = 0 := by
          split
          · rw [coeff_X_pow, if_neg (Nat.ne_of_lt hlt)]
          · rfl
        rw [hpow, add_zero, decide_eq_true hlt, Bool.true_and]
      · have hlast : w - 1 = i := by omega
        have hout : decide (i + 1 < w) = false := decide_eq_false (by omega)
        rw [hmsb, hlast, hout, Bool.false_and, if_neg Bool.false_ne_true, zero_add]
        split
        · rw [coeff_X_pow, if_pos heq]
        · rfl
      · have hout : decide (i + 1 < w) = false := decide_eq_false (by omega)
        have hpow : (if r.msb then (X : (ZMod 2)[X]) ^ w else 0).coeff (i + 1) = 0 := by
          split
          · rw [coeff_X_pow, if_neg (by omega)]
          · rfl
        rw [hpow, hout, BitVec.getLsbD_of_ge r i (by omega), Bool.false_and, add_zero]

end Poly

/-! ## The register -/

section Register

variable {w : Nat} (g : BitVec w)

/-- The generator with its highest power. -/
noncomputable def generator : (ZMod 2)[X] := X ^ w + poly g

theorem generator_monic : (generator g).Monic := monic_X_pow_add (degree_poly_lt g)

theorem degree_generator : (generator g).degree = w := by
  rw [generator, degree_add_eq_left_of_degree_lt, degree_X_pow]
  rw [degree_X_pow]
  exact degree_poly_lt g

/-- A step of the register. -/
def step (r : BitVec w) : BitVec w := (r <<< 1) ^^^ if r.msb then g else 0

/-- Steps of the register. -/
def steps : Nat → BitVec w → BitVec w
  | 0, r => r
  | n + 1, r => steps n (step g r)

/-- A step is linear. -/
theorem step_xor (r s : BitVec w) : step g (r ^^^ s) = step g r ^^^ step g s := by
  have hmask : (if (r ^^^ s).msb then g else 0) =
      (if r.msb then g else 0) ^^^ if s.msb then g else 0 := by
    rw [BitVec.msb_xor]
    cases r.msb
    · cases s.msb
      · exact (BitVec.xor_zero).symm
      · exact (BitVec.zero_xor).symm
    · cases s.msb
      · exact (BitVec.xor_zero).symm
      · exact (BitVec.xor_self).symm
  rw [step, step, step, BitVec.shiftLeft_xor_distrib, hmask]
  ac_rfl

theorem steps_xor (n : Nat) (r s : BitVec w) :
    steps g n (r ^^^ s) = steps g n r ^^^ steps g n s := by
  induction n generalizing r s with
  | zero => rfl
  | succ n ih => rw [steps, steps, steps, step_xor, ih]

/-- The bits that do not reach the high end are shifted. -/
theorem steps_eq_shiftLeft {n : Nat} {r : BitVec w} (h : r.toNat < 2 ^ (w - n)) (hn : n ≤ w) :
    steps g n r = r <<< n := by
  induction n generalizing r with
  | zero => exact (BitVec.shiftLeft_zero r).symm
  | succ n ih =>
      have hlow : r.toNat < 2 ^ (w - 1) :=
        Nat.lt_of_lt_of_le h (Nat.pow_le_pow_right (by decide) (by omega))
      have hmsb : r.msb = false := by
        rw [BitVec.msb_eq_decide]
        exact decide_eq_false (Nat.not_le.mpr hlow)
      have hstep : step g r = r <<< 1 := by
        rw [step, hmsb]
        exact BitVec.xor_zero
      have hdouble : 2 ^ w = 2 * 2 ^ (w - 1) := by
        rw [← Nat.pow_succ', Nat.succ_eq_add_one, Nat.sub_add_cancel (by omega)]
      have hpow : 2 ^ (w - n) = 2 * 2 ^ (w - (n + 1)) := by
        rw [← Nat.pow_succ', Nat.succ_eq_add_one]
        congr 1
        omega
      have hnat : (r <<< 1).toNat = 2 * r.toNat := by
        rw [BitVec.toNat_shiftLeft, Nat.shiftLeft_eq, Nat.mod_eq_of_lt (by omega), Nat.pow_one,
          Nat.mul_comm]
      rw [steps, hstep, ih (by omega) (by omega), ← BitVec.shiftLeft_add, Nat.add_comm]

/-- A byte enters at the high end. -/
def byteStep (r : BitVec w) (b : BitVec 8) : BitVec w :=
  steps g 8 (r ^^^ (b.setWidth w <<< (w - 8)))

/-- A message from an empty register. -/
def run (r : BitVec w) (msg : Bytes) : BitVec w := msg.foldl (fun r b => byteStep g r b.toBitVec) r

/-- The byte at the high end. -/
theorem xor_high_lt (hw : 8 ≤ w) (r : BitVec w) :
    (r ^^^ (((r >>> (w - 8)).setWidth 8).setWidth w <<< (w - 8))).toNat < 2 ^ (w - 8) := by
  refine Nat.lt_pow_two_of_testBit _ fun i hi => ?_
  rw [BitVec.testBit_toNat, BitVec.getLsbD_xor]
  rcases Nat.lt_or_ge i w with hlt | hge
  · have hbyte : (((r >>> (w - 8)).setWidth 8).setWidth w <<< (w - 8)).getLsbD i = r.getLsbD i := by
      rw [BitVec.getLsbD_shiftLeft, BitVec.getLsbD_setWidth, BitVec.getLsbD_setWidth,
        BitVec.getLsbD_ushiftRight, decide_eq_true hlt, decide_eq_false (Nat.not_lt.mpr hi),
        decide_eq_true (show i - (w - 8) < w by omega),
        decide_eq_true (show i - (w - 8) < 8 by omega), Nat.add_sub_cancel' hi]
      simp only [Bool.not_false, Bool.true_and]
    rw [hbyte, Bool.xor_self]
  · rw [BitVec.getLsbD_of_ge _ i hge, BitVec.getLsbD_of_ge _ i hge, Bool.xor_self]

/-- **A table of the bytes at the high end takes the place of the eight steps.** -/
theorem byteStep_table (hw : 8 ≤ w) (r : BitVec w) (b : BitVec 8) :
    byteStep g r b = (r <<< 8) ^^^ byteStep g 0#w ((r >>> (w - 8)).setWidth 8 ^^^ b) := by
  generalize htop : (r >>> (w - 8)).setWidth 8 = t
  have hlow := xor_high_lt hw r
  rw [htop] at hlow
  have hsplit : r ^^^ (b.setWidth w <<< (w - 8)) = (r ^^^ (t.setWidth w <<< (w - 8))) ^^^
      (0#w ^^^ ((t ^^^ b).setWidth w <<< (w - 8))) := by
    rw [BitVec.setWidth_xor, BitVec.shiftLeft_xor_distrib, BitVec.zero_xor, BitVec.xor_assoc,
      ← BitVec.xor_assoc (t.setWidth w <<< (w - 8)), BitVec.xor_self, BitVec.zero_xor]
  have hout : (t.setWidth w <<< (w - 8)) <<< 8 = 0#w := by
    rw [← BitVec.shiftLeft_add, Nat.sub_add_cancel hw]
    exact BitVec.shiftLeft_eq_zero (Nat.le_refl w)
  rw [byteStep, hsplit, steps_xor, steps_eq_shiftLeft g hlow hw, BitVec.shiftLeft_xor_distrib,
    hout, BitVec.xor_zero, byteStep]

/-! ## The remainder -/

/-- A step multiplies by the variable. -/
theorem mk_step (r : BitVec w) : AdjoinRoot.mk (generator g) (poly (step g r)) =
    AdjoinRoot.mk (generator g) (X * poly r) := by
  rw [AdjoinRoot.mk_eq_mk, X_mul_poly, step, poly_xor]
  have htwo : ∀ p : (ZMod 2)[X], -p = p := fun p => CharTwo.neg_eq p
  cases r.msb
  · refine ⟨0, ?_⟩
    simp
  · refine ⟨1, ?_⟩
    simp only [if_true, generator]
    rw [add_sub_add_left_eq_sub, sub_eq_add_neg, htwo, mul_one, add_comm]

theorem mk_steps (n : Nat) (r : BitVec w) : AdjoinRoot.mk (generator g) (poly (steps g n r)) =
    AdjoinRoot.mk (generator g) (X ^ n * poly r) := by
  induction n generalizing r with
  | zero => rw [steps, pow_zero, one_mul]
  | succ n ih => rw [steps, ih, map_mul, mk_step, ← map_mul, ← mul_assoc, ← pow_succ]

/-- A byte at the high end. -/
theorem poly_setWidth_shiftLeft (hw : 8 ≤ w) (b : BitVec 8) :
    poly (b.setWidth w <<< (w - 8)) = X ^ (w - 8) * poly b := by
  ext i
  rw [coeff_poly, coeff_X_pow_mul', BitVec.getLsbD_shiftLeft]
  by_cases hle : w - 8 ≤ i
  · rw [if_pos hle, coeff_poly, BitVec.getLsbD_setWidth, decide_eq_false (Nat.not_lt.mpr hle),
      Bool.not_false, Bool.and_true]
    rcases Nat.lt_or_ge i w with hlt | hge
    · rw [decide_eq_true hlt, decide_eq_true (show i - (w - 8) < w by omega), Bool.true_and,
        Bool.true_and]
    · rw [decide_eq_false (Nat.not_lt.mpr hge), Bool.false_and,
        BitVec.getLsbD_of_ge b _ (by omega)]
  · rw [if_neg hle, decide_eq_true (Nat.not_le.mp hle), Bool.not_true, Bool.and_false,
      Bool.false_and, if_neg Bool.false_ne_true]

/-- The message as a polynomial: the first bit has the highest power. -/
noncomputable def message (msg : Bytes) : (ZMod 2)[X] :=
  msg.foldl (fun p b => X ^ 8 * p + poly b.toBitVec) 0

theorem mk_run (hw : 8 ≤ w) (r : BitVec w) (msg : Bytes) (p : (ZMod 2)[X])
    (h : AdjoinRoot.mk (generator g) (poly r) = AdjoinRoot.mk (generator g) (p * X ^ w)) :
    AdjoinRoot.mk (generator g) (poly (run g r msg)) = AdjoinRoot.mk (generator g)
      (msg.foldl (fun p b => X ^ 8 * p + poly b.toBitVec) p * X ^ w) := by
  induction msg generalizing r p with
  | nil => exact h
  | cons b msg ih =>
      refine ih (byteStep g r b.toBitVec) (X ^ 8 * p + poly b.toBitVec) ?_
      rw [byteStep, mk_steps, poly_xor, poly_setWidth_shiftLeft hw, mul_add, map_add, map_mul, h,
        ← map_mul, ← map_add]
      congr 1
      have hpow : (X : (ZMod 2)[X]) ^ w = X ^ 8 * X ^ (w - 8) := by
        rw [← pow_add, Nat.add_sub_cancel' hw]
      rw [hpow]
      ring

/-- **The register holds the remainder of the message.** -/
theorem poly_run (hw : 8 ≤ w) (msg : Bytes) :
    poly (run g 0#w msg) = (message msg * X ^ w) %ₘ generator g := by
  have hmk := mk_run g hw 0#w msg 0 (by rw [zero_mul, poly_zero])
  rw [AdjoinRoot.mk_eq_mk] at hmk
  have hself : poly (run g 0#w msg) %ₘ generator g = poly (run g 0#w msg) := by
    rw [modByMonic_eq_self_iff (generator_monic g), degree_generator]
    exact degree_poly_lt _
  rw [← hself]
  exact modByMonic_eq_of_dvd_sub (generator_monic g) hmk

/-! ## Bursts -/

/-- The polynomial of some bits: the first bit has the highest power. -/
noncomputable def bitPoly (bits : List Bool) : (ZMod 2)[X] :=
  bits.foldl (fun p b => X * p + if b then 1 else 0) 0

theorem bitPoly_concat (bits : List Bool) (b : Bool) :
    bitPoly (bits ++ [b]) = X * bitPoly bits + if b then 1 else 0 := by
  rw [bitPoly, List.foldl_append]
  rfl

theorem coeff_bitPoly (bits : List Bool) (i : Nat) :
    (bitPoly bits).coeff i = if bits.reverse[i]? = some true then 1 else 0 := by
  induction bits using List.reverseRecOn generalizing i with
  | nil => rw [bitPoly, List.foldl_nil, coeff_zero, List.reverse_nil, List.getElem?_nil,
      if_neg nofun]
  | append_singleton bits b ih =>
      rw [bitPoly_concat, coeff_add, List.reverse_concat]
      cases i with
      | zero =>
          rw [coeff_X_mul_zero, zero_add, List.getElem?_cons_zero]
          cases b
          · rw [if_neg Bool.false_ne_true, if_neg (by decide), coeff_zero]
          · rw [if_pos rfl, if_pos rfl, coeff_one_zero]
      | succ i =>
          have hconst : (if b then (1 : (ZMod 2)[X]) else 0).coeff (i + 1) = 0 := by
            cases b
            · exact coeff_zero _
            · exact coeff_one.trans (if_neg (Nat.succ_ne_zero i))
          rw [coeff_X_mul, ih, hconst, add_zero, List.getElem?_cons_succ]

theorem degree_bitPoly_lt (bits : List Bool) : (bitPoly bits).degree < bits.length := by
  rw [degree_lt_iff_coeff_zero]
  intro i hi
  rw [coeff_bitPoly, List.getElem?_eq_none (by rwa [List.length_reverse]), if_neg nofun]

/-- Bits in front of others. -/
theorem bitPoly_append (front bits : List Bool) :
    bitPoly (front ++ bits) = X ^ bits.length * bitPoly front + bitPoly bits := by
  induction bits using List.reverseRecOn with
  | nil => rw [List.append_nil, List.length_nil, pow_zero, one_mul, bitPoly, bitPoly,
      List.foldl_nil, add_zero]
  | append_singleton bits b ih =>
      rw [← List.append_assoc, bitPoly_concat, bitPoly_concat, ih, List.length_append,
        List.length_singleton, pow_succ]
      ring

/-- Bits of one length are known from their polynomial. -/
theorem eq_of_bitPoly {x y : List Bool} (hlen : x.length = y.length)
    (h : bitPoly x = bitPoly y) : x = y := by
  refine List.reverse_injective (List.ext_getElem (by simpa using hlen) fun i hx hy => ?_)
  have hcoeff : (bitPoly x).coeff i = (bitPoly y).coeff i := by rw [h]
  rw [coeff_bitPoly, coeff_bitPoly, List.getElem?_eq_getElem hx, List.getElem?_eq_getElem hy]
    at hcoeff
  cases hbx : x.reverse[i]
  · cases hby : y.reverse[i]
    · rfl
    · rw [hbx, hby] at hcoeff
      exact absurd hcoeff (by decide)
  · cases hby : y.reverse[i]
    · rw [hbx, hby] at hcoeff
      exact absurd hcoeff (by decide)
    · rfl

/-- The bits of a byte, the high one first. -/
def byteBits (b : UInt8) : List Bool := ((List.range 8).map b.toBitVec.getLsbD).reverse

/-- The bits of a message, as they enter the register. -/
def msgBits (msg : Bytes) : List Bool := msg.flatMap byteBits

theorem msgBits_append (msg rest : Bytes) : msgBits (msg ++ rest) = msgBits msg ++ msgBits rest :=
  List.flatMap_append

theorem length_byteBits (b : UInt8) : (byteBits b).length = 8 := by
  rw [byteBits, List.length_reverse, List.length_map, List.length_range]

theorem length_msgBits (msg : Bytes) : (msgBits msg).length = 8 * msg.length := by
  induction msg with
  | nil => rfl
  | cons b msg ih =>
      rw [msgBits, List.flatMap_cons, List.length_append, ← msgBits, ih, length_byteBits,
        List.length_cons]
      omega

theorem bitPoly_byteBits (b : UInt8) : bitPoly (byteBits b) = poly b.toBitVec := by
  ext i
  rw [coeff_bitPoly, coeff_poly, byteBits, List.reverse_reverse, List.getElem?_map]
  rcases Nat.lt_or_ge i 8 with hlt | hge
  · rw [List.getElem?_range hlt, Option.map_some]
    exact if_congr Option.some_inj rfl rfl
  · rw [List.getElem?_eq_none (by rwa [List.length_range]), Option.map_none,
      BitVec.getLsbD_of_ge _ i hge, if_neg nofun, if_neg Bool.false_ne_true]

theorem message_eq (msg : Bytes) : message msg = bitPoly (msgBits msg) := by
  induction msg using List.reverseRecOn with
  | nil => rfl
  | append_singleton msg b ih =>
      have hlast : msgBits [b] = byteBits b := List.append_nil _
      rw [msgBits_append, bitPoly_append, ← ih, hlast, length_byteBits, bitPoly_byteBits, message,
        List.foldl_append]
      rfl

/-- The lowest coefficient keeps the generator apart from the powers of the variable. -/
theorem isCoprime_generator (hpos : 0 < w) (hg : g.getLsbD 0 = true) :
    IsCoprime (generator g) X := by
  have hcoeff : (generator g).coeff 0 = 1 := by
    rw [generator, coeff_add, coeff_X_pow, if_neg (Nat.ne_of_lt hpos), zero_add, coeff_poly,
      if_pos hg]
  refine ⟨1, -(generator g).divX, ?_⟩
  have hdiv := divX_mul_X_add (generator g)
  rw [hcoeff, C_1] at hdiv
  calc 1 * generator g + -(generator g).divX * X
      = generator g - (generator g).divX * X := by ring
    _ = 1 := sub_eq_of_eq_add' hdiv.symm

/-- **A burst no longer than the register is seen.** -/
theorem run_ne_of_burst (hw : 8 ≤ w) (hg : g.getLsbD 0 = true) {a b : Bytes}
    {front x y rest : List Bool} (ha : msgBits a = front ++ x ++ rest)
    (hb : msgBits b = front ++ y ++ rest) (hlen : x.length = y.length) (hle : x.length ≤ w)
    (hne : x ≠ y) : run g 0#w a ≠ run g 0#w b := by
  intro heq
  have hmod : (message a * X ^ w) %ₘ generator g = (message b * X ^ w) %ₘ generator g := by
    rw [← poly_run g hw, ← poly_run g hw, heq]
  have hdvd : generator g ∣ message a * X ^ w - message b * X ^ w := by
    rw [← modByMonic_eq_zero_iff_dvd (generator_monic g), sub_modByMonic, hmod, sub_self]
  have hdiff : message a * X ^ w - message b * X ^ w =
      (bitPoly x - bitPoly y) * X ^ (rest.length + w) := by
    rw [message_eq, message_eq, ha, hb, bitPoly_append, bitPoly_append front x,
      bitPoly_append _ rest, bitPoly_append front y, hlen, pow_add]
    ring
  rw [hdiff] at hdvd
  have hburst := ((isCoprime_generator g (by omega) hg).pow_right).dvd_of_dvd_mul_right hdvd
  refine hne (eq_of_bitPoly hlen (sub_eq_zero.mp ?_))
  by_contra hnz
  refine (generator_monic g).not_dvd_of_degree_lt hnz ?_ hburst
  rw [degree_generator]
  refine lt_of_lt_of_le (lt_of_le_of_lt (degree_sub_le _ _) (max_lt (degree_bitPoly_lt x) ?_))
    (Nat.cast_le.mpr hle)
  rw [hlen]
  exact degree_bitPoly_lt y

end Register

end CLib.Crc
