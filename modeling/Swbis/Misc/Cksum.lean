import Mathlib.Data.Nat.Digits.Defs
import Swbis.Lib.Crc
import Swbis.Lib.FullRead

/-!
# `swlib_cksum`

The checksum of POSIX: the bytes of a file, and then its length, low byte first, enter
a register, by a table of 256 constants.  The register is an `unsigned long` that is
never cut down to 32 bits before the end, and the comment that begins the source names
the polynomial `G (X)`.

`swlibCksum_remainder` says that the complement of the result is the remainder by
`G (X)`.  `swlibCksum_ne_of_burst` is what this is good for: of two files of one
length that differ in no more than 32 bits in a row, not both have the checksum that
is recorded.

`swlib_bsd_sum_from_mem` is left out.
-/

namespace Swbis.Misc.Cksum

open CLib Polynomial

/-! ## The table -/

/-- `BIT (x)` -/
def bit (x : Nat) : BitVec 64 := 1#64 <<< x

/-- `SBIT` -/
def sbit : BitVec 64 := bit 31

/-- `GEN` -/
def gen : BitVec 64 :=
  bit 26 ||| bit 23 ||| bit 22 ||| bit 16 ||| bit 12 ||| bit 11 ||| bit 10 |||
    bit 8 ||| bit 7 ||| bit 5 ||| bit 4 ||| bit 2 ||| bit 1 ||| bit 0

/-- `r[i]`, after `fill_r` -/
def fillR : Nat → BitVec 64
  | 0 => gen
  | i + 1 => if fillR i &&& sbit ≠ 0 then (fillR i <<< 1) ^^^ fillR 0 else fillR i <<< 1

/-- `remainder` -/
def remainder (m : BitVec 64) : BitVec 64 :=
  (List.range 8).foldl (fun rem i => if bit i &&& m ≠ 0 then rem ^^^ fillR i else rem) 0 &&&
    0xFFFFFFFF

/-- `crctab` -/
def crctab : Array (BitVec 64) :=
  #[0x0,
    0x04C11DB7, 0x09823B6E, 0x0D4326D9, 0x130476DC, 0x17C56B6B,
    0x1A864DB2, 0x1E475005, 0x2608EDB8, 0x22C9F00F, 0x2F8AD6D6,
    0x2B4BCB61, 0x350C9B64, 0x31CD86D3, 0x3C8EA00A, 0x384FBDBD,
    0x4C11DB70, 0x48D0C6C7, 0x4593E01E, 0x4152FDA9, 0x5F15ADAC,
    0x5BD4B01B, 0x569796C2, 0x52568B75, 0x6A1936C8, 0x6ED82B7F,
    0x639B0DA6, 0x675A1011, 0x791D4014, 0x7DDC5DA3, 0x709F7B7A,
    0x745E66CD, 0x9823B6E0, 0x9CE2AB57, 0x91A18D8E, 0x95609039,
    0x8B27C03C, 0x8FE6DD8B, 0x82A5FB52, 0x8664E6E5, 0xBE2B5B58,
    0xBAEA46EF, 0xB7A96036, 0xB3687D81, 0xAD2F2D84, 0xA9EE3033,
    0xA4AD16EA, 0xA06C0B5D, 0xD4326D90, 0xD0F37027, 0xDDB056FE,
    0xD9714B49, 0xC7361B4C, 0xC3F706FB, 0xCEB42022, 0xCA753D95,
    0xF23A8028, 0xF6FB9D9F, 0xFBB8BB46, 0xFF79A6F1, 0xE13EF6F4,
    0xE5FFEB43, 0xE8BCCD9A, 0xEC7DD02D, 0x34867077, 0x30476DC0,
    0x3D044B19, 0x39C556AE, 0x278206AB, 0x23431B1C, 0x2E003DC5,
    0x2AC12072, 0x128E9DCF, 0x164F8078, 0x1B0CA6A1, 0x1FCDBB16,
    0x018AEB13, 0x054BF6A4, 0x0808D07D, 0x0CC9CDCA, 0x7897AB07,
    0x7C56B6B0, 0x71159069, 0x75D48DDE, 0x6B93DDDB, 0x6F52C06C,
    0x6211E6B5, 0x66D0FB02, 0x5E9F46BF, 0x5A5E5B08, 0x571D7DD1,
    0x53DC6066, 0x4D9B3063, 0x495A2DD4, 0x44190B0D, 0x40D816BA,
    0xACA5C697, 0xA864DB20, 0xA527FDF9, 0xA1E6E04E, 0xBFA1B04B,
    0xBB60ADFC, 0xB6238B25, 0xB2E29692, 0x8AAD2B2F, 0x8E6C3698,
    0x832F1041, 0x87EE0DF6, 0x99A95DF3, 0x9D684044, 0x902B669D,
    0x94EA7B2A, 0xE0B41DE7, 0xE4750050, 0xE9362689, 0xEDF73B3E,
    0xF3B06B3B, 0xF771768C, 0xFA325055, 0xFEF34DE2, 0xC6BCF05F,
    0xC27DEDE8, 0xCF3ECB31, 0xCBFFD686, 0xD5B88683, 0xD1799B34,
    0xDC3ABDED, 0xD8FBA05A, 0x690CE0EE, 0x6DCDFD59, 0x608EDB80,
    0x644FC637, 0x7A089632, 0x7EC98B85, 0x738AAD5C, 0x774BB0EB,
    0x4F040D56, 0x4BC510E1, 0x46863638, 0x42472B8F, 0x5C007B8A,
    0x58C1663D, 0x558240E4, 0x51435D53, 0x251D3B9E, 0x21DC2629,
    0x2C9F00F0, 0x285E1D47, 0x36194D42, 0x32D850F5, 0x3F9B762C,
    0x3B5A6B9B, 0x0315D626, 0x07D4CB91, 0x0A97ED48, 0x0E56F0FF,
    0x1011A0FA, 0x14D0BD4D, 0x19939B94, 0x1D528623, 0xF12F560E,
    0xF5EE4BB9, 0xF8AD6D60, 0xFC6C70D7, 0xE22B20D2, 0xE6EA3D65,
    0xEBA91BBC, 0xEF68060B, 0xD727BBB6, 0xD3E6A601, 0xDEA580D8,
    0xDA649D6F, 0xC423CD6A, 0xC0E2D0DD, 0xCDA1F604, 0xC960EBB3,
    0xBD3E8D7E, 0xB9FF90C9, 0xB4BCB610, 0xB07DABA7, 0xAE3AFBA2,
    0xAAFBE615, 0xA7B8C0CC, 0xA379DD7B, 0x9B3660C6, 0x9FF77D71,
    0x92B45BA8, 0x9675461F, 0x8832161A, 0x8CF30BAD, 0x81B02D74,
    0x857130C3, 0x5D8A9099, 0x594B8D2E, 0x5408ABF7, 0x50C9B640,
    0x4E8EE645, 0x4A4FFBF2, 0x470CDD2B, 0x43CDC09C, 0x7B827D21,
    0x7F436096, 0x7200464F, 0x76C15BF8, 0x68860BFD, 0x6C47164A,
    0x61043093, 0x65C52D24, 0x119B4BE9, 0x155A565E, 0x18197087,
    0x1CD86D30, 0x029F3D35, 0x065E2082, 0x0B1D065B, 0x0FDC1BEC,
    0x3793A651, 0x3352BBE6, 0x3E119D3F, 0x3AD08088, 0x2497D08D,
    0x2056CD3A, 0x2D15EBE3, 0x29D4F654, 0xC5A92679, 0xC1683BCE,
    0xCC2B1D17, 0xC8EA00A0, 0xD6AD50A5, 0xD26C4D12, 0xDF2F6BCB,
    0xDBEE767C, 0xE3A1CBC1, 0xE760D676, 0xEA23F0AF, 0xEEE2ED18,
    0xF0A5BD1D, 0xF464A0AA, 0xF9278673, 0xFDE69BC4, 0x89B8FD09,
    0x8D79E0BE, 0x803AC667, 0x84FBDBD0, 0x9ABC8BD5, 0x9E7D9662,
    0x933EB0BB, 0x97FFAD0C, 0xAFB010B1, 0xAB710D06, 0xA6322BDF,
    0xA2F33668, 0xBCB4666D, 0xB8757BDA, 0xB5365D03, 0xB1F740B4]

/-! ## `swlib_cksum` -/

/-- `BUFLEN` -/
def bufLen : Nat := 1 <<< 16

/-- `crc = (crc << 8) ^ crctab[((crc >> 24) ^ b) & 0xFF]` -/
def crcStep (crc b : BitVec 64) : BitVec 64 :=
  (crc <<< 8) ^^^ crctab.getD (((crc >>> 24) ^^^ b) &&& 0xFF#64).toNat 0

/-- The loop over the bytes of a buffer. -/
def bufferLoop (crc : BitVec 64) (buf : Bytes) : BitVec 64 :=
  buf.foldl (fun crc cp => crcStep crc (cp.toBitVec.setWidth 64)) crc

/-- The loop over the reads: the register and `file_length`. -/
def readLoop (fd : Source) (crc : BitVec 64) (fileLength : Int) : BitVec 64 × Int :=
  let r := fd.read bufLen
  if 0 < r.1 then readLoop r.2.2 (bufferLoop crc r.2.1) (fileLength + r.1)
  else (crc, fileLength)
termination_by fd.rest.length
decreasing_by
  next h => exact (Source.length_read h).2

/-- The loop over the bytes of the length. -/
def lengthLoop (bytesRead : Int) (crc : BitVec 64) : BitVec 64 :=
  if 0 < bytesRead then
    lengthLoop (bytesRead >>> (8 : Nat)) (crcStep crc (BitVec.ofInt 64 bytesRead))
  else crc
termination_by bytesRead.toNat
decreasing_by
  next h =>
    rw [Int.shiftRight_eq_div_pow]
    omega

/-- `swlib_cksum` -/
def swlibCksum (uxfioFd : Source) : BitVec 64 :=
  let (crc, fileLength) := readLoop uxfioFd 0 0
  ~~~(lengthLoop fileLength crc) &&& 0xFFFFFFFF

/-! ## The register -/

/-- `GEN` in 32 bits. -/
def gen32 : BitVec 32 := gen.setWidth 32

/-- The table is what the generating program prints. -/
theorem crctab_remainder (m : BitVec 8) : crctab.getD m.toNat 0 = remainder (m.setWidth 64) := by
  revert m
  decide +kernel

/-- The table holds eight steps of each byte. -/
theorem crctab_eq (m : BitVec 8) :
    crctab.getD m.toNat 0 = (Crc.byteStep gen32 0#32 m).setWidth 64 := by
  revert m
  decide +kernel

/-- `x & 0xFF` -/
theorem and_255 (x : BitVec 64) : (x &&& 0xFF#64).toNat = (x.setWidth 8).toNat := by
  rw [BitVec.toNat_and, BitVec.toNat_setWidth]
  exact Nat.and_two_pow_sub_one_eq_mod x.toNat 8

theorem setWidth_64_32 (r : BitVec 32) : (r.setWidth 64).setWidth 32 = r := by
  rw [BitVec.setWidth_setWidth_of_le r (by decide), BitVec.setWidth_eq]

/-- The bits above the lowest 32 do not reach them. -/
theorem setWidth_crcStep (crc b : BitVec 64) :
    (crcStep crc b).setWidth 32 = Crc.byteStep gen32 (crc.setWidth 32) (b.setWidth 8) := by
  have htop : (crc >>> 24).setWidth 8 = (crc.setWidth 32 >>> 24).setWidth 8 := by
    refine BitVec.eq_of_getLsbD_eq fun i hi => ?_
    rw [BitVec.getLsbD_setWidth, BitVec.getLsbD_setWidth, BitVec.getLsbD_ushiftRight,
      BitVec.getLsbD_ushiftRight, BitVec.getLsbD_setWidth,
      decide_eq_true (show 24 + i < 32 by omega), Bool.true_and]
  have hshift : (crc <<< 8).setWidth 32 = crc.setWidth 32 <<< 8 := by
    refine BitVec.eq_of_getLsbD_eq fun i hi => ?_
    rw [BitVec.getLsbD_setWidth, BitVec.getLsbD_shiftLeft, BitVec.getLsbD_shiftLeft,
      BitVec.getLsbD_setWidth, decide_eq_true hi, decide_eq_true (show i < 64 by omega),
      decide_eq_true (show i - 8 < 32 by omega)]
    simp only [Bool.true_and]
  rw [crcStep, and_255, crctab_eq, BitVec.setWidth_xor, setWidth_64_32, hshift,
    BitVec.setWidth_xor, htop, Crc.byteStep_table gen32 (by decide) (crc.setWidth 32)]

theorem setWidth_bufferLoop (crc : BitVec 64) (buf : Bytes) :
    (bufferLoop crc buf).setWidth 32 = Crc.run gen32 (crc.setWidth 32) buf := by
  induction buf generalizing crc with
  | nil => rfl
  | cons b buf ih =>
      have hbyte : (b.toBitVec.setWidth 64).setWidth 8 = b.toBitVec := by
        rw [BitVec.setWidth_setWidth_of_le _ (by decide), BitVec.setWidth_eq]
      rw [bufferLoop, List.foldl_cons, ← bufferLoop, ih, setWidth_crcStep, hbyte]
      rfl

theorem readLoop_spec (fd : Source) (crc : BitVec 64) (n : Int) :
    ((readLoop fd crc n).1.setWidth 32 = Crc.run gen32 (crc.setWidth 32)
        (fd.pattern.chunks bufLen fd.reads fd.rest).flatten) ∧
      (readLoop fd crc n).2 = n + (fd.pattern.chunks bufLen fd.reads fd.rest).flatten.length := by
  induction hn : fd.rest.length using Nat.strong_induction_on generalizing fd crc n with
  | _ k ih =>
      have hread : (fd.read bufLen).1 = fd.pattern.read fd.reads bufLen fd.rest := rfl
      rw [readLoop]
      by_cases hpos : 0 < fd.pattern.read fd.reads bufLen fd.rest
      · obtain ⟨hcrc, hlen⟩ := ih (fd.read bufLen).2.2.rest.length (by
          rw [← hn]
          exact (Source.length_read (hread ▸ hpos)).2) (fd.read bufLen).2.2
          (bufferLoop crc (fd.read bufLen).2.1) (n + (fd.read bufLen).1) rfl
        rw [if_pos (hread ▸ hpos), ReadPattern.chunks_of_pos hpos, List.flatten_cons,
          List.length_append]
        refine ⟨?_, ?_⟩
        · rw [hcrc, setWidth_bufferLoop, Crc.run, Crc.run, Crc.run, ← List.foldl_append]
          rfl
        · have hread' : (fd.read bufLen).1 =
              ((fd.rest.take (fd.pattern.read fd.reads bufLen fd.rest).toNat).length : Int) := by
            have hle : fd.pattern.read fd.reads bufLen fd.rest ≤ fd.rest.length := by
              rw [ReadPattern.read]
              omega
            rw [hread, List.length_take]
            omega
          rw [hlen, hread', Nat.cast_add, add_assoc]
          rfl
      · rw [if_neg (hread ▸ hpos), ReadPattern.chunks_of_nonpos (Int.not_lt.mp hpos),
          List.flatten_nil]
        exact ⟨rfl, (Int.add_zero n).symm⟩

/-- The bytes of a length, the lowest first. -/
def lengthBytes (n : Nat) : Bytes := (Nat.digits 256 n).map UInt8.ofNat

theorem setWidth_lengthLoop (n : Nat) (crc : BitVec 64) :
    (lengthLoop n crc).setWidth 32 = Crc.run gen32 (crc.setWidth 32) (lengthBytes n) := by
  induction n using Nat.strong_induction_on generalizing crc with
  | _ n ih =>
      rw [lengthLoop]
      rcases Nat.eq_zero_or_pos n with rfl | hpos
      · rw [if_neg (by decide), lengthBytes, Nat.digits_zero]
        rfl
      · have hlow : (BitVec.ofInt 64 n).setWidth 8 = (UInt8.ofNat (n % 256)).toBitVec := by
          rw [BitVec.ofInt_natCast, UInt8.toBitVec_ofNat', BitVec.setWidth_ofNat_of_le (by decide)]
          refine BitVec.eq_of_toNat_eq ?_
          rw [BitVec.toNat_ofNat, BitVec.toNat_ofNat, Nat.mod_mod_of_dvd n (by decide)]
        have hshift : (n : Int) >>> (8 : Nat) = (n / 256 : Nat) := by
          rw [Int.shiftRight_eq_div_pow]
          exact (Int.natCast_ediv n 256).symm
        rw [if_pos (Int.natCast_pos.mpr hpos), hshift,
          ih (n / 256) (Nat.div_lt_self hpos (by decide)), setWidth_crcStep, hlow, lengthBytes,
          lengthBytes, Nat.digits_def' (by decide) hpos, List.map_cons]
        rfl

/-- The register after a file. -/
def cksumRegister (msg : Bytes) : BitVec 32 :=
  Crc.run gen32 0#32 (msg ++ lengthBytes msg.length)

theorem swlibCksum_register (fd : Source) :
    swlibCksum fd =
      (~~~(cksumRegister (fd.pattern.chunks bufLen fd.reads fd.rest).flatten)).setWidth 64 := by
  obtain ⟨hcrc, hlen⟩ := readLoop_spec fd 0 0
  rw [zero_add] at hlen
  have hreg : (lengthLoop (readLoop fd 0 0).2 (readLoop fd 0 0).1).setWidth 32 =
      cksumRegister (fd.pattern.chunks bufLen fd.reads fd.rest).flatten := by
    rw [hlen, setWidth_lengthLoop, hcrc, cksumRegister, Crc.run, Crc.run, Crc.run,
      List.foldl_append]
    rfl
  rw [← hreg]
  change ~~~(lengthLoop (readLoop fd 0 0).2 (readLoop fd 0 0).1) &&& 0xFFFFFFFF#64 = _
  generalize lengthLoop (readLoop fd 0 0).2 (readLoop fd 0 0).1 = crc
  have hmask : 0xFFFFFFFF#64 = (BitVec.allOnes 32).setWidth 64 := rfl
  refine BitVec.eq_of_getLsbD_eq fun i hi => ?_
  rw [hmask, BitVec.getLsbD_and, BitVec.getLsbD_not, BitVec.getLsbD_setWidth,
    BitVec.getLsbD_allOnes, BitVec.getLsbD_setWidth, BitVec.getLsbD_not, BitVec.getLsbD_setWidth,
    decide_eq_true hi, Bool.true_and, Bool.true_and, Bool.true_and]
  cases hlow : decide (i < 32)
  · rw [Bool.and_false, Bool.false_and]
  · rw [Bool.and_true, Bool.true_and, Bool.true_and]

/-! ## The remainder -/

/-- The generating polynomial `G (X)`. -/
noncomputable def generatingPoly : (ZMod 2)[X] :=
  X ^ 32 + X ^ 26 + X ^ 23 + X ^ 22 + X ^ 16 + X ^ 12 + X ^ 11 + X ^ 10 + X ^ 8 + X ^ 7 + X ^ 5 +
    X ^ 4 + X ^ 2 + X + 1

/-- `GEN` is `G (X)` except `X ^ 32`. -/
theorem generator_gen32 : Crc.generator gen32 = generatingPoly := by
  have hpowers : (Finset.range 32).filter (fun i => gen32.getLsbD i = true) =
      {26, 23, 22, 16, 12, 11, 10, 8, 7, 5, 4, 2, 1, 0} := by decide
  rw [Crc.generator, Crc.poly, generatingPoly, ← Finset.sum_filter, hpowers]
  simp only [Finset.mem_insert, Finset.mem_singleton, Finset.sum_singleton, Finset.sum_insert,
    Nat.reduceEqDiff, or_self, not_false_iff, OfNat.ofNat_ne_zero, OfNat.ofNat_ne_one, one_ne_zero]
  ring

/-- **`swlib_cksum` gives the complement of a remainder.**  What is divided by `G (X)` is the
bytes before a read that fails, with their number behind them, times `X ^ 32`. -/
theorem swlibCksum_remainder (fd : Source) :
    ∃ r : BitVec 32, swlibCksum fd = (~~~r).setWidth 64 ∧
      Crc.poly r = (Crc.message ((fd.pattern.chunks bufLen fd.reads fd.rest).flatten ++
        lengthBytes (fd.pattern.chunks bufLen fd.reads fd.rest).flatten.length) * X ^ 32) %ₘ
          generatingPoly := by
  refine ⟨_, swlibCksum_register fd, ?_⟩
  rw [cksumRegister, Crc.poly_run gen32 (by decide), generator_gen32]

/-- **A burst of 32 bits is seen.** -/
theorem swlibCksum_ne_of_burst {fd fd' : Source} (hrel : fd.Reliable) (hrel' : fd'.Reliable)
    {front x y rest : List Bool} (hbits : Crc.msgBits fd.rest = front ++ x ++ rest)
    (hbits' : Crc.msgBits fd'.rest = front ++ y ++ rest) (hlen : x.length = y.length)
    (hle : x.length ≤ 32) (hne : x ≠ y) : swlibCksum fd ≠ swlibCksum fd' := by
  have hsame : fd.rest.length = fd'.rest.length := by
    have hcount := Crc.length_msgBits fd.rest
    rw [hbits, List.length_append, List.length_append, hlen, ← List.length_append,
      ← List.length_append, ← hbits', Crc.length_msgBits] at hcount
    omega
  have hmsg : Crc.msgBits (fd.rest ++ lengthBytes fd.rest.length) =
      front ++ x ++ (rest ++ Crc.msgBits (lengthBytes fd.rest.length)) := by
    rw [Crc.msgBits_append, hbits, List.append_assoc]
  have hmsg' : Crc.msgBits (fd'.rest ++ lengthBytes fd'.rest.length) =
      front ++ y ++ (rest ++ Crc.msgBits (lengthBytes fd.rest.length)) := by
    rw [Crc.msgBits_append, hbits', hsame, List.append_assoc]
  intro heq
  rw [swlibCksum_register, swlibCksum_register, ReadPattern.flatten_chunks_of_pos (by decide)
    (hrel _), ReadPattern.flatten_chunks_of_pos (by decide) (hrel' _)] at heq
  have hlow := congrArg (BitVec.setWidth 32) heq
  rw [setWidth_64_32, setWidth_64_32] at hlow
  exact Crc.run_ne_of_burst gen32 (by decide) (by decide) hmsg hmsg' hlen hle hne
    (BitVec.not_inj.mp hlow)

/-- A file that is read a full buffer at a time. -/
def bufferARead (data : Bytes) : Source := .opened ⟨fun _ => 65536, fun _ => by decide⟩ data

/-- Two bits that change places. -/
theorem swlibCksum_ne_of_burst_swap :
    swlibCksum (bufferARead [83, 65]) ≠ swlibCksum (bufferARead [83, 66]) :=
  swlibCksum_ne_of_burst (fun _ => (by decide : (0 : Int) < 65536))
    (fun _ => (by decide : (0 : Int) < 65536))
    (show Crc.msgBits [83, 65] = (Crc.msgBits [83] ++ [false, true, false, false, false, false]) ++
      [false, true] ++ [] by decide)
    (show Crc.msgBits [83, 66] = (Crc.msgBits [83] ++ [false, true, false, false, false, false]) ++
      [true, false] ++ [] by decide)
    rfl (by decide) (by decide)

end Swbis.Misc.Cksum
