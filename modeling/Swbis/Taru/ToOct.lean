import Swbis.Taru.Header
import Mathlib.Data.Nat.Bitwise

/-!
# Numbers in tar fields

`to_oct.c` writes numbers into the fields of a tar record, and `taru_otoul` of
`otar.c` reads them back.  A field is `m` octal digits and a terminator.
`to_chars` decides what to do with a number that does not fit: the user and
group ids are replaced by a constant, the old GNU format switches to base 256,
and in all other cases the field is left as it was and a message is printed.

`otoul_toChars` and `otoul_toCharsId` say what is read back from a field that
`to_chars` was asked to fill, for every number.
-/

namespace Swbis.Taru

open CLib

/-! ## Reading: `taru_otoul` -/

/-- `val = 8 * val + *s++ - '0'` in an unsigned word. -/
def octalStep (val : UInt64) (b : UInt8) : UInt64 := 8 * val + UInt64.ofNat (b.toNat - 48)

/-- `taru_otoul` and `taru_otoumax`: skip blanks, then read octal digits. -/
def taruOtoul (s : Bytes) : UInt64 :=
  (octal.run (s.dropWhile (· == 32))).foldl octalStep 0

theorem octalStep_ofNat (v : Nat) {b : UInt8} (hb : octal.isDigit b = true) :
    octalStep (UInt64.ofNat v) b = UInt64.ofNat (octal.snoc v b) := by
  have hv : (octal.dec b).getD 0 = b.toNat - 48 := by
    by_cases h : 48 ≤ b.toNat ∧ b.toNat < 48 + 8
    · simp [octal, decDigit, h]
    · simp [Radix.isDigit, octal, decDigit, h] at hb
  rw [octalStep, Radix.snoc, hv, octal_base, UInt64.ofNat_add, UInt64.ofNat_mul]
  rfl

/-- Wrapping at every digit is wrapping once. -/
theorem foldl_octalStep (ds : Bytes) (h : ∀ b ∈ ds, octal.isDigit b = true) (v : Nat) :
    ds.foldl octalStep (UInt64.ofNat v) = UInt64.ofNat (ds.foldl octal.snoc v) := by
  induction ds generalizing v with
  | nil => rfl
  | cons b ds ih =>
      simp only [List.foldl_cons]
      rw [octalStep_ofNat v (h b (by simp)), ih (fun c hc => h c (by simp [hc]))]

/-- Digits are not blanks, so a numeral is read from its first digit on. -/
theorem dropWhile_blank_of_digit {b : UInt8} (hb : octal.isDigit b = true) (s : Bytes) :
    (b :: s).dropWhile (· == 32) = b :: s := by
  have hne : b ≠ 32 := by
    rintro rfl
    exact absurd hb (by decide)
  rw [List.dropWhile_cons_of_neg (by simp [hne])]

/-- A numeral and a byte that is no digit. -/
theorem taruOtoul_fixed {m v : Nat} (hm : 0 < m) (hv : v < 8 ^ m) {t : UInt8}
    (ht : octal.isDigit t = false) (s : Bytes) :
    taruOtoul (octal.fixed m v ++ t :: s) = UInt64.ofNat v := by
  have hd := octal.isDigit_of_mem_fixed m v
  obtain ⟨b, ds, hbs⟩ : ∃ b ds, octal.fixed m v = b :: ds :=
    List.exists_cons_of_ne_nil (by
      intro h
      have := octal.length_fixed m v
      rw [h] at this
      simp at this
      omega)
  have hb : octal.isDigit b = true := hd b (by rw [hbs]; simp)
  have hdrop : (octal.fixed m v ++ t :: s).dropWhile (· == 32) = octal.fixed m v ++ t :: s := by
    rw [hbs]
    exact dropWhile_blank_of_digit hb _
  rw [taruOtoul, hdrop, octal.run_append_stop hd ht]
  have h0 : (octal.fixed m v).foldl octalStep 0 = UInt64.ofNat (octal.value (octal.fixed m v)) :=
    foldl_octalStep (octal.fixed m v) hd 0
  rw [h0, octal.value_fixed hv]

/-- A field that starts with a byte that is neither a blank nor a digit is
read as zero. -/
theorem taruOtoul_stop {b : UInt8} (hd : octal.isDigit b = false) (hb : b ≠ 32) (s : Bytes) :
    taruOtoul (b :: s) = 0 := by
  rw [taruOtoul, List.dropWhile_cons_of_neg (by simp [hb]), Radix.run,
    List.takeWhile_cons_of_neg (by simp [hd])]
  rfl

/-! ## Writing: `to_chars` -/

/-- `enum gnutar_archive_format`. -/
inductive ArchiveFormat where
  | default
  | v7
  | oldgnu
  | posix
  | gnu
deriving DecidableEq

/-- The field type names that `to_chars` looks at. -/
inductive FieldType where
  /-- `"uid_t"` or `"gid_t"`. -/
  | id
  /-- Any other name. -/
  | other
deriving DecidableEq

/-- `MAX_VAL_WITH_DIGITS`. -/
def maxValWithDigits (digits bitsPerDigit : Nat) : Nat :=
  if digits * bitsPerDigit < 64 then 2 ^ (digits * bitsPerDigit) - 1 else 2 ^ 64 - 1

/-- `to_octal`, into `m` bytes. -/
def toOctal (value : UInt64) (m : Nat) : Bytes := octal.fixed m value.toNat

/-- `to_base256`, into `m` bytes. -/
def toBase256 (negative : Bool) : Nat → UInt64 → Bytes
  | 0, _ => []
  | m + 1, v =>
      let propagatedSignBits : UInt64 := if negative then 0xff00000000000000 else 0
      toBase256 negative m (propagatedSignBits ||| (v >>> 8)) ++ [UInt8.ofNat (v.toNat % 256)]

theorem length_toBase256 (negative : Bool) (m : Nat) (v : UInt64) :
    (toBase256 negative m v).length = m := by
  induction m generalizing v with
  | zero => rfl
  | succ m ih => simp [toBase256, ih]

/-- The octal representation and its terminator. -/
def octalField (m : Nat) (value : UInt64) (termch : UInt8) : CField (m + 1) :=
  ⟨toOctal value m ++ [termch], by simp [toOctal]⟩

/-- The base 256 representation. -/
def base256Field (m : Nat) (negative : Bool) (value : UInt64) : CField (m + 1) :=
  ⟨(if negative then 255 else 128) :: toBase256 negative m value, by simp [length_toBase256]⟩

/-- Whether the octal representation fits. -/
def fitsOctal (m : Nat) (negative : Bool) (value : UInt64) : Bool :=
  !negative && decide (value.toNat ≤ maxValWithDigits m 3)

/-- `to_chars` for a type that is no id, and for `"id_again"`: into a field of
`m + 1` bytes whose contents were `old`.  The last branch prints a message
only: the substitute functions are passed with ids alone. -/
def toCharsOther {m : Nat} (negative : Bool) (value : UInt64) (valsize : Nat)
    (old : CField (m + 1)) (archiveFormat : ArchiveFormat) (termch : UInt8) : CField (m + 1) :=
  let base256Allowed := archiveFormat = .gnu ∨ archiveFormat = .oldgnu
  if fitsOctal m negative value then octalField m value termch
  else if (if negative then -1 - value else value).toNat ≤ maxValWithDigits m 8 ∧ base256Allowed then
    base256Field m negative value
  else if negative ∧ valsize * 8 ≤ m * 3 then
    octalField m (value &&& UInt64.ofNat (maxValWithDigits (valsize * 8) 1)) 0
  else old

/-- `to_chars`.  The constant for an id that does not fit is the C expression
`8 ^ (size - 1)`, an exclusive or. -/
def toChars {m : Nat} (type : FieldType) (negative : Bool) (value : UInt64) (valsize : Nat)
    (old : CField (m + 1)) (archiveFormat : ArchiveFormat) (termch : UInt8) : CField (m + 1) :=
  if fitsOctal m negative value then octalField m value termch
  else if type = .id then
    toCharsOther negative (UInt64.ofNat (8 ^^^ m)) valsize old archiveFormat termch
  else toCharsOther negative value valsize old archiveFormat termch

/-- The `uintmax_t` value of an `int`. -/
def intToUintmax (v : UInt32) : UInt64 :=
  if v.toNat < 2 ^ 31 then v.toUInt64 else v.toUInt64 ||| 0xffffffff00000000

/-- `gid_to_chars`. -/
def gidToChars (v : UInt32) (old : CField 8) (archiveFormat : ArchiveFormat) (termch : UInt8) :
    CField 8 :=
  toChars (m := 7) .id false v.toUInt64 4 old archiveFormat termch

/-- `uid_to_chars`. -/
def uidToChars (v : UInt32) (old : CField 8) (archiveFormat : ArchiveFormat) (termch : UInt8) :
    CField 8 :=
  toChars (m := 7) .id false v.toUInt64 4 old archiveFormat termch

/-- `major_to_chars` and `minor_to_chars`, of a device number that is an `int`. -/
def majorToChars (v : UInt32) (old : CField 8) (archiveFormat : ArchiveFormat) (termch : UInt8) :
    CField 8 :=
  toChars (m := 7) .other (decide (2 ^ 31 ≤ v.toNat)) (intToUintmax v) 4 old archiveFormat termch

/-- The permission bits of `<sys/stat.h>`, each with its bit of `<tar.h>`. -/
def modeBits : List (UInt32 × UInt32) :=
  [(0o4000, 0o4000), (0o2000, 0o2000), (0o1000, 0o1000),
   (0o400, 0o400), (0o200, 0o200), (0o100, 0o100),
   (0o040, 0o040), (0o020, 0o020), (0o010, 0o010),
   (0o004, 0o004), (0o002, 0o002), (0o001, 0o001)]

/-- The bits a mode field holds, when only the known ones are copied. -/
def knownModeBits (v : UInt32) : UInt32 :=
  modeBits.foldl (fun u p => u ||| (if v &&& p.1 ≠ 0 then p.2 else 0)) 0

/-- `mode_to_chars`. -/
def modeToChars (v : UInt32) (old : CField 8) (archiveFormat : ArchiveFormat) (termch : UInt8) :
    CField 8 :=
  let u := if archiveFormat ≠ .posix ∧ archiveFormat ≠ .gnu then v else knownModeBits v
  toChars (m := 7) .other false u.toUInt64 4 old archiveFormat termch

/-- `off_to_chars` and `time_to_chars`, of a signed 64-bit value. -/
def offToChars (v : UInt64) (old : CField 12) (archiveFormat : ArchiveFormat) (termch : UInt8) :
    CField 12 :=
  toChars (m := 11) .other (decide (2 ^ 63 ≤ v.toNat)) v 8 old archiveFormat termch

/-- `size_to_chars` and `uintmax_to_chars`, of an unsigned 64-bit value. -/
def uintmaxToChars {m : Nat} (v : UInt64) (old : CField (m + 1)) (archiveFormat : ArchiveFormat)
    (termch : UInt8) : CField (m + 1) :=
  toChars .other false v 8 old archiveFormat termch

/-! ## What is read back -/

theorem fitsOctal_iff {m : Nat} (value : UInt64) (hm : m * 3 < 64) :
    fitsOctal m false value = true ↔ value.toNat < 8 ^ m := by
  have h8 : (8 : Nat) ^ m = 2 ^ (m * 3) := by rw [Nat.mul_comm, Nat.pow_mul]
  have hpos : 0 < 2 ^ (m * 3) := Nat.two_pow_pos _
  simp only [fitsOctal, Bool.not_false, Bool.true_and, decide_eq_true_eq, maxValWithDigits, if_pos hm]
  rw [h8]
  omega

/-- An octal field is read back, also when blanks follow it. -/
theorem taruOtoul_octalField {m : Nat} (value : UInt64) (h0 : 0 < m) (hv : value.toNat < 8 ^ m)
    {termch : UInt8} (ht : octal.isDigit termch = false) (s : Bytes) :
    taruOtoul ((octalField m value termch).bytes ++ s) = value := by
  have hb : (octalField m value termch).bytes ++ s = octal.fixed m value.toNat ++ termch :: s := by
    simp [octalField, toOctal]
  rw [hb, taruOtoul_fixed h0 hv ht, UInt64.ofNat_toNat]

/-- A base 256 field is read as zero. -/
theorem taruOtoul_base256Field (m : Nat) (negative : Bool) (value : UInt64) (s : Bytes) :
    taruOtoul ((base256Field m negative value).bytes ++ s) = 0 := by
  cases negative with
  | false => exact taruOtoul_stop (by decide) (by decide) _
  | true => exact taruOtoul_stop (by decide) (by decide) _

/-- A field of NULs is read as zero. -/
theorem taruOtoul_zero (m : Nat) (s : Bytes) :
    taruOtoul ((CField.zero (m + 1)).bytes ++ s) = 0 :=
  taruOtoul_stop (by decide) (by decide) _

/-- What is read from a field that was asked to hold a number and is no id: the
number if it fits, and zero if it does not. -/
theorem taruOtoul_toChars (m : Nat) (negative : Bool) (value : UInt64) (valsize : Nat)
    (archiveFormat : ArchiveFormat) {termch : UInt8} (h0 : 0 < m) (hm : m * 3 < 64)
    (hsize : m * 3 < valsize * 8) (ht : octal.isDigit termch = false) (s : Bytes) :
    taruOtoul ((toChars .other negative value valsize (CField.zero (m + 1)) archiveFormat
        termch).bytes ++ s) =
      if negative = false ∧ value.toNat < 8 ^ m then value else 0 := by
  have hfit : fitsOctal m negative value = true ↔ negative = false ∧ value.toNat < 8 ^ m := by
    cases negative with
    | false => simpa using fitsOctal_iff value hm
    | true => simp [fitsOctal]
  by_cases h : negative = false ∧ value.toNat < 8 ^ m
  · rw [if_pos h, toChars, if_pos (hfit.mpr h)]
    exact taruOtoul_octalField value h0 h.2 ht s
  · have hn : ¬ fitsOctal m negative value = true := fun hf => h (hfit.mp hf)
    have hw : ¬ (negative = true ∧ valsize * 8 ≤ m * 3) := fun hc => by omega
    simp only [if_neg h, toChars, if_neg hn, toCharsOther, if_neg hw, reduceCtorEq, if_false]
    by_cases hb : (if negative then -1 - value else value).toNat ≤ maxValWithDigits m 8 ∧
        (archiveFormat = .gnu ∨ archiveFormat = .oldgnu)
    · rw [if_pos hb]
      exact taruOtoul_base256Field m negative value s
    · rw [if_neg hb]
      exact taruOtoul_zero m s

/-- What is read from a user or group id field: the id if it fits, and
otherwise the constant `8 ^ 7` of the source, which is 15. -/
theorem taruOtoul_toCharsId {value : UInt64} {valsize : Nat} {archiveFormat : ArchiveFormat}
    {termch : UInt8} (old : CField 8) (ht : octal.isDigit termch = false) (s : Bytes) :
    taruOtoul ((toChars (m := 7) .id false value valsize old archiveFormat termch).bytes ++ s) =
      if value.toNat ≤ tarMax7Octal then value else 15 := by
  have hfit := fitsOctal_iff (m := 7) value (by decide)
  have hmax : tarMax7Octal + 1 = 8 ^ 7 := rfl
  by_cases h : value.toNat ≤ tarMax7Octal
  · rw [if_pos h, toChars, if_pos (hfit.mpr (by omega))]
    exact taruOtoul_octalField value (by decide) (by omega) ht s
  · have hn : ¬ fitsOctal 7 false value = true := fun hf => h (by have := hfit.mp hf; omega)
    rw [if_neg h, toChars, if_neg hn, if_pos rfl, toCharsOther,
      if_pos (show fitsOctal 7 false (UInt64.ofNat (8 ^^^ 7)) = true by decide)]
    exact taruOtoul_octalField (UInt64.ofNat (8 ^^^ 7)) (by decide) (by decide) ht s

/-- Copying a bit that is set is masking it. -/
theorem ite_and_bit (v : UInt32) {bit : UInt32} (h : ∃ i < 32, bit = UInt32.ofNat (2 ^ i)) :
    (if v &&& bit ≠ 0 then bit else 0) = v &&& bit := by
  obtain ⟨i, hi, rfl⟩ := h
  have hto : (UInt32.ofNat (2 ^ i)).toNat = 2 ^ i :=
    UInt32.toNat_ofNat_of_lt' (Nat.pow_lt_pow_right (by decide) hi)
  have hand : (v &&& UInt32.ofNat (2 ^ i)).toNat = (v.toNat.testBit i).toNat * 2 ^ i := by
    rw [UInt32.toNat_and, hto, Nat.and_two_pow]
  split
  · next hne =>
      apply UInt32.toNat_inj.mp
      cases hb : v.toNat.testBit i with
      | true => simp [hand, hto, hb]
      | false => exact absurd (UInt32.toNat_inj.mp (by rw [hand, hb]; simp)) hne
  · next heq => exact (not_ne_iff.mp heq).symm

/-- The known bits are the low twelve. -/
theorem knownModeBits_eq (v : UInt32) : knownModeBits v = v &&& 0o7777 := by
  have hdistrib : ∀ a b : UInt32, (v &&& a) ||| (v &&& b) = v &&& (a ||| b) := fun a b =>
    UInt32.toBitVec_inj.mp BitVec.and_or_distrib_left.symm
  have hbit : ∀ p ∈ modeBits, (if v &&& p.1 ≠ 0 then p.2 else 0) = v &&& p.1 := by
    intro p hp
    have hall : modeBits.all
        (fun p => decide (p.1 = p.2 ∧ ∃ i < 32, p.1 = UInt32.ofNat (2 ^ i))) = true := by decide
    have h2 := of_decide_eq_true (List.all_eq_true.mp hall p hp)
    rw [← h2.1]
    exact ite_and_bit v h2.2
  have hfold : ∀ (l : List (UInt32 × UInt32)) (a : UInt32),
      (∀ p ∈ l, (if v &&& p.1 ≠ 0 then p.2 else 0) = v &&& p.1) →
      l.foldl (fun u p => u ||| (if v &&& p.1 ≠ 0 then p.2 else 0)) (v &&& a) =
        v &&& l.foldl (fun u p => u ||| p.1) a := by
    intro l
    induction l with
    | nil => intro a _; rfl
    | cons p l ih =>
        intro a hl
        simp only [List.foldl_cons]
        rw [hl p (by simp), hdistrib, ih _ (fun q hq => hl q (by simp [hq]))]
  have h := hfold modeBits 0 hbit
  rw [UInt32.and_zero] at h
  exact h

end Swbis.Taru
