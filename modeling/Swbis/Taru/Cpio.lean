import Mathlib.Data.Nat.Bitwise
import Swbis.Lib.Scanf
import Swbis.Taru.Member
import Swbis.Taru.ReadTar

/-!
# The cpio headers

`taru_write_out_header` and `taru_read_in_header` for the formats that write
their numbers as text: the new one and the one with a checksum, in fields of
eight hexadecimal digits, and the old one, in fields of six and eleven octal
digits.

The writer writes to a descriptor, and its writes succeed.  Its result is
nothing when a text does not fit the buffer it is printed into, or when
`c_namesize` asks for more than the memory of the name.  The reader puts the
name into a buffer that is used again; `stale` is what the buffer holds behind
the bytes that were read.
-/

namespace Swbis.Taru.Cpio

open CLib

/-! ## Formats -/

/-- The formats whose headers are text. -/
inductive CpioFormat where
  /-- `arf_newascii` -/
  | newascii
  /-- `arf_crcascii` -/
  | crcascii
  /-- `arf_oldascii` -/
  | oldascii
  /-- `arf_hpoldascii` -/
  | hpoldascii
deriving DecidableEq

namespace CpioFormat

/-- The magic number. -/
def magic : CpioFormat → Bytes
  | newascii => chars ['0', '7', '0', '7', '0', '1']
  | crcascii => chars ['0', '7', '0', '7', '0', '2']
  | oldascii => chars ['0', '7', '0', '7', '0', '7']
  | hpoldascii => chars ['0', '7', '0', '7', '0', '7']

/-- The formats with hexadecimal fields. -/
def isNew : CpioFormat → Bool
  | newascii => true
  | crcascii => true
  | oldascii => false
  | hpoldascii => false

end CpioFormat

/-- The padding that is put behind `offset` bytes. -/
def cpioPad (format : CpioFormat) (offset : Nat) : Nat :=
  if format.isNew then (4 - offset % 4) % 4 else 0

/-! ## Devices -/

/-- `major` of the C library. -/
def devMajor (dev : UInt64) : UInt64 :=
  ((dev >>> 8) &&& (0xfff : UInt64)) ||| ((dev >>> 32) &&& (0xfffff000 : UInt64))

/-- `minor` of the C library. -/
def devMinor (dev : UInt64) : UInt64 :=
  (dev &&& (0xff : UInt64)) ||| ((dev >>> 12) &&& (0xffffff00 : UInt64))

/-- The cases of the `switch` for HP/UX. -/
def isSpecialType (hdr : FileHdr) : Bool :=
  hdr.fileType == cpIfchr || hdr.fileType == cpIfblk || hdr.fileType == cpIfsock ||
    hdr.fileType == cpIfifo

/-! ## Writing -/

/-- What a call of the writer leaves. -/
structure CpioWritten where
  /-- The return value. -/
  ret : Int
  /-- The bytes. -/
  bytes : Bytes
  /-- The file header afterwards. -/
  hdr : FileHdr

/-- The numbers of a new header, with the widths of their fields. -/
def newAsciiFields (hdr : FileHdr) : List (Nat × Nat) :=
  [(8, hdr.cIno.toNat), (8, hdr.cMode.toNat), (8, hdr.cUid.toNat), (8, hdr.cGid.toNat),
    (8, hdr.cNlink.toNat), (8, hdr.cMtime.toNat), (8, hdr.cFilesize.toNat),
    (8, hdr.cDevMaj.toNat), (8, hdr.cDevMin.toNat), (8, hdr.cRdevMaj.toNat),
    (8, hdr.cRdevMin.toNat), (8, hdr.cNamesize.toNat), (8, hdr.cChksum.toNat)]

/-- The low 16 bits. -/
def low16 (v : UInt64) : UInt64 := v &&& (0xFFFF : UInt64)

/-- The numbers of an old header, with the widths of their fields. -/
def oldAsciiFields (dev rdev : UInt64) (hdr : FileHdr) : List (Nat × Nat) :=
  [(6, (low16 dev).toNat), (6, (low16 hdr.cIno).toNat), (6, (low16 hdr.cMode).toNat),
    (6, (low16 hdr.cUid).toNat), (6, (low16 hdr.cGid).toNat), (6, (low16 hdr.cNlink).toNat),
    (6, (low16 rdev).toNat), (11, hdr.cMtime.toNat), (6, (low16 hdr.cNamesize).toNat),
    (11, hdr.cFilesize.toNat)]

/-- `sprintf` of a magic number and a row of numbers. -/
def asciiHeader (magic : Bytes) (r : Radix) (fields : List (Nat × Nat)) : Bytes :=
  magic ++ fields.flatMap fun f => r.padded f.1 f.2

/-- The memory that the name points at: taking off leading slashes moves the
name to the front and leaves the end of the old one where it was. -/
def nameMemory (flags : TarFlags) (hdr : FileHdr) : Bytes :=
  let name := (stripped flags hdr).cName.bytes ++ [0]
  name ++ (hdr.cName.bytes ++ [0]).drop name.length

/-- The header of `count` bytes from a buffer of `size`, the name, and padding. -/
def writeAscii (size count : Nat) (text mem : Bytes) (hdr : FileHdr) (pad : Nat) :
    Option CpioWritten :=
  if size ≤ text.length ∨ mem.length < hdr.cNamesize.toNat then none
  else
    some ⟨count + hdr.cNamesize.toNat + pad,
      text.take count ++ mem.take hdr.cNamesize.toNat ++ List.replicate pad 0, hdr⟩

/-- `taru_write_out_header`, for the cpio formats. -/
def taruWriteOutHeader (format : CpioFormat) (flags : TarFlags) (hdr : FileHdr) :
    Option CpioWritten :=
  let mem := nameMemory flags hdr
  let hdr := stripped flags hdr
  if format.isNew then
    let hdr := if format = .crcascii then hdr else { hdr with cChksum := 0 }
    writeAscii 112 110 (asciiHeader format.magic hexadecimal (newAsciiFields hdr)) mem hdr
      (cpioPad format (hdr.cNamesize.toNat + 110))
  else
    let dev := makedev hdr.cDevMaj hdr.cDevMin
    let rdev := makedev hdr.cRdevMaj hdr.cRdevMin
    if format = .hpoldascii ∧ isSpecialType hdr then
      -- HP/UX: the device stands in the size, and the device field is 1
      let hdr := { hdr with cFilesize := rdev }
      writeAscii 78 76 (asciiHeader format.magic octal (oldAsciiFields 0 1 hdr)) mem hdr 0
    else
      writeAscii 78 76 (asciiHeader format.magic octal (oldAsciiFields dev rdev hdr)) mem hdr 0

/-! ## Reading -/

/-- Where `sscanf` puts the numbers of a new header. -/
def newAsciiSetters : List (UInt64 → FileHdr → FileHdr) :=
  [fun v hdr => { hdr with cIno := v }, fun v hdr => { hdr with cMode := v },
    fun v hdr => { hdr with cUid := v }, fun v hdr => { hdr with cGid := v },
    fun v hdr => { hdr with cNlink := v }, fun v hdr => { hdr with cMtime := v },
    fun v hdr => { hdr with cFilesize := v }, fun v hdr => { hdr with cDevMaj := v },
    fun v hdr => { hdr with cDevMin := v }, fun v hdr => { hdr with cRdevMaj := v },
    fun v hdr => { hdr with cRdevMin := v }, fun v hdr => { hdr with cNamesize := v },
    fun v hdr => { hdr with cChksum := v }]

/-- Where `sscanf` puts the numbers of an old header. -/
def oldAsciiSetters : List (UInt64 → FileHdr → FileHdr) :=
  [fun v hdr => { hdr with cDevMaj := devMajor v, cDevMin := devMinor v },
    fun v hdr => { hdr with cIno := v }, fun v hdr => { hdr with cMode := v },
    fun v hdr => { hdr with cUid := v }, fun v hdr => { hdr with cGid := v },
    fun v hdr => { hdr with cNlink := v },
    fun v hdr => { hdr with cRdevMaj := devMajor v, cRdevMin := devMinor v },
    fun v hdr => { hdr with cMtime := v }, fun v hdr => { hdr with cNamesize := v },
    fun v hdr => { hdr with cFilesize := v }]

/-- A row of conversions into the members of a file header.  Members behind the
first conversion that fails are left as they are. -/
def assignFields (setters : List (UInt64 → FileHdr → FileHdr)) (values : List UInt64)
    (hdr : FileHdr) : FileHdr :=
  (setters.zip values).foldl (fun hdr p => p.1 p.2 hdr) hdr

/-- What a call of the reader leaves. -/
structure CpioRead where
  /-- The return value. -/
  ret : Int
  /-- The file header. -/
  hdr : FileHdr
  /-- The descriptor. -/
  fd : InDes
  /-- `*p_eoa` is set. -/
  eoa : Bool := false

/-- `taru_tape_skip_padding`: the number of bytes that were skipped. -/
def taruTapeSkipPadding (fd : InDes) (offset : Nat) (format : CpioFormat) : Nat × InDes :=
  let pad := cpioPad format offset
  if pad ≠ 0 then
    let r := taruTapeBufferedRead fd pad
    (r.1, r.2.2)
  else (0, fd)

/-- `tarui_read_new_ascii_from_buf`. -/
def taruiReadNewAsciiFromBuf (hdr : FileHdr) (text : Bytes) : Int × FileHdr :=
  let hdr := assignFields newAsciiSetters
    (scanULongs hexadecimal (List.replicate 13 8) (CString.ofMem text).bytes) hdr
  (if 6000 < hdr.cNamesize then -1 else 104, hdr)

/-- `tarui_read_in_new_ascii`.  The result of the read of the name is not looked
at. -/
def taruiReadInNewAscii (format : CpioFormat) (stale : Bytes) (hdr : FileHdr) (fd : InDes) :
    CpioRead :=
  let header := taruTapeBufferedRead fd 104
  if header.1 ≠ 104 then { ret := -1, hdr := hdr, fd := header.2.2 }
  else
    let r := taruiReadNewAsciiFromBuf hdr header.2.1
    if r.1 < 0 then { ret := -r.1, hdr := r.2, fd := header.2.2 }
    else
      let name := taruTapeBufferedRead header.2.2 r.2.cNamesize.toNat
      let hdr := { r.2 with cName := .ofMem (name.2.1 ++ stale) }
      let bytesread := 104 + hdr.cNamesize.toNat
      let skip := taruTapeSkipPadding name.2.2 (bytesread + 6) format
      { ret := bytesread + skip.1, hdr := hdr, fd := skip.2 }

/-- The correction for HP/UX. -/
def fixHpux (hdr : FileHdr) : FileHdr :=
  if isSpecialType hdr = true ∧ hdr.cFilesize ≠ 0 ∧ hdr.cRdevMaj = 0 ∧ hdr.cRdevMin = 1 then
    { hdr with
      cRdevMaj := devMajor hdr.cFilesize, cRdevMin := devMinor hdr.cFilesize, cFilesize := 0 }
  else hdr

/-- `taru_read_in_old_ascii2`. -/
def taruReadInOldAscii2 (stale : Bytes) (hdr : FileHdr) (fd : InDes) : CpioRead :=
  let header := taruTapeBufferedRead fd 70
  if header.1 ≠ 70 then { ret := -1, hdr := hdr, fd := header.2.2 }
  else
    let hdr := assignFields oldAsciiSetters
      (scanULongs octal [6, 6, 6, 6, 6, 6, 6, 11, 6, 11] (CString.ofMem header.2.1).bytes) hdr
    let name := taruTapeBufferedRead header.2.2 hdr.cNamesize.toNat
    let hdr := { hdr with cName := .ofMem (name.2.1 ++ stale) }
    if (name.1 : Int) ≠ toCInt hdr.cNamesize.toNat then { ret := -70, hdr := hdr, fd := name.2.2 }
    else { ret := toCInt (70 + hdr.cNamesize.toNat), hdr := fixHpux hdr, fd := name.2.2 }

/-- What follows once the magic number is found, `retval` bytes into the input. -/
def readBehindMagic (format : CpioFormat) (stale : Bytes) (hdr : FileHdr) (retval : Int)
    (fd : InDes) : CpioRead :=
  let r := if format.isNew then taruiReadInNewAscii format stale hdr fd
    else taruReadInOldAscii2 stale hdr fd
  if (if format.isNew then r.ret < 0 else r.ret ≤ 0) then { r with ret := -retval }
  else { r with ret := retval + r.ret, eoa := r.hdr.cName = cpioInbandEoaFilename }

/-- The magic number is read into the front of the file header. -/
def putMagic (window : Bytes) (hdr : FileHdr) : FileHdr :=
  { hdr with cMagic := (window.getD 0 0).toUInt16 + 256 * (window.getD 1 0).toUInt16 }

/-- The loop that looks for the magic number, one byte at a time. -/
def searchMagic (format : CpioFormat) (stale : Bytes) (hdr : FileHdr) (kind : FdKind)
    (window : Bytes) (retval : Int) : Bytes → CpioRead
  | [] =>
      if window = format.magic then
        readBehindMagic format stale (putMagic window hdr) retval ⟨kind, []⟩
      else { ret := -retval, hdr := putMagic window hdr, fd := ⟨kind, []⟩ }
  | b :: data =>
      if window = format.magic then
        readBehindMagic format stale (putMagic window hdr) retval ⟨kind, b :: data⟩
      else searchMagic format stale hdr kind (window.tail ++ [b]) (retval + 1) data

/-- `taru_read_in_header`, for the cpio formats. -/
def taruReadInHeader (format : CpioFormat) (stale : Bytes) (hdr : FileHdr) (fd : InDes) :
    CpioRead :=
  let hdr := { hdr with cTarLinkname := .empty }
  let r := taruTapeBufferedRead fd 6
  if r.1 ≠ 6 then { ret := -1, hdr := hdr, fd := r.2.2 }
  else
    searchMagic format stale hdr r.2.2.kind r.2.1 6 r.2.2.data

/-! ## The numbers of a device -/

/-- The low half of a device number is the low byte of each of its parts. -/
theorem toNat_low16_makedev (a b : UInt64) :
    (low16 (makedev a b)).toNat = a.toNat % 256 * 256 + b.toNat % 256 := by
  have hand (x : Nat) : x &&& 0xFFFF = x % 2 ^ 16 := Nat.and_two_pow_sub_one_eq_mod x 16
  have h8 (x : Nat) : x &&& 255 = x % 2 ^ 8 := Nat.and_two_pow_sub_one_eq_mod x 8
  have h12 (x : Nat) : x &&& 4095 = x % 2 ^ 12 := Nat.and_two_pow_sub_one_eq_mod x 12
  have hhigh : (b.toNat % 2 ^ 32 &&& 4294967040) % 2 ^ 8 = 0 := by
    rw [Nat.and_mod_two_pow, show 4294967040 % 2 ^ 8 = 0 from rfl, Nat.and_zero]
  have hor := Nat.shiftLeft_add_eq_or_of_lt (show b.toNat % 256 < 2 ^ 8 by omega)
    (a.toNat % 256)
  rw [Nat.shiftLeft_eq] at hor
  unfold low16 makedev
  simp only [UInt64.toNat_and, UInt64.toNat_or, UInt64.toNat_shiftLeft, UInt32.toNat_toUInt64,
    UInt32.toNat_and, UInt64.toNat_toUInt32, UInt64.reduceToNat, UInt32.reduceToNat, hand,
    Nat.or_mod_two_pow, h8, h12, Nat.shiftLeft_eq, Nat.reduceMod]
  generalize b.toNat % 2 ^ 32 &&& 4294967040 = z at hhigh ⊢
  generalize a.toNat % 2 ^ 32 &&& 4294963200 = y
  rw [show a.toNat % 2 ^ 32 % 2 ^ 12 * 2 ^ 8 % 2 ^ 64 % 2 ^ 16 = a.toNat % 256 * 2 ^ 8 by omega,
    show y * 2 ^ 32 % 2 ^ 64 % 2 ^ 16 = 0 by omega,
    show b.toNat % 2 ^ 32 % 2 ^ 8 % 2 ^ 16 = b.toNat % 256 by omega,
    show z * 2 ^ 12 % 2 ^ 64 % 2 ^ 16 = 0 by omega, Nat.or_zero, Nat.or_zero, ← hor]

theorem toNat_devMajor {dev : UInt64} (h : dev.toNat < 2 ^ 16) :
    (devMajor dev).toNat = dev.toNat / 256 := by
  have h12 (x : Nat) : x &&& 4095 = x % 2 ^ 12 := Nat.and_two_pow_sub_one_eq_mod x 12
  unfold devMajor
  simp only [UInt64.toNat_or, UInt64.toNat_and, UInt64.toNat_shiftRight, UInt64.reduceToNat, h12,
    Nat.shiftRight_eq_div_pow, Nat.reduceMod]
  rw [show dev.toNat / 2 ^ 32 = 0 by omega, Nat.zero_and, Nat.or_zero]
  omega

theorem toNat_devMinor {dev : UInt64} (h : dev.toNat < 2 ^ 16) :
    (devMinor dev).toNat = dev.toNat % 256 := by
  have h8 (x : Nat) : x &&& 255 = x % 2 ^ 8 := Nat.and_two_pow_sub_one_eq_mod x 8
  have hlow : dev.toNat / 2 ^ 12 &&& 4294967040 = 0 := by
    have hlt : dev.toNat / 2 ^ 12 < 2 ^ 8 := by omega
    rw [← Nat.mod_eq_of_lt (lt_of_le_of_lt Nat.and_le_left hlt), Nat.and_mod_two_pow,
      show 4294967040 % 2 ^ 8 = 0 from rfl, Nat.and_zero]
  unfold devMinor
  simp only [UInt64.toNat_or, UInt64.toNat_and, UInt64.toNat_shiftRight, UInt64.reduceToNat, h8,
    Nat.shiftRight_eq_div_pow, Nat.reduceMod, hlow, Nat.or_zero]
  rfl

/-! ## What a header says -/

/-- The radix of a format. -/
def CpioFormat.radix (format : CpioFormat) : Radix := if format.isNew then hexadecimal else octal

theorem CpioFormat.plain (format : CpioFormat) : format.radix.Plain := by
  unfold CpioFormat.radix
  split
  · exact hexadecimal_plain
  · exact octal_plain

/-- The numbers of an old header, as they are. -/
def oldAsciiNumbers (dev rdev : UInt64) (hdr : FileHdr) : List (Nat × Nat) :=
  [(6, dev.toNat), (6, hdr.cIno.toNat), (6, hdr.cMode.toNat), (6, hdr.cUid.toNat),
    (6, hdr.cGid.toNat), (6, hdr.cNlink.toNat), (6, rdev.toNat), (11, hdr.cMtime.toNat),
    (6, hdr.cNamesize.toNat), (11, hdr.cFilesize.toNat)]

theorem sum_newAsciiFields (hdr : FileHdr) : ((newAsciiFields hdr).map Prod.fst).sum = 104 := by
  simp only [newAsciiFields, List.map_cons, List.map_nil, List.sum_cons, List.sum_nil,
    Nat.reduceAdd]

theorem sum_oldAsciiNumbers (dev rdev : UInt64) (hdr : FileHdr) :
    ((oldAsciiNumbers dev rdev hdr).map Prod.fst).sum = 70 := by
  simp only [oldAsciiNumbers, List.map_cons, List.map_nil, List.sum_cons, List.sum_nil,
    Nat.reduceAdd]

/-- The numbers of a header of the format. -/
def headerNumbers (format : CpioFormat) (dev rdev : UInt64) (hdr : FileHdr) : List (Nat × Nat) :=
  if format.isNew then newAsciiFields hdr else oldAsciiNumbers dev rdev hdr

/-- A row of numbers fits its fields. -/
def NumbersFit (r : Radix) (fields : List (Nat × Nat)) : Prop :=
  ∀ f ∈ fields, 0 < f.1 ∧ f.2 < r.base ^ f.1

/-- The text of a header. -/
def headerText (format : CpioFormat) (dev rdev : UInt64) (hdr : FileHdr) : Bytes :=
  format.magic ++ fieldsText format.radix (headerNumbers format dev rdev hdr)

/-- A text of digits holds no NUL. -/
theorem ofMem_fieldsText {r : Radix} (hr : r.isDigit 0 = false) (fields : List (Nat × Nat)) :
    (CString.ofMem (fieldsText r fields)).bytes = fieldsText r fields := by
  refine List.takeWhile_eq_self_iff.mpr fun b hb => ?_
  obtain ⟨f, -, hb⟩ := List.mem_flatMap.mp hb
  have hd := r.isDigit_of_mem_fixed f.1 f.2 b hb
  have hz : b ≠ 0 := by
    rintro rfl
    rw [hr] at hd
    cases hd
  simpa using hz

/-- The numbers of a new header, read into `hdr₀`. -/
def readNew (hdr hdr₀ : FileHdr) : FileHdr :=
  { hdr₀ with
    cIno := hdr.cIno, cMode := hdr.cMode, cUid := hdr.cUid, cGid := hdr.cGid
    cNlink := hdr.cNlink, cMtime := hdr.cMtime, cFilesize := hdr.cFilesize
    cDevMaj := hdr.cDevMaj, cDevMin := hdr.cDevMin, cRdevMaj := hdr.cRdevMaj
    cRdevMin := hdr.cRdevMin, cNamesize := hdr.cNamesize, cChksum := hdr.cChksum }

/-- The numbers of an old header, read into `hdr₀`. -/
def readOld (dev rdev : UInt64) (hdr hdr₀ : FileHdr) : FileHdr :=
  { hdr₀ with
    cIno := hdr.cIno, cMode := hdr.cMode, cUid := hdr.cUid, cGid := hdr.cGid
    cNlink := hdr.cNlink, cMtime := hdr.cMtime, cFilesize := hdr.cFilesize
    cDevMaj := devMajor dev, cDevMin := devMinor dev, cRdevMaj := devMajor rdev
    cRdevMin := devMinor rdev, cNamesize := hdr.cNamesize }

section

variable {format : CpioFormat} {dev rdev : UInt64} {hdr : FileHdr}
  (hfit : NumbersFit format.radix (headerNumbers format dev rdev hdr))
include hfit

theorem assignFields_new (hnew : format.isNew = true) (hdr₀ : FileHdr) :
    assignFields newAsciiSetters
      (scanULongs hexadecimal (List.replicate 13 8)
        (CString.ofMem (fieldsText hexadecimal (newAsciiFields hdr))).bytes) hdr₀ =
      readNew hdr hdr₀ := by
  rw [CpioFormat.radix, if_pos hnew, headerNumbers, if_pos hnew] at hfit
  have hscan := scanULongs_fieldsText hexadecimal_plain hfit []
  rw [List.append_nil] at hscan
  rw [ofMem_fieldsText (by decide)]
  change assignFields newAsciiSetters (scanULongs hexadecimal
    ((newAsciiFields hdr).map Prod.fst) _) hdr₀ = _
  rw [hscan]
  simp [assignFields, newAsciiSetters, newAsciiFields, readNew]

theorem assignFields_old (hold : format.isNew = false) (hdr₀ : FileHdr) :
    assignFields oldAsciiSetters
      (scanULongs octal [6, 6, 6, 6, 6, 6, 6, 11, 6, 11]
        (CString.ofMem (fieldsText octal (oldAsciiNumbers dev rdev hdr))).bytes) hdr₀ =
      readOld dev rdev hdr hdr₀ := by
  have hn : ¬ format.isNew = true := by simp [hold]
  rw [CpioFormat.radix, if_neg hn, headerNumbers, if_neg hn] at hfit
  have hscan := scanULongs_fieldsText octal_plain hfit []
  rw [List.append_nil] at hscan
  rw [ofMem_fieldsText (by decide)]
  change assignFields oldAsciiSetters (scanULongs octal
    ((oldAsciiNumbers dev rdev hdr).map Prod.fst) _) hdr₀ = _
  rw [hscan]
  simp [assignFields, oldAsciiSetters, oldAsciiNumbers, readOld]

end

/-! ## What the reader makes of a header -/

theorem CpioFormat.length_magic (format : CpioFormat) : format.magic.length = 6 := by
  cases format <;> rfl

/-- A magic number at the start is found at once. -/
theorem taruReadInHeader_magic (format : CpioFormat) (stale : Bytes) (hdr₀ : FileHdr)
    (kind : FdKind) (data : Bytes) :
    taruReadInHeader format stale hdr₀ ⟨kind, format.magic ++ data⟩ =
      readBehindMagic format stale (putMagic format.magic { hdr₀ with cTarLinkname := .empty }) 6
        ⟨kind, data⟩ := by
  rw [taruReadInHeader, taruTapeBufferedRead_append format.length_magic]
  simp only [ne_eq, not_true_eq_false, if_false]
  cases data <;> rw [searchMagic, if_pos rfl]

section

variable {format : CpioFormat} {dev rdev : UInt64} {hdr : FileHdr}
  (hfit : NumbersFit format.radix (headerNumbers format dev rdev hdr)) (stale : Bytes)
  (hdr₀ : FileHdr) (kind : FdKind) (tail : Bytes)
include hfit

/-- A new header, whatever follows it. -/
theorem taruiReadInNewAscii_header (hnew : format.isNew = true) :
    taruiReadInNewAscii format stale hdr₀
        ⟨kind, fieldsText hexadecimal (newAsciiFields hdr) ++ tail⟩ =
      if 6000 < hdr.cNamesize then { ret := 1, hdr := readNew hdr hdr₀, fd := ⟨kind, tail⟩ }
      else
        let name := taruTapeBufferedRead ⟨kind, tail⟩ hdr.cNamesize.toNat
        let skip := taruTapeSkipPadding name.2.2 (104 + hdr.cNamesize.toNat + 6) format
        { ret := (104 + hdr.cNamesize.toNat : Nat) + (skip.1 : Nat)
          hdr := { readNew hdr hdr₀ with cName := .ofMem (name.2.1 ++ stale) }
          fd := skip.2 } := by
  have hlen : (fieldsText hexadecimal (newAsciiFields hdr)).length = 104 := by
    rw [length_fieldsText, sum_newAsciiFields]
  rw [taruiReadInNewAscii, taruTapeBufferedRead_append hlen]
  simp only [ne_eq, not_true_eq_false, if_false, taruiReadNewAsciiFromBuf,
    assignFields_new hfit hnew]
  by_cases hns : 6000 < hdr.cNamesize
  · have hns' : 6000 < (readNew hdr hdr₀).cNamesize := hns
    simp only [if_pos hns, if_pos hns']
    rfl
  · have hns' : ¬ 6000 < (readNew hdr hdr₀).cNamesize := hns
    simp only [if_neg hns, if_neg hns']
    rfl

/-- An old header, whatever follows it. -/
theorem taruReadInOldAscii2_header (hold : format.isNew = false) :
    taruReadInOldAscii2 stale hdr₀
        ⟨kind, fieldsText octal (oldAsciiNumbers dev rdev hdr) ++ tail⟩ =
      let name := taruTapeBufferedRead ⟨kind, tail⟩ hdr.cNamesize.toNat
      let hdr' := { readOld dev rdev hdr hdr₀ with cName := .ofMem (name.2.1 ++ stale) }
      if (name.1 : Int) ≠ toCInt hdr.cNamesize.toNat then
        { ret := -70, hdr := hdr', fd := name.2.2 }
      else { ret := toCInt (70 + hdr.cNamesize.toNat), hdr := fixHpux hdr', fd := name.2.2 } := by
  have hlen : (fieldsText octal (oldAsciiNumbers dev rdev hdr)).length = 70 := by
    rw [length_fieldsText, sum_oldAsciiNumbers]
  rw [taruReadInOldAscii2, taruTapeBufferedRead_append hlen]
  simp only [ne_eq, not_true_eq_false, if_false, assignFields_old hfit hold]
  rfl

end

/-! ## A header with a bad name -/

/-- A read that cannot be filled returns less. -/
theorem taruTapeBufferedRead_short {kind : FdKind} {data : Bytes} {n : Nat} (h : data.length < n) :
    (taruTapeBufferedRead ⟨kind, data⟩ n).1 < n := by
  rw [taruTapeBufferedRead, if_neg (by simpa using h)]
  cases kind with
  | unix => exact Nat.zero_lt_of_lt h
  | uxfio => exact h

section

variable {format : CpioFormat} {dev rdev : UInt64} {hdr : FileHdr}
  (hfit : NumbersFit format.radix (headerNumbers format dev rdev hdr)) (stale : Bytes)
  (hdr₀ : FileHdr) (kind : FdKind) (tail : Bytes)
include hfit

/-- The reader of the new formats reports no error behind a complete header. -/
theorem ret_pos_of_isNew (hnew : format.isNew = true) :
    0 < (taruReadInHeader format stale hdr₀ ⟨kind, headerText format dev rdev hdr ++ tail⟩).ret := by
  have hread := taruiReadInNewAscii_header hfit stale
    (putMagic format.magic { hdr₀ with cTarLinkname := .empty }) kind tail hnew
  rw [headerText, headerNumbers, if_pos hnew, CpioFormat.radix, if_pos hnew, List.append_assoc,
    taruReadInHeader_magic, readBehindMagic]
  simp only [if_pos hnew, hread]
  by_cases hns : 6000 < hdr.cNamesize
  · simp only [if_pos hns]
    rw [if_neg (by decide)]
    exact (by decide : (0 : Int) < 6 + 1)
  · simp only [if_neg hns]
    rw [if_neg (by omega)]
    simp only
    omega

/-- The reader of the old format reports a name that is cut off. -/
theorem ret_neg_of_old (hold : format.isNew = false) (hcut : tail.length < hdr.cNamesize.toNat) :
    (taruReadInHeader format stale hdr₀ ⟨kind, headerText format dev rdev hdr ++ tail⟩).ret = -6 := by
  have hn : ¬ format.isNew = true := by simp [hold]
  have hread := taruReadInOldAscii2_header hfit stale
    (putMagic format.magic { hdr₀ with cTarLinkname := .empty }) kind tail hold
  have hshort : (taruTapeBufferedRead ⟨kind, tail⟩ hdr.cNamesize.toNat).1 < hdr.cNamesize.toNat :=
    taruTapeBufferedRead_short hcut
  have hlt : hdr.cNamesize.toNat < 2 ^ 31 := by
    rw [CpioFormat.radix, if_neg hn, headerNumbers, if_neg hn] at hfit
    have hns : hdr.cNamesize.toNat < 8 ^ 6 :=
      (hfit (6, hdr.cNamesize.toNat) (by simp [oldAsciiNumbers])).2
    omega
  rw [headerText, headerNumbers, if_neg hn, CpioFormat.radix, if_neg hn, List.append_assoc,
    taruReadInHeader_magic, readBehindMagic]
  have hne : ((taruTapeBufferedRead ⟨kind, tail⟩ hdr.cNamesize.toNat).1 : Int) ≠
      hdr.cNamesize.toNat := by omega
  simp only [if_neg hn, hread, toCInt_of_lt hlt, if_pos hne]
  rfl

end

/-! ## What the writer writes -/

/-- Numbers that fit are printed without overflow. -/
theorem asciiHeader_eq {magic : Bytes} {r : Radix} {fields : List (Nat × Nat)}
    (h : NumbersFit r fields) : asciiHeader magic r fields = magic ++ fieldsText r fields := by
  unfold asciiHeader fieldsText
  congr 1
  induction fields with
  | nil => rfl
  | cons f fields ih =>
      obtain ⟨hw, hf⟩ := h f List.mem_cons_self
      rw [List.flatMap_cons, List.flatMap_cons, r.padded_eq_fixed hw hf,
        ih fun g hg => h g (List.mem_cons_of_mem _ hg)]

theorem stripped_cName_length_le (flags : TarFlags) (hdr : FileHdr) :
    (stripped flags hdr).cName.bytes.length ≤ hdr.cName.bytes.length := by
  unfold stripped
  split
  · exact (stripSlashes_suffix _).length_le
  · exact le_refl _

/-- The memory of the name ends with the terminator of the name that was given. -/
theorem nameMemory_length (flags : TarFlags) (hdr : FileHdr) :
    (nameMemory flags hdr).length = hdr.cName.strlen + 1 := by
  have hle := stripped_cName_length_le flags hdr
  simp only [nameMemory, CString.strlen, List.length_append, List.length_drop,
    List.length_singleton]
  omega

/-- The name at the start of the memory. -/
theorem ofMem_nameMemory (flags : TarFlags) (hdr : FileHdr) (mem : Bytes) :
    CString.ofMem (nameMemory flags hdr ++ mem) = (stripped flags hdr).cName := by
  rw [nameMemory, List.append_assoc, List.append_assoc]
  exact CString.ofMem_append_nul _ _

/-- Taking off slashes changes nothing but the name. -/
theorem stripped_eq (flags : TarFlags) (hdr : FileHdr) :
    ∃ name, stripped flags hdr = { hdr with cName := name } := by
  unfold stripped
  split
  · exact ⟨_, rfl⟩
  · exact ⟨_, rfl⟩

theorem length_headerText (format : CpioFormat) (dev rdev : UInt64) (hdr : FileHdr) :
    (headerText format dev rdev hdr).length = if format.isNew then 110 else 76 := by
  rw [headerText, List.length_append, format.length_magic, length_fieldsText, headerNumbers]
  split
  · rw [sum_newAsciiFields]
  · rw [sum_oldAsciiNumbers]

/-- The header as the writer leaves it: without leading slashes, and without a
checksum in the format that has none. -/
def written (format : CpioFormat) (flags : TarFlags) (hdr : FileHdr) : FileHdr :=
  if format = .newascii then { stripped flags hdr with cChksum := 0 } else stripped flags hdr

/-- The numbers that are written in an old header. -/
def lowHdr (hdr : FileHdr) : FileHdr :=
  { hdr with
    cIno := low16 hdr.cIno, cMode := low16 hdr.cMode, cUid := low16 hdr.cUid
    cGid := low16 hdr.cGid, cNlink := low16 hdr.cNlink, cNamesize := low16 hdr.cNamesize }

/-- The header that is printed. -/
def printed (format : CpioFormat) (flags : TarFlags) (hdr : FileHdr) : FileHdr :=
  if format.isNew then written format flags hdr else lowHdr (stripped flags hdr)

/-- The numbers of the header fit the fields of the format. -/
def Fits (format : CpioFormat) (hdr : FileHdr) : Prop :=
  if format.isNew then NumbersFit hexadecimal (newAsciiFields hdr)
  else NumbersFit octal (oldAsciiNumbers 0 0 hdr)

theorem low16_toNat (v : UInt64) : (low16 v).toNat = v.toNat % 2 ^ 16 := by
  rw [low16, UInt64.toNat_and]
  exact Nat.and_two_pow_sub_one_eq_mod v.toNat 16

theorem low16_eq_iff (v : UInt64) : low16 v = v ↔ v.toNat < 2 ^ 16 := by
  rw [← UInt64.toNat_inj, low16_toNat]
  omega

/-- What is printed fits. -/
theorem numbersFit_printed {format : CpioFormat} (flags : TarFlags) {hdr : FileHdr}
    (hfit : Fits format hdr) :
    NumbersFit format.radix (headerNumbers format (low16 (makedev hdr.cDevMaj hdr.cDevMin))
      (low16 (makedev hdr.cRdevMaj hdr.cRdevMin)) (printed format flags hdr)) := by
  unfold Fits at hfit
  obtain ⟨name, hs⟩ := stripped_eq flags hdr
  unfold CpioFormat.radix headerNumbers printed written
  rw [hs]
  split at hfit
  next hnew =>
    simp only [if_pos hnew]
    split
    · simp only [NumbersFit, newAsciiFields, List.forall_mem_cons] at hfit ⊢
      simp only [hfit, and_self, true_and]
      simp
    · exact hfit
  next hold =>
    have hlow (v : UInt64) : (low16 v).toNat < octal.base ^ 6 := by
      rw [low16_toNat, octal_base]
      omega
    simp only [if_neg hold]
    simp only [NumbersFit, oldAsciiNumbers, List.forall_mem_cons, lowHdr] at hfit ⊢
    simp only [hlow, hfit, and_self, true_and]
    simp

/-- A text that fits its buffer is written whole. -/
theorem writeAscii_eq {size count : Nat} {text mem : Bytes} {hdr : FileHdr} (pad : Nat)
    (htext : text.length = count) (hsize : count < size)
    (hmem : mem.length = hdr.cNamesize.toNat) :
    writeAscii size count text mem hdr pad =
      some { ret := count + hdr.cNamesize.toNat + pad
             bytes := text ++ mem ++ List.replicate pad 0, hdr := hdr } := by
  rw [writeAscii, if_neg (by omega), List.take_of_length_le htext.le,
    List.take_of_length_le hmem.le]

/-- The bytes that are written. -/
def writtenBytes (format : CpioFormat) (flags : TarFlags) (hdr : FileHdr) : Bytes :=
  headerText format (low16 (makedev hdr.cDevMaj hdr.cDevMin))
      (low16 (makedev hdr.cRdevMaj hdr.cRdevMin)) (printed format flags hdr) ++
    nameMemory flags hdr ++ List.replicate (cpioPad format (hdr.cNamesize.toNat + 110)) 0

/-- What the writer writes. -/
theorem taruWriteOutHeader_eq {format : CpioFormat} (hformat : format ≠ .hpoldascii)
    (flags : TarFlags) {hdr : FileHdr} (hfit : Fits format hdr)
    (hname : hdr.cNamesize.toNat = hdr.cName.strlen + 1) :
    taruWriteOutHeader format flags hdr =
      some
        { ret := (if format.isNew then 110 else 76 : Nat) + hdr.cNamesize.toNat +
            cpioPad format (hdr.cNamesize.toNat + 110)
          bytes := writtenBytes format flags hdr
          hdr := written format flags hdr } := by
  have hnum := numbersFit_printed flags hfit
  have hlen := length_headerText format (low16 (makedev hdr.cDevMaj hdr.cDevMin))
    (low16 (makedev hdr.cRdevMaj hdr.cRdevMin)) (printed format flags hdr)
  have hmem : (nameMemory flags hdr).length = hdr.cNamesize.toNat := by
    rw [nameMemory_length, hname]
  obtain ⟨name, hs⟩ := stripped_eq flags hdr
  rw [headerText, ← asciiHeader_eq hnum] at hlen
  rw [writtenBytes, headerText, ← asciiHeader_eq hnum]
  unfold printed written at hlen ⊢
  rw [taruWriteOutHeader]
  simp only [hs] at hlen ⊢
  cases format with
  | newascii => exact writeAscii_eq _ hlen (by decide) hmem
  | crcascii => exact writeAscii_eq _ hlen (by decide) hmem
  | oldascii => exact writeAscii_eq _ hlen (by decide) hmem
  | hpoldascii => exact absurd rfl hformat

/-! ## The round trip -/

/-- The numbers of the format, and the name, are the same. -/
structure SameHeader (format : CpioFormat) (a b : FileHdr) : Prop where
  ino : a.cIno = b.cIno
  mode : a.cMode = b.cMode
  uid : a.cUid = b.cUid
  gid : a.cGid = b.cGid
  nlink : a.cNlink = b.cNlink
  mtime : a.cMtime = b.cMtime
  filesize : a.cFilesize = b.cFilesize
  devMaj : a.cDevMaj = b.cDevMaj
  devMin : a.cDevMin = b.cDevMin
  rdevMaj : a.cRdevMaj = b.cRdevMaj
  rdevMin : a.cRdevMin = b.cRdevMin
  namesize : a.cNamesize = b.cNamesize
  chksum : format.isNew = true → a.cChksum = b.cChksum
  name : a.cName = b.cName

/-- The header is read back, with anything behind it and whatever the reader's
own header and name buffer held before, and as many bytes are counted. -/
def RoundTrips (format : CpioFormat) (flags : TarFlags) (hdr : FileHdr) : Prop :=
  ∃ w, taruWriteOutHeader format flags hdr = some w ∧
    ∀ kind rest stale hdr₀,
      (taruReadInHeader format stale hdr₀ ⟨kind, w.bytes ++ rest⟩).ret = w.ret ∧
        SameHeader format (taruReadInHeader format stale hdr₀ ⟨kind, w.bytes ++ rest⟩).hdr hdr

/-- The padding that the reader skips is the one that was written. -/
theorem taruTapeSkipPadding_append (format : CpioFormat) (kind : FdKind) (offset : Nat)
    (rest : Bytes) :
    taruTapeSkipPadding ⟨kind, List.replicate (cpioPad format offset) 0 ++ rest⟩ offset format =
      (cpioPad format offset, ⟨kind, rest⟩) := by
  rw [taruTapeSkipPadding]
  generalize cpioPad format offset = pad
  by_cases h : pad = 0
  · simp [h]
  · simp only [ne_eq, h, not_false_eq_true, if_true,
      taruTapeBufferedRead_append (List.length_replicate (n := pad) (a := (0 : UInt8)))]

section

variable {format : CpioFormat} (flags : TarFlags) {hdr : FileHdr} (hfit : Fits format hdr)
  (hname : hdr.cNamesize.toNat = hdr.cName.strlen + 1) (stale : Bytes) (hdr₀ : FileHdr)
  (kind : FdKind) (rest : Bytes)
include hfit hname

/-- A new header as it was written, behind the magic number. -/
theorem taruiReadInNewAscii_written (hnew : format.isNew = true) :
    taruiReadInNewAscii format stale hdr₀
        ⟨kind, fieldsText hexadecimal (newAsciiFields (written format flags hdr)) ++
          (nameMemory flags hdr ++
            (List.replicate (cpioPad format (hdr.cNamesize.toNat + 110)) 0 ++ rest))⟩ =
      if 6000 < hdr.cNamesize then
        { ret := 1, hdr := readNew (written format flags hdr) hdr₀
          fd := ⟨kind, nameMemory flags hdr ++
            (List.replicate (cpioPad format (hdr.cNamesize.toNat + 110)) 0 ++ rest)⟩ }
      else
        { ret := (104 + hdr.cNamesize.toNat : Nat) +
            (cpioPad format (hdr.cNamesize.toNat + 110) : Nat)
          hdr := { readNew (written format flags hdr) hdr₀ with
            cName := (stripped flags hdr).cName }
          fd := ⟨kind, rest⟩ } := by
  have hnum := numbersFit_printed flags hfit
  rw [printed, if_pos hnew] at hnum
  have hsize : (written format flags hdr).cNamesize = hdr.cNamesize := by
    obtain ⟨name, hs⟩ := stripped_eq flags hdr
    rw [written, hs]
    split <;> rfl
  have hmem : (nameMemory flags hdr).length = hdr.cNamesize.toNat := by
    rw [nameMemory_length, hname]
  rw [taruiReadInNewAscii_header hnum _ _ _ _ hnew, hsize]
  split
  · rfl
  · rw [taruTapeBufferedRead_append hmem]
    simp only [ofMem_nameMemory]
    rw [show 104 + hdr.cNamesize.toNat + 6 = hdr.cNamesize.toNat + 110 by omega,
      taruTapeSkipPadding_append]

/-- A new header as it was written: a name that is too long is answered with 7,
and otherwise everything is read and counted. -/
theorem taruReadInHeader_written_new (hnew : format.isNew = true) :
    (6000 < hdr.cNamesize →
      (taruReadInHeader format stale hdr₀ ⟨kind, writtenBytes format flags hdr ++ rest⟩).ret = 7) ∧
    (¬ 6000 < hdr.cNamesize →
      (taruReadInHeader format stale hdr₀ ⟨kind, writtenBytes format flags hdr ++ rest⟩).ret =
          110 + hdr.cNamesize.toNat + cpioPad format (hdr.cNamesize.toNat + 110) ∧
        ∃ hdr₁, (taruReadInHeader format stale hdr₀
            ⟨kind, writtenBytes format flags hdr ++ rest⟩).hdr =
          { readNew (written format flags hdr) hdr₁ with
            cName := (stripped flags hdr).cName }) := by
  have hread := taruiReadInNewAscii_written flags hfit hname stale
    (putMagic format.magic { hdr₀ with cTarLinkname := .empty }) kind rest hnew
  rw [writtenBytes, headerText, headerNumbers, if_pos hnew, CpioFormat.radix, if_pos hnew, printed,
    if_pos hnew, List.append_assoc, List.append_assoc, List.append_assoc, taruReadInHeader_magic,
    readBehindMagic]
  simp only [if_pos hnew, hread]
  constructor
  · intro hns
    simp only [if_pos hns]
    rw [if_neg (by decide)]
    rfl
  · intro hns
    simp only [if_neg hns]
    rw [if_neg (by omega)]
    refine ⟨?_, _, rfl⟩
    simp only
    omega

/-- A new header is read back when the reader takes a name of its length, the
checksum is written, and the name keeps its slashes. -/
theorem roundTrips_new_iff (hnew : format.isNew = true) :
    RoundTrips format flags hdr ↔
      ¬ 6000 < hdr.cNamesize ∧ (format = .newascii → hdr.cChksum = 0) ∧
        (stripped flags hdr).cName = hdr.cName := by
  have hformat : format ≠ .hpoldascii := by
    rintro rfl
    cases hnew
  have hwrite := taruWriteOutHeader_eq hformat flags hfit hname
  rw [if_pos hnew] at hwrite
  have hread := taruReadInHeader_written_new flags hfit hname
  obtain ⟨name, hs⟩ := stripped_eq flags hdr
  constructor
  · rintro ⟨w, hw, hall⟩
    cases hwrite.symm.trans hw
    obtain ⟨hret, hsame⟩ := hall .unix [] [] {}
    have hns : ¬ 6000 < hdr.cNamesize := by
      intro hns
      rw [(hread [] {} .unix [] hnew).1 hns] at hret
      dsimp only at hret
      omega
    obtain ⟨-, hdr₁, hhdr⟩ := (hread [] {} .unix [] hnew).2 hns
    rw [hhdr] at hsame
    refine ⟨hns, fun hf => ?_, hsame.name⟩
    have hchksum := hsame.chksum hnew
    simp only [readNew, written, if_pos hf] at hchksum
    exact hchksum.symm
  · rintro ⟨hns, hchksum, hstrip⟩
    refine ⟨_, hwrite, fun kind rest stale hdr₀ => ?_⟩
    obtain ⟨hret, hdr₁, hhdr⟩ := (hread stale hdr₀ kind rest hnew).2 hns
    refine ⟨hret, ?_⟩
    rw [hhdr]
    have hwritten : written format flags hdr = { hdr with cName := name } := by
      rw [written, hs]
      split
      next hf => rw [← hchksum hf]
      next => rfl
    rw [hwritten]
    exact ⟨rfl, rfl, rfl, rfl, rfl, rfl, rfl, rfl, rfl, rfl, rfl, rfl, fun _ => rfl, hstrip⟩

end

/-! ## The old format -/

/-- A device that HP/UX would have written, as the reader sees it. -/
def IsHpux (hdr : FileHdr) : Prop :=
  isSpecialType hdr = true ∧ hdr.cFilesize ≠ 0 ∧ hdr.cRdevMaj = 0 ∧ hdr.cRdevMin = 1

/-- A header that the old format carries: what is cut to 16 bits has no more, the
parts of a device have 8, and nothing looks like HP/UX. -/
structure OldCarried (hdr : FileHdr) : Prop where
  ino : hdr.cIno.toNat < 2 ^ 16
  mode : hdr.cMode.toNat < 2 ^ 16
  uid : hdr.cUid.toNat < 2 ^ 16
  gid : hdr.cGid.toNat < 2 ^ 16
  nlink : hdr.cNlink.toNat < 2 ^ 16
  namesize : hdr.cNamesize.toNat < 2 ^ 16
  devMaj : hdr.cDevMaj.toNat < 2 ^ 8
  devMin : hdr.cDevMin.toNat < 2 ^ 8
  rdevMaj : hdr.cRdevMaj.toNat < 2 ^ 8
  rdevMin : hdr.cRdevMin.toNat < 2 ^ 8
  notHpux : ¬ IsHpux hdr

theorem devMajor_low16_makedev_eq_iff (maj min : UInt64) :
    devMajor (low16 (makedev maj min)) = maj ↔ maj.toNat < 2 ^ 8 := by
  have h := toNat_low16_makedev maj min
  rw [← UInt64.toNat_inj, toNat_devMajor (by omega), h]
  omega

theorem devMinor_low16_makedev_eq_iff (maj min : UInt64) :
    devMinor (low16 (makedev maj min)) = min ↔ min.toNat < 2 ^ 8 := by
  have h := toNat_low16_makedev maj min
  rw [← UInt64.toNat_inj, toNat_devMinor (by omega), h]
  omega

/-- The correction touches the size and the device only. -/
theorem fixHpux_eq (hdr : FileHdr) : ∃ maj min size, fixHpux hdr =
    { hdr with cRdevMaj := maj, cRdevMin := min, cFilesize := size } := by
  unfold fixHpux
  split
  · exact ⟨_, _, _, rfl⟩
  · exact ⟨_, _, _, rfl⟩

theorem fixHpux_of_isHpux {hdr : FileHdr} (h : IsHpux hdr) : (fixHpux hdr).cFilesize = 0 := by
  unfold fixHpux
  unfold IsHpux at h
  rw [if_pos h]

theorem fixHpux_of_not {hdr : FileHdr} (h : ¬ IsHpux hdr) : fixHpux hdr = hdr := if_neg h

theorem fixHpux_cNamesize (hdr : FileHdr) : (fixHpux hdr).cNamesize = hdr.cNamesize := by
  obtain ⟨maj, min, size, hfix⟩ := fixHpux_eq hdr
  rw [hfix]

/-- The size of the name is left as it was read. -/
theorem taruReadInOldAscii2_cNamesize {dev rdev : UInt64} {hdr : FileHdr}
    (hfit : NumbersFit CpioFormat.oldascii.radix (headerNumbers .oldascii dev rdev hdr))
    (stale : Bytes) (hdr₀ : FileHdr) (kind : FdKind) (tail : Bytes) :
    (taruReadInOldAscii2 stale hdr₀
      ⟨kind, fieldsText octal (oldAsciiNumbers dev rdev hdr) ++ tail⟩).hdr.cNamesize =
      hdr.cNamesize := by
  rw [taruReadInOldAscii2_header hfit stale hdr₀ kind tail rfl]
  simp only
  split
  · rfl
  · rw [fixHpux_cNamesize]
    rfl

theorem readBehindMagic_old_hdr (stale : Bytes) (hdr : FileHdr) (retval : Int) (fd : InDes) :
    (readBehindMagic .oldascii stale hdr retval fd).hdr = (taruReadInOldAscii2 stale hdr fd).hdr := by
  rw [readBehindMagic]
  simp only [show CpioFormat.oldascii.isNew = false from rfl, Bool.false_eq_true, if_false]
  split
  · rfl
  · rfl

section

variable (flags : TarFlags) {hdr : FileHdr} (hfit : Fits .oldascii hdr)
  (hname : hdr.cNamesize.toNat = hdr.cName.strlen + 1) (stale : Bytes) (hdr₀ : FileHdr)
  (kind : FdKind) (rest : Bytes)

/-- The numbers of an old header as it was written, read into `hdr₀`. -/
def readBack (hdr hdr₀ : FileHdr) : FileHdr :=
  readOld (low16 (makedev hdr.cDevMaj hdr.cDevMin)) (low16 (makedev hdr.cRdevMaj hdr.cRdevMin))
    (lowHdr hdr) hdr₀

include hfit hname

/-- An old header as it was written: the numbers, and, when the size of the name
is not cut, the name and the count. -/
theorem taruReadInHeader_written_old :
    ∃ hdr₁,
      (low16 hdr.cNamesize = hdr.cNamesize →
        (taruReadInHeader .oldascii stale hdr₀ ⟨kind, writtenBytes .oldascii flags hdr ++ rest⟩).ret =
            76 + hdr.cNamesize.toNat ∧
          (taruReadInHeader .oldascii stale hdr₀
              ⟨kind, writtenBytes .oldascii flags hdr ++ rest⟩).hdr =
            fixHpux { readBack hdr hdr₁ with cName := (stripped flags hdr).cName }) ∧
      (taruReadInHeader .oldascii stale hdr₀
          ⟨kind, writtenBytes .oldascii flags hdr ++ rest⟩).hdr.cNamesize =
        low16 hdr.cNamesize := by
  have hnumbers : oldAsciiNumbers (low16 (makedev hdr.cDevMaj hdr.cDevMin))
      (low16 (makedev hdr.cRdevMaj hdr.cRdevMin)) (printed .oldascii flags hdr) =
      oldAsciiNumbers (low16 (makedev hdr.cDevMaj hdr.cDevMin))
        (low16 (makedev hdr.cRdevMaj hdr.cRdevMin)) (lowHdr hdr) := by
    obtain ⟨name, hs⟩ := stripped_eq flags hdr
    rw [printed, if_neg (by decide), hs]
    rfl
  have hnum := numbersFit_printed flags hfit
  rw [headerNumbers, if_neg (by decide), hnumbers] at hnum
  have hmem : (nameMemory flags hdr).length = hdr.cNamesize.toNat := by
    rw [nameMemory_length, hname]
  refine ⟨putMagic CpioFormat.oldascii.magic { hdr₀ with cTarLinkname := .empty }, ?_⟩
  have hread := taruReadInOldAscii2_header hnum stale
    (putMagic CpioFormat.oldascii.magic { hdr₀ with cTarLinkname := .empty }) kind
    (nameMemory flags hdr ++ rest) rfl
  have hbytes : writtenBytes .oldascii flags hdr ++ rest =
      CpioFormat.oldascii.magic ++ (fieldsText octal (oldAsciiNumbers
        (low16 (makedev hdr.cDevMaj hdr.cDevMin)) (low16 (makedev hdr.cRdevMaj hdr.cRdevMin))
        (lowHdr hdr)) ++ (nameMemory flags hdr ++ rest)) := by
    rw [writtenBytes, headerText, headerNumbers, if_neg (by decide), hnumbers, cpioPad,
      if_neg (by decide), List.replicate_zero, List.append_nil, List.append_assoc,
      List.append_assoc]
    rfl
  rw [hbytes, taruReadInHeader_magic]
  constructor
  · intro hlow
    rw [readBehindMagic, hread]
    simp only [show CpioFormat.oldascii.isNew = false from rfl, Bool.false_eq_true, if_false]
    have hsize : (lowHdr hdr).cNamesize = hdr.cNamesize := hlow
    have hlt := (low16_eq_iff _).mp hlow
    rw [hsize, taruTapeBufferedRead_append hmem, toCInt_of_lt (by omega)]
    have hcount : toCInt (70 + (hdr.cNamesize.toNat : Int)) = 70 + hdr.cNamesize.toNat :=
      toCInt_of_lt (v := 70 + hdr.cNamesize.toNat) (by omega)
    simp only [ne_eq, not_true_eq_false, if_false, hcount, ofMem_nameMemory]
    rw [if_neg (by omega)]
    refine ⟨by simp only; omega, rfl⟩
  · rw [readBehindMagic_old_hdr]
    exact taruReadInOldAscii2_cNamesize hnum _ _ _ _

omit hfit hname in
/-- An old header as it was written looks as HP/UX's exactly when it does so
before. -/
theorem isHpux_readBack {hdr₁ : FileHdr} {name : CString}
    (hmode : low16 hdr.cMode = hdr.cMode)
    (hmaj : devMajor (low16 (makedev hdr.cRdevMaj hdr.cRdevMin)) = hdr.cRdevMaj)
    (hmin : devMinor (low16 (makedev hdr.cRdevMaj hdr.cRdevMin)) = hdr.cRdevMin) :
    IsHpux { readBack hdr hdr₁ with cName := name } ↔ IsHpux hdr := by
  unfold IsHpux isSpecialType FileHdr.fileType readBack readOld lowHdr
  simp only [hmode, hmaj, hmin]

/-- An old header is read back exactly when the format carries it and the name
keeps its slashes. -/
theorem roundTrips_old_iff :
    RoundTrips .oldascii flags hdr ↔
      OldCarried hdr ∧ (stripped flags hdr).cName = hdr.cName := by
  have hwrite := taruWriteOutHeader_eq (by decide) flags hfit hname
  have hread := taruReadInHeader_written_old flags hfit hname
  constructor
  · rintro ⟨w, hw, hall⟩
    cases hwrite.symm.trans hw
    obtain ⟨-, hsame⟩ := hall .unix [] [] {}
    dsimp only at hsame
    obtain ⟨hdr₁, hwhole, hsize⟩ := hread [] {} .unix []
    have hlow := hsame.namesize
    rw [hsize] at hlow
    rw [(hwhole hlow).2] at hsame
    have hnot : ¬ IsHpux { readBack hdr hdr₁ with cName := (stripped flags hdr).cName } := by
      intro h
      have hfile := hsame.filesize
      rw [fixHpux_of_isHpux h] at hfile
      obtain ⟨-, hne, -⟩ := h
      exact hne hfile.symm
    rw [fixHpux_of_not hnot] at hsame
    rw [isHpux_readBack hsame.mode hsame.rdevMaj hsame.rdevMin] at hnot
    refine ⟨⟨(low16_eq_iff _).mp hsame.ino, (low16_eq_iff _).mp hsame.mode,
      (low16_eq_iff _).mp hsame.uid, (low16_eq_iff _).mp hsame.gid, (low16_eq_iff _).mp hsame.nlink,
      (low16_eq_iff _).mp hlow, (devMajor_low16_makedev_eq_iff _ _).mp hsame.devMaj,
      (devMinor_low16_makedev_eq_iff _ _).mp hsame.devMin,
      (devMajor_low16_makedev_eq_iff _ _).mp hsame.rdevMaj,
      (devMinor_low16_makedev_eq_iff _ _).mp hsame.rdevMin, hnot⟩, hsame.name⟩
  · rintro ⟨hc, hstrip⟩
    refine ⟨_, hwrite, fun kind rest stale hdr₀ => ?_⟩
    obtain ⟨hdr₁, hwhole, -⟩ := hread stale hdr₀ kind rest
    obtain ⟨hret, hhdr⟩ := hwhole ((low16_eq_iff _).mpr hc.namesize)
    have hmode : low16 hdr.cMode = hdr.cMode := (low16_eq_iff _).mpr hc.mode
    have hrmaj := (devMajor_low16_makedev_eq_iff hdr.cRdevMaj hdr.cRdevMin).mpr hc.rdevMaj
    have hrmin := (devMinor_low16_makedev_eq_iff hdr.cRdevMaj hdr.cRdevMin).mpr hc.rdevMin
    refine ⟨hret, ?_⟩
    rw [hhdr, fixHpux_of_not ((isHpux_readBack hmode hrmaj hrmin).not.mpr hc.notHpux)]
    exact ⟨(low16_eq_iff _).mpr hc.ino, hmode, (low16_eq_iff _).mpr hc.uid,
      (low16_eq_iff _).mpr hc.gid, (low16_eq_iff _).mpr hc.nlink, rfl, rfl,
      (devMajor_low16_makedev_eq_iff _ _).mpr hc.devMaj,
      (devMinor_low16_makedev_eq_iff _ _).mpr hc.devMin, hrmaj, hrmin,
      (low16_eq_iff _).mpr hc.namesize, fun h => (by cases h), hstrip⟩

end

/-! ## When the formats work -/

/-- A header that the format carries. -/
def Carried (format : CpioFormat) (flags : TarFlags) (hdr : FileHdr) : Prop :=
  (stripped flags hdr).cName = hdr.cName ∧
    if format.isNew then
      ¬ 6000 < hdr.cNamesize ∧ (format = .newascii → hdr.cChksum = 0)
    else OldCarried hdr

/-- A name that is larger than the reader accepts, or cut off by the end of
input. -/
def BadName (format : CpioFormat) (hdr : FileHdr) (tail : Bytes) : Prop :=
  (format.isNew = true ∧ 6000 < hdr.cNamesize) ∨ tail.length < hdr.cNamesize.toNat

/-- A header whose numbers fit is read back exactly when the format carries it,
and a header with a bad name is reported as an error exactly in the old format. -/
theorem taruReadInHeader_agrees {format : CpioFormat} (hformat : format ≠ .hpoldascii) :
    (∀ flags hdr, Fits format hdr → hdr.cNamesize.toNat = hdr.cName.strlen + 1 →
      (RoundTrips format flags hdr ↔ Carried format flags hdr)) ∧
    ∀ dev rdev hdr stale hdr₀ kind tail,
      NumbersFit format.radix (headerNumbers format dev rdev hdr) → BadName format hdr tail →
        ((taruReadInHeader format stale hdr₀ ⟨kind, headerText format dev rdev hdr ++ tail⟩).ret < 0 ↔
          format = .oldascii) := by
  cases hnew : format.isNew with
  | true =>
      constructor
      · intro flags hdr hfit hname
        rw [roundTrips_new_iff flags hfit hname hnew, Carried, if_pos hnew]
        tauto
      · intro dev rdev hdr stale hdr₀ kind tail hfit hbad
        have hpos := ret_pos_of_isNew hfit stale hdr₀ kind tail hnew
        constructor
        · intro hneg
          omega
        · rintro rfl
          cases hnew
  | false =>
      have hold : format = .oldascii := by
        cases format with
        | newascii => cases hnew
        | crcascii => cases hnew
        | oldascii => rfl
        | hpoldascii => exact absurd rfl hformat
      subst hold
      constructor
      · intro flags hdr hfit hname
        rw [roundTrips_old_iff flags hfit hname, Carried, if_neg (by decide)]
        tauto
      · intro dev rdev hdr stale hdr₀ kind tail hfit hbad
        have hcut : tail.length < hdr.cNamesize.toNat := by
          rcases hbad with ⟨h, -⟩ | h
          · cases h
          · exact h
        rw [ret_neg_of_old hfit stale hdr₀ kind tail hnew hcut]
        exact ⟨fun _ => rfl, fun _ => by decide⟩

/-- A file of one byte with the name `a`. -/
def smallHdr : FileHdr :=
  { cMode := 0o100644, cFilesize := 1, cNlink := 1, cNamesize := 2, cName := ⟨[97], by decide⟩ }

/-- A small file goes through the new format, and a name that is cut off is
reported by the old one. -/
theorem taruReadInHeader_agrees_small :
    RoundTrips .newascii {} smallHdr ∧
      (taruReadInHeader .oldascii [] {} ⟨.unix, headerText .oldascii 0 0 smallHdr⟩).ret < 0 := by
  refine ⟨((taruReadInHeader_agrees (by decide)).1 {} smallHdr ?_ rfl).mpr ?_, ?_⟩
  · unfold Fits NumbersFit
    decide
  · exact ⟨rfl, by decide, fun _ => rfl⟩
  · have h := (@taruReadInHeader_agrees .oldascii (by decide)).2 0 0 smallHdr [] {} .unix []
    rw [List.append_nil] at h
    refine (h ?_ (.inr (by decide))).mpr rfl
    unfold NumbersFit
    decide

/-- A name that is cut off is not reported by the new format. -/
theorem cutName_not_reported :
    BadName .newascii smallHdr [] ∧
      ¬ (taruReadInHeader .newascii [] {} ⟨.unix, headerText .newascii 0 0 smallHdr⟩).ret < 0 := by
  have hfit : NumbersFit CpioFormat.newascii.radix (headerNumbers .newascii 0 0 smallHdr) := by
    unfold NumbersFit
    decide
  have hpos := ret_pos_of_isNew hfit [] {} .unix [] rfl
  rw [List.append_nil] at hpos
  exact ⟨.inr (by decide), by omega⟩

end Swbis.Taru.Cpio
