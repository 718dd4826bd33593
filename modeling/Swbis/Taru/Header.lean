import Swbis.Lib.Outcome
import Swbis.Lib.Numeral

/-!
# The archive header data

The data of `tarhdr.h`, `cpiohdr.h` and `taru.h` that the tar and cpio code
reads and writes: the 512-byte tar record, the format flags, the masks of
extended header fields, the extended attributes and the file header.

A tar record is a structure of fields that carry their sizes, so a record is
512 bytes by construction.  `TarHeader.drop_mode` and its companions say what
stands at the offset of each field, in the record and in the memory behind it.
-/

namespace Swbis.Taru

open CLib

/-! ## Sizes and limits -/

def tarRecordSize : Nat := 512

def tarNameSize : Nat := 100

def tarLinknameSize : Nat := 100

def prefixFieldSize : Nat := 155

def nameFieldSize : Nat := 100

def snameLen : Nat := 32

/-- `07777777`. -/
def tarMax7Octal : Nat := 2097151

def tarMaxUid : Nat := tarMax7Octal

def tarMaxGid : Nat := tarMax7Octal

def tarMaxDevice : Nat := tarMax7Octal

/-- `077777777777`. -/
def tarMaxSize : Nat := 8589934591

/-- The id written when a name is in no database, `07777777`. -/
def nobodyId : UInt32 := 2097151

/-! ## Type flags and file types -/

def aregType : UInt8 := 0

def regType : UInt8 := 48

def lnkType : UInt8 := 49

def symType : UInt8 := 50

def chrType : UInt8 := 51

def blkType : UInt8 := 52

def dirType : UInt8 := 53

def fifoType : UInt8 := 54

/-- `'x'`, extended header. -/
def xhdType : UInt8 := 120

/-- `'g'`, global extended header. -/
def xglType : UInt8 := 103

/-- `'L'`. -/
def gnuTypeLongname : UInt8 := 76

/-- `'K'`. -/
def gnuTypeLonglink : UInt8 := 75

def cpIfmt : UInt64 := 0o170000

def cpIfreg : UInt64 := 0o100000

def cpIfdir : UInt64 := 0o040000

def cpIfchr : UInt64 := 0o020000

def cpIfblk : UInt64 := 0o060000

def cpIfsock : UInt64 := 0o140000

def cpIfifo : UInt64 := 0o010000

def cpIflnk : UInt64 := 0o120000

/-! ## Texts -/

/-- `GNU_LONG_LINK`. -/
def gnuLongLink : CString :=
  ⟨chars ['.', '/', '.', '/', '@', 'L', 'o', 'n', 'g', 'L', 'i', 'n', 'k'], by decide⟩

/-- `CPIO_INBAND_EOA_FILENAME`. -/
def cpioInbandEoaFilename : CString :=
  ⟨chars ['T', 'R', 'A', 'I', 'L', 'E', 'R', '!', '!', '!'], by decide⟩

/-- The slash. -/
def slash : UInt8 := 47

theorem slash_noNul : (0 : UInt8) ∉ [slash] := by decide

/-! ## Format flags -/

/-- The `TARU_TAR_*` bits. -/
structure TarFlags where
  beLikePax : Bool := false
  numericUids : Bool := false
  gnuLongLinks : Bool := false
  gnuGnutar : Bool := false
  beLikeStar : Bool := false
  fragileFormat : Bool := false
  doStripLeadingSlash : Bool := false
  retainHeaderIds : Bool := false
  gnuOldgnutar : Bool := false
  gnuOldgnuposix : Bool := false
  namesize99 : Bool := false
  paxexthdr : Bool := false
  paxexthdrMd : Bool := false
  noOverflow : Bool := false
deriving DecidableEq

/-- The `TARU_EHUM_*` bits. -/
structure ExtHeaderMask where
  atime : Bool := false
  ctime : Bool := false
  gid : Bool := false
  gname : Bool := false
  linkpath : Bool := false
  mtime : Bool := false
  path : Bool := false
  size : Bool := false
  uid : Bool := false
  uname : Bool := false
  any : Bool := false
  devMaj : Bool := false
  devMin : Bool := false
deriving DecidableEq

/-- No bit set. -/
def ExtHeaderMask.zero : ExtHeaderMask := {}

/-! ## Extended attributes and the file header -/

/-- `EXATT`: one slot of the extended attribute list. -/
structure Exatt where
  isInUse : Bool
  /-- At most 99 bytes and a NUL. -/
  vendor : CString
  /-- At most 99 bytes and a NUL. -/
  namespaceName : CString
  attrname : CString
  attrvalue : Bytes
  len : Int
deriving DecidableEq

/-- `taru_exatt_init`. -/
def taruExattInit : Exatt where
  isInUse := false
  vendor := .empty
  namespaceName := .empty
  attrname := .empty
  attrvalue := []
  len := -1

/-- `struct new_cpio_header`, the members the archive code uses.  The digests are
left out. -/
structure FileHdr where
  cMagic : UInt16 := 0
  cIno : UInt64 := 0
  cMode : UInt64 := 0
  cUid : UInt64 := 0
  cGid : UInt64 := 0
  cNlink : UInt64 := 0
  cMtime : UInt64 := 0
  cFilesize : UInt64 := 0
  cDevMaj : UInt64 := 0
  cDevMin : UInt64 := 0
  cRdevMaj : UInt64 := 0
  cRdevMin : UInt64 := 0
  cNamesize : UInt64 := 0
  cChksum : UInt64 := 0
  cName : CString := .empty
  cTarLinkname : CString := .empty
  cUsername : CString := .empty
  cGroupname : CString := .empty
  cCu : UInt8 := 0
  cCg : UInt8 := 0
  cIsTarLnktype : Int := 0
  extHeaderUsageMask : ExtHeaderMask := .zero
  extHeaderNeedsMask : ExtHeaderMask := .zero
  /-- `extattlistM`; `none` is the null pointer. -/
  extattlist : Option (List Exatt) := none
  cAtime : UInt64 := 0
  cAtimeNsec : UInt64 := 0
  cCtime : UInt64 := 0
  cCtimeNsec : UInt64 := 0
deriving DecidableEq

/-- The file type bits of the mode. -/
def FileHdr.fileType (hdr : FileHdr) : UInt64 := hdr.cMode &&& cpIfmt

/-! ## Owner lookup policies -/

/-- `TARU_C_BY_UNONE`, `TARU_C_BY_GNONE`: no lookup. -/
def cByNone : UInt8 := 0

/-- `TARU_C_BY_USYS`, `TARU_C_BY_GSYS`: the default. -/
def cBySys : UInt8 := 1

/-- `TARU_C_BY_UID`, `TARU_C_BY_GID`: the name from the id. -/
def cById : UInt8 := 2

/-- `TARU_C_BY_UNAME`, `TARU_C_BY_GNAME`: the id from the name. -/
def cByName : UInt8 := 3

/-- What a call finds around it: the answers of the user and group databases,
and the memory behind the data in the read buffer.  Every answer and every
contents is possible. -/
structure SysDb where
  /-- `taru_get_uid_by_name`. -/
  uidByName : CString → Option UInt32
  /-- `taru_get_gid_by_name`. -/
  gidByName : CString → Option UInt32
  /-- `getpwuid`. -/
  pwuid : UInt64 → Option CString
  /-- `getgrgid`. -/
  grgid : UInt64 → Option CString
  /-- `taru_get_tar_user_by_uid`: a name, `nobody` for an unknown id. -/
  tarUserByUid : UInt32 → CString
  /-- `taru_get_tar_group_by_gid`. -/
  tarGroupByGid : UInt32 → CString
  /-- The memory of `read_bufferM` behind the NUL that stands at a position,
  where the extended header data end. -/
  readBufferRest : Nat → Bytes
  /-- `taru_read_pax_data_blocks` has allocated room for a record and for `10`
  more bytes. -/
  le_readBufferRest : ∀ nul, tarRecordSize + 10 ≤ (readBufferRest nul).length

/-- Databases without entries, and a read buffer of NULs. -/
def SysDb.blank : SysDb where
  uidByName _ := none
  gidByName _ := none
  pwuid _ := none
  grgid _ := none
  tarUserByUid _ := .empty
  tarGroupByGid _ := .empty
  readBufferRest _ := List.replicate (tarRecordSize + 10) 0
  le_readBufferRest _ := List.length_replicate.ge

/-! ## The tar record -/

/-- `struct tar_header`, and the bytes up to `TARRECORDSIZE`. -/
structure TarHeader where
  name : CField 100 := .zero 100
  mode : CField 8 := .zero 8
  uid : CField 8 := .zero 8
  gid : CField 8 := .zero 8
  size : CField 12 := .zero 12
  mtime : CField 12 := .zero 12
  chksum : CField 8 := .zero 8
  typeflag : UInt8 := 0
  linkname : CField 100 := .zero 100
  magic : CField 6 := .zero 6
  version : CField 2 := .zero 2
  uname : CField 32 := .zero 32
  gname : CField 32 := .zero 32
  devmajor : CField 8 := .zero 8
  devminor : CField 8 := .zero 8
  prefixField : CField 155 := .zero 155
  pad : CField 12 := .zero 12
deriving DecidableEq

namespace TarHeader

/-- The record of NULs, `bzero (&tar_rec, TARRECORDSIZE)`. -/
def zero : TarHeader := {}

variable (h : TarHeader) (mem : Bytes)

/-! Each `from…` is the memory that starts at the field. -/

def fromPad : Bytes := h.pad.bytes ++ mem

def fromPrefix : Bytes := h.prefixField.bytes ++ h.fromPad mem

def fromDevminor : Bytes := h.devminor.bytes ++ h.fromPrefix mem

def fromDevmajor : Bytes := h.devmajor.bytes ++ h.fromDevminor mem

def fromGname : Bytes := h.gname.bytes ++ h.fromDevmajor mem

def fromUname : Bytes := h.uname.bytes ++ h.fromGname mem

def fromVersion : Bytes := h.version.bytes ++ h.fromUname mem

def fromMagic : Bytes := h.magic.bytes ++ h.fromVersion mem

def fromLinkname : Bytes := h.linkname.bytes ++ h.fromMagic mem

def fromTypeflag : Bytes := h.typeflag :: h.fromLinkname mem

def fromChksum : Bytes := h.chksum.bytes ++ h.fromTypeflag mem

def fromMtime : Bytes := h.mtime.bytes ++ h.fromChksum mem

def fromSize : Bytes := h.size.bytes ++ h.fromMtime mem

def fromGid : Bytes := h.gid.bytes ++ h.fromSize mem

def fromUid : Bytes := h.uid.bytes ++ h.fromGid mem

def fromMode : Bytes := h.mode.bytes ++ h.fromUid mem

/-- The record, followed by other memory. -/
def fromName : Bytes := h.name.bytes ++ h.fromMode mem

/-- The bytes of the record. -/
def bytes : Bytes := h.fromName []

/-- The record in memory is its bytes followed by the rest. -/
theorem fromName_eq : h.fromName mem = h.bytes ++ mem := by
  simp [bytes, fromName, fromMode, fromUid, fromGid, fromSize, fromMtime, fromChksum,
    fromTypeflag, fromLinkname, fromMagic, fromVersion, fromUname, fromGname, fromDevmajor,
    fromDevminor, fromPrefix, fromPad]

@[simp] theorem length_bytes : h.bytes.length = tarRecordSize := by
  simp [bytes, fromName, fromMode, fromUid, fromGid, fromSize, fromMtime, fromChksum,
    fromTypeflag, fromLinkname, fromMagic, fromVersion, fromUname, fromGname, fromDevmajor,
    fromDevminor, fromPrefix, fromPad, tarRecordSize]

theorem drop_mode : (h.bytes ++ mem).drop 100 = h.fromMode mem := by
  rw [← fromName_eq]
  exact CField.drop_append h.name 0 _

theorem drop_uid : (h.bytes ++ mem).drop 108 = h.fromUid mem := by
  rw [show 108 = 100 + 8 from rfl, ← List.drop_drop, drop_mode]
  exact CField.drop_append h.mode 0 _

theorem drop_gid : (h.bytes ++ mem).drop 116 = h.fromGid mem := by
  rw [show 116 = 108 + 8 from rfl, ← List.drop_drop, drop_uid]
  exact CField.drop_append h.uid 0 _

theorem drop_size : (h.bytes ++ mem).drop 124 = h.fromSize mem := by
  rw [show 124 = 116 + 8 from rfl, ← List.drop_drop, drop_gid]
  exact CField.drop_append h.gid 0 _

theorem drop_mtime : (h.bytes ++ mem).drop 136 = h.fromMtime mem := by
  rw [show 136 = 124 + 12 from rfl, ← List.drop_drop, drop_size]
  exact CField.drop_append h.size 0 _

theorem drop_chksum : (h.bytes ++ mem).drop 148 = h.fromChksum mem := by
  rw [show 148 = 136 + 12 from rfl, ← List.drop_drop, drop_mtime]
  exact CField.drop_append h.mtime 0 _

theorem drop_typeflag : (h.bytes ++ mem).drop 156 = h.fromTypeflag mem := by
  rw [show 156 = 148 + 8 from rfl, ← List.drop_drop, drop_chksum]
  exact CField.drop_append h.chksum 0 _

theorem drop_linkname : (h.bytes ++ mem).drop 157 = h.fromLinkname mem := by
  rw [show 157 = 156 + 1 from rfl, ← List.drop_drop, drop_typeflag]
  rfl

theorem drop_magic : (h.bytes ++ mem).drop 257 = h.fromMagic mem := by
  rw [show 257 = 157 + 100 from rfl, ← List.drop_drop, drop_linkname]
  exact CField.drop_append h.linkname 0 _

theorem drop_version : (h.bytes ++ mem).drop 263 = h.fromVersion mem := by
  rw [show 263 = 257 + 6 from rfl, ← List.drop_drop, drop_magic]
  exact CField.drop_append h.magic 0 _

theorem drop_uname : (h.bytes ++ mem).drop 265 = h.fromUname mem := by
  rw [show 265 = 263 + 2 from rfl, ← List.drop_drop, drop_version]
  exact CField.drop_append h.version 0 _

theorem drop_gname : (h.bytes ++ mem).drop 297 = h.fromGname mem := by
  rw [show 297 = 265 + 32 from rfl, ← List.drop_drop, drop_uname]
  exact CField.drop_append h.uname 0 _

theorem drop_devmajor : (h.bytes ++ mem).drop 329 = h.fromDevmajor mem := by
  rw [show 329 = 297 + 32 from rfl, ← List.drop_drop, drop_gname]
  exact CField.drop_append h.gname 0 _

theorem drop_devminor : (h.bytes ++ mem).drop 337 = h.fromDevminor mem := by
  rw [show 337 = 329 + 8 from rfl, ← List.drop_drop, drop_devmajor]
  exact CField.drop_append h.devmajor 0 _

theorem drop_prefix : (h.bytes ++ mem).drop 345 = h.fromPrefix mem := by
  rw [show 345 = 337 + 8 from rfl, ← List.drop_drop, drop_devminor]
  exact CField.drop_append h.devminor 0 _

end TarHeader

end Swbis.Taru
