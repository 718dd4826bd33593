import Swbis.Taru.WriteTar
import Swbis.Taru.ExtHdrWrite

/-!
# Writing the header of an archive member

`taru_write_archive_member_header` for the tar formats.  What it writes for one
member is a number of extended headers and a record.  First the names are
checked (`checkNames`), then the extended headers that do not depend on the type
of the file are written: a GNU long name, or a pax header with the records of
the fields that do not fit (`writeExtHeaders`).  The switch over the file type
then writes the record, for a long link name behind a GNU long link
(`writeByType`).

The names in the file header are cut on the way so that the record can hold
them.  The link record keeps the names of files that have more links, as they
are then.
-/

namespace Swbis.Taru

open CLib

/-! ## What the writer is given -/

/-- `arf_tar` and `arf_ustar`. -/
inductive TarFormat where
  | tar
  | ustar
deriving DecidableEq

/-- What `TARU` and the arguments of the writer hold, and its surroundings. -/
structure WriteEnv where
  db : SysDb
  /-- `archive_format_out`. -/
  format : TarFormat
  /-- `tarheaderflags`. -/
  flags : TarFlags
  /-- `taru_tarheaderflagsM`. -/
  taruTarheaderflags : TarFlags
  /-- `timeM` of the header maker. -/
  etarTime : UInt64
  /-- `swlib_get_pax_header_pid`. -/
  paxHeaderPid : Nat
  /-- It is an `int`. -/
  paxHeaderPid_lt : paxHeaderPid < 2 ^ 31
  /-- `linkrecord_disableM`. -/
  linkrecordDisable : Bool

/-! ## The link record -/

/-- `hllist_entry`. -/
structure HllistEntry where
  path : CString
  dev : UInt64
  ino : UInt64
deriving DecidableEq

/-- `HLLIST`. -/
structure Hllist where
  list : List HllistEntry := []
  disableFind : Bool := false
  disableAdd : Bool := false
deriving DecidableEq

/-- `makedev` of the C library. -/
def makedev (maj min : UInt64) : UInt64 :=
  let major := maj.toUInt32
  let minor := min.toUInt32
  ((major &&& 0xfff).toUInt64 <<< 8) ||| ((major &&& 0xfffff000).toUInt64 <<< 32) |||
    (minor &&& 0xff).toUInt64 ||| ((minor &&& 0xffffff00).toUInt64 <<< 12)

/-- The device of a file header. -/
def FileHdr.dev (hdr : FileHdr) : UInt64 := makedev hdr.cDevMaj hdr.cDevMin

/-- `hllist_find_file_entry`, for the first occurrence. -/
def hllistFindFileEntry (hllist : Hllist) (dev ino : UInt64) : Option HllistEntry :=
  if hllist.disableFind then none
  else hllist.list.find? fun en => en.ino == ino && en.dev == dev

/-- `hllist_add_record`. -/
def hllistAddRecord (hllist : Hllist) (path : CString) (dev ino : UInt64) : Hllist :=
  if hllist.disableAdd then hllist else { hllist with list := hllist.list ++ [⟨path, dev, ino⟩] }

/-! ## Names and checks -/

/-- `ahsStatic_strip_leading_slash_i`: drop slashes that have a byte behind
them. -/
def stripSlashes : Bytes → Bytes
  | b :: c :: s => if b = slash then stripSlashes (c :: s) else b :: c :: s
  | s => s

theorem stripSlashes_suffix (s : Bytes) : stripSlashes s <:+ s := by
  induction s using stripSlashes.induct with
  | case1 c s ih =>
      rw [stripSlashes, if_pos rfl]
      exact ih.trans (List.suffix_cons _ _)
  | case2 b c s h =>
      exact ⟨[], by rw [List.nil_append, stripSlashes, if_neg h]⟩
  | case3 s h =>
      refine ⟨[], ?_⟩
      rw [List.nil_append, stripSlashes]
      exact h

/-- `ahsStatic_strip_name_leading_slash`. -/
def ahsStaticStripNameLeadingSlash (hdr : FileHdr) : FileHdr :=
  { hdr with cName :=
      ⟨stripSlashes hdr.cName.bytes, fun h => hdr.cName.noNul ((stripSlashes_suffix _).mem h)⟩ }

/-- The path without its leading slashes, when the format drops them. -/
def stripped (flags : TarFlags) (hdr : FileHdr) : FileHdr :=
  if flags.doStripLeadingSlash then ahsStaticStripNameLeadingSlash hdr else hdr

/-- `taru_filehdr2filehdr`, into a file header that was just made: the masks
are not copied. -/
def taruFilehdr2filehdr (src : FileHdr) : FileHdr :=
  { src with extHeaderUsageMask := .zero, extHeaderNeedsMask := .zero }

/-- `taru_fill_exthdr_needs_mask`: the fields that do not fit the record, or
all of them when a pax header is mandatory. -/
def taruFillExthdrNeedsMask (hdr : FileHdr) (flags : TarFlags) : ExtHeaderMask :=
  let md := flags.paxexthdrMd
  { path := (taruIsTarFilenameTooLong hdr.cName {}).1 || md
    linkpath := (taruIsTarLinknameTooLong hdr.cTarLinkname {}).1 || md
    size := decide (tarMaxSize < hdr.cFilesize.toNat) || md
    uid := decide (tarMaxUid < hdr.cUid.toNat) || md
    gid := decide (tarMaxGid < hdr.cGid.toNat) || md
    uname := decide (snameLen ≤ hdr.cUsername.strlen) || md
    gname := decide (snameLen ≤ hdr.cGroupname.strlen) || md
    devMaj := decide (tarMaxDevice < hdr.cDevMaj.toNat)
    devMin := decide (tarMaxDevice < hdr.cDevMin.toNat)
    mtime := md }

/-- Whether the format has pax headers. -/
def isPaxHeaderAllowed (flags : TarFlags) : Bool := flags.paxexthdr || flags.paxexthdrMd

/-- The file header after the checks, and which names need a GNU extension. -/
structure CheckedNames where
  hdr : FileHdr
  doGnuLongName : Bool
  doGnuLongLink : Bool

/-- The checks of the names and the sizes. -/
def checkNames (flags : TarFlags) (hdr : FileHdr) : Except Int CheckedNames :=
  let (nameTooLong, doGnuLongName) := taruIsTarFilenameTooLong hdr.cName flags
  let (linkTooLong, doGnuLongLink) := taruIsTarLinknameTooLong hdr.cTarLinkname flags
  let needs := taruFillExthdrNeedsMask hdr flags
  if nameTooLong then .error (-2)
  else if linkTooLong then .error (-3)
  else if needs ≠ .zero ∧ isPaxHeaderAllowed flags = false ∧ flags.noOverflow then .error (-14)
  else .ok ⟨{ hdr with extHeaderNeedsMask := needs }, doGnuLongName, doGnuLongLink⟩

/-- The name that `taru_set_filehdr_sysdb_nameid_by_policy` leaves, for an id
that the system knows as `sys`.  The id it finds is not stored. -/
def nameByPolicy (cC : UInt8) (name : CString) (sys : Option CString) (numericUids : Bool) :
    CString :=
  if name.strlen = 0 ∧ cC ≠ cByNone then sys.getD .empty
  else if cC = cBySys ∨ cC = cByName then name
  else if cC = cById then if numericUids then name else sys.getD .empty
  else name

/-- `taru_set_filehdr_sysdb_nameid_by_policy`, for the group and the user. -/
def taruSetFilehdrSysdbNameidByPolicy (db : SysDb) (flags : TarFlags) (hdr : FileHdr) : FileHdr :=
  { hdr with
    cGroupname := nameByPolicy hdr.cCg hdr.cGroupname (db.grgid hdr.cGid) flags.numericUids
    cUsername := nameByPolicy hdr.cCu hdr.cUsername (db.pwuid hdr.cUid) flags.numericUids }

/-! ## Output -/

/-- The bytes of `taru_tape_pad_output` for the tar formats. -/
def tapePad (offset : Nat) : Bytes := List.replicate ((512 - offset % 512) % 512) 0

/-- `taru_write_out_header` for the tar formats: what it writes and returns.
The path was stripped before. -/
def taruWriteOutHeader (env : WriteEnv) (hdr : FileHdr) : Emit Int :=
  let hdr := stripped env.flags hdr
  match taruWriteOutTarHeader2 env.db hdr hdr.cUsername hdr.cGroupname env.flags with
  | .error code => pure code
  | .ok h => do
      Emit.write h.bytes
      return tarRecordSize

/-! ## GNU long names -/

/-- `"root"`. -/
def rootName : CString := ⟨chars ['r', 'o', 'o', 't'], by decide⟩

/-- The types whose long names are written with a mode of zero. -/
def isPlainType (cType : UInt64) : Prop := cType = cpIfreg ∨ cType = cpIfdir

instance (cType : UInt64) : Decidable (isPlainType cType) := inferInstanceAs (Decidable (_ ∨ _))

/-- The file header of a long link member.  For types without data the name
stands in the link name and the mode keeps the type. -/
def longLinkHdr (filename : CString) (gnuLongType : UInt8) (cType : UInt64) (slashes : Nat) :
    FileHdr :=
  { cCu := cBySys
    cCg := cBySys
    cIsTarLnktype := -1
    cName := gnuLongLink
    cNamesize := UInt64.ofNat (gnuLongLink.strlen + 1)
    cTarLinkname := if isPlainType cType ∧ gnuLongType = gnuTypeLongname then .empty
      else filename
    cMode := if isPlainType cType then 0 else cType
    cFilesize := UInt64.ofNat (filename.strlen + 1 + slashes) }

/-- `taru_write_long_link_member`: what it writes and returns. -/
def taruWriteLongLinkMember (env : WriteEnv) (filename : CString) (gnuLongType : UInt8)
    (cType : UInt64) : Emit Int :=
  let addSlash := cType = cpIfdir ∧ filename.strlen ≠ 0 ∧ filename.bytes.getLast? ≠ some slash ∧
    filename.strlen < 511
  let text := if addSlash then filename.bytes ++ [slash] else filename.bytes
  if 510 ≤ filename.strlen then pure (-1)
  else
    let hdr := longLinkHdr filename gnuLongType cType (if addSlash then 1 else 0)
    match taruWriteOutTarHeader2 env.db hdr rootName rootName env.flags with
    | .error _ => pure (-1)
    | .ok h => do
        Emit.write h.bytes
        Emit.write (CField.strncpy 512 text).bytes
        return 1024

/-- Where a path is cut behind a long name. -/
def longNameCut (flags : TarFlags) : Nat :=
  if flags.gnuOldgnutar ∨ flags.namesize99 then tarNameSize - 1 else tarNameSize

/-- The long name member: the file header with the path cut. -/
def writeLongName (env : WriteEnv) (hdr : FileHdr) : Emit FileHdr := do
  let ret ← taruWriteLongLinkMember env hdr.cName gnuTypeLongname hdr.fileType
  if ret ≠ 1024 then Emit.fail (-3)
  else return { hdr with cName := hdr.cName.take (longNameCut env.flags) }

/-! ## Pax headers -/

/-- `swlib_basename`, in place. -/
def swlibBasename (source : CString) : CString :=
  if slash ∈ source.bytes then
    let i := source.strlen - (source.bytes.reverse.takeWhile (· != slash)).length
    if i = source.strlen then source.drop (i - 1) else source.drop i
  else source

/-- `"./PaxHeaders.%d/"` and the last part of the path. -/
def paxHeaderName (pid : Nat) (name : CString) : Bytes :=
  chars ['.', '/', 'P', 'a', 'x', 'H', 'e', 'a', 'd', 'e', 'r', 's', '.'] ++
    (decimal.render pid ++ (slash :: (swlibBasename name).bytes))

/-- The header that the setters of `etar.c` make, but for its name and its
checksum. -/
def etarHdr (env : WriteEnv) (size : Nat) : TarHeader where
  mode := modeToChars 0o644 (.zero 8) .posix 0
  uid := uidToChars 0 (.zero 8) .posix 0
  gid := gidToChars 0 (.zero 8) .posix 0
  size := offToChars (UInt64.ofNat (size % 2 ^ 32)) (.zero 12) .posix 0
  mtime := offToChars env.etarTime (.zero 12) .posix 0
  typeflag := xhdType
  magic := .strncpy 6 tmagic
  version := .strncpy 2 (chars ['0', '0'])
  devmajor := majorToChars 0 (.zero 8) .posix 0
  devminor := majorToChars 0 (.zero 8) .posix 0

/-- `taru_set_tar_header_sum`, for a record whose checksum field ends with
NUL. -/
def taruSetTarHeaderSum (h : TarHeader) (flags : TarFlags) : TarHeader :=
  let sum := taruTarChecksum h.bytes
  { h with chksum :=
      if flags.beLikePax ∨ flags.beLikeStar then
        uintmaxToChars (m := 7) sum h.chksum .posix (termchOf flags)
      else
        ⟨(uintmaxToChars (m := 6) sum (.zero 7) .posix (termchOf flags)).bytes ++ [0], by simp⟩ }

/-- The pax header of a member; a name that cannot be split ends the
process. -/
def paxHeader (env : WriteEnv) (name : CString) (size : Nat) : Outcome TarHeader :=
  match taruSetNewName (etarHdr env size) (.ofMem (paxHeaderName env.paxHeaderPid name)) with
  | .error _ => .exited 252
  | .ok h => .returned (taruSetTarHeaderSum h env.taruTarheaderflags)

/-- The pax header and its records, if there are any: the file header with
values that fit. -/
def writePaxHeader (env : WriteEnv) (hdr : FileHdr) : Emit FileHdr := do
  let (ustar, hdr) ← Emit.call (writeExthdrsUstarRecords
    (taruSetFilehdrSysdbNameidByPolicy env.db env.flags hdr))
  let xattr ← Emit.call (writeExthdrsXattrRecords hdr)
  let data := ustar ++ xattr
  if data = [] then return hdr
  else
    let h ← Emit.call (paxHeader env hdr.cName data.length)
    Emit.write h.bytes
    Emit.write data
    Emit.write (tapePad data.length)
    return hdr

/-! ## Extended headers -/

/-- What the first part of the writer leaves behind. -/
structure AfterExtHeaders where
  hdr : FileHdr
  doGnuLongLink : Bool
  /-- `do_gnu_long_link_name_bytes`. -/
  nameBytes : Int

/-- The extended headers that do not depend on the type.  Pax headers turn the
GNU extensions off. -/
def writeExtHeaders (env : WriteEnv) (names : CheckedNames) : Emit AfterExtHeaders :=
  if isPaxHeaderAllowed env.flags then do
    let hdr := if env.flags.numericUids then names.hdr
      else taruSetFilehdrSysdbNameidByPolicy env.db env.flags names.hdr
    if hdr.extHeaderNeedsMask ≠ .zero ∨ hdr.extattlist.isSome then
      let hdr ← writePaxHeader env hdr
      return ⟨hdr, false, 0⟩
    else return ⟨hdr, false, 0⟩
  else if names.doGnuLongName ∨ names.doGnuLongLink then do
    let hdr ← writeLongName env names.hdr
    return ⟨hdr, names.doGnuLongLink, 1024⟩
  else return ⟨names.hdr, false, 0⟩

/-! ## The switch over the file type -/

/-- What the writer returns and leaves behind. -/
structure Written where
  retval : Int
  linkrecord : Option Hllist
  /-- `file_hdr_return`. -/
  hdr : FileHdr

/-- The link record, when it is active. -/
def activeRecord (env : WriteEnv) (linkrecord : Option Hllist) : Option Hllist :=
  if env.linkrecordDisable then none else linkrecord

/-- The entry of a file in the link record. -/
def findLink (env : WriteEnv) (linkrecord : Option Hllist) (hdr : FileHdr) : Option HllistEntry :=
  (activeRecord env linkrecord).bind fun l => hllistFindFileEntry l hdr.dev hdr.cIno

/-- The link record after a member was written. -/
def recordLink (env : WriteEnv) (linkrecord : Option Hllist) (hdr : FileHdr) : Option Hllist :=
  if env.linkrecordDisable = false ∧ 1 < hdr.cNlink.toNat then
    linkrecord.map fun l => hllistAddRecord l hdr.cName hdr.dev hdr.cIno
  else linkrecord

/-- A GNU long link: the link name cut, or the early return with `code`. -/
def writeLongLink (env : WriteEnv) (hdr : FileHdr) (code : Int) : Emit FileHdr := do
  let ret ← taruWriteLongLinkMember env hdr.cTarLinkname gnuTypeLonglink hdr.fileType
  if ret ≠ 1024 then Emit.fail code
  else return { hdr with cTarLinkname := hdr.cTarLinkname.take (tarLinknameSize - 1) }

/-- The case `CP_IFREG`.  The name of a file that was not found is recorded
whatever the writer returned. -/
def writeRegular (env : WriteEnv) (linkrecord : Option Hllist) (doGnuLongLink : Bool)
    (hdr : FileHdr) : Emit Written := do
  let found := findLink env linkrecord hdr
  if (activeRecord env linkrecord).isSome ∧ 1 < hdr.cNlink.toNat ∧
      (found.isSome ∨ hdr.cIsTarLnktype = 1) then
    let hdr := match found with
      | some en => { hdr with cTarLinkname := en.path }
      | none => hdr
    let retval ← taruWriteOutHeader env hdr
    return ⟨retval, linkrecord, hdr⟩
  else if hdr.cTarLinkname.strlen ≠ 0 ∧ doGnuLongLink then
    let hdr ← writeLongLink env hdr (-3)
    let retval ← taruWriteOutHeader env hdr
    return ⟨retval + 1024, recordLink env linkrecord hdr, hdr⟩
  else
    let retval ← taruWriteOutHeader env hdr
    return ⟨retval, recordLink env linkrecord hdr, hdr⟩

/-- The cases `CP_IFIFO`, `CP_IFCHR` and `CP_IFBLK`; the first format leaves
such files out. -/
def writeDevice (env : WriteEnv) (linkrecord : Option Hllist) (hdr : FileHdr) : Emit Written :=
  match env.format with
  | .tar => Emit.fail 0
  | .ustar => do
      match findLink env linkrecord hdr with
      | some en =>
          let hdr := { hdr with cMode := hdr.cMode ||| cpIfreg, cTarLinkname := en.path }
          let retval ← taruWriteOutHeader env hdr
          return ⟨retval, linkrecord, hdr⟩
      | none =>
          let hdr := { hdr with cFilesize := 0 }
          let retval ← taruWriteOutHeader env hdr
          return ⟨retval, recordLink env linkrecord hdr, hdr⟩

/-- The case `CP_IFLNK`. -/
def writeSymlink (env : WriteEnv) (linkrecord : Option Hllist) (doGnuLongLink : Bool)
    (hdr : FileHdr) : Emit Written := do
  let linkSize := hdr.cTarLinkname.strlen
  let hdr := { hdr with cFilesize := UInt64.ofNat linkSize }
  if doGnuLongLink then
    let hdr ← writeLongLink env hdr (-6)
    let hdr := { hdr with cFilesize := 0 }
    let retval ← taruWriteOutHeader env hdr
    if retval < 0 then Emit.fail (-7)
    else return ⟨retval + 1024, linkrecord, hdr⟩
  else if tarNameSize < linkSize + 1 then Emit.fail (-4)
  else
    let retval ← taruWriteOutHeader env hdr
    return ⟨retval, linkrecord, hdr⟩

/-- The switch over the file type. -/
def writeByType (env : WriteEnv) (linkrecord : Option Hllist) (doGnuLongLink : Bool)
    (hdr : FileHdr) : Emit Written :=
  if hdr.fileType = cpIfreg then writeRegular env linkrecord doGnuLongLink hdr
  else if hdr.fileType = cpIfdir then do
    let hdr := { hdr with cFilesize := 0 }
    let retval ← taruWriteOutHeader env hdr
    return ⟨retval, linkrecord, hdr⟩
  else if hdr.fileType = cpIfsock then return ⟨0, linkrecord, hdr⟩
  else if hdr.fileType = cpIfifo ∨ hdr.fileType = cpIfchr ∨ hdr.fileType = cpIfblk then
    writeDevice env linkrecord hdr
  else if hdr.fileType = cpIflnk then writeSymlink env linkrecord doGnuLongLink hdr
  else return ⟨0, linkrecord, hdr⟩

/-! ## The writer -/

/-- The file header at the start of the writer. -/
def memberHdr (env : WriteEnv) (hdr0 : FileHdr) : FileHdr :=
  let hdr := stripped env.flags (taruFilehdr2filehdr hdr0)
  { hdr with cNamesize := UInt64.ofNat (hdr.cName.strlen + 1) }

/-- `taru_write_archive_member_header` for the tar formats. -/
def taruWriteArchiveMemberHeader (env : WriteEnv) (linkrecord : Option Hllist) (hdr0 : FileHdr) :
    Emit Written := do
  let names ← Emit.lift (checkNames env.flags (memberHdr env hdr0))
  let ext ← writeExtHeaders env names
  let w ← writeByType env linkrecord ext.doGnuLongLink ext.hdr
  return { w with retval := w.retval + ext.nameBytes }

end Swbis.Taru
