import Swbis.Taru.ToOct
import Swbis.Taru.Name

/-!
# Writing a tar record

`taru_write_out_tar_header2` fills a 512-byte record from a file header.  The
record is assembled from parts: the name (`taruSetNewName`), the type flag with
the link name and the size (`typeFields`), the owner and the group
(`userFields`, `groupFields`), the device numbers (`deviceField`), and the
checksum of all of them.

`TarHeader.WrittenFor` lists what a record that was written holds; it follows
from the definition by `writtenFor_of_ok`, and everything said later about
written records uses it.  The last section says when a written record decodes
to the values that were to be written.
-/

namespace Swbis.Taru

open CLib

/-! ## Checksum -/

/-- The sum of bytes. -/
def sumBytes (bs : Bytes) : Nat := (bs.map UInt8.toNat).sum

/-- `taru_tar_checksum`: the sum of the record with its checksum field taken as
blanks. -/
def taruTarChecksum (hdr : Bytes) : UInt64 :=
  UInt64.ofNat (sumBytes (hdr.take 148) + 8 * 32 + sumBytes ((hdr.drop 156).take 356))

/-! ## The parts of the record -/

/-- The terminator of numeric fields. -/
def termchOf (flags : TarFlags) : UInt8 := if flags.beLikeStar then 32 else 0

/-- The path that goes into the record: a directory gets a slash at its end. -/
def uNameBuffer (hdr : FileHdr) (flags : TarFlags) : CString :=
  let name := hdr.cName
  if hdr.fileType = cpIfdir ∧ name.bytes.getLast? ≠ some slash ∧
      ¬ (tarNameSize - 1 ≤ name.strlen ∧ (flags.gnuOldgnutar ∨ flags.gnuOldgnuposix)) then
    name.append ⟨[slash], slash_noNul⟩
  else name

/-- The fields that depend on the type of the file. -/
structure TypeFields where
  typeflag : UInt8
  linkname : CField 100
  size : CField 12

/-- The `switch` over the file type.  `size` is the field with the file size in
it.  A file of unknown type gets a message and keeps the type flag of a blank
record. -/
def typeFields (hdr : FileHdr) (size : CField 12) (termch : UInt8) : Except Int TypeFields :=
  let link := hdr.cTarLinkname
  let noLink : CField 100 := .zero 100
  if hdr.fileType = cpIfreg then
    if link.strlen ≠ 0 then
      if tarLinknameSize < link.strlen then .error (-4)
      else .ok ⟨lnkType, .strncpy 100 link.bytes, uintmaxToChars (m := 11) 0 size .posix termch⟩
    else .ok ⟨regType, noLink, size⟩
  else if hdr.fileType = cpIfdir then .ok ⟨dirType, noLink, size⟩
  else if hdr.fileType = cpIfchr then .ok ⟨chrType, noLink, size⟩
  else if hdr.fileType = cpIfblk then .ok ⟨blkType, noLink, size⟩
  else if hdr.fileType = cpIfsock ∨ hdr.fileType = cpIfifo then .ok ⟨fifoType, noLink, size⟩
  else if hdr.fileType = cpIflnk then
    if hdr.cName = gnuLongLink then
      if 510 < link.strlen then .error (-5)
      else .ok ⟨gnuTypeLonglink, .strncpy 100 link.bytes,
        uintmaxToChars (m := 11) (UInt64.ofNat link.strlen) size .posix termch⟩
    else if tarLinknameSize < link.strlen then .error (-5)
    else .ok ⟨symType, .strncpy 100 link.bytes, uintmaxToChars (m := 11) 0 size .posix termch⟩
  else if hdr.cMode = 0 ∧ hdr.cName = gnuLongLink then
    if link.strlen = 0 then .ok ⟨gnuTypeLongname, noLink, size⟩
    else .ok ⟨gnuTypeLonglink, noLink, size⟩
  else .ok ⟨aregType, noLink, size⟩

/-- The magic and the version. -/
def magicFields (flags : TarFlags) : CField 6 × CField 2 :=
  if flags.gnuGnutar = false ∧ flags.gnuOldgnutar = false then
    (.strncpy 6 tmagic, .strncpy 2 (chars ['0', '0']))
  else (.strncpy 6 (tmagic ++ [32]), .strncpy 2 [32])

/-- The user id that is to be written. -/
def uidToWrite (db : SysDb) (hdr : FileHdr) (username : CString) : UInt64 :=
  if username.strlen = 0 ∧ hdr.cCu ≠ cByNone then hdr.cUid
  else if hdr.cCu = cBySys ∨ hdr.cCu = cByName then
    ((db.uidByName username).getD nobodyId).toUInt64
  else hdr.cUid

/-- The user name that is to be written, in 31 bytes. -/
def unameToWrite (db : SysDb) (hdr : FileHdr) (username : CString) (flags : TarFlags) : CString :=
  if username.strlen = 0 ∧ hdr.cCu ≠ cByNone then (db.pwuid hdr.cUid).getD .empty
  else if hdr.cCu = cBySys ∨ hdr.cCu = cByName then username
  else if hdr.cCu = cById then
    if flags.numericUids = false then db.tarUserByUid hdr.cUid.toUInt32 else .empty
  else username

/-- The group id that is to be written. -/
def gidToWrite (db : SysDb) (hdr : FileHdr) (groupname : CString) : UInt64 :=
  if groupname.strlen = 0 ∧ hdr.cCg ≠ cByNone then hdr.cGid
  else if hdr.cCg = cBySys ∨ hdr.cCg = cByName then
    ((db.gidByName groupname).getD nobodyId).toUInt64
  else hdr.cGid

/-- The group name that is to be written, in 31 bytes. -/
def gnameToWrite (db : SysDb) (hdr : FileHdr) (groupname : CString) (flags : TarFlags) : CString :=
  if groupname.strlen = 0 ∧ hdr.cCg ≠ cByNone then (db.grgid hdr.cGid).getD .empty
  else if hdr.cCg = cBySys ∨ hdr.cCg = cByName then groupname
  else if hdr.cCg = cById then
    if flags.numericUids = false then db.tarGroupByGid hdr.cGid.toUInt32 else .empty
  else groupname

/-- The name field of an owner; numeric headers have none. -/
def ownerField (flags : TarFlags) (name : CString) : CField 32 :=
  if flags.numericUids then .zero 32 else .strncpyTerm 31 name.bytes

/-- A device number field. -/
def deviceField (typeflag : UInt8) (rdev : UInt64) (flags : TarFlags) : CField 8 :=
  if typeflag = chrType ∨ typeflag = blkType then
    majorToChars rdev.toUInt32 (.zero 8) .posix (termchOf flags)
  else if flags.beLikePax then .strncpy 8 (List.replicate 7 48)
  else if flags.beLikeStar then .strncpy 8 (List.replicate 7 48 ++ [32])
  else if flags.gnuGnutar ∨ flags.gnuOldgnutar ∨ flags.gnuOldgnuposix then .zero 8
  else .strncpy 8 (List.replicate 7 48)

/-- `CHKBLANKS`. -/
def chkblanks (n : Nat) : CField n := ⟨List.replicate n 32, by simp⟩

/-- The checksum field: eight bytes wide like `pax` and `star`, or seven and
the blank that was there. -/
def chksumField (flags : TarFlags) (sum : UInt64) : CField 8 :=
  if flags.beLikePax ∨ flags.beLikeStar then
    uintmaxToChars (m := 7) sum (chkblanks 8) .posix (termchOf flags)
  else
    ⟨(uintmaxToChars (m := 6) sum (chkblanks 7) .posix (termchOf flags)).bytes ++ [32], by simp⟩

/-- The record before its checksum is known. -/
def blankChksumHeader (db : SysDb) (hdr : FileHdr) (username groupname : CString)
    (flags : TarFlags) (named : TarHeader) (t : TypeFields) : TarHeader where
  name := named.name
  mode := modeToChars hdr.cMode.toUInt32 (.zero 8)
    (if flags.gnuOldgnutar then .oldgnu else .posix) (termchOf flags)
  uid := uidToChars (uidToWrite db hdr username).toUInt32
    (uidToChars hdr.cUid.toUInt32 (.zero 8) .posix (termchOf flags)) .posix (termchOf flags)
  gid := gidToChars (gidToWrite db hdr groupname).toUInt32
    (gidToChars hdr.cGid.toUInt32 (.zero 8) .posix (termchOf flags)) .posix (termchOf flags)
  size := t.size
  mtime := offToChars hdr.cMtime (.zero 12) .posix (termchOf flags)
  chksum := chkblanks 8
  typeflag := t.typeflag
  linkname := t.linkname
  magic := (magicFields flags).1
  version := (magicFields flags).2
  uname := ownerField flags (unameToWrite db hdr username flags)
  gname := ownerField flags (gnameToWrite db hdr groupname flags)
  devmajor := deviceField t.typeflag hdr.cRdevMaj flags
  devminor := deviceField t.typeflag hdr.cRdevMin flags
  prefixField := named.prefixField
  pad := .zero 12

/-- `taru_write_out_tar_header2`: the record, or the code of an early return.
Where the user name is empty the source leaves the id field from the first
write; writing the same id again makes no difference. -/
def taruWriteOutTarHeader2 (db : SysDb) (hdr : FileHdr) (username groupname : CString)
    (flags : TarFlags) : Except Int TarHeader :=
  if hdr.cName.strlen = 0 then .error (-1)
  else
    match taruSetNewName .zero (uNameBuffer hdr flags) with
    | .error _ => .error (-13)
    | .ok named =>
        let size := offToChars hdr.cFilesize (.zero 12) .posix (termchOf flags)
        match typeFields hdr size (termchOf flags) with
        | .error code => .error code
        | .ok t =>
            let h := blankChksumHeader db hdr username groupname flags named t
            .ok { h with chksum := chksumField flags (taruTarChecksum h.bytes) }

/-! ## What a written record holds -/

/-- A record written for a file header. -/
structure TarHeader.WrittenFor (h : TarHeader) (db : SysDb) (hdr : FileHdr)
    (username groupname : CString) (flags : TarFlags) (t : TypeFields) : Prop where
  /-- The name fields. -/
  nameStored : h.NameStored (uNameBuffer hdr flags)
  /-- The type flag, link name and size come from the file type. -/
  typeFields : typeFields hdr (offToChars hdr.cFilesize (.zero 12) .posix (termchOf flags))
    (termchOf flags) = .ok t
  /-- All other fields. -/
  eq : ∃ named, h = { blankChksumHeader db hdr username groupname flags named t with
    chksum := chksumField flags (taruTarChecksum
      (blankChksumHeader db hdr username groupname flags named t).bytes) }

/-- Every record that is written holds what it should. -/
theorem writtenFor_of_ok {db : SysDb} {hdr : FileHdr} {username groupname : CString}
    {flags : TarFlags} {h : TarHeader}
    (hok : taruWriteOutTarHeader2 db hdr username groupname flags = .ok h) :
    ∃ t, h.WrittenFor db hdr username groupname flags t := by
  rw [taruWriteOutTarHeader2] at hok
  split at hok
  · cases hok
  · split at hok
    · cases hok
    · next named hnamed =>
        simp only at hok
        split at hok
        · cases hok
        · next t ht =>
            cases hok
            exact ⟨t, ⟨named, hnamed, rfl, rfl⟩, ht, named, rfl⟩

/-! ## The checksum of a written record -/

/-- What stands before the checksum field. -/
def TarHeader.beforeChksum (h : TarHeader) : Bytes :=
  h.name.bytes ++ (h.mode.bytes ++ (h.uid.bytes ++ (h.gid.bytes ++ (h.size.bytes ++ h.mtime.bytes))))

theorem TarHeader.bytes_eq (h : TarHeader) :
    h.bytes = h.beforeChksum ++ (h.chksum.bytes ++ h.fromTypeflag []) := by
  simp [bytes, beforeChksum, fromName, fromMode, fromUid, fromGid, fromSize, fromMtime, fromChksum]

@[simp] theorem TarHeader.length_beforeChksum (h : TarHeader) : h.beforeChksum.length = 148 := by
  simp [beforeChksum]

@[simp] theorem TarHeader.length_fromTypeflag (h : TarHeader) :
    (h.fromTypeflag []).length = 356 := by
  simp [fromTypeflag, fromLinkname, fromMagic, fromVersion, fromUname, fromGname, fromDevmajor,
    fromDevminor, fromPrefix, fromPad]

/-- The checksum is the sum of the bytes around the checksum field. -/
theorem TarHeader.taruTarChecksum_eq (h : TarHeader) (mem : Bytes) :
    taruTarChecksum (h.bytes ++ mem) =
      UInt64.ofNat (sumBytes h.beforeChksum + 8 * 32 + sumBytes (h.fromTypeflag [])) := by
  have htake : (h.bytes ++ mem).take 148 = h.beforeChksum := by
    rw [h.bytes_eq, List.append_assoc, List.take_left' h.length_beforeChksum]
  have hdrop : ((h.bytes ++ mem).drop 156).take 356 = h.fromTypeflag [] := by
    have hb : h.bytes ++ mem =
        (h.beforeChksum ++ h.chksum.bytes) ++ (h.fromTypeflag [] ++ mem) := by
      rw [h.bytes_eq]
      simp
    rw [hb, List.drop_left' (by simp), List.take_left' h.length_fromTypeflag]
  rw [taruTarChecksum, htake, hdrop]

theorem sumBytes_lt (bs : Bytes) : sumBytes bs ≤ 255 * bs.length := by
  induction bs with
  | nil => simp [sumBytes]
  | cons b bs ih =>
      have hb := UInt8.toNat_lt b
      simp only [sumBytes, List.map_cons, List.sum_cons, List.length_cons] at ih ⊢
      omega

/-- A checksum has at most six octal digits. -/
theorem TarHeader.taruTarChecksum_lt (h : TarHeader) (mem : Bytes) :
    (taruTarChecksum (h.bytes ++ mem)).toNat < 8 ^ 6 := by
  have h1 := sumBytes_lt h.beforeChksum
  have h2 := sumBytes_lt (h.fromTypeflag [])
  rw [h.length_beforeChksum] at h1
  rw [h.length_fromTypeflag] at h2
  rw [h.taruTarChecksum_eq, UInt64.toNat_ofNat_of_lt' (by simp only [UInt64.size]; omega)]
  omega

theorem isDigit_termchOf (flags : TarFlags) : octal.isDigit (termchOf flags) = false := by
  rw [termchOf]
  split <;> decide

theorem uintmaxToChars_of_lt {m : Nat} (hm : m * 3 < 64) {v : UInt64} (hv : v.toNat < 8 ^ m)
    (old : CField (m + 1)) (termch : UInt8) :
    uintmaxToChars v old .posix termch = octalField m v termch := by
  rw [uintmaxToChars, toChars, if_pos ((fitsOctal_iff v hm).mpr hv)]

/-- A checksum field is read back. -/
theorem taruOtoul_chksumField (flags : TarFlags) {sum : UInt64} (hsum : sum.toNat < 8 ^ 6)
    (mem : Bytes) : taruOtoul ((chksumField flags sum).bytes ++ mem) = sum := by
  have hlt : sum.toNat < 8 ^ 7 := Nat.lt_trans hsum (by decide)
  rw [chksumField]
  split
  · rw [uintmaxToChars_of_lt (by decide) hlt]
    exact taruOtoul_octalField sum (by decide) hlt (isDigit_termchOf flags) mem
  · simp only [uintmaxToChars_of_lt (m := 6) (by decide) hsum, List.append_assoc]
    exact taruOtoul_octalField sum (by decide) hsum (isDigit_termchOf flags) _

/-- A record with its checksum in place passes the test of the reader. -/
theorem TarHeader.taruOtoul_chksum (h : TarHeader) (flags : TarFlags) (mem : Bytes) :
    taruOtoul ((({ h with chksum := chksumField flags (taruTarChecksum h.bytes) } :
        TarHeader).bytes ++ mem).drop 148) =
      taruTarChecksum (({ h with chksum := chksumField flags (taruTarChecksum h.bytes) } :
        TarHeader).bytes ++ mem) := by
  rw [drop_chksum, fromChksum, taruTarChecksum_eq]
  have hlt := h.taruTarChecksum_lt []
  rw [List.append_nil] at hlt
  have hsum := h.taruTarChecksum_eq []
  rw [List.append_nil] at hsum
  exact (taruOtoul_chksumField flags hlt _).trans hsum

namespace TarHeader.WrittenFor

variable {h : TarHeader} {db : SysDb} {hdr : FileHdr} {username groupname : CString}
  {flags : TarFlags} {t : TypeFields}

/-- A written record passes the checksum test of the reader. -/
theorem chksum_ok (w : h.WrittenFor db hdr username groupname flags t) (mem : Bytes) :
    taruOtoul ((h.bytes ++ mem).drop 148) = taruTarChecksum (h.bytes ++ mem) := by
  obtain ⟨named, rfl⟩ := w.eq
  exact taruOtoul_chksum _ flags mem

theorem typeflag_eq (w : h.WrittenFor db hdr username groupname flags t) :
    h.typeflag = t.typeflag := by
  obtain ⟨named, rfl⟩ := w.eq
  rfl

theorem linkname_eq (w : h.WrittenFor db hdr username groupname flags t) :
    h.linkname = t.linkname := by
  obtain ⟨named, rfl⟩ := w.eq
  rfl

theorem size_eq (w : h.WrittenFor db hdr username groupname flags t) : h.size = t.size := by
  obtain ⟨named, rfl⟩ := w.eq
  rfl

/-- The reader compares the first five bytes of the magic. -/
theorem magic_take (w : h.WrittenFor db hdr username groupname flags t) :
    h.magic.bytes.take 5 = tmagic := by
  obtain ⟨named, rfl⟩ := w.eq
  change (magicFields flags).1.bytes.take 5 = tmagic
  rw [magicFields]
  split <;> decide

/-- The path that the reader finds. -/
theorem taruDupTarName_eq (w : h.WrittenFor db hdr username groupname flags t) (mem : Bytes) :
    taruDupTarName (h.bytes ++ mem) = storedName (swlibProcessHexEscapes (uNameBuffer hdr flags)) :=
  taruDupTarName_setNewName w.nameStored w.magic_take mem

end TarHeader.WrittenFor

end Swbis.Taru
