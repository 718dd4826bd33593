import Swbis.Taru.Member
import Swbis.Taru.HeaderStream
import Swbis.Taru.HeaderNumbers

/-!
# Reading back the header of a member

What the reader finds in a record that was written for a file header, by the
type of the file, and what `ReadsBack` is: the writer succeeds, and the reader
takes exactly the bytes that were written and finds a file header that is the
same in some sense.  `readsBack_stream` reduces it to the record when the
writer has written extended headers that the reader accepts and a record.
-/

namespace Swbis.Taru

open CLib

/-! ## When a record is written -/

/-- The path fits the fields of the record, possibly after a split. -/
def NameAccepted (name : CString) : Prop := ∃ h, taruSetNewName .zero name = .ok h

instance (name : CString) : Decidable (NameAccepted name) :=
  match h : taruSetNewName .zero name with
  | .ok h' => .isTrue ⟨h', h⟩
  | .error e => .isFalse (by
      rintro ⟨h', hok⟩
      rw [h] at hok
      cases hok)

/-- A path of at most 101 bytes is accepted: one byte too many is taken for the
slash of a split. -/
theorem nameAccepted_of_le {name : CString} (h : name.strlen ≤ tarNameSize + 1) :
    NameAccepted name := by
  have hle := Nat.le_trans (strlen_swlibProcessHexEscapes_le name) h
  rw [NameAccepted, taruSetNewName]
  generalize swlibProcessHexEscapes name = p at hle
  split
  · exact ⟨_, rfl⟩
  · simp only [tarNameSize] at hle
    simp only [taruSplitNameUstar, prefixFieldSize, nameFieldSize]
    rw [if_neg (by omega), if_neg (by omega)]
    split
    · exact ⟨_, rfl⟩
    · exact ⟨_, rfl⟩

/-- The link name fits, for the types that have one. -/
def TypeAccepted (hdr : FileHdr) (flags : TarFlags) : Prop :=
  ∃ t, typeFields hdr (offToChars hdr.cFilesize (.zero 12) .posix (termchOf flags))
    (termchOf flags) = .ok t

/-- A record is written when there is a path and all of its parts are
accepted. -/
theorem taruWriteOutTarHeader2_ok {db : SysDb} {hdr : FileHdr} {username groupname : CString}
    {flags : TarFlags} (hname : hdr.cName.strlen ≠ 0) (haccept : NameAccepted (uNameBuffer hdr flags))
    (htype : TypeAccepted hdr flags) :
    ∃ h, taruWriteOutTarHeader2 db hdr username groupname flags = .ok h := by
  obtain ⟨named, hnamed⟩ := haccept
  obtain ⟨t, ht⟩ := htype
  rw [taruWriteOutTarHeader2, if_neg hname, hnamed]
  simp only [ht]
  exact ⟨_, rfl⟩

/-- What is needed for a record. -/
theorem accepted_of_ok {db : SysDb} {hdr : FileHdr} {username groupname : CString}
    {flags : TarFlags} {h : TarHeader}
    (hok : taruWriteOutTarHeader2 db hdr username groupname flags = .ok h) :
    hdr.cName.strlen ≠ 0 ∧ NameAccepted (uNameBuffer hdr flags) ∧ TypeAccepted hdr flags := by
  rw [taruWriteOutTarHeader2] at hok
  split at hok
  · cases hok
  · next hname =>
      split at hok
      · cases hok
      · next named hnamed =>
          simp only at hok
          split at hok
          · cases hok
          · next t ht => exact ⟨hname, ⟨named, hnamed⟩, ⟨t, ht⟩⟩

/-! ## The fields of a record by type -/

section TypeFields

variable {hdr : FileHdr} {size : CField 12} {termch : UInt8} {t : TypeFields}

theorem typeFields_regular (hreg : hdr.fileType = cpIfreg) (hlink : hdr.cTarLinkname.strlen = 0) :
    typeFields hdr size termch = .ok ⟨regType, .zero 100, size⟩ := by
  simp only [typeFields, if_pos hreg, hlink, ne_eq, not_true_eq_false, if_false]

theorem typeFields_hardLink (hreg : hdr.fileType = cpIfreg) (hlink : hdr.cTarLinkname.strlen ≠ 0) :
    typeFields hdr size termch =
      if tarLinknameSize < hdr.cTarLinkname.strlen then .error (-4)
      else .ok ⟨lnkType, .strncpy 100 hdr.cTarLinkname.bytes,
        uintmaxToChars (m := 11) 0 size .posix termch⟩ := by
  simp only [typeFields, if_pos hreg, if_pos hlink]

theorem typeFields_directory (hdir : hdr.fileType = cpIfdir) :
    typeFields hdr size termch = .ok ⟨dirType, .zero 100, size⟩ := by
  have hne : ¬ cpIfdir = cpIfreg := by decide
  simp only [typeFields, hdir, if_neg hne, if_true]

theorem typeFields_symlink (hlnk : hdr.fileType = cpIflnk) (hname : hdr.cName ≠ gnuLongLink) :
    typeFields hdr size termch =
      if tarLinknameSize < hdr.cTarLinkname.strlen then .error (-5)
      else .ok ⟨symType, .strncpy 100 hdr.cTarLinkname.bytes,
        uintmaxToChars (m := 11) 0 size .posix termch⟩ := by
  simp only [typeFields, hlnk, if_neg hname, show ¬ cpIflnk = cpIfreg by decide,
    show ¬ cpIflnk = cpIfdir by decide, show ¬ cpIflnk = cpIfchr by decide,
    show ¬ cpIflnk = cpIfblk by decide, show ¬ (cpIflnk = cpIfsock ∨ cpIflnk = cpIfifo) by decide,
    if_false, if_true]

end TypeFields

/-! ## What is read from a record -/

/-- The type bits of a mode that was put together from both fields. -/
theorem and_ifmt (mode bits : UInt64) (h : bits &&& cpIfmt = bits) :
    (mode &&& 0o7777 ||| bits) &&& cpIfmt = bits := by
  have hzero : mode &&& 0o7777 &&& cpIfmt = 0 := by
    rw [UInt64.and_assoc, show (0o7777 : UInt64) &&& cpIfmt = 0 by decide, UInt64.and_zero]
  have hdistrib : (mode &&& 0o7777 ||| bits) &&& cpIfmt =
      (mode &&& 0o7777 &&& cpIfmt) ||| (bits &&& cpIfmt) :=
    UInt64.toBitVec_inj.mp BitVec.and_or_distrib_right
  rw [hdistrib, hzero, h, UInt64.zero_or]

/-- A file header is one of a hard link, or it is not. -/
def FileHdr.isHardLink (hdr : FileHdr) : Bool := hdr.cIsTarLnktype == 1

namespace TarHeader.WrittenFor

variable {h : TarHeader} {db : SysDb} {hdr : FileHdr} {username groupname : CString}
  {flags : TarFlags} {t : TypeFields}

theorem nullBlock_eq (w : h.WrittenFor db hdr username groupname flags t) :
    nullBlock h.bytes = false := by
  cases hnull : nullBlock h.bytes with
  | false => rfl
  | true =>
      have hmem : (117 : UInt8) ∈ h.bytes := by
        have hdrop := h.drop_magic []
        rw [List.append_nil] at hdrop
        have htake : (117 : UInt8) ∈ h.magic.bytes.take 5 := by
          rw [w.magic_take]
          decide
        refine List.mem_of_mem_drop (i := 257) ?_
        rw [hdrop, fromMagic]
        exact List.mem_append_left _ (List.mem_of_mem_take htake)
      have := List.all_eq_true.mp hnull 117 hmem
      exact absurd this (by decide)

theorem chksumOk_append (w : h.WrittenFor db hdr username groupname flags t) (mem : Bytes) :
    chksumOk (h.bytes ++ mem) = true := by
  rw [chksumOk, beq_iff_eq]
  exact w.chksum_ok mem

theorem typeflagAt_eq (w : h.WrittenFor db hdr username groupname flags t) (mem : Bytes) :
    typeflagAt (h.bytes ++ mem) = t.typeflag := by
  rw [typeflagAt_bytes, w.typeflag_eq]

/-- The link name that is read from the field. -/
theorem linkname_read (w : h.WrittenFor db hdr username groupname flags t) (mem : Bytes) :
    CString.ofMem (((h.bytes ++ mem).drop 157).take tarLinknameSize) = .ofMem t.linkname.bytes := by
  rw [drop_linkname, fromLinkname, w.linkname_eq]
  exact congrArg CString.ofMem (List.take_left' t.linkname.size_eq)

/-- The size that is read from the field. -/
theorem size_read (w : h.WrittenFor db hdr username groupname flags t) (mem : Bytes) :
    taruOtoul ((h.bytes ++ mem).drop 124) =
      if (sizeToWrite hdr).toNat ≤ tarMaxSize then sizeToWrite hdr else 0 := by
  rw [drop_size, fromSize, w.size_eq]
  exact taruOtoul_typeFields_size w.typeFields _

/-- The path that is read, unless a long one was read before. -/
theorem cName_read (w : h.WrittenFor db hdr username groupname flags t) (rdb : SysDb)
    (rflags : TarFlags) (mem : Bytes) (cur : FileHdr) :
    (setFromTarHeader rdb rflags (h.bytes ++ mem) cur).cName =
      if cur.extHeaderUsageMask.path then cur.cName
      else storedName (swlibProcessHexEscapes (uNameBuffer hdr flags)) := by
  simp only [setFromTarHeader, w.taruDupTarName_eq]

end TarHeader.WrittenFor

/-- The fields of a file header that depend on the type flag. -/
structure FieldsRead (hdr : FileHdr) (typeBits : UInt64) (link : CString) (size : UInt64)
    (hardLink : Bool) : Prop where
  fileType : hdr.fileType = typeBits
  link : hdr.cTarLinkname = link
  size : hdr.cFilesize = size
  hardLink : hdr.isHardLink = hardLink

section FieldsRead

variable {h : TarHeader} {db : SysDb} {hdr : FileHdr} {username groupname : CString}
  {flags : TarFlags} {t : TypeFields}

/-- What the reader makes of a type flag for which the path does not matter. -/
theorem fieldsRead_of_typeflag (w : h.WrittenFor db hdr username groupname flags t) (rdb : SysDb)
    (rflags : TarFlags) (mem : Bytes) (cur : FileHdr) {r : ReadTypeFields}
    (hr : ∀ name, readTypeFields t.typeflag cur.extHeaderUsageMask name (.ofMem t.linkname.bytes)
      cur.cTarLinkname (if (sizeToWrite hdr).toNat ≤ tarMaxSize then sizeToWrite hdr else 0) = r)
    (hbits : r.typeBits &&& cpIfmt = r.typeBits) :
    FieldsRead (setFromTarHeader rdb rflags (h.bytes ++ mem) cur) r.typeBits r.linkname r.size
      (t.typeflag == lnkType) := by
  refine ⟨?_, ?_, ?_, ?_⟩
  · simp only [FileHdr.fileType, setFromTarHeader, w.typeflagAt_eq, w.linkname_read, w.size_read, hr]
    exact and_ifmt _ _ hbits
  · simp only [setFromTarHeader, w.typeflagAt_eq, w.linkname_read, w.size_read, hr]
  · simp only [setFromTarHeader, w.typeflagAt_eq, w.linkname_read, w.size_read, hr]
  · simp only [FileHdr.isHardLink, setFromTarHeader, w.typeflagAt_eq]
    split
    · next hl => rw [hl]; rfl
    · next hl => rw [beq_eq_false_iff_ne.mpr hl]; rfl

/-- A regular file: the link name is the one that was there. -/
theorem fieldsRead_regular (w : h.WrittenFor db hdr username groupname flags t)
    (hreg : hdr.fileType = cpIfreg) (hlink : hdr.cTarLinkname.strlen = 0) (rdb : SysDb)
    (rflags : TarFlags) (mem : Bytes) (cur : FileHdr) :
    FieldsRead (setFromTarHeader rdb rflags (h.bytes ++ mem) cur) cpIfreg cur.cTarLinkname
      (if hdr.cFilesize.toNat ≤ tarMaxSize then hdr.cFilesize else 0) false := by
  have ht := w.typeFields
  rw [typeFields_regular hreg hlink] at ht
  cases ht
  have hsize : sizeToWrite hdr = hdr.cFilesize := by
    simp only [sizeToWrite, if_pos hreg, hlink, ne_eq, not_true_eq_false, if_false]
  have := fieldsRead_of_typeflag w rdb rflags mem cur (fun _ => rfl)
    (show cpIfreg &&& cpIfmt = cpIfreg by decide)
  rw [hsize] at this
  exact this

/-- A hard link: the link name of the record, whatever was there. -/
theorem fieldsRead_hardLink (w : h.WrittenFor db hdr username groupname flags t)
    (hreg : hdr.fileType = cpIfreg) (hlink : hdr.cTarLinkname.strlen ≠ 0) (rdb : SysDb)
    (rflags : TarFlags) (mem : Bytes) (cur : FileHdr) :
    FieldsRead (setFromTarHeader rdb rflags (h.bytes ++ mem) cur) cpIfreg hdr.cTarLinkname 0
      true := by
  have ht := w.typeFields
  rw [typeFields_hardLink hreg hlink] at ht
  split at ht
  · cases ht
  · next hle =>
      cases ht
      have := fieldsRead_of_typeflag w rdb rflags mem cur (fun _ => rfl)
        (show cpIfreg &&& cpIfmt = cpIfreg by decide)
      simp only [CString.ofMem_strncpy (n := 100) (Nat.le_of_not_lt hle)] at this
      exact this

/-- A directory: the link name is the one that was there. -/
theorem fieldsRead_directory (w : h.WrittenFor db hdr username groupname flags t)
    (hdir : hdr.fileType = cpIfdir) (rdb : SysDb) (rflags : TarFlags) (mem : Bytes)
    (cur : FileHdr) :
    FieldsRead (setFromTarHeader rdb rflags (h.bytes ++ mem) cur) cpIfdir cur.cTarLinkname
      (if hdr.cFilesize.toNat ≤ tarMaxSize then hdr.cFilesize else 0) false := by
  have ht := w.typeFields
  rw [typeFields_directory hdir] at ht
  cases ht
  have hsize : sizeToWrite hdr = hdr.cFilesize := by
    simp only [sizeToWrite, hdir, show ¬ cpIfdir = cpIfreg by decide,
      show ¬ cpIfdir = cpIflnk by decide, if_false]
  have := fieldsRead_of_typeflag w rdb rflags mem cur (fun _ => rfl)
    (show cpIfdir &&& cpIfmt = cpIfdir by decide)
  rw [hsize] at this
  exact this

/-- A symbolic link: the link name of the record, unless a long one was read
before. -/
theorem fieldsRead_symlink (w : h.WrittenFor db hdr username groupname flags t)
    (hlnk : hdr.fileType = cpIflnk) (hname : hdr.cName ≠ gnuLongLink) (rdb : SysDb)
    (rflags : TarFlags) (mem : Bytes) (cur : FileHdr) :
    FieldsRead (setFromTarHeader rdb rflags (h.bytes ++ mem) cur) cpIflnk
      (if cur.extHeaderUsageMask.linkpath then cur.cTarLinkname else hdr.cTarLinkname) 0 false := by
  have ht := w.typeFields
  rw [typeFields_symlink hlnk hname] at ht
  split at ht
  · cases ht
  · next hle =>
      cases ht
      have := fieldsRead_of_typeflag w rdb rflags mem cur (fun _ => rfl)
        (show cpIflnk &&& cpIfmt = cpIflnk by decide)
      simp only [CString.ofMem_strncpy (n := 100) (Nat.le_of_not_lt hle)] at this
      exact this

end FieldsRead

/-! ## What was written is read back -/

/-- What a header is read with. -/
structure ReadEnv where
  db : SysDb
  flags : TarFlags
  /-- `errno` is `ERANGE`. -/
  erange : Bool
  kind : FdKind
  /-- The file header that is filled; its slots are not used. -/
  into : FileHdr
  /-- What follows in the input. -/
  rest : Bytes

/-- The file header at the start of the read. -/
def ReadEnv.start (renv : ReadEnv) : FileHdr := beginHeader { renv.into with extattlist := none }

/-- The reader finds a header in the bytes and what follows. -/
def ReadEnv.Reads (renv : ReadEnv) (bs : Bytes) (r : ReadHeader) : Prop :=
  ReadsHeader renv.db renv.flags renv.erange { renv.into with extattlist := none }
    ⟨renv.kind, bs ++ renv.rest⟩ r

/-- A call of the writer succeeds and reports the bytes it has written, and the
reader takes exactly these and finds a file header that is the same. -/
def ReadsBack (renv : ReadEnv) (x : Emit Written) (same : FileHdr → Prop) : Prop :=
  ∃ w r, x.result = .returned (.ok w) ∧ 0 < w.retval ∧ w.retval = x.out.length ∧
    renv.Reads x.out r ∧ r.ret = x.out.length ∧ r.src = .inDes ⟨renv.kind, renv.rest⟩ ∧ same r.hdr

/-- Without slots there is nothing to override. -/
theorem overrideUstar_of_noSlots {hdr : FileHdr} (h : hdr.extattlist = some []) (erange : Bool) :
    overrideUstar erange hdr = hdr := by
  rw [overrideUstar]
  split
  · rfl
  · rw [h]
    simp only [overrideAll]
    cases hdr
    cases h
    rfl

/-- The file header that a record leaves behind extended headers. -/
def readHdr (renv : ReadEnv) (h : TarHeader) (mem : Bytes) (cur : FileHdr) : FileHdr :=
  overrideUstar renv.erange (setFromTarHeader renv.db renv.flags (h.bytes ++ mem)
    { cur with cChksum := taruOtoul ((h.bytes ++ mem).drop 148) })

/-- **What the reader finds in extended headers and a record.** -/
theorem reads_stream (renv : ReadEnv) {es : List ExtBlock} {h : TarHeader} {cur : FileHdr}
    (happlied : ExtApplied es renv.start cur) {db : SysDb} {hdr : FileHdr}
    {username groupname : CString} {flags : TarFlags} {t : TypeFields}
    (hw : h.WrittenFor db hdr username groupname flags t)
    (htype : isExtHeaderType t.typeflag = false) :
    ∃ mem, ∀ r, renv.Reads (extBytes es ++ h.bytes) r ↔
      r = ⟨(extBytes es ++ h.bytes).length, 0, readHdr renv h mem cur,
        .inDes ⟨renv.kind, renv.rest⟩⟩ := by
  obtain ⟨mem, hmem⟩ := readsTo_stream renv.db renv.flags renv.kind happlied hw.nullBlock_eq
    (by rwa [hw.typeflag_eq]) hw.chksumOk_append renv.rest 0 [] 0
  have hlen : (0 : Int) + (extBytes es).length + tarRecordSize =
      (extBytes es ++ h.bytes).length := by
    rw [List.length_append, TarHeader.length_bytes]
    push_cast
    omega
  refine ⟨mem, fun r => ?_⟩
  rw [ReadEnv.Reads, readsHeader_iff]
  simp only [List.append_assoc]
  constructor
  · rintro ⟨r', hr', rfl⟩
    rw [(hmem r').mp hr', ← hlen]
    rfl
  · rintro rfl
    refine ⟨_, (hmem _).mpr rfl, ?_⟩
    rw [hlen]
    rfl

/-- **What is read back of extended headers and a record.** -/
theorem readsBack_stream {renv : ReadEnv} {x : Emit Written} {es : List ExtBlock} {h : TarHeader}
    {w : Written} (hx : x = ⟨extBytes es ++ h.bytes, .returned (.ok w)⟩)
    (hret : w.retval = (extBytes es ++ h.bytes).length) {cur : FileHdr}
    (happlied : ExtApplied es renv.start cur) {db : SysDb} {hdr : FileHdr}
    {username groupname : CString} {flags : TarFlags} {t : TypeFields}
    (hw : h.WrittenFor db hdr username groupname flags t)
    (htype : isExtHeaderType t.typeflag = false) :
    ∃ mem, ∀ same, ReadsBack renv x same ↔ same (readHdr renv h mem cur) := by
  obtain ⟨mem, hreads⟩ := reads_stream renv happlied hw htype
  have hpos : 0 < (extBytes es ++ h.bytes).length := by
    rw [List.length_append, TarHeader.length_bytes]
    exact Nat.add_pos_right _ (by decide)
  refine ⟨mem, fun same => ?_⟩
  constructor
  · rintro ⟨w', r, -, -, -, hr, -, -, hsame⟩
    rw [hx] at hr
    rw [(hreads r).mp hr] at hsame
    exact hsame
  · intro hsame
    have hread := (hreads _).mpr rfl
    refine ⟨w, _, by rw [hx], ?_, by rw [hret, hx], by rwa [hx], by rw [hx], rfl, hsame⟩
    rw [hret]
    exact_mod_cast hpos

/-! ## A record at the end -/

/-- The record writer gives up with a negative code. -/
theorem taruWriteOutTarHeader2_error {db : SysDb} {hdr : FileHdr} {username groupname : CString}
    {flags : TarFlags} {code : Int}
    (h : taruWriteOutTarHeader2 db hdr username groupname flags = .error code) : code < 0 := by
  rw [taruWriteOutTarHeader2] at h
  split at h
  · cases h
    decide
  · split at h
    · cases h
      decide
    · simp only at h
      split at h
      · next ht =>
          cases h
          rw [typeFields] at ht
          repeat' split at ht
          all_goals first | (cases ht; done) | (cases ht; decide)
      · cases h

/-- A call of the writer ends with a record for `hdr`, behind `pre`.  If there
is no record, it does not report the bytes it has written. -/
structure WritesRecord (env : WriteEnv) (x : Emit Written) (pre : Bytes) (hdr : FileHdr) : Prop where
  ok : ∀ h, taruWriteOutTarHeader2 env.db hdr hdr.cUsername hdr.cGroupname env.flags = .ok h →
    ∃ linkrecord hdr', x =
      ⟨pre ++ h.bytes, .returned (.ok ⟨(pre ++ h.bytes).length, linkrecord, hdr'⟩)⟩
  error : ∀ code, taruWriteOutTarHeader2 env.db hdr hdr.cUsername hdr.cGroupname env.flags =
    .error code → ∀ w, x.result = .returned (.ok w) → w.retval ≠ x.out.length

/-- What is read back was written. -/
theorem WritesRecord.of_readsBack {env : WriteEnv} {x : Emit Written} {pre : Bytes} {hdr : FileHdr}
    (hw : WritesRecord env x pre hdr) {renv : ReadEnv} {same : FileHdr → Prop}
    (hback : ReadsBack renv x same) :
    ∃ h, taruWriteOutTarHeader2 env.db hdr hdr.cUsername hdr.cGroupname env.flags = .ok h := by
  cases hok : taruWriteOutTarHeader2 env.db hdr hdr.cUsername hdr.cGroupname env.flags with
  | ok h => exact ⟨h, rfl⟩
  | error code =>
      obtain ⟨w, r, hres, -, hret, -⟩ := hback
      exact absurd hret (hw.error code hok w hres)

/-- **What is read back of a call that ends with a record.** -/
theorem WritesRecord.readsBack_iff {env : WriteEnv} {x : Emit Written} {es : List ExtBlock}
    {hdr : FileHdr} (hx : WritesRecord env x (extBytes es) hdr) {renv : ReadEnv} {cur : FileHdr}
    (happlied : ExtApplied es renv.start cur)
    (htype : ∀ size termch t, typeFields hdr size termch = .ok t →
      isExtHeaderType t.typeflag = false)
    {same : FileHdr → Prop} {P : Prop}
    (hsame : ∀ h t mem, h.WrittenFor env.db hdr hdr.cUsername hdr.cGroupname env.flags t →
      (same (readHdr renv h mem cur) ↔ P)) :
    ReadsBack renv x same ↔ hdr.cName.strlen ≠ 0 ∧ NameAccepted (uNameBuffer hdr env.flags) ∧
      TypeAccepted hdr env.flags ∧ P := by
  have hback : ∀ h, taruWriteOutTarHeader2 env.db hdr hdr.cUsername hdr.cGroupname env.flags = .ok h →
      (ReadsBack renv x same ↔ P) := by
    intro h hok
    obtain ⟨linkrecord, hdr', hx'⟩ := hx.ok h hok
    obtain ⟨t, hw⟩ := writtenFor_of_ok hok
    obtain ⟨mem, hiff⟩ := readsBack_stream hx' rfl happlied hw (htype _ _ t hw.typeFields)
    exact (hiff same).trans (hsame h t mem hw)
  constructor
  · intro hread
    obtain ⟨h, hok⟩ := hx.of_readsBack hread
    obtain ⟨hname, haccept, ht⟩ := accepted_of_ok hok
    exact ⟨hname, haccept, ht, (hback h hok).mp hread⟩
  · rintro ⟨hname, haccept, ht, hP⟩
    obtain ⟨h, hok⟩ := taruWriteOutTarHeader2_ok hname haccept ht
    exact (hback h hok).mpr hP

/-- A record that announces extended header data is not what a read ends with. -/
theorem not_reads_of_extHeader {renv : ReadEnv} {es : List ExtBlock} {h : TarHeader}
    (hlen : (extBytes es ++ h.bytes).length ≠ 1024) {cur : FileHdr}
    (happlied : ExtApplied es renv.start cur) (htype : isExtHeaderType h.typeflag = true)
    {r : ReadHeader} (hread : renv.Reads (extBytes es ++ h.bytes) r) :
    r.ret ≠ (extBytes es ++ h.bytes).length := by
  intro hr
  have hpos : 0 < (extBytes es ++ h.bytes).length := by
    rw [List.length_append, TarHeader.length_bytes]
    exact Nat.add_pos_right _ (by decide)
  rw [ReadEnv.Reads, readsHeader_iff, List.append_assoc] at hread
  obtain ⟨r', hread, rfl⟩ := hread
  obtain ⟨readBufferPos, behind, hiff⟩ := readsTo_extBlocks renv.db renv.flags renv.kind happlied
    (h.bytes ++ renv.rest) 0 [] 0
  obtain ⟨fuel, hread⟩ := (hiff r').mp hread
  simp only at hr
  cases fuel with
  | zero => cases hread
  | succ n =>
      obtain ⟨f, hfetch, hread⟩ := Outcome.bind_eq_returned.mp hread
      cases fetch_cases hfetch with
      | ends ret src hle =>
          cases hread
          simp only at hr
          omega
      | trailer block src src' ret hblock hcode =>
          cases hread
          simp only at hr
          omega
      | record block src hblock hplain =>
          obtain ⟨fd', -, hdata, hblen⟩ := readRecord_inDes rfl hblock
          have heq : h.bytes = block := List.append_inj_left hdata (by rw [h.length_bytes, hblen])
          rw [← heq, typeflagAt_bytes, htype] at hplain
          cases hplain
      | ext block src src' size data behind' hblock htype' hdata =>
          obtain ⟨y, happly, hread⟩ := Outcome.bind_eq_returned.mp hread
          cases y with
          | error e =>
              obtain ⟨ret, hdr'⟩ := e
              cases hread
              have hcode := applyExtHeader_error happly
              simp only at hr
              omega
          | ok hdr' =>
              have hbig := iTaruReadInTarHeader2_ret hread
              simp only [List.length_append, h.length_bytes, tarRecordSize] at hbig hr hlen hpos
              push_cast at hbig hr hpos
              omega

/-- Nor is it what a member ends with. -/
theorem not_readsBack_of_extHeader {renv : ReadEnv} {x : Emit Written} {es : List ExtBlock}
    {h : TarHeader} (hx : x.out = extBytes es ++ h.bytes)
    (hlen : (extBytes es ++ h.bytes).length ≠ 1024) {cur : FileHdr}
    (happlied : ExtApplied es renv.start cur) (htype : isExtHeaderType h.typeflag = true)
    (same : FileHdr → Prop) : ¬ ReadsBack renv x same := by
  rintro ⟨w, r, -, -, -, hread, hr, -, -⟩
  rw [hx] at hread hr
  exact not_reads_of_extHeader hlen happlied htype hread hr

end Swbis.Taru
