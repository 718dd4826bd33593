import Swbis.Taru.PaxRead

/-!
# Writing again what was read

A member whose path and numbers fit is one record and no extended header.  Its record
holds what was written (`RecordKept`) if the reader finds the path, the mode and the
times as they were, and if the names and ids of the owners are what the system makes of
each other.  Then the reader finds what the record holds (`RecordKept.readAgain`), and
the file header that is read is written as the same record (`ReadAgain.write`).
-/

namespace Swbis.Taru

open CLib

/-! ## Members of one record -/

/-- The size that the switch over the file type leaves. -/
def sizeByType (hdr : FileHdr) : UInt64 :=
  if hdr.fileType = cpIfreg then hdr.cFilesize
  else if hdr.fileType = cpIflnk then UInt64.ofNat hdr.cTarLinkname.strlen
  else 0

/-- The types that have a record. -/
def Recorded (env : WriteEnv) (hdr : FileHdr) : Prop :=
  hdr.fileType = cpIfreg ∨ hdr.fileType = cpIfdir ∨
    (env.format = .ustar ∧
      (hdr.fileType = cpIfifo ∨ hdr.fileType = cpIfchr ∨ hdr.fileType = cpIfblk)) ∨
    (hdr.fileType = cpIflnk ∧ hdr.cTarLinkname.strlen < tarNameSize)

instance (env : WriteEnv) (hdr : FileHdr) : Decidable (Recorded env hdr) :=
  inferInstanceAs (Decidable (_ ∨ _ ∨ _ ∨ _))

/-- A file that is not in the link record keeps its link name. -/
theorem memberLink_of_find_none {env : WriteEnv} {linkrecord : Option Hllist} {hdr : FileHdr}
    (hfind : findLink env linkrecord hdr = none) :
    memberLink env linkrecord hdr = hdr.cTarLinkname := by
  rw [memberLink]
  split
  · rw [hfind]
  · rfl

/-- The file header that is written for a type that has a record. -/
theorem recordHdr_of_recorded {env : WriteEnv} {linkrecord : Option Hllist} {hdr : FileHdr}
    (hfind : findLink env linkrecord hdr = none) (h : Recorded env hdr) :
    recordHdr env linkrecord hdr = some { hdr with cFilesize := sizeByType hdr } := by
  rw [recordHdr, sizeByType]
  rcases h with hreg | hdir | ⟨hformat, hdev⟩ | ⟨hlnk, hshort⟩
  · rw [if_pos hreg, if_pos hreg, memberLink_of_find_none hfind]
  · rw [hdir, if_neg (by decide), if_pos rfl, if_neg (by decide), if_neg (by decide)]
  · have hother : hdr.fileType ≠ cpIfreg ∧ hdr.fileType ≠ cpIfdir ∧ hdr.fileType ≠ cpIfsock ∧
        hdr.fileType ≠ cpIflnk := by
      rcases hdev with h | h | h
      all_goals
        rw [h]
        decide
    rw [if_neg hother.1, if_neg hother.2.1, if_neg hother.2.2.1, if_pos hdev, deviceHdr, hformat,
      if_neg hother.1, if_neg hother.2.2.2]
    dsimp only
    rw [hfind]
  · rw [hlnk, if_neg (by decide), if_neg (by decide), if_neg (by decide), if_neg (by decide),
      if_pos rfl, if_neg (by omega), if_neg (by decide), if_pos rfl]

/-- The file header behind the extended headers of a member that needs none. -/
def plainHdr (env : WriteEnv) (hdr : FileHdr) : FileHdr :=
  if isPaxHeaderAllowed env.flags then paxHdr env hdr else checkedHdr env hdr

/-- A member that needs no extended header. -/
structure Plain (env : WriteEnv) (hdr : FileHdr) : Prop where
  name : taruIsTarFilenameTooLong (memberHdr env hdr).cName env.flags = (false, false)
  needs : taruFillExthdrNeedsMask (memberHdr env hdr) env.flags = .zero
  slots : slotRecords (hdr.extattlist.getD []) = []

/-- The file header of the record. -/
def recordOf (env : WriteEnv) (hdr : FileHdr) : FileHdr :=
  { plainHdr env hdr with cFilesize := sizeByType hdr }

section Plain

variable {env : WriteEnv} {hdr : FileHdr}

/-- The writer changes the path and clears the masks. -/
theorem memberHdr_eq (env : WriteEnv) (hdr : FileHdr) : ∃ name namesize, memberHdr env hdr =
    { hdr with
      cName := name, cNamesize := namesize
      extHeaderUsageMask := .zero, extHeaderNeedsMask := .zero } := by
  rw [memberHdr, stripped]
  split
  · exact ⟨_, _, rfl⟩
  · exact ⟨_, _, rfl⟩

/-- The policy changes the names of the owners only. -/
theorem plainHdr_eq (env : WriteEnv) (hdr : FileHdr) : ∃ user group, plainHdr env hdr =
    { checkedHdr env hdr with cUsername := user, cGroupname := group } := by
  rw [plainHdr]
  split
  · exact paxHdr_eq env hdr
  · exact ⟨_, _, rfl⟩

/-- A link name that needs no extended header fits its field. -/
theorem Plain.strlen_link_le (h : Plain env hdr) : hdr.cTarLinkname.strlen ≤ tarLinknameSize := by
  have hneeds := congrArg ExtHeaderMask.linkpath h.needs
  rw [← memberHdr_cTarLinkname env hdr]
  by_contra hlong
  have htoo : taruIsTarLinknameTooLong (memberHdr env hdr).cTarLinkname {} = (true, false) := by
    rw [taruIsTarLinknameTooLong, if_neg hlong]
    rfl
  simp only [taruFillExthdrNeedsMask, htoo, Bool.true_or] at hneeds
  cases hneeds

/-- The checks of the names find nothing. -/
theorem Plain.checkNames_eq (h : Plain env hdr) :
    checkNames env.flags (memberHdr env hdr) = .ok ⟨checkedHdr env hdr, false, false⟩ := by
  have hlink : taruIsTarLinknameTooLong (memberHdr env hdr).cTarLinkname env.flags =
      (false, false) := by
    rw [memberHdr_cTarLinkname, taruIsTarLinknameTooLong, if_pos h.strlen_link_le]
  have hneeds := h.needs
  simp only [checkNames, h.name, hlink, hneeds, ne_eq, not_true_eq_false, false_and,
    Bool.false_eq_true, if_false]
  rw [checkedHdr, hneeds]

/-- **A member that needs no extended header is what the switch over the file type
writes.** -/
theorem Plain.header_eq (h : Plain env hdr) (linkrecord : Option Hllist) :
    taruWriteArchiveMemberHeader env linkrecord hdr =
      writeByType env linkrecord false (plainHdr env hdr) := by
  have hext : writeExtHeaders env ⟨checkedHdr env hdr, false, false⟩ =
      pure ⟨plainHdr env hdr, false, 0⟩ := by
    by_cases hmode : isPaxHeaderAllowed env.flags = true
    · obtain ⟨hattrs, hfitted⟩ := ustarAttrs_of_zero ((paxHdr_needsMask env hdr).trans h.needs)
      obtain ⟨es, hes, heq⟩ := writeExtHeaders_pax hmode h.slots
        (by rw [hattrs]; decide) false false
      rw [hattrs] at hes
      cases hes with
      | empty _ =>
          rw [heq, hfitted, plainHdr, if_pos hmode]
          rfl
      | records hne => exact absurd rfl hne
    · rw [writeExtHeaders, if_neg hmode, plainHdr, if_neg hmode]
      rfl
  rw [taruWriteArchiveMemberHeader, h.checkNames_eq, Emit.lift_ok, Emit.pure_bind, hext,
    Emit.pure_bind]
  simp only [Int.add_zero]
  exact Emit.bind_pure _

/-- The type and the link name are those of the member. -/
theorem plainHdr_fields (env : WriteEnv) (hdr : FileHdr) :
    (plainHdr env hdr).fileType = hdr.fileType ∧
      (plainHdr env hdr).cTarLinkname = hdr.cTarLinkname ∧
      (plainHdr env hdr).cName = (memberHdr env hdr).cName ∧
      sizeByType (plainHdr env hdr) = sizeByType hdr := by
  obtain ⟨user, group, heq⟩ := plainHdr_eq env hdr
  have hsize : (memberHdr env hdr).cFilesize = hdr.cFilesize := by
    obtain ⟨name, namesize, hmember⟩ := memberHdr_eq env hdr
    rw [hmember]
  have htype : (plainHdr env hdr).fileType = hdr.fileType := by
    rw [heq]
    exact memberHdr_fileType env hdr
  have hlink : (plainHdr env hdr).cTarLinkname = hdr.cTarLinkname := by
    rw [heq]
    exact memberHdr_cTarLinkname env hdr
  refine ⟨htype, hlink, by rw [heq]; rfl, ?_⟩
  rw [sizeByType, sizeByType, htype, hlink, heq]
  simp only [checkedHdr, hsize]

/-- The record of a member that needs no extended header. -/
theorem Plain.record_eq (h : Plain env hdr) {linkrecord : Option Hllist}
    (hfind : ∀ hdr, findLink env linkrecord hdr = none) (hrec : Recorded env hdr) :
    ∃ linkrecord', taruWriteArchiveMemberHeader env linkrecord hdr =
      taruWriteOutHeader env (recordOf env hdr) >>= fun retval =>
        pure ⟨retval, linkrecord', recordOf env hdr⟩ := by
  obtain ⟨htype, hlink, -, hsize⟩ := plainHdr_fields env hdr
  have hplain : Recorded env (plainHdr env hdr) := by
    rw [Recorded, htype, hlink]
    exact hrec
  have hsome := recordHdr_of_recorded (hfind _) hplain
  rw [hsize] at hsome
  rw [h.header_eq]
  exact writeByType_some env linkrecord _ hsome

/-- The path of the record is not stripped again. -/
theorem unslashed_recordOf (env : WriteEnv) (hdr : FileHdr) :
    Unslashed env.flags (recordOf env hdr).cName := by
  change Unslashed env.flags (plainHdr env hdr).cName
  rw [(plainHdr_fields env hdr).2.2.1]
  exact unslashed_memberHdr env hdr

/-- A member with a record. -/
theorem Plain.written (h : Plain env hdr) {linkrecord : Option Hllist}
    (hfind : ∀ hdr, findLink env linkrecord hdr = none) (hrec : Recorded env hdr) {t : TarHeader}
    (hok : taruWriteOutTarHeader2 env.db (recordOf env hdr) (recordOf env hdr).cUsername
      (recordOf env hdr).cGroupname env.flags = .ok t) :
    ∃ linkrecord', taruWriteArchiveMemberHeader env linkrecord hdr =
      ⟨t.bytes, .returned (.ok ⟨tarRecordSize, linkrecord', recordOf env hdr⟩)⟩ := by
  obtain ⟨linkrecord', heq⟩ := h.record_eq hfind hrec
  refine ⟨linkrecord', ?_⟩
  rw [heq, taruWriteOutHeader, (unslashed_recordOf env hdr).stripped_eq, hok]
  dsimp only
  rw [Emit.write_bind, Emit.prepend_pure, Emit.ok_bind, Emit.prepend_pure]

end Plain

/-! ## What a record keeps -/

/-- The name and the id of an owner are what the system makes of each other.  An owner
without a name in the record has none in the system either, or is written by number. -/
structure OwnerHeld (flags : TarFlags) (idByName : CString → Option UInt32)
    (nameById : UInt64 → Option CString) (name : CString) (id : UInt64) : Prop where
  fits : id.toNat ≤ tarMax7Octal
  short : name.strlen < snameLen
  named : (ownerRead flags name).strlen ≠ 0 → id = ((idByName name).getD nobodyId).toUInt64
  unnamed : (ownerRead flags name).strlen = 0 → idByName .empty = none ∧
    ∀ n, nameById id = some n → flags.numericUids = true ∧ idByName n = some id.toUInt32

/-- The record holds the file header that it is written for. -/
structure RecordKept (env : WriteEnv) (rec : FileHdr) : Prop where
  named : rec.cName.strlen ≠ 0
  held : HeldByRecord (uNameBuffer rec env.flags)
  /-- A link of this name is taken for a long link. -/
  mark : rec.fileType = cpIflnk → rec.cName ≠ gnuLongLink
  mode : rec.cMode = rec.cMode &&& 0o7777 ||| rec.fileType
  user : OwnerHeld env.flags env.db.uidByName env.db.pwuid
    (unameToWrite env.db rec rec.cUsername env.flags) (uidToWrite env.db rec rec.cUsername)
  group : OwnerHeld env.flags env.db.gidByName env.db.grgid
    (gnameToWrite env.db rec rec.cGroupname env.flags) (gidToWrite env.db rec rec.cGroupname)
  mtime : rec.cMtime.toNat ≤ tarMaxSize
  rdevMaj : (rdevToWrite rec rec.cRdevMaj).toNat ≤ tarMaxDevice
  rdevMin : (rdevToWrite rec rec.cRdevMin).toNat ≤ tarMaxDevice

/-- The fields by type, for a type that has a record. -/
inductive TypeWrite (hdr : FileHdr) (size : CField 12) (termch : UInt8) : TypeFields → Prop where
  | regular (htype : hdr.fileType = cpIfreg) (hlink : hdr.cTarLinkname = .empty) :
      TypeWrite hdr size termch ⟨regType, .zero 100, size⟩
  | hardLink (htype : hdr.fileType = cpIfreg) (hlink : hdr.cTarLinkname.strlen ≠ 0) :
      TypeWrite hdr size termch
        ⟨lnkType, .strncpy 100 hdr.cTarLinkname.bytes, octalField 11 0 termch⟩
  | directory (htype : hdr.fileType = cpIfdir) :
      TypeWrite hdr size termch ⟨dirType, .zero 100, size⟩
  | fifo (htype : hdr.fileType = cpIfifo) : TypeWrite hdr size termch ⟨fifoType, .zero 100, size⟩
  | character (htype : hdr.fileType = cpIfchr) :
      TypeWrite hdr size termch ⟨chrType, .zero 100, size⟩
  | block (htype : hdr.fileType = cpIfblk) : TypeWrite hdr size termch ⟨blkType, .zero 100, size⟩
  | symlink (htype : hdr.fileType = cpIflnk) :
      TypeWrite hdr size termch
        ⟨symType, .strncpy 100 hdr.cTarLinkname.bytes, octalField 11 0 termch⟩

theorem uintmaxToChars_zero (old : CField 12) (termch : UInt8) :
    uintmaxToChars (m := 11) 0 old .posix termch = octalField 11 0 termch :=
  uintmaxToChars_of_lt (by decide) (by decide) old termch

/-- The switch of the record writer over the types that have a record. -/
theorem typeFields_recorded {env : WriteEnv} {hdr : FileHdr} (size : CField 12) (termch : UInt8)
    (hrec : Recorded env hdr) (hlink : hdr.cTarLinkname.strlen ≤ tarLinknameSize)
    (hmark : hdr.fileType = cpIflnk → hdr.cName ≠ gnuLongLink) :
    ∃ t, typeFields hdr size termch = .ok t ∧ TypeWrite hdr size termch t := by
  rcases hrec with hreg | hdir | ⟨-, hfifo | hchr | hblk⟩ | ⟨hlnk, -⟩
  · by_cases hempty : hdr.cTarLinkname.strlen = 0
    · exact ⟨_, typeFields_regular hreg hempty, .regular hreg (CString.strlen_eq_zero.mp hempty)⟩
    · refine ⟨_, ?_, .hardLink hreg hempty⟩
      rw [typeFields_hardLink hreg hempty, if_neg (Nat.not_lt.mpr hlink), uintmaxToChars_zero]
  · exact ⟨_, typeFields_directory hdir, .directory hdir⟩
  · refine ⟨_, ?_, .fifo hfifo⟩
    simp only [typeFields, hfifo]
    rfl
  · refine ⟨_, ?_, .character hchr⟩
    simp only [typeFields, hchr]
    rfl
  · refine ⟨_, ?_, .block hblk⟩
    simp only [typeFields, hblk]
    rfl
  · refine ⟨_, ?_, .symlink hlnk⟩
    rw [typeFields_symlink hlnk (hmark hlnk), if_neg (Nat.not_lt.mpr hlink), uintmaxToChars_zero]

/-- What the record of a type says: it announces no data, and the type is found again. -/
theorem TypeWrite.read {hdr : FileHdr} {size : CField 12} {termch : UInt8} {t : TypeFields}
    (h : TypeWrite hdr size termch t) : isExtHeaderType t.typeflag = false ∧
      ∀ mask name link old n,
        (readTypeFields t.typeflag mask name link old n).typeBits = hdr.fileType := by
  cases h with
  | regular htype => exact ⟨rfl, fun _ _ _ _ _ => htype.symm⟩
  | hardLink htype => exact ⟨rfl, fun _ _ _ _ _ => htype.symm⟩
  | directory htype => exact ⟨rfl, fun _ _ _ _ _ => htype.symm⟩
  | fifo htype => exact ⟨rfl, fun _ _ _ _ _ => htype.symm⟩
  | character htype => exact ⟨rfl, fun _ _ _ _ _ => htype.symm⟩
  | block htype => exact ⟨rfl, fun _ _ _ _ _ => htype.symm⟩
  | symlink htype => exact ⟨rfl, fun _ _ _ _ _ => htype.symm⟩

/-- A mode that has permissions and a type only is found again. -/
theorem mode_read {cMode bits : UInt64} (hmode : cMode = cMode &&& 0o7777 ||| bits)
    (hbits : bits = cMode &&& cpIfmt) (flags : TarFlags) (mem : Bytes) :
    taruOtoul ((modeToChars cMode.toUInt32 (.zero 8)
        (if flags.gnuOldgnutar then .oldgnu else .posix) (termchOf flags)).bytes ++ mem) &&& 0o7777
      ||| bits = cMode := by
  have hsmall : cMode.toNat < 2 ^ 16 := by
    rw [hmode, UInt64.toNat_or, hbits, UInt64.toNat_and, UInt64.toNat_and]
    refine Nat.or_lt_two_pow ?_ ?_
    · exact Nat.lt_of_le_of_lt Nat.and_le_right (by decide)
    · exact Nat.lt_of_le_of_lt Nat.and_le_right (by decide)
  have hread := (modeDecodes_iff cMode flags mem).mpr fun _ => .inl (by
    simp only [tarMax7Octal]
    omega)
  rw [hread, ← hmode]

/-- What is found in the record. -/
structure ReadAgain (env : WriteEnv) (rec r : FileHdr) : Prop where
  name : r.cName = uNameBuffer rec env.flags
  mode : r.cMode = rec.cMode
  link : r.cTarLinkname = linkRead rec
  size : r.cFilesize = sizeRead rec
  uid : r.cUid = uidToWrite env.db rec rec.cUsername
  gid : r.cGid = gidToWrite env.db rec rec.cGroupname
  uname : r.cUsername =
    ownerRead env.flags (unameToWrite env.db rec rec.cUsername env.flags)
  gname : r.cGroupname =
    ownerRead env.flags (gnameToWrite env.db rec rec.cGroupname env.flags)
  mtime : r.cMtime = rec.cMtime
  rdevMaj : r.cRdevMaj = rdevToWrite rec rec.cRdevMaj
  rdevMin : r.cRdevMin = rdevToWrite rec rec.cRdevMin

/-- A name that is in the record is all of it. -/
theorem OwnerHeld.ownerRead_eq {flags : TarFlags} {idByName : CString → Option UInt32}
    {nameById : UInt64 → Option CString} {name : CString} {id : UInt64}
    (h : OwnerHeld flags idByName nameById name id) (hname : (ownerRead flags name).strlen ≠ 0) :
    ownerRead flags name = name := by
  have hshort := h.short
  simp only [snameLen] at hshort
  rw [ownerRead] at hname ⊢
  split
  next hnum =>
    rw [if_pos hnum] at hname
    exact absurd rfl hname
  next => exact CString.take_of_strlen_le (by simp only [snameLen]; omega)

/-- The id of an owner is found again, by the name or in its field. -/
theorem OwnerHeld.id_read {flags : TarFlags} {idByName : CString → Option UInt32}
    {nameById : UInt64 → Option CString} {name : CString} {id : UInt64}
    (h : OwnerHeld flags idByName nameById name id) :
    idRead id = id ∧ ∀ u, idByName (ownerRead flags name) = some u → u.toUInt64 = id := by
  have hnarrow : idRead id = id := by
    have hn := toNat_narrow id
    have hfits := h.fits
    simp only [tarMax7Octal] at hfits
    have heq : id.toUInt32.toUInt64 = id := UInt64.toNat_inj.mp (by omega)
    rw [idRead, heq, if_pos h.fits]
  refine ⟨hnarrow, fun u hlookup => ?_⟩
  by_cases hname : (ownerRead flags name).strlen = 0
  · rw [CString.strlen_eq_zero.mp hname, (h.unnamed hname).1] at hlookup
    cases hlookup
  · rw [h.ownerRead_eq hname] at hlookup
    rw [h.named hname, hlookup]
    rfl

namespace RecordKept

variable {env : WriteEnv} {rec : FileHdr} (h : RecordKept env rec) (hrec : Recorded env rec)
  (hlink : rec.cTarLinkname.strlen ≤ tarLinknameSize)
include h hrec hlink

/-- A record is written. -/
theorem exists_record : ∃ t, taruWriteOutTarHeader2 env.db rec rec.cUsername rec.cGroupname
    env.flags = .ok t := by
  obtain ⟨t, ht, -⟩ := typeFields_recorded _ _ hrec hlink h.mark
  exact taruWriteOutTarHeader2_ok h.named (heldByRecord_iff.mpr h.held).1 ⟨t, ht⟩

variable {t : TarHeader} {f : TypeFields}
  (w : t.WrittenFor env.db rec rec.cUsername rec.cGroupname env.flags f)
include w

theorem typeWrite : TypeWrite rec (offToChars rec.cFilesize (.zero 12) .posix (termchOf env.flags))
    (termchOf env.flags) f := by
  obtain ⟨f', hf', hwrite⟩ := typeFields_recorded (offToChars rec.cFilesize (.zero 12) .posix
    (termchOf env.flags)) (termchOf env.flags) hrec hlink h.mark
  rwa [Except.ok.inj (w.typeFields.symm.trans hf')]

/-- **The reader finds the file header that a record holds.** -/
theorem readAgain (rflags : TarFlags) (mem : Bytes) (cur : FileHdr)
    (hmask : cur.extHeaderUsageMask = .zero) (hempty : cur.cTarLinkname = .empty) :
    ReadAgain env rec (setFromTarHeader env.db rflags (t.bytes ++ mem) cur) := by
  obtain ⟨hplain, hbits⟩ := (h.typeWrite hrec hlink w).read
  have hfields := w.fields_setFromTarHeader hplain env.db
    (show ({ rflags with retainHeaderIds := true } : TarFlags).retainHeaderIds = true from rfl)
    mem cur (by rw [hmask]; rfl) (by rw [hmask]; rfl) hempty
  obtain ⟨huid, huser⟩ := h.user.id_read
  obtain ⟨hgid, hgroup⟩ := h.group.id_read
  have huname := congrArg HdrFields.uname hfields
  have hgname := congrArg HdrFields.gname hfields
  have huid' := congrArg HdrFields.uid hfields
  have hgid' := congrArg HdrFields.gid hfields
  simp only [FileHdr.fields, fieldsOfRecord, setFromTarHeader] at huname hgname huid' hgid'
  rw [huid] at huid'
  rw [hgid] at hgid'
  rw [← huname] at huser
  rw [← hgname] at hgroup
  have heq := w.eq
  refine ⟨?_, ?_, congrArg HdrFields.link hfields, congrArg HdrFields.size hfields, ?_, ?_, huname,
    hgname, ?_, ?_, ?_⟩
  · have hpath := congrArg HdrFields.path hfields
    simp only [FileHdr.fields, fieldsOfRecord] at hpath
    exact hpath.trans (heldByRecord_iff.mpr h.held).2
  · simp only [setFromTarHeader, w.typeflagAt_eq, hbits]
    obtain ⟨named, rfl⟩ := heq
    rw [TarHeader.drop_mode]
    exact mode_read h.mode rfl env.flags _
  · simp only [setFromTarHeader]
    split
    next uid hret hlookup => exact huser uid hlookup
    next => exact huid'
  · simp only [setFromTarHeader]
    split
    next gid hret hlookup => exact hgroup gid hlookup
    next => exact hgid'
  · simp only [setFromTarHeader]
    obtain ⟨named, rfl⟩ := heq
    rw [TarHeader.drop_mtime]
    exact (taruOtoul_off rec.cMtime env.flags _).trans (if_pos h.mtime)
  · simp only [setFromTarHeader]
    obtain ⟨named, rfl⟩ := heq
    rw [TarHeader.drop_devmajor]
    exact (deviceDecodes_iff w.typeFields rec.cRdevMaj env.flags _).mpr h.rdevMaj
  · simp only [setFromTarHeader]
    obtain ⟨named, rfl⟩ := heq
    rw [TarHeader.drop_devminor]
    exact (deviceDecodes_iff w.typeFields rec.cRdevMin env.flags _).mpr h.rdevMin

end RecordKept

/-! ## The record of what was read -/

/-- The slash of a directory makes no difference for the length. -/
theorem squashTrailingSlash_uNameBuffer {hdr : FileHdr} (hne : hdr.cName.strlen ≠ 0)
    (flags : TarFlags) :
    squashTrailingSlash (uNameBuffer hdr flags) = squashTrailingSlash hdr.cName := by
  rw [uNameBuffer]
  split
  next hadd =>
    have hlen : (hdr.cName.append ⟨[slash], slash_noNul⟩).strlen = hdr.cName.strlen + 1 := by
      rw [CString.strlen_append]
      rfl
    rw [squashTrailingSlash, if_pos ⟨by omega, by rw [CString.bytes_append, List.getLast?_concat]⟩,
      squashTrailingSlash, if_neg fun h => hadd.2.1 h.2, hlen, Nat.add_sub_cancel]
    refine CString.ext ?_
    rw [CString.bytes_take, CString.bytes_append]
    exact List.take_left' rfl
  next => rfl

/-- The slash is put there once. -/
theorem uNameBuffer_again {rec rec' : FileHdr} {flags : TarFlags}
    (htype : rec'.fileType = rec.fileType) (hname : rec'.cName = uNameBuffer rec flags) :
    uNameBuffer rec' flags = uNameBuffer rec flags := by
  rw [uNameBuffer, htype, hname]
  rw [uNameBuffer]
  split
  next hadd =>
    rw [if_neg]
    rintro ⟨-, hlast, -⟩
    exact hlast (by rw [CString.bytes_append, List.getLast?_concat])
  next => rfl

/-- Nor does it for the slashes that are dropped. -/
theorem Unslashed.uNameBuffer {flags : TarFlags} {hdr : FileHdr} (h : Unslashed flags hdr.cName)
    (hne : hdr.cName.strlen ≠ 0) : Unslashed flags (Taru.uNameBuffer hdr flags) := by
  intro hflag
  have hname := (stripSlashes_eq_iff _).mp (h hflag)
  rw [Taru.uNameBuffer]
  split
  next hadd =>
    rw [CString.bytes_append, stripSlashes_eq_iff]
    intro c rest heq
    rcases hbytes : hdr.cName.bytes with _ | ⟨b, _ | ⟨d, bs⟩⟩
    · exact hne (by rw [CString.strlen, hbytes]; rfl)
    · rw [hbytes] at heq
      cases heq
      exact hadd.2.1 (by rw [hbytes]; rfl)
    · rw [hbytes] at heq
      cases heq
      exact hname _ _ hbytes
  next => exact h hflag

/-- A file header that is used again: what a read leaves alone. -/
structure Carried (hdr : FileHdr) : Prop where
  user : hdr.cCu = cBySys
  group : hdr.cCg = cBySys
  devMaj : hdr.cDevMaj.toNat ≤ tarMaxDevice
  devMin : hdr.cDevMin.toNat ≤ tarMaxDevice
  slots : hdr.extattlist.getD [] = []

/-- The owner that is written, by the default policy. -/
def ownerAgain (idByName : CString → Option UInt32) (nameById : UInt64 → Option CString)
    (name : CString) (id : UInt64) : CString × UInt64 :=
  if name.strlen = 0 then ((nameById id).getD .empty, id)
  else (name, ((idByName name).getD nobodyId).toUInt64)

/-- An owner that is found in a record is written again. -/
theorem OwnerHeld.again {flags : TarFlags} {idByName : CString → Option UInt32}
    {nameById : UInt64 → Option CString} {name user : CString} {id : UInt64}
    (h : OwnerHeld flags idByName nameById name id)
    (huser : user = ownerRead flags name ∨
      ((ownerRead flags name).strlen = 0 ∧ user = (nameById id).getD .empty)) :
    ownerField flags (ownerAgain idByName nameById user id).1 = ownerField flags name ∧
      (ownerAgain idByName nameById user id).2 = id := by
  by_cases hname : (ownerRead flags name).strlen = 0
  · obtain ⟨-, hknown⟩ := h.unnamed hname
    have hnumeric : ∀ a, flags.numericUids = true → ownerField flags a = ownerField flags name := by
      intro a hnum
      rw [ownerField, ownerField, if_pos hnum, if_pos hnum]
    have hempty : ownerField flags .empty = ownerField flags name := by
      by_cases hnum : flags.numericUids = true
      · exact hnumeric _ hnum
      · have hshort := h.short
        simp only [snameLen] at hshort
        rw [ownerRead, if_neg hnum, CString.take_of_strlen_le (by simp only [snameLen]; omega)]
          at hname
        rw [CString.strlen_eq_zero.mp hname]
    have hread : user = .empty ∨ user = (nameById id).getD .empty := by
      rcases huser with huser | ⟨-, huser⟩
      · exact .inl (huser.trans (CString.strlen_eq_zero.mp hname))
      · exact .inr huser
    cases hid : nameById id with
    | none =>
        rw [hid] at hread
        have huser' : user = .empty := hread.elim (fun h => h) fun h => h
        rw [huser', ownerAgain, if_pos (show CString.empty.strlen = 0 from rfl), hid]
        exact ⟨hempty, rfl⟩
    | some n =>
        obtain ⟨hnum, hback⟩ := hknown n hid
        refine ⟨hnumeric _ hnum, ?_⟩
        rw [ownerAgain]
        split
        next => rfl
        next hne =>
          rcases hread with huser' | huser'
          · exact absurd (by rw [huser']; rfl) hne
          · have hn := toNat_narrow id
            have hfits := h.fits
            simp only [tarMax7Octal] at hfits
            rw [huser', hid, Option.getD_some, hback, Option.getD_some]
            change id.toUInt32.toUInt64 = id
            exact UInt64.toNat_inj.mp (by omega)
  · have hown := h.ownerRead_eq hname
    have huser' : user = name := by
      rcases huser with huser | ⟨hzero, -⟩
      · exact huser.trans hown
      · exact absurd hzero hname
    have hne : ¬name.strlen = 0 := by
      rw [← hown]
      exact hname
    rw [huser', ownerAgain, if_neg hne]
    exact ⟨rfl, (h.named hname).symm⟩

/-- The ids and names that are written by the default policy. -/
theorem owner_bySys (db : SysDb) (hdr : FileHdr) (huser : hdr.cCu = cBySys)
    (hgroup : hdr.cCg = cBySys) (flags : TarFlags) :
    uidToWrite db hdr hdr.cUsername =
        (ownerAgain db.uidByName db.pwuid hdr.cUsername hdr.cUid).2 ∧
      unameToWrite db hdr hdr.cUsername flags =
        (ownerAgain db.uidByName db.pwuid hdr.cUsername hdr.cUid).1 ∧
      gidToWrite db hdr hdr.cGroupname =
        (ownerAgain db.gidByName db.grgid hdr.cGroupname hdr.cGid).2 ∧
      gnameToWrite db hdr hdr.cGroupname flags =
        (ownerAgain db.gidByName db.grgid hdr.cGroupname hdr.cGid).1 := by
  have hlookup : cBySys ≠ cByNone := by decide
  refine ⟨?_, ?_, ?_, ?_⟩
  · rw [uidToWrite, ownerAgain, huser]
    by_cases hname : hdr.cUsername.strlen = 0
    · rw [if_pos ⟨hname, hlookup⟩, if_pos hname]
    · rw [if_neg fun h => hname h.1, if_pos (.inl rfl), if_neg hname]
  · rw [unameToWrite, ownerAgain, huser]
    by_cases hname : hdr.cUsername.strlen = 0
    · rw [if_pos ⟨hname, hlookup⟩, if_pos hname]
    · rw [if_neg fun h => hname h.1, if_pos (.inl rfl), if_neg hname]
  · rw [gidToWrite, ownerAgain, hgroup]
    by_cases hname : hdr.cGroupname.strlen = 0
    · rw [if_pos ⟨hname, hlookup⟩, if_pos hname]
    · rw [if_neg fun h => hname h.1, if_pos (.inl rfl), if_neg hname]
  · rw [gnameToWrite, ownerAgain, hgroup]
    by_cases hname : hdr.cGroupname.strlen = 0
    · rw [if_pos ⟨hname, hlookup⟩, if_pos hname]
    · rw [if_neg fun h => hname h.1, if_pos (.inl rfl), if_neg hname]

/-- What the default policy makes of a name. -/
theorem nameByPolicy_bySys (name : CString) (sys : Option CString) (numericUids : Bool) :
    nameByPolicy cBySys name sys numericUids = name ∨
      (name.strlen = 0 ∧ nameByPolicy cBySys name sys numericUids = sys.getD .empty) := by
  rw [nameByPolicy]
  by_cases hname : name.strlen = 0
  · exact .inr ⟨hname, if_pos ⟨hname, by decide⟩⟩
  · rw [if_neg fun h => hname h.1, if_pos (.inl rfl)]
    exact .inl rfl

/-- The writer starts with a file header that was read as it is. -/
theorem memberHdr_of_unslashed {env : WriteEnv} {r : FileHdr} (h : Unslashed env.flags r.cName) :
    memberHdr env r = { r with
      cNamesize := UInt64.ofNat (r.cName.strlen + 1)
      extHeaderUsageMask := .zero
      extHeaderNeedsMask := .zero } := by
  have hstrip : stripped env.flags (taruFilehdr2filehdr r) = taruFilehdr2filehdr r :=
    @Unslashed.stripped_eq env.flags (taruFilehdr2filehdr r) h
  rw [memberHdr, hstrip]
  rfl

/-- The record of a file header that was read. -/
theorem recordOf_carried {env : WriteEnv} {r : FileHdr} (hc : Carried r)
    (hname : Unslashed env.flags r.cName) : ∃ user group,
      recordOf env r = { r with
        cNamesize := UInt64.ofNat (r.cName.strlen + 1)
        extHeaderUsageMask := .zero
        extHeaderNeedsMask := taruFillExthdrNeedsMask (memberHdr env r) env.flags
        cUsername := user, cGroupname := group, cFilesize := sizeByType r } ∧
      (user = r.cUsername ∨
        (r.cUsername.strlen = 0 ∧ user = (env.db.pwuid r.cUid).getD .empty)) ∧
      (group = r.cGroupname ∨
        (r.cGroupname.strlen = 0 ∧ group = (env.db.grgid r.cGid).getD .empty)) := by
  have hmember := memberHdr_of_unslashed hname
  have hchecked : checkedHdr env r = { r with
      cNamesize := UInt64.ofNat (r.cName.strlen + 1)
      extHeaderUsageMask := .zero
      extHeaderNeedsMask := taruFillExthdrNeedsMask (memberHdr env r) env.flags } := by
    rw [checkedHdr, hmember]
  have hsame : recordOf env r = { plainHdr env r with cFilesize := sizeByType r } := rfl
  have hkept : ∃ user group, recordOf env r = { r with
        cNamesize := UInt64.ofNat (r.cName.strlen + 1)
        extHeaderUsageMask := .zero
        extHeaderNeedsMask := taruFillExthdrNeedsMask (memberHdr env r) env.flags
        cUsername := user, cGroupname := group, cFilesize := sizeByType r } ∧
      ((user = r.cUsername ∧ group = r.cGroupname) ∨
        user = nameByPolicy cBySys r.cUsername (env.db.pwuid r.cUid) env.flags.numericUids ∧
          group = nameByPolicy cBySys r.cGroupname (env.db.grgid r.cGid)
            env.flags.numericUids) := by
    rw [hsame, plainHdr, paxHdr, taruSetFilehdrSysdbNameidByPolicy, hchecked]
    dsimp only
    rw [hc.user, hc.group]
    split
    · split
      · exact ⟨_, _, rfl, .inl ⟨rfl, rfl⟩⟩
      · exact ⟨_, _, rfl, .inr ⟨rfl, rfl⟩⟩
    · exact ⟨_, _, rfl, .inl ⟨rfl, rfl⟩⟩
  obtain ⟨user, group, heq, ⟨huser, hgroup⟩ | ⟨huser, hgroup⟩⟩ := hkept
  · exact ⟨user, group, heq, .inl huser, .inl hgroup⟩
  · rw [huser, hgroup] at heq
    exact ⟨_, _, heq, nameByPolicy_bySys _ _ _, nameByPolicy_bySys _ _ _⟩

section Again

variable {env : WriteEnv} {hdr : FileHdr}

/-- The record of a member: its type, its link name and its size. -/
theorem recordOf_fields (env : WriteEnv) (hdr : FileHdr) :
    (recordOf env hdr).fileType = hdr.fileType ∧
      (recordOf env hdr).cTarLinkname = hdr.cTarLinkname ∧
      (recordOf env hdr).cName = (memberHdr env hdr).cName ∧
      (recordOf env hdr).cFilesize = sizeByType hdr := by
  obtain ⟨htype, hlink, hname, -⟩ := plainHdr_fields env hdr
  exact ⟨htype, hlink, hname, rfl⟩

theorem recorded_recordOf (hrec : Recorded env hdr) : Recorded env (recordOf env hdr) := by
  obtain ⟨htype, hlink, -, -⟩ := recordOf_fields env hdr
  rw [Recorded, htype, hlink]
  exact hrec

/-- The size that is found fits. -/
theorem sizeRead_le (rec : FileHdr) : (sizeRead rec).toNat ≤ tarMaxSize := by
  rw [sizeRead]
  split
  · decide
  · split
    next h => exact h
    next => decide

variable {r : FileHdr} (hplain : Plain env hdr) (hrec : Recorded env hdr)
  (hkept : RecordKept env (recordOf env hdr)) (hr : ReadAgain env (recordOf env hdr) r)
  (hc : Carried r)

include hr in
/-- The type is found again. -/
theorem ReadAgain.fileType_eq : r.fileType = hdr.fileType := by
  rw [FileHdr.fileType, hr.mode]
  exact (recordOf_fields env hdr).1

include hplain hr in
/-- The link name of the record fits. -/
theorem ReadAgain.strlen_link_le : r.cTarLinkname.strlen ≤ tarLinknameSize := by
  rw [hr.link, linkRead]
  split
  · rw [(recordOf_fields env hdr).2.1]
    exact hplain.strlen_link_le
  · decide

include hrec hr in
theorem ReadAgain.recorded : Recorded env r := by
  have hlink : hdr.fileType = cpIflnk → r.cTarLinkname = hdr.cTarLinkname := by
    intro hlnk
    obtain ⟨htype, hlink, -, -⟩ := recordOf_fields env hdr
    rw [hr.link, linkRead, htype, if_pos (.inr hlnk), hlink]
  rw [Recorded, hr.fileType_eq]
  rcases hrec with hreg | hdir | hdev | ⟨hlnk, hshort⟩
  · exact .inl hreg
  · exact .inr (.inl hdir)
  · exact .inr (.inr (.inl hdev))
  · exact .inr (.inr (.inr ⟨hlnk, by rw [hlink hlnk]; exact hshort⟩))

include hkept hr in
/-- The path of the record is not stripped. -/
theorem ReadAgain.unslashed : Unslashed env.flags r.cName := by
  rw [hr.name]
  exact (unslashed_recordOf env hdr).uNameBuffer hkept.named

include hplain hkept hr hc in
/-- **What was read needs no extended header either.** -/
theorem ReadAgain.plain : Plain env r := by
  have hmember := memberHdr_of_unslashed (hr.unslashed hkept)
  have hname : (memberHdr env r).cName = r.cName := by rw [hmember]
  have hsquash : squashTrailingSlash r.cName =
      squashTrailingSlash (memberHdr env hdr).cName := by
    rw [hr.name, squashTrailingSlash_uNameBuffer hkept.named, (recordOf_fields env hdr).2.2.1]
  have hlong : ∀ flags, taruIsTarFilenameTooLong (memberHdr env r).cName flags =
      taruIsTarFilenameTooLong (memberHdr env hdr).cName flags := by
    intro flags
    rw [taruIsTarFilenameTooLong, taruIsTarFilenameTooLong, hname, hsquash]
  have hpath := congrArg ExtHeaderMask.path hplain.needs
  have hmd := congrArg ExtHeaderMask.mtime hplain.needs
  change env.flags.paxexthdrMd = false at hmd
  refine ⟨by rw [hlong, hplain.name], ?_, by rw [hc.slots]; rfl⟩
  have hfields : ∀ user, (ownerRead env.flags user).strlen < snameLen := by
    intro user
    rw [ownerRead]
    split
    · decide
    · exact Nat.lt_of_le_of_lt (CString.strlen_take_le _ _) (by decide)
  have hlink : taruIsTarLinknameTooLong (memberHdr env r).cTarLinkname {} = (false, false) := by
    rw [memberHdr_cTarLinkname, taruIsTarLinknameTooLong, if_pos (hr.strlen_link_le hplain)]
  have hsize := sizeRead_le (recordOf env hdr)
  have huid := hkept.user.fits
  have hgid := hkept.group.fits
  simp only [taruFillExthdrNeedsMask, hmd] at hpath
  simp only [taruFillExthdrNeedsMask, hlong, hlink, hmd, hpath]
  simp only [hmember, hr.size, hr.uid, hr.gid, hr.uname, hr.gname,
    Nat.not_lt.mpr hsize, Nat.not_lt.mpr (show _ ≤ tarMaxUid from huid),
    Nat.not_lt.mpr (show _ ≤ tarMaxGid from hgid), Nat.not_le.mpr (hfields _),
    Nat.not_lt.mpr hc.devMaj, Nat.not_lt.mpr hc.devMin, decide_false, Bool.or_false]
  rfl

include hplain in
/-- The size of a regular file fits. -/
theorem Plain.size_le : hdr.cFilesize.toNat ≤ tarMaxSize := by
  have hneeds := congrArg ExtHeaderMask.size hplain.needs
  obtain ⟨name, namesize, hmember⟩ := memberHdr_eq env hdr
  simp only [taruFillExthdrNeedsMask, ExtHeaderMask.zero, Bool.or_eq_false_iff,
    decide_eq_false_iff_not, hmember] at hneeds
  omega

include hplain hr in
/-- The size of a regular file is found again. -/
theorem ReadAgain.size_regular (hreg : hdr.fileType = cpIfreg)
    (hempty : hdr.cTarLinkname = .empty) : r.cFilesize = hdr.cFilesize := by
  obtain ⟨htype, hlink, -, hsize⟩ := recordOf_fields env hdr
  have hunsized : ¬isUnsizedType cpIfreg := by decide
  rw [hr.size, sizeRead, sizeToWrite, htype, hreg, hlink, hempty, hsize, sizeByType, hreg,
    if_neg hunsized, if_pos rfl, if_pos rfl, if_neg (show ¬CString.empty.strlen ≠ 0 by decide),
    if_pos hplain.size_le]

include hr in
/-- The fields by type are written again. -/
theorem ReadAgain.typeWrite (rec' : FileHdr) (htype : rec'.fileType = r.fileType)
    (hlink : rec'.cTarLinkname = r.cTarLinkname) (hsize : rec'.cFilesize = sizeByType r)
    (hname : rec'.fileType = cpIflnk → rec'.cName ≠ gnuLongLink) (hplain : Plain env hdr)
    {f : TypeFields} (hwrite : TypeWrite (recordOf env hdr)
      (offToChars (recordOf env hdr).cFilesize (.zero 12) .posix (termchOf env.flags))
      (termchOf env.flags) f) :
    typeFields rec' (offToChars rec'.cFilesize (.zero 12) .posix (termchOf env.flags))
      (termchOf env.flags) = .ok f := by
  obtain ⟨htype₀, hlink₀, -, hsize₀⟩ := recordOf_fields env hdr
  have htype' : rec'.fileType = (recordOf env hdr).fileType := by
    rw [htype, hr.fileType_eq, htype₀]
  have hlink' : rec'.cTarLinkname = linkRead (recordOf env hdr) := by
    rw [hlink, hr.link]
  -- A type without data has no size.
  have hzero : ∀ bits, (recordOf env hdr).fileType = bits → bits ≠ cpIfreg → bits ≠ cpIflnk →
      rec'.cFilesize = (recordOf env hdr).cFilesize := by
    intro bits hbits hreg hlnk
    rw [hsize, hsize₀, sizeByType, sizeByType, hr.fileType_eq, ← htype₀, hbits, if_neg hreg,
      if_neg hlnk, if_neg hreg, if_neg hlnk]
  have hfits := hplain.strlen_link_le
  rw [← hlink₀] at hfits
  cases hwrite with
  | regular hreg hempty =>
      have hnone : rec'.cTarLinkname.strlen = 0 := by
        rw [hlink', linkRead, if_pos (.inl hreg), hempty]
        rfl
      have hsame : rec'.cFilesize = (recordOf env hdr).cFilesize := by
        rw [htype₀] at hreg
        rw [hlink₀] at hempty
        rw [hsize, hsize₀, sizeByType, sizeByType, hr.fileType_eq, if_pos hreg, if_pos hreg,
          hr.size_regular hplain hreg hempty]
      rw [hsame]
      exact typeFields_regular (htype'.trans hreg) hnone
  | hardLink hreg hne =>
      have hsame : rec'.cTarLinkname = (recordOf env hdr).cTarLinkname := by
        rw [hlink', linkRead, if_pos (.inl hreg)]
      rw [typeFields_hardLink (htype'.trans hreg) (by rw [hsame]; exact hne), hsame,
        if_neg (Nat.not_lt.mpr hfits), uintmaxToChars_zero]
  | directory hdir =>
      rw [typeFields_directory (htype'.trans hdir), hzero _ hdir (by decide) (by decide)]
  | fifo hfifo =>
      rw [hzero _ hfifo (by decide) (by decide)]
      simp only [typeFields, htype'.trans hfifo]
      rfl
  | character hchr =>
      rw [hzero _ hchr (by decide) (by decide)]
      simp only [typeFields, htype'.trans hchr]
      rfl
  | block hblk =>
      rw [hzero _ hblk (by decide) (by decide)]
      simp only [typeFields, htype'.trans hblk]
      rfl
  | symlink hlnk =>
      have hsame : rec'.cTarLinkname = (recordOf env hdr).cTarLinkname := by
        rw [hlink', linkRead, if_pos (.inr hlnk)]
      rw [typeFields_symlink (htype'.trans hlnk) (hname (htype'.trans hlnk)), hsame,
        if_neg (Nat.not_lt.mpr hfits), uintmaxToChars_zero]

/-- An id that fits is written whatever was in its field. -/
theorem uidToChars_of_le {id : UInt64} (h : id.toNat ≤ tarMax7Octal) (old old' : CField 8)
    (termch : UInt8) :
    uidToChars id.toUInt32 old .posix termch = uidToChars id.toUInt32 old' .posix termch := by
  have hn := toNat_narrow id
  have hfits : fitsOctal 7 false id.toUInt32.toUInt64 = true := by
    rw [fitsOctal_iff _ (by decide), hn]
    simp only [tarMax7Octal] at h
    omega
  rw [uidToChars, uidToChars, toChars, toChars, if_pos hfits, if_pos hfits]

theorem gidToChars_of_le {id : UInt64} (h : id.toNat ≤ tarMax7Octal) (old old' : CField 8)
    (termch : UInt8) :
    gidToChars id.toUInt32 old .posix termch = gidToChars id.toUInt32 old' .posix termch :=
  uidToChars_of_le h old old' termch

/-- Only device files have device numbers in the record. -/
theorem deviceField_rdevToWrite {hdr : FileHdr} {size : CField 12} {termch : UInt8}
    {f : TypeFields} (hf : typeFields hdr size termch = .ok f) (rdev : UInt64)
    (flags : TarFlags) :
    deviceField f.typeflag (rdevToWrite hdr rdev) flags = deviceField f.typeflag rdev flags := by
  rw [rdevToWrite]
  split
  next => rfl
  next hdev =>
    have hnot : ¬(f.typeflag = chrType ∨ f.typeflag = blkType) := fun h =>
      hdev ((typeFields_device hf).mp h)
    rw [deviceField, deviceField, if_neg hnot, if_neg hnot]

include hplain hrec hkept hr hc in
/-- **What is read from a record is written as the same record.** -/
theorem ReadAgain.write {t : TarHeader}
    (hok : taruWriteOutTarHeader2 env.db (recordOf env hdr) (recordOf env hdr).cUsername
      (recordOf env hdr).cGroupname env.flags = .ok t) :
    taruWriteOutTarHeader2 env.db (recordOf env r) (recordOf env r).cUsername
      (recordOf env r).cGroupname env.flags = .ok t := by
  obtain ⟨f, w⟩ := writtenFor_of_ok hok
  have hlink := hplain.strlen_link_le
  rw [← (recordOf_fields env hdr).2.1] at hlink
  have hwrite := hkept.typeWrite (recorded_recordOf hrec) hlink w
  obtain ⟨user, group, hrec', huser, hgroup⟩ := recordOf_carried hc (hr.unslashed hkept)
  rw [hr.uname, hr.uid] at huser
  rw [hr.gname, hr.gid] at hgroup
  obtain ⟨huname, huid⟩ := hkept.user.again huser
  obtain ⟨hgname, hgid⟩ := hkept.group.again hgroup
  generalize hrec'' : recordOf env r = rec' at hrec'
  have hdir : r.cName.strlen ≠ 0 := by
    have hle := (strlen_withSlash_le (recordOf env hdr).cName).1
    have hne := hkept.named
    rw [hr.name, uNameBuffer]
    split
    · rw [CString.strlen_append]
      omega
    · exact hne
  have hname : rec'.fileType = cpIflnk → rec'.cName ≠ gnuLongLink := by
    intro hlnk
    have hlnk' : (recordOf env hdr).fileType = cpIflnk := by
      rw [(recordOf_fields env hdr).1, ← hr.fileType_eq, ← hlnk, hrec']
      rfl
    have hsame : rec'.cName = (recordOf env hdr).cName := by
      rw [hrec']
      change r.cName = _
      rw [hr.name, uNameBuffer, if_neg fun h => absurd (hlnk'.symm.trans h.1) (by decide)]
    rw [hsame]
    exact hkept.mark hlnk'
  have htype := hr.typeWrite rec' (by rw [hrec']; rfl) (by rw [hrec']) (by rw [hrec']) hname
    hplain hwrite
  have hbuffer : uNameBuffer rec' env.flags = uNameBuffer (recordOf env hdr) env.flags := by
    refine uNameBuffer_again ?_ (by rw [hrec']; exact hr.name)
    rw [(recordOf_fields env hdr).1, ← hr.fileType_eq, hrec']
    rfl
  have hblank : ∀ named, blankChksumHeader env.db rec' rec'.cUsername rec'.cGroupname env.flags
      named f = blankChksumHeader env.db (recordOf env hdr) (recordOf env hdr).cUsername
        (recordOf env hdr).cGroupname env.flags named f := by
    intro named
    have hown := owner_bySys env.db rec' (by rw [hrec']; exact hc.user)
      (by rw [hrec']; exact hc.group) env.flags
    have hfields : rec'.cUsername = user ∧ rec'.cUid = r.cUid ∧ rec'.cGroupname = group ∧
        rec'.cGid = r.cGid ∧ rec'.cMode = r.cMode ∧ rec'.cMtime = r.cMtime ∧
        rec'.cRdevMaj = r.cRdevMaj ∧ rec'.cRdevMin = r.cRdevMin := by
      rw [hrec']
      exact ⟨rfl, rfl, rfl, rfl, rfl, rfl, rfl, rfl⟩
    obtain ⟨h₁, h₂, h₃, h₄, h₅, h₆, h₇, h₈⟩ := hfields
    rw [h₁, h₂, h₃, h₄, hr.uid, hr.gid] at hown
    obtain ⟨hu, hun, hg, hgn⟩ := hown
    rw [h₁, h₃, blankChksumHeader, blankChksumHeader, hu, hun, hg, hgn, huname, huid, hgname, hgid,
      h₅, h₆, h₇, h₈, hr.mode, hr.mtime, hr.rdevMaj, hr.rdevMin,
      deviceField_rdevToWrite w.typeFields, deviceField_rdevToWrite w.typeFields,
      uidToChars_of_le hkept.user.fits _ (uidToChars (recordOf env hdr).cUid.toUInt32 (.zero 8)
        .posix (termchOf env.flags)),
      gidToChars_of_le hkept.group.fits _ (gidToChars (recordOf env hdr).cGid.toUInt32 (.zero 8)
        .posix (termchOf env.flags))]
  rw [taruWriteOutTarHeader2, if_neg hkept.named] at hok
  rw [taruWriteOutTarHeader2, if_neg (by rw [hrec']; exact hdir), hbuffer]
  split at hok
  next => cases hok
  next named hnamed =>
    dsimp only at hok ⊢
    rw [w.typeFields] at hok
    rw [htype]
    dsimp only at hok ⊢
    rw [hblank]
    exact hok

end Again

end Swbis.Taru
