import Swbis.Taru.PaxRead

/-!
# The round trip of a pax header

`paxRoundTrip_iff` says when a file header that was written in a format with pax headers is read
back with the same names, size and ids.  The writer stores the limit of the group id as the user
id, so a group id that is too large spoils a user id that is not.  The reader stores a size as the
user id and not as the size, so no size that is too large comes back.
-/

namespace Swbis.Taru

open CLib

/-! ## The record of each type -/

/-- A record is written for a type, and is none that announces data. -/
theorem typeWritten_iff {hdr : FileHdr} (hmode : hdr.cMode ≠ 0) (flags : TarFlags) :
    TypeWritten hdr flags ↔ (linkRead hdr).strlen ≤ tarLinknameSize ∧
      (hdr.fileType = cpIflnk → hdr.cName ≠ gnuLongLink) := by
  rw [TypeWritten]
  by_cases hreg : hdr.fileType = cpIfreg
  · have hlnk : hdr.fileType ≠ cpIflnk := by
      rw [hreg]
      decide
    rw [linkRead, if_pos (.inl hreg)]
    by_cases hlink : hdr.cTarLinkname.strlen = 0
    · simp only [typeFields_regular hreg hlink, hlink, hlnk, Nat.zero_le, false_implies, and_true,
        iff_true]
      exact ⟨_, rfl, show isExtHeaderType regType = false by decide⟩
    · rw [typeFields_hardLink hreg hlink]
      split
      · next hlong => simp [Nat.not_le.mpr hlong]
      · next hle =>
          simp only [Nat.le_of_not_lt hle, hlnk, false_implies, and_true, iff_true]
          exact ⟨_, rfl, show isExtHeaderType lnkType = false by decide⟩
  · by_cases hlnk : hdr.fileType = cpIflnk
    · rw [linkRead, if_pos (.inr hlnk)]
      by_cases hname : hdr.cName = gnuLongLink
      · simp only [hlnk, hname, ne_eq, not_true_eq_false, imp_false, and_false, iff_false]
        rintro ⟨t, ht, hplain⟩
        simp only [typeFields, hlnk, hname, show ¬ cpIflnk = cpIfreg by decide,
          show ¬ cpIflnk = cpIfdir by decide, show ¬ cpIflnk = cpIfchr by decide,
          show ¬ cpIflnk = cpIfblk by decide, show ¬ cpIflnk = cpIfsock by decide,
          show ¬ cpIflnk = cpIfifo by decide, or_self, if_false, if_true] at ht
        split at ht
        · cases ht
        · cases ht
          cases hplain
      · rw [typeFields_symlink hlnk hname]
        split
        · next hlong => simp [Nat.not_le.mpr hlong]
        · next hle =>
            simp only [Nat.le_of_not_lt hle, hname, ne_eq, not_false_eq_true, implies_true,
              and_self, iff_true]
            exact ⟨_, rfl, show isExtHeaderType symType = false by decide⟩
    · rw [linkRead, if_neg (not_or.mpr ⟨hreg, hlnk⟩)]
      simp only [hlnk, CString.strlen_empty, Nat.zero_le, false_implies, and_self, iff_true]
      simp only [typeFields, if_neg hreg, if_neg hlnk, hmode, false_and, if_false]
      repeat' split
      · exact ⟨_, rfl, show isExtHeaderType dirType = false by decide⟩
      · exact ⟨_, rfl, show isExtHeaderType chrType = false by decide⟩
      · exact ⟨_, rfl, show isExtHeaderType blkType = false by decide⟩
      · exact ⟨_, rfl, show isExtHeaderType fifoType = false by decide⟩
      · exact ⟨_, rfl, show isExtHeaderType aregType = false by decide⟩

section TypeRecord

variable (env : WriteEnv) (linkrecord : Option Hllist) (hdr : FileHdr)

/-- The types that have a record. -/
def HasRecord : Prop :=
  hdr.fileType = cpIfreg ∨ hdr.fileType = cpIfdir ∨
    ((hdr.fileType = cpIfifo ∨ hdr.fileType = cpIfchr ∨ hdr.fileType = cpIfblk) ∧
      env.format = .ustar) ∨
    (hdr.fileType = cpIflnk ∧ hdr.cTarLinkname.strlen < tarNameSize)

/-- The link name in the record.  A character device of the link record becomes a symbolic link. -/
def linkWritten : CString :=
  if hdr.fileType = cpIflnk then hdr.cTarLinkname
  else if hdr.fileType = cpIfreg then memberLink env linkrecord hdr
  else if hdr.fileType = cpIfchr then
    match findLink env linkrecord hdr with
    | some en => en.path
    | none => .empty
  else .empty

/-- The record is one of a symbolic link. -/
def WrittenAsSymlink : Prop :=
  hdr.fileType = cpIflnk ∨ (hdr.fileType = cpIfchr ∧ (findLink env linkrecord hdr).isSome = true)

/-- The size is in the record.  A fifo or block device of the link record gets an unknown type. -/
def HasSize : Prop :=
  (hdr.fileType = cpIfreg ∧ (memberLink env linkrecord hdr).strlen = 0) ∨
    ((hdr.fileType = cpIfifo ∨ hdr.fileType = cpIfblk) ∧
      (findLink env linkrecord hdr).isSome = true)

instance : Decidable (HasRecord env hdr) := inferInstanceAs (Decidable (_ ∨ _))

instance : Decidable (WrittenAsSymlink env linkrecord hdr) := inferInstanceAs (Decidable (_ ∨ _))

instance : Decidable (HasSize env linkrecord hdr) := inferInstanceAs (Decidable (_ ∨ _))

/-- What the record of a type holds. -/
structure TypeRecord (rec : FileHdr) : Prop where
  kept : ∃ mode link size, rec = { hdr with cMode := mode, cTarLinkname := link, cFilesize := size }
  mode : rec.cMode ≠ 0
  directory : rec.fileType = cpIfdir ↔ hdr.fileType = cpIfdir
  symlink : rec.fileType = cpIflnk ↔ WrittenAsSymlink env linkrecord hdr
  link : linkRead rec = linkWritten env linkrecord hdr
  size : hdr.cFilesize.toNat ≤ tarMaxSize →
    sizeRead rec = if HasSize env linkrecord hdr then hdr.cFilesize else 0

/-- A type other than zero has a mode. -/
theorem cMode_ne_zero {rec : FileHdr} {cType : UInt64} (h : rec.fileType = cType)
    (hne : cType ≠ 0) : rec.cMode ≠ 0 := by
  intro hzero
  rw [FileHdr.fileType, hzero, UInt64.zero_and] at h
  exact hne h.symm

/-- A device that is found in the link record gets the bit of a regular file. -/
theorem fileType_or_cpIfreg (link : CString) {cType cType' : UInt64} (h : hdr.fileType = cType)
    (hor : cType ||| cpIfreg = cType') :
    ({ hdr with cMode := hdr.cMode ||| cpIfreg, cTarLinkname := link } : FileHdr).fileType =
      cType' := by
  rw [← hor, ← h]
  simp only [FileHdr.fileType]
  rw [← UInt64.toBitVec_inj]
  simp only [UInt64.toBitVec_and, UInt64.toBitVec_or, BitVec.and_or_distrib_right]
  rfl

theorem typeRecord_regular (hreg : hdr.fileType = cpIfreg) :
    TypeRecord env linkrecord hdr { hdr with cTarLinkname := memberLink env linkrecord hdr } := by
  generalize hlink : memberLink env linkrecord hdr = link
  have htype : ({ hdr with cTarLinkname := link } : FileHdr).fileType = cpIfreg := hreg
  constructor
  · exact ⟨_, _, _, rfl⟩
  · exact cMode_ne_zero htype (by decide)
  · rw [htype, hreg]
  · rw [htype, WrittenAsSymlink, hreg]
    simp [cpIfreg, cpIflnk, cpIfchr]
  · rw [linkRead, htype, linkWritten, hreg, hlink]
    rfl
  · intro hsize
    rw [sizeRead, htype, sizeToWrite, htype]
    by_cases hempty : link.strlen = 0
    · simp [HasSize, hreg, hlink, hempty, hsize, isUnsizedType, cpIfreg, cpIfchr, cpIfblk, cpIfsock,
        cpIfifo, cpIflnk]
    · simp [HasSize, hreg, hlink, hempty, isUnsizedType, cpIfreg, cpIfchr, cpIfblk, cpIfsock,
        cpIfifo, cpIflnk]

theorem typeRecord_directory (hdir : hdr.fileType = cpIfdir) :
    TypeRecord env linkrecord hdr { hdr with cFilesize := 0 } := by
  have htype : ({ hdr with cFilesize := 0 } : FileHdr).fileType = cpIfdir := hdir
  constructor
  · exact ⟨_, _, _, rfl⟩
  · exact cMode_ne_zero htype (by decide)
  · rw [htype, hdir]
  · rw [htype, WrittenAsSymlink, hdir]
    simp [cpIfdir, cpIflnk, cpIfchr]
  · rw [linkRead, htype, linkWritten, hdir]
    rfl
  · intro _
    rw [sizeRead, htype, sizeToWrite, htype]
    simp [HasSize, hdir, isUnsizedType, cpIfdir, cpIfreg, cpIfchr, cpIfblk, cpIfsock, cpIfifo,
      cpIflnk]

theorem typeRecord_symlink (hlnk : hdr.fileType = cpIflnk) (size : UInt64) :
    TypeRecord env linkrecord hdr { hdr with cFilesize := size } := by
  have htype : ({ hdr with cFilesize := size } : FileHdr).fileType = cpIflnk := hlnk
  constructor
  · exact ⟨_, _, _, rfl⟩
  · exact cMode_ne_zero htype (by decide)
  · rw [htype, hlnk]
  · rw [htype, WrittenAsSymlink, hlnk]
    simp
  · rw [linkRead, htype, linkWritten, hlnk]
    rfl
  · intro _
    rw [sizeRead, htype]
    simp [HasSize, hlnk, isUnsizedType, cpIfreg, cpIfchr, cpIfblk, cpIfsock, cpIfifo, cpIflnk]

/-- A device that is not in the link record. -/
theorem typeRecord_device
    (hdev : hdr.fileType = cpIfifo ∨ hdr.fileType = cpIfchr ∨ hdr.fileType = cpIfblk)
    (hfind : findLink env linkrecord hdr = none) :
    TypeRecord env linkrecord hdr { hdr with cFilesize := 0 } := by
  generalize hrec : ({ hdr with cFilesize := 0 } : FileHdr) = rec
  have htype : rec.fileType = hdr.fileType := hrec ▸ rfl
  obtain ⟨hreg, hlnk, hspecial, hzero⟩ : hdr.fileType ≠ cpIfreg ∧ hdr.fileType ≠ cpIflnk ∧
      isUnsizedType hdr.fileType ∧ hdr.fileType ≠ 0 := by
    rcases hdev with h | h | h
    · rw [h]
      decide
    · rw [h]
      decide
    · rw [h]
      decide
  constructor
  · exact ⟨_, _, _, hrec.symm⟩
  · exact cMode_ne_zero htype hzero
  · rw [htype]
  · rw [htype, WrittenAsSymlink, hfind]
    simp
  · rw [linkRead, htype, linkWritten, hfind]
    simp [hreg, hlnk]
  · intro _
    rw [sizeRead, htype, if_pos hspecial]
    simp [HasSize, hreg, hfind]

/-- A character device of the link record is written as a symbolic link. -/
theorem typeRecord_linkedChr (hchr : hdr.fileType = cpIfchr) {en : HllistEntry}
    (hfind : findLink env linkrecord hdr = some en) :
    TypeRecord env linkrecord hdr
      { hdr with cMode := hdr.cMode ||| cpIfreg, cTarLinkname := en.path } := by
  have htype := fileType_or_cpIfreg hdr en.path hchr (show cpIfchr ||| cpIfreg = cpIflnk by decide)
  constructor
  · exact ⟨_, _, _, rfl⟩
  · exact cMode_ne_zero htype (by decide)
  · rw [htype, hchr]
    decide
  · rw [htype, WrittenAsSymlink, hchr, hfind]
    simp
  · rw [linkRead, htype, linkWritten, hchr, hfind]
    rfl
  · intro _
    rw [sizeRead, htype]
    simp [HasSize, hchr, isUnsizedType, cpIfreg, cpIfifo, cpIfchr, cpIfblk, cpIfsock, cpIflnk]

/-- A fifo or a block device of the link record is written with an unknown type. -/
theorem typeRecord_linkedOther (hdev : hdr.fileType = cpIfifo ∨ hdr.fileType = cpIfblk)
    {en : HllistEntry} (hfind : findLink env linkrecord hdr = some en) :
    TypeRecord env linkrecord hdr
      { hdr with cMode := hdr.cMode ||| cpIfreg, cTarLinkname := en.path } := by
  obtain ⟨hreg', hdir', hlnk', hchr'⟩ : hdr.fileType ≠ cpIfreg ∧ hdr.fileType ≠ cpIfdir ∧
      hdr.fileType ≠ cpIflnk ∧ hdr.fileType ≠ cpIfchr := by
    rcases hdev with h | h
    · rw [h]
      decide
    · rw [h]
      decide
  have hsize : HasSize env linkrecord hdr := .inr ⟨hdev, by rw [hfind]; rfl⟩
  obtain ⟨cType, htype, hreg, hdir, hlnk, hspecial, hzero⟩ : ∃ cType,
      ({ hdr with cMode := hdr.cMode ||| cpIfreg, cTarLinkname := en.path } : FileHdr).fileType =
        cType ∧ cType ≠ cpIfreg ∧ cType ≠ cpIfdir ∧ cType ≠ cpIflnk ∧ ¬ isUnsizedType cType ∧
        cType ≠ 0 := by
    rcases hdev with h | h
    · exact ⟨0o110000, fileType_or_cpIfreg hdr en.path h (by decide), by decide⟩
    · exact ⟨0o160000, fileType_or_cpIfreg hdr en.path h (by decide), by decide⟩
  constructor
  · exact ⟨_, _, _, rfl⟩
  · exact cMode_ne_zero htype hzero
  · rw [htype]
    simp [hdir, hdir']
  · rw [htype]
    simp [hlnk, WrittenAsSymlink, hlnk', hchr']
  · rw [linkRead, htype, linkWritten]
    simp [hreg, hlnk, hreg', hlnk', hchr']
  · intro hle
    rw [sizeRead, htype, if_neg hspecial, sizeToWrite, htype, if_neg hreg, if_neg hlnk, if_pos hle,
      if_pos hsize]

/-- The switch over the file type writes a record for these types. -/
theorem hasRecord_iff : HasRecord env hdr ↔ ∃ rec, recordHdr env linkrecord hdr = some rec := by
  rw [HasRecord, recordHdr]
  by_cases hreg : hdr.fileType = cpIfreg
  · simp [hreg]
  · rw [if_neg hreg]
    by_cases hdir : hdr.fileType = cpIfdir
    · rw [if_pos hdir]
      simp [hdir]
    · rw [if_neg hdir]
      by_cases hsock : hdr.fileType = cpIfsock
      · rw [if_pos hsock]
        simp [hsock, cpIfsock, cpIfreg, cpIfdir, cpIfifo, cpIfchr, cpIfblk, cpIflnk]
      · rw [if_neg hsock]
        by_cases hdev : hdr.fileType = cpIfifo ∨ hdr.fileType = cpIfchr ∨ hdr.fileType = cpIfblk
        · have hlnk : hdr.fileType ≠ cpIflnk := by
            rcases hdev with h | h | h
            · rw [h]
              decide
            · rw [h]
              decide
            · rw [h]
              decide
          rw [if_pos hdev]
          simp only [hreg, hdir, hlnk, hdev, false_or, false_and, or_false, true_and, deviceHdr]
          cases env.format with
          | tar => simp
          | ustar => simp
        · rw [if_neg hdev]
          simp only [hreg, hdir, hdev, false_or, false_and]
          by_cases hlnk : hdr.fileType = cpIflnk
          · rw [if_pos hlnk]
            simp only [hlnk, true_and]
            split
            · next hlong => simp [Nat.not_lt.mpr (Nat.le_of_lt_succ hlong)]
            · next hfits => simp [Nat.lt_of_succ_le (Nat.le_of_not_lt hfits)]
          · simp [hlnk]

/-- What it writes is a record of the type. -/
theorem typeRecord_of_recordHdr {rec : FileHdr} (h : recordHdr env linkrecord hdr = some rec) :
    TypeRecord env linkrecord hdr rec := by
  rw [recordHdr] at h
  split at h
  · next hreg =>
      cases h
      exact typeRecord_regular env linkrecord hdr hreg
  · split at h
    · next hdir =>
        cases h
        exact typeRecord_directory env linkrecord hdr hdir
    · split at h
      · cases h
      · split at h
        · next hdev =>
            rw [deviceHdr] at h
            cases hformat : env.format with
            | tar =>
                rw [hformat] at h
                cases h
            | ustar =>
                rw [hformat] at h
                cases hfind : findLink env linkrecord hdr with
                | some en =>
                    rw [hfind] at h
                    cases h
                    rcases hdev with hfifo | hchr | hblk
                    · exact typeRecord_linkedOther env linkrecord hdr (.inl hfifo) hfind
                    · exact typeRecord_linkedChr env linkrecord hdr hchr hfind
                    · exact typeRecord_linkedOther env linkrecord hdr (.inr hblk) hfind
                | none =>
                    rw [hfind] at h
                    cases h
                    exact typeRecord_device env linkrecord hdr hdev hfind
        · split at h
          · next hlnk =>
              split at h
              · cases h
              · cases h
                exact typeRecord_symlink env linkrecord hdr hlnk _
          · cases h

end TypeRecord

/-! ## The file header that fits -/

/-- The fields that need a record. -/
def paxNeeds (env : WriteEnv) (hdr : FileHdr) : ExtHeaderMask :=
  taruFillExthdrNeedsMask (memberHdr env hdr) env.flags

/-- The file header that the switch over the file type gets. -/
def paxFitted (env : WriteEnv) (hdr : FileHdr) : FileHdr := fittedHdr (paxHdr env hdr)

section Fitted

variable (env : WriteEnv) (hdr : FileHdr)

/-- The path loses its leading slashes. -/
theorem memberHdr_kept : ∃ namesize, memberHdr env hdr = { hdr with
    cName := (memberHdr env hdr).cName
    cNamesize := namesize
    extHeaderUsageMask := .zero
    extHeaderNeedsMask := .zero } := by
  refine ⟨UInt64.ofNat ((memberHdr env hdr).cName.strlen + 1), ?_⟩
  simp only [memberHdr, stripped]
  split
  · rfl
  · rfl

/-- The owners get their names. -/
theorem paxHdr_kept : ∃ namesize, paxHdr env hdr = { hdr with
    cName := (memberHdr env hdr).cName
    cNamesize := namesize
    cUsername := (paxHdr env hdr).cUsername
    cGroupname := (paxHdr env hdr).cGroupname
    extHeaderUsageMask := .zero
    extHeaderNeedsMask := paxNeeds env hdr } := by
  obtain ⟨user, group, heq⟩ := paxHdr_eq env hdr
  obtain ⟨namesize, hmember⟩ := memberHdr_kept env hdr
  have hchecked : checkedHdr env hdr =
    { memberHdr env hdr with extHeaderNeedsMask := paxNeeds env hdr } := rfl
  refine ⟨namesize, ?_⟩
  generalize paxNeeds env hdr = need at *
  generalize memberHdr env hdr = member at *
  rw [heq, hchecked, hmember]

/-- The names of the policy, unless names are left out and no field has a record. -/
theorem paxHdr_policy (h : paxNeeds env hdr ≠ .zero ∨ env.flags.numericUids = false) :
    (paxHdr env hdr).cUsername =
        nameByPolicy hdr.cCu hdr.cUsername (env.db.pwuid hdr.cUid) env.flags.numericUids ∧
      (paxHdr env hdr).cGroupname =
        nameByPolicy hdr.cCg hdr.cGroupname (env.db.grgid hdr.cGid) env.flags.numericUids := by
  have hpolicy : paxHdr env hdr =
      taruSetFilehdrSysdbNameidByPolicy env.db env.flags (checkedHdr env hdr) := by
    rw [paxHdr, if_neg]
    rintro ⟨hnumeric, hzero, -⟩
    rcases h with h | h
    · exact h hzero
    · rw [hnumeric] at h
      cases h
  rw [hpolicy]
  simp only [taruSetFilehdrSysdbNameidByPolicy, checkedHdr, memberHdr, stripped]
  split
  · exact ⟨rfl, rfl⟩
  · exact ⟨rfl, rfl⟩

/-- A field without a record fits. -/
theorem paxNeeds_eq_false :
    ((paxNeeds env hdr).size = false → hdr.cFilesize.toNat ≤ tarMaxSize) ∧
    ((paxNeeds env hdr).uid = false → hdr.cUid.toNat ≤ tarMaxUid) ∧
    ((paxNeeds env hdr).gid = false → hdr.cGid.toNat ≤ tarMaxGid) ∧
    ((paxNeeds env hdr).uname = false → hdr.cUsername.strlen ≤ snameLen - 1) ∧
    ((paxNeeds env hdr).gname = false → hdr.cGroupname.strlen ≤ snameLen - 1) := by
  obtain ⟨namesize, hkept⟩ := memberHdr_kept env hdr
  rw [paxNeeds, hkept]
  simp only [taruFillExthdrNeedsMask, Bool.or_eq_false_iff, decide_eq_false_iff_not, Nat.not_lt,
    Nat.not_le]
  exact ⟨fun h => h.1, fun h => h.1, fun h => h.1, fun h => Nat.le_pred_of_lt h.1,
    fun h => Nat.le_pred_of_lt h.1⟩

/-- Where an id has no record but the size has one, the size does not fit. -/
theorem lt_size_of_paxNeeds (huid : (paxNeeds env hdr).uid = false)
    (hsize : (paxNeeds env hdr).size = true) : tarMaxSize < hdr.cFilesize.toNat := by
  obtain ⟨namesize, hkept⟩ := memberHdr_kept env hdr
  rw [paxNeeds, hkept] at huid hsize
  simp only [taruFillExthdrNeedsMask, Bool.or_eq_false_iff, Bool.or_eq_true,
    decide_eq_true_eq] at huid hsize
  exact hsize.resolve_right (by rw [huid.2]; decide)

end Fitted

/-! ## Owners -/

/-- The id of an owner is looked up by its name. -/
def LooksUp (cC : UInt8) (name : CString) : Prop :=
  name.strlen ≠ 0 ∧ (cC = cBySys ∨ cC = cByName)

instance (cC : UInt8) (name : CString) : Decidable (LooksUp cC name) :=
  inferInstanceAs (Decidable (_ ∧ _))

/-- The id that is found, as it is read from its field. -/
def foundId (found : Option UInt32) : UInt64 := idRead (found.getD nobodyId).toUInt64

section Ids

variable (db : SysDb) (hdr : FileHdr) (name : CString)

theorem uidToWrite_eq : uidToWrite db hdr name =
    if LooksUp hdr.cCu name then ((db.uidByName name).getD nobodyId).toUInt64 else hdr.cUid := by
  simp only [uidToWrite, LooksUp]
  by_cases hname : name.strlen = 0
  · by_cases hnone : hdr.cCu = cByNone
    · simp [hname, hnone, cByNone, cBySys, cByName]
    · simp [hname, hnone]
  · simp [hname]

theorem gidToWrite_eq : gidToWrite db hdr name =
    if LooksUp hdr.cCg name then ((db.gidByName name).getD nobodyId).toUInt64 else hdr.cGid := by
  simp only [gidToWrite, LooksUp]
  by_cases hname : name.strlen = 0
  · by_cases hnone : hdr.cCg = cByNone
    · simp [hname, hnone, cByNone, cBySys, cByName]
    · simp [hname, hnone]
  · simp [hname]

end Ids

/-- An id that fits is read as it is. -/
theorem idRead_of_le {id : UInt64} (h : id.toNat ≤ tarMax7Octal) : idRead id = id := by
  have hlow : id.toUInt32.toUInt64 = id := by
    rw [tarMax7Octal] at h
    rw [← UInt64.toNat_inj, UInt32.toNat_toUInt64, UInt64.toNat_toUInt32]
    omega
  rw [idRead, hlow, if_pos h]

/-- The name of an owner that is to be written, for the user and the group. -/
def ownerToWrite (cC : UInt8) (name : CString) (sys : Option CString) (byId : CString)
    (numericUids : Bool) : CString :=
  if name.strlen = 0 ∧ cC ≠ cByNone then sys.getD .empty
  else if cC = cBySys ∨ cC = cByName then name
  else if cC = cById then if numericUids = false then byId else .empty
  else name

/-- The name of an owner is taken from the system. -/
def TakenFromSys (cC : UInt8) (name : CString) : Prop :=
  cC = cById ∨ (name.strlen = 0 ∧ cC ≠ cByNone)

instance (cC : UInt8) (name : CString) : Decidable (TakenFromSys cC name) :=
  inferInstanceAs (Decidable (_ ∨ _))

/-- The name of an owner comes back.  With a record the policy must leave it alone; without one
it is in the field of the record, where the system may have another one. -/
def OwnerKept (flags : TarFlags) (needed : Bool) (cC : UInt8) (name : CString)
    (sys fitted : Option CString) (byId : CString) : Prop :=
  if needed then nameByPolicy cC name sys flags.numericUids = name
  else if flags.numericUids then name = .empty
  else TakenFromSys cC name →
    (ownerToWrite cC (nameByPolicy cC name sys false) fitted byId false).take (snameLen - 1) = name

instance (flags : TarFlags) (needed : Bool) (cC : UInt8) (name : CString)
    (sys fitted : Option CString) (byId : CString) :
    Decidable (OwnerKept flags needed cC name sys fitted byId) := by
  unfold OwnerKept
  infer_instance

theorem ownerKept_iff {flags : TarFlags} {needed : Bool} {cC : UInt8} {name : CString}
    {sys fitted : Option CString} {byId : CString} {written : CString}
    (hwritten : needed = true ∨ flags.numericUids = false →
      written = nameByPolicy cC name sys flags.numericUids)
    (hfits : needed = false → name.strlen ≤ snameLen - 1) :
    (if needed then written else ownerRead flags (ownerToWrite cC
        (if needed then written.take (snameLen - 1) else written) fitted byId flags.numericUids)) =
      name ↔ OwnerKept flags needed cC name sys fitted byId := by
  cases needed with
  | true =>
      rw [hwritten (.inl rfl)]
      rfl
  | false =>
      simp only [OwnerKept, Bool.false_eq_true, if_false]
      by_cases hnumeric : flags.numericUids = true
      · rw [ownerRead, if_pos hnumeric, if_pos hnumeric]
        exact eq_comm
      · rw [ownerRead, if_neg hnumeric, if_neg hnumeric]
        rw [Bool.not_eq_true] at hnumeric
        rw [hwritten (.inr hnumeric), hnumeric]
        constructor
        · exact fun h _ => h
        · intro h
          by_cases hsys : TakenFromSys cC name
          · exact h hsys
          · -- The policy and the writer leave the name alone.
            simp only [TakenFromSys, not_or] at hsys
            have hpolicy : nameByPolicy cC name sys false = name := by
              rw [nameByPolicy, if_neg hsys.2, if_neg hsys.1, ite_self]
            rw [hpolicy, ownerToWrite, if_neg hsys.2, if_neg hsys.1, ite_self,
              CString.take_of_strlen_le (hfits rfl)]

/-! ## Paths -/

/-- The path of a member is in the name fields of its record.  The slash that a directory gets is
read back too, unless it is the last byte of 256. -/
def PathHeld (flags : TarFlags) (hdr : FileHdr) : Prop :=
  let name := uNameBuffer hdr flags
  (name = hdr.cName ∧ HeldByRecord hdr.cName) ∨
    (name ≠ hdr.cName ∧ swlibProcessHexEscapes name = name ∧
      name.strlen = prefixFieldSize + tarNameSize + 1 ∧
      splitLongName name.bytes name.strlen = prefixFieldSize)

theorem uNameBuffer_cases (hdr : FileHdr) (flags : TarFlags) :
    uNameBuffer hdr flags = hdr.cName ∨
      (hdr.cName.bytes.getLast? ≠ some slash ∧
        uNameBuffer hdr flags = hdr.cName.append ⟨[slash], slash_noNul⟩) := by
  simp only [uNameBuffer]
  split
  · next h => exact .inr ⟨h.2.1, rfl⟩
  · exact .inl rfl

theorem pathHeld_iff {flags : TarFlags} {hdr : FileHdr} :
    NameAccepted (uNameBuffer hdr flags) ∧
        storedName (swlibProcessHexEscapes (uNameBuffer hdr flags)) = hdr.cName ↔
      PathHeld flags hdr := by
  simp only [PathHeld]
  rcases uNameBuffer_cases hdr flags with heq | ⟨-, happend⟩
  · simp only [heq, heldByRecord_iff, ne_eq, not_true_eq_false, true_and, false_and, or_false]
  · generalize uNameBuffer hdr flags = name at *
    have hlen : name.strlen = hdr.cName.strlen + 1 := by
      rw [happend, CString.strlen_append]
      rfl
    have hne : name ≠ hdr.cName := fun h => by
      rw [h] at hlen
      omega
    simp only [hne, ne_eq, not_false_eq_true, true_and, false_and, false_or]
    constructor
    · rintro ⟨haccept, hstored⟩
      have hhex := hex_eq_of_storedName name (by rw [hstored]; omega)
      rw [hhex] at hstored
      rw [nameAccepted_iff hhex] at haccept
      have hlong : ¬ name.strlen ≤ tarNameSize := fun hshort =>
        hne (((storedName_eq_iff name).mpr (.inl hshort)).symm.trans hstored)
      have hacc := haccept.resolve_left hlong
      rw [storedName, if_neg hlong] at hstored
      have hsplit := splitLongName_le name.bytes name.strlen
      have hstrlen := congrArg CString.strlen hstored
      simp only [prefixFieldSize, nameFieldSize, tarNameSize] at *
      split at hstrlen
      · rw [CString.strlen_empty] at hstrlen
        omega
      · rw [CString.strlen_take] at hstrlen
        exact ⟨hhex, by omega, by omega⟩
    · rintro ⟨hhex, h256, hsplit⟩
      rw [hhex, nameAccepted_iff hhex, storedName, if_neg (by rw [h256]; decide),
        if_neg (by rw [hsplit]; decide), hsplit, h256]
      refine ⟨.inr (by decide), ?_⟩
      apply CString.ext
      rw [happend, CString.bytes_take, CString.bytes_append]
      refine List.take_left' ?_
      change hdr.cName.strlen = _
      simp only [prefixFieldSize, tarNameSize] at *
      omega

/-- The path of a record is the one of its file header, with or without a slash. -/
theorem uNameBuffer_congr {hdr rec : FileHdr} (hname : rec.cName = hdr.cName)
    (hdir : rec.fileType = cpIfdir ↔ hdr.fileType = cpIfdir) (flags : TarFlags) :
    uNameBuffer rec flags = uNameBuffer hdr flags := by
  simp only [uNameBuffer, hname, hdir]

theorem Unslashed.memberHdr_cName {env : WriteEnv} {hdr : FileHdr}
    (h : Unslashed env.flags hdr.cName) : (memberHdr env hdr).cName = hdr.cName := by
  have hstripped : stripped env.flags (taruFilehdr2filehdr hdr) = taruFilehdr2filehdr hdr :=
    Unslashed.stripped_eq h
  rw [memberHdr, hstripped]
  rfl

theorem memberHdr_cName_suffix (env : WriteEnv) (hdr : FileHdr) :
    (memberHdr env hdr).cName.bytes <:+ hdr.cName.bytes := by
  simp only [memberHdr, stripped]
  split
  · exact stripSlashes_suffix _
  · exact List.suffix_refl _

/-- What is read from the name fields has the length of the name only if it is the name. -/
theorem storedName_eq_of_strlen {name : CString} (h : (storedName name).strlen = name.strlen) :
    storedName name = name := by
  rw [storedName] at h ⊢
  split at h
  · next hshort => rw [if_pos hshort]
  · next hlong =>
      rw [if_neg hlong]
      split at h
      · rw [CString.strlen_empty] at h
        exact absurd (h ▸ Nat.zero_le _) hlong
      · next hsplit =>
          rw [if_neg hsplit]
          rw [CString.strlen_take] at h
          exact CString.take_of_strlen_le (by omega)

/-- A path that comes back from the record had no leading slashes. -/
theorem memberHdr_cName_of_stored {env : WriteEnv} {hdr rec : FileHdr}
    (hname : rec.cName = (memberHdr env hdr).cName) (hne : rec.cName.strlen ≠ 0)
    (hstored : storedName (swlibProcessHexEscapes (uNameBuffer rec env.flags)) = hdr.cName) :
    (memberHdr env hdr).cName = hdr.cName := by
  obtain ⟨front, hfront⟩ := memberHdr_cName_suffix env hdr
  rw [← hname] at hfront ⊢
  have hfrontlen := congrArg List.length hfront
  rw [List.length_append] at hfrontlen
  change front.length + rec.cName.strlen = hdr.cName.strlen at hfrontlen
  rcases uNameBuffer_cases rec env.flags with heq | ⟨hlast, happend⟩
  · rw [heq] at hstored
    have hhex := hex_eq_of_storedName rec.cName (by rw [hstored]; omega)
    have hle := strlen_storedName_le rec.cName
    rw [hhex] at hstored
    rw [hstored] at hle
    have hnil : front = [] := List.length_eq_zero_iff.mp (by omega)
    rw [hnil] at hfront
    exact CString.ext hfront
  · generalize uNameBuffer rec env.flags = name at *
    have hlen : name.strlen = rec.cName.strlen + 1 := by
      rw [happend, CString.strlen_append]
      rfl
    have hhex := hex_eq_of_storedName name (by rw [hstored]; omega)
    have hle := strlen_storedName_le name
    rw [hhex] at hstored
    rw [hstored] at hle
    by_contra hdiff
    have hone : front.length = 1 := by
      refine Nat.le_antisymm (by omega) (Nat.pos_of_ne_zero fun hzero => hdiff ?_)
      rw [List.length_eq_zero_iff.mp hzero] at hfront
      exact CString.ext hfront
    have hsame := storedName_eq_of_strlen (show (storedName name).strlen = name.strlen by
      rw [hstored]
      omega)
    have hend : (front ++ rec.cName.bytes).getLast? = some slash := by
      rw [hfront, ← hstored, hsame, happend, CString.bytes_append, List.getLast?_concat]
    rw [List.getLast?_append_of_ne_nil] at hend
    · exact hlast hend
    · exact fun hnil => hne (List.length_eq_zero_iff.mpr hnil)

section PathKept

variable {env : WriteEnv} {hdr rec : FileHdr}
  (hname : rec.cName = if (paxNeeds env hdr).path then (memberHdr env hdr).cName.take tarNameSize
    else (memberHdr env hdr).cName)
  (hdir : rec.fileType = cpIfdir ↔ hdr.fileType = cpIfdir)
include hname hdir

/-- The path of a member comes back. -/
theorem pathKept_iff :
    (rec.cName.strlen ≠ 0 ∧ NameAccepted (uNameBuffer rec env.flags) ∧
      (if (paxNeeds env hdr).path then (memberHdr env hdr).cName
        else storedName (swlibProcessHexEscapes (uNameBuffer rec env.flags))) = hdr.cName) ↔
      hdr.cName.strlen ≠ 0 ∧ Unslashed env.flags hdr.cName ∧
        ((paxNeeds env hdr).path = false → PathHeld env.flags hdr) := by
  have hunslashed := unslashed_memberHdr env hdr
  cases hneed : (paxNeeds env hdr).path with
  | true =>
      simp only [hneed, if_true] at hname
      simp only [if_true, Bool.true_eq_false, false_implies, and_true]
      constructor
      · rintro ⟨hne, -, hsame⟩
        rw [hsame] at hunslashed hname
        rw [hname, CString.strlen_take] at hne
        exact ⟨by omega, hunslashed⟩
      · rintro ⟨hne, hun⟩
        have hsame := hun.memberHdr_cName
        rw [hsame] at hname
        refine ⟨?_, nameAccepted_of_le ?_, hsame⟩
        · rw [hname, CString.strlen_take, tarNameSize]
          omega
        · have hle := strlen_uNameBuffer_le rec env.flags
          have htake := CString.strlen_take_le tarNameSize hdr.cName
          rw [← hname] at htake
          omega
  | false =>
      simp only [hneed, Bool.false_eq_true, if_false] at hname
      simp only [Bool.false_eq_true, if_false, true_implies]
      constructor
      · rintro ⟨hne, haccept, hstored⟩
        have hsame := memberHdr_cName_of_stored hname hne hstored
        rw [hsame] at hunslashed hname
        rw [uNameBuffer_congr hname hdir] at haccept hstored
        rw [hname] at hne
        exact ⟨hne, hunslashed, pathHeld_iff.mp ⟨haccept, hstored⟩⟩
      · rintro ⟨hne, hun, hheld⟩
        rw [hun.memberHdr_cName] at hname
        rw [uNameBuffer_congr hname hdir, hname]
        exact ⟨hne, pathHeld_iff.mpr hheld⟩

end PathKept

/-- The name that announces a long link is short. -/
theorem take_eq_gnuLongLink {name : CString} :
    name.take tarNameSize = gnuLongLink ↔ name = gnuLongLink := by
  constructor
  · intro h
    have hlen := congrArg CString.strlen h
    rw [CString.strlen_take, show gnuLongLink.strlen = 13 by decide, tarNameSize] at hlen
    rwa [CString.take_of_strlen_le (by rw [tarNameSize]; omega)] at h
  · rintro rfl
    exact CString.take_of_strlen_le (by decide)

/-! ## The round trip -/

/-- A pax header and its record keep the path, the link name, the size and the owner of a member.
`errno` was `ERANGE` or not when the reader was called. -/
structure PaxKept (env : WriteEnv) (linkrecord : Option Hllist) (erange : Bool) (hdr : FileHdr) :
    Prop where
  /-- The checks of the writer let the names pass, and the type has a record. -/
  names : NamesTaken env hdr
  type : HasRecord env (paxFitted env hdr)
  /-- The link name in the record is not too long, and the record announces no data. -/
  linkFits : (linkWritten env linkrecord (paxFitted env hdr)).strlen ≤ tarLinknameSize
  unmarked : WrittenAsSymlink env linkrecord (paxFitted env hdr) → hdr.cName ≠ gnuLongLink
  /-- The path has no leading slashes that are dropped; it has a record, or the name fields hold
  it. -/
  named : hdr.cName.strlen ≠ 0
  unslashed : Unslashed env.flags hdr.cName
  path : (paxNeeds env hdr).path = false → PathHeld env.flags hdr
  /-- The link name has a record, or it is the one that is written. -/
  link : (paxNeeds env hdr).linkpath = false →
    linkWritten env linkrecord (paxFitted env hdr) = hdr.cTarLinkname
  /-- The size is not the one in its record, but the one that is put in its place. -/
  size : if HasSize env linkrecord (paxFitted env hdr) then
      (paxNeeds env hdr).size = true → hdr.cFilesize = UInt64.ofNat tarMaxSize
    else hdr.cFilesize = 0
  /-- The user id has a record, or it is found, or no record of the group id spoils it. -/
  uid : if (paxNeeds env hdr).uid then hdr.cUid = 18446744073709551615 → erange = false
    else if LooksUp hdr.cCu (paxFitted env hdr).cUsername then
      foundId (env.db.uidByName (paxFitted env hdr).cUsername) = hdr.cUid
    else (paxNeeds env hdr).gid = true → hdr.cUid = UInt64.ofNat tarMaxGid
  /-- The group id has a record, or it is found if it is looked up. -/
  gid : if (paxNeeds env hdr).gid then hdr.cGid = 18446744073709551615 → erange = false
    else LooksUp hdr.cCg (paxFitted env hdr).cGroupname →
      foundId (env.db.gidByName (paxFitted env hdr).cGroupname) = hdr.cGid
  uname : OwnerKept env.flags (paxNeeds env hdr).uname hdr.cCu hdr.cUsername
    (env.db.pwuid hdr.cUid) (env.db.pwuid (paxFitted env hdr).cUid)
    (env.db.tarUserByUid (paxFitted env hdr).cUid.toUInt32)
  gname : OwnerKept env.flags (paxNeeds env hdr).gname hdr.cCg hdr.cGroupname
    (env.db.grgid hdr.cGid) (env.db.grgid hdr.cGid) (env.db.tarGroupByGid hdr.cGid.toUInt32)

theorem atoulRead_eq_iff {erange : Bool} {v : UInt64} :
    atoulRead erange v = v ↔ (v = 18446744073709551615 → erange = false) := by
  rw [atoulRead]
  split
  · next h =>
      simp [h.1, h.2]
  · next h =>
      simp only [true_iff]
      exact fun hv => Bool.not_eq_true _ ▸ fun he => h ⟨hv, he⟩

/-- The fields of a record, where the file header had to fit. -/
structure FittedRecord (env : WriteEnv) (hdr rec : FileHdr) : Prop where
  cName : rec.cName = if (paxNeeds env hdr).path then (memberHdr env hdr).cName.take tarNameSize
    else (memberHdr env hdr).cName
  cUid : rec.cUid = (paxFitted env hdr).cUid
  cGid : rec.cGid = hdr.cGid
  cUsername : rec.cUsername = (paxFitted env hdr).cUsername
  cGroupname : rec.cGroupname = (paxFitted env hdr).cGroupname
  cCu : rec.cCu = hdr.cCu
  cCg : rec.cCg = hdr.cCg

section Fields

variable {env : WriteEnv} {linkrecord : Option Hllist} {hdr rec : FileHdr}

theorem paxFitted_eq (env : WriteEnv) (hdr : FileHdr) :
    ∃ namesize devMaj devMin usageMask needsMask, paxFitted env hdr = { hdr with
      cName := if (paxNeeds env hdr).path then (memberHdr env hdr).cName.take tarNameSize
        else (memberHdr env hdr).cName
      cNamesize := namesize
      cTarLinkname := if (paxNeeds env hdr).linkpath then hdr.cTarLinkname.take tarNameSize
        else hdr.cTarLinkname
      cFilesize := if (paxNeeds env hdr).size then UInt64.ofNat tarMaxSize else hdr.cFilesize
      cUid := if (paxNeeds env hdr).gid then UInt64.ofNat tarMaxGid
        else if (paxNeeds env hdr).uid then UInt64.ofNat tarMaxUid else hdr.cUid
      cUsername := if (paxNeeds env hdr).uname then (paxHdr env hdr).cUsername.take (snameLen - 1)
        else (paxHdr env hdr).cUsername
      cGroupname := if (paxNeeds env hdr).gname then (paxHdr env hdr).cGroupname.take (snameLen - 1)
        else (paxHdr env hdr).cGroupname
      cDevMaj := devMaj
      cDevMin := devMin
      extHeaderUsageMask := usageMask
      extHeaderNeedsMask := needsMask } := by
  obtain ⟨namesize, heq⟩ := paxHdr_kept env hdr
  refine ⟨namesize, (paxFitted env hdr).cDevMaj, (paxFitted env hdr).cDevMin, .zero,
    paxNeeds env hdr, ?_⟩
  simp only [paxFitted]
  rw [heq]
  rfl

theorem TypeRecord.fitted (htype : TypeRecord env linkrecord (paxFitted env hdr) rec) :
    FittedRecord env hdr rec := by
  obtain ⟨mode, link, size, hkept⟩ := htype.kept
  obtain ⟨namesize, devMaj, devMin, usageMask, needsMask, heq⟩ := paxFitted_eq env hdr
  constructor
  · rw [hkept, heq]
  · rw [hkept]
  · rw [hkept, heq]
  · rw [hkept]
  · rw [hkept]
  · rw [hkept, heq]
  · rw [hkept, heq]

theorem paxFitted_cFilesize (env : WriteEnv) (hdr : FileHdr) : (paxFitted env hdr).cFilesize =
    if (paxNeeds env hdr).size then UInt64.ofNat tarMaxSize else hdr.cFilesize := by
  obtain ⟨namesize, devMaj, devMin, usageMask, needsMask, heq⟩ := paxFitted_eq env hdr
  rw [heq]

theorem paxFitted_cUid (env : WriteEnv) (hdr : FileHdr) : (paxFitted env hdr).cUid =
    if (paxNeeds env hdr).gid then UInt64.ofNat tarMaxGid
    else if (paxNeeds env hdr).uid then UInt64.ofNat tarMaxUid else hdr.cUid := by
  obtain ⟨namesize, devMaj, devMin, usageMask, needsMask, heq⟩ := paxFitted_eq env hdr
  rw [heq]

theorem paxFitted_names (env : WriteEnv) (hdr : FileHdr) :
    (paxFitted env hdr).cUsername = (if (paxNeeds env hdr).uname then
        (paxHdr env hdr).cUsername.take (snameLen - 1) else (paxHdr env hdr).cUsername) ∧
      (paxFitted env hdr).cGroupname = (if (paxNeeds env hdr).gname then
        (paxHdr env hdr).cGroupname.take (snameLen - 1) else (paxHdr env hdr).cGroupname) := by
  obtain ⟨namesize, devMaj, devMin, usageMask, needsMask, heq⟩ := paxFitted_eq env hdr
  rw [heq]
  exact ⟨rfl, rfl⟩

theorem paxFitted_fileType (env : WriteEnv) (hdr : FileHdr) :
    (paxFitted env hdr).fileType = hdr.fileType := by
  obtain ⟨namesize, devMaj, devMin, usageMask, needsMask, heq⟩ := paxFitted_eq env hdr
  rw [heq]
  rfl

/-- The fields that the records are written for. -/
theorem paxHdr_fields (env : WriteEnv) (hdr : FileHdr) : (paxHdr env hdr).fields = { hdr.fields with
    path := (memberHdr env hdr).cName
    uname := (paxHdr env hdr).cUsername
    gname := (paxHdr env hdr).cGroupname } := by
  obtain ⟨namesize, heq⟩ := paxHdr_kept env hdr
  rw [heq]
  rfl

/-- The link name is overridden by its record. -/
theorem linkKept_iff (htype : TypeRecord env linkrecord (paxFitted env hdr) rec) :
    (if (paxNeeds env hdr).linkpath then hdr.cTarLinkname else linkRead rec) = hdr.cTarLinkname ↔
      ((paxNeeds env hdr).linkpath = false →
        linkWritten env linkrecord (paxFitted env hdr) = hdr.cTarLinkname) := by
  rw [htype.link]
  cases (paxNeeds env hdr).linkpath with
  | true => simp
  | false => simp

/-- The size comes from the record. -/
theorem sizeKept_iff (htype : TypeRecord env linkrecord (paxFitted env hdr) rec) :
    sizeRead rec = hdr.cFilesize ↔
      if HasSize env linkrecord (paxFitted env hdr) then
        (paxNeeds env hdr).size = true → hdr.cFilesize = UInt64.ofNat tarMaxSize
      else hdr.cFilesize = 0 := by
  have hfits : (paxFitted env hdr).cFilesize.toNat ≤ tarMaxSize := by
    rw [paxFitted_cFilesize]
    split
    · decide
    · next h => exact (paxNeeds_eq_false env hdr).1 (Bool.not_eq_true _ ▸ h)
  rw [htype.size hfits, paxFitted_cFilesize]
  split
  · cases (paxNeeds env hdr).size with
    | true =>
        simp only [if_true, true_implies]
        exact eq_comm
    | false => simp
  · exact eq_comm

/-- The user id is overridden by its record, and before that by the one of the size. -/
theorem uidKept_iff (hrec : FittedRecord env hdr rec) {erange : Bool}
    (hsize : if HasSize env linkrecord (paxFitted env hdr) then
        (paxNeeds env hdr).size = true → hdr.cFilesize = UInt64.ofNat tarMaxSize
      else hdr.cFilesize = 0) :
    (if (paxNeeds env hdr).uid then atoulRead erange hdr.cUid
      else if (paxNeeds env hdr).size then atoulRead erange hdr.cFilesize
      else idRead (uidToWrite env.db rec rec.cUsername)) = hdr.cUid ↔
    if (paxNeeds env hdr).uid then hdr.cUid = 18446744073709551615 → erange = false
    else if LooksUp hdr.cCu (paxFitted env hdr).cUsername then
      foundId (env.db.uidByName (paxFitted env hdr).cUsername) = hdr.cUid
    else (paxNeeds env hdr).gid = true → hdr.cUid = UInt64.ofNat tarMaxGid := by
  cases hneed : (paxNeeds env hdr).uid with
  | true => exact atoulRead_eq_iff
  | false =>
      have hfits := (paxNeeds_eq_false env hdr).2.1 hneed
      -- A size that does not fit is not the one that comes back.
      have hsmall : (paxNeeds env hdr).size = false := by
        refine Bool.eq_false_iff.mpr fun hlarge => ?_
        have hlt := lt_size_of_paxNeeds env hdr hneed hlarge
        split at hsize
        · rw [hsize hlarge] at hlt
          exact absurd hlt (by decide)
        · rw [hsize] at hlt
          exact absurd hlt (by decide)
      simp only [hsmall, Bool.false_eq_true, if_false, uidToWrite_eq, hrec.cCu, hrec.cUsername]
      split
      · rfl
      · rw [hrec.cUid, paxFitted_cUid, hneed]
        cases (paxNeeds env hdr).gid with
        | true =>
            simp only [if_true, true_implies]
            rw [idRead_of_le (by decide)]
            exact eq_comm
        | false =>
            simp only [Bool.false_eq_true, if_false, false_implies, iff_true]
            exact idRead_of_le hfits

theorem gidKept_iff (hrec : FittedRecord env hdr rec) {erange : Bool} :
    (if (paxNeeds env hdr).gid then atoulRead erange hdr.cGid
      else idRead (gidToWrite env.db rec rec.cGroupname)) = hdr.cGid ↔
    if (paxNeeds env hdr).gid then hdr.cGid = 18446744073709551615 → erange = false
    else LooksUp hdr.cCg (paxFitted env hdr).cGroupname →
      foundId (env.db.gidByName (paxFitted env hdr).cGroupname) = hdr.cGid := by
  cases hneed : (paxNeeds env hdr).gid with
  | true => exact atoulRead_eq_iff
  | false =>
      have hfits := (paxNeeds_eq_false env hdr).2.2.1 hneed
      simp only [Bool.false_eq_true, if_false, gidToWrite_eq, hrec.cCg, hrec.cGroupname, hrec.cGid]
      split
      · next hlooks => simp only [hlooks, true_implies, foundId]
      · next hlooks =>
          simp only [hlooks, false_implies, iff_true]
          exact idRead_of_le hfits

/-- The user name is overridden by its record. -/
theorem unameKept_iff (hrec : FittedRecord env hdr rec) :
    (if (paxNeeds env hdr).uname then (paxHdr env hdr).cUsername
      else ownerRead env.flags (unameToWrite env.db rec rec.cUsername env.flags)) = hdr.cUsername ↔
    OwnerKept env.flags (paxNeeds env hdr).uname hdr.cCu hdr.cUsername
      (env.db.pwuid hdr.cUid) (env.db.pwuid (paxFitted env hdr).cUid)
      (env.db.tarUserByUid (paxFitted env hdr).cUid.toUInt32) := by
  have hwrite : unameToWrite env.db rec rec.cUsername env.flags =
      ownerToWrite rec.cCu rec.cUsername (env.db.pwuid rec.cUid)
        (env.db.tarUserByUid rec.cUid.toUInt32) env.flags.numericUids := rfl
  rw [hwrite, hrec.cCu, hrec.cUsername, hrec.cUid, (paxFitted_names env hdr).1]
  refine ownerKept_iff (fun h => (paxHdr_policy env hdr (h.imp_left fun hneed hzero => ?_)).1)
    (paxNeeds_eq_false env hdr).2.2.2.1
  rw [hzero] at hneed
  cases hneed

/-- The group name is overridden by its record. -/
theorem gnameKept_iff (hrec : FittedRecord env hdr rec) :
    (if (paxNeeds env hdr).gname then (paxHdr env hdr).cGroupname
      else ownerRead env.flags (gnameToWrite env.db rec rec.cGroupname env.flags)) =
        hdr.cGroupname ↔
    OwnerKept env.flags (paxNeeds env hdr).gname hdr.cCg hdr.cGroupname
      (env.db.grgid hdr.cGid) (env.db.grgid hdr.cGid) (env.db.tarGroupByGid hdr.cGid.toUInt32) := by
  have hwrite : gnameToWrite env.db rec rec.cGroupname env.flags =
      ownerToWrite rec.cCg rec.cGroupname (env.db.grgid rec.cGid)
        (env.db.tarGroupByGid rec.cGid.toUInt32) env.flags.numericUids := rfl
  rw [hwrite, hrec.cCg, hrec.cGroupname, hrec.cGid, (paxFitted_names env hdr).2]
  refine ownerKept_iff (fun h => (paxHdr_policy env hdr (h.imp_left fun hneed hzero => ?_)).2)
    (paxNeeds_eq_false env hdr).2.2.2.2
  rw [hzero] at hneed
  cases hneed

/-- The fields of a record that is written behind the records of the fields. -/
theorem foundAgain_iff_paxKept (hnames : NamesTaken env hdr)
    (hrec : recordHdr env linkrecord (paxFitted env hdr) = some rec) (linkrecord' : Option Hllist)
    {es : List ExtBlock} (hes : PaxBlocks (ustarAttrs (paxHdr env hdr)) es) {renv : ReadEnv}
    (hretain : renv.flags.retainHeaderIds = true) :
    FoundAgain renv ((taruWriteOutHeader env rec >>= fun retval =>
        pure ⟨retval, linkrecord', rec⟩).prepend (extBytes es)) (fun r => r.fields = hdr.fields) ↔
      PaxKept env linkrecord renv.erange hdr := by
  have htype := typeRecord_of_recordHdr env linkrecord _ hrec
  have hfitted := htype.fitted
  have hstrip : Unslashed env.flags rec.cName := by
    rw [hfitted.cName]
    split
    · exact (unslashed_memberHdr env hdr).take _
    · exact unslashed_memberHdr env hdr
  have hdirectory : rec.fileType = cpIfdir ↔ hdr.fileType = cpIfdir := by
    rw [htype.directory, paxFitted_fileType]
  have hpath := pathKept_iff hfitted.cName hdirectory
  have hmark : hdr.cName = (memberHdr env hdr).cName →
      (rec.cName = gnuLongLink ↔ hdr.cName = gnuLongLink) := by
    intro hsame
    rw [hfitted.cName, hsame]
    split
    · exact take_eq_gnuLongLink
    · rfl
  rw [foundAgain_record_iff hstrip linkrecord' hes
    (fun a ha => ⟨keywordOk_ustarAttrs ha, quiet_ustarAttrs ha⟩) hretain, foldl_ustarAttrs,
    paxHdr_needsMask, paxHdr_fields, typeWritten_iff htype.mode, htype.link, htype.symlink,
    HdrFields.ext_iff]
  constructor
  · rintro ⟨hne, haccept, ⟨hfits, hplain⟩, hsame, hlink, hsize, huid, hgid, huname, hgname⟩
    obtain ⟨hnamed, hunslashed, hheld⟩ := hpath.mp ⟨hne, haccept, hsame⟩
    have hsize' := (sizeKept_iff htype).mp hsize
    exact {
      names := hnames
      type := (hasRecord_iff env linkrecord _).mpr ⟨rec, hrec⟩
      linkFits := hfits
      unmarked := fun hsym hname => hplain hsym
        ((hmark hunslashed.memberHdr_cName.symm).mpr hname)
      named := hnamed
      unslashed := hunslashed
      path := hheld
      link := (linkKept_iff htype).mp hlink
      size := hsize'
      uid := (uidKept_iff hfitted hsize').mp huid
      gid := (gidKept_iff hfitted).mp hgid
      uname := (unameKept_iff hfitted).mp huname
      gname := (gnameKept_iff hfitted).mp hgname }
  · intro hkept
    obtain ⟨hne, haccept, hsame⟩ := hpath.mpr ⟨hkept.named, hkept.unslashed, hkept.path⟩
    exact ⟨hne, haccept, ⟨hkept.linkFits, fun hsym hname => hkept.unmarked hsym
      ((hmark hkept.unslashed.memberHdr_cName.symm).mp hname)⟩, hsame,
      (linkKept_iff htype).mpr hkept.link, (sizeKept_iff htype).mpr hkept.size,
      (uidKept_iff hfitted hkept.size).mpr hkept.uid, (gidKept_iff hfitted).mpr hkept.gid,
      (unameKept_iff hfitted).mpr hkept.uname, (gnameKept_iff hfitted).mpr hkept.gname⟩

end Fields

section RoundTrip

variable {env : WriteEnv} (hmode : isPaxHeaderAllowed env.flags = true)
  (linkrecord : Option Hllist) {hdr : FileHdr} (hslots : slotRecords (hdr.extattlist.getD []) = [])
  (hlt : (attrRecords (ustarAttrs (paxHdr env hdr))).length < 2 ^ 31) {renv : ReadEnv}
  (hretain : renv.flags.retainHeaderIds = true)
include hmode hslots hlt hretain

theorem paxKept_of_foundAgain (h : FoundAgain renv (taruWriteArchiveMemberHeader env linkrecord hdr)
    (fun r => r.fields = hdr.fields)) : PaxKept env linkrecord renv.erange hdr := by
  rcases taruWriteArchiveMemberHeader_pax hmode linkrecord hslots hlt with
    ⟨rec, linkrecord', es, hnames, hrec, hes, heq⟩ | ⟨-, hret⟩
  · rw [heq] at h
    exact (foundAgain_iff_paxKept hnames hrec linkrecord' hes hretain).mp h
  · obtain ⟨w, r, hw, hpos, -⟩ := h
    rw [hret w hw] at hpos
    exact absurd hpos (Int.lt_irrefl 0)

theorem foundAgain_of_paxKept (h : PaxKept env linkrecord renv.erange hdr) :
    FoundAgain renv (taruWriteArchiveMemberHeader env linkrecord hdr)
      (fun r => r.fields = hdr.fields) := by
  rcases taruWriteArchiveMemberHeader_pax hmode linkrecord hslots hlt with
    ⟨rec, linkrecord', es, hnames, hrec, hes, heq⟩ | ⟨hnone, -⟩
  · rw [heq]
    exact (foundAgain_iff_paxKept hnames hrec linkrecord' hes hretain).mpr h
  · obtain ⟨rec, hrec⟩ := (hasRecord_iff env linkrecord _).mp h.type
    exact absurd ((hnone h.names).symm.trans hrec) (Option.some_ne_none rec).symm

/-- **The round trip of a pax header**, where only fields have records. -/
theorem paxRoundTrip_iff :
    FoundAgain renv (taruWriteArchiveMemberHeader env linkrecord hdr)
        (fun r => r.fields = hdr.fields) ↔
      PaxKept env linkrecord renv.erange hdr :=
  ⟨paxKept_of_foundAgain hmode linkrecord hslots hlt hretain,
    foundAgain_of_paxKept hmode linkrecord hslots hlt hretain⟩

end RoundTrip

/-- A writer with pax headers. -/
def paxWriter : WriteEnv where
  db := .blank
  format := .ustar
  flags := { paxexthdr := true }
  taruTarheaderflags := {}
  etarTime := 0
  paxHeaderPid := 2
  paxHeaderPid_lt := by decide
  linkrecordDisable := true

/-- A reader that retains the ids of headers. -/
def idReader : ReadEnv where
  db := .blank
  flags := { retainHeaderIds := true }
  erange := false
  kind := .unix
  into := {}
  rest := []

/-- A file `f` with ids. -/
def ownedFile (uid gid : UInt64) : FileHdr :=
  { cMode := cpIfreg
    cName := .ofMem [102]
    cUid := uid
    cGid := gid }

/-- A user id that does not fit comes back. -/
theorem paxRoundTrip_largeUid :
    FoundAgain idReader (taruWriteArchiveMemberHeader paxWriter none (ownedFile 2097152 5))
      (fun r => r.fields = (ownedFile 2097152 5).fields) := by
  refine (paxRoundTrip_iff (show isPaxHeaderAllowed paxWriter.flags = true by decide) none
    (show slotRecords ((ownedFile 2097152 5).extattlist.getD []) = [] by decide) ?_
    (show idReader.flags.retainHeaderIds = true by decide)).mpr ?_
  · decide +kernel
  · constructor
    · decide
    · decide
    · decide
    · decide
    · decide
    · exact fun hstrip => absurd hstrip (by decide)
    · exact fun _ => .inl ⟨by decide, by decide, .inl (by decide)⟩
    · decide
    · decide
    · decide
    · decide
    · decide
    · decide

/-- A group id that does not fit spoils the user id. -/
theorem largeGid_not_foundAgain :
    ¬ FoundAgain idReader (taruWriteArchiveMemberHeader paxWriter none (ownedFile 5 2097152))
      (fun r => r.fields = (ownedFile 5 2097152).fields) := by
  intro hfound
  have hkept := paxKept_of_foundAgain
    (show isPaxHeaderAllowed paxWriter.flags = true by decide) none
    (show slotRecords ((ownedFile 5 2097152).extattlist.getD []) = [] by decide) (by decide +kernel)
    (show idReader.flags.retainHeaderIds = true by decide) hfound
  exact absurd hkept.uid (by decide)

end Swbis.Taru
