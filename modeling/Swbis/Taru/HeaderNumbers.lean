import Swbis.Taru.WriteTar

/-!
# The numbers in a written record

For each number of a written tar record: what `taru_otoul` reads back, for
every value that was to be written.  A number that does not fit its field is
read back as zero (size, time, device numbers, an old GNU mode) or as 15 (the
ids), and the writer reports no error; `written_decodes_iff` puts the exact
condition together.
-/

namespace Swbis.Taru

open CLib

/-! ## The values that are to be written -/

/-- The size that is to be written: none for links, and the length of the link
name in a long link record. -/
def sizeToWrite (hdr : FileHdr) : UInt64 :=
  if hdr.fileType = cpIfreg then
    if hdr.cTarLinkname.strlen ≠ 0 then 0 else hdr.cFilesize
  else if hdr.fileType = cpIflnk then
    if hdr.cName = gnuLongLink then UInt64.ofNat hdr.cTarLinkname.strlen else 0
  else hdr.cFilesize

/-- A device number that is to be written: none but for device files. -/
def rdevToWrite (hdr : FileHdr) (rdev : UInt64) : UInt64 :=
  if hdr.fileType = cpIfchr ∨ hdr.fileType = cpIfblk then rdev else 0

/-- An id is read back as it is, or as the field maximum if it is larger. -/
def IdDecodes (got id : UInt64) : Prop :=
  got = id ∨ (tarMax7Octal < id.toNat ∧ got.toNat = tarMax7Octal)

/-- The block passes the checksum test and its numbers are read back as they
were to be written. -/
structure DecodesToWritten (db : SysDb) (hdr : FileHdr) (username groupname : CString)
    (block : Bytes) : Prop where
  chksum : taruOtoul (block.drop 148) = taruTarChecksum block
  mode : taruOtoul (block.drop 100) &&& 0o7777 = hdr.cMode &&& 0o7777
  uid : IdDecodes (taruOtoul (block.drop 108)) (uidToWrite db hdr username)
  gid : IdDecodes (taruOtoul (block.drop 116)) (gidToWrite db hdr groupname)
  size : taruOtoul (block.drop 124) = sizeToWrite hdr
  mtime : taruOtoul (block.drop 136) = hdr.cMtime
  devmajor : taruOtoul (block.drop 329) = rdevToWrite hdr hdr.cRdevMaj
  devminor : taruOtoul (block.drop 337) = rdevToWrite hdr hdr.cRdevMin

/-- An id that comes out right: it fits, or its low 32 bits are the maximum. -/
def IdFits (id : UInt64) : Prop :=
  id.toNat ≤ tarMax7Octal ∨ id.toNat % 2 ^ 32 = tarMax7Octal

instance (id : UInt64) : Decidable (IdFits id) := inferInstanceAs (Decidable (_ ∨ _))

/-- The condition on the values: every number fits its field. -/
structure NumbersFit (db : SysDb) (hdr : FileHdr) (username groupname : CString)
    (flags : TarFlags) : Prop where
  /-- The old GNU format writes all 32 bits of the mode. -/
  mode : flags.gnuOldgnutar = true →
    hdr.cMode.toNat % 2 ^ 32 ≤ tarMax7Octal ∨ hdr.cMode &&& 0o7777 = 0
  uid : IdFits (uidToWrite db hdr username)
  gid : IdFits (gidToWrite db hdr groupname)
  size : (sizeToWrite hdr).toNat ≤ tarMaxSize
  mtime : hdr.cMtime.toNat ≤ tarMaxSize
  devmajor : (rdevToWrite hdr hdr.cRdevMaj).toNat ≤ tarMaxDevice
  devminor : (rdevToWrite hdr hdr.cRdevMin).toNat ≤ tarMaxDevice

/-! ## Narrowing -/

theorem toNat_narrow (v : UInt64) : v.toUInt32.toUInt64.toNat = v.toNat % 2 ^ 32 := by
  simp

/-- Reading back zero in place of a value is right for zero only. -/
theorem ite_zero_eq_iff {p : Prop} [Decidable p] {v : UInt64} (h0 : v = 0 → p) :
    (if p then v else 0) = v ↔ p := by
  by_cases h : p
  · simp [h]
  · simp only [h, iff_false]
    exact fun he => h (h0 he.symm)

/-! ## Field by field -/

/-- The reading of an id field. -/
theorem taruOtoul_id (v : UInt32) (old : CField 8) (flags : TarFlags) (mem : Bytes) :
    taruOtoul ((uidToChars v old .posix (termchOf flags)).bytes ++ mem) =
      if v.toUInt64.toNat ≤ tarMax7Octal then v.toUInt64 else 15 :=
  taruOtoul_toCharsId old (isDigit_termchOf flags) mem

/-- An id field decodes exactly when the id fits. -/
theorem idDecodes_iff (v : UInt64) :
    IdDecodes (if v.toUInt32.toUInt64.toNat ≤ tarMax7Octal then v.toUInt32.toUInt64 else 15) v ↔
      IdFits v := by
  have hn := toNat_narrow v
  simp only [IdDecodes, IdFits, ← UInt64.toNat_inj]
  split
  · next h =>
      rw [hn] at h ⊢
      simp only [tarMax7Octal] at h ⊢
      omega
  · next h =>
      rw [hn] at h
      simp only [tarMax7Octal, show (15 : UInt64).toNat = 15 from rfl] at h ⊢
      omega

/-- The reading of a size or time field. -/
theorem taruOtoul_off (v : UInt64) (flags : TarFlags) (mem : Bytes) :
    taruOtoul ((offToChars v (.zero 12) .posix (termchOf flags)).bytes ++ mem) =
      if v.toNat ≤ tarMaxSize then v else 0 := by
  have h := taruOtoul_toChars 11 (decide (2 ^ 63 ≤ v.toNat)) v 8 .posix (by decide) (by decide) (by decide)
    (isDigit_termchOf flags) mem
  rw [offToChars, h]
  apply if_congr _ rfl rfl
  simp only [decide_eq_false_iff_not, tarMaxSize]
  omega

/-- The size field: the first write is replaced where the type has its own
size. -/
theorem taruOtoul_typeFields_size {hdr : FileHdr} {flags : TarFlags} {t : TypeFields}
    (ht : typeFields hdr (offToChars hdr.cFilesize (.zero 12) .posix (termchOf flags))
      (termchOf flags) = .ok t) (mem : Bytes) :
    taruOtoul (t.size.bytes ++ mem) =
      if (sizeToWrite hdr).toNat ≤ tarMaxSize then sizeToWrite hdr else 0 := by
  have hset : ∀ (v : UInt64) (old : CField 12), v.toNat ≤ 510 →
      taruOtoul ((uintmaxToChars (m := 11) v old .posix (termchOf flags)).bytes ++ mem) =
        if v.toNat ≤ tarMaxSize then v else 0 := by
    intro v old hv
    have hlt : v.toNat < 8 ^ 11 := Nat.lt_of_le_of_lt hv (by decide)
    rw [uintmaxToChars_of_lt (by decide) hlt, if_pos (Nat.le_trans hv (by decide))]
    exact taruOtoul_octalField v (by decide) hlt (isDigit_termchOf flags) mem
  rw [typeFields] at ht
  by_cases hreg : hdr.fileType = cpIfreg
  · simp only [if_pos hreg] at ht
    split at ht
    · next hl =>
        split at ht
        · cases ht
        · cases ht
          simp only [sizeToWrite, if_pos hreg, if_pos hl]
          exact hset _ _ (by decide)
    · next hl =>
        cases ht
        simp only [sizeToWrite, if_pos hreg, if_neg hl]
        exact taruOtoul_off hdr.cFilesize flags mem
  · by_cases hlnk : hdr.fileType = cpIflnk
    · simp only [hlnk, show ¬ cpIflnk = cpIfreg by decide, show ¬ cpIflnk = cpIfdir by decide,
        show ¬ cpIflnk = cpIfchr by decide, show ¬ cpIflnk = cpIfblk by decide,
        show ¬ (cpIflnk = cpIfsock ∨ cpIflnk = cpIfifo) by decide, if_false, if_true] at ht
      split at ht
      · next hname =>
          split at ht
          · cases ht
          · next hlen =>
              cases ht
              have hto : (UInt64.ofNat hdr.cTarLinkname.strlen).toNat = hdr.cTarLinkname.strlen :=
                UInt64.toNat_ofNat_of_lt' (by simp only [UInt64.size]; omega)
              simp only [sizeToWrite, if_neg hreg, if_pos hlnk, if_pos hname]
              exact hset _ _ (by omega)
      · next hname =>
          split at ht
          · cases ht
          · cases ht
            simp only [sizeToWrite, if_neg hreg, if_pos hlnk, if_neg hname]
            exact hset _ _ (by decide)
    · -- Every other type keeps the field with the file size.
      have hsize : t.size = offToChars hdr.cFilesize (.zero 12) .posix (termchOf flags) := by
        simp only [if_neg hreg, if_neg hlnk] at ht
        repeat' split at ht
        all_goals cases ht; rfl
      simp only [sizeToWrite, if_neg hreg, if_neg hlnk]
      rw [hsize]
      exact taruOtoul_off hdr.cFilesize flags mem

/-- Only device files have a device type flag. -/
theorem typeFields_device {hdr : FileHdr} {size : CField 12} {termch : UInt8} {t : TypeFields}
    (ht : typeFields hdr size termch = .ok t) :
    (t.typeflag = chrType ∨ t.typeflag = blkType) ↔
      (hdr.fileType = cpIfchr ∨ hdr.fileType = cpIfblk) := by
  rw [typeFields] at ht
  by_cases hchr : hdr.fileType = cpIfchr
  · simp only [hchr, show ¬ cpIfchr = cpIfreg by decide, show ¬ cpIfchr = cpIfdir by decide,
      if_false, if_true] at ht
    cases ht
    simp [hchr]
  · by_cases hblk : hdr.fileType = cpIfblk
    · simp only [hblk, show ¬ cpIfblk = cpIfreg by decide, show ¬ cpIfblk = cpIfdir by decide,
        show ¬ cpIfblk = cpIfchr by decide, if_false, if_true] at ht
      cases ht
      simp [hblk]
    · simp only [if_neg hchr, if_neg hblk] at ht
      simp only [hchr, hblk, or_self, iff_false]
      repeat' split at ht
      all_goals first | (cases ht; done) | (cases ht; dsimp only; decide)

/-- The reading of a device number field. -/
theorem taruOtoul_deviceField (typeflag : UInt8) (rdev : UInt64) (flags : TarFlags) (mem : Bytes) :
    taruOtoul ((deviceField typeflag rdev flags).bytes ++ mem) =
      if (typeflag = chrType ∨ typeflag = blkType) ∧ rdev.toNat % 2 ^ 32 ≤ tarMaxDevice then
        rdev.toUInt32.toUInt64
      else 0 := by
  by_cases hd : typeflag = chrType ∨ typeflag = blkType
  · have h := taruOtoul_toChars 7 (decide (2 ^ 31 ≤ rdev.toUInt32.toNat))
      (intToUintmax rdev.toUInt32) 4 .posix (by decide) (by decide) (by decide) (isDigit_termchOf flags) mem
    rw [deviceField, if_pos hd, majorToChars, h]
    have hn : rdev.toUInt32.toNat = rdev.toNat % 2 ^ 32 := by simp
    by_cases hsmall : rdev.toUInt32.toNat < 2 ^ 31
    · simp only [intToUintmax, if_pos hsmall]
      apply if_congr _ rfl rfl
      simp only [decide_eq_false_iff_not, hd, true_and, UInt32.toNat_toUInt64, hn, tarMaxDevice,
        tarMax7Octal]
      omega
    · have hbig : ¬ rdev.toNat % 2 ^ 32 ≤ tarMaxDevice := by
        rw [hn] at hsmall
        simp only [tarMaxDevice, tarMax7Octal]
        omega
      rw [if_neg (by simp only [decide_eq_false_iff_not]; omega), if_neg (fun hc => hbig hc.2)]
  · have hzeros : ∀ {b : UInt8}, octal.isDigit b = false →
        taruOtoul ((CField.strncpy 8 (List.replicate 7 48 ++ [b])).bytes ++ mem) = 0 :=
      fun hb => taruOtoul_fixed (m := 7) (v := 0) (by decide) (by decide) hb mem
    have hzero : ¬ ((typeflag = chrType ∨ typeflag = blkType) ∧
        rdev.toNat % 2 ^ 32 ≤ tarMaxDevice) := fun hc => hd hc.1
    rw [if_neg hzero, deviceField, if_neg hd]
    by_cases hpax : flags.beLikePax = true
    · rw [if_pos hpax]
      exact hzeros (b := 0) (by decide)
    · rw [if_neg hpax]
      by_cases hstar : flags.beLikeStar = true
      · rw [if_pos hstar]
        exact hzeros (b := 32) (by decide)
      · rw [if_neg hstar]
        split
        · exact taruOtoul_zero 7 mem
        · exact hzeros (b := 0) (by decide)

/-- A device number decodes exactly when it fits. -/
theorem deviceDecodes_iff {hdr : FileHdr} {size : CField 12} {termch : UInt8} {t : TypeFields}
    (ht : typeFields hdr size termch = .ok t) (rdev : UInt64) (flags : TarFlags) (mem : Bytes) :
    taruOtoul ((deviceField t.typeflag rdev flags).bytes ++ mem) = rdevToWrite hdr rdev ↔
      (rdevToWrite hdr rdev).toNat ≤ tarMaxDevice := by
  rw [taruOtoul_deviceField]
  by_cases hd : hdr.fileType = cpIfchr ∨ hdr.fileType = cpIfblk
  · have hn := toNat_narrow rdev
    simp only [(typeFields_device ht).mpr hd, true_and, rdevToWrite, if_pos hd]
    rw [← UInt64.toNat_inj]
    split
    · next h =>
        rw [hn]
        simp only [tarMaxDevice, tarMax7Octal] at h ⊢
        omega
    · next h =>
        simp only [tarMaxDevice, tarMax7Octal, UInt64.toNat_zero] at h ⊢
        omega
  · rw [if_neg (fun hc => hd ((typeFields_device ht).mp hc.1)), rdevToWrite, if_neg hd]
    exact iff_of_true rfl (by decide)

/-- The permission bits of a mode are those of its low half. -/
theorem and_permissions (v : UInt64) : v.toUInt32.toUInt64 &&& 0o7777 = v &&& 0o7777 := by
  apply UInt64.toNat_inj.mp
  rw [UInt64.toNat_and, UInt64.toNat_and, toNat_narrow,
    show (0o7777 : UInt64).toNat = 2 ^ 12 - 1 from rfl, Nat.and_two_pow_sub_one_eq_mod,
    Nat.and_two_pow_sub_one_eq_mod]
  omega

/-- The reading of a mode field. -/
theorem modeDecodes_iff (cMode : UInt64) (flags : TarFlags) (mem : Bytes) :
    taruOtoul ((modeToChars cMode.toUInt32 (.zero 8)
        (if flags.gnuOldgnutar then .oldgnu else .posix) (termchOf flags)).bytes ++ mem) &&& 0o7777 =
        cMode &&& 0o7777 ↔
      (flags.gnuOldgnutar = true → cMode.toNat % 2 ^ 32 ≤ tarMax7Octal ∨ cMode &&& 0o7777 = 0) := by
  have hread : ∀ (u : UInt32) (fmt : ArchiveFormat),
      taruOtoul ((toChars (m := 7) .other false u.toUInt64 4 (.zero 8) fmt
        (termchOf flags)).bytes ++ mem) = if u.toNat < 8 ^ 7 then u.toUInt64 else 0 := by
    intro u fmt
    have h := taruOtoul_toChars 7 false u.toUInt64 4 fmt (by decide) (by decide) (by decide) (isDigit_termchOf flags) mem
    rw [h]
    simp
  have hn := toNat_narrow cMode
  rw [UInt32.toNat_toUInt64] at hn
  cases hold : flags.gnuOldgnutar with
  | true =>
      simp only [if_true, modeToChars, ne_eq, reduceCtorEq, not_false_eq_true, and_self, hread, hn,
        forall_const]
      by_cases hfit : cMode.toNat % 2 ^ 32 < 8 ^ 7
      · rw [if_pos hfit]
        exact iff_of_true (and_permissions cMode)
          (Or.inl (by simp only [tarMax7Octal]; omega))
      · rw [if_neg hfit, UInt64.zero_and]
        have hbig : ¬ cMode.toNat % 2 ^ 32 ≤ tarMax7Octal := by
          simp only [tarMax7Octal]
          omega
        simp only [hbig, false_or]
        exact eq_comm
  | false =>
      have hknown : (knownModeBits cMode.toUInt32).toUInt64 = cMode &&& 0o7777 := by
        rw [knownModeBits_eq, ← and_permissions]
        rfl
      have hlt : (knownModeBits cMode.toUInt32).toNat < 8 ^ 7 := by
        rw [knownModeBits_eq, UInt32.toNat_and]
        exact Nat.lt_of_le_of_lt Nat.and_le_right (by decide)
      simp only [if_false, Bool.false_eq_true, modeToChars, ne_eq, not_true_eq_false, reduceCtorEq,
        false_and, false_implies, iff_true]
      rw [hread, if_pos hlt, hknown, UInt64.and_assoc]
      rfl

/-! ## The whole record -/

/-- **Every record that is written passes the checksum test, and its numbers
are read back as they were to be written exactly when they fit their
fields.** -/
theorem written_decodes_iff (db : SysDb) (hdr : FileHdr) (username groupname : CString)
    (flags : TarFlags) (h : TarHeader)
    (hok : taruWriteOutTarHeader2 db hdr username groupname flags = .ok h) :
    DecodesToWritten db hdr username groupname h.bytes ↔
      NumbersFit db hdr username groupname flags := by
  obtain ⟨t, w⟩ := writtenFor_of_ok hok
  have hchk := w.chksum_ok []
  have ht := w.typeFields
  rw [List.append_nil] at hchk
  have hat : ∀ {k : Nat} {b : Bytes}, (h.bytes ++ []).drop k = b → h.bytes.drop k = b := by
    intro k b hd
    rw [List.append_nil] at hd
    exact hd
  have hmode := hat (h.drop_mode [])
  have huid := hat (h.drop_uid [])
  have hgid := hat (h.drop_gid [])
  have hsize := hat (h.drop_size [])
  have hmtime := hat (h.drop_mtime [])
  have hmaj := hat (h.drop_devmajor [])
  have hmin := hat (h.drop_devminor [])
  have hs := w.size_eq
  obtain ⟨named, heq⟩ := w.eq
  have e1 : h.mode = modeToChars hdr.cMode.toUInt32 (.zero 8)
      (if flags.gnuOldgnutar then .oldgnu else .posix) (termchOf flags) := by rw [heq]; rfl
  have e2 : h.uid = uidToChars (uidToWrite db hdr username).toUInt32
      (uidToChars hdr.cUid.toUInt32 (.zero 8) .posix (termchOf flags)) .posix (termchOf flags) := by
    rw [heq]; rfl
  have e3 : h.gid = uidToChars (gidToWrite db hdr groupname).toUInt32
      (gidToChars hdr.cGid.toUInt32 (.zero 8) .posix (termchOf flags)) .posix (termchOf flags) := by
    rw [heq]; rfl
  have e5 : h.mtime = offToChars hdr.cMtime (.zero 12) .posix (termchOf flags) := by rw [heq]; rfl
  have e6 : h.devmajor = deviceField t.typeflag hdr.cRdevMaj flags := by rw [heq]; rfl
  have e7 : h.devminor = deviceField t.typeflag hdr.cRdevMin flags := by rw [heq]; rfl
  rw [TarHeader.fromMode, e1] at hmode
  rw [TarHeader.fromUid, e2] at huid
  rw [TarHeader.fromGid, e3] at hgid
  rw [TarHeader.fromSize, hs] at hsize
  rw [TarHeader.fromMtime, e5] at hmtime
  rw [TarHeader.fromDevmajor, e6] at hmaj
  rw [TarHeader.fromDevminor, e7] at hmin
  have imode := modeDecodes_iff hdr.cMode flags (h.fromUid [])
  have iuid := idDecodes_iff (uidToWrite db hdr username)
  have igid := idDecodes_iff (gidToWrite db hdr groupname)
  have isize : (if (sizeToWrite hdr).toNat ≤ tarMaxSize then sizeToWrite hdr else 0) =
      sizeToWrite hdr ↔ (sizeToWrite hdr).toNat ≤ tarMaxSize :=
    ite_zero_eq_iff (fun h0 => by rw [h0]; decide)
  have imtime : (if hdr.cMtime.toNat ≤ tarMaxSize then hdr.cMtime else 0) = hdr.cMtime ↔
      hdr.cMtime.toNat ≤ tarMaxSize := ite_zero_eq_iff (fun h0 => by rw [h0]; decide)
  have imaj := deviceDecodes_iff ht hdr.cRdevMaj flags (h.fromDevminor [])
  have imin := deviceDecodes_iff ht hdr.cRdevMin flags (h.fromPrefix [])
  rw [← hmode] at imode
  rw [← taruOtoul_id, ← huid] at iuid
  rw [← taruOtoul_id, ← hgid] at igid
  rw [← taruOtoul_typeFields_size ht, ← hsize] at isize
  rw [← taruOtoul_off, ← hmtime] at imtime
  rw [← hmaj] at imaj
  rw [← hmin] at imin
  constructor
  · intro d
    exact ⟨imode.mp d.mode, iuid.mp d.uid, igid.mp d.gid, isize.mp d.size, imtime.mp d.mtime,
      imaj.mp d.devmajor, imin.mp d.devminor⟩
  · intro f
    exact ⟨hchk, imode.mpr f.mode, iuid.mpr f.uid, igid.mpr f.gid, isize.mpr f.size,
      imtime.mpr f.mtime, imaj.mpr f.devmajor, imin.mpr f.devminor⟩

/-- A regular file `f` with an owner that needs no lookup. -/
def ownedFileHdr (uid : UInt64) : FileHdr where
  cMode := 0o100644
  cUid := uid
  cFilesize := 12
  cNlink := 1
  cName := ⟨chars ['f'], by decide⟩

/-- The largest id that fits is read back. -/
theorem written_decodes_maxUid : ∃ h,
    taruWriteOutTarHeader2 .blank (ownedFileHdr 2097151) .empty .empty {} = .ok h ∧
      DecodesToWritten .blank (ownedFileHdr 2097151) .empty .empty h.bytes := by
  obtain ⟨h, hok⟩ := exists_ok_of_isOk
    (x := taruWriteOutTarHeader2 .blank (ownedFileHdr 2097151) .empty .empty {})
    (by decide +kernel)
  refine ⟨h, hok, (written_decodes_iff _ _ _ _ _ h hok).mpr ?_⟩
  exact ⟨fun hold => absurd hold (by decide), by decide, by decide, by decide, by decide,
    by decide, by decide⟩

/-- The next larger id is written without an error and read back as 15. -/
theorem written_uid_overflow :
    ¬ ∀ h, taruWriteOutTarHeader2 .blank (ownedFileHdr 2097152) .empty .empty {} = .ok h →
      DecodesToWritten .blank (ownedFileHdr 2097152) .empty .empty h.bytes := by
  intro hall
  obtain ⟨h, hok⟩ := exists_ok_of_isOk
    (x := taruWriteOutTarHeader2 .blank (ownedFileHdr 2097152) .empty .empty {})
    (by decide +kernel)
  have hread : (taruWriteOutTarHeader2 .blank (ownedFileHdr 2097152) .empty .empty {}).map
      (fun h => taruOtoul (h.bytes.drop 108)) = .ok 15 := by decide +kernel
  rw [hok] at hread
  have huid := (hall h hok).uid
  have h15 : taruOtoul (h.bytes.drop 108) = 15 := Except.ok.inj hread
  rw [h15] at huid
  rcases huid with he | ⟨-, he⟩
  · exact absurd he (by decide)
  · exact absurd he (by decide)

end Swbis.Taru
