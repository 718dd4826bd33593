import Swbis.Taru.MemberRead

/-!
# GNU long names

A member with a long path or link name gets extended headers of type `L` and
`K` in front of its record.
-/

namespace Swbis.Taru

open CLib

/-! ## A long link member -/

/-- The name in the data block: a directory gets its slash. -/
def longLinkText (filename : CString) (cType : UInt64) : CString :=
  if cType = cpIfdir ∧ filename.strlen ≠ 0 ∧ filename.bytes.getLast? ≠ some slash then
    filename.append ⟨[slash], slash_noNul⟩
  else filename

/-- The type flag of a long link member: a symbolic link has no `L`. -/
def longLinkTypeflag (gnuLongType : UInt8) (cType : UInt64) : UInt8 :=
  if isPlainType cType ∧ gnuLongType = gnuTypeLongname then gnuTypeLongname else gnuTypeLonglink

section LongLinkHdr

variable (filename : CString) (gnuLongType : UInt8) {cType : UInt64} (slashes : Nat)

@[simp] theorem longLinkHdr_cName :
    (longLinkHdr filename gnuLongType cType slashes).cName = gnuLongLink := rfl

theorem longLinkHdr_fileType (htype : isPlainType cType ∨ cType = cpIflnk) :
    (longLinkHdr filename gnuLongType cType slashes).fileType =
      if isPlainType cType then 0 else cpIflnk := by
  rw [FileHdr.fileType, longLinkHdr]
  split
  · next hplain => exact UInt64.zero_and
  · next hplain =>
      rw [htype.resolve_left hplain]
      exact show cpIflnk &&& cpIfmt = cpIflnk by decide

/-- The type flag, which is decided by the mode and the link name. -/
theorem longLinkHdr_typeFields (hlen : filename.strlen < 510) (hne : filename.strlen ≠ 0)
    (htype : isPlainType cType ∨ cType = cpIflnk) (size : CField 12) (termch : UInt8) :
    ∃ t, typeFields (longLinkHdr filename gnuLongType cType slashes) size termch = .ok t ∧
      t.typeflag = longLinkTypeflag gnuLongType cType := by
  have hft := longLinkHdr_fileType filename gnuLongType slashes htype
  by_cases hplain : isPlainType cType
  · have hmode : (longLinkHdr filename gnuLongType cType slashes).cMode = 0 := by
      simp only [longLinkHdr, if_pos hplain]
    rw [if_pos hplain] at hft
    simp only [typeFields, hft, hmode, show ¬ (0 : UInt64) = cpIfreg by decide,
      show ¬ (0 : UInt64) = cpIfdir by decide, show ¬ (0 : UInt64) = cpIfchr by decide,
      show ¬ (0 : UInt64) = cpIfblk by decide, show ¬ (0 : UInt64) = cpIfsock by decide,
      show ¬ (0 : UInt64) = cpIfifo by decide, show ¬ (0 : UInt64) = cpIflnk by decide, or_self,
      if_false, true_and, longLinkTypeflag, hplain]
    by_cases hl : gnuLongType = gnuTypeLongname
    · simp only [longLinkHdr, hplain, hl, and_self, if_true, CString.strlen_empty]
      exact ⟨_, rfl, rfl⟩
    · simp only [longLinkHdr, hl, and_false, if_false, hne, if_true]
      exact ⟨_, rfl, rfl⟩
  · have hlink : (longLinkHdr filename gnuLongType cType slashes).cTarLinkname = filename := by
      simp only [longLinkHdr, hplain, false_and, if_false]
    rw [if_neg hplain] at hft
    simp only [typeFields, hft, hlink, show ¬ cpIflnk = cpIfreg by decide,
      show ¬ cpIflnk = cpIfdir by decide, show ¬ cpIflnk = cpIfchr by decide,
      show ¬ cpIflnk = cpIfblk by decide, show ¬ cpIflnk = cpIfsock by decide,
      show ¬ cpIflnk = cpIfifo by decide, or_self, if_false, if_true, longLinkTypeflag, hplain,
      false_and]
    rw [longLinkHdr_cName, if_pos rfl, if_neg (by omega)]
    exact ⟨_, rfl, rfl⟩

/-- The size of a long link member: a symbolic link has no byte for the NUL. -/
theorem longLinkHdr_sizeToWrite (htype : isPlainType cType ∨ cType = cpIflnk) :
    sizeToWrite (longLinkHdr filename gnuLongType cType slashes) =
      UInt64.ofNat (if isPlainType cType then filename.strlen + 1 + slashes else filename.strlen) := by
  have hft := longLinkHdr_fileType filename gnuLongType slashes htype
  by_cases hplain : isPlainType cType
  · rw [if_pos hplain] at hft ⊢
    simp only [sizeToWrite, hft, show ¬ (0 : UInt64) = cpIfreg by decide,
      show ¬ (0 : UInt64) = cpIflnk by decide, if_false]
    rfl
  · rw [if_neg hplain] at hft ⊢
    simp only [sizeToWrite, hft, show ¬ cpIflnk = cpIfreg by decide, if_false, if_true]
    rw [longLinkHdr_cName, if_pos rfl]
    simp only [longLinkHdr, hplain, false_and, if_false]

end LongLinkHdr

/-- A directory's slash is counted. -/
theorem strlen_longLinkText (filename : CString) (cType : UInt64) :
    (longLinkText filename cType).strlen = filename.strlen +
      if cType = cpIfdir ∧ filename.strlen ≠ 0 ∧ filename.bytes.getLast? ≠ some slash then 1
      else 0 := by
  rw [longLinkText]
  split
  · rw [CString.strlen_append]
    rfl
  · rfl

/-- A long link member is an extended header that holds the name. -/
theorem taruWriteLongLinkMember_eq (env : WriteEnv) {filename : CString}
    (hlen : filename.strlen < 510) (hne : filename.strlen ≠ 0) {gnuLongType : UInt8}
    {cType : UInt64} (htype : isPlainType cType ∨ cType = cpIflnk) :
    ∃ e : ExtBlock, taruWriteLongLinkMember env filename gnuLongType cType =
        ⟨e.bytes, .returned (.ok 1024)⟩ ∧
      e.header.typeflag = longLinkTypeflag gnuLongType cType ∧
      .ofMem e.data = longLinkText filename cType := by
  have hadd : (cType = cpIfdir ∧ filename.strlen ≠ 0 ∧ filename.bytes.getLast? ≠ some slash ∧
      filename.strlen < 511) ↔
      (cType = cpIfdir ∧ filename.strlen ≠ 0 ∧ filename.bytes.getLast? ≠ some slash) := by
    simp only [show filename.strlen < 511 by omega, and_true]
  have htext := strlen_longLinkText filename cType
  have hlt : (longLinkText filename cType).strlen ≤ 510 := by
    rw [htext]
    split <;> omega
  generalize hs : (if cType = cpIfdir ∧ filename.strlen ≠ 0 ∧ filename.bytes.getLast? ≠ some slash
    then 1 else 0) = slashes at htext
  obtain ⟨h, hok⟩ : ∃ h, taruWriteOutTarHeader2 env.db
      (longLinkHdr filename gnuLongType cType slashes) rootName rootName env.flags = .ok h := by
    refine taruWriteOutTarHeader2_ok (show gnuLongLink.strlen ≠ 0 by decide) ?_ ?_
    · rw [uNameBuffer, if_neg]
      · exact nameAccepted_of_le (show gnuLongLink.strlen ≤ tarNameSize + 1 by decide)
      · rintro ⟨hdir, -⟩
        rw [longLinkHdr_fileType _ _ _ htype] at hdir
        split at hdir
        · exact absurd hdir (by decide)
        · exact absurd hdir (by decide)
    · obtain ⟨t, ht, -⟩ := longLinkHdr_typeFields filename _ slashes hlen hne htype
        (offToChars (longLinkHdr filename gnuLongType cType slashes).cFilesize (.zero 12) .posix
          (termchOf env.flags)) (termchOf env.flags)
      exact ⟨t, ht⟩
  obtain ⟨t, hw⟩ := writtenFor_of_ok hok
  have htag' : h.typeflag = longLinkTypeflag gnuLongType cType := by
    obtain ⟨t', ht', hflag⟩ := longLinkHdr_typeFields filename _ slashes hlen hne htype _ _
    rw [hw.typeflag_eq, ← hflag]
    exact congrArg TypeFields.typeflag (Except.ok.inj (hw.typeFields.symm.trans ht'))
  have hsize := longLinkHdr_sizeToWrite filename gnuLongType slashes htype
  have hslashes : slashes ≤ 1 := by
    rw [← hs]
    split <;> omega
  generalize hn : (if isPlainType cType then filename.strlen + 1 + slashes else filename.strlen) =
    size at hsize
  have hrange : 1 ≤ size ∧ size ≤ 512 := by
    rw [← hn]
    split <;> omega
  have hto : (UInt64.ofNat size).toNat = size :=
    UInt64.toNat_ofNat_of_lt' (by simp only [UInt64.size]; omega)
  refine ⟨⟨h, size, (CField.strncpy 512 (longLinkText filename cType).bytes).bytes, ?_, by omega,
    ?_, ?_⟩, ?_, htag', CString.ofMem_strncpy (by omega)⟩
  · rw [htag', longLinkTypeflag]
    split <;> decide
  · intro mem
    have hread := taruOtoul_typeFields_size hw.typeFields mem
    rw [hsize, hto, if_pos (by simp only [tarMaxSize]; omega), ← hw.size_eq] at hread
    exact hread
  · rw [CField.size_eq]
    simp only [tarRecordSize]
    omega
  · have hbytes : (if cType = cpIfdir ∧ filename.strlen ≠ 0 ∧ filename.bytes.getLast? ≠ some slash
        then filename.bytes ++ [slash] else filename.bytes) =
        (longLinkText filename cType).bytes := by
      rw [longLinkText]
      split
      · rfl
      · rfl
    simp only [taruWriteLongLinkMember, hadd, if_neg (show ¬ 510 ≤ filename.strlen by omega), hs, hok,
      hbytes, Emit.write_bind, Emit.prepend_pure]
    rfl

/-- A long link member is written whole or not at all. -/
theorem taruWriteLongLinkMember_length (env : WriteEnv) (filename : CString) (gnuLongType : UInt8)
    (cType : UInt64) :
    taruWriteLongLinkMember env filename gnuLongType cType = pure (-1) ∨
      ∃ bs, bs.length = 1024 ∧ taruWriteLongLinkMember env filename gnuLongType cType =
        ⟨bs, .returned (.ok 1024)⟩ := by
  simp only [taruWriteLongLinkMember]
  generalize longLinkHdr filename gnuLongType cType _ = hdr
  split
  · exact .inl rfl
  · cases taruWriteOutTarHeader2 env.db hdr rootName rootName env.flags with
    | error code => exact .inl rfl
    | ok h =>
        right
        simp only [Emit.write_bind, Emit.prepend_pure]
        refine ⟨_, ?_, rfl⟩
        rw [List.length_append, TarHeader.length_bytes, CField.size_eq]
        rfl

/-! ## The formats with GNU long names -/

/-- Long names are written the GNU way. -/
structure GnuLongMode (flags : TarFlags) : Prop where
  gnuLongLinks : flags.gnuLongLinks = true
  paxexthdr : flags.paxexthdr = false
  paxexthdrMd : flags.paxexthdrMd = false

/-- Whether a path gets a long name member. -/
def needsLongName (flags : TarFlags) (name : CString) : Bool :=
  (taruIsTarFilenameTooLong name flags).2

namespace GnuLongMode

variable {flags : TarFlags} (hmode : GnuLongMode flags)
include hmode

theorem isPaxHeaderAllowed_eq : isPaxHeaderAllowed flags = false := by
  rw [isPaxHeaderAllowed, hmode.paxexthdr, hmode.paxexthdrMd]
  rfl

theorem taruIsTarFilenameTooLong_eq (name : CString) :
    ∃ tooLong : Bool, taruIsTarFilenameTooLong name flags =
      if tooLong then
        if tarRecordSize ≤ (squashTrailingSlash name).strlen then (true, false)
        else if tarnamesizeOf flags < (squashTrailingSlash name).strlen then (false, true)
        else (false, false)
      else (false, false) := by
  refine ⟨if (squashTrailingSlash name).strlen < tarnamesizeOf flags then false
    else !hasGoodSplit (tarnamesizeOf flags) 0 (squashTrailingSlash name).bytes, ?_⟩
  rw [taruIsTarFilenameTooLong]
  simp only [hmode.gnuLongLinks, if_true, Bool.true_eq_false, false_and, and_false, if_false]

/-- No path below 510 bytes is too long. -/
theorem nameTooLong_eq {name : CString} (h : name.strlen < 510) :
    (taruIsTarFilenameTooLong name flags).1 = false := by
  have hle := strlen_squashTrailingSlash_le name
  obtain ⟨tooLong, heq⟩ := hmode.taruIsTarFilenameTooLong_eq name
  rw [heq, if_neg (show ¬ tarRecordSize ≤ _ by simp only [tarRecordSize]; omega)]
  split
  · split
    · rfl
    · rfl
  · rfl

theorem linkTooLong_eq {link : CString} (h : link.strlen < 510) :
    taruIsTarLinknameTooLong link flags = (false, decide (tarLinknameSize < link.strlen)) := by
  rw [taruIsTarLinknameTooLong, hmode.gnuLongLinks]
  split
  · next hle => rw [decide_eq_false (Nat.not_lt.mpr hle)]
  · next hgt =>
      rw [if_pos rfl, if_pos (by simp only [tarRecordSize]; omega),
        decide_eq_true (Nat.lt_of_not_le hgt)]

/-- A path with a long name member is longer than what it is cut to. -/
theorem lt_of_needsLongName {name : CString} (h : needsLongName flags name = true) :
    longNameCut flags < name.strlen := by
  have hle := strlen_squashTrailingSlash_le name
  have hcut : longNameCut flags = tarnamesizeOf flags := by
    simp only [longNameCut, tarnamesizeOf, hmode.gnuLongLinks, true_and, Or.comm]
  obtain ⟨tooLong, heq⟩ := hmode.taruIsTarFilenameTooLong_eq name
  rw [needsLongName, heq] at h
  rw [hcut]
  cases tooLong with
  | false => cases h
  | true =>
      rw [if_pos rfl] at h
      split at h
      · cases h
      · split at h
        · next hlt => exact Nat.lt_of_lt_of_le hlt hle
        · cases h

end GnuLongMode

end Swbis.Taru
