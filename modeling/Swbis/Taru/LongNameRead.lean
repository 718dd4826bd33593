import Swbis.Taru.LongNameWrite
import Swbis.Taru.RecordName

/-!
# Reading back GNU long names

`longNames_iff` says when the reader finds a member again that was written with
GNU long names.  It does not find a hard link with a long link name, since it
takes the cut name of the record, and neither a symbolic link with a long path,
since its path is written as a `K`.
-/

namespace Swbis.Taru

open CLib

/-! ## What is read -/

/-- The names that were read from extended headers so far. -/
structure LongNamesRead (cur : FileHdr) (path link : Option CString) : Prop where
  extattlist : cur.extattlist = some []
  pathMask : cur.extHeaderUsageMask.path = path.isSome
  linkMask : cur.extHeaderUsageMask.linkpath = link.isSome
  path : ∀ p, path = some p → cur.cName = p
  link : cur.cTarLinkname = link.getD .empty

theorem longNamesRead_start (renv : ReadEnv) : LongNamesRead renv.start none none := by
  refine ⟨rfl, rfl, rfl, ?_, rfl⟩
  intro p hp
  cases hp

/-- The data of an `L` are the path. -/
theorem applyExtHeader_longName (data rest : Bytes) (hdr : FileHdr) :
    applyExtHeader gnuTypeLongname data rest hdr = .returned (.ok { hdr with
      cName := .ofMem data
      extHeaderUsageMask := { hdr.extHeaderUsageMask with path := true } }) := rfl

/-- The data of a `K` are the link name. -/
theorem applyExtHeader_longLink (data rest : Bytes) (hdr : FileHdr) :
    applyExtHeader gnuTypeLonglink data rest hdr = .returned (.ok { hdr with
      cTarLinkname := .ofMem data
      extHeaderUsageMask := { hdr.extHeaderUsageMask with linkpath := true } }) := rfl

namespace LongNamesRead

variable {cur : FileHdr} {path link : Option CString} (hcur : LongNamesRead cur path link)
include hcur

/-- An `L` gives the path. -/
theorem longName {e : ExtBlock} (hflag : e.header.typeflag = gnuTypeLongname) :
    ∃ cur', (∀ rest, applyExtHeader e.header.typeflag e.data rest
        { cur with cFilesize := UInt64.ofNat e.size } = .returned (.ok cur')) ∧
      LongNamesRead cur' (some (.ofMem e.data)) link := by
  rw [hflag]
  refine ⟨_, fun rest => applyExtHeader_longName e.data rest _, hcur.extattlist, rfl, hcur.linkMask, ?_, hcur.link⟩
  intro p hp
  cases hp
  rfl

/-- A `K` gives the link name. -/
theorem longLink {e : ExtBlock} (hflag : e.header.typeflag = gnuTypeLonglink) :
    ∃ cur', (∀ rest, applyExtHeader e.header.typeflag e.data rest
        { cur with cFilesize := UInt64.ofNat e.size } = .returned (.ok cur')) ∧
      LongNamesRead cur' path (some (.ofMem e.data)) := by
  rw [hflag]
  exact ⟨_, fun rest => applyExtHeader_longLink e.data rest _, hcur.extattlist, hcur.pathMask, rfl, hcur.path, rfl⟩

/-- The record fills the file header, and nothing is overridden. -/
theorem readHdr_eq (renv : ReadEnv) (h : TarHeader) (mem : Bytes) :
    readHdr renv h mem cur = setFromTarHeader renv.db renv.flags (h.bytes ++ mem)
      { cur with cChksum := taruOtoul ((h.bytes ++ mem).drop 148) } := by
  refine overrideUstar_of_noSlots ?_ renv.erange
  exact hcur.extattlist

variable {h : TarHeader} {db : SysDb} {hdr : FileHdr} {username groupname : CString}
  {flags : TarFlags} {t : TypeFields} (hw : h.WrittenFor db hdr username groupname flags t)
include hw

/-- The path is that of the `L`, if there was one. -/
theorem readHdr_cName (renv : ReadEnv) (mem : Bytes) :
    (readHdr renv h mem cur).cName =
      path.getD (storedName (swlibProcessHexEscapes (uNameBuffer hdr flags))) := by
  rw [hcur.readHdr_eq, hw.cName_read]
  simp only [hcur.pathMask]
  cases path with
  | none => rfl
  | some p => exact hcur.path p rfl

end LongNamesRead

/-! ## When the member is found again -/

/-- The member that was read is the one that was written: its type, its path up
to the slash of a directory, and its link name. -/
structure SameMember (hdr : FileHdr) (link : CString) (r : FileHdr) : Prop where
  fileType : r.fileType = hdr.fileType
  hardLink : r.isHardLink = decide (hdr.fileType = cpIfreg ∧ link ≠ .empty)
  path : if hdr.fileType = cpIfdir then withSlash r.cName = withSlash hdr.cName
    else r.cName = hdr.cName
  link : r.cTarLinkname = link

section ReadsBack

variable {env : WriteEnv} {x : Emit Written} {es : List ExtBlock} {hdr : FileHdr}
  (hx : WritesRecord env x (extBytes es) hdr) {renv : ReadEnv} {cur : FileHdr}
  (happlied : ExtApplied es renv.start cur) {path link : Option CString}
  (hcur : LongNamesRead cur path link) {member : FileHdr} (name : CString)
include hx happlied hcur

/-- A regular file and a hard link: the link name of the record. -/
theorem readsBack_regular (hreg : hdr.fileType = cpIfreg) (hmember : member.fileType = cpIfreg)
    (hlink : hdr.cTarLinkname.strlen = 0 → link = none) :
    ReadsBack renv x (SameMember member name) ↔ hdr.cName.strlen ≠ 0 ∧ NameAccepted hdr.cName ∧
      hdr.cTarLinkname.strlen ≤ tarLinknameSize ∧
      path.getD (storedName (swlibProcessHexEscapes hdr.cName)) = member.cName ∧
      hdr.cTarLinkname = name := by
  have hbuf : uNameBuffer hdr env.flags = hdr.cName := by
    rw [uNameBuffer, if_neg]
    rintro ⟨hdir, -⟩
    rw [hreg] at hdir
    exact absurd hdir (by decide)
  have htype : TypeAccepted hdr env.flags ↔ hdr.cTarLinkname.strlen ≤ tarLinknameSize := by
    rw [TypeAccepted]
    by_cases hempty : hdr.cTarLinkname.strlen = 0
    · simp only [typeFields_regular hreg hempty, hempty, Nat.zero_le, iff_true]
      exact ⟨_, rfl⟩
    · rw [typeFields_hardLink hreg hempty]
      split
      · next hlt => simp [Nat.not_le.mpr hlt]
      · next hle => simp [Nat.le_of_not_lt hle]
  rw [hx.readsBack_iff happlied (P := path.getD (storedName (swlibProcessHexEscapes hdr.cName)) =
    member.cName ∧ hdr.cTarLinkname = name), hbuf, htype]
  · intro size termch t ht
    by_cases hempty : hdr.cTarLinkname.strlen = 0
    · rw [typeFields_regular hreg hempty] at ht
      cases ht
      exact show isExtHeaderType regType = false by decide
    · rw [typeFields_hardLink hreg hempty] at ht
      split at ht
      · cases ht
      · cases ht
        exact show isExtHeaderType lnkType = false by decide
  · intro h t mem hw
    have hname := hcur.readHdr_cName hw renv mem
    have hfields : ∃ size, FieldsRead (readHdr renv h mem cur) cpIfreg hdr.cTarLinkname size
        (decide (hdr.cTarLinkname ≠ .empty)) := by
      rw [hcur.readHdr_eq]
      by_cases hempty : hdr.cTarLinkname.strlen = 0
      · have hread := fieldsRead_regular hw hreg hempty renv.db renv.flags mem
          { cur with cChksum := taruOtoul ((h.bytes ++ mem).drop 148) }
        have hlinkname : cur.cTarLinkname = hdr.cTarLinkname := by
          rw [hcur.link, hlink hempty, CString.strlen_eq_zero.mp hempty]
          rfl
        refine ⟨_, hread.fileType, hread.link.trans hlinkname, hread.size, ?_⟩
        rw [hread.hardLink, CString.strlen_eq_zero.mp hempty]
        rfl
      · have hread := fieldsRead_hardLink hw hreg hempty renv.db renv.flags mem
          { cur with cChksum := taruOtoul ((h.bytes ++ mem).drop 148) }
        refine ⟨0, ?_⟩
        have hne : hdr.cTarLinkname ≠ .empty := fun heq => hempty (CString.strlen_eq_zero.mpr heq)
        rw [decide_eq_true hne]
        exact hread
    obtain ⟨size, hfields⟩ := hfields
    rw [hbuf] at hname
    constructor
    · intro hsame
      have hpath := hsame.path
      rw [if_neg (by rw [hmember]; decide), hname] at hpath
      exact ⟨hpath, hfields.link.symm.trans hsame.link⟩
    · rintro ⟨hpath, hlinkname⟩
      refine ⟨hfields.fileType.trans hmember.symm, ?_, ?_, hfields.link.trans hlinkname⟩
      · rw [hfields.hardLink, hlinkname, hmember]
        simp
      · rw [if_neg (by rw [hmember]; decide), hname]
        exact hpath

/-- A directory: no link name. -/
theorem readsBack_directory (hdir : hdr.fileType = cpIfdir) (hmember : member.fileType = cpIfdir)
    (hlink : link = none) :
    ReadsBack renv x (SameMember member name) ↔ hdr.cName.strlen ≠ 0 ∧
      NameAccepted (uNameBuffer hdr env.flags) ∧
      withSlash (path.getD (storedName (swlibProcessHexEscapes (uNameBuffer hdr env.flags)))) =
        withSlash member.cName ∧ name = .empty := by
  subst hlink
  have htype : TypeAccepted hdr env.flags ↔ True := by
    rw [TypeAccepted, iff_true]
    exact ⟨_, typeFields_directory hdir⟩
  rw [hx.readsBack_iff happlied (P := withSlash (path.getD (storedName (swlibProcessHexEscapes
    (uNameBuffer hdr env.flags)))) = withSlash member.cName ∧ name = .empty), htype, true_and]
  · intro size termch t ht
    rw [typeFields_directory hdir] at ht
    cases ht
    exact show isExtHeaderType dirType = false by decide
  · intro h t mem hw
    have hname := hcur.readHdr_cName hw renv mem
    have hread := fieldsRead_directory hw hdir renv.db renv.flags mem
      { cur with cChksum := taruOtoul ((h.bytes ++ mem).drop 148) }
    rw [← hcur.readHdr_eq] at hread
    have hlinkname : (readHdr renv h mem cur).cTarLinkname = .empty := hread.link.trans hcur.link
    constructor
    · intro hsame
      have hpath := hsame.path
      rw [if_pos hmember, hname] at hpath
      exact ⟨hpath, hsame.link.symm.trans hlinkname⟩
    · rintro ⟨hpath, rfl⟩
      refine ⟨hread.fileType.trans hmember.symm, ?_, ?_, hlinkname⟩
      · rw [hread.hardLink]
        simp
      · rw [if_pos hmember, hname]
        exact hpath

/-- A symbolic link: the link name of the `K`, if there was one. -/
theorem readsBack_symlink (hlnk : hdr.fileType = cpIflnk) (hmember : member.fileType = cpIflnk)
    (hne : hdr.cName ≠ gnuLongLink) :
    ReadsBack renv x (SameMember member name) ↔ hdr.cName.strlen ≠ 0 ∧ NameAccepted hdr.cName ∧
      hdr.cTarLinkname.strlen ≤ tarLinknameSize ∧
      path.getD (storedName (swlibProcessHexEscapes hdr.cName)) = member.cName ∧
      link.getD hdr.cTarLinkname = name := by
  have hbuf : uNameBuffer hdr env.flags = hdr.cName := by
    rw [uNameBuffer, if_neg]
    rintro ⟨hdir, -⟩
    rw [hlnk] at hdir
    exact absurd hdir (by decide)
  have htype : TypeAccepted hdr env.flags ↔ hdr.cTarLinkname.strlen ≤ tarLinknameSize := by
    rw [TypeAccepted, typeFields_symlink hlnk hne]
    split
    · next hlt => simp [Nat.not_le.mpr hlt]
    · next hle => simp [Nat.le_of_not_lt hle]
  rw [hx.readsBack_iff happlied (P := path.getD (storedName (swlibProcessHexEscapes hdr.cName)) =
    member.cName ∧ link.getD hdr.cTarLinkname = name), hbuf, htype]
  · intro size termch t ht
    rw [typeFields_symlink hlnk hne] at ht
    split at ht
    · cases ht
    · cases ht
      exact show isExtHeaderType symType = false by decide
  · intro h t mem hw
    have hname := hcur.readHdr_cName hw renv mem
    rw [hbuf] at hname
    have hread := fieldsRead_symlink hw hlnk hne renv.db renv.flags mem
      { cur with cChksum := taruOtoul ((h.bytes ++ mem).drop 148) }
    rw [← hcur.readHdr_eq] at hread
    have hlinkname : (readHdr renv h mem cur).cTarLinkname = link.getD hdr.cTarLinkname := by
      rw [hread.link]
      simp only [hcur.linkMask]
      cases link with
      | none => rfl
      | some l => exact hcur.link
    have hplain : ¬ member.fileType = cpIfdir := by
      rw [hmember]
      decide
    constructor
    · intro hsame
      have hpath := hsame.path
      rw [if_neg hplain, hname] at hpath
      exact ⟨hpath, hlinkname.symm.trans hsame.link⟩
    · rintro ⟨hpath, hlink⟩
      refine ⟨hread.fileType.trans hmember.symm, ?_, ?_, hlinkname.trans hlink⟩
      · rw [hread.hardLink, hmember]
        simp [show ¬ cpIflnk = cpIfreg by decide]
      · rw [if_neg hplain, hname]
        exact hpath

omit hcur in
/-- A symbolic link of the name that marks long links is written as one. -/
theorem not_readsBack_gnuLongLink (hlnk : hdr.fileType = cpIflnk) (heq : hdr.cName = gnuLongLink)
    (hlen : (extBytes es).length ≠ 512) (same : FileHdr → Prop) : ¬ ReadsBack renv x same := by
  intro hback
  obtain ⟨h, hok⟩ := hx.of_readsBack hback
  obtain ⟨linkrecord, hdr', hx'⟩ := hx.ok h hok
  obtain ⟨t, hw⟩ := writtenFor_of_ok hok
  have ht := hw.typeFields
  simp only [typeFields, hlnk, heq, show ¬ cpIflnk = cpIfreg by decide,
    show ¬ cpIflnk = cpIfdir by decide, show ¬ cpIflnk = cpIfchr by decide,
    show ¬ cpIflnk = cpIfblk by decide, show ¬ cpIflnk = cpIfsock by decide,
    show ¬ cpIflnk = cpIfifo by decide, or_self, if_false, if_true] at ht
  split at ht
  · cases ht
  · cases ht
    refine not_readsBack_of_extHeader (by rw [hx']) ?_ happlied ?_ same hback
    · rw [List.length_append, h.length_bytes, tarRecordSize]
      omega
    · rw [hw.typeflag_eq]
      exact show isExtHeaderType gnuTypeLonglink = true by decide

end ReadsBack

/-! ## The three kinds of members -/

theorem ExtApplied.append {es es' : List ExtBlock} {hdr hdr' hdr'' : FileHdr}
    (h : ExtApplied es hdr hdr') (h' : ExtApplied es' hdr' hdr'') :
    ExtApplied (es ++ es') hdr hdr'' := by
  induction h with
  | nil => exact h'
  | cons happly _ ih => exact .cons happly (ih h')

theorem extBytes_append (es es' : List ExtBlock) :
    extBytes (es ++ es') = extBytes es ++ extBytes es' := List.flatMap_append

/-- The path that is read from an `L`. -/
def longPath (flags : TarFlags) (hdr : FileHdr) : Option CString :=
  if needsGnuName flags hdr then some (longLinkText hdr.cName hdr.fileType) else none

/-- The length at which a path is cut. -/
theorem longNameCut_bounds (flags : TarFlags) : 99 ≤ longNameCut flags ∧ longNameCut flags ≤ 100 := by
  simp only [longNameCut, tarNameSize]
  split
  · omega
  · omega

namespace NameCase

variable {flags : TarFlags} {hdr hdr' : FileHdr} {es : List ExtBlock}
  (hname : NameCase flags hdr es hdr')
include hname

theorem fields : hdr'.fileType = hdr.fileType ∧ hdr'.cTarLinkname = hdr.cTarLinkname ∧
    ∀ env linkrecord, memberLink env linkrecord hdr' = memberLink env linkrecord hdr := by
  cases hname with
  | short => exact ⟨rfl, rfl, fun _ _ => rfl⟩
  | long => exact ⟨rfl, rfl, fun _ _ => rfl⟩

/-- The path that the switch gets: cut if there is an `L`. -/
theorem cName_eq : hdr'.cName =
    if needsGnuName flags hdr then hdr.cName.take (longNameCut flags) else hdr.cName := by
  cases hname with
  | short hshort => rw [hshort, if_neg (by decide)]
  | long hlong => rw [if_pos hlong]

theorem strlen_cName_ne (hne : hdr.cName.strlen ≠ 0) : hdr'.cName.strlen ≠ 0 := by
  rw [hname.cName_eq]
  split
  · have := (longNameCut_bounds flags).1
    rw [CString.strlen_take]
    omega
  · exact hne

theorem eq_of_short (hshort : needsGnuName flags hdr = false) : hdr' = hdr := by
  cases hname with
  | short => rfl
  | long hlong =>
      rw [hshort] at hlong
      cases hlong

/-- A path below the cut is kept. -/
theorem cName_eq_iff {name : CString} (hlt : name.strlen < longNameCut flags) :
    hdr'.cName = name ↔ hdr.cName = name := by
  rw [hname.cName_eq]
  split
  · by_cases hle : hdr.cName.strlen ≤ longNameCut flags
    · rw [CString.take_of_strlen_le hle]
    · constructor
      · rintro rfl
        rw [CString.strlen_take] at hlt
        omega
      · rintro rfl
        omega
  · rfl

/-- Nor is a path made into the name that marks long links. -/
theorem cName_eq_mark : hdr'.cName = gnuLongLink ↔ hdr.cName = gnuLongLink :=
  hname.cName_eq_iff
    (Nat.lt_of_lt_of_le (show gnuLongLink.strlen < 99 by decide) (longNameCut_bounds flags).1)

theorem length_extBytes : (extBytes es).length = 0 ∨ (extBytes es).length = 1024 := by
  cases hname with
  | short => exact .inl rfl
  | long _ e hlen =>
      right
      rw [extBytes_cons, extBytes_nil, List.append_nil, hlen]

/-- The reader gets the long path of a file and of a directory. -/
theorem applied (hplain : isPlainType hdr.fileType) (renv : ReadEnv) :
    ∃ cur, ExtApplied es renv.start cur ∧ LongNamesRead cur (longPath flags hdr) none := by
  cases hname with
  | short hshort =>
      refine ⟨_, .nil _, ?_⟩
      rw [longPath, hshort]
      exact longNamesRead_start renv
  | long hlong e hlen hflag hdata =>
      rw [longLinkTypeflag, if_pos ⟨hplain, rfl⟩] at hflag
      obtain ⟨cur, happly, hcur⟩ := (longNamesRead_start renv).longName hflag
      refine ⟨cur, .cons happly (.nil cur), ?_⟩
      rw [longPath, if_pos hlong, ← hdata]
      exact hcur

/-- The reader takes the long path of a symbolic link for its link name. -/
theorem applied_symlink (hplain : ¬ isPlainType hdr.fileType) (renv : ReadEnv) :
    ∃ cur, ExtApplied es renv.start cur ∧ LongNamesRead cur none (longPath flags hdr) := by
  cases hname with
  | short hshort =>
      refine ⟨_, .nil _, ?_⟩
      rw [longPath, hshort]
      exact longNamesRead_start renv
  | long hlong e hlen hflag hdata =>
      rw [longLinkTypeflag, if_neg (fun h => hplain h.1)] at hflag
      obtain ⟨cur, happly, hcur⟩ := (longNamesRead_start renv).longLink hflag
      refine ⟨cur, .cons happly (.nil cur), ?_⟩
      rw [longPath, if_pos hlong, ← hdata]
      exact hcur

end NameCase

/-- A directory gets its slash in an `L`. -/
theorem longLinkText_directory {name : CString} (hne : name.strlen ≠ 0) :
    longLinkText name cpIfdir = withSlash name := by
  rw [longLinkText, withSlash]
  by_cases hslash : name.bytes.getLast? = some slash
  · rw [if_neg (fun h => h.2.2 hslash), if_pos hslash]
  · rw [if_pos ⟨rfl, hne, hslash⟩, if_neg hslash]

theorem longLinkText_of_ne {name : CString} {cType : UInt64} (hne : cType ≠ cpIfdir) :
    longLinkText name cType = name := by
  rw [longLinkText, if_neg (fun h => hne h.1)]

/-- The path in a record of a directory is the path up to its slash. -/
theorem withSlash_uNameBuffer (hdr : FileHdr) (flags : TarFlags) :
    withSlash (uNameBuffer hdr flags) = withSlash hdr.cName := by
  rw [uNameBuffer]
  split
  · next h =>
      have heq : hdr.cName.append ⟨[slash], slash_noNul⟩ = withSlash hdr.cName := by
        rw [withSlash, if_neg h.2.1]
      rw [heq, withSlash_withSlash]
  · rfl

/-- A path that was cut comes back when it was short enough and had no escape. -/
theorem storedName_take_eq_iff {name : CString} {n : Nat} (hn : n ≤ tarNameSize) :
    storedName (swlibProcessHexEscapes (name.take n)) = name ↔
      name.strlen ≤ n ∧ swlibProcessHexEscapes name = name := by
  have hhexlen := strlen_swlibProcessHexEscapes_le (name.take n)
  have htake := CString.strlen_take_le n name
  rw [storedName, if_pos (by omega)]
  constructor
  · intro heq
    have hlen : name.strlen ≤ n := by
      rw [heq] at hhexlen
      omega
    rw [CString.take_of_strlen_le hlen] at heq
    exact ⟨hlen, heq⟩
  · rintro ⟨hlen, heq⟩
    rw [CString.take_of_strlen_le hlen, heq]

/-- An early return is not read back. -/
theorem not_readsBack_fail (renv : ReadEnv) (bs : Bytes) (code : Int) (same : FileHdr → Prop) :
    ¬ ReadsBack renv ((Emit.fail code : Emit Written).prepend bs) same := by
  rintro ⟨w, r, hw, -⟩
  cases hw

section Kinds

variable {env : WriteEnv} (linkrecord : Option Hllist) {hdr hdr' : FileHdr} (member : FileHdr)
  {es : List ExtBlock} (hname : NameCase env.flags hdr es hdr')
  (hstrip : Unslashed env.flags hdr'.cName) (hlink : hdr.cTarLinkname.strlen < 510)
  (hne : hdr.cName.strlen ≠ 0) (htype : member.fileType = hdr.fileType)
  (hpath : member.cName = hdr.cName) (renv : ReadEnv)
include hname hstrip hlink hne htype hpath

/-- A regular file or a hard link. -/
theorem readsBack_regularMember (hreg : hdr.fileType = cpIfreg) :
    ReadsBack renv ((writeByType env linkrecord
        (decide (tarLinknameSize < hdr.cTarLinkname.strlen)) hdr' >>= fun w =>
          pure { w with retval := w.retval + ((extBytes es).length : Int) }).prepend (extBytes es))
        (SameMember member (memberLink env linkrecord hdr)) ↔
      (memberLink env linkrecord hdr).strlen ≤ tarLinknameSize ∧
        (needsGnuName env.flags hdr = true ∨ HeldByRecord hdr.cName) := by
  obtain ⟨hft, hl, hml⟩ := hname.fields
  obtain ⟨cur, happlied, hcur⟩ := hname.applied (.inl hreg) renv
  rw [← hl] at hlink ⊢
  rcases writeByType_cases linkrecord hstrip (.inl (hft.trans hreg)) hlink with
    ⟨hlnk, -⟩ | ⟨esR, hdr'', hrec, hw⟩
  · rw [hft, hreg] at hlnk
    exact absurd hlnk (by decide)
  · have hx := hw.prepend (extBytes es) rfl
    rw [← extBytes_append] at hx
    rcases hrec.of_regular (hft.trans hreg) with ⟨rfl, rfl⟩ | ⟨e, hown, hlong, hflag, rfl, rfl⟩
    · have hiff := readsBack_regular hx (happlied.append (.nil cur)) hcur
        (memberLink env linkrecord hdr) (hft.trans hreg) (htype.trans hreg) (fun _ => rfl)
      rw [hiff, hml, hpath]
      have hne' := hname.strlen_cName_ne hne
      have hcut := hname.cName_eq
      simp only [hne', ne_eq, not_false_eq_true, true_and, and_true, longPath]
      cases hneeds : needsGnuName env.flags hdr with
      | false =>
          rw [hneeds, if_neg (by decide)] at hcut
          simp only [hcut, Bool.false_eq_true, if_false, Option.getD_none, false_or]
          rw [← heldByRecord_iff]
          exact and_left_comm
      | true =>
          rw [hneeds, if_pos rfl] at hcut
          have haccept : NameAccepted hdr'.cName := nameAccepted_of_le (by
            have := (longNameCut_bounds env.flags).2
            rw [hcut, CString.strlen_take, tarNameSize]
            omega)
          simp only [haccept, if_true, Option.getD_some, true_and, true_or, and_true,
            and_iff_left_iff_imp]
          exact fun _ => longLinkText_of_ne (by rw [hreg]; decide)
    · obtain ⟨cur', happly, hcur'⟩ := hcur.longLink hflag
      have hcutlen : (hdr'.cTarLinkname.take (tarLinknameSize - 1)).strlen = tarLinknameSize - 1 := by
        rw [CString.strlen_take]
        omega
      have hiff := readsBack_regular hx (happlied.append (.cons happly (.nil cur'))) hcur'
        (memberLink env linkrecord hdr) (hft.trans hreg) (htype.trans hreg)
        (fun h => absurd (hcutlen.symm.trans h) (by decide))
      rw [hiff, ← hml, hown]
      constructor
      · rintro ⟨-, -, -, -, hcut⟩
        exact absurd hcut (CString.take_ne_of_lt (Nat.lt_of_le_of_lt (Nat.sub_le _ _) hlong))
      · rintro ⟨hle, -⟩
        exact absurd hlong (Nat.not_lt.mpr hle)

/-- A directory. -/
theorem readsBack_directoryMember (hdir : hdr.fileType = cpIfdir) :
    ReadsBack renv ((writeByType env linkrecord
        (decide (tarLinknameSize < hdr.cTarLinkname.strlen)) hdr' >>= fun w =>
          pure { w with retval := w.retval + ((extBytes es).length : Int) }).prepend (extBytes es))
        (SameMember member (memberLink env linkrecord hdr)) ↔
      memberLink env linkrecord hdr = .empty ∧
        (needsGnuName env.flags hdr = true ∨ DirectoryHeld (uNameBuffer hdr env.flags)) := by
  obtain ⟨hft, hl, hml⟩ := hname.fields
  obtain ⟨cur, happlied, hcur⟩ := hname.applied (.inr hdir) renv
  rw [← hl] at hlink ⊢
  rcases writeByType_cases linkrecord hstrip (.inr (.inl (hft.trans hdir))) hlink with
    ⟨hlnk, -⟩ | ⟨esR, hdr'', hrec, hw⟩
  · rw [hft, hdir] at hlnk
    exact absurd hlnk (by decide)
  · have hx := hw.prepend (extBytes es) rfl
    rw [← extBytes_append] at hx
    obtain ⟨rfl, rfl⟩ := hrec.of_directory (hft.trans hdir)
    have hiff := readsBack_directory hx (happlied.append (.nil cur)) hcur
      (memberLink env linkrecord hdr) (hft.trans hdir) (htype.trans hdir) rfl
    rw [hiff, hpath]
    have hne' := hname.strlen_cName_ne hne
    have hbuf : uNameBuffer { hdr' with cFilesize := 0 } env.flags =
        uNameBuffer hdr' env.flags := rfl
    simp only [hne', hbuf, ne_eq, not_false_eq_true, true_and, longPath, hdir,
      longLinkText_directory hne]
    cases hneeds : needsGnuName env.flags hdr with
    | false =>
        simp only [hname.eq_of_short hneeds, Bool.false_eq_true, if_false, Option.getD_none,
          false_or]
        rw [← directoryHeld_iff, withSlash_uNameBuffer, ← and_assoc, and_comm]
    | true =>
        have hcut := hname.cName_eq
        rw [hneeds, if_pos rfl] at hcut
        have haccept : NameAccepted (uNameBuffer hdr' env.flags) := nameAccepted_of_le (by
          have hcutlen := (longNameCut_bounds env.flags).2
          have hle := strlen_uNameBuffer_le hdr' env.flags
          rw [hcut, CString.strlen_take] at hle
          rw [tarNameSize]
          omega)
        simp only [haccept, if_true, Option.getD_some, withSlash_withSlash, true_and, true_or,
          and_true]

omit hstrip hlink in
/-- A symbolic link with a link name that the record has room for. -/
theorem readsBack_shortSymlink (hmode : GnuLongMode env.flags) (hlnk : hdr.fileType = cpIflnk)
    (hshort : hdr'.cTarLinkname.strlen < tarLinknameSize) {x : Emit Written}
    (hx : WritesRecord env x (extBytes (es ++ []))
      { hdr' with cFilesize := UInt64.ofNat hdr'.cTarLinkname.strlen }) :
    ReadsBack renv x (SameMember member hdr'.cTarLinkname) ↔
      hdr.cName ≠ gnuLongLink ∧ needsLongName env.flags hdr.cName = false ∧
        HeldByRecord hdr.cName := by
  obtain ⟨hft, hl, -⟩ := hname.fields
  obtain ⟨cur, happlied, hcur⟩ := hname.applied_symlink (by rw [hlnk]; decide) renv
  have happlied := happlied.append (.nil cur)
  by_cases hgnu : hdr.cName = gnuLongLink
  · have hlen := hname.length_extBytes
    have hnot := not_readsBack_gnuLongLink hx happlied (hft.trans hlnk) (hname.cName_eq_mark.mpr hgnu)
      (by rw [List.append_nil]; omega) (SameMember member hdr'.cTarLinkname)
    exact ⟨fun hback => absurd hback hnot, fun h => absurd hgnu h.1⟩
  have hne' := hname.strlen_cName_ne hne
  have hiff := readsBack_symlink hx happlied hcur hdr'.cTarLinkname (hft.trans hlnk)
    (htype.trans hlnk) (fun h => hgnu (hname.cName_eq_mark.mp h))
  rw [hiff, hpath]
  simp only [hne', hgnu, Nat.le_of_lt hshort, ne_eq, not_false_eq_true, true_and, Option.getD_none]
  have hneeds : needsGnuName env.flags hdr = needsLongName env.flags hdr.cName := by
    rw [needsGnuName, ← hl, decide_eq_false (Nat.not_lt.mpr (Nat.le_of_lt hshort)),
      Bool.or_false]
  cases hlong : needsLongName env.flags hdr.cName with
  | false =>
      rw [hlong] at hneeds
      simp only [hname.eq_of_short hneeds, longPath, hneeds, Bool.false_eq_true, if_false,
        Option.getD_none, and_true, true_and]
      exact heldByRecord_iff
  | true =>
      -- The cut path of the record is shorter.
      have hcut := hname.cName_eq
      rw [hneeds, hlong, if_pos rfl] at hcut
      have hlt := hmode.lt_of_needsLongName hlong
      simp only [Bool.true_eq_false, false_and, iff_false]
      rintro ⟨-, hstored, -⟩
      rw [hcut, storedName_take_eq_iff (longNameCut_bounds env.flags).2] at hstored
      omega

omit hstrip hlink in
/-- A symbolic link with a link name that has a `K`: the path is that of the record. -/
theorem readsBack_longSymlink (hlnk : hdr.fileType = cpIflnk)
    (hlong : tarLinknameSize < hdr'.cTarLinkname.strlen) {e : ExtBlock} (helen : e.bytes.length = 1024)
    (hflag : e.header.typeflag = gnuTypeLonglink) (hdata : .ofMem e.data = hdr'.cTarLinkname)
    {x : Emit Written} (hx : WritesRecord env x (extBytes (es ++ [e]))
      { hdr' with
        cTarLinkname := hdr'.cTarLinkname.take (tarLinknameSize - 1), cFilesize := 0 }) :
    ReadsBack renv x (SameMember member hdr'.cTarLinkname) ↔
      hdr.cName ≠ gnuLongLink ∧ hdr.cName.strlen ≤ longNameCut env.flags ∧
        swlibProcessHexEscapes hdr.cName = hdr.cName := by
  obtain ⟨hft, hl, -⟩ := hname.fields
  obtain ⟨cur, happlied, hcur⟩ := hname.applied_symlink (by rw [hlnk]; decide) renv
  obtain ⟨cur', happly, hcur'⟩ := hcur.longLink hflag
  have happlied := happlied.append (.cons happly (.nil cur'))
  by_cases hgnu : hdr.cName = gnuLongLink
  · have hlen := hname.length_extBytes
    have hnot := not_readsBack_gnuLongLink hx happlied (hft.trans hlnk) (hname.cName_eq_mark.mpr hgnu)
      (by
        rw [extBytes_append, extBytes_cons, extBytes_nil, List.append_nil, List.length_append, helen]
        omega) (SameMember member hdr'.cTarLinkname)
    exact ⟨fun hback => absurd hback hnot, fun h => absurd hgnu h.1⟩
  have hbounds := longNameCut_bounds env.flags
  have hne' := hname.strlen_cName_ne hne
  have hiff := readsBack_symlink hx happlied hcur' hdr'.cTarLinkname (hft.trans hlnk)
    (htype.trans hlnk) (fun h => hgnu (hname.cName_eq_mark.mp h))
  have hneeds : needsGnuName env.flags hdr = true := by
    rw [needsGnuName, ← hl, decide_eq_true hlong, Bool.or_true]
  have hcut := hname.cName_eq
  rw [hneeds, if_pos rfl] at hcut
  have hcutlen : (hdr'.cTarLinkname.take (tarLinknameSize - 1)).strlen ≤ tarLinknameSize :=
    Nat.le_trans (CString.strlen_take_le _ _) (Nat.sub_le _ _)
  have haccept : NameAccepted hdr'.cName := nameAccepted_of_le (by
    rw [hcut, CString.strlen_take, tarNameSize]
    omega)
  rw [hiff, hpath]
  simp only [hne', hgnu, hcutlen, haccept, hdata, ne_eq, not_false_eq_true, true_and,
    and_true, Option.getD_none, Option.getD_some]
  rw [hcut, storedName_take_eq_iff hbounds.2]

/-- A symbolic link. -/
theorem readsBack_symlinkMember (hmode : GnuLongMode env.flags) (hlnk : hdr.fileType = cpIflnk) :
    ReadsBack renv ((writeByType env linkrecord
        (decide (tarLinknameSize < hdr.cTarLinkname.strlen)) hdr' >>= fun w =>
          pure { w with retval := w.retval + ((extBytes es).length : Int) }).prepend (extBytes es))
        (SameMember member (memberLink env linkrecord hdr)) ↔
      hdr.cName ≠ gnuLongLink ∧
        if tarLinknameSize < hdr.cTarLinkname.strlen then
          hdr.cName.strlen ≤ longNameCut env.flags ∧ swlibProcessHexEscapes hdr.cName = hdr.cName
        else hdr.cTarLinkname.strlen < tarLinknameSize ∧
          needsLongName env.flags hdr.cName = false ∧ HeldByRecord hdr.cName := by
  obtain ⟨hft, hl, -⟩ := hname.fields
  have hown : memberLink env linkrecord hdr = hdr.cTarLinkname := by
    rw [memberLink, if_neg]
    rw [hlnk]
    exact fun h => absurd h.1 (by decide)
  rw [hown]
  rw [← hl] at hlink ⊢
  rcases writeByType_cases linkrecord hstrip (.inr (.inr (hft.trans hlnk))) hlink with
    ⟨-, hfull, hfail⟩ | ⟨esR, hdr'', hrec, hw⟩
  · rw [hfail, Emit.fail_bind, hfull, if_neg (Nat.lt_irrefl _)]
    constructor
    · exact fun hback => absurd hback (not_readsBack_fail renv _ _ _)
    · rintro ⟨-, hlt, -⟩
      exact absurd hlt (Nat.lt_irrefl _)
  · have hx := hw.prepend (extBytes es) rfl
    rw [← extBytes_append] at hx
    rcases hrec.of_symlink (hft.trans hlnk) with
      ⟨hshort, rfl, rfl⟩ | ⟨e, hlong, helen, hflag, hdata, rfl, rfl⟩
    · rw [readsBack_shortSymlink member hname hne htype hpath renv hmode hlnk hshort hx,
        if_neg (Nat.not_lt.mpr (Nat.le_of_lt hshort))]
      simp only [hshort, true_and]
    · rw [readsBack_longSymlink member hname hne htype hpath renv hlnk hlong helen hflag hdata hx,
        if_pos hlong]

end Kinds

/-! ## The round trip -/

/-- When a member is found again.  The link name of a hard link must fit the
record.  A directory has none.  The path of a symbolic link must come out of the
record, where it is cut if the link name is long. -/
def LongNamesKept (env : WriteEnv) (linkrecord : Option Hllist) (hdr : FileHdr) : Prop :=
  let member := memberHdr env hdr
  let link := memberLink env linkrecord hdr
  member.cName.strlen ≠ 0 ∧ ¬ RefusesOverflow env hdr ∧
    if hdr.fileType = cpIfreg then
      link.strlen ≤ tarLinknameSize ∧
        (needsGnuName env.flags member = true ∨ HeldByRecord member.cName)
    else if hdr.fileType = cpIfdir then
      link = .empty ∧
        (needsGnuName env.flags member = true ∨ DirectoryHeld (uNameBuffer member env.flags))
    else
      member.cName ≠ gnuLongLink ∧
        if tarLinknameSize < hdr.cTarLinkname.strlen then
          member.cName.strlen ≤ longNameCut env.flags ∧
            swlibProcessHexEscapes member.cName = member.cName
        else hdr.cTarLinkname.strlen < tarLinknameSize ∧
          needsLongName env.flags member.cName = false ∧ HeldByRecord member.cName

/-- The link record is searched by the numbers of the file. -/
theorem memberLink_checkedHdr (env : WriteEnv) (linkrecord : Option Hllist) (hdr : FileHdr) :
    memberLink env linkrecord (checkedHdr env hdr) = memberLink env linkrecord hdr := by
  simp only [memberLink, checkedHdr, memberHdr, stripped, taruFilehdr2filehdr, findLink, FileHdr.dev,
    FileHdr.fileType]
  split
  · rfl
  · rfl

section RoundTrip

variable {env : WriteEnv} (hmode : GnuLongMode env.flags) (linkrecord : Option Hllist)
  {hdr : FileHdr} (hpath : hdr.cName.strlen < 510) (hlink : hdr.cTarLinkname.strlen < 510)
  (renv : ReadEnv)
include hmode hpath hlink

/-- A member is read back if its path is not empty, the format takes it, and
what is written behind the long path is read back. -/
theorem readsBack_gnu_iff
    (htype : hdr.fileType = cpIfreg ∨ hdr.fileType = cpIfdir ∨ hdr.fileType = cpIflnk)
    {same : FileHdr → Prop} {P : Prop}
    (hkind : ∀ es hdr', NameCase env.flags (checkedHdr env hdr) es hdr' →
      Unslashed env.flags hdr'.cName → (checkedHdr env hdr).cName.strlen ≠ 0 →
      (ReadsBack renv ((writeByType env linkrecord
        (decide (tarLinknameSize < hdr.cTarLinkname.strlen)) hdr' >>= fun w =>
          pure { w with retval := w.retval + ((extBytes es).length : Int) }).prepend (extBytes es))
        same ↔ P)) :
    ReadsBack renv (taruWriteArchiveMemberHeader env linkrecord hdr) same ↔
      (memberHdr env hdr).cName.strlen ≠ 0 ∧ ¬ RefusesOverflow env hdr ∧ P := by
  rcases taruWriteArchiveMemberHeader_gnu hmode linkrecord hpath hlink htype with
    ⟨hrefuse, heq⟩ | ⟨hrefuse, hempty, heq⟩ | ⟨hrefuse, bs, n, heq, hes⟩
  · rw [heq]
    exact ⟨fun hback => absurd hback (not_readsBack_fail renv [] _ _),
      fun h => absurd hrefuse h.2.1⟩
  · rw [heq]
    exact ⟨fun hback => absurd hback (not_readsBack_fail renv [] _ _),
      fun h => absurd hempty h.1⟩
  · have hstrip : Unslashed env.flags ((checkedHdr env hdr).cName.take n) :=
      (unslashed_memberHdr env hdr).take n
    by_cases hempty : (checkedHdr env hdr).cName.strlen = 0
    · refine ⟨fun hback => absurd hback ?_, fun h => absurd hempty h.1⟩
      rw [heq]
      have htype' : (checkedHdr env hdr).fileType = hdr.fileType := memberHdr_fileType env hdr
      have hlink' : (checkedHdr env hdr).cTarLinkname = hdr.cTarLinkname :=
        memberHdr_cTarLinkname env hdr
      rw [← htype'] at htype
      rw [← hlink'] at hlink ⊢
      rcases @writeByType_cases env linkrecord { checkedHdr env hdr with
          cName := (checkedHdr env hdr).cName.take n } hstrip htype hlink with
        ⟨-, -, hfail⟩ | ⟨es, hdr', hrec, hw⟩
      · rw [hfail, Emit.fail_bind]
        exact not_readsBack_fail renv bs _ _
      · intro hback
        obtain ⟨h, hok⟩ := (hw.prepend bs rfl).of_readsBack hback
        refine (accepted_of_ok hok).1 ?_
        rw [hrec.cName_eq, CString.strlen_take, hempty, Nat.min_zero]
    · obtain ⟨es, rfl, hname⟩ := hes hempty
      rw [heq, hkind es _ hname hstrip hempty]
      have hempty' : (memberHdr env hdr).cName.strlen ≠ 0 := hempty
      simp only [hempty', hrefuse, ne_eq, not_false_eq_true, true_and]

/-- A regular file or a hard link is found again when its link name fits the
record, and its path too unless it has an `L`. -/
theorem readsBack_gnu_regular (hreg : hdr.fileType = cpIfreg) :
    ReadsBack renv (taruWriteArchiveMemberHeader env linkrecord hdr)
        (SameMember (memberHdr env hdr) (memberLink env linkrecord hdr)) ↔
      (memberHdr env hdr).cName.strlen ≠ 0 ∧ ¬ RefusesOverflow env hdr ∧
        (memberLink env linkrecord hdr).strlen ≤ tarLinknameSize ∧
          (needsGnuName env.flags (memberHdr env hdr) = true ∨
            HeldByRecord (memberHdr env hdr).cName) := by
  refine readsBack_gnu_iff hmode linkrecord hpath hlink renv (.inl hreg) ?_
  intro es hdr' hname hstrip hne
  have hcheckedLink : (checkedHdr env hdr).cTarLinkname = hdr.cTarLinkname :=
    memberHdr_cTarLinkname env hdr
  have hcheckedType : (checkedHdr env hdr).fileType = hdr.fileType := memberHdr_fileType env hdr
  have hiff := readsBack_regularMember linkrecord (memberHdr env hdr) hname hstrip
    (by rwa [hcheckedLink]) hne rfl rfl renv (hcheckedType.trans hreg)
  rw [hcheckedLink, memberLink_checkedHdr] at hiff
  exact hiff

/-- A directory is found again when it has no link name, and its path fits the
record unless it has an `L`. -/
theorem readsBack_gnu_directory (hdir : hdr.fileType = cpIfdir) :
    ReadsBack renv (taruWriteArchiveMemberHeader env linkrecord hdr)
        (SameMember (memberHdr env hdr) (memberLink env linkrecord hdr)) ↔
      (memberHdr env hdr).cName.strlen ≠ 0 ∧ ¬ RefusesOverflow env hdr ∧
        memberLink env linkrecord hdr = .empty ∧
          (needsGnuName env.flags (memberHdr env hdr) = true ∨
            DirectoryHeld (uNameBuffer (memberHdr env hdr) env.flags)) := by
  refine readsBack_gnu_iff hmode linkrecord hpath hlink renv (.inr (.inl hdir)) ?_
  intro es hdr' hname hstrip hne
  have hcheckedLink : (checkedHdr env hdr).cTarLinkname = hdr.cTarLinkname :=
    memberHdr_cTarLinkname env hdr
  have hcheckedType : (checkedHdr env hdr).fileType = hdr.fileType := memberHdr_fileType env hdr
  have hiff := readsBack_directoryMember linkrecord (memberHdr env hdr) hname hstrip
    (by rwa [hcheckedLink]) hne rfl rfl renv (hcheckedType.trans hdir)
  rw [hcheckedLink, memberLink_checkedHdr] at hiff
  exact hiff

/-- A symbolic link with a link name that fits the record must have a path that
does, too. -/
theorem readsBack_gnu_symlink (hlnk : hdr.fileType = cpIflnk) :
    ReadsBack renv (taruWriteArchiveMemberHeader env linkrecord hdr)
        (SameMember (memberHdr env hdr) (memberLink env linkrecord hdr)) ↔
      (memberHdr env hdr).cName.strlen ≠ 0 ∧ ¬ RefusesOverflow env hdr ∧
        (memberHdr env hdr).cName ≠ gnuLongLink ∧
          if tarLinknameSize < hdr.cTarLinkname.strlen then
            (memberHdr env hdr).cName.strlen ≤ longNameCut env.flags ∧
              swlibProcessHexEscapes (memberHdr env hdr).cName = (memberHdr env hdr).cName
          else hdr.cTarLinkname.strlen < tarLinknameSize ∧
            needsLongName env.flags (memberHdr env hdr).cName = false ∧
              HeldByRecord (memberHdr env hdr).cName := by
  refine readsBack_gnu_iff hmode linkrecord hpath hlink renv (.inr (.inr hlnk)) ?_
  intro es hdr' hname hstrip hne
  have hcheckedLink : (checkedHdr env hdr).cTarLinkname = hdr.cTarLinkname :=
    memberHdr_cTarLinkname env hdr
  have hcheckedType : (checkedHdr env hdr).fileType = hdr.fileType := memberHdr_fileType env hdr
  have hiff := readsBack_symlinkMember linkrecord (memberHdr env hdr) hname hstrip
    (by rwa [hcheckedLink]) hne rfl rfl renv hmode (hcheckedType.trans hlnk)
  rw [hcheckedLink, memberLink_checkedHdr] at hiff
  exact hiff

/-- **A member with GNU long names is found again exactly when its names are
kept.** -/
theorem longNames_iff
    (htype : hdr.fileType = cpIfreg ∨ hdr.fileType = cpIfdir ∨ hdr.fileType = cpIflnk) :
    ReadsBack renv (taruWriteArchiveMemberHeader env linkrecord hdr)
        (SameMember (memberHdr env hdr) (memberLink env linkrecord hdr)) ↔
      LongNamesKept env linkrecord hdr := by
  rw [LongNamesKept]
  rcases htype with hreg | hdir | hlnk
  · simp only [if_pos hreg]
    exact readsBack_gnu_regular hmode linkrecord hpath hlink renv hreg
  · simp only [hdir, show ¬ cpIfdir = cpIfreg by decide, if_false, if_true]
    exact readsBack_gnu_directory hmode linkrecord hpath hlink renv hdir
  · simp only [hlnk, show ¬ cpIflnk = cpIfreg by decide, show ¬ cpIflnk = cpIfdir by decide,
      if_false]
    exact readsBack_gnu_symlink hmode linkrecord hpath hlink renv hlnk

end RoundTrip

/-- A writer of the format with GNU long names. -/
def gnuWriter : WriteEnv where
  db := .blank
  format := .ustar
  flags := { gnuLongLinks := true }
  taruTarheaderflags := {}
  etarTime := 0
  paxHeaderPid := 1
  paxHeaderPid_lt := Nat.one_lt_two_pow (by decide)
  linkrecordDisable := true

theorem gnuLongMode_gnuWriter : GnuLongMode gnuWriter.flags := ⟨rfl, rfl, rfl⟩

/-- A reader with nothing behind the header. -/
def plainReader : ReadEnv where
  db := .blank
  flags := {}
  erange := false
  kind := .unix
  into := {}
  rest := []

/-- A hard link `f` to a name of 101 bytes. -/
def longHardLink : FileHdr :=
  { cMode := cpIfreg
    cName := .ofMem [102]
    cTarLinkname := .ofMem (List.replicate 101 97) }

/-- A hard link to a long name is not found again. -/
theorem longHardLink_not_readBack :
    ¬ ReadsBack plainReader (taruWriteArchiveMemberHeader gnuWriter none longHardLink)
      (SameMember (memberHdr gnuWriter longHardLink) (memberLink gnuWriter none longHardLink)) := by
  intro hback
  have hkept := (readsBack_gnu_regular gnuLongMode_gnuWriter none
    (show longHardLink.cName.strlen < 510 by decide)
    (show longHardLink.cTarLinkname.strlen < 510 by decide) plainReader
    (show longHardLink.fileType = cpIfreg by decide)).mp hback
  exact absurd hkept.2.2.1 (by decide)

/-- A directory with a path of 200 bytes, of the writer with GNU long names. -/
def longDirectory : FileHdr :=
  { cMode := cpIfdir
    cName := .ofMem (List.replicate 200 97) }

/-- A directory with a long path is found again. -/
theorem longNames_longDirectory :
    longDirectory.cName.strlen < 510 ∧
      ReadsBack plainReader (taruWriteArchiveMemberHeader gnuWriter none longDirectory)
        (SameMember (memberHdr gnuWriter longDirectory)
          (memberLink gnuWriter none longDirectory)) := by
  have hpath : longDirectory.cName.strlen < 510 := by decide +kernel
  have hdir : longDirectory.fileType = cpIfdir := by decide
  refine ⟨hpath, (longNames_iff gnuLongMode_gnuWriter none hpath
    (show longDirectory.cTarLinkname.strlen < 510 by decide) plainReader (.inr (.inl hdir))).mpr ?_⟩
  rw [LongNamesKept]
  simp only [hdir, show ¬ cpIfdir = cpIfreg by decide, if_false, if_true]
  refine ⟨by decide +kernel, ?_, by decide, .inl (by decide +kernel)⟩
  rintro ⟨-, h⟩
  cases h

end Swbis.Taru
