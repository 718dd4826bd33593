import Swbis.Misc.SwvarfsOrder
import Swbis.Taru.MemberRead

/-!
# Tar files as archives

`tarArchive` is the archive that the tar header reader makes of the bytes of a
file.  A record that the writer has made stands there as the header of a member
(`headerAt_of_written`), and NULs stand there as the trailer (`trailerAt_of_nuls`).

A `TarMember` is a member with its bytes, and a file of such members reads as they
stand (`stands_members`).  Directories and regular files are two kinds of them.
-/

namespace Swbis.Misc

open CLib Swbis.Taru

/-- What a tar file is read with. -/
structure TarEnv where
  db : SysDb
  flags : TarFlags
  /-- `errno` is `ERANGE`. -/
  erange : Bool
  kind : FdKind
  fnmatch : Bytes → Bytes → Bool

/-- The bytes a source still delivers. -/
def remaining : Taru.Source → Bytes
  | .inDes fd => fd.data
  | .buffer _ _ _ => []

/-- A file that is read by `taru_read_in_tar_header2`. -/
def tarArchive (env : TarEnv) (data : Bytes) : Archive where
  format := .tar
  hasLeadingSlash := false
  fnmatch := env.fnmatch
  data := data
  taruReadHeader prev off := do
    let r ← taruReadInTarHeader2 env.db env.flags (data.length + 1) env.erange prev
      (.inDes ⟨env.kind, data.drop off⟩)
    return {
      ret := r.ret
      eoa := some r.eoa
      hdr := r.hdr
      next := off + ((data.drop off).length - (remaining r.src).length) }

variable {env : TarEnv} {data rest : Bytes} {off : Nat}

/-- A header read from the file. -/
theorem tarArchive_read {prev : FileHdr} {r : ReadHeader}
    (h : taruReadInTarHeader2 env.db env.flags (data.length + 1) env.erange prev
      (.inDes ⟨env.kind, data.drop off⟩) = .returned r) :
    (tarArchive env data).taruReadHeader prev off = .returned {
      ret := r.ret
      eoa := some r.eoa
      hdr := r.hdr
      next := off + ((data.drop off).length - (remaining r.src).length) } := by
  rw [tarArchive]
  simp only [h]
  rfl

/-! ## Headers -/

/-- Without extended headers there is nothing to override. -/
theorem overrideUstar_of_noMask {erange : Bool} {hdr : FileHdr}
    (h : hdr.extHeaderUsageMask = .zero) : overrideUstar erange hdr = hdr := if_pos h

/-- A written record is the header of a member, if the member is what is read
from it. -/
theorem headerAt_of_written {h : TarHeader} {db : SysDb} {hdr : FileHdr}
    {username groupname : CString} {flags : TarFlags} {t : TypeFields} {m : ArcMember}
    (w : h.WrittenFor db hdr username groupname flags t)
    (htype : isExtHeaderType t.typeflag = false) (hdrop : data.drop off = h.bytes ++ rest)
    (hlen : m.headerLen = tarRecordSize)
    (hm : ∀ cur, cur.extHeaderUsageMask = .zero → cur.cTarLinkname = .empty →
      m.Reads (setFromTarHeader env.db env.flags (h.bytes ++ []) cur)) :
    HeaderAt (tarArchive env data) off m := by
  intro prev
  have hfetch := fetch_record env.kind rest h.length_bytes w.nullBlock_eq 0 [] 0
    (by rw [w.typeflagAt_eq, htype])
  have hread : taruReadInTarHeader2 env.db env.flags (data.length + 1) env.erange prev
      (.inDes ⟨env.kind, data.drop off⟩) = .returned ⟨tarRecordSize + 0, 0,
        setFromTarHeader env.db env.flags (h.bytes ++ [])
          { beginHeader prev with cChksum := taruOtoul ((h.bytes ++ []).drop 148) },
        .inDes ⟨env.kind, rest⟩⟩ := by
    rw [taruReadInTarHeader2, iTaruReadInTarHeader2, hdrop, hfetch]
    simp only [Outcome.returned_bind, readInRecord_ok env.db env.flags _ (w.chksumOk_append [])]
    rw [overrideUstar_of_noMask rfl]
    rfl
  have hret : (0 : Int) ≤ tarRecordSize + 0 := by decide
  refine ⟨_, tarArchive_read hread, hret, rfl, ?_, hm _ rfl rfl⟩
  simp only [hdrop, remaining, List.length_append, h.length_bytes, hlen, Nat.add_sub_cancel]

/-! ## The trailer -/

/-- Reading from a run of NULs. -/
theorem taruTapeBufferedRead_nuls (kind : FdKind) {n : Nat} (h : tarRecordSize ≤ n) :
    taruTapeBufferedRead ⟨kind, List.replicate n 0⟩ tarRecordSize =
      (tarRecordSize, List.replicate tarRecordSize 0,
        ⟨kind, List.replicate (n - tarRecordSize) 0⟩) := by
  rw [taruTapeBufferedRead]
  simp only [List.length_replicate]
  rw [if_pos h, List.take_replicate, List.drop_replicate, Nat.min_eq_left h]

theorem nullBlock_nuls (n : Nat) : nullBlock (List.replicate n 0) = true := by
  rw [nullBlock, List.all_eq_true]
  intro x hx
  rw [List.eq_of_mem_replicate hx]
  rfl

/-- A record of NULs, and what follows it. -/
theorem fetch_nuls (kind : FdKind) {n : Nat} (h : tarRecordSize ≤ n) :
    fetch { src := .inDes ⟨kind, List.replicate n 0⟩ } =
      .returned (fetchTrailer (.inDes ⟨kind, List.replicate (n - tarRecordSize) 0⟩)) := by
  rw [fetch, readRecord, taruTapeBufferedRead_nuls kind h]
  simp only [Outcome.returned_bind, nullBlock_nuls, if_true, Outcome.pure_eq]
  rfl

/-- What is read where nothing but NULs is left: nothing, or the end of an
archive. -/
theorem fetch_nuls_cases (kind : FdKind) (n : Nat) :
    ∃ f, fetch { src := .inDes ⟨kind, List.replicate n 0⟩ } = .returned f ∧
      ((∃ ret src, f = .ends ret src) ∨ ∃ ret src, f = .trailer ret src ∧ ret ≠ 0) := by
  by_cases h : tarRecordSize ≤ n
  · obtain ⟨ret, src, heq, hret⟩ :=
      fetchTrailer_eq (.inDes ⟨kind, List.replicate (n - tarRecordSize) 0⟩)
    exact ⟨_, fetch_nuls kind h, .inr ⟨ret, src, heq, by omega⟩⟩
  · have hshort : ∃ count src, readRecord (.inDes ⟨kind, List.replicate n 0⟩) 0 =
        .returned (count, src) ∧ count ≠ tarRecordSize := by
      rw [readRecord, taruTapeBufferedRead, if_neg (by rwa [List.length_replicate])]
      cases kind with
      | unix => exact ⟨_, _, rfl, by decide⟩
      | uxfio => exact ⟨_, _, rfl, by rw [List.length_replicate]; omega⟩
    obtain ⟨count, src, hread, hcount⟩ := hshort
    rw [fetch, hread, Outcome.returned_bind]
    simp only [Outcome.pure_eq]
    by_cases h0 : count = 0
    · rw [if_pos h0]
      exact ⟨_, rfl, .inl ⟨_, _, rfl⟩⟩
    · rw [if_neg h0, if_pos hcount]
      exact ⟨_, rfl, .inl ⟨_, _, rfl⟩⟩

/-- Two records of NULs are the trailer, when there is nothing but NULs behind
them. -/
theorem trailerAt_of_nuls {n : Nat} (hn : 2 * tarRecordSize ≤ n)
    (hdrop : data.drop off = List.replicate n 0) : TarTrailerAt (tarArchive env data) off := by
  have htwo : tarRecordSize ≤ n - tarRecordSize := by omega
  have hfetch : fetch { src := .inDes ⟨env.kind, data.drop off⟩ } = .returned (.trailer 1024
      (.inDes ⟨env.kind, List.replicate (n - tarRecordSize - tarRecordSize) 0⟩)) := by
    rw [hdrop, fetch_nuls env.kind (by omega), fetchTrailer, taruTapeBufferedRead_nuls env.kind htwo]
    simp only [nullBlock_nuls, and_self, if_true]
  have hread (prev : FileHdr) : taruReadInTarHeader2 env.db env.flags (data.length + 1) env.erange
      prev (.inDes ⟨env.kind, data.drop off⟩) = .returned ⟨1024, 1024,
        { beginHeader prev with cName := cpioInbandEoaFilename },
        .inDes ⟨env.kind, List.replicate (n - tarRecordSize - tarRecordSize) 0⟩⟩ := by
    rw [taruReadInTarHeader2, iTaruReadInTarHeader2, hfetch, Outcome.returned_bind]
    rfl
  refine ⟨fun prev => ?_, fun prev r hr => ?_, fun prev => ?_⟩
  · have hret : (0 : Int) ≤ 1024 := by decide
    exact ⟨_, 1024, tarArchive_read (hread prev), hret, rfl, by decide, rfl⟩
  · rw [tarArchive_read (hread prev)] at hr
    cases hr
    simp only [hdrop, remaining, List.length_replicate]
    omega
  · have hrest : data.drop (off + 2 * tarRecordSize) = List.replicate (n - 2 * tarRecordSize) 0 := by
      rw [← List.drop_drop, hdrop, List.drop_replicate]
    obtain ⟨f, hf, hcases⟩ := fetch_nuls_cases env.kind (n - 2 * tarRecordSize)
    rw [← hrest] at hf
    rcases hcases with ⟨ret, src, rfl⟩ | ⟨ret, src, rfl, hne⟩
    · have hread : taruReadInTarHeader2 env.db env.flags (data.length + 1) env.erange prev
          (.inDes ⟨env.kind, data.drop (off + 2 * tarRecordSize)⟩) =
            .returned ⟨ret, 0, beginHeader prev, src⟩ := by
        rw [taruReadInTarHeader2, iTaruReadInTarHeader2, hf, Outcome.returned_bind]
        rfl
      exact ⟨_, tarArchive_read hread, .inr (.inr rfl)⟩
    · have hread : taruReadInTarHeader2 env.db env.flags (data.length + 1) env.erange prev
          (.inDes ⟨env.kind, data.drop (off + 2 * tarRecordSize)⟩) =
            .returned ⟨ret, ret, { beginHeader prev with cName := cpioInbandEoaFilename }, src⟩ := by
        rw [taruReadInTarHeader2, iTaruReadInTarHeader2, hf, Outcome.returned_bind]
        rfl
      exact ⟨_, tarArchive_read hread, .inr (.inl hne)⟩

/-! ## Tar files of members -/

/-- A member with its bytes: wherever they stand in a tar file, its header is
found. -/
structure TarMember (env : TarEnv) where
  member : ArcMember
  bytes : Bytes
  length_bytes : bytes.length = member.extent .tar
  headerAt : ∀ {data rest : Bytes} {off : Nat}, data.drop off = bytes ++ rest →
    HeaderAt (tarArchive env data) off member

/-- A tar file of members. -/
def membersTar (ps : List (TarMember env)) : Bytes :=
  ps.flatMap (·.bytes) ++ List.replicate (2 * tarRecordSize) 0

/-- The members and the trailer stand in it one after another. -/
theorem stands_members (ps : List (TarMember env)) (hdrop : data.drop off = membersTar ps) :
    Stands (tarArchive env data) (TarTrailerAt (tarArchive env data)) off (ps.map (·.member)) := by
  induction ps generalizing off with
  | nil => exact trailerAt_of_nuls (Nat.le_refl _) hdrop
  | cons p ps ih =>
      rw [membersTar, List.flatMap_cons, List.append_assoc] at hdrop
      have hnext : data.drop (off + p.member.extent .tar) = membersTar ps := by
        rw [← List.drop_drop, hdrop, List.drop_left' p.length_bytes]
        rfl
      have hlen := congrArg List.length hdrop
      rw [List.length_drop, List.length_append, p.length_bytes] at hlen
      have hpos := p.member.extent_pos .tar
      refine ⟨p.headerAt hdrop, ?_, ih hnext⟩
      change off + p.member.extent .tar ≤ data.length
      omega

/-- A record is written for a name that fits the name field and gets no slash. -/
theorem exists_written {hdr : FileHdr} (hnamed : hdr.cName.bytes ≠ [])
    (hname : uNameBuffer hdr {} = hdr.cName) (hshort : hdr.cName.strlen ≤ tarNameSize)
    (htype : TypeAccepted hdr {}) :
    ∃ h, taruWriteOutTarHeader2 .blank hdr .empty .empty {} = .ok h := by
  have hlen : hdr.cName.strlen ≠ 0 := fun hzero => hnamed (List.length_eq_zero_iff.mp hzero)
  have haccept : NameAccepted (uNameBuffer hdr {}) := by
    rw [hname]
    exact nameAccepted_of_le (Nat.le_succ_of_le hshort)
  exact taruWriteOutTarHeader2_ok hlen haccept htype

/-! ## Directories -/

/-- The file header of a directory. -/
def directoryHdr (name : CString) : FileHdr := { cName := name, cMode := cpIfdir }

theorem fileType_directoryHdr (name : CString) : (directoryHdr name).fileType = cpIfdir := by
  have hmode : cpIfdir &&& cpIfmt = cpIfdir := by decide
  exact hmode

/-- The name of a directory that the writer accepts and the reader finds again. -/
structure DirectoryName where
  name : CString
  slash : name.bytes.getLast? = some slash
  short : name.strlen ≤ tarNameSize
  stored : storedName (swlibProcessHexEscapes name) = name
  notTrailer : name ≠ cpioInbandEoaFilename

namespace DirectoryName

theorem bytes_ne_nil (d : DirectoryName) : d.name.bytes ≠ [] := by
  intro h
  have hslash := d.slash
  rw [h] at hslash
  cases hslash

/-- A slash is not added to a name that has one. -/
theorem uNameBuffer_eq (d : DirectoryName) : uNameBuffer (directoryHdr d.name) {} = d.name := by
  rw [uNameBuffer, if_neg]
  · rfl
  · exact fun h => h.2.1 d.slash

/-- The member that is read. -/
def member (d : DirectoryName) : ArcMember where
  name := d.name.bytes
  fileType := cpIfdir
  size := 0
  headerLen := tarRecordSize
  named := d.bytes_ne_nil
  notTrailer h := d.notTrailer (CString.ext h)
  sized := .inl rfl
  headerLen_pos := by decide

/-- Its record. -/
def record (d : DirectoryName) : Bytes :=
  match taruWriteOutTarHeader2 .blank (directoryHdr d.name) .empty .empty {} with
  | .ok h => h.bytes
  | .error _ => []

theorem record_eq (d : DirectoryName) :
    ∃ h, taruWriteOutTarHeader2 .blank (directoryHdr d.name) .empty .empty {} = .ok h ∧
      d.record = h.bytes := by
  obtain ⟨h, hok⟩ := @exists_written (directoryHdr d.name) d.bytes_ne_nil d.uNameBuffer_eq
    d.short ⟨_, typeFields_directory (fileType_directoryHdr d.name)⟩
  exact ⟨h, hok, by rw [record, hok]⟩

/-- The record of a directory is its header. -/
theorem headerAt_record (d : DirectoryName) (hdrop : data.drop off = d.record ++ rest) :
    HeaderAt (tarArchive env data) off d.member := by
  have hdir := fileType_directoryHdr d.name
  obtain ⟨h, hok, hrecord⟩ := d.record_eq
  rw [hrecord] at hdrop
  obtain ⟨t, w⟩ := writtenFor_of_ok hok
  have ht := w.typeFields
  rw [typeFields_directory hdir] at ht
  refine headerAt_of_written w (by cases ht; rfl) hdrop rfl fun cur hmask _ => ?_
  have hf := fieldsRead_directory w hdir env.db env.flags [] cur
  refine ⟨?_, hf.fileType, by rw [hf.size]; rfl, fun _ => if_neg (by decide : ¬ cpIfdir = cpIfreg)⟩
  rw [w.cName_read, hmask, d.uNameBuffer_eq, d.stored]
  rfl

theorem length_record (d : DirectoryName) : d.record.length = d.member.extent .tar := by
  obtain ⟨h, -, hrecord⟩ := d.record_eq
  have hno : d.member.dataLen = 0 := if_neg (by decide : ¬ cpIfdir = cpIfreg)
  rw [hrecord, h.length_bytes, ArcMember.extent, hno, StreamFormat.pad_zero]
  rfl

/-- A directory in a tar file. -/
def tarMember (d : DirectoryName) : TarMember env :=
  ⟨d.member, d.record, d.length_record, d.headerAt_record⟩

end DirectoryName

/-- A tar file of directories. -/
def directoriesTar (ds : List DirectoryName) : Bytes :=
  ds.flatMap (·.record) ++ List.replicate (2 * tarRecordSize) 0

/-- The directories and the trailer stand in it one after another. -/
theorem stands_directories {ds : List DirectoryName} (hdrop : data.drop off = directoriesTar ds) :
    Stands (tarArchive env data) (TarTrailerAt (tarArchive env data)) off (ds.map (·.member)) := by
  have hmembers : data.drop off = membersTar (ds.map fun d => (d.tarMember : TarMember env)) := by
    rw [hdrop, membersTar, List.flatMap_map]
    rfl
  have hstands := stands_members _ hmembers
  rwa [List.map_map] at hstands

/-! ## Regular files -/

/-- A regular file: a name that the writer accepts and the reader finds again, and data of a
length that fits the size field. -/
structure RegularFile where
  name : CString
  data : Bytes
  named : name.bytes ≠ []
  short : name.strlen ≤ tarNameSize
  stored : storedName (swlibProcessHexEscapes name) = name
  notTrailer : name ≠ cpioInbandEoaFilename
  small : data.length ≤ tarMaxSize

namespace RegularFile

/-- Its file header. -/
def hdr (f : RegularFile) : FileHdr :=
  { cName := f.name, cMode := cpIfreg, cFilesize := UInt64.ofNat f.data.length }

theorem fileType_hdr (f : RegularFile) : f.hdr.fileType = cpIfreg := by
  have hmode : cpIfreg &&& cpIfmt = cpIfreg := by decide
  exact hmode

theorem uNameBuffer_eq (f : RegularFile) : uNameBuffer f.hdr {} = f.name := by
  rw [uNameBuffer, if_neg]
  · rfl
  · rw [f.fileType_hdr]
    exact fun h => absurd h.1 (by decide)

/-- The member that is read. -/
def member (f : RegularFile) : ArcMember where
  name := f.name.bytes
  fileType := cpIfreg
  size := f.data.length
  headerLen := tarRecordSize
  named := f.named
  notTrailer h := f.notTrailer (CString.ext h)
  sized := .inr (.inl rfl)
  headerLen_pos := by decide

/-- Its record. -/
def record (f : RegularFile) : Bytes :=
  match taruWriteOutTarHeader2 .blank f.hdr .empty .empty {} with
  | .ok h => h.bytes
  | .error _ => []

/-- Its record, its data and NULs up to a whole record. -/
def bytes (f : RegularFile) : Bytes :=
  f.record ++ f.data ++ List.replicate (StreamFormat.tar.pad f.data.length) 0

theorem record_eq (f : RegularFile) :
    ∃ h, taruWriteOutTarHeader2 .blank f.hdr .empty .empty {} = .ok h ∧ f.record = h.bytes := by
  obtain ⟨h, hok⟩ := @exists_written f.hdr f.named f.uNameBuffer_eq f.short
    ⟨_, typeFields_regular f.fileType_hdr rfl⟩
  exact ⟨h, hok, by rw [record, hok]⟩

/-- The record of a file is its header. -/
theorem headerAt_bytes (f : RegularFile) (hdrop : data.drop off = f.bytes ++ rest) :
    HeaderAt (tarArchive env data) off f.member := by
  obtain ⟨h, hok, hrecord⟩ := f.record_eq
  rw [bytes, hrecord, List.append_assoc, List.append_assoc] at hdrop
  obtain ⟨t, w⟩ := writtenFor_of_ok hok
  have ht := w.typeFields
  rw [typeFields_regular f.fileType_hdr rfl] at ht
  refine headerAt_of_written w (by cases ht; rfl) hdrop rfl fun cur hmask hlink => ?_
  have hf := fieldsRead_regular w f.fileType_hdr rfl env.db env.flags [] cur
  have hsize : (UInt64.ofNat f.data.length).toNat = f.data.length :=
    UInt64.toNat_ofNat_of_lt (Nat.lt_of_le_of_lt f.small (by decide))
  refine ⟨?_, hf.fileType, ?_, fun hne => absurd ?_ hne⟩
  · rw [w.cName_read, hmask, f.uNameBuffer_eq, f.stored]
    rfl
  · have hsmall : f.hdr.cFilesize.toNat ≤ tarMaxSize := hsize.trans_le f.small
    rw [hf.size, if_pos hsmall]
    exact hsize
  · rw [hf.link, hlink]
    rfl

theorem length_bytes (f : RegularFile) : f.bytes.length = f.member.extent .tar := by
  obtain ⟨h, -, hrecord⟩ := f.record_eq
  have hdata : f.member.dataLen = f.data.length := if_pos rfl
  rw [bytes, List.length_append, List.length_append, List.length_replicate, hrecord,
    h.length_bytes, ArcMember.extent, hdata]
  rfl

/-- A regular file in a tar file. -/
def tarMember (f : RegularFile) : TarMember env :=
  ⟨f.member, f.bytes, f.length_bytes, f.headerAt_bytes⟩

end RegularFile

end Swbis.Misc
