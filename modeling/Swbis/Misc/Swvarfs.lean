import Swbis.Misc.SwvarfsName
import Swbis.Lib.Strtol
import Swbis.Taru.Cpio

/-!
# An archive as a file system

`SWVARFS` gives access to the members of an archive by name, and in the order in
which they stand.  All of it goes through one descriptor: the headers are read
where it stands, and so are the data of an open member.

What is read of an archive is a header at some offset, and bytes.  An `Archive`
says what `taru_read_header` makes of the file at every offset, also where no
header is.  The offset of a link in the file chain is an `int`, and so is the
position that `swvarfs_u_close` computes with.

Only archives that can seek are modelled, so `check_seek_violation` finds nothing.
The descriptors of open members are known by their place in `u_fd_setM`.
-/

namespace Swbis.Misc

open CLib Swbis.Taru Swbis.Taru.Cpio

/-! ## The archive -/

/-- The formats the header reader knows. -/
inductive StreamFormat where
  /-- `arf_tar` and `arf_ustar` -/
  | tar
  | cpio (format : CpioFormat)
deriving DecidableEq

/-- The `pad` of `taru_tape_skip_padding`. -/
def StreamFormat.pad (format : StreamFormat) (offset : Nat) : Nat :=
  match format with
  | .tar => (512 - offset % 512) % 512
  | .cpio format => cpioPad format offset

/-- What a call of `taru_read_header` does. -/
structure HeaderRead where
  ret : Int
  /-- What it stores through `eoa`, if it does. -/
  eoa : Option Int
  hdr : FileHdr
  /-- Where the descriptor stands afterwards. -/
  next : Nat

/-- An archive file that can seek. -/
structure Archive where
  format : StreamFormat
  /-- `has_leading_slashM` -/
  hasLeadingSlash : Bool
  fnmatch : Bytes → Bytes → Bool
  data : Bytes
  /-- `taru_read_header` at an offset of the file, with what the file header held
  before. -/
  taruReadHeader : FileHdr → Nat → Outcome HeaderRead

/-- Where reading `n` bytes leaves the descriptor. -/
def Archive.afterRead (a : Archive) (pos n : Nat) : Nat := max pos (min (pos + n) a.data.length)

/-! ## The state -/

/-- `struct fileChain` -/
structure FileChain where
  nameFC : Bytes
  headerOffsetFC : Int
deriving DecidableEq

/-- The descriptor of an open member. -/
structure UFd where
  /-- `v_endM`: the size of the member. -/
  vEnd : Nat
  /-- `bytesreadM` -/
  bytesread : Nat
deriving DecidableEq

/-- `SWVARFS` -/
structure Swvarfs where
  /-- Where `fdM` stands. -/
  pos : Nat := 0
  /-- `ahs_vfile_hdr (ahsM)` -/
  hdr : FileHdr := {}
  uFdSet : List (Option UFd) := [none, none, none, none]
  uCurrentName : Option Bytes := none
  didUOpen : Int := -1
  /-- The links from `headM` to `tailM`. -/
  filechain : List FileChain := []
  currentFilechain : Option FileChain := none
  currentDataOffset : Int := -1
  eoa : Int := 0
  makefilechain : Bool := false
  dirscope : Bytes := []

namespace Swvarfs

/-- `ud_find_fd (-1)` -/
def udFindFree (sv : Swvarfs) : Option Nat := sv.uFdSet.findIdx? (·.isNone)

/-- The member that is open under a descriptor. -/
def uFd (sv : Swvarfs) (fd : Nat) : Option UFd := (sv.uFdSet[fd]?).join

/-- `uxfio_lseek (fdM, offset, SEEK_SET)` -/
def seekSet (sv : Swvarfs) (offset : Int) : Swvarfs :=
  if 0 ≤ offset then { sv with pos := offset.toNat } else sv

/-- `u_reject` -/
def uReject (sv : Swvarfs) : Swvarfs := { sv with uCurrentName := none, currentFilechain := none }

/-- `swvarfs_i_attach_filechain` -/
def attach (sv : Swvarfs) (link : FileChain) : Swvarfs :=
  { sv with filechain := sv.filechain ++ [link] }

/-- `swvarfs_file_has_data`, and the tests for `CP_IFREG`. -/
def fileHasData (sv : Swvarfs) : Bool := sv.hdr.fileType == cpIfreg

/-- `taru_read_header`; `peoa` says whether it is given `&eoaM`. -/
def readHeader (a : Archive) (peoa : Bool) (sv : Swvarfs) : Outcome (Int × Swvarfs) := do
  let r ← a.taruReadHeader sv.hdr sv.pos
  return (r.ret, { sv with
    hdr := r.hdr
    pos := r.next
    eoa := if peoa then r.eoa.getD sv.eoa else sv.eoa })

/-- `taru_tape_skip_padding`, behind the data of the current header. -/
def skipPadding (a : Archive) (sv : Swvarfs) : Swvarfs :=
  { sv with pos := a.afterRead sv.pos (a.format.pad sv.hdr.cFilesize.toNat) }

/-- `swvarfs_get_next_dirent_archive_NEW`, after it has opened the file that was
returned last: the name, and the header left to be read again. -/
def nextHeader (a : Archive) (sv : Swvarfs) : Outcome (Option Bytes × Swvarfs) := do
  let oldPos := sv.pos
  let (ret, sv) ← readHeader a true sv
  if ret < 0 then return (none, sv)
  else if sv.eoa ≠ 0 then return (none, sv)
  else
    let name := sv.hdr.cName.bytes
    let sv := { sv with currentDataOffset := sv.pos, pos := oldPos }
    if isNameInScope a.fnmatch sv.dirscope name then
      return (some name, { sv with uCurrentName := some name, didUOpen := 0 })
    else return (none, sv.uReject)

/-! ## The file chain -/

/-- `swvarfs_i_make_link` -/
def makeLink (hdr : FileHdr) (headerOffset : Nat) : FileChain where
  nameFC := (swlibProcessHexEscapes (.ofMem (swlibSlashclean hdr.cName.bytes))).bytes
  headerOffsetFC := toCInt headerOffset

/-- What a search of the file chain finds. -/
inductive Search where
  | found (link : FileChain)
  /-- The member is there, but it is out of scope. -/
  | rejected
  | missing

/-- What the search compares the links with, the name as it is left by the links
before. -/
def soughtName (name : Bytes) : Bytes := if name = dotSlash then [dot] else dropDotSlash name

/-- The loop of `swvarfs_i_search_filechain`. -/
def searchLoop (a : Archive) (dirscope name : Bytes) : List FileChain → Outcome Search
  | [] => .returned .missing
  | last :: rest =>
      if name = [] then .fault
      else
        let name := soughtName name
        let n := handleLeadingSlash a.hasLeadingSlash (handleTrailingSlash name)
        if n = dropDotSlash last.nameFC then
          .returned (if isNameInScope a.fnmatch dirscope n then .found last else .rejected)
        else searchLoop a dirscope name rest

/-- `swvarfs_i_search_filechain` -/
def searchFilechain (a : Archive) (sv : Swvarfs) (name : Bytes) : Outcome Search :=
  searchLoop a sv.dirscope (swlibProcessHexEscapes (.ofMem name)).bytes sv.filechain

/-- Read past the data of the member whose header was read, with
`taru_write_archive_member_data`.  A hard link has no data there. -/
def dumpData (a : Archive) (sv : Swvarfs) : Bool × Swvarfs :=
  if sv.fileHasData then
    let n := if sv.hdr.cTarLinkname.strlen = 0 then sv.hdr.cFilesize.toNat else 0
    let sv' := { sv with pos := a.afterRead sv.pos n }
    if sv'.pos = sv.pos + n then (true, skipPadding a sv') else (false, sv')
  else (true, sv)

/-- The loop of `swvarfs_i_readin_filechain`: the link of the member that was
sought, and the name as `do_stop_reading` leaves it. -/
def readinLoop (a : Archive) : Nat → Bytes → Swvarfs → Outcome (Option FileChain × Bytes × Swvarfs)
  | 0, _, _ => .outOfFuel
  | fuel + 1, name, sv => do
      let headerOffset := sv.pos
      let (ret, sv) ← readHeader a false sv
      if ret < 0 then return (none, name, sv)
      else
        let sv := { sv with currentDataOffset := toCInt sv.pos }
        if sv.hdr.cName = cpioInbandEoaFilename then return (none, name, sv)
        else
          let (ok, sv) := dumpData a sv
          if ok then
            let link := makeLink sv.hdr headerOffset
            let sv := sv.attach link
            let (stop, name) ← doStopReading a.hasLeadingSlash sv.hdr.cName.bytes name
            if stop then return (some link, name, sv) else readinLoop a fuel name sv
          else return (none, name, sv)

/-- `swvarfs_i_readin_filechain` -/
def readinFilechain (a : Archive) (fuel : Nat) (name : Bytes) (sv : Swvarfs) :
    Outcome (Option FileChain × Bytes × Swvarfs) :=
  match sv.filechain.getLast? with
  | none => readinLoop a fuel name { sv with pos := 0 }
  | some last => do
      let (ret, sv) ← readHeader a false (sv.seekSet last.headerOffsetFC)
      if ret < 0 then return (none, name, sv)
      else
        let (ok, sv) := dumpData a { sv with currentDataOffset := sv.pos }
        if ok then readinLoop a fuel name sv else return (none, name, sv)

/-! ## Opening -/

/-- The first part of `swvarfs_i_u_open_archive_seek_to_name`: the current name,
and the link if the name has been looked up and found; nothing if it is out of
scope. -/
def findCurrent (a : Archive) (sv : Swvarfs) (name : Bytes) :
    Outcome (Option (Option Bytes × Option FileChain × Swvarfs)) :=
  match sv.uCurrentName with
  | some current => .returned (some (some current, none, sv))
  | none => do
      match ← searchFilechain a sv name with
      | .found link =>
          return some (some link.nameFC, some link, { sv with currentFilechain := some link })
      | .rejected => return none
      | .missing =>
          let (current, sv) ← nextHeader a { sv with eoa := 0 }
          return some (current, none, sv)

/-- The test for the case of a traversal in order. -/
def isInOrder (name : Bytes) (current : Option Bytes) (existing : Option FileChain) :
    Outcome Bool :=
  match current with
  | none => .returned false
  | some current => do return (← filenameDoesMatch name current) && existing.isNone

/-- The case of a traversal in order: the descriptor stands where it should. -/
def enterInOrder (a : Archive) (sv : Swvarfs) (current : Option Bytes) : Int × Swvarfs :=
  if isNameInScope a.fnmatch sv.dirscope (current.getD []) then
    (0, { sv with currentFilechain := none })
  else (-1, sv.uReject)

/-- Seek to the header a link stands for. -/
def seekToLink (sv : Swvarfs) (link : FileChain) : Int × Swvarfs :=
  let sv := { sv with currentFilechain := some link }
  if 0 ≤ link.headerOffsetFC then (0, sv.seekSet link.headerOffsetFC) else (-2, sv.uReject)

/-- The other case: find the member in the file chain, or read it in. -/
def seekToMember (a : Archive) (fuel : Nat) (sv : Swvarfs) (name : Bytes) :
    Outcome (Int × Swvarfs) := do
  match ← searchFilechain a sv name with
  | .found link => return seekToLink sv link
  | _ =>
      match ← readinFilechain a fuel name sv with
      | (none, _, sv) => return (-1, sv.uReject)
      | (some link, name, sv) =>
          if isNameInScope a.fnmatch sv.dirscope name then return seekToLink sv link
          else return (-1, sv.uReject)

/-- The last part of `swvarfs_i_u_open_archive_seek_to_name`: read the header. -/
def enterHeader (a : Archive) (sv : Swvarfs) : Outcome (Int × Swvarfs) := do
  let headerOffset := sv.pos
  let (ret, sv) ← readHeader a true sv
  if ret < 0 then return (-3, { sv with uCurrentName := none })
  else
    let sv := { sv with currentDataOffset := sv.pos }
    if sv.makefilechain ∧ sv.currentFilechain = none then
      let link := makeLink sv.hdr headerOffset
      return (0, { sv.attach link with currentFilechain := some link })
    else return (0, sv)

/-- `swvarfs_i_u_open_archive_seek_to_name` -/
def seekToName (a : Archive) (fuel : Nat) (sv : Swvarfs) (name : Bytes) :
    Outcome (Int × Swvarfs) := do
  match ← findCurrent a sv name with
  | none => return (-1, sv.uReject)
  | some (current, existing, sv) =>
      let inOrder ← isInOrder name current existing
      let (ret, sv) ← if inOrder then pure (enterInOrder a sv current) else seekToMember a fuel sv name
      if ret = 0 then enterHeader a sv else return (ret, sv)

/-- `swvarfs_i_u_open_archive_bh`, with a place for the descriptor. -/
def openBh (sv : Swvarfs) (fd : Nat) : Swvarfs :=
  { sv with
    uCurrentName := if sv.hdr.cName.strlen = 0 then none else some sv.hdr.cName.bytes
    uFdSet := sv.uFdSet.set fd (some { vEnd := sv.hdr.cFilesize.toNat, bytesread := 0 }) }

/-- `swvarfs_u_open`: the descriptor, or a negative code. -/
def uOpen (a : Archive) (fuel : Nat) (sv : Swvarfs) (name : Bytes) : Outcome (Int × Swvarfs) :=
  match sv.udFindFree with
  | none => .returned (-1, sv)
  | some fd => do
      let (ret, sv) ← seekToName a fuel { sv with didUOpen := 1 } name
      if ret ≠ 0 then return (ret, sv)
      else if sv.eoa ≠ 0 then return (-1, sv)
      else return (fd, sv.openBh fd)

/-! ## Reading and closing -/

/-- `uxfio_read` from the descriptor of an open member. -/
def uRead (a : Archive) (sv : Swvarfs) (fd n : Nat) : Bytes × Swvarfs :=
  match sv.uFd fd with
  | none => ([], sv)
  | some u =>
      let bs := (a.data.drop sv.pos).take (min n (u.vEnd - u.bytesread))
      (bs, { sv with
        pos := sv.pos + bs.length
        uFdSet := sv.uFdSet.set fd (some { u with bytesread := u.bytesread + bs.length }) })

/-- The seek to the end of the member in `swvarfs_u_close`.  It is a seek by what
has not been read, from where the archive's descriptor stands. -/
def seekEnd (sv : Swvarfs) (u : UFd) : Swvarfs :=
  if sv.hdr.fileType = cpIflnk then sv else { sv with pos := sv.pos + (u.vEnd - u.bytesread) }

/-- The step over what stands behind the data in `swvarfs_u_close`. -/
def leaveMember (a : Archive) (sv : Swvarfs) : Swvarfs :=
  if sv.fileHasData then skipPadding a sv
  else sv.seekSet (sv.pos + (sv.currentDataOffset - toCInt sv.pos))

/-- `swvarfs_u_close` -/
def uClose (a : Archive) (sv : Swvarfs) (fd : Nat) : Int × Swvarfs :=
  match sv.uFd fd with
  | none => (-1, sv)
  | some u =>
      let sv := leaveMember a (sv.seekEnd u)
      (0, { sv with uCurrentName := none, uFdSet := sv.uFdSet.set fd none })

/-- `swvarfs_i_u_lstat_archive` -/
def uLstat (a : Archive) (fuel : Nat) (sv : Swvarfs) (path : Bytes) : Outcome (Int × Swvarfs) := do
  let (fd, sv) ← uOpen a fuel sv path
  if fd < 0 then return (-3, sv)
  else
    let sv := if sv.fileHasData then (uRead a sv fd.toNat a.data.length).2 else sv
    return (0, (uClose a sv fd.toNat).2)

/-! ## Directories -/

/-- `swvarfs_get_next_dirent` -/
def getNextDirent (a : Archive) (fuel : Nat) (sv : Swvarfs) : Outcome (Option Bytes × Swvarfs) := do
  let sv := { sv with eoa := 0 }
  match sv.uCurrentName with
  | none => nextHeader a sv
  | some current =>
      if sv.didUOpen = 0 then
        let (_, sv) ← uLstat a fuel sv current
        nextHeader a sv
      else nextHeader a sv

/-- `swvarfs_setdir`; no path is the empty one. -/
def setdir (a : Archive) (fuel : Nat) (sv : Swvarfs) (path : Bytes) : Outcome (Int × Swvarfs) :=
  if path = [] then .returned (0, { sv with dirscope := [] })
  else if swlibResolvePath path < 0 then .returned (-1, sv)
  else
    let sv := { sv with makefilechain := true, currentFilechain := none, pos := 0 }
    if path = [dot] ∨ path = dotSlash then .returned (0, sv)
    else do
      let (ret, sv) ← uLstat a fuel sv path
      if ret ≠ 0 then return (-5, sv)
      else
        match sv.currentFilechain with
        | none => return (-6, sv)
        | some existing =>
            if 0 ≤ existing.headerOffsetFC - (sv.pos : Int) then return (-8, sv)
            else if existing.headerOffsetFC < 0 then return (-9, sv)
            else
              return (0, { sv.seekSet existing.headerOffsetFC with
                filechain := []
                dirscope := setDirscope path })

end Swvarfs

end Swbis.Misc
