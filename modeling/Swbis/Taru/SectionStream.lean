import Swbis.Misc.Swpath
import Swbis.Taru.CopyOut
import Swbis.Taru.Taruib

/-!
# The two sections of a package

A package is signed by two streams.  `taruib_write_catalog_stream` writes the members
of the catalog, all but the signatures, and `taruib_write_storage_stream` everything
else.  Neither writes a header of its own: the bytes that are read pass through the
taruib buffer, and the buffer is written out, taken back, or turned off.

A header may take the buffer beyond its nominal reserve, for the buffer is not
released while a header is read.  A header of one record always fits.

The adjunct descriptor, the messages and the obsolete version 0 are left out.  A header
goes to the buffer when it has been read, one record at a time.  The null descriptor takes
every write whole; the output takes what its pattern says, in one write each time that the
buffer is written out.
-/

namespace Swbis.Taru

open CLib Swbis.Misc

/-! ## The code -/

/-- The two descriptors of the streams. -/
structure PassFds where
  ofd : Int
  nullfd : Int
  ofd_pos : 0 < ofd
  nullfd_pos : 0 < nullfd
  nullfd_ne : nullfd ≠ ofd

/-- The input, the taruib buffer, and the output. -/
structure Pass where
  ifd : InDes
  tib : Taruib
  ofd : Sink

/-- A read that gives some bytes. -/
def TapeRead.of (pcount : Nat) (bs : Bytes) : TapeRead where
  pcount := pcount
  got := some (bs.take pcount)
  got_le := fun _ h => Option.some.inj h ▸ List.length_take_le pcount bs

/-- The file has data: its type flag is `REGTYPE`. -/
def swvarfsFileHasData (hdr : FileHdr) : Bool := hdr.fileType = cpIfreg

/-- A read of a header: the value returned, the end of the archive, the file header,
and what is left. -/
structure HeaderRead where
  ret : Int
  eoa : Int
  hdr : FileHdr
  pass : Pass

namespace Pass

def setFd (p : Pass) (fd : Int) : Pass := { p with tib := { p.tib with fdM := fd } }

def setOverflowRelease (p : Pass) (i : Int) : Pass :=
  { p with tib := { p.tib with overflowReleaseM := i } }

def setDatalen (p : Pass) (n : Int) : Pass := { p with tib := { p.tib with lenM := n } }

/-- `taruib_unread` -/
def unread (p : Pass) (n : Int) : Pass := { p with tib := p.tib.unread n }

section

variable (fds : PassFds)

/-- How much of `n` bytes the descriptor of the buffer takes in the next write. -/
def accepts (p : Pass) (_ n : Nat) : Int :=
  if p.tib.fdM = fds.ofd then min (p.ofd.pattern.takes p.ofd.writes) n else n

/-- What the buffer has written is with its descriptor. -/
def settle (p : Pass) (tib : Taruib) : Pass :=
  { p with
    tib := { tib with out := [] }
    ofd :=
      if tib.fdM = fds.ofd then
        { p.ofd with
          writes := p.ofd.writes + (tib.writes - p.tib.writes)
          out := p.ofd.out ++ tib.out }
      else p.ofd }

/-- What `taru_tape_buffered_read` does with the buffer. -/
def keep (p : Pass) (pcount : Nat) (bs : Bytes) : Outcome Pass :=
  p.tib.tapeBufferedRead (p.accepts fds) (.of pcount bs) >>= fun r => .returned (p.settle fds r.2)

/-- `taruib_clear_buffer` -/
def clearBuffer (p : Pass) : Outcome (Int × Pass) :=
  p.tib.clearBuffer (p.accepts fds) >>= fun r => .returned (r.1, p.settle fds r.2)

/-- The records of a header go to the buffer. -/
def keepRecords (p : Pass) (bs : Bytes) : Outcome Pass :=
  if 0 < bs.length then
    p.keep fds tarRecordSize (bs.take tarRecordSize) >>= fun p =>
      keepRecords p (bs.drop tarRecordSize)
  else .returned p
termination_by bs.length
decreasing_by
  rw [List.length_drop, tarRecordSize]
  omega

/-- `xformat_read_header`.  Of the bytes that are gone the buffer gets those that the reads
have given. -/
def xformatReadHeader (db : SysDb) (flags : TarFlags) (erange : Bool) (fuel : Nat) (hdr0 : FileHdr)
    (p : Pass) : Outcome HeaderRead :=
  taruReadInTarHeader2 db flags fuel erange hdr0 (.inDes p.ifd) >>= fun r =>
    match r.src with
    | .buffer _ _ _ => .fault
    | .inDes ifd =>
        let used := p.ifd.data.take (p.ifd.data.length - ifd.data.length)
        p.keepRecords fds (delivered (p.ifd.kind = .uxfio) tarRecordSize none used) >>= fun p =>
          .returned ⟨if r.ret < 0 then -1 else r.ret, r.eoa, r.hdr, { p with ifd := ifd }⟩

/-- The next read of a pump, with `written` of `amount` bytes moved. -/
def remains (amount written : Int) : Nat :=
  if 0 ≤ amount ∧ amount - written < 512 then (amount - written).toNat else 512

/-- The loop of `swlib_i_pipe_pump` and of `swlib_i_digs_copy`, with `written` bytes
moved, when the bytes go nowhere. -/
def pump (amount written : Int) (p : Pass) : Outcome (Int × Pass) :=
  let r := taruTapeBufferedRead p.ifd (remains amount written)
  p.keep fds (remains amount written) r.2.1 >>= fun kept =>
    if r.1 = 0 then .returned (written, { kept with ifd := r.2.2 })
    else if written + r.1 < amount ∨ amount < 0 then
      pump amount (written + r.1) { kept with ifd := r.2.2 }
    else .returned (written + r.1, { kept with ifd := r.2.2 })
termination_by p.ifd.data.length
decreasing_by
  next hsome _ =>
    exact tapeReader.length_rest_lt (Int.natCast_pos.mpr (Nat.pos_of_ne_zero hsome))

/-- `taru_read_amount` -/
def taruReadAmount (amount : Int) (p : Pass) : Outcome (Int × Pass) := p.pump fds amount 0

/-- `taru_tape_skip_padding` for the tar formats. -/
def taruTapeSkipPadding (offset : UInt64) (p : Pass) : Outcome Pass :=
  let pad := (512 - offset.toNat % 512) % 512
  if pad ≠ 0 then p.taruReadAmount fds pad >>= fun r => .returned r.2 else .returned p

/-- `taru_write_archive_member_data` to the null descriptor. -/
def writeDataToNull (hdr : FileHdr) (p : Pass) : Outcome (Int × Pass) :=
  let size := hdr.cFilesize.toInt64.toInt
  if hdr.fileType = cpIfreg ∧ hdr.cTarLinkname.strlen = 0 then
    p.pump fds size 0 >>= fun (ret, p) =>
      .returned (if ret ≠ size then -1 else ret + (tapePad hdr.cFilesize.toNat).length, p)
  else .returned (0, p)

/-- `xformat_copy_pass` to the null descriptor. -/
def xformatCopyPass (hdr : FileHdr) (p : Pass) : Outcome (Int × Pass) :=
  p.writeDataToNull fds hdr >>= fun (retval, p) =>
    p.taruTapeSkipPadding fds hdr.cFilesize >>= fun p => .returned (retval, p)

/-- `xformat_copy_pass_file_data` to the null descriptor: the padding goes there too. -/
def xformatCopyPassFileData (hdr : FileHdr) (p : Pass) : Outcome (Int × Pass) :=
  p.xformatCopyPass fds hdr

/-- `xformat_copy_pass2` to the output, with the buffer turned off. -/
def xformatCopyPass2 (o : ByteOrder) (unaligned : Bool) (hdr : FileHdr) (p : Pass) :
    Outcome (Int × Pass) :=
  taruWriteArchiveMemberData o unaligned hdr p.ifd { zeroCopy with ofd := some p.ofd } >>=
    fun (retval, ifd, c) =>
      { p with ifd := ifd, ofd := c.ofd.getD p.ofd }.taruTapeSkipPadding fds hdr.cFilesize >>=
        fun p => .returned (retval, p)

/-- `xformat_is_end_of_archive`: at the end the rest of the input is read, if the
buffer has a descriptor. -/
def xformatIsEndOfArchive (eoa : Int) (p : Pass) : Outcome (Bool × Pass) :=
  if eoa ≠ 0 then
    if p.tib.fdM ≠ 0 then p.taruReadAmount fds (-1) >>= fun r => .returned (true, r.2)
    else .returned (true, p)
  else .returned (false, p)

/-- `taru_pump_amount2 (ofd, ifd, -1, -1)`, with `written` bytes moved.  A write that takes
a part is an error. -/
def pumpRest (written : Int) (p : Pass) : Outcome (Int × Pass) :=
  let r := taruTapeBufferedRead p.ifd 512
  p.keep fds 512 r.2.1 >>= fun kept =>
    if r.1 = 0 then .returned (written, { kept with ifd := r.2.2 })
    else
      let w := kept.ofd.write r.2.1
      if w.1 ≠ r.1 then .returned (-1, { kept with ifd := r.2.2, ofd := w.2 })
      else pumpRest (written + r.1) { kept with ifd := r.2.2, ofd := w.2 }
termination_by p.ifd.data.length
decreasing_by
  next hsome _ =>
    exact tapeReader.length_rest_lt (Int.natCast_pos.mpr (Nat.pos_of_ne_zero hsome))

end

/-- `taru_write_archive_trailer` to the output. -/
def writeTrailer (p : Pass) : Int × Pass :=
  let r := taruWriteArchiveTrailer 512 0 false {} { zeroCopy with ofd := some p.ofd }
  (r.1, { p with ofd := r.2.ofd.getD p.ofd })

end Pass

/-! ### The signature -/

/-- `SWBN_SIGNATURE` -/
def swbnSignature : Bytes := chars ['s', 'i', 'g', 'n', 'a', 't', 'u', 'r', 'e']

/-- `check_signature_name`: whether the name is wrong. -/
def checkSignatureName (sigfilename prevname : Bytes) : Bool :=
  match findSub (slash :: swbnSignature) sigfilename with
  | none => true
  | some i =>
      if i + (slash :: swbnSignature).length ≠ sigfilename.length then true
      else !(sigfilename.take (i + 1)).isPrefixOf prevname

/-- `do_header_safety_checks` without a signature header. -/
def doHeaderSafetyChecks (hdr : FileHdr) (name prevname : Bytes) : Int :=
  if checkSignatureName name prevname then -1
  else if hdr.cMode &&& 0o7000 ≠ 0 then -2
  else if ¬swvarfsFileHasData hdr then -2
  else if hdr.cTarLinkname.strlen ≠ 0 then -3
  else toCInt hdr.cFilesize.toInt64.toInt

/-- The parsed name is that of a signature. -/
def isSignature (swpath : Swpath) : Bool := swpath.basename = swbnSignature ∧ swpath.dfiles ≠ []

/-! ### The catalog -/

section

variable (fds : PassFds) (db : SysDb) (flags : TarFlags) (erange : Bool)

/-- Where the loop of `taruib_write_catalog_stream` ends: `ret`, `retval`, and what is
left. -/
structure CatalogEnd where
  ret : Int
  retval : Int
  pass : Pass

/-- A member of the catalog is copied, or it is a signature and left out: the value to
return early, or `retval` and what is left. -/
def catalogMember (swpath : Swpath) (hdr : FileHdr) (prevname : Bytes) (ret retval : Int)
    (p : Pass) : Outcome (Except Int (Int × Pass)) :=
  if isSignature swpath then
    if doHeaderSafetyChecks hdr hdr.cName.bytes prevname < 0 then .returned (.error (-1))
    else
      (((p.unread ret).setOverflowRelease 0).setFd (-1)).xformatCopyPass fds hdr >>= fun (_, p) =>
        .returned (.ok (toCInt (retval - ret), p.setFd fds.ofd))
  else
    (p.setOverflowRelease 0).xformatCopyPass fds hdr >>= fun (copied, p) =>
      let copyret := toCInt copied
      if copyret < 0 then .returned (.error copyret)
      else if copyret = 0 then
        p.clearBuffer fds >>= fun (cleared, p) =>
          .returned (if cleared < 0 then .error (-1) else .ok (retval, p))
      else .returned (.ok (toCInt (retval + copyret), p))

/-- The loop of `taruib_write_catalog_stream`. -/
def catalogLoop : Nat → FileHdr → Swpath → Bytes → Int → Pass → Outcome (Except Int CatalogEnd)
  | 0, _, _, _, _, _ => .outOfFuel
  | fuel + 1, hdr, swpath, prevname, retval, p =>
      p.xformatReadHeader fds db flags erange (fuel + 1) hdr >>= fun ⟨ret, eoa, hdr, p⟩ =>
        if ret ≤ 0 then .returned (.ok ⟨ret, retval, p⟩)
        else
          let retval := toCInt (retval + ret)
          p.xformatIsEndOfArchive fds eoa >>= fun (atEnd, p) =>
            if atEnd then .returned (.ok ⟨ret, retval, p⟩)
            else
              match swpath.swpathParsePath hdr.cName.bytes with
              | none => .exited 87
              | some (swpath, pathRet) =>
                  if pathRet < 0 then .returned (.error (-1))
                  else if swpath.isCatalog = 1 then
                    catalogMember fds swpath hdr prevname ret retval p >>= fun x =>
                      match x with
                      | .error code => .returned (.error code)
                      | .ok (retval, p) =>
                          catalogLoop fuel hdr swpath hdr.cName.bytes retval
                            (p.setOverflowRelease 1)
                  else if swpath.isCatalog = -1 then
                    (((p.unread ret).setOverflowRelease 0).setFd (-1)).xformatCopyPass fds hdr >>=
                      fun (_, p) =>
                        catalogLoop fuel hdr swpath hdr.cName.bytes (toCInt (retval - ret))
                          ((p.setFd fds.ofd).setOverflowRelease 1)
                  else .returned (.ok ⟨ret, toCInt (retval - ret), p.unread ret⟩)

/-- `taruib_write_catalog_stream`, version 1: the value returned, and what is left
unless it returns early. -/
def taruibWriteCatalogStream (fuel : Nat) (hdr : FileHdr) (p : Pass) :
    Outcome (Int × Option Pass) :=
  catalogLoop fds db flags erange fuel hdr Swpath.swpathOpen [] 0 (p.setFd fds.ofd) >>= fun x =>
    match x with
    | .error code => .returned (code, none)
    | .ok ⟨ret, retval, p⟩ =>
        (if 0 ≤ ret then p.clearBuffer fds else .returned (0, p)) >>= fun (cleared, p) =>
          if cleared < 0 then .returned (-1, none)
          else
            .returned (toCInt (retval + p.writeTrailer.1), some p.writeTrailer.2)

/-! ### The storage -/

variable (o : ByteOrder) (unaligned : Bool)

/-- The loop of `taruib_write_pass_files`: `retval` and what is left. -/
def passFilesLoop : Nat → FileHdr → Int → Pass → Outcome (Int × Pass)
  | 0, _, _, _ => .outOfFuel
  | fuel + 1, hdr, retval, p =>
      p.xformatReadHeader fds db flags erange (fuel + 1) hdr >>= fun ⟨ret, eoa, hdr, p⟩ =>
        if ret ≤ 0 then .returned (retval, p)
        else
          let retval := toCInt (retval + ret)
          p.xformatIsEndOfArchive fds eoa >>= fun (atEnd, p) =>
            if atEnd then .returned (retval, p)
            else
              (p.setFd fds.ofd).clearBuffer fds >>= fun (_, p) =>
                if swvarfsFileHasData hdr then
                  ((p.setFd (-1)).setOverflowRelease 1).xformatCopyPass2 fds o unaligned hdr >>=
                    fun (_, p) =>
                      passFilesLoop fuel hdr retval
                        (((p.setOverflowRelease 0).setDatalen 0).setFd fds.ofd)
                else passFilesLoop fuel hdr retval p

/-- `taruib_write_pass_files` -/
def taruibWritePassFiles (fuel : Nat) (hdr : FileHdr) (p : Pass) : Outcome (Int × Pass) :=
  passFilesLoop fds db flags erange o unaligned fuel hdr 0
      ((p.setOverflowRelease 0).setFd fds.ofd) >>= fun (retval, p) =>
    p.clearBuffer fds >>= fun (_, p) =>
      ((p.setFd (-1)).setOverflowRelease 1).pumpRest fds 0 >>= fun (pumped, p) =>
        let ret := toCInt pumped
        .returned (if ret < 0 then -1 else toCInt (retval + ret), p)

/-- Where the loop of `taruib_write_storage_stream` ends. -/
inductive StorageEnd where
  /-- It returns: there is no storage, or an error. -/
  | done (ret : Int) (pass : Pass)
  /-- The headers are at an end, or the first member of the storage is read. -/
  | storage (retval : Int) (hdr : FileHdr) (pass : Pass)

/-- The loop of `taruib_write_storage_stream`. -/
def storageLoop : Nat → FileHdr → Swpath → Int → Pass → Outcome StorageEnd
  | 0, _, _, _, _ => .outOfFuel
  | fuel + 1, hdr, swpath, retval, p =>
      p.xformatReadHeader fds db flags erange (fuel + 1) hdr >>= fun ⟨ret, eoa, hdr, p⟩ =>
        if ret ≤ 0 then .returned (.storage retval hdr p)
        else
          let retval := toCInt (retval + ret)
          p.xformatIsEndOfArchive fds eoa >>= fun (atEnd, p) =>
            if atEnd then .returned (.done p.writeTrailer.1 p.writeTrailer.2)
            else
              match swpath.swpathParsePath hdr.cName.bytes with
              | none => .exited 87
              | some (swpath, pathRet) =>
                  if pathRet < 0 then .returned (.done (-1) p)
                  else if swpath.isCatalog = 1 then
                    ((p.setOverflowRelease 0).setFd 0).xformatCopyPassFileData fds hdr >>=
                      fun (copied, p) =>
                        let copyret := toCInt copied
                        if copyret < 0 then .returned (.done copyret p)
                        else
                          (p.setFd fds.nullfd).clearBuffer fds >>= fun (_, p) =>
                            storageLoop fuel hdr swpath retval (p.setOverflowRelease 1)
                  else if swpath.isCatalog = -1 then
                    (p.setFd fds.ofd).clearBuffer fds >>= fun (_, p) =>
                      storageLoop fuel hdr swpath retval (p.setOverflowRelease 1)
                  else
                    (p.setFd fds.ofd).clearBuffer fds >>= fun (_, p) =>
                      .returned (.storage ret hdr (p.setFd 0))

/-- `taruib_write_storage_stream`, version 1, without an adjunct descriptor. -/
def taruibWriteStorageStream (fuel : Nat) (hdr : FileHdr) (p : Pass) : Outcome (Int × Pass) :=
  storageLoop fds db flags erange fuel hdr Swpath.swpathOpen 0
      ((p.setFd fds.nullfd).setOverflowRelease 0) >>= fun x =>
    match x with
    | .done ret p => .returned (ret, p)
    | .storage retval hdr p =>
        (if swvarfsFileHasData hdr then p.xformatCopyPass2 fds o unaligned hdr
          else .returned (0, p)) >>= fun (_, p) =>
          taruibWritePassFiles fds db flags erange o unaligned fuel hdr p >>= fun (ret, p) =>
            .returned (if ret < 0 then -100 else toCInt (retval + ret), p)

end

/-! ## The buffer -/

namespace Pass

/-- What is in the buffer. -/
structure Holds (p : Pass) (held : Bytes) : Prop where
  len : p.tib.lenM = held.length
  fits : held.length ≤ taruBufsizRes
  bytes : p.tib.bufferM.bytes.take held.length = held
  written : p.tib.out = []

/-- A step writes `sent` and leaves `held` in the buffer.  It turns nothing on or off. -/
structure Moves (p p' : Pass) (sent held : Bytes) : Prop where
  wrote : Wrote (some p.ofd) (some p'.ofd) sent
  holds : p'.Holds held
  fdM : p'.tib.fdM = p.tib.fdM
  overflowReleaseM : p'.tib.overflowReleaseM = p.tib.overflowReleaseM

section

variable {fds : PassFds} {p p' p'' : Pass} {held held' sent sent' bs : Bytes} {n : Nat}

theorem Holds.moves (h : p.Holds held) : p.Moves p [] held := ⟨.refl _, h, rfl, rfl⟩

theorem Moves.trans (h : p.Moves p' sent held) (h' : p'.Moves p'' sent' held') :
    p.Moves p'' (sent ++ sent') held' where
  wrote := h.wrote.trans h'.wrote
  holds := h'.holds
  fdM := h'.fdM.trans h.fdM
  overflowReleaseM := h'.overflowReleaseM.trans h.overflowReleaseM

/-- Nothing is written of a buffer that has written nothing. -/
theorem settle_self (h : p.tib.out = []) : p.settle fds p.tib = p := by
  obtain ⟨ifd, ⟨release, fd, len, buffer, out, writes⟩, ⟨pattern, count, sent⟩⟩ := p
  cases h
  rw [settle]
  dsimp only
  split
  · rw [List.append_nil, Nat.sub_self, Nat.add_zero]
  · rfl

/-- What the buffer has written in one write is with the output, or gone. -/
theorem settle_wrote (fds : PassFds) (tib : Taruib) (h : p.tib.fdM = tib.fdM) :
    Wrote (some p.ofd) (some (p.settle fds tib).ofd)
      (if p.tib.fdM = fds.ofd then tib.out else []) := by
  rw [settle, h]
  dsimp only
  split
  · exact .some rfl rfl
  · exact .refl _

/-- The descriptor of the buffer takes what the buffer holds. -/
theorem accepts_whole (h : p.tib.fdM = fds.ofd → TakesWhole taruBufsizRes (some p.ofd))
    (hle : n ≤ taruBufsizRes) (k : Nat) : p.accepts fds k n = n := by
  rw [accepts]
  split
  next hfd =>
    have htakes := h hfd p.ofd rfl p.ofd.writes
    omega
  next => rfl

/-- The bytes in the buffer are loaded. -/
theorem Holds.load_eq (h : p.Holds held) :
    load p.tib.bufferM.bytes 0 p.tib.lenM = .returned held := by
  have hload := CLib.load_eq p.tib.bufferM.bytes 0 held.length (by
    rw [p.tib.bufferM.size_eq, Nat.zero_add]
    exact h.fits)
  rw [List.drop_zero, h.bytes, Nat.cast_zero] at hload
  rw [h.len, hload]

/-- The nominal reserve that is left. -/
theorem Holds.reserve_eq (h : p.Holds held) :
    toCInt (taruibGetNominalReserve - held.length) = 8192 - held.length := by
  have hfits := h.fits
  have hsize : taruBufsizRes = 8704 := rfl
  have hreserve : taruibGetNominalReserve = 8192 := rfl
  rw [hreserve]
  exact toCInt_of_range (by omega) (by omega)

/-- Nothing is kept without a descriptor. -/
theorem keep_off (h : p.Holds held) (hfd : p.tib.fdM ≤ 0) (n : Nat) (bs : Bytes) :
    p.keep fds n bs = .returned p := by
  rw [keep, Taruib.tapeBufferedRead, TapeRead.of]
  dsimp only
  rw [if_neg fun hon => absurd hon.1 (Int.not_lt.mpr hfd), Outcome.pure_eq, Outcome.returned_bind,
    settle_self h.written]

/-- Nothing is kept of a read that gives nothing. -/
theorem keep_nil (h : p.Holds held) (n : Nat) : p.keep fds n [] = .returned p := by
  have hread : p.tib.tapeBufferedRead (p.accepts fds) (.of n []) = .returned (0, p.tib) := by
    rw [Taruib.tapeBufferedRead, TapeRead.of]
    simp only [List.take_nil]
    rw [if_neg fun hon => absurd hon.2 (by decide)]
    rfl
  rw [keep, hread, Outcome.returned_bind, settle_self h.written]

/-- A read that goes behind what is in the buffer. -/
theorem keep_append (fds : PassFds) (h : p.Holds held) (hfd : 0 < p.tib.fdM) (hle : bs.length ≤ n)
    (hfits : held.length + n ≤ taruBufsizRes)
    (hroom : p.tib.overflowReleaseM ≠ 0 ∨ held.length + bs.length ≤ 8192) :
    ∃ p', p.keep fds n bs = .returned p' ∧ p.Moves p' [] (held ++ bs) := by
  by_cases hnil : bs = []
  · rw [hnil, List.append_nil, keep_nil h]
    exact ⟨p, rfl, h.moves⟩
  have hpos : 0 < bs.length := List.length_pos_iff.mpr hnil
  have hsize : taruBufsizRes = 8704 := rfl
  have hcount : toCInt (bs.length : Int) = bs.length := toCInt_of_lt (by omega)
  have hpcount : toCInt (n : Int) = n := toCInt_of_lt (by omega)
  have hasked : toCInt ((held.length : Int) + n) = held.length + n :=
    toCInt_of_range (by omega) (by omega)
  have hfilled : toCInt ((held.length : Int) + bs.length) = held.length + bs.length :=
    toCInt_of_range (by omega) (by omega)
  obtain ⟨g, hstore, hbytes⟩ := p.tib.bufferM.store_bytes held.length bs (by omega)
  have hread : p.tib.tapeBufferedRead (p.accepts fds) (.of n bs) = .returned (bs.length,
      { p.tib with lenM := held.length + bs.length, bufferM := g }) := by
    rw [Taruib.tapeBufferedRead, TapeRead.of]
    simp only [List.take_of_length_le hle, hcount, hpcount, hasked, hfilled, h.len, h.reserve_eq,
      Int.toNat_natCast, List.take_length]
    rw [if_pos ⟨hfd, by omega⟩, if_neg, if_neg, hstore, Outcome.returned_bind]
    · rfl
    · rw [taruibGetReserve]
      omega
    · rintro ⟨hover, hoff⟩
      rcases hroom with hon | hroom
      · exact hon hoff
      · omega
  have hsettle : p.settle fds { p.tib with lenM := held.length + bs.length, bufferM := g } =
      { p with tib := { p.tib with lenM := held.length + bs.length, bufferM := g } } :=
    @settle_self fds
      { p with tib := { p.tib with lenM := held.length + bs.length, bufferM := g } } h.written
  have hkeep : p.keep fds n bs = .returned
      { p with tib := { p.tib with lenM := held.length + bs.length, bufferM := g } } := by
    rw [keep, hread, Outcome.returned_bind, hsettle]
  refine ⟨_, hkeep, .refl _, ⟨?_, ?_, ?_, h.written⟩, rfl, rfl⟩
  · rw [List.length_append, Int.natCast_add]
  · rw [List.length_append]
    omega
  · change g.bytes.take (held ++ bs).length = _
    rw [List.length_append, hbytes, take_overwrite_end _ _ _ (by
      rw [p.tib.bufferM.size_eq]
      omega), h.bytes]

/-- A read that the buffer is written out for. -/
theorem keep_flush (h : p.Holds held) (hwhole : TakesWhole taruBufsizRes (some p.ofd))
    (hfd : p.tib.fdM = fds.ofd) (hle : bs.length ≤ n) (hn : bs.length ≤ 512)
    (hoff : p.tib.overflowReleaseM = 0) (hover : 8192 < held.length + bs.length)
    (hpos : 0 < bs.length) :
    ∃ p', p.keep fds n bs = .returned p' ∧ p.Moves p' held bs := by
  have hsize : taruBufsizRes = 8704 := rfl
  have hcount : toCInt (bs.length : Int) = bs.length := toCInt_of_lt (by omega)
  have htakes : p.accepts fds p.tib.writes held.length = held.length :=
    accepts_whole (fun _ => hwhole) h.fits p.tib.writes
  obtain ⟨g, hstore, hbytes⟩ := p.tib.bufferM.store_bytes 0 bs (by omega)
  rw [Nat.cast_zero] at hstore
  have hload := h.load_eq
  rw [h.len] at hload
  have hwritten := h.written
  have hread : p.tib.tapeBufferedRead (p.accepts fds) (.of n bs) = .returned (bs.length,
      { p.tib with lenM := bs.length, bufferM := g, out := held, writes := p.tib.writes + 1 }) := by
    rw [Taruib.tapeBufferedRead, TapeRead.of]
    simp only [List.take_of_length_le hle, hcount, h.len, h.reserve_eq, Int.toNat_natCast,
      List.take_length]
    rw [if_pos ⟨hfd ▸ fds.ofd_pos, by omega⟩, if_pos ⟨by omega, hoff⟩, hload,
      Outcome.returned_bind]
    simp only [Taruib.uxfioWrite, htakes, Int.toNat_natCast, List.take_length, hwritten,
      List.nil_append, hstore, Outcome.returned_bind]
    rfl
  have hkeep : p.keep fds n bs = .returned (p.settle fds
      { p.tib with lenM := bs.length, bufferM := g, out := held, writes := p.tib.writes + 1 }) := by
    rw [keep, hread, Outcome.returned_bind]
  refine ⟨_, hkeep, ?_, ⟨rfl, by omega, ?_, rfl⟩, rfl, rfl⟩
  · have hwrote := @settle_wrote p fds
      { p.tib with lenM := bs.length, bufferM := g, out := held, writes := p.tib.writes + 1 } rfl
    rwa [if_pos hfd] at hwrote
  · have htake := take_overwrite_end p.tib.bufferM.bytes 0 bs (Nat.zero_le _)
    rw [Nat.zero_add, List.take_zero, List.nil_append] at htake
    rw [settle]
    dsimp only
    rw [hbytes, htake]

/-- The buffer is written out. -/
theorem clearBuffer_eq (fds : PassFds) (h : p.Holds held)
    (hwhole : p.tib.fdM = fds.ofd → TakesWhole taruBufsizRes (some p.ofd)) :
    ∃ p', p.clearBuffer fds = .returned (held.length, p') ∧ p'.ifd = p.ifd ∧
      p.Moves p' (if p.tib.fdM = fds.ofd then held else []) [] := by
  have htakes := accepts_whole hwhole h.fits p.tib.writes
  have hclear : p.tib.clearBuffer (p.accepts fds) = .returned (held.length,
      { p.tib with lenM := 0, out := held, writes := p.tib.writes + 1 }) := by
    rw [Taruib.clearBuffer, h.load_eq]
    simp only [Outcome.returned_bind, Taruib.uxfioWrite, htakes, Int.toNat_natCast,
      List.take_length, h.len, h.written, List.nil_append, Int.sub_self]
    rw [if_neg (by omega), if_neg (by decide)]
    rfl
  have hcleared : p.clearBuffer fds = .returned (held.length, p.settle fds
      { p.tib with lenM := 0, out := held, writes := p.tib.writes + 1 }) := by
    rw [clearBuffer, hclear, Outcome.returned_bind]
  exact ⟨_, hcleared, rfl, settle_wrote fds _ rfl, ⟨rfl, Nat.zero_le _, rfl, rfl⟩, rfl, rfl⟩

/-- The end of the buffer is taken back. -/
theorem Holds.unread (h : p.Holds (held ++ bs)) : (p.unread bs.length).Holds held := by
  have hlen := h.len
  have hfits := h.fits
  rw [List.length_append] at hlen hfits
  have hunread : p.tib.unread bs.length = { p.tib with lenM := held.length } := by
    have hback : toCInt ((held.length + bs.length : Nat) - (bs.length : Int)) = held.length := by
      rw [taruBufsizRes] at hfits
      rw [Int.natCast_add, Int.add_sub_cancel]
      exact toCInt_of_lt (by omega)
    rw [Taruib.unread, if_neg (by omega), hlen, hback]
  rw [Pass.unread, hunread]
  refine ⟨rfl, by omega, ?_, h.written⟩
  have hbytes := congrArg (List.take held.length) h.bytes
  rw [List.take_take, List.length_append, Nat.min_eq_left (Nat.le_add_right _ _), List.take_left]
    at hbytes
  exact hbytes

theorem unread_fdM (p : Pass) (n : Int) : (p.unread n).tib.fdM = p.tib.fdM := by
  rw [Pass.unread, Taruib.unread]
  split
  · rfl
  · rfl

/-! ### The ways that bytes are kept -/

/-- A way to keep bytes, up to a number of them: what holds behind the first ones. -/
structure Keeps (fds : PassFds) (limit : Nat) (K : Bytes → Pass → Prop) : Prop where
  keep : ∀ {s p} n bs, K s p → n ≤ 512 → bs.length ≤ n → s.length + n ≤ limit →
    ∃ p', p.keep fds n bs = .returned p' ∧ K (s ++ bs) p'
  ifd : ∀ {s p} ifd, K s p → K s { p with ifd := ifd }

/-- The bytes are gone: there is no descriptor. -/
def Gone (p₀ : Pass) (held _ : Bytes) (p : Pass) : Prop := p₀.Moves p [] held

/-- The bytes are in the buffer behind those that were. -/
def Appended (p₀ : Pass) (held s : Bytes) (p : Pass) : Prop := p₀.Moves p [] (held ++ s)

/-- The bytes follow what is in the buffer, which is written out when it is full. -/
def Passed (p₀ : Pass) (held s : Bytes) (p : Pass) : Prop :=
  ∃ sent held', sent ++ held' = held ++ s ∧ (s ≠ [] → held'.length ≤ 8192) ∧
    (s = [] → held' = held) ∧ p₀.Moves p sent held'

theorem Moves.setIfd (h : p.Moves p' sent held) (ifd : InDes) :
    p.Moves { p' with ifd := ifd } sent held :=
  ⟨h.wrote, ⟨h.holds.len, h.holds.fits, h.holds.bytes, h.holds.written⟩, h.fdM, h.overflowReleaseM⟩

theorem keeps_gone (fds : PassFds) (hfd : p.tib.fdM ≤ 0) (limit : Nat) :
    Keeps fds limit (Gone p held) where
  keep _ _ h _ _ _ := ⟨_, keep_off h.holds (h.fdM ▸ hfd) _ _, h⟩
  ifd ifd h := h.setIfd ifd

theorem keeps_appended (hfd : 0 < p.tib.fdM) {limit : Nat}
    (hfits : held.length + limit ≤ taruBufsizRes)
    (hroom : p.tib.overflowReleaseM ≠ 0 ∨ held.length + limit ≤ 8192) :
    Keeps fds limit (Appended p held) where
  keep {s q} n bs h hn hle hmore := by
    have hlen : (held ++ s).length = held.length + s.length := List.length_append
    have hroom' : q.tib.overflowReleaseM ≠ 0 ∨ (held ++ s).length + bs.length ≤ 8192 := by
      rw [h.overflowReleaseM]
      exact hroom.imp_right fun hroom => by omega
    obtain ⟨q', hkeep, hmoves⟩ := keep_append fds h.holds (h.fdM ▸ hfd) hle (by omega) hroom'
    refine ⟨q', hkeep, ?_⟩
    have hboth := h.trans hmoves
    rwa [List.append_nil, List.append_assoc] at hboth
  ifd ifd h := h.setIfd ifd

theorem keeps_passed (hwhole : TakesWhole taruBufsizRes (some p.ofd)) (hfd : p.tib.fdM = fds.ofd)
    (hoff : p.tib.overflowReleaseM = 0) (limit : Nat) : Keeps fds limit (Passed p held) where
  keep {s q} n bs h hn hle _ := by
    have hsize : taruBufsizRes = 8704 := rfl
    obtain ⟨sent, held', hstream, hshort, hsame, hmoves⟩ := h
    have hfd' := hmoves.fdM.trans hfd
    by_cases hnil : bs = []
    · rw [hnil, List.append_nil]
      exact ⟨q, keep_nil hmoves.holds n, sent, held', hstream, hshort, hsame, hmoves⟩
    have hpos : 0 < bs.length := List.length_pos_iff.mpr hnil
    have hmore : s ++ bs ≠ [] := fun h => hnil (List.append_eq_nil_iff.mp h).2
    by_cases hover : 8192 < held'.length + bs.length
    · obtain ⟨q', hkeep, hmoves'⟩ := keep_flush hmoves.holds (hwhole.wrote hmoves.wrote) hfd' hle
        (by omega) (hmoves.overflowReleaseM.trans hoff) hover hpos
      refine ⟨q', hkeep, sent ++ held', bs, ?_, fun _ => by omega, fun h => absurd h hmore,
        hmoves.trans hmoves'⟩
      rw [hstream, List.append_assoc]
    · obtain ⟨q', hkeep, hmoves'⟩ := keep_append fds hmoves.holds (hfd' ▸ fds.ofd_pos) hle
        (by omega) (.inr (by omega))
      have hboth := hmoves.trans hmoves'
      rw [List.append_nil] at hboth
      refine ⟨q', hkeep, sent, held' ++ bs, ?_, fun _ => ?_, fun h => absurd h hmore, hboth⟩
      · rw [← List.append_assoc, hstream, List.append_assoc]
      · rw [List.length_append]
        omega
  ifd ifd h := by
    obtain ⟨sent, held', hstream, hshort, hsame, hmoves⟩ := h
    exact ⟨sent, held', hstream, hshort, hsame, hmoves.setIfd ifd⟩

/-! ### The reads -/

variable {limit : Nat} {K : Bytes → Pass → Prop} {kind : FdKind} {s data rest padding : Bytes}

/-- The pump moves the bytes that are asked for. -/
theorem Keeps.pump (hK : Keeps fds limit K) {written : Int} (hnonneg : 0 ≤ written) (hs : K s p)
    (hifd : p.ifd = ⟨kind, data ++ rest⟩) (hlimit : s.length + data.length ≤ limit) :
    ∃ p', p.pump fds (written + data.length) written = .returned (written + data.length, p') ∧
      p'.ifd = ⟨kind, rest⟩ ∧ K (s ++ data) p' := by
  induction hlen : data.length using Nat.strong_induction_on generalizing p s data written with
  | _ len ih =>
      obtain ⟨n, hn⟩ : ∃ n, n = min len 512 := ⟨_, rfl⟩
      have hremains : remains (written + len) written = n := by
        rw [remains]
        split
        next hlast => omega
        next hmore => omega
      have htake : (data.take n).length = n := by
        rw [List.length_take]
        omega
      have hread : taruTapeBufferedRead p.ifd n =
          (n, data.take n, ⟨kind, data.drop n ++ rest⟩) := by
        rw [hifd]
        conv => lhs; rw [← List.take_append_drop n data, List.append_assoc]
        exact taruTapeBufferedRead_append htake
      obtain ⟨p₁, hkeep, hK₁⟩ := hK.keep n (data.take n) hs (by omega) (by omega) (by omega)
      rw [Pass.pump]
      rw [hremains, hread, hkeep, Outcome.returned_bind]
      by_cases hzero : n = 0
      · have hnil : data = [] := List.length_eq_zero_iff.mp (by omega)
        rw [if_pos hzero]
        rw [hnil] at hK₁ ⊢
        rw [List.take_nil] at hK₁
        have hlen0 : len = 0 := by omega
        rw [hlen0]
        refine ⟨{ p₁ with ifd := ⟨kind, rest⟩ }, ?_, rfl, hK.ifd _ hK₁⟩
        rw [Nat.cast_zero, Int.add_zero, List.drop_nil, List.nil_append]
      rw [if_neg hzero]
      have hdrop : (data.drop n).length = len - n := by
        rw [List.length_drop, hlen]
      split
      next hagain =>
        obtain ⟨p', hpump, hifd', hK'⟩ := ih (len - n) (by omega)
          (show 0 ≤ written + (n : Int) by omega) (hK.ifd ⟨kind, data.drop n ++ rest⟩ hK₁)
          rfl (by rw [List.length_append]; omega) hdrop
        have hsum : written + n + ((len - n : Nat) : Int) = written + len := by omega
        rw [hsum] at hpump
        rw [List.append_assoc, List.take_append_drop] at hK'
        exact ⟨p', hpump, hifd', hK'⟩
      next hdone =>
        have hall : n = len := by omega
        have hempty : data.drop n = [] := List.drop_of_length_le (by omega)
        rw [List.take_of_length_le (by omega)] at hK₁
        refine ⟨{ p₁ with ifd := ⟨kind, rest⟩ }, ?_, rfl, hK.ifd _ hK₁⟩
        rw [hempty, hall, List.nil_append]

/-- The pump moves what the reads of the whole input give. -/
theorem Keeps.pumpAll (hK : Keeps fds limit K) (written : Int) (hs : K s p)
    (hlimit : s.length + p.ifd.data.length + 512 ≤ limit) :
    ∃ p', p.pump fds (-1) written = .returned (written + (pumpData (-1) p.ifd).length, p') ∧
      p'.ifd = ⟨p.ifd.kind, []⟩ ∧ K (s ++ pumpData (-1) p.ifd) p' := by
  induction hlen : p.ifd.data.length using Nat.strong_induction_on generalizing p s written with
  | _ len ih =>
      have hall (ifd : InDes) : pumpData (-1) ifd =
          delivered (decide (ifd.kind = .uxfio)) 512 none ifd.data :=
        (copied_tapeReader (-1) ifd).symm
      have hremains : remains (-1) written = 512 := if_neg fun h => absurd h.1 (by decide)
      obtain ⟨hret, hbytes, hrest, hkind⟩ := taruTapeBufferedRead_cases p.ifd 512
      obtain ⟨hgot, hgotLe⟩ := length_given_le (decide (p.ifd.kind = .uxfio)) 512 p.ifd.data
      obtain ⟨g, hg⟩ : ∃ g, given (decide (p.ifd.kind = .uxfio)) 512 p.ifd.data = g := ⟨_, rfl⟩
      rw [hg] at hret hbytes hgot hgotLe
      have hifd : (taruTapeBufferedRead p.ifd 512).2.2 = ⟨p.ifd.kind, p.ifd.data.drop 512⟩ := by
        rw [← hrest, ← hkind]
      have hsplit : pumpData (-1) p.ifd =
          g ++ pumpData (-1) ⟨p.ifd.kind, p.ifd.data.drop 512⟩ := by
        rw [hall, hall, ← hg]
        by_cases hfull : 512 ≤ p.ifd.data.length
        · rw [given, if_pos (.inl hfull)]
          exact delivered_full (by decide) hfull fun w hw => absurd hw (Option.not_mem_none w)
        · rw [List.drop_of_length_le (by omega), delivered_nil, List.append_nil]
          exact delivered_short (by omega) (fun w hw => absurd hw (Option.not_mem_none w)) 512
            (by omega)
      obtain ⟨p₁, hkeep, hK₁⟩ := hK.keep 512 g hs (Nat.le_refl _) hgot (by omega)
      have hret' : (taruTapeBufferedRead p.ifd 512).1 = g.length := Int.natCast_inj.mp hret
      rw [Pass.pump]
      rw [hremains, hbytes, hkeep, Outcome.returned_bind, hret', hifd]
      by_cases hzero : g.length = 0
      · have hnil := List.length_eq_zero_iff.mp hzero
        have hend : p.ifd.data.drop 512 = [] := by
          rw [given] at hg
          split at hg
          next hsome =>
            have htake := congrArg List.length hg
            rw [List.length_take] at htake
            exact List.drop_of_length_le (by omega)
          next hnone => exact List.drop_of_length_le (by omega)
        have hempty : pumpData (-1) ⟨p.ifd.kind, []⟩ = [] := by
          rw [hall]
          exact delivered_nil _ _ _
        rw [if_pos hzero, hsplit, hend, hempty, hnil]
        rw [hnil] at hK₁
        refine ⟨{ p₁ with ifd := ⟨p.ifd.kind, []⟩ }, ?_, rfl, hK.ifd _ hK₁⟩
        rw [List.append_nil, List.length_nil, Nat.cast_zero, Int.add_zero]
      rw [if_neg hzero, if_pos (.inr (by decide))]
      have hdrop : (p.ifd.data.drop 512).length = len - 512 := by
        rw [List.length_drop, hlen]
      have hlimit' : (s ++ g).length + (p.ifd.data.drop 512).length + 512 ≤ limit := by
        rw [List.length_append]
        omega
      obtain ⟨p', hpump, hifd', hK'⟩ := ih (len - 512) (by omega) (written + g.length)
        (hK.ifd ⟨p.ifd.kind, p.ifd.data.drop 512⟩ hK₁) hlimit' hdrop
      rw [List.append_assoc, ← hsplit] at hK'
      refine ⟨p', ?_, hifd', hK'⟩
      rw [hpump, hsplit, List.length_append, Int.natCast_add, Int.add_assoc]

/-- The records of a header are kept. -/
theorem Keeps.records (hK : Keeps fds limit K) (hs : K s p) (hwhole : bs.length % 512 = 0)
    (hlimit : s.length + bs.length ≤ limit) :
    ∃ p', p.keepRecords fds bs = .returned p' ∧ K (s ++ bs) p' := by
  induction hlen : bs.length using Nat.strong_induction_on generalizing p s bs with
  | _ len ih =>
      rw [keepRecords]
      by_cases hpos : 0 < bs.length
      · have htake : (bs.take tarRecordSize).length = 512 := by
          rw [List.length_take, tarRecordSize]
          omega
        have hdrop : (bs.drop tarRecordSize).length = len - 512 := by
          rw [List.length_drop, tarRecordSize, hlen]
        obtain ⟨p₁, hkeep, hK₁⟩ := hK.keep tarRecordSize (bs.take tarRecordSize) hs
          (Nat.le_refl 512) (Nat.le_of_eq htake) (by rw [tarRecordSize]; omega)
        rw [if_pos hpos, hkeep, Outcome.returned_bind]
        obtain ⟨p', hrecords, hK'⟩ := ih (len - 512) (by omega) hK₁ (by omega)
          (by rw [List.length_append]; omega) hdrop
        rw [List.append_assoc, List.take_append_drop] at hK'
        exact ⟨p', hrecords, hK'⟩
      · have hnil := List.length_eq_zero_iff.mp (Nat.eq_zero_of_not_pos hpos)
        rw [if_neg hpos, hnil, List.append_nil]
        exact ⟨p, rfl, hs⟩

/-! ### Members -/

/-- A file header says how long the data and their padding are. -/
structure Announces (hdr : FileHdr) (data padding : Bytes) : Prop where
  size : hdr.cFilesize.toNat = data.length
  regular : data ≠ [] → hdr.fileType = cpIfreg ∧ hdr.cTarLinkname.strlen = 0
  padding : padding.length = (tapePad data.length).length
  lt : data.length < 2 ^ 63

theorem Announces.length_padding {hdr : FileHdr} (h : Announces hdr data padding) :
    padding.length = (512 - data.length % 512) % 512 := h.padding.trans List.length_replicate

/-- A member that has no data has no padding. -/
theorem Announces.padding_nil {hdr : FileHdr} (h : Announces hdr data padding) (hnil : data = []) :
    padding = [] := by
  have hlen := h.length_padding
  rw [hnil] at hlen
  exact List.length_eq_zero_iff.mp hlen

/-- A file that is not regular has no data. -/
theorem Announces.data_nil {hdr : FileHdr} (h : Announces hdr data padding)
    (hhas : ¬swvarfsFileHasData hdr) : data = [] := by
  by_contra hsome
  exact hhas (decide_eq_true (h.regular hsome).1)

/-- The padding is skipped. -/
theorem Keeps.skipPadding {hdr : FileHdr} (hK : Keeps fds limit K) (h : Announces hdr data padding)
    (hs : K s p) (hifd : p.ifd = ⟨kind, padding ++ rest⟩)
    (hlimit : s.length + padding.length ≤ limit) :
    ∃ p', p.taruTapeSkipPadding fds hdr.cFilesize = .returned p' ∧ p'.ifd = ⟨kind, rest⟩ ∧
      K (s ++ padding) p' := by
  have hpad : (512 - hdr.cFilesize.toNat % 512) % 512 = padding.length := by
    rw [h.size, h.length_padding]
  rw [taruTapeSkipPadding, hpad]
  split
  next hsome =>
    obtain ⟨p', hpump, hifd', hK'⟩ := hK.pump (Int.le_refl 0) hs hifd hlimit
    rw [Int.zero_add] at hpump
    exact ⟨p', by rw [taruReadAmount, hpump, Outcome.returned_bind], hifd', hK'⟩
  next hnone =>
    have hnil : padding = [] := List.length_eq_zero_iff.mp (Decidable.not_not.mp hnone)
    rw [hnil, List.nil_append] at hifd
    rw [hnil, List.append_nil]
    exact ⟨p, rfl, hifd, hs⟩

/-- The data and the padding are read, and go nowhere but to the buffer. -/
theorem Keeps.copyPass {hdr : FileHdr} (hK : Keeps fds limit K) (h : Announces hdr data padding)
    (hs : K s p) (hifd : p.ifd = ⟨kind, data ++ (padding ++ rest)⟩)
    (hlimit : s.length + (data ++ padding).length ≤ limit) :
    ∃ p', p.xformatCopyPass fds hdr = .returned ((padded data).length, p') ∧
      p'.ifd = ⟨kind, rest⟩ ∧ K (s ++ (data ++ padding)) p' := by
  have hlt := h.lt
  rw [List.length_append] at hlimit
  have hsize : hdr.cFilesize.toInt64.toInt = data.length := by
    rw [← h.size]
    change hdr.cFilesize.toBitVec.toInt = hdr.cFilesize.toBitVec.toNat
    rw [BitVec.toInt_eq_toNat_of_lt]
    have hnat := h.size
    change 2 * hdr.cFilesize.toNat < _
    omega
  have hdata : ∃ p₁, p.writeDataToNull fds hdr = .returned ((padded data).length, p₁) ∧
      p₁.ifd = ⟨kind, padding ++ rest⟩ ∧ K (s ++ data) p₁ := by
    rw [writeDataToNull]
    dsimp only
    split
    next hreg =>
      obtain ⟨p₁, hpump, hifd₁, hK₁⟩ := hK.pump (Int.le_refl 0) hs hifd (by omega)
      rw [Int.zero_add] at hpump
      refine ⟨p₁, ?_, hifd₁, hK₁⟩
      rw [hsize, hpump, Outcome.returned_bind]
      dsimp only
      rw [if_neg (fun h => h rfl), h.size, padded, List.length_append, Int.natCast_add]
    next hnone =>
      have hnil : data = [] := by
        by_contra hsome
        exact hnone (h.regular hsome)
      rw [hnil, List.nil_append] at hifd
      rw [hnil, List.append_nil]
      exact ⟨p, rfl, hifd, hs⟩
  obtain ⟨p₁, hwritten, hifd₁, hK₁⟩ := hdata
  obtain ⟨p', hpadding, hifd', hK'⟩ := hK.skipPadding h hK₁ hifd₁ (by
    rw [List.length_append]
    omega)
  rw [List.append_assoc] at hK'
  refine ⟨p', ?_, hifd', hK'⟩
  rw [xformatCopyPass, hwritten, Outcome.returned_bind]
  dsimp only
  rw [hpadding, Outcome.returned_bind]

end

end Pass

/-- Two file headers are of one name, type and size. -/
structure FileHdr.Alike (a b : FileHdr) : Prop where
  cName : a.cName = b.cName
  cMode : a.cMode = b.cMode
  cFilesize : a.cFilesize = b.cFilesize
  cTarLinkname : a.cTarLinkname = b.cTarLinkname

theorem FileHdr.Alike.fileType {a b : FileHdr} (h : a.Alike b) : a.fileType = b.fileType := by
  rw [FileHdr.fileType, FileHdr.fileType, h.cMode]

/-- A member of the input: the records of its header, what they say, the data and the
padding behind them. -/
structure Entry where
  header : Bytes
  hdr : FileHdr
  data : Bytes
  padding : Bytes

namespace Entry

/-- The bytes of a member. -/
def bytes (e : Entry) : Bytes := e.header ++ (e.data ++ e.padding)

/-- The bytes of a member as they are written anew: the padding is NULs. -/
def anew (e : Entry) : Bytes := e.header ++ padded e.data

/-- The header is read as what it says, whatever was read before. -/
structure Reads (db : SysDb) (flags : TarFlags) (erange : Bool) (e : Entry) : Prop where
  whole : e.header.length % 512 = 0
  pos : 0 < e.header.length
  read : ∀ (kind : FdKind) (rest : Bytes) (hdr0 : FileHdr) (fuel : Nat),
    e.header.length ≤ 512 * fuel → ∃ hdr : FileHdr, hdr.Alike e.hdr ∧
      taruReadInTarHeader2 db flags fuel erange hdr0 (.inDes ⟨kind, e.header ++ rest⟩) =
        .returned ⟨e.header.length, 0, hdr, .inDes ⟨kind, rest⟩⟩
  announces : Pass.Announces e.hdr e.data e.padding

end Entry

theorem Pass.Announces.alike {a b : FileHdr} {data padding : Bytes} (h : a.Alike b)
    (hb : Pass.Announces b data padding) : Pass.Announces a data padding where
  size := by rw [h.cFilesize, hb.size]
  regular hsome := by
    rw [h.fileType, h.cTarLinkname]
    exact hb.regular hsome
  padding := hb.padding
  lt := hb.lt

theorem doHeaderSafetyChecks_alike {a b : FileHdr} (h : a.Alike b) (name prevname : Bytes) :
    doHeaderSafetyChecks a name prevname = doHeaderSafetyChecks b name prevname := by
  rw [doHeaderSafetyChecks, doHeaderSafetyChecks, swvarfsFileHasData, swvarfsFileHasData, h.cMode,
    h.fileType, h.cFilesize, h.cTarLinkname]

section

variable {fds : PassFds} {db : SysDb} {flags : TarFlags} {erange : Bool} {limit : Nat}
  {K : Bytes → Pass → Prop} {p : Pass} {e : Entry} {kind : FdKind} {rest : Bytes} {fuel : Nat}

/-- A header is read, and its records are kept. -/
theorem Pass.Keeps.header (hK : Pass.Keeps fds limit K) (h : e.Reads db flags erange)
    (hs : K [] p) (hifd : p.ifd = ⟨kind, e.header ++ rest⟩)
    (hfuel : e.header.length ≤ 512 * fuel) (hlimit : e.header.length ≤ limit) (hdr0 : FileHdr) :
    ∃ (hdr : FileHdr) (p' : Pass), hdr.Alike e.hdr ∧
      p.xformatReadHeader fds db flags erange fuel hdr0 =
        .returned ⟨e.header.length, 0, hdr, p'⟩ ∧
      p'.ifd = ⟨kind, rest⟩ ∧ K e.header p' := by
  obtain ⟨hdr, halike, hread⟩ := h.read kind rest hdr0 fuel hfuel
  obtain ⟨p₁, hrecords, hK₁⟩ := hK.records hs h.whole (by
    rw [List.length_nil, Nat.zero_add]
    exact hlimit)
  rw [List.nil_append] at hK₁
  refine ⟨hdr, { p₁ with ifd := ⟨kind, rest⟩ }, halike, ?_, rfl, hK.ifd _ hK₁⟩
  have hused : (e.header ++ rest).take ((e.header ++ rest).length - rest.length) = e.header := by
    rw [List.length_append, Nat.add_sub_cancel, List.take_left]
  rw [Pass.xformatReadHeader, hifd, hread, Outcome.returned_bind]
  dsimp only
  rw [hused, delivered_whole (show e.header.length % tarRecordSize = 0 from h.whole), hrecords,
    Outcome.returned_bind, if_neg (by omega)]

/-- The trailer of the stream is written. -/
theorem Pass.writeTrailer_whole (h : TakesWhole taruBufsizRes (some p.ofd)) :
    p.writeTrailer.1 = 1024 ∧ p.writeTrailer.2.ifd = p.ifd ∧
      Wrote (some p.ofd) (some p.writeTrailer.2.ofd) trailerBytes := by
  obtain ⟨hret, hwrote⟩ := @taruWriteArchiveTrailer_whole { zeroCopy with ofd := some p.ofd }
    (h.mono (by decide)) rfl
  obtain ⟨s, hs⟩ := Option.isSome_iff_exists.mp hwrote.isSome_eq
  rw [hs] at hwrote
  refine ⟨hret, rfl, ?_⟩
  rw [Pass.writeTrailer]
  dsimp only
  rw [hs]
  exact hwrote

end

theorem isEndOfArchive_zero (fds : PassFds) (p : Pass) :
    p.xformatIsEndOfArchive fds 0 = .returned (false, p) := rfl

/-! ### The members of a package -/

/-- The names of members are parsed one after the other.  Each member is with the state
behind its name. -/
inductive Parsed : Swpath → List (Entry × Swpath) → Prop where
  | nil {swpath : Swpath} : Parsed swpath []
  | cons {swpath swpath' : Swpath} {e : Entry} {ret : Int} {ms : List (Entry × Swpath)} :
      swpath.swpathParsePath e.hdr.cName.bytes = some (swpath', ret) → 0 ≤ ret →
      Parsed swpath' ms → Parsed swpath ((e, swpath') :: ms)

/-- The member is of the catalog, or it is a leading directory. -/
def BeforeStorage (m : Entry × Swpath) : Prop := m.2.isCatalog = 1 ∨ m.2.isCatalog = -1

/-- The last of some members is parsed behind the others. -/
theorem parsed_append {ms : List (Entry × Swpath)} {e : Entry} {swpath swpath' : Swpath}
    (h : Parsed swpath (ms ++ [(e, swpath')])) :
    Parsed swpath ms ∧ ∃ ret, 0 ≤ ret ∧
      ((ms.map Prod.snd).getLastD swpath).swpathParsePath e.hdr.cName.bytes =
        some (swpath', ret) := by
  induction ms generalizing swpath with
  | nil =>
      cases h with
      | @cons _ _ _ ret _ hparse hret _ => exact ⟨.nil, ret, hret, hparse⟩
  | cons m ms ih =>
      cases h with
      | cons hparse hret hrest =>
          obtain ⟨hms, hlast⟩ := ih hrest
          rw [List.map_cons, List.getLastD_cons]
          exact ⟨.cons hparse hret hms, hlast⟩

theorem out_of_wrote {s s' : Sink} {bs : Bytes} (h : Wrote (some s) (some s') bs) :
    s'.out = s.out ++ bs := by
  cases h with
  | some hpat hout => exact hout

/-! ## Members that the writer has made -/

/-- What is read of the header of a member, as far as it matters here. -/
def Member.readHdr (env : WriteEnv) (m : Member) : FileHdr where
  cName := uNameBuffer (recordOf env m.hdr) env.flags
  cMode := (recordOf env m.hdr).cMode
  cFilesize := sizeRead (recordOf env m.hdr)
  cTarLinkname := linkRead (recordOf env m.hdr)

/-- A member as it stands in an archive. -/
def Member.entry (env : WriteEnv) (m : Member) : Entry where
  header := (taruWriteArchiveMemberHeader env none m.hdr).out
  hdr := m.readHdr env
  data := m.data
  padding := tapePad m.data.length

/-- A settled member has a header of one record, and that is read as what it says. -/
theorem Member.Settled.entry_reads {env : WriteEnv} {m : Member} (h : m.Settled env)
    (flags : TarFlags) (erange : Bool) :
    (m.entry env).Reads env.db flags erange ∧ (m.entry env).header.length = tarRecordSize := by
  have hlink := h.plain.strlen_link_le
  rw [← (recordOf_fields env m.hdr).2.1] at hlink
  have hrec := recorded_recordOf h.recorded
  obtain ⟨t, hok⟩ := h.kept.exists_record hrec hlink
  obtain ⟨f, w⟩ := writtenFor_of_ok hok
  have hheader : (m.entry env).header = t.bytes := by
    obtain ⟨linkrecord', hwritten⟩ := h.plain.written (findLink_none env) h.recorded hok
    rw [Member.entry, hwritten]
  have hplain := ((h.kept.typeWrite hrec hlink w).read).1
  have hagain (hdr0 : FileHdr) (chksum : UInt64) : ReadAgain env (recordOf env m.hdr)
      (setFromTarHeader env.db flags (t.bytes ++ [])
        { beginHeader hdr0 with cChksum := chksum }) :=
    h.kept.readAgain hrec hlink w flags [] _ rfl rfl
  have hsize : (sizeRead (recordOf env m.hdr)).toNat = m.data.length := by
    rw [← (hagain {} 0).size, (hagain {} 0).toNat_cFilesize h.plain h.recorded, h.length_data]
  have hlen : (m.entry env).header.length = tarRecordSize := by
    rw [hheader, t.length_bytes]
  refine ⟨⟨by rw [hlen]; rfl, by rw [hlen]; decide, fun kind rest hdr0 fuel hfuel => ?_,
    ⟨hsize, fun hsome => ?_, rfl, ?_⟩⟩, hlen⟩
  · have hrecord : tarRecordSize = 512 := rfl
    obtain ⟨n, rfl⟩ : ∃ n, fuel = n + 1 := ⟨fuel - 1, by omega⟩
    obtain ⟨chksum, hread⟩ := @taruReadInTarHeader2_record env.db flags _ _ _ _ _ _ w hplain
      ⟨kind, t.bytes ++ rest⟩ rest rfl erange hdr0
    have hsame := hagain hdr0 chksum
    rw [hlen, hheader]
    exact ⟨_, ⟨hsame.name, hsame.mode, hsame.size, hsame.link⟩, hread n⟩
  · have hreg : m.hdr.fileType = cpIfreg ∧ m.hdr.cTarLinkname.strlen = 0 := by
      by_contra hnone
      have hzero := h.length_data
      rw [dataSize, if_neg hnone] at hzero
      exact hsome (List.length_eq_zero_iff.mp hzero)
    obtain ⟨htype, hlinkname, -⟩ := recordOf_fields env m.hdr
    have hregular : (recordOf env m.hdr).fileType = cpIfreg := htype.trans hreg.1
    refine ⟨hregular, ?_⟩
    change (linkRead (recordOf env m.hdr)).strlen = 0
    rw [linkRead, if_pos (.inl hregular), hlinkname]
    exact hreg.2
  · change m.data.length < 2 ^ 63
    have hle := sizeRead_le (recordOf env m.hdr)
    rw [hsize] at hle
    exact Nat.lt_of_le_of_lt hle (by decide)

/-! ### A package -/

/-- A file of the catalog. -/
def infoMember : Member where
  hdr := {
    cName := ⟨literal "d/catalog/dfiles/INFO", by decide⟩
    cMode := 0o644 ||| cpIfreg
    cFilesize := 2 }
  data := [4, 5]

/-- The signature. -/
def signatureMember : Member where
  hdr := {
    cName := ⟨literal "d/catalog/dfiles/signature", by decide⟩
    cMode := 0o644 ||| cpIfreg
    cFilesize := 1 }
  data := [6]

theorem settled_infoMember : infoMember.Settled ustarWriter.ofTaru where
  plain := ⟨by decide, by decide, rfl⟩
  recorded := by decide
  kept := {
    named := by decide
    held := ⟨by decide, .inl (by decide)⟩
    mark := fun h => absurd h (by decide)
    mode := by decide
    user := ownerHeld_unnamed (by decide)
    group := ownerHeld_unnamed (by decide)
    mtime := by decide
    rdevMaj := by decide
    rdevMin := by decide }
  length_data := by decide

theorem settled_signatureMember : signatureMember.Settled ustarWriter.ofTaru where
  plain := ⟨by decide, by decide, rfl⟩
  recorded := by decide
  kept := {
    named := by decide
    held := ⟨by decide, .inl (by decide)⟩
    mark := fun h => absurd h (by decide)
    mode := by decide
    user := ownerHeld_unnamed (by decide)
    group := ownerHeld_unnamed (by decide)
    mtime := by decide
    rdevMaj := by decide
    rdevMin := by decide }
  length_data := by decide

/-- The state behind a name. -/
def behind (swpath : Swpath) (m : Member) : Swpath :=
  ((swpath.swpathParsePath m.hdr.cName.bytes).map Prod.fst).getD swpath

/-- The states behind the names of the package. -/
def leadingState : Swpath := behind Swpath.swpathOpen directoryMember

def infoState : Swpath := behind leadingState infoMember

def signatureState : Swpath := behind infoState signatureMember

def storageState : Swpath := behind signatureState fileMember

/-- A member of the package. -/
def packaged (m : Member) : Entry := m.entry ustarWriter.ofTaru

/-- The members before the storage. -/
def packageStart : List (Entry × Swpath) :=
  [(packaged directoryMember, leadingState), (packaged infoMember, infoState),
    (packaged signatureMember, signatureState)]

theorem parsed_package : Parsed Swpath.swpathOpen
    (packageStart ++ [(packaged fileMember, storageState)]) := by
  have h₁ : Swpath.swpathOpen.swpathParsePath (packaged directoryMember).hdr.cName.bytes =
      some (leadingState, 0) := by decide
  have h₂ : leadingState.swpathParsePath (packaged infoMember).hdr.cName.bytes =
      some (infoState, 0) := by decide
  have h₃ : infoState.swpathParsePath (packaged signatureMember).hdr.cName.bytes =
      some (signatureState, 0) := by decide
  have h₄ : signatureState.swpathParsePath (packaged fileMember).hdr.cName.bytes =
      some (storageState, 0) := by decide
  exact .cons h₁ (Int.le_refl 0) (.cons h₂ (Int.le_refl 0) (.cons h₃ (Int.le_refl 0)
    (.cons h₄ (Int.le_refl 0) .nil)))

theorem mem_package {m : Entry × Swpath}
    (hm : m ∈ packageStart ++ [(packaged fileMember, storageState)]) :
    ∃ mem : Member, mem.Settled ustarWriter.ofTaru ∧ m.1 = packaged mem := by
  rcases List.mem_append.mp hm with hstart | hlast
  · simp only [packageStart, List.mem_cons, List.not_mem_nil, or_false] at hstart
    obtain rfl | rfl | rfl := hstart
    · exact ⟨_, settled_directoryMember, rfl⟩
    · exact ⟨_, settled_infoMember, rfl⟩
    · exact ⟨_, settled_signatureMember, rfl⟩
  · rw [List.mem_singleton] at hlast
    subst hlast
    exact ⟨_, settled_fileMember, rfl⟩

theorem reads_package (flags : TarFlags) (erange : Bool) {m : Entry × Swpath}
    (hm : m ∈ packageStart ++ [(packaged fileMember, storageState)]) :
    m.1.Reads .blank flags erange ∧ m.1.header.length = tarRecordSize := by
  obtain ⟨mem, hsettled, heq⟩ := mem_package hm
  rw [heq]
  exact hsettled.entry_reads flags erange

theorem before_package {m : Entry × Swpath} (hm : m ∈ packageStart) : BeforeStorage m := by
  simp only [packageStart, List.mem_cons, List.not_mem_nil, or_false] at hm
  obtain rfl | rfl | rfl := hm
  · exact .inr (by decide)
  · exact .inl (by decide)
  · exact .inl (by decide)

theorem storage_package : ¬BeforeStorage (packaged fileMember, storageState) := by
  rintro (hcat | hdir)
  · exact absurd hcat (by decide)
  · exact absurd hdir (by decide)

/-- The descriptors of a run. -/
def outAndNull : PassFds where
  ofd := 4
  nullfd := 5
  ofd_pos := by decide
  nullfd_pos := by decide
  nullfd_ne := by decide

/-- A stream at its start. -/
def passOf (data : Bytes) : Pass where
  ifd := ⟨.unix, data⟩
  tib := .opened 0 (-1) (.zero _)
  ofd := wholeWrites

theorem passOf_data (data : Bytes) : (passOf data).ifd.data = data := rfl

theorem holds_passOf (data : Bytes) : (passOf data).Holds [] := ⟨rfl, Nat.zero_le _, rfl, rfl⟩

theorem length_packaged {m : Member} (h : m.Settled ustarWriter.ofTaru) :
    (packaged m).bytes.length = 512 + (m.data.length + (512 - m.data.length % 512) % 512) := by
  obtain ⟨-, hone⟩ := h.entry_reads {} false
  have hpad : (m.entry ustarWriter.ofTaru).padding.length = (512 - m.data.length % 512) % 512 :=
    List.length_replicate
  rw [Entry.bytes, packaged, List.length_append, hone, List.length_append, hpad]
  rfl

theorem length_packageStart : (packageStart.flatMap fun m => m.1.bytes).length = 2560 := by
  have h₁ := length_packaged settled_directoryMember
  have h₂ := length_packaged settled_infoMember
  have h₃ := length_packaged settled_signatureMember
  simp only [packageStart, List.flatMap_cons, List.flatMap_nil, List.append_nil,
    List.length_append, h₁, h₂, h₃]
  decide

end Swbis.Taru
