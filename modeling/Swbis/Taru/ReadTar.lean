import Swbis.Taru.WriteTar
import Swbis.Taru.ExtHeader

/-!
# Reading a tar header

`taru_read_in_tar_header2` reads a record from a descriptor or from a memory
buffer.  If the record announces extended header data it reads the data, moves
them into the file header and calls itself for the record behind them.

`fetch` reads one record and, if it announces data, the data; it does not look
at the file header.  `applyExtHeader` moves extended header data into the file
header and `setFromTarHeader` the fields of the last record.
`iTaruReadInTarHeader2` puts these together.

The read buffer of the source always receives the record at its start.  What
stands behind the record in memory is the data of the first extended header, if
there was one, and a NUL; a field without a terminator reads on into it.
-/

namespace Swbis.Taru

open CLib

/-! ## Where the bytes come from -/

/-- The two kinds of descriptors: at the end of input one answers a read that
cannot be filled with zero, the other with the number of bytes there were. -/
inductive FdKind where
  | unix
  | uxfio
deriving DecidableEq

/-- An input descriptor and the bytes it still delivers. -/
structure InDes where
  kind : FdKind
  data : Bytes
deriving DecidableEq

/-- `taru_tape_buffered_read`: the return value, the bytes read, and the
descriptor afterwards. -/
def taruTapeBufferedRead (fd : InDes) (pcount : Nat) : Nat × Bytes × InDes :=
  if pcount ≤ fd.data.length then
    (pcount, fd.data.take pcount, { fd with data := fd.data.drop pcount })
  else
    match fd.kind with
    | .unix => (0, [], { fd with data := [] })
    | .uxfio => (fd.data.length, fd.data, { fd with data := [] })

/-- The source of a header: `in_des`, or the memory that `fsource_buffer` points
into, the index it points at, and `fsource_buffer_len`. -/
inductive Source where
  | inDes (fd : InDes)
  | buffer (mem : Bytes) (fsource : Nat) (len : Int)
deriving DecidableEq

/-- Where the reader stands. -/
structure ReadPos where
  src : Source
  /-- `read_buffer_posM`. -/
  readBufferPos : Nat := 0
  /-- The memory behind the record in the read buffer. -/
  behind : Bytes := []
  fpRetval : Int := 0
deriving DecidableEq

/-- Read one record: the return value, the bytes and the source afterwards.  The
offset into the buffer counts the bytes that were read twice, once in
`fsource_buffer` and once in `read_buffer_posM`. -/
def readRecord (src : Source) (readBufferPos : Nat) : Outcome (Nat × Bytes × Source) :=
  match src with
  | .inDes fd =>
      let (count, block, fd) := taruTapeBufferedRead fd tarRecordSize
      .returned (count, block, .inDes fd)
  | .buffer mem fsource len =>
      if fsource + readBufferPos + tarRecordSize ≤ mem.length then
        .returned (tarRecordSize, (mem.drop (fsource + readBufferPos)).take tarRecordSize,
          .buffer mem fsource (len - tarRecordSize))
      else .fault

/-- `n_blocks_to_read`, computed in `int`. -/
def nBlocksToRead (dataLen : Int32) : Int :=
  dataLen.toInt.tdiv tarRecordSize + if dataLen.toInt.tmod tarRecordSize = 0 then 0 else 1

/-- The loop of `taru_read_pax_data_blocks` over a descriptor. -/
def readDataBlocks (fd : InDes) : Nat → Option (Bytes × InDes)
  | 0 => some ([], fd)
  | n + 1 =>
      let (count, block, fd) := taruTapeBufferedRead fd tarRecordSize
      if count = tarRecordSize then
        (readDataBlocks fd n).map fun p => (block ++ p.1, p.2)
      else none

/-- `taru_read_pax_data_blocks`: the data and the source after them, `none` for
a negative return value.  The data in a buffer start one record behind
`fsource_buffer`. -/
def taruReadPaxDataBlocks (src : Source) (n : Nat) : Outcome (Option (Bytes × Source)) :=
  match src with
  | .inDes fd => .returned ((readDataBlocks fd n).map fun p => (p.1, .inDes p.2))
  | .buffer mem fsource len =>
      if fsource + tarRecordSize + n * tarRecordSize ≤ mem.length then
        .returned (some ((mem.drop (fsource + tarRecordSize)).take (n * tarRecordSize),
          .buffer mem fsource len))
      else .fault

/-! ## One record with its data -/

/-- `null_block`. -/
def nullBlock (block : Bytes) : Bool := block.all (· == 0)

/-- The type flag of the record at the start of memory. -/
def typeflagAt (mem : Bytes) : UInt8 := (mem.drop 156).headD 0

/-- The type flags that announce extended header data. -/
def isExtHeaderType (typeflag : UInt8) : Bool :=
  typeflag == gnuTypeLongname || typeflag == gnuTypeLonglink || typeflag == xhdType ||
    typeflag == xglType

/-- A record that is not one of NULs, by its type flag. -/
theorem nullBlock_of_typeflagAt {block : Bytes} (h : typeflagAt block ≠ 0) :
    nullBlock block = false := by
  cases hnull : nullBlock block with
  | false => rfl
  | true =>
      refine absurd ?_ h
      rw [nullBlock, List.all_eq_true] at hnull
      rw [typeflagAt]
      cases hdrop : block.drop 156 with
      | nil => rfl
      | cons x xs =>
          have hx := hnull x (List.mem_of_mem_drop (by rw [hdrop]; simp))
          simpa using hx

/-- The type flag of a record. -/
theorem typeflagAt_bytes (h : TarHeader) (mem : Bytes) : typeflagAt (h.bytes ++ mem) = h.typeflag := by
  rw [typeflagAt, TarHeader.drop_typeflag]
  rfl

/-- The recursive call's view of the source: `fsource_buffer` moves over the
record and its data, and the length is less by the data. -/
def Source.advance (n : Nat) : Source → Source
  | .inDes fd => .inDes fd
  | .buffer mem fsource len => .buffer mem (fsource + tarRecordSize + n) (len - n)

/-- What stands at the source. -/
inductive Fetched where
  /-- Nothing, or a part of a record. -/
  | ends (ret : Int) (src : Source)
  /-- A record of NULs. -/
  | trailer (ret : Int) (src : Source)
  /-- A record that announces data, its size field, and the data. -/
  | ext (typeflag : UInt8) (size : UInt64) (data : Bytes) (next : ReadPos)
  /-- Any other record, with the memory behind it. -/
  | record (mem : Bytes) (next : ReadPos)

/-- `(unsigned long)fsource_buffer_len < file_hdr->c_filesize`. -/
def Source.tooSmall (size : UInt64) : Source → Bool
  | .inDes _ => false
  | .buffer _ _ len => decide ((BitVec.ofInt 64 len).toNat < size.toNat)

/-- The memory behind the record after extended header data were read.  `nul` is
where `strob_set_length` has put its NUL. -/
def ReadPos.behindAfter (pos : ReadPos) (nul : Int) (data : Bytes) : Bytes :=
  if pos.readBufferPos = 0 then data
  else if nul < tarRecordSize then pos.behind
  else pos.behind.take (nul.toNat - tarRecordSize)

/-- Read the data that the record in `mem` announces.  A size beyond the buffer,
or data that end too early, end the process. -/
def fetchExtData (pos : ReadPos) (mem : Bytes) (src : Source) : Outcome Fetched :=
  let size := taruOtoul (mem.drop 124)
  let n := nBlocksToRead size.toUInt32.toInt32
  -- A size that is negative as an `int` moves the end of the read buffer back.
  let nul := (pos.readBufferPos : Int) + tarRecordSize + n * tarRecordSize + tarRecordSize + 10
  if src.tooSmall size then .exited 24
  else if nul < 0 then .fault
  else do
    match ← taruReadPaxDataBlocks src n.toNat with
    | none => .exited 24
    | some (data, src) =>
        return .ext (typeflagAt mem) size data {
          src := src.advance data.length
          readBufferPos := pos.readBufferPos + tarRecordSize + data.length
          behind := pos.behindAfter nul data
          fpRetval := pos.fpRetval + tarRecordSize + data.length }

/-- The second record of a trailer: two records of NULs are the normal end. -/
def fetchTrailer : Source → Fetched
  | .inDes fd =>
      let (eoaret, block, fd) := taruTapeBufferedRead fd tarRecordSize
      .trailer (if eoaret = tarRecordSize ∧ nullBlock block then 1024 else -1) (.inDes fd)
  | .buffer mem fsource len => .trailer 1024 (.buffer mem fsource len)

/-- The part of `i_taru_read_in_tar_header2` that reads. -/
def fetch (pos : ReadPos) : Outcome Fetched := do
  let (count, block, src) ← readRecord pos.src pos.readBufferPos
  if count = 0 then return .ends 0 src
  else if count ≠ tarRecordSize then return .ends (-1) src
  else if nullBlock block then return fetchTrailer src
  else if isExtHeaderType (typeflagAt (block ++ pos.behind)) then
    fetchExtData pos (block ++ pos.behind) src
  else
    return .record (block ++ pos.behind)
      { pos with src := src, readBufferPos := pos.readBufferPos + tarRecordSize }

/-! ## What a fetch does -/

/-- A read that can be filled. -/
theorem taruTapeBufferedRead_append {kind : FdKind} {bs rest : Bytes} {n : Nat}
    (h : bs.length = n) :
    taruTapeBufferedRead ⟨kind, bs ++ rest⟩ n = (n, bs, ⟨kind, rest⟩) := by
  rw [taruTapeBufferedRead, if_pos (by simp [h])]
  simp only [List.take_left' h, List.drop_left' h]

/-- A read that was filled. -/
theorem taruTapeBufferedRead_full {fd fd' : InDes} {n count : Nat} {block : Bytes} (h0 : 0 < n)
    (h : taruTapeBufferedRead fd n = (count, block, fd')) (hc : count = n) :
    fd.data = block ++ fd'.data ∧ block.length = n ∧ fd'.kind = fd.kind := by
  rw [taruTapeBufferedRead] at h
  split at h
  · next hle =>
      cases h
      exact ⟨(List.take_append_drop _ _).symm, List.length_take_of_le hle, rfl⟩
  · next hlt =>
      split at h
      · cases h
        omega
      · cases h
        omega

/-- The loop reads all blocks if they are there. -/
theorem readDataBlocks_append {kind : FdKind} {n : Nat} {data rest : Bytes}
    (h : data.length = n * tarRecordSize) :
    readDataBlocks ⟨kind, data ++ rest⟩ n = some (data, ⟨kind, rest⟩) := by
  induction n generalizing data with
  | zero =>
      rw [Nat.zero_mul, List.length_eq_zero_iff] at h
      subst h
      rfl
  | succ n ih =>
      rw [Nat.succ_mul] at h
      have hblock : (data.take tarRecordSize).length = tarRecordSize :=
        List.length_take_of_le (by omega)
      have hrest : (data.drop tarRecordSize).length = n * tarRecordSize := by
        rw [List.length_drop]
        omega
      have hsplit : data ++ rest =
          data.take tarRecordSize ++ (data.drop tarRecordSize ++ rest) := by
        rw [← List.append_assoc, List.take_append_drop]
      rw [readDataBlocks, hsplit, taruTapeBufferedRead_append hblock]
      simp only [if_true, ih hrest, Option.map_some, List.take_append_drop]

/-- What the loop has read. -/
theorem readDataBlocks_eq_some {fd fd' : InDes} {n : Nat} {data : Bytes}
    (h : readDataBlocks fd n = some (data, fd')) :
    fd.data = data ++ fd'.data ∧ data.length = n * tarRecordSize ∧ fd'.kind = fd.kind := by
  induction n generalizing fd data with
  | zero =>
      cases h
      exact ⟨rfl, by simp, rfl⟩
  | succ n ih =>
      rcases hread : taruTapeBufferedRead fd tarRecordSize with ⟨count, block, fd₁⟩
      rw [readDataBlocks, hread] at h
      simp only at h
      split at h
      · next hc =>
          obtain ⟨⟨data', fd''⟩, hrest, hp⟩ := Option.map_eq_some_iff.mp h
          cases hp
          obtain ⟨hdata, hlen, hkind⟩ := taruTapeBufferedRead_full (by decide) hread hc
          obtain ⟨hdata', hlen', hkind'⟩ := ih hrest
          refine ⟨by rw [hdata, hdata', List.append_assoc], ?_, hkind'.trans hkind⟩
          rw [List.length_append, hlen, hlen', Nat.succ_mul, Nat.add_comm]
      · cases h

/-- The four ways a fetch returns. -/
inductive FetchCase (pos : ReadPos) : Fetched → Prop where
  | ends (ret : Int) (src : Source) (hret : ret ≤ 0) : FetchCase pos (.ends ret src)
  | trailer (block : Bytes) (src src' : Source) (ret : Int)
      (hread : readRecord pos.src pos.readBufferPos = .returned (tarRecordSize, block, src))
      (hret : ret = 1024 ∨ ret = -1) : FetchCase pos (.trailer ret src')
  | ext (block : Bytes) (src src' : Source) (size : UInt64) (data behind : Bytes)
      (hread : readRecord pos.src pos.readBufferPos = .returned (tarRecordSize, block, src))
      (htype : isExtHeaderType (typeflagAt (block ++ pos.behind)) = true)
      (hdata : taruReadPaxDataBlocks src (nBlocksToRead size.toUInt32.toInt32).toNat =
        .returned (some (data, src'))) :
      FetchCase pos (.ext (typeflagAt (block ++ pos.behind)) size data {
        src := src'.advance data.length
        readBufferPos := pos.readBufferPos + tarRecordSize + data.length
        behind := behind
        fpRetval := pos.fpRetval + tarRecordSize + data.length })
  | record (block : Bytes) (src : Source)
      (hread : readRecord pos.src pos.readBufferPos = .returned (tarRecordSize, block, src))
      (htype : isExtHeaderType (typeflagAt (block ++ pos.behind)) = false) :
      FetchCase pos (.record (block ++ pos.behind)
        { pos with src := src, readBufferPos := pos.readBufferPos + tarRecordSize })

/-- A second record ends an archive or spoils it. -/
theorem fetchTrailer_eq (src : Source) :
    ∃ ret src', fetchTrailer src = .trailer ret src' ∧ (ret = 1024 ∨ ret = -1) := by
  cases src with
  | inDes fd => exact ⟨_, _, rfl, ite_eq_or_eq _ _ _⟩
  | buffer mem fsource len => exact ⟨_, _, rfl, .inl rfl⟩

theorem fetch_cases {pos : ReadPos} {f : Fetched} (h : fetch pos = .returned f) :
    FetchCase pos f := by
  rw [fetch, Outcome.bind_eq_returned] at h
  obtain ⟨⟨count, block, src⟩, hread, h⟩ := h
  simp only at h
  split at h
  · cases h
    exact .ends 0 _ (Int.le_refl 0)
  · split at h
    · cases h
      exact .ends (-1) _ (by decide)
    · next hc =>
        rw [ne_eq, Decidable.not_not] at hc
        subst hc
        split at h
        · obtain ⟨ret, src', htrailer, hret⟩ := fetchTrailer_eq src
          rw [htrailer] at h
          cases h
          exact .trailer block src src' ret hread hret
        · split at h
          · next htype =>
              rw [fetchExtData] at h
              split at h
              · cases h
              · split at h
                · cases h
                · obtain ⟨r, hdata, h⟩ := Outcome.bind_eq_returned.mp h
                  cases r with
                  | none => cases h
                  | some p =>
                      cases h
                      exact .ext block src p.2 _ p.1 _ hread htype hdata
          · next htype =>
              cases h
              exact .record block src hread (by simpa using htype)

/-- A record that was read from a descriptor is the next 512 bytes. -/
theorem readRecord_inDes {pos : ReadPos} {fd : InDes} (hsrc : pos.src = .inDes fd) {block : Bytes}
    {src : Source}
    (h : readRecord pos.src pos.readBufferPos = .returned (tarRecordSize, block, src)) :
    ∃ fd', src = .inDes fd' ∧ fd.data = block ++ fd'.data ∧ block.length = tarRecordSize := by
  rcases hread : taruTapeBufferedRead fd tarRecordSize with ⟨count, block', fd'⟩
  rw [hsrc, readRecord, hread] at h
  simp only [Outcome.returned.injEq, Prod.mk.injEq] at h
  obtain ⟨hc, rfl, rfl⟩ := h
  obtain ⟨hdata, hlen, -⟩ := taruTapeBufferedRead_full (by decide) hread hc
  exact ⟨fd', rfl, hdata, hlen⟩

/-- An extended header that was read from a descriptor takes bytes off it. -/
theorem fetch_ext_inDes {pos : ReadPos} {fd : InDes} (hsrc : pos.src = .inDes fd)
    {typeflag : UInt8} {size : UInt64} {data : Bytes} {next : ReadPos}
    (h : fetch pos = .returned (.ext typeflag size data next)) :
    ∃ fd', next.src = .inDes fd' ∧ fd'.data.length < fd.data.length := by
  cases fetch_cases h with
  | ext block src src' size data behind hread htype hdata =>
      obtain ⟨fd₁, rfl, hblock, hlen⟩ := readRecord_inDes hsrc hread
      rw [taruReadPaxDataBlocks, Outcome.returned.injEq] at hdata
      obtain ⟨⟨data', fd'⟩, hblocks, hp⟩ := Option.map_eq_some_iff.mp hdata
      cases hp
      have hrest := (readDataBlocks_eq_some hblocks).1
      refine ⟨fd', rfl, ?_⟩
      rw [hblock, hrest, List.length_append, List.length_append, hlen, tarRecordSize]
      omega

/-- A record that announces nothing, read from a descriptor. -/
theorem fetch_record (kind : FdKind) {block : Bytes} (rest : Bytes) (hlen : block.length = tarRecordSize)
    (hnull : nullBlock block = false) (readBufferPos : Nat) (behind : Bytes) (fpRetval : Int)
    (htype : isExtHeaderType (typeflagAt (block ++ behind)) = false) :
    fetch ⟨.inDes ⟨kind, block ++ rest⟩, readBufferPos, behind, fpRetval⟩ =
      .returned (.record (block ++ behind)
        ⟨.inDes ⟨kind, rest⟩, readBufferPos + tarRecordSize, behind, fpRetval⟩) := by
  rw [fetch, readRecord, taruTapeBufferedRead_append hlen]
  simp only [Outcome.returned_bind, hnull, htype, Bool.false_eq_true, if_false]
  rfl

/-! ## Extended header data -/

/-- Move extended header data into the file header, or return early.  Behind the
data stand the NUL of `taru_read_pax_data_blocks` and `rest`; a record that is
longer than the data goes on there. -/
def applyExtHeader (typeflag : UInt8) (data rest : Bytes) (hdr : FileHdr) :
    Outcome (Except (Int × FileHdr) FileHdr) :=
  let mask := hdr.extHeaderUsageMask
  if typeflag = gnuTypeLongname then
    .returned (.ok { hdr with cName := .ofMem data, extHeaderUsageMask := { mask with path := true } })
  else if typeflag = gnuTypeLonglink then
    .returned (.ok { hdr with
      cTarLinkname := .ofMem data, extHeaderUsageMask := { mask with linkpath := true } })
  else if typeflag = xglType then .exited 26
  else do
    let (hdr, r) ← taruReadAllExtHeaderRecords hdr (data ++ 0 :: rest)
      hdr.cFilesize.toUInt32.toInt32
    return (if r.ret < 0 then .error (-11, hdr) else .ok hdr)

/-! ## The checksum loop -/

/-- The checksum test of the loop. -/
def chksumOk (mem : Bytes) : Bool := taruOtoul (mem.drop 148) == taruTarChecksum mem

/-- `bcopy` the local record one byte down and put the byte that was read, if
there was one, at its end. -/
def shiftRecord (tarRec byte : Bytes) : Bytes :=
  tarRec.drop 1 ++ (byte ++ tarRec.drop (tarRecordSize - 1)).take 1

/-- The `while (1)` of `i_taru_read_in_tar_header2`: the number of bytes that
were skipped, or an early return.  The test looks at `mem`, the record in the
read buffer; the bytes that are read go into `tarRec`. -/
def checksumLoop (flags : TarFlags) (mem : Bytes) :
    Nat → Bytes → Nat → Source → Outcome (Except Int Nat × Source)
  | 0, _, _, _ => .outOfFuel
  | fuel + 1, tarRec, bytesSkipped, src =>
      if chksumOk mem then .returned (.ok bytesSkipped, src)
      else
        match src with
        | .buffer mem fsource len => .returned (.error (-3), .buffer mem fsource len)
        | .inDes fd =>
            if flags.fragileFormat then .returned (.error (-2), .inDes fd)
            else
              let (_, byte, fd) := taruTapeBufferedRead fd 1
              checksumLoop flags mem fuel (shiftRecord tarRec byte) (bytesSkipped + 1) (.inDes fd)

/-- A record that passes the test ends the loop at once. -/
theorem checksumLoop_ok {flags : TarFlags} {mem : Bytes} (hok : chksumOk mem = true) (fuel : Nat)
    (tarRec : Bytes) (bytesSkipped : Nat) (src : Source) :
    checksumLoop flags mem (fuel + 1) tarRec bytesSkipped src =
      .returned (.ok bytesSkipped, src) := by
  cases src with
  | inDes fd => rw [checksumLoop, if_pos hok]
  | buffer b fsource len => rw [checksumLoop, if_pos hok]

/-! ## The fields of the record -/

/-- The fields that depend on the type flag: the file type bits, the link name
and the size. -/
structure ReadTypeFields where
  typeBits : UInt64
  linkname : CString
  size : UInt64

/-- The `switch` over the type flag.  `link` is the link name of the record,
`oldLink` the one that is in the file header. -/
def readTypeFields (typeflag : UInt8) (mask : ExtHeaderMask) (name link oldLink : CString)
    (size : UInt64) : ReadTypeFields :=
  if typeflag = dirType then ⟨cpIfdir, oldLink, size⟩
  else if typeflag = chrType then ⟨cpIfchr, link, 0⟩
  else if typeflag = blkType then ⟨cpIfblk, link, 0⟩
  else if typeflag = fifoType then ⟨cpIfifo, link, 0⟩
  else if typeflag = symType then ⟨cpIflnk, if mask.linkpath then oldLink else link, 0⟩
  else if typeflag = lnkType then ⟨cpIfreg, link, 0⟩
  else if typeflag = aregType then
    ⟨if name.bytes.getLast? = some slash then cpIfdir else cpIfreg, oldLink, size⟩
  else ⟨cpIfreg, oldLink, size⟩

/-- The fields of a record that has passed the checksum test, moved into the
file header. -/
def setFromTarHeader (db : SysDb) (flags : TarFlags) (mem : Bytes) (hdr : FileHdr) : FileHdr :=
  let typeflag := typeflagAt mem
  let mask := hdr.extHeaderUsageMask
  let name := if mask.path then hdr.cName else taruDupTarName mem
  let uname := CString.ofMem (mem.drop 265)
  let gname := CString.ofMem (mem.drop 297)
  let t := readTypeFields typeflag mask name (.ofMem ((mem.drop 157).take tarLinknameSize))
    hdr.cTarLinkname (taruOtoul (mem.drop 124))
  { hdr with
    cName := name
    cNamesize := UInt64.ofNat (name.strlen + 1)
    cNlink := if typeflag = lnkType then 2 else 1
    cMode := (taruOtoul (mem.drop 100) &&& 0o7777) ||| t.typeBits
    cUsername := uname
    cUid :=
      match flags.retainHeaderIds, db.uidByName uname with
      | false, some uid => uid.toUInt64
      | _, _ => taruOtoul (mem.drop 108)
    cIsTarLnktype := if typeflag = lnkType then 1 else 0
    cGroupname := gname
    cGid :=
      match flags.retainHeaderIds, db.gidByName gname with
      | false, some gid => gid.toUInt64
      | _, _ => taruOtoul (mem.drop 116)
    cFilesize := t.size
    cMtime := taruOtoul (mem.drop 136)
    cRdevMaj := taruOtoul (mem.drop 329)
    cRdevMin := taruOtoul (mem.drop 337)
    cTarLinkname := t.linkname }

/-! ## The reader -/

/-- What a header read leaves behind. -/
structure ReadHeader where
  ret : Int
  /-- `*eoa`. -/
  eoa : Int
  hdr : FileHdr
  src : Source
deriving DecidableEq

/-- The test of a record and what follows it. -/
def readInRecord (db : SysDb) (flags : TarFlags) (fuel : Nat) (mem : Bytes) (next : ReadPos)
    (hdr : FileHdr) : Outcome ReadHeader := do
  let hdr := { hdr with cChksum := taruOtoul (mem.drop 148) }
  match ← checksumLoop flags mem fuel (CField.zero tarRecordSize).bytes 0 next.src with
  | (.error ret, src) => return ⟨ret, 0, hdr, src⟩
  | (.ok bytesSkipped, src) =>
      let hdr := setFromTarHeader db flags mem hdr
      if 0 < bytesSkipped ∧ flags.fragileFormat then return ⟨-4, 0, hdr, src⟩
      else return ⟨tarRecordSize + next.fpRetval, 0, hdr, src⟩

/-- A record that passes the test is moved into the file header. -/
theorem readInRecord_ok (db : SysDb) (flags : TarFlags) (fuel : Nat) {mem : Bytes}
    (hok : chksumOk mem = true) (next : ReadPos) (hdr : FileHdr) :
    readInRecord db flags (fuel + 1) mem next hdr =
      .returned ⟨tarRecordSize + next.fpRetval, 0,
        setFromTarHeader db flags mem { hdr with cChksum := taruOtoul (mem.drop 148) },
        next.src⟩ := by
  rw [readInRecord, checksumLoop_ok hok]
  rfl

/-- `i_taru_read_in_tar_header2`. -/
def iTaruReadInTarHeader2 (db : SysDb) (flags : TarFlags) :
    Nat → ReadPos → FileHdr → Outcome ReadHeader
  | 0, _, _ => .outOfFuel
  | fuel + 1, pos, hdr => do
      match ← fetch pos with
      | .ends ret src => return ⟨ret, 0, hdr, src⟩
      | .trailer ret src => return ⟨ret, ret, { hdr with cName := cpioInbandEoaFilename }, src⟩
      | .ext typeflag size data next =>
          let rest := db.readBufferRest next.readBufferPos
          match ← applyExtHeader typeflag data rest { hdr with cFilesize := size } with
          | .error (ret, hdr) => return ⟨ret, 0, hdr, next.src⟩
          | .ok hdr => iTaruReadInTarHeader2 db flags fuel next hdr
      | .record mem next => readInRecord db flags (fuel + 1) mem next hdr

/-- The override step of `taru_read_in_tar_header2`, over all slots there are. -/
def overrideUstar (erange : Bool) (hdr : FileHdr) : FileHdr :=
  if hdr.extHeaderUsageMask = .zero then hdr
  else
    match hdr.extattlist with
    | none => hdr
    | some slots =>
        let (hdr, slots, _) := overrideAll erange hdr slots
        { hdr with extattlist := some slots }

/-- The file header at the start of `taru_read_in_tar_header2`. -/
def beginHeader (hdr : FileHdr) : FileHdr :=
  { hdr with
    extHeaderUsageMask := .zero
    extattlist := taruExattlistInit hdr.extattlist
    cName := .empty
    cTarLinkname := .empty }

/-- `taru_read_in_tar_header2`. -/
def taruReadInTarHeader2 (db : SysDb) (flags : TarFlags) (fuel : Nat) (erange : Bool)
    (hdr : FileHdr) (src : Source) : Outcome ReadHeader := do
  let r ← iTaruReadInTarHeader2 db flags fuel { src := src } (beginHeader hdr)
  return { r with hdr := overrideUstar erange r.hdr }

/-! ## Return values -/

/-- The loop gives up with a negative code. -/
theorem checksumLoop_error {flags : TarFlags} {mem : Bytes} {fuel : Nat} {tarRec : Bytes}
    {bytesSkipped : Nat} {src src' : Source} {code : Int}
    (h : checksumLoop flags mem fuel tarRec bytesSkipped src = .returned (.error code, src')) :
    code < 0 := by
  induction fuel generalizing tarRec bytesSkipped src with
  | zero => cases h
  | succ fuel ih =>
      cases src with
      | buffer b fsource len =>
          rw [checksumLoop] at h
          split at h
          · cases h
          · cases h
            decide
      | inDes fd =>
          rw [checksumLoop] at h
          split at h
          · cases h
          · split at h
            · cases h
              decide
            · exact ih h

/-- The last part of the reader reports an error, or the number of bytes that
have been read. -/
theorem readInRecord_ret {db : SysDb} {flags : TarFlags} {fuel : Nat} {mem : Bytes}
    {next : ReadPos} {hdr : FileHdr} {r : ReadHeader}
    (h : readInRecord db flags fuel mem next hdr = .returned r) :
    r.ret ≤ 0 ∨ r.ret = tarRecordSize + next.fpRetval := by
  obtain ⟨⟨result, src⟩, hloop, h⟩ := Outcome.bind_eq_returned.mp h
  cases result with
  | error code =>
      cases h
      exact .inl (Int.le_of_lt (checksumLoop_error hloop))
  | ok bytesSkipped =>
      simp only at h
      split at h
      · cases h
        exact .inl (show (-4 : Int) ≤ 0 by decide)
      · cases h
        exact .inr rfl

/-- Extended header data that are rejected are reported with a negative code. -/
theorem applyExtHeader_error {typeflag : UInt8} {data rest : Bytes} {hdr hdr' : FileHdr} {ret : Int}
    (h : applyExtHeader typeflag data rest hdr = .returned (.error (ret, hdr'))) : ret = -11 := by
  rw [applyExtHeader] at h
  split at h
  · cases h
  · split at h
    · cases h
    · split at h
      · cases h
      · obtain ⟨⟨hdr₁, r⟩, -, h⟩ := Outcome.bind_eq_returned.mp h
        simp only [Outcome.pure_eq, Outcome.returned.injEq] at h
        split at h
        · cases h
          rfl
        · cases h

/-- What the reader can report: an error, the end of the archive, or at least
one record behind what was read before. -/
theorem iTaruReadInTarHeader2_ret {db : SysDb} {flags : TarFlags} {n : Nat} {pos : ReadPos}
    {hdr : FileHdr} {r : ReadHeader} (h : iTaruReadInTarHeader2 db flags n pos hdr = .returned r) :
    r.ret ≤ 0 ∨ r.ret = 1024 ∨ pos.fpRetval + tarRecordSize ≤ r.ret := by
  induction n generalizing pos hdr with
  | zero => cases h
  | succ n ih =>
      obtain ⟨f, hfetch, h⟩ := Outcome.bind_eq_returned.mp h
      cases f with
      | ends ret src =>
          cases h
          cases fetch_cases hfetch with
          | ends _ _ hret => exact .inl hret
      | trailer ret src =>
          cases h
          cases fetch_cases hfetch with
          | trailer block src₁ _ _ hread hret =>
              rcases hret with rfl | rfl
              · exact .inr (.inl rfl)
              · exact .inl (show (-1 : Int) ≤ 0 by decide)
      | ext typeflag size data next =>
          have hnext : pos.fpRetval ≤ next.fpRetval := by
            cases fetch_cases hfetch with
            | ext block src src' _ _ behind hread htype hdata =>
                simp only
                omega
          obtain ⟨x, happly, h⟩ := Outcome.bind_eq_returned.mp h
          cases x with
          | error e =>
              obtain ⟨ret, hdr'⟩ := e
              cases h
              rw [applyExtHeader_error happly]
              exact .inl (show (-11 : Int) ≤ 0 by decide)
          | ok hdr' =>
              rcases ih h with hle | hret | hle
              · exact .inl hle
              · exact .inr (.inl hret)
              · exact .inr (.inr (Int.le_trans (Int.add_le_add_right hnext _) hle))
      | record mem next =>
          rcases readInRecord_ret h with hle | hret
          · exact .inl hle
          · cases fetch_cases hfetch with
            | record block src hread htype =>
                exact .inr (.inr (by rw [hret, Int.add_comm]))

end Swbis.Taru
