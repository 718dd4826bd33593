import Swbis.Taru.ReadTar

/-!
# Reading a record behind extended headers

What a writer puts in front of a record is a list of extended headers, each a
record that announces data and the data in blocks (`ExtBlock`).  `ExtApplied`
says that the reader accepts them one after the other, and `readsTo_stream` that
it then reads the record, whatever follows in the input.

`ReadsTo` is a read that returns, for some fuel.
-/

namespace Swbis.Taru

open CLib

/-! ## Reads that return -/

/-- `i_taru_read_in_tar_header2` returns. -/
def ReadsTo (db : SysDb) (flags : TarFlags) (pos : ReadPos) (hdr : FileHdr) (r : ReadHeader) :
    Prop :=
  ∃ fuel, iTaruReadInTarHeader2 db flags fuel pos hdr = .returned r

/-- `taru_read_in_tar_header2` returns, from a descriptor. -/
def ReadsHeader (db : SysDb) (flags : TarFlags) (erange : Bool) (hdr : FileHdr) (fd : InDes)
    (r : ReadHeader) : Prop :=
  ∃ fuel, taruReadInTarHeader2 db flags fuel erange hdr (.inDes fd) = .returned r

theorem readsHeader_iff {db : SysDb} {flags : TarFlags} {erange : Bool} {hdr : FileHdr}
    {fd : InDes} {r : ReadHeader} :
    ReadsHeader db flags erange hdr fd r ↔
      ∃ r', ReadsTo db flags { src := .inDes fd } (beginHeader hdr) r' ∧
        r = { r' with hdr := overrideUstar erange r'.hdr } := by
  constructor
  · rintro ⟨fuel, h⟩
    obtain ⟨r', hr', h⟩ := Outcome.bind_eq_returned.mp h
    cases h
    exact ⟨r', ⟨fuel, hr'⟩, rfl⟩
  · rintro ⟨r', ⟨fuel, h⟩, rfl⟩
    exact ⟨fuel, Outcome.bind_eq_returned.mpr ⟨r', h, rfl⟩⟩

/-- An extended header that is accepted, and the rest. -/
theorem readsTo_ext_iff {db : SysDb} {flags : TarFlags} {pos : ReadPos} {hdr : FileHdr}
    {typeflag : UInt8} {size : UInt64} {data : Bytes} {next : ReadPos} {hdr' : FileHdr}
    (hfetch : fetch pos = .returned (.ext typeflag size data next))
    (happly : applyExtHeader typeflag data (db.readBufferRest next.readBufferPos)
      { hdr with cFilesize := size } = .returned (.ok hdr'))
    {r : ReadHeader} :
    ReadsTo db flags pos hdr r ↔ ReadsTo db flags next hdr' r := by
  constructor
  · rintro ⟨fuel, h⟩
    cases fuel with
    | zero => cases h
    | succ n =>
        simp only [iTaruReadInTarHeader2, hfetch, Outcome.returned_bind, happly] at h
        exact ⟨n, h⟩
  · rintro ⟨n, h⟩
    refine ⟨n + 1, ?_⟩
    simp only [iTaruReadInTarHeader2, hfetch, Outcome.returned_bind, happly]
    exact h

/-- A record that passes the test ends the read. -/
theorem readsTo_record_iff {db : SysDb} {flags : TarFlags} {pos : ReadPos} {hdr : FileHdr}
    {mem : Bytes} {next : ReadPos} (hfetch : fetch pos = .returned (.record mem next))
    (hok : chksumOk mem = true) {r : ReadHeader} :
    ReadsTo db flags pos hdr r ↔
      r = ⟨tarRecordSize + next.fpRetval, 0,
        setFromTarHeader db flags mem { hdr with cChksum := taruOtoul (mem.drop 148) },
        next.src⟩ := by
  constructor
  · rintro ⟨fuel, h⟩
    cases fuel with
    | zero => cases h
    | succ n =>
        simp only [iTaruReadInTarHeader2, hfetch, Outcome.returned_bind,
          readInRecord_ok db flags n hok, Outcome.returned.injEq] at h
        exact h.symm
  · rintro rfl
    refine ⟨1, ?_⟩
    simp only [iTaruReadInTarHeader2, hfetch, Outcome.returned_bind]
    exact readInRecord_ok db flags 0 hok _ _

/-! ## Extended headers in front of a record -/

/-- An extended header with its data. -/
structure ExtBlock where
  header : TarHeader
  size : Nat
  data : Bytes
  announces : isExtHeaderType header.typeflag = true
  size_lt : size < 2 ^ 31
  size_read : ∀ mem, taruOtoul (header.size.bytes ++ mem) = UInt64.ofNat size
  /-- The data fill blocks. -/
  length_data : data.length = (size + (tarRecordSize - 1)) / tarRecordSize * tarRecordSize

namespace ExtBlock

/-- The bytes in the archive. -/
def bytes (e : ExtBlock) : Bytes := e.header.bytes ++ e.data

theorem length_bytes (e : ExtBlock) : e.bytes.length = tarRecordSize + e.data.length := by
  rw [bytes, List.length_append, TarHeader.length_bytes]

end ExtBlock

/-- A size below `2 ^ 31` stays what it is as an `int`. -/
theorem toInt_ofNat {size : Nat} (h : size < 2 ^ 31) :
    (UInt64.ofNat size).toUInt32.toInt32.toInt = size := by
  have hto : (UInt64.ofNat size).toUInt32.toBitVec.toNat = size := by
    have : (UInt64.ofNat size).toUInt32.toNat = size := by
      simp
      omega
    exact this
  change (UInt64.ofNat size).toUInt32.toBitVec.toInt = size
  rw [BitVec.toInt_eq_toNat_of_lt (by rw [hto]; omega), hto]

/-- Blocks are counted by rounding up. -/
theorem nBlocksToRead_eq {size : Nat} (h : size < 2 ^ 31) :
    nBlocksToRead (UInt64.ofNat size).toUInt32.toInt32 =
      ((size + (tarRecordSize - 1)) / tarRecordSize : Nat) := by
  rw [nBlocksToRead, toInt_ofNat h, Int.tdiv_eq_ediv_of_nonneg (Int.natCast_nonneg _),
    Int.tmod_eq_emod_of_nonneg (Int.natCast_nonneg _)]
  split
  · next hr =>
      simp only [tarRecordSize, Nat.cast_ofNat] at hr ⊢
      omega
  · next hr =>
      simp only [tarRecordSize, Nat.cast_ofNat] at hr ⊢
      omega

/-- An extended header is fetched with its data. -/
theorem fetch_extBlock (kind : FdKind) (e : ExtBlock) (rest : Bytes) (readBufferPos : Nat)
    (behind : Bytes) (fpRetval : Int) :
    ∃ behind', fetch ⟨.inDes ⟨kind, e.bytes ++ rest⟩, readBufferPos, behind, fpRetval⟩ =
      .returned (.ext e.header.typeflag (UInt64.ofNat e.size) e.data
        ⟨.inDes ⟨kind, rest⟩, readBufferPos + tarRecordSize + e.data.length, behind',
          fpRetval + tarRecordSize + e.data.length⟩) := by
  have hnull : nullBlock e.header.bytes = false := by
    refine nullBlock_of_typeflagAt ?_
    have h := typeflagAt_bytes e.header []
    rw [List.append_nil] at h
    rw [h]
    intro h0
    have := e.announces
    rw [h0] at this
    exact absurd this (by decide)
  have hn := nBlocksToRead_eq e.size_lt
  have hread : readDataBlocks ⟨kind, e.data ++ rest⟩
      ((e.size + (tarRecordSize - 1)) / tarRecordSize) = some (e.data, ⟨kind, rest⟩) :=
    readDataBlocks_append e.length_data
  rw [fetch, ExtBlock.bytes, List.append_assoc, readRecord,
    taruTapeBufferedRead_append (TarHeader.length_bytes _)]
  simp only [Outcome.returned_bind, hnull, typeflagAt_bytes, e.announces, Bool.false_eq_true,
    if_false, if_true]
  rw [if_neg (by decide), if_neg (by decide), fetchExtData, TarHeader.drop_size,
    TarHeader.fromSize, e.size_read, hn]
  simp only [Source.tooSmall, Bool.false_eq_true, if_false]
  have hnul : ¬ ((readBufferPos : Int) + tarRecordSize +
      ((e.size + (tarRecordSize - 1)) / tarRecordSize : Nat) * tarRecordSize + tarRecordSize + 10 <
        0) := by
    simp only [tarRecordSize, Nat.cast_ofNat]
    omega
  rw [if_neg hnul, Int.toNat_natCast, taruReadPaxDataBlocks, hread, typeflagAt_bytes]
  exact ⟨_, rfl⟩

/-- The reader accepts extended headers one after the other, whatever stands
behind their data. -/
inductive ExtApplied : List ExtBlock → FileHdr → FileHdr → Prop where
  | nil (hdr : FileHdr) : ExtApplied [] hdr hdr
  | cons {e : ExtBlock} {es : List ExtBlock} {hdr hdr' hdr'' : FileHdr}
      (happly : ∀ rest, applyExtHeader e.header.typeflag e.data rest
        { hdr with cFilesize := UInt64.ofNat e.size } = .returned (.ok hdr'))
      (hrest : ExtApplied es hdr' hdr'') : ExtApplied (e :: es) hdr hdr''

/-- The bytes of extended headers. -/
def extBytes (es : List ExtBlock) : Bytes := es.flatMap ExtBlock.bytes

@[simp] theorem extBytes_nil : extBytes [] = [] := rfl

@[simp] theorem extBytes_cons (e : ExtBlock) (es : List ExtBlock) :
    extBytes (e :: es) = e.bytes ++ extBytes es := rfl

/-- The reader stands behind extended headers that it accepts. -/
theorem readsTo_extBlocks (db : SysDb) (flags : TarFlags) (kind : FdKind) {es : List ExtBlock}
    {hdr hdr' : FileHdr} (happlied : ExtApplied es hdr hdr') (rest : Bytes) (readBufferPos : Nat)
    (behind : Bytes) (fpRetval : Int) :
    ∃ readBufferPos' behind', ∀ r, ReadsTo db flags
        ⟨.inDes ⟨kind, extBytes es ++ rest⟩, readBufferPos, behind, fpRetval⟩ hdr r ↔
      ReadsTo db flags
        ⟨.inDes ⟨kind, rest⟩, readBufferPos', behind', fpRetval + (extBytes es).length⟩ hdr' r := by
  induction happlied generalizing readBufferPos behind fpRetval with
  | nil hdr =>
      refine ⟨readBufferPos, behind, fun r => ?_⟩
      rw [extBytes_nil, List.nil_append, List.length_nil, Nat.cast_zero, Int.add_zero]
  | @cons e es hdr hdr' hdr'' happly hrest ih =>
      obtain ⟨behind₁, hfetch⟩ := fetch_extBlock kind e (extBytes es ++ rest)
        readBufferPos behind fpRetval
      obtain ⟨readBufferPos', behind', hread⟩ := ih
        (readBufferPos + tarRecordSize + e.data.length) behind₁
        (fpRetval + tarRecordSize + e.data.length)
      refine ⟨readBufferPos', behind', fun r => ?_⟩
      have hsum : fpRetval + tarRecordSize + e.data.length + (extBytes es).length =
          fpRetval + (tarRecordSize + e.data.length + (extBytes es).length : Nat) := by
        push_cast
        omega
      rw [extBytes_cons, List.append_assoc, readsTo_ext_iff hfetch (happly _), hread,
        List.length_append, e.length_bytes, hsum]

/-- **Behind extended headers that are accepted the reader reads the record.** -/
theorem readsTo_stream (db : SysDb) (flags : TarFlags) (kind : FdKind) {es : List ExtBlock}
    {hdr hdr' : FileHdr} (happlied : ExtApplied es hdr hdr') {h : TarHeader}
    (hnull : nullBlock h.bytes = false) (htype : isExtHeaderType h.typeflag = false)
    (hok : ∀ mem, chksumOk (h.bytes ++ mem) = true) (rest : Bytes) (readBufferPos : Nat)
    (behind : Bytes) (fpRetval : Int) :
    ∃ mem, ∀ r, ReadsTo db flags
        ⟨.inDes ⟨kind, extBytes es ++ (h.bytes ++ rest)⟩, readBufferPos, behind, fpRetval⟩ hdr r ↔
      r = ⟨fpRetval + (extBytes es).length + tarRecordSize, 0,
        setFromTarHeader db flags (h.bytes ++ mem)
          { hdr' with cChksum := taruOtoul ((h.bytes ++ mem).drop 148) }, .inDes ⟨kind, rest⟩⟩ := by
  obtain ⟨readBufferPos', behind', hread⟩ := readsTo_extBlocks db flags kind happlied
    (h.bytes ++ rest) readBufferPos behind fpRetval
  have hfetch := fetch_record kind rest h.length_bytes hnull readBufferPos' behind'
    (fpRetval + (extBytes es).length) (by rwa [typeflagAt_bytes])
  refine ⟨behind', fun r => ?_⟩
  rw [hread, readsTo_record_iff hfetch (hok behind'), Int.add_comm tarRecordSize]

end Swbis.Taru
