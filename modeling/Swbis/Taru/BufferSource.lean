import Swbis.Taru.Resync

/-!
# Reading a header from a memory buffer

A header can be read from a descriptor or from a buffer.  Behind an extended
header the reader calls itself with `fsource_buffer` moved over what has been
read, and then reads at `fsource_buffer` plus the number of bytes that have been
read, so the offset counts twice.  `iTaruReadInTarHeader2_buffer_ret` says what
this does to the return value, and `bufferAgrees_iff` that the two sources agree
on a valid header sequence exactly when it is a single record.
-/

namespace Swbis.Taru

open CLib

/-! ## Header sequences -/

/-- A chain of extended headers and a record behind it, as they stand in a valid
archive. -/
inductive HeaderSequence : Bytes → Prop where
  | file (block : Bytes) (hlen : block.length = tarRecordSize) (hnull : nullBlock block = false)
      (htype : isExtHeaderType (typeflagAt block) = false)
      (hsum : ∀ mem, chksumOk (block ++ mem) = true) : HeaderSequence block
  | ext (block data rest : Bytes) (size : Nat) (hlen : block.length = tarRecordSize)
      (htype : typeflagAt block = gnuTypeLongname ∨ typeflagAt block = gnuTypeLonglink ∨
        typeflagAt block = xhdType)
      (hsize : ∀ mem, taruOtoul ((block ++ mem).drop 124) = UInt64.ofNat size)
      (hlt : size < 2 ^ 31)
      (hdata : data.length = (size + (tarRecordSize - 1)) / tarRecordSize * tarRecordSize)
      (hrecords : typeflagAt block = xhdType → ∃ n, RecordSequence (data.take size) n)
      (hrest : HeaderSequence rest) : HeaderSequence (block ++ (data ++ rest))

/-- A read from the buffer gives what a read from a descriptor does, and both
report the length of the sequence. -/
def BufferAgrees (db : SysDb) (flags : TarFlags) (erange : Bool) (hdr : FileHdr) (kind : FdKind)
    (b : Bytes) : Prop :=
  ∃ fuel r r',
    taruReadInTarHeader2 db flags fuel erange hdr (.inDes ⟨kind, b⟩) = .returned r ∧
    taruReadInTarHeader2 db flags fuel erange hdr (.buffer b 0 b.length) = .returned r' ∧
    r'.hdr = r.hdr ∧ r'.ret = r.ret ∧ r.ret = b.length

/-! ## The offset of a read from a buffer -/

/-- The reader stands behind `s` bytes of a buffer, and all three counts say
so. -/
structure ReadPos.InBuffer (pos : ReadPos) (b : Bytes) (s : Nat) : Prop where
  src : ∃ len, pos.src = .buffer b s len
  readBufferPos : pos.readBufferPos = s
  fpRetval : pos.fpRetval = s

/-- A record is read at twice the offset. -/
theorem readRecord_inBuffer {pos : ReadPos} {b : Bytes} {s : Nat} (hpos : pos.InBuffer b s)
    {block : Bytes} {src : Source}
    (h : readRecord pos.src pos.readBufferPos = .returned (tarRecordSize, block, src)) :
    2 * s + tarRecordSize ≤ b.length ∧ ∃ len, src = .buffer b s len := by
  obtain ⟨len, hsrc⟩ := hpos.src
  rw [hsrc, hpos.readBufferPos, readRecord] at h
  split at h
  · next hle =>
      cases h
      exact ⟨by omega, _, rfl⟩
  · cases h

/-- Behind an extended header the three counts agree again. -/
theorem fetch_ext_inBuffer {pos : ReadPos} {b : Bytes} {s : Nat} (hpos : pos.InBuffer b s)
    {typeflag : UInt8} {size : UInt64} {data : Bytes} {next : ReadPos}
    (h : fetch pos = .returned (.ext typeflag size data next)) :
    next.InBuffer b (s + tarRecordSize + data.length) := by
  cases fetch_cases h with
  | ext block src src' size data behind hread htype hdata =>
      obtain ⟨-, len, rfl⟩ := readRecord_inBuffer hpos hread
      rw [taruReadPaxDataBlocks] at hdata
      split at hdata
      · cases hdata
        refine ⟨⟨_, rfl⟩, ?_, ?_⟩
        · rw [hpos.readBufferPos]
        · rw [hpos.fpRetval]
          push_cast
          rfl
      · cases hdata

/-- What a read from a buffer can report: it has read its last record at twice
the offset that it reports. -/
theorem iTaruReadInTarHeader2_buffer_ret {db : SysDb} {flags : TarFlags} {n : Nat} {pos : ReadPos}
    {b : Bytes} {s : Nat} (hpos : pos.InBuffer b s) {hdr : FileHdr} {r : ReadHeader}
    (h : iTaruReadInTarHeader2 db flags n pos hdr = .returned r) :
    r.ret ≤ 0 ∨ (r.ret = 1024 ∧ 2 * s + tarRecordSize ≤ b.length) ∨
      ∃ s', s ≤ s' ∧ r.ret = tarRecordSize + (s' : Int) ∧ 2 * s' + tarRecordSize ≤ b.length := by
  induction n generalizing pos s hdr with
  | zero => cases h
  | succ n ih =>
      obtain ⟨f, hfetch, h⟩ := Outcome.bind_eq_returned.mp h
      cases f with
      | ends ret src =>
          cases h
          cases fetch_cases hfetch with
          | ends _ _ hret => exact .inl hret
      | trailer ret src =>
          cases h
          cases fetch_cases hfetch with
          | trailer block src₁ _ _ hread hret =>
              rcases hret with rfl | rfl
              · exact .inr (.inl ⟨rfl, (readRecord_inBuffer hpos hread).1⟩)
              · exact .inl (show (-1 : Int) ≤ 0 by decide)
      | ext typeflag size data next =>
          obtain ⟨x, happly, h⟩ := Outcome.bind_eq_returned.mp h
          cases x with
          | error e =>
              obtain ⟨ret, hdr'⟩ := e
              cases h
              rw [applyExtHeader_error happly]
              exact .inl (show (-11 : Int) ≤ 0 by decide)
          | ok hdr' =>
              rcases ih (fetch_ext_inBuffer hpos hfetch) h with hle | ⟨hret, hle⟩ |
                ⟨s', hs', hret, hle⟩
              · exact .inl hle
              · exact .inr (.inl ⟨hret, by omega⟩)
              · exact .inr (.inr ⟨s', by omega, hret, hle⟩)
      | record mem next =>
          rcases readInRecord_ret h with hle | hret
          · exact .inl hle
          · cases fetch_cases hfetch with
            | record block src hread htype =>
                refine .inr (.inr ⟨s, Nat.le_refl s, ?_, (readRecord_inBuffer hpos hread).1⟩)
                rw [hret, hpos.fpRetval]

/-! ## When the sources agree -/

theorem isExtHeaderType_of_mem {typeflag : UInt8} (h : typeflag = gnuTypeLongname ∨
    typeflag = gnuTypeLonglink ∨ typeflag = xhdType) : isExtHeaderType typeflag = true := by
  rcases h with rfl | rfl | rfl
  · decide
  · decide
  · decide

/-- A sequence has at least one record. -/
theorem HeaderSequence.length_le {b : Bytes} (h : HeaderSequence b) :
    tarRecordSize ≤ b.length := by
  cases h with
  | file block hlen _ _ _ => exact hlen.ge
  | ext block data rest size hlen _ _ _ _ _ _ =>
      rw [List.length_append, hlen]
      exact Nat.le_add_right _ _

/-- An extended header at the start of a buffer is read, and the reader stands
behind it. -/
theorem fetch_buffer_ext {block : Bytes} (hlen : block.length = tarRecordSize)
    (htype : typeflagAt block = gnuTypeLongname ∨ typeflagAt block = gnuTypeLonglink ∨
      typeflagAt block = xhdType) (rest : Bytes) {f : Fetched}
    (h : fetch { src := .buffer (block ++ rest) 0 (block ++ rest).length } = .returned f) :
    ∃ size data next, f = .ext (typeflagAt block) size data next := by
  have hread : readRecord (.buffer (block ++ rest) 0 (block ++ rest).length) 0 =
      .returned (tarRecordSize, block,
        .buffer (block ++ rest) 0 ((block ++ rest).length - tarRecordSize)) := by
    rw [readRecord, if_pos (by simp [hlen]), List.drop_zero, List.take_left' hlen]
  have hne : typeflagAt block ≠ 0 := by
    rcases htype with h | h | h
    · rw [h]; decide
    · rw [h]; decide
    · rw [h]; decide
  rw [fetch, hread] at h
  simp only [Outcome.returned_bind, List.append_nil, nullBlock_of_typeflagAt hne,
    isExtHeaderType_of_mem htype, Bool.false_eq_true, if_false, if_true] at h
  have h' : fetchExtData { src := .buffer (block ++ rest) 0 (block ++ rest).length } block
      (.buffer (block ++ rest) 0 ((block ++ rest).length - tarRecordSize)) = .returned f := h
  rw [fetchExtData] at h'
  split at h'
  · cases h'
  · split at h'
    · cases h'
    · obtain ⟨r, -, h'⟩ := Outcome.bind_eq_returned.mp h'
      cases r with
      | none => cases h'
      | some p =>
          cases h'
          exact ⟨_, _, _, rfl⟩

/-- Behind an extended header, a read from a buffer does not report the length
of the sequence. -/
theorem buffer_ret_ne {block data rest : Bytes} (hlen : block.length = tarRecordSize)
    (htype : typeflagAt block = gnuTypeLongname ∨ typeflagAt block = gnuTypeLonglink ∨
      typeflagAt block = xhdType) (hrest : tarRecordSize ≤ rest.length) {db : SysDb}
    {flags : TarFlags} {fuel : Nat} {hdr : FileHdr} {r : ReadHeader}
    (h : iTaruReadInTarHeader2 db flags fuel
      { src := .buffer (block ++ (data ++ rest)) 0 (block ++ (data ++ rest)).length } hdr =
        .returned r) :
    r.ret ≠ (block ++ (data ++ rest)).length := by
  have hb : (block ++ (data ++ rest)).length = tarRecordSize + data.length + rest.length := by
    rw [List.length_append, List.length_append, hlen, Nat.add_assoc]
  cases fuel with
  | zero => cases h
  | succ n =>
      obtain ⟨f, hfetch, h⟩ := Outcome.bind_eq_returned.mp h
      obtain ⟨size, data', next, rfl⟩ := fetch_buffer_ext hlen htype _ hfetch
      have hnext : next.InBuffer (block ++ (data ++ rest)) (0 + tarRecordSize + data'.length) :=
        fetch_ext_inBuffer ⟨⟨_, rfl⟩, rfl, rfl⟩ hfetch
      obtain ⟨x, happly, h⟩ := Outcome.bind_eq_returned.mp h
      rw [hb]
      simp only [tarRecordSize] at hrest ⊢
      cases x with
      | error e =>
          obtain ⟨ret, hdr'⟩ := e
          cases h
          have hret := applyExtHeader_error happly
          simp only [hret]
          omega
      | ok hdr' =>
          -- The last record was read at twice the offset that is reported.
          have hcases := iTaruReadInTarHeader2_buffer_ret hnext h
          simp only [hb, tarRecordSize] at hcases
          rcases hcases with hle | ⟨hret, hle⟩ | ⟨s', hs', hret, hle⟩
          · omega
          · omega
          · omega

/-- A read of a single record, from either source. -/
theorem taruReadInTarHeader2_file {block : Bytes} (hlen : block.length = tarRecordSize)
    (hnull : nullBlock block = false) (htype : isExtHeaderType (typeflagAt block) = false)
    (hok : chksumOk block = true) (db : SysDb) (flags : TarFlags) (erange : Bool) (hdr : FileHdr)
    {src : Source}
    (hsrc : src = .buffer block 0 block.length ∨ ∃ kind, src = .inDes ⟨kind, block⟩) :
    ∃ src', ∀ n, taruReadInTarHeader2 db flags (n + 1) erange hdr src = .returned
      ⟨tarRecordSize, 0, overrideUstar erange (setFromTarHeader db flags block
        { beginHeader hdr with cChksum := taruOtoul (block.drop 148) }), src'⟩ := by
  have hfetch : ∃ next, fetch { src := src } = .returned (.record block next) ∧
      next.fpRetval = 0 := by
    rcases hsrc with rfl | ⟨kind, rfl⟩
    · have hread : readRecord (.buffer block 0 block.length) 0 =
          .returned (tarRecordSize, block, .buffer block 0 (block.length - tarRecordSize)) := by
        rw [readRecord, if_pos (by simp [hlen]), List.drop_zero, List.take_of_length_le hlen.le]
      rw [fetch, hread]
      simp only [Outcome.returned_bind, List.append_nil, hnull, htype, Bool.false_eq_true,
        if_false]
      exact ⟨_, rfl, rfl⟩
    · have h := fetch_record kind [] hlen hnull 0 [] 0
        (by rwa [List.append_nil])
      simp only [List.append_nil] at h
      exact ⟨_, h, rfl⟩
  obtain ⟨next, hfetch, hret⟩ := hfetch
  refine ⟨next.src, fun n => ?_⟩
  rw [taruReadInTarHeader2, iTaruReadInTarHeader2, hfetch]
  simp only [Outcome.returned_bind]
  rw [readInRecord_ok db flags n hok, hret]
  rfl

/-- The two sources agree on a valid sequence exactly when it is a single
record. -/
theorem bufferAgrees_iff {b : Bytes} (hb : HeaderSequence b) (db : SysDb) (flags : TarFlags)
    (erange : Bool) (hdr : FileHdr) (kind : FdKind) :
    BufferAgrees db flags erange hdr kind b ↔ b.length = tarRecordSize := by
  cases hb with
  | file block hlen hnull htype hsum =>
      refine iff_of_true ?_ hlen
      have hok := hsum []
      rw [List.append_nil] at hok
      obtain ⟨s, hs⟩ := taruReadInTarHeader2_file hlen hnull htype hok db flags erange hdr
        (.inr ⟨kind, rfl⟩)
      obtain ⟨s', hs'⟩ := taruReadInTarHeader2_file hlen hnull htype hok db flags erange hdr
        (.inl rfl)
      exact ⟨1, _, _, hs 0, hs' 0, rfl, rfl, by rw [hlen]⟩
  | ext block data rest size hlen htype _ _ _ _ hrest =>
      refine iff_of_false ?_ ?_
      · rintro ⟨fuel, r, r', -, hbuf, -, hret, hall⟩
        obtain ⟨r₁, hrun, hr⟩ := Outcome.bind_eq_returned.mp hbuf
        have hsame : r'.ret = r₁.ret := by
          cases hr
          rfl
        exact buffer_ret_ne hlen htype hrest.length_le hrun (hsame.symm.trans (hret.trans hall))
      · have := hrest.length_le
        rw [List.length_append, List.length_append, hlen]
        rw [tarRecordSize] at this ⊢
        omega

/-! ## A file record, alone and behind a long name -/

/-- The record of a regular file `f`. -/
def fileRecord : TarHeader :=
  let h : TarHeader := { name := .strncpy 100 (chars ['f']), typeflag := regType }
  { h with chksum := chksumField {} (taruTarChecksum h.bytes) }

theorem headerSequence_fileRecord : HeaderSequence fileRecord.bytes := by
  refine .file _ (TarHeader.length_bytes _) (by decide +kernel) (by decide +kernel) fun mem => ?_
  rw [chksumOk, beq_iff_eq]
  exact TarHeader.taruOtoul_chksum _ _ mem

theorem bufferAgrees_fileRecord :
    BufferAgrees .blank {} false {} .unix fileRecord.bytes :=
  (bufferAgrees_iff headerSequence_fileRecord .blank {} false {} .unix).mpr
    (TarHeader.length_bytes _)

/-- The record of a long name of two bytes. -/
def longnameRecord : TarHeader where
  size := octalField 11 2 0
  typeflag := gnuTypeLongname

/-- The block of the long name `g`. -/
def longnameData : CField 512 := .strncpy 512 (chars ['g'])

/-- A sequence of a long name and a file record is valid, and a read from a
buffer does not agree on it. -/
theorem not_bufferAgrees_longname :
    HeaderSequence (longnameRecord.bytes ++ (longnameData.bytes ++ fileRecord.bytes)) ∧
      ¬ BufferAgrees .blank {} false {} .unix
        (longnameRecord.bytes ++ (longnameData.bytes ++ fileRecord.bytes)) := by
  have htype : typeflagAt longnameRecord.bytes = gnuTypeLongname := by decide +kernel
  constructor
  · refine .ext _ _ _ 2 (TarHeader.length_bytes _) (.inl htype) ?_ (by decide)
      longnameData.size_eq (fun h => absurd (htype.symm.trans h) (by decide))
      headerSequence_fileRecord
    intro mem
    rw [TarHeader.drop_size]
    exact taruOtoul_octalField 2 (by decide) (by decide) (by decide) _
  · rintro ⟨fuel, r, r', -, hbuf, -, hret, hall⟩
    obtain ⟨r₁, hrun, hr⟩ := Outcome.bind_eq_returned.mp hbuf
    cases hr
    exact buffer_ret_ne (TarHeader.length_bytes _) (.inl htype) (TarHeader.length_bytes _).ge hrun
      (hret.trans hall)

end Swbis.Taru
