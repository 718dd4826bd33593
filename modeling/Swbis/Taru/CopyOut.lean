import Swbis.Taru.RecordAgain
import Swbis.Taru.Cpio
import Swbis.Taru.Safewrite
import Swbis.Misc.DigsCopy
import Swbis.Misc.SwvarfsTar

/-!
# Copying an archive

`taru_process_copy_out` reads the members of a tar archive and writes them again, to a
tar archive here.  Nothing of a member is carried to the output but what the reader
finds in its header, and the data.

An archive of members whose records keep their file headers comes out as it went in
(`taruProcessCopyOut_archive`).  The loop ends at the records of NULs only.  An input
that ends behind a member is an error (`taruProcessCopyOut_noTrailer`), and the copy of an
input with nothing in it does not end (`taruProcessCopyOut_empty`).

Headers, padding and trailer are written by `taru_safewrite`, whose value is right only
if it needs one write (`allOrError_iff`); so the length is what the copy wrote only where
the output takes every write whole.  A header of several records is taken to arrive whole.
-/

namespace Swbis.Taru

open CLib Swbis.Misc

/-! ## The code -/

/-- `ahsStaticCreateFilehdr`, at a time. -/
def ahsStaticCreateFilehdr (time : UInt64) : FileHdr where
  cMode := 0o400
  cUid := 0o7777777
  cGid := 0o7777777
  cMtime := time
  cCtime := time
  cAtime := time
  cCu := cBySys
  cCg := cBySys
  cIsTarLnktype := -1

/-- `taru_safewrite` of no more than a record. -/
def safewrite (fd : Sink) (buf : Bytes) : Int × Sink :=
  if buf.length = 0 then (0, fd)
  else
    let r := fd.write buf
    if r.1 < buf.length ∧ 0 < r.1 then safewrite r.2 (buf.drop r.1.toNat)
    else (if r.1 < 0 then -buf.length else buf.length, r.2)
termination_by buf.length
decreasing_by
  next hpart =>
    rw [List.length_drop]
    change (fd.write buf).1 < buf.length ∧ 0 < (fd.write buf).1 at hpart
    omega

/-- `tarui_tape_buffered_write` without a header buffer.  Without a descriptor it fails. -/
def taruiTapeBufferedWrite (bs : Bytes) (c : DigsCopy) : Int × DigsCopy :=
  match c.ofd with
  | none => (-bs.length, c)
  | some fd => ((safewrite fd bs).1, { c with ofd := some (safewrite fd bs).2 })

/-- `taru_tape_pad_output` for the tar formats. -/
def taruTapePadOutput (offset : Nat) (c : DigsCopy) : Int × DigsCopy :=
  if c.ofd.isNone then (0, c)
  else if tapePad offset ≠ [] then taruiTapeBufferedWrite (tapePad offset) c
  else (0, c)

/-- What a header writer emits is written, and the value is the writer's.  For a header of
one record that is the value of `taru_safewrite`. -/
def writeRecords (out : Bytes) (retval : Int) (c : DigsCopy) : Int × DigsCopy :=
  if out.length = tarRecordSize then taruiTapeBufferedWrite out c
  else (retval, { c with ofd := c.ofd.map fun fd => { fd with out := fd.out ++ out } })

/-- `taru_digs_init (digs, DIGS_ENABLE_CLEAR, 0)`, if there are any. -/
def clearDigs (c : DigsCopy) : Outcome DigsCopy :=
  match c.digs with
  | none => .returned c
  | some digs => taruDigsInit digs (-1) >>= fun digs => .returned { c with digs := some digs }

/-- `taru_tape_skip_padding` for the tar formats; a short read is no error. -/
def taruTapeSkipTarPadding (ifd : InDes) (offset : UInt64) : InDes :=
  let pad := (512 - offset.toNat % 512) % 512
  if pad ≠ 0 then (taruTapeBufferedRead ifd pad).2.2 else ifd

/-- The loop of `taru_write_archive_trailer`. -/
def writeNullBlocks : Nat → DigsCopy → Int × DigsCopy
  | 0, c => (0, c)
  | nblock + 1, c =>
      let r := taruiTapeBufferedWrite (List.replicate 512 0) c
      (r.1 + (writeNullBlocks nblock r.2).1, (writeNullBlocks nblock r.2).2)

/-- `taru_write_archive_trailer` for the tar formats: the value returned, and the output.
`blocksizeB1` is the flag `TARU_TAR_GNU_BLOCKSIZE_B1`. -/
def taruWriteArchiveTrailer (ioBlockSize bytesWritten : Nat) (blocksizeB1 : Bool)
    (flags : TarFlags) (c : DigsCopy) : Int × DigsCopy :=
  let gnuTarBlockSize := if ioBlockSize ≠ 0 then ioBlockSize else 10240
  let partRecord := bytesWritten % 512 ≠ 0
  let nblock :=
    if ¬partRecord ∧ blocksizeB1 then
      if flags.beLikeStar then 3 else 2
    else if ¬partRecord ∧ flags.gnuOldgnutar then
      let nTarBlocks := gnuTarBlockSize / 512
      let nblock := nTarBlocks - bytesWritten % gnuTarBlockSize / 512
      if nblock < 2 then nblock + nTarBlocks else nblock
    else 2
  let r := writeNullBlocks nblock c
  (if partRecord then -1 else r.1, r.2)

/-- The writer gets the flags of `TARU`. -/
def WriteEnv.ofTaru (env : WriteEnv) : WriteEnv := { env with flags := env.taruTarheaderflags }

/-- The link record of the copy: nothing is added to it or found in it. -/
def copyLinks : Option Hllist := some { disableFind := true, disableAdd := true }

/-- Where the loop of the copy ends. -/
structure CopyLoopEnd where
  ret : Int
  retvalx : Int
  ifd : InDes
  c : DigsCopy

/-- What the copy leaves. -/
structure CopyEnd where
  ret : Int
  /-- What is stored in `*nb`, if anything is. -/
  nb : Option Int
  ifd : InDes
  c : DigsCopy

section

variable (o : ByteOrder) (unaligned : Bool)

/-- `taru_write_archive_member_data`, with an input and without `fout`: the value
returned, the input and the output. -/
def taruWriteArchiveMemberData (hdr : FileHdr) (ifd : InDes) (c : DigsCopy) :
    Outcome (Int × InDes × DigsCopy) :=
  let size := hdr.cFilesize.toInt64.toInt
  if hdr.fileType = cpIfreg ∧ hdr.cTarLinkname.strlen = 0 then
    swlibPumpAmount8 o unaligned size ifd { c with adjunctOfd := none } >>= fun (ret, ifd, c) =>
      if ret < 0 then .returned (-1, ifd, c)
      else if ret ≠ size then .returned (-1, ifd, c)
      else
        let pad := taruTapePadOutput hdr.cFilesize.toNat c
        .returned (if ret + pad.1 < 0 then -1 else ret + pad.1, ifd, pad.2)
  else .returned (0, ifd, c)

/-- `tarui_write_archive_member_` for the tar formats.  The file header of an early
return is a new one. -/
def taruiWriteArchiveMember (env : WriteEnv) (linkrecord : Option Hllist) (hdr0 : FileHdr)
    (ifd : InDes) (c : DigsCopy) : Outcome (Int × InDes × DigsCopy) :=
  let x := taruWriteArchiveMemberHeader env linkrecord { hdr0 with cChksum := 0 }
  x.result >>= fun w =>
    match w with
    | .error ret =>
        let c := (writeRecords x.out ret c).2
        if ret < 0 then .returned (ret, ifd, c)
        else clearDigs c >>= fun c => .returned (ret, ifd, c)
    | .ok w =>
        let (ret, c) := writeRecords x.out w.retval c
        if ret < 0 then .returned (ret, ifd, c)
        else if w.hdr.fileType = cpIfreg ∧ w.hdr.cTarLinkname.strlen = 0 ∧ 0 < ret then
          taruWriteArchiveMemberData o unaligned w.hdr ifd c >>= fun (ret1, ifd, c) =>
            .returned (if ret1 < 0 then ret1 else ret + ret1, ifd, c)
        else clearDigs c >>= fun c => .returned (ret, ifd, c)

/-- The loop of `taru_process_copy_out`. -/
def copyOutLoop (env : WriteEnv) (erange : Bool) :
    Nat → FileHdr → InDes → DigsCopy → Int → Outcome CopyLoopEnd
  | 0, _, _, _, _ => .outOfFuel
  | fuel + 1, hdr0, ifd, c, retvalx =>
      taruReadInTarHeader2 env.db {} (fuel + 1) erange hdr0 (.inDes ifd) >>= fun r =>
        match r.src with
        | .buffer _ _ _ => .fault
        | .inDes ifd =>
            if r.ret < 0 then .returned ⟨-11, retvalx, ifd, c⟩
            else if r.eoa ≠ 0 then .returned ⟨0, retvalx, ifd, c⟩
            else
              taruiWriteArchiveMember o unaligned env.ofTaru copyLinks r.hdr ifd c >>=
                fun (retx, ifd, c) =>
                  if retx < 0 then .returned ⟨-9, retvalx, ifd, c⟩
                  else
                    copyOutLoop env erange fuel { r.hdr with cChksum := 0 }
                      (taruTapeSkipTarPadding ifd r.hdr.cFilesize) c (retvalx + retx)

/-- `taru_process_copy_out` to a tar format, without a listing. -/
def taruProcessCopyOut (env : WriteEnv) (erange : Bool) (fuel : Nat) (time : UInt64) (ifd : InDes)
    (c : DigsCopy) : Outcome CopyEnd :=
  copyOutLoop o unaligned env erange fuel (ahsStaticCreateFilehdr time) ifd c 0 >>= fun e =>
    if e.ret < 0 then .returned ⟨e.ret, none, e.ifd, e.c⟩
    else
      let (ret, c) := taruWriteArchiveTrailer 512 0 false {} e.c
      if ret ≤ 0 then .returned ⟨-10, none, e.ifd, c⟩
      else .returned ⟨0, some (e.retvalx + ret), e.ifd, c⟩

/-! ## The steps of the copy -/

/-- The descriptor takes `n` bytes in every write, and so all that it is given if that is
no more. -/
def TakesWhole (n : Nat) (fd : Option Sink) : Prop := ∀ s ∈ fd, ∀ k, (n : Int) ≤ s.pattern.takes k

section

variable {n : Nat} {fd fd' : Option Sink} {s : Sink} {bs : Bytes} {c : DigsCopy}

theorem TakesWhole.neverFails (h : TakesWhole n fd) (hn : 0 < n) : NeverFails fd := by
  intro s hs k
  have hle := h s hs k
  omega

theorem TakesWhole.mono {m : Nat} (h : TakesWhole n fd) (hle : m ≤ n) : TakesWhole m fd := by
  intro s hs k
  have hn := h s hs k
  omega

theorem TakesWhole.wrote (h : TakesWhole n fd) (hwrote : Wrote fd fd' bs) : TakesWhole n fd' := by
  cases hwrote with
  | none => exact h
  | some hpat _ =>
      intro s' hs' k
      rw [← Option.some.inj hs', hpat]
      exact h _ rfl k

/-- A descriptor that takes a write whole. -/
theorem write_whole (hle : (bs.length : Int) ≤ s.pattern.takes s.writes) :
    (s.write bs).1 = bs.length ∧ Wrote (some s) (some (s.write bs).2) bs := by
  have hfull : ¬s.pattern.Short s.writes bs := Int.not_lt.mpr hle
  exact ⟨(Sink.write_fst_eq_iff bs).mpr hfull, .some rfl (Sink.write_out_of_not_short hfull)⟩

/-- One write is enough. -/
theorem safewrite_whole (hle : (bs.length : Int) ≤ s.pattern.takes s.writes) :
    (safewrite s bs).1 = bs.length ∧ Wrote (some s) (some (safewrite s bs).2) bs := by
  obtain ⟨hret, hwrote⟩ := write_whole hle
  rw [safewrite]
  split
  next hnil =>
    rw [List.length_eq_zero_iff.mp hnil]
    exact ⟨rfl, .refl _⟩
  next hsome =>
    dsimp only
    rw [hret, if_neg (by omega), if_neg (by omega)]
    exact ⟨rfl, hwrote⟩

theorem taruiTapeBufferedWrite_whole (h : TakesWhole n c.ofd) (hle : bs.length ≤ n)
    (hofd : c.ofd.isSome) :
    (taruiTapeBufferedWrite bs c).1 = bs.length ∧
      Wrote c.ofd (taruiTapeBufferedWrite bs c).2.ofd bs := by
  obtain ⟨s, hs⟩ := Option.isSome_iff_exists.mp hofd
  have htakes := h s hs s.writes
  obtain ⟨hret, hwrote⟩ := @safewrite_whole s bs (by omega)
  rw [taruiTapeBufferedWrite, hs]
  exact ⟨hret, hwrote⟩

/-- The padding is written. -/
theorem taruTapePadOutput_whole (h : TakesWhole tarRecordSize c.ofd) (offset : Nat)
    (hofd : c.ofd.isSome) :
    (taruTapePadOutput offset c).1 = (tapePad offset).length ∧
      Wrote c.ofd (taruTapePadOutput offset c).2.ofd (tapePad offset) := by
  have hlen : (tapePad offset).length ≤ tarRecordSize := by
    rw [tapePad, List.length_replicate, tarRecordSize]
    omega
  have hsome : ¬c.ofd.isNone = true := by
    rw [Option.isNone_eq_false_iff.mpr hofd]
    exact Bool.false_ne_true
  rw [taruTapePadOutput, if_neg hsome]
  split
  · exact taruiTapeBufferedWrite_whole h hlen hofd
  next hnil =>
    rw [Decidable.not_not.mp hnil]
    exact ⟨rfl, .refl _⟩

/-- A header of one record is written. -/
theorem writeRecords_one (h : TakesWhole tarRecordSize c.ofd) (hone : bs.length = tarRecordSize)
    (hofd : c.ofd.isSome) (retval : Int) :
    (writeRecords bs retval c).1 = tarRecordSize ∧
      Wrote c.ofd (writeRecords bs retval c).2.ofd bs := by
  rw [writeRecords, if_pos hone, ← hone]
  exact taruiTapeBufferedWrite_whole h (Nat.le_of_eq hone) hofd

/-- Nothing is written of a header that was not made. -/
theorem writeRecords_nil (retval : Int) (c : DigsCopy) :
    ∃ c', writeRecords [] retval c = (retval, c') ∧ Wrote c.ofd c'.ofd [] := by
  refine ⟨_, if_neg (by decide), ?_⟩
  change Wrote c.ofd (c.ofd.map fun fd => { fd with out := fd.out ++ [] }) []
  cases c.ofd with
  | none => exact .none
  | some s => exact .some rfl rfl

/-- Blocks of NULs are written. -/
theorem writeNullBlocks_whole (h : TakesWhole tarRecordSize c.ofd) (hofd : c.ofd.isSome)
    (nblock : Nat) :
    (writeNullBlocks nblock c).1 = 512 * nblock ∧
      Wrote c.ofd (writeNullBlocks nblock c).2.ofd (List.replicate (512 * nblock) 0) := by
  induction nblock generalizing c with
  | zero => exact ⟨rfl, .refl _⟩
  | succ nblock ih =>
      obtain ⟨hret, hwrote⟩ := @taruiTapeBufferedWrite_whole tarRecordSize (List.replicate 512 0) c h
        (Nat.le_of_eq List.length_replicate) hofd
      obtain ⟨hret', hwrote'⟩ := ih (h.wrote hwrote) (hwrote.isSome_eq.trans hofd)
      have hsplit : 512 * (nblock + 1) = 512 + 512 * nblock := by omega
      rw [List.length_replicate] at hret
      rw [writeNullBlocks, hsplit, ← List.replicate_append_replicate]
      refine ⟨?_, hwrote.trans hwrote'⟩
      dsimp only
      rw [hret, hret']
      omega

/-- The trailer of an archive: two records of NULs. -/
def trailerBytes : Bytes := List.replicate 1024 0

theorem length_trailerBytes : trailerBytes.length = 1024 := List.length_replicate

theorem taruWriteArchiveTrailer_whole (h : TakesWhole tarRecordSize c.ofd) (hofd : c.ofd.isSome) :
    (taruWriteArchiveTrailer 512 0 false {} c).1 = 1024 ∧
      Wrote c.ofd (taruWriteArchiveTrailer 512 0 false {} c).2.ofd trailerBytes :=
  writeNullBlocks_whole h hofd 2

end

/-- The value and the bytes are those of `taruSafewrite`. -/
theorem safewriteLoop_safewrite (s : Sink) {buf : Bytes} (hpos : 0 < buf.length)
    (hlt : buf.length < 2 ^ 31) {fuel : Nat} (hfuel : buf.length ≤ fuel) :
    ∃ e, safewriteLoop s.pattern fuel s.writes buf = .returned e ∧ e.ret = (safewrite s buf).1 ∧
      (safewrite s buf).2.out = s.out ++ e.out := by
  induction fuel generalizing s buf with
  | zero => omega
  | succ fuel ih =>
      have hamount : toCInt (buf.length : Int) = buf.length := toCInt_of_lt hlt
      rw [safewrite, if_neg (by omega), safewriteLoop]
      simp only [hamount]
      change ∃ e, (if (s.write buf).1 < buf.length ∧ 0 < (s.write buf).1 then _ else _) = _ ∧ _
      split
      next hpart =>
        have hdrop : (buf.drop (s.write buf).1.toNat).length =
            buf.length - (s.write buf).1.toNat := List.length_drop
        obtain ⟨e, he, hret, hout⟩ := ih (s.write buf).2
          (show 0 < (buf.drop (s.write buf).1.toNat).length by omega) (by omega) (by omega)
        refine ⟨{ e with out := buf.take (s.write buf).1.toNat ++ e.out }, ?_, hret, ?_⟩
        · exact congrArg (· >>= _) he
        · rw [hout, Sink.write_out, List.append_assoc]
          rfl
      next hdone =>
        refine ⟨_, rfl, ?_, rfl⟩
        change (if (s.write buf).1 < 0 then toCInt (-(buf.length : Int)) else _) = _
        rw [toCInt_of_range (by omega) (by omega)]

/-- The texts are cleared. -/
theorem clearDigs_returned (c : DigsCopy) :
    ∃ c', clearDigs c = .returned c' ∧ c'.ofd = c.ofd := by
  cases hdigs : c.digs with
  | none => exact ⟨c, by rw [clearDigs, hdigs], rfl⟩
  | some digs =>
      obtain ⟨d, hd, -⟩ := taruDigsInit_spec digs (-1)
      refine ⟨{ c with digs := some d }, ?_, rfl⟩
      rw [clearDigs, hdigs]
      dsimp only
      rw [hd]
      rfl

/-- The data of a member and the padding behind them. -/
def padded (data : Bytes) : Bytes := data ++ tapePad data.length

/-- The data are copied, and the output is padded. -/
theorem taruWriteArchiveMemberData_append {hdr : FileHdr} {ifd : InDes} {c : DigsCopy}
    {data rest : Bytes} (hreg : hdr.fileType = cpIfreg) (hlink : hdr.cTarLinkname.strlen = 0)
    (hsize : hdr.cFilesize.toNat = data.length) (hlt : data.length < 2 ^ 63)
    (hdata : ifd.data = data ++ rest) (hofd : c.ofd.isSome) (hwhole : TakesWhole tarRecordSize c.ofd) :
    ∃ ifd' c', taruWriteArchiveMemberData o unaligned hdr ifd c =
        .returned ((padded data).length, ifd', c') ∧ ifd'.data = rest ∧
        Wrote c.ofd c'.ofd (padded data) := by
  have hfine : NeverFails c.ofd := hwhole.neverFails (by decide)
  have hint : hdr.cFilesize.toInt64.toInt = data.length := by
    rw [← hsize]
    change hdr.cFilesize.toBitVec.toInt = hdr.cFilesize.toBitVec.toNat
    rw [BitVec.toInt_eq_toNat_of_lt]
    change 2 * hdr.cFilesize.toNat < _
    omega
  have hcopied : pumpData data.length ifd = data := by
    rw [pumpData, if_pos ⟨Int.natCast_nonneg _, by
      rw [hdata, List.length_append]
      omega⟩, Int.toNat_natCast, hdata, List.take_left]
  have hcases := DigsCopy.swlibIDigsCopy_cases o unaligned tapeReader data.length ifd
    { c with adjunctOfd := none } hfine.neverStalls neverStalls_none
  rw [copied_tapeReader, undelivered_wanted, hcopied, if_neg (by omega)] at hcases
  rcases hcases with ⟨_, -, hfails⟩ | ⟨ifd', c', hpump, hrest, hwrote, -⟩
  · exact absurd ⟨trivial, hfine, neverFails_none⟩ hfails
  have hsome : c'.ofd.isSome := by
    rw [hwrote.isSome_eq]
    exact hofd
  obtain ⟨hpad, hpadded⟩ := taruTapePadOutput_whole (hwhole.wrote hwrote) data.length hsome
  refine ⟨ifd', (taruTapePadOutput data.length c').2, ?_, ?_, hwrote.trans hpadded⟩
  · rw [taruWriteArchiveMemberData, if_pos ⟨hreg, hlink⟩, hint, swlibPumpAmount8, hpump,
      Outcome.returned_bind]
    dsimp only
    rw [if_neg (by omega), if_neg (fun h => h rfl), hsize, hpad, if_neg (by omega), padded,
      List.length_append, Int.natCast_add]
  · change tapeReader.rest ifd' = rest
    rw [hrest, Int.toNat_natCast]
    change ifd.data.drop data.length = rest
    rw [hdata, List.drop_left]

/-- The padding of the input is skipped. -/
theorem taruTapeSkipTarPadding_append {ifd : InDes} {size : UInt64} {rest : Bytes}
    (hdata : ifd.data = tapePad size.toNat ++ rest) :
    (taruTapeSkipTarPadding ifd size).data = rest := by
  have hlen : (tapePad size.toNat).length = (512 - size.toNat % 512) % 512 := List.length_replicate
  obtain ⟨kind, data⟩ := ifd
  dsimp only at hdata
  rw [taruTapeSkipTarPadding, ← hlen]
  split
  next hpad => rw [hdata, taruTapeBufferedRead_append rfl]
  next hnone =>
    have hnil : tapePad size.toNat = [] := List.length_eq_zero_iff.mp (by omega)
    rw [hdata, hnil]
    rfl

/-- The size of the data behind the record of a file header. -/
def dataSize (hdr : FileHdr) : Nat :=
  if hdr.fileType = cpIfreg ∧ hdr.cTarLinkname.strlen = 0 then hdr.cFilesize.toNat else 0

/-- A member whose header is one record is written with its data. -/
theorem taruiWriteArchiveMember_append {env : WriteEnv} {linkrecord linkrecord' : Option Hllist}
    {hdr0 hdr : FileHdr} {block : Bytes} {ifd : InDes} {c : DigsCopy} {data rest : Bytes}
    (hwritten : taruWriteArchiveMemberHeader env linkrecord { hdr0 with cChksum := 0 } =
      ⟨block, .returned (.ok ⟨tarRecordSize, linkrecord', hdr⟩)⟩)
    (hone : block.length = tarRecordSize)
    (hsize : data.length = dataSize hdr) (hlt : data.length < 2 ^ 63)
    (hdata : ifd.data = data ++ rest) (hofd : c.ofd.isSome) (hwhole : TakesWhole tarRecordSize c.ofd) :
    ∃ ifd' c', taruiWriteArchiveMember o unaligned env linkrecord hdr0 ifd c =
        .returned (tarRecordSize + (padded data).length, ifd', c') ∧ ifd'.data = rest ∧
        Wrote c.ofd c'.ofd (block ++ padded data) := by
  obtain ⟨hret₀, hput⟩ := writeRecords_one hwhole hone hofd tarRecordSize
  obtain ⟨c₀, hc₀⟩ : ∃ c₀, c₀ = (writeRecords block tarRecordSize c).2 := ⟨_, rfl⟩
  have hpair : writeRecords block tarRecordSize c = (↑tarRecordSize, c₀) :=
    Prod.ext hret₀ hc₀.symm
  rw [← hc₀] at hput
  have hpos : (0 : Int) < tarRecordSize := by decide
  rw [taruiWriteArchiveMember, hwritten]
  dsimp only
  rw [Outcome.returned_bind]
  dsimp only
  rw [hpair]
  dsimp only
  rw [if_neg (by omega)]
  by_cases hreg : hdr.fileType = cpIfreg ∧ hdr.cTarLinkname.strlen = 0
  · rw [dataSize, if_pos hreg] at hsize
    obtain ⟨ifd', c', hret, hrest, hwrote⟩ := taruWriteArchiveMemberData_append o unaligned hreg.1
      hreg.2 hsize.symm hlt hdata (hput.isSome_eq.trans hofd) (hwhole.wrote hput)
    rw [if_pos ⟨hreg.1, hreg.2, hpos⟩, hret, Outcome.returned_bind, if_neg (by omega)]
    exact ⟨ifd', c', rfl, hrest, hput.trans hwrote⟩
  · rw [dataSize, if_neg hreg] at hsize
    have hnil := List.length_eq_zero_iff.mp hsize
    obtain ⟨c', hclear, hsame⟩ := clearDigs_returned c₀
    rw [if_neg fun h => hreg ⟨h.1, h.2.1⟩, hclear, Outcome.returned_bind]
    rw [hnil] at hdata ⊢
    refine ⟨ifd, c', rfl, hdata, ?_⟩
    rw [hsame]
    exact hput.trans (.refl _)

end

/-! ## Members that are copied -/

theorem findLink_none (env : WriteEnv) (hdr : FileHdr) : findLink env none hdr = none := by
  rw [findLink, activeRecord]
  split
  · rfl
  · rfl

theorem findLink_copyLinks (env : WriteEnv) (hdr : FileHdr) :
    findLink env copyLinks hdr = none := by
  rw [findLink, activeRecord]
  split
  · rfl
  · rfl

/-- A member of an archive. -/
structure Member where
  hdr : FileHdr
  data : Bytes

namespace Member

/-- The bytes of a member. -/
def bytes (env : WriteEnv) (m : Member) : Bytes :=
  (taruWriteArchiveMemberHeader env none m.hdr).out ++ padded m.data

/-- The header of a member is one record that keeps the file header, and the data are
as long as it says. -/
structure Settled (env : WriteEnv) (m : Member) : Prop where
  plain : Plain env m.hdr
  recorded : Recorded env m.hdr
  kept : RecordKept env (recordOf env m.hdr)
  length_data : m.data.length = dataSize m.hdr

end Member

/-- An archive. -/
def archive (env : WriteEnv) (ms : List Member) : Bytes :=
  ms.flatMap (Member.bytes env) ++ trailerBytes

section

variable {env : WriteEnv} {hdr r : FileHdr}

/-- The size that is read is the one of the data. -/
theorem ReadAgain.toNat_cFilesize (hr : ReadAgain env (recordOf env hdr) r)
    (hplain : Plain env hdr) (hrec : Recorded env hdr) : r.cFilesize.toNat = dataSize hdr := by
  obtain ⟨htype, hlink, -, hsize⟩ := recordOf_fields env hdr
  rw [dataSize]
  split
  next hreg =>
    rw [hr.size_regular hplain hreg.1 (CString.strlen_eq_zero.mp hreg.2)]
  next hnone =>
    suffices hzero : sizeRead (recordOf env hdr) = 0 by
      rw [hr.size, hzero]
      rfl
    rw [sizeRead, sizeToWrite, htype, hlink, hsize, sizeByType]
    rcases hrec with hreg | hdir | ⟨-, hfifo | hchr | hblk⟩ | ⟨hlnk, -⟩
    · rw [hreg, if_pos rfl, if_pos fun h => hnone ⟨hreg, h⟩]
      rfl
    · rw [hdir]
      rfl
    · rw [hfifo]
      rfl
    · rw [hchr]
      rfl
    · rw [hblk]
      rfl
    · rw [hlnk]
      rfl

/-- The data that are announced for what was read. -/
theorem ReadAgain.dataSize_recordOf (hr : ReadAgain env (recordOf env hdr) r)
    (hplain : Plain env hdr) (hrec : Recorded env hdr) :
    dataSize (recordOf env r) = dataSize hdr := by
  obtain ⟨htype, hlink, -, hsize⟩ := recordOf_fields env r
  obtain ⟨htype₀, hlink₀, -⟩ := recordOf_fields env hdr
  rw [dataSize, htype, hlink, hsize, hr.link, linkRead, hr.fileType_eq, htype₀, hlink₀]
  by_cases hreg : hdr.fileType = cpIfreg
  · rw [if_pos (Or.inl hreg), sizeByType, hr.fileType_eq, if_pos hreg,
      hr.toNat_cFilesize hplain hrec, dataSize]
    split
    · rfl
    · rfl
  · rw [if_neg fun h => hreg h.1, dataSize, if_neg fun h => hreg h.1]

end

/-- What is read of a record from an input. -/
theorem taruReadInTarHeader2_record (db : SysDb) (flags : TarFlags) {hdr : FileHdr}
    {username groupname : CString} {wflags : TarFlags} {t : TarHeader} {f : TypeFields}
    (w : t.WrittenFor db hdr username groupname wflags f)
    (hplain : isExtHeaderType f.typeflag = false) {ifd : InDes} {rest : Bytes}
    (hdata : ifd.data = t.bytes ++ rest) (erange : Bool) (hdr0 : FileHdr) :
    ∃ chksum, ∀ fuel, taruReadInTarHeader2 db flags (fuel + 1) erange hdr0 (.inDes ifd) =
      .returned ⟨tarRecordSize, 0,
        setFromTarHeader db flags (t.bytes ++ []) { beginHeader hdr0 with cChksum := chksum },
        .inDes ⟨ifd.kind, rest⟩⟩ := by
  obtain ⟨kind, data⟩ := ifd
  dsimp only at hdata ⊢
  have hfetch := fetch_record kind rest t.length_bytes w.nullBlock_eq 0 [] 0
    (by rw [w.typeflagAt_eq, hplain])
  refine ⟨taruOtoul ((t.bytes ++ []).drop 148), fun fuel => ?_⟩
  rw [taruReadInTarHeader2, iTaruReadInTarHeader2, hdata, hfetch]
  simp only [Outcome.returned_bind, readInRecord_ok db flags _ (w.chksumOk_append [])]
  rw [overrideUstar_of_noMask rfl]
  rfl

/-- The end of an archive is found at the trailer. -/
theorem taruReadInTarHeader2_trailer (db : SysDb) (flags : TarFlags) {ifd : InDes} {rest : Bytes}
    (hdata : ifd.data = trailerBytes ++ rest) (fuel : Nat)
    (erange : Bool) (hdr0 : FileHdr) :
    ∃ hdr, taruReadInTarHeader2 db flags (fuel + 1) erange hdr0 (.inDes ifd) =
      .returned ⟨1024, 1024, hdr, .inDes ⟨ifd.kind, rest⟩⟩ := by
  obtain ⟨kind, data⟩ := ifd
  dsimp only at hdata ⊢
  have hzeros : trailerBytes ++ rest =
      List.replicate tarRecordSize 0 ++ (List.replicate tarRecordSize 0 ++ rest) := by
    rw [← List.append_assoc, List.replicate_append_replicate]
    rfl
  have hlen : (List.replicate tarRecordSize (0 : UInt8)).length = tarRecordSize :=
    List.length_replicate
  have hfetch : fetch { src := .inDes ⟨kind, data⟩ } =
      .returned (.trailer 1024 (.inDes ⟨kind, rest⟩)) := by
    rw [hdata, hzeros, fetch, readRecord, taruTapeBufferedRead_append hlen]
    simp only [Outcome.returned_bind, nullBlock_nuls, if_true, fetchTrailer,
      taruTapeBufferedRead_append hlen, and_self]
    rfl
  rw [taruReadInTarHeader2, iTaruReadInTarHeader2, hfetch]
  exact ⟨_, rfl⟩

/-! ## Runs -/

/-- A new file header. -/
theorem carried_ahsStaticCreateFilehdr (time : UInt64) : Carried (ahsStaticCreateFilehdr time) where
  user := rfl
  group := rfl
  devMaj := Nat.zero_le _
  devMin := Nat.zero_le _
  slots := rfl

section

variable (o : ByteOrder) (unaligned : Bool) {env : WriteEnv} {ifd : InDes} {c : DigsCopy}
  {rest : Bytes}

/-- The file header behind a member. -/
structure Left (env : WriteEnv) (hdr : FileHdr) : Prop where
  carried : Carried hdr
  plain : Plain env hdr
  recorded : Recorded env hdr

/-- A member is copied. -/
theorem copyOutLoop_member {m : Member} {hdr0 : FileHdr} (h : m.Settled env.ofTaru)
    (hc : Carried hdr0) (hdata : ifd.data = m.bytes env.ofTaru ++ rest) (hofd : c.ofd.isSome)
    (hwhole : TakesWhole tarRecordSize c.ofd) (erange : Bool) :
    ∃ hdr ifd' c', Left env.ofTaru hdr ∧ ifd'.data = rest ∧
      Wrote c.ofd c'.ofd (m.bytes env.ofTaru) ∧ ∀ fuel retvalx,
        copyOutLoop o unaligned env erange (fuel + 1) hdr0 ifd c retvalx =
          copyOutLoop o unaligned env erange fuel hdr ifd' c'
            (retvalx + (m.bytes env.ofTaru).length) := by
  -- the record of the member
  have hlink := h.plain.strlen_link_le
  rw [← (recordOf_fields env.ofTaru m.hdr).2.1] at hlink
  obtain ⟨t, hok⟩ := h.kept.exists_record (recorded_recordOf h.recorded) hlink
  obtain ⟨f, w⟩ := writtenFor_of_ok hok
  have hbytes : m.bytes env.ofTaru = t.bytes ++ padded m.data := by
    obtain ⟨linkrecord', hwritten⟩ :=
      h.plain.written (findLink_none env.ofTaru) h.recorded hok
    rw [Member.bytes, hwritten]
  rw [hbytes, List.append_assoc] at hdata
  -- what is read from it, and what that is written as
  have hplain := ((h.kept.typeWrite (recorded_recordOf h.recorded) hlink w).read).1
  obtain ⟨r, hr⟩ : ∃ r, r = setFromTarHeader env.db {} (t.bytes ++ [])
      { beginHeader hdr0 with cChksum := 0 } := ⟨_, rfl⟩
  have hagain : ReadAgain env.ofTaru (recordOf env.ofTaru m.hdr) r := by
    rw [hr]
    exact h.kept.readAgain (recorded_recordOf h.recorded) hlink w {} [] _ rfl rfl
  have hcarried : Carried r := by
    rw [hr]
    exact ⟨hc.user, hc.group, hc.devMaj, hc.devMin, hc.slots⟩
  have hleft : Left env.ofTaru r :=
    ⟨hcarried, hagain.plain h.plain h.kept hcarried, hagain.recorded h.recorded⟩
  have hok' := hagain.write h.plain h.recorded h.kept hcarried hok
  obtain ⟨linkrecord', hwritten⟩ :=
    hleft.plain.written (findLink_copyLinks env.ofTaru) hleft.recorded hok'
  have hsize := hagain.toNat_cFilesize h.plain h.recorded
  have hlt : m.data.length < 2 ^ 63 := by
    have hle := sizeRead_le (recordOf env.ofTaru m.hdr)
    rw [← hagain.size, hsize, ← h.length_data] at hle
    exact Nat.lt_of_le_of_lt hle (by decide)
  rw [padded, List.append_assoc] at hdata
  obtain ⟨chksum, hread⟩ := taruReadInTarHeader2_record env.db {} w hplain hdata erange hdr0
  have hsame : { setFromTarHeader env.db {} (t.bytes ++ [])
      { beginHeader hdr0 with cChksum := chksum } with cChksum := 0 } = r := by
    rw [hr]
    rfl
  have hfilesize := congrArg FileHdr.cFilesize hsame
  dsimp only at hfilesize
  generalize setFromTarHeader env.db {} (t.bytes ++ [])
    { beginHeader hdr0 with cChksum := chksum } = r' at hread hsame hfilesize
  have hwritten' : taruWriteArchiveMemberHeader env.ofTaru copyLinks { r' with cChksum := 0 } = _ :=
    (congrArg _ hsame).trans hwritten
  have hbehind : (⟨ifd.kind, m.data ++ (tapePad m.data.length ++ rest)⟩ : InDes).data =
      m.data ++ (tapePad m.data.length ++ rest) := rfl
  obtain ⟨ifd', c', hret, hrest, hwrote⟩ := taruiWriteArchiveMember_append o unaligned hwritten'
    t.length_bytes (h.length_data.trans (hagain.dataSize_recordOf h.plain h.recorded).symm) hlt
    hbehind hofd hwhole
  have hskip : (taruTapeSkipTarPadding ifd' r.cFilesize).data = rest :=
    taruTapeSkipTarPadding_append (by rw [hrest, hsize, h.length_data])
  refine ⟨r, _, c', hleft, hskip, by rw [hbytes]; exact hwrote, fun fuel retvalx => ?_⟩
  rw [copyOutLoop, hread, Outcome.returned_bind]
  dsimp only
  rw [if_neg (by decide), if_neg (fun h => h rfl), hret, Outcome.returned_bind]
  dsimp only
  rw [if_neg (by omega), hsame, hfilesize, hbytes, List.length_append, t.length_bytes,
    Int.natCast_add]

/-- Members are copied one after the other. -/
theorem copyOutLoop_members {ms : List Member} {hdr0 : FileHdr}
    (hms : ∀ m ∈ ms, m.Settled env.ofTaru) (hc : Carried hdr0)
    (hdata : ifd.data = ms.flatMap (Member.bytes env.ofTaru) ++ rest) (hofd : c.ofd.isSome)
    (hwhole : TakesWhole tarRecordSize c.ofd) (erange : Bool) :
    ∃ hdr ifd' c', Carried hdr ∧ (Left env.ofTaru hdr0 ∨ ms ≠ [] → Left env.ofTaru hdr) ∧
      ifd'.data = rest ∧ Wrote c.ofd c'.ofd (ms.flatMap (Member.bytes env.ofTaru)) ∧
      ∀ fuel retvalx, copyOutLoop o unaligned env erange (fuel + ms.length) hdr0 ifd c retvalx =
        copyOutLoop o unaligned env erange fuel hdr ifd' c'
          (retvalx + (ms.flatMap (Member.bytes env.ofTaru)).length) := by
  induction ms generalizing hdr0 ifd c with
  | nil =>
      have hleft : Left env.ofTaru hdr0 ∨ ([] : List Member) ≠ [] → Left env.ofTaru hdr0 :=
        fun h => h.resolve_right fun h => h rfl
      refine ⟨hdr0, ifd, c, hc, hleft, hdata, .refl _, fun fuel retvalx => ?_⟩
      rw [List.flatMap_nil, List.length_nil, List.length_nil, Int.natCast_zero, Int.add_zero,
        Nat.add_zero]
  | cons m ms ih =>
      rw [List.flatMap_cons, List.append_assoc] at hdata
      obtain ⟨hdr₁, ifd₁, c₁, hleft, hdata₁, hwrote, hstep⟩ := copyOutLoop_member o unaligned
        (hms m List.mem_cons_self) hc hdata hofd hwhole erange
      obtain ⟨hdr, ifd', c', hcarried, hlast, hrest, hwrote', hrun⟩ :=
        ih (fun m' hm' => hms m' (List.mem_cons_of_mem _ hm')) hleft.carried hdata₁
          (hwrote.isSome_eq.trans hofd) (hwhole.wrote hwrote)
      refine ⟨hdr, ifd', c', hcarried, fun _ => hlast (.inl hleft), hrest, ?_,
        fun fuel retvalx => ?_⟩
      · rw [List.flatMap_cons]
        exact hwrote.trans hwrote'
      · rw [List.length_cons, ← Nat.add_assoc, hstep, hrun, List.flatMap_cons, List.length_append,
          Int.natCast_add, Int.add_assoc]

/-- **An archive whose members keep their file headers is copied as it is.** -/
theorem taruProcessCopyOut_archive {ms : List Member} (hms : ∀ m ∈ ms, m.Settled env.ofTaru)
    (hdata : ifd.data = archive env.ofTaru ms ++ rest) {s : Sink} (hofd : c.ofd = some s)
    (hwhole : TakesWhole tarRecordSize c.ofd) (erange : Bool) {fuel : Nat} (hfuel : ms.length < fuel)
    (time : UInt64) :
    ∃ ifd' c' s', taruProcessCopyOut o unaligned env erange fuel time ifd c =
        .returned ⟨0, some (archive env.ofTaru ms).length, ifd', c'⟩ ∧ ifd'.data = rest ∧
      c'.ofd = some s' ∧ s'.out = s.out ++ archive env.ofTaru ms := by
  rw [archive, List.append_assoc] at hdata
  obtain ⟨hdr, ifd₁, c₁, -, -, hdata₁, hwrote, hrun⟩ := copyOutLoop_members o unaligned hms
    (carried_ahsStaticCreateFilehdr time) hdata (by rw [hofd]; rfl) hwhole erange
  obtain ⟨n, rfl⟩ : ∃ n, fuel = n + 1 + ms.length := ⟨fuel - ms.length - 1, by omega⟩
  obtain ⟨hdr', hread⟩ := taruReadInTarHeader2_trailer env.db {} hdata₁ n erange hdr
  have hend : copyOutLoop o unaligned env erange (n + 1 + ms.length) (ahsStaticCreateFilehdr time)
      ifd c 0 = .returned ⟨0, (ms.flatMap (Member.bytes env.ofTaru)).length, ⟨ifd₁.kind, rest⟩,
        c₁⟩ := by
    rw [hrun, Int.zero_add, copyOutLoop, hread]
    rfl
  obtain ⟨hret, htrailer⟩ := taruWriteArchiveTrailer_whole (hwhole.wrote hwrote)
    (hwrote.isSome_eq.trans (by rw [hofd]; rfl))
  obtain ⟨c₂, hc₂⟩ : ∃ c₂, c₂ = (taruWriteArchiveTrailer 512 0 false {} c₁).2 := ⟨_, rfl⟩
  have hpair : taruWriteArchiveTrailer 512 0 false {} c₁ = (1024, c₂) := Prod.ext hret hc₂.symm
  rw [← hc₂] at htrailer
  have hall := hwrote.trans htrailer
  rw [hofd] at hall
  obtain ⟨s', hs'⟩ : ∃ s', c₂.ofd = some s' := Option.isSome_iff_exists.mp hall.isSome_eq
  refine ⟨⟨ifd₁.kind, rest⟩, c₂, s', ?_, rfl, hs', ?_⟩
  · rw [taruProcessCopyOut, hend, Outcome.returned_bind]
    dsimp only
    rw [if_neg (by omega), hpair]
    dsimp only
    rw [if_neg (by decide), archive, List.length_append, Int.natCast_add, length_trailerBytes]
    rfl
  · rw [hs'] at hall
    cases hall with
    | some hpat hout => exact hout

/-- A writer for the witnesses: the databases have no entries. -/
def ustarWriter : WriteEnv where
  db := .blank
  format := .ustar
  flags := {}
  taruTarheaderflags := {}
  etarTime := 0
  paxHeaderPid := 1994
  paxHeaderPid_lt := by decide
  linkrecordDisable := false

/-- An owner that has no name. -/
theorem ownerHeld_unnamed {flags : TarFlags} {id : UInt64} (h : id.toNat ≤ tarMax7Octal) :
    OwnerHeld flags (fun _ => none) (fun _ => none) .empty id where
  fits := h
  short := by decide
  named := by
    rw [ownerRead]
    split
    · exact fun h => absurd rfl h
    · exact fun h => absurd rfl h
  unnamed _ := ⟨rfl, fun n h => by cases h⟩

/-- A directory `d/`. -/
def directoryMember : Member where
  hdr := { cName := ⟨chars ['d', '/'], by decide⟩, cMode := 0o755 ||| cpIfdir, cMtime := 1 }
  data := []

/-- A file `d/f` of three bytes. -/
def fileMember : Member where
  hdr := { cName := ⟨chars ['d', '/', 'f'], by decide⟩, cMode := 0o644 ||| cpIfreg, cFilesize := 3
           cUid := 7 }
  data := [1, 2, 3]

theorem settled_directoryMember : directoryMember.Settled ustarWriter.ofTaru where
  plain := ⟨by decide, by decide, rfl⟩
  recorded := by decide
  kept := {
    named := by decide
    held := ⟨by decide, .inl (by decide)⟩
    mark := fun h => absurd h (by decide)
    mode := by decide
    user := ownerHeld_unnamed (by decide)
    group := ownerHeld_unnamed (by decide)
    mtime := by decide
    rdevMaj := by decide
    rdevMin := by decide }
  length_data := by decide

theorem settled_fileMember : fileMember.Settled ustarWriter.ofTaru where
  plain := ⟨by decide, by decide, rfl⟩
  recorded := by decide
  kept := {
    named := by decide
    held := ⟨by decide, .inl (by decide)⟩
    mark := fun h => absurd h (by decide)
    mode := by decide
    user := ownerHeld_unnamed (by decide)
    group := ownerHeld_unnamed (by decide)
    mtime := by decide
    rdevMaj := by decide
    rdevMin := by decide }
  length_data := by decide

theorem settled_twoMembers :
    ∀ m ∈ [directoryMember, fileMember], m.Settled ustarWriter.ofTaru := by
  intro m hm
  rcases List.mem_pair.mp hm with rfl | rfl
  · exact settled_directoryMember
  · exact settled_fileMember

/-- A file: every write is taken whole. -/
def wholeWrites : Sink := ⟨⟨fun _ => 2 ^ 31 - 1, fun _ => by decide⟩, 0, []⟩

theorem takesWhole_wholeWrites {n : Nat} (hn : n < 2 ^ 31) : TakesWhole n (some wholeWrites) := by
  intro s hs k
  rw [← Option.some.inj hs]
  change (n : Int) ≤ 2 ^ 31 - 1
  omega

/-- An archive of a directory and a file. -/
theorem taruProcessCopyOut_archive_two : ∃ ifd' c' s',
    taruProcessCopyOut .little false ustarWriter false 3 0
        ⟨.unix, archive ustarWriter.ofTaru [directoryMember, fileMember] ++ [7]⟩
        { zeroCopy with ofd := some wholeWrites } =
      .returned ⟨0, some (archive ustarWriter.ofTaru [directoryMember, fileMember]).length, ifd',
        c'⟩ ∧
    ifd'.data = [7] ∧ c'.ofd = some s' ∧
    s'.out = wholeWrites.out ++ archive ustarWriter.ofTaru [directoryMember, fileMember] :=
  taruProcessCopyOut_archive .little false settled_twoMembers rfl rfl
    (takesWhole_wholeWrites (by decide)) false (by decide) 0

/-! ### Inputs without a trailer -/

/-- The file header of a read that finds nothing. -/
def beganHdr (hdr : FileHdr) : FileHdr := { beginHeader hdr with cChksum := 0 }

/-- Less than a record is left. -/
def Spent (ifd : InDes) : Prop :=
  ifd.data = [] ∨ ifd.kind = .unix ∧ ifd.data.length < tarRecordSize

/-- Nothing is found where less than a record is left. -/
theorem taruReadInTarHeader2_spent (db : SysDb) (flags : TarFlags) (h : Spent ifd) (fuel : Nat)
    (erange : Bool) (hdr0 : FileHdr) :
    taruReadInTarHeader2 db flags (fuel + 1) erange hdr0 (.inDes ifd) =
      .returned ⟨0, 0, beginHeader hdr0, .inDes ⟨ifd.kind, []⟩⟩ := by
  have hshort : ¬tarRecordSize ≤ ifd.data.length := by
    rcases h with hnil | ⟨-, hlt⟩
    · rw [hnil]
      decide
    · exact Nat.not_le.mpr hlt
  have hread : readRecord (.inDes ifd) 0 = .returned (0, [], .inDes ⟨ifd.kind, []⟩) := by
    rw [readRecord, taruTapeBufferedRead, if_neg hshort]
    rcases h with hnil | ⟨hunix, -⟩
    · rw [hnil]
      cases ifd.kind with
      | unix => rfl
      | uxfio => rfl
    · rw [hunix]
  have hfetch : fetch { src := .inDes ifd } = .returned (.ends 0 (.inDes ⟨ifd.kind, []⟩)) := by
    rw [fetch, hread, Outcome.returned_bind]
    rfl
  rw [taruReadInTarHeader2, iTaruReadInTarHeader2, hfetch]
  simp only [Outcome.returned_bind, Outcome.pure_eq]
  rfl

theorem taruIsTarFilenameTooLong_empty (flags : TarFlags) :
    taruIsTarFilenameTooLong .empty flags = (false, false) := by
  have hsquash : squashTrailingSlash .empty = .empty := rfl
  have hfits : CString.empty.strlen < tarnamesizeOf flags := by
    rw [tarnamesizeOf]
    split
    · decide
    · decide
  rw [taruIsTarFilenameTooLong, hsquash]
  simp only [if_pos hfits]
  rfl

/-- A file header without names needs no extended header if one with names does not. -/
theorem plain_beganHdr {hdr : FileHdr}
    (hneeds : taruFillExthdrNeedsMask (memberHdr env hdr) env.flags = .zero)
    (hslots : hdr.extattlist.getD [] = []) : Plain env (beganHdr hdr) := by
  have hempty : Unslashed env.flags (beganHdr hdr).cName := fun _ => rfl
  have hmember := memberHdr_of_unslashed hempty
  obtain ⟨name, namesize, hold⟩ := memberHdr_eq env hdr
  have hmd := congrArg ExtHeaderMask.mtime hneeds
  change env.flags.paxexthdrMd = false at hmd
  have hname : (memberHdr env (beganHdr hdr)).cName = .empty := by
    rw [hmember]
    rfl
  refine ⟨by rw [hname, taruIsTarFilenameTooLong_empty], ?_, ?_⟩
  · have hsame : taruFillExthdrNeedsMask (memberHdr env (beganHdr hdr)) env.flags =
        { taruFillExthdrNeedsMask (memberHdr env hdr) env.flags with
          path := false, linkpath := false } := by
      rw [hold, taruFillExthdrNeedsMask, hname, taruIsTarFilenameTooLong_empty,
        memberHdr_cTarLinkname, hmember, taruFillExthdrNeedsMask, hmd]
      rfl
    rw [hsame, hneeds]
    rfl
  · change slotRecords ((taruExattlistInit hdr.extattlist).getD []) = []
    rw [taruExattlistInit, Option.getD_some, hslots]
    rfl

/-- A file header without a name is not written. -/
theorem taruiWriteArchiveMember_unnamed {hdr : FileHdr} (hplain : Plain env (beganHdr hdr))
    (hrec : Recorded env (beganHdr hdr)) :
    ∃ c', taruiWriteArchiveMember o unaligned env copyLinks (beginHeader hdr) ifd c =
        .returned (-1, ifd, c') ∧ Wrote c.ofd c'.ofd [] := by
  have hempty : Unslashed env.flags (beganHdr hdr).cName := fun _ => rfl
  have hname : (recordOf env (beganHdr hdr)).cName.strlen = 0 := by
    rw [(recordOf_fields env (beganHdr hdr)).2.2.1, memberHdr_of_unslashed hempty]
    rfl
  obtain ⟨linkrecord', hrecord⟩ := hplain.record_eq (findLink_copyLinks env) hrec
  have hwritten : taruWriteArchiveMemberHeader env copyLinks (beganHdr hdr) =
      ⟨[], .returned (.ok ⟨-1, linkrecord', recordOf env (beganHdr hdr)⟩)⟩ := by
    rw [hrecord, taruWriteOutHeader, (unslashed_recordOf env (beganHdr hdr)).stripped_eq,
      taruWriteOutTarHeader2, if_pos hname]
    rfl
  have hbegan : { beginHeader hdr with cChksum := 0 } = beganHdr hdr := rfl
  obtain ⟨c', hnothing, hwrote⟩ := writeRecords_nil (-1) c
  refine ⟨c', ?_, hwrote⟩
  rw [taruiWriteArchiveMember, hbegan, hwritten]
  dsimp only
  rw [Outcome.returned_bind]
  dsimp only
  rw [hnothing]
  rfl

/-- A file header of no type is passed over. -/
theorem taruiWriteArchiveMember_untyped {hdr : FileHdr} (hplain : Plain env (beganHdr hdr))
    (htype : hdr.fileType = 0) :
    ∃ c', taruiWriteArchiveMember o unaligned env copyLinks (beginHeader hdr) ifd c =
        .returned (0, ifd, c') := by
  have htype' : (plainHdr env (beganHdr hdr)).fileType = 0 :=
    (plainHdr_fields env (beganHdr hdr)).1.trans htype
  have hwritten : taruWriteArchiveMemberHeader env copyLinks (beganHdr hdr) =
      ⟨[], .returned (.ok ⟨0, copyLinks, plainHdr env (beganHdr hdr)⟩)⟩ := by
    rw [hplain.header_eq, writeByType, htype', if_neg (by decide), if_neg (by decide),
      if_neg (by decide), if_neg (by decide), if_neg (by decide)]
    rfl
  have hbegan : { beginHeader hdr with cChksum := 0 } = beganHdr hdr := rfl
  obtain ⟨c₀, hnothing, -⟩ := writeRecords_nil 0 c
  obtain ⟨c', hclear, -⟩ := clearDigs_returned c₀
  refine ⟨c', ?_⟩
  rw [taruiWriteArchiveMember, hbegan, hwritten]
  dsimp only
  rw [Outcome.returned_bind]
  dsimp only
  rw [hnothing]
  dsimp only
  rw [if_neg (by decide), htype', if_neg fun h => absurd h.1 (by decide), hclear]
  rfl

/-- The copy ends with an error where a member ought to be. -/
theorem taruProcessCopyOut_noTrailer {ms : List Member} (hms : ∀ m ∈ ms, m.Settled env.ofTaru)
    (hne : ms ≠ []) (hdata : ifd.data = ms.flatMap (Member.bytes env.ofTaru)) {s : Sink}
    (hofd : c.ofd = some s) (hwhole : TakesWhole tarRecordSize c.ofd) (erange : Bool) {fuel : Nat}
    (hfuel : ms.length < fuel) (time : UInt64) :
    ∃ ifd' c' s', taruProcessCopyOut o unaligned env erange fuel time ifd c =
        .returned ⟨-9, none, ifd', c'⟩ ∧
      c'.ofd = some s' ∧ s'.out = s.out ++ ifd.data := by
  rw [← List.append_nil (ms.flatMap _)] at hdata
  obtain ⟨hdr, ifd₁, c₁, -, hleft, hdata₁, hwrote, hrun⟩ := copyOutLoop_members o unaligned hms
    (carried_ahsStaticCreateFilehdr time) hdata (by rw [hofd]; rfl) hwhole erange
  obtain ⟨hcarried, hplain, hrec⟩ := hleft (.inr hne)
  have hrec' : Recorded env.ofTaru (beganHdr hdr) :=
    hrec.imp_right fun h => h.imp_right fun h => h.imp_right fun h =>
      ⟨h.1, (by decide : CString.empty.strlen < tarNameSize)⟩
  obtain ⟨n, rfl⟩ : ∃ n, fuel = n + 1 + ms.length := ⟨fuel - ms.length - 1, by omega⟩
  have hread := taruReadInTarHeader2_spent env.db {} (.inl hdata₁) n erange hdr
  obtain ⟨c', hfails, hwrote'⟩ := taruiWriteArchiveMember_unnamed o unaligned
    (plain_beganHdr hplain.needs hcarried.slots) hrec'
  have hall := hwrote.trans hwrote'
  rw [hofd] at hall
  obtain ⟨s', hs'⟩ : ∃ s', c'.ofd = some s' := Option.isSome_iff_exists.mp hall.isSome_eq
  refine ⟨⟨ifd₁.kind, []⟩, c', s', ?_, hs', ?_⟩
  · rw [taruProcessCopyOut, hrun, Int.zero_add, copyOutLoop, hread, Outcome.returned_bind]
    dsimp only
    rw [if_neg (by decide), if_neg (fun h => h rfl), hfails, Outcome.returned_bind]
    rfl
  · rw [hs', List.append_nil] at hall
    rw [hdata, List.append_nil]
    cases hall with
    | some hpat hout => exact hout

/-- A directory and a file, and no trailer. -/
theorem taruProcessCopyOut_noTrailer_two : ∃ ifd' c' s',
    taruProcessCopyOut .little false ustarWriter false 3 0
        ⟨.unix, [directoryMember, fileMember].flatMap (Member.bytes ustarWriter.ofTaru)⟩
        { zeroCopy with ofd := some wholeWrites } =
      .returned ⟨-9, none, ifd', c'⟩ ∧ c'.ofd = some s' ∧
    s'.out = wholeWrites.out ++
      [directoryMember, fileMember].flatMap (Member.bytes ustarWriter.ofTaru) :=
  taruProcessCopyOut_noTrailer .little false settled_twoMembers (List.cons_ne_nil _ _) rfl rfl
    (takesWhole_wholeWrites (by decide)) false (by decide) 0

/-- Where nothing is left the loop goes on with the file header that it has. -/
theorem copyOutLoop_untyped {hdr0 : FileHdr} (hplain : Plain env.ofTaru (beganHdr hdr0))
    (htype : hdr0.fileType = 0) (hsize : hdr0.cFilesize = 0) (h : Spent ifd) (erange : Bool)
    (fuel : Nat) (retvalx : Int) :
    copyOutLoop o unaligned env erange fuel hdr0 ifd c retvalx = .outOfFuel := by
  induction fuel generalizing hdr0 ifd c retvalx with
  | zero => rfl
  | succ n ih =>
      have hspent : Spent ⟨ifd.kind, []⟩ := .inl rfl
      obtain ⟨c', hwritten⟩ : ∃ c', taruiWriteArchiveMember o unaligned env.ofTaru copyLinks
          (beginHeader hdr0) ⟨ifd.kind, []⟩ c = .returned (0, ⟨ifd.kind, []⟩, c') :=
        taruiWriteArchiveMember_untyped o unaligned hplain htype
      have hskip : taruTapeSkipTarPadding ⟨ifd.kind, []⟩ (beginHeader hdr0).cFilesize =
          ⟨ifd.kind, []⟩ := by
        change taruTapeSkipTarPadding _ hdr0.cFilesize = _
        rw [hsize]
        rfl
      rw [copyOutLoop, taruReadInTarHeader2_spent env.db {} h, Outcome.returned_bind]
      dsimp only
      rw [if_neg (by decide), if_neg (fun h => h rfl), hwritten, Outcome.returned_bind]
      dsimp only
      rw [if_neg (by decide), hskip]
      have hagain : Plain env.ofTaru (beganHdr (beganHdr hdr0)) := hplain
      exact ih hagain htype hsize hspent _

/-- **A copy of nothing does not end.** -/
theorem taruProcessCopyOut_empty (hmd : env.taruTarheaderflags.paxexthdrMd = false)
    (h : Spent ifd) (erange : Bool) (fuel : Nat) (time : UInt64) :
    taruProcessCopyOut o unaligned env erange fuel time ifd c = .outOfFuel := by
  have hneeds : taruFillExthdrNeedsMask (memberHdr env.ofTaru (ahsStaticCreateFilehdr time))
      env.ofTaru.flags = .zero := by
    have hempty : Unslashed env.ofTaru.flags (ahsStaticCreateFilehdr time).cName := fun _ => rfl
    have hflags : env.ofTaru.flags.paxexthdrMd = false := hmd
    rw [memberHdr_of_unslashed hempty, taruFillExthdrNeedsMask, hflags]
    rfl
  have htype : (ahsStaticCreateFilehdr time).fileType = 0 :=
    (by decide : (0o400 : UInt64) &&& cpIfmt = 0)
  rw [taruProcessCopyOut, copyOutLoop_untyped o unaligned (plain_beganHdr hneeds rfl) htype rfl h]
  rfl

/-- An input that has only one byte. -/
theorem taruProcessCopyOut_empty_one :
    taruProcessCopyOut .little false ustarWriter false 1000 0 ⟨.unix, [7]⟩ zeroCopy = .outOfFuel :=
  taruProcessCopyOut_empty .little false rfl (.inr ⟨rfl, by decide⟩) false 1000 0

end

end Swbis.Taru
