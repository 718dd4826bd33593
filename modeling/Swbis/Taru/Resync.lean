import Swbis.Taru.ReadTar

/-!
# Whether the header reader ends

When the checksum of a record is wrong, the reader should look for the next
window of 512 bytes with a valid checksum.  It shifts the bytes it reads through
a local record, but the test looks at the record in the read buffer, which stays
as it is, and the end of the input is not looked at.  So a loop that is entered
with a wrong checksum does not end, unless the format is taken to be fragile.

`ReachesRecord` follows the extended headers to the record that is tested.
`readerEnds_iff` says that the reader ends as it should exactly when that record
passes the test or the format is fragile.
-/

namespace Swbis.Taru

open CLib

/-! ## The loop -/

/-- The window that starts `k` bytes behind the start of the record, with the
memory that stands behind the record. -/
def windowAt (mem input : Bytes) (k : Nat) : Bytes :=
  ((mem.take tarRecordSize ++ input).drop k).take tarRecordSize ++ mem.drop tarRecordSize

/-- The loop ends as it should: at the first window with a valid checksum, or
with an error when there is no more input.  A fragile format has no second
window, so there the error may come at once. -/
def ResyncEnds (flags : TarFlags) (mem tarRec : Bytes) (fd : InDes) : Prop :=
  ∃ fuel result src,
    checksumLoop flags mem fuel tarRec 0 (.inDes fd) = .returned (result, .inDes src) ∧
      match result with
      | .ok k => chksumOk (windowAt mem fd.data k) = true ∧
          ∀ j < k, chksumOk (windowAt mem fd.data j) = false
      | .error code => code < 0 ∧ (src.data = [] ∨ flags.fragileFormat = true)

/-- With a wrong checksum the loop goes on for ever. -/
theorem checksumLoop_outOfFuel {flags : TarFlags} {mem : Bytes} (hbad : chksumOk mem = false)
    (hfragile : flags.fragileFormat = false) (fuel : Nat) (tarRec : Bytes) (bytesSkipped : Nat)
    (fd : InDes) :
    checksumLoop flags mem fuel tarRec bytesSkipped (.inDes fd) = .outOfFuel := by
  induction fuel generalizing tarRec bytesSkipped fd with
  | zero => rfl
  | succ fuel ih =>
      simp only [checksumLoop, hbad, hfragile, Bool.false_eq_true, if_false]
      exact ih _ _ _

theorem checksumLoop_fragile {flags : TarFlags} {mem : Bytes} (hbad : chksumOk mem = false)
    (hfragile : flags.fragileFormat = true) (fuel : Nat) (tarRec : Bytes) (bytesSkipped : Nat)
    (fd : InDes) :
    checksumLoop flags mem (fuel + 1) tarRec bytesSkipped (.inDes fd) =
      .returned (.error (-2), .inDes fd) := by
  simp only [checksumLoop, hbad, hfragile, Bool.false_eq_true, if_false, if_true]

/-- The first window is the record itself. -/
theorem windowAt_zero {mem : Bytes} (hlen : tarRecordSize ≤ mem.length) (input : Bytes) :
    windowAt mem input 0 = mem := by
  rw [windowAt, List.drop_zero, List.take_left' (List.length_take_of_le hlen),
    List.take_append_drop]

/-- The loop ends as it should exactly when the record passes the test or the
format is fragile. -/
theorem resyncEnds_iff (flags : TarFlags) {mem : Bytes} (hlen : tarRecordSize ≤ mem.length)
    (tarRec : Bytes) (fd : InDes) :
    ResyncEnds flags mem tarRec fd ↔ chksumOk mem = true ∨ flags.fragileFormat = true := by
  constructor
  · rintro ⟨fuel, result, src, hloop, -⟩
    cases hok : chksumOk mem with
    | true => exact .inl rfl
    | false =>
        cases hfragile : flags.fragileFormat with
        | true => exact .inr rfl
        | false =>
            rw [checksumLoop_outOfFuel hok hfragile] at hloop
            cases hloop
  · intro h
    cases hok : chksumOk mem with
    | true =>
        refine ⟨1, .ok 0, fd, checksumLoop_ok hok 0 tarRec 0 _, ?_, fun j hj => ?_⟩
        · rw [windowAt_zero hlen, hok]
        · exact absurd hj (Nat.not_lt_zero j)
    | false =>
        rw [hok] at h
        rcases h with h | h
        · cases h
        · exact ⟨1, .error (-2), fd, checksumLoop_fragile hok h 0 tarRec 0 fd, by decide, .inr h⟩

/-! ## The record that is tested -/

/-- The extended headers at `pos` are accepted and lead to a record. -/
inductive ReachesRecord (db : SysDb) : ReadPos → FileHdr → Bytes → ReadPos → FileHdr → Prop where
  | here {pos : ReadPos} {hdr : FileHdr} {mem : Bytes} {next : ReadPos}
      (hfetch : fetch pos = .returned (.record mem next)) : ReachesRecord db pos hdr mem next hdr
  | ext {pos : ReadPos} {hdr : FileHdr} {typeflag : UInt8} {size : UInt64} {data : Bytes}
      {next : ReadPos} {hdr' : FileHdr} {mem : Bytes} {last : ReadPos} {hdr'' : FileHdr}
      (hfetch : fetch pos = .returned (.ext typeflag size data next))
      (happly : applyExtHeader typeflag data (db.readBufferRest next.readBufferPos)
        { hdr with cFilesize := size } = .returned (.ok hdr'))
      (hrest : ReachesRecord db next hdr' mem last hdr'') : ReachesRecord db pos hdr mem last hdr''

/-- A descriptor stays a descriptor, and a record is at least 512 bytes of
memory. -/
theorem ReachesRecord.inDes {db : SysDb} {pos : ReadPos} {hdr : FileHdr} {mem : Bytes}
    {last : ReadPos} {hdr' : FileHdr} (h : ReachesRecord db pos hdr mem last hdr') {fd : InDes}
    (hsrc : pos.src = .inDes fd) :
    tarRecordSize ≤ mem.length ∧ ∃ fd', last.src = .inDes fd' := by
  induction h generalizing fd with
  | here hfetch =>
      cases fetch_cases hfetch with
      | record block src hread htype =>
          obtain ⟨fd', hfd, hlen⟩ := readRecord_inDes hsrc hread
          exact ⟨by rw [List.length_append]; omega, fd', hfd⟩
  | ext hfetch _ _ ih =>
      obtain ⟨fd', hfd, -⟩ := fetch_ext_inDes hsrc hfetch
      exact ih hfd

/-! ## Everything else ends -/

theorem readRecord_ne_outOfFuel (src : Source) (readBufferPos : Nat) :
    readRecord src readBufferPos ≠ .outOfFuel := by
  cases src with
  | inDes fd =>
      intro h
      cases h
  | buffer mem fsource len =>
      rw [readRecord]
      split
      · intro h
        cases h
      · intro h
        cases h

theorem taruReadPaxDataBlocks_ne_outOfFuel (src : Source) (n : Nat) :
    taruReadPaxDataBlocks src n ≠ .outOfFuel := by
  cases src with
  | inDes fd =>
      intro h
      cases h
  | buffer mem fsource len =>
      rw [taruReadPaxDataBlocks]
      split
      · intro h
        cases h
      · intro h
        cases h

theorem fetchExtData_ne_outOfFuel (pos : ReadPos) (mem : Bytes) (src : Source) :
    fetchExtData pos mem src ≠ .outOfFuel := by
  rw [fetchExtData]
  split
  · intro h
    cases h
  · split
    · intro h
      cases h
    · refine Outcome.bind_ne_outOfFuel (taruReadPaxDataBlocks_ne_outOfFuel _ _) ?_
      intro r _
      cases r with
      | none =>
          intro h
          cases h
      | some p => exact Outcome.returned_ne_outOfFuel _

theorem fetch_ne_outOfFuel (pos : ReadPos) : fetch pos ≠ .outOfFuel := by
  refine Outcome.bind_ne_outOfFuel (readRecord_ne_outOfFuel _ _) ?_
  rintro ⟨count, block, src⟩ -
  simp only
  split
  · exact Outcome.returned_ne_outOfFuel _
  · split
    · exact Outcome.returned_ne_outOfFuel _
    · split
      · exact Outcome.returned_ne_outOfFuel _
      · split
        · exact fetchExtData_ne_outOfFuel _ _ _
        · exact Outcome.returned_ne_outOfFuel _

theorem taruReadExtHeaderRecord_ne_outOfFuel (extattlist : Option (List Exatt)) (data : Bytes) :
    taruReadExtHeaderRecord extattlist data ≠ .outOfFuel := by
  rw [taruReadExtHeaderRecord]
  split
  · exact Outcome.returned_ne_outOfFuel _
  · split
    · split
      · exact Outcome.returned_ne_outOfFuel _
      · intro h
        cases h
    · exact Outcome.returned_ne_outOfFuel _

theorem readAllFrom_ne_outOfFuel (data : Bytes) (len : Int) (fuel : Nat)
    (extattlist : Option (List Exatt)) (taken : List (Nat × Nat)) (off num : Nat) :
    readAllFrom data len fuel extattlist taken off num ≠ .outOfFuel := by
  induction fuel generalizing extattlist taken off num with
  | zero =>
      intro h
      cases h
  | succ fuel ih =>
      rw [readAllFrom]
      split
      · refine Outcome.bind_ne_outOfFuel (taruReadExtHeaderRecord_ne_outOfFuel _ _) ?_
        rintro ⟨exts, tk, result⟩ -
        cases result with
        | error code => exact Outcome.returned_ne_outOfFuel _
        | ok total => exact ih _ _ _ _
      · exact Outcome.returned_ne_outOfFuel _

theorem applyExtHeader_ne_outOfFuel (typeflag : UInt8) (data rest : Bytes) (hdr : FileHdr) :
    applyExtHeader typeflag data rest hdr ≠ .outOfFuel := by
  rw [applyExtHeader]
  split
  · exact Outcome.returned_ne_outOfFuel _
  · split
    · exact Outcome.returned_ne_outOfFuel _
    · split
      · intro h
        cases h
      · refine Outcome.bind_ne_outOfFuel ?_ fun _ _ => Outcome.returned_ne_outOfFuel _
        exact Outcome.bind_ne_outOfFuel (readAllFrom_ne_outOfFuel _ _ _ _ _ _ _)
          fun _ _ => Outcome.returned_ne_outOfFuel _

/-- The last part of the reader ends. -/
theorem readInRecord_ends (db : SysDb) {flags : TarFlags} {mem : Bytes} {next : ReadPos}
    {fd : InDes} (hsrc : next.src = .inDes fd) (fuel : Nat) (hdr : FileHdr)
    (hpass : chksumOk mem = true ∨ flags.fragileFormat = true) :
    readInRecord db flags (fuel + 1) mem next hdr ≠ .outOfFuel := by
  refine Outcome.bind_ne_outOfFuel ?_ ?_
  · rw [hsrc]
    cases hok : chksumOk mem with
    | true =>
        rw [checksumLoop_ok hok]
        exact Outcome.returned_ne_outOfFuel _
    | false =>
        rw [hok] at hpass
        rw [checksumLoop_fragile hok (hpass.resolve_left Bool.false_ne_true)]
        exact Outcome.returned_ne_outOfFuel _
  · rintro ⟨result, src⟩ -
    cases result with
    | error ret => exact Outcome.returned_ne_outOfFuel _
    | ok bytesSkipped =>
        simp only
        split
        · exact Outcome.returned_ne_outOfFuel _
        · exact Outcome.returned_ne_outOfFuel _

/-- Every record that is reached passes the test, or the format is fragile. -/
def RecordsPass (db : SysDb) (flags : TarFlags) (pos : ReadPos) (hdr : FileHdr) : Prop :=
  ∀ mem last hdr', ReachesRecord db pos hdr mem last hdr' →
    chksumOk mem = true ∨ flags.fragileFormat = true

/-- The reader ends if the records it reaches pass the test.  Every extended
header takes bytes off the descriptor. -/
theorem iTaruReadInTarHeader2_ends (db : SysDb) {flags : TarFlags} {n : Nat} {pos : ReadPos}
    {fd : InDes} (hsrc : pos.src = .inDes fd) (hn : fd.data.length < n) {hdr : FileHdr}
    (hpass : RecordsPass db flags pos hdr) :
    iTaruReadInTarHeader2 db flags n pos hdr ≠ .outOfFuel := by
  induction n generalizing pos fd hdr with
  | zero => exact absurd hn (Nat.not_lt_zero _)
  | succ n ih =>
      rw [iTaruReadInTarHeader2]
      refine Outcome.bind_ne_outOfFuel (fetch_ne_outOfFuel pos) ?_
      intro f hfetch
      cases f with
      | ends ret src => exact Outcome.returned_ne_outOfFuel _
      | trailer ret src => exact Outcome.returned_ne_outOfFuel _
      | ext typeflag size data next =>
          obtain ⟨fd', hsrc', hlt⟩ := fetch_ext_inDes hsrc hfetch
          refine Outcome.bind_ne_outOfFuel (applyExtHeader_ne_outOfFuel _ _ _ _) ?_
          intro r happly
          cases r with
          | error e => exact Outcome.returned_ne_outOfFuel _
          | ok hdr' =>
              exact ih hsrc' (by omega) fun mem last hdr'' hreach =>
                hpass mem last hdr'' (.ext hfetch happly hreach)
      | record mem next =>
          have hreach : ReachesRecord db pos hdr mem next hdr := .here hfetch
          obtain ⟨-, fd', hfd⟩ := hreach.inDes hsrc
          exact readInRecord_ends db hfd n hdr (hpass mem next hdr hreach)

/-! ## The reader -/

/-- The reader ends, and at the record it tests it ends as it should. -/
def ReaderEnds (db : SysDb) (flags : TarFlags) (erange : Bool) (hdr : FileHdr) (fd : InDes) :
    Prop :=
  (∃ fuel, taruReadInTarHeader2 db flags fuel erange hdr (.inDes fd) ≠ .outOfFuel) ∧
    ∀ mem last hdr' fd', ReachesRecord db { src := .inDes fd } (beginHeader hdr) mem last hdr' →
      last.src = .inDes fd' → ResyncEnds flags mem (CField.zero tarRecordSize).bytes fd'

/-- The reader of a finite input ends as it should exactly when the record
behind the extended headers, if one is reached, passes the checksum test, or the
format is fragile. -/
theorem readerEnds_iff (db : SysDb) (flags : TarFlags) (erange : Bool) (hdr : FileHdr)
    (fd : InDes) :
    ReaderEnds db flags erange hdr fd ↔
      RecordsPass db flags { src := .inDes fd } (beginHeader hdr) := by
  constructor
  · rintro ⟨-, hresync⟩ mem last hdr' hreach
    obtain ⟨hlen, fd', hfd⟩ := hreach.inDes rfl
    exact (resyncEnds_iff flags hlen _ fd').mp (hresync mem last hdr' fd' hreach hfd)
  · intro hpass
    refine ⟨⟨fd.data.length + 1, ?_⟩, ?_⟩
    · refine Outcome.bind_ne_outOfFuel ?_ fun _ _ => Outcome.returned_ne_outOfFuel _
      exact iTaruReadInTarHeader2_ends db rfl (Nat.lt_succ_self _) hpass
    · intro mem last hdr' fd' hreach _
      obtain ⟨hlen, -⟩ := hreach.inDes rfl
      exact (resyncEnds_iff flags hlen _ fd').mpr (hpass mem last hdr' hreach)

/-- A record with a name and no checksum. -/
def uncheckedRecord : Bytes := TarHeader.bytes { name := .strncpy 100 (chars ['f']) }

theorem chksumOk_uncheckedRecord : chksumOk uncheckedRecord = false := by decide +kernel

/-- The reader does not end on a record with a wrong checksum. -/
theorem not_readerEnds_uncheckedRecord :
    ¬ ReaderEnds .blank {} false {} ⟨.unix, uncheckedRecord⟩ := by
  rintro ⟨-, hresync⟩
  have hfetch := fetch_record .unix [] (TarHeader.length_bytes _)
    (show nullBlock uncheckedRecord = false by decide +kernel) 0 [] 0 (by decide +kernel)
  simp only [List.append_nil] at hfetch
  rcases (resyncEnds_iff _ (TarHeader.length_bytes _).ge _ _).mp
    (hresync _ _ _ _ (.here hfetch) rfl) with h | h
  · exact absurd (chksumOk_uncheckedRecord.symm.trans h) (by decide)
  · cases h

end Swbis.Taru
