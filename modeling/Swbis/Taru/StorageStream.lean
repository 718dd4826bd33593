import Swbis.Taru.SectionStream

/-!
# The stream of the storage

The digest of a package is of everything but its catalog.  `taruib_write_storage_stream`
writes the headers of the leading directories, and from the first member of the storage on
`taruib_write_pass_files` writes what is read.  The data of a member are written anew, so
that their padding is NULs whatever it was.

The value returned counts the headers, and not the data.
-/

namespace Swbis.Taru

open CLib Swbis.Misc

/-- The headers of the leading directories. -/
def leadingPart (ms : List (Entry × Swpath)) : Bytes :=
  (ms.filter fun m => m.2.isCatalog = -1).flatMap fun m => m.1.header

/-- Members as they are written anew, one after the other. -/
def anewPart (es : List Entry) : Bytes := es.flatMap Entry.anew

theorem anewPart_cons (e : Entry) (es : List Entry) :
    anewPart (e :: es) = e.header ++ padded e.data ++ anewPart es := List.flatMap_cons

/-- The bytes of the headers. -/
def headerBytes (es : List Entry) : Nat := (es.map fun e => e.header.length).sum

theorem headerBytes_cons (e : Entry) (es : List Entry) :
    headerBytes (e :: es) = e.header.length + headerBytes es := by
  rw [headerBytes, List.map_cons, List.sum_cons, headerBytes]

section

variable {fds : PassFds} {db : SysDb} {flags : TarFlags} {erange : Bool} {p : Pass} {e : Entry}
  {kind : FdKind} {held rest : Bytes}

/-- Turning the buffer on and off changes nothing in it. -/
theorem Pass.Holds.turn (h : p.Holds held) (fd i : Int) :
    ((p.setOverflowRelease i).setFd fd).Holds held := ⟨h.len, h.fits, h.bytes, h.written⟩

theorem Pass.Holds.setFd (h : p.Holds held) (fd : Int) : (p.setFd fd).Holds held :=
  ⟨h.len, h.fits, h.bytes, h.written⟩

theorem Pass.Holds.setOverflowRelease (h : p.Holds held) (i : Int) :
    (p.setOverflowRelease i).Holds held := ⟨h.len, h.fits, h.bytes, h.written⟩

/-- The buffer is turned on to the output and written out. -/
theorem clearTo (fds : PassFds) (h : p.Holds held)
    (hwhole : TakesWhole taruBufsizRes (some p.ofd)) :
    ∃ p', (p.setFd fds.ofd).clearBuffer fds = .returned (held.length, p') ∧ p'.ifd = p.ifd ∧
      Wrote (some p.ofd) (some p'.ofd) held ∧ p'.Holds [] ∧ p'.tib.fdM = fds.ofd ∧
      p'.tib.overflowReleaseM = p.tib.overflowReleaseM := by
  obtain ⟨p', hclear, hifd, hmoves⟩ := Pass.clearBuffer_eq fds (h.setFd fds.ofd) fun _ => hwhole
  have hwrote := hmoves.wrote
  rw [if_pos (show (p.setFd fds.ofd).tib.fdM = fds.ofd from rfl)] at hwrote
  exact ⟨p', hclear, hifd, hwrote, hmoves.holds, hmoves.fdM, hmoves.overflowReleaseM⟩

/-- The buffer is turned on to the null descriptor and written out: it is gone. -/
theorem clearNull (fds : PassFds) (h : p.Holds held) :
    ∃ p', (p.setFd fds.nullfd).clearBuffer fds = .returned (held.length, p') ∧ p'.ifd = p.ifd ∧
      Wrote (some p.ofd) (some p'.ofd) [] ∧ p'.Holds [] ∧ p'.tib.fdM = fds.nullfd := by
  have hnull : (p.setFd fds.nullfd).tib.fdM ≠ fds.ofd := fds.nullfd_ne
  obtain ⟨p', hclear, hifd, hmoves⟩ := Pass.clearBuffer_eq fds (h.setFd fds.nullfd) fun hofd =>
    absurd hofd hnull
  have hwrote := hmoves.wrote
  rw [if_neg hnull] at hwrote
  exact ⟨p', hclear, hifd, hwrote, hmoves.holds, hmoves.fdM⟩

/-- The data are written anew, with the buffer turned off. -/
theorem copyPass2 (fds : PassFds) (o : ByteOrder) (unaligned : Bool) {hdr : FileHdr}
    (hannounces : Pass.Announces hdr e.data e.padding) (hfd : p.tib.fdM ≤ 0) (hholds : p.Holds held)
    (hwhole : TakesWhole taruBufsizRes (some p.ofd))
    (hdata : p.ifd.data = e.data ++ (e.padding ++ rest)) :
    ∃ n p', p.xformatCopyPass2 fds o unaligned hdr = .returned (n, p') ∧ p'.ifd.data = rest ∧
      p.Moves p' (padded e.data) held := by
  have hwritten : ∃ n ifd c s, taruWriteArchiveMemberData o unaligned hdr p.ifd
      { zeroCopy with ofd := some p.ofd } = .returned (n, ifd, c) ∧
      ifd.data = e.padding ++ rest ∧ c.ofd = some s ∧
      Wrote (some p.ofd) (some s) (padded e.data) := by
    by_cases hreg : hdr.fileType = cpIfreg ∧ hdr.cTarLinkname.strlen = 0
    · obtain ⟨ifd, c, hret, hrest, hwrote⟩ := taruWriteArchiveMemberData_append o unaligned
        (c := { zeroCopy with ofd := some p.ofd }) hreg.1 hreg.2 hannounces.size hannounces.lt hdata
        rfl (hwhole.mono (by decide))
      obtain ⟨s, hs⟩ : ∃ s, c.ofd = some s := Option.isSome_iff_exists.mp hwrote.isSome_eq
      rw [hs] at hwrote
      exact ⟨_, ifd, c, s, hret, hrest, hs, hwrote⟩
    · have hnil : e.data = [] := by
        by_contra hsome
        exact hreg (hannounces.regular hsome)
      rw [hnil, List.nil_append] at hdata
      refine ⟨0, p.ifd, { zeroCopy with ofd := some p.ofd }, p.ofd, ?_, hdata, rfl, ?_⟩
      · rw [taruWriteArchiveMemberData]
        dsimp only
        rw [if_neg hreg]
      · rw [hnil]
        exact .refl _
  obtain ⟨n, ifd, c, s, hret, hrest, hs, hwrote⟩ := hwritten
  obtain ⟨q, hq⟩ : ∃ q : Pass, q = { p with ifd := ifd, ofd := s } := ⟨_, rfl⟩
  have hqholds : q.Holds held := by
    rw [hq]
    exact ⟨hholds.len, hholds.fits, hholds.bytes, hholds.written⟩
  have hqfd : q.tib.fdM ≤ 0 := by
    rw [hq]
    exact hfd
  have hqifd : q.ifd = ⟨q.ifd.kind, e.padding ++ rest⟩ := by
    rw [hq, ← hrest]
  obtain ⟨p', hskip, hifd', hmoves⟩ := (Pass.keeps_gone fds hqfd _).skipPadding hannounces
    (s := []) hqholds.moves hqifd (Nat.le_refl _)
  refine ⟨n, p', ?_, by rw [hifd'], ?_, hmoves.holds, ?_, ?_⟩
  · rw [Pass.xformatCopyPass2, hret, Outcome.returned_bind]
    dsimp only
    rw [hs, Option.getD_some, ← hq, hskip, Outcome.returned_bind]
  · have hgone := hmoves.wrote
    rw [hq] at hgone
    have hall := hwrote.trans hgone
    rwa [List.append_nil] at hall
  · rw [hmoves.fdM, hq]
  · rw [hmoves.overflowReleaseM, hq]

/-- The state before a header of the files is read. -/
structure FilesAt (fds : PassFds) (p : Pass) : Prop where
  fdM : p.tib.fdM = fds.ofd
  off : p.tib.overflowReleaseM = 0
  holds : p.Holds []
  whole : TakesWhole taruBufsizRes (some p.ofd)

/-- What the loop does when the header `hdr` is read and has gone to the output. -/
structure PassFilesStep (fds : PassFds) (db : SysDb) (flags : TarFlags) (erange : Bool)
    (o : ByteOrder) (unaligned : Bool) (fuel : Nat) (hdr : FileHdr) (ret retval : Int) (p : Pass)
    (loop : Outcome (Int × Pass)) : Prop where
  hasData : swvarfsFileHasData hdr → ∀ {n : Int} {q : Pass},
    ((p.setFd (-1)).setOverflowRelease 1).xformatCopyPass2 fds o unaligned hdr =
      .returned (n, q) →
    loop = passFilesLoop fds db flags erange o unaligned fuel hdr (toCInt (retval + ret))
      (((q.setOverflowRelease 0).setDatalen 0).setFd fds.ofd)
  noData : ¬swvarfsFileHasData hdr →
    loop = passFilesLoop fds db flags erange o unaligned fuel hdr (toCInt (retval + ret)) p

theorem passFilesLoop_step {fuel : Nat} {hdr0 hdr : FileHdr} {ret cleared : Int} {p₁ p₂ : Pass}
    (o : ByteOrder) (unaligned : Bool)
    (hread : p.xformatReadHeader fds db flags erange (fuel + 1) hdr0 = .returned ⟨ret, 0, hdr, p₁⟩)
    (hret : 0 < ret) (hclear : (p₁.setFd fds.ofd).clearBuffer fds = .returned (cleared, p₂))
    (retval : Int) :
    PassFilesStep fds db flags erange o unaligned fuel hdr ret retval p₂
      (passFilesLoop fds db flags erange o unaligned (fuel + 1) hdr0 retval p) := by
  rw [passFilesLoop, hread, Outcome.returned_bind]
  dsimp only
  rw [if_neg (Int.not_le.mpr hret), isEndOfArchive_zero, Outcome.returned_bind]
  dsimp only
  rw [if_neg (by decide), hclear, Outcome.returned_bind]
  constructor
  case hasData =>
    intro hhas _ _ hcopy
    dsimp only
    rw [if_pos hhas, hcopy, Outcome.returned_bind]
  case noData => exact fun hhas => if_neg hhas

/-- A member is written anew. -/
theorem passFilesLoop_member (o : ByteOrder) (unaligned : Bool) (h : FilesAt fds p)
    (hreads : e.Reads db flags erange) (hdata : p.ifd.data = e.bytes ++ rest) {fuel : Nat}
    (hfuel : e.header.length ≤ 512 * (fuel + 1)) (hdr0 : FileHdr) (total : Int) :
    ∃ (hdr : FileHdr) (p' : Pass), p'.ifd.data = rest ∧ FilesAt fds p' ∧
      Wrote (some p.ofd) (some p'.ofd) e.anew ∧
      passFilesLoop fds db flags erange o unaligned (fuel + 1) hdr0 (toCInt total) p =
        passFilesLoop fds db flags erange o unaligned fuel hdr
          (toCInt (total + e.header.length)) p' := by
  rw [Entry.bytes, List.append_assoc, List.append_assoc] at hdata
  have hifd : p.ifd = ⟨p.ifd.kind, e.header ++ (e.data ++ (e.padding ++ rest))⟩ := by
    rw [← hdata]
  obtain ⟨hdr, p₁, halike, hread, hifd₁, sent, held, hstream, -, -, hmoves⟩ :=
    (Pass.keeps_passed h.whole h.fdM h.off _).header hreads
      ⟨[], [], rfl, fun h => absurd rfl h, fun _ => rfl, h.holds.moves⟩ hifd hfuel (Nat.le_refl _)
      hdr0
  rw [List.nil_append] at hstream
  have hannounces := hreads.announces.alike halike
  obtain ⟨p₂, hclear, hifd₂, hwrote₂, hholds₂, hfd₂, hrelease₂⟩ :=
    clearTo fds hmoves.holds (h.whole.wrote hmoves.wrote)
  have hoff₂ := (hrelease₂.trans hmoves.overflowReleaseM).trans h.off
  have hheader : Wrote (some p.ofd) (some p₂.ofd) e.header := by
    have hall := hmoves.wrote.trans hwrote₂
    rwa [hstream] at hall
  have hdata₂ : p₂.ifd.data = e.data ++ (e.padding ++ rest) := by
    rw [hifd₂, hifd₁]
  have hwhole₂ := h.whole.wrote hheader
  have hstep := passFilesLoop_step o unaligned hread (Int.natCast_pos.mpr hreads.pos) hclear
    (toCInt total)
  by_cases hhas : swvarfsFileHasData hdr
  · obtain ⟨q, hq⟩ : ∃ q, q = (p₂.setFd (-1)).setOverflowRelease 1 := ⟨_, rfl⟩
    have hqholds : q.Holds [] := by
      rw [hq]
      exact (hholds₂.setFd _).setOverflowRelease _
    have hqfd : q.tib.fdM ≤ 0 := by
      rw [hq]
      exact (by decide : (-1 : Int) ≤ 0)
    have hqofd : q.ofd = p₂.ofd := by
      rw [hq]
      rfl
    have hqdata : q.ifd.data = e.data ++ (e.padding ++ rest) := by
      rw [hq]
      exact hdata₂
    obtain ⟨n, p₃, hcopy, hdata₃, hmoves₃⟩ := copyPass2 fds o unaligned hannounces hqfd
      hqholds (hqofd ▸ hwhole₂) hqdata
    have hafter := hmoves₃.holds
    have hwrote₃ := hmoves₃.wrote
    rw [hqofd] at hwrote₃
    refine ⟨hdr, ((p₃.setOverflowRelease 0).setDatalen 0).setFd fds.ofd, hdata₃,
      ⟨rfl, rfl, ⟨rfl, Nat.zero_le _, rfl, hafter.written⟩, hwhole₂.wrote hwrote₃⟩,
      hheader.trans hwrote₃, ?_⟩
    rw [hq] at hcopy
    rw [hstep.hasData hhas hcopy, toCInt_toCInt_add]
  · have hnil := hannounces.data_nil hhas
    rw [hnil, hannounces.padding_nil hnil, List.nil_append, List.nil_append] at hdata₂
    refine ⟨hdr, p₂, hdata₂, ⟨hfd₂, hoff₂, hholds₂, hwhole₂⟩, ?_, ?_⟩
    · rw [Entry.anew, hnil]
      change Wrote _ _ (e.header ++ [])
      rwa [List.append_nil]
    · rw [hstep.noData hhas, toCInt_toCInt_add]

/-- Members are written anew, one after the other. -/
theorem passFilesLoop_members (o : ByteOrder) (unaligned : Bool) {es : List Entry}
    (h : FilesAt fds p) (hreads : ∀ e ∈ es, e.Reads db flags erange)
    (hdata : p.ifd.data = es.flatMap Entry.bytes ++ rest) (n : Nat)
    (hfuel : ∀ e ∈ es, e.header.length ≤ 512 * (n + 1)) (hdr0 : FileHdr) (total : Int) :
    ∃ (hdr : FileHdr) (p' : Pass), p'.ifd.data = rest ∧ FilesAt fds p' ∧
      Wrote (some p.ofd) (some p'.ofd) (anewPart es) ∧
      passFilesLoop fds db flags erange o unaligned (n + es.length) hdr0 (toCInt total) p =
        passFilesLoop fds db flags erange o unaligned n hdr (toCInt (total + headerBytes es)) p' := by
  induction es generalizing p hdr0 total with
  | nil =>
      refine ⟨hdr0, p, hdata, h, .refl _, ?_⟩
      exact congrArg (fun v => passFilesLoop fds db flags erange o unaligned n hdr0 (toCInt v) p)
        (Int.add_zero total).symm
  | cons e es ih =>
      rw [List.flatMap_cons, List.append_assoc] at hdata
      have hfits := hfuel e List.mem_cons_self
      obtain ⟨hdr₁, p₁, hdata₁, hat₁, hwrote₁, hstep⟩ := passFilesLoop_member o unaligned h
        (hreads e List.mem_cons_self) hdata
        (show e.header.length ≤ 512 * (n + es.length + 1) by omega) hdr0 total
      obtain ⟨hdr, p', hdata', hat', hwrote, hrun⟩ := ih hat₁
        (fun e he => hreads e (List.mem_cons_of_mem _ he)) hdata₁
        (fun e he => hfuel e (List.mem_cons_of_mem _ he)) hdr₁ (total + e.header.length)
      rw [← hstep] at hrun
      refine ⟨hdr, p', hdata', hat', hwrote₁.trans hwrote, ?_⟩
      rw [headerBytes_cons, Int.natCast_add, ← Int.add_assoc]
      exact hrun

/-! ### The end of the input -/

/-- The trailer is read as a header is. -/
theorem Pass.Keeps.trailer {limit : Nat} {K : Bytes → Pass → Prop} (hK : Pass.Keeps fds limit K)
    (hs : K [] p) (hifd : p.ifd = ⟨kind, trailerBytes ++ rest⟩) (hlimit : 1024 ≤ limit)
    (db : SysDb) (flags : TarFlags) (erange : Bool) (fuel : Nat) (hdr0 : FileHdr) :
    ∃ (hdr : FileHdr) (p' : Pass), p.xformatReadHeader fds db flags erange (fuel + 1) hdr0 =
        .returned ⟨1024, 1024, hdr, p'⟩ ∧ p'.ifd = ⟨kind, rest⟩ ∧ K trailerBytes p' := by
  have hlen := length_trailerBytes
  have hrecord : tarRecordSize = 512 := rfl
  have hwhole : trailerBytes.length % 512 = 0 := by rw [hlen]
  obtain ⟨hdr, hread⟩ := @taruReadInTarHeader2_trailer db flags ⟨kind, trailerBytes ++ rest⟩ rest
    rfl fuel erange hdr0
  obtain ⟨p₁, hrecords, hK₁⟩ := hK.records hs hwhole (by
    rw [List.length_nil, Nat.zero_add, hlen]
    exact hlimit)
  rw [List.nil_append] at hK₁
  have hused : (trailerBytes ++ rest).take ((trailerBytes ++ rest).length - rest.length) =
      trailerBytes := by
    rw [List.length_append, Nat.add_sub_cancel, List.take_left]
  refine ⟨hdr, { p₁ with ifd := ⟨kind, rest⟩ }, ?_, rfl, hK.ifd _ hK₁⟩
  rw [Pass.xformatReadHeader, hifd, hread, Outcome.returned_bind]
  dsimp only
  rw [hused, delivered_whole (hrecord ▸ hwhole), hrecords, Outcome.returned_bind,
    if_neg (by decide)]

/-- Whole records are all read. -/
theorem pumpData_whole (kind : FdKind) (hwhole : rest.length % 512 = 0) :
    pumpData (-1) ⟨kind, rest⟩ = rest := by
  rw [pumpData, if_neg fun h => absurd h.1 (by decide)]
  split
  · rfl
  · exact List.take_of_length_le (by dsimp only; omega)

/-- At the end of the archive the rest of the input is read. -/
theorem Pass.Keeps.endOfArchive {limit : Nat} {K : Bytes → Pass → Prop} {s : Bytes}
    (hK : Pass.Keeps fds limit K) (hs : K s p) (hfd : p.tib.fdM ≠ 0)
    (hifd : p.ifd = ⟨kind, rest⟩) (hwhole : rest.length % 512 = 0)
    (hlimit : s.length + rest.length + 512 ≤ limit) :
    ∃ p', p.xformatIsEndOfArchive fds 1024 = .returned (true, p') ∧ p'.ifd = ⟨kind, []⟩ ∧
      K (s ++ rest) p' := by
  obtain ⟨p', hpump, hifd', hK'⟩ := hK.pumpAll 0 hs (by
    rw [hifd]
    exact hlimit)
  rw [hifd] at hpump hifd' hK'
  rw [pumpData_whole kind hwhole] at hK'
  refine ⟨p', ?_, hifd', hK'⟩
  rw [Pass.xformatIsEndOfArchive, if_pos (by decide), if_pos hfd, Pass.taruReadAmount, hpump,
    Outcome.returned_bind]

/-- Nothing is left to be pumped. -/
theorem pumpRest_nil (h : p.Holds held) (hifd : p.ifd = ⟨kind, []⟩) (written : Int) :
    p.pumpRest fds written = .returned (written, p) := by
  have hread : taruTapeBufferedRead p.ifd 512 = (0, [], p.ifd) := by
    rw [hifd]
    cases kind with
    | unix => rfl
    | uxfio => rfl
  rw [Pass.pumpRest, hread, Pass.keep_nil h, Outcome.returned_bind]
  rfl

/-- The rest of a package is written: the members anew, the trailer, and what follows it. -/
theorem taruibWritePassFiles_eq (fds : PassFds) (o : ByteOrder) (unaligned : Bool) {es : List Entry}
    (hholds : p.Holds []) (hreads : ∀ e ∈ es, e.Reads db flags erange)
    (hint : headerBytes es + 1024 < 2 ^ 31) (hofd : TakesWhole taruBufsizRes (some p.ofd))
    (hdata : p.ifd.data = es.flatMap Entry.bytes ++ (trailerBytes ++ rest))
    (hwhole : rest.length % 512 = 0) {fuel : Nat} (hfuel : es.length < fuel)
    (hlong : ∀ e ∈ es, e.header.length ≤ 512 * (fuel - es.length)) (hdr0 : FileHdr) :
    ∃ p', taruibWritePassFiles fds db flags erange o unaligned fuel hdr0 p =
        .returned (headerBytes es + 1024, p') ∧ p'.ifd.data = [] ∧
      Wrote (some p.ofd) (some p'.ofd) (anewPart es ++ (trailerBytes ++ rest)) := by
  obtain ⟨n, rfl⟩ : ∃ n, fuel = n + 1 + es.length := ⟨fuel - es.length - 1, by omega⟩
  rw [Nat.add_sub_cancel] at hlong
  have hstart : FilesAt fds ((p.setOverflowRelease 0).setFd fds.ofd) :=
    ⟨rfl, rfl, hholds.turn _ _, hofd⟩
  obtain ⟨hdr₁, p₁, hdata₁, hat, hwrote, hrun⟩ := passFilesLoop_members o unaligned hstart hreads
    hdata (n + 1) (fun e he => Nat.le_trans (hlong e he) (by omega)) hdr0 0
  -- the trailer, and what is behind it
  have hkeeps : Pass.Keeps fds (1024 + rest.length + 512) (Pass.Passed p₁ []) :=
    Pass.keeps_passed hat.whole hat.fdM hat.off _
  have hifd₁ : p₁.ifd = ⟨p₁.ifd.kind, trailerBytes ++ rest⟩ := by
    rw [← hdata₁]
  obtain ⟨hdr₂, p₂, hread, hifd₂, hpassed⟩ := hkeeps.trailer
    ⟨[], [], rfl, fun h => absurd rfl h, fun _ => rfl, hat.holds.moves⟩ hifd₁ (by omega) db flags
    erange n hdr₁
  have hfd₂ : p₂.tib.fdM ≠ 0 := by
    obtain ⟨_, _, _, _, _, hmoves⟩ := hpassed
    rw [hmoves.fdM, hat.fdM]
    exact Int.ne_of_gt fds.ofd_pos
  obtain ⟨p₃, hend, hifd₃, sent, held, hstream, -, -, hmoves₃⟩ := hkeeps.endOfArchive hpassed hfd₂
    hifd₂ hwhole (by rw [length_trailerBytes])
  rw [List.nil_append] at hstream
  obtain ⟨p₄, hclear, hifd₄, hcleared⟩ :=
    Pass.clearBuffer_eq fds hmoves₃.holds fun _ => hat.whole.wrote hmoves₃.wrote
  rw [if_pos (hmoves₃.fdM.trans hat.fdM)] at hcleared
  have hout : Wrote (some p₁.ofd) (some p₄.ofd) (trailerBytes ++ rest) := by
    have hall := hmoves₃.wrote.trans hcleared.wrote
    rwa [hstream] at hall
  have hsum : toCInt ((headerBytes es : Int) + 1024) = headerBytes es + 1024 :=
    toCInt_of_range (by omega) (by omega)
  have hloop : passFilesLoop fds db flags erange o unaligned (n + 1) hdr₁
      (toCInt (0 + headerBytes es)) p₁ = .returned (headerBytes es + 1024, p₃) := by
    rw [passFilesLoop, hread, Outcome.returned_bind]
    dsimp only
    rw [if_neg (by decide), hend, Outcome.returned_bind, Int.zero_add, toCInt_toCInt_add, hsum]
    rfl
  have hifd₅ : ((p₄.setFd (-1)).setOverflowRelease 1).ifd = ⟨p₁.ifd.kind, []⟩ := hifd₄.trans hifd₃
  refine ⟨(p₄.setFd (-1)).setOverflowRelease 1, ?_, by rw [hifd₅], hwrote.trans hout⟩
  change passFilesLoop fds db flags erange o unaligned (n + 1 + es.length) hdr0 0 _ = _ at hrun
  rw [taruibWritePassFiles, hrun, hloop, Outcome.returned_bind]
  dsimp only
  rw [hclear, Outcome.returned_bind]
  dsimp only
  rw [pumpRest_nil ((hcleared.holds.setFd _).setOverflowRelease _) hifd₅, Outcome.returned_bind]
  dsimp only
  rw [if_neg (by decide), show toCInt 0 = 0 by decide, Int.add_zero, hsum]

/-! ### The leading directories and the catalog -/

/-- The state before a header up to the storage is read. -/
structure StorageAt (p : Pass) : Prop where
  fd : 0 < p.tib.fdM
  holds : p.Holds []
  whole : TakesWhole taruBufsizRes (some p.ofd)

theorem StorageAt.appended (h : StorageAt p) : Pass.Appended p [] [] p := h.holds.moves

theorem StorageAt.keeps (h : StorageAt p) (fds : PassFds) :
    Pass.Keeps fds 8192 (Pass.Appended p []) :=
  Pass.keeps_appended h.fd (by decide) (.inr (by decide))

/-- What the loop does when the header `hdr` is read and its name parsed: the data of a
member of the catalog are passed over, a leading directory is written, or it stops. -/
structure StorageStep (fds : PassFds) (db : SysDb) (flags : TarFlags) (erange : Bool) (fuel : Nat)
    (hdr : FileHdr) (swpath : Swpath) (ret retval : Int) (p : Pass) (loop : Outcome StorageEnd) :
    Prop where
  catalog : swpath.isCatalog = 1 → ∀ {n cleared : Int} {q q' : Pass},
    ((p.setOverflowRelease 0).setFd 0).xformatCopyPass fds hdr = .returned (n, q) → 0 ≤ toCInt n →
    (q.setFd fds.nullfd).clearBuffer fds = .returned (cleared, q') →
    loop = storageLoop fds db flags erange fuel hdr swpath (toCInt (retval + ret))
      (q'.setOverflowRelease 1)
  leading : swpath.isCatalog = -1 → ∀ {cleared : Int} {q : Pass},
    (p.setFd fds.ofd).clearBuffer fds = .returned (cleared, q) →
    loop = storageLoop fds db flags erange fuel hdr swpath (toCInt (retval + ret))
      (q.setOverflowRelease 1)
  storage : swpath.isCatalog ≠ 1 → swpath.isCatalog ≠ -1 → ∀ {cleared : Int} {q : Pass},
    (p.setFd fds.ofd).clearBuffer fds = .returned (cleared, q) →
    loop = .returned (.storage ret hdr (q.setFd 0))

theorem storageLoop_step {fuel : Nat} {hdr0 hdr : FileHdr} {ret pathRet : Int} {p₁ : Pass}
    {swpath swpath' : Swpath}
    (hread : p.xformatReadHeader fds db flags erange (fuel + 1) hdr0 = .returned ⟨ret, 0, hdr, p₁⟩)
    (hret : 0 < ret) (hparse : swpath.swpathParsePath hdr.cName.bytes = some (swpath', pathRet))
    (hpathRet : 0 ≤ pathRet) (retval : Int) :
    StorageStep fds db flags erange fuel hdr swpath' ret retval p₁
      (storageLoop fds db flags erange (fuel + 1) hdr0 swpath retval p) := by
  rw [storageLoop, hread, Outcome.returned_bind]
  dsimp only
  rw [if_neg (Int.not_le.mpr hret), isEndOfArchive_zero, Outcome.returned_bind]
  dsimp only
  rw [if_neg (by decide), hparse]
  dsimp only
  rw [if_neg (Int.not_lt.mpr hpathRet)]
  constructor
  case catalog =>
    intro hcat _ _ _ _ hcopy hn hclear
    rw [if_pos hcat, Pass.xformatCopyPassFileData, hcopy, Outcome.returned_bind]
    dsimp only
    rw [if_neg (Int.not_lt.mpr hn), hclear, Outcome.returned_bind]
  case leading =>
    intro hdir _ _ hclear
    rw [if_neg (by rw [hdir]; decide), if_pos hdir, hclear, Outcome.returned_bind]
  case storage =>
    intro hcat hdir _ _ hclear
    rw [if_neg hcat, if_neg hdir, hclear, Outcome.returned_bind]

/-- The data of a member are passed over with the buffer turned off, and what is in the
buffer is dropped. -/
theorem passOver (fds : PassFds) (hholds : p.Holds held)
    (hwhole : TakesWhole taruBufsizRes (some p.ofd)) {hdr : FileHdr}
    (hannounces : Pass.Announces hdr e.data e.padding)
    (hifd : p.ifd = ⟨kind, e.data ++ (e.padding ++ rest)⟩) :
    ∃ q q' : Pass,
      ((p.setOverflowRelease 0).setFd 0).xformatCopyPass fds hdr =
        .returned ((padded e.data).length, q) ∧
      (q.setFd fds.nullfd).clearBuffer fds = .returned (held.length, q') ∧ q'.ifd.data = rest ∧
      Wrote (some p.ofd) (some q'.ofd) [] ∧ StorageAt (q'.setOverflowRelease 1) := by
  have hoff : Pass.Holds ((p.setOverflowRelease 0).setFd 0) held := hholds.turn _ _
  have hstart : ((p.setOverflowRelease 0).setFd 0).ifd = ⟨kind, e.data ++ (e.padding ++ rest)⟩ :=
    hifd
  obtain ⟨q, hcopy, hifd', hmoves⟩ := (Pass.keeps_gone fds (Int.le_refl 0) _).copyPass hannounces
    (s := []) hoff.moves hstart (Nat.le_refl _)
  obtain ⟨q', hclear, hifd'', hwrote, hempty, hfd⟩ := clearNull fds hmoves.holds
  have hgone : Wrote (some p.ofd) (some q.ofd) [] := hmoves.wrote
  have hall : Wrote (some p.ofd) (some q'.ofd) [] := hgone.trans hwrote
  have hpos : 0 < (q'.setOverflowRelease 1).tib.fdM := by
    change 0 < q'.tib.fdM
    rw [hfd]
    exact fds.nullfd_pos
  refine ⟨q, q', hcopy, hclear, ?_, hall,
    ⟨hpos, hempty.setOverflowRelease 1, hwhole.wrote hall⟩⟩
  rw [hifd'', hifd']

/-- A member before the storage: of a leading directory the header is written. -/
theorem storageLoop_member (fds : PassFds) {swpath swpath' : Swpath} {pathRet : Int}
    (h : StorageAt p) (hreads : e.Reads db flags erange) (hshort : e.header.length ≤ 8192)
    (hparse : swpath.swpathParsePath e.hdr.cName.bytes = some (swpath', pathRet))
    (hpathRet : 0 ≤ pathRet) (hbefore : BeforeStorage (e, swpath'))
    (hdir : swpath'.isCatalog = -1 → e.data = [])
    (hsmall : swpath'.isCatalog = 1 → (padded e.data).length < 2 ^ 31)
    (hdata : p.ifd.data = e.bytes ++ rest) {fuel : Nat}
    (hfuel : e.header.length ≤ 512 * (fuel + 1)) (hdr0 : FileHdr) (retval : Int) :
    ∃ (hdr : FileHdr) (p' : Pass) (retval' : Int), p'.ifd.data = rest ∧ StorageAt p' ∧
      Wrote (some p.ofd) (some p'.ofd) (if swpath'.isCatalog = -1 then e.header else []) ∧
      storageLoop fds db flags erange (fuel + 1) hdr0 swpath retval p =
        storageLoop fds db flags erange fuel hdr swpath' retval' p' := by
  rw [Entry.bytes, List.append_assoc, List.append_assoc] at hdata
  have hifd : p.ifd = ⟨p.ifd.kind, e.header ++ (e.data ++ (e.padding ++ rest))⟩ := by
    rw [← hdata]
  obtain ⟨hdr, p₁, halike, hread, hifd₁, hmoves⟩ :=
    (h.keeps fds).header hreads h.appended hifd hfuel hshort hdr0
  have hannounces := hreads.announces.alike halike
  have hholds₁ : p₁.Holds e.header := hmoves.holds
  have hstart : Wrote (some p.ofd) (some p₁.ofd) [] := hmoves.wrote
  have hstep := storageLoop_step hread (Int.natCast_pos.mpr hreads.pos) (halike.cName ▸ hparse)
    hpathRet retval
  by_cases hcat : swpath'.isCatalog = 1
  · -- the data are passed over, and the header is dropped
    obtain ⟨p₂, p₃, hcopy, hclear, hdata₃, hwrote₃, hat₃⟩ :=
      passOver fds hholds₁ (h.whole.wrote hstart) hannounces hifd₁
    have hnot : ¬swpath'.isCatalog = -1 := by
      rw [hcat]
      decide
    have hreturned : 0 ≤ toCInt ((padded e.data).length : Int) := by
      rw [toCInt_of_lt (hsmall hcat)]
      exact Int.natCast_nonneg _
    rw [if_neg hnot]
    exact ⟨hdr, p₃.setOverflowRelease 1, toCInt (retval + e.header.length), hdata₃, hat₃,
      hstart.trans hwrote₃, hstep.catalog hcat hcopy hreturned hclear⟩
  · have hleading := hbefore.resolve_left hcat
    have hnil := hdir hleading
    obtain ⟨p₂, hclear, hifd₂, hwrote₂, hholds₂, hfd₂, -⟩ :=
      clearTo fds hholds₁ (h.whole.wrote hstart)
    have hall : Wrote (some p.ofd) (some p₂.ofd) e.header := hstart.trans hwrote₂
    rw [if_pos hleading]
    refine ⟨hdr, p₂.setOverflowRelease 1, toCInt (retval + e.header.length), ?_, ⟨?_,
      hholds₂.setOverflowRelease 1, h.whole.wrote hall⟩, hall, hstep.leading hleading hclear⟩
    · change p₂.ifd.data = rest
      rw [hifd₂, hifd₁, hnil, hannounces.padding_nil hnil]
      rfl
    · change 0 < p₂.tib.fdM
      rw [hfd₂]
      exact fds.ofd_pos

theorem leadingPart_cons (m : Entry × Swpath) (ms : List (Entry × Swpath)) :
    leadingPart (m :: ms) = (if m.2.isCatalog = -1 then m.1.header else []) ++ leadingPart ms := by
  rw [leadingPart, List.filter_cons]
  by_cases hdir : m.2.isCatalog = -1
  · rw [if_pos hdir, if_pos (decide_eq_true hdir)]
    rfl
  · rw [if_neg hdir, if_neg (by rw [decide_eq_true_eq]; exact hdir)]
    rfl

/-- The members before the storage, one after the other. -/
theorem storageLoop_members (fds : PassFds) {ms : List (Entry × Swpath)} {swpath : Swpath}
    (h : StorageAt p) (hparsed : Parsed swpath ms) (hreads : ∀ m ∈ ms, m.1.Reads db flags erange)
    (hshort : ∀ m ∈ ms, m.1.header.length ≤ 8192) (hbefore : ∀ m ∈ ms, BeforeStorage m)
    (hdir : ∀ m ∈ ms, m.2.isCatalog = -1 → m.1.data = [])
    (hsmall : ∀ m ∈ ms, m.2.isCatalog = 1 → (padded m.1.data).length < 2 ^ 31)
    (hdata : p.ifd.data = (ms.flatMap fun m => m.1.bytes) ++ rest) (n : Nat)
    (hfuel : ∀ m ∈ ms, m.1.header.length ≤ 512 * (n + 1)) (hdr0 : FileHdr) (retval : Int) :
    ∃ (hdr : FileHdr) (p' : Pass) (retval' : Int), p'.ifd.data = rest ∧ StorageAt p' ∧
      Wrote (some p.ofd) (some p'.ofd) (leadingPart ms) ∧
      storageLoop fds db flags erange (n + ms.length) hdr0 swpath retval p =
        storageLoop fds db flags erange n hdr ((ms.map Prod.snd).getLastD swpath) retval' p' := by
  induction ms generalizing p swpath hdr0 retval with
  | nil => exact ⟨hdr0, p, retval, hdata, h, .refl _, rfl⟩
  | cons m ms ih =>
      obtain ⟨e, swpath'⟩ := m
      cases hparsed with
      | @cons _ _ _ pathRet _ hparse hpathRet hrest =>
      rw [List.flatMap_cons, List.append_assoc] at hdata
      have hfits := hfuel _ List.mem_cons_self
      obtain ⟨hdr₁, p₁, retval₁, hdata₁, hat₁, hwrote₁, hstep⟩ := storageLoop_member fds h
        (hreads _ List.mem_cons_self) (hshort _ List.mem_cons_self) hparse hpathRet
        (hbefore _ List.mem_cons_self) (hdir _ List.mem_cons_self) (hsmall _ List.mem_cons_self)
        hdata
        (show e.header.length ≤ 512 * (n + ms.length + 1) by dsimp only at hfits; omega) hdr0 retval
      obtain ⟨hdr, p', retval', hdata', hat', hwrote, hrun⟩ := ih hat₁ hrest
        (fun m hm => hreads m (List.mem_cons_of_mem _ hm))
        (fun m hm => hshort m (List.mem_cons_of_mem _ hm))
        (fun m hm => hbefore m (List.mem_cons_of_mem _ hm))
        (fun m hm => hdir m (List.mem_cons_of_mem _ hm))
        (fun m hm => hsmall m (List.mem_cons_of_mem _ hm)) hdata₁
        (fun m hm => hfuel m (List.mem_cons_of_mem _ hm)) hdr₁ retval₁
      rw [← hstep] at hrun
      refine ⟨hdr, p', retval', hdata', hat', ?_, ?_⟩
      · rw [leadingPart_cons]
        exact hwrote₁.trans hwrote
      · rw [List.map_cons, List.getLastD_cons]
        exact hrun

/-! ### The whole stream -/

/-- Each header takes one record at least. -/
theorem length_members {es : List Entry} (hreads : ∀ e ∈ es, e.Reads db flags erange) :
    512 * es.length ≤ (es.flatMap Entry.bytes).length ∧
      ∀ e ∈ es, e.header.length + 512 * es.length ≤ (es.flatMap Entry.bytes).length + 512 := by
  induction es with
  | nil => exact ⟨Nat.zero_le _, fun e he => absurd he List.not_mem_nil⟩
  | cons e es ih =>
      obtain ⟨hall, heach⟩ := ih fun e he => hreads e (List.mem_cons_of_mem _ he)
      have hwhole := (hreads e List.mem_cons_self).whole
      have hpos := (hreads e List.mem_cons_self).pos
      have hbytes : e.header.length ≤ e.bytes.length := by
        rw [Entry.bytes, List.length_append]
        omega
      rw [List.flatMap_cons, List.length_append, List.length_cons]
      refine ⟨by omega, fun e' he' => ?_⟩
      rcases List.mem_cons.mp he' with rfl | htail
      · omega
      · have hle := heach e' htail
        omega

/-- The hypotheses of a run over the members before the storage. -/
structure StorageRun (db : SysDb) (flags : TarFlags) (erange : Bool)
    (ms : List (Entry × Swpath)) : Prop where
  reads : ∀ m ∈ ms, m.1.Reads db flags erange
  short : ∀ m ∈ ms, m.1.header.length ≤ 8192
  before : ∀ m ∈ ms, BeforeStorage m
  dir : ∀ m ∈ ms, m.2.isCatalog = -1 → m.1.data = []
  small : ∀ m ∈ ms, m.2.isCatalog = 1 → (padded m.1.data).length < 2 ^ 31

theorem storageRun_package (flags : TarFlags) (erange : Bool) :
    StorageRun .blank flags erange packageStart where
  reads _ hm := (reads_package flags erange (List.mem_append_left _ hm)).1
  short m hm := by
    rw [(reads_package flags erange (List.mem_append_left _ hm)).2]
    decide
  before _ hm := before_package hm
  dir m hm hdir := by
    simp only [packageStart, List.mem_cons, List.not_mem_nil, or_false] at hm
    obtain rfl | rfl | rfl := hm
    · rfl
    · exact absurd hdir (by decide)
    · exact absurd hdir (by decide)
  small m hm _ := by
    have hdata : m.1.data.length ≤ 2 := by
      simp only [packageStart, List.mem_cons, List.not_mem_nil, or_false] at hm
      obtain rfl | rfl | rfl := hm
      · decide
      · decide
      · decide
    rw [padded, List.length_append, tapePad, List.length_replicate]
    omega

section

variable {fds : PassFds} {p : Pass} {e : Entry} {rest : Bytes} {ms : List (Entry × Swpath)}
  {es : List Entry} {swpath : Swpath}

theorem flatMap_bytes (ms : List (Entry × Swpath)) :
    (ms.flatMap fun m => m.1.bytes) = (ms.map Prod.fst).flatMap Entry.bytes :=
  (List.flatMap_map _ _ _).symm

/-- The members before the storage, from the start. -/
theorem StorageRun.reached (h : StorageRun db flags erange ms) (fds : PassFds)
    (hparsed : Parsed Swpath.swpathOpen ms) (hholds : p.Holds [])
    (hofd : TakesWhole taruBufsizRes (some p.ofd))
    (hdata : p.ifd.data = (ms.flatMap fun m => m.1.bytes) ++ rest) {fuel : Nat}
    (hfuel : p.ifd.data.length ≤ 512 * fuel) (hrest : 512 ≤ rest.length) (hdr0 : FileHdr) :
    ∃ (n : Nat) (hdr : FileHdr) (p' : Pass) (retval : Int), fuel = n + 1 + ms.length ∧
      rest.length ≤ 512 * (n + 1) ∧ p'.ifd.data = rest ∧ StorageAt p' ∧
      Wrote (some p.ofd) (some p'.ofd) (leadingPart ms) ∧
      storageLoop fds db flags erange fuel hdr0 Swpath.swpathOpen 0
          ((p.setFd fds.nullfd).setOverflowRelease 0) =
        storageLoop fds db flags erange (n + 1) hdr
          ((ms.map Prod.snd).getLastD Swpath.swpathOpen) retval p' := by
  have hlen := congrArg List.length hdata
  rw [List.length_append, flatMap_bytes] at hlen
  obtain ⟨hall, heach⟩ := @length_members db flags erange (ms.map Prod.fst) fun e he => by
    obtain ⟨m, hm, rfl⟩ := List.mem_map.mp he
    exact h.reads m hm
  rw [List.length_map] at hall heach
  obtain ⟨n, rfl⟩ : ∃ n, fuel = n + 1 + ms.length := ⟨fuel - ms.length - 1, by omega⟩
  have hstart : StorageAt ((p.setFd fds.nullfd).setOverflowRelease 0) :=
    ⟨fds.nullfd_pos, (hholds.setFd _).setOverflowRelease _, hofd⟩
  obtain ⟨hdr, p', retval, hdata', hat, hwrote, hrun⟩ := storageLoop_members fds hstart hparsed
    h.reads h.short h.before h.dir h.small hdata (n + 1) (fun m hm => by
      have hle := heach m.1 (List.mem_map_of_mem hm)
      omega) hdr0 0
  exact ⟨n, hdr, p', retval, rfl, by omega, hdata', hat, hwrote, hrun⟩

/-- The run stops behind the header of the first member of the storage, and that is
written. -/
theorem StorageAt.stops (fds : PassFds) (hat : StorageAt p) {pathRet : Int} {swpath₀ : Swpath}
    (hreads : e.Reads db flags erange) (hshort : e.header.length ≤ 8192)
    (hparse : swpath₀.swpathParsePath e.hdr.cName.bytes = some (swpath, pathRet))
    (hpathRet : 0 ≤ pathRet) (hstorage : ¬BeforeStorage (e, swpath))
    (hdata : p.ifd.data = e.bytes ++ rest) {n : Nat} (hfuel : e.header.length ≤ 512 * (n + 1))
    (hdr0 : FileHdr) (retval : Int) :
    ∃ (hdr : FileHdr) (p' : Pass), hdr.Alike e.hdr ∧
      storageLoop fds db flags erange (n + 1) hdr0 swpath₀ retval p =
        .returned (.storage e.header.length hdr p') ∧
      p'.ifd.data = e.data ++ (e.padding ++ rest) ∧ p'.tib.fdM = 0 ∧ p'.Holds [] ∧
      Wrote (some p.ofd) (some p'.ofd) e.header := by
  rw [Entry.bytes, List.append_assoc, List.append_assoc] at hdata
  have hifd : p.ifd = ⟨p.ifd.kind, e.header ++ (e.data ++ (e.padding ++ rest))⟩ := by
    rw [← hdata]
  obtain ⟨hdr, p₁, halike, hread, hifd₁, hmoves₁⟩ :=
    (hat.keeps fds).header hreads hat.appended hifd hfuel hshort hdr0
  obtain ⟨p₂, hclear, hifd₂, hwrote₂, hholds₂, -, -⟩ :=
    clearTo fds hmoves₁.holds (hat.whole.wrote hmoves₁.wrote)
  rw [List.nil_append] at hclear hwrote₂
  refine ⟨hdr, p₂.setFd 0, halike, ?_, ?_, rfl, hholds₂.setFd 0, hmoves₁.wrote.trans hwrote₂⟩
  · exact (storageLoop_step hread (Int.natCast_pos.mpr hreads.pos) (halike.cName ▸ hparse) hpathRet
      retval).storage (fun hcat => hstorage (.inl hcat)) (fun hdir => hstorage (.inr hdir)) hclear
  · change p₂.ifd.data = _
    rw [hifd₂, hifd₁]

/-- The data of the first member of the storage are written anew. -/
theorem firstData (fds : PassFds) (o : ByteOrder) (unaligned : Bool) {hdr : FileHdr}
    (hannounces : Pass.Announces hdr e.data e.padding) (hfd : p.tib.fdM = 0) (hholds : p.Holds [])
    (hofd : TakesWhole taruBufsizRes (some p.ofd))
    (hdata : p.ifd.data = e.data ++ (e.padding ++ rest)) :
    ∃ n p', (if swvarfsFileHasData hdr then p.xformatCopyPass2 fds o unaligned hdr
        else .returned (0, p)) = .returned (n, p') ∧
      p'.ifd.data = rest ∧ p'.Holds [] ∧ Wrote (some p.ofd) (some p'.ofd) (padded e.data) := by
  by_cases hhas : swvarfsFileHasData hdr
  · obtain ⟨n, p', hcopy, hdata', hmoves⟩ :=
      copyPass2 fds o unaligned hannounces (Int.le_of_eq hfd) hholds hofd hdata
    exact ⟨n, p', by rw [if_pos hhas, hcopy], hdata', hmoves.holds, hmoves.wrote⟩
  · have hnil := hannounces.data_nil hhas
    rw [hnil, hannounces.padding_nil hnil, List.nil_append, List.nil_append] at hdata
    refine ⟨0, p, if_neg hhas, hdata, hholds, ?_⟩
    rw [hnil]
    exact .refl _

/-- **What the digest of a storage is of.**  The stream is the headers of the leading
directories, every member from the first of the storage on with its padding written anew,
the trailer, and what follows it.  The value returned counts the headers and the trailer. -/
theorem taruibWriteStorageStream_eq (h : StorageRun db flags erange ms) (o : ByteOrder)
    (unaligned : Bool) (hparsed : Parsed Swpath.swpathOpen (ms ++ [(e, swpath)]))
    (hstorage : ¬BeforeStorage (e, swpath)) (hreads : ∀ e' ∈ e :: es, e'.Reads db flags erange)
    (hshort : e.header.length ≤ 8192) (hint : headerBytes (e :: es) + 1024 < 2 ^ 31)
    (hholds : p.Holds []) (hofd : TakesWhole taruBufsizRes (some p.ofd))
    (hdata : p.ifd.data = (ms.flatMap fun m => m.1.bytes) ++
      ((e :: es).flatMap Entry.bytes ++ (trailerBytes ++ rest)))
    (hwhole : rest.length % 512 = 0) {fuel : Nat} (hfuel : p.ifd.data.length ≤ 512 * fuel)
    (hdr0 : FileHdr) :
    ∃ p', taruibWriteStorageStream fds db flags erange o unaligned fuel hdr0 p =
        .returned (headerBytes (e :: es) + 1024, p') ∧ p'.ifd.data = [] ∧
      p'.ofd.out = p.ofd.out ++
        (leadingPart ms ++ (anewPart (e :: es) ++ (trailerBytes ++ rest))) := by
  have htrailer := length_trailerBytes
  obtain ⟨hms, ret, hret, hparse⟩ := parsed_append hparsed
  have hreadse := hreads e List.mem_cons_self
  have hreadses : ∀ e' ∈ es, e'.Reads db flags erange := fun e' he' =>
    hreads e' (List.mem_cons_of_mem _ he')
  obtain ⟨hall, heach⟩ := length_members hreadses
  have hlen := congrArg List.length hdata
  rw [List.length_append, List.length_append, List.flatMap_cons, List.length_append,
    List.length_append] at hlen
  have hheader : e.header.length ≤ e.bytes.length := by
    rw [Entry.bytes, List.length_append]
    omega
  obtain ⟨n, hdr₁, p₁, retval, hn, hleft, hdata₁, hat, hwrote₁, hrun⟩ :=
    h.reached fds hms hholds hofd hdata hfuel (by
      rw [List.length_append, List.length_append]
      omega) hdr0
  rw [List.flatMap_cons, List.append_assoc] at hdata₁ hleft
  rw [List.length_append] at hleft
  obtain ⟨hdr, p₂, halike, hstop, hdata₂, hfd₂, hholds₂, hwrote₂⟩ := hat.stops fds hreadse
    hshort hparse hret hstorage hdata₁ (show e.header.length ≤ 512 * (n + 1) by omega) hdr₁ retval
  have hheaders := hwrote₁.trans hwrote₂
  obtain ⟨k, p₃, hcopy, hdata₃, hholds₃, hwrote₃⟩ := firstData fds o unaligned
    (hreadse.announces.alike halike) hfd₂ hholds₂ (hofd.wrote hheaders) hdata₂
  have hsofar := hheaders.trans hwrote₃
  rw [headerBytes_cons] at hint
  obtain ⟨p', hpass, hdata', hwrote'⟩ := taruibWritePassFiles_eq fds o unaligned hholds₃ hreadses
    (by omega) (hofd.wrote hsofar) hdata₃ hwhole (show es.length < fuel by omega) (fun e' he' => by
      have hle := heach e' he'
      omega) hdr
  refine ⟨p', ?_, hdata', ?_⟩
  · rw [taruibWriteStorageStream, hrun, hstop, Outcome.returned_bind]
    dsimp only
    rw [hcopy, Outcome.returned_bind]
    dsimp only
    rw [hpass, Outcome.returned_bind]
    dsimp only
    rw [if_neg (by omega), toCInt_of_range (by omega) (by omega), headerBytes_cons,
      Int.natCast_add, Int.add_assoc]
  · rw [out_of_wrote (hsofar.trans hwrote'), anewPart_cons]
    simp only [List.append_assoc]

/-- The stream that the digest of the package is of. -/
theorem taruibWriteStorageStream_package :
    ∃ p', taruibWriteStorageStream outAndNull .blank {} false .little false 9 {}
        (passOf ((packageStart.flatMap fun m => m.1.bytes) ++
          ([packaged fileMember].flatMap Entry.bytes ++ (trailerBytes ++ [])))) =
        .returned (headerBytes [packaged fileMember] + 1024, p') ∧ p'.ifd.data = [] ∧
      p'.ofd.out = wholeWrites.out ++
        (leadingPart packageStart ++ (anewPart [packaged fileMember] ++ (trailerBytes ++ []))) :=
  taruibWriteStorageStream_eq (storageRun_package {} false) .little false parsed_package
    storage_package
    (fun e he => by
      rw [List.mem_singleton.mp he]
      exact (settled_fileMember.entry_reads {} false).1)
    (by
      rw [packaged, (settled_fileMember.entry_reads {} false).2]
      decide)
    (by
      rw [headerBytes_cons, packaged, (settled_fileMember.entry_reads {} false).2]
      decide)
    (holds_passOf _) (takesWhole_wholeWrites (by decide)) rfl rfl
    (by
      have hfile := length_packaged settled_fileMember
      rw [passOf_data, List.length_append, length_packageStart, List.length_append,
        List.flatMap_cons, List.flatMap_nil, List.append_nil, List.append_nil, hfile,
        length_trailerBytes]
      decide) {}

/-- **A package without storage.**  The stream is the headers of the leading directories and
two records of NULs.  What follows the trailer has to fit the buffer. -/
theorem taruibWriteStorageStream_none (h : StorageRun db flags erange ms) (o : ByteOrder)
    (unaligned : Bool) (hparsed : Parsed Swpath.swpathOpen ms) (hholds : p.Holds [])
    (hofd : TakesWhole taruBufsizRes (some p.ofd))
    (hdata : p.ifd.data = (ms.flatMap fun m => m.1.bytes) ++ (trailerBytes ++ rest))
    (hwhole : rest.length % 512 = 0) (hfits : rest.length ≤ 6656) {fuel : Nat}
    (hfuel : p.ifd.data.length ≤ 512 * fuel) (hdr0 : FileHdr) :
    ∃ p', taruibWriteStorageStream fds db flags erange o unaligned fuel hdr0 p =
        .returned (1024, p') ∧ p'.ofd.out = p.ofd.out ++ (leadingPart ms ++ trailerBytes) := by
  have htrailer := length_trailerBytes
  obtain ⟨n, hdr₁, p₁, retval, -, -, hdata₁, hat, hwrote, hrun⟩ :=
    h.reached fds hparsed hholds hofd hdata hfuel (by
      rw [List.length_append]
      omega) hdr0
  have hifd₁ : p₁.ifd = ⟨p₁.ifd.kind, trailerBytes ++ rest⟩ := by
    rw [← hdata₁]
  obtain ⟨hdr, p₂, hread, hifd₂, hmoves₂⟩ :=
    (hat.keeps fds).trailer hat.appended hifd₁ (by decide) db flags erange n hdr₁
  have hfd₂ : p₂.tib.fdM ≠ 0 := by
    rw [hmoves₂.fdM]
    exact Int.ne_of_gt hat.fd
  obtain ⟨p₃, hend, -, hmoves₃⟩ := (hat.keeps fds).endOfArchive hmoves₂ hfd₂ hifd₂ hwhole (by omega)
  have hleading : Wrote (some p.ofd) (some p₃.ofd) (leadingPart ms) := by
    have hall := hwrote.trans hmoves₃.wrote
    rwa [List.append_nil] at hall
  obtain ⟨hcount, -, hout⟩ := Pass.writeTrailer_whole (hofd.wrote hleading)
  refine ⟨p₃.writeTrailer.2, ?_, out_of_wrote (hleading.trans hout)⟩
  rw [taruibWriteStorageStream, hrun, storageLoop, hread, Outcome.returned_bind]
  dsimp only
  rw [if_neg (by decide), hend, Outcome.returned_bind]
  dsimp only
  rw [if_pos rfl, hcount, Outcome.returned_bind]

/-- A package without storage. -/
theorem taruibWriteStorageStream_none_package :
    ∃ p', taruibWriteStorageStream outAndNull .blank {} false .little false 7 {}
        (passOf ((packageStart.flatMap fun m => m.1.bytes) ++ (trailerBytes ++ []))) =
        .returned (1024, p') ∧
      p'.ofd.out = wholeWrites.out ++ (leadingPart packageStart ++ trailerBytes) :=
  taruibWriteStorageStream_none (storageRun_package {} false) .little false
    (parsed_append parsed_package).1 (holds_passOf _) (takesWhole_wholeWrites (by decide)) rfl rfl
    (Nat.zero_le _)
    (by
      rw [passOf_data, List.length_append, length_packageStart, List.append_nil,
        length_trailerBytes]) {}

end

end

end Swbis.Taru
