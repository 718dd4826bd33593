import Swbis.Taru.SectionStream

/-!
# The stream of the catalog

The signature of a package is for its catalog.  `taruib_write_catalog_stream` writes the
members of the catalog as they are, all but the signatures, and two records of NULs.  A
leading directory is for the storage stream, and a signature is checked and left out.

A member goes to the output when the one behind it is read.  The stream ends with the first
header of the storage, and that header is taken back out of the buffer.
-/

namespace Swbis.Taru

open CLib Swbis.Misc

/-- A member of the catalog that the signature is for. -/
def isSigned (m : Entry × Swpath) : Bool := m.2.isCatalog = 1 ∧ isSignature m.2 = false

/-- The bytes that the signature of a catalog is for. -/
def signedPart (ms : List (Entry × Swpath)) : Bytes :=
  (ms.filter isSigned).flatMap fun m => m.1.bytes

/-- The signatures pass the checks, each with the name of the member before it. -/
def SignaturesPass : Bytes → List (Entry × Swpath) → Prop
  | _, [] => True
  | prevname, m :: ms =>
      (m.2.isCatalog = 1 → isSignature m.2 = true →
        0 ≤ doHeaderSafetyChecks m.1.hdr m.1.hdr.cName.bytes prevname) ∧
      SignaturesPass m.1.hdr.cName.bytes ms

/-- The state before a header of the catalog is read. -/
structure CatalogAt (fds : PassFds) (p : Pass) (held : Bytes) : Prop where
  fdM : p.tib.fdM = fds.ofd
  holds : p.Holds held
  short : held.length ≤ 8192
  on : p.tib.overflowReleaseM ≠ 0 ∨ held = []
  whole : TakesWhole taruBufsizRes (some p.ofd)

/-- What is written and then in the buffer is what was in the buffer, and `bs`. -/
def Sends (p p' : Pass) (held held' bs : Bytes) : Prop :=
  ∃ sent, sent ++ held' = held ++ bs ∧ Wrote (some p.ofd) (some p'.ofd) sent

theorem Sends.refl (p : Pass) (held : Bytes) : Sends p p held held [] :=
  ⟨[], (List.append_nil held).symm, .refl _⟩

theorem Sends.trans {p p' p'' : Pass} {held held' held'' bs cs : Bytes}
    (h : Sends p p' held held' bs) (h' : Sends p' p'' held' held'' cs) :
    Sends p p'' held held'' (bs ++ cs) := by
  obtain ⟨sent, hstream, hwrote⟩ := h
  obtain ⟨sent', hstream', hwrote'⟩ := h'
  refine ⟨sent ++ sent', ?_, hwrote.trans hwrote'⟩
  rw [List.append_assoc, hstream', ← List.append_assoc, hstream, List.append_assoc]

section

variable {fds : PassFds} {db : SysDb} {flags : TarFlags} {erange : Bool} {p : Pass} {e : Entry}
  {kind : FdKind} {held rest : Bytes}

/-- A header of the catalog is read. -/
theorem CatalogAt.header (h : CatalogAt fds p held) (hreads : e.Reads db flags erange)
    (hone : e.header.length = tarRecordSize) (hifd : p.ifd = ⟨kind, e.header ++ rest⟩)
    (fuel : Nat) (hdr0 : FileHdr) :
    ∃ (hdr : FileHdr) (p' : Pass), hdr.Alike e.hdr ∧
      p.xformatReadHeader fds db flags erange (fuel + 1) hdr0 =
        .returned ⟨tarRecordSize, 0, hdr, p'⟩ ∧
      p'.ifd = ⟨kind, rest⟩ ∧ p.Moves p' [] (held ++ e.header) := by
  have hsize : taruBufsizRes = 8704 := rfl
  have hrecord : tarRecordSize = 512 := rfl
  have hshort := h.short
  have hkeeps : Pass.Keeps fds tarRecordSize (Pass.Appended p held) := by
    refine Pass.keeps_appended (h.fdM ▸ fds.ofd_pos) (by omega) (h.on.imp_right fun hnil => ?_)
    rw [hnil]
    decide
  have hstart : Pass.Appended p held [] p := by
    rw [Pass.Appended, List.append_nil]
    exact h.holds.moves
  obtain ⟨hdr, p', halike, hread, hifd', hmoves⟩ := hkeeps.header hreads hstart hifd
    (show e.header.length ≤ 512 * (fuel + 1) by omega) (by omega) hdr0
  rw [hone] at hread
  exact ⟨hdr, p', halike, hread, hifd', hmoves⟩

/-- A header is taken back, and what belongs to it is passed over. -/
theorem skipMember (fds : PassFds) (hholds : p.Holds (held ++ e.header))
    (hshort : held.length ≤ 8192) (hwhole : TakesWhole taruBufsizRes (some p.ofd)) {hdr : FileHdr}
    (hannounces : Pass.Announces hdr e.data e.padding)
    (hifd : p.ifd = ⟨kind, e.data ++ (e.padding ++ rest)⟩) :
    ∃ n p', (((p.unread e.header.length).setOverflowRelease 0).setFd (-1)).xformatCopyPass fds hdr =
        .returned (n, p') ∧
      p'.ifd = ⟨kind, rest⟩ ∧ CatalogAt fds ((p'.setFd fds.ofd).setOverflowRelease 1) held ∧
      Wrote (some p.ofd) (some p'.ofd) [] := by
  have hback := hholds.unread
  obtain ⟨q, hq⟩ : ∃ q, q = ((p.unread e.header.length).setOverflowRelease 0).setFd (-1) := ⟨_, rfl⟩
  have hqholds : q.Holds held := by
    rw [hq]
    exact ⟨hback.len, hback.fits, hback.bytes, hback.written⟩
  have hqfd : q.tib.fdM ≤ 0 := by
    rw [hq]
    exact (by decide : (-1 : Int) ≤ 0)
  have hqifd : q.ifd = ⟨kind, e.data ++ (e.padding ++ rest)⟩ := by
    rw [hq]
    exact hifd
  have hqofd : q.ofd = p.ofd := by
    rw [hq]
    rfl
  obtain ⟨p', hcopy, hifd', hmoves⟩ := (Pass.keeps_gone fds hqfd _).copyPass hannounces
    (s := []) hqholds.moves hqifd (Nat.le_refl _)
  have hafter := hmoves.holds
  have hwrote := hmoves.wrote
  rw [hqofd] at hwrote
  rw [← hq]
  exact ⟨_, p', hcopy, hifd', ⟨rfl,
    ⟨hafter.len, hafter.fits, hafter.bytes, hafter.written⟩, hshort,
    .inl (by decide : (1 : Int) ≠ 0), hwhole.wrote hwrote⟩, hwrote⟩

/-- A signed member goes through the buffer. -/
theorem copyMember {swpath : Swpath} (hsig : isSignature swpath = false)
    (hfd : p.tib.fdM = fds.ofd) (hholds : p.Holds (held ++ e.header))
    (hwhole : TakesWhole taruBufsizRes (some p.ofd)) {hdr : FileHdr}
    (hannounces : Pass.Announces hdr e.data e.padding)
    (hsmall : (e.data ++ e.padding).length < 2 ^ 31)
    (hifd : p.ifd = ⟨kind, e.data ++ (e.padding ++ rest)⟩) (prevname : Bytes) (ret total : Int) :
    ∃ p' held', catalogMember fds swpath hdr prevname ret (toCInt total) p =
        .returned (.ok (toCInt (total + (e.data ++ e.padding).length), p')) ∧
      p'.ifd = ⟨kind, rest⟩ ∧ CatalogAt fds (p'.setOverflowRelease 1) held' ∧
      Sends p p' held held' e.bytes := by
  obtain ⟨q, hq⟩ : ∃ q, q = p.setOverflowRelease 0 := ⟨_, rfl⟩
  have hqholds : q.Holds (held ++ e.header) := by
    rw [hq]
    exact ⟨hholds.len, hholds.fits, hholds.bytes, hholds.written⟩
  have hqfd : q.tib.fdM = fds.ofd := by
    rw [hq]
    exact hfd
  have hqoff : q.tib.overflowReleaseM = 0 := by
    rw [hq]
    rfl
  have hqifd : q.ifd = ⟨kind, e.data ++ (e.padding ++ rest)⟩ := by
    rw [hq]
    exact hifd
  have hqofd : q.ofd = p.ofd := by
    rw [hq]
    rfl
  have hlen : (padded e.data).length = (e.data ++ e.padding).length := by
    rw [padded, List.length_append, List.length_append, hannounces.padding]
  obtain ⟨p₁, hcopy, hifd₁, sent, held₁, hstream, hshort, hsame, hmoves⟩ :=
    (Pass.keeps_passed (hqofd ▸ hwhole) hqfd hqoff _).copyPass hannounces (s := [])
      ⟨[], held ++ e.header, by rw [List.nil_append, List.append_nil], fun h => absurd rfl h,
        fun _ => rfl, hqholds.moves⟩ hqifd (Nat.le_refl _)
  rw [List.nil_append] at hstream hshort hsame
  have hwrote := hmoves.wrote
  rw [hqofd] at hwrote
  have hbytes : held ++ e.bytes = held ++ e.header ++ (e.data ++ e.padding) :=
    (List.append_assoc _ _ _).symm
  rw [catalogMember, hsig, if_neg (by decide), ← hq, hcopy, Outcome.returned_bind]
  dsimp only
  rw [hlen, toCInt_of_lt hsmall, if_neg (by omega), toCInt_toCInt_add]
  by_cases hnil : e.data ++ e.padding = []
  · -- nothing is behind the header: the buffer is written out
    obtain ⟨p', hclear, hifd', hcleared⟩ :=
      Pass.clearBuffer_eq fds hmoves.holds fun _ => hwhole.wrote hwrote
    rw [if_pos (hmoves.fdM.trans hqfd)] at hcleared
    have hafter := hcleared.holds
    have hall := hwrote.trans hcleared.wrote
    rw [if_pos (by rw [hnil]; rfl), hclear, Outcome.returned_bind]
    dsimp only
    rw [if_neg (by omega), hnil]
    refine ⟨p', [], ?_, hifd'.trans hifd₁, ⟨?_, ⟨hafter.len, hafter.fits, hafter.bytes,
      hafter.written⟩, Nat.zero_le _, .inr rfl, hwhole.wrote hall⟩, sent ++ held₁, ?_, hall⟩
    · rw [List.length_nil, Nat.cast_zero, Int.add_zero]
    · exact (hcleared.fdM.trans hmoves.fdM).trans hqfd
    · rw [hbytes, List.append_nil, hstream]
  · have hpos : 0 < (e.data ++ e.padding).length := List.length_pos_iff.mpr hnil
    have hafter := hmoves.holds
    rw [if_neg (by omega)]
    exact ⟨p₁, held₁, rfl, hifd₁, ⟨hmoves.fdM.trans hqfd, ⟨hafter.len, hafter.fits, hafter.bytes,
      hafter.written⟩, hshort hnil, .inl (by decide : (1 : Int) ≠ 0), hwhole.wrote hwrote⟩, sent,
      by rw [hbytes, hstream], hwrote⟩

theorem signedPart_cons (m : Entry × Swpath) (ms : List (Entry × Swpath)) :
    signedPart (m :: ms) = (if isSigned m then m.1.bytes else []) ++ signedPart ms := by
  rw [signedPart, List.filter_cons]
  split
  · rfl
  · rfl

/-- A signature that passes the checks is left out. -/
theorem catalogMember_signature {swpath : Swpath} (hsig : isSignature swpath = true) {hdr : FileHdr}
    {prevname : Bytes} (hpass : 0 ≤ doHeaderSafetyChecks hdr hdr.cName.bytes prevname) {n : Int}
    {ret : Int} {p' : Pass}
    (hcopy : (((p.unread ret).setOverflowRelease 0).setFd (-1)).xformatCopyPass fds hdr =
      .returned (n, p')) (retval : Int) :
    catalogMember fds swpath hdr prevname ret retval p =
      .returned (.ok (toCInt (retval - ret), p'.setFd fds.ofd)) := by
  rw [catalogMember, if_pos hsig, if_neg (Int.not_lt.mpr hpass), hcopy]
  rfl

/-- What the loop does when the header `hdr` is read and its name parsed: it goes on with
a member, it returns what a signature is refused with, it passes over a leading directory,
or it stops. -/
structure CatalogStep (fds : PassFds) (db : SysDb) (flags : TarFlags) (erange : Bool) (fuel : Nat)
    (hdr : FileHdr) (swpath : Swpath) (prevname : Bytes) (ret retval : Int) (p : Pass)
    (loop : Outcome (Except Int CatalogEnd)) : Prop where
  member : swpath.isCatalog = 1 → ∀ {retval' : Int} {q : Pass},
    catalogMember fds swpath hdr prevname ret (toCInt (retval + ret)) p =
      .returned (.ok (retval', q)) →
    loop = catalogLoop fds db flags erange fuel hdr swpath hdr.cName.bytes retval'
      (q.setOverflowRelease 1)
  refused : swpath.isCatalog = 1 → ∀ {code : Int},
    catalogMember fds swpath hdr prevname ret (toCInt (retval + ret)) p =
      .returned (.error code) →
    loop = .returned (.error code)
  leading : swpath.isCatalog = -1 → ∀ {n : Int} {q : Pass},
    (((p.unread ret).setOverflowRelease 0).setFd (-1)).xformatCopyPass fds hdr =
      .returned (n, q) →
    loop = catalogLoop fds db flags erange fuel hdr swpath hdr.cName.bytes
      (toCInt (toCInt (retval + ret) - ret)) ((q.setFd fds.ofd).setOverflowRelease 1)
  storage : swpath.isCatalog ≠ 1 → swpath.isCatalog ≠ -1 →
    loop = .returned (.ok ⟨ret, toCInt (toCInt (retval + ret) - ret), p.unread ret⟩)

theorem catalogLoop_step {fuel : Nat} {hdr0 hdr : FileHdr} {ret pathRet : Int} {p₁ : Pass}
    {swpath swpath' : Swpath}
    (hread : p.xformatReadHeader fds db flags erange (fuel + 1) hdr0 = .returned ⟨ret, 0, hdr, p₁⟩)
    (hret : 0 < ret) (hparse : swpath.swpathParsePath hdr.cName.bytes = some (swpath', pathRet))
    (hpathRet : 0 ≤ pathRet) (prevname : Bytes) (retval : Int) :
    CatalogStep fds db flags erange fuel hdr swpath' prevname ret retval p₁
      (catalogLoop fds db flags erange (fuel + 1) hdr0 swpath prevname retval p) := by
  rw [catalogLoop, hread, Outcome.returned_bind]
  dsimp only
  rw [if_neg (Int.not_le.mpr hret), isEndOfArchive_zero, Outcome.returned_bind]
  dsimp only
  rw [if_neg (by decide), hparse]
  dsimp only
  rw [if_neg (Int.not_lt.mpr hpathRet)]
  constructor
  case member =>
    intro hcat _ _ hmember
    rw [if_pos hcat, hmember]
    rfl
  case refused =>
    intro hcat _ hmember
    rw [if_pos hcat, hmember]
    rfl
  case leading =>
    intro hdir _ _ hskip
    rw [if_neg (by rw [hdir]; decide), if_pos hdir, hskip]
    rfl
  case storage =>
    intro hcat hdir
    rw [if_neg hcat, if_neg hdir]

/-- A header that is counted and taken back counts nothing. -/
theorem toCInt_back (total ret : Int) :
    toCInt (toCInt (toCInt total + ret) - ret) = toCInt total := by
  rw [toCInt_toCInt_add, toCInt_toCInt_sub, Int.add_sub_cancel]

/-- A member before the storage: it is written if it is signed. -/
theorem catalogLoop_member {swpath swpath' : Swpath} {pathRet : Int} {prevname : Bytes}
    (h : CatalogAt fds p held) (hreads : e.Reads db flags erange)
    (hone : e.header.length = tarRecordSize)
    (hparse : swpath.swpathParsePath e.hdr.cName.bytes = some (swpath', pathRet))
    (hpathRet : 0 ≤ pathRet) (hbefore : BeforeStorage (e, swpath'))
    (hpass : swpath'.isCatalog = 1 → isSignature swpath' = true →
      0 ≤ doHeaderSafetyChecks e.hdr e.hdr.cName.bytes prevname)
    (hsmall : isSigned (e, swpath') = true → (e.data ++ e.padding).length < 2 ^ 31)
    (hifd : p.ifd = ⟨kind, e.bytes ++ rest⟩) (fuel : Nat) (hdr0 : FileHdr) (total : Int) :
    ∃ (hdr : FileHdr) (p' : Pass) (held' : Bytes), p'.ifd = ⟨kind, rest⟩ ∧
      CatalogAt fds p' held' ∧
      Sends p p' held held' (if isSigned (e, swpath') then e.bytes else []) ∧
      catalogLoop fds db flags erange (fuel + 1) hdr0 swpath prevname (toCInt total) p =
        catalogLoop fds db flags erange fuel hdr swpath' e.hdr.cName.bytes
          (toCInt (total + (if isSigned (e, swpath') then e.bytes else []).length)) p' := by
  rw [Entry.bytes, List.append_assoc, List.append_assoc] at hifd
  obtain ⟨hdr, p₁, halike, hread, hifd₁, hmoves⟩ := h.header hreads hone hifd fuel hdr0
  have hannounces := hreads.announces.alike halike
  have hfd₁ := hmoves.fdM.trans h.fdM
  have hstart : Wrote (some p.ofd) (some p₁.ofd) [] := hmoves.wrote
  have hwhole₁ := h.whole.wrote hstart
  obtain ⟨n, p₂, hskip, hifd₂, hat₂, hwrote₂⟩ :=
    skipMember fds hmoves.holds h.short hwhole₁ hannounces hifd₁
  rw [hone] at hskip
  have hskipped : Sends p ((p₂.setFd fds.ofd).setOverflowRelease 1) held held [] :=
    ⟨[], (List.append_nil held).symm, hstart.trans hwrote₂⟩
  have hstep := catalogLoop_step hread (by decide) (halike.cName ▸ hparse) hpathRet prevname
    (toCInt total)
  by_cases hcat : swpath'.isCatalog = 1
  · cases hsig : isSignature swpath' with
    | true =>
        have hnot : ¬isSigned (e, swpath') = true := by
          rw [isSigned, hsig]
          exact fun h => absurd (of_decide_eq_true h).2 (by decide)
        have hpass' : 0 ≤ doHeaderSafetyChecks hdr hdr.cName.bytes prevname := by
          rw [doHeaderSafetyChecks_alike halike, halike.cName]
          exact hpass hcat hsig
        refine ⟨hdr, (p₂.setFd fds.ofd).setOverflowRelease 1, held, hifd₂, hat₂, ?_, ?_⟩
        · rw [if_neg hnot]
          exact hskipped
        · rw [hstep.member hcat (catalogMember_signature hsig hpass' hskip _), if_neg hnot,
            halike.cName, List.length_nil, Nat.cast_zero, Int.add_zero, toCInt_back]
    | false =>
        have hsigned : isSigned (e, swpath') = true := by
          rw [isSigned, hsig]
          exact decide_eq_true ⟨hcat, rfl⟩
        obtain ⟨p', held', hmember, hifd', hat', sent, hstream, hwrote⟩ := copyMember hsig hfd₁
          hmoves.holds hwhole₁ hannounces (hsmall hsigned) hifd₁ prevname tarRecordSize
          (total + tarRecordSize)
        rw [← toCInt_toCInt_add total] at hmember
        refine ⟨hdr, p'.setOverflowRelease 1, held', hifd', hat', ?_, ?_⟩
        · rw [if_pos hsigned]
          exact ⟨sent, hstream, hstart.trans hwrote⟩
        · have hlen : e.bytes.length = tarRecordSize + (e.data ++ e.padding).length := by
            rw [Entry.bytes, List.length_append, hone]
          rw [hstep.member hcat hmember, if_pos hsigned, halike.cName, hlen, Int.natCast_add,
            Int.add_assoc]
  · have hnot : ¬isSigned (e, swpath') = true := by
      rw [isSigned]
      exact fun h => hcat (of_decide_eq_true h).1
    rw [if_neg hnot]
    refine ⟨hdr, (p₂.setFd fds.ofd).setOverflowRelease 1, held, hifd₂, hat₂, hskipped, ?_⟩
    rw [hstep.leading (hbefore.resolve_left hcat) hskip, halike.cName, List.length_nil,
      Nat.cast_zero, Int.add_zero, toCInt_back]

/-- The members before the storage, one after the other. -/
theorem catalogLoop_members {ms : List (Entry × Swpath)} {swpath : Swpath} {prevname : Bytes}
    (h : CatalogAt fds p held) (hparsed : Parsed swpath ms)
    (hreads : ∀ m ∈ ms, m.1.Reads db flags erange)
    (hone : ∀ m ∈ ms, m.1.header.length = tarRecordSize)
    (hbefore : ∀ m ∈ ms, BeforeStorage m) (hpass : SignaturesPass prevname ms)
    (hsmall : ∀ m ∈ ms, isSigned m = true → (m.1.data ++ m.1.padding).length < 2 ^ 31)
    (hifd : p.ifd = ⟨kind, (ms.flatMap fun m => m.1.bytes) ++ rest⟩) (n : Nat) (hdr0 : FileHdr)
    (total : Int) :
    ∃ (hdr : FileHdr) (p' : Pass) (held' : Bytes), p'.ifd = ⟨kind, rest⟩ ∧
      CatalogAt fds p' held' ∧ Sends p p' held held' (signedPart ms) ∧
      catalogLoop fds db flags erange (n + ms.length) hdr0 swpath prevname (toCInt total) p =
        catalogLoop fds db flags erange n hdr ((ms.map Prod.snd).getLastD swpath)
          ((ms.map fun m => m.1.hdr.cName.bytes).getLastD prevname)
          (toCInt (total + (signedPart ms).length)) p' := by
  induction ms generalizing p held swpath prevname hdr0 total with
  | nil =>
      refine ⟨hdr0, p, held, hifd, h, .refl p held, ?_⟩
      rw [signedPart]
      exact congrArg (fun v => catalogLoop fds db flags erange n hdr0 swpath prevname (toCInt v) p)
        (Int.add_zero total).symm
  | cons m ms ih =>
      obtain ⟨e, swpath'⟩ := m
      cases hparsed with
      | @cons _ _ _ pathRet _ hparse hpathRet hrest =>
      rw [List.flatMap_cons, List.append_assoc] at hifd
      obtain ⟨hdr₁, p₁, held₁, hifd₁, hat₁, hsends₁, hstep⟩ := catalogLoop_member h
        (hreads _ List.mem_cons_self) (hone _ List.mem_cons_self) hparse hpathRet
        (hbefore _ List.mem_cons_self) hpass.1 (hsmall _ List.mem_cons_self) hifd (n + ms.length)
        hdr0 total
      obtain ⟨hdr, p', held', hifd', hat', hsends, hrun⟩ := ih hat₁ hrest
        (fun m hm => hreads m (List.mem_cons_of_mem _ hm))
        (fun m hm => hone m (List.mem_cons_of_mem _ hm))
        (fun m hm => hbefore m (List.mem_cons_of_mem _ hm)) hpass.2
        (fun m hm => hsmall m (List.mem_cons_of_mem _ hm)) hifd₁ hdr₁
        (total + (if isSigned (e, swpath') then e.bytes else []).length)
      rw [← hstep] at hrun
      refine ⟨hdr, p', held', hifd', hat', ?_, ?_⟩
      · rw [signedPart_cons]
        exact hsends₁.trans hsends
      · rw [signedPart_cons, List.length_append, Int.natCast_add, ← Int.add_assoc, List.map_cons,
          List.map_cons, List.getLastD_cons, List.getLastD_cons]
        exact hrun

end

/-! ### The whole stream -/

/-- The hypotheses of a run over the members before one of them. -/
structure CatalogRun (db : SysDb) (flags : TarFlags) (erange : Bool) (ms : List (Entry × Swpath))
    (e : Entry) (swpath : Swpath) : Prop where
  parsed : Parsed Swpath.swpathOpen (ms ++ [(e, swpath)])
  reads : ∀ m ∈ ms ++ [(e, swpath)], m.1.Reads db flags erange
  one : ∀ m ∈ ms ++ [(e, swpath)], m.1.header.length = tarRecordSize
  before : ∀ m ∈ ms, BeforeStorage m
  pass : SignaturesPass [] ms
  small : ∀ m ∈ ms, isSigned m = true → (m.1.data ++ m.1.padding).length < 2 ^ 31

theorem catalogRun_package (flags : TarFlags) (erange : Bool) :
    CatalogRun .blank flags erange packageStart (packaged fileMember) storageState where
  parsed := parsed_package
  reads _ hm := (reads_package flags erange hm).1
  one _ hm := (reads_package flags erange hm).2
  before _ hm := before_package hm
  pass := by
    refine ⟨fun hcat => absurd hcat (by decide), fun _ hsig => absurd hsig (by decide),
      fun _ _ => ?_, trivial⟩
    decide
  small m hm _ := by
    have hpad := (reads_package flags erange (List.mem_append_left _ hm)).1.announces.length_padding
    have hdata : m.1.data.length ≤ 2 := by
      simp only [packageStart, List.mem_cons, List.not_mem_nil, or_false] at hm
      obtain rfl | rfl | rfl := hm
      · decide
      · decide
      · decide
    rw [List.length_append]
    omega

theorem catalogRun_signature (flags : TarFlags) (erange : Bool) :
    CatalogRun .blank flags erange [(packaged directoryMember, leadingState)]
      (packaged signatureMember) (behind leadingState signatureMember) where
  parsed := by
    have h₁ : Swpath.swpathOpen.swpathParsePath (packaged directoryMember).hdr.cName.bytes =
        some (leadingState, 0) := by decide
    have h₂ : leadingState.swpathParsePath (packaged signatureMember).hdr.cName.bytes =
        some (behind leadingState signatureMember, 0) := by decide
    exact .cons h₁ (Int.le_refl 0) (.cons h₂ (Int.le_refl 0) .nil)
  reads m hm := by
    rcases List.mem_pair.mp hm with rfl | rfl
    · exact (settled_directoryMember.entry_reads flags erange).1
    · exact (settled_signatureMember.entry_reads flags erange).1
  one m hm := by
    rcases List.mem_pair.mp hm with rfl | rfl
    · exact (settled_directoryMember.entry_reads flags erange).2
    · exact (settled_signatureMember.entry_reads flags erange).2
  before m hm := by
    rw [List.mem_singleton.mp hm]
    exact .inr (by decide)
  pass := ⟨fun hcat => absurd hcat (by decide), trivial⟩
  small m hm hsigned := by
    rw [List.mem_singleton.mp hm] at hsigned
    exact absurd (of_decide_eq_true hsigned).1 (by decide)

section

variable {fds : PassFds} {db : SysDb} {flags : TarFlags} {erange : Bool} {p : Pass} {e : Entry}
  {kind : FdKind} {held rest : Bytes} {ms : List (Entry × Swpath)} {swpath : Swpath}

/-- The run up to the header of a member. -/
theorem CatalogRun.reached (h : CatalogRun db flags erange ms e swpath) (hholds : p.Holds [])
    (hwhole : TakesWhole taruBufsizRes (some p.ofd))
    (hifd : p.ifd = ⟨kind, (ms.flatMap fun m => m.1.bytes) ++ (e.header ++ rest)⟩) (n : Nat)
    (hdr0 : FileHdr) :
    ∃ (hdr₀ hdr : FileHdr) (p₁ p₂ : Pass) (swpath₁ : Swpath) (held : Bytes) (ret : Int),
      0 ≤ ret ∧ swpath₁.swpathParsePath e.hdr.cName.bytes = some (swpath, ret) ∧
      hdr.Alike e.hdr ∧
      catalogLoop fds db flags erange (n + 1 + ms.length) hdr0 Swpath.swpathOpen [] 0
          (p.setFd fds.ofd) =
        catalogLoop fds db flags erange (n + 1) hdr₀ swpath₁
          ((ms.map fun m => m.1.hdr.cName.bytes).getLastD []) (toCInt (signedPart ms).length) p₁ ∧
      p₁.xformatReadHeader fds db flags erange (n + 1) hdr₀ =
        .returned ⟨tarRecordSize, 0, hdr, p₂⟩ ∧
      p₂.ifd = ⟨kind, rest⟩ ∧ p₂.Holds (held ++ e.header) ∧ p₂.tib.fdM = fds.ofd ∧
      ∃ sent, sent ++ held = signedPart ms ∧ Wrote (some p.ofd) (some p₂.ofd) sent := by
  obtain ⟨hms, ret, hret, hparse⟩ := parsed_append h.parsed
  have hlast : (e, swpath) ∈ ms ++ [(e, swpath)] := List.mem_append_right _ List.mem_cons_self
  have hstart : CatalogAt fds (p.setFd fds.ofd) [] :=
    ⟨rfl, ⟨hholds.len, hholds.fits, hholds.bytes, hholds.written⟩, Nat.zero_le _, .inr rfl, hwhole⟩
  obtain ⟨hdr₀, p₁, held, hifd₁, hat, ⟨sent, hsent, hwrote⟩, hrun⟩ := catalogLoop_members hstart hms
    (fun m hm => h.reads m (List.mem_append_left _ hm))
    (fun m hm => h.one m (List.mem_append_left _ hm)) h.before h.pass h.small hifd (n + 1) hdr0 0
  obtain ⟨hdr, p₂, halike, hread, hifd₂, hmoves⟩ := hat.header (h.reads _ hlast) (h.one _ hlast)
    hifd₁ n hdr₀
  rw [Int.zero_add] at hrun
  refine ⟨hdr₀, hdr, p₁, p₂, _, held, ret, hret, hparse, halike, hrun, hread, hifd₂, hmoves.holds,
    hmoves.fdM.trans hat.fdM, sent, hsent, ?_⟩
  have hall := hwrote.trans hmoves.wrote
  rwa [List.append_nil] at hall

/-- **What the signature of a catalog is for.**  Where a member of the storage follows, the
stream is the members of the catalog but the signatures, byte for byte, and two records of
NULs. -/
theorem taruibWriteCatalogStream_eq (h : CatalogRun db flags erange ms e swpath)
    (hstorage : ¬BeforeStorage (e, swpath)) (hholds : p.Holds [])
    (hwhole : TakesWhole taruBufsizRes (some p.ofd))
    (hifd : p.ifd = ⟨kind, (ms.flatMap fun m => m.1.bytes) ++ (e.header ++ rest)⟩) {fuel : Nat}
    (hfuel : ms.length < fuel) (hdr0 : FileHdr) :
    ∃ p', taruibWriteCatalogStream fds db flags erange fuel hdr0 p =
        .returned (toCInt (signedPart ms ++ trailerBytes).length, some p') ∧
      p'.ofd.out = p.ofd.out ++ (signedPart ms ++ trailerBytes) ∧ p'.ifd = ⟨kind, rest⟩ := by
  obtain ⟨n, rfl⟩ : ∃ n, fuel = n + 1 + ms.length := ⟨fuel - ms.length - 1, by omega⟩
  obtain ⟨hdr₀, hdr, p₁, p₂, swpath₁, held, ret, hret, hparse, halike, hrun, hread, hifd₂, hholds₂,
    hfd₂, sent, hsent, hwrote⟩ := h.reached hholds hwhole hifd n hdr0
  have hone := h.one (e, swpath) (List.mem_append_right _ List.mem_cons_self)
  have hback := hholds₂.unread
  rw [hone] at hback
  obtain ⟨p₃, hclear, hifd₃, hcleared⟩ :=
    Pass.clearBuffer_eq fds hback fun _ => hwhole.wrote hwrote
  have hout := hcleared.wrote
  rw [Pass.unread_fdM, if_pos hfd₂] at hout
  have hsigned := hwrote.trans hout
  obtain ⟨hcount, hleft, htrailer⟩ := Pass.writeTrailer_whole (hwhole.wrote hsigned)
  have hstop : catalogLoop fds db flags erange (n + 1) hdr₀ swpath₁
      ((ms.map fun m => m.1.hdr.cName.bytes).getLastD []) (toCInt (signedPart ms).length) p₁ =
        .returned (.ok ⟨tarRecordSize, toCInt (signedPart ms).length, p₂.unread tarRecordSize⟩) := by
    have hloop := (catalogLoop_step hread (by decide) (halike.cName ▸ hparse) hret
      ((ms.map fun m => m.1.hdr.cName.bytes).getLastD []) (toCInt (signedPart ms).length)).storage
      (fun hcat => hstorage (.inl hcat)) fun hdir => hstorage (.inr hdir)
    rwa [toCInt_back] at hloop
  refine ⟨p₃.writeTrailer.2, ?_, ?_, hleft.trans (hifd₃.trans hifd₂)⟩
  · rw [taruibWriteCatalogStream, hrun, hstop, Outcome.returned_bind]
    dsimp only
    rw [if_pos (by decide), hclear, Outcome.returned_bind]
    dsimp only
    rw [if_neg (by omega), hcount, toCInt_toCInt_add, List.length_append, length_trailerBytes,
      Int.natCast_add]
    rfl
  · rw [out_of_wrote (hsigned.trans htrailer), hsent]

/-- The stream that the signature of the package is for. -/
theorem taruibWriteCatalogStream_package :
    ∃ p', taruibWriteCatalogStream outAndNull .blank {} false 4 {}
        (passOf ((packageStart.flatMap fun m => m.1.bytes) ++
          ((packaged fileMember).header ++ [7]))) =
        .returned (toCInt (signedPart packageStart ++ trailerBytes).length, some p') ∧
      p'.ofd.out = wholeWrites.out ++ (signedPart packageStart ++ trailerBytes) ∧
      p'.ifd = ⟨.unix, [7]⟩ :=
  taruibWriteCatalogStream_eq (catalogRun_package {} false) storage_package (holds_passOf _)
    (takesWhole_wholeWrites (by decide)) rfl (by decide) {}

/-- **A signature that fails a check ends the stream.** -/
theorem taruibWriteCatalogStream_refuses (h : CatalogRun db flags erange ms e swpath)
    (hcat : swpath.isCatalog = 1) (hsig : isSignature swpath = true)
    (hfails : doHeaderSafetyChecks e.hdr e.hdr.cName.bytes
      ((ms.map fun m => m.1.hdr.cName.bytes).getLastD []) < 0) (hholds : p.Holds [])
    (hwhole : TakesWhole taruBufsizRes (some p.ofd))
    (hifd : p.ifd = ⟨kind, (ms.flatMap fun m => m.1.bytes) ++ (e.header ++ rest)⟩) {fuel : Nat}
    (hfuel : ms.length < fuel) (hdr0 : FileHdr) :
    taruibWriteCatalogStream fds db flags erange fuel hdr0 p = .returned (-1, none) := by
  obtain ⟨n, rfl⟩ : ∃ n, fuel = n + 1 + ms.length := ⟨fuel - ms.length - 1, by omega⟩
  obtain ⟨hdr₀, hdr, p₁, p₂, swpath₁, held, ret, hret, hparse, halike, hrun, hread, -⟩ :=
    h.reached hholds hwhole hifd n hdr0
  have hstop : catalogLoop fds db flags erange (n + 1) hdr₀ swpath₁
      ((ms.map fun m => m.1.hdr.cName.bytes).getLastD []) (toCInt (signedPart ms).length) p₁ =
        .returned (.error (-1)) := by
    rw [← doHeaderSafetyChecks_alike halike, ← halike.cName] at hfails
    refine (catalogLoop_step hread (by decide) (halike.cName ▸ hparse) hret _ _).refused hcat ?_
    rw [catalogMember, if_pos hsig, if_pos hfails]
  rw [taruibWriteCatalogStream, hrun, hstop, Outcome.returned_bind]

/-- A signature right behind the leading directory. -/
theorem taruibWriteCatalogStream_refuses_first :
    taruibWriteCatalogStream outAndNull .blank {} false 2 {}
        (passOf (([(packaged directoryMember, leadingState)].flatMap fun m => m.1.bytes) ++
          ((packaged signatureMember).header ++ []))) = .returned (-1, none) :=
  taruibWriteCatalogStream_refuses (catalogRun_signature {} false) (by decide) (by decide)
    (by decide) (holds_passOf _) (takesWhole_wholeWrites (by decide)) rfl (by decide) {}

end

end Swbis.Taru
