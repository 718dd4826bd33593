import Swbis.Misc.Swvarfs

/-!
# The members of an archive in order

`Stands a trailer off ms`: from an offset on, the archive consists of the members
`ms` and the trailer.  `swvarfs_get_next_dirent` returns the name of a member and
leaves the descriptor at its header, and the next call reads past the member
(`getNextDirent_between`, `getNextDirent_pending`).  Reading past a member opens
it by its own name, so it needs a name that can be compared.
-/

namespace Swbis.Misc

open CLib Swbis.Taru

/-! ## Layout -/

/-- A member, as far as access to it depends on it.  Only a regular file has data
behind its header; the size of a symbolic link is that of its target. -/
structure ArcMember where
  name : Bytes
  /-- The type bits of the mode. -/
  fileType : UInt64
  size : Nat
  /-- The bytes that the header reader takes. -/
  headerLen : Nat
  named : name ≠ []
  notTrailer : name ≠ cpioInbandEoaFilename.bytes
  sized : size = 0 ∨ fileType = cpIfreg ∨ fileType = cpIflnk
  headerLen_pos : 0 < headerLen

/-- The bytes behind the header that belong to the member. -/
def ArcMember.dataLen (m : ArcMember) : Nat := if m.fileType = cpIfreg then m.size else 0

/-- The header that is read for a member.  A hard link has no data. -/
structure ArcMember.Reads (m : ArcMember) (hdr : FileHdr) : Prop where
  name : hdr.cName.bytes = m.name
  fileType : hdr.fileType = m.fileType
  size : hdr.cFilesize.toNat = m.size
  link : hdr.cTarLinkname.strlen ≠ 0 → m.dataLen = 0

/-- The bytes of a member, with padding. -/
def ArcMember.extent (m : ArcMember) (format : StreamFormat) : Nat :=
  m.headerLen + m.dataLen + format.pad m.dataLen

/-- The header of a member stands at an offset.  The tar reader clears the end of
the archive with each header, the cpio reader leaves it as it is. -/
def HeaderAt (a : Archive) (off : Nat) (m : ArcMember) : Prop :=
  ∀ prev, ∃ r, a.taruReadHeader prev off = .returned r ∧ 0 ≤ r.ret ∧
    r.eoa = (if a.format = .tar then some 0 else none) ∧ r.next = off + m.headerLen ∧ m.Reads r.hdr

/-- The trailer of an archive stands at an offset. -/
def TrailerAt (a : Archive) (off : Nat) : Prop :=
  ∀ prev, ∃ r eoa, a.taruReadHeader prev off = .returned r ∧ 0 ≤ r.ret ∧ r.eoa = some eoa ∧
    eoa ≠ 0 ∧ r.hdr.cName = cpioInbandEoaFilename

/-- The trailer of a tar archive is two records long, and behind it is nothing but
the end of the file, or more of its kind. -/
structure TarTrailerAt (a : Archive) (off : Nat) : Prop where
  trailer : TrailerAt a off
  next : ∀ prev r, a.taruReadHeader prev off = .returned r → r.next = off + 2 * tarRecordSize
  behind : ∀ prev, ∃ r, a.taruReadHeader prev (off + 2 * tarRecordSize) = .returned r ∧
    (r.ret < 0 ∨ r.eoa.getD 0 ≠ 0 ∨ r.hdr.cName.bytes = [])

/-- The members stand one after another, and the trailer behind them. -/
def Stands (a : Archive) (trailer : Nat → Prop) : Nat → List ArcMember → Prop
  | off, [] => trailer off
  | off, m :: ms =>
      HeaderAt a off m ∧ off + m.extent a.format ≤ a.data.length ∧
        Stands a trailer (off + m.extent a.format) ms

theorem Stands.mono {a : Archive} {trailer trailer' : Nat → Prop} (h : ∀ off, trailer off → trailer' off)
    {ms : List ArcMember} {off : Nat} (hs : Stands a trailer off ms) : Stands a trailer' off ms := by
  induction ms generalizing off with
  | nil => exact h off hs
  | cons m ms ih => exact ⟨hs.1, hs.2.1, ih hs.2.2⟩

/-- The bytes of the members. -/
def membersLength (format : StreamFormat) (ms : List ArcMember) : Nat :=
  (ms.map (·.extent format)).sum

@[simp] theorem membersLength_nil (format : StreamFormat) : membersLength format [] = 0 := rfl

@[simp] theorem membersLength_cons (format : StreamFormat) (m : ArcMember) (ms : List ArcMember) :
    membersLength format (m :: ms) = m.extent format + membersLength format ms := rfl

@[simp] theorem membersLength_append (format : StreamFormat) (ms ms' : List ArcMember) :
    membersLength format (ms ++ ms') = membersLength format ms + membersLength format ms' := by
  rw [membersLength, List.map_append, List.sum_append]
  rfl

@[simp] theorem StreamFormat.pad_zero (format : StreamFormat) : format.pad 0 = 0 := by
  cases format with
  | tar => rfl
  | cpio format => cases format <;> rfl

theorem ArcMember.extent_pos (m : ArcMember) (format : StreamFormat) : 0 < m.extent format := by
  have := m.headerLen_pos
  rw [ArcMember.extent]
  omega

/-- Reading what is there moves the descriptor by as much. -/
theorem Archive.afterRead_eq {a : Archive} {pos n : Nat} (h : pos + n ≤ a.data.length) :
    a.afterRead pos n = pos + n := by
  rw [Archive.afterRead]
  omega

namespace Swvarfs

variable {a : Archive}

/-! ## Reading a header -/

/-- A header is read where it stands. -/
theorem readHeader_at {sv : Swvarfs} {m : ArcMember} (h : HeaderAt a sv.pos m) (peoa : Bool) :
    ∃ ret hdr, readHeader a peoa sv = .returned (ret, { sv with
        hdr := hdr
        pos := sv.pos + m.headerLen
        eoa := if peoa = true ∧ a.format = .tar then 0 else sv.eoa }) ∧
      0 ≤ ret ∧ m.Reads hdr := by
  obtain ⟨r, hr, hret, heoa, hnext, hm⟩ := h sv.hdr
  have he : (if peoa = true then r.eoa.getD sv.eoa else sv.eoa) =
      if peoa = true ∧ a.format = .tar then 0 else sv.eoa := by
    rw [heoa]
    by_cases htar : a.format = .tar
    · simp [htar]
    · simp [htar]
  refine ⟨r.ret, r.hdr, ?_, hret, hm⟩
  rw [readHeader, hr, Outcome.returned_bind, he, ← hnext]
  rfl

/-- Where there was no end of the archive, there is none behind a member. -/
theorem eoa_eq_zero {sv : Swvarfs} (h0 : sv.eoa = 0) (peoa : Bool) :
    (if peoa = true ∧ a.format = .tar then 0 else sv.eoa) = 0 := by
  rw [h0, ite_self]

/-- The name of the member at the descriptor is returned, if it is in scope. -/
theorem nextHeader_at {sv : Swvarfs} {m : ArcMember} (h : HeaderAt a sv.pos m) (h0 : sv.eoa = 0)
    (hscope : isNameInScope a.fnmatch sv.dirscope m.name = true) :
    ∃ hdr off, m.Reads hdr ∧ nextHeader a sv = .returned (some m.name,
      { sv with hdr := hdr, currentDataOffset := off, uCurrentName := some m.name,
                didUOpen := 0 }) := by
  obtain ⟨ret, hdr, hread, hret, hm⟩ := readHeader_at h true
  rw [eoa_eq_zero h0, ← h0] at hread
  refine ⟨hdr, (sv.pos + m.headerLen : Nat), hm, ?_⟩
  rw [nextHeader, hread, Outcome.returned_bind]
  simp only [Outcome.pure_eq]
  rw [if_neg (by omega), if_neg (by rw [h0]; decide), hm.name, if_pos hscope]

/-- The last step of opening a member at the descriptor.  It makes a link if the
member was not found through one. -/
theorem enterHeader_at {sv : Swvarfs} {m : ArcMember} (h : HeaderAt a sv.pos m) :
    ∃ hdr, m.Reads hdr ∧ enterHeader a sv = .returned (0,
      let sv' := { sv with
        hdr := hdr
        pos := sv.pos + m.headerLen
        eoa := if a.format = .tar then 0 else sv.eoa
        currentDataOffset := (sv.pos + m.headerLen : Nat) }
      if sv.makefilechain ∧ sv.currentFilechain = none then
        { sv'.attach (makeLink hdr sv.pos) with currentFilechain := some (makeLink hdr sv.pos) }
      else sv') := by
  obtain ⟨ret, hdr, hread, hret, hm⟩ := readHeader_at h true
  simp only [true_and] at hread
  refine ⟨hdr, hm, ?_⟩
  rw [enterHeader, hread, Outcome.returned_bind]
  simp only [Outcome.pure_eq]
  rw [if_neg (by omega)]
  split
  · rfl
  · rfl

/-! ## Leaving a member -/

/-- Closing a member leaves the descriptor behind it, however much of its data
has been read. -/
theorem leaveMember_at {sv : Swvarfs} {m : ArcMember} {off : Nat} {u : UFd}
    (hm : m.Reads sv.hdr) (hoff : sv.currentDataOffset = (off : Nat)) (hu : u.vEnd = m.size)
    (hread : u.bytesread ≤ u.vEnd) (hpos : sv.pos = off + u.bytesread) (hsmall : sv.pos < 2 ^ 31)
    (hdata : off + m.dataLen + a.format.pad m.dataLen ≤ a.data.length) :
    leaveMember a (sv.seekEnd u) =
      { sv with pos := off + m.dataLen + a.format.pad m.dataLen } := by
  by_cases hreg : m.fileType = cpIfreg
  · -- The seek goes to the end of the data, and the padding is skipped.
    have hlen : m.dataLen = m.size := if_pos hreg
    rw [hlen] at hdata ⊢
    rw [seekEnd, if_neg (by rw [hm.fileType, hreg]; decide), leaveMember, fileHasData, hm.fileType,
      hreg, if_pos (by rfl), skipPadding, hm.size, hpos, hu,
      Nat.add_assoc, Nat.add_sub_cancel' (hu ▸ hread), Archive.afterRead_eq hdata]
  · -- The seek goes back to what stands behind the header.
    have hlen : m.dataLen = 0 := if_neg hreg
    have hback (sv' : Swvarfs) (he : sv'.hdr = sv.hdr) (ho : sv'.currentDataOffset = (off : Nat))
        (hs : sv'.pos < 2 ^ 31) : leaveMember a sv' = { sv' with pos := off } := by
      rw [leaveMember, fileHasData, he, hm.fileType, if_neg (by simpa using hreg), ho,
        toCInt_of_lt hs, seekSet, if_pos (by omega)]
      congr
      omega
    rw [hlen, StreamFormat.pad_zero, Nat.add_zero]
    by_cases hlnk : m.fileType = cpIflnk
    · rw [seekEnd, if_pos (hm.fileType.trans hlnk), hback sv rfl hoff hsmall]
    · have hzero : m.size = 0 := by
        rcases m.sized with h | h | h
        · exact h
        · exact absurd h hreg
        · exact absurd h hlnk
      have hend : u.vEnd - u.bytesread = 0 := by omega
      rw [seekEnd, if_neg (by rw [hm.fileType]; exact hlnk), hend, Nat.add_zero,
        hback _ rfl hoff hsmall]

/-! ## Traversal in order -/

/-- Nothing is open, there is no scope, and no directory has been entered. -/
structure Traversing (sv : Swvarfs) : Prop where
  closed : sv.uFdSet = [none, none, none, none]
  noChain : sv.makefilechain = false
  noScope : sv.dirscope = []

/-- The name that was returned last opens the member at the descriptor. -/
theorem uOpen_current {sv : Swvarfs} {m : ArcMember} (t : Traversing sv) (fuel : Nat)
    (h : HeaderAt a sv.pos m) (hcur : sv.uCurrentName = some m.name) (h0 : sv.eoa = 0)
    (hc : Comparable m.name) :
    ∃ hdr, m.Reads hdr ∧ uOpen a fuel sv m.name = .returned (0,
      { sv with didUOpen := 1, hdr := hdr, pos := sv.pos + m.headerLen, currentFilechain := none,
                currentDataOffset := (sv.pos + m.headerLen : Nat),
                uFdSet := [some { vEnd := m.size, bytesread := 0 }, none, none, none] }) := by
  have h' : HeaderAt a ({ sv with didUOpen := 1, currentFilechain := none } : Swvarfs).pos m := h
  obtain ⟨hdr, hm, henter⟩ := enterHeader_at h'
  rw [if_neg (by rw [t.noChain]; simp)] at henter
  have heoa : (if a.format = .tar then 0 else sv.eoa) = sv.eoa := by rw [h0, ite_self]
  simp only [heoa] at henter
  refine ⟨hdr, hm, ?_⟩
  have hfree : sv.udFindFree = some 0 := by rw [udFindFree, t.closed]; rfl
  have hscope : isNameInScope a.fnmatch sv.dirscope m.name = true := by
    rw [t.noScope, isNameInScope_nil]
  have hseek : seekToName a fuel { sv with didUOpen := 1 } m.name =
      enterHeader a { sv with didUOpen := 1, currentFilechain := none } := by
    rw [seekToName, findCurrent]
    simp only [hcur, Outcome.returned_bind, isInOrder, filenameDoesMatch_self hc, Outcome.pure_eq,
      Option.isNone_none, Bool.and_self, if_true, enterInOrder, Option.getD_some, hscope]
  have hne : hdr.cName.strlen ≠ 0 := by
    rw [CString.strlen, hm.name]
    exact fun hlen => m.named (List.length_eq_zero_iff.mp hlen)
  rw [uOpen, hfree]
  simp only [hseek, henter, Outcome.returned_bind, Outcome.pure_eq]
  rw [if_neg (by simp), if_neg (by simpa using h0), openBh]
  simp only [if_neg hne, hm.name, hm.size, t.closed, hcur, h0]
  rfl

/-- Reading all the data of an open member. -/
theorem uRead_all {sv : Swvarfs} {fd : Nat} {u : UFd} (hu : sv.uFd fd = some u)
    (hdata : sv.pos + (u.vEnd - u.bytesread) ≤ a.data.length) (hread : u.bytesread ≤ u.vEnd) :
    (uRead a sv fd a.data.length).2 = { sv with
      pos := sv.pos + (u.vEnd - u.bytesread)
      uFdSet := sv.uFdSet.set fd (some { u with bytesread := u.vEnd }) } := by
  have hlen : ((a.data.drop sv.pos).take (min a.data.length (u.vEnd - u.bytesread))).length =
      u.vEnd - u.bytesread := by
    rw [List.length_take, List.length_drop]
    omega
  rw [uRead, hu]
  simp only [hlen, Nat.add_sub_cancel' hread]

/-- The name that was returned last leads past the member at the descriptor. -/
theorem uLstat_current {sv : Swvarfs} {m : ArcMember} (t : Traversing sv) (fuel : Nat)
    (h : HeaderAt a sv.pos m) (hcur : sv.uCurrentName = some m.name) (h0 : sv.eoa = 0)
    (hc : Comparable m.name) (hdata : sv.pos + m.extent a.format ≤ a.data.length)
    (hsmall : sv.pos + m.extent a.format < 2 ^ 31) :
    ∃ sv', uLstat a fuel sv m.name = .returned (0, sv') ∧ Traversing sv' ∧
      sv'.pos = sv.pos + m.extent a.format ∧ sv'.uCurrentName = none ∧ sv'.eoa = 0 := by
  obtain ⟨hdr, hm, hopen⟩ := uOpen_current t fuel h hcur h0 hc
  have hlen : sv.pos + m.extent a.format =
      sv.pos + m.headerLen + m.dataLen + a.format.pad m.dataLen := by
    rw [ArcMember.extent]
    omega
  rw [hlen] at hdata hsmall ⊢
  rw [uLstat, hopen, Outcome.returned_bind]
  simp only [Outcome.pure_eq]
  rw [if_neg (by decide)]
  refine ⟨_, rfl, ?_⟩
  by_cases hreg : m.fileType = cpIfreg
  · have hsize : m.dataLen = m.size := if_pos hreg
    rw [if_pos (by rw [fileHasData, hm.fileType, hreg]; rfl), Int.toNat_zero, uRead_all rfl
      (by rw [hsize] at hdata; simp only [Nat.sub_zero]; omega) (Nat.zero_le _), uClose]
    simp only [uFd, List.set_cons_zero, List.getElem?_cons_zero, Option.join_some, Nat.sub_zero]
    rw [leaveMember_at hm rfl rfl (Nat.le_refl _) rfl (by rw [hsize] at hsmall; simp only; omega)
      hdata]
    exact ⟨⟨rfl, t.noChain, t.noScope⟩, rfl, trivial, h0⟩
  · rw [if_neg (by rw [fileHasData, hm.fileType]; simpa using hreg), Int.toNat_zero, uClose]
    simp only [uFd, List.getElem?_cons_zero, Option.join_some]
    rw [leaveMember_at hm rfl rfl (Nat.zero_le _) rfl (by simp only; omega) hdata]
    exact ⟨⟨rfl, t.noChain, t.noScope⟩, rfl, trivial, h0⟩

/-- Where a call of `swvarfs_get_next_dirent` leaves the archive, when the members
`ms` have not been passed. -/
def Reached (a : Archive) (sv : Swvarfs) (ms : List ArcMember) : Prop :=
  Traversing sv ∧
    match ms with
    | [] => sv.eoa ≠ 0 ∧ sv.uCurrentName = none ∧
        ∃ off, TarTrailerAt a off ∧ sv.pos = off + 2 * tarRecordSize
    | m :: _ => sv.eoa = 0 ∧ sv.uCurrentName = some m.name ∧ sv.didUOpen = 0 ∧
        Stands a (TarTrailerAt a) sv.pos ms

/-- The next header is that of the first member that has not been passed. -/
theorem nextHeader_between {sv : Swvarfs} {ms : List ArcMember} (t : Traversing sv)
    (hcur : sv.uCurrentName = none) (h0 : sv.eoa = 0) (hs : Stands a (TarTrailerAt a) sv.pos ms) :
    ∃ sv', nextHeader a sv = .returned (ms.head?.map (·.name), sv') ∧ Reached a sv' ms ∧
      sv'.pos = sv.pos + if ms = [] then 2 * tarRecordSize else 0 := by
  cases ms with
  | nil =>
      obtain ⟨r, eoa, hr, hret, heoa, hne, -⟩ := hs.trailer sv.hdr
      have hnext := hs.next sv.hdr r hr
      refine ⟨{ sv with hdr := r.hdr, pos := r.next, eoa := eoa }, ?_, ⟨⟨t.closed, t.noChain,
        t.noScope⟩, hne, hcur, sv.pos, hs, hnext⟩, ?_⟩
      · rw [nextHeader, readHeader, hr]
        simp only [Outcome.returned_bind, Outcome.pure_eq, heoa, Option.getD_some, if_true]
        rw [if_neg (by omega), if_pos hne]
        rfl
      · rw [if_pos rfl]
        exact hnext
  | cons m ms =>
      obtain ⟨hdr, off, hm, hnext⟩ := nextHeader_at hs.1 h0
        (by rw [t.noScope, isNameInScope_nil])
      exact ⟨_, hnext, ⟨⟨t.closed, t.noChain, t.noScope⟩, h0, rfl, rfl, hs⟩,
        by rw [if_neg (List.cons_ne_nil _ _)]; rfl⟩

/-- One call passes one member. -/
theorem getNextDirent_reached {sv : Swvarfs} {m : ArcMember} {ms : List ArcMember} (fuel : Nat)
    (h : Reached a sv (m :: ms)) (hc : Comparable m.name)
    (hsmall : sv.pos + m.extent a.format < 2 ^ 31) :
    ∃ sv', getNextDirent a fuel sv = .returned (ms.head?.map (·.name), sv') ∧ Reached a sv' ms ∧
      sv'.pos = sv.pos + m.extent a.format + if ms = [] then 2 * tarRecordSize else 0 := by
  obtain ⟨t, h0, hcur, hopen, hs⟩ := h
  have t₀ : Traversing { sv with eoa := 0 } := ⟨t.closed, t.noChain, t.noScope⟩
  obtain ⟨sv₁, hlstat, t₁, hpos₁, hcur₁, h0₁⟩ :=
    uLstat_current t₀ fuel hs.1 hcur rfl hc hs.2.1 hsmall
  obtain ⟨sv₂, hnext, hr, hpos₂⟩ := nextHeader_between t₁ hcur₁ h0₁ (by rw [hpos₁]; exact hs.2.2)
  refine ⟨sv₂, ?_, hr, by rw [hpos₂, hpos₁]⟩
  simp only [hcur, hopen] at hlstat
  rw [getNextDirent]
  simp only [hcur, hopen, if_true, hlstat, Outcome.returned_bind, hnext]

/-- A call that returns has compared the name of the member it passes. -/
theorem comparable_of_getNextDirent {sv : Swvarfs} {m : ArcMember} {ms : List ArcMember}
    {fuel : Nat} {r : Option Bytes × Swvarfs} (h : Reached a sv (m :: ms))
    (hr : getNextDirent a fuel sv = .returned r) : Comparable m.name := by
  obtain ⟨t, h0, hcur, hopen, hs⟩ := h
  rw [getNextDirent] at hr
  simp only [hcur, hopen, if_true] at hr
  obtain ⟨r₁, hlstat, -⟩ := Outcome.bind_eq_returned.mp hr
  obtain ⟨r₂, hu, -⟩ := Outcome.bind_eq_returned.mp hlstat
  rw [uOpen, udFindFree, t.closed] at hu
  obtain ⟨r₃, hseek, -⟩ := Outcome.bind_eq_returned.mp hu
  rw [seekToName, findCurrent] at hseek
  simp only [Outcome.returned_bind] at hseek
  obtain ⟨b, horder, -⟩ := Outcome.bind_eq_returned.mp hseek
  obtain ⟨b', hmatch, -⟩ := Outcome.bind_eq_returned.mp horder
  exact comparable_of_returned hmatch

/-- Behind the trailer no name is returned, or an empty one. -/
theorem getNextDirent_end {sv : Swvarfs} (fuel : Nat) (h : Reached a sv []) :
    ∃ r, getNextDirent a fuel sv = .returned r ∧ (r.1 = none ∨ r.1 = some []) := by
  obtain ⟨t, -, hcur, off, ht, hpos⟩ := h
  obtain ⟨r, hr, hcases⟩ := ht.behind sv.hdr
  rw [getNextDirent]
  simp only [hcur]
  rw [nextHeader, readHeader]
  simp only [hpos, hr, Outcome.returned_bind, Outcome.pure_eq, if_true]
  by_cases hret : r.ret < 0
  · rw [if_pos hret]
    exact ⟨_, rfl, .inl rfl⟩
  · by_cases heoa : r.eoa.getD 0 = 0
    · have hname : r.hdr.cName.bytes = [] := by
        rcases hcases with h | h | h
        · exact absurd h hret
        · exact absurd heoa h
        · exact h
      rw [if_neg hret, if_neg (by simpa using heoa), hname, t.noScope, isNameInScope_nil]
      exact ⟨_, rfl, .inr rfl⟩
    · rw [if_neg hret, if_pos heoa]
      exact ⟨_, rfl, .inl rfl⟩

end Swvarfs

end Swbis.Misc
