import Swbis.Misc.SwvarfsRun
import Swbis.Misc.SwicatE

/-!
# Random access to the members of an archive

A member can be opened by its name, whatever has been done before.  It is found in
one of four ways (`Openable`): its name is the one that was returned last, it has a
link in the file chain, its header stands at the descriptor, or it is ahead of the
last link (`randomAccess_careful`).

`swvarfs_setdir` begins a new chain at the directory.  A member before it has no
link and is not ahead, so it cannot be opened any more (`not_randomAccess_setdir`).
-/

namespace Swbis.Misc

open CLib Swbis.Taru

namespace Swvarfs

/-! ## Random access -/

/-- A header as it is read at an offset. -/
def IsHeaderAt (a : Archive) (off : Nat) (hdr : FileHdr) : Prop :=
  ∃ prev r, a.taruReadHeader prev off = .returned r ∧ hdr = r.hdr

/-- Opening a member by its name succeeds, and yields its own header and data.  A
symbolic link has its data in the header. -/
def OpensRight (a : Archive) (ms : List ArcMember) (sv : Swvarfs) (m : ArcMember) (off : Nat) :
    Prop :=
  ∀ fuel, ms.length < fuel → ∃ fd sv', uOpen a fuel sv m.name = .returned (fd, sv') ∧ 0 ≤ fd ∧
    IsHeaderAt a off sv'.hdr ∧ m.Reads sv'.hdr ∧
    (m.fileType ≠ cpIflnk → ∀ n, (uRead a sv' fd.toNat n).1 =
      ((a.data.drop (off + m.headerLen)).take m.dataLen).take n)

/-- In every state that calls lead to, every member in scope can be opened.  The
calls are those that meet a condition, and so is the opening. -/
def RandomAccess (a : Archive) (ms : List ArcMember) (meets : Swvarfs → Call → Prop)
    (opens : Swvarfs → ArcMember → Nat → Prop) : Prop :=
  ∀ sv, ReachedBy a meets sv → ∀ m off, Located a.format ms m off →
    isNameInScope a.fnmatch sv.dirscope m.name = true → opens sv m off → OpensRight a ms sv m off

/-! ## Ways to a member -/

/-- The member has a link that is in scope, or it is ahead of the last link. -/
def Findable (a : Archive) (sv : Swvarfs) (m : ArcMember) (off : Nat) : Prop :=
  if linkOf m off ∈ sv.filechain then
    isNameInScope a.fnmatch sv.dirscope (searchKey a.hasLeadingSlash (searchName m.name)) = true
  else sv.makefilechain = true → Ahead sv off

/-- How a member can be opened.  In order, it does not matter what the comparisons
make of the names of the others. -/
inductive Openable (a : Archive) (ms : List ArcMember) (sv : Swvarfs) (m : ArcMember) (off : Nat) :
    Prop where
  /-- Its name was returned last, and its header stands at the descriptor. -/
  | inOrder {current : Bytes} (hcur : sv.uCurrentName = some current)
      (hmatch : filenameDoesMatch m.name current = .returned true)
      (hscope : isNameInScope a.fnmatch sv.dirscope current = true) (hpos : sv.pos = off)
      (heoa : a.format = .tar ∨ sv.eoa = 0)
  /-- Another name was returned last. -/
  | other {current : Bytes} (hclear : NameClear a ms m) (hcur : sv.uCurrentName = some current)
      (hmatch : filenameDoesMatch m.name current = .returned false) (hfind : Findable a sv m off)
      (heoa : a.format = .tar ∨ sv.eoa = 0)
  /-- No name was returned, and the member has a link. -/
  | linked (hclear : NameClear a ms m) (hcur : sv.uCurrentName = none)
      (hlink : linkOf m off ∈ sv.filechain) (hfind : Findable a sv m off)
      (heoa : a.format = .tar ∨ sv.eoa = 0)
  /-- No name was returned, and the header at the descriptor is read. -/
  | peeked (hclear : NameClear a ms m) (hcur : sv.uCurrentName = none)
      (hlink : linkOf m off ∉ sv.filechain) (hpeek : PeekSafe a ms sv m.name)
      (hfind : sv.pos = off ∨ Findable a sv m off)
      (heoa : a.format = .tar ∨
        ∀ r, a.taruReadHeader sv.hdr sv.pos = .returned r → r.eoa.getD 0 = 0)

variable {a : Archive} {ms : List ArcMember} {sv : Swvarfs}

/-! ## Opening a member -/

/-- A link that is sought through leads to its header. -/
theorem seekToLink_linkOf (sv : Swvarfs) (m : ArcMember) (off : Nat) :
    seekToLink sv (linkOf m off) =
      (0, { sv with currentFilechain := some (linkOf m off), pos := off }) := by
  have hoff : 0 ≤ (linkOf m off).headerOffsetFC := Int.natCast_nonneg off
  rw [seekToLink, if_pos hoff, seekSet, if_pos hoff]
  rfl

/-- A member with a link, or ahead of the last one, is found. -/
theorem seekToMember_found {m : ArcMember} {off fuel : Nat} (ha : ArchiveOf a ms)
    (hc : Chained a ms sv) (hm : Located a.format ms m off) (hclear : NameClear a ms m)
    (hscope : isNameInScope a.fnmatch sv.dirscope m.name = true) (hfind : Findable a sv m off)
    (hfuel : ms.length < fuel) :
    ∃ sv', seekToMember a fuel sv m.name = .returned (0, sv') ∧ SameAccess sv sv' ∧
      sv'.pos = off := by
  rw [Findable] at hfind
  rw [seekToMember, searchFilechain_clear ha hc.sound hm hclear
    (fun hlink => by rwa [if_pos hlink] at hfind)]
  split at hfind
  next hlink =>
    refine ⟨{ sv with currentFilechain := some (linkOf m off), pos := off }, ?_,
      ⟨rfl, rfl, rfl, rfl⟩, rfl⟩
    rw [if_pos hlink, Outcome.returned_bind]
    simp only [seekToLink_linkOf, Outcome.pure_eq]
  next hlink =>
    have hahead : Ahead sv off := by
      cases hmake : sv.makefilechain with
      | false => exact hc.ahead hmake hm hlink
      | true => exact hfind hmake
    obtain ⟨pre, post, sv₁, hms, hres, hloop⟩ := readinFilechain_resumes ha hc.sound fuel m.name
    obtain ⟨before, after, rfl, hoff⟩ := hres.ahead hms hm hahead
    have hstands := ha.stands_at hms
    have hsmall := ha.length_le hms
    have hlen : before.length < fuel := by
      have := congrArg List.length hms
      rw [List.length_append, List.length_append, List.length_cons] at this
      omega
    have hpass : ∀ m' ∈ before,
        doStopReading a.hasLeadingSlash m'.name m.name = .returned (false, m.name) := by
      intro m' hm'
      have hmem : m' ∈ ms := by
        rw [hms]
        exact List.mem_append_right _ (List.mem_append_left _ hm')
      rw [hclear.stop m' hmem, decide_eq_false]
      intro hname
      have hd := ha.distinct
      rw [hms, List.map_append, List.map_append, List.map_cons] at hd
      have hdis := (List.nodup_append.mp (List.nodup_append.mp hd).2.1).2.2
      exact hdis _ (List.mem_map_of_mem hm') _ List.mem_cons_self hname
    have hstop : doStopReading a.hasLeadingSlash m.name m.name = .returned (true, m.name) := by
      rw [hclear.stop m hm.mem, decide_eq_true rfl]
    rw [← hres.pos] at hstands hsmall hoff
    obtain ⟨sv₂, hfound⟩ := readinLoop_found hstands hsmall hlen hpass hstop
    obtain ⟨-, hsame⟩ := readinFilechain_chained ha hc (hloop.trans hfound)
    refine ⟨{ sv₂ with currentFilechain := some (linkOf m off), pos := off }, ?_,
      ⟨hsame.uFdSet, hsame.eoa, hsame.makefilechain, hsame.dirscope⟩, rfl⟩
    rw [if_neg hlink, Outcome.returned_bind]
    simp only
    rw [hloop, hfound, Outcome.returned_bind]
    have hscope' : isNameInScope a.fnmatch sv₂.dirscope m.name = true := by
      rw [hsame.dirscope]
      exact hscope
    simp only [hscope', if_true, ← hoff, seekToLink_linkOf, Outcome.pure_eq]

/-- Entering the header of a member at the descriptor. -/
theorem enterHeader_right {m : ArcMember} (h : HeaderAt a sv.pos m) :
    ∃ sv', enterHeader a sv = .returned (0, sv') ∧ IsHeaderAt a sv.pos sv'.hdr ∧
      m.Reads sv'.hdr ∧ sv'.pos = sv.pos + m.headerLen ∧ sv'.uFdSet = sv.uFdSet ∧
      sv'.eoa = if a.format = .tar then 0 else sv.eoa := by
  obtain ⟨hdr, hm, henter⟩ := enterHeader_at h
  obtain ⟨r, hr, hhdr, -⟩ := enterHeader_cases henter
  simp only at henter hhdr
  split at henter
  next hmake =>
    rw [if_pos hmake] at hhdr
    exact ⟨_, henter, ⟨_, r, hr, hhdr⟩, hm, rfl, rfl, rfl⟩
  next hmake =>
    rw [if_neg hmake] at hhdr
    exact ⟨_, henter, ⟨_, r, hr, hhdr⟩, hm, rfl, rfl, rfl⟩

/-- A member whose header is entered is opened, and what is read from its
descriptor is its data. -/
theorem opensRight_of_seekToName {m : ArcMember} {off : Nat} {fd : Nat}
    (hm : HeaderAt a off m) (hfree : sv.udFindFree = some fd)
    (hseek : ∀ fuel, ms.length < fuel → ∃ sv₁, sv₁.pos = off ∧ sv₁.uFdSet = sv.uFdSet ∧
      (a.format = .tar ∨ sv₁.eoa = 0) ∧
      seekToName a fuel { sv with didUOpen := 1 } m.name = enterHeader a sv₁) :
    OpensRight a ms sv m off := by
  intro fuel hfuel
  obtain ⟨sv₁, rfl, hset, heoa, hname⟩ := hseek fuel hfuel
  obtain ⟨sv₂, henter, hheader, hreads, hpos, hset', heoa'⟩ := enterHeader_right hm
  have h0 : sv₂.eoa = 0 := by
    rcases heoa with htar | h
    · rw [heoa', if_pos htar]
    · rw [heoa', h, ite_self]
  refine ⟨fd, sv₂.openBh fd, ?_, Int.natCast_nonneg fd, hheader, hreads, fun hlnk n => ?_⟩
  · rw [uOpen, hfree]
    simp only [hname, henter, Outcome.returned_bind, Outcome.pure_eq]
    rw [if_neg (by simp), if_neg (by simpa using h0)]
  · have hlen : m.size = m.dataLen := by
      rw [ArcMember.dataLen]
      split
      · rfl
      next hreg =>
        rcases m.sized with h | h | h
        · exact h
        · exact absurd h hreg
        · exact absurd h hlnk
    have hlt : fd < sv₂.uFdSet.length := by
      rw [hset', hset]
      exact (List.findIdx?_eq_some_iff_getElem.mp hfree).1
    have hu : (sv₂.openBh fd).uFd fd = some { vEnd := m.dataLen, bytesread := 0 } := by
      rw [uFd, openBh]
      simp only
      rw [List.getElem?_set_self hlt, Option.join_some, hreads.size, hlen]
    rw [Int.toNat_natCast, uRead, hu]
    simp only [Nat.sub_zero]
    rw [List.take_take, ← hpos]
    rfl

/-- The name is the one that was returned last. -/
theorem seekToName_inOrder {name current : Bytes} {existing : Option FileChain} {sv₁ : Swvarfs}
    (hfind : findCurrent a sv name = .returned (some (some current, existing, sv₁)))
    (horder : isInOrder name (some current) existing = .returned true)
    (hscope : isNameInScope a.fnmatch sv₁.dirscope current = true) (fuel : Nat) :
    seekToName a fuel sv name = enterHeader a { sv₁ with currentFilechain := none } := by
  rw [seekToName, hfind, Outcome.returned_bind]
  simp only [horder, Outcome.returned_bind, Outcome.pure_eq, if_true, enterInOrder,
    Option.getD_some, hscope]

/-- The name is another one, and the member is found in the chain. -/
theorem seekToName_other {name : Bytes} {current : Option Bytes} {existing : Option FileChain}
    {sv₁ sv₂ : Swvarfs} {fuel : Nat}
    (hfind : findCurrent a sv name = .returned (some (current, existing, sv₁)))
    (horder : isInOrder name current existing = .returned false)
    (hseek : seekToMember a fuel sv₁ name = .returned (0, sv₂)) :
    seekToName a fuel sv name = enterHeader a sv₂ := by
  rw [seekToName, hfind, Outcome.returned_bind]
  simp only [horder, Outcome.returned_bind, Bool.false_eq_true, if_false, hseek, if_true]

/-- A peek away from the member does not end in order. -/
theorem peek_other {m : ArcMember} {off : Nat} (ha : ArchiveOf a ms)
    (hm : Located a.format ms m off) (hclear : NameClear a ms m)
    (hpeek : PeekSafe a ms sv m.name) (hpos : sv.pos ≠ off) :
    ∃ r current sv', a.taruReadHeader sv.hdr sv.pos = .returned r ∧
      nextHeader a { sv with eoa := 0 } = .returned (current, sv') ∧
      isInOrder m.name current none = .returned false ∧
      SameAccess { sv with eoa := r.eoa.getD 0 } sv' ∧ sv'.filechain = sv.filechain := by
  have hread : ∃ r, a.taruReadHeader sv.hdr sv.pos = .returned r ∧ (r.ret < 0 ∨ r.eoa.getD 0 ≠ 0 ∨
      filenameDoesMatch m.name r.hdr.cName.bytes = .returned false) := by
    rcases hpeek with ⟨m', hm'⟩ | hread
    · obtain ⟨r, hr, -, -, -, hreads⟩ := (ha.headerAt hm').1 sv.hdr
      have hname : m'.name ≠ m.name := fun h => hpos (ha.located_unique hm hm' h).2
      exact ⟨r, hr, .inr (.inr (by rw [hreads.name, hclear.apart m' hm'.mem, decide_eq_false hname]))⟩
    · exact hread
  obtain ⟨r, hr, hcases⟩ := hread
  have hr₀ : a.taruReadHeader ({ sv with eoa := 0 } : Swvarfs).hdr sv.pos = .returned r := hr
  obtain ⟨sv', hnext, hsame, hchain, -⟩ := nextHeader_eq hr₀
  refine ⟨r, _, sv', hr, hnext, ?_, hsame, hchain⟩
  split
  next hgot =>
    rcases hcases with hret | heoa | hno
    · exact absurd hret (by omega)
    · exact absurd hgot.2.1 heoa
    · rw [isInOrder, hno]
      rfl
  next => rfl

/-- A member that is openable is opened. -/
theorem opensRight_of_openable {m : ArcMember} {off : Nat} (ha : ArchiveOf a ms)
    (hc : Chained a ms sv) (hm : Located a.format ms m off)
    (hscope : isNameInScope a.fnmatch sv.dirscope m.name = true) (hfree : sv.udFindFree ≠ none)
    (hopen : Openable a ms sv m off) : OpensRight a ms sv m off := by
  obtain ⟨fd, hfd⟩ := Option.ne_none_iff_exists'.mp hfree
  have hheader := (ha.headerAt hm).1
  have hcomparable (hclear : NameClear a ms m) : Comparable m.name :=
    comparable_of_returned (hclear.apart m hm.mem)
  -- The rest of the call, when the member is not found in order.
  have hother {sv₁ : Swvarfs} {current : Option Bytes} {existing : Option FileChain} {fuel : Nat}
      (hfuel : ms.length < fuel) (hclear : NameClear a ms m)
      (hfind : findCurrent a { sv with didUOpen := 1 } m.name =
        .returned (some (current, existing, sv₁)))
      (horder : isInOrder m.name current existing = .returned false)
      (hchain : sv₁.filechain = sv.filechain) (hmake : sv₁.makefilechain = sv.makefilechain)
      (hdirscope : sv₁.dirscope = sv.dirscope) (hset : sv₁.uFdSet = sv.uFdSet)
      (hfindable : Findable a sv m off) (heoa : a.format = .tar ∨ sv₁.eoa = 0) :
      ∃ sv₂, sv₂.pos = off ∧ sv₂.uFdSet = sv.uFdSet ∧ (a.format = .tar ∨ sv₂.eoa = 0) ∧
        seekToName a fuel { sv with didUOpen := 1 } m.name = enterHeader a sv₂ := by
    have hfindable₁ : Findable a sv₁ m off := by
      rw [Findable, Ahead, hchain, hmake, hdirscope]
      exact hfindable
    obtain ⟨sv₂, hseek, hsame, hpos⟩ := seekToMember_found ha (hc.congr hchain hmake) hm hclear
      (by rw [hdirscope]; exact hscope) hfindable₁ hfuel
    exact ⟨sv₂, hpos, hsame.uFdSet.trans hset, hsame.eoa ▸ heoa,
      seekToName_other hfind horder hseek⟩
  have hcurrent {current : Bytes} (hcur : sv.uCurrentName = some current) :
      findCurrent a { sv with didUOpen := 1 } m.name =
        .returned (some (some current, none, { sv with didUOpen := 1 })) := by
    rw [findCurrent]
    simp only [hcur]
  have hsearch : searchFilechain a { sv with didUOpen := 1 } m.name = searchFilechain a sv m.name :=
    rfl
  refine opensRight_of_seekToName hheader hfd fun fuel hfuel => ?_
  cases hopen with
  | @inOrder current hcur hmatch hcurscope hpos heoa =>
      have horder : isInOrder m.name (some current) none = .returned true := by
        rw [isInOrder, hmatch]
        rfl
      exact ⟨{ sv with didUOpen := 1, currentFilechain := none }, hpos, rfl, heoa,
        seekToName_inOrder (hcurrent hcur) horder hcurscope fuel⟩
  | @other current hclear hcur hmatch hfind heoa =>
      have horder : isInOrder m.name (some current) none = .returned false := by
        rw [isInOrder, hmatch]
        rfl
      exact hother hfuel hclear (hcurrent hcur) horder rfl rfl rfl rfl hfind heoa
  | linked hclear hcur hlink hfind heoa =>
      have hfound : searchFilechain a sv m.name = .returned (.found (linkOf m off)) := by
        rw [searchFilechain_clear ha hc.sound hm hclear
          (fun hlink => by rwa [Findable, if_pos hlink] at hfind), if_pos hlink]
      have hcase : findCurrent a { sv with didUOpen := 1 } m.name =
          .returned (some (some (linkName m.name), some (linkOf m off),
            { sv with didUOpen := 1, currentFilechain := some (linkOf m off) })) := by
        rw [findCurrent]
        simp only [hcur]
        rw [← hcur, hsearch, hfound]
        rfl
      have horder : isInOrder m.name (some (linkName m.name)) (some (linkOf m off)) =
          .returned false := by
        obtain ⟨s, hs⟩ := hcomparable hclear
        obtain ⟨s', hs'⟩ := hclear.link
        rw [isInOrder, filenameDoesMatch, hs, hs']
        simp
      exact hother hfuel hclear hcase horder rfl rfl rfl rfl hfind heoa
  | peeked hclear hcur hlink hpeek hfind heoa =>
      have hmissing : searchFilechain a sv m.name = .returned .missing := by
        rw [searchFilechain_clear ha hc.sound hm hclear (fun h => absurd h hlink), if_neg hlink]
      have hcase {current : Option Bytes} {sv₁ : Swvarfs}
          (hnext : nextHeader a { sv with didUOpen := 1, eoa := 0 } = .returned (current, sv₁)) :
          findCurrent a { sv with didUOpen := 1 } m.name =
            .returned (some (current, none, sv₁)) := by
        rw [hcur] at hnext
        rw [findCurrent]
        simp only [hcur]
        rw [← hcur, hsearch, hmissing, hcur, Outcome.returned_bind]
        simp only [hnext, Outcome.returned_bind, Outcome.pure_eq]
      by_cases hpos : sv.pos = off
      · -- The header at the descriptor is that of the member.
        have hheader₀ : HeaderAt a ({ sv with didUOpen := 1, eoa := 0 } : Swvarfs).pos m := by
          rw [← hpos] at hheader
          exact hheader
        obtain ⟨hdr, dataOff, -, hnext⟩ := nextHeader_at hheader₀ rfl hscope
        have horder : isInOrder m.name (some m.name) none = .returned true := by
          rw [isInOrder, filenameDoesMatch_self (hcomparable hclear)]
          rfl
        refine ⟨_, ?_, ?_, ?_, seekToName_inOrder (hcase hnext) horder hscope fuel⟩
        · exact hpos
        · rfl
        · exact .inr rfl
      · have hfind' : Findable a sv m off := hfind.resolve_left hpos
        have hpeek' : PeekSafe a ms { sv with didUOpen := 1 } m.name := hpeek
        obtain ⟨r, current, sv₁, hr, hnext, horder, hsame, hchain⟩ :=
          peek_other ha hm hclear hpeek' hpos
        refine hother hfuel hclear (hcase hnext) horder hchain hsame.makefilechain hsame.dirscope
          hsame.uFdSet hfind' ?_
        rcases heoa with htar | h0
        · exact .inl htar
        · exact .inr (hsame.eoa.trans (h0 r hr))

/-- In every state that careful calls lead to, a member is opened, if there is a
place for its descriptor and a way to it. -/
theorem randomAccess_careful (ha : ArchiveOf a ms) :
    RandomAccess a ms (Careful a ms) fun sv m off =>
      sv.udFindFree ≠ none ∧ Openable a ms sv m off := by
  intro sv hrun m off hm hscope ⟨hfree, hopen⟩
  have hne : ms ≠ [] := List.ne_nil_of_mem hm.mem
  exact opensRight_of_openable ha (hrun.chained ha hne) hm hscope hfree hopen

/-! ## Two directories, and a directory with files -/

/-- The tar file of two directories. -/
def twoDirectories : Archive := directoriesArchive [directoryA, directoryB]

theorem archiveOf_twoDirectories :
    ArchiveOf twoDirectories [directoryA.member, directoryB.member] where
  stands := (catalogTarball_directories (List.cons_ne_nil directoryA [directoryB])).stands.mono
    fun _ h => h.trailer
  small := by decide +kernel
  distinct := by decide +kernel

theorem archiveOf_entry :
    ArchiveOf entryArchive [directoryA.member, fileF.member, fileG.member] where
  stands := catalogTarball_entry.stands.mono fun _ h => h.trailer
  small := by decide +kernel
  distinct := by decide +kernel

theorem nameClear_fileG :
    NameClear entryArchive [directoryA.member, fileF.member, fileG.member] fileG.member where
  hex := by decide +kernel
  steady := by decide +kernel
  key := by decide +kernel
  stop := by decide +kernel
  apart := by decide +kernel
  link := by decide +kernel

/-- The last file is opened when the name of the directory has been returned, past the data of
the file between them. -/
theorem randomAccess_careful_last :
    ∃ sv, perform entryArchive 1 {} .getNextDirent = .returned sv ∧
      OpensRight entryArchive [directoryA.member, fileF.member, fileG.member] sv fileG.member
        1536 := by
  have hcheck : (perform entryArchive 1 {} .getNextDirent).returnedWith (fun sv =>
      sv.uCurrentName = some directoryA.name.bytes ∧ sv.filechain = [] ∧
        sv.makefilechain = false ∧ sv.dirscope = [] ∧ sv.udFindFree = some 0) = true := by
    decide +kernel
  obtain ⟨sv, hcall, hsv⟩ := Outcome.exists_of_returnedWith hcheck
  obtain ⟨hcur, hchain, hmake, hscope, hfree⟩ := of_decide_eq_true hsv
  have hfind : Findable entryArchive sv fileG.member 1536 := by
    rw [Findable, hchain, if_neg List.not_mem_nil, hmake]
    exact nofun
  have hcareful : Careful entryArchive [directoryA.member, fileF.member, fileG.member] {}
      .getNextDirent := fun hmake => absurd hmake (by decide)
  refine ⟨sv, hcall, ?_⟩
  exact randomAccess_careful archiveOf_entry sv (.step .start hcareful hcall)
    fileG.member 1536 ⟨[directoryA.member, fileF.member], [], rfl, by decide +kernel⟩
    (by rw [hscope, isNameInScope_nil])
    ⟨by rw [hfree]; nofun, .other nameClear_fileG hcur (by decide +kernel) hfind (.inl rfl)⟩

/-- Several calls, one after another. -/
def performAll (a : Archive) (fuel : Nat) (sv : Swvarfs) : List Call → Outcome Swvarfs
  | [] => .returned sv
  | call :: calls => do performAll a fuel (← perform a fuel sv call) calls

theorem reachedBy_performAll {meets : Swvarfs → Call → Prop} {fuel : Nat} {calls : List Call}
    {sv' : Swvarfs} (h : ReachedBy a meets sv) (hmeets : ∀ sv call, meets sv call)
    (hcalls : performAll a fuel sv calls = .returned sv') : ReachedBy a meets sv' := by
  induction calls generalizing sv with
  | nil =>
      cases hcalls
      exact h
  | cons call calls ih =>
      obtain ⟨sv₁, hcall, hrest⟩ := Outcome.bind_eq_returned.mp hcalls
      exact ih (h.step (hmeets sv call) hcall) hrest

/-- Enter the second directory, pass it, and leave its scope. -/
def passSecond : List Call :=
  [.setdir directoryB.name.bytes, .getNextDirent, .uOpen directoryB.name.bytes, .uClose 0,
    .setdir []]

/-- Then the first directory cannot be opened any more. -/
theorem not_randomAccess_setdir :
    ArchiveOf twoDirectories [directoryA.member, directoryB.member] ∧
      ¬ RandomAccess twoDirectories [directoryA.member, directoryB.member] (fun _ _ => True)
        (fun _ _ _ => True) := by
  refine ⟨archiveOf_twoDirectories, fun h => ?_⟩
  have hcheck : (performAll twoDirectories 3 {} passSecond).returnedWith (fun sv =>
      isNameInScope twoDirectories.fnmatch sv.dirscope directoryA.name.bytes &&
        (uOpen twoDirectories 3 sv directoryA.name.bytes).returnedWith fun r => r.1 < 0) = true := by
    decide +kernel
  obtain ⟨sv, hrun, hsv⟩ := Outcome.exists_of_returnedWith hcheck
  obtain ⟨hscope, hopen⟩ := (Bool.and_eq_true _ _).mp hsv
  obtain ⟨r, hr, hneg⟩ := Outcome.exists_of_returnedWith hopen
  have hreached : ReachedBy twoDirectories (fun _ _ => True) sv :=
    reachedBy_performAll .start (fun _ _ => trivial) hrun
  obtain ⟨fd, sv', hopened, hfd, -⟩ := h sv hreached directoryA.member 0
    ⟨[], [directoryB.member], rfl, rfl⟩ hscope trivial 3 (by decide)
  have hname : directoryA.member.name = directoryA.name.bytes := rfl
  rw [hname, hr] at hopened
  cases hopened
  exact absurd (of_decide_eq_true hneg) (by omega)

end Swvarfs

end Swbis.Misc
