import Mathlib.Data.List.Basic
import Swbis.Misc.SwvarfsOrder

/-!
# The file chain

The chain of links is built when a member is looked for: headers are read from
behind the last link on, or from the start, until the member is found.  A chain is
`Sound` if every link stands for a member at its offset.

*Reading in.*  `readinLoop` adds the links of the members it passes, in order
(`readinLoop_appends`), and finds a member that is ahead (`readinLoop_found`).

*Searching.*  A search for a member whose name the code tells from the others
finds its link, if there is one (`searchFilechain_clear`).
-/

namespace Swbis.Misc

open CLib Swbis.Taru

/-! ## Places -/

/-- A member stands at an offset. -/
def Located (format : StreamFormat) (ms : List ArcMember) (m : ArcMember) (off : Nat) : Prop :=
  ∃ pre post, ms = pre ++ m :: post ∧ off = membersLength format pre

/-- A member or the trailer stands at an offset. -/
def Boundary (format : StreamFormat) (ms : List ArcMember) (off : Nat) : Prop :=
  ∃ pre post, ms = pre ++ post ∧ off = membersLength format pre

/-- An archive of some members, within the range of an `int`. -/
structure ArchiveOf (a : Archive) (ms : List ArcMember) : Prop where
  stands : Stands a (TrailerAt a) 0 ms
  small : membersLength a.format ms < 2 ^ 31
  distinct : (ms.map (·.name)).Nodup

section

variable {a : Archive} {ms : List ArcMember}

theorem Located.boundary {format : StreamFormat} {m : ArcMember} {off : Nat}
    (h : Located format ms m off) : Boundary format ms off := by
  obtain ⟨pre, post, hms, hoff⟩ := h
  exact ⟨pre, m :: post, hms, hoff⟩

theorem Located.mem {format : StreamFormat} {m : ArcMember} {off : Nat}
    (h : Located format ms m off) : m ∈ ms := by
  obtain ⟨pre, post, rfl, -⟩ := h
  exact List.mem_append_right _ List.mem_cons_self

/-- What stands behind some members. -/
theorem Stands.drop {trailer : Nat → Prop} {off : Nat} {pre post : List ArcMember}
    (h : Stands a trailer off (pre ++ post)) :
    Stands a trailer (off + membersLength a.format pre) post := by
  induction pre generalizing off with
  | nil => exact h
  | cons m pre ih =>
      have := ih h.2.2
      rwa [membersLength_cons, ← Nat.add_assoc]

/-- The members at a boundary. -/
theorem ArchiveOf.stands_at (ha : ArchiveOf a ms) {pre post : List ArcMember}
    (hms : ms = pre ++ post) : Stands a (TrailerAt a) (membersLength a.format pre) post := by
  have h := ha.stands
  rw [hms] at h
  rw [← Nat.zero_add (membersLength a.format pre)]
  exact h.drop

theorem ArchiveOf.length_le (ha : ArchiveOf a ms) {pre post : List ArcMember}
    (hms : ms = pre ++ post) :
    membersLength a.format pre + membersLength a.format post < 2 ^ 31 := by
  have h := ha.small
  rwa [hms, membersLength_append] at h

/-- The header of a member stands at its offset, and so do its data. -/
theorem ArchiveOf.headerAt (ha : ArchiveOf a ms) {m : ArcMember} {off : Nat}
    (h : Located a.format ms m off) :
    HeaderAt a off m ∧ off + m.extent a.format ≤ a.data.length ∧ off < 2 ^ 31 := by
  obtain ⟨pre, post, hms, rfl⟩ := h
  have hs := ha.stands_at hms
  have hlt := ha.length_le hms
  exact ⟨hs.1, hs.2.1, by omega⟩

/-- An offset belongs to one place only. -/
theorem prefix_unique {format : StreamFormat} {pre post pre' post' : List ArcMember}
    (h : pre ++ post = pre' ++ post')
    (hlen : membersLength format pre = membersLength format pre') : pre = pre' ∧ post = post' := by
  have hnil {e : List ArcMember} (he : membersLength format e = 0) : e = [] := by
    cases e with
    | nil => rfl
    | cons m e =>
        have := m.extent_pos format
        rw [membersLength_cons] at he
        omega
  rcases List.append_eq_append_iff.mp h with ⟨e, rfl, rfl⟩ | ⟨e, rfl, rfl⟩
  · rw [membersLength_append] at hlen
    obtain rfl := hnil (show membersLength format e = 0 by omega)
    exact ⟨(List.append_nil _).symm, rfl⟩
  · rw [membersLength_append] at hlen
    obtain rfl := hnil (show membersLength format e = 0 by omega)
    exact ⟨List.append_nil _, rfl⟩

/-- A name belongs to one member only. -/
theorem ArchiveOf.located_unique (ha : ArchiveOf a ms) {m m' : ArcMember} {off off' : Nat}
    (h : Located a.format ms m off) (h' : Located a.format ms m' off') (hname : m'.name = m.name) :
    m' = m ∧ off' = off := by
  obtain ⟨pre, post, hms, rfl⟩ := h
  obtain ⟨pre', post', hms', rfl⟩ := h'
  have hd := ha.distinct
  rcases List.append_eq_append_iff.mp (hms.symm.trans hms') with ⟨e, rfl, he⟩ | ⟨e, rfl, he⟩
  · cases e with
    | nil =>
        rw [List.nil_append, List.cons.injEq] at he
        exact ⟨he.1.symm, by rw [List.append_nil]⟩
    | cons x e =>
        rw [List.cons_append, List.cons.injEq] at he
        obtain ⟨rfl, rfl⟩ := he
        rw [hms, List.map_append, List.map_cons, List.map_append, List.map_cons, ← hname] at hd
        have hnot := (List.nodup_cons.mp (List.nodup_append.mp hd).2.1).1
        exact absurd (List.mem_append_right _ List.mem_cons_self) hnot
  · cases e with
    | nil =>
        rw [List.nil_append, List.cons.injEq] at he
        exact ⟨he.1, by rw [List.append_nil]⟩
    | cons x e =>
        rw [List.cons_append, List.cons.injEq] at he
        obtain ⟨rfl, rfl⟩ := he
        rw [hms', List.map_append, List.map_cons, List.map_append, List.map_cons, hname] at hd
        have hnot := (List.nodup_cons.mp (List.nodup_append.mp hd).2.1).1
        exact absurd (List.mem_append_right _ List.mem_cons_self) hnot

end

/-! ## Links -/

/-- The name of a link. -/
def linkName (name : Bytes) : Bytes :=
  (swlibProcessHexEscapes (.ofMem (swlibSlashclean name))).bytes

/-- The link of a member at an offset. -/
def linkOf (m : ArcMember) (off : Nat) : FileChain where
  nameFC := linkName m.name
  headerOffsetFC := off

/-- The links of members that stand one after another. -/
def linksFrom (format : StreamFormat) (off : Nat) : List ArcMember → List FileChain
  | [] => []
  | m :: ms => linkOf m off :: linksFrom format (off + m.extent format) ms

theorem linksFrom_append (format : StreamFormat) (off : Nat) (ms ms' : List ArcMember) :
    linksFrom format off (ms ++ ms') =
      linksFrom format off ms ++ linksFrom format (off + membersLength format ms) ms' := by
  induction ms generalizing off with
  | nil => rfl
  | cons m ms ih =>
      rw [List.cons_append, linksFrom, ih, linksFrom, List.cons_append, membersLength_cons,
        Nat.add_assoc]

/-- The links of members of an archive stand for them. -/
theorem located_of_mem_linksFrom {format : StreamFormat} {ms pre taken rest : List ArcMember}
    (hms : ms = pre ++ (taken ++ rest)) {link : FileChain}
    (h : link ∈ linksFrom format (membersLength format pre) taken) :
    ∃ m off, Located format ms m off ∧ link = linkOf m off := by
  induction taken generalizing pre with
  | nil => cases h
  | cons m taken ih =>
      rcases List.mem_cons.mp h with rfl | h
      · exact ⟨m, _, ⟨pre, taken ++ rest, hms, rfl⟩, rfl⟩
      · have hms' : ms = (pre ++ [m]) ++ (taken ++ rest) := by
          rw [hms]
          simp
        refine ih hms' ?_
        rw [membersLength_append, membersLength_cons, membersLength_nil, Nat.add_zero]
        exact h

/-- The link that is made of the header of a member. -/
theorem makeLink_eq {m : ArcMember} {hdr : FileHdr} (h : m.Reads hdr) {off : Nat}
    (hoff : off < 2 ^ 31) : Swvarfs.makeLink hdr off = linkOf m off := by
  rw [Swvarfs.makeLink, h.name, toCInt_of_lt hoff]
  rfl

/-- A link determines the offset it stands for. -/
theorem linkOf_offset {m m' : ArcMember} {off off' : Nat} (h : linkOf m off = linkOf m' off') :
    off = off' := by
  have hoff := congrArg FileChain.headerOffsetFC h
  exact Int.ofNat_inj.mp hoff

/-- Every link stands for a member at its offset. -/
def Sound (a : Archive) (ms : List ArcMember) (chain : List FileChain) : Prop :=
  ∀ link ∈ chain, ∃ m off, Located a.format ms m off ∧ link = linkOf m off

theorem Sound.append {a : Archive} {ms : List ArcMember} {chain chain' : List FileChain}
    (h : Sound a ms chain) (h' : Sound a ms chain') : Sound a ms (chain ++ chain') := by
  intro link hlink
  rcases List.mem_append.mp hlink with hl | hl
  · exact h link hl
  · exact h' link hl

namespace Swvarfs

variable {a : Archive} {ms : List ArcMember} {sv : Swvarfs}

/-! ## Reading in -/

/-- What reading in does not touch. -/
structure SameAccess (sv sv' : Swvarfs) : Prop where
  uFdSet : sv'.uFdSet = sv.uFdSet
  eoa : sv'.eoa = sv.eoa
  makefilechain : sv'.makefilechain = sv.makefilechain
  dirscope : sv'.dirscope = sv.dirscope

theorem SameAccess.refl (sv : Swvarfs) : SameAccess sv sv := ⟨rfl, rfl, rfl, rfl⟩

theorem SameAccess.trans {sv sv₁ sv₂ : Swvarfs} (h : SameAccess sv sv₁) (h' : SameAccess sv₁ sv₂) :
    SameAccess sv sv₂ :=
  ⟨h'.uFdSet.trans h.uFdSet, h'.eoa.trans h.eoa, h'.makefilechain.trans h.makefilechain,
    h'.dirscope.trans h.dirscope⟩

/-- Behind its header, the data of a member are passed. -/
theorem dumpData_at {m : ArcMember} {off : Nat} (hm : m.Reads sv.hdr)
    (hpos : sv.pos = off + m.headerLen) (hdata : off + m.extent a.format ≤ a.data.length) :
    dumpData a sv = (true, { sv with pos := off + m.extent a.format }) := by
  rw [ArcMember.extent] at hdata ⊢
  by_cases hreg : m.fileType = cpIfreg
  · have hlen : m.dataLen = m.size := if_pos hreg
    have hn : (if sv.hdr.cTarLinkname.strlen = 0 then sv.hdr.cFilesize.toNat else 0) =
        m.dataLen := by
      by_cases hlink : sv.hdr.cTarLinkname.strlen = 0
      · rw [if_pos hlink, hm.size, hlen]
      · rw [if_neg hlink, hm.link hlink]
    rw [dumpData, if_pos (by rw [fileHasData, hm.fileType, hreg]; rfl)]
    simp only [hn]
    rw [Archive.afterRead_eq (by rw [hpos]; omega), if_pos rfl, skipPadding]
    simp only [hm.size, ← hlen, hpos]
    rw [Archive.afterRead_eq (by omega)]
    simp only [Nat.add_assoc]
  · have hlen : m.dataLen = 0 := if_neg hreg
    rw [dumpData, if_neg (by rw [fileHasData, hm.fileType]; simpa using hreg), hlen,
      StreamFormat.pad_zero, Nat.add_zero, ← hpos]

/-- One round of the loop passes one member and adds its link. -/
theorem readinLoop_member {m : ArcMember} (h : HeaderAt a sv.pos m)
    (hdata : sv.pos + m.extent a.format ≤ a.data.length) (hsmall : sv.pos < 2 ^ 31)
    (fuel : Nat) (name : Bytes) :
    ∃ sv', SameAccess sv sv' ∧ sv'.pos = sv.pos + m.extent a.format ∧
      sv'.filechain = sv.filechain ++ [linkOf m sv.pos] ∧
      readinLoop a (fuel + 1) name sv = (do
        let (stop, name) ← doStopReading a.hasLeadingSlash m.name name
        if stop then return (some (linkOf m sv.pos), name, sv') else readinLoop a fuel name sv') := by
  obtain ⟨ret, hdr, hread, hret, hm⟩ := readHeader_at h false
  have heoa : (if false = true ∧ a.format = .tar then 0 else sv.eoa) = sv.eoa := if_neg (by simp)
  rw [heoa] at hread
  have hname : hdr.cName ≠ cpioInbandEoaFilename :=
    fun hc => m.notTrailer (by rw [← hm.name, hc])
  let sv₁ : Swvarfs := { sv with
    hdr := hdr
    pos := sv.pos + m.headerLen
    currentDataOffset := toCInt (sv.pos + m.headerLen : Nat) }
  have hdump : dumpData a sv₁ = (true, { sv₁ with pos := sv.pos + m.extent a.format }) :=
    dumpData_at hm rfl hdata
  refine ⟨({ sv₁ with pos := sv.pos + m.extent a.format } : Swvarfs).attach (linkOf m sv.pos),
    ⟨rfl, rfl, rfl, rfl⟩, rfl, rfl, ?_⟩
  rw [readinLoop, hread, Outcome.returned_bind]
  simp only
  rw [if_neg (by omega), if_neg hname]
  simp only [sv₁] at hdump ⊢
  rw [hdump]
  simp only [if_true, makeLink_eq hm hsmall, attach, hm.name]

/-- At the trailer nothing is found. -/
theorem readinLoop_trailer (h : TrailerAt a sv.pos) (fuel : Nat) (name : Bytes) :
    ∃ sv', SameAccess sv sv' ∧ sv'.filechain = sv.filechain ∧
      readinLoop a (fuel + 1) name sv = .returned (none, name, sv') := by
  obtain ⟨r, eoa, hr, hret, -, -, hname⟩ := h sv.hdr
  refine ⟨{ sv with hdr := r.hdr, pos := r.next, currentDataOffset := toCInt r.next },
    ⟨rfl, rfl, rfl, rfl⟩, rfl, ?_⟩
  rw [readinLoop, readHeader, hr]
  simp only [Outcome.returned_bind, Outcome.pure_eq]
  rw [if_neg (by omega), if_pos hname]
  rfl

/-- The loop adds the links of the members it passes, and what it finds is one of
them. -/
theorem readinLoop_appends {ms' : List ArcMember} {fuel : Nat} {name : Bytes}
    {r : Option FileChain × Bytes × Swvarfs} (hs : Stands a (TrailerAt a) sv.pos ms')
    (hsmall : sv.pos + membersLength a.format ms' < 2 ^ 31)
    (h : readinLoop a fuel name sv = .returned r) :
    ∃ taken rest, ms' = taken ++ rest ∧ SameAccess sv r.2.2 ∧
      r.2.2.filechain = sv.filechain ++ linksFrom a.format sv.pos taken := by
  induction ms' generalizing sv fuel name with
  | nil =>
      cases fuel with
      | zero => cases h
      | succ fuel =>
          obtain ⟨sv', hsame, hchain, hloop⟩ := readinLoop_trailer hs fuel name
          rw [hloop] at h
          cases h
          exact ⟨[], [], rfl, hsame, by rw [hchain, linksFrom, List.append_nil]⟩
  | cons m ms' ih =>
      cases fuel with
      | zero => cases h
      | succ fuel =>
          rw [membersLength_cons] at hsmall
          obtain ⟨sv', hsame, hpos, hchain, hloop⟩ :=
            readinLoop_member hs.1 hs.2.1 (by omega) fuel name
          rw [hloop] at h
          obtain ⟨⟨stop, name'⟩, -, h⟩ := Outcome.bind_eq_returned.mp h
          simp only at h
          cases stop with
          | true =>
              cases h
              exact ⟨[m], ms', rfl, hsame, hchain⟩
          | false =>
              obtain ⟨taken, rest, rfl, hsame', hchain'⟩ :=
                ih (by rw [hpos]; exact hs.2.2) (by rw [hpos]; omega) h
              refine ⟨m :: taken, rest, rfl, hsame.trans hsame', ?_⟩
              rw [hchain', hchain, hpos, linksFrom, List.append_assoc, List.singleton_append]

/-- The loop finds a member that is ahead, if the name stops it there and not
before. -/
theorem readinLoop_found {before after : List ArcMember} {m : ArcMember} {fuel : Nat} {name : Bytes}
    (hs : Stands a (TrailerAt a) sv.pos (before ++ m :: after))
    (hsmall : sv.pos + membersLength a.format (before ++ m :: after) < 2 ^ 31)
    (hfuel : before.length < fuel)
    (hpass : ∀ m' ∈ before, doStopReading a.hasLeadingSlash m'.name name = .returned (false, name))
    (hstop : doStopReading a.hasLeadingSlash m.name name = .returned (true, name)) :
    ∃ sv', readinLoop a fuel name sv =
      .returned (some (linkOf m (sv.pos + membersLength a.format before)), name, sv') := by
  induction before generalizing sv fuel with
  | nil =>
      obtain ⟨fuel, rfl⟩ : ∃ n, fuel = n + 1 := ⟨fuel - 1, by omega⟩
      obtain ⟨sv', -, -, -, hloop⟩ := readinLoop_member hs.1 hs.2.1 (by omega) fuel name
      refine ⟨sv', ?_⟩
      rw [hloop, hstop]
      rfl
  | cons m' before ih =>
      obtain ⟨fuel, rfl⟩ : ∃ n, fuel = n + 1 := ⟨fuel - 1, by omega⟩
      have hfuel' : before.length < fuel := Nat.lt_of_succ_lt_succ hfuel
      rw [List.cons_append, membersLength_cons] at hsmall
      obtain ⟨sv₁, -, hpos, -, hloop⟩ := readinLoop_member hs.1 hs.2.1 (by omega) fuel name
      obtain ⟨sv', hrest⟩ := ih (by rw [hpos]; exact hs.2.2) (by rw [hpos]; omega) hfuel'
        fun x hx => hpass x (List.mem_cons_of_mem _ hx)
      refine ⟨sv', ?_⟩
      rw [hloop, hpass m' List.mem_cons_self, Outcome.returned_bind]
      simp only [Bool.false_eq_true, if_false]
      rw [hrest, hpos, membersLength_cons, Nat.add_assoc]

/-- Where reading in goes on: behind the members `pre`. -/
structure Resumes (a : Archive) (sv : Swvarfs) (pre : List ArcMember) (sv' : Swvarfs) : Prop where
  same : SameAccess sv sv'
  chain : sv'.filechain = sv.filechain
  pos : sv'.pos = membersLength a.format pre
  start : sv.filechain = [] → pre = []
  tail : ∀ last, sv.filechain.getLast? = some last →
    ∃ front m, pre = front ++ [m] ∧ last = linkOf m (membersLength a.format front)

/-- Reading in goes on behind the last link, or from the start. -/
theorem readinFilechain_resumes (ha : ArchiveOf a ms) (hsound : Sound a ms sv.filechain)
    (fuel : Nat) (name : Bytes) :
    ∃ pre post sv', ms = pre ++ post ∧ Resumes a sv pre sv' ∧
      readinFilechain a fuel name sv = readinLoop a fuel name sv' := by
  rw [readinFilechain]
  cases htail : sv.filechain.getLast? with
  | none =>
      exact ⟨[], ms, { sv with pos := 0 }, rfl,
        ⟨⟨rfl, rfl, rfl, rfl⟩, rfl, rfl, fun _ => rfl, by rw [htail]; nofun⟩, rfl⟩
  | some last =>
      obtain ⟨m, off, hat, rfl⟩ := hsound last (List.mem_of_getLast? htail)
      obtain ⟨hheader, hdata, -⟩ := ha.headerAt hat
      have hseek : sv.seekSet (linkOf m off).headerOffsetFC = { sv with pos := off } := by
        rw [seekSet, linkOf, if_pos (Int.natCast_nonneg off)]
        rfl
      have hheader' : HeaderAt a ({ sv with pos := off } : Swvarfs).pos m := hheader
      obtain ⟨ret, hdr, hread, hret, hm⟩ := readHeader_at hheader' false
      rw [if_neg (by simp)] at hread
      let sv₁ : Swvarfs := { sv with
        hdr := hdr
        pos := off + m.headerLen
        currentDataOffset := (off + m.headerLen : Nat) }
      have hdump : dumpData a sv₁ = (true, { sv₁ with pos := off + m.extent a.format }) :=
        dumpData_at hm rfl hdata
      obtain ⟨front, post, hms, rfl⟩ := hat
      refine ⟨front ++ [m], post, { sv₁ with pos := membersLength a.format front + m.extent a.format },
        by rw [hms, List.append_assoc, List.singleton_append],
        ⟨⟨rfl, rfl, rfl, rfl⟩, rfl, ?_, ?_, ?_⟩, ?_⟩
      · rw [membersLength_append, membersLength_cons, membersLength_nil, Nat.add_zero]
      · intro hnil
        rw [hnil] at htail
        cases htail
      · intro last hlast
        rw [htail] at hlast
        cases hlast
        exact ⟨front, m, rfl, rfl⟩
      · simp only
        rw [hseek, hread, Outcome.returned_bind]
        simp only
        rw [if_neg (by omega)]
        simp only [sv₁] at hdump ⊢
        rw [hdump]
        rfl

/-- The links are those of members, and as long as no directory has been entered
they are those of the first members, in order. -/
structure Chained (a : Archive) (ms : List ArcMember) (sv : Swvarfs) : Prop where
  sound : Sound a ms sv.filechain
  complete : sv.makefilechain = false →
    ∃ pre post, ms = pre ++ post ∧ sv.filechain = linksFrom a.format 0 pre

theorem Chained.congr {sv' : Swvarfs} (h : Chained a ms sv) (hchain : sv'.filechain = sv.filechain)
    (hmake : sv'.makefilechain = sv.makefilechain) : Chained a ms sv' :=
  ⟨by rw [hchain]; exact h.sound, by rw [hchain, hmake]; exact h.complete⟩

/-- The last of the links of some members. -/
theorem getLast?_linksFrom (format : StreamFormat) (pre : List ArcMember) (m : ArcMember) :
    (linksFrom format 0 (pre ++ [m])).getLast? = some (linkOf m (membersLength format pre)) := by
  rw [linksFrom_append, Nat.zero_add]
  exact List.getLast?_concat

/-- Where the links are those of the first members, reading in goes on behind
them. -/
theorem Resumes.eq_of_linksFrom {pre post pre' post' : List ArcMember} {sv' : Swvarfs}
    (h : Resumes a sv pre sv') (hms : ms = pre ++ post) (hms' : ms = pre' ++ post')
    (hchain : sv.filechain = linksFrom a.format 0 pre') : pre = pre' := by
  rcases List.eq_nil_or_concat' pre' with rfl | ⟨front', m', rfl⟩
  · exact h.start hchain
  · obtain ⟨front, m, rfl, hlink⟩ := h.tail _ (by rw [hchain, getLast?_linksFrom])
    have hfront : front = front' := by
      have hsplit : front ++ (m :: post) = front' ++ (m' :: post') := by
        rw [List.append_cons, ← hms, List.append_cons front', ← hms']
      exact (prefix_unique hsplit (linkOf_offset hlink).symm).1
    subst hfront
    have hcons : [m] ++ post = [m'] ++ post' := by
      rw [hms, List.append_assoc, List.append_assoc] at hms'
      exact List.append_cancel_left hms'
    rw [(List.cons.inj hcons).1]

/-- Reading in adds links of members only. -/
theorem readinFilechain_chained {fuel : Nat} {name : Bytes}
    {r : Option FileChain × Bytes × Swvarfs} (ha : ArchiveOf a ms) (hc : Chained a ms sv)
    (h : readinFilechain a fuel name sv = .returned r) :
    Chained a ms r.2.2 ∧ SameAccess sv r.2.2 := by
  obtain ⟨pre, post, sv₁, hms, hres, hloop⟩ := readinFilechain_resumes ha hc.sound fuel name
  rw [hloop] at h
  have hlt := ha.length_le hms
  obtain ⟨taken, rest, rfl, hsame, hchain⟩ := readinLoop_appends
    (by rw [hres.pos]; exact ha.stands_at hms) (by rw [hres.pos]; exact hlt) h
  rw [hres.chain, hres.pos] at hchain
  have hsame' := hres.same.trans hsame
  refine ⟨⟨?_, fun hmake => ?_⟩, hsame'⟩
  · rw [hchain]
    exact hc.sound.append fun link hlink => located_of_mem_linksFrom hms hlink
  · rw [hsame'.makefilechain] at hmake
    obtain ⟨pre', post', hms', hchain'⟩ := hc.complete hmake
    obtain rfl := hres.eq_of_linksFrom hms hms' hchain'
    refine ⟨pre ++ taken, rest, by rw [hms, List.append_assoc], ?_⟩
    rw [hchain, hchain', linksFrom_append, Nat.zero_add]

/-- The last link, if there is one, stands before an offset. -/
def Ahead (sv : Swvarfs) (off : Nat) : Prop :=
  ∀ last, sv.filechain.getLast? = some last → last.headerOffsetFC < (off : Int)

/-- The links of the first members stand before everything behind these. -/
theorem ahead_of_linksFrom {pre : List ArcMember} {off : Nat}
    (hchain : sv.filechain = linksFrom a.format 0 pre) (hle : membersLength a.format pre ≤ off) :
    Ahead sv off := by
  intro last hlast
  rw [hchain] at hlast
  rcases List.eq_nil_or_concat' pre with rfl | ⟨front, m, rfl⟩
  · cases hlast
  · rw [getLast?_linksFrom] at hlast
    obtain rfl := Option.some.inj hlast
    have hext := m.extent_pos a.format
    rw [membersLength_append, membersLength_cons] at hle
    rw [linkOf]
    simp only
    omega

/-- As long as no directory has been entered, a member without a link is ahead. -/
theorem Chained.ahead {m : ArcMember} {off : Nat} (h : Chained a ms sv)
    (hmake : sv.makefilechain = false) (hm : Located a.format ms m off)
    (hno : linkOf m off ∉ sv.filechain) : Ahead sv off := by
  obtain ⟨pre, post, hms, hchain⟩ := h.complete hmake
  obtain ⟨front, back, hms', rfl⟩ := hm
  refine ahead_of_linksFrom hchain ?_
  rcases List.append_eq_append_iff.mp (hms.symm.trans hms') with ⟨e, rfl, -⟩ | ⟨e, rfl, he⟩
  · rw [membersLength_append]
    exact Nat.le_add_right _ _
  · cases e with
    | nil => rw [List.append_nil]
    | cons x e =>
        rw [List.cons_append, List.cons.injEq] at he
        obtain ⟨rfl, -⟩ := he
        refine absurd ?_ hno
        rw [hchain, linksFrom_append, linksFrom, Nat.zero_add]
        exact List.mem_append_right _ List.mem_cons_self

/-- What is ahead of the last link is behind the place where reading in goes on. -/
theorem Resumes.ahead {pre post : List ArcMember} {m : ArcMember} {off : Nat} {sv' : Swvarfs}
    (h : Resumes a sv pre sv') (hms : ms = pre ++ post) (hm : Located a.format ms m off)
    (hahead : Ahead sv off) :
    ∃ before after, post = before ++ m :: after ∧
      off = membersLength a.format pre + membersLength a.format before := by
  obtain ⟨front, back, hms', rfl⟩ := hm
  rcases List.append_eq_append_iff.mp (hms.symm.trans hms') with ⟨e, rfl, he⟩ | ⟨e, rfl, he⟩
  · exact ⟨e, back, he, by rw [membersLength_append]⟩
  · rcases List.eq_nil_or_concat' e with rfl | ⟨e', x, rfl⟩
    · exact ⟨[], back, he.symm, by rw [List.append_nil, membersLength_nil, Nat.add_zero]⟩
    · -- Then the last link stands at the member or behind it.
      cases htail : sv.filechain.getLast? with
      | none =>
          have hnil := h.start (List.getLast?_eq_none_iff.mp htail)
          simp at hnil
      | some last =>
          obtain ⟨front', m', hpre, rfl⟩ := h.tail last htail
          have hlt := hahead _ htail
          rw [← List.append_assoc] at hpre
          obtain ⟨rfl, -⟩ := List.append_inj' hpre rfl
          rw [membersLength_append, linkOf] at hlt
          simp only at hlt
          omega

/-! ## Names the comparisons tell apart -/

/-- What a search compares with the names of the links. -/
def searchKey (hasLeadingSlash : Bool) (name : Bytes) : Bytes :=
  handleLeadingSlash hasLeadingSlash (handleTrailingSlash name)

/-- The name a search begins with. -/
def searchName (name : Bytes) : Bytes :=
  soughtName (swlibProcessHexEscapes (.ofMem name)).bytes

/-- The comparisons find the name of a member equal to that of the member, and to
no other. -/
structure NameClear (a : Archive) (ms : List ArcMember) (m : ArcMember) : Prop where
  hex : (swlibProcessHexEscapes (.ofMem m.name)).bytes ≠ []
  steady : soughtName (searchName m.name) = searchName m.name
  key : ∀ m' ∈ ms, searchKey a.hasLeadingSlash (searchName m.name) =
    dropDotSlash (linkName m'.name) ↔ m'.name = m.name
  stop : ∀ m' ∈ ms, doStopReading a.hasLeadingSlash m'.name m.name =
    .returned (decide (m'.name = m.name), m.name)
  apart : ∀ m' ∈ ms, filenameDoesMatch m.name m'.name = .returned (decide (m'.name = m.name))
  link : Comparable (linkName m.name)

theorem soughtName_ne_nil {name : Bytes} (h : name ≠ []) : soughtName name ≠ [] := by
  rw [soughtName]
  split
  · exact List.cons_ne_nil _ _
  next hne =>
    rw [dropDotSlash]
    split
    next htake =>
      intro hdrop
      have := List.take_append_drop 2 name
      rw [htake, hdrop, List.append_nil] at this
      exact hne this.symm
    next => exact h

/-- The search finds the first link whose name is that which is sought. -/
theorem searchLoop_eq (dirscope : Bytes) {name sought : Bytes} (hne : name ≠ [])
    (hsought : soughtName name = sought) (hsteady : soughtName sought = sought)
    (links : List FileChain) :
    searchLoop a dirscope name links = .returned
      (match links.find? fun link =>
          searchKey a.hasLeadingSlash sought == dropDotSlash link.nameFC with
        | none => .missing
        | some link =>
            if isNameInScope a.fnmatch dirscope (searchKey a.hasLeadingSlash sought) then .found link
            else .rejected) := by
  induction links generalizing name with
  | nil => rfl
  | cons last rest ih =>
      rw [searchLoop, if_neg hne]
      simp only [hsought]
      rw [← searchKey]
      by_cases hkey : searchKey a.hasLeadingSlash sought = dropDotSlash last.nameFC
      · rw [if_pos hkey, List.find?_cons_of_pos (by simpa using hkey)]
      · rw [if_neg hkey, List.find?_cons_of_neg (by simpa using hkey),
          ih (hsought ▸ soughtName_ne_nil hne) hsteady]

/-- The link of a member is found by its name, if it is there. -/
theorem searchFilechain_clear {m : ArcMember} {off : Nat} (ha : ArchiveOf a ms)
    (hsound : Sound a ms sv.filechain) (hm : Located a.format ms m off) (hclear : NameClear a ms m)
    (hscope : linkOf m off ∈ sv.filechain →
      isNameInScope a.fnmatch sv.dirscope
        (searchKey a.hasLeadingSlash (searchName m.name)) = true) :
    searchFilechain a sv m.name =
      .returned (if linkOf m off ∈ sv.filechain then .found (linkOf m off) else .missing) := by
  rw [searchFilechain, searchLoop_eq sv.dirscope hclear.hex rfl hclear.steady]
  cases hfind : sv.filechain.find? fun link =>
      searchKey a.hasLeadingSlash (searchName m.name) == dropDotSlash link.nameFC with
  | none =>
      have hnot : linkOf m off ∉ sv.filechain := by
        intro hmem
        have hno := List.find?_eq_none.mp hfind _ hmem
        exact hno (beq_iff_eq.mpr ((hclear.key m hm.mem).mpr rfl))
      rw [if_neg hnot]
      rw [searchName] at hfind
      rw [hfind]
  | some link =>
      obtain ⟨m', off', hm', rfl⟩ := hsound link (List.mem_of_find?_eq_some hfind)
      have hkey := List.find?_some hfind
      obtain ⟨rfl, rfl⟩ := ha.located_unique hm hm'
        ((hclear.key m' hm'.mem).mp (beq_iff_eq.mp hkey))
      have hmem := List.mem_of_find?_eq_some hfind
      have hs := hscope hmem
      rw [if_pos hmem]
      rw [searchName] at hfind hs
      rw [hfind]
      simp only
      rw [if_pos hs]

end Swvarfs

end Swbis.Misc
