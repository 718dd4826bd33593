import Swbis.Taru.LongName

/-!
# Writing a member with GNU long names

In the formats with GNU long names a member is written as an `L` with its path,
if a name is too long, a `K` with a link name that is too long, and a record
with both names cut.  `NameCase` and `RecordCase` are the two parts, and
`taruWriteArchiveMemberHeader_gnu` puts them together.
-/

namespace Swbis.Taru

open CLib

/-! ## Stripped paths -/

/-- Leading slashes are dropped while a byte is behind them. -/
theorem stripSlashes_eq_iff (s : Bytes) :
    stripSlashes s = s ↔ ∀ c t, s ≠ slash :: c :: t := by
  cases s with
  | nil => simp [stripSlashes]
  | cons b s =>
      cases s with
      | nil => simp [stripSlashes]
      | cons c s =>
          rw [stripSlashes]
          split
          · next hb =>
              have hlen := (stripSlashes_suffix (c :: s)).length_le
              constructor
              · intro h
                rw [h, List.length_cons] at hlen
                omega
              · intro h
                exact absurd (by rw [hb]) (h c s)
          · next hb => simp [hb]

theorem stripSlashes_stripSlashes (s : Bytes) : stripSlashes (stripSlashes s) = stripSlashes s := by
  induction s using stripSlashes.induct with
  | case1 c s ih => rwa [stripSlashes, if_pos rfl]
  | case2 b c s h => rw [stripSlashes, if_neg h, stripSlashes, if_neg h]
  | case3 s h =>
      have hs : stripSlashes s = s := by
        rw [stripSlashes]
        exact h
      rw [hs, hs]

/-- The writer does not strip the path of this file header. -/
def Unslashed (flags : TarFlags) (name : CString) : Prop :=
  flags.doStripLeadingSlash = true → stripSlashes name.bytes = name.bytes

theorem Unslashed.stripped_eq {flags : TarFlags} {hdr : FileHdr} (h : Unslashed flags hdr.cName) :
    stripped flags hdr = hdr := by
  rw [stripped]
  split
  · next hflag =>
      rw [ahsStaticStripNameLeadingSlash]
      simp only [h hflag]
  · rfl

/-- A path that was cut still has no leading slash. -/
theorem Unslashed.take {flags : TarFlags} {name : CString} (h : Unslashed flags name) (n : Nat) :
    Unslashed flags (name.take n) := by
  intro hflag
  have hs := (stripSlashes_eq_iff _).mp (h hflag)
  rw [stripSlashes_eq_iff]
  intro c t heq
  rw [CString.bytes_take] at heq
  refine hs c (t ++ name.bytes.drop n) ?_
  calc name.bytes = name.bytes.take n ++ name.bytes.drop n := (List.take_append_drop n _).symm
    _ = slash :: c :: (t ++ name.bytes.drop n) := by rw [heq]; rfl

/-- The writer works on a path without leading slashes. -/
theorem unslashed_memberHdr (env : WriteEnv) (hdr : FileHdr) :
    Unslashed env.flags (memberHdr env hdr).cName := by
  intro hflag
  simp only [memberHdr, stripped, hflag, if_true, ahsStaticStripNameLeadingSlash,
    stripSlashes_stripSlashes]

section MemberHdr

variable (env : WriteEnv) (hdr : FileHdr)

@[simp] theorem memberHdr_cTarLinkname : (memberHdr env hdr).cTarLinkname = hdr.cTarLinkname := by
  simp only [memberHdr, stripped, taruFilehdr2filehdr]
  split
  · rfl
  · rfl

@[simp] theorem memberHdr_fileType : (memberHdr env hdr).fileType = hdr.fileType := by
  simp only [memberHdr, stripped, taruFilehdr2filehdr, FileHdr.fileType]
  split
  · rfl
  · rfl

theorem strlen_memberHdr_le : (memberHdr env hdr).cName.strlen ≤ hdr.cName.strlen := by
  simp only [memberHdr, stripped, taruFilehdr2filehdr]
  split
  · exact (stripSlashes_suffix _).length_le
  · exact Nat.le_refl _

end MemberHdr

/-! ## The record of a member -/

/-- The link name that goes into the record of a file: the name in the link
record, if it is there. -/
def memberLink (env : WriteEnv) (linkrecord : Option Hllist) (hdr : FileHdr) : CString :=
  if hdr.fileType = cpIfreg ∧ 1 < hdr.cNlink.toNat then
    match findLink env linkrecord hdr with
    | some en => en.path
    | none => hdr.cTarLinkname
  else hdr.cTarLinkname

/-- A file that is not written as a link of the link record keeps its own. -/
theorem memberLink_of_not_found {env : WriteEnv} {linkrecord : Option Hllist} {hdr : FileHdr}
    (h : ¬ ((activeRecord env linkrecord).isSome ∧ 1 < hdr.cNlink.toNat ∧
      ((findLink env linkrecord hdr).isSome ∨ hdr.cIsTarLnktype = 1))) :
    memberLink env linkrecord hdr = hdr.cTarLinkname := by
  rw [memberLink]
  split
  · next hmany =>
      cases hfind : findLink env linkrecord hdr with
      | none => rfl
      | some en =>
          refine absurd ⟨?_, hmany.2, .inl ?_⟩ h
          · rw [findLink] at hfind
            cases hactive : activeRecord env linkrecord with
            | none => rw [hactive] at hfind; cases hfind
            | some l => rfl
          · rw [hfind]
            rfl
  · rfl

/-- A call that writes a record and goes on with what the record writer has
returned. -/
theorem WritesRecord.of_write {env : WriteEnv} (hdr : FileHdr)
    (hstrip : Unslashed env.flags hdr.cName) (pre : Bytes) {f : Int → Emit Written}
    (hok : ∃ linkrecord hdr', f tarRecordSize =
      pure ⟨tarRecordSize + pre.length, linkrecord, hdr'⟩)
    (herror : ∀ code : Int, code < 0 → ∀ w, (f code).result = .returned (.ok w) →
      w.retval < pre.length) :
    WritesRecord env ((taruWriteOutHeader env hdr >>= f).prepend pre) pre hdr := by
  obtain ⟨linkrecord, hdr', hok⟩ := hok
  constructor
  · intro h hh
    refine ⟨linkrecord, hdr', ?_⟩
    simp only [taruWriteOutHeader, hstrip.stripped_eq, hh, Emit.write_bind, Emit.prepend_pure]
    rw [Emit.ok_bind, hok, Emit.prepend_prepend, Emit.prepend_pure]
    rw [List.length_append, h.length_bytes, Int.add_comm, Nat.cast_add]
  · intro code hcode w hw
    simp only [taruWriteOutHeader, hstrip.stripped_eq, hcode, Emit.pure_bind, Emit.result_prepend,
      Emit.out_prepend, List.length_append] at hw ⊢
    have hlt := herror code (taruWriteOutTarHeader2_error hcode) w hw
    push_cast
    omega

/-- Bytes in front of a call that counts them. -/
theorem WritesRecord.prepend {env : WriteEnv} {x : Emit Written} {pre : Bytes} {hdr : FileHdr}
    (hx : WritesRecord env x pre hdr) (bs : Bytes) {n : Int} (hn : n = bs.length) :
    WritesRecord env
      ((x >>= fun w => pure { w with retval := w.retval + n }).prepend bs) (bs ++ pre) hdr := by
  subst hn
  constructor
  · intro h hh
    obtain ⟨linkrecord, hdr', rfl⟩ := hx.ok h hh
    refine ⟨linkrecord, hdr', ?_⟩
    rw [Emit.ok_bind, Emit.prepend_prepend, Emit.prepend_pure, List.append_assoc]
    simp only [List.length_append, Nat.cast_add, Int.add_comm]
  · intro code hcode w hw
    obtain ⟨out, result⟩ := x
    have herror := hx.error code hcode
    cases result with
    | returned r =>
        cases r with
        | error c => cases hw
        | ok w₀ =>
            cases hw
            have hne : w₀.retval ≠ out.length := herror w₀ rfl
            rw [Emit.ok_bind, Emit.prepend_prepend, Emit.prepend_pure]
            simp only [List.length_append]
            push_cast
            omega
    | exited status => cases hw
    | fault => cases hw
    | outOfFuel => cases hw

/-- A GNU long link in front of a record. -/
theorem writeLongLink_eq (env : WriteEnv) (hdr : FileHdr) (hlen : hdr.cTarLinkname.strlen < 510)
    (hne : hdr.cTarLinkname.strlen ≠ 0) (htype : hdr.fileType = cpIfreg ∨ hdr.fileType = cpIflnk)
    (code : Int) :
    ∃ e : ExtBlock, writeLongLink env hdr code = ⟨e.bytes, .returned (.ok
        { hdr with cTarLinkname := hdr.cTarLinkname.take (tarLinknameSize - 1) })⟩ ∧
      e.bytes.length = 1024 ∧ e.header.typeflag = gnuTypeLonglink ∧
      .ofMem e.data = hdr.cTarLinkname := by
  obtain ⟨e, heq, hflag, hdata⟩ := @taruWriteLongLinkMember_eq env _ hlen hne gnuTypeLonglink _
    (htype.imp_left Or.inl)
  refine ⟨e, ?_, ?_, ?_, ?_⟩
  · rw [writeLongLink, heq, Emit.ok_bind, if_neg (by decide), Emit.prepend_pure]
  · rcases taruWriteLongLinkMember_length env hdr.cTarLinkname gnuTypeLonglink hdr.fileType with
      hfail | ⟨bs, hbs, hout⟩
    · rw [heq] at hfail
      exact absurd (congrArg Emit.result hfail) (by simp)
    · rw [heq] at hout
      cases hout
      exact hbs
  · rw [hflag, longLinkTypeflag, if_neg (fun h => absurd h.2 (by decide))]
  · rw [hdata, longLinkText, if_neg]
    rintro ⟨hdir, -⟩
    rcases htype with h | h
    · rw [h] at hdir
      exact absurd hdir (by decide)
    · rw [h] at hdir
      exact absurd hdir (by decide)

/-- The extended headers and the record that the switch over the file type
writes. -/
inductive RecordCase (env : WriteEnv) (linkrecord : Option Hllist) (hdr : FileHdr) :
    List ExtBlock → FileHdr → Prop where
  | regular (hreg : hdr.fileType = cpIfreg) :
      RecordCase env linkrecord hdr [] { hdr with cTarLinkname := memberLink env linkrecord hdr }
  | longHardLink (hreg : hdr.fileType = cpIfreg)
      (hown : memberLink env linkrecord hdr = hdr.cTarLinkname)
      (hlong : tarLinknameSize < hdr.cTarLinkname.strlen) (e : ExtBlock)
      (hflag : e.header.typeflag = gnuTypeLonglink) (hdata : .ofMem e.data = hdr.cTarLinkname) :
      RecordCase env linkrecord hdr [e]
        { hdr with cTarLinkname := hdr.cTarLinkname.take (tarLinknameSize - 1) }
  | directory (hdir : hdr.fileType = cpIfdir) :
      RecordCase env linkrecord hdr [] { hdr with cFilesize := 0 }
  | symlink (hlnk : hdr.fileType = cpIflnk) (hshort : hdr.cTarLinkname.strlen < tarLinknameSize) :
      RecordCase env linkrecord hdr []
        { hdr with cFilesize := UInt64.ofNat hdr.cTarLinkname.strlen }
  | longSymlink (hlnk : hdr.fileType = cpIflnk) (hlong : tarLinknameSize < hdr.cTarLinkname.strlen)
      (e : ExtBlock) (hlen : e.bytes.length = 1024) (hflag : e.header.typeflag = gnuTypeLonglink)
      (hdata : .ofMem e.data = hdr.cTarLinkname) :
      RecordCase env linkrecord hdr [e] { hdr with
        cTarLinkname := hdr.cTarLinkname.take (tarLinknameSize - 1), cFilesize := 0 }

namespace RecordCase

variable {env : WriteEnv} {linkrecord : Option Hllist} {hdr hdr' : FileHdr} {es : List ExtBlock}
  (h : RecordCase env linkrecord hdr es hdr')
include h

theorem of_regular (hreg : hdr.fileType = cpIfreg) :
    (es = [] ∧ hdr' = { hdr with cTarLinkname := memberLink env linkrecord hdr }) ∨
      ∃ e, memberLink env linkrecord hdr = hdr.cTarLinkname ∧
        tarLinknameSize < hdr.cTarLinkname.strlen ∧ e.header.typeflag = gnuTypeLonglink ∧
        es = [e] ∧ hdr' = { hdr with cTarLinkname := hdr.cTarLinkname.take (tarLinknameSize - 1) } := by
  cases h with
  | regular => exact .inl ⟨rfl, rfl⟩
  | longHardLink _ hown hlong e hflag => exact .inr ⟨e, hown, hlong, hflag, rfl, rfl⟩
  | directory hdir => exact absurd (hdir.symm.trans hreg) (by decide)
  | symlink hlnk => exact absurd (hlnk.symm.trans hreg) (by decide)
  | longSymlink hlnk => exact absurd (hlnk.symm.trans hreg) (by decide)

theorem of_directory (hdir : hdr.fileType = cpIfdir) : es = [] ∧ hdr' = { hdr with cFilesize := 0 } := by
  cases h with
  | directory => exact ⟨rfl, rfl⟩
  | regular hreg => exact absurd (hreg.symm.trans hdir) (by decide)
  | longHardLink hreg => exact absurd (hreg.symm.trans hdir) (by decide)
  | symlink hlnk => exact absurd (hlnk.symm.trans hdir) (by decide)
  | longSymlink hlnk => exact absurd (hlnk.symm.trans hdir) (by decide)

theorem of_symlink (hlnk : hdr.fileType = cpIflnk) :
    (hdr.cTarLinkname.strlen < tarLinknameSize ∧ es = [] ∧
        hdr' = { hdr with cFilesize := UInt64.ofNat hdr.cTarLinkname.strlen }) ∨
      ∃ e, tarLinknameSize < hdr.cTarLinkname.strlen ∧ e.bytes.length = 1024 ∧
        e.header.typeflag = gnuTypeLonglink ∧ .ofMem e.data = hdr.cTarLinkname ∧ es = [e] ∧
        hdr' = { hdr with
          cTarLinkname := hdr.cTarLinkname.take (tarLinknameSize - 1), cFilesize := 0 } := by
  cases h with
  | symlink _ hshort => exact .inl ⟨hshort, rfl, rfl⟩
  | longSymlink _ hlong e hlen hflag hdata =>
      exact .inr ⟨e, hlong, hlen, hflag, hdata, rfl, rfl⟩
  | regular hreg => exact absurd (hreg.symm.trans hlnk) (by decide)
  | longHardLink hreg => exact absurd (hreg.symm.trans hlnk) (by decide)
  | directory hdir => exact absurd (hdir.symm.trans hlnk) (by decide)

end RecordCase

/-- A record and nothing else. -/
theorem WritesRecord.of_record {env : WriteEnv} (hdr : FileHdr)
    (hstrip : Unslashed env.flags hdr.cName) (linkrecord' : Option Hllist) (hdr' : FileHdr) :
    WritesRecord env (taruWriteOutHeader env hdr >>= fun retval =>
      pure ⟨retval, linkrecord', hdr'⟩) (extBytes []) hdr := by
  have h : WritesRecord env ((taruWriteOutHeader env hdr >>= fun retval =>
      pure ⟨retval, linkrecord', hdr'⟩).prepend []) [] hdr := by
    refine WritesRecord.of_write _ hstrip [] ⟨linkrecord', hdr', by simp⟩ ?_
    intro code hcode w hw
    cases hw
    exact hcode
  exact h

theorem RecordCase.cName_eq {env : WriteEnv} {linkrecord : Option Hllist} {hdr hdr' : FileHdr}
    {es : List ExtBlock} (h : RecordCase env linkrecord hdr es hdr') : hdr'.cName = hdr.cName := by
  cases h with
  | regular => rfl
  | longHardLink => rfl
  | directory => rfl
  | symlink => rfl
  | longSymlink => rfl

section WriteByType

variable {env : WriteEnv} (linkrecord : Option Hllist) {hdr : FileHdr}
  (hstrip : Unslashed env.flags hdr.cName)
include hstrip

theorem writeRegular_cases (hreg : hdr.fileType = cpIfreg) (hlink : hdr.cTarLinkname.strlen < 510) :
    ∃ es hdr', RecordCase env linkrecord hdr es hdr' ∧
      WritesRecord env
        (writeRegular env linkrecord (decide (tarLinknameSize < hdr.cTarLinkname.strlen)) hdr)
        (extBytes es) hdr' := by
  simp only [writeRegular]
  split
  · next hfound =>
      refine ⟨[], _, .regular hreg, ?_⟩
      rw [memberLink, if_pos ⟨hreg, hfound.2.1⟩]
      cases findLink env linkrecord hdr with
      | none => exact WritesRecord.of_record _ hstrip _ _
      | some en =>
          exact WritesRecord.of_record { hdr with cTarLinkname := en.path } hstrip _ _
  · next hfound =>
      have hown := memberLink_of_not_found hfound
      split
      · next hlong =>
          have hlong' := of_decide_eq_true hlong.2
          obtain ⟨e, heq, hlen, hflag, hdata⟩ := writeLongLink_eq env hdr hlink hlong.1 (.inl hreg) (-3)
          refine ⟨[e], _, .longHardLink hreg hown hlong' e hflag hdata, ?_⟩
          rw [heq, Emit.ok_bind, extBytes_cons, extBytes_nil, List.append_nil]
          refine WritesRecord.of_write { hdr with
            cTarLinkname := hdr.cTarLinkname.take (tarLinknameSize - 1) } hstrip e.bytes ?_ ?_
          · rw [hlen]
            exact ⟨_, _, rfl⟩
          · intro code hcode w hw
            cases hw
            rw [hlen]
            simp only
            omega
      · have hrec : ({ hdr with cTarLinkname := memberLink env linkrecord hdr } : FileHdr) = hdr := by
          rw [hown]
        refine ⟨[], _, .regular hreg, ?_⟩
        rw [hrec]
        exact WritesRecord.of_record _ hstrip _ _

theorem writeSymlink_cases (hlnk : hdr.fileType = cpIflnk) (hlink : hdr.cTarLinkname.strlen < 510) :
    (hdr.cTarLinkname.strlen = tarLinknameSize ∧
      writeSymlink env linkrecord (decide (tarLinknameSize < hdr.cTarLinkname.strlen)) hdr =
        Emit.fail (-4)) ∨
    ∃ es hdr', RecordCase env linkrecord hdr es hdr' ∧
      WritesRecord env
        (writeSymlink env linkrecord (decide (tarLinknameSize < hdr.cTarLinkname.strlen)) hdr)
        (extBytes es) hdr' := by
  simp only [writeSymlink]
  split
  · next hlong =>
      right
      have hlong' := of_decide_eq_true hlong
      obtain ⟨e, heq, hlen, hflag, hdata⟩ := writeLongLink_eq env
        { hdr with cFilesize := UInt64.ofNat hdr.cTarLinkname.strlen } hlink
        (show hdr.cTarLinkname.strlen ≠ 0 by omega) (.inr hlnk) (-6)
      refine ⟨[e], _, .longSymlink hlnk hlong' e hlen hflag hdata, ?_⟩
      rw [heq, Emit.ok_bind, extBytes_cons, extBytes_nil, List.append_nil]
      refine WritesRecord.of_write { hdr with
        cTarLinkname := hdr.cTarLinkname.take (tarLinknameSize - 1), cFilesize := 0 } hstrip
        e.bytes ?_ ?_
      · rw [hlen]
        exact ⟨_, _, rfl⟩
      · intro code hcode w hw
        rw [if_pos hcode] at hw
        cases hw
  · next hshort =>
      have hshort' : ¬ tarLinknameSize < hdr.cTarLinkname.strlen := fun h =>
        hshort (decide_eq_true h)
      split
      · next hfull =>
          left
          simp only [tarNameSize, tarLinknameSize] at hfull hshort' ⊢
          exact ⟨by omega, trivial⟩
      · next hfits =>
          right
          refine ⟨[], _, .symlink hlnk ?_, ?_⟩
          · simp only [tarNameSize, tarLinknameSize] at hfits ⊢
            omega
          · exact WritesRecord.of_record
              { hdr with cFilesize := UInt64.ofNat hdr.cTarLinkname.strlen } hstrip _ _

/-- The switch over the file type writes one of the cases, but for the link name
of a symbolic link that fits its field and not the test. -/
theorem writeByType_cases (htype : hdr.fileType = cpIfreg ∨ hdr.fileType = cpIfdir ∨
    hdr.fileType = cpIflnk) (hlink : hdr.cTarLinkname.strlen < 510) :
    (hdr.fileType = cpIflnk ∧ hdr.cTarLinkname.strlen = tarLinknameSize ∧
      writeByType env linkrecord (decide (tarLinknameSize < hdr.cTarLinkname.strlen)) hdr =
        Emit.fail (-4)) ∨
    ∃ es hdr', RecordCase env linkrecord hdr es hdr' ∧
      WritesRecord env
        (writeByType env linkrecord (decide (tarLinknameSize < hdr.cTarLinkname.strlen)) hdr)
        (extBytes es) hdr' := by
  rcases htype with hreg | hdir | hlnk
  · right
    rw [writeByType, if_pos hreg]
    exact writeRegular_cases linkrecord hstrip hreg hlink
  · right
    refine ⟨[], _, .directory hdir, ?_⟩
    rw [writeByType, if_neg (by rw [hdir]; decide), if_pos hdir]
    exact WritesRecord.of_record { hdr with cFilesize := 0 } hstrip _ _
  · rw [writeByType, if_neg (by rw [hlnk]; decide), if_neg (by rw [hlnk]; decide), if_neg
      (by rw [hlnk]; decide), if_neg (by rw [hlnk]; decide), if_pos hlnk]
    rcases writeSymlink_cases linkrecord hstrip hlnk hlink with ⟨hlen, hfail⟩ | hcases
    · exact .inl ⟨hlnk, hlen, hfail⟩
    · exact .inr hcases

end WriteByType

/-! ## The long name of a member -/

/-- Whether a member gets an `L`: its path or its link name is too long. -/
def needsGnuName (flags : TarFlags) (hdr : FileHdr) : Bool :=
  needsLongName flags hdr.cName || decide (tarLinknameSize < hdr.cTarLinkname.strlen)

/-- What is written before the switch over the file type, and the file header
that the switch gets. -/
inductive NameCase (flags : TarFlags) (hdr : FileHdr) : List ExtBlock → FileHdr → Prop where
  | short (hshort : needsGnuName flags hdr = false) : NameCase flags hdr [] hdr
  | long (hlong : needsGnuName flags hdr = true) (e : ExtBlock) (hlen : e.bytes.length = 1024)
      (hflag : e.header.typeflag = longLinkTypeflag gnuTypeLongname hdr.fileType)
      (hdata : .ofMem e.data = longLinkText hdr.cName hdr.fileType) :
      NameCase flags hdr [e] { hdr with cName := hdr.cName.take (longNameCut flags) }

/-- A long name in front of the switch; an empty one may not be written. -/
theorem writeLongName_cases (env : WriteEnv) {hdr : FileHdr} (hpath : hdr.cName.strlen < 510)
    (htype : hdr.fileType = cpIfreg ∨ hdr.fileType = cpIfdir ∨ hdr.fileType = cpIflnk)
    (hlong : needsGnuName env.flags hdr = true) :
    (hdr.cName.strlen = 0 ∧ writeLongName env hdr = Emit.fail (-3)) ∨
    ∃ bs, bs.length = 1024 ∧ writeLongName env hdr = ⟨bs, .returned (.ok
        { hdr with cName := hdr.cName.take (longNameCut env.flags) })⟩ ∧
      (hdr.cName.strlen ≠ 0 → ∃ es, bs = extBytes es ∧
        NameCase env.flags hdr es { hdr with cName := hdr.cName.take (longNameCut env.flags) }) := by
  have hwrites : ∀ bs, taruWriteLongLinkMember env hdr.cName gnuTypeLongname hdr.fileType =
      ⟨bs, .returned (.ok 1024)⟩ → writeLongName env hdr = ⟨bs, .returned (.ok
        { hdr with cName := hdr.cName.take (longNameCut env.flags) })⟩ := by
    intro bs heq
    rw [writeLongName, heq, Emit.ok_bind, if_neg (by decide), Emit.prepend_pure]
  rcases taruWriteLongLinkMember_length env hdr.cName gnuTypeLongname hdr.fileType with
    hfail | ⟨bs, hbs, hout⟩
  · left
    refine ⟨?_, ?_⟩
    · by_contra hne
      obtain ⟨e, heq, -, -⟩ := @taruWriteLongLinkMember_eq env _ hpath hne gnuTypeLongname _
        (or_assoc.mpr htype)
      rw [hfail] at heq
      exact absurd (congrArg Emit.result heq) (by simp)
    · rw [writeLongName, hfail, Emit.pure_bind, if_pos (by decide)]
  · refine .inr ⟨bs, hbs, hwrites bs hout, fun hne => ?_⟩
    obtain ⟨e, heq, hflag, hdata⟩ := @taruWriteLongLinkMember_eq env _ hpath hne gnuTypeLongname _
      (or_assoc.mpr htype)
    rw [hout] at heq
    cases heq
    exact ⟨[e], by simp, .long hlong e hbs hflag hdata⟩

/-- The file header behind the checks of the names. -/
def checkedHdr (env : WriteEnv) (hdr : FileHdr) : FileHdr :=
  { memberHdr env hdr with
    extHeaderNeedsMask := taruFillExthdrNeedsMask (memberHdr env hdr) env.flags }

/-- The formats that accept no overflow give up on a field that does not fit. -/
def RefusesOverflow (env : WriteEnv) (hdr : FileHdr) : Prop :=
  taruFillExthdrNeedsMask (memberHdr env hdr) env.flags ≠ .zero ∧ env.flags.noOverflow = true

instance (env : WriteEnv) (hdr : FileHdr) : Decidable (RefusesOverflow env hdr) :=
  inferInstanceAs (Decidable (_ ∧ _))

/-- **What is written for a member in the formats with GNU long names.** -/
theorem taruWriteArchiveMemberHeader_gnu {env : WriteEnv} (hmode : GnuLongMode env.flags)
    (linkrecord : Option Hllist) {hdr : FileHdr}
    (hpath : hdr.cName.strlen < 510) (hlink : hdr.cTarLinkname.strlen < 510)
    (htype : hdr.fileType = cpIfreg ∨ hdr.fileType = cpIfdir ∨ hdr.fileType = cpIflnk) :
    (RefusesOverflow env hdr ∧
      taruWriteArchiveMemberHeader env linkrecord hdr = Emit.fail (-14)) ∨
    (¬ RefusesOverflow env hdr ∧ (checkedHdr env hdr).cName.strlen = 0 ∧
      taruWriteArchiveMemberHeader env linkrecord hdr = Emit.fail (-3)) ∨
    (¬ RefusesOverflow env hdr ∧ ∃ bs n,
      taruWriteArchiveMemberHeader env linkrecord hdr =
        (writeByType env linkrecord (decide (tarLinknameSize < hdr.cTarLinkname.strlen))
            { checkedHdr env hdr with cName := (checkedHdr env hdr).cName.take n } >>= fun w =>
          pure { w with retval := w.retval + (bs.length : Int) }).prepend bs ∧
      ((checkedHdr env hdr).cName.strlen ≠ 0 → ∃ es, bs = extBytes es ∧
        NameCase env.flags (checkedHdr env hdr) es
          { checkedHdr env hdr with cName := (checkedHdr env hdr).cName.take n })) := by
  have hname : (memberHdr env hdr).cName.strlen < 510 :=
    Nat.lt_of_le_of_lt (strlen_memberHdr_le env hdr) hpath
  have hchecks : checkNames env.flags (memberHdr env hdr) =
      if RefusesOverflow env hdr then .error (-14)
      else .ok ⟨checkedHdr env hdr, needsLongName env.flags (memberHdr env hdr).cName,
        decide (tarLinknameSize < hdr.cTarLinkname.strlen)⟩ := by
    have hlinktest : taruIsTarLinknameTooLong (memberHdr env hdr).cTarLinkname env.flags =
        (false, decide (tarLinknameSize < hdr.cTarLinkname.strlen)) := by
      rw [memberHdr_cTarLinkname]
      exact hmode.linkTooLong_eq hlink
    have hnametest := hmode.nameTooLong_eq hname
    simp only [checkNames, hnametest, hlinktest, hmode.isPaxHeaderAllowed_eq, Bool.false_eq_true,
      if_false, true_and]
    rfl
  by_cases hrefuse : RefusesOverflow env hdr
  · left
    refine ⟨hrefuse, ?_⟩
    rw [taruWriteArchiveMemberHeader, hchecks, if_pos hrefuse, Emit.lift_error, Emit.fail_bind]
  · right
    have hmember : taruWriteArchiveMemberHeader env linkrecord hdr =
        writeExtHeaders env ⟨checkedHdr env hdr, needsLongName env.flags (memberHdr env hdr).cName,
          decide (tarLinknameSize < hdr.cTarLinkname.strlen)⟩ >>= fun ext =>
        writeByType env linkrecord ext.doGnuLongLink ext.hdr >>= fun w =>
          pure { w with retval := w.retval + ext.nameBytes } := by
      rw [taruWriteArchiveMemberHeader, hchecks, if_neg hrefuse, Emit.lift_ok, Emit.pure_bind]
    rw [hmember]
    have hneeds : needsGnuName env.flags (checkedHdr env hdr) = true ↔
        (needsLongName env.flags (memberHdr env hdr).cName = true ∨
          decide (tarLinknameSize < hdr.cTarLinkname.strlen) = true) := by
      rw [needsGnuName, Bool.or_eq_true]
      simp only [checkedHdr, memberHdr_cTarLinkname]
    have htype' : (checkedHdr env hdr).fileType = cpIfreg ∨ (checkedHdr env hdr).fileType = cpIfdir ∨
        (checkedHdr env hdr).fileType = cpIflnk := by
      have heq : (checkedHdr env hdr).fileType = hdr.fileType := memberHdr_fileType env hdr
      rwa [heq]
    simp only [writeExtHeaders, hmode.isPaxHeaderAllowed_eq, Bool.false_eq_true, if_false]
    by_cases hlong : needsGnuName env.flags (checkedHdr env hdr) = true
    · rw [if_pos (hneeds.mp hlong)]
      have hname' : (checkedHdr env hdr).cName.strlen < 510 := hname
      rcases writeLongName_cases env hname' htype' hlong with ⟨hempty, hfail⟩ |
        ⟨bs, hbs, heq, hcase⟩
      · refine .inl ⟨hrefuse, hempty, ?_⟩
        rw [hfail]
        rfl
      · refine .inr ⟨hrefuse, bs, longNameCut env.flags, ?_, hcase⟩
        rw [heq, hbs, Emit.ok_bind, Emit.prepend_bind, Emit.pure_bind]
        rfl
    · refine .inr ⟨hrefuse, [], (checkedHdr env hdr).cName.strlen, ?_, fun _ => ⟨[], rfl, ?_⟩⟩
      · have hshort : decide (tarLinknameSize < hdr.cTarLinkname.strlen) = false :=
          Bool.eq_false_iff.mpr fun h => hlong (hneeds.mpr (.inr h))
        rw [if_neg (fun h => hlong (hneeds.mpr h)), Emit.pure_bind, hshort,
          CString.take_of_strlen_le (Nat.le_refl _)]
        rfl
      · rw [CString.take_of_strlen_le (Nat.le_refl _)]
        exact .short (Bool.eq_false_iff.mpr hlong)

end Swbis.Taru
