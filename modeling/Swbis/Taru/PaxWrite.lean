import Swbis.Taru.Xattr
import Swbis.Taru.LongNameWrite
import Swbis.Taru.PaxHeaderName

/-!
# Writing a member with a pax header

In the formats with pax headers a member whose fields do not all fit the record gets an
extended header in front of it, with a record for each field that does not.  The fields in the
file header are then replaced by values that fit (`fittedHdr`); the one for the group id goes
into the user id.

`recordHdr` is the file header that the switch over the file type writes, and
`taruWriteArchiveMemberHeader_pax` puts the parts together.
-/

namespace Swbis.Taru

open CLib

/-! ## The records of the fields -/

/-- `SWBIS.devmajor` and `SWBIS.devminor`. -/
def swbisKeyword (name : KeywordPart) : VendorKeyword where
  vendor := ⟨⟨chars ['S', 'W', 'B', 'I', 'S'], by decide⟩, by decide,
    List.all_eq_true.mp (by decide)⟩
  vendorUpper := by decide
  namespaceName := none
  name := name

def swbisDevmajor : VendorKeyword := swbisKeyword
  ⟨⟨chars ['d', 'e', 'v', 'm', 'a', 'j', 'o', 'r'], by decide⟩, by decide,
    List.all_eq_true.mp (by decide)⟩

def swbisDevminor : VendorKeyword := swbisKeyword
  ⟨⟨chars ['d', 'e', 'v', 'm', 'i', 'n', 'o', 'r'], by decide⟩, by decide,
    List.all_eq_true.mp (by decide)⟩

/-- An attribute that is written if it is needed. -/
def neededAttr (needed : Bool) (a : PaxAttr) : List PaxAttr := if needed then [a] else []

/-- The attributes that `write_exthdrs_ustar_records` writes, in its order. -/
def ustarAttrs (hdr : FileHdr) : List PaxAttr :=
  let need := hdr.extHeaderNeedsMask
  neededAttr need.linkpath (.ustar .linkpath hdr.cTarLinkname.bytes) ++
  neededAttr need.path (.ustar .path hdr.cName.bytes) ++
  neededAttr need.size (.ustar .size (sprintfLu hdr.cFilesize)) ++
  neededAttr need.uid (.ustar .uid (sprintfLu hdr.cUid)) ++
  neededAttr need.gid (.ustar .gid (sprintfLu hdr.cGid)) ++
  neededAttr need.uname (.ustar .uname hdr.cUsername.bytes) ++
  neededAttr need.gname (.ustar .gname hdr.cGroupname.bytes) ++
  neededAttr need.devMaj (.vendor swbisDevmajor (sprintfLu hdr.cDevMaj)) ++
  neededAttr need.devMin (.vendor swbisDevminor (sprintfLu hdr.cDevMin))

/-- The bytes of their records. -/
def attrRecords (attrs : List PaxAttr) : Bytes :=
  recordsOf (attrs.map fun a => (a.keyword, a.value))

/-- The file header whose values fit.  The user id has the limit of the group id, if that is
too large. -/
def fittedHdr (hdr : FileHdr) : FileHdr :=
  let need := hdr.extHeaderNeedsMask
  { hdr with
    cTarLinkname := if need.linkpath then hdr.cTarLinkname.take tarNameSize else hdr.cTarLinkname
    cName := if need.path then hdr.cName.take tarNameSize else hdr.cName
    cFilesize := if need.size then UInt64.ofNat tarMaxSize else hdr.cFilesize
    cUid := if need.gid then UInt64.ofNat tarMaxGid
      else if need.uid then UInt64.ofNat tarMaxUid else hdr.cUid
    cUsername := if need.uname then hdr.cUsername.take (snameLen - 1) else hdr.cUsername
    cGroupname := if need.gname then hdr.cGroupname.take (snameLen - 1) else hdr.cGroupname
    cDevMaj := if need.devMaj then UInt64.ofNat tarMaxDevice else hdr.cDevMaj
    cDevMin := if need.devMin then UInt64.ofNat tarMaxDevice else hdr.cDevMin }

theorem attrRecords_append (as bs : List PaxAttr) :
    attrRecords (as ++ bs) = attrRecords as ++ attrRecords bs := by
  simp [attrRecords, recordsOf]

theorem attrRecords_cons (a : PaxAttr) (as : List PaxAttr) :
    attrRecords (a :: as) = extRecord a.keyword a.value ++ attrRecords as := rfl

/-- The record of an attribute that may be needed. -/
theorem attrRecords_neededAttr (needed : Bool) (a : PaxAttr) :
    attrRecords (neededAttr needed a) = if needed then extRecord a.keyword a.value else [] := by
  cases needed with
  | false => rfl
  | true => exact List.append_nil _

/-- One field: its record, and the value that fits in its place. -/
theorem needsRecord_bind {α β : Type} (set : FileHdr → α → FileHdr) (get : FileHdr → α)
    {hdr : FileHdr} (hset : set hdr (get hdr) = hdr) (needed : Bool) (a : PaxAttr) (fits : α)
    (hlt : (attrRecords (neededAttr needed a)).length < 2 ^ 31) (f : Bytes × FileHdr → Outcome β) :
    (needsRecord needed a.keyword a.value hdr (set hdr fits) >>= f) =
      f (attrRecords (neededAttr needed a), set hdr (if needed then fits else get hdr)) := by
  rw [attrRecords_neededAttr] at hlt ⊢
  cases needed with
  | false =>
      simp only [needsRecord, Bool.false_eq_true, if_false, hset]
      rfl
  | true =>
      have hsize := extLength_eq a.keyword a.value
      have hpos := decimal.length_render_pos (extLength a.keyword a.value)
      simp only [if_true, length_extRecord] at hlt
      rw [strlen_exthdrHead] at hsize
      simp only [needsRecord, if_true, constructExthdrRecord_eq
        (show a.keyword.strlen + a.value.length + 3 < 2 ^ 31 by omega), Outcome.returned_bind]
      rfl

/-- **The records of the fields, and the file header that fits.** -/
theorem writeExthdrsUstarRecords_eq {hdr : FileHdr}
    (hlt : (attrRecords (ustarAttrs hdr)).length < 2 ^ 31) :
    writeExthdrsUstarRecords hdr = .returned (attrRecords (ustarAttrs hdr), fittedHdr hdr) := by
  simp only [ustarAttrs, attrRecords_append, List.length_append] at hlt ⊢
  refine (needsRecord_bind (fun h x => { h with cTarLinkname := x }) FileHdr.cTarLinkname rfl _
    (.ustar .linkpath hdr.cTarLinkname.bytes) _ (by omega) _).trans ?_
  refine (needsRecord_bind (fun h x => { h with cName := x }) FileHdr.cName rfl _
    (.ustar .path hdr.cName.bytes) _ (by omega) _).trans ?_
  refine (needsRecord_bind (fun h x => { h with cFilesize := x }) FileHdr.cFilesize rfl _
    (.ustar .size (sprintfLu hdr.cFilesize)) _ (by omega) _).trans ?_
  refine (needsRecord_bind (fun h x => { h with cUid := x }) FileHdr.cUid rfl _
    (.ustar .uid (sprintfLu hdr.cUid)) _ (by omega) _).trans ?_
  refine (needsRecord_bind (fun h x => { h with cUid := x }) FileHdr.cUid rfl _
    (.ustar .gid (sprintfLu hdr.cGid)) _ (by omega) _).trans ?_
  refine (needsRecord_bind (fun h x => { h with cUsername := x }) FileHdr.cUsername rfl _
    (.ustar .uname hdr.cUsername.bytes) _ (by omega) _).trans ?_
  refine (needsRecord_bind (fun h x => { h with cGroupname := x }) FileHdr.cGroupname rfl _
    (.ustar .gname hdr.cGroupname.bytes) _ (by omega) _).trans ?_
  refine (needsRecord_bind (fun h x => { h with cDevMaj := x }) FileHdr.cDevMaj rfl _
    (.vendor swbisDevmajor (sprintfLu hdr.cDevMaj)) _ (by omega) _).trans ?_
  refine (needsRecord_bind (fun h x => { h with cDevMin := x }) FileHdr.cDevMin rfl _
    (.vendor swbisDevminor (sprintfLu hdr.cDevMin)) _ (by omega) _).trans ?_
  rfl

theorem UstarKeyword.strlen_text_le (k : UstarKeyword) : k.text.strlen ≤ 8 := by
  cases k with
  | path => decide
  | linkpath => decide
  | gname => decide
  | uname => decide
  | atime => decide
  | mtime => decide
  | ctime => decide
  | gid => decide
  | uid => decide
  | size => decide

theorem mem_neededAttr {needed : Bool} {a b : PaxAttr} (h : b ∈ neededAttr needed a) : b = a := by
  cases needed with
  | false => cases h
  | true => exact List.mem_singleton.mp h

/-- Whether the value of a keyword is a number. -/
def UstarKeyword.isNumber : UstarKeyword → Bool
  | path => false
  | linkpath => false
  | gname => false
  | uname => false
  | atime => true
  | mtime => true
  | ctime => true
  | gid => true
  | uid => true
  | size => true

/-- An attribute that is written is one of the ustar keywords, or a device number. -/
theorem ustarAttrs_cases {hdr : FileHdr} {a : PaxAttr} (h : a ∈ ustarAttrs hdr) :
    (∃ k v, a = .ustar k v ∧ (k.isNumber = true → ∃ n, v = sprintfLu n)) ∨
      ∃ v, a = .vendor swbisDevmajor v ∨ a = .vendor swbisDevminor v := by
  have text : ∀ {k : UstarKeyword} {v : Bytes}, k.isNumber = false →
      k.isNumber = true → ∃ n, v = sprintfLu n :=
    fun hk hk' => absurd (hk.symm.trans hk') (by decide)
  simp only [ustarAttrs, List.mem_append] at h
  rcases h with ((((((((h | h) | h) | h) | h) | h) | h) | h) | h)
  · exact .inl ⟨_, _, mem_neededAttr h, text rfl⟩
  · exact .inl ⟨_, _, mem_neededAttr h, text rfl⟩
  · exact .inl ⟨_, _, mem_neededAttr h, fun _ => ⟨_, rfl⟩⟩
  · exact .inl ⟨_, _, mem_neededAttr h, fun _ => ⟨_, rfl⟩⟩
  · exact .inl ⟨_, _, mem_neededAttr h, fun _ => ⟨_, rfl⟩⟩
  · exact .inl ⟨_, _, mem_neededAttr h, text rfl⟩
  · exact .inl ⟨_, _, mem_neededAttr h, text rfl⟩
  · exact .inr ⟨_, .inl (mem_neededAttr h)⟩
  · exact .inr ⟨_, .inr (mem_neededAttr h)⟩

/-- The keywords are short. -/
theorem strlen_keyword_ustarAttrs {hdr : FileHdr} {a : PaxAttr} (h : a ∈ ustarAttrs hdr) :
    a.keyword.strlen ≤ 14 := by
  rcases ustarAttrs_cases h with ⟨k, v, rfl, -⟩ | ⟨v, rfl | rfl⟩
  · exact k.strlen_text_le.trans (by decide)
  · exact show swbisDevmajor.text.strlen ≤ 14 by decide
  · exact show swbisDevminor.text.strlen ≤ 14 by decide

/-- So the buffer comes to hold the records: the head of none of them loses its end. -/
theorem recordsAt_ustarAttrs (hdr : FileHdr) {size : Nat} (hsize : 0 < size)
    (hlt : (attrRecords (ustarAttrs hdr)).length < 2 ^ 31) :
    recordsAt ((ustarAttrs hdr).map fun a => (a.keyword, a.value)) 0 size =
      attrRecords (ustarAttrs hdr) := by
  refine recordsAt_of_headsStay hsize (headsStay_of_le hsize fun p hp => ?_)
  obtain ⟨a, ha, rfl⟩ := List.mem_map.mp hp
  have hkeyword := strlen_keyword_ustarAttrs ha
  obtain ⟨as, bs, hsplit⟩ := List.append_of_mem ha
  rw [hsplit, attrRecords_append, attrRecords_cons, List.length_append, List.length_append,
    length_extRecord] at hlt
  have hdigits : (decimal.render (extLength a.keyword a.value)).length ≤ 9 + 1 := by
    rw [decimal.length_render_le_iff, decimal_base]
    omega
  rw [strlen_exthdrHead]
  simp only
  omega

/-! ## The names of the owners -/

/-- The name that the system knows is kept. -/
theorem nameByPolicy_sys (cC : UInt8) (sys : Option CString) (numericUids : Bool) :
    nameByPolicy cC (sys.getD .empty) sys numericUids = sys.getD .empty := by
  simp only [nameByPolicy, ite_self]

/-- The policy keeps a name or takes the one that the system knows. -/
theorem nameByPolicy_cases (cC : UInt8) (name : CString) (sys : Option CString)
    (numericUids : Bool) :
    nameByPolicy cC name sys numericUids = name ∨
      nameByPolicy cC name sys numericUids = sys.getD .empty := by
  rw [nameByPolicy]
  repeat' split
  all_goals simp

/-- The policy changes a name once. -/
theorem nameByPolicy_again (cC : UInt8) (name : CString) (sys : Option CString)
    (numericUids : Bool) :
    nameByPolicy cC (nameByPolicy cC name sys numericUids) sys numericUids =
      nameByPolicy cC name sys numericUids := by
  rcases nameByPolicy_cases cC name sys numericUids with hkept | hsys
  · rw [hkept, hkept]
  · rw [hsys, nameByPolicy_sys]

theorem taruSetFilehdrSysdbNameidByPolicy_again (db : SysDb) (flags : TarFlags) (hdr : FileHdr) :
    taruSetFilehdrSysdbNameidByPolicy db flags (taruSetFilehdrSysdbNameidByPolicy db flags hdr) =
      taruSetFilehdrSysdbNameidByPolicy db flags hdr := by
  simp only [taruSetFilehdrSysdbNameidByPolicy, nameByPolicy_again]

/-- The file header that the records are written for: the owners have the names of the policy,
unless there are no records and names are left out anyway. -/
def paxHdr (env : WriteEnv) (hdr : FileHdr) : FileHdr :=
  let checked := checkedHdr env hdr
  if env.flags.numericUids ∧ checked.extHeaderNeedsMask = .zero ∧ checked.extattlist = none then
    checked
  else taruSetFilehdrSysdbNameidByPolicy env.db env.flags checked

section PaxHdr

variable (env : WriteEnv) (hdr : FileHdr)

/-- The policy changes the names of the owners only. -/
theorem paxHdr_eq : ∃ user group, paxHdr env hdr =
    { checkedHdr env hdr with cUsername := user, cGroupname := group } := by
  rw [paxHdr]
  split
  · exact ⟨_, _, rfl⟩
  · exact ⟨_, _, rfl⟩

theorem paxHdr_needsMask : (paxHdr env hdr).extHeaderNeedsMask =
    taruFillExthdrNeedsMask (memberHdr env hdr) env.flags := by
  obtain ⟨user, group, heq⟩ := paxHdr_eq env hdr
  rw [heq]
  rfl

end PaxHdr

/-! ## The extended header -/

/-- The extended header with the records of attributes, if there are any. -/
inductive PaxBlocks (attrs : List PaxAttr) : List ExtBlock → Prop where
  | empty (h : attrs = []) : PaxBlocks attrs []
  | records (hne : attrs ≠ []) (e : ExtBlock) (pad : Bytes) (hflag : e.header.typeflag = xhdType)
      (hsize : e.size = (attrRecords attrs).length) (hdata : e.data = attrRecords attrs ++ pad) :
      PaxBlocks attrs [e]

/-- There is a record for every attribute. -/
theorem attrRecords_eq_nil {attrs : List PaxAttr} : attrRecords attrs = [] ↔ attrs = [] := by
  constructor
  · intro h
    cases attrs with
    | nil => rfl
    | cons a attrs =>
        have hsize := extLength_eq a.keyword a.value
        have hlen := congrArg List.length h
        rw [attrRecords_cons, List.length_append, length_extRecord, List.length_nil] at hlen
        omega
  · rintro rfl
    rfl

/-- Nothing is needed, and nothing is written or changed. -/
theorem ustarAttrs_of_zero {hdr : FileHdr} (h : hdr.extHeaderNeedsMask = .zero) :
    ustarAttrs hdr = [] ∧ fittedHdr hdr = hdr := by
  cases hdr
  cases h
  exact ⟨rfl, rfl⟩

/-- The last part of a path that fits or was cut. -/
theorem strlen_swlibBasename_fittedHdr {env : WriteEnv} {hdr p : FileHdr}
    (hname : p.cName = (memberHdr env hdr).cName)
    (hneeds : p.extHeaderNeedsMask = taruFillExthdrNeedsMask (memberHdr env hdr) env.flags) :
    (swlibBasename (fittedHdr p).cName).strlen ≤ tarNameSize := by
  simp only [fittedHdr, hneeds, hname]
  split
  · exact strlen_swlibBasename_le (by decide) (.inl (CString.strlen_take_le _ _))
  · next hfits =>
      refine strlen_swlibBasename_of_fits ?_
      simp only [taruFillExthdrNeedsMask, Bool.or_eq_true, not_or, Bool.not_eq_true] at hfits
      exact hfits.1

theorem length_tapePad (n : Nat) :
    n + (tapePad n).length = (n + (tarRecordSize - 1)) / tarRecordSize * tarRecordSize := by
  simp only [tapePad, List.length_replicate, tarRecordSize]
  omega

section WritePaxHeader

variable (env : WriteEnv) {hdr : FileHdr}
  (hslots : slotRecords (hdr.extattlist.getD []) = [])
  (hlt : (attrRecords (ustarAttrs
    (taruSetFilehdrSysdbNameidByPolicy env.db env.flags hdr))).length < 2 ^ 31)
  (hbase : (swlibBasename (fittedHdr
    (taruSetFilehdrSysdbNameidByPolicy env.db env.flags hdr)).cName).strlen ≤ tarNameSize)
include hslots hlt hbase

/-- The pax header is an extended header that holds the records. -/
theorem writePaxHeader_eq : ∃ es,
    PaxBlocks (ustarAttrs (taruSetFilehdrSysdbNameidByPolicy env.db env.flags hdr)) es ∧
      writePaxHeader env hdr = ⟨extBytes es, .returned (.ok
        (fittedHdr (taruSetFilehdrSysdbNameidByPolicy env.db env.flags hdr)))⟩ := by
  have hustar := writeExthdrsUstarRecords_eq hlt
  generalize hp : taruSetFilehdrSysdbNameidByPolicy env.db env.flags hdr = p at *
  have hxattr : writeExthdrsXattrRecords (fittedHdr p) = .returned [] := by
    have hnone : slotRecords ((fittedHdr p).extattlist.getD []) = [] := by
      rw [← hp]
      exact hslots
    have hrecords := @xattrRecords_eq ((fittedHdr p).extattlist.getD []) (by rw [hnone]; decide)
    rwa [hnone] at hrecords
  generalize hrs : attrRecords (ustarAttrs p) = rs at *
  by_cases hempty : rs = []
  · refine ⟨[], .empty (attrRecords_eq_nil.mp (hrs.trans hempty)), ?_⟩
    rw [writePaxHeader, hp, hustar, hempty]
    simp only [Emit.call, Outcome.returned_bind, Emit.ok_bind, hxattr, List.append_nil, if_true]
    rfl
  · obtain ⟨h, hreturned, hflag, hsize⟩ := paxHeader_eq env hbase rs.length
    have hmod : rs.length % 2 ^ 32 = rs.length := Nat.mod_eq_of_lt (by omega)
    have hto : (UInt64.ofNat rs.length).toNat = rs.length :=
      UInt64.toNat_ofNat_of_lt' (by simp only [UInt64.size]; omega)
    rw [hmod] at hsize
    have hread : ∀ mem, taruOtoul (h.size.bytes ++ mem) = UInt64.ofNat rs.length := by
      intro mem
      have hoff := taruOtoul_off (UInt64.ofNat rs.length) {} mem
      rw [hto, if_pos (by simp only [tarMaxSize]; omega)] at hoff
      rw [hsize]
      exact hoff
    refine ⟨[⟨h, rs.length, rs ++ tapePad rs.length, by rw [hflag]; decide, hlt, hread, ?_⟩],
      .records ?_ _ (tapePad rs.length) hflag ?_ ?_, ?_⟩
    · rw [List.length_append]
      exact length_tapePad _
    · exact fun hnone => hempty (hrs.symm.trans (attrRecords_eq_nil.mpr hnone))
    · rw [hrs]
    · rw [hrs]
    · rw [writePaxHeader, hp, hustar]
      simp only [Emit.call, Outcome.returned_bind, Emit.ok_bind, hxattr, List.append_nil,
        if_neg hempty, hreturned, Emit.write_bind, Emit.prepend_pure, Emit.prepend_prepend]
      simp [extBytes, ExtBlock.bytes, Emit.prepend]

end WritePaxHeader

/-- The extended headers of a member in the formats with pax headers. -/
theorem writeExtHeaders_pax {env : WriteEnv} (hmode : isPaxHeaderAllowed env.flags = true)
    {hdr : FileHdr} (hslots : slotRecords (hdr.extattlist.getD []) = [])
    (hlt : (attrRecords (ustarAttrs (paxHdr env hdr))).length < 2 ^ 31) (name link : Bool) :
    ∃ es, PaxBlocks (ustarAttrs (paxHdr env hdr)) es ∧
      writeExtHeaders env ⟨checkedHdr env hdr, name, link⟩ =
        ⟨extBytes es, .returned (.ok ⟨fittedHdr (paxHdr env hdr), false, 0⟩)⟩ := by
  have hattlist : (checkedHdr env hdr).extattlist = hdr.extattlist := by
    simp only [checkedHdr, memberHdr, stripped, taruFilehdr2filehdr, ahsStaticStripNameLeadingSlash]
    split
    · rfl
    · rfl
  have hneeds : (checkedHdr env hdr).extHeaderNeedsMask =
      taruFillExthdrNeedsMask (memberHdr env hdr) env.flags := rfl
  -- The owners have the names of the policy in one of two ways.
  obtain ⟨policy, hpolicy, hagain, hmask, hlist⟩ : ∃ policy : FileHdr,
      policy = (if env.flags.numericUids then checkedHdr env hdr
        else taruSetFilehdrSysdbNameidByPolicy env.db env.flags (checkedHdr env hdr)) ∧
      taruSetFilehdrSysdbNameidByPolicy env.db env.flags policy =
        taruSetFilehdrSysdbNameidByPolicy env.db env.flags (checkedHdr env hdr) ∧
      policy.extHeaderNeedsMask = (checkedHdr env hdr).extHeaderNeedsMask ∧
      policy.extattlist = hdr.extattlist := by
    refine ⟨_, rfl, ?_, ?_, ?_⟩
    · split
      · rfl
      · exact taruSetFilehdrSysdbNameidByPolicy_again _ _ _
    · split
      · rfl
      · rfl
    · rw [← hattlist]
      split
      · rfl
      · rfl
  rw [writeExtHeaders, if_pos hmode]
  simp only [← hpolicy]
  by_cases hany : policy.extHeaderNeedsMask ≠ .zero ∨ policy.extattlist.isSome = true
  · have hpax : paxHdr env hdr =
        taruSetFilehdrSysdbNameidByPolicy env.db env.flags policy := by
      rw [hagain, paxHdr, if_neg]
      rintro ⟨-, hzero, hnone⟩
      rw [hattlist, ← hlist] at hnone
      rcases hany with hany | hany
      · exact hany (hmask.trans hzero)
      · rw [hnone] at hany
        cases hany
    rw [hpax] at hlt ⊢
    obtain ⟨es, hes, heq⟩ := writePaxHeader_eq env (by rwa [hlist]) hlt
      (by
        rw [← hpax]
        refine strlen_swlibBasename_fittedHdr ?_ (paxHdr_needsMask env hdr)
        obtain ⟨user, group, hp⟩ := paxHdr_eq env hdr
        rw [hp]
        rfl)
    refine ⟨es, hes, ?_⟩
    rw [if_pos hany, heq, Emit.ok_bind, Emit.prepend_pure]
  · rw [not_or, not_not, Bool.not_eq_true, Option.isSome_eq_false_iff,
      Option.isNone_iff_eq_none] at hany
    have hpax : paxHdr env hdr = policy := by
      rw [paxHdr, hpolicy]
      by_cases hnumeric : env.flags.numericUids = true
      · rw [if_pos ⟨hnumeric, hmask ▸ hany.1, hattlist.trans (hlist ▸ hany.2)⟩, if_pos hnumeric]
      · rw [if_neg (fun h => hnumeric h.1), if_neg hnumeric]
    obtain ⟨hattrs, hfitted⟩ := ustarAttrs_of_zero hany.1
    rw [hpax, hattrs, hfitted]
    refine ⟨[], .empty rfl, ?_⟩
    rw [if_neg (by simp [hany.1, hany.2])]
    rfl

/-! ## The record -/

/-- The file header that is written for a device, if the format has them. -/
def deviceHdr (env : WriteEnv) (linkrecord : Option Hllist) (hdr : FileHdr) : Option FileHdr :=
  match env.format with
  | .tar => none
  | .ustar =>
      some (match findLink env linkrecord hdr with
        | some en => { hdr with cMode := hdr.cMode ||| cpIfreg, cTarLinkname := en.path }
        | none => { hdr with cFilesize := 0 })

/-- The file header that the switch over the file type writes, where nothing is written the GNU
way; there is none for a type without a record and for a link name that is too long. -/
def recordHdr (env : WriteEnv) (linkrecord : Option Hllist) (hdr : FileHdr) : Option FileHdr :=
  if hdr.fileType = cpIfreg then some { hdr with cTarLinkname := memberLink env linkrecord hdr }
  else if hdr.fileType = cpIfdir then some { hdr with cFilesize := 0 }
  else if hdr.fileType = cpIfsock then none
  else if hdr.fileType = cpIfifo ∨ hdr.fileType = cpIfchr ∨ hdr.fileType = cpIfblk then
    deviceHdr env linkrecord hdr
  else if hdr.fileType = cpIflnk then
    if tarNameSize < hdr.cTarLinkname.strlen + 1 then none
    else some { hdr with cFilesize := UInt64.ofNat hdr.cTarLinkname.strlen }
  else none

section WriteByType

variable (env : WriteEnv) (linkrecord : Option Hllist) (hdr : FileHdr)

/-- The case `CP_IFREG`. -/
theorem writeRegular_record (hreg : hdr.fileType = cpIfreg) :
    ∃ linkrecord', writeRegular env linkrecord false hdr =
      taruWriteOutHeader env { hdr with cTarLinkname := memberLink env linkrecord hdr } >>=
        fun retval =>
          pure ⟨retval, linkrecord',
            { hdr with cTarLinkname := memberLink env linkrecord hdr }⟩ := by
  simp only [writeRegular, Bool.false_eq_true, and_false, if_false]
  split
  · next hfound =>
      refine ⟨linkrecord, ?_⟩
      rw [memberLink, if_pos ⟨hreg, hfound.2.1⟩]
      cases findLink env linkrecord hdr with
      | some en => rfl
      | none => rfl
  · next hfound =>
      rw [memberLink_of_not_found hfound]
      exact ⟨_, rfl⟩

/-- The cases `CP_IFIFO`, `CP_IFCHR` and `CP_IFBLK`. -/
theorem writeDevice_record {rec : FileHdr} (h : deviceHdr env linkrecord hdr = some rec) :
    ∃ linkrecord', writeDevice env linkrecord hdr =
      taruWriteOutHeader env rec >>= fun retval => pure ⟨retval, linkrecord', rec⟩ := by
  rw [deviceHdr] at h
  rw [writeDevice]
  cases hformat : env.format with
  | tar =>
      rw [hformat] at h
      cases h
  | ustar =>
      rw [hformat] at h
      cases hfind : findLink env linkrecord hdr with
      | some en =>
          rw [hfind] at h
          cases h
          exact ⟨_, rfl⟩
      | none =>
          rw [hfind] at h
          cases h
          exact ⟨_, rfl⟩

/-- A type with a record: the switch writes it and returns what the record writer has
returned. -/
theorem writeByType_some {rec : FileHdr} (h : recordHdr env linkrecord hdr = some rec) :
    ∃ linkrecord', writeByType env linkrecord false hdr =
      taruWriteOutHeader env rec >>= fun retval => pure ⟨retval, linkrecord', rec⟩ := by
  rw [recordHdr] at h
  rw [writeByType]
  split at h
  · next hreg =>
      cases h
      rw [if_pos hreg]
      exact writeRegular_record env linkrecord hdr hreg
  · next hreg =>
      rw [if_neg hreg]
      split at h
      · next hdir =>
          cases h
          rw [if_pos hdir]
          exact ⟨_, rfl⟩
      · next hdir =>
          rw [if_neg hdir]
          split at h
          · cases h
          · next hsock =>
              rw [if_neg hsock]
              split at h
              · next hdev =>
                  rw [if_pos hdev]
                  exact writeDevice_record env linkrecord hdr h
              · next hdev =>
                  rw [if_neg hdev]
                  split at h
                  · next hlnk =>
                      rw [if_pos hlnk, writeSymlink]
                      split at h
                      · cases h
                      · next hfits =>
                          cases h
                          rw [if_neg (by decide), if_neg hfits]
                          exact ⟨_, rfl⟩
                  · cases h

/-- A type without one: nothing is written after the extended headers. -/
theorem writeByType_none (h : recordHdr env linkrecord hdr = none) {w : Written}
    (hw : (writeByType env linkrecord false hdr).result = .returned (.ok w)) : w.retval = 0 := by
  rw [recordHdr] at h
  rw [writeByType] at hw
  split at h
  · cases h
  · next hreg =>
      rw [if_neg hreg] at hw
      split at h
      · cases h
      · next hdir =>
          rw [if_neg hdir] at hw
          split at h
          · next hsock =>
              rw [if_pos hsock] at hw
              cases hw
              rfl
          · next hsock =>
              rw [if_neg hsock] at hw
              split at h
              · next hdev =>
                  rw [if_pos hdev, writeDevice] at hw
                  rw [deviceHdr] at h
                  cases hformat : env.format with
                  | tar =>
                      rw [hformat] at hw
                      cases hw
                  | ustar =>
                      rw [hformat] at h
                      cases h
              · next hdev =>
                  rw [if_neg hdev] at hw
                  split at h
                  · next hlnk =>
                      rw [if_pos hlnk, writeSymlink] at hw
                      split at h
                      · next hlong =>
                          rw [if_neg (by decide), if_pos hlong] at hw
                          cases hw
                      · cases h
                  · next hlnk =>
                      rw [if_neg hlnk] at hw
                      cases hw
                      rfl

end WriteByType

/-! ## The member -/

/-- The path and the link name are not too long for the format. -/
def NamesTaken (env : WriteEnv) (hdr : FileHdr) : Prop :=
  (taruIsTarFilenameTooLong (memberHdr env hdr).cName env.flags).1 = false ∧
    (taruIsTarLinknameTooLong hdr.cTarLinkname env.flags).1 = false

instance (env : WriteEnv) (hdr : FileHdr) : Decidable (NamesTaken env hdr) :=
  inferInstanceAs (Decidable (_ ∧ _))

/-- The checks of the formats with pax headers. -/
theorem checkNames_pax {env : WriteEnv} (hmode : isPaxHeaderAllowed env.flags = true)
    (hdr : FileHdr) :
    (¬ NamesTaken env hdr ∧ ∃ code, checkNames env.flags (memberHdr env hdr) = .error code) ∨
      (NamesTaken env hdr ∧ ∃ name link,
        checkNames env.flags (memberHdr env hdr) = .ok ⟨checkedHdr env hdr, name, link⟩) := by
  rw [NamesTaken, ← memberHdr_cTarLinkname env hdr]
  simp only [checkNames, hmode, Bool.true_eq_false, false_and, and_false, if_false]
  split
  · next hname => exact .inl ⟨fun h => absurd hname (by rw [h.1]; decide), _, rfl⟩
  · next hname =>
      split
      · next hlink => exact .inl ⟨fun h => absurd hlink (by rw [h.2]; decide), _, rfl⟩
      · next hlink =>
          rw [Bool.not_eq_true] at hname hlink
          exact .inr ⟨⟨hname, hlink⟩, _, _, rfl⟩

/-- **What is written for a member in the formats with pax headers**: the extended header with the
records of the fields that do not fit, and the record of the file header that fits. -/
theorem taruWriteArchiveMemberHeader_pax {env : WriteEnv}
    (hmode : isPaxHeaderAllowed env.flags = true) (linkrecord : Option Hllist) {hdr : FileHdr}
    (hslots : slotRecords (hdr.extattlist.getD []) = [])
    (hlt : (attrRecords (ustarAttrs (paxHdr env hdr))).length < 2 ^ 31) :
    (∃ rec linkrecord' es, NamesTaken env hdr ∧
      recordHdr env linkrecord (fittedHdr (paxHdr env hdr)) = some rec ∧
      PaxBlocks (ustarAttrs (paxHdr env hdr)) es ∧
      taruWriteArchiveMemberHeader env linkrecord hdr =
        (taruWriteOutHeader env rec >>= fun retval =>
          pure ⟨retval, linkrecord', rec⟩).prepend (extBytes es)) ∨
    ((NamesTaken env hdr → recordHdr env linkrecord (fittedHdr (paxHdr env hdr)) = none) ∧
      ∀ w, (taruWriteArchiveMemberHeader env linkrecord hdr).result = .returned (.ok w) →
        w.retval = 0) := by
  rcases checkNames_pax hmode hdr with ⟨hnames, code, hchecks⟩ | ⟨hnames, name, link, hchecks⟩
  · refine .inr ⟨fun h => absurd h hnames, fun w hw => ?_⟩
    rw [taruWriteArchiveMemberHeader, hchecks, Emit.lift_error, Emit.fail_bind] at hw
    cases hw
  · obtain ⟨es, hes, hext⟩ := writeExtHeaders_pax hmode hslots hlt name link
    have hmember : taruWriteArchiveMemberHeader env linkrecord hdr =
        (writeByType env linkrecord false (fittedHdr (paxHdr env hdr)) >>= fun w =>
          pure { w with retval := w.retval + 0 }).prepend (extBytes es) := by
      rw [taruWriteArchiveMemberHeader, hchecks, Emit.lift_ok, Emit.pure_bind, hext, Emit.ok_bind]
    have hsame : taruWriteArchiveMemberHeader env linkrecord hdr =
        (writeByType env linkrecord false (fittedHdr (paxHdr env hdr))).prepend (extBytes es) := by
      simp only [Int.add_zero] at hmember
      exact hmember.trans (congrArg (Emit.prepend _) (Emit.bind_pure _))
    rw [hsame]
    cases hrec : recordHdr env linkrecord (fittedHdr (paxHdr env hdr)) with
    | some rec =>
        left
        obtain ⟨linkrecord', heq⟩ := writeByType_some env linkrecord _ hrec
        exact ⟨rec, linkrecord', es, hnames, rfl, hes, by rw [heq]⟩
    | none => exact .inr ⟨fun _ => rfl, fun w hw => writeByType_none env linkrecord _ hrec hw⟩

end Swbis.Taru
