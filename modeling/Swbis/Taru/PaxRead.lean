import Swbis.Taru.PaxWrite
import Swbis.Taru.RecordName

/-!
# Reading back a member with a pax header

The records of a pax header are read into slots, and the override step moves their values into
the file header behind the record (`fields_readHdr`).
-/

namespace Swbis.Taru

open CLib

/-! ## The fields that are overridden -/

/-- The fields of a file header that a pax header can hold. -/
@[ext] structure HdrFields where
  path : CString
  link : CString
  size : UInt64
  uid : UInt64
  gid : UInt64
  uname : CString
  gname : CString
deriving DecidableEq

def FileHdr.fields (hdr : FileHdr) : HdrFields where
  path := hdr.cName
  link := hdr.cTarLinkname
  size := hdr.cFilesize
  uid := hdr.cUid
  gid := hdr.cGid
  uname := hdr.cUsername
  gname := hdr.cGroupname

/-- The value of an attribute, moved into the fields.  A size is stored as the user id. -/
def PaxAttr.setField (erange : Bool) (f : HdrFields) : PaxAttr → HdrFields
  | .ustar .path v => { f with path := .ofMem v }
  | .ustar .linkpath v => { f with link := .ofMem v }
  | .ustar .size v => { f with uid := (setUnsignedLong erange (.ofMem v)).1 }
  | .ustar .uid v => { f with uid := (setUnsignedLong erange (.ofMem v)).1 }
  | .ustar .gid v => { f with gid := (setUnsignedLong erange (.ofMem v)).1 }
  | .ustar .uname v => { f with uname := .ofMem v }
  | .ustar .gname v => { f with gname := .ofMem v }
  | .ustar .atime _ => f
  | .ustar .mtime _ => f
  | .ustar .ctime _ => f
  | .vendor _ _ => f

/-- The slot of a ustar attribute. -/
theorem slotOf_ustar (k : UstarKeyword) (v : Bytes) : slotOf (.ustar k v) = { taruExattInit with
    attrname := k.text, attrvalue := v, len := v.length, isInUse := true } := by
  rw [slotOf, PaxAttr.keyword, parsedExatt_ustar]
  rfl

/-- The override step does that with the slot of an attribute. -/
theorem fields_taruExattOverrideUstar (erange : Bool) (hdr : FileHdr) (a : PaxAttr) :
    (taruExattOverrideUstar erange hdr (slotOf a)).1.fields = a.setField erange hdr.fields := by
  cases a with
  | vendor k v =>
      have hposix : (slotOf (.vendor k v)).isPosix = false := (parsedExatt_vendor k).2.1
      rw [taruExattOverrideUstar_of_not_posix hposix]
      rfl
  | ustar k v =>
      rw [slotOf_ustar]
      cases k with
      | path => rfl
      | linkpath => rfl
      | gname => rfl
      | uname => rfl
      | atime => rfl
      | mtime => rfl
      | ctime => rfl
      | gid => rfl
      | uid => rfl
      | size => rfl

/-- A number that `"%lu"` has written, as `swlib_atoul` returns it. -/
def atoulRead (erange : Bool) (v : UInt64) : UInt64 :=
  if v = 18446744073709551615 ∧ erange = true then 0 else v

theorem swlibAtoul_sprintfLu (erange : Bool) (v : UInt64) :
    swlibAtoul erange (sprintfLu v) =
      (if v = 18446744073709551615 ∧ erange = true then none else some v, [], erange) := by
  have hread := strtoul_render_nil (UInt64.toNat_lt v)
  rw [UInt64.ofNat_toNat] at hread
  rw [swlibAtoul, sprintfLu, hread]
  simp only [Bool.or_false]
  split
  · rfl
  · rfl

theorem ofMem_sprintfLu (v : UInt64) : (CString.ofMem (sprintfLu v)).bytes = sprintfLu v :=
  congrArg CString.bytes (CString.ofMem_bytes ⟨_, nul_not_mem_render v.toNat⟩)

theorem setUnsignedLong_sprintfLu (erange : Bool) (v : UInt64) :
    setUnsignedLong erange (.ofMem (sprintfLu v)) = (atoulRead erange v, erange) := by
  rw [setUnsignedLong, ofMem_sprintfLu, swlibAtoul_sprintfLu, atoulRead]
  by_cases hmax : v = 18446744073709551615 ∧ erange = true
  · rw [if_pos hmax, if_pos hmax]
    rfl
  · rw [if_neg hmax, if_neg hmax]
    rfl

theorem setUnsignedLongValue_sprintfLu (erange : Bool) (v : UInt64) :
    setUnsignedLongValue erange (.ofMem (sprintfLu v)) = (atoulRead erange v, 0, erange) := by
  rw [setUnsignedLongValue, ofMem_sprintfLu, swlibAtoul_sprintfLu, atoulRead]
  by_cases hmax : v = 18446744073709551615 ∧ erange = true
  · rw [if_pos hmax, if_pos hmax]
  · rw [if_neg hmax, if_neg hmax]

/-- The step leaves `errno` alone. -/
def PaxAttr.Quiet (a : PaxAttr) : Prop :=
  ∀ erange hdr, (taruExattOverrideUstar erange hdr (slotOf a)).2.2 = erange

/-- The attributes that are written leave it alone. -/
theorem quiet_ustarAttrs {hdr : FileHdr} {a : PaxAttr} (h : a ∈ ustarAttrs hdr) : a.Quiet := by
  intro erange cur
  rcases ustarAttrs_cases h with ⟨k, v, rfl, hnumber⟩ | ⟨v, hv⟩
  · rw [slotOf_ustar]
    cases k with
    | path => rfl
    | linkpath => rfl
    | gname => rfl
    | uname => rfl
    | atime =>
        obtain ⟨n, rfl⟩ := hnumber rfl
        exact congrArg (fun p => p.2.2) (setUnsignedLongValue_sprintfLu erange n)
    | mtime =>
        obtain ⟨n, rfl⟩ := hnumber rfl
        exact congrArg Prod.snd (setUnsignedLong_sprintfLu erange n)
    | ctime =>
        obtain ⟨n, rfl⟩ := hnumber rfl
        exact congrArg (fun p => p.2.2) (setUnsignedLongValue_sprintfLu erange n)
    | gid =>
        obtain ⟨n, rfl⟩ := hnumber rfl
        exact congrArg Prod.snd (setUnsignedLong_sprintfLu erange n)
    | uid =>
        obtain ⟨n, rfl⟩ := hnumber rfl
        exact congrArg Prod.snd (setUnsignedLong_sprintfLu erange n)
    | size =>
        obtain ⟨n, rfl⟩ := hnumber rfl
        exact congrArg Prod.snd (setUnsignedLong_sprintfLu erange n)
  · have hposix : (slotOf a).isPosix = false := by
      rcases hv with rfl | rfl
      · exact (parsedExatt_vendor _).2.1
      · exact (parsedExatt_vendor _).2.1
    rw [taruExattOverrideUstar_of_not_posix hposix]

/-- The attributes are moved into the fields one after the other. -/
theorem fields_overrideAll {attrs : List PaxAttr} (hquiet : ∀ a ∈ attrs, a.Quiet) (erange : Bool)
    (hdr : FileHdr) : (overrideAll erange hdr (attrs.map slotOf)).1.fields =
      attrs.foldl (PaxAttr.setField erange) hdr.fields := by
  induction attrs generalizing hdr with
  | nil => rfl
  | cons a attrs ih =>
      have hkeeps : (taruExattOverrideUstar erange hdr (slotOf a)).2.2 = erange :=
        hquiet a List.mem_cons_self erange hdr
      rw [List.map_cons, overrideAll, List.foldl_cons, ← fields_taruExattOverrideUstar]
      simp only [hkeeps, ih fun b hb => hquiet b (List.mem_cons_of_mem _ hb)]

/-- The fields after the override, from the needs of the file header that was written and its
fields. -/
def HdrFields.overriddenBy (f : HdrFields) (erange : Bool) (need : ExtHeaderMask)
    (src : HdrFields) : HdrFields where
  path := if need.path then src.path else f.path
  link := if need.linkpath then src.link else f.link
  size := f.size
  uid := if need.uid then atoulRead erange src.uid
    else if need.size then atoulRead erange src.size else f.uid
  gid := if need.gid then atoulRead erange src.gid else f.gid
  uname := if need.uname then src.uname else f.uname
  gname := if need.gname then src.gname else f.gname

/-- One attribute that may be needed sets one field. -/
theorem foldl_neededAttr {α : Type} (erange : Bool) (a : PaxAttr) (set : HdrFields → α → HdrFields)
    (get : HdrFields → α) (hset : ∀ f, set f (get f) = f) {x : α}
    (ha : ∀ f, a.setField erange f = set f x) (needed : Bool) (f : HdrFields) :
    (neededAttr needed a).foldl (PaxAttr.setField erange) f =
      set f (if needed then x else get f) := by
  cases needed with
  | false => exact (hset f).symm
  | true => exact ha f

/-- What the records of a file header do to the fields of another one. -/
theorem foldl_ustarAttrs (erange : Bool) (src : FileHdr) (f : HdrFields) :
    (ustarAttrs src).foldl (PaxAttr.setField erange) f =
      f.overriddenBy erange src.extHeaderNeedsMask src.fields := by
  have htext : ∀ s : CString, CString.ofMem s.bytes = s := CString.ofMem_bytes
  have hnumber : ∀ n, (setUnsignedLong erange (.ofMem (sprintfLu n))).1 = atoulRead erange n :=
    fun n => congrArg Prod.fst (setUnsignedLong_sprintfLu erange n)
  have hlink := foldl_neededAttr erange (.ustar .linkpath src.cTarLinkname.bytes)
    (fun f x => { f with link := x }) HdrFields.link (fun _ => rfl)
    (fun f => by rw [PaxAttr.setField, htext])
  have hpath := foldl_neededAttr erange (.ustar .path src.cName.bytes)
    (fun f x => { f with path := x }) HdrFields.path (fun _ => rfl)
    (fun f => by rw [PaxAttr.setField, htext])
  have hsize := foldl_neededAttr erange (.ustar .size (sprintfLu src.cFilesize))
    (fun f x => { f with uid := x }) HdrFields.uid (fun _ => rfl)
    (fun f => by rw [PaxAttr.setField, hnumber])
  have huid := foldl_neededAttr erange (.ustar .uid (sprintfLu src.cUid))
    (fun f x => { f with uid := x }) HdrFields.uid (fun _ => rfl)
    (fun f => by rw [PaxAttr.setField, hnumber])
  have hgid := foldl_neededAttr erange (.ustar .gid (sprintfLu src.cGid))
    (fun f x => { f with gid := x }) HdrFields.gid (fun _ => rfl)
    (fun f => by rw [PaxAttr.setField, hnumber])
  have huname := foldl_neededAttr erange (.ustar .uname src.cUsername.bytes)
    (fun f x => { f with uname := x }) HdrFields.uname (fun _ => rfl)
    (fun f => by rw [PaxAttr.setField, htext])
  have hgname := foldl_neededAttr erange (.ustar .gname src.cGroupname.bytes)
    (fun f x => { f with gname := x }) HdrFields.gname (fun _ => rfl)
    (fun f => by rw [PaxAttr.setField, htext])
  have hvendor : ∀ k v, ∀ (needed : Bool) (f : HdrFields),
      (neededAttr needed (.vendor k v)).foldl (PaxAttr.setField erange) f = f := fun k v =>
    foldl_neededAttr erange (.vendor k v) (fun f (_ : Unit) => f) (fun _ => ()) (fun _ => rfl)
      (x := ()) (fun _ => rfl)
  simp only [ustarAttrs, List.foldl_append, hlink, hpath, hsize, huid, hgid, huname, hgname,
    hvendor]
  rfl

/-! ## The records are read -/

/-- A record that is written is one of its attribute. -/
theorem recordedBy_extRecord (a : PaxAttr) : a.RecordedBy (extRecord a.keyword a.value) := by
  refine ⟨decimal.render (extLength a.keyword a.value), decimal.render_ne_nil _,
    decimal.isDigit_of_mem_render _, ?_, rfl⟩
  rw [decimal.value_render, length_extRecord]

theorem forall₂_recordedBy (attrs : List PaxAttr) :
    List.Forall₂ PaxAttr.RecordedBy attrs (attrs.map fun a => extRecord a.keyword a.value) := by
  induction attrs with
  | nil => exact .nil
  | cons a attrs ih => exact .cons (recordedBy_extRecord a) ih

theorem flatten_extRecords (attrs : List PaxAttr) :
    (attrs.map fun a => extRecord a.keyword a.value).flatten = attrRecords attrs := by
  rw [attrRecords, recordsOf, List.map_map]
  rfl

/-- Where every keyword is accepted there is a slot for every attribute. -/
theorem slotsRead_of_keywordOk {attrs : List PaxAttr} (h : ∀ a ∈ attrs, KeywordOk a.keyword) :
    slotsRead attrs = attrs.map slotOf := by
  induction attrs with
  | nil => rfl
  | cons a attrs ih =>
      rw [slotsRead, if_pos (h a List.mem_cons_self), List.map_cons,
        ih fun b hb => h b (List.mem_cons_of_mem _ hb)]

/-- The keywords that are written are accepted. -/
theorem keywordOk_ustarAttrs {hdr : FileHdr} {a : PaxAttr} (h : a ∈ ustarAttrs hdr) :
    KeywordOk a.keyword := by
  rcases ustarAttrs_cases h with ⟨k, v, rfl, -⟩ | ⟨v, rfl | rfl⟩
  · rw [KeywordOk, PaxAttr.keyword, parsedExatt_ustar]
  · exact show KeywordOk swbisDevmajor.text by decide
  · exact show KeywordOk swbisDevminor.text by decide

/-- The attributes that were read from an extended header so far. -/
structure PaxRead (attrs : List PaxAttr) (cur : FileHdr) : Prop where
  extattlist : cur.extattlist = some (attrs.map slotOf)
  used : attrs ≠ [] → cur.extHeaderUsageMask ≠ .zero
  pathMask : cur.extHeaderUsageMask.path = false
  linkMask : cur.extHeaderUsageMask.linkpath = false
  link : cur.cTarLinkname = .empty

/-- The reader puts the records of an extended header into slots. -/
theorem PaxBlocks.applied {attrs : List PaxAttr} {es : List ExtBlock} (h : PaxBlocks attrs es)
    (hok : ∀ a ∈ attrs, KeywordOk a.keyword) (renv : ReadEnv) :
    ∃ cur, ExtApplied es renv.start cur ∧ PaxRead attrs cur := by
  cases h with
  | empty hnone =>
      subst hnone
      exact ⟨_, .nil _, rfl, fun hne => absurd rfl hne, rfl, rfl, rfl⟩
  | records hne e pad hflag hsize hdata =>
      have hint : (UInt64.ofNat e.size).toUInt32.toInt32.toInt = e.size := toInt_ofNat e.size_lt
      refine ⟨{ renv.start with
        cFilesize := UInt64.ofNat e.size
        extHeaderUsageMask := { renv.start.extHeaderUsageMask with any := true }
        extattlist := some (attrs.map slotOf) }, .cons (fun rest => ?_) (.nil _), rfl,
        fun _ hzero => absurd (congrArg ExtHeaderMask.any hzero) (show true ≠ false by decide),
        rfl, rfl, rfl⟩
      obtain ⟨r, hread, hslots, hret⟩ := readAllFrom_recorded
        (show (attrRecords attrs).length < 2 ^ 31 from hsize ▸ e.size_lt) (forall₂_recordedBy attrs)
        (show (attrRecords attrs ++ pad ++ 0 :: rest).drop 0 = _ ++ (pad ++ 0 :: rest) by
          rw [flatten_extRecords, List.append_assoc]
          rfl)
        (by rw [flatten_extRecords, Nat.zero_add]) (attrRecords attrs).length (by omega)
        (show ∀ p ∈ (some [] : Option (List Exatt)).getD [], p.isInUse = true by simp) [] 0
      rw [slotsRead_of_keywordOk hok] at hslots
      have hall : r.extattlist = some (attrs.map slotOf) := by
        cases hlist : r.extattlist with
        | none =>
            rw [hlist] at hslots
            exact absurd (List.map_eq_nil_iff.mp hslots.symm) hne
        | some slots =>
            rw [hlist] at hslots
            exact congrArg some hslots
      have hpos : ¬ r.ret < 0 := fun hneg => by
        obtain ⟨a, ha, hbad⟩ := hret hneg
        exact hbad (hok a ha)
      have happly := (@taruReadAllExtHeaderRecords_eq_returned
        { renv.start with cFilesize := UInt64.ofNat e.size } _ (e.data ++ 0 :: rest)
        (UInt64.ofNat e.size).toUInt32.toInt32 r).mpr
        ⟨by rw [hint, hdata, hsize, Int.toNat_natCast]; exact hread, rfl⟩
      rw [hflag, applyExtHeader, if_neg (by decide), if_neg (by decide), if_neg (by decide)]
      simp only [happly, Outcome.returned_bind, if_neg hpos, hall]
      rfl

/-- **The fields behind an extended header**: those of the record, overridden by the attributes. -/
theorem PaxRead.fields_readHdr {attrs : List PaxAttr} {cur : FileHdr} (hcur : PaxRead attrs cur)
    (hquiet : ∀ a ∈ attrs, a.Quiet) (renv : ReadEnv) (h : TarHeader) (mem : Bytes) :
    (readHdr renv h mem cur).fields = attrs.foldl (PaxAttr.setField renv.erange)
      (setFromTarHeader renv.db renv.flags (h.bytes ++ mem)
        { cur with cChksum := taruOtoul ((h.bytes ++ mem).drop 148) }).fields := by
  rw [readHdr]
  generalize hbase : setFromTarHeader renv.db renv.flags (h.bytes ++ mem)
    { cur with cChksum := taruOtoul ((h.bytes ++ mem).drop 148) } = base
  have hlist : base.extattlist = some (attrs.map slotOf) := by
    rw [← hbase]
    exact hcur.extattlist
  have hmask : base.extHeaderUsageMask = cur.extHeaderUsageMask := by
    rw [← hbase]
    rfl
  rw [← fields_overrideAll hquiet, overrideUstar]
  split
  · next hzero =>
      have hnone : attrs = [] := by
        by_contra hne
        exact hcur.used hne (hmask.symm.trans hzero)
      rw [hnone]
      rfl
  · rw [hlist]
    rfl

/-! ## The fields of a record -/

/-- An id, as it is read from its field. -/
def idRead (id : UInt64) : UInt64 :=
  if id.toUInt32.toUInt64.toNat ≤ tarMax7Octal then id.toUInt32.toUInt64 else 15

/-- The name of an owner, as it is read from its field. -/
def ownerRead (flags : TarFlags) (name : CString) : CString :=
  if flags.numericUids then .empty else name.take (snameLen - 1)

/-- The types whose size is not read. -/
def isUnsizedType (cType : UInt64) : Prop :=
  cType = cpIfchr ∨ cType = cpIfblk ∨ cType = cpIfsock ∨ cType = cpIfifo ∨ cType = cpIflnk

instance (cType : UInt64) : Decidable (isUnsizedType cType) :=
  inferInstanceAs (Decidable (_ ∨ _ ∨ _ ∨ _ ∨ _))

/-- The link name, as it is read from a record. -/
def linkRead (hdr : FileHdr) : CString :=
  if hdr.fileType = cpIfreg ∨ hdr.fileType = cpIflnk then hdr.cTarLinkname else .empty

/-- The size, as it is read from a record. -/
def sizeRead (hdr : FileHdr) : UInt64 :=
  if isUnsizedType hdr.fileType then 0
  else if (sizeToWrite hdr).toNat ≤ tarMaxSize then sizeToWrite hdr else 0

/-- The fields, as they are read from a record. -/
def fieldsOfRecord (db : SysDb) (flags : TarFlags) (hdr : FileHdr) (username groupname : CString) :
    HdrFields where
  path := storedName (swlibProcessHexEscapes (uNameBuffer hdr flags))
  link := linkRead hdr
  size := sizeRead hdr
  uid := idRead (uidToWrite db hdr username)
  gid := idRead (gidToWrite db hdr groupname)
  uname := ownerRead flags (unameToWrite db hdr username flags)
  gname := ownerRead flags (gnameToWrite db hdr groupname flags)

theorem ofMem_ownerField (flags : TarFlags) (name : CString) (mem : Bytes) :
    CString.ofMem ((ownerField flags name).bytes ++ mem) = ownerRead flags name := by
  rw [ownerField, ownerRead]
  split
  · rfl
  · have hfield : (CField.strncpyTerm 31 name.bytes).bytes ++ mem =
        (CField.strncpy 31 name.bytes).bytes ++ 0 :: mem := by
      rw [CField.strncpyTerm, List.append_assoc]
      rfl
    have hread := CString.ofMem_take_strncpy 31 name []
    rw [List.append_nil, List.take_of_length_le (CField.size_eq _).le] at hread
    rw [hfield, CString.ofMem_append_end, hread]
    rfl

/-- The switch of the reader, for the type flag that was written. -/
theorem readTypeFields_written {hdr : FileHdr} {size : CField 12} {termch : UInt8} {t : TypeFields}
    (ht : typeFields hdr size termch = .ok t) (hplain : isExtHeaderType t.typeflag = false)
    {mask : ExtHeaderMask} (hmask : mask.linkpath = false) (name : CString) {n : UInt64}
    (hn : hdr.fileType = cpIfreg → hdr.cTarLinkname.strlen ≠ 0 → n = 0) :
    (readTypeFields t.typeflag mask name (.ofMem t.linkname.bytes) .empty n).linkname =
        linkRead hdr ∧
      (readTypeFields t.typeflag mask name (.ofMem t.linkname.bytes) .empty n).size =
        if isUnsizedType hdr.fileType then 0 else n := by
  have hzero : CString.ofMem (CField.zero 100).bytes = .empty := rfl
  rw [typeFields] at ht
  rw [linkRead, readTypeFields]
  by_cases hreg : hdr.fileType = cpIfreg
  · have hspecial : ¬ isUnsizedType cpIfreg := by decide
    rw [if_pos hreg] at ht
    simp only [hreg, true_or, if_true, if_neg hspecial]
    split at ht
    · next hlink =>
        split at ht
        · cases ht
        · next hle =>
            cases ht
            exact ⟨CString.ofMem_strncpy (Nat.le_of_not_lt hle), (hn hreg hlink).symm⟩
    · next hlink =>
        cases ht
        exact ⟨(CString.strlen_eq_zero.mp (not_not.mp hlink)).symm, rfl⟩
  · rw [if_neg hreg] at ht
    by_cases hdir : hdr.fileType = cpIfdir
    · rw [if_pos hdir] at ht
      cases ht
      rw [hdir]
      exact ⟨rfl, rfl⟩
    · rw [if_neg hdir] at ht
      by_cases hchr : hdr.fileType = cpIfchr
      · rw [if_pos hchr] at ht
        cases ht
        rw [hchr]
        exact ⟨rfl, rfl⟩
      · rw [if_neg hchr] at ht
        by_cases hblk : hdr.fileType = cpIfblk
        · rw [if_pos hblk] at ht
          cases ht
          rw [hblk]
          exact ⟨rfl, rfl⟩
        · rw [if_neg hblk] at ht
          by_cases hfifo : hdr.fileType = cpIfsock ∨ hdr.fileType = cpIfifo
          · rw [if_pos hfifo] at ht
            cases ht
            rcases hfifo with hsock | hfifo
            · rw [hsock]
              exact ⟨rfl, rfl⟩
            · rw [hfifo]
              exact ⟨rfl, rfl⟩
          · rw [if_neg hfifo] at ht
            by_cases hlnk : hdr.fileType = cpIflnk
            · rw [if_pos hlnk] at ht
              rw [hlnk]
              split at ht
              · split at ht
                · cases ht
                · cases ht
                  cases hplain
              · split at ht
                · cases ht
                · next hle =>
                    cases ht
                    simp only [hmask]
                    exact ⟨CString.ofMem_strncpy (Nat.le_of_not_lt hle), rfl⟩
            · have hspecial : ¬ isUnsizedType hdr.fileType := by
                rw [not_or] at hfifo
                simp [isUnsizedType, hchr, hblk, hfifo, hlnk]
              rw [if_neg hlnk] at ht
              simp only [hreg, hlnk, or_self, if_false, if_neg hspecial]
              split at ht
              · split at ht
                · cases ht
                  cases hplain
                · cases ht
                  cases hplain
              · cases ht
                exact ⟨rfl, rfl⟩

namespace TarHeader.WrittenFor

variable {h : TarHeader} {db : SysDb} {hdr : FileHdr} {username groupname : CString}
  {flags : TarFlags} {t : TypeFields}

/-- The fields that are read, unless names were read before. -/
theorem fields_setFromTarHeader (w : h.WrittenFor db hdr username groupname flags t)
    (hplain : isExtHeaderType t.typeflag = false) (rdb : SysDb) {rflags : TarFlags}
    (hretain : rflags.retainHeaderIds = true) (mem : Bytes) (cur : FileHdr)
    (hpath : cur.extHeaderUsageMask.path = false) (hlink : cur.extHeaderUsageMask.linkpath = false)
    (hempty : cur.cTarLinkname = .empty) :
    (setFromTarHeader rdb rflags (h.bytes ++ mem) cur).fields =
      fieldsOfRecord db flags hdr username groupname := by
  have huid : taruOtoul ((h.bytes ++ mem).drop 108) = idRead (uidToWrite db hdr username) := by
    obtain ⟨named, heq⟩ := w.eq
    rw [drop_uid, fromUid, heq]
    exact taruOtoul_id _ _ flags _
  have hgid : taruOtoul ((h.bytes ++ mem).drop 116) = idRead (gidToWrite db hdr groupname) := by
    obtain ⟨named, heq⟩ := w.eq
    rw [drop_gid, fromGid, heq]
    exact taruOtoul_id _ _ flags _
  have huname : CString.ofMem ((h.bytes ++ mem).drop 265) =
      ownerRead flags (unameToWrite db hdr username flags) := by
    obtain ⟨named, heq⟩ := w.eq
    rw [drop_uname, fromUname, heq]
    exact ofMem_ownerField flags _ _
  have hgname : CString.ofMem ((h.bytes ++ mem).drop 297) =
      ownerRead flags (gnameToWrite db hdr groupname flags) := by
    obtain ⟨named, heq⟩ := w.eq
    rw [drop_gname, fromGname, heq]
    exact ofMem_ownerField flags _ _
  have htype := readTypeFields_written w.typeFields hplain hlink
    (if cur.extHeaderUsageMask.path then cur.cName else taruDupTarName (h.bytes ++ mem))
    (n := if (sizeToWrite hdr).toNat ≤ tarMaxSize then sizeToWrite hdr else 0)
    (fun hreg hne => by simp only [sizeToWrite, if_pos hreg, if_pos hne, ite_self])
  rw [← w.linkname_read mem, ← w.size_read mem, ← hempty, ← w.typeflagAt_eq mem] at htype
  have hname := w.cName_read rdb rflags mem cur
  rw [hpath] at hname
  refine HdrFields.ext hname htype.1 (htype.2.trans ?_) ?_ ?_ huname hgname
  · rw [w.size_read mem]
    rfl
  · simp only [FileHdr.fields, setFromTarHeader, hretain]
    exact huid
  · simp only [FileHdr.fields, setFromTarHeader, hretain]
    exact hgid

end TarHeader.WrittenFor

/-! ## What is found again -/

/-- A call of the writer succeeds, and the reader takes exactly the bytes that were written and
finds a file header that is the same. -/
def FoundAgain (renv : ReadEnv) (x : Emit Written) (same : FileHdr → Prop) : Prop :=
  ∃ w r, x.result = .returned (.ok w) ∧ 0 < w.retval ∧ renv.Reads x.out r ∧
    r.ret = x.out.length ∧ r.src = .inDes ⟨renv.kind, renv.rest⟩ ∧ same r.hdr

/-- There is a record for the type, and it does not announce data. -/
def TypeWritten (hdr : FileHdr) (flags : TarFlags) : Prop :=
  ∃ t, typeFields hdr (offToChars hdr.cFilesize (.zero 12) .posix (termchOf flags))
    (termchOf flags) = .ok t ∧ isExtHeaderType t.typeflag = false

/-- An extended header takes two records at least. -/
theorem PaxBlocks.length_ne {attrs : List PaxAttr} {es : List ExtBlock} (h : PaxBlocks attrs es) :
    (extBytes es).length ≠ tarRecordSize := by
  cases h with
  | empty _ => exact show 0 ≠ tarRecordSize by decide
  | records hne e pad hflag hsize hdata =>
      have hlen := e.length_data
      have hpos : e.size ≠ 0 := by
        rw [hsize]
        exact fun hzero => hne (attrRecords_eq_nil.mp (List.length_eq_zero_iff.mp hzero))
      rw [extBytes_cons, extBytes_nil, List.append_nil, e.length_bytes, hlen]
      simp only [tarRecordSize]
      omega

section Record

variable {env : WriteEnv} {rec : FileHdr} (hstrip : Unslashed env.flags rec.cName)
  (linkrecord' : Option Hllist) {attrs : List PaxAttr} {es : List ExtBlock}
  (hes : PaxBlocks attrs es) (hok : ∀ a ∈ attrs, KeywordOk a.keyword ∧ a.Quiet) {renv : ReadEnv}
  (hretain : renv.flags.retainHeaderIds = true)
include hstrip hes hok hretain

/-- **What is found again of a record behind attributes.** -/
theorem foundAgain_record_iff {want : HdrFields} :
    FoundAgain renv ((taruWriteOutHeader env rec >>= fun retval =>
        pure ⟨retval, linkrecord', rec⟩).prepend (extBytes es)) (fun r => r.fields = want) ↔
      rec.cName.strlen ≠ 0 ∧ NameAccepted (uNameBuffer rec env.flags) ∧ TypeWritten rec env.flags ∧
        attrs.foldl (PaxAttr.setField renv.erange)
          (fieldsOfRecord env.db env.flags rec rec.cUsername rec.cGroupname) = want := by
  obtain ⟨cur, happlied, hcur⟩ := hes.applied (fun a ha => (hok a ha).1) renv
  rw [taruWriteOutHeader, hstrip.stripped_eq]
  cases hrec : taruWriteOutTarHeader2 env.db rec rec.cUsername rec.cGroupname env.flags with
  | error code =>
      simp only [Emit.pure_bind]
      constructor
      · rintro ⟨w, r, hw, hpos, -⟩
        cases hw
        exact absurd hpos (Int.not_lt.mpr (taruWriteOutTarHeader2_error hrec).le)
      · rintro ⟨hname, haccept, ⟨t, ht, -⟩, -⟩
        obtain ⟨h, hok'⟩ := @taruWriteOutTarHeader2_ok env.db _ rec.cUsername rec.cGroupname _
          hname haccept ⟨t, ht⟩
        rw [hrec] at hok'
        cases hok'
  | ok h =>
      obtain ⟨hname, haccept, -⟩ := accepted_of_ok hrec
      obtain ⟨t, hw⟩ := writtenFor_of_ok hrec
      have hx : ((do
          Emit.write h.bytes
          return tarRecordSize : Emit Int) >>= fun retval =>
            (pure ⟨retval, linkrecord', rec⟩ : Emit Written)).prepend (extBytes es) =
          ⟨extBytes es ++ h.bytes, .returned (.ok ⟨tarRecordSize, linkrecord', rec⟩)⟩ := by
        rw [Emit.write_bind, Emit.prepend_pure, Emit.ok_bind, Emit.prepend_prepend,
          Emit.prepend_pure]
      simp only [hx]
      cases htype : isExtHeaderType t.typeflag with
      | true =>
          have hlen : (extBytes es ++ h.bytes).length ≠ 1024 := by
            have hne := hes.length_ne
            rw [List.length_append, h.length_bytes]
            simp only [tarRecordSize] at hne ⊢
            omega
          constructor
          · rintro ⟨w, r, -, -, hread, hret, -⟩
            exact absurd hret (not_reads_of_extHeader hlen happlied (by rwa [hw.typeflag_eq]) hread)
          · rintro ⟨-, -, ⟨t', ht', hplain⟩, -⟩
            rw [Except.ok.inj (hw.typeFields.symm.trans ht'), hplain] at htype
            cases htype
      | false =>
          obtain ⟨mem, hreads⟩ := reads_stream renv happlied hw htype
          have hfields := hcur.fields_readHdr (fun a ha => (hok a ha).2) renv h mem
          rw [hw.fields_setFromTarHeader htype renv.db hretain mem
            { cur with cChksum := taruOtoul ((h.bytes ++ mem).drop 148) }
            hcur.pathMask hcur.linkMask hcur.link] at hfields
          constructor
          · rintro ⟨w, r, -, -, hread, -, -, hsame⟩
            rw [(hreads r).mp hread] at hsame
            exact ⟨hname, haccept, ⟨t, hw.typeFields, htype⟩, hfields.symm.trans hsame⟩
          · rintro ⟨-, -, -, hsame⟩
            exact ⟨_, _, rfl, show (0 : Int) < tarRecordSize by decide, (hreads _).mpr rfl, rfl,
              rfl, hfields.trans hsame⟩

end Record

end Swbis.Taru
