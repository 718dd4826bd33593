import Swbis.Taru.Header
import Swbis.Lib.Strtol
import Swbis.Misc.StrobStrtok

/-!
# Extended attributes

A file header owns a list of attribute slots.  A slot is taken by
`taru_exattlist_get_free`, which clears the first slot that is not in use, and
given back by `taru_exatt_override_ustar`, which moves the value of a POSIX
attribute into the file header.  Slots are never removed.

`taru_exatt_parse_fqname` splits a keyword at its dots into a vendor, a
namespace and a name.
-/

namespace Swbis.Taru

open CLib

/-! ## Slots -/

/-- `taru_exattlist_get_free` in a list: put an attribute into the first slot
that is not in use, or into a new one. -/
def putFree (new : Exatt) : List Exatt → List Exatt
  | [] => [new]
  | p :: ps => if p.isInUse then p :: putFree new ps else new :: ps

/-- `taru_exattlist_get_free`, which creates the list when there is none, and
what its caller stores in the slot. -/
def taruExattlistGetFree (new : Exatt) (extattlist : Option (List Exatt)) : Option (List Exatt) :=
  some (putFree new (extattlist.getD []))

/-- `taru_exattlist_init`: create the list when there is none.  The loop over
the slots is `p->is_in_useM == 0;`, a comparison, and changes nothing. -/
def taruExattlistInit (extattlist : Option (List Exatt)) : Option (List Exatt) :=
  some (extattlist.getD [])

/-- The slots in use. -/
def inUse (slots : List Exatt) : List Exatt := slots.filter (·.isInUse)

@[simp] theorem inUse_nil : inUse [] = [] := rfl

theorem inUse_cons (p : Exatt) (ps : List Exatt) :
    inUse (p :: ps) = if p.isInUse then p :: inUse ps else inUse ps := by
  rw [inUse, List.filter_cons]
  rfl

/-- A list whose slots are all in use grows at its end. -/
theorem putFree_of_all_inUse {slots : List Exatt} (h : ∀ p ∈ slots, p.isInUse = true)
    (new : Exatt) : putFree new slots = slots ++ [new] := by
  induction slots with
  | nil => rfl
  | cons p ps ih =>
      rw [putFree, if_pos (h p (by simp)), ih (fun q hq => h q (by simp [hq])), List.cons_append]

/-! ## Keywords -/

/-- The dot between the parts of a keyword. -/
def dot : UInt8 := 46

theorem dot_noNul : (0 : UInt8) ∉ [dot] := by decide

/-- `strob_strtok (tmp, NULL, ".")`: the next part and where the search goes on.
Empty parts are skipped. -/
def strobStrtok (tok : Bytes) : Option (Bytes × Bytes) :=
  let start := tok.dropWhile (· == dot)
  if start = [] then none
  else some (start.takeWhile (· != dot), (start.dropWhile (· != dot)).dropWhile (· == dot))

/-- It is the call on a block whose `tok_` is at the bytes `tok`. -/
theorem strobStrtok_call {buf : Misc.StrtokBuf} {tok : Bytes} (h : buf.Rest tok) :
    ∃ buf', buf.nextToken .null ⟨[dot], dot_noNul⟩ =
        .returned ((strobStrtok tok).map Prod.fst, buf') ∧
      buf'.Rest (((strobStrtok tok).map Prod.snd).getD []) := by
  have hdelim : Misc.isDelim ⟨[dot], dot_noNul⟩ = (· == dot) := by
    funext c
    rw [Misc.isDelim, List.contains_cons, List.contains_nil, Bool.or_false]
  have hcall : strtok (· == dot) tok = strobStrtok tok := by
    rw [strtok, strobStrtok]
    cases tok.dropWhile (· == dot) with
    | nil => rfl
    | cons c l => rfl
  rw [← hcall, ← hdelim]
  exact buf.nextToken_null _ h

/-- What `taru_exatt_parse_fqname` has seen so far. -/
structure FqnameState where
  hasPrefix : Bool := false
  hasNamespace : Bool := false
  hasName : Bool := false
  exatt : Exatt

/-- One turn of the loop of `taru_exatt_parse_fqname`, for a part that is not
empty; `none` is a part too many. -/
def parseFqnamePart (st : FqnameState) (s : CString) : Option FqnameState :=
  let upper := (s.bytes.head?.map isUpper).getD false
  if upper ∧ st.hasPrefix = false then
    some { st with hasPrefix := true, exatt := { st.exatt with vendor := s.take 99 } }
  else if upper = false ∧ st.hasNamespace = false then
    some { st with hasNamespace := true, exatt := { st.exatt with namespaceName := s.take 99 } }
  else if upper = false ∧ st.hasName = false then
    some { st with hasName := true, exatt := { st.exatt with attrname := s } }
  else none

/-- The loop of `taru_exatt_parse_fqname`: the last state, and whether every
part found its place. -/
def parseFqnameLoop : Nat → FqnameState → Bytes → FqnameState × Bool
  | 0, st, _ => (st, true)
  | n + 1, st, tok =>
      match strobStrtok tok with
      | none => (st, true)
      | some (s, tok) =>
          match parseFqnamePart st (.ofMem s) with
          | none => (st, false)
          | some st => parseFqnameLoop n st tok

/-- `taru_exatt_parse_fqname`: the slot and whether it succeeded.  A keyword of
one lower case part is a POSIX attribute, with a name only. -/
def taruExattParseFqname (exatt : Exatt) (attr : CString) : Exatt × Bool :=
  let exatt := { exatt with vendor := .empty, namespaceName := .empty, attrname := .empty }
  let (st, ok) := parseFqnameLoop attr.strlen { exatt := exatt } attr.bytes
  if st.hasNamespace ∧ st.hasName = false ∧ st.hasPrefix = false then
    ({ st.exatt with attrname := st.exatt.namespaceName, namespaceName := .empty }, ok)
  else (st.exatt, ok)

/-! ## The override -/

def paxKwPath : CString := ⟨chars ['p', 'a', 't', 'h'], by decide⟩

def paxKwLinkpath : CString := ⟨chars ['l', 'i', 'n', 'k', 'p', 'a', 't', 'h'], by decide⟩

def paxKwGname : CString := ⟨chars ['g', 'n', 'a', 'm', 'e'], by decide⟩

def paxKwUname : CString := ⟨chars ['u', 'n', 'a', 'm', 'e'], by decide⟩

def paxKwAtime : CString := ⟨chars ['a', 't', 'i', 'm', 'e'], by decide⟩

def paxKwMtime : CString := ⟨chars ['m', 't', 'i', 'm', 'e'], by decide⟩

def paxKwCtime : CString := ⟨chars ['c', 't', 'i', 'm', 'e'], by decide⟩

def paxKwGid : CString := ⟨chars ['g', 'i', 'd'], by decide⟩

def paxKwUid : CString := ⟨chars ['u', 'i', 'd'], by decide⟩

def paxKwSize : CString := ⟨chars ['s', 'i', 'z', 'e'], by decide⟩

/-- `swlib_atoul`: the value, or none on an error, the memory after it, and
whether `errno` is `ERANGE` afterwards.  The largest value is taken for an
overflow when `errno` was left at `ERANGE` by an earlier call. -/
def swlibAtoul (erange : Bool) (s : Bytes) : Option UInt64 × Bytes × Bool :=
  let (ret, overflow, rest) := strtoul s
  let erange := erange || overflow
  if ret = 18446744073709551615 ∧ erange then (none, rest, erange) else (some ret, rest, erange)

/-- `set_unsigned_long_value`: the value, the nanoseconds if there is a fraction
that is right, and `errno`. -/
def setUnsignedLongValue (erange : Bool) (value : CString) : UInt64 × UInt64 × Bool :=
  match swlibAtoul erange value.bytes with
  | (none, _, erange) => (0, 0, erange)
  | (some ret, 46 :: rest, erange) =>
      let (nsec, _, erange') := swlibAtoul erange rest
      (ret, nsec.getD 0, erange')
  | (some ret, _, erange) => (ret, 0, erange)

/-- The same without a place for nanoseconds. -/
def setUnsignedLong (erange : Bool) (value : CString) : UInt64 × Bool :=
  let (ret, _, erange) := swlibAtoul erange value.bytes
  (ret.getD 0, erange)

/-- Whether `taru_exatt_override_ustar` takes a slot for a POSIX attribute. -/
def Exatt.isPosix (p : Exatt) : Bool :=
  p.namespaceName.strlen == 0 && (p.attrname.bytes.head?.map isLower).getD false

/-- The file header after the value of a POSIX attribute has been moved into
it; `none` is a name that is not known.  A size is stored in `c_uid`. -/
def overrideField (erange : Bool) (hdr : FileHdr) (attr value : CString) : Option (FileHdr × Bool) :=
  let mask := hdr.extHeaderUsageMask
  if attr = paxKwPath then
    some ({ hdr with cName := value, extHeaderUsageMask := { mask with path := true } }, erange)
  else if attr = paxKwLinkpath then
    some ({ hdr with
      cTarLinkname := value, extHeaderUsageMask := { mask with linkpath := true } }, erange)
  else if attr = paxKwGname then
    some ({ hdr with
      cGroupname := value, extHeaderUsageMask := { mask with gname := true } }, erange)
  else if attr = paxKwUname then
    some ({ hdr with
      cUsername := value, extHeaderUsageMask := { mask with uname := true } }, erange)
  else if attr = paxKwAtime then
    let (sec, nsec, erange) := setUnsignedLongValue erange value
    some ({ hdr with
      cAtime := sec, cAtimeNsec := nsec, extHeaderUsageMask := { mask with atime := true } }, erange)
  else if attr = paxKwMtime then
    let (ret, erange) := setUnsignedLong erange value
    some ({ hdr with cMtime := ret, extHeaderUsageMask := { mask with mtime := true } }, erange)
  else if attr = paxKwCtime then
    let (sec, nsec, erange) := setUnsignedLongValue erange value
    some ({ hdr with
      cCtime := sec, cCtimeNsec := nsec, extHeaderUsageMask := { mask with ctime := true } }, erange)
  else if attr = paxKwGid then
    let (ret, erange) := setUnsignedLong erange value
    some ({ hdr with cGid := ret, extHeaderUsageMask := { mask with gid := true } }, erange)
  else if attr = paxKwUid then
    let (ret, erange) := setUnsignedLong erange value
    some ({ hdr with cUid := ret, extHeaderUsageMask := { mask with uid := true } }, erange)
  else if attr = paxKwSize then
    let (ret, erange) := setUnsignedLong erange value
    some ({ hdr with cUid := ret, extHeaderUsageMask := { mask with size := true } }, erange)
  else none

/-- `taru_exatt_override_ustar`: a POSIX attribute is moved into the file header
and its slot is given back, any other slot is left alone.  Whether the slot was
in use is not looked at. -/
def taruExattOverrideUstar (erange : Bool) (hdr : FileHdr) (exatt : Exatt) :
    FileHdr × Exatt × Bool :=
  if exatt.isPosix then
    match overrideField erange hdr exatt.attrname (.ofMem exatt.attrvalue) with
    | some (hdr, erange) => (hdr, { exatt with isInUse := false }, erange)
    | none => (hdr, { exatt with isInUse := true }, erange)
  else (hdr, exatt, erange)

/-- The loop of `taru_read_in_tar_header2` over all slots. -/
def overrideAll (erange : Bool) (hdr : FileHdr) : List Exatt → FileHdr × List Exatt × Bool
  | [] => (hdr, [], erange)
  | p :: ps =>
      let (hdr, p, erange) := taruExattOverrideUstar erange hdr p
      let (hdr, ps, erange) := overrideAll erange hdr ps
      (hdr, p :: ps, erange)

/-- A slot that holds no POSIX attribute is not touched. -/
theorem taruExattOverrideUstar_of_not_posix {p : Exatt} (h : p.isPosix = false) (erange : Bool)
    (hdr : FileHdr) : taruExattOverrideUstar erange hdr p = (hdr, p, erange) := by
  simp [taruExattOverrideUstar, h]

/-- Slots without POSIX attributes are not touched. -/
theorem overrideAll_of_not_posix {slots : List Exatt} (h : ∀ p ∈ slots, p.isPosix = false)
    (erange : Bool) (hdr : FileHdr) : overrideAll erange hdr slots = (hdr, slots, erange) := by
  induction slots with
  | nil => rfl
  | cons p ps ih =>
      rw [overrideAll, taruExattOverrideUstar_of_not_posix (h p (by simp))]
      simp only [ih (fun q hq => h q (by simp [hq]))]

theorem overrideAll_append (erange : Bool) (hdr : FileHdr) (xs ys : List Exatt) :
    overrideAll erange hdr (xs ++ ys) =
      (let (hdr, xs, erange) := overrideAll erange hdr xs
       let (hdr, ys, erange) := overrideAll erange hdr ys
       (hdr, xs ++ ys, erange)) := by
  induction xs generalizing erange hdr with
  | nil => rfl
  | cons x xs ih => simp only [List.cons_append, overrideAll, ih]

end Swbis.Taru
