import Swbis.Taru.Exatt
import Swbis.Lib.SelfSized
import Swbis.Lib.Outcome

/-!
# Writing pax extended header records

`construct_exthdr_record` writes one record, with a length prefix that counts
its own digits; `get_ilen` finds it by trying.  `write_exthdrs_ustar_records`
writes a record for every field that does not fit the ustar header and puts a
value that fits in its place, and `write_exthdrs_xattr_records` writes the
attribute slots up to the first one that is not in use.

`constructExthdrRecord_eq` says that the record written is the self-sized
record of its body, so that neither internal error exit is ever taken.
-/

namespace Swbis.Taru

open CLib

/-! ## The length of a record -/

/-- The loop `while (r / 10 >= 1) { i++; r = r / 10; }`, for at most `fuel`
turns. -/
def divLoop : Nat → Nat → Nat
  | 0, _ => 0
  | fuel + 1, r => if 1 ≤ r / 10 then divLoop fuel (r / 10) + 1 else 0

/-- The number of digits that `get_ilen` counts. -/
def countDigits (r : Nat) : Nat := divLoop r r + 1

/-- The second loop of `get_ilen`, from the guess `i` on. -/
def ilenLoop (rlen : Nat) : Nat → Nat → Option Nat
  | 0, _ => none
  | fuel + 1, i => if i = countDigits (rlen + i) then some (i + rlen) else ilenLoop rlen fuel (i + 1)

/-- `get_ilen`; none is the return value -1. -/
def getIlen (rlen : Nat) : Option Nat := ilenLoop rlen (99 - countDigits rlen) (countDigits rlen)

theorem divLoop_eq (fuel r : Nat) (h : r ≤ fuel) :
    divLoop fuel r + 1 = (decimal.render r).length := by
  induction fuel generalizing r with
  | zero =>
      have : r = 0 := by omega
      rw [this]
      rfl
  | succ fuel ih =>
      rw [divLoop, decimal.length_render, decimal_base]
      by_cases hr : r < 10
      · rw [if_neg (by omega), if_pos hr]
      · rw [if_pos (by omega), if_neg hr, ih (r / 10) (by omega)]

theorem countDigits_eq (r : Nat) : countDigits r = (decimal.render r).length :=
  divLoop_eq r r (Nat.le_refl r)

/-- The loop finds the size of the record at the first or second guess. -/
theorem getIlen_eq {rlen : Nat} (h : rlen < 2 ^ 31) : getIlen rlen = some (decimal.sizeWith rlen) := by
  have hsmall : (decimal.render rlen).length ≤ 9 + 1 := by
    rw [decimal.length_render_le_iff, decimal_base]
    omega
  obtain ⟨fuel, hfuel⟩ : ∃ k, 99 - (decimal.render rlen).length = k + 2 :=
    ⟨97 - (decimal.render rlen).length, by omega⟩
  rw [getIlen, countDigits_eq, hfuel, ilenLoop, countDigits_eq]
  simp only [Radix.sizeWith]
  by_cases hfirst : (decimal.render (rlen + (decimal.render rlen).length)).length =
      (decimal.render rlen).length
  · rw [if_pos hfirst.symm, if_pos hfirst, Nat.add_comm]
  · have hfix := decimal.sizeWith_eq rlen
    simp only [Radix.sizeWith, if_neg hfirst] at hfix
    have hsecond : (decimal.render rlen).length + 1 =
        countDigits (rlen + ((decimal.render rlen).length + 1)) := by
      rw [countDigits_eq, ← Nat.add_assoc]
      omega
    rw [if_neg (fun he => hfirst he.symm), if_neg hfirst, ilenLoop, if_pos hsecond]
    congr 1
    omega

/-! ## One record -/

/-- What follows the length prefix: `" %s=%s\n"`. -/
def recordBody (keyword : CString) (value : Bytes) : Bytes :=
  32 :: (keyword.bytes ++ 61 :: (value ++ [10]))

/-- `construct_exthdr_record`: the bytes that are put at the end of the
buffer, as long as the buffer keeps the head. -/
def constructExthdrRecord (keyword : CString) (value : Bytes) : Outcome Bytes :=
  let rlen := 1 + keyword.strlen + value.length + 1 + 1
  match getIlen rlen with
  | none => .exited 120
  | some rlen =>
      let head := decimal.render rlen ++ 32 :: (keyword.bytes ++ [61])
      if head.length + value.length + 1 ≠ rlen then .exited 121
      else .returned (head ++ value ++ [10])

/-- The record that is written for a keyword and a value. -/
def extRecord (keyword : CString) (value : Bytes) : Bytes :=
  decimal.selfSized (recordBody keyword value)

theorem length_recordBody (keyword : CString) (value : Bytes) :
    (recordBody keyword value).length = keyword.strlen + value.length + 3 := by
  simp [recordBody, CString.strlen]
  omega

/-- The record that is written counts its own bytes. -/
theorem constructExthdrRecord_eq {keyword : CString} {value : Bytes}
    (h : keyword.strlen + value.length + 3 < 2 ^ 31) :
    constructExthdrRecord keyword value = .returned (extRecord keyword value) := by
  have hk : 1 + keyword.strlen + value.length + 1 + 1 = (recordBody keyword value).length := by
    rw [length_recordBody]
    omega
  have hfix := decimal.sizeWith_eq (recordBody keyword value).length
  rw [constructExthdrRecord, hk]
  simp only [getIlen_eq (show (recordBody keyword value).length < 2 ^ 31 by rwa [length_recordBody])]
  rw [if_neg]
  · simp [extRecord, Radix.selfSized, recordBody]
  · rw [length_recordBody] at hfix ⊢
    simp only [List.length_append, List.length_cons, List.length_nil, ne_eq, Decidable.not_not]
    simp only [CString.strlen] at hfix ⊢
    omega

theorem startsPlain_recordBody (keyword : CString) (value : Bytes) :
    decimal.StartsPlain (recordBody keyword value) := ⟨32, _, rfl, by decide⟩

/-! ## The attribute slots -/

/-- The keyword that is written for a slot, `"%s%s%s%s%s"`. -/
def Exatt.fqname (p : Exatt) : CString :=
  let sep (part : CString) : CString :=
    if part.strlen = 0 then .empty else part.append ⟨[dot], dot_noNul⟩
  (sep p.vendor).append ((sep p.namespaceName).append p.attrname)

/-- The loop of `write_exthdrs_xattr_records`. -/
def xattrRecords : List Exatt → Outcome Bytes
  | [] => .returned []
  | p :: ps =>
      if p.isInUse then do
        let r ← constructExthdrRecord p.fqname (p.attrvalue.take p.len.toNat)
        let rs ← xattrRecords ps
        return r ++ rs
      else .returned []

/-- `write_exthdrs_xattr_records`: the records that are put at the end of the
buffer, as long as it keeps their heads. -/
def writeExthdrsXattrRecords (hdr : FileHdr) : Outcome Bytes :=
  xattrRecords (hdr.extattlist.getD [])

/-! ## The ustar fields -/

def paxKwSwbisDevmajor : CString :=
  ⟨chars ['S', 'W', 'B', 'I', 'S', '.', 'd', 'e', 'v', 'm', 'a', 'j', 'o', 'r'], by decide⟩

def paxKwSwbisDevminor : CString :=
  ⟨chars ['S', 'W', 'B', 'I', 'S', '.', 'd', 'e', 'v', 'm', 'i', 'n', 'o', 'r'], by decide⟩

/-- `"%lu"`. -/
def sprintfLu (v : UInt64) : Bytes := decimal.render v.toNat

/-- One field of `write_exthdrs_ustar_records`: its record and the header with
the value replaced, if the field needs one. -/
def needsRecord (needed : Bool) (keyword : CString) (value : Bytes) (hdr hdr' : FileHdr) :
    Outcome (Bytes × FileHdr) := do
  if needed then
    let r ← constructExthdrRecord keyword value
    return (r, hdr')
  else return ([], hdr)

/-- `write_exthdrs_ustar_records`: the records, and the header whose values fit.
The placeholder for the group id is stored in `c_uid`. -/
def writeExthdrsUstarRecords (hdr : FileHdr) : Outcome (Bytes × FileHdr) := do
  let need := hdr.extHeaderNeedsMask
  let (r1, hdr) ← needsRecord need.linkpath paxKwLinkpath hdr.cTarLinkname.bytes hdr
    { hdr with cTarLinkname := hdr.cTarLinkname.take tarNameSize }
  let (r2, hdr) ← needsRecord need.path paxKwPath hdr.cName.bytes hdr
    { hdr with cName := hdr.cName.take tarNameSize }
  let (r3, hdr) ← needsRecord need.size paxKwSize (sprintfLu hdr.cFilesize) hdr
    { hdr with cFilesize := UInt64.ofNat tarMaxSize }
  let (r4, hdr) ← needsRecord need.uid paxKwUid (sprintfLu hdr.cUid) hdr
    { hdr with cUid := UInt64.ofNat tarMaxUid }
  let (r5, hdr) ← needsRecord need.gid paxKwGid (sprintfLu hdr.cGid) hdr
    { hdr with cUid := UInt64.ofNat tarMaxGid }
  let (r6, hdr) ← needsRecord need.uname paxKwUname hdr.cUsername.bytes hdr
    { hdr with cUsername := hdr.cUsername.take (snameLen - 1) }
  let (r7, hdr) ← needsRecord need.gname paxKwGname hdr.cGroupname.bytes hdr
    { hdr with cGroupname := hdr.cGroupname.take (snameLen - 1) }
  let (r8, hdr) ← needsRecord need.devMaj paxKwSwbisDevmajor (sprintfLu hdr.cDevMaj) hdr
    { hdr with cDevMaj := UInt64.ofNat tarMaxDevice }
  let (r9, hdr) ← needsRecord need.devMin paxKwSwbisDevminor (sprintfLu hdr.cDevMin) hdr
    { hdr with cDevMin := UInt64.ofNat tarMaxDevice }
  return (r1 ++ r2 ++ r3 ++ r4 ++ r5 ++ r6 ++ r7 ++ r8 ++ r9, hdr)

end Swbis.Taru
