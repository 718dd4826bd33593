import Swbis.Misc.StrobSprintf
import Swbis.Taru.ExtHdrWrite

/-!
# Pax extended header records in their buffer

`construct_exthdr_record` formats the head of a record at an offset of the buffer, takes its
length from the NUL behind it, and copies the value and the newline behind the head.

`constructExthdrRecordAt_eq` says which bytes then stand at the offset.  There are as many as
the record says, but the end of a long head is lost when the buffer grows for the value
(`recordAt_eq_extRecord_iff`); a head of 129 bytes or less stays.

`write_exthdrs_xattr_records` puts one record behind the other.  If all heads stay, the buffer
holds what the writer of bytes appends (`writeExthdrsXattrRecordsAt_eq`), and if one does not,
they are not the records of any keywords without an equals sign (`recordsAt_eq_recordsOf_iff`).
-/

namespace Swbis.Taru

open CLib
open Misc (Strob)

/-! ## The code -/

/-- A number is rendered without a NUL. -/
theorem nul_not_mem_render (v : Nat) : (0 : UInt8) ∉ decimal.render v := by
  intro h
  have hdigit := decimal.isDigit_of_mem_render v 0 h
  exact absurd hdigit (by decide)

/-- `"%d %s="` -/
def exthdrHead (rlen : Nat) (keyword : CString) : CString where
  bytes := decimal.render rlen ++ 32 :: (keyword.bytes ++ [61])
  noNul := by
    have hkeyword := keyword.noNul
    simp [nul_not_mem_render, hkeyword]

/-- `construct_exthdr_record`, in the buffer. -/
def constructExthdrRecordAt (buf : Strob) (initialOffset : Nat) (keyword : CString)
    (value : Bytes) : Outcome (Nat × Strob) :=
  let rlen := 1 + keyword.strlen + value.length + 1 + 1
  match getIlen rlen with
  | none => .exited 120
  | some rlen => do
      let (_, buf) ← Misc.strobVsprintfAt buf initialOffset (exthdrHead rlen keyword)
      let s ← loadString buf.str initialOffset
      let ret := s.strlen
      let buf ← Misc.strobMemcpyAt buf (initialOffset + ret : Nat) value
      if ret + value.length + 1 ≠ rlen then .exited 121
      else do
        let buf ← Misc.strobMemcpyAt buf (initialOffset + rlen - 1 : Nat) [10]
        return (rlen, buf)

/-! ## The bytes of a record -/

/-- The head stays as it is: the buffer need not grow for the value, or the head ends in what is
in use. -/
def HeadStays (off size : Nat) (head : CString) (value : Bytes) : Prop :=
  off + head.strlen + value.length < Misc.sprintfSize (off + head.strlen) size ∨
    off + head.strlen ≤ Misc.sprintfLength (off + head.strlen) size
deriving Decidable

/-- The length of the record of a keyword and a value. -/
def extLength (keyword : CString) (value : Bytes) : Nat :=
  decimal.sizeWith (recordBody keyword value).length

/-- What stands in a buffer of so many bytes, at the offset, for a record of `n` bytes. -/
def recordAt (off size n : Nat) (keyword : CString) (value : Bytes) : Bytes :=
  let head := exthdrHead n keyword
  let stop := off + head.strlen
  (if stop + value.length < Misc.sprintfSize stop size then head.bytes
    else Misc.Strob.keptTo (Misc.sprintfLength stop size - off) head.bytes) ++ value ++ [10]

/-- The size of the buffer behind a record of `n` bytes. -/
def recordSize (off size n : Nat) (keyword : CString) (value : Bytes) : Nat :=
  let stop := off + (exthdrHead n keyword).strlen
  Misc.memcpySize (off + n) (Misc.memcpySize (stop + value.length) (Misc.sprintfSize stop size))

theorem strlen_exthdrHead (n : Nat) (keyword : CString) :
    (exthdrHead n keyword).strlen = (decimal.render n).length + keyword.strlen + 2 := by
  simp only [exthdrHead, CString.strlen, List.length_append, List.length_cons, List.length_nil]
  omega

theorem length_recordAt (off size n : Nat) (keyword : CString) (value : Bytes) :
    (recordAt off size n keyword value).length =
      (exthdrHead n keyword).strlen + value.length + 1 := by
  simp only [recordAt, List.length_append, List.length_singleton]
  split
  next => rfl
  next => rw [Misc.Strob.length_keptTo, CString.strlen]

/-- The sizes of the buffer are of type `int`. -/
theorem recordSize_lt {off size n : Nat} (hin : off < size) (hsize : size < 2 ^ 31)
    {keyword : CString} {value : Bytes}
    (hn : (exthdrHead n keyword).strlen + value.length < n) (hmax : off + n + 2 ^ 21 ≤ 2 ^ 31) :
    recordSize off size n keyword value < 2 ^ 31 := by
  have hsprintf := Misc.sprintfSize_le (off + (exthdrHead n keyword).strlen) size
    (by omega) (by omega)
  have hvalue := Misc.memcpySize_le (off + (exthdrHead n keyword).strlen + value.length)
    (Misc.sprintfSize (off + (exthdrHead n keyword).strlen) size)
  have hnewline := Misc.memcpySize_le (off + n)
    (Misc.memcpySize (off + (exthdrHead n keyword).strlen + value.length)
      (Misc.sprintfSize (off + (exthdrHead n keyword).strlen) size))
  rw [recordSize]
  omega

/-- A whole head is kept exactly when it is not cleared: it holds no NUL. -/
theorem keptTo_eq_iff {k : Nat} (s : CString) : Misc.Strob.keptTo k s.bytes = s.bytes ↔ s.strlen ≤ k := by
  refine ⟨fun h => Nat.le_of_not_lt fun hlt => s.noNul ?_, Misc.Strob.keptTo_of_le⟩
  obtain ⟨m, hm⟩ := Nat.exists_eq_add_of_lt hlt
  have hclear : s.bytes.length - k = m + 1 := by
    rw [CString.strlen] at hm
    omega
  rw [← h, Misc.Strob.keptTo, hclear]
  exact List.mem_append_right _ List.mem_cons_self

/-- The record is the one with the size in front exactly when its head stays. -/
theorem recordAt_eq_extRecord_iff {off size : Nat} (hin : off < size) (keyword : CString)
    (value : Bytes) :
    recordAt off size (extLength keyword value) keyword value = extRecord keyword value ↔
      HeadStays off size (exthdrHead (extLength keyword value) keyword) value := by
  have hrecord : extRecord keyword value =
      (exthdrHead (extLength keyword value) keyword).bytes ++ value ++ [10] := by
    simp [extRecord, Radix.selfSized, exthdrHead, recordBody, extLength]
  have hoff := Misc.size_le_sprintfLength
    (off + (exthdrHead (extLength keyword value) keyword).strlen) size
  rw [hrecord, recordAt, HeadStays, List.append_left_inj, List.append_left_inj]
  split
  next hfits => exact iff_of_true rfl (.inl hfits)
  next hgrows =>
    rw [keptTo_eq_iff, or_iff_right hgrows]
    omega

/-- A value of 400 bytes behind a keyword of 200. -/
example : ¬ HeadStays 0 16 (exthdrHead 606 ⟨List.replicate 200 97, by decide⟩)
    (List.replicate 400 98) := by decide +kernel

/-- The part of a head that is never lost. -/
theorem headStays_of_le {off size : Nat} (hin : off < size) {head : CString}
    (h : head.strlen ≤ 129) (value : Bytes) : HeadStays off size head value := by
  refine .inr ?_
  by_cases hfits : off + head.strlen < size
  · exact hfits.le.trans (Misc.size_le_sprintfLength _ size)
  · have hgrown := Misc.le_sprintfLength (Nat.le_of_not_lt hfits)
    omega

/-- The record is what is written to a buffer that has room for its offset. -/
theorem constructExthdrRecordAt_eq {buf : Strob} {off : Nat} (hin : off < buf.str.length)
    (hsize : buf.str.length < 2 ^ 31) (keyword : CString) (value : Bytes) (n : Nat)
    (hn : getIlen (1 + keyword.strlen + value.length + 1 + 1) = some n)
    (hfix : n = 1 + keyword.strlen + value.length + 1 + 1 + (decimal.render n).length)
    (hmax : off + n + 2 ^ 21 ≤ 2 ^ 31) :
    ∃ buf', constructExthdrRecordAt buf off keyword value = .returned (n, buf') ∧
      buf'.str.take (off + n) = buf.str.take off ++ recordAt off buf.str.length n keyword value ∧
      buf'.str.length = recordSize off buf.str.length n keyword value := by
  have hhead := strlen_exthdrHead n keyword
  have hstop : off + (exthdrHead n keyword).strlen + value.length + 1 = off + n := by omega
  generalize hs : off + (exthdrHead n keyword).strlen = stop at *
  have hsprintf := Misc.sprintfSize_le stop buf.str.length (by omega) (by omega)
  have hcopy := Misc.memcpySize_le (stop + value.length) (Misc.sprintfSize stop buf.str.length)
  have hstays := Misc.size_le_memcpySize (stop + value.length) (Misc.sprintfSize stop buf.str.length)
  have hroom := Misc.lt_memcpySize (stop + value.length) (Misc.sprintfSize stop buf.str.length)
  have hlength := Misc.sprintfLength_le stop buf.str.length
  have hoff := Misc.size_le_sprintfLength stop buf.str.length
  -- The head, and the NUL behind it.
  obtain ⟨buf₁, hturn, hformat⟩ := Misc.Strob.strobVsprintfAt_eq hin (exthdrHead n keyword)
    (by rw [hs]; omega)
  rw [hs] at hturn
  have hfits := Misc.lt_sprintfSize stop buf.str.length
  obtain ⟨spare, hstr⟩ := hturn.text_eq (by rw [hs]; exact hfits)
  have hfront : (buf.str.take off).length = off := List.length_take_of_le hin.le
  have hread := loadString_append (buf.str.take off) (exthdrHead n keyword) spare
  rw [← hstr, hfront] at hread
  have hbegin : buf₁.str.take stop = buf.str.take off ++ (exthdrHead n keyword).bytes := by
    rw [hstr, ← List.append_assoc, List.take_left']
    rw [List.length_append, hfront, ← hs, CString.strlen]
  -- The value.
  have hsize₁ := hturn.size_eq
  obtain ⟨buf₂, hvalue, hlen₂, hsize₂, htake₂⟩ := Misc.Strob.memcpyAt_eq hturn.length_eq
    (by omega) stop value (by omega) (by omega) (by omega)
  rw [hsize₁] at hsize₂ htake₂
  have hkeep : (buf.str.take off).length ≤ Misc.sprintfLength stop buf.str.length := by
    rw [hfront]
    omega
  rw [hbegin, Misc.Strob.keptTo_append hkeep, hfront, ← apply_ite (buf.str.take off ++ ·)] at htake₂
  -- The newline, which stands behind what is in use.
  obtain ⟨buf₃, hnewline, -, hsize₃, htake₃⟩ := Misc.Strob.memcpyAt_eq hlen₂
    (by omega) (stop + value.length) [10] (by omega)
    (by rw [List.length_singleton]; omega) (by omega)
  rw [Misc.Strob.keptTo_of_le ((List.length_take_le _ _).trans (Nat.le_max_right _ _)), ite_self, htake₂,
    List.length_singleton, hstop] at htake₃
  rw [List.length_singleton, hstop, hsize₂] at hsize₃
  refine ⟨buf₃, ?_, ?_, ?_⟩
  · have hret : (exthdrHead n keyword).strlen + value.length + 1 = n := by omega
    have hlast : off + n - 1 = stop + value.length := by omega
    simp -implicitDefEqProofs only [constructExthdrRecordAt, hn, hformat, Outcome.returned_bind,
      hread, hs, hvalue]
    rw [if_neg (not_not.mpr hret), hlast, hnewline]
    rfl
  · rw [htake₃, recordAt, hs, List.append_assoc, List.append_assoc, List.append_assoc]
  · rw [hsize₃, recordSize, hs]

/-! ## The length of a record -/

/-- More turns of the counting loop change nothing. -/
theorem divLoop_of_le {fuel r : Nat} (h : r ≤ fuel) : divLoop fuel r = divLoop r r :=
  Nat.succ_injective ((divLoop_eq fuel r h).trans (divLoop_eq r r (Nat.le_refl r)).symm)

/-- A record is not much longer than what it counts besides its own digits. -/
theorem sizeWith_le {rlen : Nat} (h : rlen < 2 ^ 31) : decimal.sizeWith rlen ≤ rlen + 11 := by
  have hsmall : (decimal.render rlen).length ≤ 9 + 1 := by
    rw [decimal.length_render_le_iff, decimal_base]
    omega
  have hguess := decimal.sizeWith_le rlen
  omega

/-- A number that counts its own digits, in the terms of its decimal digits. -/
theorem isLeast_digits {rlen : Nat} (hpos : 1 ≤ rlen) :
    IsLeast {m | m = rlen + (Nat.digits 10 m).length} (decimal.sizeWith rlen) := by
  have hset : {m | m = rlen + (Nat.digits 10 m).length} =
      {m | m = rlen + (decimal.render m).length} := by
    ext m
    by_cases hm : m = 0
    · subst hm
      exact iff_of_false (Nat.add_pos_left hpos _).ne (Nat.add_pos_left hpos _).ne
    · exact iff_of_eq (congrArg (fun l => m = rlen + l) (decimal.length_render_eq_digits hm).symm)
  rw [hset]
  exact decimal.isLeast_sizeWith rlen

/-- `get_ilen` finds the least length that counts its own digits, and the record has that
length. -/
theorem getIlen_record {rlen : Nat} (hpos : 1 ≤ rlen) (hmax : rlen ≤ 2 ^ 30) :
    ∃ n, getIlen rlen = some n ∧ IsLeast {m | m = rlen + (Nat.digits 10 m).length} n ∧
      (∀ r fuel, r ≤ fuel → divLoop fuel r = divLoop r r) ∧
      ∀ (keyword : CString) (value : Bytes), 1 + keyword.strlen + value.length + 1 + 1 = rlen →
        ∀ (buf : Strob) (off : Nat), off < buf.str.length → buf.str.length < 2 ^ 31 →
          off + rlen + 2 ^ 22 ≤ 2 ^ 31 →
          ∃ buf', constructExthdrRecordAt buf off keyword value = .returned (n, buf') ∧
            buf'.str.take (off + n) =
              buf.str.take off ++ recordAt off buf.str.length n keyword value ∧
            (recordAt off buf.str.length n keyword value).length = n ∧
            off + n < buf'.str.length ∧ buf'.str.length < 2 ^ 31 := by
  have hfix := decimal.sizeWith_eq rlen
  have hclose := sizeWith_le (show rlen < 2 ^ 31 by omega)
  refine ⟨decimal.sizeWith rlen, getIlen_eq (by omega), isLeast_digits hpos,
    fun r fuel h => divLoop_of_le h, fun keyword value hrlen buf off hin hsize hroom => ?_⟩
  obtain ⟨buf', hreturned, htake, hsize'⟩ := constructExthdrRecordAt_eq hin hsize keyword value
    (decimal.sizeWith rlen)
    (by rw [hrlen]; exact getIlen_eq (by omega)) (by rw [hrlen]; exact hfix) (by omega)
  have hlength := length_recordAt off buf.str.length (decimal.sizeWith rlen) keyword value
  rw [strlen_exthdrHead] at hlength
  refine ⟨buf', hreturned, htake, by omega, ?_, ?_⟩
  · rw [hsize', recordSize]
    exact Misc.lt_memcpySize _ _
  · rw [hsize']
    exact recordSize_lt hin hsize (by rw [strlen_exthdrHead]; omega) (by omega)

/-- `"8 uid=5\n"`, in a buffer that has just been opened. -/
theorem getIlen_record_uid :
    ∃ buf', constructExthdrRecordAt (Misc.strobOpen 16) 0 paxKwUid [53] = .returned (8, buf') ∧
      buf'.str.take 8 = [56, 32, 117, 105, 100, 61, 53, 10] := by
  obtain ⟨n, hn, -, -, hrecord⟩ := getIlen_record (show 1 ≤ 7 by decide) (by decide)
  have h8 : n = 8 := Option.some.inj (hn.symm.trans (by decide))
  subst h8
  obtain ⟨buf', hreturned, htake, -, -, -⟩ :=
    hrecord paxKwUid [53] (by decide) (Misc.strobOpen 16) 0 (by decide) (by decide) (by decide)
  exact ⟨buf', hreturned, htake.trans (by decide)⟩

/-! ## Records one after the other -/

/-- The records of keywords and values. -/
def recordsOf (kvs : List (CString × Bytes)) : Bytes :=
  (kvs.map fun p => extRecord p.1 p.2).flatten

/-- The keywords and values that the loop over the slots comes to. -/
def slotRecords : List Exatt → List (CString × Bytes)
  | [] => []
  | p :: ps =>
      if p.isInUse then (p.fqname, p.attrvalue.take p.len.toNat) :: slotRecords ps else []

/-- The loop of `write_exthdrs_xattr_records`, in the buffer. -/
def xattrRecordsAt : List Exatt → Strob → Nat → Outcome (Nat × Strob)
  | [], buf, dataLen => .returned (dataLen, buf)
  | p :: ps, buf, dataLen =>
      if p.isInUse then do
        let (ret, buf) ←
          constructExthdrRecordAt buf dataLen p.fqname (p.attrvalue.take p.len.toNat)
        xattrRecordsAt ps buf (dataLen + ret)
      else .returned (dataLen, buf)

/-- `write_exthdrs_xattr_records`, in the buffer. -/
def writeExthdrsXattrRecordsAt (buf : Strob) (hdr : FileHdr) (dataLen : Nat) :
    Outcome (Nat × Strob) :=
  xattrRecordsAt (hdr.extattlist.getD []) buf dataLen

/-- What stands in a buffer of so many bytes, from the offset on, for records. -/
def recordsAt : List (CString × Bytes) → Nat → Nat → Bytes
  | [], _, _ => []
  | (k, v) :: kvs, off, size =>
      recordAt off size (extLength k v) k v ++
        recordsAt kvs (off + extLength k v) (recordSize off size (extLength k v) k v)

/-- The heads of all records stay as they are. -/
def HeadsStay : List (CString × Bytes) → Nat → Nat → Prop
  | [], _, _ => True
  | (k, v) :: kvs, off, size =>
      HeadStays off size (exthdrHead (extLength k v) k) v ∧
        HeadsStay kvs (off + extLength k v) (recordSize off size (extLength k v) k v)

@[simp] theorem recordsOf_cons (k : CString) (v : Bytes) (kvs : List (CString × Bytes)) :
    recordsOf ((k, v) :: kvs) = extRecord k v ++ recordsOf kvs := rfl

@[simp] theorem length_extRecord (k : CString) (v : Bytes) :
    (extRecord k v).length = extLength k v := decimal.length_selfSized _

theorem lt_recordSize (off size n : Nat) (keyword : CString) (value : Bytes) :
    off + n < recordSize off size n keyword value :=
  Misc.lt_memcpySize _ _

/-- The length counts the head, the value and the newline. -/
theorem extLength_eq (k : CString) (v : Bytes) :
    (exthdrHead (extLength k v) k).strlen + v.length + 1 = extLength k v := by
  have hfix := decimal.sizeWith_eq (recordBody k v).length
  have hbody := length_recordBody k v
  rw [strlen_exthdrHead, extLength]
  omega

/-- One record. -/
theorem constructExthdrRecordAt_extLength {buf : Strob} {off : Nat} (hin : off < buf.str.length)
    (hsize : buf.str.length < 2 ^ 31) (k : CString) (v : Bytes)
    (hmax : off + extLength k v + 2 ^ 21 ≤ 2 ^ 31) :
    ∃ buf', constructExthdrRecordAt buf off k v = .returned (extLength k v, buf') ∧
      buf'.str.take (off + extLength k v) =
        buf.str.take off ++ recordAt off buf.str.length (extLength k v) k v ∧
      buf'.str.length = recordSize off buf.str.length (extLength k v) k v := by
  have hfix := decimal.sizeWith_eq (recordBody k v).length
  have hbody : 1 + k.strlen + v.length + 1 + 1 = (recordBody k v).length := by
    rw [length_recordBody]
    omega
  rw [extLength] at hmax ⊢
  refine constructExthdrRecordAt_eq hin hsize k v _ ?_ ?_ hmax
  · rw [hbody]
    exact getIlen_eq (by omega)
  · rw [hbody]
    exact hfix

/-- The loop writes the records behind each other. -/
theorem xattrRecordsAt_eq (ps : List Exatt) {buf : Strob} {off : Nat} (hin : off < buf.str.length)
    (hsize : buf.str.length < 2 ^ 31)
    (hmax : off + (recordsOf (slotRecords ps)).length + 2 ^ 21 ≤ 2 ^ 31) :
    ∃ buf', xattrRecordsAt ps buf off =
        .returned (off + (recordsOf (slotRecords ps)).length, buf') ∧
      buf'.str.take (off + (recordsOf (slotRecords ps)).length) =
        buf.str.take off ++ recordsAt (slotRecords ps) off buf.str.length := by
  induction ps generalizing buf off with
  | nil => exact ⟨buf, rfl, (List.append_nil _).symm⟩
  | cons p ps ih =>
      by_cases huse : p.isInUse = true
      · simp only [slotRecords, if_pos huse, recordsOf_cons, List.length_append, length_extRecord]
          at hmax ⊢
        generalize hv : p.attrvalue.take p.len.toNat = v at hmax ⊢
        obtain ⟨buf₁, hreturned, htake, hsize₁⟩ :=
          constructExthdrRecordAt_extLength hin hsize p.fqname v (by omega)
        have hin₁ : off + extLength p.fqname v < buf₁.str.length := by
          rw [hsize₁]
          exact lt_recordSize off buf.str.length (extLength p.fqname v) p.fqname v
        have hlt₁ : buf₁.str.length < 2 ^ 31 := by
          have hhead := extLength_eq p.fqname v
          rw [hsize₁]
          exact recordSize_lt hin hsize (by omega) (by omega)
        obtain ⟨buf', hrest, htake'⟩ := ih hin₁ hlt₁ (by omega)
        refine ⟨buf', ?_, ?_⟩
        · rw [xattrRecordsAt, if_pos huse, hv, hreturned]
          simp only [Outcome.returned_bind, hrest, Nat.add_assoc]
        · rw [← Nat.add_assoc, htake', htake, recordsAt, hsize₁, List.append_assoc]
      · simp only [slotRecords, if_neg huse, xattrRecordsAt]
        exact ⟨buf, rfl, (List.append_nil _).symm⟩

/-- Records whose heads stay are those with the size in front. -/
theorem recordsAt_of_headsStay {kvs : List (CString × Bytes)} {off size : Nat} (hin : off < size)
    (h : HeadsStay kvs off size) : recordsAt kvs off size = recordsOf kvs := by
  induction kvs generalizing off size with
  | nil => rfl
  | cons kv kvs ih =>
      obtain ⟨k, v⟩ := kv
      rw [recordsAt, recordsOf_cons, ih (lt_recordSize _ _ _ _ _) h.2,
        (recordAt_eq_extRecord_iff hin k v).mpr h.1]

/-- Short heads stay. -/
theorem headsStay_of_le {kvs : List (CString × Bytes)} {off size : Nat} (hin : off < size)
    (h : ∀ p ∈ kvs, (exthdrHead (extLength p.1 p.2) p.1).strlen ≤ 129) : HeadsStay kvs off size := by
  induction kvs generalizing off size with
  | nil => exact trivial
  | cons kv kvs ih =>
      obtain ⟨k, v⟩ := kv
      exact ⟨headStays_of_le hin (h (k, v) List.mem_cons_self) v,
        ih (lt_recordSize _ _ _ _ _) fun p hp => h p (List.mem_cons_of_mem _ hp)⟩

/-- The loop that appends bytes. -/
theorem xattrRecords_eq {ps : List Exatt}
    (hmax : (recordsOf (slotRecords ps)).length < 2 ^ 31) :
    xattrRecords ps = .returned (recordsOf (slotRecords ps)) := by
  induction ps with
  | nil => rfl
  | cons p ps ih =>
      by_cases huse : p.isInUse = true
      · simp only [slotRecords, if_pos huse, recordsOf_cons, List.length_append, length_extRecord]
          at hmax ⊢
        have hfix := extLength_eq p.fqname (p.attrvalue.take p.len.toNat)
        rw [strlen_exthdrHead] at hfix
        have hpos := decimal.length_render_pos
          (extLength p.fqname (p.attrvalue.take p.len.toNat))
        rw [xattrRecords, if_pos huse, constructExthdrRecord_eq (by omega), ih (by omega)]
        rfl
      · simp only [slotRecords, if_neg huse, xattrRecords]
        rfl

/-- The buffer comes to hold what the writer of bytes appends, if the heads stay. -/
theorem writeExthdrsXattrRecordsAt_eq {buf : Strob} (hin : 0 < buf.str.length)
    (hsize : buf.str.length < 2 ^ 31) {hdr : FileHdr} {rs : Bytes}
    (hrs : recordsOf (slotRecords (hdr.extattlist.getD [])) = rs)
    (hmax : rs.length + 2 ^ 21 ≤ 2 ^ 31)
    (hstay : HeadsStay (slotRecords (hdr.extattlist.getD [])) 0 buf.str.length) :
    writeExthdrsXattrRecords hdr = .returned rs ∧
      ∃ buf', writeExthdrsXattrRecordsAt buf hdr 0 = .returned (rs.length, buf') ∧
        buf'.str.take rs.length = rs := by
  subst hrs
  obtain ⟨buf', hreturned, htake⟩ := xattrRecordsAt_eq (hdr.extattlist.getD []) hin hsize
    (by omega)
  rw [recordsAt_of_headsStay hin hstay, Nat.zero_add] at htake
  rw [Nat.zero_add] at hreturned
  exact ⟨xattrRecords_eq (by omega), buf', hreturned, htake⟩

/-! ## What the records say -/

/-- The digits and the space of a record are not lost. -/
theorem recordAt_split {off size n : Nat} (hin : off < size)
    (hdigits : (decimal.render n).length ≤ 128) (k : CString) (v : Bytes) :
    ∃ kept, recordAt off size n k v =
        decimal.render n ++ 32 :: (Misc.Strob.keptTo kept (k.bytes ++ [61]) ++ (v ++ [10])) ∧
      (HeadStays off size (exthdrHead n k) v ∨ kept ≤ k.strlen) := by
  have hhead : (exthdrHead n k).bytes = (decimal.render n ++ [32]) ++ (k.bytes ++ [61]) := by
    rw [List.append_assoc]
    rfl
  by_cases hfits : off + (exthdrHead n k).strlen + v.length <
      Misc.sprintfSize (off + (exthdrHead n k).strlen) size
  · refine ⟨k.strlen + 1, ?_, .inl (.inl hfits)⟩
    rw [recordAt, if_pos hfits, hhead, Misc.Strob.keptTo_of_le (by simp [CString.strlen])]
    simp
  · have hfront : (decimal.render n ++ [32]).length = (decimal.render n).length + 1 := by
      rw [List.length_append, List.length_singleton]
    have hstrlen := strlen_exthdrHead n k
    have hkeep : (decimal.render n ++ [32]).length ≤
        Misc.sprintfLength (off + (exthdrHead n k).strlen) size - off := by
      by_cases hroom : off + (exthdrHead n k).strlen < size
      · have hlength := Misc.size_le_sprintfLength (off + (exthdrHead n k).strlen) size
        omega
      · have hgrown := Misc.le_sprintfLength (Nat.le_of_not_lt hroom)
        omega
    refine ⟨Misc.sprintfLength (off + (exthdrHead n k).strlen) size - off -
      ((decimal.render n).length + 1), ?_, ?_⟩
    · rw [recordAt, if_neg hfits, hhead, Misc.Strob.keptTo_append hkeep, hfront]
      simp
    · rw [HeadStays, or_iff_right hfits]
      omega

/-- What stands before the equals sign is the keyword. -/
theorem keyword_append_inj {k k' : CString} {mem mem' : Bytes} (hk : (61 : UInt8) ∉ k.bytes)
    (hk' : (61 : UInt8) ∉ k'.bytes) (h : k.bytes ++ 61 :: mem = k'.bytes ++ 61 :: mem') :
    k = k' ∧ mem = mem' := by
  have hplain : ∀ s : CString, (61 : UInt8) ∉ s.bytes → ∀ c ∈ s.bytes, (c != 61) = true := by
    intro s hs c hc
    rw [bne_iff_ne]
    exact fun he => hs (he ▸ hc)
  have hkey := congrArg (List.takeWhile (· != 61)) h
  rw [takeWhile_append_stop (hplain k hk) (by decide),
    takeWhile_append_stop (hplain k' hk') (by decide)] at hkey
  have heq : k = k' := CString.ext hkey
  subst heq
  exact ⟨rfl, (List.cons.inj (List.append_cancel_left h)).2⟩

/-- A keyword whose end is lost has a NUL before the equals sign. -/
theorem keptTo_ne_keyword {k k' : CString} {kept : Nat} {mem mem' : Bytes} (h : kept ≤ k.strlen)
    (hk : (61 : UInt8) ∉ k.bytes) (hk' : (61 : UInt8) ∉ k'.bytes) :
    Misc.Strob.keptTo kept (k.bytes ++ [61]) ++ mem ≠ k'.bytes ++ 61 :: mem' := by
  intro he
  have hplain : ∀ s : CString, (61 : UInt8) ∉ s.bytes → ∀ c ∈ s.bytes, (c != 61 && c != 0) = true := by
    intro s hs c hc
    rw [Bool.and_eq_true, bne_iff_ne, bne_iff_ne]
    exact ⟨fun he => hs (he ▸ hc), fun he => s.noNul (he ▸ hc)⟩
  obtain ⟨m, hm⟩ : ∃ m, (k.bytes ++ [61]).length - kept = m + 1 := by
    refine ⟨k.strlen - kept, ?_⟩
    rw [List.length_append, List.length_singleton, ← CString.strlen]
    omega
  have hlost : Misc.Strob.keptTo kept (k.bytes ++ [61]) ++ mem =
      (k.take kept).bytes ++ 0 :: (List.replicate m 0 ++ mem) := by
    rw [Misc.Strob.keptTo, hm, List.take_append_of_le_length h, List.replicate_succ,
      List.append_assoc, List.cons_append, CString.bytes_take]
  rw [hlost] at he
  have hrest := congrArg (List.dropWhile fun c : UInt8 => c != 61 && c != 0) he
  rw [dropWhile_append_stop (hplain _ fun hmem => hk (List.mem_of_mem_take hmem)) (by decide),
    dropWhile_append_stop (hplain k' hk') (by decide)] at hrest
  exact absurd (List.cons.inj hrest).1 (by decide)

/-- A record that reads as another one has the same keyword and value, and its head stays. -/
theorem recordAt_append_inj {off size : Nat} (hin : off < size) {k k' : CString} {v v' : Bytes}
    (hmax : extLength k v < 2 ^ 31) (hk : (61 : UInt8) ∉ k.bytes) (hk' : (61 : UInt8) ∉ k'.bytes)
    {mem mem' : Bytes}
    (h : recordAt off size (extLength k v) k v ++ mem = extRecord k' v' ++ mem') :
    HeadStays off size (exthdrHead (extLength k v) k) v ∧ k = k' ∧ v = v' ∧ mem = mem' := by
  by_cases hstays : HeadStays off size (exthdrHead (extLength k v) k) v
  · rw [(recordAt_eq_extRecord_iff hin k v).mpr hstays] at h
    obtain ⟨hbody, hmem⟩ := decimal.selfSized_append_inj (startsPlain_recordBody k v)
      (startsPlain_recordBody k' v') h
    obtain ⟨hkeyword, hvalue⟩ := keyword_append_inj hk hk' (List.cons.inj hbody).2
    exact ⟨hstays, hkeyword, List.append_cancel_right hvalue, hmem⟩
  · have hdigits : (decimal.render (extLength k v)).length ≤ 9 + 1 := by
      rw [decimal.length_render_le_iff, decimal_base]
      omega
    obtain ⟨kept, hsplit, hkept⟩ := recordAt_split hin
      (show (decimal.render (extLength k v)).length ≤ 128 by omega) k v
    have hother : extRecord k' v' = decimal.render (extLength k' v') ++
        32 :: (k'.bytes ++ 61 :: (v' ++ [10])) := rfl
    -- Both begin with the digits of one length.
    have hrun := congrArg decimal.run h
    rw [hsplit, hother, List.append_assoc, List.append_assoc, List.cons_append, List.cons_append,
      decimal.run_append_stop (decimal.isDigit_of_mem_render _) (by decide),
      decimal.run_append_stop (decimal.isDigit_of_mem_render _) (by decide)] at hrun
    have hlength : extLength k v = extLength k' v' := by
      have hvalue := congrArg decimal.value hrun
      rwa [decimal.value_render, decimal.value_render] at hvalue
    have hsame := length_recordAt off size (extLength k v) k v
    rw [extLength_eq] at hsame
    have hrecord := (List.append_inj h (by rw [hsame, length_extRecord, hlength])).1
    rw [hsplit, hother, hlength] at hrecord
    have hbody := (List.cons.inj (List.append_cancel_left hrecord)).2
    exact absurd hbody (keptTo_ne_keyword (hkept.resolve_left hstays) hk hk')

/-- Records that read as others have the same keywords and values, and their heads stay. -/
theorem recordsAt_eq_recordsOf_iff {kvs kvs' : List (CString × Bytes)} {off size : Nat}
    (hin : off < size) (hmax : (recordsOf kvs).length < 2 ^ 31)
    (hk : ∀ p ∈ kvs, (61 : UInt8) ∉ p.1.bytes) (hk' : ∀ p ∈ kvs', (61 : UInt8) ∉ p.1.bytes) :
    recordsAt kvs off size = recordsOf kvs' ↔ kvs = kvs' ∧ HeadsStay kvs off size := by
  constructor
  · intro h
    induction kvs generalizing kvs' off size with
    | nil =>
        cases kvs' with
        | nil => exact ⟨rfl, trivial⟩
        | cons p' kvs' =>
            have hcount := extLength_eq p'.1 p'.2
            have hlen := congrArg List.length h
            rw [recordsOf_cons, List.length_append, length_extRecord, recordsAt,
              List.length_nil] at hlen
            omega
    | cons p kvs ih =>
        obtain ⟨k, v⟩ := p
        rw [recordsOf_cons, List.length_append, length_extRecord] at hmax
        cases kvs' with
        | nil =>
            have hlen := congrArg List.length h
            rw [recordsAt, List.length_append, length_recordAt] at hlen
            exact absurd hlen (by simp [recordsOf])
        | cons p' kvs' =>
            obtain ⟨k', v'⟩ := p'
            rw [recordsAt, recordsOf_cons] at h
            obtain ⟨hstays, rfl, rfl, hrest⟩ := recordAt_append_inj hin
              (show extLength k v < 2 ^ 31 by omega) (hk (k, v) List.mem_cons_self)
              (hk' (k', v') List.mem_cons_self) h
            obtain ⟨rfl, hheads⟩ := ih (lt_recordSize _ _ _ _ _) (by omega)
              (fun q hq => hk q (List.mem_cons_of_mem _ hq))
              (fun q hq => hk' q (List.mem_cons_of_mem _ hq)) hrest
            exact ⟨rfl, hstays, hheads⟩
  · rintro ⟨rfl, hheads⟩
    exact recordsAt_of_headsStay hin hheads

end Swbis.Taru
