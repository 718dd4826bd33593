import Swbis.Taru.Exatt
import Swbis.Lib.Outcome

/-!
# Reading pax extended header records

A pax data block is a sequence of records `<length> <keyword>=<value>\n`.
`scanExtHeaderRecord` finds the parts of a record the way
`taru_read_ext_header_record` does, `taruReadExtHeaderRecord` puts them into a
slot, and `taruReadAllExtHeaderRecords` does this until the offset has passed
the length of the block.

The reader trusts the length prefix.  It does not look at the newline, it takes
any white space, a sign and leading zeros, and it does not compare the length
with the end of the block.  It passes an error up as the negated number of the
records before it, which is no error when there are none.  `LaxRecord` says
which records the reader accepts, `WellFormedRecord` which ones the format
allows, and `strictParsing_iff` when the reader is strict.
-/

namespace Swbis.Taru

open CLib

/-! ## One record -/

/-- Where the parts of a record are, from its first byte. -/
structure ExtRecordSpan where
  /-- The first byte of the keyword. -/
  attrOff : Nat
  /-- The length of the keyword. -/
  attrLen : Nat
  /-- The length of the value. -/
  valueLen : Nat
deriving DecidableEq

namespace ExtRecordSpan

/-- The first byte of the value. -/
def valueOff (s : ExtRecordSpan) : Nat := s.attrOff + s.attrLen + 1

/-- The first byte after the record. -/
def total (s : ExtRecordSpan) : Nat := s.valueOff + s.valueLen + 1

/-- The keyword. -/
def attr (s : ExtRecordSpan) (data : Bytes) : CString :=
  .ofMem ((data.drop s.attrOff).take s.attrLen)

/-- The value. -/
def value (s : ExtRecordSpan) (data : Bytes) : Bytes := (data.drop s.valueOff).take s.valueLen

theorem total_pos (s : ExtRecordSpan) : 0 < s.total := Nat.succ_pos _

end ExtRecordSpan

/-- The end of a keyword: an equals sign, or the end of the string that
`strchr` searches. -/
def isAttrByte (b : UInt8) : Bool := b != 61 && b != 0

/-- The length of the value, computed in `int`: what the length prefix leaves
behind the keyword and its equals sign, less the newline. -/
def intValueLen (len : Int) (valueOff : Nat) : Int := toCInt (toCInt len - toCInt valueOff - 1)

/-- The first part of `taru_read_ext_header_record`: where the parts of the
record are, or the error code. -/
def scanExtHeaderRecord (data : Bytes) : Except Int ExtRecordSpan :=
  let (len, pend) := strtol data
  match pend with
  | [] => .error (-1)
  | c :: pos =>
      if isSpace c then
        let attrOff := data.length - pos.length
        let attr := pos.takeWhile isAttrByte
        if (pos.drop attr.length).head? = some 61 then
          let valuelen := intValueLen len (attrOff + attr.length + 1)
          if valuelen < 0 then .error (-4) else .ok ⟨attrOff, attr.length, valuelen.toNat⟩
        else .error (-2)
      else .error (-1)

/-- The slot that `taru_exatt_parse_fqname` fills for a keyword, and whether
the keyword is accepted. -/
def parsedExatt (attr : CString) : Exatt × Bool := taruExattParseFqname taruExattInit attr

/-- A keyword that `taru_exatt_parse_fqname` accepts. -/
def KeywordOk (attr : CString) : Prop := (parsedExatt attr).2 = true

instance (attr : CString) : Decidable (KeywordOk attr) := inferInstanceAs (Decidable (_ = _))

/-- What reading one record does. -/
structure ReadRecord where
  /-- The slots afterwards. -/
  extattlist : Option (List Exatt)
  /-- The ranges of bytes of the record that were copied into a slot. -/
  taken : List (Nat × Nat)
  /-- The length of the record, or the error code. -/
  result : Except Int Nat

/-- The slot of a record that is accepted. -/
def ExtRecordSpan.exatt (s : ExtRecordSpan) (data : Bytes) : Exatt :=
  { (parsedExatt (s.attr data)).1 with
    attrvalue := s.value data, len := s.valueLen, isInUse := true }

/-- The range of the keyword. -/
def ExtRecordSpan.attrRange (s : ExtRecordSpan) : Nat × Nat := (s.attrOff, s.attrOff + s.attrLen)

/-- The range of the value. -/
def ExtRecordSpan.valueRange (s : ExtRecordSpan) : Nat × Nat :=
  (s.valueOff, s.valueOff + s.valueLen)

/-- `taru_read_ext_header_record`.  The value is copied from wherever the
length prefix says it ends. -/
def taruReadExtHeaderRecord (extattlist : Option (List Exatt)) (data : Bytes) :
    Outcome ReadRecord :=
  match scanExtHeaderRecord data with
  | .error code => .returned ⟨extattlist, [], .error code⟩
  | .ok s =>
      if KeywordOk (s.attr data) then
        if s.valueOff + s.valueLen ≤ data.length then
          .returned ⟨taruExattlistGetFree (s.exatt data) extattlist,
            [s.attrRange, s.valueRange], .ok s.total⟩
        else .fault
      else
        .returned ⟨taruExattlistGetFree (parsedExatt (s.attr data)).1 extattlist,
          [s.attrRange], .error (-5)⟩

/-! ## All records -/

/-- What reading all records does. -/
structure ReadAll where
  /-- The slots afterwards. -/
  extattlist : Option (List Exatt)
  /-- The ranges of bytes of the block that were copied into a slot. -/
  taken : List (Nat × Nat)
  /-- The return value. -/
  ret : Int
  /-- `*errorcode`, if it was set. -/
  errorcode : Option Int

/-- A range moved by an offset. -/
def shiftRange (off : Nat) (r : Nat × Nat) : Nat × Nat := (off + r.1, off + r.2)

/-- The loop of `taru_read_all_ext_header_records`, at `off` with `num` records
behind it.  Every record is at least one byte long, so the loop turns at most
`len` times. -/
def readAllFrom (data : Bytes) (len : Int) :
    Nat → Option (List Exatt) → List (Nat × Nat) → Nat → Nat → Outcome ReadAll
  | 0, extattlist, taken, _, num => .returned ⟨extattlist, taken, num, none⟩
  | fuel + 1, extattlist, taken, off, num =>
      if (off : Int) < len then do
        let r ← taruReadExtHeaderRecord extattlist (data.drop off)
        let taken := taken ++ r.taken.map (shiftRange off)
        match r.result with
        | .error code => .returned ⟨r.extattlist, taken, -num, some code⟩
        | .ok total => readAllFrom data len fuel r.extattlist taken (off + total) (num + 1)
      else .returned ⟨extattlist, taken, num, none⟩

/-- `taru_read_all_ext_header_records`, which also sets the `ANY` bit of the
usage mask. -/
def taruReadAllExtHeaderRecords (hdr : FileHdr) (data : Bytes) (len : Int32) :
    Outcome (FileHdr × ReadAll) := do
  let mask := { hdr.extHeaderUsageMask with any := true }
  let r ← readAllFrom data len.toInt len.toInt.toNat hdr.extattlist [] 0 0
  return ({ hdr with extHeaderUsageMask := mask, extattlist := r.extattlist }, r)

/-! ## The records of the format, and the records the reader accepts -/

/-- A record whose length prefix is the number of its bytes. -/
def WellFormedRecord (r : Bytes) : Prop :=
  ∃ ds kw v : Bytes, ds ≠ [] ∧ (∀ d ∈ ds, decimal.isDigit d = true) ∧
    decimal.value ds = r.length ∧ (61 : UInt8) ∉ kw ∧ r = ds ++ 32 :: (kw ++ 61 :: (v ++ [10]))

/-- The concatenation of `n` records. -/
def RecordSequence (l : Bytes) (n : Nat) : Prop :=
  ∃ rs : List Bytes, rs.length = n ∧ (∀ r ∈ rs, WellFormedRecord r) ∧ rs.flatten = l

/-- What the reader accepts: a number, one white space character, bytes up to
an equals sign, and a number that leaves room for a value, or that is so far
below zero that the difference wraps.  Nothing is said about the byte after the
value. -/
structure LaxRecord (data : Bytes) (s : ExtRecordSpan) : Prop where
  prefixed : ∃ n c pos, strtol data = (n, c :: pos) ∧ isSpace c = true ∧
    s.attrOff = data.length - pos.length ∧
    (∀ b ∈ pos.take s.attrLen, isAttrByte b = true) ∧ pos[s.attrLen]? = some 61 ∧
    intValueLen n s.valueOff = s.valueLen

/-- A number that is the length of its record leaves the length of the value. -/
theorem intValueLen_total {s : ExtRecordSpan} (h : s.total < 2 ^ 31) :
    intValueLen s.total s.valueOff = s.valueLen := by
  have hoff : s.valueOff < 2 ^ 31 := by
    simp only [ExtRecordSpan.total] at h
    omega
  rw [intValueLen, toCInt_of_lt h, toCInt_of_lt hoff]
  have hvalue : (s.total : Int) - s.valueOff - 1 = s.valueLen := by
    simp only [ExtRecordSpan.total]
    omega
  rw [hvalue]
  refine toCInt_of_lt ?_
  simp only [ExtRecordSpan.total] at h
  omega

/-- The keyword ends at the first equals sign. -/
theorem takeWhile_isAttrByte {pos : Bytes} {n : Nat}
    (hkw : ∀ b ∈ pos.take n, isAttrByte b = true) (heq : pos[n]? = some 61) :
    pos.takeWhile isAttrByte = pos.take n := by
  obtain ⟨hlt, hget⟩ := List.getElem?_eq_some_iff.mp heq
  have hpos : pos = pos.take n ++ 61 :: pos.drop (n + 1) := by
    rw [← hget, ← List.drop_eq_getElem_cons hlt, List.take_append_drop]
  have h := takeWhile_append_stop hkw (show isAttrByte 61 = false by decide) (pos.drop (n + 1))
  rw [← hpos] at h
  exact h

/-- The scan finds exactly the records that the reader accepts. -/
theorem scanExtHeaderRecord_eq_ok_iff {data : Bytes} {s : ExtRecordSpan} :
    scanExtHeaderRecord data = .ok s ↔ LaxRecord data s := by
  constructor
  · intro h
    rw [scanExtHeaderRecord] at h
    rcases hs : strtol data with ⟨n, pend⟩
    rw [hs] at h
    cases pend with
    | nil => cases h
    | cons c pos =>
        simp only at h
        split at h
        · next hsp =>
            split at h
            · next heq =>
                split at h
                · cases h
                · next hlen =>
                    cases h
                    refine ⟨n, c, pos, hs, hsp, rfl, ?_, ?_, ?_⟩
                    · intro b hb
                      have htake : pos.take (pos.takeWhile isAttrByte).length =
                          pos.takeWhile isAttrByte :=
                        (List.prefix_iff_eq_take.mp (List.takeWhile_prefix _)).symm
                      rw [htake] at hb
                      exact List.mem_takeWhile_imp hb
                    · rw [List.head?_drop] at heq
                      exact heq
                    · exact (Int.toNat_of_nonneg (Int.not_lt.mp hlen)).symm
            · cases h
        · cases h
  · rintro ⟨n, c, pos, hs, hsp, hoff, hkw, heq, hvalue⟩
    have hlt : s.attrLen ≤ pos.length := by
      obtain ⟨hlt, -⟩ := List.getElem?_eq_some_iff.mp heq
      omega
    have htw := takeWhile_isAttrByte hkw heq
    have hlen : (pos.takeWhile isAttrByte).length = s.attrLen := by
      rw [htw, List.length_take]
      omega
    rw [ExtRecordSpan.valueOff] at hvalue
    rw [scanExtHeaderRecord, hs]
    simp only [if_pos hsp, hlen]
    rw [List.head?_drop, if_pos heq, ← hoff, hvalue, if_neg (by omega), Int.toNat_natCast]

/-- A well-formed record is found as it is, whatever follows it: if its keyword
is a string, the reader accepts it with its own length. -/
theorem laxRecord_of_wellFormed {ds kw v : Bytes} (hne : ds ≠ [])
    (hd : ∀ d ∈ ds, decimal.isDigit d = true)
    (hlen : decimal.value ds = (ds ++ 32 :: (kw ++ 61 :: (v ++ [10]))).length)
    (hlt : decimal.value ds < 2 ^ 31) (hkw : ∀ b ∈ kw, isAttrByte b = true) (mem : Bytes) :
    LaxRecord (ds ++ 32 :: (kw ++ 61 :: (v ++ [10])) ++ mem)
      ⟨ds.length + 1, kw.length, v.length⟩ := by
  have hmem : ds ++ 32 :: (kw ++ 61 :: (v ++ [10])) ++ mem =
      ds ++ 32 :: (kw ++ 61 :: (v ++ 10 :: mem)) := by simp
  rw [hmem]
  refine ⟨_, 32, kw ++ 61 :: (v ++ 10 :: mem), strtol_digits hne hd (by decide) _, by decide, ?_, ?_,
    ?_, ?_⟩
  · simp
    omega
  · simpa using hkw
  · simp
  · have hmin : min (2 ^ 63 - 1) (decimal.value ds : Int) = (decimal.value ds : Nat) := by omega
    have htotal : decimal.value ds = (ExtRecordSpan.mk (ds.length + 1) kw.length v.length).total := by
      rw [hlen]
      simp [ExtRecordSpan.total, ExtRecordSpan.valueOff]
      omega
    rw [hmin, htotal]
    exact intValueLen_total (htotal ▸ hlt)

/-- The scan of a record whose keyword holds a NUL fails: `strchr` stops
there. -/
theorem scanExtHeaderRecord_of_nul {ds kw : Bytes} (hne : ds ≠ [])
    (hd : ∀ d ∈ ds, decimal.isDigit d = true) (hkw : (61 : UInt8) ∉ kw)
    (hnul : ¬ ∀ b ∈ kw, isAttrByte b = true) (mem : Bytes) :
    scanExtHeaderRecord (ds ++ 32 :: (kw ++ mem)) = .error (-2) := by
  have hstop : ∀ (l : Bytes), (61 : UInt8) ∉ l → (¬ ∀ b ∈ l, isAttrByte b = true) →
      ((l ++ mem).drop ((l ++ mem).takeWhile isAttrByte).length).head? ≠ some 61 := by
    intro l
    induction l with
    | nil => intro _ h; exact absurd (by simp) h
    | cons b l ih =>
        intro h61 hex
        by_cases hb : isAttrByte b = true
        · rw [List.cons_append, List.takeWhile_cons_of_pos hb, List.length_cons, List.drop_succ_cons]
          refine ih (fun hm => h61 (List.mem_cons_of_mem b hm)) ?_
          intro hall
          refine hex ?_
          intro c hc
          rcases List.mem_cons.mp hc with rfl | hc
          · exact hb
          · exact hall c hc
        · rw [List.cons_append, List.takeWhile_cons_of_neg hb]
          intro he
          have : b = 61 := by simpa using he
          exact h61 (by simp [this])
  rw [scanExtHeaderRecord, strtol_digits hne hd (by decide)]
  simp only [show isSpace 32 = true by decide, if_true, if_neg (hstop kw hkw hnul)]

/-! ## Runs of the reader -/

/-- The bytes of a record that go into a slot are before `len`. -/
def TakenWithin (len : Int) (off : Nat) (ranges : List (Nat × Nat)) : Prop :=
  ∀ r ∈ ranges, r.1 < r.2 → ((off + r.2 : Nat) : Int) ≤ len

/-- From `off`, the reader accepts `m` records that lie before `len` and then
rejects one that starts before `len`. -/
inductive EndsRejected (data : Bytes) (len : Int) : Nat → Nat → Prop where
  /-- The record has no number, no equals sign, or too short a length. -/
  | scan {off : Nat} (hoff : (off : Int) < len) (h : ∀ s, ¬ LaxRecord (data.drop off) s) :
      EndsRejected data len off 0
  /-- The keyword has too many parts. -/
  | keyword {off : Nat} {s : ExtRecordSpan} (hoff : (off : Int) < len)
      (h : LaxRecord (data.drop off) s) (hkw : ¬ KeywordOk (s.attr (data.drop off)))
      (hin : TakenWithin len off [s.attrRange]) :
      EndsRejected data len off 0
  /-- One more record is accepted. -/
  | next {off m : Nat} {s : ExtRecordSpan} (hoff : (off : Int) < len)
      (h : LaxRecord (data.drop off) s) (hkw : KeywordOk (s.attr (data.drop off)))
      (hmem : s.valueOff + s.valueLen ≤ (data.drop off).length)
      (hin : TakenWithin len off [s.attrRange, s.valueRange])
      (rest : EndsRejected data len (off + s.total) m) : EndsRejected data len off (m + 1)

/-- What reading one record does, by cases. -/
theorem taruReadExtHeaderRecord_cases (extattlist : Option (List Exatt)) (data : Bytes) :
    (∃ code, (∀ s, ¬ LaxRecord data s) ∧
      taruReadExtHeaderRecord extattlist data = .returned ⟨extattlist, [], .error code⟩) ∨
    (∃ s, LaxRecord data s ∧ ¬ KeywordOk (s.attr data) ∧ ∃ slots,
      taruReadExtHeaderRecord extattlist data = .returned ⟨slots, [s.attrRange], .error (-5)⟩) ∨
    (∃ s, LaxRecord data s ∧ KeywordOk (s.attr data) ∧ s.valueOff + s.valueLen ≤ data.length ∧
      ∃ slots, taruReadExtHeaderRecord extattlist data =
        .returned ⟨slots, [s.attrRange, s.valueRange], .ok s.total⟩) ∨
    (∃ s, LaxRecord data s ∧ KeywordOk (s.attr data) ∧ ¬ s.valueOff + s.valueLen ≤ data.length ∧
      taruReadExtHeaderRecord extattlist data = .fault) := by
  cases hscan : scanExtHeaderRecord data with
  | error code =>
      refine Or.inl ⟨code, ?_, by rw [taruReadExtHeaderRecord, hscan]⟩
      intro s hs
      rw [scanExtHeaderRecord_eq_ok_iff.mpr hs] at hscan
      cases hscan
  | ok s =>
      have hlax := scanExtHeaderRecord_eq_ok_iff.mp hscan
      simp only [taruReadExtHeaderRecord, hscan]
      by_cases hk : KeywordOk (s.attr data)
      · by_cases hm : s.valueOff + s.valueLen ≤ data.length
        · exact Or.inr (Or.inr (Or.inl ⟨s, hlax, hk, hm, _, by rw [if_pos hk, if_pos hm]⟩))
        · exact Or.inr (Or.inr (Or.inr ⟨s, hlax, hk, hm, by rw [if_pos hk, if_neg hm]⟩))
      · exact Or.inr (Or.inl ⟨s, hlax, hk, _, by rw [if_neg hk]⟩)

theorem takenWithin_nil {len : Int} {off : Nat} : TakenWithin len off [] := by
  simp [TakenWithin]

/-- Ranges that go into a slot one after the other. -/
theorem takenWithin_append {len : Int} {off : Nat} {xs ys : List (Nat × Nat)} :
    TakenWithin len off (xs ++ ys) ↔ TakenWithin len off xs ∧ TakenWithin len off ys := by
  simp only [TakenWithin, List.mem_append]
  constructor
  · intro h
    exact ⟨fun r hr => h r (Or.inl hr), fun r hr => h r (Or.inr hr)⟩
  · rintro ⟨hx, hy⟩ r (hr | hr)
    · exact hx r hr
    · exact hy r hr

/-- A range counted from the block is one counted from the record. -/
theorem takenWithin_shift {len : Int} {off : Nat} {xs : List (Nat × Nat)} :
    TakenWithin len 0 (xs.map (shiftRange off)) ↔ TakenWithin len off xs := by
  simp only [TakenWithin, List.mem_map, shiftRange]
  constructor
  · intro h r hr hlt
    have := h _ ⟨r, hr, rfl⟩ (by simp only; omega)
    simpa using this
  · rintro h _ ⟨r, hr, rfl⟩ hlt
    have := h r hr (by simp only at hlt; omega)
    simpa using this

/-- The ranges taken before are kept. -/
theorem taken_readAllFrom {data : Bytes} {len : Int} {fuel : Nat}
    {extattlist : Option (List Exatt)} {taken : List (Nat × Nat)} {off num : Nat} {r : ReadAll}
    (h : readAllFrom data len fuel extattlist taken off num = .returned r) :
    ∃ more, r.taken = taken ++ more := by
  induction fuel generalizing extattlist taken off num with
  | zero =>
      cases h
      exact ⟨[], by simp⟩
  | succ fuel ih =>
      rw [readAllFrom] at h
      split at h
      · obtain ⟨rec, hread, h⟩ := Outcome.bind_eq_returned.mp h
        simp only at h
        split at h
        · cases h
          exact ⟨_, rfl⟩
        · obtain ⟨more, hmore⟩ := ih h
          exact ⟨_, by rw [hmore, List.append_assoc]⟩
      · cases h
        exact ⟨[], by simp⟩

/-- What the reader returns, if it returns: it went through to the end of the
block, or it stopped at a record that it rejected.  The bytes it took are
before `len` only if those of every record are. -/
theorem readAllFrom_returned {data : Bytes} {len : Int} {fuel : Nat}
    {extattlist : Option (List Exatt)} {taken : List (Nat × Nat)} {off num : Nat} {r : ReadAll}
    (h : readAllFrom data len fuel extattlist taken off num = .returned r)
    (hin : TakenWithin len 0 r.taken) :
    (∃ m : Nat, r.ret = (num + m : Nat)) ∨
      ∃ m : Nat, EndsRejected data len off m ∧ r.ret = -((num + m : Nat) : Int) := by
  induction fuel generalizing extattlist taken off num with
  | zero =>
      cases h
      exact Or.inl ⟨0, rfl⟩
  | succ fuel ih =>
      rw [readAllFrom] at h
      split at h
      · next hoff =>
          rcases taruReadExtHeaderRecord_cases extattlist (data.drop off) with
            ⟨code, hrej, hread⟩ | ⟨s, hlax, hkw, slots, hread⟩ | ⟨s, hlax, hkw, hmem, slots, hread⟩ |
            ⟨s, hlax, hkw, hmem, hread⟩
          · rw [hread] at h
            cases h
            exact Or.inr ⟨0, .scan hoff hrej, rfl⟩
          · rw [hread] at h
            cases h
            have hin' := takenWithin_shift.mp (takenWithin_append.mp hin).2
            exact Or.inr ⟨0, .keyword hoff hlax hkw hin', rfl⟩
          · rw [hread] at h
            have hrest := ih h
            have hsub := taken_readAllFrom h
            have hin' : TakenWithin len off [s.attrRange, s.valueRange] := by
              obtain ⟨more, hmore⟩ := hsub
              rw [hmore] at hin
              have hleft := (takenWithin_append.mp hin).1
              exact takenWithin_shift.mp (takenWithin_append.mp hleft).2
            rcases hrest with ⟨m, hm⟩ | ⟨m, hends, hm⟩
            · exact Or.inl ⟨m + 1, by rw [hm]; congr 1; omega⟩
            · refine Or.inr ⟨m + 1, .next hoff hlax hkw hmem hin' hends, ?_⟩
              rw [hm]
              congr 2
              omega
          · rw [hread] at h
            cases h
      · cases h
        exact Or.inl ⟨0, rfl⟩

/-- A run that ends at a rejected record returns the negated number of the
records before it. -/
theorem readAllFrom_of_endsRejected {data : Bytes} {len : Int} {off m : Nat}
    (h : EndsRejected data len off m) (fuel : Nat) (hfuel : len - off ≤ fuel)
    (extattlist : Option (List Exatt)) {taken : List (Nat × Nat)} (htaken : TakenWithin len 0 taken)
    (num : Nat) :
    ∃ r, readAllFrom data len fuel extattlist taken off num = .returned r ∧
      r.ret = -((num + m : Nat) : Int) ∧ TakenWithin len 0 r.taken := by
  induction h generalizing fuel extattlist taken num with
  | scan hoff hrej =>
      obtain ⟨fuel, rfl⟩ : ∃ k, fuel = k + 1 := ⟨fuel - 1, by omega⟩
      rcases taruReadExtHeaderRecord_cases extattlist (data.drop _) with
        ⟨code, -, hread⟩ | ⟨s, hlax, -⟩ | ⟨s, hlax, -⟩ | ⟨s, hlax, -⟩
      · rw [readAllFrom, if_pos hoff, hread]
        exact ⟨_, rfl, rfl, by simpa using htaken⟩
      · exact absurd hlax (hrej s)
      · exact absurd hlax (hrej s)
      · exact absurd hlax (hrej s)
  | keyword hoff hlax hkw hin =>
      obtain ⟨fuel, rfl⟩ : ∃ k, fuel = k + 1 := ⟨fuel - 1, by omega⟩
      rw [readAllFrom, if_pos hoff, taruReadExtHeaderRecord, scanExtHeaderRecord_eq_ok_iff.mpr hlax]
      simp only [if_neg hkw]
      exact ⟨_, rfl, rfl, takenWithin_append.mpr ⟨htaken, takenWithin_shift.mpr hin⟩⟩
  | @next off m s hoff hlax hkw hmem hin hrest ih =>
      obtain ⟨fuel, rfl⟩ : ∃ k, fuel = k + 1 := ⟨fuel - 1, by omega⟩
      have hpos := s.total_pos
      rw [readAllFrom, if_pos hoff, taruReadExtHeaderRecord, scanExtHeaderRecord_eq_ok_iff.mpr hlax]
      simp only [if_pos hkw, if_pos hmem]
      obtain ⟨r, hr, hret, hw⟩ := ih fuel (by omega)
        (taruExattlistGetFree (s.exatt (data.drop off)) extattlist)
        (takenWithin_append.mpr ⟨htaken, takenWithin_shift.mpr hin⟩) (num + 1)
      refine ⟨r, hr, ?_, hw⟩
      rw [hret]
      congr 2
      omega

/-- A record that ends in the block stays in it, keyword and value. -/
theorem takenWithin_attrRange {s : ExtRecordSpan} {len : Int} {off : Nat}
    (hends : (off : Int) + s.total ≤ len) : TakenWithin len off [s.attrRange] := by
  intro p hp _
  rw [List.mem_singleton.mp hp]
  simp only [ExtRecordSpan.attrRange, ExtRecordSpan.total, ExtRecordSpan.valueOff] at hends ⊢
  omega

theorem takenWithin_valueRange {s : ExtRecordSpan} {len : Int} {off : Nat}
    (hends : (off : Int) + s.total ≤ len) : TakenWithin len off [s.valueRange] := by
  intro p hp _
  rw [List.mem_singleton.mp hp]
  simp only [ExtRecordSpan.valueRange, ExtRecordSpan.total] at hends ⊢
  omega

/-- On a sequence of well-formed records the reader stays inside the block, and
a positive result is the number of records. -/
theorem readAllFrom_of_recordSequence {data : Bytes} {len : Nat} (hlen : len ≤ data.length)
    (hlt : len < 2 ^ 31) {rs : List Bytes} (hwf : ∀ r ∈ rs, WellFormedRecord r) {off : Nat}
    (hrs : (data.take len).drop off = rs.flatten) (fuel : Nat) (hfuel : len ≤ off + fuel)
    (extattlist : Option (List Exatt)) {taken : List (Nat × Nat)} (htaken : TakenWithin len 0 taken)
    (num : Nat) :
    ∃ r, readAllFrom data len fuel extattlist taken off num = .returned r ∧
      TakenWithin len 0 r.taken ∧ (r.ret = (num + rs.length : Nat) ∨ r.ret ≤ 0) := by
  induction rs generalizing off fuel extattlist taken num with
  | nil =>
      have hend : ¬ (off : Int) < len := by
        have := List.drop_eq_nil_iff.mp hrs
        rw [List.length_take] at this
        omega
      cases fuel with
      | zero => exact ⟨_, rfl, htaken, Or.inl rfl⟩
      | succ fuel =>
          rw [readAllFrom, if_neg hend]
          exact ⟨_, rfl, htaken, Or.inl rfl⟩
  | cons r₀ rs ih =>
      obtain ⟨ds, kw, v, hne, hd, hval, h61, hr₀⟩ := hwf r₀ (by simp)
      have hsum : off + r₀.length + rs.flatten.length = len := by
        have := congrArg List.length hrs
        simp only [List.length_drop, List.length_take, List.flatten_cons, List.length_append] at this
        have : 0 < r₀.length := by rw [hr₀]; simp
        omega
      have hoff : (off : Int) < len := by
        have : 0 < r₀.length := by rw [hr₀]; simp
        omega
      obtain ⟨fuel, rfl⟩ : ∃ k, fuel = k + 1 := ⟨fuel - 1, by omega⟩
      have hdata : data.drop off = r₀ ++ (rs.flatten ++ data.drop len) := by
        conv_lhs => rw [← List.take_append_drop len data]
        rw [List.drop_append_of_le_length (by rw [List.length_take]; omega), hrs,
          List.flatten_cons, List.append_assoc]
      have hrest : (data.take len).drop (off + r₀.length) = rs.flatten := by
        rw [← List.drop_drop, hrs, List.flatten_cons, List.drop_left]
      rw [readAllFrom, if_pos hoff, taruReadExtHeaderRecord, hdata]
      by_cases hkw : ∀ b ∈ kw, isAttrByte b = true
      · -- The reader accepts the record with its own length.
        have hlax := laxRecord_of_wellFormed hne hd (by rw [← hr₀]; exact hval) (by omega) hkw
          (rs.flatten ++ data.drop len)
        rw [← hr₀] at hlax
        have htotal : (ExtRecordSpan.mk (ds.length + 1) kw.length v.length).total = r₀.length := by
          rw [hr₀]
          simp [ExtRecordSpan.total, ExtRecordSpan.valueOff]
          omega
        rw [scanExtHeaderRecord_eq_ok_iff.mpr hlax]
        generalize ExtRecordSpan.mk (ds.length + 1) kw.length v.length = s at htotal
        have hpos := s.total_pos
        have hends : (off : Int) + s.total ≤ len := by omega
        have hattr := takenWithin_attrRange hends
        have hboth : TakenWithin len off [s.attrRange, s.valueRange] :=
          takenWithin_append.mpr ⟨hattr, takenWithin_valueRange hends⟩
        have hmem : s.valueOff + s.valueLen ≤ (r₀ ++ (rs.flatten ++ data.drop len)).length := by
          simp only [ExtRecordSpan.total] at htotal
          rw [List.length_append]
          omega
        by_cases hok : KeywordOk (s.attr (r₀ ++ (rs.flatten ++ data.drop len)))
        · simp only [if_pos hok, if_pos hmem]
          obtain ⟨r, hr, hw, hret⟩ := ih (fun r hr => hwf r (by simp [hr])) hrest fuel
            (by omega)
            (taruExattlistGetFree (s.exatt (r₀ ++ (rs.flatten ++ data.drop len))) extattlist)
            (takenWithin_append.mpr ⟨htaken, takenWithin_shift.mpr hboth⟩) (num + 1)
          refine ⟨r, by rw [← hr, htotal]; rfl, hw, ?_⟩
          rcases hret with hret | hret
          · left
            rw [hret]
            congr 1
            simp only [List.length_cons]
            omega
          · exact Or.inr hret
        · simp only [if_neg hok]
          exact ⟨_, rfl, takenWithin_append.mpr ⟨htaken, takenWithin_shift.mpr hattr⟩,
            Or.inr (by simp only; omega)⟩
      · -- A NUL in the keyword hides the equals sign.
        have hscan := scanExtHeaderRecord_of_nul hne hd h61 hkw
          (61 :: (v ++ [10]) ++ (rs.flatten ++ data.drop len))
        have hbytes : ds ++ 32 :: (kw ++ (61 :: (v ++ [10]) ++ (rs.flatten ++ data.drop len))) =
            r₀ ++ (rs.flatten ++ data.drop len) := by
          rw [hr₀]
          simp
        rw [hbytes] at hscan
        rw [hscan]
        exact ⟨_, rfl, by simpa using htaken, Or.inr (by simp only; omega)⟩

/-! ## What stands behind the data -/

/-- A NUL behind the data ends a record as the end of the data does. -/
theorem scanExtHeaderRecord_append_nul (data rest : Bytes) :
    scanExtHeaderRecord (data ++ 0 :: rest) = scanExtHeaderRecord data := by
  rw [scanExtHeaderRecord, scanExtHeaderRecord, strtol_append_nul]
  rcases strtol data with ⟨len, pend⟩
  cases pend with
  | nil => rfl
  | cons c pos =>
      have hoff : (data ++ 0 :: rest).length - (pos ++ 0 :: rest).length =
          data.length - pos.length := by
        simp only [List.length_append]
        omega
      have hattr : (pos ++ 0 :: rest).takeWhile isAttrByte = pos.takeWhile isAttrByte :=
        takeWhile_append_end (by decide) pos rest
      have hle : (pos.takeWhile isAttrByte).length ≤ pos.length :=
        (List.takeWhile_sublist _).length_le
      have hstop : ((pos ++ 0 :: rest).drop (pos.takeWhile isAttrByte).length).head? = some 61 ↔
          (pos.drop (pos.takeWhile isAttrByte).length).head? = some 61 := by
        rw [List.drop_append_of_le_length hle]
        cases pos.drop (pos.takeWhile isAttrByte).length with
        | nil => simp
        | cons b t => rfl
      simp only [List.cons_append, hoff, hattr, hstop]

/-- The keyword of a record and its equals sign are in the data. -/
theorem LaxRecord.valueOff_le {data : Bytes} {s : ExtRecordSpan} (h : LaxRecord data s) :
    s.valueOff ≤ data.length := by
  obtain ⟨n, c, pos, hstrtol, -, hoff, -, heq, -⟩ := h.prefixed
  obtain ⟨hlt, -⟩ := List.getElem?_eq_some_iff.mp heq
  have hpos : pos.length ≤ data.length := by
    have hsuffix := length_strtol_le data
    rw [hstrtol, List.length_cons] at hsuffix
    omega
  rw [ExtRecordSpan.valueOff]
  omega

theorem ExtRecordSpan.attr_append {data : Bytes} {s : ExtRecordSpan}
    (hoff : s.valueOff ≤ data.length) (more : Bytes) : s.attr (data ++ more) = s.attr data := by
  rw [ExtRecordSpan.valueOff] at hoff
  rw [ExtRecordSpan.attr, ExtRecordSpan.attr, List.drop_append_of_le_length (by omega),
    List.take_append_of_le_length (by rw [List.length_drop]; omega)]

theorem ExtRecordSpan.exatt_append {data : Bytes} {s : ExtRecordSpan}
    (hmem : s.valueOff + s.valueLen ≤ data.length) (more : Bytes) :
    s.exatt (data ++ more) = s.exatt data := by
  have hvalue : s.value (data ++ more) = s.value data := by
    rw [ExtRecordSpan.value, ExtRecordSpan.value, List.drop_append_of_le_length (by omega),
      List.take_append_of_le_length (by rw [List.length_drop]; omega)]
  rw [ExtRecordSpan.exatt, ExtRecordSpan.exatt, s.attr_append (by omega), hvalue]

/-- A record that ends in the data is read as it is without the memory behind
them. -/
theorem taruReadExtHeaderRecord_append_nul {extattlist : Option (List Exatt)} {data : Bytes}
    {r : ReadRecord} (h : taruReadExtHeaderRecord extattlist data = .returned r) (rest : Bytes) :
    taruReadExtHeaderRecord extattlist (data ++ 0 :: rest) = .returned r := by
  rw [taruReadExtHeaderRecord] at h ⊢
  rw [scanExtHeaderRecord_append_nul]
  cases hscan : scanExtHeaderRecord data with
  | error code =>
      rw [hscan] at h
      exact h
  | ok s =>
      have hattr := s.attr_append (scanExtHeaderRecord_eq_ok_iff.mp hscan).valueOff_le (0 :: rest)
      rw [hscan] at h
      simp only [hattr] at h ⊢
      split at h
      · next hkw =>
          split at h
          · next hmem =>
              rw [if_pos hkw, if_pos (by rw [List.length_append]; omega), s.exatt_append hmem]
              exact h
          · cases h
      · next hkw =>
          rw [if_neg hkw]
          exact h

/-- So is a block whose records all end in the data. -/
theorem readAllFrom_append_nul {data : Bytes} {len : Int} (hlen : len ≤ data.length) {fuel : Nat}
    {extattlist : Option (List Exatt)} {taken : List (Nat × Nat)} {off num : Nat} {r : ReadAll}
    (h : readAllFrom data len fuel extattlist taken off num = .returned r) (rest : Bytes) :
    readAllFrom (data ++ 0 :: rest) len fuel extattlist taken off num = .returned r := by
  induction fuel generalizing extattlist taken off num with
  | zero => exact h
  | succ fuel ih =>
      rw [readAllFrom] at h ⊢
      split at h
      · next hoff =>
          obtain ⟨record, hread, h⟩ := Outcome.bind_eq_returned.mp h
          rw [if_pos hoff, List.drop_append_of_le_length (by omega),
            taruReadExtHeaderRecord_append_nul hread]
          simp only [Outcome.returned_bind] at h ⊢
          split at h
          · exact h
          · exact ih h
      · next hoff =>
          rw [if_neg hoff]
          exact h

/-! ## Strict parsing -/

/-- The reader is strict about a block of `len` bytes: a positive result is the
number of the records of the block, a block that is no sequence of records is
an error, and no byte at or beyond `len` goes into a slot. -/
def StrictOn (hdr : FileHdr) (data : Bytes) (len : Int32) : Prop :=
  ∃ hdr' r, taruReadAllExtHeaderRecords hdr data len = .returned (hdr', r) ∧
    (0 < r.ret → RecordSequence (data.take len.toInt.toNat) r.ret.toNat) ∧
    ((¬ ∃ n, RecordSequence (data.take len.toInt.toNat) n) → r.ret < 0) ∧
    TakenWithin len.toInt 0 r.taken

/-- The reader of all records returns what its loop returns. -/
theorem taruReadAllExtHeaderRecords_eq_returned {hdr hdr' : FileHdr} {data : Bytes} {len : Int32}
    {r : ReadAll} : taruReadAllExtHeaderRecords hdr data len = .returned (hdr', r) ↔
      readAllFrom data len.toInt len.toInt.toNat hdr.extattlist [] 0 0 = .returned r ∧
        hdr' = { hdr with
          extHeaderUsageMask := { hdr.extHeaderUsageMask with any := true }
          extattlist := r.extattlist } := by
  rw [taruReadAllExtHeaderRecords, Outcome.bind_eq_returned]
  constructor
  · rintro ⟨r', hr, he⟩
    cases he
    exact ⟨hr, rfl⟩
  · rintro ⟨hr, rfl⟩
    exact ⟨r, hr, rfl⟩

/-- **The reader is strict exactly on the blocks that are sequences of
well-formed records, and on those where it rejects a record after it has
accepted at least one, all of them inside the block.** -/
theorem strictParsing_iff (hdr : FileHdr) (data : Bytes) (len : Int32)
    (hlen : len.toInt ≤ data.length) :
    StrictOn hdr data len ↔
      (∃ n, RecordSequence (data.take len.toInt.toNat) n) ∨
        ∃ m, EndsRejected data len.toInt 0 (m + 1) := by
  have hlt := Int32.toInt_lt len
  constructor
  · rintro ⟨hdr', r, hread, -, hneg, hin⟩
    have hr := (taruReadAllExtHeaderRecords_eq_returned.mp hread).1
    by_cases hseq : ∃ n, RecordSequence (data.take len.toInt.toNat) n
    · exact Or.inl hseq
    · right
      have hret := hneg hseq
      rcases readAllFrom_returned hr hin with ⟨m, hm⟩ | ⟨m, hends, hm⟩
      · omega
      · obtain ⟨m, rfl⟩ : ∃ k, m = k + 1 := ⟨m - 1, by omega⟩
        exact ⟨m, hends⟩
  · intro h
    suffices hs : ∃ r, readAllFrom data len.toInt len.toInt.toNat hdr.extattlist [] 0 0 =
        .returned r ∧ (0 < r.ret → RecordSequence (data.take len.toInt.toNat) r.ret.toNat) ∧
        ((¬ ∃ n, RecordSequence (data.take len.toInt.toNat) n) → r.ret < 0) ∧
        TakenWithin len.toInt 0 r.taken by
      obtain ⟨r, hr, hrest⟩ := hs
      exact ⟨_, r, taruReadAllExtHeaderRecords_eq_returned.mpr ⟨hr, rfl⟩, hrest⟩
    rcases h with ⟨n, rs, hn, hwf, hflat⟩ | ⟨m, hends⟩
    · by_cases hpos : 0 ≤ len.toInt
      · obtain ⟨k, hk⟩ := Int.eq_ofNat_of_zero_le hpos
        simp only [hk, Int.toNat_natCast] at hflat hlen hlt ⊢
        have hmem : k ≤ data.length := by omega
        have hsmall : k < 2 ^ 31 := by omega
        have hrs : (data.take k).drop 0 = rs.flatten := hflat.symm
        obtain ⟨r, hr, hin, hret⟩ := readAllFrom_of_recordSequence hmem hsmall hwf hrs k (by omega)
          hdr.extattlist takenWithin_nil 0
        refine ⟨r, hr, ?_, fun hno => absurd ⟨n, rs, hn, hwf, hflat⟩ hno, hin⟩
        intro hp
        rcases hret with hret | hret
        · rw [hret]
          exact ⟨rs, by simp, hwf, hflat⟩
        · omega
      · have hz : len.toInt.toNat = 0 := by omega
        rw [hz] at hflat ⊢
        refine ⟨_, rfl, ?_, fun hno => absurd ⟨n, rs, hn, hwf, hflat⟩ hno, takenWithin_nil⟩
        intro hp
        exact absurd hp (by simp)
    · obtain ⟨r, hr, hret, hin⟩ := readAllFrom_of_endsRejected hends len.toInt.toNat (by omega)
        hdr.extattlist takenWithin_nil 0
      exact ⟨r, hr, fun hp => by omega, fun _ => by omega, hin⟩

/-- The block `6 a=b\n`. -/
def oneRecord : Bytes := chars ['6', ' ', 'a', '=', 'b', '\n']

theorem strictOn_oneRecord : StrictOn {} oneRecord 6 := by
  refine (strictParsing_iff {} oneRecord 6 (by decide)).mpr (Or.inl ⟨1, [oneRecord], rfl, ?_, rfl⟩)
  intro r hr
  rw [List.mem_singleton.mp hr]
  exact ⟨[54], [97], [98], by decide, List.all_eq_true.mp (by decide), by decide, by decide, rfl⟩

/-- A block without a single record is read as an empty one. -/
theorem not_strictOn_junk : ¬ StrictOn {} (chars ['j', 'u', 'n', 'k']) 4 := by
  rintro ⟨hdr', r, hread, -, hneg, -⟩
  have hret : ∀ p, taruReadAllExtHeaderRecords {} (chars ['j', 'u', 'n', 'k']) 4 = .returned p →
      p.2.ret = 0 := by
    intro p hp
    cases hp
    rfl
  have hno : ¬ ∃ n, RecordSequence ((chars ['j', 'u', 'n', 'k']).take (4 : Int32).toInt.toNat) n := by
    rintro ⟨n, rs, -, hwf, hflat⟩
    cases rs with
    | nil => cases hflat
    | cons r₀ rs =>
        obtain ⟨ds, kw, v, hne, hd, -, -, hr₀⟩ := hwf r₀ (by simp)
        cases ds with
        | nil => exact hne rfl
        | cons d ds =>
            rw [hr₀] at hflat
            have hj : d = 106 := (List.cons.inj hflat).1
            exact absurd (hd d (by simp)) (by rw [hj]; decide)
  have h := hneg hno
  rw [hret _ hread] at h
  exact absurd h (by decide)

end Swbis.Taru
