import Swbis.Taru.ExtHdrBuffer
import Swbis.Taru.ExtHeader

/-!
# Extended attributes through a read and a write

A pax data block of ustar and vendor attributes is read into a fresh slot list,
the override step moves the ustar attributes into the file header and gives
their slots back, and the slots are written again.

The writer stops at the first slot that is not in use, so a vendor attribute
behind a ustar attribute is lost (`emitted`).  A keyword `VENDOR.name` is split
into a vendor and a namespace and comes out as `VENDOR.name.`; one of three
parts comes out as it was if its first two parts fit their arrays
(`comesOut_iff`).  The buffer of the writer can lose the end of a long keyword
(`HeadsStay`).  `xattrsSurvive_iff` puts the three together.
-/

namespace Swbis.Taru

open CLib

/-! ## Keywords and attributes -/

/-- A part of a keyword: no dot, no equals sign, no NUL. -/
structure KeywordPart where
  text : CString
  nonempty : text.bytes ≠ []
  plain : ∀ b ∈ text.bytes, (b != dot && b != 61) = true

/-- Whether a part starts with an upper case letter. -/
def KeywordPart.upper (p : KeywordPart) : Bool := (p.text.bytes.head?.map isUpper).getD false

/-- A vendor keyword, `VENDOR.name` or `VENDOR.namespace.name`. -/
structure VendorKeyword where
  vendor : KeywordPart
  vendorUpper : vendor.upper = true
  namespaceName : Option KeywordPart
  name : KeywordPart

/-- Parts with a dot between them. -/
def dotted (s t : CString) : CString := s.append ((⟨[dot], dot_noNul⟩ : CString).append t)

/-- The keyword as it is written. -/
def VendorKeyword.text (k : VendorKeyword) : CString :=
  match k.namespaceName with
  | none => dotted k.vendor.text k.name.text
  | some ns => dotted k.vendor.text (dotted ns.text k.name.text)

/-- The keywords that the override step knows. -/
inductive UstarKeyword where
  | path | linkpath | gname | uname | atime | mtime | ctime | gid | uid | size
deriving DecidableEq

def UstarKeyword.text : UstarKeyword → CString
  | path => paxKwPath
  | linkpath => paxKwLinkpath
  | gname => paxKwGname
  | uname => paxKwUname
  | atime => paxKwAtime
  | mtime => paxKwMtime
  | ctime => paxKwCtime
  | gid => paxKwGid
  | uid => paxKwUid
  | size => paxKwSize

/-- An attribute of a pax data block. -/
inductive PaxAttr where
  | ustar (keyword : UstarKeyword) (value : Bytes)
  | vendor (keyword : VendorKeyword) (value : Bytes)

namespace PaxAttr

def keyword : PaxAttr → CString
  | ustar k _ => k.text
  | vendor k _ => k.text

def value : PaxAttr → Bytes
  | ustar _ v => v
  | vendor _ v => v

/-- A well-formed record of the attribute. -/
def RecordedBy (a : PaxAttr) (r : Bytes) : Prop :=
  ∃ ds, ds ≠ [] ∧ (∀ d ∈ ds, decimal.isDigit d = true) ∧ decimal.value ds = r.length ∧
    r = ds ++ recordBody a.keyword a.value

end PaxAttr

/-! ## Splitting a keyword -/

theorem KeywordPart.dropWhile_dot (p : KeywordPart) (mem : Bytes) :
    (p.text.bytes ++ mem).dropWhile (· == dot) = p.text.bytes ++ mem := by
  cases hp : p.text.bytes with
  | nil => exact absurd hp p.nonempty
  | cons b bs =>
      have hb := p.plain b (by rw [hp]; simp)
      simp only [Bool.and_eq_true, bne_iff_ne, ne_eq] at hb
      rw [List.cons_append, List.dropWhile_cons_of_neg (by simp [hb.1])]

theorem KeywordPart.ne_dot (p : KeywordPart) : ∀ b ∈ p.text.bytes, (b != dot) = true := by
  intro b hb
  have := p.plain b hb
  simp only [Bool.and_eq_true] at this
  exact this.1

/-- The last part. -/
theorem strobStrtok_last (p : KeywordPart) : strobStrtok p.text.bytes = some (p.text.bytes, []) := by
  have h := p.dropWhile_dot []
  rw [List.append_nil] at h
  rw [strobStrtok, h]
  simp only [if_neg p.nonempty, List.takeWhile_eq_self_iff.mpr p.ne_dot,
    List.dropWhile_eq_nil_iff.mpr p.ne_dot, List.dropWhile_nil]

/-- A part with another one behind it. -/
theorem strobStrtok_dot (p : KeywordPart) {t : Bytes} (ht : t.dropWhile (· == dot) = t) :
    strobStrtok (p.text.bytes ++ dot :: t) = some (p.text.bytes, t) := by
  have hne : p.text.bytes ++ dot :: t ≠ [] := by simp
  have hstop : (dot != dot) = false := by decide
  rw [strobStrtok, p.dropWhile_dot]
  simp only [if_neg hne, takeWhile_append_stop p.ne_dot hstop, dropWhile_append_stop p.ne_dot hstop]
  rw [List.dropWhile_cons_of_pos (by decide), ht]

/-- What one part does, in the terms of the part. -/
theorem parseFqnamePart_text (st : FqnameState) (p : KeywordPart) :
    parseFqnamePart st (.ofMem p.text.bytes) =
      if p.upper ∧ st.hasPrefix = false then
        some { st with hasPrefix := true, exatt := { st.exatt with vendor := p.text.take 99 } }
      else if p.upper = false ∧ st.hasNamespace = false then
        some { st with
          hasNamespace := true, exatt := { st.exatt with namespaceName := p.text.take 99 } }
      else if p.upper = false ∧ st.hasName = false then
        some { st with hasName := true, exatt := { st.exatt with attrname := p.text } }
      else none := by
  rw [CString.ofMem_bytes]
  rfl

/-- The loop at the last part. -/
theorem parseFqnameLoop_last (n : Nat) (st : FqnameState) (p : KeywordPart) :
    parseFqnameLoop (n + 1) st p.text.bytes =
      match parseFqnamePart st (.ofMem p.text.bytes) with
      | none => (st, false)
      | some st => (st, true) := by
  rw [parseFqnameLoop, strobStrtok_last]
  simp only
  cases parseFqnamePart st (.ofMem p.text.bytes) with
  | none => rfl
  | some st' => cases n <;> rfl

/-- The loop at a part with another one behind it. -/
theorem parseFqnameLoop_dot (n : Nat) (st : FqnameState) (p : KeywordPart) {t : Bytes}
    (ht : t.dropWhile (· == dot) = t) :
    parseFqnameLoop (n + 1) st (p.text.bytes ++ dot :: t) =
      match parseFqnamePart st (.ofMem p.text.bytes) with
      | none => (st, false)
      | some st => parseFqnameLoop n st t := by
  cases h : parseFqnamePart st (.ofMem p.text.bytes) with
  | none => simp only [parseFqnameLoop, strobStrtok_dot p ht, h]
  | some st' => simp only [parseFqnameLoop, strobStrtok_dot p ht, h]

theorem strlen_dotted (s t : CString) : (dotted s t).strlen = s.strlen + 1 + t.strlen := by
  simp [dotted, CString.strlen]
  omega

theorem bytes_dotted (s t : CString) : (dotted s t).bytes = s.bytes ++ dot :: t.bytes := by
  simp [dotted]

theorem KeywordPart.strlen_pos (p : KeywordPart) : 0 < p.text.strlen :=
  List.length_pos_iff.mpr p.nonempty

/-- A keyword of two parts: the second is taken for a namespace. -/
theorem parsedExatt_two {k : VendorKeyword} (hns : k.namespaceName = none) :
    parsedExatt k.text =
      if k.name.upper then ({ taruExattInit with vendor := k.vendor.text.take 99 }, false)
      else ({ taruExattInit with
        vendor := k.vendor.text.take 99, namespaceName := k.name.text.take 99 }, true) := by
  have hdrop := k.name.dropWhile_dot []
  rw [List.append_nil] at hdrop
  have htext : k.text.bytes = k.vendor.text.bytes ++ dot :: k.name.text.bytes := by
    simp only [VendorKeyword.text, hns, bytes_dotted]
  obtain ⟨n, hn⟩ : ∃ n, k.text.strlen = n + 1 + 1 := ⟨k.text.strlen - 2, by
    have h1 := k.vendor.strlen_pos
    have h2 := k.name.strlen_pos
    simp only [VendorKeyword.text, hns, strlen_dotted]
    omega⟩
  rw [parsedExatt, taruExattParseFqname, hn, htext]
  simp only [parseFqnameLoop_dot _ _ k.vendor hdrop, parseFqnameLoop_last, parseFqnamePart_text,
    k.vendorUpper, true_and, if_true]
  cases k.name.upper with
  | true => rfl
  | false => rfl

/-- A keyword of three parts. -/
theorem parsedExatt_three {k : VendorKeyword} {ns : KeywordPart}
    (hns : k.namespaceName = some ns) :
    parsedExatt k.text =
      if ns.upper then ({ taruExattInit with vendor := k.vendor.text.take 99 }, false)
      else if k.name.upper then
        ({ taruExattInit with
          vendor := k.vendor.text.take 99, namespaceName := ns.text.take 99 }, false)
      else
        ({ taruExattInit with
          vendor := k.vendor.text.take 99, namespaceName := ns.text.take 99
          attrname := k.name.text }, true) := by
  have hname := k.name.dropWhile_dot []
  rw [List.append_nil] at hname
  have hdrop := ns.dropWhile_dot (dot :: k.name.text.bytes)
  have htext : k.text.bytes =
      k.vendor.text.bytes ++ dot :: (ns.text.bytes ++ dot :: k.name.text.bytes) := by
    simp only [VendorKeyword.text, hns, bytes_dotted]
  obtain ⟨n, hn⟩ : ∃ n, k.text.strlen = n + 1 + 1 + 1 := ⟨k.text.strlen - 3, by
    have h1 := k.vendor.strlen_pos
    have h2 := k.name.strlen_pos
    have h3 := ns.strlen_pos
    simp only [VendorKeyword.text, hns, strlen_dotted]
    omega⟩
  rw [parsedExatt, taruExattParseFqname, hn, htext]
  simp only [parseFqnameLoop_dot _ _ k.vendor hdrop, parseFqnameLoop_dot _ _ ns hname,
    parseFqnameLoop_last, parseFqnamePart_text, k.vendorUpper, true_and, if_true]
  cases ns.upper with
  | true => rfl
  | false =>
      cases k.name.upper with
      | true => rfl
      | false => rfl

/-! ## Which keywords come out as they were -/

/-- The keyword that is written for a keyword that was read. -/
def rejoined (keyword : CString) : CString := (parsedExatt keyword).1.fqname

/-- A keyword that is accepted and comes out as it was. -/
def ComesOut (keyword : CString) : Prop := KeywordOk keyword ∧ rejoined keyword = keyword

theorem strlen_take_pos {p : KeywordPart} : 0 < (p.text.take 99).strlen := by
  have := p.strlen_pos
  rw [CString.strlen_take]
  omega

/-- A vendor and a namespace get a dot behind them, also when nothing
follows. -/
theorem fqname_eq {p : Exatt} (hv : 0 < p.vendor.strlen) (hns : 0 < p.namespaceName.strlen) :
    p.fqname = dotted p.vendor (dotted p.namespaceName p.attrname) := by
  apply CString.ext
  simp only [Exatt.fqname, if_neg (Nat.ne_of_gt hv), if_neg (Nat.ne_of_gt hns), bytes_dotted,
    CString.bytes_append]
  simp

/-- A part does not end with a dot. -/
theorem KeywordPart.getLast?_ne_dot (p : KeywordPart) : p.text.bytes.getLast? ≠ some dot := by
  intro h
  have := p.ne_dot dot (List.mem_of_getLast? h)
  exact absurd this (by decide)

/-- A keyword of three parts, the last two of which do not start with an upper
case letter and the first two of which fit their arrays. -/
def VendorKeyword.ThreePart (k : VendorKeyword) : Prop :=
  ∃ ns, k.namespaceName = some ns ∧ ns.upper = false ∧ k.name.upper = false ∧
    k.vendor.text.strlen ≤ 99 ∧ ns.text.strlen ≤ 99

/-- These are the vendor keywords that come out as they were. -/
theorem comesOut_iff (k : VendorKeyword) : ComesOut k.text ↔ k.ThreePart := by
  rw [VendorKeyword.ThreePart]
  cases hns : k.namespaceName with
  | none =>
      simp only [reduceCtorEq, false_and, exists_false, iff_false]
      rintro ⟨hok, hre⟩
      have hp := parsedExatt_two hns
      rw [KeywordOk] at hok
      cases hu : k.name.upper with
      | true => simp [hp, hu] at hok
      | false =>
          -- The text that is written ends with a dot, the keyword does not.
          simp only [hu, Bool.false_eq_true, if_false] at hp
          rw [rejoined, hp, fqname_eq strlen_take_pos strlen_take_pos] at hre
          have hlast := congrArg (fun s => s.bytes.getLast?) hre
          simp only [VendorKeyword.text, hns, bytes_dotted, taruExattInit, CString.bytes_empty] at hlast
          obtain ⟨b, hb⟩ := Option.ne_none_iff_exists'.mp
            (mt List.getLast?_eq_none_iff.mp k.name.nonempty)
          have hname := k.name.getLast?_ne_dot
          rw [List.getLast?_append, List.getLast?_append, List.getLast?_cons, List.getLast?_cons,
            List.getLast?_append, hb, List.getLast?_cons] at hlast
          rw [hb] at hname
          exact hname hlast.symm
  | some ns =>
      have hp := parsedExatt_three hns
      constructor
      · rintro ⟨hok, hre⟩
        rw [KeywordOk] at hok
        cases hu : ns.upper with
        | true => simp [hp, hu] at hok
        | false =>
            cases hn : k.name.upper with
            | true => simp [hp, hu, hn] at hok
            | false =>
                simp only [hu, hn, Bool.false_eq_true, if_false] at hp
                rw [rejoined, hp, fqname_eq strlen_take_pos strlen_take_pos] at hre
                have hlen := congrArg CString.strlen hre
                simp only [VendorKeyword.text, hns, strlen_dotted, CString.strlen_take] at hlen
                exact ⟨ns, rfl, hu, rfl, by omega, by omega⟩
      · rintro ⟨ns', hns', hu, hn, hv, hnsl⟩
        cases hns'
        simp only [hu, hn, Bool.false_eq_true, if_false] at hp
        refine ⟨by rw [KeywordOk, hp], ?_⟩
        rw [rejoined, hp, fqname_eq strlen_take_pos strlen_take_pos]
        simp only [CString.take_of_strlen_le hv, CString.take_of_strlen_le hnsl, VendorKeyword.text,
          hns]

/-- The slot of a vendor keyword: it holds no POSIX attribute, and what is
written for it has at most one byte more than the keyword and no equals
sign. -/
theorem parsedExatt_vendor (k : VendorKeyword) :
    (parsedExatt k.text).1.isInUse = false ∧ (parsedExatt k.text).1.isPosix = false ∧
      (KeywordOk k.text → (rejoined k.text).strlen ≤ k.text.strlen + 1 ∧
        (61 : UInt8) ∉ (rejoined k.text).bytes) := by
  have hplain : ∀ (p : KeywordPart), (61 : UInt8) ∉ p.text.bytes := by
    intro p h
    have := p.plain 61 h
    simp at this
  have htake : ∀ (p : KeywordPart), (61 : UInt8) ∉ p.text.bytes.take 99 := fun p h =>
    hplain p (List.mem_of_mem_take h)
  have hposix : ∀ {p : KeywordPart} {e : Exatt}, e.namespaceName = p.text.take 99 →
      e.isPosix = false := by
    intro p e he
    have := strlen_take_pos (p := p)
    rw [← he] at this
    simp only [Exatt.isPosix, beq_eq_false_iff_ne.mpr (Nat.ne_of_gt this), Bool.false_and]
  cases hns : k.namespaceName with
  | none =>
      have hp := parsedExatt_two hns
      rw [KeywordOk]
      cases hu : k.name.upper with
      | true =>
          simp only [hu, if_true] at hp
          rw [hp]
          exact ⟨rfl, rfl, fun h => by cases h⟩
      | false =>
          simp only [hu, Bool.false_eq_true, if_false] at hp
          rw [rejoined, hp]
          refine ⟨rfl, hposix (p := k.name) rfl, fun _ => ?_⟩
          rw [fqname_eq strlen_take_pos strlen_take_pos]
          refine ⟨?_, ?_⟩
          · simp only [VendorKeyword.text, hns, strlen_dotted, CString.strlen_take, taruExattInit,
              CString.strlen_empty]
            omega
          · simp only [bytes_dotted, List.mem_append, List.mem_cons, taruExattInit,
              CString.bytes_empty]
            simp [htake, dot]
  | some ns =>
      have hp := parsedExatt_three hns
      rw [KeywordOk]
      cases hu : ns.upper with
      | true =>
          simp only [hu, if_true] at hp
          rw [hp]
          exact ⟨rfl, rfl, fun h => by cases h⟩
      | false =>
          cases hn : k.name.upper with
          | true =>
              simp only [hu, hn, Bool.false_eq_true, if_false, if_true] at hp
              rw [hp]
              exact ⟨rfl, hposix (p := ns) rfl, fun h => by cases h⟩
          | false =>
              simp only [hu, hn, Bool.false_eq_true, if_false] at hp
              rw [rejoined, hp]
              refine ⟨rfl, hposix (p := ns) rfl, fun _ => ?_⟩
              rw [fqname_eq strlen_take_pos strlen_take_pos]
              refine ⟨?_, ?_⟩
              · simp only [VendorKeyword.text, hns, strlen_dotted, CString.strlen_take]
                omega
              · simp only [bytes_dotted, List.mem_append, List.mem_cons]
                simp [htake, hplain, dot]

/-- The slot of a ustar keyword: a name only. -/
theorem parsedExatt_ustar (k : UstarKeyword) :
    parsedExatt k.text = ({ taruExattInit with attrname := k.text }, true) := by
  cases k <;> rfl

/-! ## The slots that are read -/

/-- The slot of an attribute that is accepted. -/
def slotOf (a : PaxAttr) : Exatt :=
  { (parsedExatt a.keyword).1 with
    attrvalue := a.value, len := a.value.length, isInUse := true }

/-- The slots of a block: reading stops at a keyword that is not accepted. -/
def slotsRead : List PaxAttr → List Exatt
  | [] => []
  | a :: as =>
      if KeywordOk a.keyword then slotOf a :: slotsRead as else [(parsedExatt a.keyword).1]

/-- A keyword has no equals sign. -/
theorem PaxAttr.isAttrByte_keyword (a : PaxAttr) : ∀ b ∈ a.keyword.bytes, isAttrByte b = true := by
  have hne : ∀ b ∈ a.keyword.bytes, (b != 61) = true := by
    cases a with
    | ustar k v =>
        refine List.all_eq_true.mp ?_
        change k.text.bytes.all (· != 61) = true
        cases k <;> decide
    | vendor k v =>
        have hpart : ∀ (p : KeywordPart), ∀ b ∈ p.text.bytes, (b != 61) = true := by
          intro p b hb
          have := p.plain b hb
          simp only [Bool.and_eq_true] at this
          exact this.2
        intro b hb
        cases hns : k.namespaceName with
        | none =>
            simp only [keyword, VendorKeyword.text, hns, bytes_dotted, List.mem_append,
              List.mem_cons] at hb
            rcases hb with hb | rfl | hb
            · exact hpart _ b hb
            · decide
            · exact hpart _ b hb
        | some ns =>
            simp only [keyword, VendorKeyword.text, hns, bytes_dotted, List.mem_append,
              List.mem_cons] at hb
            rcases hb with hb | rfl | hb | rfl | hb
            · exact hpart _ b hb
            · decide
            · exact hpart _ b hb
            · decide
            · exact hpart _ b hb
  intro b hb
  rw [isAttrByte, hne b hb, a.keyword.ne_zero_of_mem b hb]
  rfl

/-- A record is read into the slot of its attribute. -/
theorem laxRecord_of_recordedBy {a : PaxAttr} {r : Bytes} (hr : a.RecordedBy r)
    (hlt : r.length < 2 ^ 31) (mem : Bytes) :
    ∃ s, LaxRecord (r ++ mem) s ∧ s.total = r.length ∧ s.attr (r ++ mem) = a.keyword ∧
      s.exatt (r ++ mem) = slotOf a := by
  obtain ⟨ds, hne, hd, hval, hbody⟩ := hr
  have hlax := laxRecord_of_wellFormed (v := a.value) hne hd (by rw [hval, hbody]; rfl) (by omega)
    a.isAttrByte_keyword mem
  have hbytes : ds ++ 32 :: (a.keyword.bytes ++ 61 :: (a.value ++ [10])) = r := by rw [hbody]; rfl
  rw [hbytes] at hlax
  have hmem : r ++ mem =
      (ds ++ [32]) ++ (a.keyword.bytes ++ 61 :: (a.value ++ 10 :: mem)) := by
    rw [← hbytes]
    simp
  have hattr : (ExtRecordSpan.mk (ds.length + 1) a.keyword.bytes.length a.value.length).attr
      (r ++ mem) = a.keyword := by
    rw [ExtRecordSpan.attr, hmem, List.drop_left' (by simp), List.take_left' rfl,
      CString.ofMem_bytes]
  have hvalue : (ExtRecordSpan.mk (ds.length + 1) a.keyword.bytes.length a.value.length).value
      (r ++ mem) = a.value := by
    have hmem' : r ++ mem = (ds ++ 32 :: (a.keyword.bytes ++ [61])) ++ (a.value ++ 10 :: mem) := by
      rw [hmem]
      simp
    rw [ExtRecordSpan.value, hmem', List.drop_left' (by
      simp [ExtRecordSpan.valueOff]
      omega), List.take_left' rfl]
  refine ⟨_, hlax, ?_, hattr, ?_⟩
  · rw [← hbytes]
    simp [ExtRecordSpan.total, ExtRecordSpan.valueOff]
    omega
  · rw [ExtRecordSpan.exatt, hattr, hvalue]
    rfl

/-- The reader of a block of recorded attributes appends their slots, and
reports an error only if a keyword is not accepted. -/
theorem readAllFrom_recorded {data : Bytes} {len : Nat} (hlt : len < 2 ^ 31)
    {attrs : List PaxAttr} {rs : List Bytes} (hrs : List.Forall₂ PaxAttr.RecordedBy attrs rs)
    {off : Nat} {pad : Bytes} (hdata : data.drop off = rs.flatten ++ pad)
    (hlen : len = off + rs.flatten.length) (fuel : Nat) (hfuel : len ≤ off + fuel)
    {extattlist : Option (List Exatt)} (huse : ∀ p ∈ extattlist.getD [], p.isInUse = true)
    (taken : List (Nat × Nat)) (num : Nat) :
    ∃ r, readAllFrom data len fuel extattlist taken off num = .returned r ∧
      r.extattlist.getD [] = extattlist.getD [] ++ slotsRead attrs ∧
      (r.ret < 0 → ∃ a ∈ attrs, ¬ KeywordOk a.keyword) := by
  induction hrs generalizing off fuel extattlist taken num with
  | nil =>
      have hend : ¬ (off : Int) < len := by
        simp at hlen
        omega
      have hnum : ¬ (num : Int) < 0 := Int.not_lt.mpr (Int.natCast_nonneg num)
      cases fuel with
      | zero => exact ⟨_, rfl, by simp [slotsRead], fun h => absurd h hnum⟩
      | succ fuel =>
          rw [readAllFrom, if_neg hend]
          exact ⟨_, rfl, by simp [slotsRead], fun h => absurd h hnum⟩
  | @cons a r₀ attrs rs ha hrs ih =>
      rw [List.flatten_cons, List.append_assoc] at hdata
      rw [List.flatten_cons, List.length_append] at hlen
      obtain ⟨s, hlax, htotal, hattr, hexatt⟩ :=
        laxRecord_of_recordedBy ha (by omega) (rs.flatten ++ pad)
      have hpos := s.total_pos
      obtain ⟨fuel, rfl⟩ : ∃ k, fuel = k + 1 := ⟨fuel - 1, by omega⟩
      have hmem : s.valueOff + s.valueLen ≤ (r₀ ++ (rs.flatten ++ pad)).length := by
        simp only [ExtRecordSpan.total] at htotal
        rw [List.length_append]
        omega
      rw [readAllFrom, if_pos (by omega), taruReadExtHeaderRecord, hdata,
        scanExtHeaderRecord_eq_ok_iff.mpr hlax]
      simp only [hattr, hexatt, if_pos hmem]
      by_cases hok : KeywordOk a.keyword
      · have hslots : (taruExattlistGetFree (slotOf a) extattlist).getD [] =
            extattlist.getD [] ++ [slotOf a] := putFree_of_all_inUse huse _
        have huse' : ∀ p ∈ (taruExattlistGetFree (slotOf a) extattlist).getD [],
            p.isInUse = true := by
          intro p hp
          rw [hslots] at hp
          rcases List.mem_append.mp hp with hp | hp
          · exact huse p hp
          · rw [List.mem_singleton.mp hp]
            rfl
        have hrest : data.drop (off + s.total) = rs.flatten ++ pad := by
          rw [← List.drop_drop, hdata, htotal, List.drop_left]
        obtain ⟨r, hr, hread, hret⟩ := ih hrest (by omega) fuel (by omega) huse'
          (taken ++ [s.attrRange, s.valueRange].map (shiftRange off)) (num + 1)
        simp only [if_pos hok]
        refine ⟨r, hr, ?_, fun h => ?_⟩
        · rw [hread, hslots, slotsRead, if_pos hok, List.append_assoc]
          rfl
        · obtain ⟨b, hb, hbad⟩ := hret h
          exact ⟨b, List.mem_cons_of_mem _ hb, hbad⟩
      · simp only [if_neg hok]
        refine ⟨_, rfl, ?_, fun _ => ⟨a, by simp, hok⟩⟩
        rw [slotsRead, if_neg hok]
        exact putFree_of_all_inUse huse _

/-! ## The slots after the override -/

/-- Whether the override step knows a name. -/
def isPaxKeyword (attr : CString) : Bool := (overrideField false {} attr .empty).isSome

theorem overrideField_isSome (erange : Bool) (hdr : FileHdr) (attr value : CString) :
    (overrideField erange hdr attr value).isSome = isPaxKeyword attr := by
  simp only [isPaxKeyword, overrideField, apply_ite Option.isSome]
  rfl

/-- A slot after the override step. -/
def givenBack (p : Exatt) : Exatt :=
  if p.isPosix then { p with isInUse := !isPaxKeyword p.attrname } else p

theorem taruExattOverrideUstar_slot (erange : Bool) (hdr : FileHdr) (p : Exatt) :
    (taruExattOverrideUstar erange hdr p).2.1 = givenBack p := by
  rw [taruExattOverrideUstar, givenBack]
  split
  · have h := overrideField_isSome erange hdr p.attrname (.ofMem p.attrvalue)
    cases hf : overrideField erange hdr p.attrname (.ofMem p.attrvalue) with
    | none =>
        rw [hf] at h
        simp only [← h, Option.isSome_none, Bool.not_false]
    | some q =>
        rw [hf] at h
        simp only [← h, Option.isSome_some, Bool.not_true]
  · rfl

/-- The override step treats every slot by itself. -/
theorem overrideAll_slots (erange : Bool) (hdr : FileHdr) (slots : List Exatt) :
    (overrideAll erange hdr slots).2.1 = slots.map givenBack := by
  induction slots generalizing erange hdr with
  | nil => rfl
  | cons p ps ih =>
      rw [List.map_cons, ← taruExattOverrideUstar_slot erange hdr p, overrideAll]
      simp only [ih]

/-! ## The records that are written -/

/-- What the writer emits for a block: the vendor attributes before the first
ustar attribute, as long as they were accepted. -/
def emitted : List PaxAttr → List (CString × Bytes)
  | [] => []
  | .ustar _ _ :: _ => []
  | .vendor k v :: as => if KeywordOk k.text then (rejoined k.text, v) :: emitted as else []

/-- The vendor attributes of a block. -/
def vendorAttrs : List PaxAttr → List (CString × Bytes)
  | [] => []
  | .ustar _ _ :: as => vendorAttrs as
  | .vendor k v :: as => (k.text, v) :: vendorAttrs as

/-- An accepted record leaves room for the byte that is added to its
keyword. -/
theorem PaxAttr.RecordedBy.length_bound {a : PaxAttr} {r : Bytes} (hr : a.RecordedBy r) :
    a.keyword.strlen + a.value.length + 4 ≤ r.length := by
  obtain ⟨ds, hne, -, -, hbody⟩ := hr
  have := List.length_pos_iff.mpr hne
  rw [hbody, List.length_append, length_recordBody]
  omega

/-- The writer comes to the slots of `emitted`. -/
theorem slotRecords_slotsRead (attrs : List PaxAttr) :
    slotRecords ((slotsRead attrs).map givenBack) = emitted attrs := by
  induction attrs with
  | nil => rfl
  | cons a attrs ih =>
      cases a with
      | ustar k v =>
          -- The slot has been given back, and the writer stops.
          have hp := parsedExatt_ustar k
          have hfree : (givenBack (slotOf (.ustar k v))).isInUse = false := by
            rw [slotOf, PaxAttr.keyword, hp]
            cases k <;> rfl
          have hok : KeywordOk (PaxAttr.ustar k v).keyword := by rw [KeywordOk, PaxAttr.keyword, hp]
          rw [slotsRead, if_pos hok, List.map_cons, slotRecords, hfree]
          rfl
      | vendor k v =>
          obtain ⟨huse, hposix, hok⟩ := parsedExatt_vendor k
          rw [slotsRead]
          by_cases hk : KeywordOk k.text
          · have hkeep : givenBack (slotOf (.vendor k v)) = slotOf (.vendor k v) := by
              have : (slotOf (.vendor k v)).isPosix = false := hposix
              rw [givenBack, this]
              rfl
            have hfq : (slotOf (.vendor k v)).fqname = rejoined k.text := rfl
            have hval : (slotOf (.vendor k v)).attrvalue.take (slotOf (.vendor k v)).len.toNat =
                v := by
              simp [slotOf, PaxAttr.value]
            have huse' : (slotOf (.vendor k v)).isInUse = true := rfl
            rw [PaxAttr.keyword, if_pos hk, List.map_cons, hkeep, slotRecords, if_pos huse', hfq,
              hval, ih, emitted, if_pos hk]
          · rw [PaxAttr.keyword, if_neg hk, List.map_cons, slotRecords, givenBack]
            simp only [hposix, huse, Bool.false_eq_true, if_false]
            rw [emitted, if_neg hk]

/-! ## The whole pass -/

/-- `exthdr_dataM`, once it is open. -/
structure ExthdrBuffer where
  strb : Misc.Strob
  opened : 0 < strb.str.length
  /-- The size is an `int`. -/
  size_lt : strb.str.length < 2 ^ 31

/-- Read a block into a file header that has no slots yet, override, write the
slots to the buffer.  There is no result if the reader reports an error. -/
def xattrPass (erange : Bool) (hdr : FileHdr) (buf : ExthdrBuffer) (data : Bytes) (len : Int32) :
    Outcome (Option Bytes) := do
  let (hdr, r) ← taruReadAllExtHeaderRecords { hdr with extattlist := none } data len
  if r.ret < 0 then return none
  let (hdr, slots, _) := overrideAll erange hdr (hdr.extattlist.getD [])
  let (dataLen, strb) ← writeExthdrsXattrRecordsAt buf.strb { hdr with extattlist := some slots } 0
  return some (strb.str.take dataLen)

/-- The pass writes every vendor attribute once, in order, with its keyword and
value, and nothing else. -/
def XattrsSurvive (erange : Bool) (hdr : FileHdr) (buf : ExthdrBuffer) (data : Bytes) (len : Int32)
    (attrs : List PaxAttr) : Prop :=
  xattrPass erange hdr buf data len = .returned (some (recordsOf (vendorAttrs attrs)))

/-- A vendor attribute. -/
def PaxAttr.isVendor : PaxAttr → Bool
  | ustar _ _ => false
  | vendor _ _ => true

theorem VendorKeyword.strlen_text (k : VendorKeyword) : 3 ≤ k.text.strlen := by
  have hvendor := k.vendor.strlen_pos
  have hname := k.name.strlen_pos
  rw [VendorKeyword.text]
  cases k.namespaceName with
  | none =>
      rw [strlen_dotted]
      omega
  | some ns =>
      rw [strlen_dotted, strlen_dotted]
      omega

/-- A record that is emitted is two bytes longer than the one that was read at most. -/
theorem PaxAttr.RecordedBy.extLength_le {k : VendorKeyword} {v r : Bytes}
    (hr : (PaxAttr.vendor k v).RecordedBy r) (hk : KeywordOk k.text) :
    extLength (rejoined k.text) v ≤ r.length + 2 := by
  obtain ⟨ds, hne, hdigits, hvalue, hbody⟩ := hr
  have hre := ((parsedExatt_vendor k).2.2 hk).1
  have hds := List.length_pos_iff.mpr hne
  have hlength : r.length = ds.length + (k.text.strlen + v.length + 3) := by
    rw [hbody, List.length_append, length_recordBody]
    rfl
  have hfew : (decimal.render r.length).length ≤ ds.length := by
    obtain ⟨d, hd⟩ : ∃ d, ds.length = d + 1 := ⟨ds.length - 1, by omega⟩
    have hlt := decimal.value_lt decDigit_lt hdigits
    rw [hvalue, hd] at hlt
    rw [hd]
    exact (decimal.length_render_le_iff d r.length).mpr hlt
  have hbodyLength := length_recordBody (rejoined k.text) v
  have hmono : (decimal.render (recordBody (rejoined k.text) v).length).length ≤
      (decimal.render r.length).length := decimal.length_render_mono (by omega)
  have hguess := decimal.sizeWith_le (recordBody (rejoined k.text) v).length
  rw [extLength]
  omega

/-- What is emitted is not much longer than the block. -/
theorem length_recordsOf_emitted_le {attrs : List PaxAttr} {rs : List Bytes}
    (hrs : List.Forall₂ PaxAttr.RecordedBy attrs rs) :
    3 * (recordsOf (emitted attrs)).length ≤ 4 * rs.flatten.length := by
  induction hrs with
  | nil => exact Nat.le_refl _
  | @cons a r attrs rs hr _ ih =>
      rw [List.flatten_cons, List.length_append]
      cases a with
      | ustar k v => exact Nat.zero_le _
      | vendor k v =>
          rw [emitted]
          split
          next hk =>
            have hle := hr.extLength_le hk
            have hbound := hr.length_bound
            have hlong := k.strlen_text
            rw [PaxAttr.keyword, PaxAttr.value] at hbound
            rw [recordsOf_cons, List.length_append, length_extRecord]
            omega
          next => exact Nat.zero_le _

/-- The result of the pass on a block of records: there is one unless a keyword
was not accepted. -/
theorem xattrPass_eq (erange : Bool) (hdr : FileHdr) (buf : ExthdrBuffer) {attrs : List PaxAttr}
    {rs : List Bytes} (hrs : List.Forall₂ PaxAttr.RecordedBy attrs rs) (pad : Bytes) {len : Int32}
    (hlen : len.toInt = rs.flatten.length) (hmax : rs.flatten.length ≤ 2 ^ 30) :
    xattrPass erange hdr buf (rs.flatten ++ pad) len =
        .returned (some (recordsAt (emitted attrs) 0 buf.strb.str.length)) ∨
      xattrPass erange hdr buf (rs.flatten ++ pad) len = .returned none ∧
        ∃ a ∈ attrs, ¬ KeywordOk a.keyword := by
  have hbound := length_recordsOf_emitted_le hrs
  obtain ⟨r, hr, hslots, hret⟩ := readAllFrom_recorded (show rs.flatten.length < 2 ^ 31 by omega) hrs
    (show (rs.flatten ++ pad).drop 0 = rs.flatten ++ pad from rfl) (by omega) rs.flatten.length
    (by omega) (show ∀ p ∈ (none : Option (List Exatt)).getD [], p.isInUse = true by simp) [] 0
  rw [Option.getD_none, List.nil_append] at hslots
  have hread : taruReadAllExtHeaderRecords { hdr with extattlist := none } (rs.flatten ++ pad) len =
      .returned ({ hdr with
        extHeaderUsageMask := { hdr.extHeaderUsageMask with any := true }
        extattlist := r.extattlist }, r) := by
    refine taruReadAllExtHeaderRecords_eq_returned.mpr ⟨?_, rfl⟩
    rw [hlen, Int.toNat_natCast]
    exact hr
  rw [xattrPass, hread]
  simp only [Outcome.returned_bind]
  by_cases hneg : r.ret < 0
  · rw [if_pos hneg]
    exact .inr ⟨rfl, hret hneg⟩
  · refine .inl ?_
    obtain ⟨strb, hwritten, htake⟩ := xattrRecordsAt_eq ((slotsRead attrs).map givenBack)
      buf.opened buf.size_lt (by rw [slotRecords_slotsRead]; omega)
    rw [slotRecords_slotsRead, Nat.zero_add] at hwritten htake
    rw [if_neg hneg, overrideAll_slots, hslots, writeExthdrsXattrRecordsAt, Option.getD_some,
      hwritten]
    simp only [Outcome.returned_bind, htake]
    rfl

/-- No keyword that is written has an equals sign. -/
theorem emitted_noEquals (attrs : List PaxAttr) : ∀ p ∈ emitted attrs, (61 : UInt8) ∉ p.1.bytes := by
  induction attrs with
  | nil => simp [emitted]
  | cons a attrs ih =>
      cases a with
      | ustar k v => simp [emitted]
      | vendor k v =>
          rw [emitted]
          split
          · next hk =>
              intro p hp
              rcases List.mem_cons.mp hp with rfl | hp
              · exact ((parsedExatt_vendor k).2.2 hk).2
              · exact ih p hp
          · simp

theorem vendorAttrs_noEquals (attrs : List PaxAttr) :
    ∀ p ∈ vendorAttrs attrs, (61 : UInt8) ∉ p.1.bytes := by
  induction attrs with
  | nil => simp [vendorAttrs]
  | cons a attrs ih =>
      cases a with
      | ustar k v => simpa [vendorAttrs] using ih
      | vendor k v =>
          intro p hp
          rcases List.mem_cons.mp hp with rfl | hp
          · intro h61
            have := (PaxAttr.vendor k v).isAttrByte_keyword 61 h61
            exact absurd this (by decide)
          · exact ih p hp

theorem vendorAttrs_eq_nil {attrs : List PaxAttr} :
    vendorAttrs attrs = [] ↔ ∀ a ∈ attrs, a.isVendor = false := by
  induction attrs with
  | nil => simp [vendorAttrs]
  | cons a attrs ih =>
      cases a with
      | ustar k v => simp [vendorAttrs, ih, PaxAttr.isVendor]
      | vendor k v => simp [vendorAttrs, PaxAttr.isVendor]

theorem PaxAttr.keywordOk_of_not_isVendor {a : PaxAttr} (h : a.isVendor = false) :
    KeywordOk a.keyword := by
  cases a with
  | ustar k v => rw [KeywordOk, PaxAttr.keyword, parsedExatt_ustar]
  | vendor k v => cases h

/-- Everything is emitted exactly when the vendor attributes come first and
come out as they were. -/
theorem emitted_eq_vendorAttrs_iff (attrs : List PaxAttr) :
    emitted attrs = vendorAttrs attrs ↔
      attrs.Pairwise (fun a b => b.isVendor = true → a.isVendor = true) ∧
        ∀ k v, PaxAttr.vendor k v ∈ attrs → ComesOut k.text := by
  induction attrs with
  | nil => simp [emitted, vendorAttrs]
  | cons a attrs ih =>
      cases a with
      | ustar k v =>
          -- Nothing is emitted, so no vendor attribute may follow.
          rw [emitted, vendorAttrs, List.pairwise_cons, eq_comm, vendorAttrs_eq_nil]
          constructor
          · intro hno
            refine ⟨⟨?_, ?_⟩, ?_⟩
            · intro b hb hv
              rw [hno b hb] at hv
              cases hv
            · refine List.pairwise_iff_forall_sublist.mpr ?_
              intro b c hsub hv
              rw [hno c (hsub.subset (by simp))] at hv
              cases hv
            · intro k' v' hmem
              rcases List.mem_cons.mp hmem with h | hmem
              · cases h
              · cases hno _ hmem
          · rintro ⟨⟨hfirst, -⟩, -⟩ b hb
            cases hv : b.isVendor with
            | false => rfl
            | true => cases hfirst b hb hv
      | vendor k v =>
          rw [emitted, vendorAttrs, List.pairwise_cons]
          have hhead : ∀ b ∈ attrs, b.isVendor = true → (PaxAttr.vendor k v).isVendor = true :=
            fun _ _ _ => rfl
          constructor
          · intro h
            split at h
            · next hok =>
                simp only [List.cons.injEq, Prod.mk.injEq, and_true] at h
                obtain ⟨hpair, hall⟩ := ih.mp h.2
                refine ⟨⟨hhead, hpair⟩, ?_⟩
                intro k' v' hmem
                rcases List.mem_cons.mp hmem with he | hmem
                · cases he
                  exact ⟨hok, h.1⟩
                · exact hall k' v' hmem
            · cases h
          · rintro ⟨⟨-, hpair⟩, hall⟩
            obtain ⟨hok, hre⟩ := hall k v (by simp)
            rw [if_pos hok, hre, ih.mpr ⟨hpair, fun k' v' h => hall k' v' (by simp [h])⟩]

/-! ## When the attributes survive -/

/-- The pass keeps the vendor attributes exactly when all of them are emitted and their heads
stay. -/
theorem xattrsSurvive_iff_emitted (erange : Bool) (hdr : FileHdr) (buf : ExthdrBuffer)
    {attrs : List PaxAttr} {rs : List Bytes} (hrs : List.Forall₂ PaxAttr.RecordedBy attrs rs)
    (pad : Bytes) {len : Int32} (hlen : len.toInt = rs.flatten.length)
    (hmax : rs.flatten.length ≤ 2 ^ 30) :
    XattrsSurvive erange hdr buf (rs.flatten ++ pad) len attrs ↔
      emitted attrs = vendorAttrs attrs ∧ HeadsStay (emitted attrs) 0 buf.strb.str.length := by
  have hbound := length_recordsOf_emitted_le hrs
  rw [XattrsSurvive]
  rcases xattrPass_eq erange hdr buf hrs pad hlen hmax with h | ⟨h, a, ha, hbad⟩
  · rw [h]
    simp only [Outcome.returned.injEq, Option.some.injEq]
    exact recordsAt_eq_recordsOf_iff buf.opened (by omega) (emitted_noEquals attrs)
      (vendorAttrs_noEquals attrs)
  · rw [h]
    simp only [Outcome.returned.injEq, reduceCtorEq, false_iff]
    rintro ⟨he, -⟩
    have hall := ((emitted_eq_vendorAttrs_iff attrs).mp he).2
    cases a with
    | ustar k v => exact hbad (PaxAttr.keywordOk_of_not_isVendor rfl)
    | vendor k v => exact hbad (hall k v ha).1

/-- The pass keeps the vendor attributes exactly when none of them stands
behind a ustar attribute, every one has a keyword of three parts that comes
out as it was, and no head of a record loses its end in the buffer. -/
theorem xattrsSurvive_iff (erange : Bool) (hdr : FileHdr) (buf : ExthdrBuffer)
    {attrs : List PaxAttr} {rs : List Bytes} (hrs : List.Forall₂ PaxAttr.RecordedBy attrs rs)
    (pad : Bytes) {len : Int32} (hlen : len.toInt = rs.flatten.length)
    (hmax : rs.flatten.length ≤ 2 ^ 30) :
    XattrsSurvive erange hdr buf (rs.flatten ++ pad) len attrs ↔
      attrs.Pairwise (fun a b => b.isVendor = true → a.isVendor = true) ∧
        (∀ k v, PaxAttr.vendor k v ∈ attrs → k.ThreePart) ∧
        HeadsStay (vendorAttrs attrs) 0 buf.strb.str.length := by
  rw [xattrsSurvive_iff_emitted erange hdr buf hrs pad hlen hmax, ← and_assoc]
  have hemitted := emitted_eq_vendorAttrs_iff attrs
  simp only [comesOut_iff] at hemitted
  rw [← hemitted]
  exact and_congr_right fun he => by rw [he]

/-- The keyword `V.n.a`. -/
def shortKeyword : VendorKeyword where
  vendor := ⟨⟨chars ['V'], by decide⟩, by decide, List.all_eq_true.mp (by decide)⟩
  vendorUpper := by decide
  namespaceName := some ⟨⟨chars ['n'], by decide⟩, by decide, List.all_eq_true.mp (by decide)⟩
  name := ⟨⟨chars ['a'], by decide⟩, by decide, List.all_eq_true.mp (by decide)⟩

/-- A record of that keyword, with an empty value. -/
def shortRecord : Bytes := chars ['9', ' ', 'V', '.', 'n', '.', 'a', '=', '\n']

theorem recordedBy_shortRecord : (PaxAttr.vendor shortKeyword []).RecordedBy shortRecord :=
  ⟨chars ['9'], by decide, List.all_eq_true.mp (by decide), by decide, by decide⟩

/-- The keyword `V.n.b`. -/
def otherKeyword : VendorKeyword where
  vendor := ⟨⟨chars ['V'], by decide⟩, by decide, List.all_eq_true.mp (by decide)⟩
  vendorUpper := by decide
  namespaceName := some ⟨⟨chars ['n'], by decide⟩, by decide, List.all_eq_true.mp (by decide)⟩
  name := ⟨⟨chars ['b'], by decide⟩, by decide, List.all_eq_true.mp (by decide)⟩

/-- A buffer that has just been opened. -/
def shortBuffer : ExthdrBuffer where
  strb := Misc.strobOpen 16
  opened := by decide
  size_lt := by decide

/-- A record of a uid. -/
def uidRecord : Bytes := chars ['8', ' ', 'u', 'i', 'd', '=', '5', '\n']

theorem recordedBy_uidRecord : (PaxAttr.ustar .uid (chars ['5'])).RecordedBy uidRecord :=
  ⟨chars ['8'], by decide, List.all_eq_true.mp (by decide), by decide, by decide⟩

/-- Two vendor records with values, and a uid behind them: `12 V.n.a=xy`, `13 V.n.b=x=y`. -/
def threeAttrs : List PaxAttr :=
  [.vendor shortKeyword (chars ['x', 'y']), .vendor otherKeyword (chars ['x', '=', 'y']),
    .ustar .uid (chars ['5'])]

def threeRecords : List Bytes :=
  [chars ['1', '2', ' ', 'V', '.', 'n', '.', 'a', '=', 'x', 'y', '\n'],
    chars ['1', '3', ' ', 'V', '.', 'n', '.', 'b', '=', 'x', '=', 'y', '\n'], uidRecord]

theorem recordedBy_threeRecords : List.Forall₂ PaxAttr.RecordedBy threeAttrs threeRecords :=
  .cons ⟨chars ['1', '2'], by decide, List.all_eq_true.mp (by decide), by decide, by decide⟩
    (.cons ⟨chars ['1', '3'], by decide, List.all_eq_true.mp (by decide), by decide, by decide⟩
      (.cons recordedBy_uidRecord .nil))

theorem xattrsSurvive_threeRecords :
    XattrsSurvive false {} shortBuffer (threeRecords.flatten ++ []) 33 threeAttrs :=
  (xattrsSurvive_iff false {} shortBuffer recordedBy_threeRecords [] (by decide) (by decide)).mpr
    ⟨by decide, by
      intro k v hmem
      simp only [threeAttrs, List.mem_cons, List.not_mem_nil, or_false, PaxAttr.vendor.injEq,
        reduceCtorEq] at hmem
      obtain ⟨rfl, -⟩ | ⟨rfl, -⟩ := hmem
      · exact ⟨_, rfl, by decide, by decide, by decide, by decide⟩
      · exact ⟨_, rfl, by decide, by decide, by decide, by decide⟩,
    headsStay_of_le shortBuffer.opened (by decide)⟩

/-- A uid before the vendor attribute, and the vendor attribute is lost. -/
theorem not_xattrsSurvive_behind_uid :
    ¬ XattrsSurvive false {} shortBuffer
      ([chars ['8', ' ', 'u', 'i', 'd', '=', '5', '\n'], shortRecord].flatten ++ []) 17
      [.ustar .uid (chars ['5']), .vendor shortKeyword []] := by
  have huid : (PaxAttr.ustar .uid (chars ['5'])).RecordedBy
      (chars ['8', ' ', 'u', 'i', 'd', '=', '5', '\n']) := recordedBy_uidRecord
  rw [xattrsSurvive_iff_emitted false {} shortBuffer
    (.cons huid (.cons recordedBy_shortRecord .nil)) [] (by decide) (by decide)]
  rintro ⟨h, -⟩
  cases h

end Swbis.Taru
