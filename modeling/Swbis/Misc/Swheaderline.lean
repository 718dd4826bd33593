import Swbis.Lib.Strtol
import Mathlib.Data.List.Induction
import Swbis.Lib.Outcome
import Swbis.Taru.Name

/-!
# Lines of parsed metadata

The parser writes one line for each object, attribute and extended definition:
the length of the value, the type, the level, the keyword and the value.  The
functions that read such a line end the keyword and the value with a NUL, in
place, so a line that has been read is not the line that was written: `Marks`
says what has been ended.  Each reading function gives what was written,
whatever the marks are.
-/

namespace Swbis.Misc

open CLib Taru

/-! ## What the parser writes -/

/-- `SWPARSE_MD_TYPE` -/
inductive MdType where
  | obj
  | att
  | ext
  | fileref
deriving DecidableEq

/-- The letter of a type. -/
def MdType.letter : MdType → UInt8
  | obj => 79
  | att => 65
  | ext => 69
  | fileref => 70

theorem MdType.letter_eq_iff {s t : MdType} : s.letter = t.letter ↔ s = t := by
  cases s <;> cases t <;> decide

/-- `%-4d`: at least `SWPARSE_MKUP_LEN_WIDTH` columns. -/
def lenField (n : Nat) : Bytes :=
  decimal.render n ++ List.replicate (4 - (decimal.render n).length) 32

/-- The length of what is behind the first blank.  A string without a blank is the keyword of an
object, whose buffer has been opened for it: there are only NULs behind it. -/
def attributeValueLength (s : Bytes) : Nat := ((s.dropWhile (!isSpace ·)).drop 1).length

/-- `swparse_construct_attribute`, for `SWPARSE_ACMD_EMIT` and `SWPARSE_FORM_MKUP_LEN`. -/
def swparseConstructAttribute (strb : CString) (level : Nat) (keytype : MdType) : Option Bytes :=
  if 10 < level then none
  else
    let ptr := swlibProcessHexEscapes (if strb.strlen = 0 then ⟨[34, 34], by decide⟩ else strb)
    some (lenField (attributeValueLength ptr.bytes) ++
      [32, keytype.letter] ++ decimal.fixed 2 level ++ [32] ++ ptr.bytes ++ [10])

/-! ## Reading a line -/

/-- The test for a type letter. -/
def isMdType (c : UInt8) : Bool :=
  c == MdType.att.letter || c == MdType.obj.letter || c == MdType.ext.letter ||
    c == MdType.fileref.letter

/-- `swheaderline_get_type_pointer`, as an index into the line. -/
def swheaderlineGetTypePointer (line : Bytes) : Option Nat :=
  if decimal.isDigit (line.getD 0 0) then
    if line.getD 4 0 = 32 then some 5
    else
      -- long value, the line image has shifted
      let t := (decimal.run line).length
      if line.getD t 0 ≠ 32 then none
      else if isMdType (line.getD (t + 1) 0) then some (t + 1)
      else none
  else some 0

/-- `swheaderline_get_type` -/
def swheaderlineGetType (line : Bytes) : UInt8 :=
  match swheaderlineGetTypePointer line with
  | some p => line.getD p 0
  | none => 0

/-- `swheaderline_get_level`: only the digit of the ones is scanned. -/
def swheaderlineGetLevel (line : Bytes) : Outcome Int :=
  match swheaderlineGetTypePointer line with
  | some p => .returned ((line.getD (p + 2) 0).toInt8.toInt - 48)
  | none => .exited 2

/-- Where the type is, as `swheaderline_get_keyword` finds it. -/
def keywordTypePointer (line : Bytes) : Option Nat :=
  let t := if decimal.isDigit (line.getD 0 0) then 5 else 0
  if isMdType (line.getD t 0) then some t else swheaderlineGetTypePointer line

/-- `swheaderline_get_keyword`: where the keyword is, and the line with a NUL behind it. -/
def swheaderlineGetKeyword (line : Bytes) : Option (Nat × Bytes) :=
  (keywordTypePointer line).map fun t =>
    let ret := t + 3 + ((line.drop (t + 3)).takeWhile isSpace).length
    let stop := ret + ((line.drop ret).takeWhile fun c => c != 0 && !isSpace c).length
    (ret, line.set stop 0)

/-- The sum over the digits, with `mytens`. -/
def digitSum : Bytes → Int
  | [] => 0
  | b :: ds => (b.toInt8.toInt - 48) * 10 ^ ds.length + digitSum ds

/-- `swheaderline_get_value_length` -/
def swheaderlineGetValueLength (line : Bytes) : Outcome Int :=
  if decimal.isDigit (line.getD 0 0) then
    let ds := line.takeWhile fun c => c != 0 && !isSpace c
    -- `MAGNITUDE_ARRAY_LEN`
    if 10 ≤ ds.length then .exited 33 else .returned (digitSum ds)
  else .returned (-1)

/-- `get_value`: where the value is, its length, and the line, with a NUL behind the value if
`terminate`. -/
def getValue (terminate : Bool) (line : Bytes) : Outcome (Option (Nat × Int × Bytes)) :=
  match swheaderlineGetKeyword line with
  | none => .returned none
  | some (ret, line) =>
      let behind := ret + (CString.ofMem (line.drop ret)).strlen
      if swheaderlineGetType line = MdType.obj.letter then .returned (some (behind, 0, line))
      else do
        let len ← swheaderlineGetValueLength line
        let line := if terminate then line.set (behind + 1 + len).toNat 0 else line
        .returned (some (behind + 1, len, line))

/-! ## What is read at a line -/

/-- A byte of a keyword: no blank and no backslash. -/
def isKeywordByte (c : UInt8) : Bool := c != 0 && !isSpace c && c != 92

/-- The keywords that the lexer lets through. -/
structure Keyword where
  bytes : Bytes
  ne_nil : bytes ≠ []
  plain : bytes.all isKeywordByte = true
deriving DecidableEq

theorem Keyword.mem_plain (kw : Keyword) :
    ∀ c ∈ kw.bytes, (c != 0 && !isSpace c) = true ∧ c ≠ 92 := by
  intro c hc
  have hplain := List.all_eq_true.mp kw.plain c hc
  rw [isKeywordByte, Bool.and_eq_true, bne_iff_ne] at hplain
  exact hplain

/-- What is in front of a keyword. -/
def lineHead (len : Nat) (type : MdType) (level : Nat) : Bytes :=
  lenField len ++ [32, type.letter] ++ decimal.fixed 2 level ++ [32]

section

variable (n level : Nat) (type : MdType) (rest : Bytes)

theorem isMdType_letter : isMdType type.letter = true := by
  cases type <;> rfl

theorem isMdType_of_isDigit {c : UInt8} (h : decimal.isDigit c = true) : isMdType c = false := by
  rw [Bool.eq_false_iff]
  intro hmd
  rw [isMdType] at hmd
  simp only [Bool.or_eq_true, beq_iff_eq] at hmd
  rcases hmd with ((rfl | rfl) | rfl) | rfl
  · exact absurd h (by decide)
  · exact absurd h (by decide)
  · exact absurd h (by decide)
  · exact absurd h (by decide)

theorem ne_blank_of_isDigit {c : UInt8} (h : decimal.isDigit c = true) : c ≠ 32 := by
  rintro rfl
  exact absurd h (by decide)

theorem lenField_of_short {n : Nat} (h : (decimal.render n).length ≤ 4) : (lenField n).length = 4 := by
  rw [lenField, List.length_append, List.length_replicate]
  omega

theorem lenField_of_long {n : Nat} (h : 4 < (decimal.render n).length) :
    lenField n = decimal.render n := by
  rw [lenField, Nat.sub_eq_zero_of_le (Nat.le_of_lt h), List.replicate_zero, List.append_nil]

theorem getD_append_length (xs : Bytes) (c : UInt8) (ys : Bytes) :
    (xs ++ c :: ys).getD xs.length 0 = c := by
  rw [List.getD_eq_getElem?_getD, List.getElem?_append_right (Nat.le_refl _), Nat.sub_self]
  rfl

/-- A digit of a numeral at the front. -/
theorem isDigit_getD_render {i : Nat} (hi : i < (decimal.render n).length) (ys : Bytes) :
    decimal.isDigit ((decimal.render n ++ ys).getD i 0) = true := by
  rw [List.getD_eq_getElem?_getD, List.getElem?_append_left hi, List.getElem?_eq_getElem hi,
    Option.getD_some]
  exact decimal.isDigit_of_mem_render n _ (List.getElem_mem hi)

theorem isDigit_lenField (ys : Bytes) :
    decimal.isDigit ((lenField n ++ ys).getD 0 0) = true := by
  rw [lenField, List.append_assoc]
  exact isDigit_getD_render n (List.length_pos_iff.mpr (decimal.render_ne_nil n)) _

theorem getTypePointer_eq :
    swheaderlineGetTypePointer (lenField n ++ 32 :: type.letter :: rest) =
      some ((lenField n).length + 1) := by
  have hletter : (lenField n ++ 32 :: type.letter :: rest).getD ((lenField n).length + 1) 0 =
      type.letter := by
    have hget := getD_append_length (lenField n ++ [32]) type.letter rest
    rwa [List.length_append, List.append_assoc] at hget
  rw [swheaderlineGetTypePointer, if_pos (isDigit_lenField n _)]
  rcases Nat.lt_or_ge 4 (decimal.render n).length with hlong | hshort
  · have hfield := lenField_of_long hlong
    rw [hfield] at hletter ⊢
    have hrun : decimal.run (decimal.render n ++ 32 :: type.letter :: rest) = decimal.render n :=
      decimal.run_append_stop (decimal.isDigit_of_mem_render n) (by decide) _
    rw [if_neg (ne_blank_of_isDigit (isDigit_getD_render n hlong _)), hrun]
    dsimp only
    rw [getD_append_length, hletter, if_neg (by decide), if_pos (isMdType_letter type)]
  · have hlen := lenField_of_short hshort
    have hblank := getD_append_length (lenField n) 32 (type.letter :: rest)
    rw [hlen] at hblank ⊢
    rw [if_pos hblank]

theorem keywordTypePointer_eq :
    keywordTypePointer (lenField n ++ 32 :: type.letter :: rest) =
      some ((lenField n).length + 1) := by
  rw [keywordTypePointer, if_pos (isDigit_lenField n _)]
  rcases Nat.lt_or_ge 4 (decimal.render n).length with hlong | hshort
  · rw [getTypePointer_eq]
    have hfield := lenField_of_long hlong
    rw [hfield]
    refine if_neg ?_
    rw [Bool.not_eq_true]
    rcases Nat.lt_or_ge 5 (decimal.render n).length with hsix | hfive
    · exact isMdType_of_isDigit (isDigit_getD_render n hsix _)
    · have hlen : (decimal.render n).length = 5 := Nat.le_antisymm hfive hlong
      have hblank := getD_append_length (decimal.render n) 32 (type.letter :: rest)
      rw [hlen] at hblank
      rw [hblank]
      rfl
  · have hlen := lenField_of_short hshort
    have hget := getD_append_length (lenField n ++ [32]) type.letter rest
    rw [List.length_append, List.append_assoc] at hget
    rw [hlen] at hget ⊢
    rw [show (lenField n ++ 32 :: type.letter :: rest).getD 5 0 = type.letter from hget,
      if_pos (isMdType_letter type)]

theorem lineHead_append :
    lineHead n type level ++ rest =
      lenField n ++ 32 :: type.letter :: (decimal.fixed 2 level ++ 32 :: rest) := by
  simp [lineHead]

theorem length_lineHead : (lineHead n type level).length = (lenField n).length + 1 + 3 + 1 := by
  simp [lineHead]

theorem getType_eq : swheaderlineGetType (lineHead n type level ++ rest) = type.letter := by
  rw [swheaderlineGetType, lineHead_append, getTypePointer_eq]
  have hget := getD_append_length (lenField n ++ [32]) type.letter
    (decimal.fixed 2 level ++ 32 :: rest)
  rwa [List.length_append, List.append_assoc] at hget

theorem digit_sub {d : Nat} (h : d < 10) :
    (UInt8.ofNat (48 + d)).toInt8.toInt - 48 = (d : Int) := by
  revert d
  decide

/-- Only the last digit of the level comes back. -/
theorem getLevel_eq :
    swheaderlineGetLevel (lineHead n type level ++ rest) = .returned ((level % 10 : Nat) : Int) := by
  rw [swheaderlineGetLevel, lineHead_append, getTypePointer_eq]
  have hget := getD_append_length
    (lenField n ++ [32, type.letter, decimal.enc (level / 10 % 10)]) (decimal.enc (level % 10))
    (32 :: rest)
  rw [List.length_append, List.append_assoc] at hget
  have hdigit : (decimal.enc (level % 10)).toInt8.toInt - 48 = ((level % 10 : Nat) : Int) :=
    digit_sub (Nat.mod_lt _ (by decide))
  rw [← hdigit]
  exact congrArg (fun c : UInt8 => Outcome.returned (c.toInt8.toInt - 48)) hget

/-- The keyword is found where it is, and ended. -/
theorem getKeyword_eq (kw : Keyword) {c : UInt8} (hc : (c != 0 && !isSpace c) = false) :
    swheaderlineGetKeyword (lineHead n type level ++ (kw.bytes ++ c :: rest)) =
      some ((lineHead n type level).length, lineHead n type level ++ (kw.bytes ++ 0 :: rest)) := by
  obtain ⟨k, ks, hk⟩ := List.exists_cons_of_ne_nil kw.ne_nil
  have hfirst : isSpace k = false := by
    have hplain := (kw.mem_plain k (by rw [hk]; exact List.mem_cons_self)).1
    rw [Bool.and_eq_true, Bool.not_eq_true'] at hplain
    exact hplain.2
  have hdrop : (lineHead n type level ++ (kw.bytes ++ c :: rest)).drop ((lenField n).length + 1 + 3) =
      32 :: (kw.bytes ++ c :: rest) := by
    have hsplit : lineHead n type level ++ (kw.bytes ++ c :: rest) =
        (lenField n ++ [32, type.letter] ++ decimal.fixed 2 level) ++ 32 :: (kw.bytes ++ c :: rest) := by
      simp [lineHead]
    rw [hsplit]
    exact List.drop_left' (by simp)
  have hblank : (32 :: (kw.bytes ++ c :: rest)).takeWhile isSpace = [32] := by
    rw [hk, List.takeWhile_cons_of_pos (by decide), List.cons_append,
      List.takeWhile_cons_of_neg (by simp [hfirst])]
  have hword : (kw.bytes ++ c :: rest).takeWhile (fun c => c != 0 && !isSpace c) = kw.bytes :=
    takeWhile_append_stop (fun d hd => (kw.mem_plain d hd).1) hc rest
  have hret : (lenField n).length + 1 + 3 + [(32 : UInt8)].length = (lineHead n type level).length :=
    (length_lineHead n level type).symm
  have hpointer : keywordTypePointer (lineHead n type level ++ (kw.bytes ++ c :: rest)) =
      some ((lenField n).length + 1) := by
    rw [lineHead_append, keywordTypePointer_eq]
  rw [swheaderlineGetKeyword, hpointer, Option.map_some]
  dsimp only
  rw [hdrop, hblank, hret, List.drop_left, hword, List.set_append_right _ _ (by omega),
    Nat.add_sub_cancel_left, List.set_append_right _ _ (Nat.le_refl _), Nat.sub_self]
  rfl

theorem digitSum_append (ds : Bytes) (b : UInt8) :
    digitSum (ds ++ [b]) = digitSum ds * 10 + (b.toInt8.toInt - 48) := by
  induction ds with
  | nil => simp [digitSum]
  | cons d ds ih =>
      rw [List.cons_append, digitSum, ih, digitSum, List.length_append, List.length_singleton, pow_succ]
      ring

theorem digitSum_eq_value {ds : Bytes} (h : ∀ b ∈ ds, decimal.isDigit b = true) :
    digitSum ds = (decimal.value ds : Int) := by
  induction ds using List.reverseRecOn with
  | nil => rfl
  | append_singleton ds b ih =>
      have hdigits : ∀ b ∈ ds, decimal.isDigit b = true := fun c hc => h c (List.mem_append_left _ hc)
      obtain ⟨v, hv⟩ := Option.isSome_iff_exists.mp (h b (by simp))
      rw [digitSum_append, ih hdigits, Radix.value_append_singleton, Radix.snoc, hv, Option.getD_some,
        decimal_base]
      have hrange : 48 ≤ b.toNat ∧ b.toNat < 48 + 10 ∧ v = b.toNat - 48 := by
        change decDigit 10 b = some v at hv
        rw [decDigit] at hv
        split at hv
        next hb => exact ⟨hb.1, hb.2, (Option.some.inj hv).symm⟩
        next => cases hv
      have hb : b = UInt8.ofNat (48 + v) := by
        rw [hrange.2.2, Nat.add_sub_cancel' hrange.1, UInt8.ofNat_toNat]
      rw [hb, digit_sub (by omega)]
      push_cast
      ring

/-- The first word of a line is the length. -/
theorem lengthWord_eq :
    (lineHead n type level ++ rest).takeWhile (fun c => c != 0 && !isSpace c) = decimal.render n := by
  obtain ⟨more, hmore⟩ : ∃ more, lineHead n type level ++ rest = decimal.render n ++ 32 :: more := by
    refine ⟨List.replicate (4 - (decimal.render n).length) 32 ++
      type.letter :: (decimal.fixed 2 level ++ 32 :: rest), ?_⟩
    have hshift : ∀ (k : Nat) (xs : Bytes),
        List.replicate k 32 ++ 32 :: xs = 32 :: (List.replicate k 32 ++ xs) := by
      intro k xs
      rw [← List.cons_append, ← List.replicate_succ, List.replicate_succ', List.append_assoc]
      rfl
    rw [lineHead_append, lenField, List.append_assoc, hshift]
  have hplain : ∀ b ∈ decimal.render n, (b != 0 && !isSpace b) = true := by
    intro b hb
    have hd := decimal.isDigit_of_mem_render n b hb
    rw [Bool.and_eq_true, Bool.not_eq_true', bne_iff_ne]
    refine ⟨?_, isSpace_of_isDigit hd⟩
    rintro rfl
    exact absurd hd (by decide)
  rw [hmore]
  exact takeWhile_append_stop hplain (by decide) more

/-- The length that has been written, if it has at most nine digits.  With more of them the
process is ended. -/
theorem getValueLength_head :
    swheaderlineGetValueLength (lineHead n type level ++ rest) =
      if n < 10 ^ 9 then .returned (n : Int) else .exited 33 := by
  have hdigit : decimal.isDigit ((lineHead n type level ++ rest).getD 0 0) = true := by
    rw [lineHead_append]
    exact isDigit_lenField n _
  have hlen : (decimal.render n).length ≤ 9 ↔ n < 10 ^ 9 := decimal.length_render_le_iff 8 n
  rw [swheaderlineGetValueLength, if_pos hdigit, lengthWord_eq]
  dsimp only
  by_cases hn : n < 10 ^ 9
  · rw [if_pos hn, if_neg (by omega), digitSum_eq_value (decimal.isDigit_of_mem_render n),
      decimal.value_render]
  · rw [if_neg hn, if_pos (by omega)]

theorem getValueLength_eq {n : Nat} (hn : n < 10 ^ 9) :
    swheaderlineGetValueLength (lineHead n type level ++ rest) = .returned (n : Int) := by
  rw [getValueLength_head, if_pos hn]

end

/-! ## Hexadecimal escapes behind a keyword -/

theorem strstrHexEscape_append_plain {front : Bytes} (h : (92 : UInt8) ∉ front) (s : Bytes) :
    strstrHexEscape (front ++ s) = (strstrHexEscape s).map fun p => (front ++ p.1, p.2) := by
  induction front with
  | nil => simp
  | cons b front ih =>
      rw [List.mem_cons, not_or] at h
      have hb : ¬(b = 92 ∧ (front ++ s).head? = some 120) := fun hc => h.1 hc.1.symm
      rw [List.cons_append, strstrHexEscape, if_neg hb, ih h.2, Option.map_map]
      rfl

theorem doesHaveHexEscape_append_plain {front : Bytes} (h : (92 : UInt8) ∉ front) (s : Bytes) :
    doesHaveHexEscape (front ++ s) =
      (doesHaveHexEscape s).map fun p => (front ++ p.1, p.2) := by
  rw [doesHaveHexEscape, doesHaveHexEscape, strstrHexEscape_append_plain h]
  cases strstrHexEscape s with
  | none => rfl
  | some p =>
      have hlast : (front ++ p.1).getLast? = some 92 ↔ p.1.getLast? = some 92 := by
        rw [List.getLast?_append]
        cases hp : p.1.getLast? with
        | some c => rfl
        | none =>
            refine iff_of_false (fun hc => h ?_) (by simp)
            exact List.mem_of_getLast? hc
      rw [Option.map_some]
      dsimp only
      rw [if_congr hlast rfl rfl]
      split
      next => rfl
      next =>
        split
        next d1 d2 rest =>
          rw [Option.map_map]
          rfl
        next => rfl

theorem processAllHexEscapes_stable {n m : Nat} {s : Bytes} (hn : s.length ≤ n) (hm : s.length ≤ m) :
    processAllHexEscapes n s = processAllHexEscapes m s := by
  induction n generalizing m s with
  | zero =>
      obtain rfl : s = [] := List.length_eq_zero_iff.mp (Nat.le_zero.mp hn)
      cases m with
      | zero => rfl
      | succ m => rfl
  | succ n ih =>
      cases m with
      | zero =>
          obtain rfl : s = [] := List.length_eq_zero_iff.mp (Nat.le_zero.mp hm)
          rfl
      | succ m =>
          rw [processAllHexEscapes, processAllHexEscapes]
          split
          next => rfl
          next before value rest h =>
            have hlen := length_of_doesHaveHexEscape h
            have hrest : processAllHexEscapes n rest = processAllHexEscapes m rest :=
              ih (by omega) (by omega)
            rw [hrest]

theorem processAllHexEscapes_append_plain {front : Bytes} (h : (92 : UInt8) ∉ front) {n : Nat}
    {s : Bytes} (hn : s.length ≤ n) :
    processAllHexEscapes n (front ++ s) = front ++ processAllHexEscapes s.length s := by
  rw [processAllHexEscapes_stable (Nat.le_refl _) hn]
  cases n with
  | zero =>
      rw [processAllHexEscapes, processAllHexEscapes]
  | succ n =>
      rw [processAllHexEscapes, processAllHexEscapes, doesHaveHexEscape_append_plain h]
      cases doesHaveHexEscape s with
      | none => rfl
      | some p => exact List.append_assoc _ _ _

/-- The escapes of a value are replaced behind its keyword as they are alone. -/
theorem swlibProcessHexEscapes_append {front s : CString} (h : (92 : UInt8) ∉ front.bytes) :
    swlibProcessHexEscapes (front.append s) = front.append (swlibProcessHexEscapes s) := by
  have hlen : s.bytes.length ≤ (front.append s).strlen := by
    rw [CString.strlen_append]
    exact Nat.le_add_left _ _
  refine CString.ext ?_
  rw [swlibProcessHexEscapes, CString.bytes_append, processAllHexEscapes_append_plain h hlen,
    CString.ofMem_append]
  rfl

/-- A string without a backslash has no escape. -/
theorem swlibProcessHexEscapes_plain {s : CString} (h : (92 : UInt8) ∉ s.bytes) :
    swlibProcessHexEscapes s = s := by
  have hempty : s.append .empty = s := CString.ext (List.append_nil _)
  have happ := swlibProcessHexEscapes_append (s := .empty) h
  rwa [hempty, show swlibProcessHexEscapes .empty = .empty from rfl, hempty] at happ

/-! ## Lines, and what has been ended in them -/

/-- What a line is about, with the value as the parser has stored it. -/
inductive Content where
  | obj
  | att (value : CString)
  | ext (value : CString)
deriving DecidableEq

namespace Content

/-- The type of the line. -/
def type : Content → MdType
  | obj => .obj
  | att _ => .att
  | ext _ => .ext

@[simp] theorem type_obj : obj.type = .obj := rfl

@[simp] theorem type_att (v : CString) : (att v).type = .att := rfl

@[simp] theorem type_ext (v : CString) : (ext v).type = .ext := rfl

/-- The value that is written: the parser replaces its hexadecimal escapes. -/
def value : Content → CString
  | obj => .empty
  | att v => swlibProcessHexEscapes v
  | ext v => swlibProcessHexEscapes v

end Content

/-- A line to be written: values are shorter than what the length field can say. -/
structure MdLine where
  content : Content
  level : Nat
  keyword : Keyword
  level_le : level ≤ 10
  length_lt : content.value.strlen < 10 ^ 9
deriving DecidableEq

/-- What the reading functions have ended in a line. -/
structure Marks where
  keyed : Bool
  cut : Bool
deriving DecidableEq

namespace Keyword

theorem zero_not_mem (kw : Keyword) : (0 : UInt8) ∉ kw.bytes :=
  fun h => absurd (kw.mem_plain 0 h).1 (by decide)

/-- The keyword as a string. -/
def str (kw : Keyword) : CString := ⟨kw.bytes, kw.zero_not_mem⟩

theorem backslash_not_mem (kw : Keyword) : (92 : UInt8) ∉ kw.bytes := fun h => (kw.mem_plain 92 h).2 rfl

end Keyword

/-! ## Lines, whatever stands in the place of the value -/

/-- A line.  What is in the place of the value is as long as the length field says, and need not
be a string: a shorter value may have been stored over it. -/
structure MdRecord where
  type : MdType
  level : Nat
  keyword : Keyword
  area : Bytes
  type_ne : type ≠ .fileref
  area_nil : type = .obj → area = []
  length_lt : area.length < 10 ^ 9
deriving DecidableEq

namespace MdRecord

variable (r : MdRecord)

/-- What is in front of the keyword. -/
def head : Bytes := lineHead r.area.length r.type r.level

/-- What is behind the keyword. -/
def tail (m : Marks) : Bytes :=
  if r.type = .obj then [if m.keyed then 0 else 10]
  else (if m.keyed then 0 else 32) :: (r.area ++ [if m.cut then 0 else 10])

/-- The line in memory. -/
def image (m : Marks) : Bytes := r.head ++ (r.keyword.bytes ++ r.tail m)

/-- The number of bytes of the line. -/
def size : Nat := (r.image ⟨false, false⟩).length

/-- Where the value of a line is: for an object, the NUL behind its keyword. -/
def valueAt : Nat := r.head.length + r.keyword.bytes.length + if r.type = .obj then 0 else 1

/-- The value, as the string that it is once it is ended. -/
def value : CString := CString.ofMem r.area

theorem size_eq : r.size = r.head.length + r.keyword.bytes.length + 1 +
    (if r.type = .obj then 0 else r.area.length + 1) := by
  rw [size, image, tail, List.length_append, List.length_append]
  split
  next => rfl
  next =>
    rw [List.length_cons, List.length_append, List.length_singleton]
    omega

theorem size_pos : 0 < r.size := by
  have hsize := r.size_eq
  omega

theorem length_image (m : Marks) : (r.image m).length = r.size := by
  rw [size, image, image, tail, tail]
  split
  next => simp
  next => simp

/-- Ending the value of an object ends nothing. -/
theorem image_obj (hobj : r.type = .obj) (m : Marks) (cut : Bool) :
    r.image { m with cut := cut } = r.image m := by
  rw [image, image, tail, tail, if_pos hobj, if_pos hobj]

section

variable (m : Marks) (rest : Bytes)

theorem getType_image : swheaderlineGetType (r.image m ++ rest) = r.type.letter := by
  rw [image, head, List.append_assoc]
  exact getType_eq _ _ _ _

theorem getLevel_image :
    swheaderlineGetLevel (r.image m ++ rest) = .returned ((r.level % 10 : Nat) : Int) := by
  rw [image, head, List.append_assoc]
  exact getLevel_eq _ _ _ _

theorem getValueLength_image :
    swheaderlineGetValueLength (r.image m ++ rest) = .returned (r.area.length : Int) := by
  rw [image, head, List.append_assoc]
  exact getValueLength_eq _ _ _ r.length_lt

/-- The keyword is followed by a blank, a newline or a NUL. -/
theorem tail_eq : ∃ c more, r.tail m = c :: more ∧ (c != 0 && !isSpace c) = false ∧
    r.tail { m with keyed := true } = 0 :: more := by
  have hstop : ∀ d : UInt8, isSpace d = true →
      ((if m.keyed = true then (0 : UInt8) else d) != 0 &&
        !isSpace (if m.keyed = true then (0 : UInt8) else d)) = false := by
    intro d hd
    cases m.keyed with
    | true => rfl
    | false => simp [hd]
  rw [tail, tail]
  by_cases hobj : r.type = .obj
  · rw [if_pos hobj, if_pos hobj]
    exact ⟨_, _, rfl, hstop 10 (by decide), rfl⟩
  · rw [if_neg hobj, if_neg hobj]
    exact ⟨_, _, rfl, hstop 32 (by decide), rfl⟩

/-- The keyword is ended in place. -/
theorem getKeyword_image :
    swheaderlineGetKeyword (r.image m ++ rest) =
      some (r.head.length, r.image { m with keyed := true } ++ rest) := by
  obtain ⟨c, more, htail, hc, hkeyed⟩ := r.tail_eq m
  rw [image, image, htail, hkeyed, head, List.append_assoc, List.append_assoc, List.append_assoc,
    List.append_assoc]
  exact getKeyword_eq _ _ _ _ r.keyword hc

/-- Once it is ended, the keyword is a string of its own. -/
theorem keyword_image (hm : m.keyed = true) :
    CString.ofMem ((r.image m ++ rest).drop r.head.length) = r.keyword.str := by
  obtain ⟨c, more, -, -, hkeyed⟩ := r.tail_eq m
  have hself : ({ m with keyed := true } : Marks) = m := by
    rw [← hm]
  rw [hself] at hkeyed
  rw [image, hkeyed, List.append_assoc, List.drop_left, List.append_assoc]
  exact CString.ofMem_append_nul r.keyword.str _

/-- What is in front of the value. -/
def front (keyed : Bool) : Bytes := r.head ++ r.keyword.bytes ++ [if keyed then 0 else 32]

theorem length_front (h : r.type ≠ .obj) (keyed : Bool) : (r.front keyed).length = r.valueAt := by
  rw [front, valueAt, if_neg h, List.length_append, List.length_append, List.length_singleton]

/-- The value is in the middle of the line, and ending it changes what is behind it only. -/
theorem image_append (h : r.type ≠ .obj) :
    r.image m ++ rest = r.front m.keyed ++ (r.area ++ (if m.cut then 0 else 10) :: rest) := by
  rw [image, tail, if_neg h, front]
  simp

/-- Ending the value writes over the newline. -/
theorem set_image (h : r.type ≠ .obj) :
    (r.image m ++ rest).set (r.valueAt + r.area.length) 0 =
      r.image { m with cut := true } ++ rest := by
  rw [r.image_append _ _ h, r.image_append _ _ h, ← r.length_front h m.keyed,
    List.set_append_right _ _ (Nat.le_add_right _ _), Nat.add_sub_cancel_left,
    List.set_append_right _ _ (Nat.le_refl _), Nat.sub_self]
  rfl

/-- The value is found behind the keyword, and ended if that is asked for. -/
theorem getValue_image (terminate : Bool) :
    getValue terminate (r.image m ++ rest) =
      .returned (some (r.valueAt, (r.area.length : Int),
        r.image ⟨true, m.cut || terminate⟩ ++ rest)) := by
  rw [getValue, getKeyword_image]
  dsimp only
  rw [r.keyword_image _ _ rfl, getType_image, getValueLength_image]
  have hstr : r.keyword.str.strlen = r.keyword.bytes.length := rfl
  by_cases hobj : r.type = .obj
  · have hsame : r.image ⟨true, m.cut || terminate⟩ = r.image ⟨true, m.cut⟩ :=
      r.image_obj hobj ⟨true, m.cut⟩ _
    rw [hsame, hobj, if_pos rfl, valueAt, if_pos hobj, r.area_nil hobj, hstr]
    rfl
  · rw [if_neg (mt MdType.letter_eq_iff.mp hobj), Outcome.returned_bind, hstr]
    have hat : r.valueAt = r.head.length + r.keyword.bytes.length + 1 := by
      rw [valueAt, if_neg hobj]
    cases terminate with
    | false => simp [hat]
    | true =>
        have hset := r.set_image ⟨true, m.cut⟩ rest hobj
        have hto : (((r.head.length + r.keyword.bytes.length : Nat) : Int) + 1 +
            (r.area.length : Int)).toNat = r.valueAt + r.area.length := by
          omega
        rw [if_pos rfl, hto, hset, Bool.or_true, hat]

/-- An ended value is a string of its own. -/
theorem value_image :
    CString.ofMem ((r.image ⟨true, true⟩ ++ rest).drop r.valueAt) = r.value := by
  by_cases hobj : r.type = .obj
  · have hfront : r.valueAt = (r.head ++ r.keyword.bytes).length := by
      rw [valueAt, if_pos hobj, List.length_append]
      rfl
    rw [value, r.area_nil hobj, image, tail, if_pos hobj, ← List.append_assoc, List.append_assoc _ _ rest,
      hfront, List.drop_left]
    rfl
  · rw [r.image_append _ _ hobj, ← r.length_front hobj true, List.drop_left]
    exact CString.ofMem_append_end _ _

/-- The bytes in the place of a value, by its length. -/
theorem take_value_image :
    ((r.image m ++ rest).drop r.valueAt).take r.area.length = r.area := by
  by_cases hobj : r.type = .obj
  · rw [r.area_nil hobj]
    rfl
  · rw [r.image_append _ _ hobj, ← r.length_front hobj m.keyed, List.drop_left]
    exact List.take_left

end

end MdRecord

/-- A blank, as a string. -/
def blank : CString := ⟨[32], by decide⟩

/-- The parser writes a keyword, a blank and a value, with the length of the value in front. -/
theorem Keyword.construct_eq (kw : Keyword) (v : CString) {level : Nat} (hlevel : level ≤ 10)
    (type : MdType) :
    swparseConstructAttribute ((kw.str.append blank).append v) level type =
      some (lineHead (swlibProcessHexEscapes v).strlen type level ++
        (kw.bytes ++ 32 :: ((swlibProcessHexEscapes v).bytes ++ [10]))) := by
  have hkw : ∀ c ∈ kw.bytes, (!isSpace c) = true := by
    intro c hc
    have hplain := (kw.mem_plain c hc).1
    rw [Bool.and_eq_true] at hplain
    exact hplain.2
  have hne : ((kw.str.append blank).append v).strlen ≠ 0 := by
    rw [CString.strlen_append, CString.strlen_append]
    intro h
    exact kw.ne_nil (List.length_eq_zero_iff.mp
      (Nat.eq_zero_of_add_eq_zero_right (Nat.eq_zero_of_add_eq_zero_right h)))
  have hback : (92 : UInt8) ∉ (kw.str.append blank).bytes := by
    intro h
    rcases List.mem_append.mp h with h | h
    · exact kw.backslash_not_mem h
    · exact absurd (List.mem_singleton.mp h) (by decide)
  have hbytes : (swlibProcessHexEscapes ((kw.str.append blank).append v)).bytes =
      kw.bytes ++ 32 :: (swlibProcessHexEscapes v).bytes := by
    rw [swlibProcessHexEscapes_append hback, CString.bytes_append, CString.bytes_append,
      List.append_assoc]
    rfl
  have hvalue : attributeValueLength (kw.bytes ++ 32 :: (swlibProcessHexEscapes v).bytes) =
      (swlibProcessHexEscapes v).strlen := by
    rw [attributeValueLength, dropWhile_append_stop hkw (by decide)]
    rfl
  rw [swparseConstructAttribute, if_neg (Nat.not_lt.mpr hlevel), if_neg hne]
  dsimp only
  rw [hbytes, hvalue]
  simp [lineHead]

namespace MdLine

variable (l : MdLine)

/-- The string that is given to `swparse_construct_attribute`. -/
def text : CString :=
  match l.content with
  | .obj => l.keyword.str
  | .att v => (l.keyword.str.append blank).append v
  | .ext v => (l.keyword.str.append blank).append v

/-- The line that is written. -/
def emitted : Option Bytes := swparseConstructAttribute l.text l.level l.content.type

/-- What is in front of the keyword. -/
def head : Bytes := lineHead l.content.value.strlen l.content.type l.level

/-- What is behind the keyword. -/
def tail (m : Marks) : Bytes :=
  match l.content with
  | .obj => [if m.keyed then 0 else 10]
  | .att _ =>
      (if m.keyed then 0 else 32) :: (l.content.value.bytes ++ [if m.cut then 0 else 10])
  | .ext _ =>
      (if m.keyed then 0 else 32) :: (l.content.value.bytes ++ [if m.cut then 0 else 10])

/-- The line in memory. -/
def image (m : Marks) : Bytes := l.head ++ (l.keyword.bytes ++ l.tail m)

/-- The number of bytes of the line. -/
def size : Nat := (l.image ⟨false, false⟩).length

theorem length_image (m : Marks) : (l.image m).length = l.size := by
  rw [size, image, image]
  simp only [List.length_append, tail]
  cases l.content with
  | obj => rfl
  | att v => simp
  | ext v => simp

/-- The parser writes the line with nothing ended in it. -/
theorem emitted_eq : l.emitted = some (l.image ⟨false, false⟩) := by
  have hlevel : ¬10 < l.level := Nat.not_lt.mpr l.level_le
  have hkw : ∀ c ∈ l.keyword.bytes, (!isSpace c) = true := by
    intro c hc
    have hplain := (l.keyword.mem_plain c hc).1
    rw [Bool.and_eq_true] at hplain
    exact hplain.2
  have hlen : l.keyword.bytes.length ≠ 0 := fun h => l.keyword.ne_nil (List.length_eq_zero_iff.mp h)
  cases hcontent : l.content with
  | obj =>
      have hstop : l.keyword.bytes.dropWhile (!isSpace ·) = [] :=
        List.dropWhile_eq_nil_iff.mpr hkw
      have hne : l.keyword.str.strlen ≠ 0 := hlen
      rw [emitted, swparseConstructAttribute, if_neg hlevel, text, image, head, tail, hcontent]
      dsimp only
      rw [if_neg hne, swlibProcessHexEscapes_plain l.keyword.backslash_not_mem, attributeValueLength,
        show l.keyword.str.bytes = l.keyword.bytes from rfl, hstop]
      simp [lineHead, Content.value, Content.type]
  | att v =>
      rw [emitted, text, image, head, tail, hcontent]
      exact l.keyword.construct_eq v l.level_le .att
  | ext v =>
      rw [emitted, text, image, head, tail, hcontent]
      exact l.keyword.construct_eq v l.level_le .ext

/-- The line, and its value as the bytes of a string. -/
def record : MdRecord where
  type := l.content.type
  level := l.level
  keyword := l.keyword
  area := l.content.value.bytes
  type_ne := by
    cases l.content with
    | obj => decide
    | att v => exact fun h => nomatch h
    | ext v => exact fun h => nomatch h
  area_nil := by
    cases l.content with
    | obj => exact fun _ => rfl
    | att v => exact fun h => nomatch h
    | ext v => exact fun h => nomatch h
  length_lt := l.length_lt

@[simp] theorem record_type : l.record.type = l.content.type := rfl

theorem tail_of_type_ne_obj (m : Marks) (h : l.content.type ≠ .obj) :
    l.tail m = (if m.keyed then 0 else 32) ::
      (l.content.value.bytes ++ [if m.cut then 0 else 10]) := by
  rw [tail]
  cases hcontent : l.content with
  | obj => exact absurd (congrArg Content.type hcontent) h
  | att v => rfl
  | ext v => rfl

theorem content_eq_obj (h : l.content.type = .obj) : l.content = .obj := by
  cases hcontent : l.content with
  | obj => rfl
  | att v => rw [hcontent] at h; cases h
  | ext v => rw [hcontent] at h; cases h

theorem record_tail (m : Marks) : l.record.tail m = l.tail m := by
  rw [MdRecord.tail, record_type]
  by_cases hobj : l.content.type = .obj
  · rw [if_pos hobj, tail, l.content_eq_obj hobj]
  · rw [if_neg hobj, l.tail_of_type_ne_obj m hobj]
    rfl

theorem record_image (m : Marks) : l.record.image m = l.image m := by
  rw [MdRecord.image, record_tail]
  rfl

theorem record_value : l.record.value = l.content.value := CString.ofMem_bytes _

theorem record_size : l.record.size = l.size := by
  rw [MdRecord.size, record_image, size]

/-- Where the value of a line is: for an object, the NUL behind its keyword. -/
def valueAt : Nat :=
  match l.content with
  | .obj => l.head.length + l.keyword.bytes.length
  | .att _ => l.head.length + l.keyword.bytes.length + 1
  | .ext _ => l.head.length + l.keyword.bytes.length + 1

theorem valueAt_of_type_ne_obj (h : l.content.type ≠ .obj) :
    l.valueAt = l.head.length + l.keyword.bytes.length + 1 := by
  rw [valueAt]
  cases hcontent : l.content with
  | obj => exact absurd (congrArg Content.type hcontent) h
  | att v => rfl
  | ext v => rfl

theorem record_valueAt : l.record.valueAt = l.valueAt := by
  rw [MdRecord.valueAt, record_type]
  by_cases hobj : l.content.type = .obj
  · rw [if_pos hobj, valueAt, l.content_eq_obj hobj]
    rfl
  · rw [if_neg hobj, l.valueAt_of_type_ne_obj hobj]
    rfl

section

variable (m : Marks) (rest : Bytes)

theorem getType_image : swheaderlineGetType (l.image m ++ rest) = l.content.type.letter := by
  rw [← record_image]
  exact l.record.getType_image m rest

theorem getLevel_image :
    swheaderlineGetLevel (l.image m ++ rest) = .returned ((l.level % 10 : Nat) : Int) := by
  rw [← record_image]
  exact l.record.getLevel_image m rest

theorem getValueLength_image :
    swheaderlineGetValueLength (l.image m ++ rest) = .returned (l.content.value.strlen : Int) := by
  rw [← record_image]
  exact l.record.getValueLength_image m rest

/-- The keyword is ended in place. -/
theorem getKeyword_image :
    swheaderlineGetKeyword (l.image m ++ rest) =
      some (l.head.length, l.image { m with keyed := true } ++ rest) := by
  rw [← record_image, ← record_image]
  exact l.record.getKeyword_image m rest

/-- Once it is ended, the keyword is a string of its own. -/
theorem keyword_image (hm : m.keyed = true) :
    CString.ofMem ((l.image m ++ rest).drop l.head.length) = l.keyword.str := by
  rw [← record_image]
  exact l.record.keyword_image m rest hm

/-- The value is found behind the keyword, and ended if that is asked for. -/
theorem getValue_image (terminate : Bool) :
    getValue terminate (l.image m ++ rest) =
      .returned (some (l.valueAt, (l.content.value.strlen : Int),
        l.image ⟨true, m.cut || terminate⟩ ++ rest)) := by
  rw [← record_image, ← record_image, ← record_valueAt]
  exact l.record.getValue_image m rest terminate

/-- An ended value is a string of its own. -/
theorem value_image :
    CString.ofMem ((l.image ⟨true, true⟩ ++ rest).drop l.valueAt) = l.content.value := by
  rw [← record_image, ← record_valueAt, ← record_value]
  exact l.record.value_image rest

/-- The bytes of a value, by its length. -/
theorem take_value_image :
    ((l.image m ++ rest).drop l.valueAt).take l.content.value.strlen = l.content.value.bytes := by
  rw [← record_image, ← record_valueAt]
  exact l.record.take_value_image m rest

end

end MdLine

end Swbis.Misc
