import Swbis.Misc.Swheaderline

/-!
# The iterator over parsed metadata

`swheader_goto_c_next_line` steps from one line of a metadata image to the next
by the length that is written in front of the line, and not by looking for the
newline.  The step is the right one for objects and attributes, and one byte
short for extended definitions.
-/

namespace Swbis.Misc

open CLib

/-- `INT_MAX` -/
def intMax : Nat := 2 ^ 31 - 1

/-- What `swheader_goto_c_next_line` returns and leaves behind. -/
structure LineStep where
  line : Option Nat
  offset : Int
  image : Bytes
deriving DecidableEq

/-- `swheader_goto_c_next_line`, for an offset pointer that is not null. -/
def gotoCNextLine (image : Bytes) (offset : Int) (peekOnly : Bool) : Outcome LineStep :=
  if offset = intMax then .returned ⟨some 0, offset, image⟩
  else if offset < 0 then .returned ⟨some (-offset).toNat, offset, image⟩
  else
    let off := offset.toNat
    let ih := image.drop off
    let type := swheaderlineGetType ih
    if type = MdType.fileref.letter then
      -- The offset moves on also when this is only a peek.
      match (CString.ofMem ih).bytes.findIdx? (· == 10) with
      | none => .fault
      | some i => .returned ⟨some (off + i + 1), ((off + i + 1 : Nat) : Int), image⟩
    else
      match swheaderlineGetKeyword ih with
      | none => .returned ⟨none, offset, image⟩
      | some (keyw, ih) => do
          let image := image.take off ++ ih
          let n ← swheaderlineGetValueLength ih
          if n < 0 then .returned ⟨none, offset, image⟩
          else
            let n := if type = MdType.att.letter then n.toNat + 1 else n.toNat
            let line := off + (keyw + ((CString.ofMem (ih.drop keyw)).strlen + n + 1))
            if image.getD line 0 = 0 then
              .returned ⟨none, if peekOnly then offset else -1, image⟩
            else .returned ⟨some line, if peekOnly then offset else line, image⟩

/-! ## One step -/

theorem getD_append_right (xs ys : Bytes) (i : Nat) :
    (xs ++ ys).getD (xs.length + i) 0 = ys.getD i 0 := by
  rw [List.getD_eq_getElem?_getD, List.getElem?_append_right (Nat.le_add_right _ _),
    Nat.add_sub_cancel_left, ← List.getD_eq_getElem?_getD]

/-- A line starts with a digit. -/
theorem MdRecord.isDigit_image (r : MdRecord) (m : Marks) (rest : Bytes) :
    decimal.isDigit ((r.image m ++ rest).getD 0 0) = true := by
  rw [image, head, List.append_assoc, lineHead_append]
  exact isDigit_lenField _ _

theorem MdRecord.getD_image_ne_zero (r : MdRecord) (m : Marks) (rest : Bytes) :
    (r.image m ++ rest).getD 0 0 ≠ 0 := by
  intro h
  have hdigit := r.isDigit_image m rest
  rw [h] at hdigit
  exact absurd hdigit (by decide)

/-- How far the iterator goes at a line. -/
def MdRecord.stride (r : MdRecord) : Nat := if r.type = .ext then r.size - 1 else r.size

theorem MdRecord.stride_eq (r : MdRecord) : r.stride = r.head.length + (r.keyword.str.strlen +
    (if r.type.letter = MdType.att.letter then r.area.length + 1 else r.area.length) + 1) := by
  have hstr : r.keyword.str.strlen = r.keyword.bytes.length := rfl
  have htype := r.type_ne
  have harea := r.area_nil
  rw [stride, size_eq, hstr]
  cases hr : r.type with
  | obj =>
      rw [harea hr]
      simp only [MdType.letter_eq_iff, reduceCtorEq, if_true, if_false, List.length_nil]
      omega
  | att =>
      simp only [reduceCtorEq, if_true, if_false]
      omega
  | ext =>
      simp only [MdType.letter_eq_iff, reduceCtorEq, if_true, if_false]
      omega
  | fileref => exact absurd hr htype

/-- A step from a line of the image: the keyword is ended, and the cursor goes on by the stride. -/
theorem gotoCNextLine_record (front : Bytes) (r : MdRecord) (m : Marks) (back : Bytes) (peek : Bool)
    (hoff : front.length < intMax) :
    gotoCNextLine (front ++ (r.image m ++ back)) front.length peek =
      .returned
        (let image := front ++ (r.image { m with keyed := true } ++ back)
        if image.getD (front.length + r.stride) 0 = 0 then
          ⟨none, if peek then front.length else -1, image⟩
        else
          ⟨some (front.length + r.stride),
            if peek then (front.length : Int) else ((front.length + r.stride : Nat) : Int), image⟩) := by
  have hmax : ¬(front.length : Int) = intMax := by
    omega
  have hneg : ¬(front.length : Int) < 0 := by
    omega
  have hlen : ¬(r.area.length : Int) < 0 := by
    omega
  have hletter : r.type.letter ≠ MdType.fileref.letter := mt MdType.letter_eq_iff.mp r.type_ne
  rw [gotoCNextLine, if_neg hmax, if_neg hneg]
  dsimp only
  rw [Int.toNat_natCast, List.drop_left, r.getType_image, if_neg hletter, r.getKeyword_image]
  dsimp only
  rw [r.getValueLength_image, Outcome.returned_bind, if_neg hlen, r.keyword_image _ _ rfl,
    List.take_left, Int.toNat_natCast, ← r.stride_eq]
  split
  next => rfl
  next => rfl

/-- Where the iterator goes from a line that is no extended definition. -/
theorem MdRecord.getD_stride (front : Bytes) (r : MdRecord) (m : Marks) (back : Bytes)
    (h : r.type ≠ .ext) :
    (front ++ (r.image m ++ back)).getD (front.length + r.stride) 0 = back.getD 0 0 := by
  rw [stride, if_neg h, getD_append_right, ← r.length_image m, ← Nat.add_zero (r.image m).length,
    getD_append_right]

/-- The last byte of an extended definition is where the iterator goes from it. -/
theorem MdRecord.image_split_ext (r : MdRecord) (m : Marks) (back : Bytes) (h : r.type = .ext) :
    ∃ front : Bytes, front.length = r.stride ∧
      r.image m ++ back = front ++ (if m.cut then 0 else 10) :: back := by
  have hobj : r.type ≠ .obj := by
    rw [h]
    decide
  refine ⟨r.front m.keyed ++ r.area, ?_,
    (r.image_append m back hobj).trans (List.append_assoc _ _ _).symm⟩
  rw [List.length_append, stride, if_pos h, r.size_eq, if_neg hobj, r.length_front hobj, valueAt,
    if_neg hobj]
  omega

theorem MdRecord.getD_stride_ext (front : Bytes) (r : MdRecord) (m : Marks) (back : Bytes)
    (h : r.type = .ext) :
    (front ++ (r.image m ++ back)).getD (front.length + r.stride) 0 = if m.cut then 0 else 10 := by
  obtain ⟨front', hlen, hsplit⟩ := r.image_split_ext m back h
  rw [getD_append_right, hsplit, ← hlen]
  exact getD_append_length _ _ _

namespace MdLine

variable (l : MdLine)

/-- How far the iterator goes at a line. -/
def stride : Nat := if l.content.type = .ext then l.size - 1 else l.size

theorem record_stride : l.record.stride = l.stride := by
  rw [MdRecord.stride, record_size]
  rfl

theorem size_eq : l.size = l.head.length + l.keyword.bytes.length + 1 +
    (if l.content.type = .obj then 0 else l.content.value.strlen + 1) := by
  rw [← record_size]
  exact l.record.size_eq

end MdLine

/-- A step from a line that the parser has written. -/
theorem gotoCNextLine_line (front : Bytes) (l : MdLine) (m : Marks) (back : Bytes) (peek : Bool)
    (hoff : front.length < intMax) :
    gotoCNextLine (front ++ (l.image m ++ back)) front.length peek =
      .returned
        (let image := front ++ (l.image { m with keyed := true } ++ back)
        if image.getD (front.length + l.stride) 0 = 0 then
          ⟨none, if peek then front.length else -1, image⟩
        else
          ⟨some (front.length + l.stride),
            if peek then (front.length : Int) else ((front.length + l.stride : Nat) : Int), image⟩) := by
  rw [← l.record_image, ← l.record_image, ← l.record_stride]
  exact gotoCNextLine_record front l.record m back peek hoff

/-! ## All lines, one after the other -/

/-- What the reading functions say about a line. -/
structure Visit where
  line : Nat
  type : UInt8
  level : Int
  keyword : Bytes
  valueLength : Int
  value : Bytes
deriving DecidableEq

/-- Everything there is to read at a line.  The value is read with `swheaderline_get_value`, or, if
it is not to be ended, as the bytes at the pointer. -/
def readLine (terminate : Bool) (image : Bytes) (line : Nat) : Outcome (Visit × Bytes) := do
  let ih := image.drop line
  let level ← swheaderlineGetLevel ih
  match swheaderlineGetKeyword ih with
  | none => .fault
  | some (keyw, ih) =>
      let valueLength ← swheaderlineGetValueLength ih
      match ← getValue terminate ih with
      | none => .fault
      | some (value, len, ih) =>
          .returned ({
            line := line, type := swheaderlineGetType ih, level := level
            keyword := (CString.ofMem (ih.drop keyw)).bytes
            valueLength := valueLength
            value :=
              if terminate then (CString.ofMem (ih.drop value)).bytes
              else (ih.drop value).take len.toNat }, image.take line ++ ih)

/-- Read at a line, and then at all lines that the iterator gives after it. -/
def iterate (terminate : Nat → Bool) : Nat → Bytes → Nat → Int → Outcome (List Visit)
  | 0, _, _, _ => .outOfFuel
  | fuel + 1, image, line, offset => do
      let (visit, image) ← readLine (terminate fuel) image line
      let step ← gotoCNextLine image offset false
      match step.line with
      | none => .returned [visit]
      | some line => do
          let more ← iterate terminate fuel step.image line step.offset
          .returned (visit :: more)

namespace MdLine

/-- What is to be read at a line. -/
def visit (l : MdLine) (line : Nat) : Visit where
  line := line
  type := l.content.type.letter
  level := l.level
  keyword := l.keyword.bytes
  valueLength := l.content.value.strlen
  value := l.content.value.bytes

/-- What is read at a line: of the level only the last digit. -/
def seen (l : MdLine) (line : Nat) : Visit :=
  { l.visit line with level := ((l.level % 10 : Nat) : Int) }

end MdLine

/-- What is to be read at the lines of an image. -/
def visits : Nat → List MdLine → List Visit
  | _, [] => []
  | line, l :: ls => l.visit line :: visits (line + l.size) ls

/-- The lines in memory, with what has been ended in them. -/
def linesImage : List (MdLine × Marks) → Bytes
  | [] => []
  | (l, m) :: ls => l.image m ++ linesImage ls

/-- Reading at a line gives what has been written, except for a level of two digits. -/
theorem readLine_line (terminate : Bool) (front : Bytes) (l : MdLine) (m : Marks) (back : Bytes) :
    readLine terminate (front ++ (l.image m ++ back)) front.length =
      .returned (l.seen front.length,
        front ++ (l.image ⟨true, m.cut || terminate⟩ ++ back)) := by
  rw [readLine, List.drop_left, List.take_left, l.getLevel_image, Outcome.returned_bind,
    l.getKeyword_image]
  dsimp only
  rw [l.getValueLength_image, Outcome.returned_bind, l.getValue_image, Outcome.returned_bind]
  dsimp only
  rw [l.getType_image, l.keyword_image _ _ rfl, Int.toNat_natCast, l.take_value_image]
  cases terminate with
  | false => rfl
  | true =>
      rw [Bool.or_true, l.value_image]
      rfl

theorem linesImage_append (ls ls' : List (MdLine × Marks)) :
    linesImage (ls ++ ls') = linesImage ls ++ linesImage ls' := by
  induction ls with
  | nil => rfl
  | cons p ls ih =>
      rw [List.cons_append, linesImage, ih, linesImage, List.append_assoc]

/-- A line starts with a digit. -/
theorem isDigit_image (l : MdLine) (m : Marks) (rest : Bytes) :
    decimal.isDigit ((l.image m ++ rest).getD 0 0) = true := by
  rw [← l.record_image]
  exact l.record.isDigit_image m rest

theorem getD_image_ne_zero (l : MdLine) (m : Marks) (rest : Bytes) :
    (l.image m ++ rest).getD 0 0 ≠ 0 := by
  rw [← l.record_image]
  exact l.record.getD_image_ne_zero m rest

theorem getD_stride (front : Bytes) (l : MdLine) (m : Marks) (back : Bytes)
    (h : l.content.type ≠ .ext) :
    (front ++ (l.image m ++ back)).getD (front.length + l.stride) 0 = back.getD 0 0 := by
  rw [← l.record_image, ← l.record_stride]
  exact MdRecord.getD_stride front l.record m back h

theorem getD_stride_ext (front : Bytes) (l : MdLine) (m : Marks) (back : Bytes)
    (h : l.content.type = .ext) :
    (front ++ (l.image m ++ back)).getD (front.length + l.stride) 0 = if m.cut then 0 else 10 := by
  rw [← l.record_image, ← l.record_stride]
  exact MdRecord.getD_stride_ext front l.record m back h

/-- From a line that is no extended definition the iterator goes to the next line, or it ends. -/
theorem gotoCNextLine_next (front : Bytes) (l : MdLine) (m : Marks) (back : Bytes) (peek : Bool)
    (hoff : front.length < intMax) (h : l.content.type ≠ .ext) :
    gotoCNextLine (front ++ (l.image m ++ back)) front.length peek =
      .returned
        (let image := front ++ (l.image { m with keyed := true } ++ back)
        if back.getD 0 0 = 0 then ⟨none, if peek then front.length else -1, image⟩
        else
          ⟨some (front.length + l.size),
            if peek then (front.length : Int) else ((front.length + l.size : Nat) : Int), image⟩) := by
  rw [gotoCNextLine_line front l m back peek hoff]
  dsimp only
  rw [getD_stride _ _ _ _ h, MdLine.stride, if_neg h]

theorem seen_eq_visit {l : MdLine} (h : l.level ≤ 9) (line : Nat) : l.seen line = l.visit line := by
  rw [MdLine.seen, Nat.mod_eq_of_lt (Nat.lt_succ_of_le h)]
  rfl

/-- Reading at a line and stepping on from it. -/
theorem iterate_step (terminate : Nat → Bool) (fuel : Nat) (front : Bytes) (l : MdLine) (m : Marks)
    (back : Bytes) (hoff : front.length < intMax) (h : l.content.type ≠ .ext) :
    iterate terminate (fuel + 1) (front ++ (l.image m ++ back)) front.length front.length =
      (if back.getD 0 0 = 0 then
        .returned [l.seen front.length]
      else do
        let front' := front ++ l.image ⟨true, m.cut || terminate fuel⟩
        let more ← iterate terminate fuel (front' ++ back) front'.length front'.length
        .returned (l.seen front.length :: more)) := by
  rw [iterate, readLine_line, Outcome.returned_bind]
  dsimp only
  rw [gotoCNextLine_next _ _ _ _ _ hoff h, Outcome.returned_bind]
  by_cases hend : back.getD 0 0 = 0
  · rw [if_pos hend]
    dsimp only
    rw [if_pos hend]
  · rw [if_neg hend]
    dsimp only
    rw [if_neg hend, List.length_append, l.length_image, List.append_assoc]
    rfl

/-- The iterator reads all lines if none of them is an extended definition or at level 10. -/
theorem iterate_lines (terminate : Nat → Bool) (junk : Bytes) {l : MdLine} {m : Marks}
    {ls : List (MdLine × Marks)} (front : Bytes)
    (hgood : ∀ p ∈ (l, m) :: ls, p.1.content.type ≠ .ext ∧ p.1.level ≤ 9)
    (hsize : (front ++ (linesImage ((l, m) :: ls) ++ 0 :: junk)).length ≤ intMax) :
    iterate terminate (ls.length + 1) (front ++ (linesImage ((l, m) :: ls) ++ 0 :: junk))
        front.length front.length =
      .returned (visits front.length (l :: ls.map Prod.fst)) := by
  induction ls generalizing front l m with
  | nil =>
      obtain ⟨htype, hlevel⟩ := hgood (l, m) List.mem_cons_self
      have hoff : front.length < intMax := by
        simp only [List.length_append, List.length_cons] at hsize
        omega
      have hend : (0 :: junk).getD 0 0 = 0 := rfl
      rw [linesImage, linesImage, List.append_nil, iterate_step _ _ _ _ _ _ hoff htype, if_pos hend,
        seen_eq_visit hlevel]
      rfl
  | cons p ls ih =>
      obtain ⟨htype, hlevel⟩ := hgood (l, m) List.mem_cons_self
      have hoff : front.length < intMax := by
        simp only [List.length_append, List.length_cons] at hsize
        omega
      have hnext : (linesImage (p :: ls) ++ 0 :: junk).getD 0 0 ≠ 0 := by
        rw [linesImage, List.append_assoc]
        exact getD_image_ne_zero _ _ _
      have hlen : (front ++ l.image ⟨true, m.cut || terminate (ls.length + 1)⟩).length =
          front.length + l.size := by
        rw [List.length_append, l.length_image]
      have hrest := ih (front ++ l.image ⟨true, m.cut || terminate (ls.length + 1)⟩)
        (fun q hq => hgood q (List.mem_cons_of_mem _ hq)) (by
          rw [linesImage, List.append_assoc, List.length_append, List.length_append,
            l.length_image] at hsize
          rw [List.length_append, hlen, Nat.add_assoc]
          exact hsize)
      rw [linesImage, List.append_assoc, List.length_cons, iterate_step _ _ _ _ _ _ hoff htype,
        if_neg hnext]
      dsimp only
      rw [hrest, Outcome.returned_bind, seen_eq_visit hlevel, hlen]
      rfl

/-! ## When the iterator agrees with what was written -/

/-- Reading starts with the line it is given. -/
theorem iterate_head {terminate : Nat → Bool} {fuel line : Nat} {image : Bytes} {offset : Int}
    {vs : List Visit} (h : iterate terminate fuel image line offset = .returned vs) :
    ∃ v more, vs = v :: more ∧ v.line = line := by
  cases fuel with
  | zero => cases h
  | succ fuel =>
      obtain ⟨⟨visit, image'⟩, hread, h⟩ := Outcome.bind_eq_returned.mp h
      obtain ⟨step, -, h⟩ := Outcome.bind_eq_returned.mp h
      have hline : visit.line = line := by
        obtain ⟨level, -, hread⟩ := Outcome.bind_eq_returned.mp hread
        split at hread
        next => cases hread
        next =>
          obtain ⟨len, -, hread⟩ := Outcome.bind_eq_returned.mp hread
          obtain ⟨value, -, hread⟩ := Outcome.bind_eq_returned.mp hread
          split at hread
          next => cases hread
          next =>
            cases hread
            rfl
      split at h
      next =>
        cases h
        exact ⟨visit, [], rfl, hline⟩
      next =>
        obtain ⟨more, -, h⟩ := Outcome.bind_eq_returned.mp h
        cases h
        exact ⟨visit, more, rfl, hline⟩

/-- A line with nothing ended in it. -/
def unread (l : MdLine) : MdLine × Marks := (l, ⟨false, false⟩)

/-- An extended definition leads the iterator astray, and a level of two digits is not read back. -/
theorem good_of_iterate_step {fuel : Nat} {front : Bytes} {l : MdLine} {back : Bytes}
    {vs : List Visit} (hoff : front.length < intMax)
    (h : iterate (fun _ => false) fuel (front ++ (l.image ⟨false, false⟩ ++ back))
      front.length front.length = .returned (l.visit front.length :: vs))
    (hvs : ∀ v more, vs = v :: more → v.line = front.length + l.size) :
    (l.content.type ≠ .ext ∧ l.level ≤ 9) ∧ (back.getD 0 0 ≠ 0 → ∃ fuel',
      iterate (fun _ => false) fuel' ((front ++ l.image ⟨true, false⟩) ++ back)
        (front ++ l.image ⟨true, false⟩).length (front ++ l.image ⟨true, false⟩).length =
          .returned vs) := by
  cases fuel with
  | zero => cases h
  | succ fuel =>
      by_cases hext : l.content.type = .ext
      · -- The next line would be the newline of this one.
        have hnewline := getD_stride_ext front l ⟨true, false || false⟩ back hext
        have hne : ¬(front ++ (l.image ⟨true, false || false⟩ ++ back)).getD
            (front.length + l.stride) 0 = 0 := by
          rw [hnewline]
          decide
        rw [iterate, readLine_line, Outcome.returned_bind] at h
        dsimp only at h
        rw [gotoCNextLine_line _ _ _ _ _ hoff, Outcome.returned_bind] at h
        dsimp only at h
        rw [if_neg hne] at h
        obtain ⟨more, hmore, h⟩ := Outcome.bind_eq_returned.mp h
        injection h with h
        injection h with _ hrest
        obtain ⟨v, more', hv, hline⟩ := iterate_head hmore
        have hnext := hvs v more' (by rw [← hrest, hv])
        rw [hline, MdLine.stride, if_pos hext] at hnext
        have hsize := l.size_eq
        omega
      · rw [iterate_step _ _ _ _ _ _ hoff hext] at h
        have hlevel : l.seen front.length = l.visit front.length → l.level ≤ 9 := by
          intro hseen
          have hmod : ((l.level % 10 : Nat) : Int) = l.level := congrArg Visit.level hseen
          have hle := l.level_le
          omega
        split at h
        next hend =>
          injection h with h
          injection h with hseen _
          exact ⟨⟨hext, hlevel hseen⟩, fun hne => absurd hend hne⟩
        next hend =>
          obtain ⟨more, hmore, h⟩ := Outcome.bind_eq_returned.mp h
          injection h with h
          injection h with hseen hrest
          rw [hrest] at hmore
          exact ⟨⟨hext, hlevel hseen⟩, fun _ => ⟨fuel, hmore⟩⟩

theorem visits_line {line : Nat} {ls : List MdLine} {v : Visit} {more : List Visit}
    (h : visits line ls = v :: more) : v.line = line := by
  cases ls with
  | nil => cases h
  | cons l ls =>
      injection h with h _
      rw [← h]
      rfl

theorem good_of_iterate {fuel : Nat} {front junk : Bytes} {l : MdLine} {ls : List MdLine}
    (h : iterate (fun _ => false) fuel (front ++ (linesImage ((l :: ls).map unread) ++ 0 :: junk))
      front.length front.length = .returned (visits front.length (l :: ls)))
    (hsize : (front ++ (linesImage ((l :: ls).map unread) ++ 0 :: junk)).length ≤ intMax) :
    ∀ l' ∈ l :: ls, l'.content.type ≠ .ext ∧ l'.level ≤ 9 := by
  induction ls generalizing fuel front l with
  | nil =>
      have hoff : front.length < intMax := by
        simp only [List.length_append, List.length_cons] at hsize
        omega
      rw [List.map_singleton, unread, linesImage, linesImage, List.append_nil] at h
      obtain ⟨hgood, -⟩ := good_of_iterate_step hoff h fun v more hv => visits_line hv
      intro l' hl'
      rw [List.mem_singleton.mp hl']
      exact hgood
  | cons l₁ ls ih =>
      have hoff : front.length < intMax := by
        simp only [List.length_append, List.length_cons] at hsize
        omega
      have hnext : (linesImage ((l₁ :: ls).map unread) ++ 0 :: junk).getD 0 0 ≠ 0 := by
        rw [List.map_cons, unread, linesImage, List.append_assoc]
        exact getD_image_ne_zero _ _ _
      have hlen : (front ++ l.image ⟨true, false⟩).length = front.length + l.size := by
        rw [List.length_append, l.length_image]
      rw [List.map_cons, unread, linesImage, List.append_assoc] at h hsize
      obtain ⟨hgood, hmore⟩ := good_of_iterate_step hoff h fun v more hv => visits_line hv
      obtain ⟨fuel', hmore⟩ := hmore hnext
      rw [← hlen] at hmore
      have hrest := ih hmore (by
        rw [List.length_append, hlen]
        rw [List.length_append, List.length_append, l.length_image] at hsize
        rw [Nat.add_assoc]
        exact hsize)
      intro l' hl'
      rcases List.mem_cons.mp hl' with rfl | hl'
      · exact hgood
      · exact hrest l' hl'

/-- The image of some lines, as the parser writes it, and a NUL. -/
def emittedImage (ls : List MdLine) (junk : Bytes) : Bytes :=
  ls.flatMap (fun l => l.emitted.getD []) ++ 0 :: junk

/-- Whether the values are ended or not, iterating over the lines visits the start of each of them
in order, and everything that is read there is what was written. -/
def IteratorAgrees (ls : List MdLine) (junk : Bytes) : Prop :=
  ∀ terminate : Nat → Bool, ∃ fuel,
    iterate terminate fuel (emittedImage ls junk) 0 0 = .returned (visits 0 ls)

theorem emittedImage_eq (ls : List MdLine) (junk : Bytes) :
    emittedImage ls junk = linesImage (ls.map unread) ++ 0 :: junk := by
  rw [emittedImage]
  refine congrArg (· ++ 0 :: junk) ?_
  induction ls with
  | nil => rfl
  | cons l ls ih =>
      rw [List.flatMap_cons, l.emitted_eq, ih]
      rfl

theorem good_of_iteratorAgrees {l : MdLine} {ls : List MdLine} {junk : Bytes}
    (h : IteratorAgrees (l :: ls) junk) (hsize : (emittedImage (l :: ls) junk).length ≤ intMax) :
    ∀ l' ∈ l :: ls, l'.content.type ≠ .ext ∧ l'.level ≤ 9 := by
  obtain ⟨fuel, hrun⟩ := h fun _ => false
  rw [emittedImage_eq] at hrun hsize
  -- Nothing stands in front of the lines.
  rw [← List.nil_append (linesImage ((l :: ls).map unread) ++ 0 :: junk)] at hrun hsize
  exact good_of_iterate hrun hsize

/-- The iterator and the parser agree on a metadata image that an `int` can address if and only if
there is no extended definition and no level of two digits in it. -/
theorem iteratorAgrees_iff (l : MdLine) (ls : List MdLine) (junk : Bytes)
    (hsize : (emittedImage (l :: ls) junk).length ≤ intMax) :
    IteratorAgrees (l :: ls) junk ↔
      ∀ l' ∈ l :: ls, l'.content.type ≠ .ext ∧ l'.level ≤ 9 := by
  constructor
  · exact fun h => good_of_iteratorAgrees h hsize
  · intro hgood terminate
    rw [emittedImage_eq] at hsize ⊢
    have hgood' : ∀ p ∈ unread l :: ls.map unread, p.1.content.type ≠ .ext ∧ p.1.level ≤ 9 := by
      intro p hp
      rw [← List.map_cons] at hp
      obtain ⟨l', hl', rfl⟩ := List.mem_map.mp hp
      exact hgood l' hl'
    have hrun := iterate_lines terminate junk [] hgood' hsize
    have hsame : (ls.map unread).map Prod.fst = ls := by
      rw [List.map_map]
      exact List.map_id _
    rw [hsame] at hrun
    exact ⟨_, hrun⟩

/-- The object `product` and its attribute `tag x`. -/
theorem iteratorAgrees_product :
    IteratorAgrees [
      { content := .obj, level := 1
        keyword := ⟨chars ['p', 'r', 'o', 'd', 'u', 'c', 't'], by decide, by decide⟩
        level_le := by decide, length_lt := by decide },
      { content := .att ⟨chars ['x'], by decide⟩, level := 2
        keyword := ⟨chars ['t', 'a', 'g'], by decide, by decide⟩
        level_le := by decide, length_lt := by decide }] [] := by
  refine (iteratorAgrees_iff _ _ _ (by decide)).mpr fun l hl => ?_
  rcases List.mem_cons.mp hl with rfl | hl
  · exact ⟨by decide, by decide⟩
  · rw [List.mem_singleton.mp hl]
    exact ⟨by decide, by decide⟩

/-- After the extended definition `k v` the iterator is at its newline. -/
theorem extended_astray :
    ¬IteratorAgrees [
      { content := .ext ⟨chars ['v'], by decide⟩, level := 2
        keyword := ⟨chars ['k'], by decide, by decide⟩
        level_le := by decide, length_lt := by decide }] [] := by
  intro h
  have hgood := good_of_iteratorAgrees h (by decide) _ (List.mem_singleton_self _)
  exact hgood.1 rfl

end Swbis.Misc
