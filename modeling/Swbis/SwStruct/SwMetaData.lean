import Swbis.Lib.Memory
import Swbis.Misc.Swdef
import Swbis.Misc.Swheader

/-!
# Nodes of metadata

All nodes share one memory, in which the parser has written a line for each of them.
A node knows where its line is.  `swMetaData::set_value` stores a shorter value over
the old one, in the line that is there, and writes a new line at the end of the
memory for any other.

The line says how long its value is, and the iterator over the memory goes by this
length.  A new line has the length of its value.  A line that is kept keeps its
length: the iterator still finds the next line, and the length of the value is
wrong.  `setsValue_iff` says when a value is set as it should be.
-/

namespace Swbis.SwStruct

open CLib Misc Taru

/-! ## The code -/

/-- `swMetaData`, as far as `get_value` and `set_value` use it. -/
structure SwMetaData where
  offset : Int
  inode : Int
  level : Nat
  status : Nat
deriving DecidableEq

/-- The memory and `logical_modeM`, which are static, and the nodes. -/
structure MdList where
  image : Bytes
  logicalMode : Nat
  nodes : List SwMetaData
deriving DecidableEq

namespace SwMetaData

variable (n : SwMetaData)

/-- `get_parserline` -/
def parserline (image : Bytes) : Bytes := image.drop n.offset.toNat

/-- `set_p_offset`: the inode is the first offset. -/
def setPOffset (off : Int) : SwMetaData :=
  { n with inode := if n.inode < 0 then off else n.inode, offset := off }

@[simp] theorem setPOffset_offset (off : Int) : (n.setPOffset off).offset = off := rfl

@[simp] theorem setPOffset_level (off : Int) : (n.setPOffset off).level = n.level := rfl

@[simp] theorem setPOffset_status (off : Int) : (n.setPOffset off).status = n.status := rfl

/-- What `get_value` tests before it reads: `logical_modeM` hides what has been removed. -/
def Hidden (logicalMode : Nat) : Prop := 0 < n.status ∧ 0 < logicalMode

instance (logicalMode : Nat) : Decidable (n.Hidden logicalMode) :=
  inferInstanceAs (Decidable (_ ∧ _))

/-- `get_value`, where the length is not asked for: where the value is, and the memory, with
the keyword and the value ended. -/
def getValue (logicalMode : Nat) (image : Bytes) : Outcome (Option Nat × Bytes) :=
  let off := n.offset.toNat
  if n.offset < 0 then .returned (none, image)
  else if n.Hidden logicalMode then .returned (none, image)
  else do
    match ← Misc.getValue true (n.parserline image) with
    | none => .returned (none, image)
    | some (ret, _, line) => .returned (some (off + ret), image.take off ++ line)

/-- `get_keyword`: where the keyword is, and the memory, with the keyword ended. -/
def getKeyword (image : Bytes) : Option Nat × Bytes :=
  let off := n.offset.toNat
  if n.offset < 0 then (none, image)
  else
    match swheaderlineGetKeyword (n.parserline image) with
    | none => (none, image)
    | some (ret, line) => (some (off + ret), image.take off ++ line)

end SwMetaData

/-- What `swparse_write_attribute_att` writes, for `SWPARSE_FORM_MKUP_LEN`. -/
def swparseWriteAttributeAtt (key val : CString) (level : Nat) : Bytes :=
  (swparseConstructAttribute
    ((key.append blank).append (CString.ofMem (swparseExpandN val.bytes))) level .att).getD []

/-- What `set_value` returns, and what it leaves behind. -/
structure SetValue where
  ret : Option CString
  node : SwMetaData
  image : Bytes
deriving DecidableEq

/-- `set_value_`, with `SEEK_END` -/
def SwMetaData.setValue (n : SwMetaData) (logicalMode : Nat) (image : Bytes) (val : CString) :
    Outcome SetValue := do
  let (va, image) ← n.getValue logicalMode image
  let (ke, image) := n.getKeyword image
  match va with
  | none => .returned ⟨none, n, image⟩
  | some va =>
      if val.strlen < (CString.ofMem (image.drop va)).strlen then
        .returned ⟨some val, n, overwrite image va (val.bytes ++ [0])⟩
      else
        match ke with
        | none => .fault
        | some ke => do
            let n := n.setPOffset image.length
            let key := CString.ofMem (image.drop ke)
            let image := image ++ swparseWriteAttributeAtt key val n.level
            let (fret, image) ← n.getValue logicalMode image
            .returned ⟨fret.map fun fret => CString.ofMem (image.drop fret), n, image⟩

/-- `set_value` of one of the nodes. -/
def MdList.setValue (st : MdList) (i : Nat) (val : CString) : Outcome MdList :=
  match st.nodes[i]? with
  | none => .fault
  | some n => do
      let set ← n.setValue st.logicalMode st.image val
      .returned ⟨set.image, st.logicalMode, st.nodes.set i set.node⟩

/-! ## What there is to read -/

/-- The value of a node, as the string that `get_value` returns. -/
def SwMetaData.valueText (n : SwMetaData) (logicalMode : Nat) (image : Bytes) :
    Outcome (Option CString) := do
  let (va, image) ← n.getValue logicalMode image
  .returned (va.map fun va => CString.ofMem (image.drop va))

/-- The keyword of a node, as a string. -/
def SwMetaData.keywordText (n : SwMetaData) (image : Bytes) : Option CString :=
  let (ke, image) := n.getKeyword image
  ke.map fun ke => CString.ofMem (image.drop ke)

/-- What is read at a node: the level in the node, and the one in its line. -/
structure Reading where
  keyword : Option CString
  level : Nat
  lineLevel : Outcome Int
  value : Outcome (Option CString)
deriving DecidableEq

def SwMetaData.reading (n : SwMetaData) (logicalMode : Nat) (image : Bytes) : Reading where
  keyword := n.keywordText image
  level := n.level
  lineLevel := swheaderlineGetLevel (n.parserline image)
  value := n.valueText logicalMode image

def MdList.reading (st : MdList) (i : Nat) : Option Reading :=
  st.nodes[i]?.map fun n => n.reading st.logicalMode st.image

/-- The lines that the iterator gives, from one of them on. -/
def visitLines : Nat → Bytes → Nat → Outcome (List Nat)
  | 0, _, _ => .outOfFuel
  | fuel + 1, image, line => do
      let step ← gotoCNextLine image line false
      match step.line with
      | none => .returned [line]
      | some next => do
          let more ← visitLines fuel step.image next
          .returned (line :: more)

/-- The value of a node has been set: it is read back, the line has its length, the iterator
visits the lines it has visited, and a new one at the end of the memory, and nothing else
is read at the other nodes. -/
structure ValueIsSet (st st' : MdList) (i : Nat) (val : CString) : Prop where
  value : ∀ n, st'.nodes[i]? = some n → n.valueText st'.logicalMode st'.image = .returned (some val)
  length : ∀ n, st'.nodes[i]? = some n →
    swheaderlineGetValueLength (n.parserline st'.image) = .returned (val.strlen : Int)
  lines : ∃ fuel fuel' visited more, visitLines fuel st.image 0 = .returned visited ∧
    visitLines fuel' st'.image 0 = .returned (visited ++ more) ∧
    (more = [] ∨ more = [st.image.length])
  others : ∀ j, j ≠ i → st'.reading j = st.reading j

/-- `set_value` sets the value of a node. -/
def SetsValue (st : MdList) (i : Nat) (val : CString) : Prop :=
  ∃ st', st.setValue i val = .returned st' ∧ ValueIsSet st st' i val

/-! ## The memory as lines -/

/-- The lines in memory, with what has been ended in them. -/
def recordsImage (rs : List (MdRecord × Marks)) : Bytes := rs.flatMap fun p => p.1.image p.2

theorem recordsImage_append (rs rs' : List (MdRecord × Marks)) :
    recordsImage (rs ++ rs') = recordsImage rs ++ recordsImage rs' := List.flatMap_append

theorem recordsImage_cons (r : MdRecord) (m : Marks) (rs : List (MdRecord × Marks)) :
    recordsImage ((r, m) :: rs) = r.image m ++ recordsImage rs := List.flatMap_cons

theorem recordsImage_singleton (r : MdRecord) (m : Marks) :
    recordsImage [(r, m)] = r.image m := List.flatMap_singleton _ _

/-- A line in the middle. -/
theorem recordsImage_split (before : List (MdRecord × Marks)) (r : MdRecord) (m : Marks)
    (after : List (MdRecord × Marks)) :
    recordsImage (before ++ (r, m) :: after) =
      recordsImage before ++ (r.image m ++ recordsImage after) := by
  rw [recordsImage_append, recordsImage_cons]

/-- A line with another value in the same place. -/
theorem length_recordsImage_split {r r' : MdRecord} (hsize : r'.size = r.size)
    (before : List (MdRecord × Marks)) (m m' : Marks) (after : List (MdRecord × Marks)) :
    (recordsImage (before ++ (r', m') :: after)).length =
      (recordsImage (before ++ (r, m) :: after)).length := by
  simp only [recordsImage_split, List.length_append, MdRecord.length_image, hsize]

/-- A node is at a line of the memory.  No node is at an extended definition. -/
structure SwMetaData.IsAt (n : SwMetaData) (rs : List (MdRecord × Marks)) (r : MdRecord) : Prop where
  level_eq : n.level = r.level
  type_ne : r.type ≠ .ext
  split : ∃ before m after, rs = before ++ (r, m) :: after ∧ n.offset = (recordsImage before).length

/-- Each node is at a line of its own. -/
structure MdList.Lies (st : MdList) (rs : List (MdRecord × Marks)) : Prop where
  image_eq : st.image = recordsImage rs
  isAt : ∀ (i : Nat) (n : SwMetaData), st.nodes[i]? = some n → n.level ≤ 10 ∧ ∃ r, n.IsAt rs r
  apart : ∀ (i j : Nat) (n n' : SwMetaData), i ≠ j → st.nodes[i]? = some n → st.nodes[j]? = some n' → n.offset ≠ n'.offset

/-! ## Lists that have been parsed -/

/-- A node for each line that is no extended definition. -/
def parsedNodes (line : Nat) : List (MdRecord × Marks) → List SwMetaData
  | [] => []
  | (r, _) :: rs =>
      if r.type = .ext then parsedNodes (line + r.size) rs
      else ⟨line, line, r.level, 0⟩ :: parsedNodes (line + r.size) rs

/-- The list of the nodes of some lines. -/
def parsedList (rs : List (MdRecord × Marks)) : MdList := ⟨recordsImage rs, 0, parsedNodes 0 rs⟩

theorem mem_parsedNodes {n : SwMetaData} {rs : List (MdRecord × Marks)} {line : Nat}
    (h : n ∈ parsedNodes line rs) : ∃ before r m after, rs = before ++ (r, m) :: after ∧
      n.offset = ((line + (recordsImage before).length : Nat) : Int) ∧ n.level = r.level ∧
      r.type ≠ .ext := by
  induction rs generalizing line with
  | nil => cases h
  | cons p rs ih =>
      obtain ⟨r, m⟩ := p
      have hbehind : n ∈ parsedNodes (line + r.size) rs → ∃ before r' m' after,
          (r, m) :: rs = before ++ (r', m') :: after ∧
          n.offset = ((line + (recordsImage before).length : Nat) : Int) ∧ n.level = r'.level ∧
          r'.type ≠ .ext := by
        intro hmem
        obtain ⟨before, r', m', after, rfl, hoff, hlevel, htype⟩ := ih hmem
        refine ⟨(r, m) :: before, r', m', after, rfl, ?_, hlevel, htype⟩
        rw [hoff, recordsImage_cons, List.length_append, r.length_image, ← Nat.add_assoc]
      rw [parsedNodes] at h
      by_cases hext : r.type = .ext
      · rw [if_pos hext] at h
        exact hbehind h
      · rw [if_neg hext] at h
        rcases List.mem_cons.mp h with rfl | hmem
        · exact ⟨[], r, m, rs, rfl, rfl, rfl, hext⟩
        · exact hbehind hmem

/-- The lines follow one another. -/
theorem pairwise_parsedNodes (rs : List (MdRecord × Marks)) (line : Nat) :
    (parsedNodes line rs).Pairwise fun n n' => n.offset < n'.offset := by
  induction rs generalizing line with
  | nil => exact .nil
  | cons p rs ih =>
      obtain ⟨r, m⟩ := p
      rw [parsedNodes]
      by_cases hext : r.type = .ext
      · rw [if_pos hext]
        exact ih _
      · rw [if_neg hext]
        refine .cons (fun n hn => ?_) (ih _)
        obtain ⟨before, r', m', after, -, hoff, -, -⟩ := mem_parsedNodes hn
        have hpos := r.size_pos
        rw [hoff]
        dsimp only
        omega

/-- In a list that has been parsed each node is at a line of its own. -/
theorem parsedList_lies {rs : List (MdRecord × Marks)} (hlevel : ∀ p ∈ rs, p.1.level ≤ 10) :
    (parsedList rs).Lies rs := by
  refine ⟨rfl, fun i n hn => ?_, fun i j n n' hij hn hn' => ?_⟩
  · obtain ⟨before, r, m, after, rfl, hoff, hl, htype⟩ :=
      mem_parsedNodes (List.mem_of_getElem? hn)
    rw [Nat.zero_add] at hoff
    refine ⟨?_, r, hl, htype, before, m, after, rfl, hoff⟩
    rw [hl]
    exact hlevel (r, m) (List.mem_append_right _ List.mem_cons_self)
  · obtain ⟨hi, rfl⟩ := List.getElem?_eq_some_iff.mp hn
    obtain ⟨hj, rfl⟩ := List.getElem?_eq_some_iff.mp hn'
    have hpair := List.pairwise_iff_getElem.mp (pairwise_parsedNodes rs 0)
    rcases Nat.lt_or_gt_of_ne hij with hlt | hlt
    · exact Int.ne_of_lt (hpair i j hi hj hlt)
    · exact (Int.ne_of_lt (hpair j i hj hi hlt)).symm

/-! ## Reading at a node -/

section

variable {n : SwMetaData} {front back : Bytes} {r : MdRecord} {m : Marks}

theorem SwMetaData.parserline_eq (hoff : n.offset = front.length) (more : Bytes) :
    n.parserline (front ++ more) = more := by
  rw [parserline, hoff, Int.toNat_natCast, List.drop_left]

/-- At a line the value is found and ended. -/
theorem SwMetaData.getValue_eq (hoff : n.offset = front.length) (logicalMode : Nat) (back : Bytes) :
    n.getValue logicalMode (front ++ (r.image m ++ back)) =
      .returned (if n.Hidden logicalMode then (none, front ++ (r.image m ++ back))
        else (some (front.length + r.valueAt), front ++ (r.image ⟨true, true⟩ ++ back))) := by
  have hneg : ¬n.offset < 0 := by omega
  rw [getValue, if_neg hneg, n.parserline_eq hoff, r.getValue_image, Bool.or_true]
  by_cases hhidden : n.Hidden logicalMode
  · rw [if_pos hhidden, if_pos hhidden]
  · rw [if_neg hhidden, if_neg hhidden, Outcome.returned_bind, hoff]
    dsimp only
    rw [Int.toNat_natCast, List.take_left]

/-- At a line the keyword is found and ended. -/
theorem SwMetaData.getKeyword_eq (hoff : n.offset = front.length) :
    n.getKeyword (front ++ (r.image m ++ back)) =
      (some (front.length + r.head.length),
        front ++ (r.image { m with keyed := true } ++ back)) := by
  have hneg : ¬n.offset < 0 := by omega
  rw [getKeyword, if_neg hneg, n.parserline_eq hoff, r.getKeyword_image, hoff]
  dsimp only
  rw [Int.toNat_natCast, List.take_left]

/-- The string at an index behind the beginning. -/
theorem ofMem_drop_append (front more : Bytes) (i : Nat) :
    CString.ofMem ((front ++ more).drop (front.length + i)) = CString.ofMem (more.drop i) := by
  rw [List.drop_append, List.drop_eq_nil_of_le (Nat.le_add_right _ _), Nat.add_sub_cancel_left,
    List.nil_append]

theorem SwMetaData.valueText_eq (hoff : n.offset = front.length) (logicalMode : Nat) :
    n.valueText logicalMode (front ++ (r.image m ++ back)) =
      .returned (if n.Hidden logicalMode then none else some r.value) := by
  rw [valueText, n.getValue_eq hoff, Outcome.returned_bind]
  by_cases hhidden : n.Hidden logicalMode
  · rw [if_pos hhidden, if_pos hhidden]
    rfl
  · rw [if_neg hhidden, if_neg hhidden]
    dsimp only
    rw [Option.map_some, ofMem_drop_append, r.value_image]

theorem SwMetaData.keywordText_eq (hoff : n.offset = front.length) :
    n.keywordText (front ++ (r.image m ++ back)) = some r.keyword.str := by
  rw [keywordText, n.getKeyword_eq hoff]
  dsimp only
  rw [Option.map_some, ofMem_drop_append, r.keyword_image _ _ rfl]

/-- What is read at a node comes from its line, and not from what has been ended in it. -/
theorem SwMetaData.reading_eq (hoff : n.offset = front.length) (logicalMode : Nat) :
    n.reading logicalMode (front ++ (r.image m ++ back)) =
      { keyword := some r.keyword.str
        level := n.level
        lineLevel := .returned ((r.level % 10 : Nat) : Int)
        value := .returned (if n.Hidden logicalMode then none else some r.value) } := by
  rw [reading, n.keywordText_eq hoff, n.valueText_eq hoff, n.parserline_eq hoff, r.getLevel_image]

end

theorem SwMetaData.IsAt.reading_eq {n : SwMetaData} {rs : List (MdRecord × Marks)} {r : MdRecord}
    (h : n.IsAt rs r) (logicalMode : Nat) :
    n.reading logicalMode (recordsImage rs) =
      { keyword := some r.keyword.str
        level := n.level
        lineLevel := .returned ((r.level % 10 : Nat) : Int)
        value := .returned (if n.Hidden logicalMode then none else some r.value) } := by
  obtain ⟨before, m, after, rfl, hoff⟩ := h.split
  rw [recordsImage_split, n.reading_eq hoff]

/-! ## The other nodes -/

/-- The line of a node is in the memory. -/
theorem SwMetaData.IsAt.offset_lt {n : SwMetaData} {rs : List (MdRecord × Marks)} {r : MdRecord}
    (h : n.IsAt rs r) : n.offset < (recordsImage rs).length := by
  obtain ⟨before, m, after, rfl, hoff⟩ := h.split
  have hpos := r.size_pos
  rw [hoff, recordsImage_split, List.length_append, List.length_append, r.length_image]
  omega

/-- A node at another line stays at it when a line gets a value in the same place, and when
there are more lines behind. -/
theorem SwMetaData.IsAt.frame {n : SwMetaData} {before after : List (MdRecord × Marks)}
    {r r₁ r' : MdRecord} {m : Marks} (h : n.IsAt (before ++ (r, m) :: after) r')
    (hoff : n.offset ≠ (recordsImage before).length) (hsize : r₁.size = r.size) (m₁ : Marks)
    (more : List (MdRecord × Marks)) : n.IsAt (before ++ (r₁, m₁) :: after ++ more) r' := by
  obtain ⟨before', m', after', hsplit, hoff'⟩ := h.split
  refine ⟨h.level_eq, h.type_ne, ?_⟩
  rcases List.append_eq_append_iff.mp hsplit with ⟨mid, hfront, hback⟩ | ⟨mid, hfront, hback⟩
  · -- its line is behind the one that changes
    cases mid with
    | nil =>
        rw [List.append_nil] at hfront
        rw [hfront] at hoff'
        exact absurd hoff' hoff
    | cons p mid =>
        rw [List.cons_append, List.cons.injEq] at hback
        obtain ⟨rfl, rfl⟩ := hback
        refine ⟨before ++ (r₁, m₁) :: mid, m', after' ++ more, by simp, ?_⟩
        rw [hoff', hfront, length_recordsImage_split hsize]
  · cases mid with
    | nil =>
        rw [List.append_nil] at hfront
        rw [← hfront] at hoff'
        exact absurd hoff' hoff
    | cons p mid =>
        rw [List.cons_append, List.cons.injEq] at hback
        obtain ⟨rfl, rfl⟩ := hback
        exact ⟨before', m', mid ++ (r₁, m₁) :: after ++ more, by rw [hfront]; simp, hoff'⟩

/-! ## Iterating over the lines -/

/-- The lines that the iterator gives.  From an extended definition it goes to the newline of
the line, if there still is one, and no further. -/
def visitedLines (line : Nat) : List (MdRecord × Marks) → List Nat
  | [] => []
  | (r, m) :: rs =>
      if r.type = .ext then if m.cut then [line] else [line, line + r.stride]
      else line :: visitedLines (line + r.size) rs

/-- A newline is no line. -/
theorem gotoCNextLine_newline (front back : Bytes) (hoff : front.length < intMax) :
    ∃ image, gotoCNextLine (front ++ 10 :: back) front.length false =
      .returned ⟨none, front.length, image⟩ := by
  have hmax : ¬(front.length : Int) = intMax := by omega
  have hneg : ¬(front.length : Int) < 0 := by omega
  have hdigit : ¬decimal.isDigit ((10 :: back).getD 0 0) = true := by
    rw [List.getD_cons_zero]
    decide
  have hpointer : swheaderlineGetTypePointer (10 :: back) = some 0 := by
    rw [swheaderlineGetTypePointer, if_neg hdigit]
  have htype : ¬swheaderlineGetType (10 :: back) = MdType.fileref.letter := by
    rw [swheaderlineGetType, hpointer]
    dsimp only
    rw [List.getD_cons_zero]
    decide
  have hkeyword : ∃ keyw stop, swheaderlineGetKeyword (10 :: back) =
      some (keyw, (10 :: back).set stop 0) ∧ 3 ≤ stop := by
    rw [swheaderlineGetKeyword, keywordTypePointer, if_neg hdigit]
    dsimp only
    rw [List.getD_cons_zero, if_neg (by decide), hpointer, Option.map_some, Nat.zero_add]
    exact ⟨_, _, rfl, by omega⟩
  obtain ⟨keyw, stop, hkeyword, hstop⟩ := hkeyword
  obtain ⟨stop, rfl⟩ := Nat.exists_eq_succ_of_ne_zero (show stop ≠ 0 by omega)
  have hlength : swheaderlineGetValueLength ((10 :: back).set (stop + 1) 0) = .returned (-1) := by
    rw [List.set_cons_succ, swheaderlineGetValueLength, List.getD_cons_zero, if_neg (by decide)]
  refine ⟨front ++ (10 :: back).set (stop + 1) 0, ?_⟩
  rw [gotoCNextLine, if_neg hmax, if_neg hneg]
  dsimp only
  rw [Int.toNat_natCast, List.drop_left, if_neg htype, hkeyword]
  dsimp only
  rw [hlength, Outcome.returned_bind, if_pos (by decide), List.take_left]

/-- The keyword of a line is ended, and the iterator goes on by the stride. -/
theorem visitLines_step (fuel : Nat) (front : Bytes) (r : MdRecord) (m : Marks) (back : Bytes)
    (hoff : front.length < intMax) :
    visitLines (fuel + 1) (front ++ (r.image m ++ back)) front.length =
      (let image := front ++ (r.image { m with keyed := true } ++ back)
      if image.getD (front.length + r.stride) 0 = 0 then .returned [front.length]
      else do
        let more ← visitLines fuel image (front.length + r.stride)
        .returned (front.length :: more)) := by
  rw [visitLines, gotoCNextLine_record _ _ _ _ _ hoff, Outcome.returned_bind]
  dsimp only
  by_cases hend : (front ++ (r.image { m with keyed := true } ++ back)).getD
      (front.length + r.stride) 0 = 0
  · rw [if_pos hend, if_pos hend]
  · rw [if_neg hend, if_neg hend]

/-- From an extended definition. -/
theorem visitLines_ext (fuel : Nat) (front : Bytes) {r : MdRecord} (hext : r.type = .ext) (m : Marks)
    (back : Bytes) (hoff : front.length + r.size ≤ intMax) :
    visitLines (fuel + 2) (front ++ (r.image m ++ back)) front.length =
      .returned (if m.cut then [front.length] else [front.length, front.length + r.stride]) := by
  have hstride : r.stride + 1 = r.size := by
    rw [MdRecord.stride, if_pos hext]
    exact Nat.sub_add_cancel r.size_pos
  rw [visitLines_step _ _ _ _ _ (by omega)]
  dsimp only
  rw [MdRecord.getD_stride_ext _ _ _ _ hext]
  cases hcut : m.cut with
  | true => rfl
  | false =>
      obtain ⟨front', hlen, hsplit⟩ := r.image_split_ext { m with keyed := true } back hext
      have hline : front.length + r.stride = (front ++ front').length := by
        rw [List.length_append, hlen]
      rw [hcut] at hsplit
      obtain ⟨image, hstep⟩ := gotoCNextLine_newline (front ++ front') back (by omega)
      rw [if_neg (by decide), hsplit, if_neg (by decide), ← List.append_assoc, hline, visitLines, hstep]
      rfl

theorem visitLines_eq {r : MdRecord} {m : Marks} {rs : List (MdRecord × Marks)} (front : Bytes)
    (hsize : (front ++ recordsImage ((r, m) :: rs)).length ≤ intMax) :
    visitLines (rs.length + 2) (front ++ recordsImage ((r, m) :: rs)) front.length =
      .returned (visitedLines front.length ((r, m) :: rs)) := by
  induction rs generalizing front r m with
  | nil =>
      have hpos := r.size_pos
      rw [recordsImage_cons, List.length_append, List.length_append, r.length_image] at hsize
      rw [recordsImage_cons, visitedLines]
      by_cases hext : r.type = .ext
      · rw [if_pos hext]
        exact visitLines_ext _ _ hext _ _ (by omega)
      · rw [visitLines_step _ _ _ _ _ (by omega), if_neg hext]
        dsimp only
        rw [MdRecord.getD_stride _ _ _ _ hext]
        rfl
  | cons p rs ih =>
      obtain ⟨r', m'⟩ := p
      have hpos := r.size_pos
      have hlen : (front ++ r.image { m with keyed := true }).length = front.length + r.size := by
        rw [List.length_append, r.length_image]
      have hnext : (recordsImage ((r', m') :: rs)).getD 0 0 ≠ 0 := by
        rw [recordsImage_cons]
        exact r'.getD_image_ne_zero m' _
      rw [recordsImage_cons, List.length_append, List.length_append, r.length_image] at hsize
      have hrest := ih (r := r') (m := m') (front ++ r.image { m with keyed := true }) (by
        rw [List.length_append, hlen]
        omega)
      rw [recordsImage_cons, visitedLines]
      by_cases hext : r.type = .ext
      · rw [if_pos hext]
        exact visitLines_ext _ _ hext _ _ (by omega)
      · rw [List.length_cons, visitLines_step _ _ _ _ _ (by omega), if_neg hext]
        dsimp only
        rw [MdRecord.getD_stride _ _ _ _ hext, if_neg hnext, MdRecord.stride, if_neg hext, ← hlen,
          ← List.append_assoc, hrest]
        rfl

theorem visitLines_recordsImage {rs : List (MdRecord × Marks)} (hne : rs ≠ [])
    (hsize : (recordsImage rs).length ≤ intMax) :
    visitLines (rs.length + 1) (recordsImage rs) 0 = .returned (visitedLines 0 rs) := by
  obtain ⟨p, rs, rfl⟩ := List.exists_cons_of_ne_nil hne
  exact visitLines_eq [] hsize

/-- A line with another value in the same place leaves the others where they are. -/
theorem visitedLines_replace {r r₁ : MdRecord} (hext : r.type ≠ .ext) (htype : r₁.type = r.type)
    (hsize : r₁.size = r.size) (m m₁ : Marks) (before after : List (MdRecord × Marks)) (line : Nat) :
    visitedLines line (before ++ (r₁, m₁) :: after) =
      visitedLines line (before ++ (r, m) :: after) := by
  induction before generalizing line with
  | nil =>
      rw [List.nil_append, List.nil_append, visitedLines, visitedLines, htype, if_neg hext,
        if_neg hext, hsize]
  | cons p before ih =>
      rw [List.cons_append, List.cons_append, visitedLines, visitedLines, ih]

/-- A line at the end is visited unless there is an extended definition before it. -/
theorem visitedLines_concat {r : MdRecord} (hext : r.type ≠ .ext) (m : Marks)
    (rs : List (MdRecord × Marks)) (line : Nat) :
    ∃ more, visitedLines line (rs ++ [(r, m)]) = visitedLines line rs ++ more ∧
      (more = [] ∨ more = [line + (recordsImage rs).length]) := by
  induction rs generalizing line with
  | nil =>
      refine ⟨[line], ?_, .inr rfl⟩
      rw [List.nil_append, visitedLines, visitedLines, if_neg hext]
      rfl
  | cons p rs ih =>
      obtain ⟨r', m'⟩ := p
      by_cases hext' : r'.type = .ext
      · refine ⟨[], ?_, .inl rfl⟩
        rw [List.cons_append, visitedLines, visitedLines, if_pos hext', if_pos hext', List.append_nil]
      · obtain ⟨more, hmore, hcases⟩ := ih (line + r'.size)
        refine ⟨more, ?_, ?_⟩
        · rw [List.cons_append, visitedLines, visitedLines, if_neg hext', if_neg hext', hmore]
          rfl
        · rwa [recordsImage_cons, List.length_append, r'.length_image, ← Nat.add_assoc]

/-! ## Storing a value -/

/-- The value as it is in a line that is written for it. -/
def storedValue (val : CString) : CString :=
  swlibProcessHexEscapes (CString.ofMem (swparseExpandN val.bytes))

/-- A value that has no newline and no backslash, and does not begin with a quote, is
written as it is. -/
theorem storedValue_plain {val : CString} (h : ∀ c ∈ val.bytes, c ≠ 10 ∧ c ≠ 92)
    (hquote : val.bytes.head? ≠ some 34) : storedValue val = val := by
  rw [storedValue, swparseExpandN_of_head h hquote, CString.ofMem_bytes]
  exact swlibProcessHexEscapes_plain fun hmem => (h 92 hmem).2 rfl

/-- The line of an attribute, of a value that the length field can say. -/
def attRecord (kw : Keyword) (level : Nat) (val : CString) (h : val.strlen < 10 ^ 9) : MdRecord where
  type := .att
  level := level
  keyword := kw
  area := val.bytes
  type_ne := by decide
  area_nil := fun h => nomatch h
  length_lt := h

theorem attRecord_type_ne {kw : Keyword} {level : Nat} {val : CString} (h : val.strlen < 10 ^ 9) :
    (attRecord kw level val h).type ≠ .ext := by
  have hatt : (attRecord kw level val h).type = .att := rfl
  rw [hatt]
  decide

theorem attRecord_value {kw : Keyword} {level : Nat} {val : CString} (h : val.strlen < 10 ^ 9) :
    (attRecord kw level val h).value = val := CString.ofMem_bytes val

theorem swparseWriteAttributeAtt_eq (kw : Keyword) (val : CString) {level : Nat} (hlevel : level ≤ 10) :
    swparseWriteAttributeAtt kw.str val level =
      lineHead (storedValue val).strlen .att level ++
        (kw.bytes ++ 32 :: ((storedValue val).bytes ++ [10])) := by
  rw [swparseWriteAttributeAtt, kw.construct_eq _ hlevel]
  rfl

/-- The line that is written for a value. -/
theorem swparseWriteAttributeAtt_record {kw : Keyword} {val : CString} {level : Nat}
    (hlevel : level ≤ 10) (h : (storedValue val).strlen < 10 ^ 9) :
    swparseWriteAttributeAtt kw.str val level =
      (attRecord kw level (storedValue val) h).image ⟨false, false⟩ :=
  swparseWriteAttributeAtt_eq kw val hlevel

/-- A length of ten digits ends the process. -/
theorem getValue_long (kw : Keyword) (val : CString) {level : Nat} (hlevel : level ≤ 10)
    (h : ¬(storedValue val).strlen < 10 ^ 9) :
    Misc.getValue true (swparseWriteAttributeAtt kw.str val level) = .exited 33 := by
  rw [swparseWriteAttributeAtt_eq kw val hlevel, Misc.getValue,
    Misc.getKeyword_eq _ _ _ _ kw (by decide)]
  dsimp only
  rw [getType_eq, if_neg (by decide), getValueLength_head, if_neg h]
  rfl

/-- The line with a shorter value stored over the old one. -/
def storeRecord (r : MdRecord) (val : CString) (h : val.strlen < r.area.length) : MdRecord :=
  { r with
    area := overwrite r.area 0 (val.bytes ++ [0])
    area_nil := fun hobj => absurd h (by rw [r.area_nil hobj]; exact Nat.not_lt_zero _)
    length_lt := by
      rw [length_overwrite_of_le (by rw [List.length_append, Nat.zero_add]; exact h)]
      exact r.length_lt }

section

variable {r : MdRecord} {val : CString} (h : val.strlen < r.area.length)

theorem storeRecord_length : (storeRecord r val h).area.length = r.area.length :=
  length_overwrite_of_le (by rw [List.length_append, Nat.zero_add]; exact h)

theorem storeRecord_size : (storeRecord r val h).size = r.size := by
  rw [MdRecord.size_eq, MdRecord.size_eq, MdRecord.head, MdRecord.head, storeRecord_length]
  rfl

/-- Storing a value changes what is in the place of the value. -/
theorem overwrite_image (front back : Bytes) :
    overwrite (front ++ (r.image ⟨true, true⟩ ++ back)) (front.length + r.valueAt)
        (val.bytes ++ [0]) =
      front ++ ((storeRecord r val h).image ⟨true, true⟩ ++ back) := by
  have hobj : r.type ≠ .obj := by
    intro hobj
    rw [r.area_nil hobj] at h
    exact Nat.not_lt_zero _ h
  have hin : 0 + (val.bytes ++ [0]).length ≤ r.area.length := by
    rw [List.length_append, Nat.zero_add]
    exact h
  have hfront : (storeRecord r val h).front true = r.front true := by
    rw [MdRecord.front, MdRecord.front, MdRecord.head, MdRecord.head, storeRecord_length]
    rfl
  rw [overwrite_append, (storeRecord r val h).image_append _ _ hobj, r.image_append _ _ hobj, hfront,
    ← r.length_front hobj true, ← Nat.add_zero (r.front true).length, overwrite_append,
    overwrite_append_left _ hin]
  rfl

end

/-! ## Setting a value -/

section

variable {n : SwMetaData} {front back : Bytes} {r : MdRecord} {m : Marks}

/-- The value of a hidden node is not set. -/
theorem SwMetaData.setValue_hidden (hoff : n.offset = front.length) {logicalMode : Nat}
    (hhidden : n.Hidden logicalMode) (val : CString) :
    n.setValue logicalMode (front ++ (r.image m ++ back)) val =
      .returned ⟨none, n, front ++ (r.image { m with keyed := true } ++ back)⟩ := by
  rw [setValue, n.getValue_eq hoff, if_pos hhidden, Outcome.returned_bind]
  dsimp only
  rw [n.getKeyword_eq hoff]

/-- A shorter value is stored over the old one, and the length of the line stays. -/
theorem SwMetaData.setValue_shorter (hoff : n.offset = front.length) {logicalMode : Nat}
    (hshown : ¬n.Hidden logicalMode) {val : CString} (hlt : val.strlen < r.value.strlen)
    (h : val.strlen < r.area.length) :
    n.setValue logicalMode (front ++ (r.image m ++ back)) val =
      .returned ⟨some val, n, front ++ ((storeRecord r val h).image ⟨true, true⟩ ++ back)⟩ := by
  rw [setValue, n.getValue_eq hoff, if_neg hshown, Outcome.returned_bind]
  dsimp only
  rw [n.getKeyword_eq hoff]
  dsimp only
  rw [ofMem_drop_append, r.value_image, if_pos hlt, overwrite_image h]

/-- For another value a new line is written at the end. -/
theorem SwMetaData.setValue_longer (hoff : n.offset = front.length) (hlevel : n.level ≤ 10)
    {logicalMode : Nat} (hshown : ¬n.Hidden logicalMode) {val : CString}
    (hle : r.value.strlen ≤ val.strlen) :
    n.setValue logicalMode (front ++ (r.image m ++ back)) val =
      (let image := front ++ (r.image ⟨true, true⟩ ++ back)
      if h : (storedValue val).strlen < 10 ^ 9 then
        .returned ⟨some (storedValue val), n.setPOffset image.length,
          image ++ (attRecord r.keyword n.level (storedValue val) h).image ⟨true, true⟩⟩
      else .exited 33) := by
  rw [setValue, n.getValue_eq hoff, if_neg hshown, Outcome.returned_bind]
  dsimp only
  rw [n.getKeyword_eq hoff]
  dsimp only
  rw [ofMem_drop_append, r.value_image, if_neg (Nat.not_lt.mpr hle), ofMem_drop_append,
    r.keyword_image _ _ rfl]
  generalize front ++ (r.image ⟨true, true⟩ ++ back) = image
  have hoff' : (n.setPOffset image.length).offset = image.length := rfl
  have hshown' : ¬(n.setPOffset image.length).Hidden logicalMode := hshown
  rw [n.setPOffset_level]
  by_cases h : (storedValue val).strlen < 10 ^ 9
  · have hvalue := (n.setPOffset image.length).getValue_eq
      (r := attRecord r.keyword n.level (storedValue val) h) (m := ⟨false, false⟩) hoff' logicalMode
      []
    rw [List.append_nil, List.append_nil, if_neg hshown'] at hvalue
    rw [dif_pos h, swparseWriteAttributeAtt_record hlevel h, hvalue, Outcome.returned_bind]
    dsimp only
    have hstr := (attRecord r.keyword n.level (storedValue val) h).value_image []
    rw [List.append_nil, attRecord_value] at hstr
    rw [Option.map_some, ofMem_drop_append, hstr]
  · have hneg : ¬(n.setPOffset image.length).offset < 0 := by
      rw [hoff']
      omega
    rw [dif_neg h, getValue, if_neg hneg, if_neg hshown', parserline_eq hoff',
      getValue_long r.keyword val hlevel h]
    rfl

end

section

variable {st : MdList} {i : Nat} {n : SwMetaData} {before after : List (MdRecord × Marks)}
  {r r₁ : MdRecord} {m : Marks}

/-- Where a line gets a value in the same place, lines are written at the end and the node goes
to one of them or stays, each node still has a line of its own. -/
theorem MdList.Lies.replace (hlies : st.Lies (before ++ (r, m) :: after))
    (hn : st.nodes[i]? = some n) (hoff : n.offset = (recordsImage before).length)
    (hsize : r₁.size = r.size) (m₁ : Marks) (more : List (MdRecord × Marks)) {n₁ : SwMetaData}
    {r' : MdRecord} (hlevel : n₁.level ≤ 10)
    (hat : n₁.IsAt (before ++ (r₁, m₁) :: after ++ more) r')
    (hoff₁ : n₁.offset = n.offset ∨ n₁.offset = st.image.length) :
    ({ st with
        image := recordsImage (before ++ (r₁, m₁) :: after ++ more)
        nodes := st.nodes.set i n₁ } : MdList).Lies (before ++ (r₁, m₁) :: after ++ more) := by
  have hother : ∀ {j : Nat} {n' : SwMetaData}, j ≠ i → (st.nodes.set i n₁)[j]? = some n' →
      st.nodes[j]? = some n' := by
    intro j n' hj hn'
    rwa [List.getElem?_set_ne (Ne.symm hj)] at hn'
  have hself : ∀ {n' : SwMetaData}, (st.nodes.set i n₁)[i]? = some n' → n' = n₁ := by
    intro n' hn'
    rw [List.getElem?_set_self (List.getElem?_eq_some_iff.mp hn).1] at hn'
    exact (Option.some.inj hn').symm
  have hapart : ∀ {j : Nat} {n' : SwMetaData}, j ≠ i → st.nodes[j]? = some n' →
      n'.offset ≠ n₁.offset := by
    intro j n' hj hn'
    obtain ⟨r'', hat''⟩ := (hlies.isAt j n' hn').2
    have hlt := hat''.offset_lt
    rw [← hlies.image_eq] at hlt
    rcases hoff₁ with h | h
    · rw [h]
      exact hlies.apart j i n' n hj hn' hn
    · omega
  refine ⟨rfl, fun j n' hn' => ?_, fun j k n' n'' hjk hn' hn'' => ?_⟩
  · by_cases hj : j = i
    · subst hj
      rw [hself hn']
      exact ⟨hlevel, r', hat⟩
    · have hold := hother hj hn'
      obtain ⟨hle, r'', hat''⟩ := hlies.isAt j n' hold
      have hne : n'.offset ≠ (recordsImage before).length := by
        rw [← hoff]
        exact hlies.apart j i n' n hj hold hn
      exact ⟨hle, r'', hat''.frame hne hsize m₁ more⟩
  · by_cases hj : j = i
    · subst hj
      rw [hself hn']
      exact (hapart (Ne.symm hjk) (hother (Ne.symm hjk) hn'')).symm
    · by_cases hk : k = i
      · subst hk
        rw [hself hn'']
        exact hapart hj (hother hj hn')
      · exact hlies.apart j k n' n'' hjk (hother hj hn') (hother hk hn'')

/-- And nothing else is read at the others. -/
theorem MdList.Lies.replace_reading (hlies : st.Lies (before ++ (r, m) :: after))
    (hn : st.nodes[i]? = some n) (hoff : n.offset = (recordsImage before).length)
    (hsize : r₁.size = r.size) (m₁ : Marks) (more : List (MdRecord × Marks)) (n₁ : SwMetaData)
    {j : Nat} (hj : j ≠ i) :
    ({ st with
        image := recordsImage (before ++ (r₁, m₁) :: after ++ more)
        nodes := st.nodes.set i n₁ } : MdList).reading j = st.reading j := by
  rw [reading, reading]
  dsimp only
  rw [List.getElem?_set_ne (Ne.symm hj), hlies.image_eq]
  cases hn' : st.nodes[j]? with
  | none => rfl
  | some n' =>
      obtain ⟨r', hat⟩ := (hlies.isAt j n' hn').2
      have hne : n'.offset ≠ (recordsImage before).length := by
        rw [← hoff]
        exact hlies.apart j i n' n hj hn' hn
      rw [Option.map_some, Option.map_some, hat.reading_eq,
        (hat.frame hne hsize m₁ more).reading_eq]

/-- A node that stays at its line, whatever is stored in it. -/
theorem MdList.Lies.stay (hlies : st.Lies (before ++ (r, m) :: after))
    (hn : st.nodes[i]? = some n) (hat : n.IsAt (before ++ (r, m) :: after) r)
    (hoff : n.offset = (recordsImage before).length) (hsize : r₁.size = r.size)
    (htype : r₁.type = r.type) (hlevel : r₁.level = r.level) (m₁ : Marks) :
    ({ st with
        image := recordsImage (before ++ (r₁, m₁) :: after)
        nodes := st.nodes.set i n } : MdList).Lies (before ++ (r₁, m₁) :: after) := by
  have hat₁ : n.IsAt (before ++ (r₁, m₁) :: after ++ []) r₁ := by
    refine ⟨hat.level_eq.trans hlevel.symm, ?_, before, m₁, after, List.append_nil _, hoff⟩
    rw [htype]
    exact hat.type_ne
  have hnext := hlies.replace hn hoff hsize m₁ [] (hlies.isAt i n hn).1 hat₁ (.inl rfl)
  rwa [List.append_nil] at hnext

/-- A node that goes to a line that is written for it. -/
theorem MdList.Lies.move (hlies : st.Lies (before ++ (r, m) :: after))
    (hn : st.nodes[i]? = some n) (hoff : n.offset = (recordsImage before).length)
    {val : CString} (h : val.strlen < 10 ^ 9) :
    ({ st with
        image := recordsImage (before ++ (r, ⟨true, true⟩) :: after ++
          [(attRecord r.keyword n.level val h, ⟨true, true⟩)])
        nodes := st.nodes.set i (n.setPOffset st.image.length) } : MdList).Lies
      (before ++ (r, ⟨true, true⟩) :: after ++
        [(attRecord r.keyword n.level val h, ⟨true, true⟩)]) := by
  have hat : (n.setPOffset st.image.length).IsAt (before ++ (r, ⟨true, true⟩) :: after ++
      [(attRecord r.keyword n.level val h, ⟨true, true⟩)]) (attRecord r.keyword n.level val h) := by
    refine ⟨rfl, attRecord_type_ne h, before ++ (r, ⟨true, true⟩) :: after, ⟨true, true⟩, [], rfl, ?_⟩
    rw [n.setPOffset_offset, hlies.image_eq]
    exact congrArg Nat.cast (length_recordsImage_split rfl before ⟨true, true⟩ m after)
  exact hlies.replace hn hoff rfl ⟨true, true⟩ _ (hlies.isAt i n hn).1 hat (.inr rfl)

/-- The three ways in which `set_value` of a node returns. -/
theorem MdList.Lies.setValue_cases (hlies : st.Lies (before ++ (r, m) :: after))
    (hn : st.nodes[i]? = some n) (hoff : n.offset = (recordsImage before).length) (val : CString) :
    st.setValue i val =
      if n.Hidden st.logicalMode then
        .returned { st with
          image := recordsImage (before ++ (r, { m with keyed := true }) :: after)
          nodes := st.nodes.set i n }
      else if h : val.strlen < r.value.strlen then
        .returned { st with
          image := recordsImage
            (before ++ (storeRecord r val (Nat.lt_of_lt_of_le h (CString.length_ofMem_le r.area)),
              ⟨true, true⟩) :: after)
          nodes := st.nodes.set i n }
      else if h : (storedValue val).strlen < 10 ^ 9 then
        .returned { st with
          image := recordsImage (before ++ (r, ⟨true, true⟩) :: after ++
            [(attRecord r.keyword n.level (storedValue val) h, ⟨true, true⟩)])
          nodes := st.nodes.set i (n.setPOffset st.image.length) }
      else .exited 33 := by
  have himage : st.image = recordsImage before ++ (r.image m ++ recordsImage after) := by
    rw [hlies.image_eq, recordsImage_split]
  have hlen : (recordsImage before ++ (r.image ⟨true, true⟩ ++ recordsImage after)).length =
      st.image.length := by
    simp only [himage, List.length_append, r.length_image]
  rw [MdList.setValue, hn]
  dsimp only
  by_cases hhidden : n.Hidden st.logicalMode
  · rw [if_pos hhidden, himage, n.setValue_hidden hoff hhidden, ← recordsImage_split]
    rfl
  · rw [if_neg hhidden]
    by_cases hlt : val.strlen < r.value.strlen
    · have harea := Nat.lt_of_lt_of_le hlt (CString.length_ofMem_le r.area)
      rw [dif_pos hlt, himage, n.setValue_shorter hoff hhidden hlt harea, ← recordsImage_split]
      rfl
    · have hlevel := (hlies.isAt i n hn).1
      conv_lhs => rw [himage]
      rw [dif_neg hlt, n.setValue_longer hoff hlevel hhidden (Nat.not_lt.mp hlt)]
      dsimp only
      rw [hlen]
      by_cases h : (storedValue val).strlen < 10 ^ 9
      · rw [dif_pos h, dif_pos h, recordsImage_append, recordsImage_split, recordsImage_singleton]
        rfl
      · rw [dif_neg h, dif_neg h]
        rfl

end

/-- Whatever is set, each node still has a line of its own, and nothing else is read at the
other nodes. -/
theorem MdList.Lies.setValue {st st' : MdList} {rs : List (MdRecord × Marks)} (hlies : st.Lies rs)
    {i : Nat} {val : CString} (h : st.setValue i val = .returned st') :
    (∃ rs', st'.Lies rs') ∧ ∀ j, j ≠ i → st'.reading j = st.reading j := by
  cases hn : st.nodes[i]? with
  | none =>
      rw [MdList.setValue, hn] at h
      cases h
  | some n =>
      obtain ⟨hlevel, r, hat⟩ := hlies.isAt i n hn
      obtain ⟨before, m, after, rfl, hoff⟩ := hat.split
      rw [hlies.setValue_cases hn hoff] at h
      split at h
      next =>
        cases h
        have hothers := fun j hj =>
          hlies.replace_reading hn hoff rfl { m with keyed := true } [] n (j := j) hj
        rw [List.append_nil] at hothers
        exact ⟨⟨_, hlies.stay hn hat hoff rfl rfl rfl _⟩, hothers⟩
      next =>
        split at h
        next hlt =>
          cases h
          have harea := Nat.lt_of_lt_of_le hlt (CString.length_ofMem_le r.area)
          have hothers := fun j hj =>
            hlies.replace_reading hn hoff (storeRecord_size harea) ⟨true, true⟩ [] n (j := j) hj
          rw [List.append_nil] at hothers
          exact ⟨⟨_, hlies.stay hn hat hoff (storeRecord_size harea) rfl rfl _⟩, hothers⟩
        next =>
          split at h
          next hstored =>
            cases h
            exact ⟨⟨_, hlies.move hn hoff hstored⟩, fun j hj =>
              hlies.replace_reading hn hoff rfl ⟨true, true⟩ _ (n.setPOffset st.image.length) hj⟩
          next => cases h

/-- Values of some nodes, one after the other. -/
def MdList.setValues (st : MdList) : List (Nat × CString) → Outcome MdList
  | [] => .returned st
  | (i, val) :: more => do
      let st ← st.setValue i val
      st.setValues more

/-- Each node has a line of its own in every state that values are set in. -/
theorem MdList.Lies.setValues {st st' : MdList} {rs : List (MdRecord × Marks)} (hlies : st.Lies rs)
    {sets : List (Nat × CString)} (h : st.setValues sets = .returned st') : ∃ rs', st'.Lies rs' := by
  induction sets generalizing st rs with
  | nil =>
      cases h
      exact ⟨rs, hlies⟩
  | cons p sets ih =>
      obtain ⟨st₁, hset, h⟩ := Outcome.bind_eq_returned.mp h
      obtain ⟨⟨rs₁, hlies₁⟩, -⟩ := hlies.setValue hset
      exact ih hlies₁ h

/-! ## When a value is set -/

/-- The memory, with a new line for the value, is one that an `int` can address. -/
def MdList.Fits (st : MdList) (i : Nat) (val : CString) : Prop :=
  ∀ n key, st.nodes[i]? = some n → n.keywordText st.image = some key →
    st.image.length + (swparseWriteAttributeAtt key val n.level).length ≤ intMax

/-- The iterator visits the lines it has visited, and the one that is written. -/
theorem visitLines_move {before after : List (MdRecord × Marks)} {r new : MdRecord} {m : Marks}
    (hext : r.type ≠ .ext) (hnew : new.type ≠ .ext) (m₁ m₂ : Marks)
    (hsize : (recordsImage (before ++ (r, m) :: after)).length + new.size ≤ intMax) :
    ∃ fuel fuel' visited more,
      visitLines fuel (recordsImage (before ++ (r, m) :: after)) 0 = .returned visited ∧
      visitLines fuel' (recordsImage (before ++ (r, m₁) :: after ++ [(new, m₂)])) 0 =
        .returned (visited ++ more) ∧
      (more = [] ∨ more = [(recordsImage (before ++ (r, m) :: after)).length]) := by
  have hlen := length_recordsImage_split (r := r) rfl before m m₁ after
  obtain ⟨more, hmore, hcases⟩ := visitedLines_concat hnew m₂ (before ++ (r, m₁) :: after) 0
  rw [hlen, Nat.zero_add] at hcases
  rw [visitedLines_replace hext rfl rfl m m₁ before after 0] at hmore
  have hne : before ++ (r, m) :: after ≠ [] := by simp
  have hold := visitLines_recordsImage hne (by omega)
  have hfits : (recordsImage (before ++ (r, m₁) :: after ++ [(new, m₂)])).length ≤ intMax := by
    rw [recordsImage_append, recordsImage_singleton, List.length_append, new.length_image, hlen]
    exact hsize
  have hafter := visitLines_recordsImage (by simp) hfits
  rw [hmore] at hafter
  exact ⟨_, _, _, more, hold, hafter, hcases⟩

section

variable {st : MdList} {i : Nat} {n : SwMetaData} {before after : List (MdRecord × Marks)}
  {r : MdRecord} {m : Marks}

/-- A hidden value is not read back. -/
theorem MdList.Lies.not_setsValue_hidden (hlies : st.Lies (before ++ (r, m) :: after))
    (hn : st.nodes[i]? = some n) (hoff : n.offset = (recordsImage before).length)
    (hhidden : n.Hidden st.logicalMode) (val : CString) : ¬SetsValue st i val := by
  rintro ⟨st', h, hset⟩
  rw [hlies.setValue_cases hn hoff, if_pos hhidden] at h
  cases h
  have hvalue := hset.value n (List.getElem?_set_self (List.getElem?_eq_some_iff.mp hn).1)
  dsimp only at hvalue
  rw [recordsImage_split, n.valueText_eq hoff, if_pos hhidden] at hvalue
  cases hvalue

/-- A shorter value has the length of the old one. -/
theorem MdList.Lies.not_setsValue_shorter (hlies : st.Lies (before ++ (r, m) :: after))
    (hn : st.nodes[i]? = some n) (hoff : n.offset = (recordsImage before).length)
    (hshown : ¬n.Hidden st.logicalMode) {val : CString} (hlt : val.strlen < r.value.strlen) :
    ¬SetsValue st i val := by
  have harea := Nat.lt_of_lt_of_le hlt (CString.length_ofMem_le r.area)
  rintro ⟨st', h, hset⟩
  rw [hlies.setValue_cases hn hoff, if_neg hshown, dif_pos hlt] at h
  cases h
  have hlength := hset.length n (List.getElem?_set_self (List.getElem?_eq_some_iff.mp hn).1)
  dsimp only at hlength
  rw [recordsImage_split, n.parserline_eq hoff, MdRecord.getValueLength_image,
    storeRecord_length harea] at hlength
  injection hlength with hlength
  omega

/-- Another value is set if it is written as it is. -/
theorem MdList.Lies.setsValue_longer_iff (hlies : st.Lies (before ++ (r, m) :: after))
    (hn : st.nodes[i]? = some n) (hoff : n.offset = (recordsImage before).length)
    (hext : r.type ≠ .ext) (hshown : ¬n.Hidden st.logicalMode) {val : CString}
    (hle : r.value.strlen ≤ val.strlen) (hfits : st.Fits i val)
    (h : (storedValue val).strlen < 10 ^ 9) : SetsValue st i val ↔ storedValue val = val := by
  have himage := hlies.image_eq
  have hself : (st.nodes.set i (n.setPOffset st.image.length))[i]? =
      some (n.setPOffset st.image.length) :=
    List.getElem?_set_self (List.getElem?_eq_some_iff.mp hn).1
  have hoff' : (n.setPOffset st.image.length).offset =
      (recordsImage (before ++ (r, ⟨true, true⟩) :: after)).length := by
    rw [n.setPOffset_offset, himage, length_recordsImage_split (r := r) rfl before m ⟨true, true⟩]
  have hfront : recordsImage (before ++ (r, ⟨true, true⟩) :: after ++
      [(attRecord r.keyword n.level (storedValue val) h, ⟨true, true⟩)]) =
        recordsImage (before ++ (r, ⟨true, true⟩) :: after) ++
          ((attRecord r.keyword n.level (storedValue val) h).image ⟨true, true⟩ ++ []) := by
    rw [recordsImage_append, recordsImage_singleton, List.append_nil]
  have hvalue : (n.setPOffset st.image.length).valueText st.logicalMode
      (recordsImage (before ++ (r, ⟨true, true⟩) :: after ++
        [(attRecord r.keyword n.level (storedValue val) h, ⟨true, true⟩)])) =
          .returned (some (storedValue val)) := by
    rw [hfront, SwMetaData.valueText_eq hoff', attRecord_value]
    exact congrArg Outcome.returned (if_neg hshown)
  rw [SetsValue, hlies.setValue_cases hn hoff, if_neg hshown, dif_neg (Nat.not_lt.mpr hle), dif_pos h]
  constructor
  · rintro ⟨st', hst', hset⟩
    cases hst'
    have hread := hset.value _ hself
    rw [hvalue] at hread
    exact Option.some.inj (Outcome.returned.inj hread)
  · intro hstored
    have hkey : n.keywordText st.image = some r.keyword.str := by
      rw [himage, recordsImage_split, n.keywordText_eq hoff]
    have hsize := hfits n _ hn hkey
    rw [swparseWriteAttributeAtt_record (hlies.isAt i n hn).1 h, MdRecord.length_image,
      himage] at hsize
    refine ⟨_, rfl, fun n₁ hn₁ => ?_, fun n₁ hn₁ => ?_, ?_, fun j hj => ?_⟩
    · rw [hself] at hn₁
      cases hn₁
      dsimp only
      rw [hvalue, hstored]
    · rw [hself] at hn₁
      cases hn₁
      dsimp only
      rw [hfront, SwMetaData.parserline_eq hoff', MdRecord.getValueLength_image]
      exact congrArg (fun v : CString => Outcome.returned (v.strlen : Int)) hstored
    · dsimp only
      rw [himage]
      exact visitLines_move hext (attRecord_type_ne h) _ _ hsize
    · exact hlies.replace_reading hn hoff rfl ⟨true, true⟩ _ _ hj

end

/-- A value is set if the old one is there to be read and not longer, the new one is written
as it is, and the length field can say how long it is. -/
theorem setsValue_iff {st : MdList} (hlies : ∃ rs, st.Lies rs) {i : Nat} {n : SwMetaData}
    (hn : st.nodes[i]? = some n) (val : CString) (hfits : st.Fits i val) :
    SetsValue st i val ↔
      ∃ old, n.valueText st.logicalMode st.image = .returned (some old) ∧
        old.strlen ≤ val.strlen ∧ storedValue val = val ∧ val.strlen < 10 ^ 9 := by
  obtain ⟨rs, hlies⟩ := hlies
  obtain ⟨-, r, hat⟩ := hlies.isAt i n hn
  obtain ⟨before, m, after, rfl, hoff⟩ := hat.split
  have hold : n.valueText st.logicalMode st.image =
      .returned (if n.Hidden st.logicalMode then none else some r.value) := by
    rw [hlies.image_eq, recordsImage_split, n.valueText_eq hoff]
  rw [hold]
  by_cases hhidden : n.Hidden st.logicalMode
  · rw [if_pos hhidden]
    refine iff_of_false (hlies.not_setsValue_hidden hn hoff hhidden val) ?_
    rintro ⟨old, h, -⟩
    cases h
  · rw [if_neg hhidden]
    by_cases hlt : val.strlen < r.value.strlen
    · refine iff_of_false (hlies.not_setsValue_shorter hn hoff hhidden hlt) ?_
      rintro ⟨old, h, hle, -⟩
      cases h
      exact Nat.not_lt.mpr hle hlt
    · by_cases h : (storedValue val).strlen < 10 ^ 9
      · rw [hlies.setsValue_longer_iff hn hoff hat.type_ne hhidden (Nat.not_lt.mp hlt) hfits h]
        constructor
        · intro hstored
          rw [hstored] at h
          exact ⟨r.value, rfl, Nat.not_lt.mp hlt, hstored, h⟩
        · rintro ⟨old, -, -, hstored, -⟩
          exact hstored
      · refine iff_of_false ?_ ?_
        · rintro ⟨st', hst', -⟩
          rw [hlies.setValue_cases hn hoff, if_neg hhidden, dif_neg hlt, dif_neg h] at hst'
          cases hst'
        · rintro ⟨old, -, -, hstored, hshort⟩
          rw [hstored] at h
          exact h hshort

/-- The attribute `tag abc`. -/
def tagAbc : MdRecord :=
  attRecord ⟨literal "tag", by decide, by decide⟩ 2 ⟨literal "abc", by decide⟩ (by decide)

theorem tagAbc_lies : (parsedList [(tagAbc, ⟨false, false⟩)]).Lies [(tagAbc, ⟨false, false⟩)] :=
  parsedList_lies fun p hp => by
    rw [List.mem_singleton.mp hp]
    decide

/-- The tag is set to a longer one. -/
theorem setsValue_tag :
    SetsValue (parsedList [(tagAbc, ⟨false, false⟩)]) 0 ⟨literal "wxyz", by decide⟩ := by
  refine (setsValue_iff ⟨_, tagAbc_lies⟩ (n := ⟨0, 0, 2, 0⟩) rfl _ ?_).mpr
    ⟨⟨literal "abc", by decide⟩, by decide +kernel, by decide, by decide +kernel, by decide⟩
  intro n key hn hkey
  have hnode : n = ⟨0, 0, 2, 0⟩ := (Option.some.inj hn).symm
  have htag : (SwMetaData.mk 0 0 2 0).keywordText (parsedList [(tagAbc, ⟨false, false⟩)]).image =
      some ⟨literal "tag", by decide⟩ := by decide +kernel
  rw [hnode, htag] at hkey
  rw [hnode, ← Option.some.inj hkey]
  decide +kernel

/-- Set to a shorter one its length is 3. -/
theorem setsValue_tag_shorter :
    ¬SetsValue (parsedList [(tagAbc, ⟨false, false⟩)]) 0 ⟨literal "x", by decide⟩ :=
  have hlies : (parsedList [(tagAbc, ⟨false, false⟩)]).Lies ([] ++ (tagAbc, ⟨false, false⟩) :: []) :=
    tagAbc_lies
  hlies.not_setsValue_shorter (n := ⟨0, 0, 2, 0⟩) rfl rfl (by decide) (by decide)

end Swbis.SwStruct
