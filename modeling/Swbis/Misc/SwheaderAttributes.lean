import Swbis.Misc.Swheader

/-!
# Iterating over the attributes of an object

An `SWHEADER` is a metadata image and a pointer to an offset into it.  The
offset is in the object itself, or in a variable of the caller, and it can be
stored and restored.  `swheader_get_next_attribute` has in addition a count of
the attributes it has returned, which belongs to the function and not to the
object: an iteration that is given up leaves it behind for the next one.

A `World` is all of this together.  In every world that is reached by calls
that look at the starts of lines only, the images are the ones that the parser
wrote, except for what has been ended in them; and then the count decides
whether the next iteration is right.
-/

namespace Swbis.Misc

open CLib

/-! ## Objects, offsets and saved states -/

/-- Where an offset is: the `current_offset_` of an object, or a variable of a caller. -/
inductive Cell where
  | own (h : Nat)
  | shared (k : Nat)
deriving DecidableEq

/-- `SWHEADER_STATE` -/
structure SavedState where
  offsetP : Option Cell
  offset : Int
  value : Int

/-- The lines of a metadata image, and what is in memory behind the NUL that follows them.  An
offset into the image is an `int`. -/
structure Metadata where
  lines : List MdLine
  junk : Bytes
  size_le : (emittedImage lines junk).length ≤ intMax

/-- What the parser writes. -/
def Metadata.image (md : Metadata) : Bytes := emittedImage md.lines md.junk

/-- `SWHEADER`, for the iterator `swheader_goto_c_next_line`.  Its `current_offset_` is the cell
`own`.  No function reads `metadata`: it says what the image was when it was set. -/
structure Header where
  metadata : Metadata
  image : Bytes
  offsetP : Option Cell
  saved : SavedState

/-- All objects, the variables that hold offsets, the states that callers have created, and the
static `att_count` of `swheader_get_next_attribute`. -/
structure World where
  headers : Nat → Header
  cells : Cell → Int
  states : Nat → SavedState
  attCount : Nat

namespace World

/-- The object `h` with another image in memory. -/
def setImage (h : Nat) (image : Bytes) (w : World) : World :=
  { w with headers := Function.update w.headers h { w.headers h with image := image } }

/-- Write to an offset. -/
def setCell (c : Cell) (n : Int) (w : World) : World :=
  { w with cells := Function.update w.cells c n }

/-- Write to the count. -/
def setAttCount (n : Nat) (w : World) : World := { w with attCount := n }

/-- Let the offset of `h` be somewhere else. -/
def setOffsetP (h : Nat) (p : Option Cell) (w : World) : World :=
  { w with headers := Function.update w.headers h { w.headers h with offsetP := p } }

/-- A saved state: the one in the object, or one of a caller. -/
def state (h : Nat) (s : Option Nat) (w : World) : SavedState :=
  match s with
  | none => (w.headers h).saved
  | some k => w.states k

/-- Write a saved state. -/
def setState (h : Nat) (s : Option Nat) (state : SavedState) (w : World) : World :=
  match s with
  | none => { w with headers := Function.update w.headers h { w.headers h with saved := state } }
  | some k => { w with states := Function.update w.states k state }

/-- The type of the line at a pointer into the image of `h`. -/
def typeAt (h line : Nat) (w : World) : UInt8 := swheaderlineGetType ((w.headers h).image.drop line)

end World

/-! ## The functions -/

/-- The value of a pointer to an offset. -/
def deref (p : Option Cell) (w : World) : Outcome (Cell × Int) :=
  match p with
  | none => .fault
  | some c => .returned (c, w.cells c)

/-- A call of the iterator with an offset. -/
def callIterator (h : Nat) (offset : Int) (peekOnly : Bool) (w : World) : Outcome (LineStep × World) := do
  let step ← gotoCNextLine (w.headers h).image offset peekOnly
  .returned (step, w.setImage h step.image)

/-- `swheader_goto_next_line` at the current offset; `swheader_f_goto_next` if this is not a peek. -/
def gotoNextLine (h : Nat) (peekOnly : Bool) (w : World) : Outcome (Option Nat × World) := do
  let (c, offset) ← deref (w.headers h).offsetP w
  let (step, w) ← callIterator h offset peekOnly w
  .returned (step.line, w.setCell c step.offset)

/-- `swheader_get_current_line`: at the offset zero this is a peek at the line behind. -/
def getCurrentLine (h : Nat) (w : World) : Outcome (Option Nat × World) := do
  let (_, offset) ← deref (w.headers h).offsetP w
  let (step, w) ← callIterator h (-offset) true w
  .returned (step.line, w)

/-- `swheader_get_next_attribute` -/
def getNextAttribute (h : Nat) (w : World) : Outcome (Option Nat × World) := do
  let (nextline, w) ← gotoNextLine h true w
  let (currentline, w) ← getCurrentLine h w
  match currentline with
  | none => .returned (none, w.setAttCount 0)
  | some currentline =>
      if w.typeAt h currentline = MdType.obj.letter ∧ w.attCount ≠ 0 then
        .returned (none, w.setAttCount 0)
      else
        match nextline with
        | none => .returned (none, w.setAttCount 0)
        | some nextline =>
            if w.typeAt h nextline = MdType.obj.letter then
              .returned (none, w.setAttCount 0)
            else do
              let (_, w) ← gotoNextLine h false (w.setAttCount (w.attCount + 1))
              .returned (some nextline, w)

/-- `swheader_set_current_offset`, `swheader_set_current_offset_p_value` -/
def setCurrentOffset (h : Nat) (n : Int) (w : World) : Outcome World := do
  let (c, _) ← deref (w.headers h).offsetP w
  .returned (w.setCell c n)

/-- `swheader_set_current_offset_p` -/
def setCurrentOffsetP (h : Nat) (n : Option Cell) (w : World) : World :=
  w.setOffsetP h (some (n.getD (.own h)))

/-- `swheader__reset`, which is all that `swheader_reset` does with this iterator. -/
def headerReset (h : Nat) (w : World) : Outcome World := setCurrentOffset h 0 (w.setCell (.own h) 0)

/-- `swheader_store_state` -/
def storeState (h : Nat) (s : Option Nat) (w : World) : World :=
  w.setState h s {
    offsetP := (w.headers h).offsetP
    offset := w.cells (.own h)
    value := match (w.headers h).offsetP with
      | none => 0
      | some c => w.cells c }

/-- `swheader_restore_state` -/
def restoreState (h : Nat) (s : Option Nat) (w : World) : World :=
  let state := w.state h s
  let w := (w.setOffsetP h state.offsetP).setCell (.own h) state.offset
  match state.offsetP with
  | none => w
  | some c => w.setCell c state.value

/-- `swheader_state_create` -/
def stateCreate (s : Nat) (w : World) : World := w.setState 0 (some s) ⟨none, -1, -1⟩

/-- `swheader_state_copy` -/
def stateCopy (dst src : Nat) (w : World) : World := w.setState 0 (some dst) (w.states src)

/-- `swheader_set_image_head` -/
def setImageHead (h : Nat) (md : Metadata) (w : World) : World :=
  let header := { w.headers h with metadata := md, image := md.image }
  { w with headers := Function.update w.headers h header }

/-- `swheaderline_get_keyword` at a line of `h`. -/
def keywordOf (h line : Nat) (w : World) : Option (Bytes × World) :=
  (swheaderlineGetKeyword ((w.headers h).image.drop line)).map fun (keyw, ih) =>
    ((CString.ofMem (ih.drop keyw)).bytes, w.setImage h ((w.headers h).image.take line ++ ih))

/-- `swheaderline_get_value`, and `swheaderline_get_value_pointer` if the value is not to be ended. -/
def valueOf (h line : Nat) (terminate : Bool) (w : World) : Outcome World := do
  match ← getValue terminate ((w.headers h).image.drop line) with
  | none => .returned w
  | some (_, _, ih) => .returned (w.setImage h ((w.headers h).image.take line ++ ih))

/-- `swheader_raw_get_attribute_in_object` -/
def rawGetAttributeInObject (h : Nat) (keyword : Bytes) : Nat → World → Outcome (Option Nat × World)
  | 0, _ => .outOfFuel
  | fuel + 1, w => do
      let (line, w) ← getNextAttribute h w
      match line with
      | none => .returned (none, w)
      | some line =>
          match keywordOf h line w with
          | none => .fault
          | some (keyw, w) =>
              if keyw = keyword then .returned (some line, w)
              else rawGetAttributeInObject h keyword fuel w

/-- The last of the attributes with a keyword. -/
def lastAttributeInObject (h : Nat) (keyword : Bytes) :
    Nat → Option Nat → World → Outcome (Option Nat × World)
  | 0, _, _ => .outOfFuel
  | fuel + 1, prevline, w => do
      let (line, w) ← rawGetAttributeInObject h keyword fuel w
      match line with
      | none => .returned (prevline, w)
      | some line => lastAttributeInObject h keyword fuel (some line) w

/-- `get_attribute_in_current_object`, with its state in `slot`: of an attribute with several values
the first line, otherwise the last one. -/
def getAttributeInCurrentObject (h : Nat) (keyword : Bytes) (multiValue : Bool) (slot fuel : Nat)
    (w : World) : Outcome (Option Nat × World) := do
  let w := storeState h (some slot) w
  let (line, w) ←
    (if multiValue then rawGetAttributeInObject h keyword fuel w
    else lastAttributeInObject h keyword fuel none w)
  .returned (line, restoreState h (some slot) w)

/-- `swheader_get_next_attribute` until it returns `NULL`: the lines it returned. -/
def attributes (h : Nat) : Nat → World → Outcome (List Nat)
  | 0, _ => .outOfFuel
  | fuel + 1, w => do
      let (line, w) ← getNextAttribute h w
      match line with
      | none => .returned []
      | some line => do
          let more ← attributes h fuel w
          .returned (line :: more)

/-! ## Histories -/

/-- A call of the interface, or an assignment to an offset of a caller. -/
inductive Op where
  | gotoNextLine (h : Nat) (peekOnly : Bool)
  | getCurrentLine (h : Nat)
  | getNextAttribute (h : Nat)
  | setCurrentOffset (h : Nat) (n : Int)
  | setCurrentOffsetP (h : Nat) (n : Option Cell)
  | reset (h : Nat)
  | storeState (h : Nat) (s : Option Nat)
  | restoreState (h : Nat) (s : Option Nat)
  | stateCreate (s : Nat)
  | stateCopy (dst src : Nat)
  | setImageHead (h : Nat) (md : Metadata)
  | getKeyword (h line : Nat)
  | getValue (h line : Nat) (terminate : Bool)
  | assign (k : Nat) (n : Int)

namespace Op

/-- What a call does. -/
def exec : Op → World → Outcome World
  | gotoNextLine h peekOnly, w => do
      let (_, w) ← Misc.gotoNextLine h peekOnly w
      .returned w
  | getCurrentLine h, w => do
      let (_, w) ← Misc.getCurrentLine h w
      .returned w
  | getNextAttribute h, w => do
      let (_, w) ← Misc.getNextAttribute h w
      .returned w
  | setCurrentOffset h n, w => Misc.setCurrentOffset h n w
  | setCurrentOffsetP h n, w => .returned (Misc.setCurrentOffsetP h n w)
  | reset h, w => headerReset h w
  | storeState h s, w => .returned (Misc.storeState h s w)
  | restoreState h s, w => .returned (Misc.restoreState h s w)
  | stateCreate s, w => .returned (Misc.stateCreate s w)
  | stateCopy dst src, w => .returned (Misc.stateCopy dst src w)
  | setImageHead h md, w => .returned (Misc.setImageHead h md w)
  | getKeyword h line, w =>
      match keywordOf h line w with
      | none => .returned w
      | some (_, w) => .returned w
  | getValue h line terminate, w => valueOf h line terminate w
  | assign k n, w => .returned (w.setCell (.shared k) n)

/-- One call after the other. -/
def run : List Op → World → Outcome World
  | [], w => .returned w
  | op :: ops, w => do
      let w ← op.exec w
      run ops w

end Op

/-- Objects that have been opened, each with the image it was given. -/
def World.opened (md : Nat → Metadata) : World where
  headers h := {
    metadata := md h
    image := (md h).image
    offsetP := some (.own h)
    saved := ⟨some (.own h), 0, 0⟩ }
  cells _ := 0
  states _ := ⟨none, -1, -1⟩
  attCount := 0

/-! ## Images that have been read -/

/-- How many bytes some lines take. -/
def extent (ls : List MdLine) : Nat := (ls.map MdLine.size).sum

theorem extent_append (ls ls' : List MdLine) : extent (ls ++ ls') = extent ls + extent ls' := by
  rw [extent, List.map_append, List.sum_append, extent, extent]

@[simp] theorem extent_singleton (l : MdLine) : extent [l] = l.size := by
  rw [extent, List.map_singleton, List.sum_singleton]

theorem length_linesImage (ls : List (MdLine × Marks)) :
    (linesImage ls).length = extent (ls.map Prod.fst) := by
  induction ls with
  | nil => rfl
  | cons p ls ih =>
      rw [linesImage, List.length_append, ih, p.1.length_image]
      rfl

namespace Metadata

variable {md : Metadata}

/-- A line starts here. -/
def IsLine (md : Metadata) (n : Int) : Prop :=
  ∃ before l after, md.lines = before ++ l :: after ∧ n = extent before

/-- The image is the one that the parser wrote, except for what has been ended in its lines. -/
def Holds (md : Metadata) (image : Bytes) : Prop :=
  ∃ ls, ls.map Prod.fst = md.lines ∧ image = linesImage ls ++ 0 :: md.junk

theorem holds_image (md : Metadata) : md.Holds md.image := by
  refine ⟨md.lines.map unread, ?_, emittedImage_eq _ _⟩
  rw [List.map_map]
  exact List.map_id _

theorem Holds.length_le {image : Bytes} (hold : md.Holds image) : image.length ≤ intMax := by
  obtain ⟨ls, hls, rfl⟩ := hold
  have hself : (md.lines.map unread).map Prod.fst = md.lines := by
    rw [List.map_map]
    exact List.map_id _
  have hsize := md.size_le
  rw [emittedImage_eq, List.length_append, length_linesImage, hself] at hsize
  rw [List.length_append, length_linesImage, hls]
  exact hsize

/-- The image around a line. -/
theorem Holds.split {image : Bytes} (hold : md.Holds image) {before after : List MdLine} {l : MdLine}
    (hlines : md.lines = before ++ l :: after) :
    ∃ front m back, image = front ++ (l.image m ++ back) ∧ front.length = extent before ∧
      front.length < intMax ∧ (∀ m', md.Holds (front ++ (l.image m' ++ back))) ∧
      (back.getD 0 0 = 0 ↔ after = []) := by
  have hlen := hold.length_le
  obtain ⟨ls, hls, rfl⟩ := hold
  rw [hlines] at hls
  obtain ⟨ls₁, ls₂, rfl, hbefore, htail⟩ := List.map_eq_append_iff.mp hls
  obtain ⟨p, ls₃, rfl, hp, hafter⟩ := List.map_eq_cons_iff.mp htail
  have himage : ∀ m', linesImage (ls₁ ++ (l, m') :: ls₃) ++ 0 :: md.junk =
      linesImage ls₁ ++ (l.image m' ++ (linesImage ls₃ ++ 0 :: md.junk)) := by
    intro m'
    rw [linesImage_append, linesImage, List.append_assoc, List.append_assoc]
  obtain ⟨l', m⟩ := p
  obtain rfl : l' = l := hp
  rw [himage] at hlen
  refine ⟨linesImage ls₁, m, linesImage ls₃ ++ 0 :: md.junk, himage m, ?_, ?_, ?_, ?_⟩
  · rw [length_linesImage, hbefore]
  · simp only [List.length_append, List.length_cons] at hlen
    omega
  · refine fun m' => ⟨ls₁ ++ (l', m') :: ls₃, ?_, (himage m').symm⟩
    rw [hlines, List.map_append, List.map_cons, hbefore, hafter]
  · cases ls₃ with
    | nil => exact iff_of_true rfl hafter.symm
    | cons q ls₃ =>
        refine iff_of_false ?_ ?_
        · rw [linesImage, List.append_assoc]
          exact getD_image_ne_zero _ _ _
        · rw [← hafter]
          exact List.cons_ne_nil _ _

section

variable {image : Bytes} {before after : List MdLine} {l : MdLine}

theorem Holds.getType (hold : md.Holds image) (hlines : md.lines = before ++ l :: after) :
    swheaderlineGetType (image.drop (extent before)) = l.content.type.letter := by
  obtain ⟨front, m, back, rfl, hlen, -⟩ := hold.split hlines
  rw [List.drop_left' hlen, l.getType_image]

/-- A step of the iterator ends the keyword of a line only. -/
theorem Holds.goto_line (hold : md.Holds image) (hlines : md.lines = before ++ l :: after)
    (peek : Bool) :
    ∃ step, gotoCNextLine image (extent before) peek = .returned step ∧ md.Holds step.image ∧
      (peek = true → step.offset = extent before) := by
  obtain ⟨front, m, back, rfl, hlen, hoff, hmarks, -⟩ := hold.split hlines
  rw [← hlen, gotoCNextLine_line _ _ _ _ _ hoff]
  refine ⟨_, rfl, ?_⟩
  dsimp only
  split
  next =>
    refine ⟨hmarks _, fun hpeek => ?_⟩
    rw [hpeek]
    rfl
  next =>
    refine ⟨hmarks _, fun hpeek => ?_⟩
    rw [hpeek]
    rfl

/-- From an object or an attribute the iterator goes to the next line. -/
theorem Holds.goto_next (hold : md.Holds image) (hlines : md.lines = before ++ l :: after)
    (hl : l.content.type ≠ .ext) (peek : Bool) :
    ∃ image', md.Holds image' ∧ gotoCNextLine image (extent before) peek = .returned
      (if after = [] then ⟨none, if peek then extent before else -1, image'⟩
      else ⟨some (extent (before ++ [l])),
        if peek then (extent before : Int) else (extent (before ++ [l]) : Int), image'⟩) := by
  obtain ⟨front, m, back, rfl, hlen, hoff, hmarks, hback⟩ := hold.split hlines
  refine ⟨_, hmarks { m with keyed := true }, ?_⟩
  rw [← hlen, gotoCNextLine_next _ _ _ _ _ hoff hl, extent_append, extent_singleton, hlen]
  refine congrArg Outcome.returned ?_
  by_cases hafter : after = []
  · rw [if_pos hafter]
    dsimp only
    rw [if_pos (hback.mpr hafter)]
  · rw [if_neg hafter]
    dsimp only
    rw [if_neg (mt hback.mp hafter)]

end

/-- An offset at which the iterator does not look at the image, or looks at the start of a line. -/
def Safe (md : Metadata) (offset : Int) : Prop := offset < 0 ∨ offset = intMax ∨ md.IsLine offset

theorem Holds.goto_safe {image : Bytes} (hold : md.Holds image) {offset : Int} (hsafe : md.Safe offset)
    {peek : Bool} {step : LineStep} (h : gotoCNextLine image offset peek = .returned step) :
    md.Holds step.image := by
  rcases hsafe with hneg | hmax | ⟨before, l, after, hlines, rfl⟩
  · have hne : ¬offset = intMax := fun hmax => absurd hneg (by rw [hmax]; decide)
    rw [gotoCNextLine, if_neg hne, if_pos hneg] at h
    cases h
    exact hold
  · rw [gotoCNextLine, if_pos hmax] at h
    cases h
    exact hold
  · obtain ⟨step', hstep, himage, -⟩ := hold.goto_line hlines peek
    rw [hstep] at h
    cases h
    exact himage

/-- Reading at a line ends its keyword and perhaps its value. -/
theorem Holds.keyword_line {image : Bytes} (hold : md.Holds image) {line : Nat} (hline : md.IsLine line)
    {keyw : Nat} {ih : Bytes} (h : swheaderlineGetKeyword (image.drop line) = some (keyw, ih)) :
    md.Holds (image.take line ++ ih) := by
  obtain ⟨before, l, after, hlines, heq⟩ := hline
  obtain rfl : line = extent before := Int.ofNat.inj heq
  obtain ⟨front, m, back, rfl, hlen, -, hmarks, -⟩ := hold.split hlines
  rw [List.drop_left' hlen, l.getKeyword_image] at h
  cases h
  rw [List.take_left' hlen]
  exact hmarks _

theorem Holds.value_line {image : Bytes} (hold : md.Holds image) {line : Nat} (hline : md.IsLine line)
    {terminate : Bool} {value : Nat} {len : Int} {ih : Bytes}
    (h : Misc.getValue terminate (image.drop line) = .returned (some (value, len, ih))) :
    md.Holds (image.take line ++ ih) := by
  obtain ⟨before, l, after, hlines, heq⟩ := hline
  obtain rfl : line = extent before := Int.ofNat.inj heq
  obtain ⟨front, m, back, rfl, hlen, -, hmarks, -⟩ := hold.split hlines
  rw [List.drop_left' hlen, l.getValue_image] at h
  cases h
  rw [List.take_left' hlen]
  exact hmarks _

end Metadata

/-! ## What a call leaves alone -/

namespace World

variable (w : World) (h h' : Nat) (image : Bytes)

@[simp] theorem setImage_image : ((w.setImage h image).headers h).image = image := by
  rw [setImage]
  dsimp only
  rw [Function.update_self]

/-- Only the bytes of one header change. -/
theorem setImage_headers : (w.setImage h image).headers h' =
    { w.headers h' with image := if h' = h then image else (w.headers h').image } := by
  rw [setImage]
  dsimp only
  by_cases heq : h' = h
  · rw [heq, Function.update_self, if_pos rfl]
  · rw [Function.update_of_ne heq, if_neg heq]

@[simp] theorem setImage_metadata :
    ((w.setImage h image).headers h').metadata = (w.headers h').metadata := by
  rw [setImage_headers]

@[simp] theorem setImage_offsetP :
    ((w.setImage h image).headers h').offsetP = (w.headers h').offsetP := by
  rw [setImage_headers]

@[simp] theorem setImage_cells : (w.setImage h image).cells = w.cells := rfl

@[simp] theorem setImage_attCount : (w.setImage h image).attCount = w.attCount := rfl

@[simp] theorem setCell_headers (c : Cell) (n : Int) : (w.setCell c n).headers = w.headers := rfl

@[simp] theorem setCell_cells (c : Cell) (n : Int) : (w.setCell c n).cells c = n := by
  rw [setCell]
  dsimp only
  rw [Function.update_self]

@[simp] theorem setCell_attCount (c : Cell) (n : Int) : (w.setCell c n).attCount = w.attCount := rfl

@[simp] theorem setAttCount_headers (n : Nat) : (w.setAttCount n).headers = w.headers := rfl

@[simp] theorem setAttCount_cells (n : Nat) : (w.setAttCount n).cells = w.cells := rfl

@[simp] theorem setAttCount_attCount (n : Nat) : (w.setAttCount n).attCount = n := rfl

/-- Every image is the one that the parser wrote. -/
def Intact : Prop := ∀ h, (w.headers h).metadata.Holds (w.headers h).image

variable {w h image}

/-- Other fields of an object do not matter. -/
theorem Intact.update (hinv : w.Intact) (header : Header)
    (hmetadata : header.metadata.Holds header.image) {w' : World}
    (hw : w'.headers = Function.update w.headers h header) : w'.Intact := by
  intro h'
  rw [hw]
  by_cases heq : h' = h
  · rw [heq, Function.update_self]
    exact hmetadata
  · rw [Function.update_of_ne heq]
    exact hinv h'

theorem Intact.setImage (hinv : w.Intact) (hold : (w.headers h).metadata.Holds image) :
    (w.setImage h image).Intact :=
  hinv.update _ hold rfl

theorem Intact.setOffsetP (hinv : w.Intact) (p : Option Cell) : (w.setOffsetP h p).Intact :=
  hinv.update { w.headers h with offsetP := p } (hinv h) rfl

theorem Intact.setCell (hinv : w.Intact) (c : Cell) (n : Int) : (w.setCell c n).Intact := hinv

theorem Intact.setAttCount (hinv : w.Intact) (n : Nat) : (w.setAttCount n).Intact := hinv

theorem Intact.setState (hinv : w.Intact) (s : Option Nat) (state : SavedState) :
    (w.setState h s state).Intact := by
  cases s with
  | none => exact hinv.update { w.headers h with saved := state } (hinv h) rfl
  | some k => exact hinv

end World

namespace Op

/-- The call looks at the image only where a line starts. -/
def Sound : Op → World → Prop
  | gotoNextLine h _, w => ∀ c, (w.headers h).offsetP = some c →
      (w.headers h).metadata.Safe (w.cells c)
  | getCurrentLine h, w => ∀ c, (w.headers h).offsetP = some c →
      (w.headers h).metadata.Safe (-w.cells c)
  | getNextAttribute h, w => ∀ c, (w.headers h).offsetP = some c →
      (w.headers h).metadata.IsLine (w.cells c)
  | getKeyword h line, w => (w.headers h).metadata.IsLine line
  | getValue h line _, w => (w.headers h).metadata.IsLine line
  | _, _ => True

end Op

theorem deref_eq_returned {p : Option Cell} {w : World} {c : Cell} {offset : Int} :
    deref p w = .returned (c, offset) ↔ p = some c ∧ w.cells c = offset := by
  cases p with
  | none => simp [deref]
  | some c' =>
      simp only [deref, Outcome.returned.injEq, Prod.mk.injEq, Option.some.injEq]
      constructor
      · rintro ⟨rfl, rfl⟩
        exact ⟨rfl, rfl⟩
      · rintro ⟨rfl, rfl⟩
        exact ⟨rfl, rfl⟩

section

variable {w w' : World} {h : Nat}

theorem gotoNextLine_cases {peek : Bool} {line : Option Nat}
    (hcall : gotoNextLine h peek w = .returned (line, w')) :
    ∃ c step, (w.headers h).offsetP = some c ∧
      gotoCNextLine (w.headers h).image (w.cells c) peek = .returned step ∧
      w' = (w.setImage h step.image).setCell c step.offset := by
  obtain ⟨⟨c, offset⟩, hderef, hcall⟩ := Outcome.bind_eq_returned.mp hcall
  obtain ⟨⟨step, w₁⟩, hstep, hcall⟩ := Outcome.bind_eq_returned.mp hcall
  obtain ⟨hp, rfl⟩ := deref_eq_returned.mp hderef
  obtain ⟨step', hgoto, hstep⟩ := Outcome.bind_eq_returned.mp hstep
  cases hstep
  cases hcall
  exact ⟨c, step, hp, hgoto, rfl⟩

theorem gotoNextLine_intact (hinv : w.Intact) {peek : Bool} {line : Option Nat}
    (hsafe : ∀ c, (w.headers h).offsetP = some c → (w.headers h).metadata.Safe (w.cells c))
    (hcall : gotoNextLine h peek w = .returned (line, w')) : w'.Intact := by
  obtain ⟨c, step, hp, hgoto, rfl⟩ := gotoNextLine_cases hcall
  exact hinv.setImage ((hinv h).goto_safe (hsafe c hp) hgoto)

theorem getCurrentLine_intact (hinv : w.Intact) {line : Option Nat}
    (hsafe : ∀ c, (w.headers h).offsetP = some c → (w.headers h).metadata.Safe (-w.cells c))
    (hcall : getCurrentLine h w = .returned (line, w')) :
    w'.Intact ∧ ∃ image, w' = w.setImage h image := by
  obtain ⟨⟨c, offset⟩, hderef, hcall⟩ := Outcome.bind_eq_returned.mp hcall
  obtain ⟨⟨step, w₁⟩, hstep, hcall⟩ := Outcome.bind_eq_returned.mp hcall
  obtain ⟨hp, rfl⟩ := deref_eq_returned.mp hderef
  obtain ⟨step', hgoto, hstep⟩ := Outcome.bind_eq_returned.mp hstep
  cases hstep
  cases hcall
  exact ⟨hinv.setImage ((hinv h).goto_safe (hsafe c hp) hgoto), _, rfl⟩

/-- A peek from a line leaves the offset where it is. -/
theorem gotoNextLine_peek (hinv : w.Intact) {line : Option Nat} {c : Cell}
    (hp : (w.headers h).offsetP = some c) (hline : (w.headers h).metadata.IsLine (w.cells c))
    (hcall : gotoNextLine h true w = .returned (line, w')) :
    ∃ image, w' = (w.setImage h image).setCell c (w.cells c) := by
  obtain ⟨c', step, hp', hgoto, rfl⟩ := gotoNextLine_cases hcall
  obtain rfl : c = c' := Option.some.inj (hp.symm.trans hp')
  obtain ⟨before, l, after, hlines, hoff⟩ := hline
  obtain ⟨step', hstep', -, hoffset⟩ := (hinv h).goto_line hlines true
  rw [hoff, hstep'] at hgoto
  cases hgoto
  rw [hoff, hoffset rfl]
  exact ⟨_, rfl⟩

theorem getNextAttribute_intact (hinv : w.Intact) {line : Option Nat}
    (hline : ∀ c, (w.headers h).offsetP = some c → (w.headers h).metadata.IsLine (w.cells c))
    (hcall : getNextAttribute h w = .returned (line, w')) : w'.Intact := by
  obtain ⟨⟨nextline, w₁⟩, hpeek, hcall⟩ := Outcome.bind_eq_returned.mp hcall
  obtain ⟨⟨currentline, w₂⟩, hcurrent, hcall⟩ := Outcome.bind_eq_returned.mp hcall
  have hinv₁ : w₁.Intact := gotoNextLine_intact hinv (fun c hp => .inr (.inr (hline c hp))) hpeek
  obtain ⟨c, -, hp, -, -⟩ := gotoNextLine_cases hpeek
  obtain ⟨image₁, rfl⟩ := gotoNextLine_peek hinv hp (hline c hp) hpeek
  have hsame : ∀ c', (w.headers h).offsetP = some c' → c' = c := fun c' hp' =>
    Option.some.inj (hp'.symm.trans hp)
  have hcurrentSafe : (w.headers h).metadata.Safe (-w.cells c) := by
    obtain ⟨before, l, after, hlines, hoff⟩ := hline c hp
    rcases Nat.eq_zero_or_pos (extent before) with hzero | hpos
    · refine .inr (.inr ⟨before, l, after, hlines, ?_⟩)
      rw [hoff, hzero]
      rfl
    · refine .inl ?_
      omega
  obtain ⟨hinv₂, image₂, rfl⟩ := getCurrentLine_intact hinv₁ (fun c' hp' => by
    simp only [World.setCell_headers, World.setImage_offsetP, World.setImage_metadata] at hp' ⊢
    rw [hsame c' hp', World.setCell_cells]
    exact hcurrentSafe) hcurrent
  dsimp only at hcall
  split at hcall
  next =>
    cases hcall
    exact hinv₂
  next =>
    split at hcall
    next =>
      cases hcall
      exact hinv₂
    next =>
      split at hcall
      next =>
        cases hcall
        exact hinv₂
      next =>
        split at hcall
        next =>
          cases hcall
          exact hinv₂
        next =>
          obtain ⟨⟨line', w₃⟩, hnext, hcall⟩ := Outcome.bind_eq_returned.mp hcall
          cases hcall
          refine gotoNextLine_intact (hinv₂.setAttCount _) (fun c' hp' => ?_) hnext
          simp only [World.setAttCount_headers, World.setAttCount_cells, World.setImage_metadata,
            World.setImage_offsetP, World.setImage_cells, World.setCell_headers] at hp' ⊢
          rw [hsame c' hp', World.setCell_cells]
          exact .inr (.inr (hline c hp))

theorem setCurrentOffset_intact (hinv : w.Intact) {n : Int}
    (hcall : setCurrentOffset h n w = .returned w') : w'.Intact := by
  obtain ⟨⟨c, offset⟩, -, hcall⟩ := Outcome.bind_eq_returned.mp hcall
  cases hcall
  exact hinv.setCell c n

theorem restoreState_intact (hinv : w.Intact) (s : Option Nat) : (restoreState h s w).Intact := by
  have hrestored := (hinv.setOffsetP (h := h) (w.state h s).offsetP).setCell (.own h) (w.state h s).offset
  rw [restoreState]
  split
  next => exact hrestored
  next c _ => exact hrestored.setCell c _

theorem keywordOf_intact (hinv : w.Intact) {line : Nat} (hline : (w.headers h).metadata.IsLine line)
    {keyw : Bytes} (hcall : keywordOf h line w = some (keyw, w')) : w'.Intact := by
  rw [keywordOf, Option.map_eq_some_iff] at hcall
  obtain ⟨⟨at', ih⟩, hkeyword, hcall⟩ := hcall
  cases hcall
  exact hinv.setImage ((hinv h).keyword_line hline hkeyword)

theorem valueOf_intact (hinv : w.Intact) {line : Nat} (hline : (w.headers h).metadata.IsLine line)
    {terminate : Bool} (hcall : valueOf h line terminate w = .returned w') : w'.Intact := by
  obtain ⟨value, hvalue, hcall⟩ := Outcome.bind_eq_returned.mp hcall
  cases value with
  | none =>
      cases hcall
      exact hinv
  | some value =>
      cases hcall
      exact hinv.setImage ((hinv h).value_line hline hvalue)

/-- A call that looks at the starts of lines only leaves the images as they were written, except for
what it ends in them. -/
theorem Op.exec_intact {op : Op} (hinv : w.Intact) (hsound : op.Sound w)
    (hcall : op.exec w = .returned w') : w'.Intact := by
  cases op with
  | gotoNextLine h peekOnly =>
      obtain ⟨⟨line, w₁⟩, hgoto, hcall⟩ := Outcome.bind_eq_returned.mp hcall
      cases hcall
      exact gotoNextLine_intact hinv hsound hgoto
  | getCurrentLine h =>
      obtain ⟨⟨line, w₁⟩, hcurrent, hcall⟩ := Outcome.bind_eq_returned.mp hcall
      cases hcall
      exact (getCurrentLine_intact hinv hsound hcurrent).1
  | getNextAttribute h =>
      obtain ⟨⟨line, w₁⟩, hnext, hcall⟩ := Outcome.bind_eq_returned.mp hcall
      cases hcall
      exact getNextAttribute_intact hinv hsound hnext
  | setCurrentOffset h n => exact setCurrentOffset_intact hinv hcall
  | setCurrentOffsetP h n =>
      cases hcall
      exact hinv.setOffsetP _
  | reset h => exact setCurrentOffset_intact (hinv.setCell _ _) hcall
  | storeState h s =>
      cases hcall
      exact hinv.setState _ _
  | restoreState h s =>
      cases hcall
      exact restoreState_intact hinv s
  | stateCreate s =>
      cases hcall
      exact hinv.setState _ _
  | stateCopy dst src =>
      cases hcall
      exact hinv.setState _ _
  | setImageHead h md =>
      cases hcall
      exact hinv.update { w.headers h with metadata := md, image := md.image } md.holds_image rfl
  | getKeyword h line =>
      rw [Op.exec] at hcall
      split at hcall
      next =>
        cases hcall
        exact hinv
      next hkeyword =>
        cases hcall
        exact keywordOf_intact hinv hsound hkeyword
  | getValue h line terminate => exact valueOf_intact hinv hsound hcall
  | assign k n =>
      cases hcall
      exact hinv.setCell _ _

end

/-- A world that calls have led to, each of which looked at the starts of lines only. -/
inductive World.Reached : World → Prop where
  | opened (md : Nat → Metadata) : Reached (World.opened md)
  | step {w w' : World} (op : Op) (before : Reached w) (sound : op.Sound w)
      (call : op.exec w = .returned w') : Reached w'

theorem World.Reached.intact {w : World} (hw : w.Reached) : w.Intact := by
  induction hw with
  | opened md => exact fun h => (md h).holds_image
  | step op _ hsound hcall ih => exact Op.exec_intact ih hsound hcall

/-! ## The functions that are made of these -/

theorem Op.run_append (ops ops' : List Op) (w : World) :
    Op.run (ops ++ ops') w = (do
      let w ← Op.run ops w
      Op.run ops' w) := by
  induction ops generalizing w with
  | nil => rfl
  | cons op ops ih =>
      rw [List.cons_append, Op.run, Op.run]
      cases op.exec w with
      | returned w' => exact ih w'
      | exited status => rfl
      | fault => rfl
      | outOfFuel => rfl

/-- A search for an attribute is a history of the calls it makes, and so the search is covered by
what is said about histories. -/
theorem rawGetAttributeInObject_run {h fuel : Nat} {keyword : Bytes} {line : Option Nat} {w w' : World}
    (hcall : rawGetAttributeInObject h keyword fuel w = .returned (line, w')) :
    ∃ ops, Op.run ops w = .returned w' := by
  induction fuel generalizing w with
  | zero => cases hcall
  | succ fuel ih =>
      obtain ⟨⟨found, w₁⟩, hnext, hcall⟩ := Outcome.bind_eq_returned.mp hcall
      have hexec : (Op.getNextAttribute h).exec w = .returned w₁ := by
        rw [Op.exec, hnext]
        rfl
      cases found with
      | none =>
          cases hcall
          exact ⟨[.getNextAttribute h], by rw [Op.run, hexec]; rfl⟩
      | some found =>
          dsimp only at hcall
          split at hcall
          next => cases hcall
          next keyw w₂ hkeyword =>
            have hexec' : (Op.getKeyword h found).exec w₁ = .returned w₂ := by
              rw [Op.exec, hkeyword]
            have hfirst : Op.run [.getNextAttribute h, .getKeyword h found] w = .returned w₂ := by
              rw [Op.run, hexec, Outcome.returned_bind, Op.run, hexec']
              rfl
            split at hcall
            next =>
              cases hcall
              exact ⟨_, hfirst⟩
            next =>
              obtain ⟨ops, hops⟩ := ih hcall
              refine ⟨[.getNextAttribute h, .getKeyword h found] ++ ops, ?_⟩
              rw [Op.run_append, hfirst, Outcome.returned_bind, hops]

theorem lastAttributeInObject_run {h fuel : Nat} {keyword : Bytes} {prevline line : Option Nat}
    {w w' : World} (hcall : lastAttributeInObject h keyword fuel prevline w = .returned (line, w')) :
    ∃ ops, Op.run ops w = .returned w' := by
  induction fuel generalizing prevline w with
  | zero => cases hcall
  | succ fuel ih =>
      obtain ⟨⟨found, w₁⟩, hraw, hcall⟩ := Outcome.bind_eq_returned.mp hcall
      obtain ⟨ops, hops⟩ := rawGetAttributeInObject_run hraw
      cases found with
      | none =>
          cases hcall
          exact ⟨ops, hops⟩
      | some found =>
          obtain ⟨more, hmore⟩ := ih hcall
          refine ⟨ops ++ more, ?_⟩
          rw [Op.run_append, hops, Outcome.returned_bind, hmore]

theorem getAttributeInCurrentObject_run {h slot fuel : Nat} {keyword : Bytes} {multiValue : Bool}
    {line : Option Nat} {w w' : World}
    (hcall : getAttributeInCurrentObject h keyword multiValue slot fuel w = .returned (line, w')) :
    ∃ ops, Op.run ops w = .returned w' := by
  obtain ⟨⟨found, w₁⟩, hsearch, hcall⟩ := Outcome.bind_eq_returned.mp hcall
  cases hcall
  obtain ⟨ops, hops⟩ : ∃ ops, Op.run ops (storeState h (some slot) w) = .returned w₁ := by
    cases multiValue with
    | false => exact lastAttributeInObject_run hsearch
    | true => exact rawGetAttributeInObject_run hsearch
  refine ⟨.storeState h (some slot) :: (ops ++ [.restoreState h (some slot)]), ?_⟩
  rw [Op.run, Op.exec, Outcome.returned_bind, Op.run_append, hops]
  rfl

/-! ## One attribute after the other -/

/-- The offset of `h`, which is in `c`, is that of a line. -/
structure World.At (w : World) (h : Nat) (c : Cell) (before : List MdLine) (l : MdLine)
    (after : List MdLine) : Prop where
  offsetP : (w.headers h).offsetP = some c
  lines : (w.headers h).metadata.lines = before ++ l :: after
  offset : w.cells c = extent before
  hold : (w.headers h).metadata.Holds (w.headers h).image

namespace World.At

variable {w : World} {h : Nat} {c : Cell} {before after : List MdLine} {l : MdLine}

theorem setImage (hat : w.At h c before l after) {image : Bytes}
    (hold : (w.headers h).metadata.Holds image) : (w.setImage h image).At h c before l after where
  offsetP := by rw [setImage_offsetP, hat.offsetP]
  lines := by rw [setImage_metadata, hat.lines]
  offset := hat.offset
  hold := by
    rw [setImage_metadata, setImage_image]
    exact hold

theorem setCell (hat : w.At h c before l after) {before' after' : List MdLine} {l' : MdLine}
    (hlines : before' ++ l' :: after' = before ++ l :: after) :
    (w.setCell c (extent before')).At h c before' l' after' where
  offsetP := hat.offsetP
  lines := by rw [setCell_headers, hat.lines, hlines]
  offset := w.setCell_cells c _
  hold := hat.hold

theorem typeAt (hat : w.At h c before l after) {before' after' : List MdLine} {l' : MdLine}
    (hlines : before' ++ l' :: after' = before ++ l :: after) :
    w.typeAt h (extent before') = l'.content.type.letter :=
  hat.hold.getType (by rw [hat.lines, hlines])

/-- What the iterator gives at a line. -/
def next (before : List MdLine) (l : MdLine) (after : List MdLine) : Option Nat :=
  if after = [] then none else some (extent (before ++ [l]))

theorem gotoNextLine (hat : w.At h c before l after) (hl : l.content.type ≠ .ext) (peek : Bool) :
    ∃ w' : World, w'.At h c before l after ∧ w'.attCount = w.attCount ∧
      Misc.gotoNextLine h peek w = .returned (next before l after, w'.setCell c
        (if peek then extent before else if after = [] then -1 else (extent (before ++ [l]) : Int))) := by
  obtain ⟨image, hold, hgoto⟩ := hat.hold.goto_next hat.lines hl peek
  refine ⟨w.setImage h image, hat.setImage hold, rfl, ?_⟩
  rw [Misc.gotoNextLine, hat.offsetP, deref, Outcome.returned_bind]
  dsimp only
  rw [callIterator, hat.offset, hgoto, Outcome.returned_bind, Outcome.returned_bind, next]
  by_cases hafter : after = []
  · rw [if_pos hafter, if_pos hafter, if_pos hafter]
  · rw [if_neg hafter, if_neg hafter, if_neg hafter]

/-- The current line; at the offset zero it is the next one. -/
theorem getCurrentLine (hat : w.At h c before l after) (hl : l.content.type ≠ .ext) :
    ∃ w' : World, w'.At h c before l after ∧ w'.attCount = w.attCount ∧
      Misc.getCurrentLine h w = .returned
        (if extent before = 0 then next before l after else some (extent before), w') := by
  rw [Misc.getCurrentLine, hat.offsetP, deref, Outcome.returned_bind]
  dsimp only
  rw [callIterator, hat.offset]
  by_cases hzero : extent before = 0
  · obtain ⟨image, hold, hgoto⟩ := hat.hold.goto_next hat.lines hl true
    refine ⟨w.setImage h image, hat.setImage hold, rfl, ?_⟩
    have hneg : -(extent before : Int) = extent before := by
      rw [hzero]
      rfl
    rw [if_pos hzero, hneg, hgoto, Outcome.returned_bind, Outcome.returned_bind, next]
    by_cases hafter : after = []
    · rw [if_pos hafter, if_pos hafter]
    · rw [if_neg hafter, if_neg hafter]
  · refine ⟨w.setImage h (w.headers h).image, hat.setImage hat.hold, rfl, ?_⟩
    have hmax : ¬-(extent before : Int) = intMax := by
      rw [intMax]
      omega
    have hneg : -(extent before : Int) < 0 := by
      omega
    rw [if_neg hzero, gotoCNextLine, if_neg hmax, if_pos hneg, Outcome.returned_bind,
      Outcome.returned_bind, Int.neg_neg, Int.toNat_natCast]

/-- What `swheader_get_next_attribute` looks at before it decides. -/
theorem look (hat : w.At h c before l after) (hl : l.content.type ≠ .ext) :
    ∃ w₁ w₂, Misc.gotoNextLine h true w = .returned (next before l after, w₁) ∧
      Misc.getCurrentLine h w₁ = .returned
        (if extent before = 0 then next before l after else some (extent before), w₂) ∧
      w₂.At h c before l after ∧ w₂.attCount = w.attCount := by
  obtain ⟨w₁, hat₁, hcount₁, hgoto⟩ := hat.gotoNextLine hl true
  obtain ⟨w₂, hat₂, hcount₂, hcurrent⟩ := (hat₁.setCell rfl).getCurrentLine hl
  exact ⟨_, w₂, hgoto, hcurrent, hat₂, hcount₂.trans hcount₁⟩

/-- The attribute behind the current line is returned, and becomes the current line. -/
theorem getNextAttribute_some {l' : MdLine} (hat : w.At h c before l (l' :: after))
    (hl : l.content.type ≠ .ext) (hl' : l'.content.type ≠ .obj)
    (hclean : w.attCount = 0 ∨ extent before = 0 ∨ l.content.type ≠ .obj) :
    ∃ w', getNextAttribute h w = .returned (some (extent (before ++ [l])), w') ∧
      w'.At h c (before ++ [l]) l' after ∧ w'.attCount = w.attCount + 1 := by
  obtain ⟨w₁, w₂, hgoto, hcurrent, hat₂, hcount⟩ := hat.look hl
  have hlines : (before ++ [l]) ++ l' :: after = before ++ l :: l' :: after := by
    rw [List.append_assoc]
    rfl
  have hnext : next before l (l' :: after) = some (extent (before ++ [l])) :=
    if_neg (List.cons_ne_nil _ _)
  have htype' : ¬w₂.typeAt h (extent (before ++ [l])) = MdType.obj.letter := by
    rw [hat₂.typeAt hlines]
    exact mt MdType.letter_eq_iff.mp hl'
  have hgo : ∀ current, (if extent before = 0 then some (extent (before ++ [l]))
      else some (extent before)) = some current →
      ¬(w₂.typeAt h current = MdType.obj.letter ∧ w₂.attCount ≠ 0) := by
    intro current hcur hboth
    split at hcur
    next =>
      obtain rfl := Option.some.inj hcur
      exact htype' hboth.1
    next hne =>
      obtain rfl := Option.some.inj hcur
      rw [hat₂.typeAt rfl, hcount] at hboth
      rcases hclean with hzero | hstart | hobj
      · exact hboth.2 hzero
      · exact hne hstart
      · exact hobj (MdType.letter_eq_iff.mp hboth.1)
  have hat₃ : (w₂.setAttCount (w₂.attCount + 1)).At h c before l (l' :: after) :=
    ⟨hat₂.offsetP, hat₂.lines, hat₂.offset, hat₂.hold⟩
  obtain ⟨w₄, hat₄, hcount₄, hstep⟩ := hat₃.gotoNextLine hl false
  have hne : ¬l' :: after = [] := List.cons_ne_nil _ _
  refine ⟨w₄.setCell c (extent (before ++ [l])), ?_, hat₄.setCell hlines, ?_⟩
  · obtain ⟨current, hcur⟩ : ∃ current, (if extent before = 0 then some (extent (before ++ [l]))
        else some (extent before)) = some current := by
      split
      next => exact ⟨_, rfl⟩
      next => exact ⟨_, rfl⟩
    rw [getNextAttribute, hgoto, Outcome.returned_bind]
    dsimp only
    rw [hcurrent, Outcome.returned_bind, hnext, hcur]
    dsimp only
    rw [if_neg (hgo current hcur), if_neg htype', hstep, Outcome.returned_bind, if_neg hne]
    rfl
  · rw [setCell_attCount, hcount₄, setAttCount_attCount, hcount]

/-- There is no attribute behind the current line, or the count is left from another iteration. -/
theorem getNextAttribute_none (hat : w.At h c before l after) (hl : l.content.type ≠ .ext)
    (hend : (∀ l' ∈ after.head?, l'.content.type = .obj) ∨
      (w.attCount ≠ 0 ∧ extent before ≠ 0 ∧ l.content.type = .obj)) :
    ∃ w', getNextAttribute h w = .returned (none, w') ∧ w'.At h c before l after ∧
      w'.attCount = 0 := by
  obtain ⟨w₁, w₂, hgoto, hcurrent, hat₂, hcount⟩ := hat.look hl
  have hat₃ : (w₂.setAttCount 0).At h c before l after :=
    ⟨hat₂.offsetP, hat₂.lines, hat₂.offset, hat₂.hold⟩
  refine ⟨w₂.setAttCount 0, ?_, hat₃, rfl⟩
  rw [getNextAttribute, hgoto, Outcome.returned_bind]
  dsimp only
  rw [hcurrent, Outcome.returned_bind]
  dsimp only
  rcases hend with hback | ⟨hcount', hne, hobj⟩
  · split
    next => rfl
    next current hcur =>
      split
      next => rfl
      next =>
        split
        next => rfl
        next nextline hnext =>
          refine if_pos ?_
          cases after with
          | nil =>
              rw [next, if_pos rfl] at hnext
              cases hnext
          | cons l' after =>
              rw [next, if_neg (List.cons_ne_nil _ _)] at hnext
              obtain rfl := Option.some.inj hnext
              have hlines : (before ++ [l]) ++ l' :: after = before ++ l :: l' :: after := by
                rw [List.append_assoc]
                rfl
              rw [hat₂.typeAt hlines, hback l' rfl]
  · rw [if_neg hne]
    dsimp only
    refine if_pos ⟨?_, ?_⟩
    · rw [hat₂.typeAt rfl, hobj]
    · rw [hcount]
      exact hcount'

end World.At

/-! ## A whole iteration -/

/-- Where the attributes are among some lines. -/
def attributeLines : Nat → List MdLine → List Nat
  | _, [] => []
  | n, l :: ls =>
      if l.content.type = .att then n :: attributeLines (n + l.size) ls
      else attributeLines (n + l.size) ls

theorem le_of_mem_attributeLines {n k : Nat} {ls : List MdLine} (h : k ∈ attributeLines n ls) : n ≤ k := by
  induction ls generalizing n with
  | nil => cases h
  | cons l ls ih =>
      rw [attributeLines] at h
      split at h
      next =>
        rcases List.mem_cons.mp h with rfl | h
        · exact Nat.le_refl _
        · exact Nat.le_trans (Nat.le_add_right _ _) (ih h)
      next => exact Nat.le_trans (Nat.le_add_right _ _) (ih h)

theorem attributeLines_eq_nil {n : Nat} {ls : List MdLine} :
    attributeLines n ls = [] ↔ ∀ l ∈ ls, l.content.type ≠ .att := by
  induction ls generalizing n with
  | nil => simp [attributeLines]
  | cons l ls ih =>
      rw [attributeLines, List.forall_mem_cons, ← @ih (n + l.size)]
      split
      next hatt => exact iff_of_false (List.cons_ne_nil _ _) fun h => h.1 hatt
      next hatt => exact (and_iff_right hatt).symm

section

variable {w : World} {h : Nat} {c : Cell} {before body back : List MdLine} {l : MdLine}

/-- The attributes of an object, if the count does not stop the iteration at the object. -/
theorem attributes_eq (hat : w.At h c before l (body ++ back)) (hl : l.content.type ≠ .ext)
    (hbody : ∀ a ∈ body, a.content.type = .att) (hback : ∀ b ∈ back.head?, b.content.type = .obj)
    (hclean : w.attCount = 0 ∨ extent before = 0 ∨ l.content.type ≠ .obj) :
    attributes h (body.length + 1) w =
      .returned (attributeLines (extent (before ++ [l])) body) := by
  induction body generalizing w before l with
  | nil =>
      obtain ⟨w', hnext, -⟩ := hat.getNextAttribute_none hl (.inl hback)
      rw [attributes, hnext, Outcome.returned_bind]
      rfl
  | cons a body ih =>
      have hatt : a.content.type = .att := hbody a List.mem_cons_self
      have hne : a.content.type ≠ .obj ∧ a.content.type ≠ .ext := by
        rw [hatt]
        exact ⟨by decide, by decide⟩
      obtain ⟨w', hnext, hat', -⟩ := hat.getNextAttribute_some hl hne.1 hclean
      have hrest := ih hat' hne.2 (fun b hb => hbody b (List.mem_cons_of_mem _ hb))
        (.inr (.inr hne.1))
      rw [extent_append, extent_singleton] at hrest
      rw [List.length_cons, attributes, hnext, Outcome.returned_bind]
      dsimp only
      rw [hrest, Outcome.returned_bind, attributeLines, if_pos hatt]

/-- An iteration that is not stopped at once returns the line behind the object, whatever it is. -/
theorem att_of_attributes {fuel : Nat} (hat : w.At h c before l (body ++ back))
    (hl : l.content.type ≠ .ext) (hbody : ∀ a ∈ body, a.content.type ≠ .obj)
    (hclean : w.attCount = 0 ∨ extent before = 0 ∨ l.content.type ≠ .obj)
    (hrun : attributes h fuel w = .returned (attributeLines (extent (before ++ [l])) body)) :
    ∀ a ∈ body, a.content.type = .att := by
  induction body generalizing fuel w before l with
  | nil => exact fun a ha => by cases ha
  | cons a body ih =>
      have hobj : a.content.type ≠ .obj := hbody a List.mem_cons_self
      cases fuel with
      | zero => cases hrun
      | succ fuel =>
          obtain ⟨w', hnext, hat', -⟩ := hat.getNextAttribute_some hl hobj hclean
          rw [attributes, hnext, Outcome.returned_bind] at hrun
          obtain ⟨more, hmore, hrun⟩ := Outcome.bind_eq_returned.mp hrun
          injection hrun with hrun
          rw [attributeLines] at hrun
          split at hrun
          next hatt =>
            injection hrun with _ hrest
            have hext : a.content.type ≠ .ext := by
              rw [hatt]
              decide
            rw [hrest, ← extent_singleton a, ← extent_append] at hmore
            rw [List.forall_mem_cons]
            exact ⟨hatt, ih hat' hext (fun b hb => hbody b (List.mem_cons_of_mem _ hb))
              (.inr (.inr hobj)) hmore⟩
          next =>
            have hmem : extent (before ++ [l]) ∈
                attributeLines (extent (before ++ [l]) + a.size) body := by
              rw [← hrun]
              exact List.mem_cons_self
            have hle := le_of_mem_attributeLines hmem
            have hpos := a.size_eq
            omega

/-- A count that is left from another iteration stops this one at its object. -/
theorem attributes_stale {after : List MdLine} (fuel : Nat) (hat : w.At h c before l after)
    (hl : l.content.type = .obj) (hcount : w.attCount ≠ 0) (hstart : extent before ≠ 0) :
    attributes h (fuel + 1) w = .returned [] := by
  have hext : l.content.type ≠ .ext := by
    rw [hl]
    decide
  obtain ⟨w', hnext, -⟩ := hat.getNextAttribute_none hext (.inr ⟨hcount, hstart, hl⟩)
  rw [attributes, hnext, Outcome.returned_bind]

/-- Iterating from here returns the attributes of the object, each once and in order. -/
def IteratesOver (w : World) (h : Nat) (before : List MdLine) (obj : MdLine) (body : List MdLine) : Prop :=
  ∃ fuel, attributes h fuel w = .returned (attributeLines (extent (before ++ [obj])) body)

/-- In every world reached, an iteration that starts at an object which is not the first line of its
image is right if and only if the count is zero and the object has attributes only, or the count is
not zero and it has no attribute.  At the first line the count does not matter. -/
theorem iteratesOver_iff {obj : MdLine} (hw : w.Reached) (hp : (w.headers h).offsetP = some c)
    (hoffset : w.cells c = extent before)
    (hlines : (w.headers h).metadata.lines = before ++ obj :: (body ++ back))
    (hobj : obj.content.type = .obj) (hbody : ∀ a ∈ body, a.content.type ≠ .obj)
    (hback : ∀ b ∈ back.head?, b.content.type = .obj) :
    IteratesOver w h before obj body ↔
      if w.attCount = 0 ∨ extent before = 0 then ∀ a ∈ body, a.content.type = .att
      else ∀ a ∈ body, a.content.type ≠ .att := by
  have hat : w.At h c before obj (body ++ back) := ⟨hp, hlines, hoffset, hw.intact h⟩
  have hext : obj.content.type ≠ .ext := by
    rw [hobj]
    decide
  split
  next hclean =>
    have hclean' : w.attCount = 0 ∨ extent before = 0 ∨ obj.content.type ≠ .obj := by
      rw [← or_assoc]
      exact .inl hclean
    constructor
    · rintro ⟨fuel, hrun⟩
      exact att_of_attributes hat hext hbody hclean' hrun
    · exact fun hatt => ⟨_, attributes_eq hat hext hatt hback hclean'⟩
  next hstale =>
    obtain ⟨hcount, hstart⟩ := not_or.mp hstale
    have hempty := fun fuel => attributes_stale fuel hat hobj hcount hstart
    rw [← attributeLines_eq_nil (n := extent (before ++ [obj]))]
    constructor
    · rintro ⟨fuel, hrun⟩
      cases fuel with
      | zero => cases hrun
      | succ fuel =>
          rw [hempty fuel] at hrun
          injection hrun with hrun
          exact hrun.symm
    · intro hnone
      refine ⟨1, ?_⟩
      rw [hnone]
      exact hempty 0

end

/-- A line with nothing but an object's keyword. -/
def productLine : MdLine where
  content := .obj
  level := 1
  keyword := ⟨chars ['p', 'r', 'o', 'd', 'u', 'c', 't'], by decide, by decide⟩
  level_le := by decide
  length_lt := by decide

/-- The attribute `tag x`. -/
def tagLine : MdLine where
  content := .att ⟨chars ['x'], by decide⟩
  level := 2
  keyword := ⟨chars ['t', 'a', 'g'], by decide, by decide⟩
  level_le := by decide
  length_lt := by decide

/-- Two objects, each with one attribute. -/
def twoProducts : Metadata where
  lines := [productLine, tagLine, productLine, tagLine]
  junk := []
  size_le := by decide

/-- An iteration over the second object, when the one over the first has been run to its end. -/
theorem iteratesOver_second :
    ∃ w, Op.run [.getNextAttribute 0, .getNextAttribute 0,
        .setCurrentOffset 0 (extent [productLine, tagLine])] (World.opened fun _ => twoProducts) =
          .returned w ∧
      IteratesOver w 0 [productLine, tagLine] productLine [tagLine] := by
  have hstart : (World.opened fun _ => twoProducts).At 0 (.own 0) [] productLine
      [tagLine, productLine, tagLine] := ⟨rfl, rfl, rfl, twoProducts.holds_image⟩
  obtain ⟨w₁, hfirst, hat₁, -⟩ := hstart.getNextAttribute_some (by decide) (by decide) (.inl rfl)
  obtain ⟨w₂, hlast, hat₂, hcount⟩ := hat₁.getNextAttribute_none (by decide) (.inl fun l' hl' => by
    rw [← Option.some.inj hl']
    rfl)
  have hset : setCurrentOffset 0 (extent [productLine, tagLine]) w₂ =
      .returned (w₂.setCell (.own 0) (extent [productLine, tagLine])) := by
    rw [setCurrentOffset, hat₂.offsetP, deref]
    rfl
  have hreached₁ : w₁.Reached := by
    refine .step (.getNextAttribute 0) (.opened fun _ => twoProducts) (fun c hc => ?_) ?_
    · rw [← Option.some.inj hc]
      exact ⟨[], productLine, [tagLine, productLine, tagLine], rfl, rfl⟩
    · rw [Op.exec, hfirst, Outcome.returned_bind]
  have hreached₂ : w₂.Reached := by
    refine .step (.getNextAttribute 0) hreached₁ (fun c hc => ?_) ?_
    · rw [hat₁.offsetP] at hc
      rw [← Option.some.inj hc, hat₁.offset]
      exact ⟨_, _, _, hat₁.lines, rfl⟩
    · rw [Op.exec, hlast, Outcome.returned_bind]
  have hreached : (w₂.setCell (.own 0) (extent [productLine, tagLine])).Reached :=
    .step (.setCurrentOffset 0 (extent [productLine, tagLine])) hreached₂ trivial hset
  have hlines : (w₂.headers 0).metadata.lines =
      [productLine, tagLine] ++ productLine :: ([tagLine] ++ []) := hat₂.lines
  refine ⟨w₂.setCell (.own 0) (extent [productLine, tagLine]), ?_, ?_⟩
  · rw [Op.run, Op.exec, hfirst, Outcome.returned_bind, Outcome.returned_bind, Op.run, Op.exec,
      hlast, Outcome.returned_bind, Outcome.returned_bind, Op.run, Op.exec, hset,
      Outcome.returned_bind, Op.run]
  · refine (iteratesOver_iff hreached hat₂.offsetP (World.setCell_cells _ _ _) hlines rfl ?_
      ?_).mpr ?_
    · intro a ha
      rw [List.mem_singleton.mp ha]
      decide
    · intro b hb
      cases hb
    · rw [if_pos (.inl hcount)]
      intro a ha
      rw [List.mem_singleton.mp ha]
      rfl

/-- The iteration over the first object is given up after one attribute; then the iteration over the
second object returns nothing. -/
theorem abandoned_iteration :
    ¬∀ (md : Nat → Metadata) (ops : List Op) (w : World),
      Op.run ops (World.opened md) = .returned w →
      ∀ h c before obj body back, (w.headers h).offsetP = some c → w.cells c = extent before →
        (w.headers h).metadata.lines = before ++ obj :: (body ++ back) →
        obj.content.type = .obj → (∀ a ∈ body, a.content.type = .att) →
        (∀ b ∈ back.head?, b.content.type = .obj) → IteratesOver w h before obj body := by
  intro hclaim
  have hstart : (World.opened fun _ => twoProducts).At 0 (.own 0) [] productLine
      [tagLine, productLine, tagLine] := ⟨rfl, rfl, rfl, twoProducts.holds_image⟩
  obtain ⟨w, hnext, hat, hcount⟩ := hstart.getNextAttribute_some (by decide) (by decide) (.inl rfl)
  have hat' : (w.setCell (.own 0) (extent [productLine, tagLine])).At 0 (.own 0)
      [productLine, tagLine] productLine [tagLine] := hat.setCell rfl
  have hrun : Op.run [.getNextAttribute 0, .setCurrentOffset 0 (extent [productLine, tagLine])]
      (World.opened fun _ => twoProducts) =
        .returned (w.setCell (.own 0) (extent [productLine, tagLine])) := by
    rw [Op.run, Op.exec, hnext, Outcome.returned_bind, Outcome.returned_bind, Op.run, Op.exec,
      setCurrentOffset, hat.offsetP, deref]
    rfl
  have hattr : ∀ a ∈ [tagLine], a.content.type = .att := by
    intro a ha
    rw [List.mem_singleton.mp ha]
    rfl
  obtain ⟨fuel, hall⟩ := hclaim _ _ _ hrun 0 (.own 0) [productLine, tagLine] productLine [tagLine] []
    hat'.offsetP hat'.offset hat'.lines rfl hattr (fun b hb => by cases hb)
  cases fuel with
  | zero => cases hall
  | succ fuel =>
      have hcount' : (w.setCell (.own 0) (extent [productLine, tagLine])).attCount ≠ 0 := by
        rw [World.setCell_attCount, hcount]
        exact Nat.succ_ne_zero _
      rw [attributes_stale fuel hat' rfl hcount' (by decide)] at hall
      injection hall with hall
      exact absurd hall (by decide)

end Swbis.Misc
