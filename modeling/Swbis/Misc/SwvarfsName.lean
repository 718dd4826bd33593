import Mathlib.Data.List.Infix
import Swbis.Lib.Outcome
import Swbis.Misc.Slash
import Swbis.Taru.Name

/-!
# Names of archive members

How the file system view of an archive compares the name it is asked for with
the names of members, and when a name is in the scope of a directory.

There are three comparisons.  `filenameDoesMatch` compares with the name that was
returned last, `searchLoop` with the names in the file chain, and `doStopReading`
with the name of the header just read.  Each of them has its own idea of which
slashes and dots do not count.

The routines cut slashes off in place and put them back.  A name that is `./` to
its end is not put back: it is `.` from then on.
-/

namespace Swbis.Misc

open CLib Swbis.Taru

/-- `"."` and `"./"`. -/
def dotSlash : Bytes := [dot, slash]

/-- Step over a leading `./`. -/
def dropDotSlash (name : Bytes) : Bytes := if name.take 2 = dotSlash then name.drop 2 else name

/-- `handle_trailing_slash ("drop")`, for a name that is not empty. -/
def handleTrailingSlash (name : Bytes) : Bytes :=
  if name.getLast? = some slash then name.dropLast else name

/-- `handle_leading_slash ("drop")`, for an archive. -/
def handleLeadingSlash (hasLeadingSlash : Bool) (name : Bytes) : Bytes :=
  if hasLeadingSlash then name else swlibSquashLeadingSlash name

/-! ## The name that was returned last -/

/-- `swlib_ansi_escaped_value` and `swlib_c701_escaped_value`: the value of an
escape that one of them knows. -/
def escapedValue (c : UInt8) : Option UInt8 :=
  if c = 92 ∨ c = 35 ∨ c = 34 then some c
  else if c = 110 then some 10
  else if c = 114 then some 13
  else if c = 118 then some 11
  else if c = 98 then some 8
  else if c = 102 then some 12
  else none

/-- `swlib_unexpand_escapes`.  A byte from 128 on is negative as a `char`, and so
is the value the escape tables return for it, which fails the assertion. -/
def swlibUnexpandEscapes : Bytes → Outcome Bytes
  | [] => .returned []
  | [c] => .returned [c]
  | c :: d :: src =>
      if c = 92 then
        match escapedValue d with
        | some value => do return value :: (← swlibUnexpandEscapes src)
        | none =>
            if 128 ≤ d then .exited 252
            else do return c :: (← swlibUnexpandEscapes (d :: src))
      else do return c :: (← swlibUnexpandEscapes (d :: src))

/-- `swlib_toggle_leading_slash ("drop")` -/
def toggleLeadingSlash (name : Bytes) : Bytes :=
  if name.head? = some slash ∧ 1 < name.length then name.drop 1 else name

/-- `swlib_toggle_trailing_slashdot ("drop")` -/
def toggleTrailingSlashdot (name : Bytes) : Bytes :=
  if [slash, dot] <:+ name then name.take (name.length - 2) else name

/-- `swlib_toggle_leading_dotslash ("drop")` -/
def toggleLeadingDotslash (name : Bytes) : Bytes :=
  if name.take 2 = dotSlash ∧ 2 < name.length then name.drop 2 else name

/-- What `swlib_dir_compare` makes of one of its arguments, without a regard for
a leading slash. -/
def swlibDirCompared (name : Bytes) : Bytes :=
  toggleLeadingDotslash (toggleTrailingSlashdot
    (swlibSquashTrailingSlash (toggleLeadingSlash name)))

/-- What `swlib_compare_8859` makes of one of its arguments. -/
def swlibCompared8859 (name : Bytes) : Outcome Bytes := do
  if name.contains 92 then
    let s ← swlibUnexpandEscapes name
    return swlibDirCompared (swlibProcessHexEscapes (.ofMem s)).bytes
  else return swlibDirCompared name

/-- `filename_does_match` returns zero. -/
def filenameDoesMatch (name candidate : Bytes) : Outcome Bool := do
  let s1 ← swlibCompared8859 name
  let s2 ← swlibCompared8859 candidate
  return s1 == s2

/-- A name that can be compared: no backslash stands before a byte from 128 on,
unless an escape takes it. -/
def Comparable (name : Bytes) : Prop := ∃ s, swlibCompared8859 name = .returned s

instance (name : Bytes) : Decidable (Comparable name) :=
  match h : swlibCompared8859 name with
  | .returned s => .isTrue ⟨s, h⟩
  | .exited _ => .isFalse fun ⟨_, hs⟩ => by rw [h] at hs; cases hs
  | .fault => .isFalse fun ⟨_, hs⟩ => by rw [h] at hs; cases hs
  | .outOfFuel => .isFalse fun ⟨_, hs⟩ => by rw [h] at hs; cases hs

/-- A name matches itself, if it can be compared. -/
theorem filenameDoesMatch_self {name : Bytes} (h : Comparable name) :
    filenameDoesMatch name name = .returned true := by
  obtain ⟨s, hs⟩ := h
  rw [filenameDoesMatch, hs]
  simp

theorem comparable_of_returned {name candidate : Bytes} {b : Bool}
    (h : filenameDoesMatch name candidate = .returned b) : Comparable name := by
  obtain ⟨s, hs, -⟩ := Outcome.bind_eq_returned.mp h
  exact ⟨s, hs⟩

/-! ## The name of the header just read -/

/-- `do_stop_reading`: whether the member is the one, and the name afterwards.  An
empty name has no last character. -/
def doStopReading (hasLeadingSlash : Bool) (member name : Bytes) : Outcome (Bool × Bytes) :=
  if member = [] ∨ name = [] then .fault
  else
    let member := handleTrailingSlash (dropDotSlash member)
    let sought := handleLeadingSlash hasLeadingSlash (handleTrailingSlash (dropDotSlash name))
    .returned (sought == member, if name = dotSlash then [dot] else name)

/-! ## Scope -/

/-- `is_name_in_scope`, for a name whose type is not known.  `fnmatch` says
whether a pattern matches a name. -/
def isNameInScope (fnmatch : Bytes → Bytes → Bool) (dirscope name : Bytes) : Bool :=
  if dirscope = [] ∨ dirscope = [slash] then true
  else
    let name1 := toggleLeadingDotslash name
    if name1.length + 4 < dirscope.length then false
    else if name1 <:+: dirscope ∧ 2 ≤ dirscope.length ∧ dirscope.length - 2 ≤ name1.length then true
    else
      let tmp := if chars ['/', '*'] <:+: dirscope then dirscope else dirscope ++ chars ['/', '*']
      let tmp1 := if tmp.take 2 = dotSlash then dotSlash ++ name1 else name1
      fnmatch tmp tmp1

/-- Without a scope every name is in it. -/
@[simp] theorem isNameInScope_nil (fnmatch : Bytes → Bytes → Bool) (name : Bytes) :
    isNameInScope fnmatch [] name = true := by
  rw [isNameInScope, if_pos (.inl rfl)]

/-- `set_dirscope` -/
def setDirscope (path : Bytes) : Bytes :=
  let s := swlibSquashLeadingDotSlash (swlibSquashTrailingSlash path)
  if s ≠ [slash] ∧ s.take 2 ≠ chars ['/', '*'] then s ++ chars ['/', '*']
  else if s = [slash] then s ++ chars ['*']
  else s

/-- The loop of `swlib_resolve_path` over the components: `count`, given
`startnames`. -/
def resolveDepth (startnames : Bool) (count : Int) : List Bytes → Int
  | [] => count
  | s :: rest =>
      if s = [dot, dot] then
        if startnames then resolveDepth startnames (count - 1) rest
        else resolveDepth startnames (count + 1) rest
      else if s = [dot] then resolveDepth startnames count rest
      else resolveDepth true (count + 1) rest

/-- `depth` of `swlib_resolve_path`. -/
def swlibResolvePath (path : Bytes) : Int := resolveDepth false 0 (components (swlibSlashclean path))

end Swbis.Misc
