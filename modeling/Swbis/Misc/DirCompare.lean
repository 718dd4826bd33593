import Mathlib.Data.List.Basic
import Swbis.Lib.Memory
import Swbis.Misc.SwvarfsName

/-!
# Comparing two paths in their buffers

`swlib_dir_compare` takes slashes and dots off its two arguments, compares what
is left, and puts the slashes and dots back.  All of it is done in the buffers of
the arguments.  A flag for each piece says whether it is to be put back.

A buffer is the string, its NUL, and spare memory.  Each piece taken off makes
more spare memory behind the string, and putting it back uses it up again.  Only
a `.` that is left of `./.` is taken for one that the `/` of `./` was taken off.
-/

namespace Swbis.Misc

open CLib

/-! ## The code -/

/-- `strlen`, of the string in a buffer. -/
def strlenOf (name : Bytes) : Nat := (CString.ofMem name).strlen

/-- `memmove` in one buffer. -/
def memmove (name : Bytes) (dst src n : Nat) : Bytes := overwrite name dst ((name.drop src).take n)

/-- `mode`, which is `"drop"` or `"restore"`. -/
inductive ToggleMode where
  | drop
  | restore
deriving DecidableEq

/-- A buffer, and the flag. -/
structure Toggled where
  name : Bytes
  flag : Bool

/-- `swlib_toggle_leading_slash` -/
def swlibToggleLeadingSlash (mode : ToggleMode) (name : Bytes) (flag : Bool) : Toggled :=
  match mode with
  | .drop =>
      if name.head? = some slash ∧ 1 < strlenOf name then ⟨memmove name 0 1 (strlenOf name), true⟩
      else ⟨name, false⟩
  | .restore =>
      if flag then ⟨overwrite (memmove name 1 0 (strlenOf name + 1)) 0 [slash], false⟩
      else ⟨name, flag⟩

/-- `swlib_toggle_trailing_slash` -/
def swlibToggleTrailingSlash (mode : ToggleMode) (name : Bytes) (flag : Bool) : Toggled :=
  match mode with
  | .drop =>
      if 1 < strlenOf name ∧ name[strlenOf name - 1]? = some slash then
        ⟨overwrite name (strlenOf name - 1) [0], true⟩
      else ⟨name, false⟩
  | .restore => if flag then ⟨overwrite name (strlenOf name) [slash], flag⟩ else ⟨name, flag⟩

/-- `swlib_toggle_trailing_slashdot` -/
def swlibToggleTrailingSlashdot (mode : ToggleMode) (name : Bytes) (flag : Bool) : Toggled :=
  match mode with
  | .drop =>
      if strlenOf name < 2 then ⟨name, false⟩
      else if (CString.ofMem (name.drop (strlenOf name - 2))).bytes = [slash, dot] then
        ⟨overwrite name (strlenOf name - 2) [0], true⟩
      else ⟨name, flag⟩
  | .restore =>
      if flag then ⟨overwrite name (strlenOf name) [slash, dot, 0], false⟩ else ⟨name, flag⟩

/-- `swlib_toggle_leading_dotslash` -/
def swlibToggleLeadingDotslash (mode : ToggleMode) (name : Bytes) (flag : Bool) : Toggled :=
  match mode with
  | .drop =>
      if strlenOf name < 2 then ⟨name, false⟩
      else if name.take 2 = [dot, slash] ∧ 2 < strlenOf name then
        ⟨memmove name 0 2 (strlenOf name - 1), true⟩
      else ⟨name, false⟩
  | .restore =>
      if flag then
        if (CString.ofMem name).bytes = [dot] then
          ⟨overwrite name (strlenOf name) [slash, 0], flag⟩
        else ⟨overwrite (memmove name 2 0 (strlenOf name + 1)) 0 [dot, slash], false⟩
      else ⟨name, flag⟩

/-- `SWC_FC_NOOP` -/
def swcFcNoop : Int := 0

/-- `SWC_FC_NOAB` -/
def swcFcNoab : Int := 1

/-- One argument of `swlib_dir_compare` while it is compared: its buffer, and its
four flags. -/
structure Compared where
  name : Bytes
  leadingP : Bool
  trailingP : Bool
  trailingD : Bool
  leadingD : Bool

/-- What is done to an argument before the comparison. -/
def dirCompareDrop (fcCompareFlag : Int) (name : Bytes) : Compared :=
  let p :=
    if fcCompareFlag = swcFcNoab then swlibToggleLeadingSlash .drop name false else ⟨name, false⟩
  let t := swlibToggleTrailingSlash .drop p.name false
  let d := swlibToggleTrailingSlashdot .drop t.name false
  let l := swlibToggleLeadingDotslash .drop d.name false
  ⟨l.name, p.flag, t.flag, d.flag, l.flag⟩

/-- What is done to it afterwards. -/
def dirCompareRestore (fcCompareFlag : Int) (s : Compared) : Bytes :=
  let l := swlibToggleLeadingDotslash .restore s.name s.leadingD
  let d := swlibToggleTrailingSlashdot .restore l.name s.trailingD
  let t := swlibToggleTrailingSlash .restore d.name s.trailingP
  if fcCompareFlag = swcFcNoab then (swlibToggleLeadingSlash .restore t.name s.leadingP).name
  else t.name

/-- `strcmp` -/
def strcmp : Bytes → Bytes → Int
  | [], [] => 0
  | a :: _, [] => a.toNat
  | [], b :: _ => -b.toNat
  | a :: s, b :: t => if a = b then strcmp s t else (a.toNat : Int) - b.toNat

/-- What `swlib_dir_compare` returns, and the two buffers afterwards. -/
structure DirComparison where
  ret : Int
  s1 : Bytes
  s2 : Bytes

/-- `swlib_dir_compare`, of strings in two buffers. -/
def swlibDirCompare (s1 s2 : Bytes) (fcCompareFlag : Int) : DirComparison :=
  let n1 := dirCompareDrop fcCompareFlag s1
  let n2 := dirCompareDrop fcCompareFlag s2
  ⟨strcmp (CString.ofMem n1.name).bytes (CString.ofMem n2.name).bytes,
    dirCompareRestore fcCompareFlag n1, dirCompareRestore fcCompareFlag n2⟩

/-! ## What the comparison is for -/

/-- A buffer with a string in it. -/
structure StringBuffer where
  str : CString
  /-- What is behind the NUL. -/
  spare : Bytes

/-- The memory of the buffer. -/
def StringBuffer.mem (b : StringBuffer) : Bytes := b.str.bytes ++ 0 :: b.spare

/-- A string without the slashes and dots that do not count. -/
def stripped (fcCompareFlag : Int) (name : Bytes) : Bytes :=
  toggleLeadingDotslash (toggleTrailingSlashdot (swlibSquashTrailingSlash
    (if fcCompareFlag = swcFcNoab then toggleLeadingSlash name else name)))

/-- Both strings are as they were, and zero is returned when they are the same
but for the slashes and dots that do not count. -/
def ComparesDirs (b1 b2 : StringBuffer) (fcCompareFlag : Int) : Prop :=
  let r := swlibDirCompare b1.mem b2.mem fcCompareFlag
  CString.ofMem r.s1 = b1.str ∧ CString.ofMem r.s2 = b2.str ∧
    (r.ret = 0 ↔ stripped fcCompareFlag b1.str.bytes = stripped fcCompareFlag b2.str.bytes)

/-- `././.`, with or without a slash behind it. -/
def dotsOnly : List Bytes :=
  [[dot, slash, dot, slash, dot], [dot, slash, dot, slash, dot, slash]]

/-- The string is one of these, or one of these behind a leading slash that is
taken off. -/
def Mangled (fcCompareFlag : Int) (name : Bytes) : Prop :=
  name ∈ dotsOnly ∨ fcCompareFlag = swcFcNoab ∧ ∃ s ∈ dotsOnly, name = slash :: s

/-! ## Pieces of a buffer -/

section

variable {s t : Bytes}

theorem bytes_ofMem (h : 0 ∉ s) (spare : Bytes) : (CString.ofMem (s ++ 0 :: spare)).bytes = s :=
  congrArg CString.bytes (CString.ofMem_append_nul ⟨s, h⟩ spare)

theorem strlenOf_append (h : 0 ∉ s) (spare : Bytes) : strlenOf (s ++ 0 :: spare) = s.length :=
  congrArg List.length (bytes_ofMem h spare)

/-- A buffer holds one string. -/
theorem string_inj (hs : 0 ∉ s) (ht : 0 ∉ t) {spare spare' : Bytes}
    (h : s ++ 0 :: spare = t ++ 0 :: spare') : s = t := by
  rw [← bytes_ofMem hs spare, h, bytes_ofMem ht]

/-- A piece is taken off the front. -/
theorem memmove_front (p t spare : Bytes) :
    memmove (p ++ (t ++ 0 :: spare)) 0 p.length (t.length + 1) =
      t ++ 0 :: (p ++ (t ++ 0 :: spare)).drop (t.length + 1) := by
  have htake : (t ++ 0 :: spare).take (t.length + 1) = t ++ [0] := by
    rw [List.take_length_add_append]
    rfl
  rw [memmove, List.drop_left, htake, overwrite, List.length_append, List.length_singleton,
    Nat.zero_add, List.take_zero, List.nil_append, List.append_assoc]
  rfl

/-- A piece is put back at the front. -/
theorem memmove_back {p rest : Bytes} (t : Bytes) (h : p.length ≤ t.length + 1 + rest.length) :
    overwrite (memmove (t ++ 0 :: rest) p.length 0 (t.length + 1)) 0 p =
      p ++ (t ++ 0 :: rest.drop p.length) := by
  have htake : (t ++ 0 :: rest).take (t.length + 1) = t ++ [0] := by
    rw [List.take_length_add_append]
    rfl
  have hdrop : (t ++ 0 :: rest).drop (p.length + (t.length + 1)) = rest.drop p.length := by
    rw [show p.length + (t.length + 1) = t.length + (p.length + 1) by omega,
      List.drop_length_add_append, List.drop_succ_cons]
  have hlen : ((t ++ 0 :: rest).take p.length).length = p.length := by
    rw [List.length_take, List.length_append, List.length_cons]
    omega
  rw [memmove, List.drop_zero, htake]
  simp only [overwrite, List.length_append, List.length_singleton, List.take_zero, Nat.zero_add,
    List.nil_append]
  rw [hdrop, List.append_assoc, List.drop_left' hlen, List.append_assoc, List.singleton_append]

/-- A piece that was taken off the front fits back in. -/
theorem memmove_front_back (p t spare : Bytes) :
    overwrite (memmove (t ++ 0 :: (p ++ (t ++ 0 :: spare)).drop (t.length + 1)) p.length 0
        (t.length + 1)) 0 p = p ++ (t ++ 0 :: spare) := by
  have hroom : p.length ≤
      t.length + 1 + ((p ++ (t ++ 0 :: spare)).drop (t.length + 1)).length := by
    rw [List.length_drop, List.length_append, List.length_append, List.length_cons]
    omega
  rw [memmove_back t hroom, List.drop_drop, Nat.add_comm, List.drop_length_add_append,
    List.drop_length_add_append]
  rfl

/-- A write where the second part starts. -/
theorem overwrite_at (t rest xs : Bytes) :
    overwrite (t ++ rest) t.length xs = t ++ (xs ++ rest.drop xs.length) := by
  have h := overwrite_append t rest 0 xs
  rw [Nat.add_zero] at h
  rw [h, overwrite, List.take_zero, List.nil_append, Nat.zero_add]

end

/-! ## One piece off and back -/

/-- A piece comes off the string, or none does, and what came off is put back. -/
def Undone (toggle : ToggleMode → Bytes → Bool → Toggled) (strip : Bytes → Bytes)
    (s spare : Bytes) : Prop :=
  ∃ spare' flag, toggle .drop (s ++ 0 :: spare) false = ⟨strip s ++ 0 :: spare', flag⟩ ∧
    (toggle .restore (strip s ++ 0 :: spare') flag).name = s ++ 0 :: spare

section

variable {s : Bytes}

theorem undone_leadingSlash (h : 0 ∉ s) (spare : Bytes) :
    Undone swlibToggleLeadingSlash toggleLeadingSlash s spare := by
  by_cases hlead : s.head? = some slash ∧ 1 < s.length
  · obtain ⟨t, rfl⟩ := List.head?_eq_some_iff.mp hlead.1
    have ht : 0 ∉ t := fun hm => h (List.mem_cons_of_mem _ hm)
    have hstrip : toggleLeadingSlash (slash :: t) = t := if_pos hlead
    refine ⟨(slash :: t ++ 0 :: spare).drop (t.length + 1), true, ?_, ?_⟩
    · rw [swlibToggleLeadingSlash, strlenOf_append h, if_pos ⟨rfl, hlead.2⟩, hstrip]
      exact congrArg (Toggled.mk · true) (memmove_front [slash] t spare)
    · rw [hstrip]
      dsimp only [swlibToggleLeadingSlash]
      rw [if_pos rfl, strlenOf_append ht]
      exact memmove_front_back [slash] t spare
  · have hstrip : toggleLeadingSlash s = s := if_neg hlead
    refine ⟨spare, false, ?_, ?_⟩
    · rw [swlibToggleLeadingSlash, strlenOf_append h, if_neg, hstrip]
      intro hl
      refine hlead ⟨?_, hl.2⟩
      rw [← hl.1, List.head?_append_of_ne_nil s (List.ne_nil_of_length_pos (by omega))]
    · rw [hstrip]
      rfl

theorem undone_trailingSlash (h : 0 ∉ s) (spare : Bytes) :
    Undone swlibToggleTrailingSlash swlibSquashTrailingSlash s spare := by
  by_cases hlast : 1 < s.length ∧ s.getLast? = some slash
  · obtain ⟨t, rfl⟩ := List.getLast?_eq_some_iff.mp hlast.2
    have ht : 0 ∉ t := fun hm => h (List.mem_append_left _ hm)
    have hstrip : swlibSquashTrailingSlash (t ++ [slash]) = t := by
      rw [swlibSquashTrailingSlash, squashTrailingChar, if_pos hlast, List.dropLast_concat]
    have hlen : (t ++ [slash]).length - 1 = t.length := by
      rw [List.length_append]
      rfl
    refine ⟨0 :: spare, true, ?_, ?_⟩
    · rw [swlibToggleTrailingSlash, strlenOf_append h, hlen, List.append_assoc,
        if_pos ⟨hlast.1, by simp⟩, overwrite_at, hstrip]
      rfl
    · rw [hstrip]
      dsimp only [swlibToggleTrailingSlash]
      rw [if_pos rfl, strlenOf_append ht, overwrite_at, List.append_assoc]
      rfl
  · have hstrip : swlibSquashTrailingSlash s = s := if_neg hlast
    refine ⟨spare, false, ?_, ?_⟩
    · rw [swlibToggleTrailingSlash, strlenOf_append h, if_neg, hstrip]
      intro hl
      refine hlast ⟨hl.1, ?_⟩
      rw [List.getLast?_eq_getElem?, ← hl.2, List.getElem?_append_left (by omega)]
    · rw [hstrip]
      rfl

theorem undone_trailingSlashdot (h : 0 ∉ s) (spare : Bytes) :
    Undone swlibToggleTrailingSlashdot toggleTrailingSlashdot s spare := by
  by_cases hlast : [slash, dot] <:+ s
  · obtain ⟨t, rfl⟩ := hlast
    have ht : 0 ∉ t := fun hm => h (List.mem_append_left _ hm)
    have hlen : (t ++ [slash, dot]).length - 2 = t.length := by
      rw [List.length_append]
      rfl
    have hstrip : toggleTrailingSlashdot (t ++ [slash, dot]) = t := by
      rw [toggleTrailingSlashdot, if_pos (List.suffix_append t _), hlen, List.take_left]
    refine ⟨dot :: 0 :: spare, true, ?_, ?_⟩
    · have hend : (CString.ofMem ((t ++ [slash, dot] ++ 0 :: spare).drop t.length)).bytes =
          [slash, dot] := by
        rw [List.append_assoc, List.drop_left]
        exact bytes_ofMem (by decide) spare
      have hlong : ¬(t ++ [slash, dot]).length < 2 := by
        rw [List.length_append]
        exact Nat.not_lt.mpr (Nat.le_add_left 2 t.length)
      rw [swlibToggleTrailingSlashdot, strlenOf_append h, if_neg hlong, hlen, if_pos hend,
        List.append_assoc, overwrite_at, hstrip]
      rfl
    · rw [hstrip]
      dsimp only [swlibToggleTrailingSlashdot]
      rw [if_pos rfl, strlenOf_append ht, overwrite_at, List.append_assoc]
      rfl
  · have hstrip : toggleTrailingSlashdot s = s := if_neg hlast
    refine ⟨spare, false, ?_, ?_⟩
    · rw [swlibToggleTrailingSlashdot, strlenOf_append h, hstrip]
      split
      next => rfl
      next hlong =>
        have hend : (CString.ofMem ((s ++ 0 :: spare).drop (s.length - 2))).bytes =
            s.drop (s.length - 2) := by
          rw [List.drop_append_of_le_length (by omega)]
          exact bytes_ofMem (fun hm => h (List.mem_of_mem_drop hm)) spare
        rw [hend, if_neg]
        intro he
        exact hlast (he ▸ List.drop_suffix (s.length - 2) s)
    · rw [hstrip]
      rfl

/-- `./` comes off the string. -/
theorem drop_leadingDotslash (h : 0 ∉ s) (spare : Bytes) :
    ∃ spare' flag, swlibToggleLeadingDotslash .drop (s ++ 0 :: spare) false =
      ⟨toggleLeadingDotslash s ++ 0 :: spare', flag⟩ ∧ (s ≠ [dot, slash, dot] →
      (swlibToggleLeadingDotslash .restore (toggleLeadingDotslash s ++ 0 :: spare') flag).name =
        s ++ 0 :: spare) := by
  by_cases hlead : s.take 2 = dotSlash ∧ 2 < s.length
  · obtain ⟨t, rfl⟩ : ∃ t, s = dotSlash ++ t :=
      ⟨s.drop 2, by rw [← hlead.1, List.take_append_drop]⟩
    have ht : 0 ∉ t := fun hm => h (List.mem_append_right _ hm)
    have hstrip : toggleLeadingDotslash (dotSlash ++ t) = t := if_pos hlead
    have hlen : (dotSlash ++ t).length - 1 = t.length + 1 := by
      rw [List.length_append, Nat.add_comm]
      rfl
    refine ⟨(dotSlash ++ (t ++ 0 :: spare)).drop (t.length + 1), true, ?_, ?_⟩
    · rw [swlibToggleLeadingDotslash, strlenOf_append h, if_neg (by omega), hlen,
        if_pos ⟨rfl, hlead.2⟩, List.append_assoc, hstrip]
      exact congrArg (Toggled.mk · true) (memmove_front dotSlash t spare)
    · intro hne
      have hdot : t ≠ [dot] := by
        rintro rfl
        exact hne rfl
      rw [hstrip]
      dsimp only [swlibToggleLeadingDotslash]
      rw [if_pos rfl, bytes_ofMem ht, if_neg hdot, strlenOf_append ht, List.append_assoc]
      exact memmove_front_back dotSlash t spare
  · have hstrip : toggleLeadingDotslash s = s := if_neg hlead
    refine ⟨spare, false, ?_, ?_⟩
    · rw [swlibToggleLeadingDotslash, strlenOf_append h, hstrip]
      split
      next => rfl
      next hlong =>
        rw [List.take_append_of_le_length (by omega)]
        exact if_neg hlead
    · intro _
      rw [hstrip]
      rfl

end

/-! ## All of them -/

theorem noop_ne_noab : ¬swcFcNoop = swcFcNoab := by decide

/-- With another flag than `SWC_FC_NOAB` a leading slash is left alone. -/
theorem dirCompareDrop_of_ne {fcCompareFlag : Int} (h : fcCompareFlag ≠ swcFcNoab) (name : Bytes) :
    dirCompareDrop fcCompareFlag name = dirCompareDrop swcFcNoop name := by
  rw [dirCompareDrop, if_neg h]
  rfl

theorem dirCompareRestore_of_ne {fcCompareFlag : Int} (h : fcCompareFlag ≠ swcFcNoab)
    (c : Compared) : dirCompareRestore fcCompareFlag c = dirCompareRestore swcFcNoop c := by
  rw [dirCompareRestore, if_neg h]
  rfl

section

variable {s : Bytes}

/-- Only a string of dots comes down to `./.`. -/
theorem mem_dotsOnly (h : toggleTrailingSlashdot (swlibSquashTrailingSlash s) = [dot, slash, dot]) :
    s ∈ dotsOnly := by
  have hw : swlibSquashTrailingSlash s = [dot, slash, dot, slash, dot] := by
    rw [toggleTrailingSlashdot] at h
    split at h
    next hend =>
      obtain ⟨t, ht⟩ := hend
      rw [← ht, List.length_append, List.length_cons, List.length_singleton, Nat.add_sub_cancel,
        List.take_left] at h
      rw [← ht, h]
      rfl
    next hend => exact absurd (h ▸ List.suffix_append [dot] [slash, dot]) hend
  rw [swlibSquashTrailingSlash, squashTrailingChar] at hw
  split at hw
  next hlast =>
    obtain ⟨t, rfl⟩ := List.getLast?_eq_some_iff.mp hlast.2
    rw [List.dropLast_concat] at hw
    rw [hw]
    exact List.mem_cons_of_mem _ List.mem_cons_self
  next => exact hw ▸ List.mem_cons_self

theorem trailingSlashdot_initial (s : Bytes) : toggleTrailingSlashdot s <+: s := by
  rw [toggleTrailingSlashdot]
  split
  next => exact List.take_prefix _ s
  next => exact List.prefix_rfl

theorem leadingSlash_final (s : Bytes) : toggleLeadingSlash s <:+ s := by
  rw [toggleLeadingSlash]
  split
  next => exact List.drop_suffix 1 s
  next => exact List.suffix_rfl

theorem leadingDotslash_final (s : Bytes) : toggleLeadingDotslash s <:+ s := by
  rw [toggleLeadingDotslash]
  split
  next => exact List.drop_suffix 2 s
  next => exact List.suffix_rfl

theorem infix_stripped (fcCompareFlag : Int) (s : Bytes) : stripped fcCompareFlag s <:+: s := by
  have hends : ∀ u : Bytes, toggleLeadingDotslash (toggleTrailingSlashdot
      (swlibSquashTrailingSlash u)) <:+: u := fun u =>
    ((leadingDotslash_final _).isInfix.trans (trailingSlashdot_initial _).isInfix).trans
      (squashTrailingSlash_initial u).isInfix
  rw [stripped]
  split
  next => exact (hends _).trans (leadingSlash_final s).isInfix
  next => exact hends s

/-- Without a regard for a leading slash: what is compared, and what is there
afterwards. -/
theorem noop_undone (h : 0 ∉ s) (spare : Bytes) :
    ∃ spare', (dirCompareDrop swcFcNoop (s ++ 0 :: spare)).name =
      stripped swcFcNoop s ++ 0 :: spare' ∧ (s ∉ dotsOnly →
      dirCompareRestore swcFcNoop (dirCompareDrop swcFcNoop (s ++ 0 :: spare)) =
        s ++ 0 :: spare) := by
  have hslash : 0 ∉ swlibSquashTrailingSlash s := fun hm =>
    h ((squashTrailingSlash_initial s).subset hm)
  have hslashdot : 0 ∉ toggleTrailingSlashdot (swlibSquashTrailingSlash s) := fun hm =>
    hslash ((trailingSlashdot_initial _).subset hm)
  obtain ⟨spare₁, t, hdrop₁, hrestore₁⟩ := undone_trailingSlash h spare
  obtain ⟨spare₂, d, hdrop₂, hrestore₂⟩ := undone_trailingSlashdot hslash spare₁
  obtain ⟨spare₃, l, hdrop₃, hrestore₃⟩ := drop_leadingDotslash hslashdot spare₂
  have hdrop : dirCompareDrop swcFcNoop (s ++ 0 :: spare) =
      ⟨stripped swcFcNoop s ++ 0 :: spare₃, false, t, d, l⟩ := by
    simp only [dirCompareDrop, if_neg noop_ne_noab, hdrop₁, hdrop₂, hdrop₃, stripped]
  refine ⟨spare₃, by rw [hdrop], ?_⟩
  intro hdots
  have hne : toggleTrailingSlashdot (swlibSquashTrailingSlash s) ≠ [dot, slash, dot] :=
    fun he => hdots (mem_dotsOnly he)
  rw [hdrop]
  simp only [dirCompareRestore, if_neg noop_ne_noab, stripped]
  rw [hrestore₃ hne, hrestore₂, hrestore₁]

/-- A string of dots comes back without its middle dot. -/
theorem noop_dotsOnly (hs : s ∈ dotsOnly) (spare : Bytes) :
    ∃ t spare', 0 ∉ t ∧ t ≠ s ∧
      dirCompareRestore swcFcNoop (dirCompareDrop swcFcNoop (s ++ 0 :: spare)) =
        t ++ 0 :: spare' := by
  rcases List.mem_pair.mp hs with rfl | rfl
  · refine ⟨[dot, slash, slash, dot], 0 :: spare, by decide, by decide, ?_⟩
    simp [dirCompareDrop, dirCompareRestore, swcFcNoop, swcFcNoab, swlibToggleTrailingSlash,
      swlibToggleTrailingSlashdot, swlibToggleLeadingDotslash, memmove, overwrite, strlenOf,
      CString.strlen, CString.ofMem, dot, slash]
  · refine ⟨[dot, slash, slash, dot, slash], 0 :: spare, by decide, by decide, ?_⟩
    simp [dirCompareDrop, dirCompareRestore, swcFcNoop, swcFcNoab, swlibToggleTrailingSlash,
      swlibToggleTrailingSlashdot, swlibToggleLeadingDotslash, memmove, overwrite, strlenOf,
      CString.strlen, CString.ofMem, dot, slash]

theorem noop_restored_iff (h : 0 ∉ s) (spare : Bytes) :
    (CString.ofMem (dirCompareRestore swcFcNoop
      (dirCompareDrop swcFcNoop (s ++ 0 :: spare)))).bytes = s ↔ s ∉ dotsOnly := by
  constructor
  · intro he hs
    obtain ⟨t, spare', ht, hne, hrestore⟩ := noop_dotsOnly hs spare
    rw [hrestore, bytes_ofMem ht] at he
    exact hne he
  · intro hs
    obtain ⟨_, -, hrestore⟩ := noop_undone h spare
    rw [hrestore hs, bytes_ofMem h]

/-- The leading slash is put back in front of whatever is there. -/
theorem leadingSlash_restore {t : Bytes} (h : 0 ∉ t) (rest : Bytes) :
    (swlibToggleLeadingSlash .restore (t ++ 0 :: rest) true).name =
      slash :: t ++ 0 :: rest.drop 1 := by
  dsimp only [swlibToggleLeadingSlash]
  rw [if_pos rfl, strlenOf_append h]
  exact memmove_back (p := [slash]) t (by rw [List.length_singleton]; omega)

/-- The strings that come to harm, by what is left of them without a leading
slash. -/
theorem mangled_noab_iff (s : Bytes) :
    Mangled swcFcNoab s ↔ toggleLeadingSlash s ∈ dotsOnly := by
  constructor
  · intro h
    rcases h with h | ⟨-, t, ht, rfl⟩
    · rcases List.mem_pair.mp h with rfl | rfl
      · decide
      · decide
    · rcases List.mem_pair.mp ht with rfl | rfl
      · decide
      · decide
  · intro h
    rw [toggleLeadingSlash] at h
    split at h
    next hlead =>
      obtain ⟨t, rfl⟩ := List.head?_eq_some_iff.mp hlead.1
      exact .inr ⟨rfl, t, h, rfl⟩
    next => exact .inl h

theorem noab_restored_iff (h : 0 ∉ s) (spare : Bytes) :
    (CString.ofMem (dirCompareRestore swcFcNoab
      (dirCompareDrop swcFcNoab (s ++ 0 :: spare)))).bytes = s ↔ ¬Mangled swcFcNoab s := by
  obtain ⟨spare', p, hdrop, hrestore⟩ := undone_leadingSlash h spare
  have hnul : 0 ∉ toggleLeadingSlash s := fun hm => h ((leadingSlash_final s).subset hm)
  have houter : dirCompareRestore swcFcNoab (dirCompareDrop swcFcNoab (s ++ 0 :: spare)) =
      (swlibToggleLeadingSlash .restore (dirCompareRestore swcFcNoop
        (dirCompareDrop swcFcNoop (toggleLeadingSlash s ++ 0 :: spare'))) p).name := by
    simp only [dirCompareDrop, dirCompareRestore, if_neg noop_ne_noab, if_true, hdrop]
  rw [houter, mangled_noab_iff]
  constructor
  · intro he hs
    obtain ⟨t, rest, ht, hne, hinner⟩ := noop_dotsOnly hs spare'
    rw [hinner] at he
    cases p with
    | false =>
        have hsame : toggleLeadingSlash s = s := string_inj hnul h hrestore
        exact hne ((bytes_ofMem ht rest).symm.trans (he.trans hsame.symm))
    | true =>
        have hcons : ∀ u : Bytes, 0 ∉ u → (0 : UInt8) ∉ slash :: u := fun u hu hm =>
          (List.mem_cons.mp hm).elim (by decide) hu
        rw [leadingSlash_restore ht, bytes_ofMem (hcons t ht)] at he
        rw [leadingSlash_restore hnul] at hrestore
        have hsame : slash :: toggleLeadingSlash s = s := string_inj (hcons _ hnul) h hrestore
        exact hne ((List.cons_inj_right slash).mp (he.trans hsame.symm))
  · intro hs
    obtain ⟨_, -, hinner⟩ := noop_undone hnul spare'
    rw [hinner hs, hrestore, bytes_ofMem h]

/-- The string is there again, unless it comes to harm. -/
theorem restored_iff (h : 0 ∉ s) (spare : Bytes) (fcCompareFlag : Int) :
    (CString.ofMem (dirCompareRestore fcCompareFlag
      (dirCompareDrop fcCompareFlag (s ++ 0 :: spare)))).bytes = s ↔ ¬Mangled fcCompareFlag s := by
  by_cases hflag : fcCompareFlag = swcFcNoab
  · subst hflag
    exact noab_restored_iff h spare
  · have hmangled : Mangled fcCompareFlag s ↔ s ∈ dotsOnly :=
      ⟨fun hm => hm.resolve_right fun hn => hflag hn.1, .inl⟩
    rw [dirCompareDrop_of_ne hflag, dirCompareRestore_of_ne hflag, hmangled]
    exact noop_restored_iff h spare

/-- What is compared is the stripped string. -/
theorem bytes_dirCompareDrop (h : 0 ∉ s) (spare : Bytes) (fcCompareFlag : Int) :
    (CString.ofMem (dirCompareDrop fcCompareFlag (s ++ 0 :: spare)).name).bytes =
      stripped fcCompareFlag s := by
  have hstripped : ∀ {u : Bytes}, 0 ∉ u → 0 ∉ stripped swcFcNoop u := fun hu hm =>
    hu ((infix_stripped _ _).subset hm)
  by_cases hflag : fcCompareFlag = swcFcNoab
  · subst hflag
    obtain ⟨spare', p, hdrop, -⟩ := undone_leadingSlash h spare
    have hnul : 0 ∉ toggleLeadingSlash s := fun hm => h ((leadingSlash_final s).subset hm)
    obtain ⟨rest, hinner, -⟩ := noop_undone hnul spare'
    have houter : (dirCompareDrop swcFcNoab (s ++ 0 :: spare)).name =
        (dirCompareDrop swcFcNoop (toggleLeadingSlash s ++ 0 :: spare')).name := by
      simp only [dirCompareDrop, if_neg noop_ne_noab, if_true, hdrop]
    rw [houter, hinner, bytes_ofMem (hstripped hnul)]
    rfl
  · obtain ⟨rest, hinner, -⟩ := noop_undone h spare
    rw [dirCompareDrop_of_ne hflag, hinner, bytes_ofMem (hstripped h), stripped, stripped,
      if_neg hflag, if_neg noop_ne_noab]

end

theorem toNat_ne_zero {s : Bytes} {a : UInt8} (hs : 0 ∉ s) (ha : a ∈ s) : a.toNat ≠ 0 := by
  intro h
  have hzero : a = 0 := UInt8.toNat_inj.mp h
  exact hs (hzero ▸ ha)

/-- `strcmp` returns zero for the same string only. -/
theorem strcmp_eq_zero_iff {s t : Bytes} (hs : 0 ∉ s) (ht : 0 ∉ t) : strcmp s t = 0 ↔ s = t := by
  induction s generalizing t with
  | nil =>
      cases t with
      | nil => exact iff_of_true rfl rfl
      | cons b t =>
          have hb : b.toNat ≠ 0 := toNat_ne_zero ht List.mem_cons_self
          refine iff_of_false ?_ (List.cons_ne_nil b t).symm
          rw [strcmp]
          omega
  | cons a s ih =>
      cases t with
      | nil =>
          have ha : a.toNat ≠ 0 := toNat_ne_zero hs List.mem_cons_self
          refine iff_of_false ?_ (List.cons_ne_nil a s)
          rw [strcmp]
          omega
      | cons b t =>
          rw [strcmp]
          by_cases hab : a = b
          · rw [if_pos hab, hab, List.cons_inj_right]
            exact ih (fun h => hs (List.mem_cons_of_mem _ h)) fun h => ht (List.mem_cons_of_mem _ h)
          · rw [if_neg hab]
            have hne : a.toNat ≠ b.toNat := fun h => hab (UInt8.toNat_inj.mp h)
            refine iff_of_false (by omega) ?_
            intro h
            exact hab (List.cons.inj h).1

/-- What is there of a string after the comparison. -/
theorem ofMem_restored_iff (b : StringBuffer) (fcCompareFlag : Int) :
    CString.ofMem (dirCompareRestore fcCompareFlag (dirCompareDrop fcCompareFlag b.mem)) = b.str ↔
      ¬Mangled fcCompareFlag b.str.bytes := by
  rw [CString.ext_iff]
  exact restored_iff b.str.noNul b.spare fcCompareFlag

/-- What of a string is compared. -/
theorem ofMem_dropped (b : StringBuffer) (fcCompareFlag : Int) :
    (CString.ofMem (dirCompareDrop fcCompareFlag b.mem).name).bytes =
      stripped fcCompareFlag b.str.bytes :=
  bytes_dirCompareDrop b.str.noNul b.spare fcCompareFlag

/-- The comparison does what it is for unless one of the strings is dots and
slashes that come to harm. -/
theorem comparesDirs_iff (b1 b2 : StringBuffer) (fcCompareFlag : Int) :
    ComparesDirs b1 b2 fcCompareFlag ↔
      ¬Mangled fcCompareFlag b1.str.bytes ∧ ¬Mangled fcCompareFlag b2.str.bytes := by
  have hret : (swlibDirCompare b1.mem b2.mem fcCompareFlag).ret = 0 ↔
      stripped fcCompareFlag b1.str.bytes = stripped fcCompareFlag b2.str.bytes := by
    rw [← ofMem_dropped b1, ← ofMem_dropped b2]
    dsimp only [swlibDirCompare]
    exact strcmp_eq_zero_iff (CString.noNul _) (CString.noNul _)
  rw [ComparesDirs, and_iff_left hret]
  exact and_congr (ofMem_restored_iff b1 fcCompareFlag) (ofMem_restored_iff b2 fcCompareFlag)

/-- `././.` -/
def dotsBuffer : StringBuffer := ⟨⟨[dot, slash, dot, slash, dot], by decide⟩, []⟩

/-- `././.` compared with itself is `.//.` afterwards. -/
theorem dirCompare_loses_dot :
    ¬∀ (b1 b2 : StringBuffer) (fcCompareFlag : Int), ComparesDirs b1 b2 fcCompareFlag := by
  intro h
  have hsame := (h dotsBuffer dotsBuffer swcFcNoop).1
  exact (ofMem_restored_iff dotsBuffer swcFcNoop).mp hsame (.inl List.mem_cons_self)

end Swbis.Misc
