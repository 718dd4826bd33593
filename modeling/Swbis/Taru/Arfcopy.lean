import Swbis.Misc.Swpath
import Swbis.Misc.Vrealpath
import Swbis.Taru.Name

/-!
# The names of an archive that is copied

`taruib_arfcopy` checks the name of every member before it copies it: it must be
the path of a package, its depth must be more than one if the text `..` stands in
it, and it must fit the header.  The copy ends at the first name that is refused.
-/

namespace Swbis.Taru

open CLib Swbis.Misc

/-! ## The code -/

/-- `taru_is_tar_filename_too_long` with `is_dir` one: a byte less for the name. -/
def taruIsTarDirnameTooLong (name : CString) (flags : TarFlags) : Bool × Bool :=
  let name := squashTrailingSlash name
  let tarnamesize := tarnamesizeOf flags - 1
  let tooLong :=
    if name.strlen < tarnamesize then false
    else if tarnamesize + prefixFieldSize + 1 < name.strlen ∧
        flags.gnuLongLinks = false ∧ flags.paxexthdr = false then true
    else !hasGoodSplit tarnamesize 0 name.bytes
  if tooLong then
    if flags.gnuLongLinks then
      if tarRecordSize ≤ name.strlen then (true, false)
      else if tarnamesize < name.strlen then (false, true)
      else (false, false)
    else if flags.paxexthdr then (false, false)
    else (true, false)
  else (false, false)

/-- What `taruib_arfcopy` is called with. -/
structure Arfcopy where
  /-- `leadingpath` -/
  leadingpath : Bytes
  /-- `tarheaderflags` -/
  tarheaderflags : TarFlags

/-- The new name of a member does not fit the header. -/
def Arfcopy.nameTooLong (env : Arfcopy) (name : Bytes) : Bool :=
  (taruIsTarDirnameTooLong (.ofMem (swlibUnixDircat env.leadingpath name)) env.tarheaderflags).1

/-- `strstr (name, "..")` is not null. -/
def hasDotDot (name : Bytes) : Bool := (findSub dotDot name).isSome

/-- The checks of `taruib_arfcopy` on one name: the state of the path parser, and
the error or 0.  Nothing if the parser ends the program. -/
def Arfcopy.checkName (env : Arfcopy) (swpath : Swpath) (name : Bytes) : Option (Swpath × Int) :=
  (swpath.swpathParsePath name).map fun r =>
    (r.1,
      if r.2 < 0 then -3
      else if (swlibVrealpath [] name).count ≤ 1 ∧ hasDotDot name then -4
      else if env.nameTooLong name then -5
      else 0)

/-- The names that are accepted, in a run over the members of an archive. -/
def Arfcopy.accepted (env : Arfcopy) (swpath : Swpath) : List Bytes → List Bytes
  | [] => []
  | name :: names =>
      match env.checkName swpath name with
      | some (next, 0) => name :: env.accepted next names
      | _ => []

/-! ## When the accepted names stay in the root -/

/-- A name that is at least two levels deep at its end never leaves the root. -/
def NameGuarded (name : Bytes) : Prop :=
  dotDots (components name) + 2 ≤ Misc.names (components name) → Balanced (components name)

/-- Every name that the path parser takes and that fits the header is guarded,
up to the first one that is not accepted. -/
def Arfcopy.RunGuarded (env : Arfcopy) (swpath : Swpath) : List Bytes → Prop
  | [] => True
  | name :: names =>
      ∀ next ret, swpath.swpathParsePath name = some (next, ret) → 0 ≤ ret →
        env.nameTooLong name = false →
          NameGuarded name ∧
            ((hasDotDot name = true →
                dotDots (components name) + 2 ≤ Misc.names (components name)) →
              env.RunGuarded next names)

section

variable {env : Arfcopy} {swpath next : Swpath} {name : Bytes} {ret : Int}

/-- What the checks say of a name that the path parser takes and that fits. -/
theorem Arfcopy.checkName_eq (hparse : swpath.swpathParsePath name = some (next, ret))
    (hret : 0 ≤ ret) (hfits : env.nameTooLong name = false) :
    env.checkName swpath name =
      some (next, if (hasDotDot name = true →
        dotDots (components name) + 2 ≤ Misc.names (components name)) then 0 else -4) := by
  have hdepth := swlibVrealpath_count name
  rw [checkName, hparse, Option.map_some, if_neg (Int.not_lt.mpr hret), hfits]
  by_cases hdd : hasDotDot name = true
  · by_cases hdeep : dotDots (components name) + 2 ≤ Misc.names (components name)
    · have hnot : ¬((swlibVrealpath [] name).count ≤ 1 ∧ hasDotDot name = true) :=
        fun h => absurd h.1 (by omega)
      rw [if_neg hnot, if_neg nofun, if_pos fun _ => hdeep]
    · rw [if_pos ⟨by omega, hdd⟩, if_neg fun h => hdeep (h hdd)]
  · have hnot : ¬((swlibVrealpath [] name).count ≤ 1 ∧ hasDotDot name = true) := fun h => hdd h.2
    rw [if_neg hnot, if_neg nofun, if_pos fun h => absurd h hdd]

/-- A name that is not taken, or does not fit, is not accepted. -/
theorem Arfcopy.of_checkName_eq_zero (h : env.checkName swpath name = some (next, 0)) :
    ∃ ret, swpath.swpathParsePath name = some (next, ret) ∧ 0 ≤ ret ∧
      env.nameTooLong name = false := by
  rw [checkName, Option.map_eq_some_iff] at h
  obtain ⟨⟨next', ret⟩, hparse, heq⟩ := h
  obtain ⟨rfl, hzero⟩ := Prod.mk.inj heq
  dsimp only at hzero
  split at hzero
  next => cases hzero
  next hret =>
    split at hzero
    next => cases hzero
    next =>
      split at hzero
      next => cases hzero
      next hfits => exact ⟨ret, hparse, by omega, by simpa using hfits⟩

/-- A name without the text `..` has no component `..`. -/
theorem balanced_of_no_text (h : ¬hasDotDot name = true) : Balanced (components name) := by
  intro before after heq
  refine absurd (findSub_isSome.mpr (infix_of_mem_components ?_)) h
  rw [heq]
  exact List.mem_append_right _ List.mem_cons_self

/-- An accepted name stays in the root exactly when it is guarded. -/
theorem staysInRoot_iff_guarded
    (h : hasDotDot name = true → dotDots (components name) + 2 ≤ Misc.names (components name)) :
    StaysInRoot name ↔ NameGuarded name := by
  rw [staysInRoot_iff]
  constructor
  · exact fun hbalanced _ => hbalanced
  · intro hguarded
    by_cases hdd : hasDotDot name = true
    · exact hguarded (h hdd)
    · exact balanced_of_no_text hdd

end

/-- Every accepted name stays in the root exactly when the names are guarded. -/
theorem Arfcopy.accepted_staysInRoot_iff (env : Arfcopy) (swpath : Swpath) (names : List Bytes) :
    (∀ name ∈ env.accepted swpath names, StaysInRoot name) ↔ env.RunGuarded swpath names := by
  induction names generalizing swpath with
  | nil => simp [accepted, RunGuarded]
  | cons name names ih =>
      rw [accepted, RunGuarded]
      split
      next next hcheck =>
        obtain ⟨ret, hparse, hret, hfits⟩ := of_checkName_eq_zero hcheck
        have hdeep : hasDotDot name = true →
            dotDots (components name) + 2 ≤ Misc.names (components name) := by
          by_contra hnot
          rw [checkName_eq hparse hret hfits, if_neg hnot] at hcheck
          cases hcheck
        rw [List.forall_mem_cons, staysInRoot_iff_guarded hdeep, ih]
        constructor
        · rintro ⟨hguarded, hrest⟩ next' ret' hparse' _ _
          rw [hparse] at hparse'
          cases hparse'
          exact ⟨hguarded, fun _ => hrest⟩
        · intro h
          obtain ⟨hguarded, hrest⟩ := h next ret hparse hret hfits
          exact ⟨hguarded, hrest hdeep⟩
      next hnot =>
        refine iff_of_true nofun fun next ret hparse hret hfits => ?_
        have hshallow : ¬(hasDotDot name = true →
            dotDots (components name) + 2 ≤ Misc.names (components name)) := by
          intro hdeep
          refine hnot next ?_
          rw [checkName_eq hparse hret hfits, if_pos hdeep]
        refine ⟨fun hdeep => absurd (fun _ => hdeep) hshallow, fun hdeep => absurd hdeep hshallow⟩

/-- A name that leaves the root at its start and ends three levels deep. -/
def sneakyName : Bytes := chars ['.', '.', '/', 'a', '/', 'b', '/', 'c']

/-- It is accepted. -/
theorem accepted_sneakyName :
    sneakyName ∈ Arfcopy.accepted ⟨[], {}⟩ Swpath.swpathOpen [sneakyName] ∧
      ¬StaysInRoot sneakyName := by
  refine ⟨?_, ?_⟩
  · decide +kernel
  · unfold StaysInRoot
    decide +kernel

end Swbis.Taru
