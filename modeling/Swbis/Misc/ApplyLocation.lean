import Mathlib.Data.List.Basic
import Swbis.Misc.Slashclean

/-!
# Relocating a path

`swlib_apply_location` takes the directory of a package off the front of a path
and puts the location in front of what is left.  It compares the text of the
directory with the text of the path, after one leading slash or `./` of each.
So the directory may end inside a component of the path.
-/

namespace Swbis.Misc

open CLib

/-! ## The code -/

/-- `swlib_return_no_leading` -/
def swlibReturnNoLeading (path : Bytes) : Bytes :=
  if findSub [slash] path = some 0 then path.drop 1
  else if findSub [dot, slash] path = some 0 then path.drop 2
  else path

/-- What `swlib_apply_location` leaves of the path. -/
def relocatedRest (path directory : Bytes) : Bytes :=
  let cleanPath := swlibReturnNoLeading path
  let cleanDirectory := swlibReturnNoLeading directory
  if cleanDirectory ≠ [] ∧ cleanPath ≠ [] ∧ findSub cleanDirectory cleanPath = some 0 then
    cleanPath.drop cleanDirectory.length
  else cleanPath

/-- `swlib_apply_location` -/
def swlibApplyLocation (path location directory : Bytes) : Bytes :=
  if path = [] then []
  else swlibUnixDircat location (relocatedRest path directory)

/-! ## What relocating is for -/

/-- The relocated path is the location and the components that remain of the
path, which are all of them or those behind the directory.  Where some remain,
no two slashes stand together. -/
def Relocates (path location directory relocated : Bytes) : Prop :=
  ∃ rest, (rest = ordinary path ∨ ordinary path = ordinary directory ++ rest) ∧
    ordinary relocated = ordinary location ++ rest ∧
    (rest ≠ [] → ¬ [slash, slash] <:+: relocated) ∧
    (location ≠ [] → (IsAbsolute relocated ↔ IsAbsolute location))

/-- The directory ends inside a component of the path. -/
def SplitsComponent (path directory : Bytes) : Prop :=
  ∃ before x y behind, x ≠ slash ∧ y ≠ slash ∧
    swlibReturnNoLeading directory = before ++ [x] ∧
    swlibReturnNoLeading path = before ++ x :: y :: behind

/-! ## The parts -/

theorem ordinary_returnNoLeading (path : Bytes) :
    ordinary (swlibReturnNoLeading path) = ordinary path := by
  rw [swlibReturnNoLeading]
  split
  next h =>
    obtain ⟨rest, rfl⟩ := findSub_eq_zero.mp h
    exact (ordinary_slash rest).symm
  next =>
    split
    next h =>
      obtain ⟨rest, rfl⟩ := findSub_eq_zero.mp h
      exact (ordinary_dot_slash rest).symm
    next => rfl

/-- What is joined to a directory is put behind its last slash, or behind a new
one. -/
theorem unixDircat_eq {dest dirname : Bytes} (hdest : dest ≠ []) (hname : dirname ≠ []) :
    ∃ d, (dest = d ++ [slash] ∨ dest = d) ∧
      swlibUnixDircat dest dirname =
        swlibSquashDoubleSlash (d ++ slash :: swlibSquashLeadingDotSlash dirname) := by
  rw [swlibUnixDircat, if_neg hname]
  by_cases hlast : dest.getLast? = some slash
  · obtain ⟨d, rfl⟩ := List.getLast?_eq_some_iff.mp hlast
    refine ⟨d, .inl rfl, ?_⟩
    have hsep : ¬ (d ++ [slash] ≠ [] ∧ (d ++ [slash]).getLast? ≠ some slash) :=
      fun h => h.2 hlast
    simp only [if_neg hsep]
    rw [if_pos hdest, List.append_assoc, List.singleton_append]
  · refine ⟨dest, .inr rfl, ?_⟩
    simp only [if_pos (And.intro hdest hlast)]
    rw [if_pos (List.append_ne_nil_of_left_ne_nil hdest _), List.append_assoc,
      List.singleton_append]

/-- Joining puts the components behind each other. -/
theorem ordinary_unixDircat (dest dirname : Bytes) :
    ordinary (swlibUnixDircat dest dirname) = ordinary dest ++ ordinary dirname := by
  by_cases hname : dirname = []
  · rw [swlibUnixDircat, if_pos hname, hname, ordinary_nil, List.append_nil]
  · by_cases hdest : dest = []
    · subst hdest
      rw [swlibUnixDircat, if_neg hname]
      simp [ordinary_squashDoubleSlash]
    · obtain ⟨d, hd, heq⟩ := unixDircat_eq hdest hname
      have hord : ordinary dest = ordinary d := by
        rcases hd with rfl | rfl
        · exact ordinary_concat_slash d
        · rfl
      rw [heq, ordinary_squashDoubleSlash, ordinary_append, ordinary_squashLeadingDotSlash, hord]

theorem noDouble_unixDircat {dirname : Bytes} (h : dirname ≠ []) (dest : Bytes) :
    ¬ [slash, slash] <:+: swlibUnixDircat dest dirname := by
  rw [swlibUnixDircat, if_neg h]
  exact noDouble_squashDoubleSlash _

theorem isAbsolute_unixDircat {dest : Bytes} (hdest : dest ≠ []) (dirname : Bytes) :
    IsAbsolute (swlibUnixDircat dest dirname) ↔ IsAbsolute dest := by
  by_cases hname : dirname = []
  · rw [swlibUnixDircat, if_pos hname]
  · obtain ⟨d, hd, heq⟩ := unixDircat_eq hdest hname
    have hhead : (d ++ slash :: swlibSquashLeadingDotSlash dirname).head? = dest.head? := by
      rcases hd with rfl | rfl
      · cases d with
        | nil => rfl
        | cons b d => rfl
      · obtain ⟨b, d, rfl⟩ := List.exists_cons_of_ne_nil hdest
        rfl
    rw [IsAbsolute, heq, head?_squashDoubleSlash, hhead, IsAbsolute]

/-! ## Where a component is split -/

/-- A text that does not start with a slash starts with a component. -/
theorem exists_first_component {y : UInt8} (hy : y ≠ slash) (path : Bytes) :
    ∃ c back, y :: path = c ++ back ∧ c ≠ [] ∧ slash ∉ c ∧
      (back = [] ∨ ∃ b, back = slash :: b) := by
  obtain ⟨c, back, heq, hc, hback⟩ := exists_run (y :: path)
  refine ⟨c, back, heq, ?_, hc, hback⟩
  rintro rfl
  rcases hback with rfl | ⟨b, rfl⟩
  · cases heq
  · exact hy (List.cons.inj heq).1

/-- A text that does not end in a slash ends in a component. -/
theorem exists_last_component {x : UInt8} (hx : x ≠ slash) (path : Bytes) :
    ∃ front c, path ++ [x] = front ++ c ∧ c ≠ [] ∧ slash ∉ c ∧
      (front = [] ∨ ∃ f, front = f ++ [slash]) := by
  obtain ⟨c, back, heq, hne, hc, hback⟩ := exists_first_component hx path.reverse
  refine ⟨back.reverse, c.reverse, ?_, ?_, ?_, ?_⟩
  · rw [← List.reverse_append, ← heq, List.reverse_cons, List.reverse_reverse]
  · simpa using hne
  · simpa using hc
  · rcases hback with rfl | ⟨b, rfl⟩
    · exact .inl rfl
    · exact .inr ⟨b.reverse, List.reverse_cons⟩

/-- The component, unless it is `.`. -/
def ordinaryOne (c : Bytes) : List Bytes := [c].filter fun c => c ≠ [dot]

/-- A component between slashes, or at the ends, is one of the components. -/
theorem ordinary_around {front c back : Bytes} (hfront : front = [] ∨ ∃ f, front = f ++ [slash])
    (hback : back = [] ∨ ∃ b, back = slash :: b) (hne : c ≠ []) (hc : slash ∉ c) :
    ordinary (front ++ c ++ back) = ordinary front ++ ordinaryOne c ++ ordinary back := by
  have hone : ordinary c = ordinaryOne c := by rw [ordinary, components_self hne hc, ordinaryOne]
  have hbehind : ordinary (c ++ back) = ordinaryOne c ++ ordinary back := by
    rcases hback with rfl | ⟨b, rfl⟩
    · rw [List.append_nil, hone, ordinary_nil, List.append_nil]
    · rw [ordinary_append, hone, ordinary_slash]
  rw [List.append_assoc, List.append_assoc, ← hbehind]
  rcases hfront with rfl | ⟨f, rfl⟩
  · rw [List.nil_append, ordinary_nil, List.nil_append]
  · rw [List.append_assoc, List.singleton_append, ordinary_append, ordinary_concat_slash]

theorem ordinaryOne_of_ne {c : Bytes} (h : c ≠ [dot]) : ordinaryOne c = [c] :=
  List.filter_cons_of_pos (decide_eq_true h)

theorem ordinaryOne_dot : ordinaryOne [dot] = [] := rfl

/-- Two components in one. -/
theorem ordinaryOne_append {c d : Bytes} (hc : c ≠ []) (hd : d ≠ []) :
    ordinaryOne (c ++ d) = [c ++ d] := by
  apply ordinaryOne_of_ne
  intro h
  have hlen := congrArg List.length h
  have hcpos := List.length_pos_iff.mpr hc
  have hdpos := List.length_pos_iff.mpr hd
  rw [List.length_append, List.length_singleton] at hlen
  omega

/-- They are not the two. -/
theorem append_ne_two {c d : Bytes} (hd : d ≠ []) :
    [c ++ d] ≠ ordinaryOne c ++ ordinaryOne d := by
  by_cases hcd : c = [dot]
  · by_cases hdd : d = [dot]
    · rw [hcd, hdd, ordinaryOne_dot]
      exact nofun
    · rw [hcd, ordinaryOne_dot, List.nil_append, ordinaryOne_of_ne hdd, Ne, List.singleton_inj,
        List.append_left_eq_self]
      exact nofun
  · rw [ordinaryOne_of_ne hcd]
    intro h
    obtain ⟨hfirst, -⟩ := List.cons.inj h
    exact hd (List.append_right_eq_self.mp hfirst)

/-- Where the directory ends inside a component, what is left of the path is
neither the path nor what stands behind the directory. -/
theorem ordinary_split {x y : UInt8} (hx : x ≠ slash) (hy : y ≠ slash) (before behind : Bytes) :
    ordinary (y :: behind) ≠ ordinary (before ++ x :: y :: behind) ∧
      ordinary (before ++ x :: y :: behind) ≠
        ordinary (before ++ [x]) ++ ordinary (y :: behind) := by
  obtain ⟨front, c, hfc, hc, hcs, hfront⟩ := exists_last_component hx before
  obtain ⟨d, back, hdb, hd, hds, hback⟩ := exists_first_component hy behind
  have hcds : slash ∉ c ++ d := by
    intro h
    rcases List.mem_append.mp h with h | h
    · exact hcs h
    · exact hds h
  have hpath : ordinary (before ++ x :: y :: behind) =
      ordinary front ++ [c ++ d] ++ ordinary back := by
    rw [List.append_cons, hfc, hdb, List.append_assoc, ← List.append_assoc c, ← List.append_assoc,
      ordinary_around hfront hback (List.append_ne_nil_of_left_ne_nil hc d) hcds,
      ordinaryOne_append hc hd]
  have hdir : ordinary (before ++ [x]) = ordinary front ++ ordinaryOne c := by
    have h := ordinary_around hfront (.inl rfl) hc hcs
    rwa [List.append_nil, ← hfc, ordinary_nil, List.append_nil] at h
  have hrest : ordinary (y :: behind) = ordinaryOne d ++ ordinary back := by
    have h := ordinary_around (.inl rfl) hback hd hds
    rwa [List.nil_append, ← hdb, ordinary_nil, List.nil_append] at h
  rw [hpath, hdir, hrest]
  constructor
  · intro h
    have hone := List.append_cancel_right h
    by_cases hdd : d = [dot]
    · rw [hdd, ordinaryOne_dot] at hone
      exact absurd hone.symm (List.append_ne_nil_of_right_ne_nil _ (List.cons_ne_nil _ _))
    · rw [ordinaryOne_of_ne hdd] at hone
      rw [← List.nil_append [d]] at hone
      obtain ⟨-, hlast⟩ := List.append_inj' hone rfl
      exact hc (List.append_left_eq_self.mp (List.singleton_inj.mp hlast).symm)
  · intro h
    rw [List.append_assoc, List.append_assoc] at h
    have htail := List.append_cancel_left h
    rw [← List.append_assoc] at htail
    exact append_ne_two hd (List.append_cancel_right htail)

/-! ## When a path is relocated -/

theorem relocatedRest_cases (path directory : Bytes) :
    relocatedRest path directory = swlibReturnNoLeading path ∨
      swlibReturnNoLeading path =
        swlibReturnNoLeading directory ++ relocatedRest path directory := by
  rw [relocatedRest]
  split
  next h =>
    obtain ⟨rest, hrest⟩ := findSub_eq_zero.mp h.2.2
    rw [← hrest, List.drop_left]
    exact .inr rfl
  next => exact .inl rfl

/-- Where no component is split, the directory is taken off as components. -/
theorem ordinary_relocatedRest {path directory : Bytes} (h : ¬ SplitsComponent path directory) :
    ordinary (relocatedRest path directory) = ordinary path ∨
      ordinary path = ordinary directory ++ ordinary (relocatedRest path directory) := by
  rw [← ordinary_returnNoLeading path, ← ordinary_returnNoLeading directory]
  rcases relocatedRest_cases path directory with heq | heq
  · rw [heq]
    exact .inl rfl
  · right
    rw [SplitsComponent, heq] at h
    rw [heq]
    generalize relocatedRest path directory = rest at h
    generalize swlibReturnNoLeading directory = dir at h
    cases rest with
    | nil => rw [List.append_nil, ordinary_nil, List.append_nil]
    | cons y behind =>
        by_cases hy : y = slash
        · rw [hy, ordinary_append, ordinary_slash]
        · rcases List.eq_nil_or_concat' dir with rfl | ⟨before, x, rfl⟩
          · rfl
          · rw [List.append_assoc, List.singleton_append] at h ⊢
            by_cases hx : x = slash
            · rw [hx, ordinary_append, ordinary_concat_slash]
            · exact absurd ⟨before, x, y, behind, hx, hy, rfl, rfl⟩ h

/-- Where a component is split, the directory is taken off all the same. -/
theorem relocatedRest_split {path directory before behind : Bytes} {x y : UInt8}
    (hdir : swlibReturnNoLeading directory = before ++ [x])
    (hpath : swlibReturnNoLeading path = before ++ x :: y :: behind) :
    relocatedRest path directory = y :: behind := by
  have hpre : before ++ [x] <+: before ++ x :: y :: behind := by
    rw [List.append_cons before x (y :: behind)]
    exact List.prefix_append _ _
  simp only [relocatedRest, hdir, hpath]
  rw [if_pos, List.append_cons before x (y :: behind), List.drop_left]
  exact ⟨by simp, by simp, findSub_eq_zero.mpr hpre⟩

/-- A path is relocated by its components exactly when the directory does not
end inside one of them, and an empty path only to a location without any. -/
theorem relocates_iff (path location directory : Bytes) :
    Relocates path location directory (swlibApplyLocation path location directory) ↔
      ¬ SplitsComponent path directory ∧
        (path = [] → ordinary location = [] ∧ ¬ IsAbsolute location) := by
  by_cases hpath : path = []
  · subst hpath
    have hnosplit : ¬ SplitsComponent [] directory := by
      rintro ⟨before, x, y, behind, -, -, -, h⟩
      exact List.append_ne_nil_of_right_ne_nil before (List.cons_ne_nil _ _) h.symm
    rw [swlibApplyLocation, if_pos rfl, and_iff_right hnosplit]
    constructor
    · rintro ⟨rest, -, hord, -, habs⟩ -
      obtain ⟨hloc, -⟩ := List.append_eq_nil_iff.mp hord.symm
      refine ⟨hloc, fun h => ?_⟩
      have hne : location ≠ [] := by
        rintro rfl
        cases h
      cases (habs hne).mpr h
    · intro h
      obtain ⟨hloc, hrel⟩ := h rfl
      refine ⟨[], .inl rfl, ?_, fun hne => absurd rfl hne, fun _ => iff_of_false nofun hrel⟩
      rw [hloc, ordinary_nil, List.append_nil]
  · rw [swlibApplyLocation, if_neg hpath, and_iff_left fun h => absurd h hpath]
    have hord := ordinary_unixDircat location (relocatedRest path directory)
    constructor
    · rintro ⟨rest, hrest, hjoin, -⟩ ⟨before, x, y, behind, hx, hy, hdir, hp⟩
      rw [hord] at hjoin
      obtain rfl := List.append_cancel_left hjoin
      rw [relocatedRest_split hdir hp, ← ordinary_returnNoLeading path,
        ← ordinary_returnNoLeading directory, hdir, hp] at hrest
      obtain ⟨hwhole, htwo⟩ := ordinary_split hx hy before behind
      rcases hrest with h | h
      · exact hwhole h
      · exact htwo h
    · intro h
      refine ⟨_, ordinary_relocatedRest h, hord, fun hne => ?_, fun hne =>
        isAbsolute_unixDircat hne _⟩
      refine noDouble_unixDircat ?_ location
      intro hnil
      rw [hnil] at hne
      exact hne rfl

/-- `foobar` with the directory `foo` comes to the location as `bar`. -/
theorem relocates_part :
    ¬ Relocates (chars ['f', 'o', 'o', 'b', 'a', 'r']) (chars ['/', 'l']) (chars ['f', 'o', 'o'])
      (swlibApplyLocation (chars ['f', 'o', 'o', 'b', 'a', 'r']) (chars ['/', 'l'])
        (chars ['f', 'o', 'o'])) := by
  have hto : swlibApplyLocation (chars ['f', 'o', 'o', 'b', 'a', 'r']) (chars ['/', 'l'])
      (chars ['f', 'o', 'o']) = chars ['/', 'l', '/', 'b', 'a', 'r'] := by decide
  rw [hto]
  rintro ⟨rest, hrest, hjoin, -⟩
  have hbar : rest = [chars ['b', 'a', 'r']] := by
    have hloc : ordinary (chars ['/', 'l', '/', 'b', 'a', 'r']) =
        ordinary (chars ['/', 'l']) ++ [chars ['b', 'a', 'r']] := by decide
    exact (List.append_cancel_left (hloc.symm.trans hjoin)).symm
  subst hbar
  revert hrest
  decide

end Swbis.Misc
