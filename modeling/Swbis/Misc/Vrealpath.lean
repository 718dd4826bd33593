import Swbis.Misc.Slash

/-!
# Resolving a path by its text

`swlib_vrealpath` resolves a path without looking at the file system.  It counts
the depth of the path, a `..` one down, and puts the resolved path together.

The depth it returns is that of the whole path.  A path *stays in the root* if
on the way, from left to right, no `..` leaves the directory where it starts.
-/

namespace Swbis.Misc

open CLib

/-- `".."` -/
def dotDot : Bytes := [dot, dot]

/-! ## The code -/

/-- The variables of the loop of `swlib_vrealpath`. -/
structure Vrealpath where
  count : Int := 0
  numcomponents : Nat := 0
  compcount : Nat := 0
  resolvedPath : Bytes := []

/-- The resolved path without what stands behind its last slash, when that slash
is not its first byte. -/
def cutLastSlash (path : Bytes) : Option Bytes :=
  let dir := (path.reverse.dropWhile (· != slash)).drop 1
  if dir = [] then none else some dir.reverse

/-- The resolved path after `..`. -/
def resolvedUp (isAbsolutePath : Bool) (count : Int) (path : Bytes) : Bytes :=
  match cutLastSlash path with
  | some dir => dir
  | none => if count ≤ 0 then if isAbsolutePath then [slash] else [] else path

/-- The resolved path after a name. -/
def resolvedAdd (isAbsolutePath : Bool) (compcount : Nat) (path s : Bytes) : Bytes :=
  if (isAbsolutePath = true ∨ compcount ≠ 0) ∧ path ≠ [] ∧ path.getLast? ≠ some slash then
    path ++ slash :: s
  else path ++ s

/-- The body of the loop. -/
def vrealpathStep (isAbsolutePath : Bool) (v : Vrealpath) (s : Bytes) : Vrealpath :=
  let relative := fun path => if isAbsolutePath then path else swlibSquashLeadingSlash path
  if s = dotDot then
    { v with
      count := v.count - 1
      numcomponents := v.numcomponents + 1
      resolvedPath := relative (resolvedUp isAbsolutePath (v.count - 1) v.resolvedPath) }
  else if s = [dot] then
    { v with numcomponents := v.numcomponents + 1, resolvedPath := relative v.resolvedPath }
  else
    { v with
      count := v.count + 1
      numcomponents := v.numcomponents + 1
      compcount := v.compcount + 1
      resolvedPath := relative (resolvedAdd isAbsolutePath v.compcount v.resolvedPath s) }

/-- The path that is resolved. -/
def vrealpathText (vpwd ppath : Bytes) : Bytes :=
  if vpwd = [] then ppath
  else if vpwd.getLast? = some slash then vpwd ++ ppath
  else vpwd ++ slash :: ppath

/-- `swlib_vrealpath`: the number of components is returned, the depth is `count`. -/
def swlibVrealpath (vpwd ppath : Bytes) : Vrealpath :=
  let isAbsolutePath := (if vpwd = [] then ppath else vpwd).head? == some slash
  (components (swlibSlashclean (vrealpathText vpwd ppath))).foldl (vrealpathStep isAbsolutePath) {}

/-! ## Walking a path -/

/-- From the directory `pos` along the components, `none` when a `..` leaves the root. -/
def walk : List Bytes → List Bytes → Option (List Bytes)
  | pos, [] => some pos
  | pos, c :: cs =>
      if c = [dot] then walk pos cs
      else if c = dotDot then
        match pos with
        | [] => none
        | _ :: up => walk up cs
      else walk (c :: pos) cs

/-- No prefix of the path leaves the root. -/
def StaysInRoot (path : Bytes) : Prop := (walk [] (components path)).isSome = true

/-- How many components go up. -/
def dotDots (cs : List Bytes) : Nat := cs.countP fun c => c = dotDot

/-- How many components go down. -/
def names (cs : List Bytes) : Nat := cs.countP fun c => c ≠ dotDot ∧ c ≠ [dot]

/-- Before every `..` there are more names than `..`. -/
def Balanced (cs : List Bytes) : Prop :=
  ∀ before after, cs = before ++ dotDot :: after → dotDots before < names before

theorem counts_dotDot (cs : List Bytes) :
    dotDots (dotDot :: cs) = dotDots cs + 1 ∧ names (dotDot :: cs) = names cs := by
  simp [dotDots, names]

theorem counts_dot (cs : List Bytes) :
    dotDots ([dot] :: cs) = dotDots cs ∧ names ([dot] :: cs) = names cs := by
  have hne : [dot] ≠ dotDot := by decide
  simp [dotDots, names, hne]

theorem counts_name {c : Bytes} (hd : c ≠ [dot]) (hdd : c ≠ dotDot) (cs : List Bytes) :
    dotDots (c :: cs) = dotDots cs ∧ names (c :: cs) = names cs + 1 := by
  simp [dotDots, names, hd, hdd]

/-! ## The depth -/

theorem foldl_vrealpathStep_count (isAbsolutePath : Bool) (cs : List Bytes) (v : Vrealpath) :
    (cs.foldl (vrealpathStep isAbsolutePath) v).count = v.count + names cs - dotDots cs := by
  induction cs generalizing v with
  | nil => simp [names, dotDots]
  | cons c cs ih =>
      rw [List.foldl_cons, ih]
      by_cases hdd : c = dotDot
      · have hstep : (vrealpathStep isAbsolutePath v c).count = v.count - 1 := by
          simp [vrealpathStep, hdd]
        have hcounts := counts_dotDot cs
        rw [hdd] at hstep ⊢
        omega
      · by_cases hd : c = [dot]
        · have hstep : (vrealpathStep isAbsolutePath v c).count = v.count := by
            simp [vrealpathStep, hd]
            rfl
          have hcounts := counts_dot cs
          rw [hd] at hstep ⊢
          omega
        · have hstep : (vrealpathStep isAbsolutePath v c).count = v.count + 1 := by
            simp [vrealpathStep, hdd, hd]
          have hcounts := counts_name hd hdd cs
          omega

/-- The depth of a path counts its names and its `..`. -/
theorem swlibVrealpath_count (ppath : Bytes) :
    (swlibVrealpath [] ppath).count = names (components ppath) - dotDots (components ppath) := by
  simp only [swlibVrealpath, vrealpathText, if_true, foldl_vrealpathStep_count, Int.zero_add]
  rcases components_swlibSlashclean ppath with h | h
  · rw [h]
  · rw [h]
    rfl

/-! ## Staying in the root -/

/-- The places where a component stands in a list. -/
theorem forall_split_cons {P : List Bytes → Prop} {c d : Bytes} {cs : List Bytes} :
    (∀ before after, c :: cs = before ++ d :: after → P before) ↔
      (c = d → P []) ∧ ∀ before after, cs = before ++ d :: after → P (c :: before) := by
  constructor
  · intro h
    refine ⟨fun hc => h [] cs (by rw [hc]; rfl), fun before after heq => ?_⟩
    exact h (c :: before) after (by rw [heq]; rfl)
  · rintro ⟨hnil, hcons⟩ before after heq
    cases before with
    | nil => exact hnil (List.cons.inj heq).1
    | cons b before =>
        obtain ⟨rfl, htail⟩ := List.cons.inj heq
        exact hcons before after htail

/-- A walk stays in the root exactly when every `..` has more names than `..`
before it, with those of the directory where it starts. -/
theorem walk_isSome (cs pos : List Bytes) :
    (walk pos cs).isSome = true ↔
      ∀ before after, cs = before ++ dotDot :: after → dotDots before < names before + pos.length := by
  induction cs generalizing pos with
  | nil => simp [walk]
  | cons c cs ih =>
      rw [forall_split_cons, walk.eq_def]
      dsimp only
      by_cases hd : c = [dot]
      · have hne : [dot] ≠ dotDot := by decide
        rw [if_pos hd, ih]
        subst hd
        simp [counts_dot, hne]
      · rw [if_neg hd]
        by_cases hdd : c = dotDot
        · rw [if_pos hdd]
          subst hdd
          cases pos with
          | nil => simp [dotDots, names]
          | cons p up =>
              dsimp only
              rw [ih, List.length_cons]
              refine Iff.trans ?_ (and_iff_right fun _ => Nat.lt_add_left _ (Nat.succ_pos _)).symm
              refine forall_congr' fun before => forall_congr' fun after => imp_congr_right fun _ => ?_
              have hcounts := counts_dotDot before
              omega
        · rw [if_neg hdd, ih, List.length_cons]
          refine Iff.trans ?_ (and_iff_right fun he => absurd he hdd).symm
          refine forall_congr' fun before => forall_congr' fun after => imp_congr_right fun _ => ?_
          have hcounts := counts_name hd hdd before
          omega

theorem staysInRoot_iff (path : Bytes) : StaysInRoot path ↔ Balanced (components path) := by
  rw [StaysInRoot, walk_isSome]
  rfl

end Swbis.Misc
