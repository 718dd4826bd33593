import Mathlib.Data.List.Infix
import Swbis.Misc.Resolve
import Swbis.Misc.Slashclean

/-!
# Changing the virtual directory

`construct_new_path_from_pathspec` makes the new virtual directory of the old one
and a path.  It splits both into components and counts the `..` of the path,
wherever they stand.  So many components it takes off the end of the directory, and
so many off the front of the path.

For an absolute directory the first component is to be `/`, but it is a copy of the
directory, made before it is cut after its first character.  The directory stands in
the new path twice.

`constructsPath_iff` says when the new path is the one that the path leads to.
-/

namespace Swbis.Misc

open CLib

/-! ## The code -/

/-- `"//"` -/
def doubleSlash : Bytes := [slash, slash]

/-- `process_vcwd` -/
def processVcwd (source : Bytes) : List Bytes :=
  if source.take 2 = doubleSlash then source :: components (source.drop 2) else components source

/-- What `construct_new_path_from_pathspec` returns, and the new path. -/
structure NewPath where
  ret : Int
  newvcwd : Bytes
deriving DecidableEq

/-- `sx`: an absolute directory has one more slash. -/
def vcwdSource (vcwd : Bytes) : Bytes := if IsAbsolute vcwd then slash :: vcwd else vcwd

/-- The components of the path. -/
def pathspecComponents (pathspec : Bytes) : List Bytes :=
  processVcwd (swlibSquashAllDotSlash pathspec)

/-- `construct_new_path_from_pathspec`, in the virtual directory `vcwd`. -/
def constructNewPathFromPathspec (vcwd pathspec : Bytes) : NewPath :=
  if IsAbsolute pathspec then
    if dotDot <:+: pathspec ∨ [dot, slash] <:+: pathspec then ⟨-1, []⟩ else ⟨0, pathspec⟩
  else
    let pathcomps := processVcwd (vcwdSource vcwd)
    let cmdcomps := pathspecComponents pathspec
    let j := dotDots cmdcomps
    let ncomp : Int := pathcomps.length - j
    if ncomp ≤ 0 then ⟨-1, []⟩
    else
      ⟨0, List.intercalate [slash] (pathcomps.take ncomp.toNat) ++
        slash :: List.intercalate [slash] (cmdcomps.drop j)⟩

/-! ## Where a path leads -/

/-- The components below the root component, which is `/` or the first one. -/
def belowRoot (path : Bytes) : List Bytes :=
  if IsAbsolute path then components path else (components path).tail

/-- The directory that a path is, below its root component, the last component first.
A relative path that leaves its first component is none.  From `/` nothing goes up. -/
def hereBelowRoot (path : Bytes) : Option (List Bytes) :=
  if IsAbsolute path then some (lexicalStack true (components path))
  else if components path = [] then none
  else walk [] (components path).tail

/-- Where a path leads from the virtual directory, unless it leaves the root component. -/
def leadsTo (vcwd pathspec : Bytes) : Option (List Bytes) :=
  (hereBelowRoot vcwd).bind fun here => walk here (components pathspec)

/-- The new path has the root component of the directory, and is the one that is led to. -/
structure NewPathDenotes (vcwd newvcwd : Bytes) (there : List Bytes) : Prop where
  isAbsolute_iff : IsAbsolute newvcwd ↔ IsAbsolute vcwd
  root_eq : ¬IsAbsolute vcwd → (components newvcwd).head? = (components vcwd).head?
  here_eq : hereBelowRoot newvcwd = some there

/-- A path is resolved from the directory, component by component. -/
def ConstructsPath (vcwd pathspec : Bytes) : Prop :=
  let new := constructNewPathFromPathspec vcwd pathspec
  (new.ret = 0 ↔ (leadsTo vcwd pathspec).isSome = true) ∧
    ∀ there, new.ret = 0 → leadsTo vcwd pathspec = some there →
      NewPathDenotes vcwd new.newvcwd there

/-! ## When it does -/

/-- The directory has a component for each `..` of the path, besides the root one. -/
def HasAsMany (vcwd pathspec : Bytes) : Prop :=
  (IsAbsolute vcwd ∨ components vcwd ≠ []) ∧
    dotDots (pathspecComponents pathspec) ≤ (belowRoot vcwd).length

instance (vcwd pathspec : Bytes) : Decidable (HasAsMany vcwd pathspec) :=
  inferInstanceAs (Decidable (_ ∧ _))

/-- The components of the directory without as many at its end as the path has `..`, and
those of the path without as many at its front. -/
def cancelled (vcwd pathspec : Bytes) : List Bytes :=
  let j := dotDots (pathspecComponents pathspec)
  (belowRoot vcwd).take ((belowRoot vcwd).length - j) ++
    ((pathspecComponents pathspec).drop j).flatMap components

/-- Where the cancelled components lead, behind the directory as a whole if it is
absolute. -/
def cancelledLeadsTo (vcwd pathspec : Bytes) : Option (List Bytes) :=
  if IsAbsolute vcwd then
    some (lexicalStack true (belowRoot vcwd ++ cancelled vcwd pathspec))
  else walk [] (cancelled vcwd pathspec)

/-- The path leaves the root if it has more `..` than the directory has components, and if
it has not, the cancelled components lead to where it leads. -/
def CancelsRight (vcwd pathspec : Bytes) : Prop :=
  (HasAsMany vcwd pathspec ↔ (leadsTo vcwd pathspec).isSome = true) ∧
    (HasAsMany vcwd pathspec → cancelledLeadsTo vcwd pathspec = leadsTo vcwd pathspec)

/-! ## The two lists of components -/

variable {vcwd pathspec : Bytes}

theorem components_intercalate (ts : List Bytes) :
    components (List.intercalate [slash] ts) = ts.flatMap components := by
  induction ts with
  | nil => rfl
  | cons t ts ih =>
      rw [List.flatMap_cons, ← ih]
      by_cases hnil : ts = []
      · rw [hnil, List.intercalate_singleton]
        exact (List.append_nil _).symm
      · rw [List.intercalate_cons_of_ne_nil hnil, List.append_assoc, List.singleton_append,
          components_append]

/-- Components are split no further. -/
theorem flatMap_components {cs : List Bytes} (h : ∀ c ∈ cs, c ≠ [] ∧ slash ∉ c) :
    cs.flatMap components = cs := by
  induction cs with
  | nil => rfl
  | cons c cs ih =>
      obtain ⟨hne, hc⟩ := h c List.mem_cons_self
      rw [List.flatMap_cons, components_self hne hc, ih fun d hd => h d (List.mem_cons_of_mem _ hd)]
      rfl

theorem flatMap_take_components (path : Bytes) (n : Nat) :
    ((components path).take n).flatMap components = (components path).take n :=
  flatMap_components fun _ hc => mem_components (List.mem_of_mem_take hc)

theorem processVcwd_relative (h : ¬IsAbsolute vcwd) :
    processVcwd (vcwdSource vcwd) = components vcwd := by
  rw [vcwdSource, if_neg h, processVcwd, if_neg]
  intro htake
  refine h ?_
  rw [IsAbsolute, ← List.take_append_drop 2 vcwd, htake]
  rfl

/-- The first component of an absolute directory is all of it. -/
theorem processVcwd_absolute (h : IsAbsolute vcwd) :
    processVcwd (vcwdSource vcwd) = (slash :: vcwd) :: components vcwd := by
  obtain ⟨v, rfl⟩ := List.head?_eq_some_iff.mp h
  have htake : (slash :: slash :: v).take 2 = doubleSlash := rfl
  rw [vcwdSource, if_pos h, processVcwd, if_pos htake, components_slash]
  rfl

/-- The number of components that are kept is positive if the directory has as many as the
path has `..`. -/
theorem hasAsMany_iff :
    HasAsMany vcwd pathspec ↔
      dotDots (pathspecComponents pathspec) < (processVcwd (vcwdSource vcwd)).length := by
  rw [HasAsMany, belowRoot]
  by_cases habs : IsAbsolute vcwd
  · rw [if_pos habs, processVcwd_absolute habs, List.length_cons]
    simp only [habs, true_or, true_and]
    omega
  · rw [if_neg habs, processVcwd_relative habs, List.length_tail]
    cases hcs : components vcwd with
    | nil => simp [habs]
    | cons c cs =>
        rw [List.length_cons]
        simp only [habs, false_or, ne_eq, reduceCtorEq, not_false_eq_true, true_and]
        omega

/-! ## The new path -/

/-- The components of the new path are those of the directory, but for an absolute one, and
the cancelled ones. -/
theorem components_newvcwd (pathspec : Bytes) {n : Nat} (hn : n < (processVcwd (vcwdSource vcwd)).length)
    (hj : n + dotDots (pathspecComponents pathspec) + 1 = (processVcwd (vcwdSource vcwd)).length) :
    components (List.intercalate [slash] ((processVcwd (vcwdSource vcwd)).take (n + 1)) ++
        slash :: List.intercalate [slash] ((pathspecComponents pathspec).drop
          (dotDots (pathspecComponents pathspec)))) =
      (if IsAbsolute vcwd then components vcwd else (components vcwd).take 1) ++
        cancelled vcwd pathspec := by
  rw [components_append, components_intercalate, components_intercalate, cancelled, belowRoot]
  by_cases habs : IsAbsolute vcwd
  · rw [processVcwd_absolute habs, List.length_cons] at hj
    have hlen : (components vcwd).length - dotDots (pathspecComponents pathspec) = n := by omega
    rw [processVcwd_absolute habs, if_pos habs, if_pos habs, List.take_succ_cons, List.flatMap_cons,
      components_slash, flatMap_take_components, hlen, List.append_assoc]
  · rw [processVcwd_relative habs] at hj hn ⊢
    rw [if_neg habs, if_neg habs, flatMap_take_components]
    cases hcs : components vcwd with
    | nil =>
        rw [hcs] at hn
        exact absurd hn (Nat.not_lt_zero n)
    | cons c cs =>
        rw [hcs, List.length_cons] at hj
        have hlen : cs.length - dotDots (pathspecComponents pathspec) = n := by omega
        rw [List.tail_cons, hlen, List.take_succ_cons, List.take_succ_cons, List.take_zero]
        rfl

/-- The text of components begins with the first one. -/
theorem isAbsolute_intercalate {c : Bytes} (hc : c ≠ []) (ts : List Bytes) (rest : Bytes) :
    IsAbsolute (List.intercalate [slash] (c :: ts) ++ rest) ↔ IsAbsolute c := by
  by_cases hnil : ts = []
  · rw [hnil, List.intercalate_singleton]
    exact isAbsolute_append hc rest
  · rw [List.intercalate_cons_of_ne_nil hnil, List.append_assoc, List.append_assoc]
    exact isAbsolute_append hc _

theorem isAbsolute_newvcwd {n : Nat} (hn : n < (processVcwd (vcwdSource vcwd)).length) (rest : Bytes) :
    IsAbsolute (List.intercalate [slash] ((processVcwd (vcwdSource vcwd)).take (n + 1)) ++ rest) ↔
      IsAbsolute vcwd := by
  by_cases habs : IsAbsolute vcwd
  · rw [processVcwd_absolute habs, List.take_succ_cons, isAbsolute_intercalate (List.cons_ne_nil _ _)]
    exact iff_of_true rfl habs
  · rw [processVcwd_relative habs] at hn ⊢
    cases hcs : components vcwd with
    | nil =>
        rw [hcs] at hn
        exact absurd hn (Nat.not_lt_zero n)
    | cons c cs =>
        have hmem : c ∈ components vcwd := by
          rw [hcs]
          exact List.mem_cons_self
        obtain ⟨hne, hc⟩ := mem_components hmem
        rw [List.take_succ_cons, isAbsolute_intercalate hne]
        refine iff_of_false (fun h => hc ?_) habs
        exact List.mem_of_mem_head? (Option.mem_def.mpr h)

/-- The new path is where the cancelled components lead. -/
theorem newPath_eq (hrel : ¬IsAbsolute pathspec) (h : HasAsMany vcwd pathspec) :
    (constructNewPathFromPathspec vcwd pathspec).ret = 0 ∧
      ∀ there, NewPathDenotes vcwd (constructNewPathFromPathspec vcwd pathspec).newvcwd there ↔
        cancelledLeadsTo vcwd pathspec = some there := by
  have hlt := hasAsMany_iff.mp h
  obtain ⟨n, hn⟩ := Nat.exists_eq_add_of_lt hlt
  have hncomp : ((processVcwd (vcwdSource vcwd)).length : Int) -
      dotDots (pathspecComponents pathspec) = ((n + 1 : Nat) : Int) := by omega
  have hpos : ¬((n + 1 : Nat) : Int) ≤ 0 := by omega
  have hkept : n < (processVcwd (vcwdSource vcwd)).length := by omega
  have hcs := components_newvcwd pathspec hkept (by omega)
  have habs := isAbsolute_newvcwd hkept (slash :: List.intercalate [slash]
    ((pathspecComponents pathspec).drop (dotDots (pathspecComponents pathspec))))
  rw [constructNewPathFromPathspec, if_neg hrel]
  simp only [hncomp, if_neg hpos, Int.toNat_natCast, true_and]
  intro there
  generalize List.intercalate [slash] ((processVcwd (vcwdSource vcwd)).take (n + 1)) ++
    slash :: List.intercalate [slash] ((pathspecComponents pathspec).drop
      (dotDots (pathspecComponents pathspec))) = new at hcs habs ⊢
  by_cases hvcwd : IsAbsolute vcwd
  · have hhere : hereBelowRoot new = cancelledLeadsTo vcwd pathspec := by
      rw [hereBelowRoot, cancelledLeadsTo, belowRoot, if_pos (habs.mpr hvcwd), if_pos hvcwd,
        if_pos hvcwd, hcs, if_pos hvcwd]
    rw [← hhere]
    exact ⟨fun h => h.here_eq, fun h => ⟨habs, fun hno => absurd hvcwd hno, h⟩⟩
  · have hnew : ¬IsAbsolute new := mt habs.mp hvcwd
    obtain ⟨c, cs, hvcs⟩ := List.exists_cons_of_ne_nil (h.1.resolve_left hvcwd)
    rw [if_neg hvcwd, hvcs] at hcs
    change components new = c :: cancelled vcwd pathspec at hcs
    have hhere : hereBelowRoot new = cancelledLeadsTo vcwd pathspec := by
      rw [hereBelowRoot, cancelledLeadsTo, if_neg hnew, if_neg hvcwd, hcs, if_neg (List.cons_ne_nil _ _)]
      rfl
    rw [← hhere]
    refine ⟨fun h => h.here_eq, fun h => ⟨habs, fun _ => ?_, h⟩⟩
    rw [hcs, hvcs]
    rfl

theorem newPath_none (hrel : ¬IsAbsolute pathspec) (h : ¬HasAsMany vcwd pathspec) :
    (constructNewPathFromPathspec vcwd pathspec).ret = -1 := by
  rw [hasAsMany_iff, Nat.not_lt] at h
  have hneg : ((processVcwd (vcwdSource vcwd)).length : Int) -
      dotDots (pathspecComponents pathspec) ≤ 0 := by omega
  rw [constructNewPathFromPathspec, if_neg hrel]
  simp only [if_pos hneg]

/-- A relative path is resolved when its `..` cancel right. -/
theorem constructsPath_iff_cancels (hrel : ¬IsAbsolute pathspec) :
    ConstructsPath vcwd pathspec ↔ CancelsRight vcwd pathspec := by
  by_cases h : HasAsMany vcwd pathspec
  · obtain ⟨hret, hnew⟩ := newPath_eq hrel h
    rw [ConstructsPath, CancelsRight]
    simp only [hret, hnew, h, true_iff, forall_const]
    refine and_congr_right fun hsome => ?_
    obtain ⟨there, hthere⟩ := Option.isSome_iff_exists.mp hsome
    rw [hthere]
    exact ⟨fun h => h there rfl, fun h other hother => h.trans hother⟩
  · have hret := newPath_none hrel h
    rw [ConstructsPath, CancelsRight]
    simp only [hret, h, false_iff, false_implies, and_true]
    exact ⟨fun hc => fun hsome => absurd (hc.1.mpr hsome) (by decide), fun hnone =>
      ⟨iff_of_false (by decide) hnone, fun _ h0 => absurd h0 (by decide)⟩⟩

/-! ## Walking -/

theorem walk_append (pos as bs : List Bytes) :
    walk pos (as ++ bs) = (walk pos as).bind fun here => walk here bs := by
  induction as generalizing pos with
  | nil => rfl
  | cons c as ih =>
      rw [List.cons_append, walk.eq_def, walk.eq_def pos (c :: as)]
      dsimp only
      by_cases hd : c = [dot]
      · rw [if_pos hd, if_pos hd, ih]
      · rw [if_neg hd, if_neg hd]
        by_cases hdd : c = dotDot
        · rw [if_pos hdd, if_pos hdd]
          cases pos with
          | nil => rfl
          | cons top up => exact ih up
        · rw [if_neg hdd, if_neg hdd, ih]

/-- The components `.` lead nowhere. -/
theorem walk_filter_dot (pos cs : List Bytes) :
    walk pos (cs.filter fun c => c ≠ [dot]) = walk pos cs := by
  induction cs generalizing pos with
  | nil => rfl
  | cons c cs ih =>
      by_cases hd : c = [dot]
      · rw [List.filter_cons_of_neg (by simp [hd]), ih, walk.eq_def pos (c :: cs)]
        dsimp only
        rw [if_pos hd]
      · rw [List.filter_cons_of_pos (by simp [hd]), walk.eq_def, walk.eq_def pos (c :: cs)]
        dsimp only
        rw [if_neg hd, if_neg hd]
        by_cases hdd : c = dotDot
        · rw [if_pos hdd, if_pos hdd]
          cases pos with
          | nil => rfl
          | cons top up => exact ih up
        · rw [if_neg hdd, if_neg hdd, ih]

/-- Names are walked down. -/
theorem walk_names {cs : List Bytes} (h : ∀ c ∈ cs, c ≠ [dot] ∧ c ≠ dotDot) (pos : List Bytes) :
    walk pos cs = some (cs.reverse ++ pos) := by
  induction cs generalizing pos with
  | nil => rfl
  | cons c cs ih =>
      obtain ⟨hd, hdd⟩ := h c List.mem_cons_self
      rw [walk.eq_def]
      dsimp only
      rw [if_neg hd, if_neg hdd, ih fun e he => h e (List.mem_cons_of_mem _ he), List.reverse_cons,
        List.append_assoc]
      rfl

/-- The components `..` are walked up. -/
theorem walk_dotDots (j : Nat) (pos : List Bytes) :
    walk pos (List.replicate j dotDot) = if j ≤ pos.length then some (pos.drop j) else none := by
  induction j generalizing pos with
  | zero => rw [if_pos (Nat.zero_le _)]; rfl
  | succ j ih =>
      rw [List.replicate_succ, walk.eq_def]
      dsimp only
      rw [if_neg (by decide), if_pos rfl]
      cases pos with
      | nil => exact (if_neg (Nat.not_succ_le_zero j)).symm
      | cons top up =>
          dsimp only
          rw [ih, List.length_cons, List.drop_succ_cons]
          simp only [Nat.add_le_add_iff_right]

/-- Without `..` nothing leaves the root. -/
theorem walk_isSome_of_not_mem {cs : List Bytes} (h : dotDot ∉ cs) (pos : List Bytes) :
    (walk pos cs).isSome = true := by
  rw [walk_isSome]
  rintro before after rfl
  exact absurd (List.mem_append_right _ List.mem_cons_self) h

/-- How deep a walk ends. -/
theorem walk_length {cs pos there : List Bytes} (h : walk pos cs = some there) :
    there.length + dotDots cs = pos.length + names cs := by
  induction cs generalizing pos with
  | nil =>
      cases h
      rfl
  | cons c cs ih =>
      rw [walk.eq_def] at h
      dsimp only at h
      by_cases hd : c = [dot]
      · rw [if_pos hd] at h
        have hrest := ih h
        have hcounts := counts_dot cs
        rw [hd]
        omega
      · rw [if_neg hd] at h
        by_cases hdd : c = dotDot
        · rw [if_pos hdd] at h
          have hcounts := counts_dotDot cs
          cases pos with
          | nil => cases h
          | cons top up =>
              have hrest := ih h
              rw [hdd, List.length_cons]
              omega
        · rw [if_neg hdd] at h
          have hrest := ih h
          have hcounts := counts_name hd hdd cs
          rw [List.length_cons] at hrest
          omega

theorem lexicalStack_eq_walk {cs : List Bytes} (h : dotDot ∉ cs) (pos : List Bytes) :
    walk pos cs = some (cs.foldl (lexicalStep true) pos) := by
  induction cs generalizing pos with
  | nil => rfl
  | cons c cs ih =>
      have hdd : c ≠ dotDot := fun he => h (he ▸ List.mem_cons_self)
      have hrest := fun pos => ih (fun hm => h (List.mem_cons_of_mem _ hm)) pos
      rw [walk.eq_def, List.foldl_cons]
      dsimp only
      by_cases hd : c = [dot]
      · rw [if_pos hd, hrest, hd, lexicalStep_dot]
      · rw [if_neg hd, if_neg hdd, hrest, lexicalStep_name hd hdd]

/-- A walk that stays in the root resolves the components. -/
theorem foldl_of_walk {cs pos there : List Bytes} (hpos : dotDot ∉ pos)
    (h : walk pos cs = some there) : cs.foldl (lexicalStep true) pos = there := by
  induction cs generalizing pos with
  | nil => exact Option.some.inj h
  | cons c cs ih =>
      rw [walk.eq_def] at h
      dsimp only at h
      rw [List.foldl_cons]
      by_cases hd : c = [dot]
      · rw [if_pos hd] at h
        rw [hd, lexicalStep_dot]
        exact ih hpos h
      · rw [if_neg hd] at h
        by_cases hdd : c = dotDot
        · rw [if_pos hdd] at h
          cases pos with
          | nil => cases h
          | cons top up =>
              have htop : top ≠ dotDot := fun he => hpos (he ▸ List.mem_cons_self)
              have hstep : lexicalStep true (top :: up) c = up := by
                rw [lexicalStep.eq_def, if_neg hd, if_pos hdd]
                exact if_neg htop
              rw [hstep]
              exact ih (fun hm => hpos (List.mem_cons_of_mem _ hm)) h
        · rw [if_neg hdd] at h
          rw [lexicalStep_name hd hdd]
          refine ih (fun hm => ?_) h
          rcases List.mem_cons.mp hm with heq | hm
          · exact hdd heq.symm
          · exact hpos hm

/-- How many components in front of it a path leaves. -/
def climb : List Bytes → Nat
  | [] => 0
  | c :: cs => if c = [dot] then climb cs else if c = dotDot then climb cs + 1 else climb cs - 1

/-- What a path goes down to below the last component that it leaves, the last one first. -/
def goesDown : List Bytes → List Bytes
  | [] => []
  | c :: cs =>
      if c = [dot] ∨ c = dotDot ∨ climb cs ≠ 0 then goesDown cs else goesDown cs ++ [c]

theorem climb_le_dotDots (cs : List Bytes) : climb cs ≤ dotDots cs := by
  induction cs with
  | nil => exact Nat.le_refl 0
  | cons c cs ih =>
      rw [climb]
      by_cases hd : c = [dot]
      · rw [if_pos hd, hd, (counts_dot cs).1]
        exact ih
      · rw [if_neg hd]
        by_cases hdd : c = dotDot
        · rw [if_pos hdd, hdd, (counts_dotDot cs).1]
          exact Nat.succ_le_succ ih
        · rw [if_neg hdd, (counts_name hd hdd cs).1]
          omega

/-- A path goes up as far as it climbs, and down from there. -/
theorem walk_eq (pos cs : List Bytes) :
    walk pos cs =
      if climb cs ≤ pos.length then some (goesDown cs ++ pos.drop (climb cs)) else none := by
  induction cs generalizing pos with
  | nil => exact (if_pos (Nat.zero_le _)).symm
  | cons c cs ih =>
      rw [walk.eq_def, climb]
      dsimp only
      by_cases hd : c = [dot]
      · have hgoes : goesDown (c :: cs) = goesDown cs := if_pos (.inl hd)
        rw [if_pos hd, if_pos hd, hgoes, ih]
      · rw [if_neg hd, if_neg hd]
        by_cases hdd : c = dotDot
        · have hgoes : goesDown (c :: cs) = goesDown cs := if_pos (.inr (.inl hdd))
          rw [if_pos hdd, if_pos hdd, hgoes]
          cases pos with
          | nil => exact (if_neg (Nat.not_succ_le_zero _)).symm
          | cons top up =>
              dsimp only
              rw [ih, List.length_cons, List.drop_succ_cons]
              simp only [Nat.add_le_add_iff_right]
        · rw [if_neg hdd, if_neg hdd, ih, List.length_cons]
          rcases Nat.eq_zero_or_pos (climb cs) with hclimb | hclimb
          · -- nothing behind the name leaves it
            have hgoes : goesDown (c :: cs) = goesDown cs ++ [c] :=
              if_neg fun h => h.elim hd fun h => h.elim hdd fun h => h hclimb
            rw [hgoes, hclimb, if_pos (Nat.zero_le _), if_pos (Nat.zero_le _), List.append_assoc]
            rfl
          · have hgoes : goesDown (c :: cs) = goesDown cs := if_pos (.inr (.inr hclimb.ne'))
            obtain ⟨n, hn⟩ := Nat.exists_eq_succ_of_ne_zero hclimb.ne'
            rw [hgoes, hn, List.drop_succ_cons, Nat.succ_sub_one]
            simp only [Nat.succ_eq_add_one, Nat.add_le_add_iff_right]

/-! ## Directories without `.` and `..` -/

/-- The directory has no `.` and no `..` below its root component, and the path does not
begin with two slashes once its `./` are squashed. -/
structure PlainChange (vcwd pathspec : Bytes) : Prop where
  root : IsAbsolute vcwd ∨ components vcwd ≠ []
  plain : ∀ c ∈ belowRoot vcwd, c ≠ [dot] ∧ c ≠ dotDot
  slashes : (swlibSquashAllDotSlash pathspec).take 2 ≠ doubleSlash

/-- The directory is relative, or it is `/`. -/
def TopIfAbsolute (vcwd : Bytes) : Prop := IsAbsolute vcwd → belowRoot vcwd = []

/-- All `..` come before the other components. -/
def DotDotsFirst (cs : List Bytes) : Prop := dotDot ∉ cs.drop (dotDots cs)

/-- The components of the path that are not cancelled. -/
def behindCancelled (pathspec : Bytes) : List Bytes :=
  (pathspecComponents pathspec).drop (dotDots (pathspecComponents pathspec))

/-- Where the others lead, the last component first. -/
def firstLeadTo (vcwd pathspec : Bytes) : List Bytes :=
  let first := (pathspecComponents pathspec).take (dotDots (pathspecComponents pathspec))
  goesDown first ++ (belowRoot vcwd).reverse.drop (climb first)

/-- The directory and behind it its own components but for those that are cancelled, the last
one first. -/
def directoryTwice (vcwd pathspec : Bytes) : List Bytes :=
  let n := (belowRoot vcwd).length - dotDots (pathspecComponents pathspec)
  ((belowRoot vcwd).take n).reverse ++ (belowRoot vcwd).reverse

/-- The two are the same, but for the last components that the rest of the path leaves. -/
def AgreesAbove (vcwd pathspec : Bytes) : Prop :=
  (firstLeadTo vcwd pathspec).drop (climb (behindCancelled pathspec)) =
    (directoryTwice vcwd pathspec).drop (climb (behindCancelled pathspec))

theorem PlainChange.components_eq (h : PlainChange vcwd pathspec) :
    pathspecComponents pathspec = components (swlibSquashAllDotSlash pathspec) := by
  rw [pathspecComponents, processVcwd, if_neg h.slashes]

/-- Without `..` a stack is walked, and no component of it is dropped. -/
theorem PlainChange.here_eq (h : PlainChange vcwd pathspec) :
    hereBelowRoot vcwd = some (belowRoot vcwd).reverse := by
  have hplain := h.plain
  rw [hereBelowRoot]
  by_cases habs : IsAbsolute vcwd
  · rw [belowRoot, if_pos habs] at hplain ⊢
    have hno : dotDot ∉ components vcwd := fun hmem => (hplain _ hmem).2 rfl
    rw [if_pos habs, lexicalStack, ← lexicalStack_eq_walk hno, walk_names hplain, List.append_nil]
  · rw [belowRoot, if_neg habs] at hplain ⊢
    rw [if_neg habs, if_neg (h.root.resolve_left habs), walk_names hplain, List.append_nil]

/-- Squashing the `./` does not change where a path leads. -/
theorem walk_pathspecComponents (pos : List Bytes) (h : PlainChange vcwd pathspec) :
    walk pos (components pathspec) = walk pos (pathspecComponents pathspec) := by
  have hord : ordinary (swlibSquashAllDotSlash pathspec) = ordinary pathspec := by
    rw [swlibSquashAllDotSlash, ordinary_squashEmbeddedLoop, ordinary_squashLeadingDotSlash]
  rw [h.components_eq, ← walk_filter_dot pos (components pathspec),
    ← walk_filter_dot pos (components (swlibSquashAllDotSlash pathspec))]
  exact congrArg (walk pos) hord.symm

theorem PlainChange.leadsTo_eq (h : PlainChange vcwd pathspec) :
    leadsTo vcwd pathspec = walk (belowRoot vcwd).reverse (pathspecComponents pathspec) := by
  rw [leadsTo, h.here_eq, Option.bind_some, walk_pathspecComponents _ h]

theorem PlainChange.cancelled_eq (h : PlainChange vcwd pathspec) :
    cancelled vcwd pathspec =
      (belowRoot vcwd).take ((belowRoot vcwd).length - dotDots (pathspecComponents pathspec)) ++
        (pathspecComponents pathspec).drop (dotDots (pathspecComponents pathspec)) := by
  have hcs : ∀ c ∈ (pathspecComponents pathspec).drop (dotDots (pathspecComponents pathspec)),
      c ≠ [] ∧ slash ∉ c := by
    rw [h.components_eq]
    exact fun c hc => mem_components (List.mem_of_mem_drop hc)
  rw [cancelled]
  simp only [flatMap_components hcs]

/-- From `/` a path that may go up by none has no `..`. -/
theorem PlainChange.cancelledLeadsTo_eq (h : PlainChange vcwd pathspec) (htop : TopIfAbsolute vcwd)
    (hmany : HasAsMany vcwd pathspec) :
    cancelledLeadsTo vcwd pathspec = walk [] (cancelled vcwd pathspec) := by
  rw [cancelledLeadsTo]
  split
  next habs =>
    have hzero : dotDots (pathspecComponents pathspec) = 0 := by
      have hle := hmany.2
      rw [htop habs] at hle
      exact Nat.le_zero.mp hle
    have hno : dotDot ∉ cancelled vcwd pathspec := by
      rw [h.cancelled_eq, htop habs, hzero, List.drop_zero]
      intro hmem
      have hcount := List.countP_eq_zero.mp hzero dotDot hmem
      exact hcount (by simp)
    rw [lexicalStack_eq_walk hno, htop habs]
    rfl
  next => rfl

theorem PlainChange.hasAsMany_iff_le (h : PlainChange vcwd pathspec) :
    HasAsMany vcwd pathspec ↔ dotDots (pathspecComponents pathspec) ≤ (belowRoot vcwd).length :=
  and_iff_right h.root

theorem dotDots_append (as bs : List Bytes) : dotDots (as ++ bs) = dotDots as + dotDots bs :=
  List.countP_append

/-- Where all `..` come first, the components that are dropped are they. -/
theorem DotDotsFirst.eq {cs : List Bytes} (h : DotDotsFirst cs) :
    cs = List.replicate (dotDots cs) dotDot ++ cs.drop (dotDots cs) := by
  have hzero : dotDots (cs.drop (dotDots cs)) = 0 :=
    List.countP_eq_zero.mpr fun c hc hdd => h (by
      rw [← of_decide_eq_true hdd]
      exact hc)
  have hcount : dotDots (cs.take (dotDots cs)) = dotDots cs := by
    have hsplit := dotDots_append (cs.take (dotDots cs)) (cs.drop (dotDots cs))
    rw [List.take_append_drop, hzero] at hsplit
    exact hsplit.symm
  have hlen : (cs.take (dotDots cs)).length = dotDots cs := by
    refine Nat.le_antisymm (List.length_take_le _ _) ?_
    conv_lhs => rw [← hcount]
    exact List.countP_le_length
  have hall : cs.take (dotDots cs) = List.replicate (dotDots cs) dotDot := by
    refine List.eq_replicate_iff.mpr ⟨hlen, fun c hc => ?_⟩
    have hboth := List.countP_eq_length.mp (hcount.trans hlen.symm) c hc
    exact of_decide_eq_true hboth
  conv_lhs => rw [← List.take_append_drop (dotDots cs) cs, hall]

/-- Where all `..` come first they go up from the end of the directory. -/
theorem PlainChange.leadsTo_first (h : PlainChange vcwd pathspec)
    (hfirst : DotDotsFirst (pathspecComponents pathspec)) :
    leadsTo vcwd pathspec =
      if HasAsMany vcwd pathspec then walk [] (cancelled vcwd pathspec) else none := by
  have hplain := h.plain
  rw [h.leadsTo_eq, h.cancelled_eq]
  conv_lhs => rw [hfirst.eq]
  rw [walk_append, walk_dotDots, walk_append, List.length_reverse,
    walk_names fun c hc => hplain c (List.mem_of_mem_take hc), List.append_nil]
  by_cases hle : dotDots (pathspecComponents pathspec) ≤ (belowRoot vcwd).length
  · rw [if_pos hle, if_pos (h.hasAsMany_iff_le.mpr hle), Option.bind_some, Option.bind_some,
      List.drop_reverse]
  · rw [if_neg hle, if_neg (mt h.hasAsMany_iff_le.mp hle)]
    rfl

/-- Where the cancelled components lead where the path leads, all `..` come first. -/
theorem PlainChange.dotDotsFirst (h : PlainChange vcwd pathspec) (htop : TopIfAbsolute vcwd)
    (hmany : HasAsMany vcwd pathspec) {there : List Bytes}
    (hthere : leadsTo vcwd pathspec = some there)
    (hcancelled : cancelledLeadsTo vcwd pathspec = some there) :
    DotDotsFirst (pathspecComponents pathspec) := by
  have hle := h.hasAsMany_iff_le.mp hmany
  rw [h.leadsTo_eq] at hthere
  rw [h.cancelledLeadsTo_eq htop hmany, h.cancelled_eq, walk_append,
    walk_names fun c hc => h.plain c (List.mem_of_mem_take hc), List.append_nil,
    Option.bind_some] at hcancelled
  have hdeep := walk_length hthere
  have hdeep' := walk_length hcancelled
  rw [List.length_reverse] at hdeep hdeep'
  rw [List.length_take_of_le (Nat.sub_le _ _)] at hdeep'
  -- nothing that goes up is left behind, or the two would not be as deep
  have hnames : names ((pathspecComponents pathspec).drop (dotDots (pathspecComponents pathspec))) ≤
      names (pathspecComponents pathspec) := (List.drop_sublist _ _).countP_le
  have hzero : dotDots ((pathspecComponents pathspec).drop
      (dotDots (pathspecComponents pathspec))) = 0 := by omega
  intro hmem
  exact List.countP_eq_zero.mp hzero dotDot hmem (by simp)

/-- What the directory keeps and what the path keeps have no `..` where they come first. -/
theorem PlainChange.dotDot_not_mem_cancelled (h : PlainChange vcwd pathspec)
    (hfirst : DotDotsFirst (pathspecComponents pathspec)) : dotDot ∉ cancelled vcwd pathspec := by
  rw [h.cancelled_eq]
  intro hmem
  rcases List.mem_append.mp hmem with hmem | hmem
  · exact (h.plain _ (List.mem_of_mem_take hmem)).2 rfl
  · exact hfirst hmem

theorem cancelsRight_of_not_hasAsMany (hmany : ¬HasAsMany vcwd pathspec)
    (hnone : leadsTo vcwd pathspec = none) : CancelsRight vcwd pathspec := by
  refine ⟨iff_of_false hmany ?_, fun hm => absurd hm hmany⟩
  rw [hnone]
  exact Bool.false_ne_true

/-- In a relative directory or in `/` the `..` cancel right if they come first, or if the
path leaves the root and has more of them than the directory has components. -/
theorem PlainChange.cancelsRight_iff (h : PlainChange vcwd pathspec) (htop : TopIfAbsolute vcwd) :
    CancelsRight vcwd pathspec ↔
      DotDotsFirst (pathspecComponents pathspec) ∨
        ¬HasAsMany vcwd pathspec ∧ leadsTo vcwd pathspec = none := by
  constructor
  · rintro ⟨hstays, hleads⟩
    by_cases hmany : HasAsMany vcwd pathspec
    · obtain ⟨there, hthere⟩ := Option.isSome_iff_exists.mp (hstays.mp hmany)
      exact .inl (h.dotDotsFirst htop hmany hthere ((hleads hmany).trans hthere))
    · exact .inr ⟨hmany, Option.not_isSome_iff_eq_none.mp (mt hstays.mpr hmany)⟩
  · rintro (hfirst | ⟨hmany, hnone⟩)
    · have hleads := h.leadsTo_first hfirst
      by_cases hmany : HasAsMany vcwd pathspec
      · rw [if_pos hmany] at hleads
        refine ⟨iff_of_true hmany ?_, fun _ =>
          (h.cancelledLeadsTo_eq htop hmany).trans hleads.symm⟩
        rw [hleads]
        exact walk_isSome_of_not_mem (h.dotDot_not_mem_cancelled hfirst) []
      · rw [if_neg hmany] at hleads
        exact cancelsRight_of_not_hasAsMany hmany hleads
    · exact cancelsRight_of_not_hasAsMany hmany hnone

/-- Below `/` they never do where they come first, but for paths that leave the root: the
directory stands in the new path twice. -/
theorem PlainChange.cancelsRight_absolute_iff (h : PlainChange vcwd pathspec)
    (hdeep : ¬TopIfAbsolute vcwd) (hfirst : DotDotsFirst (pathspecComponents pathspec)) :
    CancelsRight vcwd pathspec ↔ ¬HasAsMany vcwd pathspec := by
  obtain ⟨habs, hbelow⟩ := Classical.not_imp.mp hdeep
  have hleads := h.leadsTo_first hfirst
  constructor
  · intro hcancels hmany
    have hno := h.dotDot_not_mem_cancelled hfirst
    have hno' : dotDot ∉ belowRoot vcwd ++ cancelled vcwd pathspec := by
      intro hmem
      rcases List.mem_append.mp hmem with hmem | hmem
      · exact (h.plain _ hmem).2 rfl
      · exact hno hmem
    have htwice := hcancels.2 hmany
    rw [hleads, if_pos hmany, cancelledLeadsTo, if_pos habs, lexicalStack,
      ← lexicalStack_eq_walk hno', walk_append, walk_names h.plain, Option.bind_some] at htwice
    obtain ⟨there, hthere⟩ := Option.isSome_iff_exists.mp (walk_isSome_of_not_mem hno [])
    have hdeep := walk_length hthere
    have hdeep' := walk_length (htwice.trans hthere)
    rw [List.append_nil, List.length_reverse] at hdeep'
    have hpos := List.length_pos_iff.mpr hbelow
    rw [List.length_nil] at hdeep
    omega
  · intro hmany
    rw [if_neg hmany] at hleads
    exact cancelsRight_of_not_hasAsMany hmany hleads

/-- A path that has no more `..` than the directory has components stays in the root, and
its first components lead somewhere, from where the rest goes on. -/
theorem PlainChange.leadsTo_agrees (h : PlainChange vcwd pathspec)
    (hmany : HasAsMany vcwd pathspec) :
    leadsTo vcwd pathspec = some (goesDown (behindCancelled pathspec) ++
      (firstLeadTo vcwd pathspec).drop (climb (behindCancelled pathspec))) := by
  have hle := h.hasAsMany_iff_le.mp hmany
  have hclimb := climb_le_dotDots (pathspecComponents pathspec)
  have hfront : climb ((pathspecComponents pathspec).take (dotDots (pathspecComponents pathspec))) ≤
      (belowRoot vcwd).reverse.length := by
    have hle' := climb_le_dotDots
      ((pathspecComponents pathspec).take (dotDots (pathspecComponents pathspec)))
    have hsub : dotDots ((pathspecComponents pathspec).take
        (dotDots (pathspecComponents pathspec))) ≤ dotDots (pathspecComponents pathspec) :=
      (List.take_sublist _ _).countP_le
    rw [List.length_reverse]
    omega
  have hsome : (walk (belowRoot vcwd).reverse (pathspecComponents pathspec)).isSome = true := by
    rw [walk_eq, if_pos (by rw [List.length_reverse]; omega)]
    rfl
  have hsplit := walk_append (belowRoot vcwd).reverse
    ((pathspecComponents pathspec).take (dotDots (pathspecComponents pathspec)))
    (behindCancelled pathspec)
  rw [behindCancelled, List.take_append_drop, walk_eq _ (List.take _ _), if_pos hfront,
    Option.bind_some] at hsplit
  change _ = walk (firstLeadTo vcwd pathspec) (behindCancelled pathspec) at hsplit
  rw [hsplit, walk_eq] at hsome
  rw [h.leadsTo_eq, hsplit, walk_eq]
  split at hsome
  next hin => rw [if_pos hin]
  next => cases hsome

/-- In an absolute directory the cancelled components go on behind the directory and its
own first components. -/
theorem PlainChange.cancelledLeadsTo_agrees (h : PlainChange vcwd pathspec)
    (habs : IsAbsolute vcwd) (hmany : HasAsMany vcwd pathspec) :
    cancelledLeadsTo vcwd pathspec = some (goesDown (behindCancelled pathspec) ++
      (directoryTwice vcwd pathspec).drop (climb (behindCancelled pathspec))) := by
  have hle := h.hasAsMany_iff_le.mp hmany
  have hplain := h.plain
  have hclimb := climb_le_dotDots (behindCancelled pathspec)
  have hsub : dotDots (behindCancelled pathspec) ≤ dotDots (pathspecComponents pathspec) :=
    (List.drop_sublist _ _).countP_le
  have hwalk : walk [] (belowRoot vcwd ++ cancelled vcwd pathspec) =
      some (goesDown (behindCancelled pathspec) ++
        (directoryTwice vcwd pathspec).drop (climb (behindCancelled pathspec))) := by
    rw [h.cancelled_eq, walk_append, walk_names hplain, Option.bind_some, walk_append,
      walk_names fun c hc => hplain c (List.mem_of_mem_take hc), Option.bind_some, List.append_nil]
    change walk (directoryTwice vcwd pathspec) (behindCancelled pathspec) = _
    rw [walk_eq, if_pos]
    rw [directoryTwice, List.length_append, List.length_reverse, List.length_reverse]
    omega
  rw [cancelledLeadsTo, if_pos habs, lexicalStack, foldl_of_walk List.not_mem_nil hwalk]

/-- In an absolute directory the `..` cancel right where what the first components of the
path lead to and the directory followed by its own agree on what the rest does not leave. -/
theorem PlainChange.cancelsRight_absolute (h : PlainChange vcwd pathspec)
    (habs : IsAbsolute vcwd) :
    CancelsRight vcwd pathspec ↔
      if HasAsMany vcwd pathspec then AgreesAbove vcwd pathspec
      else leadsTo vcwd pathspec = none := by
  split
  next hmany =>
    rw [CancelsRight, h.leadsTo_agrees hmany, h.cancelledLeadsTo_agrees habs hmany,
      Option.some.injEq, List.append_cancel_left_eq, AgreesAbove]
    simp only [hmany, Option.isSome_some, iff_self, true_and, true_imp_iff]
    exact eq_comm
  next hmany =>
    constructor
    · rintro ⟨hstays, -⟩
      exact Option.not_isSome_iff_eq_none.mp (mt hstays.mpr hmany)
    · exact cancelsRight_of_not_hasAsMany hmany

/-- A relative path is resolved when its `..` cancel right.  In a directory without `.` and
`..` that is relative or `/`, this is when they come first, or when the path leaves the
root and has more of them than the directory has components.  In one below `/`, and where
they come first, only a path that leaves the root is resolved; and wherever they come, the
path leaves the root, or the first components lead to what stands in the new path, but for
what the rest leaves of both. -/
theorem constructsPath_iff (vcwd pathspec : Bytes) (hrel : ¬IsAbsolute pathspec) :
    (ConstructsPath vcwd pathspec ↔ CancelsRight vcwd pathspec) ∧
      (PlainChange vcwd pathspec →
        (TopIfAbsolute vcwd →
          (CancelsRight vcwd pathspec ↔
            DotDotsFirst (pathspecComponents pathspec) ∨
              ¬HasAsMany vcwd pathspec ∧ leadsTo vcwd pathspec = none)) ∧
        (¬TopIfAbsolute vcwd → DotDotsFirst (pathspecComponents pathspec) →
          (CancelsRight vcwd pathspec ↔ ¬HasAsMany vcwd pathspec)) ∧
        (IsAbsolute vcwd →
          (CancelsRight vcwd pathspec ↔
            if HasAsMany vcwd pathspec then AgreesAbove vcwd pathspec
            else leadsTo vcwd pathspec = none))) :=
  ⟨constructsPath_iff_cancels hrel, fun h =>
    ⟨h.cancelsRight_iff, h.cancelsRight_absolute_iff, h.cancelsRight_absolute⟩⟩

/-- In `/a/b` the path `x/../..` is resolved: the rest of it leaves what is too much. -/
example : AgreesAbove (literal "/a/b") (literal "x/../..") := by
  unfold AgreesAbove
  decide +kernel

/-- `../b` in `pkg/a` -/
theorem constructsPath_up : ConstructsPath (literal "pkg/a") (literal "../b") := by
  have hiff := constructsPath_iff (literal "pkg/a") (literal "../b") (by decide)
  refine hiff.1.mpr (((hiff.2 ?_).1 ?_).mpr (.inl ?_))
  · exact ⟨.inr (by decide), by decide +kernel, by decide +kernel⟩
  · exact fun habs => absurd habs (by decide)
  · rw [DotDotsFirst]
    decide +kernel

/-- In `/a/b` the path `c` leads to `//a/b/a/b/c`. -/
theorem constructsPath_below_root : ¬ConstructsPath (literal "/a/b") (literal "c") := by
  intro h
  have hnew : constructNewPathFromPathspec (literal "/a/b") (literal "c") =
      ⟨0, literal "//a/b/a/b/c"⟩ := by decide +kernel
  have hthere : leadsTo (literal "/a/b") (literal "c") =
      some [literal "c", literal "b", literal "a"] := by decide +kernel
  rw [ConstructsPath, hnew] at h
  have hhere := (h.2 _ rfl hthere).here_eq
  exact absurd hhere (by decide +kernel)

end Swbis.Misc
