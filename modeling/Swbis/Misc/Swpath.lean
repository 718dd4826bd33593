import Swbis.Lib.Search
import Swbis.Misc.Slash

/-!
# The parts of a package path

The paths of a package come in order: the leading directories, the exported
catalog, and then the files in storage.  `swpath_parse_path` takes one path after
the other and says which of these it is, and what its control directories are.
What it says depends on the paths before: the *prepath*, the part in front of
`catalog`, is found in the first path that holds the text `catalog`.

A string is given by its bytes.
-/

namespace Swbis.Misc

open CLib

/-! ## The state -/

/-- `SW_A_catalog` -/
def swACatalog : Bytes := chars ['c', 'a', 't', 'a', 'l', 'o', 'g']

/-- `"INDEX"` -/
def indexName : Bytes := chars ['I', 'N', 'D', 'E', 'X']

/-- `SWPATH_PARSE_CA` -/
def swpathParseCa : Nat := 22

/-- `SWPATH_DEGEN_N` -/
def swpathDegenN : Nat := 4

/-- `SWPATH` -/
structure Swpath where
  /-- `swpath_is_catalog_`: 1 in the catalog, 0 in storage, -1 in a leading directory. -/
  isCatalog : Int := 0
  error : Nat := 0
  controlPathNominalDepth : Nat := 0
  maxRelN : Nat := 0
  productControlDir : Bytes := []
  filesetControlDir : Bytes := []
  pfiles : Bytes := []
  dfiles : Bytes := []
  swpackagePathname : Bytes := []
  pathname : Bytes := []
  basename : Bytes := []
  pfilesDefault : Bytes := chars ['p', 'f', 'i', 'l', 'e', 's']
  dfilesDefault : Bytes := chars ['d', 'f', 'i', 'l', 'e', 's']
  prepath : Bytes := []
  /-- `swpath_p_prepath_` is not null.  It points to `prepath_`. -/
  pPrepath : Bool := false
  /-- `swpath_p_dfiles_` -/
  pDfiles : Option Bytes := none
  /-- `swpath_p_pfiles_` -/
  pPfiles : Option Bytes := none
  /-- `swpath_p_fileset_dir_` is not null. -/
  pFilesetDir : Bool := false
  isMinimalLayout : Bool := false
  dfilesGuard : Nat := 0
  catalogGuard : Nat := 0
deriving DecidableEq

namespace Swpath

/-! ## Setting parts of the state -/

/-- `check_error` -/
def checkError (swpath : Swpath) (ret : Int) : Int :=
  if 1 < swpath.dfilesGuard ∨ 1 < swpath.catalogGuard ∨ swpath.error ≠ 0 then -1 else ret

/-- `set_control_depth` -/
def setControlDepth (swpath : Swpath) (nd : Nat) : Swpath :=
  if swpath.isCatalog = 0 then swpath
  else if swpath.controlPathNominalDepth < nd then { swpath with controlPathNominalDepth := nd }
  else swpath

/-- The depth for a control directory `s`, and what it is set to. -/
def controlDir (swpath : Swpath) (nd : Nat) (s : Bytes) : Swpath × Bytes :=
  let swpath := if s ≠ [] then swpath.setControlDepth nd else swpath
  (swpath, if swpath.isCatalog = 0 ∧ swpath.controlPathNominalDepth = 0 then [] else s)

/-- `swpath_set_product_control_dir` -/
def setProductControlDir (swpath : Swpath) (s : Bytes) : Swpath :=
  let r := swpath.controlDir 2 s
  { r.1 with productControlDir := r.2 }

/-- `swpath_set_fileset_control_dir` -/
def setFilesetControlDir (swpath : Swpath) (s : Bytes) : Swpath :=
  let r := swpath.controlDir 1 s
  { r.1 with filesetControlDir := r.2 }

/-- `set_p_pfiles` -/
def setPPfiles (swpath : Swpath) (name : Option Bytes) : Swpath :=
  if swpath.pPfiles = none ∧ name ≠ none then { swpath with pPfiles := name } else swpath

/-- `set_p_dfiles` -/
def setPDfiles (swpath : Swpath) (name : Bytes) : Swpath :=
  if swpath.pDfiles = none then { swpath with pDfiles := some name } else swpath

/-- `set_p_fileset_dir` -/
def setPFilesetDir (swpath : Swpath) : Option Bytes → Swpath
  | none => { swpath.setFilesetControlDir [] with pFilesetDir := false }
  | some name => { swpath.setFilesetControlDir name with pFilesetDir := true }

/-- `set_v_dfiles` -/
def setVDfiles (swpath : Swpath) (s : Bytes) : Swpath :=
  { swpath with
    dfiles := s
    dfilesGuard := if swpath.dfiles = [] ∧ s ≠ [] then swpath.dfilesGuard + 1 else swpath.dfilesGuard }

/-- `set_v_pfiles` -/
def setVPfiles (swpath : Swpath) (s : Bytes) : Swpath := { swpath with pfiles := s }

/-- `is_in_pfiles` -/
def isInPfiles (swpath : Swpath) (ca1 ca2 : Bytes) : Nat :=
  if swpath.pPfiles = some ca1 then 2
  else if swpath.pPfiles = some ca2 then 3
  else if ca1 = swpath.pfiles ∨ ca1 = swpath.pfilesDefault then 2
  else if ca2 = swpath.pfiles ∨ ca2 = swpath.pfilesDefault then 3
  else if swpath.pDfiles ≠ none ∧ swpath.pPfiles = none ∧ swpath.pFilesetDir = false then 3
  else 0

/-- `set_max_rel_n` -/
def setMaxRelN (swpath : Swpath) (n : Nat) : Swpath :=
  if swpath.maxRelN < n then { swpath with maxRelN := n } else swpath

/-- `set_is_catalog` -/
def setIsCatalog (swpath : Swpath) (n : Int) : Swpath :=
  let error := if swpath.isCatalog = -1 ∧ n = 0 then 2 else swpath.error
  let error := if swpath.isCatalog = 1 ∧ n = -1 then 2 else error
  let catalogGuard :=
    if swpath.isCatalog ≠ 1 ∧ n = 1 then swpath.catalogGuard + 1 else swpath.catalogGuard
  { swpath with
    isCatalog := n
    error := if 1 < catalogGuard then 2 else error
    catalogGuard := catalogGuard }

/-- `swpath_set_is_minimal_layout` -/
def setIsMinimalLayout (swpath : Swpath) : Swpath := { swpath with isMinimalLayout := true }

/-- `swpath__set__basename` -/
def setBasename (swpath : Swpath) (pathname : Bytes) : Swpath :=
  { swpath with basename := (pathname.reverse.takeWhile (· != slash)).reverse }

/-- `swpath__slashclean` -/
def slashclean (path : Bytes) : Bytes :=
  let p := swlibSquashLeadingDotSlash (swlibSquashDoubleSlash path)
  swlibSquashTrailingSlash (if 1 < p.length then swlibSquashLeadingSlash p else p)

/-- `swpath_resolve_prepath` for a state without a prepath.  Nothing looks at its
return value. -/
def resolvePrepath (swpath : Swpath) (name : Bytes) : Swpath :=
  match findSub swACatalog name with
  | none =>
      if hasPrepath name then
        { swpath with prepath := swpath.prepath ++ name.drop swpath.prepath.length }
      else { swpath with prepath := [] }
  | some len =>
      if swpath.prepath = [] then { swpath with prepath := name.take (len - 1), pPrepath := true }
      else { swpath with prepath := swpath.prepath.take len, pPrepath := true }
where
  /-- `strstr (name, prepath)` is not null. -/
  hasPrepath (name : Bytes) : Bool := (findSub swpath.prepath name).isSome

/-! ## The components behind the prepath

Each function gives the state, the return value, and `compy`, the first component
of the name of the file. -/

/-- The control directories of a path in storage; `keep` says whether the
fileset directory is kept in `swpath_p_fileset_dir_`. -/
def storageDirs (swpath : Swpath) (ca0 ca1 : Bytes) (keep : Bool) : Swpath × Int × Nat :=
  if swpathDegenN ≤ swpath.maxRelN then
    let swpath := (swpath.setProductControlDir ca0).setFilesetControlDir ca1
    (if keep then swpath.setPFilesetDir (some ca1) else swpath, 2, 2)
  else (swpath, 0, 0)

/-- One component. -/
def parseOne (swpath : Swpath) (ca0 : Bytes) : Swpath × Int × Nat :=
  if ca0 = swACatalog then ((swpath.setMaxRelN 1).setIsCatalog 1, 0, 1)
  else
    let swpath := ((swpath.setVDfiles []).setVPfiles []).setIsCatalog 0
    if swpathDegenN ≤ swpath.maxRelN then (swpath.setProductControlDir ca0, 1, 1)
    else (swpath, 0, 0)

/-- The second of two components, in the catalog. -/
def parseTwoCatalog (swpath : Swpath) (ca1 : Bytes) : Swpath × Int × Nat :=
  if swpath.pDfiles = some ca1 ∨ (swpath.pDfiles = none ∧ ca1 ≠ indexName) then
    ((swpath.setVDfiles ca1).setPDfiles ca1, 0, 2)
  else if swpath.productControlDir = [] ∧ swpath.pPfiles = none ∧ ca1 = swpath.pfilesDefault then
    (((swpath.setIsMinimalLayout.setVPfiles ca1).setPPfiles (some ca1)).setVDfiles [], 0, 2)
  else if ca1 = swpath.pfilesDefault then
    ((((swpath.setVPfiles swpath.pfilesDefault).setPPfiles
      (some swpath.pfilesDefault)).setIsMinimalLayout).setVDfiles [], 0, 2)
  else if swpath.pDfiles ≠ none ∧ ca1 ≠ indexName ∧ swpath.pDfiles ≠ some ca1 then
    let swpath := (((swpath.setVDfiles []).setVPfiles []).setPFilesetDir none).setPPfiles none
    if swpath.isMinimalLayout then (swpath, 1, 1) else (swpath.setProductControlDir ca1, 1, 2)
  else if ca1 = indexName then (swpath, 0, 1)
  else (swpath, 0, 2)

/-- Two components. -/
def parseTwo (swpath : Swpath) (ca0 ca1 : Bytes) : Swpath × Int × Nat :=
  if ca0 = swACatalog then ((swpath.setMaxRelN 2).setIsCatalog 1).parseTwoCatalog ca1
  else (((swpath.setVDfiles []).setVPfiles []).setIsCatalog 0).storageDirs ca0 ca1 true

/-- Three components in the catalog and not in `dfiles`: in `pfiles`. -/
def parseThreePfiles (swpath : Swpath) (pfilesIndex : Nat) (ca2 : Bytes) : Swpath :=
  let swpath := if pfilesIndex = 2 then swpath.setProductControlDir [] else swpath
  let swpath := swpath.setPFilesetDir none
  let swpath :=
    if swpath.pfiles ≠ [] then swpath.setVPfiles swpath.pfiles
    else (swpath.setPPfiles (some ca2)).setVPfiles ca2
  let swpath := swpath.setVDfiles []
  swpath.setPPfiles (some swpath.pfiles)

/-- Three components in the catalog and not in `dfiles`. -/
def parseThreeNotDfiles (swpath : Swpath) (ca1 ca2 : Bytes) : Swpath × Int × Nat :=
  let swpath :=
    if swpath.productControlDir ≠ ca1 then (swpath.setPFilesetDir none).setPPfiles none else swpath
  let pfilesIndex := swpath.isInPfiles ca1 ca2
  let swpath :=
    if swpath.pPfiles = none ∧ ca1 ≠ swpath.pfilesDefault then
      (swpath.setVDfiles []).setProductControlDir ca1
    else if swpath.pPfiles = none ∧ ca1 = swpath.pfilesDefault then
      ((swpath.setVDfiles []).setVPfiles ca1).setPPfiles (some ca1)
    else (swpath.setVDfiles []).setProductControlDir ca1
  if pfilesIndex ≠ 0 then (swpath.parseThreePfiles pfilesIndex ca2, 1, pfilesIndex)
  else if ca2 ≠ swpath.pfiles then
    (((swpath.setVPfiles []).setFilesetControlDir ca2).setPFilesetDir (some ca2), 2, 3)
  else (swpath, 1, 2)

/-- Three components. -/
def parseThree (swpath : Swpath) (ca0 ca1 ca2 : Bytes) : Swpath × Int × Nat :=
  if ca0 = swACatalog then
    let swpath := (swpath.setMaxRelN 3).setIsCatalog 1
    if swpath.pDfiles ≠ none ∧ swpath.pDfiles ≠ some ca1 then swpath.parseThreeNotDfiles ca1 ca2
    else ((swpath.setVDfiles ca1).setPDfiles ca1, 0, 2)
  else (((swpath.setIsCatalog 0).setVPfiles []).setVDfiles []).storageDirs ca0 ca1 true

/-- More than three components in the catalog and not in `dfiles`. -/
def parseMoreNotDfiles (swpath : Swpath) (ca1 ca2 : Bytes) : Swpath × Int × Nat :=
  let swpath := swpath.setProductControlDir ca1
  if ca2 ≠ swpath.pfilesDefault ∧ ca2 ≠ swpath.pfiles then
    ((((swpath.setFilesetControlDir ca2).setVPfiles []).setVDfiles []).setPFilesetDir (some ca2), 2, 3)
  else
    -- `ca2` is the default or `pfiles`, so the second test of the source holds.
    let swpath :=
      if swpath.pfiles ≠ [] then swpath.setVPfiles swpath.pfiles
      else swpath.setVPfiles swpath.pfilesDefault
    ((swpath.setPPfiles (some swpath.pfiles)).setVDfiles [], 1, 3)

/-- More than three components, `n` of them. -/
def parseMore (swpath : Swpath) (n : Nat) (ca0 ca1 ca2 : Bytes) : Swpath × Int × Nat :=
  if ca0 = swACatalog then
    let swpath := (swpath.setMaxRelN n).setIsCatalog 1
    if ca1 ≠ swpath.dfilesDefault then swpath.parseMoreNotDfiles ca1 ca2 else (swpath, 0, 2)
  else (swpath.setIsCatalog 0).storageDirs ca0 ca1 false

/-- The components behind the prepath; there is at least one. -/
def parseComponents (swpath : Swpath) : List Bytes → Swpath × Int × Nat
  | [] => (swpath, 0, 0)
  | [ca0] => swpath.parseOne ca0
  | [ca0, ca1] => swpath.parseTwo ca0 ca1
  | [ca0, ca1, ca2] => swpath.parseThree ca0 ca1 ca2
  | ca0 :: ca1 :: ca2 :: ca => swpath.parseMore (ca.length + 3) ca0 ca1 ca2

/-! ## One path -/

/-- The pieces between slashes, empty ones too. -/
def splitSlash : Bytes → List Bytes
  | [] => [[]]
  | c :: s =>
      if c = slash then [] :: splitSlash s
      else ((c :: (splitSlash s).headD []) :: (splitSlash s).tail)

/-- The components from one on, with their slashes. -/
def joinSlash : List Bytes → Bytes
  | [] => []
  | [c] => c
  | c :: cs => c ++ slash :: joinSlash cs

/-- The name as `swpath_resolve_prepath` gets it. -/
def prepathName (name : Bytes) : Bytes :=
  swlibSquashLeadingSlash (swlibSquashLeadingDotSlash (swlibSquashTrailingSlash name))

/-- The prepath stands in front of a slash at the start of the name. -/
def hasPrefix (prepath name : Bytes) : Bool :=
  findSub prepath name == some 0 && name[prepath.length]? == some slash

/-- What stands behind the prepath. -/
def behindPrepath (prepath name : Bytes) : Bytes :=
  let s := name.drop prepath.length
  if s.head? = some slash then s.drop 1 else s

/-- The name of the file: the components from `compy` on.  Nothing if there are none. -/
def setPath (swpath : Swpath) (ca : List Bytes) (compy : Nat) : Swpath :=
  if compy < ca.length then
    { swpath with pathname := joinSlash (ca.drop compy) }.setBasename (joinSlash (ca.drop compy))
  else swpath

/-- The rest of `swpath_parse_path` once the prepath is known. -/
def parseBehind (swpath : Swpath) (name : Bytes) : Option (Swpath × Int) :=
  let ca := splitSlash (behindPrepath swpath.prepath (slashclean name))
  -- With as many slashes the program ends: `exit(87)`.
  if swpathParseCa ≤ ca.length then none
  else
    let r := swpath.parseComponents ca
    let swpath := r.1
    -- The degenerate form.
    let compy := if swpath.controlPathNominalDepth = 0 ∧ swpath.isCatalog = 0 then 0 else r.2.2
    let swpath := swpath.setPath ca compy
    some (swpath, swpath.checkError r.2.1)

/-- The state at the start of `swpath_parse_path`. -/
def startPath (swpath : Swpath) (name : Bytes) : Swpath :=
  let swpath := { swpath with swpackagePathname := name }
  let swpath := (swpath.setProductControlDir []).setFilesetControlDir []
  let swpath := { swpath with pathname := [], basename := [] }
  if swpath.pPrepath then swpath else swpath.resolvePrepath (prepathName name)

/-- `swpath_parse_path`: the state and the return value, nothing if the program ends. -/
def swpathParsePath (swpath : Swpath) (name : Bytes) : Option (Swpath × Int) :=
  let swpath := swpath.startPath name
  if swpath.pPrepath = false then
    let swpath := { swpath with isCatalog := -1 }
    some (swpath, swpath.checkError 0)
  else if swpath.prepath ≠ [] ∧ hasPrefix swpath.prepath (prepathName name) = false then
    some ({ swpath with isCatalog := -1, error := 1 }, -1)
  else { swpath with prepath := slashclean swpath.prepath }.parseBehind name

/-- `swpath_open` with an empty path. -/
def swpathOpen : Swpath := {}

/-- Paths fed one after the other, none of them rejected: the locations reported
and the state. -/
def parseAll (swpath : Swpath) : List Bytes → Option (List Int × Swpath)
  | [] => some ([], swpath)
  | name :: names =>
      match swpath.swpathParsePath name with
      | none => none
      | some (swpath, ret) =>
          if ret < 0 then none
          else (parseAll swpath names).map fun r => (swpath.isCatalog :: r.1, r.2)

/-! ## What decides the location

The location depends on a small part of the state.  The control directories do
not change it. -/

/-- The part of the state that decides the location. -/
structure Position where
  isCatalog : Int
  error : Nat
  catalogGuard : Nat
  prepath : Bytes
  pPrepath : Bool

/-- The position of a state. -/
def position (swpath : Swpath) : Position :=
  ⟨swpath.isCatalog, swpath.error, swpath.catalogGuard, swpath.prepath, swpath.pPrepath⟩

/-- A state at a position. -/
def Position.toSwpath (p : Position) : Swpath where
  isCatalog := p.isCatalog
  error := p.error
  catalogGuard := p.catalogGuard
  prepath := p.prepath
  pPrepath := p.pPrepath

/-- `set_is_catalog` on a position. -/
def Position.enter (p : Position) (n : Int) : Position := (p.toSwpath.setIsCatalog n).position

section

variable (swpath : Swpath)

@[simp] theorem position_setIsCatalog (n : Int) :
    (swpath.setIsCatalog n).position = swpath.position.enter n := rfl

@[simp] theorem position_setControlDepth (nd : Nat) :
    (swpath.setControlDepth nd).position = swpath.position := by
  rw [setControlDepth]
  split
  next => rfl
  next =>
    split <;> rfl

@[simp] theorem position_controlDir (nd : Nat) (s : Bytes) :
    (swpath.controlDir nd s).1.position = swpath.position := by
  simp only [controlDir]
  split
  next => exact position_setControlDepth swpath nd
  next => rfl

@[simp] theorem position_setProductControlDir (s : Bytes) :
    (swpath.setProductControlDir s).position = swpath.position :=
  position_controlDir swpath 2 s

@[simp] theorem position_setFilesetControlDir (s : Bytes) :
    (swpath.setFilesetControlDir s).position = swpath.position :=
  position_controlDir swpath 1 s

@[simp] theorem position_setPPfiles (name : Option Bytes) :
    (swpath.setPPfiles name).position = swpath.position := by
  rw [setPPfiles]
  split <;> rfl

@[simp] theorem position_setPDfiles (name : Bytes) :
    (swpath.setPDfiles name).position = swpath.position := by
  rw [setPDfiles]
  split <;> rfl

@[simp] theorem position_setPFilesetDir (name : Option Bytes) :
    (swpath.setPFilesetDir name).position = swpath.position := by
  cases name with
  | none => exact position_setFilesetControlDir swpath []
  | some name => exact position_setFilesetControlDir swpath name

@[simp] theorem position_setVDfiles (s : Bytes) :
    (swpath.setVDfiles s).position = swpath.position := rfl

@[simp] theorem position_setVPfiles (s : Bytes) :
    (swpath.setVPfiles s).position = swpath.position := rfl

@[simp] theorem position_setMaxRelN (n : Nat) :
    (swpath.setMaxRelN n).position = swpath.position := by
  rw [setMaxRelN]
  split <;> rfl

@[simp] theorem position_setIsMinimalLayout :
    swpath.setIsMinimalLayout.position = swpath.position := rfl

@[simp] theorem position_setBasename (pathname : Bytes) :
    (swpath.setBasename pathname).position = swpath.position := rfl

@[simp] theorem position_setPath (ca : List Bytes) (compy : Nat) :
    (swpath.setPath ca compy).position = swpath.position := by
  rw [setPath]
  split <;> rfl

@[simp] theorem position_storageDirs (ca0 ca1 : Bytes) (keep : Bool) :
    (swpath.storageDirs ca0 ca1 keep).1.position = swpath.position := by
  rw [storageDirs]
  split
  next => cases keep <;> simp
  next => rfl

@[simp] theorem position_parseTwoCatalog (ca1 : Bytes) :
    (swpath.parseTwoCatalog ca1).1.position = swpath.position := by
  simp only [parseTwoCatalog]
  repeat' split
  all_goals simp

@[simp] theorem position_parseThreePfiles (pfilesIndex : Nat) (ca2 : Bytes) :
    (swpath.parseThreePfiles pfilesIndex ca2).position = swpath.position := by
  simp only [parseThreePfiles]
  repeat' split
  all_goals simp

@[simp] theorem position_parseThreeNotDfiles (ca1 ca2 : Bytes) :
    (swpath.parseThreeNotDfiles ca1 ca2).1.position = swpath.position := by
  simp only [parseThreeNotDfiles]
  repeat' split
  all_goals simp

@[simp] theorem position_parseMoreNotDfiles (ca1 ca2 : Bytes) :
    (swpath.parseMoreNotDfiles ca1 ca2).1.position = swpath.position := by
  simp only [parseMoreNotDfiles]
  repeat' split
  all_goals simp

/-- The first component behind the prepath decides. -/
theorem position_parseComponents (ca0 : Bytes) (ca : List Bytes) :
    (swpath.parseComponents (ca0 :: ca)).1.position =
      swpath.position.enter (if ca0 = swACatalog then 1 else 0) := by
  rcases ca with _ | ⟨ca1, _ | ⟨ca2, _ | ⟨ca3, ca⟩⟩⟩
  · simp only [parseComponents, parseOne]
    split
    next => simp
    next =>
      split <;> simp
  · simp only [parseComponents, parseTwo]
    split <;> simp
  · simp only [parseComponents, parseThree]
    split
    next =>
      split <;> simp
    next => simp
  · simp only [parseComponents, parseMore]
    split
    next =>
      split <;> simp
    next => simp

end

/-! ## Cleaned paths -/

theorem noDouble_slashclean (path : Bytes) : ¬[slash, slash] <:+: slashclean path := by
  intro h
  refine noDouble_squashDoubleSlash path ?_
  rw [slashclean] at h
  have hdot := (squashLeadingDotSlash_suffix (swlibSquashDoubleSlash path)).isInfix
  refine (h.trans (squashTrailingSlash_initial _).isInfix).trans ?_
  split
  next => exact (squashLeadingSlash_suffix _).isInfix.trans hdot
  next => exact hdot

theorem mem_components_of_slashclean {path c : Bytes} (h : c ∈ components (slashclean path)) :
    c ∈ components path := by
  have hlead : components (slashclean path) =
      components (swlibSquashLeadingDotSlash (swlibSquashDoubleSlash path)) := by
    rw [slashclean, components_squashTrailingSlash]
    split
    next => exact components_squashLeadingSlash _
    next => rfl
  rw [hlead] at h
  rw [← components_squashDoubleSlash]
  rcases components_squashLeadingDotSlash (swlibSquashDoubleSlash path) with heq | heq
  · rwa [heq] at h
  · rw [heq]
    exact List.mem_cons_of_mem _ h

theorem mem_components_prepathName {name c : Bytes} (h : c ∈ components name) (hdot : c ≠ [dot]) :
    c ∈ components (prepathName name) := by
  rw [prepathName, components_squashLeadingSlash]
  rw [← components_squashTrailingSlash] at h
  rcases components_squashLeadingDotSlash (swlibSquashTrailingSlash name) with heq | heq
  · rwa [heq]
  · rw [heq] at h
    exact (List.mem_cons.mp h).resolve_left hdot

theorem head?_splitSlash (s : Bytes) :
    (splitSlash s).head? = some (s.takeWhile (· != slash)) := by
  induction s with
  | nil => rfl
  | cons c s ih =>
      rw [splitSlash]
      split
      next h => rw [List.takeWhile_cons_of_neg (by simp [h])]; rfl
      next h =>
        rw [List.takeWhile_cons_of_pos (by simpa using h), List.head?_cons, List.headD_eq_head?_getD,
          ih, Option.getD_some]

theorem splitSlash_ne_nil (s : Bytes) : splitSlash s ≠ [] := by
  intro h
  have hhead := head?_splitSlash s
  rw [h] at hhead
  cases hhead

theorem components_eq {s : Bytes} (hs : s.head? ≠ some slash) (hne : s ≠ []) :
    components s = s.takeWhile (· != slash) :: components (s.dropWhile (· != slash)) := by
  have hrun : s.takeWhile (· != slash) ≠ [] := by
    cases s with
    | nil => exact absurd rfl hne
    | cons c s =>
        have hc : c ≠ slash := fun he => hs (by rw [he]; rfl)
        rw [List.takeWhile_cons_of_pos (by simpa using hc)]
        exact nofun
  refine Eq.trans (congrArg components (List.takeWhile_append_dropWhile).symm)
    (tokens_run hrun ?_ ?_)
  · intro x hx
    simpa using List.mem_takeWhile_imp (p := (· != slash)) hx
  · intro y hy
    have hhead := List.head?_dropWhile_not (· != slash) s
    rw [Option.mem_def.mp hy] at hhead
    simpa using hhead

/-- The first piece is a name exactly when the first component is. -/
theorem head?_splitSlash_eq {s c : Bytes} (hs : s.head? ≠ some slash) (hc : c ≠ []) :
    (splitSlash s).head? = some c ↔ [c] <+: components s := by
  rw [head?_splitSlash, Option.some_inj]
  by_cases hne : s = []
  · rw [hne]
    simpa using hc
  · rw [components_eq hs hne, List.cons_prefix_cons]
    simpa using eq_comm

/-- The prefix stands at the start of a cleaned path. -/
def Kept (prepath path : Bytes) : Prop := prepath = [] ∨ prepath ++ [slash] <+: path

instance (prepath path : Bytes) : Decidable (Kept prepath path) :=
  inferInstanceAs (Decidable (_ ∨ _))

/-- What stands behind the prepath. -/
theorem behindPrepath_spec {prepath path : Bytes} (h : Kept prepath path)
    (hd : ¬[slash, slash] <:+: path) :
    (behindPrepath prepath path).head? ≠ some slash ∧
      components path = components prepath ++ components (behindPrepath prepath path) := by
  rcases h with rfl | ⟨rest, rfl⟩
  · rw [behindPrepath, List.length_nil, List.drop_zero]
    split
    next hs =>
      cases path with
      | nil => cases hs
      | cons c path =>
          rw [List.head?_cons, Option.some_inj] at hs
          subst hs
          refine ⟨fun hhead => hd ?_, ?_⟩
          · obtain ⟨rest, hrest⟩ := List.head?_eq_some_iff.mp hhead
            rw [List.drop_one, List.tail_cons] at hrest
            rw [hrest]
            exact ⟨[], rest, rfl⟩
          · rw [List.drop_one, List.tail_cons, components_slash]
            rfl
    next hs => exact ⟨hs, rfl⟩
  · have hbehind : behindPrepath prepath (prepath ++ [slash] ++ rest) = rest := by
      rw [behindPrepath, List.append_assoc, List.drop_left]
      rfl
    rw [hbehind, List.append_assoc]
    refine ⟨fun hhead => hd ?_, components_append prepath rest⟩
    obtain ⟨more, rfl⟩ := List.head?_eq_some_iff.mp hhead
    exact ⟨prepath, more, by simp⟩

/-- The component behind the prepath decides. -/
theorem head?_behindPrepath {prepath path : Bytes} (h : Kept prepath path)
    (hd : ¬[slash, slash] <:+: path) :
    (splitSlash (behindPrepath prepath path)).head? = some swACatalog ↔
      components prepath ++ [swACatalog] <+: components path := by
  obtain ⟨hhead, hcomp⟩ := behindPrepath_spec h hd
  rw [head?_splitSlash_eq hhead (by decide), hcomp, List.prefix_append_right_inj]

/-! ## Finding the prepath -/

section

variable {swpath : Swpath} {name : Bytes}

/-- The state in which the prepath is looked for. -/
theorem startPath_cases (swpath : Swpath) (name : Bytes) :
    ∃ start : Swpath, start.position = swpath.position ∧
      swpath.startPath name =
        if swpath.pPrepath then start else start.resolvePrepath (prepathName name) := by
  have hpos : (({ swpath with swpackagePathname := name }.setProductControlDir
      []).setFilesetControlDir []).position = swpath.position := by
    rw [position_setFilesetControlDir, position_setProductControlDir]
    rfl
  refine ⟨{ ({ swpath with swpackagePathname := name }.setProductControlDir
    []).setFilesetControlDir [] with pathname := [], basename := [] }, hpos, ?_⟩
  have hprepath := congrArg Position.pPrepath hpos
  exact congrArg (fun b : Bool => if b = true then _ else _) hprepath

theorem startPath_known (h : swpath.pPrepath = true) :
    (swpath.startPath name).position = swpath.position := by
  obtain ⟨start, hpos, heq⟩ := startPath_cases swpath name
  rw [heq, if_pos h, hpos]

theorem startPath_unknown (h : swpath.pPrepath = false)
    (hf : findSub swACatalog (prepathName name) = none) :
    ∃ prepath, (swpath.startPath name).position = { swpath.position with prepath := prepath } := by
  obtain ⟨start, hpos, heq⟩ := startPath_cases swpath name
  rw [heq, h, if_neg nofun, ← hpos, resolvePrepath, hf]
  dsimp only
  split
  next => exact ⟨_, rfl⟩
  next => exact ⟨_, rfl⟩

/-- The text before `catalog`. -/
def prepathBefore (prepath name : Bytes) (len : Nat) : Bytes :=
  if prepath = [] then name.take (len - 1) else prepath.take len

theorem startPath_found {len : Nat} (h : swpath.pPrepath = false)
    (hf : findSub swACatalog (prepathName name) = some len) :
    (swpath.startPath name).position =
      { swpath.position with
        prepath := prepathBefore swpath.prepath (prepathName name) len
        pPrepath := true } := by
  obtain ⟨start, hpos, heq⟩ := startPath_cases swpath name
  have hprepath : start.prepath = swpath.prepath := congrArg Position.prepath hpos
  rw [heq, h, if_neg nofun, ← hpos, resolvePrepath, hf, prepathBefore, ← hprepath]
  dsimp only
  split
  next => rfl
  next => rfl

/-- What a state that is not in error says. -/
theorem of_checkError_nonneg {ret : Int} (h : 0 ≤ swpath.checkError ret) :
    swpath.error = 0 ∧ swpath.catalogGuard ≤ 1 := by
  rw [checkError] at h
  split at h
  next => omega
  next hok => omega

/-- What one path does to the position when it is not rejected. -/
theorem swpathParsePath_cases {next : Swpath} {ret : Int}
    (hparse : swpath.swpathParsePath name = some (next, ret)) (hret : 0 ≤ ret) :
    (next.error = 0 ∧ next.catalogGuard ≤ 1) ∧
    (((swpath.startPath name).pPrepath = false ∧
      next.position = { (swpath.startPath name).position with isCatalog := -1 }) ∨
    ((swpath.startPath name).pPrepath = true ∧
      ((swpath.startPath name).prepath = [] ∨
        hasPrefix (swpath.startPath name).prepath (prepathName name) = true) ∧
      next.position =
        { (swpath.startPath name).position with
          prepath := slashclean (swpath.startPath name).prepath }.enter
        (if (splitSlash (behindPrepath (slashclean (swpath.startPath name).prepath)
          (slashclean name))).head? = some swACatalog then 1 else 0))) := by
  rw [swpathParsePath] at hparse
  generalize hstart : swpath.startPath name = start at hparse ⊢
  dsimp only at hparse
  split at hparse
  next hnot =>
    obtain ⟨rfl, rfl⟩ := Prod.mk.inj (Option.some.inj hparse)
    exact ⟨of_checkError_nonneg hret, .inl ⟨hnot, rfl⟩⟩
  next hknown =>
    split at hparse
    next =>
      obtain ⟨_, rfl⟩ := Prod.mk.inj (Option.some.inj hparse)
      exact absurd hret (by decide)
    next hpack =>
      rw [parseBehind] at hparse
      dsimp only at hparse
      split at hparse
      next => cases hparse
      next =>
        obtain ⟨hnext, hr⟩ := Prod.mk.inj (Option.some.inj hparse)
        rw [← hr, hnext] at hret
        refine ⟨of_checkError_nonneg hret, .inr ⟨by simpa using hknown, ?_, ?_⟩⟩
        · by_cases he : start.prepath = []
          · exact .inl he
          · right
            by_contra hfalse
            exact hpack ⟨he, by simpa using hfalse⟩
        · obtain ⟨ca0, ca, hca⟩ := List.exists_cons_of_ne_nil (splitSlash_ne_nil
            (behindPrepath (slashclean start.prepath) (slashclean name)))
          have hpos := position_parseComponents { start with prepath := slashclean start.prepath }
            ca0 ca
          rw [hca] at hnext ⊢
          simp only [List.head?_cons, Option.some_inj]
          rw [← hnext, position_setPath, hpos]
          rfl

end

/-! ## What the locations mean -/

/-- The components of a path. -/
def pathComponents (name : Bytes) : List Bytes := components (slashclean name)

/-- The components in front of the catalog, in the first path that has the
component `catalog`. -/
def packagePrefix (names : List Bytes) : Option (List Bytes) :=
  names.findSome? fun name =>
    if (pathComponents name).contains swACatalog then
      some ((pathComponents name).takeWhile (· != swACatalog))
    else none

/-- After the paths `seen`, the path has the component `catalog` at the position
of the catalog of the package. -/
def InCatalog (seen : List Bytes) (name : Bytes) : Prop :=
  ∃ pre, packagePrefix (seen ++ [name]) = some pre ∧ pre ++ [swACatalog] <+: pathComponents name

/-- The order of the locations. -/
def phase (isCatalog : Int) : Nat :=
  if isCatalog = -1 then 0 else if isCatalog = 1 then 1 else 2

/-- The locations of a package: leading directories, then the catalog, then
storage, and the catalog is told by a whole component. -/
structure LocationsOk (seen names : List Bytes) (locs : List Int) : Prop where
  /-- A location for every path. -/
  length_eq : locs.length = names.length
  /-- Every location is one of the three. -/
  kinds : ∀ loc ∈ locs, loc = -1 ∨ loc = 1 ∨ loc = 0
  /-- No return to an earlier phase. -/
  ordered : (locs.map phase).Pairwise (· ≤ ·)
  /-- The decision. -/
  catalog : ∀ before name after, names = before ++ name :: after →
    (locs[before.length]? = some 1 ↔ InCatalog (seen ++ before) name)

/-- The path is read as it should be.  When the prepath is known, cleaning it
again does not change it, and it stands at the start of the cleaned path; and if
the first path of all holds the text `catalog`, then the first place where it
does is a whole component. -/
def PathOk (swpath : Swpath) (name : Bytes) : Prop :=
  (swpath.startPath name).pPrepath = true →
    slashclean (slashclean (swpath.startPath name).prepath) =
      slashclean (swpath.startPath name).prepath ∧
    Kept (slashclean (swpath.startPath name).prepath) (slashclean name) ∧
    (swpath.isCatalog = 0 ∧ swpath.pPrepath = false →
      (behindPrepath (slashclean (swpath.startPath name).prepath)
        (slashclean name)).takeWhile (· != slash) = swACatalog)

instance (swpath : Swpath) (name : Bytes) : Decidable (PathOk swpath name) :=
  inferInstanceAs (Decidable (_ → _ ∧ _ ∧ (_ → _)))

/-- Every path of a sequence is read as it should be. -/
def AllPathsOk (swpath : Swpath) : List Bytes → Prop
  | [] => True
  | name :: names =>
      PathOk swpath name ∧
        ∀ next ret, swpath.swpathParsePath name = some (next, ret) → AllPathsOk next names

/-- No path so far has the component `catalog`. -/
structure Leading (seen : List Bytes) (swpath : Swpath) : Prop where
  unknown : swpath.pPrepath = false
  location : swpath.isCatalog = -1 ∨ swpath.isCatalog = 0
  error : swpath.error = 0
  guard : swpath.catalogGuard = 0
  noPrefix : packagePrefix seen = none

/-- The catalog was reached with the prefix of the package. -/
structure Reached (seen : List Bytes) (swpath : Swpath) : Prop where
  known : swpath.pPrepath = true
  location : swpath.isCatalog = 1 ∨ swpath.isCatalog = 0
  error : swpath.error = 0
  guard : swpath.catalogGuard = 1
  clean : slashclean swpath.prepath = swpath.prepath
  pre : packagePrefix seen = some (components swpath.prepath)

theorem leading_swpathOpen : Leading [] swpathOpen := ⟨rfl, .inr rfl, rfl, rfl, rfl⟩

section

variable {swpath next : Swpath} {seen : List Bytes} {name : Bytes} {ret : Int}

/-- A path with the component `catalog` holds its text. -/
theorem not_mem_of_findSub_none (h : findSub swACatalog (prepathName name) = none) :
    swACatalog ∉ pathComponents name := by
  intro hmem
  refine findSub_eq_none.mp h (infix_of_mem_components ?_)
  exact mem_components_prepathName (mem_components_of_slashclean hmem) (by decide)

/-- The text before the first `catalog` does not have it. -/
theorem not_infix_prepathBefore {prepath path : Bytes} {len : Nat}
    (hf : findSub swACatalog path = some len)
    (h : prepathBefore prepath path len = [] ∨
      hasPrefix (prepathBefore prepath path len) path = true) :
    ¬swACatalog <:+: prepathBefore prepath path len := by
  rintro ⟨before, after, heq⟩
  have hlen : (prepathBefore prepath path len).length ≤ len := by
    rw [prepathBefore]
    split
    next => exact (List.length_take_le _ _).trans (Nat.sub_le _ _)
    next => exact List.length_take_le _ _
  have hsize := congrArg List.length heq
  rw [List.length_append, List.length_append] at hsize
  have hpos : 0 < swACatalog.length := by decide
  have hpre : prepathBefore prepath path len <+: path := by
    rcases h with h | h
    · rw [h]
      exact List.nil_prefix
    · rw [hasPrefix, Bool.and_eq_true, beq_iff_eq] at h
      exact findSub_eq_zero.mp h.1
  refine findSub_minimal hf (j := before.length) (by omega) ?_
  obtain ⟨rest, hrest⟩ := hpre
  rw [← hrest, ← heq, List.append_assoc, List.append_assoc, List.drop_left]
  exact List.prefix_append _ _

theorem not_mem_components_slashclean {path : Bytes} (h : ¬swACatalog <:+: path) :
    swACatalog ∉ components (slashclean path) := fun hmem =>
  h (infix_of_mem_components (mem_components_of_slashclean hmem))

theorem packagePrefix_concat_of_some {pre : List Bytes} (h : packagePrefix seen = some pre)
    (name : Bytes) : packagePrefix (seen ++ [name]) = some pre := by
  rw [packagePrefix, List.findSome?_append]
  rw [packagePrefix] at h
  rw [h]
  rfl

theorem packagePrefix_concat_of_none (h : packagePrefix seen = none) (name : Bytes) :
    packagePrefix (seen ++ [name]) =
      if swACatalog ∈ pathComponents name then
        some ((pathComponents name).takeWhile (· != swACatalog))
      else none := by
  rw [packagePrefix, List.findSome?_append]
  rw [packagePrefix] at h
  rw [h, Option.none_or, List.findSome?_singleton]
  simp only [List.contains_iff_mem]

/-- A leading directory is not followed by storage. -/
theorem enter_error_storage {p : Position} (h : p.isCatalog = -1) : (p.enter 0).error = 2 := by
  simp [Position.enter, setIsCatalog, Position.toSwpath, position, h]

/-- The catalog is entered. -/
theorem enter_guard_catalog {p : Position} (h : p.isCatalog ≠ 1) {guard : Nat}
    (hguard : p.catalogGuard = guard) : (p.enter 1).catalogGuard = guard + 1 := by
  simp [Position.enter, setIsCatalog, Position.toSwpath, position, h, hguard]

/-- The guard stays. -/
theorem enter_guard_same {p : Position} {n : Int} (h : p.isCatalog = 1 ∨ n ≠ 1) :
    (p.enter n).catalogGuard = p.catalogGuard := by
  rcases h with h | h <;> simp [Position.enter, setIsCatalog, Position.toSwpath, position, h]

/-- A leading directory, or the first path of the catalog. -/
theorem Leading.step (h : Leading seen swpath) (hok : PathOk swpath name)
    (hparse : swpath.swpathParsePath name = some (next, ret)) (hret : 0 ≤ ret) :
    (Leading (seen ++ [name]) next ∧ next.isCatalog = -1 ∧ ¬InCatalog seen name) ∨
    (Reached (seen ++ [name]) next ∧ next.isCatalog = 1 ∧ InCatalog seen name) := by
  obtain ⟨⟨herr, hguard⟩, hcases⟩ := swpathParsePath_cases hparse hret
  cases hf : findSub swACatalog (prepathName name) with
  | none =>
      left
      obtain ⟨prepath, hstart⟩ := startPath_unknown h.unknown hf
      have hunknown : (swpath.startPath name).pPrepath = false :=
        (congrArg Position.pPrepath hstart).trans h.unknown
      rcases hcases with ⟨_, hnext⟩ | ⟨hknown, _⟩
      · have hpack : packagePrefix (seen ++ [name]) = none := by
          rw [packagePrefix_concat_of_none h.noPrefix, if_neg (not_mem_of_findSub_none hf)]
        have hguard' : (swpath.startPath name).catalogGuard = 0 :=
          (congrArg Position.catalogGuard hstart).trans h.guard
        refine ⟨⟨(congrArg Position.pPrepath hnext).trans hunknown,
          .inl (congrArg Position.isCatalog hnext), herr,
          (congrArg Position.catalogGuard hnext).trans hguard', hpack⟩,
          congrArg Position.isCatalog hnext, ?_⟩
        rintro ⟨pre, hpre, _⟩
        rw [hpack] at hpre
        cases hpre
      · rw [hunknown] at hknown
        cases hknown
  | some len =>
      right
      have hstart := startPath_found h.unknown hf
      have hprepath : (swpath.startPath name).prepath =
          prepathBefore swpath.prepath (prepathName name) len := congrArg Position.prepath hstart
      have hcat : (swpath.startPath name).isCatalog = swpath.isCatalog :=
        congrArg Position.isCatalog hstart
      have hknown : (swpath.startPath name).pPrepath = true := congrArg Position.pPrepath hstart
      obtain ⟨hclean, hkept, hfirst⟩ := hok hknown
      rcases hcases with ⟨hunknown, _⟩ | ⟨_, hpack, hnext⟩
      · rw [hknown] at hunknown
        cases hunknown
      · rw [hprepath] at hclean hkept hfirst hpack hnext
        have hdecide := head?_behindPrepath hkept (noDouble_slashclean name)
        have hhead : (splitSlash (behindPrepath (slashclean (prepathBefore swpath.prepath
            (prepathName name) len)) (slashclean name))).head? = some swACatalog := by
          by_contra hfalse
          rw [if_neg hfalse] at hnext
          rcases h.location with hloc | hloc
          · have herror := congrArg Position.error hnext
            rw [enter_error_storage (hcat.trans hloc)] at herror
            exact absurd (herror.symm.trans herr) (by decide)
          · refine hfalse ?_
            rw [head?_splitSlash, hfirst ⟨hloc, h.unknown⟩]
        rw [if_pos hhead] at hnext
        have hguard' := congrArg Position.catalogGuard hnext
        have hmem := hdecide.mp hhead
        have hnot := not_mem_components_slashclean (not_infix_prepathBefore hf hpack)
        have hpre : packagePrefix (seen ++ [name]) = some (components
            (slashclean (prepathBefore swpath.prepath (prepathName name) len))) := by
          obtain ⟨rest, hrest⟩ := hmem
          rw [packagePrefix_concat_of_none h.noPrefix, pathComponents, ← hrest, List.append_assoc,
            if_pos (by simp)]
          refine congrArg some (takeWhile_append_stop (fun c hc => ?_) (by simp) rest)
          exact bne_iff_ne.mpr fun he => hnot (he ▸ hc)
        have hreached : next.prepath =
            slashclean (prepathBefore swpath.prepath (prepathName name) len) :=
          congrArg Position.prepath hnext
        refine ⟨⟨(congrArg Position.pPrepath hnext).trans hknown,
          .inl (congrArg Position.isCatalog hnext), herr, ?_, ?_, ?_⟩,
          congrArg Position.isCatalog hnext, _, hpre, hmem⟩
        · refine hguard'.trans (enter_guard_catalog ?_ ?_)
          · change (swpath.startPath name).isCatalog ≠ 1
            rw [hcat]
            rcases h.location with hloc | hloc <;> rw [hloc] <;> decide
          · exact (congrArg Position.catalogGuard hstart).trans h.guard
        · rw [hreached, hclean]
        · rw [hreached, hpre]

/-- A path once the catalog was reached. -/
theorem Reached.step (h : Reached seen swpath) (hok : PathOk swpath name)
    (hparse : swpath.swpathParsePath name = some (next, ret)) (hret : 0 ≤ ret) :
    Reached (seen ++ [name]) next ∧ (next.isCatalog = 1 ↔ InCatalog seen name) ∧
      (swpath.isCatalog = 0 → next.isCatalog = 0) := by
  obtain ⟨⟨herr, hguard⟩, hcases⟩ := swpathParsePath_cases hparse hret
  have hstart : (swpath.startPath name).position = swpath.position := startPath_known h.known
  have hprepath : (swpath.startPath name).prepath = swpath.prepath :=
    congrArg Position.prepath hstart
  have hknown : (swpath.startPath name).pPrepath = true :=
    (congrArg Position.pPrepath hstart).trans h.known
  obtain ⟨_, hkept, _⟩ := hok hknown
  rcases hcases with ⟨hunknown, _⟩ | ⟨_, _, hnext⟩
  · rw [hknown] at hunknown
    cases hunknown
  · rw [hprepath, h.clean] at hkept
    rw [hprepath, h.clean] at hnext
    have hdecide := head?_behindPrepath hkept (noDouble_slashclean name)
    have hguard' := congrArg Position.catalogGuard hnext
    have hpre := packagePrefix_concat_of_some h.pre name
    have hcatalog : InCatalog seen name ↔
        components swpath.prepath ++ [swACatalog] <+: components (slashclean name) := by
      constructor
      · rintro ⟨pre, heq, hmem⟩
        rw [hpre] at heq
        cases heq
        exact hmem
      · exact fun hmem => ⟨_, hpre, hmem⟩
    have hcat : (swpath.startPath name).isCatalog = swpath.isCatalog :=
      congrArg Position.isCatalog hstart
    have hone : (swpath.startPath name).catalogGuard = 1 :=
      (congrArg Position.catalogGuard hstart).trans h.guard
    have hreached : next.prepath = swpath.prepath := congrArg Position.prepath hnext
    have hpre' : packagePrefix (seen ++ [name]) = some (components next.prepath) := by
      rw [hreached, hpre]
    have hclean : slashclean next.prepath = next.prepath := by
      rw [hreached, h.clean]
    have hknown' : next.pPrepath = true := (congrArg Position.pPrepath hnext).trans hknown
    have hloc := congrArg Position.isCatalog hnext
    rw [hcatalog, ← hdecide]
    by_cases hhead : (splitSlash (behindPrepath swpath.prepath (slashclean name))).head? =
        some swACatalog
    · rw [if_pos hhead] at hguard' hloc
      -- A second way into the catalog would be an error.
      have hin : swpath.isCatalog = 1 := by
        refine h.location.resolve_right fun hstorage => ?_
        have htwo := hguard'.trans (enter_guard_catalog ?_ hone)
        · have : next.catalogGuard = 2 := htwo
          omega
        · change (swpath.startPath name).isCatalog ≠ 1
          rw [hcat, hstorage]
          decide
      refine ⟨⟨hknown', .inl hloc, herr, ?_, hclean, hpre'⟩, iff_of_true hloc hhead, ?_⟩
      · exact (hguard'.trans (enter_guard_same (.inl (hcat.trans hin)))).trans hone
      · intro hstorage
        rw [hin] at hstorage
        cases hstorage
    · rw [if_neg hhead] at hguard' hloc
      have hstorage : next.isCatalog = 0 := hloc
      refine ⟨⟨hknown', .inr hloc, herr, ?_, hclean, hpre'⟩, iff_of_false ?_ hhead,
        fun _ => hstorage⟩
      · exact (hguard'.trans (enter_guard_same (.inr (by decide)))).trans hone
      · rw [hstorage]
        decide

/-! ## A whole package -/

variable {names : List Bytes} {locs : List Int} {last : Swpath}

theorem parseAll_cons (h : swpath.parseAll (name :: names) = some (locs, last)) :
    ∃ next ret locs', swpath.swpathParsePath name = some (next, ret) ∧ 0 ≤ ret ∧
      next.parseAll names = some (locs', last) ∧ locs = next.isCatalog :: locs' := by
  rw [parseAll] at h
  split at h
  next => cases h
  next next ret hparse =>
    split at h
    next => cases h
    next hret =>
      obtain ⟨⟨locs', last'⟩, hrest, heq⟩ := Option.map_eq_some_iff.mp h
      obtain ⟨hlocs, rfl⟩ := Prod.mk.inj heq
      exact ⟨next, ret, locs', hparse, by omega, hrest, hlocs.symm⟩

theorem locationsOk_nil : LocationsOk seen [] [] where
  length_eq := rfl
  kinds := by simp
  ordered := .nil
  catalog before name after h := by simp at h

theorem LocationsOk.cons {loc : Int} (hkind : loc = -1 ∨ loc = 1 ∨ loc = 0)
    (hcatalog : loc = 1 ↔ InCatalog seen name) (hrest : LocationsOk (seen ++ [name]) names locs)
    (hphase : ∀ l ∈ locs, phase loc ≤ phase l) : LocationsOk seen (name :: names) (loc :: locs) where
  length_eq := by rw [List.length_cons, List.length_cons, hrest.length_eq]
  kinds := List.forall_mem_cons.mpr ⟨hkind, hrest.kinds⟩
  ordered := by
    rw [List.map_cons]
    refine .cons (fun p hp => ?_) hrest.ordered
    obtain ⟨l, hl, rfl⟩ := List.mem_map.mp hp
    exact hphase l hl
  catalog before other after heq := by
    cases before with
    | nil =>
        obtain ⟨rfl, _⟩ := List.cons.inj heq
        rw [List.append_nil, List.length_nil, List.getElem?_cons_zero, Option.some_inj]
        exact hcatalog
    | cons first before =>
        obtain ⟨rfl, htail⟩ := List.cons.inj heq
        have hthere := hrest.catalog before other after htail
        rw [List.append_assoc] at hthere
        exact hthere

theorem Reached.run (h : Reached seen swpath) (hall : AllPathsOk swpath names)
    (hparse : swpath.parseAll names = some (locs, last)) :
    LocationsOk seen names locs ∧ ∀ loc ∈ locs, phase swpath.isCatalog ≤ phase loc := by
  induction names generalizing seen swpath locs with
  | nil =>
      cases hparse
      exact ⟨locationsOk_nil, nofun⟩
  | cons name names ih =>
      obtain ⟨next, ret, locs, hone, hret, hrest, rfl⟩ := parseAll_cons hparse
      obtain ⟨hnext, hcatalog, hstay⟩ := h.step hall.1 hone hret
      obtain ⟨hlocs, hphase⟩ := ih hnext (hall.2 next ret hone) hrest
      have hle : phase swpath.isCatalog ≤ phase next.isCatalog := by
        rcases h.location with hloc | hloc
        · rw [hloc]
          rcases hnext.location with hloc' | hloc'
          · rw [hloc']
          · rw [hloc']
            decide
        · rw [hloc, hstay hloc]
      refine ⟨.cons (.inr hnext.location) hcatalog hlocs hphase, ?_⟩
      exact List.forall_mem_cons.mpr ⟨hle, fun loc hmem => hle.trans (hphase loc hmem)⟩

theorem Leading.run (h : Leading seen swpath) (hall : AllPathsOk swpath names)
    (hparse : swpath.parseAll names = some (locs, last)) : LocationsOk seen names locs := by
  induction names generalizing seen swpath locs with
  | nil =>
      cases hparse
      exact locationsOk_nil
  | cons name names ih =>
      obtain ⟨next, ret, locs, hone, hret, hrest, rfl⟩ := parseAll_cons hparse
      rcases h.step hall.1 hone hret with ⟨hnext, hloc, hnot⟩ | ⟨hnext, hloc, hin⟩
      · have hlocs := ih hnext (hall.2 next ret hone) hrest
        refine .cons (.inl hloc) (iff_of_false ?_ hnot) hlocs ?_
        · rw [hloc]
          decide
        · rw [hloc]
          exact fun _ _ => Nat.zero_le _
      · obtain ⟨hlocs, hphase⟩ := hnext.run (hall.2 next ret hone) hrest
        exact .cons (.inr (.inl hloc)) (iff_of_true hloc hin) hlocs hphase

end

/-- In a package whose paths are all read as they should be, and none rejected,
the locations are leading directories, then the catalog, then storage, and a
path is in the catalog exactly when a whole component says so. -/
theorem parseAll_locations {names : List Bytes} {locs : List Int} {last : Swpath}
    (hall : AllPathsOk swpathOpen names)
    (hparse : swpathOpen.parseAll names = some (locs, last)) : LocationsOk [] names locs :=
  leading_swpathOpen.run hall hparse

/-- A directory `a`, the catalog behind it, and a file in storage. -/
def smallPackage : List Bytes :=
  [chars ['a'], chars ['a', '/'] ++ swACatalog, chars ['a', '/', 'f']]

theorem parseAll_locations_small : LocationsOk [] smallPackage [-1, 1, 0] := by
  have hlocs : (swpathOpen.parseAll smallPackage).map (·.1) = some [-1, 1, 0] := by decide +kernel
  obtain ⟨⟨locs, last⟩, hparse, rfl⟩ := Option.map_eq_some_iff.mp hlocs
  refine parseAll_locations ⟨by decide +kernel, fun s₁ r₁ h₁ => ?_⟩ hparse
  have hs₁ : swpathOpen.swpathParsePath (chars ['a']) =
      some ({ isCatalog := -1, swpackagePathname := [97], prepath := [97] }, 0) := by decide +kernel
  rw [hs₁] at h₁
  cases h₁
  refine ⟨by decide +kernel, fun s₂ r₂ h₂ => ⟨?_, fun _ _ _ => trivial⟩⟩
  have hs₂ : swpathParsePath { isCatalog := -1, swpackagePathname := [97], prepath := [97] }
      (chars ['a', '/'] ++ swACatalog) =
      some ({ isCatalog := 1, maxRelN := 1, catalogGuard := 1, prepath := [97], pPrepath := true,
              swpackagePathname := chars ['a', '/'] ++ swACatalog }, 0) := by decide +kernel
  rw [hs₂] at h₂
  cases h₂
  decide +kernel

/-- A path that starts with `xcatalog` is taken for storage, and the catalog
follows it. -/
theorem parseAll_storage_first :
    (swpathOpen.parseAll [120 :: swACatalog, swACatalog]).map (·.1) = some [0, 1] ∧
      ¬LocationsOk [] [120 :: swACatalog, swACatalog] [0, 1] := by
  refine ⟨by decide +kernel, fun h => ?_⟩
  have hordered := h.ordered
  revert hordered
  decide

end Swpath

end Swbis.Misc
