import Mathlib.Data.List.Basic
import Swbis.Misc.Slashclean
import Swbis.Misc.Swpath

/-!
# Forming a package path

`swpath_form_path` puts a path together again from what `swpath_parse_path` has
recorded of it: the prepath, the control directories, the directories `dfiles`
and `pfiles`, and the name of the file.

Only the control directories and the name of the file are recorded anew for each
path.  What is in `dfiles_` and `pfiles_` may be of an earlier path.  Of the
prepath 200 bytes are copied.
-/

namespace Swbis.Misc

open CLib

namespace Swpath

/-! ## The code -/

/-- The slash in front of a part, and the part. -/
def appendPart (buf part : Bytes) : Bytes := (if part ≠ [] then buf ++ [slash] else buf) ++ part

/-- `swpath__form_path1`, whose `name` is null. -/
def formPath1 (swpath : Swpath) (buf : Bytes) : Bytes :=
  let buf := if swpath.productControlDir ≠ [] ∧ buf ≠ [] then buf ++ [slash] else buf
  let buf := buf ++ swpath.productControlDir
  let buf := appendPart buf swpath.filesetControlDir
  let buf := appendPart buf swpath.dfiles
  let buf := appendPart buf swpath.pfiles
  appendPart buf swpath.pathname

/-- `swpath_form_catalog_path` -/
def swpathFormCatalogPath (swpath : Swpath) : Bytes :=
  let buf := swpath.prepath.take 200
  if swpath.isCatalog < 0 then buf
  else
    let buf := if buf ≠ [] then buf ++ [slash] else buf
    swpath.formPath1 (buf ++ swACatalog)

/-- `swpath_form_storage_path` -/
def swpathFormStoragePath (swpath : Swpath) : Bytes := swpath.formPath1 (swpath.prepath.take 200)

/-- `swpath_form_path` -/
def swpathFormPath (swpath : Swpath) : Bytes :=
  if swpath.isCatalog ≠ 0 then swpath.swpathFormCatalogPath else swpath.swpathFormStoragePath

/-! ## What forming is for -/

/-- Two paths are the same without `.` components and without doubled and trailing
slashes. -/
def SamePath (p q : Bytes) : Prop := (IsAbsolute p ↔ IsAbsolute q) ∧ ordinary p = ordinary q

/-- Of the paths fed one after the other, every one that is accepted is formed as
it was. -/
def AllFormed (swpath : Swpath) : List Bytes → Prop
  | [] => True
  | name :: names =>
      match swpath.swpathParsePath name with
      | none => True
      | some (next, ret) => (0 ≤ ret → SamePath next.swpathFormPath name) ∧ AllFormed next names

/-! ## When it is formed -/

/-- The prepath with which a path is read, if the package's catalog was seen. -/
def gathered (swpath : Swpath) (name : Bytes) : Option Bytes :=
  if swpath.pPrepath then some swpath.prepath
  else (findSub swACatalog (prepathName name)).map (prepathBefore swpath.prepath (prepathName name))

/-- The bytes of a prepath that are not copied name no directory. -/
def Fits (prepath : Bytes) : Prop := ordinary (prepath.take 200) = ordinary prepath

/-- A path in storage has no control directories. -/
def Degenerate (swpath : Swpath) : Prop :=
  swpath.controlPathNominalDepth = 0 ∨ swpath.maxRelN < swpathDegenN

/-- The directory `pfiles` that is kept: the one that is recorded, or else `ca`. -/
def keptPfiles (swpath : Swpath) (ca : Bytes) : Bytes :=
  if swpath.pfiles ≠ [] then swpath.pfiles else ca

/-- What is recorded of earlier paths does no harm to a path `catalog/ca1`. -/
def FreshTwo (swpath : Swpath) (ca1 : Bytes) : Prop :=
  if swpath.pDfiles = some ca1 ∨ (swpath.pDfiles = none ∧ ca1 ≠ indexName) then
    ordinary swpath.pfiles = []
  else if ca1 ≠ swpath.pfilesDefault ∧ ca1 = indexName then
    ordinary swpath.dfiles = [] ∧ ordinary swpath.pfiles = []
  else True

/-- What is recorded of earlier paths does no harm to a path `catalog/ca1/ca2`. -/
def FreshThree (swpath : Swpath) (ca1 ca2 : Bytes) : Prop :=
  if swpath.pDfiles ≠ none ∧ swpath.pDfiles ≠ some ca1 then
    let pfilesIndex := { swpath with pFilesetDir := false }.isInPfiles ca1 ca2
    if pfilesIndex = 0 then True
    else if pfilesIndex = 2 then
      swpath.pPfiles = none ∧ ca1 = swpath.pfilesDefault ∨
        ordinary (swpath.keptPfiles ca2) = ordinary ca1
    else ordinary (swpath.keptPfiles ca2) = ordinary ca2
  else ordinary swpath.pfiles = []

/-- What is recorded of earlier paths does no harm to a path `catalog/ca1/ca2/...`. -/
def FreshMore (swpath : Swpath) (ca1 ca2 : Bytes) : Prop :=
  if ca1 ≠ swpath.dfilesDefault then
    ca2 = swpath.pfilesDefault ∨ ca2 = swpath.pfiles →
      ordinary (swpath.keptPfiles swpath.pfilesDefault) = ordinary ca2
  else ordinary swpath.dfiles ++ ordinary swpath.pfiles = ordinary ca1

/-- What is recorded of earlier paths in `dfiles_` and `pfiles_` does no harm to a
path with the components `ca` behind the prepath. -/
def Fresh (swpath : Swpath) : List Bytes → Prop
  | [] => True
  | [ca0] => ca0 = swACatalog → ordinary swpath.dfiles = [] ∧ ordinary swpath.pfiles = []
  | [ca0, ca1] => ca0 = swACatalog → swpath.FreshTwo ca1
  | [ca0, ca1, ca2] => ca0 = swACatalog → swpath.FreshThree ca1 ca2
  | ca0 :: ca1 :: ca2 :: _ :: _ =>
      if ca0 = swACatalog then swpath.FreshMore ca1 ca2
      else ordinary swpath.dfiles = [] ∧ ordinary swpath.pfiles = []

/-- A path is formed when it stands behind the prepath, and nothing is left of
earlier paths.  The formed path begins with a slash when it is in storage and has
neither a prepath nor control directories. -/
def FormableBehind (swpath : Swpath) (prepath name : Bytes) : Prop :=
  let s := behindPrepath prepath (slashclean name)
  Kept prepath (slashclean name) ∧ Fits prepath ∧ swpath.Fresh (splitSlash s) ∧
    (IsAbsolute name ↔ prepath = [] ∧ (splitSlash s).head? ≠ some swACatalog ∧
      swpath.Degenerate ∧ s ≠ [])

/-- A leading directory is formed when it continues the one before. -/
def FormableLeading (swpath : Swpath) (name : Bytes) : Prop :=
  swpath.prepath <+: prepathName name ∧ Fits (prepathName name) ∧
    (IsAbsolute name ↔ IsAbsolute (prepathName name))

/-- What is recorded of a path that is accepted is what it is made of. -/
def Formable (swpath : Swpath) (name : Bytes) : Prop :=
  match swpath.gathered name with
  | none => swpath.FormableLeading name
  | some prepath => swpath.FormableBehind (slashclean prepath) name

/-- Of the paths fed one after the other, every one that is accepted can be formed. -/
def AllFormable (swpath : Swpath) : List Bytes → Prop
  | [] => True
  | name :: names =>
      match swpath.swpathParsePath name with
      | none => True
      | some (next, ret) => (0 ≤ ret → swpath.Formable name) ∧ AllFormable next names

/-- A leading directory continues the one before, and another path stands behind the
prepath, which is copied whole. -/
def Joined (swpath : Swpath) (name : Bytes) : Prop :=
  match swpath.gathered name with
  | none => swpath.prepath <+: prepathName name
  | some prepath => Kept (slashclean prepath) (slashclean name) ∧ Fits (slashclean prepath)

/-- Of the paths fed one after the other, every one that is accepted is joined. -/
def AllJoined (swpath : Swpath) : List Bytes → Prop
  | [] => True
  | name :: names =>
      match swpath.swpathParsePath name with
      | none => True
      | some (next, ret) => (0 ≤ ret → swpath.Joined name) ∧ AllJoined next names

section

variable (swpath : Swpath)

instance (p q : Bytes) : Decidable (SamePath p q) := by delta SamePath; infer_instance

instance (prepath : Bytes) : Decidable (Fits prepath) := by delta Fits; infer_instance

instance : Decidable swpath.Degenerate := by delta Degenerate; infer_instance

instance (ca1 : Bytes) : Decidable (swpath.FreshTwo ca1) := by delta FreshTwo; infer_instance

instance (ca1 ca2 : Bytes) : Decidable (swpath.FreshThree ca1 ca2) := by
  delta FreshThree; infer_instance

instance (ca1 ca2 : Bytes) : Decidable (swpath.FreshMore ca1 ca2) := by
  delta FreshMore; infer_instance

instance : (ca : List Bytes) → Decidable (swpath.Fresh ca)
  | [] => .isTrue trivial
  | [_] => inferInstanceAs (Decidable (_ → _ ∧ _))
  | [_, ca1] => inferInstanceAs (Decidable (_ → swpath.FreshTwo ca1))
  | [_, ca1, ca2] => inferInstanceAs (Decidable (_ → swpath.FreshThree ca1 ca2))
  | ca0 :: ca1 :: ca2 :: _ :: _ => inferInstanceAs (Decidable (if ca0 = swACatalog then
      swpath.FreshMore ca1 ca2 else ordinary swpath.dfiles = [] ∧ ordinary swpath.pfiles = []))

instance (prepath name : Bytes) : Decidable (swpath.FormableBehind prepath name) := by
  delta FormableBehind; infer_instance

instance (name : Bytes) : Decidable (swpath.FormableLeading name) := by
  delta FormableLeading; infer_instance

instance (name : Bytes) : Decidable (swpath.Formable name) :=
  match h : swpath.gathered name with
  | none => decidable_of_iff (swpath.FormableLeading name) (by rw [Formable, h])
  | some prepath =>
      decidable_of_iff (swpath.FormableBehind (slashclean prepath) name) (by rw [Formable, h])

instance decidableAllFormable :
    (swpath : Swpath) → (names : List Bytes) → Decidable (swpath.AllFormable names)
  | _, [] => .isTrue trivial
  | swpath, name :: names =>
      match h : swpath.swpathParsePath name with
      | none => .isTrue (by rw [AllFormable, h]; trivial)
      | some (next, ret) =>
          have := decidableAllFormable next names
          decidable_of_iff ((0 ≤ ret → swpath.Formable name) ∧ AllFormable next names)
            (by rw [AllFormable, h])

instance decidableAllFormed :
    (swpath : Swpath) → (names : List Bytes) → Decidable (swpath.AllFormed names)
  | _, [] => .isTrue trivial
  | swpath, name :: names =>
      match h : swpath.swpathParsePath name with
      | none => .isTrue (by rw [AllFormed, h]; trivial)
      | some (next, ret) =>
          have := decidableAllFormed next names
          decidable_of_iff ((0 ≤ ret → SamePath next.swpathFormPath name) ∧ AllFormed next names)
            (by rw [AllFormed, h])

end

/-! ## What is set

Every part of the state is set by itself. -/

section

variable (swpath : Swpath)

/-- The nominal depth behind a control directory. -/
def depthWith (nd : Nat) (s : Bytes) : Nat := (swpath.controlDir nd s).1.controlPathNominalDepth

/-- What is kept of a control directory. -/
def kept (nd : Nat) (s : Bytes) : Bytes := (swpath.controlDir nd s).2

theorem controlDir_fst (nd : Nat) (s : Bytes) :
    (swpath.controlDir nd s).1 =
      { swpath with controlPathNominalDepth := swpath.depthWith nd s } := by
  simp only [depthWith, controlDir, setControlDepth]
  repeat' split
  all_goals rfl

theorem setProductControlDir_eq (s : Bytes) :
    swpath.setProductControlDir s =
      { swpath with
        controlPathNominalDepth := swpath.depthWith 2 s
        productControlDir := swpath.kept 2 s } := by
  rw [setProductControlDir, kept, controlDir_fst]

theorem setFilesetControlDir_eq (s : Bytes) :
    swpath.setFilesetControlDir s =
      { swpath with
        controlPathNominalDepth := swpath.depthWith 1 s
        filesetControlDir := swpath.kept 1 s } := by
  rw [setFilesetControlDir, kept, controlDir_fst]

theorem setPPfiles_eq (name : Option Bytes) :
    swpath.setPPfiles name = { swpath with pPfiles := swpath.pPfiles.or name } := by
  rw [setPPfiles]
  cases hp : swpath.pPfiles with
  | some x => rw [if_neg (fun h => Option.some_ne_none x h.1), Option.some_or, ← hp]
  | none =>
      cases name with
      | none => rw [if_neg (fun h => h.2 rfl), Option.none_or, ← hp]
      | some s => rw [if_pos ⟨rfl, Option.some_ne_none s⟩, Option.none_or]

theorem setPDfiles_eq (name : Bytes) :
    swpath.setPDfiles name = { swpath with pDfiles := swpath.pDfiles.or (some name) } := by
  rw [setPDfiles]
  cases hd : swpath.pDfiles with
  | some x => rw [if_neg (Option.some_ne_none x), Option.some_or, ← hd]
  | none => rw [if_pos rfl, Option.none_or]

theorem setMaxRelN_eq (n : Nat) :
    swpath.setMaxRelN n = { swpath with maxRelN := max swpath.maxRelN n } := by
  rw [setMaxRelN]
  split
  next h => rw [Nat.max_eq_right (by omega)]
  next h => rw [Nat.max_eq_left (by omega)]

variable {swpath}

@[simp] theorem kept_nil (nd : Nat) : swpath.kept nd [] = [] := ite_self []

/-- In the catalog a control directory is kept. -/
theorem kept_of_ne (h : swpath.isCatalog ≠ 0) (nd : Nat) (s : Bytes) : swpath.kept nd s = s := by
  have hcat : (swpath.controlDir nd s).1.isCatalog ≠ 0 := by
    rwa [controlDir_fst]
  exact if_neg fun hs => hcat hs.1

/-- In storage a control directory is kept when the catalog had some. -/
theorem controlDir_of_storage (h : swpath.isCatalog = 0) (nd : Nat) (s : Bytes) :
    swpath.controlDir nd s =
      (swpath, if swpath.controlPathNominalDepth = 0 then [] else s) := by
  have hdepth : swpath.setControlDepth nd = swpath := if_pos h
  simp only [controlDir, hdepth, ite_self, h, true_and]

theorem setProductControlDir_of_storage (h : swpath.isCatalog = 0) (s : Bytes) :
    swpath.setProductControlDir s =
      { swpath with
        productControlDir := if swpath.controlPathNominalDepth = 0 then [] else s } := by
  rw [setProductControlDir, controlDir_of_storage h]

theorem setFilesetControlDir_of_storage (h : swpath.isCatalog = 0) (s : Bytes) :
    swpath.setFilesetControlDir s =
      { swpath with
        filesetControlDir := if swpath.controlPathNominalDepth = 0 then [] else s } := by
  rw [setFilesetControlDir, controlDir_of_storage h]

theorem setProductControlDir_of_ne (hcat : swpath.isCatalog ≠ 0) (s : Bytes) :
    swpath.setProductControlDir s =
      { swpath with
        controlPathNominalDepth := swpath.depthWith 2 s
        productControlDir := s } := by
  rw [setProductControlDir_eq, kept_of_ne hcat]

end

/-! ## The directories that are recorded -/

/-- The components of the directories that are recorded. -/
def recordedDirs (swpath : Swpath) : List Bytes :=
  ordinary swpath.productControlDir ++ ordinary swpath.filesetControlDir ++
    ordinary swpath.dfiles ++ ordinary swpath.pfiles

/-- The directories that are recorded and the name of the file, of the components
`ca`. -/
def recorded (r : Swpath × Int × Nat) (ca : List Bytes) : List Bytes :=
  r.1.recordedDirs ++ (ca.drop r.2.2).flatMap ordinary

section

variable {swpath : Swpath}

/-! ### In the catalog -/

theorem recorded_parseTwoCatalog (hcat : swpath.isCatalog ≠ 0)
    (hp : swpath.productControlDir = []) (hf : swpath.filesetControlDir = []) (ca0 ca1 : Bytes) :
    recorded (swpath.parseTwoCatalog ca1) [ca0, ca1] = ordinary ca1 ↔ swpath.FreshTwo ca1 := by
  rw [parseTwoCatalog, FreshTwo]
  split
  next hd => simp [recorded, recordedDirs, setPDfiles_eq, setVDfiles, hp, hf]
  next hd =>
    split
    next hpf =>
      simp [recorded, recordedDirs, setVDfiles, setVPfiles, setPPfiles_eq, setIsMinimalLayout, hp,
        hf, hpf]
    next =>
      split
      next hpf =>
        simp [recorded, recordedDirs, setVDfiles, setVPfiles, setPPfiles_eq, setIsMinimalLayout, hp,
          hf, hpf]
      next hpf =>
        split
        next hother =>
          simp only [setPFilesetDir, setVDfiles, setVPfiles, setPPfiles_eq, setFilesetControlDir_eq]
          split
          next => simp [recorded, recordedDirs, hp, hother]
          next => simp [recorded, recordedDirs, hother, setProductControlDir_of_ne, hcat]
        next hother =>
          split
          next hindex =>
            rw [if_pos ⟨hpf, hindex⟩]
            simp only [recorded, recordedDirs, hp, hf, ordinary_nil, List.nil_append]
            rw [List.drop_succ_cons, List.drop_zero, List.flatMap_singleton,
              List.append_left_eq_self, List.append_eq_nil_iff]
          next hindex =>
            -- A name that is not `INDEX` is that of `dfiles`, or another one.
            by_cases hnone : swpath.pDfiles = none
            · exact absurd (.inr ⟨hnone, hindex⟩) hd
            · exact absurd ⟨hnone, hindex, fun h => hd (.inl h)⟩ hother

/-- Where `pfiles` stands in three components. -/
theorem isInPfiles_cases (swpath : Swpath) (ca1 ca2 : Bytes) :
    swpath.isInPfiles ca1 ca2 = 0 ∧ ca2 ≠ swpath.pfiles ∧
      ¬(swpath.pDfiles ≠ none ∧ swpath.pPfiles = none ∧ swpath.pFilesetDir = false) ∨
    swpath.isInPfiles ca1 ca2 = 2 ∨
    swpath.isInPfiles ca1 ca2 = 3 ∧ ¬(swpath.pPfiles = none ∧ ca1 = swpath.pfilesDefault) := by
  rw [isInPfiles]
  split
  next => exact .inr (.inl rfl)
  next =>
    split
    next h => exact .inr (.inr ⟨rfl, fun hp => nomatch hp.1.symm.trans h⟩)
    next =>
      split
      next => exact .inr (.inl rfl)
      next h1 =>
        have hd : ¬(swpath.pPfiles = none ∧ ca1 = swpath.pfilesDefault) := fun hp => h1 (.inr hp.2)
        split
        next => exact .inr (.inr ⟨rfl, hd⟩)
        next h2 =>
          split
          next => exact .inr (.inr ⟨rfl, hd⟩)
          next h3 => exact .inl ⟨rfl, fun he => h2 (.inl he), h3⟩

theorem recordedDirs_parseThreePfiles (swpath : Swpath) (pfilesIndex : Nat) (ca2 : Bytes) :
    (swpath.parseThreePfiles pfilesIndex ca2).recordedDirs =
      ordinary (if pfilesIndex = 2 then [] else swpath.productControlDir) ++
        ordinary (swpath.keptPfiles ca2) := by
  obtain ⟨u, hu, hup, huf, hupf⟩ : ∃ u : Swpath,
      (if pfilesIndex = 2 then swpath.setProductControlDir [] else swpath).setPFilesetDir none = u ∧
        u.productControlDir = (if pfilesIndex = 2 then [] else swpath.productControlDir) ∧
        u.filesetControlDir = [] ∧ u.pfiles = swpath.pfiles := by
    refine ⟨_, rfl, ?_⟩
    rw [setPFilesetDir, setFilesetControlDir_eq, setProductControlDir_eq, kept_nil, kept_nil]
    split
    next => exact ⟨rfl, rfl, rfl⟩
    next => exact ⟨rfl, rfl, rfl⟩
  obtain ⟨v, hv, hvp, hvf, hvpf⟩ : ∃ v : Swpath,
      (if u.pfiles ≠ [] then u.setVPfiles u.pfiles
        else (u.setPPfiles (some ca2)).setVPfiles ca2) = v ∧
        v.productControlDir = u.productControlDir ∧ v.filesetControlDir = u.filesetControlDir ∧
        v.pfiles = swpath.keptPfiles ca2 := by
    refine ⟨_, rfl, ?_⟩
    rw [keptPfiles, ← hupf, setPPfiles_eq]
    split
    next => exact ⟨rfl, rfl, rfl⟩
    next => exact ⟨rfl, rfl, rfl⟩
  rw [parseThreePfiles, hu, hv, setPPfiles_eq, recordedDirs]
  dsimp only [setVDfiles]
  rw [hvp, hup, hvf, huf, hvpf, ordinary_nil, List.append_nil, List.append_nil]

/-- What three components in the catalog set before `pfiles` is looked at. -/
theorem parseThree_product (hcat : swpath.isCatalog ≠ 0) (ca1 : Bytes) :
    ∃ v : Swpath,
      (if swpath.pPfiles = none ∧ ca1 ≠ swpath.pfilesDefault then
        (swpath.setVDfiles []).setProductControlDir ca1
      else if swpath.pPfiles = none ∧ ca1 = swpath.pfilesDefault then
        ((swpath.setVDfiles []).setVPfiles ca1).setPPfiles (some ca1)
      else (swpath.setVDfiles []).setProductControlDir ca1) = v ∧
      v.isCatalog ≠ 0 ∧ v.dfiles = [] ∧
      ((swpath.pPfiles = none ∧ ca1 = swpath.pfilesDefault) ∧ v.pfiles = ca1 ∨
        ¬(swpath.pPfiles = none ∧ ca1 = swpath.pfilesDefault) ∧
          v.productControlDir = ca1 ∧ v.pfiles = swpath.pfiles) := by
  have hset := @setProductControlDir_of_ne (swpath.setVDfiles []) hcat ca1
  refine ⟨_, rfl, ?_⟩
  by_cases hin : swpath.pPfiles = none ∧ ca1 = swpath.pfilesDefault
  · rw [if_neg (fun h => h.2 hin.2), if_pos hin, setPPfiles_eq]
    exact ⟨hcat, rfl, .inl ⟨hin, rfl⟩⟩
  · rw [if_neg hin, ite_self, hset]
    exact ⟨hcat, rfl, .inr ⟨hin, rfl, rfl⟩⟩

/-- A product without a directory entry of its own: nothing of the one before is
left. -/
theorem parseThree_reset (hcat : swpath.isCatalog ≠ 0) (hp : swpath.productControlDir = []) :
    ∃ u : Swpath, (swpath.setPFilesetDir none).setPPfiles none = u ∧ u.isCatalog ≠ 0 ∧
      u.productControlDir = [] ∧ u.pFilesetDir = false ∧ u.pDfiles = swpath.pDfiles ∧
      u.pPfiles = swpath.pPfiles ∧ u.pfiles = swpath.pfiles ∧
      u.pfilesDefault = swpath.pfilesDefault ∧
      ∀ ca1 ca2, { swpath with pFilesetDir := false }.isInPfiles ca1 ca2 =
        u.isInPfiles ca1 ca2 := by
  refine ⟨_, rfl, ?_⟩
  rw [setPFilesetDir, setPPfiles_eq, setFilesetControlDir_eq]
  exact ⟨hcat, hp, rfl, rfl, Option.or_none, rfl, rfl, fun ca1 ca2 => by simp [isInPfiles]⟩

theorem recorded_parseThreeNotDfiles (hcat : swpath.isCatalog ≠ 0)
    (hp : swpath.productControlDir = []) (ca0 ca1 ca2 : Bytes)
    (hd : swpath.pDfiles ≠ none ∧ swpath.pDfiles ≠ some ca1) (hne : ca1 ≠ []) :
    recorded (swpath.parseThreeNotDfiles ca1 ca2) [ca0, ca1, ca2] = ordinary ca1 ++ ordinary ca2 ↔
      swpath.FreshThree ca1 ca2 := by
  have hnew : swpath.productControlDir ≠ ca1 := fun h => hne (h.symm.trans hp)
  obtain ⟨u, hreset, hucat, hup, hudir, hud, hpp, hpf, hpd, hindex⟩ := parseThree_reset hcat hp
  obtain ⟨v, hv, hvcat, hvd, hvcases⟩ := parseThree_product hucat ca1
  rw [parseThreeNotDfiles, FreshThree, if_pos hnew, hreset, if_pos hd, hindex, hv, ← hpp, ← hpd,
    keptPfiles, ← hpf]
  rcases isInPfiles_cases u ca1 ca2 with ⟨hi, hca2, hnot⟩ | hi | ⟨hi, hnot⟩
  · have hknown : u.pPfiles ≠ none := fun h => hnot ⟨hud ▸ hd.1, h, hudir⟩
    obtain ⟨hin, -⟩ | ⟨-, hvp, hvf⟩ := hvcases
    · exact absurd hin.1 hknown
    · rw [hi, if_neg (not_not.mpr rfl), if_pos (hvf ▸ hca2)]
      simp [recorded, recordedDirs, hvp, hvd, setVPfiles, setPFilesetDir, setFilesetControlDir_eq,
        kept_of_ne, hvcat]
  · rw [hi, if_pos (by decide)]
    simp only [recorded, recordedDirs_parseThreePfiles, keptPfiles]
    obtain ⟨hin, hvf⟩ | ⟨hin, -, hvf⟩ := hvcases
    · simp [hvf, hne, hin.1, ← hin.2]
    · simp [hvf, hin]
  · rw [hi, if_pos (by decide)]
    simp only [recorded, recordedDirs_parseThreePfiles, keptPfiles]
    obtain ⟨hin, -⟩ | ⟨-, hvp, hvf⟩ := hvcases
    · exact absurd hin hnot
    · simp [hvp, hvf]

theorem recorded_parseMoreNotDfiles (hcat : swpath.isCatalog ≠ 0)
    (hf : swpath.filesetControlDir = []) (ca0 ca1 ca2 : Bytes) (ca : List Bytes) :
    recorded (swpath.parseMoreNotDfiles ca1 ca2) (ca0 :: ca1 :: ca2 :: ca) =
        ordinary ca1 ++ (ordinary ca2 ++ ca.flatMap ordinary) ↔
      (ca2 = swpath.pfilesDefault ∨ ca2 = swpath.pfiles →
        ordinary (swpath.keptPfiles swpath.pfilesDefault) = ordinary ca2) := by
  rw [parseMoreNotDfiles, setProductControlDir_of_ne hcat]
  dsimp only
  split
  next h =>
    simp [recorded, recordedDirs, setFilesetControlDir_eq, kept_of_ne, hcat, setVPfiles, setVDfiles,
      setPFilesetDir, h]
  next h =>
    have hin : ca2 = swpath.pfilesDefault ∨ ca2 = swpath.pfiles := by
      by_contra hnot
      exact h (not_or.mp hnot)
    have hkept : ∀ u : Swpath, u.productControlDir = ca1 → u.filesetControlDir = [] →
        u.pfiles = swpath.keptPfiles swpath.pfilesDefault →
        recorded ((u.setPPfiles (some u.pfiles)).setVDfiles [], 1, 3) (ca0 :: ca1 :: ca2 :: ca) =
          ordinary ca1 ++
            (ordinary (swpath.keptPfiles swpath.pfilesDefault) ++ ca.flatMap ordinary) := by
      intro u hup huf hupf
      simp [recorded, recordedDirs, setPPfiles_eq, setVDfiles, hup, huf, hupf]
    rw [hkept _ (by split <;> rfl) (by split <;> exact hf) (by rw [keptPfiles]; split <;> rfl),
      List.append_right_inj, List.append_left_inj, imp_iff_right hin]

theorem parseCatalog_entered (hp : swpath.productControlDir = [])
    (hf : swpath.filesetControlDir = []) (n : Nat) :
    ∃ u, (swpath.setMaxRelN n).setIsCatalog 1 = u ∧ u.isCatalog ≠ 0 ∧
      u.productControlDir = [] ∧ u.filesetControlDir = [] ∧ ∀ ca, u.Fresh ca ↔ swpath.Fresh ca := by
  refine ⟨_, rfl, ?_⟩
  rw [setMaxRelN_eq]
  exact ⟨nofun, hp, hf, fun ca => Iff.rfl⟩

/-- In the catalog everything behind `catalog` is recorded when nothing is left of
earlier paths. -/
theorem recorded_catalog (hp : swpath.productControlDir = []) (hf : swpath.filesetControlDir = [])
    {ca : List Bytes} (hne : ∀ ca1 ca2, ca = [ca1, ca2] → ca1 ≠ []) :
    recorded (swpath.parseComponents (swACatalog :: ca)) (swACatalog :: ca) = ca.flatMap ordinary ↔
      swpath.Fresh (swACatalog :: ca) := by
  rcases ca with _ | ⟨ca1, _ | ⟨ca2, _ | ⟨ca3, ca⟩⟩⟩
  · obtain ⟨u, hu, hcat, hup, huf, hfresh⟩ := parseCatalog_entered hp hf 1
    rw [parseComponents, parseOne, if_pos rfl, hu, ← hfresh, Fresh, imp_iff_right rfl]
    simp [recorded, recordedDirs, hup, huf]
  · obtain ⟨u, hu, hcat, hup, huf, hfresh⟩ := parseCatalog_entered hp hf 2
    rw [parseComponents, parseTwo, if_pos rfl, hu, ← hfresh, Fresh, imp_iff_right rfl,
      ← recorded_parseTwoCatalog hcat hup huf swACatalog ca1, List.flatMap_singleton]
  · obtain ⟨u, hu, hcat, hup, huf, hfresh⟩ := parseCatalog_entered hp hf 3
    rw [parseComponents, parseThree, if_pos rfl, hu, ← hfresh, Fresh, imp_iff_right rfl,
      List.flatMap_cons, List.flatMap_singleton]
    dsimp only
    split
    next hd => exact recorded_parseThreeNotDfiles hcat hup swACatalog ca1 ca2 hd (hne ca1 ca2 rfl)
    next hd =>
      rw [FreshThree, if_neg hd]
      simp [recorded, recordedDirs, setPDfiles_eq, setVDfiles, hup, huf]
  · obtain ⟨u, hu, hcat, hup, huf, hfresh⟩ := parseCatalog_entered hp hf ((ca3 :: ca).length + 3)
    rw [parseComponents.eq_def]
    dsimp only
    rw [parseMore, if_pos rfl, hu, ← hfresh, Fresh.eq_def]
    dsimp only
    rw [if_pos rfl, FreshMore, List.flatMap_cons, List.flatMap_cons]
    split
    next hd => exact recorded_parseMoreNotDfiles hcat huf swACatalog ca1 ca2 (ca3 :: ca)
    next hd => simp [recorded, recordedDirs, hup, huf, ← List.append_assoc]

/-! ### In storage -/

/-- The first component of the name of the file, as `swpath_parse_path` takes it in
the end. -/
def lastCompy (r : Swpath × Int × Nat) : Nat :=
  if r.1.controlPathNominalDepth = 0 ∧ r.1.isCatalog = 0 then 0 else r.2.2

/-- The control directories of a path in storage: none, or the first two
components. -/
structure InStorage (swpath : Swpath) (r : Swpath × Int × Nat) (ca0 : Bytes) (ca : List Bytes) :
    Prop where
  isCatalog : r.1.isCatalog = 0
  degenerate : swpath.Degenerate →
    r.1.productControlDir = [] ∧ r.1.filesetControlDir = [] ∧ lastCompy r = 0
  control : ¬swpath.Degenerate →
    r.1.productControlDir = ca0 ∧ r.1.filesetControlDir = ca.headD [] ∧
      (ca0 :: ca).drop (lastCompy r) = ca.drop 1

theorem inStorage_unchanged {u : Swpath} (hcat : u.isCatalog = 0) (hp : u.productControlDir = [])
    (hf : u.filesetControlDir = []) (hn : swpath.maxRelN < swpathDegenN) (ca0 : Bytes)
    (ca : List Bytes) : InStorage swpath (u, 0, 0) ca0 ca where
  isCatalog := hcat
  degenerate _ := ⟨hp, hf, ite_self 0⟩
  control h := absurd (.inr hn) h

theorem inStorage_storageDirs {u : Swpath} (hcat : u.isCatalog = 0)
    (hp : u.productControlDir = []) (hf : u.filesetControlDir = [])
    (hd : u.controlPathNominalDepth = swpath.controlPathNominalDepth)
    (hn : u.maxRelN = swpath.maxRelN) (ca0 ca1 : Bytes) (ca : List Bytes) (keep : Bool) :
    InStorage swpath (u.storageDirs ca0 ca1 keep) ca0 (ca1 :: ca) ∧
      (u.storageDirs ca0 ca1 keep).1.dfiles = u.dfiles ∧
      (u.storageDirs ca0 ca1 keep).1.pfiles = u.pfiles := by
  rw [storageDirs]
  split
  next hlong =>
    have hset : ∃ pFilesetDir, (if keep then
        ((u.setProductControlDir ca0).setFilesetControlDir ca1).setPFilesetDir (some ca1)
        else (u.setProductControlDir ca0).setFilesetControlDir ca1) =
        { u with
          productControlDir := if u.controlPathNominalDepth = 0 then [] else ca0
          filesetControlDir := if u.controlPathNominalDepth = 0 then [] else ca1
          pFilesetDir := pFilesetDir } := by
      simp only [setPFilesetDir, setProductControlDir_of_storage, setFilesetControlDir_of_storage,
        hcat]
      cases keep with
      | false => exact ⟨u.pFilesetDir, rfl⟩
      | true => exact ⟨true, rfl⟩
    obtain ⟨dir, hset⟩ := hset
    dsimp only
    rw [hset]
    refine ⟨⟨hcat, ?_, ?_⟩, rfl, rfl⟩
    · intro hdeg
      have hzero : u.controlPathNominalDepth = 0 := by
        rw [hd]
        exact hdeg.resolve_right (by omega)
      exact ⟨if_pos hzero, if_pos hzero, if_pos ⟨hzero, hcat⟩⟩
    · intro hdeg
      have hnot : u.controlPathNominalDepth ≠ 0 := by
        rw [hd]
        exact fun h => hdeg (.inl h)
      have hcompy : lastCompy ({ u with
          productControlDir := if u.controlPathNominalDepth = 0 then [] else ca0
          filesetControlDir := if u.controlPathNominalDepth = 0 then [] else ca1
          pFilesetDir := dir }, 2, 2) = 2 := if_neg fun h => hnot h.1
      rw [hcompy]
      exact ⟨if_neg hnot, if_neg hnot, rfl⟩
  next hshort => exact ⟨inStorage_unchanged hcat hp hf (by omega) ca0 (ca1 :: ca), rfl, rfl⟩

/-- In storage everything behind the prepath is recorded when nothing is left of
earlier paths. -/
theorem inStorage_parseComponents (hp : swpath.productControlDir = [])
    (hf : swpath.filesetControlDir = []) {ca0 : Bytes} (hcat : ca0 ≠ swACatalog) (ca : List Bytes) :
    InStorage swpath (swpath.parseComponents (ca0 :: ca)) ca0 ca ∧
      (ordinary (swpath.parseComponents (ca0 :: ca)).1.dfiles ++
        ordinary (swpath.parseComponents (ca0 :: ca)).1.pfiles = [] ↔ swpath.Fresh (ca0 :: ca)) := by
  rcases ca with _ | ⟨ca1, _ | ⟨ca2, _ | ⟨ca3, ca⟩⟩⟩
  · rw [parseComponents, parseOne, if_neg hcat, Fresh]
    dsimp only
    split
    next hlong =>
      rw [setProductControlDir_of_storage rfl]
      refine ⟨⟨rfl, ?_, ?_⟩, iff_of_true rfl fun h => absurd h hcat⟩
      · intro hdeg
        have hzero : swpath.controlPathNominalDepth = 0 :=
          hdeg.resolve_right (Nat.not_lt.mpr hlong)
        exact ⟨if_pos hzero, hf, if_pos ⟨hzero, rfl⟩⟩
      · intro hdeg
        have hnot : swpath.controlPathNominalDepth ≠ 0 := fun h => hdeg (.inl h)
        refine ⟨if_neg hnot, hf, ?_⟩
        rw [lastCompy, if_neg fun h => hnot h.1]
        rfl
    next hshort =>
      exact ⟨@inStorage_unchanged swpath (((swpath.setVDfiles []).setVPfiles []).setIsCatalog 0)
        rfl hp hf (Nat.lt_of_not_le hshort) ca0 [], iff_of_true rfl fun h => absurd h hcat⟩
  · rw [parseComponents, parseTwo, if_neg hcat, Fresh]
    obtain ⟨hin, hd, hpf⟩ := @inStorage_storageDirs swpath
      (((swpath.setVDfiles []).setVPfiles []).setIsCatalog 0) rfl hp hf rfl rfl ca0 ca1 [] true
    rw [hd, hpf]
    exact ⟨hin, iff_of_true rfl fun h => absurd h hcat⟩
  · rw [parseComponents, parseThree, if_neg hcat, Fresh]
    obtain ⟨hin, hd, hpf⟩ := @inStorage_storageDirs swpath
      (((swpath.setIsCatalog 0).setVPfiles []).setVDfiles []) rfl hp hf rfl rfl ca0 ca1 [ca2] true
    rw [hd, hpf]
    exact ⟨hin, iff_of_true rfl fun h => absurd h hcat⟩
  · rw [parseComponents.eq_def, Fresh.eq_def]
    dsimp only
    rw [parseMore, if_neg hcat, if_neg hcat, ← List.append_eq_nil_iff]
    obtain ⟨hin, hd, hpf⟩ := @inStorage_storageDirs swpath (swpath.setIsCatalog 0) rfl hp hf rfl rfl
      ca0 ca1 (ca2 :: ca3 :: ca) false
    rw [hd, hpf]
    exact ⟨hin, Iff.rfl⟩

/-! ## The name of the file -/

@[simp] theorem recordedDirs_setPath (ca : List Bytes) (compy : Nat) :
    (swpath.setPath ca compy).recordedDirs = swpath.recordedDirs := by
  rw [setPath]
  split <;> rfl

theorem joinSlash_cons_cons (c d : Bytes) (ca : List Bytes) :
    joinSlash (c :: d :: ca) = c ++ slash :: joinSlash (d :: ca) := rfl

theorem ordinary_joinSlash (ca : List Bytes) : ordinary (joinSlash ca) = ca.flatMap ordinary := by
  induction ca with
  | nil => rfl
  | cons c ca ih =>
      cases ca with
      | nil => rw [joinSlash, List.flatMap_singleton]
      | cons d ca => rw [joinSlash_cons_cons, ordinary_append, ih, ← List.flatMap_cons]

/-- The pieces between the slashes make up the path. -/
theorem joinSlash_splitSlash (s : Bytes) : joinSlash (splitSlash s) = s := by
  induction s with
  | nil => rfl
  | cons c s ih =>
      obtain ⟨first, rest, hsplit⟩ := List.exists_cons_of_ne_nil (splitSlash_ne_nil s)
      rw [splitSlash]
      rw [hsplit] at ih ⊢
      split
      next h => rw [joinSlash_cons_cons, ih, h, List.nil_append]
      next =>
        rw [List.headD_cons, List.tail_cons]
        cases rest with
        | nil =>
            rw [joinSlash] at ih ⊢
            rw [ih]
        | cons d rest =>
            rw [joinSlash_cons_cons] at ih ⊢
            rw [List.cons_append, ih]

/-- The components from `compy` on are the name of the file. -/
theorem setPath_eq (h : swpath.pathname = []) (ca : List Bytes) (compy : Nat) :
    ∃ basename, swpath.setPath ca compy =
      { swpath with pathname := joinSlash (ca.drop compy), basename := basename } := by
  rw [setPath]
  split
  next => exact ⟨_, rfl⟩
  next hlen =>
    refine ⟨swpath.basename, ?_⟩
    rw [List.drop_of_length_le (by omega), joinSlash, ← h]

theorem pathname_setPath (h : swpath.pathname = []) (ca : List Bytes) (compy : Nat) :
    (swpath.setPath ca compy).pathname = joinSlash (ca.drop compy) := by
  obtain ⟨basename, hset⟩ := setPath_eq h ca compy
  rw [hset]

end

/-! ### It is set behind the components -/

section

variable (swpath : Swpath)

@[simp] theorem pathname_setProductControlDir (s : Bytes) :
    (swpath.setProductControlDir s).pathname = swpath.pathname := by
  rw [setProductControlDir_eq]

@[simp] theorem pathname_setFilesetControlDir (s : Bytes) :
    (swpath.setFilesetControlDir s).pathname = swpath.pathname := by
  rw [setFilesetControlDir_eq]

@[simp] theorem pathname_setPFilesetDir (name : Option Bytes) :
    (swpath.setPFilesetDir name).pathname = swpath.pathname := by
  cases name <;> exact pathname_setFilesetControlDir swpath _

@[simp] theorem pathname_setPPfiles (name : Option Bytes) :
    (swpath.setPPfiles name).pathname = swpath.pathname := by
  rw [setPPfiles_eq]

@[simp] theorem pathname_setPDfiles (name : Bytes) :
    (swpath.setPDfiles name).pathname = swpath.pathname := by
  rw [setPDfiles_eq]

@[simp] theorem pathname_setMaxRelN (n : Nat) :
    (swpath.setMaxRelN n).pathname = swpath.pathname := by
  rw [setMaxRelN_eq]

@[simp] theorem pathname_setVDfiles (s : Bytes) :
    (swpath.setVDfiles s).pathname = swpath.pathname := rfl

@[simp] theorem pathname_setVPfiles (s : Bytes) :
    (swpath.setVPfiles s).pathname = swpath.pathname := rfl

@[simp] theorem pathname_setIsCatalog (n : Int) :
    (swpath.setIsCatalog n).pathname = swpath.pathname := rfl

@[simp] theorem pathname_setIsMinimalLayout :
    swpath.setIsMinimalLayout.pathname = swpath.pathname := rfl

@[simp] theorem pathname_storageDirs (ca0 ca1 : Bytes) (keep : Bool) :
    (swpath.storageDirs ca0 ca1 keep).1.pathname = swpath.pathname := by
  rw [storageDirs]
  repeat' split
  all_goals simp

@[simp] theorem pathname_parseTwoCatalog (ca1 : Bytes) :
    (swpath.parseTwoCatalog ca1).1.pathname = swpath.pathname := by
  simp only [parseTwoCatalog]
  repeat' split
  all_goals simp

@[simp] theorem pathname_parseThreePfiles (pfilesIndex : Nat) (ca2 : Bytes) :
    (swpath.parseThreePfiles pfilesIndex ca2).pathname = swpath.pathname := by
  simp only [parseThreePfiles]
  repeat' split
  all_goals simp

@[simp] theorem pathname_parseThreeNotDfiles (ca1 ca2 : Bytes) :
    (swpath.parseThreeNotDfiles ca1 ca2).1.pathname = swpath.pathname := by
  simp only [parseThreeNotDfiles]
  repeat' split
  all_goals simp

@[simp] theorem pathname_parseMoreNotDfiles (ca1 ca2 : Bytes) :
    (swpath.parseMoreNotDfiles ca1 ca2).1.pathname = swpath.pathname := by
  simp only [parseMoreNotDfiles]
  repeat' split
  all_goals simp

/-- The name of the file is not set before the components are told apart. -/
theorem pathname_parseComponents (ca : List Bytes) :
    (swpath.parseComponents ca).1.pathname = swpath.pathname := by
  rcases ca with _ | ⟨ca0, _ | ⟨ca1, _ | ⟨ca2, _ | ⟨ca3, ca⟩⟩⟩⟩
  · rfl
  · simp only [parseComponents, parseOne]
    repeat' split
    all_goals simp
  · simp only [parseComponents, parseTwo]
    split <;> simp
  · simp only [parseComponents, parseThree]
    repeat' split
    all_goals simp
  · simp only [parseComponents, parseMore]
    repeat' split
    all_goals simp

end

/-! ## The formed path -/

section

variable {swpath : Swpath} {buf part : Bytes}

theorem ordinary_appendPart (buf part : Bytes) :
    ordinary (appendPart buf part) = ordinary buf ++ ordinary part := by
  rw [appendPart]
  split
  next => rw [List.append_assoc, List.singleton_append, ordinary_append]
  next h =>
    rw [not_not.mp h, List.append_nil, ordinary_nil, List.append_nil]

/-- The beginning of a formed path: the buffer and the product's control directory. -/
def productBuf (swpath : Swpath) (buf : Bytes) : Bytes :=
  (if swpath.productControlDir ≠ [] ∧ buf ≠ [] then buf ++ [slash] else buf) ++
    swpath.productControlDir

theorem formPath1_eq (swpath : Swpath) (buf : Bytes) :
    swpath.formPath1 buf = appendPart (appendPart (appendPart (appendPart (swpath.productBuf buf)
      swpath.filesetControlDir) swpath.dfiles) swpath.pfiles) swpath.pathname := rfl

theorem ordinary_productBuf (swpath : Swpath) (buf : Bytes) :
    ordinary (swpath.productBuf buf) = ordinary buf ++ ordinary swpath.productControlDir := by
  rw [productBuf]
  split
  next => rw [List.append_assoc, List.singleton_append, ordinary_append]
  next h =>
    by_cases hp : swpath.productControlDir = []
    · rw [hp, List.append_nil, ordinary_nil, List.append_nil]
    · rw [not_not.mp fun hb => h ⟨hp, hb⟩, List.nil_append, ordinary_nil, List.nil_append]

theorem ordinary_formPath1 (swpath : Swpath) (buf : Bytes) :
    ordinary (swpath.formPath1 buf) =
      ordinary buf ++ (swpath.recordedDirs ++ ordinary swpath.pathname) := by
  rw [formPath1_eq, ordinary_appendPart, ordinary_appendPart, ordinary_appendPart,
    ordinary_appendPart, ordinary_productBuf, recordedDirs]
  simp only [List.append_assoc]

/-- The catalog stands behind the prepath. -/
def catalogBuf (prepath : Bytes) : Bytes :=
  (if prepath.take 200 ≠ [] then prepath.take 200 ++ [slash] else prepath.take 200) ++ swACatalog

theorem formed_leading (h : swpath.isCatalog = -1) :
    swpath.swpathFormPath = swpath.prepath.take 200 := by
  rw [swpathFormPath, if_pos (by rw [h]; decide), swpathFormCatalogPath, h, if_pos (by decide)]

theorem formed_catalog (h : swpath.isCatalog = 1) :
    swpath.swpathFormPath = swpath.formPath1 (catalogBuf swpath.prepath) := by
  rw [swpathFormPath, if_pos (by rw [h]; decide), swpathFormCatalogPath, h, if_neg (by decide)]
  rfl

theorem formed_storage (h : swpath.isCatalog = 0) :
    swpath.swpathFormPath = swpath.formPath1 (swpath.prepath.take 200) := by
  rw [swpathFormPath, if_neg (not_not.mpr h)]
  rfl

theorem ordinary_catalogBuf (prepath : Bytes) :
    ordinary (catalogBuf prepath) = ordinary (prepath.take 200) ++ [swACatalog] := by
  have hcat : ordinary swACatalog = [swACatalog] := by decide
  rw [catalogBuf]
  split
  next => rw [List.append_assoc, List.singleton_append, ordinary_append, hcat]
  next h => rw [not_not.mp h, List.nil_append, ordinary_nil, List.nil_append, hcat]

/-! ### The slash in front -/

theorem isAbsolute_appendPart (h : buf ≠ []) (part : Bytes) :
    IsAbsolute (appendPart buf part) ↔ IsAbsolute buf := by
  rw [appendPart]
  split
  next => rw [List.append_assoc, isAbsolute_append h]
  next => exact isAbsolute_append h part

theorem appendPart_ne_nil (h : buf ≠ []) (part : Bytes) : appendPart buf part ≠ [] := by
  rw [appendPart]
  split
  next => exact List.append_ne_nil_of_left_ne_nil (List.append_ne_nil_of_left_ne_nil h _) _
  next => exact List.append_ne_nil_of_left_ne_nil h _

/-- Where something stands in front of the parts, they do not decide. -/
theorem isAbsolute_formPath1 (h : swpath.productBuf buf ≠ []) :
    IsAbsolute (swpath.formPath1 buf) ↔ IsAbsolute (swpath.productBuf buf) := by
  have hf := appendPart_ne_nil h swpath.filesetControlDir
  have hd := appendPart_ne_nil hf swpath.dfiles
  have hp := appendPart_ne_nil hd swpath.pfiles
  rw [formPath1_eq, isAbsolute_appendPart hp, isAbsolute_appendPart hd, isAbsolute_appendPart hf,
    isAbsolute_appendPart h]

theorem productBuf_of_ne (h : buf ≠ []) :
    swpath.productBuf buf ≠ [] ∧ (IsAbsolute (swpath.productBuf buf) ↔ IsAbsolute buf) := by
  rw [productBuf]
  split
  next =>
    have hslash : buf ++ [slash] ≠ [] := List.append_ne_nil_of_left_ne_nil h _
    exact ⟨List.append_ne_nil_of_left_ne_nil hslash _,
      (isAbsolute_append hslash _).trans (isAbsolute_append h _)⟩
  next => exact ⟨List.append_ne_nil_of_left_ne_nil h _, isAbsolute_append h _⟩

theorem productBuf_nil (swpath : Swpath) : swpath.productBuf [] = swpath.productControlDir := by
  rw [productBuf, if_neg fun h => h.2 rfl, List.nil_append]

/-- Without anything in front, the first part has a slash. -/
theorem slashed_appendPart (h : buf = [] ∨ IsAbsolute buf) (part : Bytes) :
    appendPart buf part = [] ∧ part = [] ∨ IsAbsolute (appendPart buf part) := by
  by_cases hpart : part = []
  · rw [appendPart, if_neg (not_not.mpr hpart), hpart, List.append_nil]
    exact h.imp_left fun hb => ⟨hb, rfl⟩
  · right
    rw [appendPart, if_pos hpart, List.append_assoc]
    rcases h with rfl | h
    · rfl
    · have hne : buf ≠ [] := fun hb => by rw [hb] at h; cases h
      exact (isAbsolute_append hne _).mpr h

theorem isAbsolute_formPath1_nil (h : swpath.productControlDir = [])
    (hname : swpath.pathname ≠ []) : IsAbsolute (swpath.formPath1 []) := by
  have hstart : swpath.productBuf [] = [] ∨ IsAbsolute (swpath.productBuf []) := by
    rw [productBuf_nil]
    exact .inl h
  have hf := (slashed_appendPart hstart swpath.filesetControlDir).imp_left And.left
  have hd := (slashed_appendPart hf swpath.dfiles).imp_left And.left
  have hp := (slashed_appendPart hd swpath.pfiles).imp_left And.left
  exact (slashed_appendPart hp swpath.pathname).resolve_left fun he => hname he.2

end

/-! ## What a path is read to -/

/-- The state once the components are read. -/
def behindState (u : Swpath) (ca : List Bytes) : Swpath :=
  (u.parseComponents ca).1.setPath ca (lastCompy (u.parseComponents ca))

section

variable {swpath next : Swpath} {name : Bytes} {ret : Int}

/-- At the start of a path only the prepath is looked for. -/
theorem startPath_eq (swpath : Swpath) (name : Bytes) :
    ∃ prepath pPrepath, swpath.startPath name =
      { swpath with
        swpackagePathname := name
        productControlDir := []
        filesetControlDir := []
        pathname := []
        basename := []
        prepath := prepath
        pPrepath := pPrepath } := by
  have hclear : ∀ (u : Swpath) (nd : Nat), u.controlDir nd [] = (u, []) := fun u nd => by
    rw [controlDir, if_neg (fun h => h rfl), ite_self]
  rw [startPath]
  simp only [setProductControlDir, setFilesetControlDir, hclear]
  split
  next => exact ⟨_, _, rfl⟩
  next =>
    rw [resolvePrepath]
    repeat' split
    all_goals exact ⟨_, _, rfl⟩

/-- Nothing that counts for `Fresh` is changed. -/
theorem startPath_fields (swpath : Swpath) (name : Bytes) (prepath : Bytes) :
    ∃ u : Swpath, { swpath.startPath name with prepath := prepath } = u ∧ u.prepath = prepath ∧
      u.productControlDir = [] ∧ u.filesetControlDir = [] ∧ u.pathname = [] ∧
      (∀ ca, u.Fresh ca ↔ swpath.Fresh ca) ∧ (u.Degenerate ↔ swpath.Degenerate) := by
  obtain ⟨p, known, hstart⟩ := startPath_eq swpath name
  refine ⟨_, rfl, ?_⟩
  rw [hstart]
  exact ⟨rfl, rfl, rfl, rfl, fun ca => Iff.rfl, Iff.rfl⟩

theorem startPath_gathered {prepath : Bytes} (h : swpath.gathered name = some prepath) :
    (swpath.startPath name).pPrepath = true ∧ (swpath.startPath name).prepath = prepath := by
  rw [gathered] at h
  split at h
  next hknown =>
    have hpos := @startPath_known swpath name hknown
    exact ⟨(congrArg Position.pPrepath hpos).trans hknown,
      (congrArg Position.prepath hpos).trans (Option.some.inj h)⟩
  next hunknown =>
    obtain ⟨len, hf, rfl⟩ := Option.map_eq_some_iff.mp h
    have hpos := startPath_found (by simpa using hunknown) hf
    exact ⟨congrArg Position.pPrepath hpos, congrArg Position.prepath hpos⟩

/-- A leading directory that continues the prepath gathered so far is the prepath. -/
theorem startPath_leading (h : swpath.gathered name = none)
    (hpre : swpath.prepath <+: prepathName name) :
    (swpath.startPath name).pPrepath = false ∧
      (swpath.startPath name).prepath = prepathName name := by
  rw [gathered] at h
  split at h
  next => cases h
  next hunknown =>
    have hunknown' : swpath.pPrepath = false := by simpa using hunknown
    have hf : findSub swACatalog (prepathName name) = none := Option.map_eq_none_iff.mp h
    obtain ⟨start, hpos, heq⟩ := startPath_cases swpath name
    have hstart : start.prepath = swpath.prepath := congrArg Position.prepath hpos
    have hknown : start.pPrepath = false := (congrArg Position.pPrepath hpos).trans hunknown'
    have hhas : resolvePrepath.hasPrepath start (prepathName name) = true := by
      rw [resolvePrepath.hasPrepath, hstart, findSub_isSome]
      exact hpre.isInfix
    rw [heq, hunknown', if_neg Bool.false_ne_true, resolvePrepath, hf]
    dsimp only
    rw [if_pos hhas]
    refine ⟨hknown, ?_⟩
    obtain ⟨rest, hrest⟩ := hpre
    dsimp only
    rw [hstart, ← hrest, List.drop_left]

theorem of_parseBehind {u : Swpath} (h : u.parseBehind name = some (next, ret)) :
    ∃ ca, ca = splitSlash (behindPrepath u.prepath (slashclean name)) ∧
      next = u.behindState ca := by
  rw [parseBehind] at h
  generalize splitSlash (behindPrepath u.prepath (slashclean name)) = ca at h
  dsimp only at h
  split at h
  next => cases h
  next =>
    generalize hr : u.parseComponents ca = r at h
    obtain ⟨hnext, -⟩ := Prod.mk.inj (Option.some.inj h)
    exact ⟨ca, rfl, by rw [behindState, hr, ← hnext, lastCompy]⟩

/-- A path with a known prepath that is accepted. -/
theorem parsed_behind (hparse : swpath.swpathParsePath name = some (next, ret)) (hret : 0 ≤ ret)
    (hknown : (swpath.startPath name).pPrepath = true) :
    { swpath.startPath name with
      prepath := slashclean (swpath.startPath name).prepath }.parseBehind name =
        some (next, ret) := by
  rw [swpathParsePath] at hparse
  generalize swpath.startPath name = start at hparse hknown
  dsimp only at hparse
  split at hparse
  next hunknown => cases hknown.symm.trans hunknown
  next =>
    split at hparse
    next =>
      obtain ⟨-, rfl⟩ := Prod.mk.inj (Option.some.inj hparse)
      exact absurd hret (by decide)
    next => exact hparse

/-- A leading directory. -/
theorem parsed_leading (hparse : swpath.swpathParsePath name = some (next, ret))
    (hunknown : (swpath.startPath name).pPrepath = false) :
    next = { swpath.startPath name with isCatalog := -1 } := by
  rw [swpathParsePath] at hparse
  dsimp only at hparse
  rw [if_pos hunknown] at hparse
  exact (Prod.mk.inj (Option.some.inj hparse)).1.symm

end

/-! ## Paths that are the same -/

theorem ordinary_prepathName (name : Bytes) : ordinary (prepathName name) = ordinary name := by
  rw [prepathName, ordinary_squashLeadingSlash, ordinary_squashLeadingDotSlash,
    ordinary_squashTrailingSlash]

theorem ordinary_slashclean (path : Bytes) : ordinary (slashclean path) = ordinary path := by
  rw [slashclean, ordinary_squashTrailingSlash]
  split
  next =>
    rw [ordinary_squashLeadingSlash, ordinary_squashLeadingDotSlash, ordinary_squashDoubleSlash]
  next => rw [ordinary_squashLeadingDotSlash, ordinary_squashDoubleSlash]

/-- Of a cleaned path only a single slash is left in front. -/
theorem length_of_isAbsolute_slashclean {path : Bytes} (h : IsAbsolute (slashclean path)) :
    (slashclean path).length ≤ 1 := by
  rw [slashclean] at h ⊢
  have hdouble : ¬[slash, slash] <:+:
      swlibSquashLeadingDotSlash (swlibSquashDoubleSlash path) := fun hin =>
    noDouble_squashDoubleSlash path (hin.trans (squashLeadingDotSlash_suffix _).isInfix)
  generalize swlibSquashLeadingDotSlash (swlibSquashDoubleSlash path) = p at h hdouble ⊢
  have hinit := squashTrailingSlash_initial (if 1 < p.length then swlibSquashLeadingSlash p else p)
  have hwhole : IsAbsolute (if 1 < p.length then swlibSquashLeadingSlash p else p) := by
    obtain ⟨rest, hrest⟩ := hinit
    rw [← hrest]
    exact (isAbsolute_append (fun he => by rw [he] at h; cases h) rest).mpr h
  split at hwhole
  next =>
    rw [swlibSquashLeadingSlash] at hwhole
    split at hwhole
    next hslash =>
      -- A second slash would have been squashed before.
      obtain ⟨q, rfl⟩ := List.head?_eq_some_iff.mp hslash
      obtain ⟨r, hr⟩ := List.head?_eq_some_iff.mp hwhole
      rw [List.drop_one, List.tail_cons] at hr
      exact absurd ⟨[], r, by rw [hr]; rfl⟩ hdouble
    next hslash => exact absurd hwhole hslash
  next hshort =>
    rw [if_neg hshort] at hinit ⊢
    exact hinit.length_le.trans (Nat.le_of_not_lt hshort)

/-- A prepath does not begin with a slash. -/
theorem Kept.not_isAbsolute {prepath name : Bytes} (h : Kept prepath (slashclean name)) :
    ¬IsAbsolute prepath := by
  intro habs
  rcases h with rfl | ⟨rest, hrest⟩
  · cases habs
  · have hne : prepath ≠ [] := by
      rintro rfl
      cases habs
    have hpath : IsAbsolute (slashclean name) := by
      rw [← hrest, List.append_assoc]
      exact (isAbsolute_append hne _).mpr habs
    have hlen := length_of_isAbsolute_slashclean hpath
    have hpos := List.length_pos_iff.mpr hne
    rw [← hrest, List.length_append, List.length_append, List.length_singleton] at hlen
    omega

/-- The components of a path are those of its prepath and those behind it. -/
theorem Kept.ordinary_eq {prepath name : Bytes} (h : Kept prepath (slashclean name)) :
    ordinary name = ordinary prepath ++
      (splitSlash (behindPrepath prepath (slashclean name))).flatMap ordinary := by
  obtain ⟨-, hcomp⟩ := behindPrepath_spec h (noDouble_slashclean name)
  rw [← ordinary_joinSlash, joinSlash_splitSlash, ← ordinary_slashclean name, ordinary, hcomp,
    List.filter_append, ordinary, ordinary]

/-! ## One path -/

section

variable {u : Swpath} {ca0 : Bytes} {ca : List Bytes}

theorem isCatalog_parseComponents (u : Swpath) (ca0 : Bytes) (ca : List Bytes) :
    (u.parseComponents (ca0 :: ca)).1.isCatalog = (if ca0 = swACatalog then 1 else 0) ∧
      (u.parseComponents (ca0 :: ca)).1.prepath = u.prepath := by
  have hpos := position_parseComponents u ca0 ca
  exact ⟨congrArg Position.isCatalog hpos, congrArg Position.prepath hpos⟩

theorem isCatalog_behindState (u : Swpath) (ca0 : Bytes) (ca : List Bytes) :
    (u.behindState (ca0 :: ca)).isCatalog = (if ca0 = swACatalog then 1 else 0) ∧
      (u.behindState (ca0 :: ca)).prepath = u.prepath := by
  have hpos := position_setPath (u.parseComponents (ca0 :: ca)).1 (ca0 :: ca)
    (lastCompy (u.parseComponents (ca0 :: ca)))
  obtain ⟨hcat, hpre⟩ := isCatalog_parseComponents u ca0 ca
  exact ⟨(congrArg Position.isCatalog hpos).trans hcat, (congrArg Position.prepath hpos).trans hpre⟩

/-- What is formed behind the prepath. -/
theorem ordinary_behindState (hn : u.pathname = []) (buf : Bytes) :
    ordinary ((u.behindState ca).formPath1 buf) =
      ordinary buf ++ ((u.parseComponents ca).1.recordedDirs ++
        (ca.drop (lastCompy (u.parseComponents ca))).flatMap ordinary) := by
  rw [ordinary_formPath1, behindState, recordedDirs_setPath,
    pathname_setPath ((pathname_parseComponents u ca).trans hn), ordinary_joinSlash]

/-- A path in the catalog. -/
theorem ordinary_formed_catalog (hp : u.productControlDir = []) (hf : u.filesetControlDir = [])
    (hn : u.pathname = []) (hne : ∀ ca1 ca2, ca = [ca1, ca2] → ca1 ≠ []) :
    ordinary (u.behindState (swACatalog :: ca)).swpathFormPath =
        ordinary (u.prepath.take 200) ++ (swACatalog :: ca).flatMap ordinary ↔
      u.Fresh (swACatalog :: ca) := by
  obtain ⟨hcat, hpre⟩ := isCatalog_behindState u swACatalog ca
  rw [if_pos rfl] at hcat
  have hlast : lastCompy (u.parseComponents (swACatalog :: ca)) =
      (u.parseComponents (swACatalog :: ca)).2.2 := by
    obtain ⟨hone, -⟩ := isCatalog_parseComponents u swACatalog ca
    rw [lastCompy, hone, if_pos rfl]
    exact if_neg fun h => absurd h.2 (by decide)
  have hname : ordinary swACatalog = [swACatalog] := by decide
  rw [← recorded_catalog hp hf hne, formed_catalog hcat, ordinary_behindState hn, hpre,
    ordinary_catalogBuf, hlast, List.flatMap_cons, hname, List.append_assoc, List.append_right_inj,
    List.append_right_inj, recorded]

/-- A path in storage. -/
theorem ordinary_formed_storage (hp : u.productControlDir = []) (hf : u.filesetControlDir = [])
    (hn : u.pathname = []) (hca0 : ca0 ≠ swACatalog) :
    ordinary (u.behindState (ca0 :: ca)).swpathFormPath =
        ordinary (u.prepath.take 200) ++ (ca0 :: ca).flatMap ordinary ↔
      u.Fresh (ca0 :: ca) := by
  obtain ⟨hcat, hpre⟩ := isCatalog_behindState u ca0 ca
  rw [if_neg hca0] at hcat
  obtain ⟨hin, hfresh⟩ := inStorage_parseComponents hp hf hca0 ca
  rw [← hfresh, formed_storage hcat, ordinary_behindState hn, hpre, List.append_right_inj,
    recordedDirs]
  by_cases hdeg : u.Degenerate
  · obtain ⟨hproduct, hfileset, hlast⟩ := hin.degenerate hdeg
    rw [hproduct, hfileset, hlast, ordinary_nil, List.nil_append, List.nil_append, List.drop_zero,
      List.append_left_eq_self]
  · obtain ⟨hproduct, hfileset, hlast⟩ := hin.control hdeg
    have hrest : ca.flatMap ordinary = ordinary (ca.headD []) ++ (ca.drop 1).flatMap ordinary := by
      cases ca with
      | nil => rfl
      | cons ca1 ca => rfl
    rw [hproduct, hfileset, hlast, List.flatMap_cons, hrest]
    simp only [List.append_assoc, List.append_right_inj]
    rw [← List.append_assoc, List.append_left_eq_self]

/-- A formed path in the catalog has no slash in front, -/
theorem not_isAbsolute_formed_catalog (hpre : ¬IsAbsolute (u.prepath.take 200)) :
    ¬IsAbsolute (u.behindState (swACatalog :: ca)).swpathFormPath := by
  obtain ⟨hcat, hprepath⟩ := isCatalog_behindState u swACatalog ca
  rw [if_pos rfl] at hcat
  have hbuf : catalogBuf u.prepath ≠ [] := by
    rw [catalogBuf]
    exact List.append_ne_nil_of_right_ne_nil _ (by decide)
  have hrel : ¬IsAbsolute (catalogBuf u.prepath) := by
    rw [catalogBuf]
    split
    next h =>
      rwa [List.append_assoc, isAbsolute_append h]
    next h =>
      rw [not_not.mp h]
      decide
  obtain ⟨hne, hiff⟩ := @productBuf_of_ne (u.behindState (swACatalog :: ca)) _ hbuf
  rw [formed_catalog hcat, hprepath, isAbsolute_formPath1 hne, hiff]
  exact hrel

@[simp] theorem productControlDir_setPath (swpath : Swpath) (ca : List Bytes) (compy : Nat) :
    (swpath.setPath ca compy).productControlDir = swpath.productControlDir := by
  rw [setPath]
  split <;> rfl

/-- Where nothing stands behind an empty prepath, nothing is formed. -/
theorem formPath1_behindState_nil (hp : u.productControlDir = []) (hf : u.filesetControlDir = [])
    (hn : u.pathname = []) : (u.behindState [[]]).formPath1 [] = [] := by
  have hne : ([] : Bytes) ≠ swACatalog := by decide
  have hparts : ∃ v r, u.parseComponents [[]] = (v, r) ∧ v.productControlDir = [] ∧
      v.filesetControlDir = [] ∧ v.dfiles = [] ∧ v.pfiles = [] ∧ v.pathname = [] := by
    rw [parseComponents, parseOne, if_neg hne]
    dsimp only
    split
    next =>
      rw [setProductControlDir_of_storage rfl]
      exact ⟨_, _, rfl, ite_self [], hf, rfl, rfl, hn⟩
    next => exact ⟨_, _, rfl, hp, hf, rfl, rfl, hn⟩
  obtain ⟨v, r, hv, hproduct, hfileset, hdfiles, hpfiles, hname⟩ := hparts
  obtain ⟨basename, hset⟩ := setPath_eq hname [[]] (lastCompy (v, r))
  have hjoin : joinSlash (([[]] : List Bytes).drop (lastCompy (v, r))) = [] := by
    cases lastCompy (v, r) with
    | zero => rfl
    | succ n => rw [List.drop_succ_cons, List.drop_nil, joinSlash]
  rw [behindState, hv, hset, hjoin, formPath1_eq, productBuf_nil, hproduct, hfileset, hdfiles,
    hpfiles]
  rfl

/-- and one in storage has one when there is neither a prepath nor a control
directory. -/
theorem isAbsolute_formed_storage {s : Bytes} (hp : u.productControlDir = [])
    (hf : u.filesetControlDir = []) (hn : u.pathname = []) (hca0 : ca0 ≠ swACatalog)
    (hs : ca0 :: ca = splitSlash s) (hrel : ¬IsAbsolute s)
    (hpre : ¬IsAbsolute (u.prepath.take 200)) :
    IsAbsolute (u.behindState (ca0 :: ca)).swpathFormPath ↔
      u.prepath = [] ∧ u.Degenerate ∧ s ≠ [] := by
  obtain ⟨hcat, hprepath⟩ := isCatalog_behindState u ca0 ca
  rw [if_neg hca0] at hcat
  rw [formed_storage hcat, hprepath]
  by_cases hempty : u.prepath = []
  · obtain ⟨hin, -⟩ := inStorage_parseComponents hp hf hca0 ca
    rw [hempty, List.take_nil]
    cases s with
    | nil =>
        obtain ⟨rfl, rfl⟩ := List.cons.inj hs
        rw [formPath1_behindState_nil hp hf hn]
        exact iff_of_false nofun fun h => h.2.2 rfl
    | cons c s =>
        by_cases hdeg : u.Degenerate
        · obtain ⟨hproduct, -, hlast⟩ := hin.degenerate hdeg
          have hname : (u.behindState (ca0 :: ca)).pathname = c :: s := by
            rw [behindState, pathname_setPath ((pathname_parseComponents u _).trans hn), hlast,
              List.drop_zero, hs, joinSlash_splitSlash]
          refine iff_of_true (isAbsolute_formPath1_nil ?_ ?_) ⟨rfl, hdeg, List.cons_ne_nil c s⟩
          · rw [behindState, productControlDir_setPath, hproduct]
          · rw [hname]
            exact List.cons_ne_nil c s
        · obtain ⟨hproduct, -, -⟩ := hin.control hdeg
          have hc : c ≠ slash := fun he => hrel (congrArg some he)
          have hhead : ca0 = c :: s.takeWhile (· != slash) := by
            have hfirst := head?_splitSlash (c :: s)
            rw [← hs, List.takeWhile_cons_of_pos (by simpa using hc)] at hfirst
            exact Option.some.inj hfirst
          have hbuf : (u.behindState (ca0 :: ca)).productBuf [] = ca0 := by
            rw [productBuf_nil, behindState, productControlDir_setPath, hproduct]
          have hne : (u.behindState (ca0 :: ca)).productBuf [] ≠ [] := by
            rw [hbuf, hhead]
            exact List.cons_ne_nil _ _
          rw [isAbsolute_formPath1 hne, hbuf, hhead]
          exact iff_of_false (fun h => hc (Option.some.inj h)) fun h => hdeg h.2.1
  · have hbuf : u.prepath.take 200 ≠ [] := by
      cases hu : u.prepath with
      | nil => exact absurd hu hempty
      | cons c p => exact List.cons_ne_nil _ _
    obtain ⟨hne, hiff⟩ := @productBuf_of_ne (u.behindState (ca0 :: ca)) _ hbuf
    rw [isAbsolute_formPath1 hne, hiff]
    exact iff_of_false hpre fun h => hempty h.1

end

section

variable {swpath next : Swpath} {name prepath : Bytes} {ret : Int}

/-- Between two slashes stands a component. -/
theorem middle_ne_nil {s : Bytes} (hd : ¬[slash, slash] <:+: s) {ca0 ca1 ca2 : Bytes}
    (h : splitSlash s = [ca0, ca1, ca2]) : ca1 ≠ [] := by
  rintro rfl
  refine hd ⟨ca0, ca2, ?_⟩
  have hjoin := joinSlash_splitSlash s
  rw [h, joinSlash_cons_cons, joinSlash_cons_cons, joinSlash, List.nil_append] at hjoin
  rw [← hjoin, List.append_assoc]
  rfl

theorem behindPrepath_suffix (prepath path : Bytes) : behindPrepath prepath path <:+ path := by
  rw [behindPrepath]
  split
  next => exact (List.drop_suffix 1 _).trans (List.drop_suffix _ path)
  next => exact List.drop_suffix _ path

theorem not_isAbsolute_take (h : ¬IsAbsolute prepath) (n : Nat) : ¬IsAbsolute (prepath.take n) := by
  intro habs
  obtain ⟨rest, hrest⟩ := List.take_prefix n prepath
  have hne : prepath.take n ≠ [] := fun he => by
    rw [he] at habs
    cases habs
  refine h ?_
  rw [← hrest]
  exact (isAbsolute_append hne rest).mpr habs

/-- A leading directory that continues the one before is formed exactly when the
prepath is copied whole and the slash in front agrees. -/
theorem samePath_leading (hgathered : swpath.gathered name = none)
    (hparse : swpath.swpathParsePath name = some (next, ret))
    (hpre : swpath.prepath <+: prepathName name) :
    SamePath next.swpathFormPath name ↔ swpath.FormableLeading name := by
  obtain ⟨hunknown, hprepath⟩ := startPath_leading hgathered hpre
  have hnext := parsed_leading hparse hunknown
  have hcat : next.isCatalog = -1 := by rw [hnext]
  have hform : next.swpathFormPath = (prepathName name).take 200 := by
    rw [formed_leading hcat, hnext, hprepath]
  have habs : IsAbsolute ((prepathName name).take 200) ↔ IsAbsolute (prepathName name) :=
    ⟨fun h => by_contra fun hn => not_isAbsolute_take hn 200 h, fun h => by
      obtain ⟨s, hs⟩ := List.head?_eq_some_iff.mp h
      rw [hs]
      rfl⟩
  rw [SamePath, FormableLeading, and_iff_right hpre, Fits, hform, ← ordinary_prepathName name, habs,
    and_comm]
  exact and_congr_right fun _ => iff_comm

/-- A path that stands behind its prepath, with the prepath copied whole, is formed
exactly when nothing is left of earlier paths and the slash in front agrees. -/
theorem samePath_behind (hgathered : swpath.gathered name = some prepath)
    (hparse : swpath.swpathParsePath name = some (next, ret)) (hret : 0 ≤ ret)
    (hkept : Kept (slashclean prepath) (slashclean name)) (hfits : Fits (slashclean prepath)) :
    SamePath next.swpathFormPath name ↔ swpath.FormableBehind (slashclean prepath) name := by
  obtain ⟨hknown, hpre⟩ := startPath_gathered hgathered
  have hbehind := parsed_behind hparse hret hknown
  rw [hpre] at hbehind
  obtain ⟨u, hu, hup, hproduct, hfileset, hname, hfresh, hdeg⟩ :=
    startPath_fields swpath name (slashclean prepath)
  rw [hu] at hbehind
  obtain ⟨ca, hca, hnext⟩ := of_parseBehind hbehind
  rw [hup] at hca
  obtain ⟨hrel, -⟩ := behindPrepath_spec hkept (noDouble_slashclean name)
  have hord := hkept.ordinary_eq
  have hcut := not_isAbsolute_take hkept.not_isAbsolute 200
  rw [SamePath, FormableBehind, and_iff_right hkept, and_iff_right hfits, ← hfresh, ← hdeg, hord,
    ← hfits, hnext, ← hca]
  rw [← hup] at hcut ⊢
  obtain ⟨ca0, rest, rfl⟩ := List.exists_cons_of_ne_nil (hca ▸ splitSlash_ne_nil _)
  rw [and_comm]
  by_cases hcat : ca0 = swACatalog
  · subst hcat
    have hmiddle : ∀ ca1 ca2, rest = [ca1, ca2] → ca1 ≠ [] := by
      rintro ca1 ca2 rfl
      refine middle_ne_nil (fun hin => ?_) hca.symm
      exact noDouble_slashclean name (hin.trans (behindPrepath_suffix _ _).isInfix)
    refine and_congr (ordinary_formed_catalog hproduct hfileset hname hmiddle) ?_
    have hnone : ¬(u.prepath = [] ∧ (swACatalog :: rest).head? ≠ some swACatalog ∧
        u.Degenerate ∧ behindPrepath u.prepath (slashclean name) ≠ []) := fun h => h.2.1 rfl
    rw [iff_false_left (not_isAbsolute_formed_catalog hcut), iff_false_right hnone]
  · refine and_congr (ordinary_formed_storage hproduct hfileset hname hcat) ?_
    have hhead : (ca0 :: rest).head? ≠ some swACatalog := fun h => hcat (Option.some.inj h)
    rw [isAbsolute_formed_storage hproduct hfileset hname hcat hca hrel hcut, and_iff_right hhead,
      hup]
    exact iff_comm

/-- A path can be formed exactly when it is joined and formed. -/
theorem formable_iff (hparse : swpath.swpathParsePath name = some (next, ret)) (hret : 0 ≤ ret) :
    swpath.Formable name ↔ swpath.Joined name ∧ SamePath next.swpathFormPath name := by
  rw [Formable, Joined]
  split
  next hgathered =>
    constructor
    · intro h
      exact ⟨h.1, (samePath_leading hgathered hparse h.1).mpr h⟩
    · intro h
      exact (samePath_leading hgathered hparse h.1).mp h.2
  next prepath hgathered =>
    constructor
    · intro h
      exact ⟨⟨h.1, h.2.1⟩, (samePath_behind hgathered hparse hret h.1 h.2.1).mpr h⟩
    · intro h
      exact (samePath_behind hgathered hparse hret h.1.1 h.1.2).mp h.2

end

/-! ## A sequence of paths -/

theorem allFormable_iff (swpath : Swpath) (names : List Bytes) :
    swpath.AllFormable names ↔ swpath.AllJoined names ∧ swpath.AllFormed names := by
  induction names generalizing swpath with
  | nil => exact (and_self_iff).symm
  | cons name names ih =>
      rw [AllFormable, AllJoined, AllFormed]
      split
      next => exact (and_self_iff).symm
      next next ret hparse =>
        have hone : (0 ≤ ret → swpath.Formable name) ↔
            (0 ≤ ret → swpath.Joined name) ∧ (0 ≤ ret → SamePath next.swpathFormPath name) := by
          rw [← imp_and]
          exact imp_congr_right fun hret => formable_iff hparse hret
        rw [hone, ih, and_and_and_comm]

/-- Of the paths fed to a new state every one that is accepted is formed as it was,
if every one of them can be formed. -/
theorem allFormed_of_allFormable {names : List Bytes} (h : swpathOpen.AllFormable names) :
    swpathOpen.AllFormed names :=
  ((allFormable_iff swpathOpen names).mp h).2

/-- A package with a leading directory, a product and a fileset. -/
def formedPackage : List Bytes :=
  let a := chars ['a']
  let p := chars ['p']
  let f := chars ['f']
  [a, joinSlash [a, swACatalog], joinSlash [a, swACatalog, indexName],
    joinSlash [a, swACatalog, swpathOpen.dfilesDefault, indexName],
    joinSlash [a, swACatalog, p, swpathOpen.pfilesDefault, indexName],
    joinSlash [a, swACatalog, p, f, indexName], joinSlash [a, p, f, a, f]]

theorem allFormed_formedPackage :
    (swpathOpen.parseAll formedPackage).map (·.1) = some [-1, 1, 1, 1, 1, 1, 0] ∧
      swpathOpen.AllFormed formedPackage :=
  ⟨by decide +kernel, allFormed_of_allFormable (by decide +kernel)⟩

/-- The catalog of a package whose prepath has 201 bytes. -/
def longName : Bytes := List.replicate 201 97 ++ slash :: swACatalog

set_option maxRecDepth 4000 in
/-- Of a longer prepath the end is lost. -/
theorem longName_not_formed : ¬∀ names : List Bytes, swpathOpen.AllFormed names := by
  intro h
  have hlong : ¬swpathOpen.AllFormed [longName] := by decide +kernel
  exact hlong (h [longName])

end Swpath

end Swbis.Misc
