import Mathlib.Data.List.Induction
import Swbis.Lib.CString
import Swbis.Lib.ObjList

/-!
# Objects by software selection

A package holds products and a product holds filesets, each in an array of ten
cells that ends with `NULL`.  `find_object_by_swsel` looks for the object that a
selection `tag[,versionids]` names, with a number if one is given.

It takes every parent for a package.  In a product the pointer to the pfiles
stands where a package has its array, so there the loop meets the pfiles first
and then the filesets.

`findObjectRight_iff` says when it finds the object that is named.
-/

namespace Swbis.Swi

open CLib

/-! ## The code -/

/-- `SWI_BASE`: the tag and the number of an object. -/
structure SwiBase where
  /-- `b_tagM` -/
  bTag : CString
  /-- `numberM`, which may be `NULL`. -/
  number : Option CString

/-- `SWI_MAX_OBJ` -/
def swiMaxObj : Nat := 10

/-- `swiInitListOfObjects` -/
def swiInitListOfObjects : List (Option SwiBase) := List.replicate swiMaxObj none

/-- The loop of `swiAddObjectToList`, over `n` more cells. -/
def swiAddObjectLoop (p : SwiBase) : Nat → List (Option SwiBase) → Option (List (Option SwiBase))
  | n + 1, some o :: pp => (swiAddObjectLoop p n pp).map (some o :: ·)
  | _ + 1, none :: pp => some (some p :: pp)
  | _ + 1, [] => none
  | 0, _ => none

/-- `swiAddObjectToList`: the cells after it, or that the program exits. -/
def swiAddObjectToList (pp : List (Option SwiBase)) (p : SwiBase) :
    Option (List (Option SwiBase)) :=
  swiAddObjectLoop p (swiMaxObj - 1) pp

/-- What is searched: the array of a package, or of a product with its pfiles. -/
inductive SwiParent where
  | package (swiCo : ObjList SwiBase swiMaxObj)
  | product (xfile : Option SwiBase) (swiCo : ObjList SwiBase swiMaxObj)

/-- The object that a cell points to. -/
inductive SwiObject where
  | pfiles
  | contained (i : Nat)
deriving DecidableEq

namespace SwiParent

/-- The contained objects. -/
def objs : SwiParent → List SwiBase
  | package swiCo => swiCo.objs
  | product _ swiCo => swiCo.objs

/-- The ten cells behind the base, where a package has its array. -/
def cells : SwiParent → List (Option SwiBase)
  | package swiCo => swiCo.cells
  | product xfile swiCo => xfile :: swiCo.cells.take (swiMaxObj - 1)

/-- What one of these cells points to. -/
def pointee : SwiParent → Nat → SwiObject
  | package _, i => .contained i
  | product _ _, 0 => .pfiles
  | product _ _, i + 1 => .contained i

end SwiParent

/-- The bytes before the comma, or all of them: `verid_delim - swsel`. -/
def veridDelim (swsel : CString) : Nat := (swsel.bytes.takeWhile (· != 44)).length

/-- `strncmp (s, t, n) == 0` -/
def strncmpEq (s t : CString) (n : Nat) : Bool := s.bytes.take n == t.bytes.take n

/-- Two numbers that are both there and differ. -/
def otherNumber : Option CString → Option CString → Bool
  | some n, some m => n != m
  | _, _ => false

/-- What the loop of `find_object_by_swsel` tests. -/
def swselMatches (swsel : CString) (number : Option CString) (object : SwiBase) : Bool :=
  strncmpEq swsel object.bTag (veridDelim swsel) && !otherNumber number object.number

/-- The loop of `find_object_by_swsel`, from the cell `i` on. -/
def findObjectLoop (swsel : CString) (number : Option CString) :
    Nat → List (Option SwiBase) → Option Nat
  | i, some object :: cells =>
      if swselMatches swsel number object then some i
      else findObjectLoop swsel number (i + 1) cells
  | _, none :: _ => none
  | _, [] => none

/-- `find_object_by_swsel`: the object returned, if one is, and `*p_index`. -/
def findObjectBySwsel (parent : SwiParent) (swsel : CString) (number : Option CString) :
    Option SwiObject × Int :=
  match findObjectLoop swsel number 0 parent.cells with
  | some i => (some (parent.pointee i), i)
  | none => (none, -1)

/-! ## The arrays -/

theorem swiAddObjectLoop_objs (p : SwiBase) (n : Nat) (objs : List SwiBase)
    (behind : List (Option SwiBase)) :
    swiAddObjectLoop p n (objs.map some ++ none :: behind) =
      if objs.length < n then some ((objs ++ [p]).map some ++ behind) else none := by
  induction objs generalizing n with
  | nil => cases n <;> rfl
  | cons o objs ih =>
      cases n with
      | zero => rfl
      | succ n =>
          change (swiAddObjectLoop p n (objs.map some ++ none :: behind)).map (some o :: ·) = _
          rw [ih]
          simp only [List.length_cons, Nat.add_lt_add_iff_right]
          split <;> rfl

/-- One more object is added behind the others while there are fewer than nine. -/
theorem swiAddObjectToList_eq (l : ObjList SwiBase swiMaxObj) (p : SwiBase) :
    swiAddObjectToList l.cells p =
      if h : l.objs.length + 1 < swiMaxObj then some (l.add p h).cells else none := by
  rw [swiAddObjectToList, l.cells_eq, swiAddObjectLoop_objs]
  split
  · next hroom =>
      rw [dif_pos (by omega), ObjList.cells, ObjList.add, List.length_append, List.length_singleton,
        Nat.sub_add_eq]
  · next hfull => rw [dif_neg (by omega)]

/-- Objects that are added one after another to an array that is set up make up its list. -/
theorem exists_objList_of_added {ps : List SwiBase} {cells : List (Option SwiBase)}
    (h : ps.foldlM swiAddObjectToList swiInitListOfObjects = some cells) :
    ∃ l : ObjList SwiBase swiMaxObj, l.cells = cells ∧ l.objs = ps := by
  induction ps using List.reverseRecOn generalizing cells with
  | nil =>
      refine ⟨.empty (by decide), ?_, rfl⟩
      exact Option.some.inj h
  | append_singleton ps p ih =>
      rw [List.foldlM_append] at h
      obtain ⟨before, hbefore, hadd⟩ := Option.bind_eq_some_iff.mp h
      obtain ⟨l, rfl, rfl⟩ := ih hbefore
      rw [List.foldlM_cons, swiAddObjectToList_eq] at hadd
      obtain ⟨after, hadd, hnil⟩ := Option.bind_eq_some_iff.mp hadd
      cases hnil
      split at hadd
      next hroom =>
        cases hadd
        exact ⟨l.add p hroom, rfl, rfl⟩
      next => cases hadd

/-! ## The property -/

/-- The tag of a selection, the part before the comma. -/
def selTag (swsel : CString) : CString where
  bytes := swsel.bytes.takeWhile (· != 44)
  noNul h := swsel.noNul ((List.takeWhile_sublist _).subset h)

/-- The object has the tag of the selection, and the number if one is given. -/
def Named (swsel : CString) (number : Option CString) (object : SwiBase) : Bool :=
  object.bTag == selTag swsel && (number.isNone || object.number == number)

/-- The cells up to the last object. -/
def SwiParent.filled : SwiParent → Nat
  | .package swiCo => swiCo.objs.length
  | .product _ swiCo => swiCo.objs.length + 1

/-- The search for an object is right. -/
structure FindObjectRight (parent : SwiParent) (swsel : CString) (number : Option CString) :
    Prop where
  /-- The first contained object that is named is returned, `NULL` if there is none. -/
  found : (findObjectBySwsel parent swsel number).1 =
    (parent.objs.findIdx? (Named swsel number)).map SwiObject.contained
  /-- What stands behind the cell after the last object is not looked at. -/
  bounded : ∀ cells, cells.take (parent.filled + 1) = parent.cells.take (parent.filled + 1) →
    findObjectLoop swsel number 0 cells = findObjectLoop swsel number 0 parent.cells

/-- No object that the loop takes for the one that is named comes before it.  The
loop takes an object with the tag of the selection at the front of its own, and
with no other number. -/
def SelectionClear (swsel : CString) (number : Option CString) : SwiParent → Prop
  | .package swiCo => FirstGood (Named swsel number) (swselMatches swsel number) swiCo.objs
  | .product none swiCo => ∀ object ∈ swiCo.objs, Named swsel number object = false
  | .product (some xfile) swiCo =>
      swselMatches swsel number xfile = false ∧
        FirstGood (Named swsel number) (swselMatches swsel number) swiCo.objs

/-! ## The loop -/

theorem take_veridDelim (swsel : CString) :
    swsel.bytes.take (veridDelim swsel) = (selTag swsel).bytes :=
  (List.prefix_iff_eq_take.mp (List.takeWhile_prefix _)).symm

/-- The comparison is of the tag of the selection with the front of the tag. -/
theorem strncmpEq_veridDelim {swsel tag : CString} :
    strncmpEq swsel tag (veridDelim swsel) = true ↔ (selTag swsel).bytes <+: tag.bytes := by
  rw [strncmpEq, beq_iff_eq, take_veridDelim, List.prefix_iff_eq_take]
  rfl

/-- What is named passes the test. -/
theorem swselMatches_of_named {swsel : CString} {number : Option CString} {object : SwiBase}
    (h : Named swsel number object = true) : swselMatches swsel number object = true := by
  obtain ⟨htag, hnumber⟩ := Bool.and_eq_true_iff.mp h
  rw [swselMatches, Bool.and_eq_true, strncmpEq_veridDelim, beq_iff_eq.mp htag]
  refine ⟨List.prefix_rfl, ?_⟩
  cases number with
  | none => rfl
  | some n =>
      rw [Option.isNone_some, Bool.false_or, beq_iff_eq] at hnumber
      rw [hnumber, otherNumber, bne_self_eq_false]
      rfl

theorem findObjectLoop_eq (swsel : CString) (number : Option CString) (i : Nat)
    (cells : List (Option SwiBase)) :
    findObjectLoop swsel number i cells =
      ((untilNull cells).findIdx? (swselMatches swsel number)).map (· + i) := by
  induction cells generalizing i with
  | nil => rfl
  | cons cell cells ih =>
      cases cell with
      | none => rfl
      | some object =>
          rw [findObjectLoop, untilNull, List.findIdx?_cons]
          split
          · rw [Option.map_some, Nat.zero_add]
          · rw [ih, Option.map_map]
            congr 1
            funext j
            exact (Nat.succ_add_eq_add_succ j i).symm

theorem untilNull_product (xfile : SwiBase) (swiCo : ObjList SwiBase swiMaxObj) :
    untilNull (SwiParent.product (some xfile) swiCo).cells = xfile :: swiCo.objs := by
  have hle : swiCo.objs.length ≤ swiMaxObj - 1 := Nat.le_pred_of_lt swiCo.short
  rw [SwiParent.cells, untilNull, untilNull_take, swiCo.untilNull_cells,
    List.take_of_length_le hle]

theorem length_untilNull_cells_le (parent : SwiParent) :
    (untilNull parent.cells).length ≤ parent.filled := by
  cases parent with
  | package swiCo => exact Nat.le_of_eq (congrArg List.length swiCo.untilNull_cells)
  | product xfile swiCo =>
      cases xfile with
      | none => exact Nat.zero_le _
      | some xfile => exact Nat.le_of_eq (congrArg List.length (untilNull_product xfile swiCo))

/-- No parent makes the loop look too far. -/
theorem findObjectLoop_bounded (parent : SwiParent) (swsel : CString) (number : Option CString)
    (cells : List (Option SwiBase))
    (h : cells.take (parent.filled + 1) = parent.cells.take (parent.filled + 1)) :
    findObjectLoop swsel number 0 cells = findObjectLoop swsel number 0 parent.cells := by
  rw [findObjectLoop_eq, findObjectLoop_eq, untilNull_congr h (length_untilNull_cells_le parent)]

/-- What is returned, by the objects that the loop meets. -/
theorem findObjectBySwsel_fst (parent : SwiParent) (swsel : CString) (number : Option CString) :
    (findObjectBySwsel parent swsel number).1 =
      ((untilNull parent.cells).findIdx? (swselMatches swsel number)).map parent.pointee := by
  rw [findObjectBySwsel, findObjectLoop_eq]
  cases (untilNull parent.cells).findIdx? (swselMatches swsel number) <;> rfl

theorem contained_injective : Function.Injective SwiObject.contained :=
  fun _ _ h => SwiObject.contained.inj h

/-! ## When it is right -/

variable {swsel : CString} {number : Option CString}

theorem found_package_iff {swiCo : ObjList SwiBase swiMaxObj} :
    (findObjectBySwsel (.package swiCo) swsel number).1 =
        (swiCo.objs.findIdx? (Named swsel number)).map SwiObject.contained ↔
      SelectionClear swsel number (.package swiCo) := by
  rw [findObjectBySwsel_fst, SwiParent.cells, swiCo.untilNull_cells, SelectionClear,
    ← findIdx?_eq_iff_firstGood fun _ => swselMatches_of_named]
  exact (Option.map_injective contained_injective).eq_iff

theorem found_product_none_iff {swiCo : ObjList SwiBase swiMaxObj} :
    (findObjectBySwsel (.product none swiCo) swsel number).1 =
        (swiCo.objs.findIdx? (Named swsel number)).map SwiObject.contained ↔
      SelectionClear swsel number (.product none swiCo) := by
  rw [findObjectBySwsel_fst, SelectionClear]
  change none = _ ↔ _
  rw [eq_comm, Option.map_eq_none_iff, List.findIdx?_eq_none_iff]

theorem found_product_some_iff {xfile : SwiBase} {swiCo : ObjList SwiBase swiMaxObj} :
    (findObjectBySwsel (.product (some xfile) swiCo) swsel number).1 =
        (swiCo.objs.findIdx? (Named swsel number)).map SwiObject.contained ↔
      SelectionClear swsel number (.product (some xfile) swiCo) := by
  rw [findObjectBySwsel_fst, untilNull_product, SelectionClear, List.findIdx?_cons]
  cases hx : swselMatches swsel number xfile with
  | true =>
      refine iff_of_false (fun h => ?_) fun h => Bool.noConfusion h.1
      change some SwiObject.pfiles = _ at h
      obtain ⟨i, _, hi⟩ := Option.map_eq_some_iff.mp h.symm
      exact nomatch hi
  | false =>
      rw [if_neg Bool.false_ne_true, Option.map_map, and_iff_right rfl,
        ← findIdx?_eq_iff_firstGood fun _ => swselMatches_of_named]
      exact (Option.map_injective contained_injective).eq_iff

/-- The object that is named is found just when no other is taken for it. -/
theorem findObjectRight_iff (parent : SwiParent) (swsel : CString) (number : Option CString) :
    FindObjectRight parent swsel number ↔ SelectionClear swsel number parent := by
  have hfound : (findObjectBySwsel parent swsel number).1 =
      (parent.objs.findIdx? (Named swsel number)).map SwiObject.contained ↔
        SelectionClear swsel number parent := by
    cases parent with
    | package swiCo => exact found_package_iff
    | product xfile swiCo =>
        cases xfile with
        | none => exact found_product_none_iff
        | some xfile => exact found_product_some_iff
  exact ⟨fun h => hfound.mp h.found,
    fun h => ⟨hfound.mpr h, findObjectLoop_bounded parent swsel number⟩⟩

/-- The product `foobar` is taken for `foo`. -/
theorem not_findObjectRight_foobar :
    ¬ FindObjectRight
      (.package ⟨[⟨⟨chars ['f', 'o', 'o', 'b', 'a', 'r'], by decide⟩, none⟩,
        ⟨⟨chars ['f', 'o', 'o'], by decide⟩, none⟩], by decide⟩)
      ⟨chars ['f', 'o', 'o'], by decide⟩ none := by
  intro hright
  exact absurd hright.found (by decide)

end Swbis.Swi
