import Mathlib.Algebra.Group.Int.Defs
import Mathlib.Algebra.Group.Nat.Defs
import Mathlib.Data.List.Basic
import Mathlib.Data.List.Induction
import Swbis.Lib.Memory

/-!
# Lists of pointers

`swPtrList` is an array of pointers with its length and the length that is
reserved for it.  It grows by ten slots when it is full, and what is in the new
slots is anybody's guess.

`list_insert` looks at the slots from the second one to the one behind the last,
and moves one slot too many.  `list_del` moves the slots down from wherever it is
told, and takes the pointer that it does not find for the one at -1.

`Call.Safe` says which calls do not come to harm by this.  A list that is only
used in this way is the list that one expects (`run_refines`).
-/

namespace Swbis.SwStruct

open CLib

/-! ## The code -/

/-- `swPtrList<T>`, for a type `P` of pointers. -/
structure SwPtrList (P : Type) where
  /-- `list_`, the slots of the array. -/
  list : List P
  /-- `listlen_` -/
  listlen : Int
  /-- `reslen_` -/
  reslen : Int

/-- The slots of a new array, before anything is stored in them. -/
abbrev FreshSlots (P : Type) := Vector P 10

/-- `RESERVE_SIZE` -/
def reserveSize : Int := 10

/-- The largest `int`. -/
def ptrIntMax : Int := 2 ^ 31 - 1

section

variable {P : Type} [DecidableEq P]

/-- `swPtrList ()` -/
def newSwPtrList (fresh : FreshSlots P) : SwPtrList P := ⟨fresh.toList, 0, reserveSize⟩

/-- `get_pointer_from_index` -/
def getPointerFromIndex (null : P) (l : SwPtrList P) (index : Int) : Outcome P :=
  if l.listlen ≤ index ∨ index < 0 then .returned null else loadSlot l.list index

/-- `re_allocate`: the pointers are copied to an array that is ten slots longer. -/
def reAllocate (fresh : FreshSlots P) (l : SwPtrList P) : Outcome (SwPtrList P) :=
  if ptrIntMax < l.listlen + reserveSize ∨ l.list.length < l.listlen then .fault
  else .returned ⟨l.list.take l.listlen.toNat ++ fresh.toList, l.listlen, l.listlen + reserveSize⟩

/-- `if (listlen_ >= reslen_) re_allocate();` -/
def makeRoom (fresh : FreshSlots P) (l : SwPtrList P) : Outcome (SwPtrList P) :=
  if l.reslen ≤ l.listlen then reAllocate fresh l else .returned l

/-- `list_add` -/
def listAdd (fresh : FreshSlots P) (node : P) (l : SwPtrList P) : Outcome (Int × SwPtrList P) := do
  let l ← makeRoom fresh l
  let list ← storeSlot l.list l.listlen node
  return (0, { l with list, listlen := l.listlen + 1 })

/-- The inner loop of `list_insert`: `n` slots from `i` on are moved up by one. -/
def shiftUp (i : Int) : Nat → List P → Outcome (List P)
  | 0, list => .returned list
  | n + 1, list => do
      let p ← loadSlot list (i + n)
      let list ← storeSlot list (i + n + 1) p
      shiftUp i n list

/-- The loop of `list_insert`, with `n` more slots to look at. -/
def insertLoop (before node : P) (l : SwPtrList P) : Nat → Int → Outcome (Int × SwPtrList P)
  | 0, _ => .returned (-1, l)
  | n + 1, i => do
      -- `i++` comes before the slot is looked at
      let i := i + 1
      let p ← loadSlot l.list i
      if p = before then
        let list ← shiftUp i (l.listlen + 1 - i).toNat l.list
        let list ← storeSlot list i node
        return (0, { l with list, listlen := l.listlen + 1 })
      else insertLoop before node l n i

/-- `list_insert` -/
def listInsert (fresh : FreshSlots P) (before node : P) (l : SwPtrList P) :
    Outcome (Int × SwPtrList P) := do
  let l ← makeRoom fresh l
  insertLoop before node l l.listlen.toNat 0

/-- `list_del_P` -/
def listDelP (index : Int) (l : SwPtrList P) : Outcome (Int × SwPtrList P) :=
  if index + 1 = l.listlen then .returned (0, { l with listlen := l.listlen - 1 })
  else do
    let list ← moveSlots l.list index (index + 1) (l.listlen - index - 1)
    return (0, { l with list, listlen := l.listlen - 1 })

/-- The loop of `get_index_from_pointer`, with `n` more slots to look at. -/
def indexLoop (p : P) (list : List P) : Nat → Int → Outcome Int
  | 0, _ => .returned (-1)
  | n + 1, i => do
      let q ← loadSlot list i
      if p = q then return i else indexLoop p list n (i + 1)

/-- `get_index_from_pointer` -/
def getIndexFromPointer (p : P) (l : SwPtrList P) : Outcome Int :=
  indexLoop p l.list l.listlen.toNat 0

/-- A call. -/
inductive Call (P : Type) where
  | add (node : P)
  | insert (before node : P)
  /-- `list_del (int)` -/
  | delIndex (index : Int)
  /-- `list_del (T *)` -/
  | del (node : P)
  | get (index : Int)

/-- What a call returns. -/
inductive Reply (P : Type) where
  | code (r : Int)
  | pointer (p : P)
deriving DecidableEq

/-- A call, given what a new array would be like. -/
def Call.perform (null : P) (fresh : FreshSlots P) (l : SwPtrList P) :
    Call P → Outcome (Reply P × SwPtrList P)
  | .add node => do
      let r ← listAdd fresh node l
      return (.code r.1, r.2)
  | .insert before node => do
      let r ← listInsert fresh before node l
      return (.code r.1, r.2)
  | .delIndex index => do
      let r ← listDelP index l
      return (.code r.1, r.2)
  | .del node => do
      let index ← getIndexFromPointer node l
      let r ← listDelP index l
      return (.code r.1, r.2)
  | .get index => do
      let p ← getPointerFromIndex null l index
      return (.pointer p, l)

/-- One call after another. -/
def performAll (null : P) :
    List (FreshSlots P × Call P) → SwPtrList P → Outcome (List (Reply P) × SwPtrList P)
  | [], l => .returned ([], l)
  | (fresh, call) :: calls, l => do
      let r ← call.perform null fresh l
      let rs ← performAll null calls r.2
      return (r.1 :: rs.1, rs.2)

/-! ## The list that one expects -/

/-- Insert a pointer in front of the first one that is another. -/
def insertBefore (before node : P) : List P → List P
  | [] => []
  | x :: xs => if x = before then node :: x :: xs else x :: insertBefore before node xs

/-- The pointer at an index, or `NULL`. -/
def pointerAt (null : P) (xs : List P) (index : Int) : P :=
  if 0 ≤ index then (xs[index.toNat]?).getD null else null

/-- A call on the list. -/
def Call.expected (null : P) (xs : List P) : Call P → Reply P × List P
  | .add node => (.code 0, xs ++ [node])
  | .insert before node => (.code (if before ∈ xs then 0 else -1), insertBefore before node xs)
  | .delIndex index => (.code 0, if 0 ≤ index then xs.eraseIdx index.toNat else xs)
  | .del node => (.code 0, xs.erase node)
  | .get index => (.pointer (pointerAt null xs index), xs)

/-- One call on the list after another. -/
def expectedAll (null : P) : List (FreshSlots P × Call P) → List P → List (Reply P) × List P
  | [], xs => ([], xs)
  | (_, call) :: calls, xs =>
      let r := call.expected null xs
      let rs := expectedAll null calls r.2
      (r.1 :: rs.1, rs.2)

/-- The list has these pointers, and `NULL` behind the last of them. -/
def Stores (null : P) (l : SwPtrList P) (xs : List P) : Prop :=
  l.listlen = xs.length ∧
    ∀ index, getPointerFromIndex null l index = .returned (pointerAt null xs index)

/-! ## The array -/

/-- The array holds the pointers, and its lengths are right. -/
structure SwPtrList.Holds (l : SwPtrList P) (xs : List P) : Prop where
  listlen_eq : l.listlen = xs.length
  list_eq : ∃ spare, l.list = xs ++ spare
  reslen_eq : l.reslen = l.list.length
  /-- The array has grown by ten slots each time, and still fits. -/
  grown : l.reslen % 10 = 0 ∧ l.reslen ≤ ptrIntMax

end

/-- The most pointers that an array holds. -/
def ptrListMax : Int := 2147483640

section

variable {P : Type} {l : SwPtrList P} {xs : List P} {null : P}

theorem newSwPtrList_holds (fresh : FreshSlots P) : (newSwPtrList fresh).Holds [] where
  listlen_eq := rfl
  list_eq := ⟨fresh.toList, rfl⟩
  reslen_eq := by simp [newSwPtrList, reserveSize]
  grown := by simp [newSwPtrList, reserveSize, ptrIntMax]

theorem SwPtrList.Holds.stored_eq (h : l.Holds xs) : l.list.take l.listlen.toNat = xs := by
  obtain ⟨spare, hlist⟩ := h.list_eq
  rw [h.listlen_eq, Int.toNat_natCast, hlist, List.take_left]

theorem SwPtrList.Holds.stores (h : l.Holds xs) : Stores null l xs := by
  refine ⟨h.listlen_eq, fun index => ?_⟩
  obtain ⟨spare, hlist⟩ := h.list_eq
  rw [getPointerFromIndex, h.listlen_eq, pointerAt]
  by_cases hneg : index < 0
  · rw [if_pos (.inr hneg), if_neg (Int.not_le.mpr hneg)]
  · obtain ⟨i, rfl⟩ := Int.eq_ofNat_of_zero_le (Int.not_lt.mp hneg)
    rw [if_pos (Int.natCast_nonneg i), Int.toNat_natCast]
    rcases Nat.lt_or_ge i xs.length with hlt | hge
    · rw [if_neg (by omega), loadSlot, if_pos (Int.natCast_nonneg i), Int.toNat_natCast, hlist,
        List.getElem?_append_left hlt, List.getElem?_eq_getElem hlt]
      rfl
    · rw [if_pos (.inl (by omega)), List.getElem?_eq_none hge]
      rfl

/-- There is room for one more, in the array or in a longer one. -/
theorem SwPtrList.Holds.makeRoom (h : l.Holds xs) (fresh : FreshSlots P) (hmax : l.listlen < ptrListMax) :
    ∃ l', makeRoom fresh l = .returned l' ∧ l'.Holds xs ∧ l'.listlen < l'.reslen ∧
      (l.listlen + 1 ≠ l.reslen → l'.listlen + 1 < l'.reslen) ∧
      ∃ spare, l'.list ++ spare = l.list ++ fresh.toList := by
  obtain ⟨spare, hlist⟩ := h.list_eq
  obtain ⟨hmod, hle⟩ := h.grown
  have hreslen := h.reslen_eq
  have hlistlen := h.listlen_eq
  have hlen : l.list.length = xs.length + spare.length := by rw [hlist, List.length_append]
  rw [SwStruct.makeRoom]
  rw [ptrIntMax] at hle
  rw [ptrListMax] at hmax
  by_cases hfull : l.reslen ≤ l.listlen
  · have hspare : spare = [] := List.eq_nil_of_length_eq_zero (by omega)
    have hfits : ¬(ptrIntMax < l.listlen + reserveSize ∨ (l.list.length : Int) < l.listlen) := by
      rw [ptrIntMax, reserveSize]
      omega
    have htake : l.list.take l.listlen.toNat = xs := by
      rw [hlistlen, Int.toNat_natCast, hlist, List.take_left]
    rw [if_pos hfull, reAllocate, if_neg hfits, htake]
    refine ⟨_, rfl, ⟨hlistlen, ⟨fresh.toList, rfl⟩, ?_, ?_⟩, ?_, fun _ => ?_, [], ?_⟩
    · change l.listlen + 10 = ((xs ++ fresh.toList).length : Int)
      rw [List.length_append, Vector.length_toList]
      omega
    · change (l.listlen + 10) % 10 = 0 ∧ l.listlen + 10 ≤ 2 ^ 31 - 1
      omega
    · change l.listlen < l.listlen + 10
      omega
    · change l.listlen + 1 < l.listlen + 10
      omega
    · rw [hlist, hspare, List.append_nil, List.append_nil]
  · rw [if_neg hfull]
    exact ⟨l, rfl, h, Int.not_le.mp hfull, fun hne => by omega, fresh.toList, rfl⟩

/-- Where there is room, there is a slot behind the last pointer. -/
theorem SwPtrList.Holds.exists_behind (h : l.Holds xs) (hroom : l.listlen < l.reslen) :
    ∃ y spare, l.list = xs ++ y :: spare := by
  obtain ⟨spare, hlist⟩ := h.list_eq
  cases spare with
  | nil =>
      have hreslen := h.reslen_eq
      rw [hlist, List.append_nil, ← h.listlen_eq] at hreslen
      omega
  | cons y spare => exact ⟨y, spare, hlist⟩

/-- The array after a change of its slots. -/
theorem SwPtrList.Holds.change (h : l.Holds xs) {list : List P} (hlen : list.length = l.list.length)
    {ys : List P} (hys : ∃ spare, list = ys ++ spare) :
    SwPtrList.Holds { l with list, listlen := ys.length } ys where
  listlen_eq := rfl
  list_eq := hys
  reslen_eq := by
    rw [hlen]
    exact h.reslen_eq
  grown := h.grown

/-! ## Adding and deleting -/

theorem SwPtrList.Holds.listAdd (h : l.Holds xs) (fresh : FreshSlots P)
    (hmax : l.listlen < ptrListMax) (node : P) :
    ∃ l', listAdd fresh node l = .returned (0, l') ∧ l'.Holds (xs ++ [node]) := by
  obtain ⟨l₁, hroom, hholds, hlt, -, -⟩ := h.makeRoom fresh hmax
  obtain ⟨y, spare, hlist⟩ := hholds.exists_behind hlt
  have hlen := hholds.listlen_eq
  have hstore : storeSlot l₁.list l₁.listlen node = .returned (xs ++ node :: spare) := by
    rw [hlist, hlen]
    exact storeSlot_append rfl y node spare
  have hnew : l₁.listlen + 1 = ((xs ++ [node]).length : Int) := by
    rw [List.length_append, List.length_singleton]
    omega
  simp only [SwStruct.listAdd, hroom, hstore, Outcome.returned_bind, Outcome.pure_eq, hnew]
  refine ⟨_, rfl, hholds.change ?_ ⟨spare, by rw [List.append_assoc]; rfl⟩⟩
  rw [hlist, List.length_append, List.length_append]
  rfl

/-- One of the pointers is deleted. -/
theorem SwPtrList.Holds.listDelP (h : l.Holds xs) {i : Nat} (hi : i < xs.length) :
    ∃ l', listDelP i l = .returned (0, l') ∧ l'.Holds (xs.eraseIdx i) := by
  obtain ⟨spare, hlist⟩ := h.list_eq
  have hlen := h.listlen_eq
  obtain ⟨a, x, s, rfl, rfl⟩ : ∃ a x s, xs = a ++ x :: s ∧ a.length = i :=
    ⟨xs.take i, xs[i], xs.drop (i + 1), by rw [List.getElem_cons_drop, List.take_append_drop],
      List.length_take_of_le hi.le⟩
  have herase : (a ++ x :: s).eraseIdx a.length = a ++ s := by
    rw [List.eraseIdx_append_of_length_le (Nat.le_refl _), Nat.sub_self, List.eraseIdx_zero]
    rfl
  have hxs : (a ++ x :: s).length = a.length + s.length + 1 := by
    rw [List.length_append, List.length_cons, Nat.add_assoc]
  have hnew : l.listlen - 1 = ((a ++ s).length : Int) := by
    rw [List.length_append]
    omega
  rw [herase, SwStruct.listDelP, hnew]
  by_cases hlast : ((a.length : Nat) : Int) + 1 = l.listlen
  · have hs : s = [] := List.eq_nil_of_length_eq_zero (by omega)
    rw [if_pos hlast]
    refine ⟨_, rfl, h.change rfl ⟨x :: spare, ?_⟩⟩
    rw [hlist, hs, List.append_nil, List.append_assoc]
    rfl
  · obtain ⟨rest, hmove, hrest⟩ := moveSlots_down a x s spare
    have hcount : l.listlen - ((a.length : Nat) : Int) - 1 = s.length := by omega
    have hshape : l.list = a ++ x :: (s ++ spare) := by
      rw [hlist, List.append_assoc]
      rfl
    rw [if_neg hlast, hcount, hshape, ← Int.natCast_succ, hmove, Outcome.returned_bind]
    refine ⟨_, rfl, h.change ?_ ⟨rest, by rw [List.append_assoc]⟩⟩
    rw [hshape]
    simp only [List.length_append, List.length_cons, hrest]
    omega

end

section

variable {P : Type} [DecidableEq P] {l : SwPtrList P} {xs : List P} {null : P}
  {fresh : FreshSlots P}

/-- The first slot with a pointer is found. -/
theorem indexLoop_eq {p : P} {list pre s rest : List P} (hlist : list = pre ++ (s ++ p :: rest))
    (hs : p ∉ s) {n : Nat} (hn : s.length < n) :
    indexLoop p list n (pre.length : Nat) = .returned ((pre.length + s.length : Nat) : Int) := by
  induction s generalizing pre n with
  | nil =>
      obtain ⟨m, rfl⟩ := Nat.exists_eq_succ_of_ne_zero (Nat.ne_of_gt hn)
      rw [indexLoop, hlist, List.nil_append, loadSlot_append rfl, Outcome.returned_bind, if_pos rfl]
      rfl
  | cons q s ih =>
      obtain ⟨m, rfl⟩ := Nat.exists_eq_succ_of_ne_zero (Nat.ne_of_gt (Nat.lt_of_le_of_lt (Nat.zero_le _) hn))
      have hq : p ≠ q := fun hpq => hs (hpq ▸ List.mem_cons_self)
      have hpre : list = (pre ++ [q]) ++ (s ++ p :: rest) := by
        rw [hlist, List.append_assoc]
        rfl
      have hnext := ih hpre (fun hp => hs (List.mem_cons_of_mem _ hp)) (Nat.lt_of_succ_lt_succ hn)
      rw [List.length_append, List.length_singleton] at hnext
      rw [indexLoop, hlist, List.cons_append, loadSlot_append rfl, Outcome.returned_bind, if_neg hq,
        ← List.cons_append, ← hlist, ← Int.natCast_succ, hnext, List.length_cons]
      congr 2
      omega

theorem SwPtrList.Holds.getIndex (h : l.Holds xs) {p : P} (hp : p ∈ xs) :
    getIndexFromPointer p l = .returned ((xs.idxOf p : Nat) : Int) := by
  obtain ⟨spare, hlist⟩ := h.list_eq
  obtain ⟨s, rest, hxs, hs⟩ := List.eq_append_cons_of_mem hp
  have hidx : xs.idxOf p = s.length := by
    rw [hxs, List.idxOf_append_of_notMem hs, List.idxOf_cons_self, Nat.add_zero]
  have hshape : l.list = [] ++ (s ++ p :: (rest ++ spare)) := by
    rw [hlist, hxs, List.append_assoc]
    rfl
  have hlt : s.length < xs.length := by
    rw [hxs, List.length_append, List.length_cons]
    omega
  have hloop := indexLoop_eq hshape hs hlt
  rw [List.length_nil, Nat.zero_add] at hloop
  rw [getIndexFromPointer, h.listlen_eq, Int.toNat_natCast, hidx]
  exact hloop

/-! ## Inserting -/

omit [DecidableEq P] in
/-- The slots are moved up over the one behind them, and the first of them is free. -/
theorem shiftUp_eq (a : List P) (s : List P) (x : P) (b : List P) :
    ∃ z, shiftUp (a.length : Nat) s.length (a ++ (s ++ x :: b)) = .returned (a ++ z :: (s ++ b)) := by
  induction s using List.reverseRecOn generalizing x b with
  | nil => exact ⟨x, rfl⟩
  | append_singleton s y ih =>
      have hload : loadSlot (a ++ (s ++ [y] ++ x :: b)) (((a.length : Nat) : Int) + (s.length : Nat)) =
          .returned y := by
        rw [← Int.natCast_add, List.append_assoc, ← List.append_assoc a]
        exact loadSlot_append List.length_append y (x :: b)
      have hstore : storeSlot (a ++ (s ++ [y] ++ x :: b)) (((a.length : Nat) : Int) + (s.length : Nat) + 1)
          y = .returned (a ++ (s ++ y :: (y :: b))) := by
        have hlen : (a ++ (s ++ [y])).length = a.length + s.length + 1 := by
          rw [List.length_append, List.length_append]
          rfl
        have h := storeSlot_append hlen x y b
        rw [List.append_assoc, List.append_assoc, List.append_assoc, List.append_assoc] at h
        rw [← Int.natCast_add, ← Int.natCast_succ, List.append_assoc]
        exact h
      obtain ⟨z, hz⟩ := ih y (y :: b)
      refine ⟨z, ?_⟩
      rw [List.length_append, List.length_singleton, shiftUp, hload, Outcome.returned_bind, hstore,
        Outcome.returned_bind, hz, List.append_assoc]
      rfl

/-- The loop passes slots with other pointers. -/
theorem insertLoop_pass {before : P} (node : P) {pre s rest : List P} (hlist : l.list = pre ++ (s ++ rest))
    (hs : before ∉ s) (n : Nat) {i : Nat} (hi : pre.length = i + 1) :
    insertLoop before node l (s.length + n) i = insertLoop before node l n ((i + s.length : Nat) : Int) := by
  induction s generalizing pre i with
  | nil =>
      rw [List.length_nil, Nat.zero_add, Nat.add_zero]
  | cons q s ih =>
      have hq : q ≠ before := fun hqb => hs (hqb ▸ List.mem_cons_self)
      have hload : loadSlot l.list ((i : Int) + 1) = .returned q := by
        rw [hlist, ← Int.natCast_succ]
        exact loadSlot_append hi q (s ++ rest)
      have hpre : l.list = (pre ++ [q]) ++ (s ++ rest) := by
        rw [hlist, List.append_assoc]
        rfl
      have hlen : (pre ++ [q]).length = i + 1 + 1 := by
        rw [List.length_append, List.length_singleton, hi]
      have hnext := ih hpre (fun hb => hs (List.mem_cons_of_mem _ hb)) hlen
      rw [List.length_cons, Nat.add_right_comm, insertLoop, hload, Outcome.returned_bind, if_neg hq, ← Int.natCast_succ, hnext]
      congr 2
      omega

/-- The loop comes to the pointer, and there is a slot to spare. -/
theorem insertLoop_found {before : P} (node : P) {a t spare : List P} {y z : P}
    (hlist : l.list = a ++ (before :: t ++ y :: (z :: spare))) {i : Nat} (hi : a.length = i + 1)
    (hlen : l.listlen = (a.length + t.length + 1 : Nat)) (n : Nat) :
    insertLoop before node l (n + 1) i =
      .returned (0, { l with
        list := a ++ (node :: before :: t) ++ y :: spare
        listlen := l.listlen + 1 }) := by
  have hload : loadSlot l.list ((i : Int) + 1) = .returned before := by
    rw [hlist, ← Int.natCast_succ]
    exact loadSlot_append hi before _
  have hcount : (l.listlen + 1 - ((i : Int) + 1)).toNat = (before :: t ++ [y]).length := by
    rw [List.length_append, List.length_cons, List.length_singleton]
    omega
  obtain ⟨w, hshift⟩ := shiftUp_eq a (before :: t ++ [y]) z spare
  have hshape : a ++ (before :: t ++ y :: (z :: spare)) = a ++ (before :: t ++ [y] ++ z :: spare) := by
    rw [List.append_assoc (before :: t)]
    rfl
  have hstore := storeSlot_append hi w node (before :: t ++ [y] ++ spare)
  rw [hi] at hshift
  rw [insertLoop, hload, Outcome.returned_bind, if_pos rfl, hcount, hlist, hshape, ← Int.natCast_succ, hshift,
    Outcome.returned_bind, hstore, Outcome.returned_bind]
  simp only [Outcome.pure_eq, List.append_assoc, List.cons_append, List.nil_append]

theorem insertBefore_of_notMem {before : P} (node : P) {s : List P} (hs : before ∉ s) (t : List P) :
    insertBefore before node (s ++ t) = s ++ insertBefore before node t := by
  induction s with
  | nil => rfl
  | cons x s ih =>
      have hx : x ≠ before := fun hxb => hs (hxb ▸ List.mem_cons_self)
      rw [List.cons_append, insertBefore, if_neg hx, ih fun hb => hs (List.mem_cons_of_mem _ hb)]
      rfl

/-- The slots that `list_insert` looks at do not mislead it: the pointer is not the
first one; if it is another one there is a slot to spare, and if it is none of them it
is not in the slot behind them either. -/
def InsertSafe (fresh : FreshSlots P) (before : P) (l : SwPtrList P) : Prop :=
  let stored := l.list.take l.listlen.toNat
  stored ≠ [] →
    stored.head? ≠ some before ∧
      if before ∈ stored then l.listlen + 1 ≠ l.reslen
      else (l.list ++ fresh.toList)[l.listlen.toNat]? ≠ some before

instance (fresh : FreshSlots P) (before : P) (l : SwPtrList P) :
    Decidable (InsertSafe fresh before l) :=
  inferInstanceAs (Decidable (_ → _ ∧ ite _ _ _))

theorem insertBefore_notMem {before : P} (h : before ∉ xs) (node : P) :
    insertBefore before node xs = xs := by
  have hnil := insertBefore_of_notMem node h []
  rw [List.append_nil] at hnil
  rw [hnil, insertBefore, List.append_nil]

/-- The pointer is none of the list. -/
theorem SwPtrList.Holds.insert_absent (h : l.Holds xs) {before : P} (hnot : before ∉ xs)
    {y : P} {spare : List P} (hlist : l.list = xs ++ y :: spare) (hy : xs ≠ [] → y ≠ before)
    (node : P) : insertLoop before node l l.listlen.toNat 0 = .returned (-1, l) := by
  rw [h.listlen_eq, Int.toNat_natCast]
  cases xs with
  | nil => rfl
  | cons x t =>
      have ht : before ∉ t ++ [y] := by
        intro hb
        rcases List.mem_append.mp hb with hb | hb
        · exact hnot (List.mem_cons_of_mem _ hb)
        · exact hy (List.cons_ne_nil x t) (List.mem_singleton.mp hb).symm
      have hshape : l.list = [x] ++ ((t ++ [y]) ++ spare) := by
        rw [hlist, List.append_assoc]
        rfl
      have hpass := insertLoop_pass node hshape ht 0 (i := 0) rfl
      rw [List.length_append, List.length_singleton] at hpass
      exact hpass

/-- The pointer is in the list, but not the first one. -/
theorem SwPtrList.Holds.insert_present (h : l.Holds xs) {before : P} (hmem : before ∈ xs)
    (hfirst : xs.head? ≠ some before) {y z : P} {spare : List P}
    (hlist : l.list = xs ++ y :: z :: spare) (node : P) :
    ∃ l', insertLoop before node l l.listlen.toNat 0 = .returned (0, l') ∧
      l'.Holds (insertBefore before node xs) := by
  obtain ⟨a, t, rfl, ha⟩ := List.eq_append_cons_of_mem hmem
  cases a with
  | nil => exact absurd rfl hfirst
  | cons x a =>
      have ha' : before ∉ a := fun hb => ha (List.mem_cons_of_mem _ hb)
      have hlen : l.listlen = ((x :: a).length + t.length + 1 : Nat) := by
        rw [h.listlen_eq, List.length_append, List.length_cons, List.length_cons]
        rfl
      have hcount : l.listlen.toNat = a.length + (t.length + 1 + 1) := by
        rw [hlen, Int.toNat_natCast, List.length_cons]
        omega
      have hshape : l.list = x :: a ++ (before :: t ++ y :: z :: spare) := by
        rw [hlist, List.append_assoc]
      have hpass := insertLoop_pass node (show l.list = [x] ++ (a ++ _) from hshape) ha'
        (t.length + 1 + 1) (i := 0) rfl
      have hfound := insertLoop_found node hshape (i := a.length) rfl hlen (t.length + 1)
      have hnew : l.listlen + 1 = ((x :: a ++ (node :: before :: t)).length : Int) := by
        rw [hlen, List.length_append]
        simp only [List.length_cons]
        omega
      rw [Nat.zero_add] at hpass
      rw [hcount, show (0 : Int) = ((0 : Nat) : Int) from rfl, hpass, hfound,
        insertBefore_of_notMem node ha, insertBefore, if_pos rfl, hnew]
      refine ⟨_, rfl, h.change ?_ ⟨y :: spare, rfl⟩⟩
      rw [hlist]
      simp only [List.length_append, List.length_cons]
      omega

theorem SwPtrList.Holds.listInsert (h : l.Holds xs) (hmax : l.listlen < ptrListMax) {before : P}
    (hsafe : InsertSafe fresh before l) (node : P) :
    ∃ l', listInsert fresh before node l = .returned (if before ∈ xs then 0 else -1, l') ∧
      l'.Holds (insertBefore before node xs) := by
  obtain ⟨l₁, hroom, hholds, hlt, hmoreRoom, more, hmore⟩ := h.makeRoom fresh hmax
  obtain ⟨y, spare, hlist⟩ := hholds.exists_behind hlt
  rw [InsertSafe, h.stored_eq, h.listlen_eq, Int.toNat_natCast] at hsafe
  rw [SwStruct.listInsert, hroom, Outcome.returned_bind]
  by_cases hmem : before ∈ xs
  · obtain ⟨hfirst, hspare⟩ := hsafe (List.ne_nil_of_mem hmem)
    rw [if_pos hmem] at hspare ⊢
    cases spare with
    | nil =>
        have hlast := hmoreRoom (h.listlen_eq ▸ hspare)
        rw [hholds.listlen_eq, hholds.reslen_eq, hlist, List.length_append,
          List.length_singleton] at hlast
        exact absurd hlast (by omega)
    | cons z spare => exact hholds.insert_present hmem hfirst hlist node
  · have hy : xs ≠ [] → y ≠ before := by
      intro hne hyb
      obtain ⟨-, hbehind⟩ := hsafe hne
      rw [if_neg hmem, ← hmore, hlist, List.append_assoc,
        List.getElem?_append_right (Nat.le_refl _), Nat.sub_self] at hbehind
      exact hbehind (congrArg some hyb)
    rw [if_neg hmem, hholds.insert_absent hmem hlist hy, insertBefore_notMem hmem]
    exact ⟨l₁, rfl, hholds⟩

/-! ## Runs -/

/-- The call does not come to harm: the array can still grow, the slots that an insertion
looks at do not mislead it, and what is deleted is there. -/
def Call.Safe (fresh : FreshSlots P) (l : SwPtrList P) : Call P → Prop
  | .add _ => l.listlen < ptrListMax
  | .insert before _ => l.listlen < ptrListMax ∧ InsertSafe fresh before l
  | .delIndex index => 0 ≤ index ∧ index < l.listlen
  | .del node => node ∈ l.list.take l.listlen.toNat
  | .get _ => True

instance (fresh : FreshSlots P) (l : SwPtrList P) (call : Call P) :
    Decidable (call.Safe fresh l) :=
  match call with
  | .add _ => inferInstanceAs (Decidable (_ < _))
  | .insert _ _ => inferInstanceAs (Decidable (_ ∧ _))
  | .delIndex _ => inferInstanceAs (Decidable (_ ∧ _))
  | .del _ => inferInstanceAs (Decidable (_ ∈ _))
  | .get _ => inferInstanceAs (Decidable True)

/-- No call of a run comes to harm. -/
def AllSafe (null : P) : List (FreshSlots P × Call P) → SwPtrList P → Prop
  | [], _ => True
  | (fresh, call) :: calls, l =>
      call.Safe fresh l ∧
        ∀ r l', call.perform null fresh l = .returned (r, l') → AllSafe null calls l'

theorem allSafe_cons {call : Call P} {calls : List (FreshSlots P × Call P)} {r : Reply P}
    {l' : SwPtrList P} (hcall : call.perform null fresh l = .returned (r, l'))
    (hsafe : call.Safe fresh l) (hcalls : AllSafe null calls l') :
    AllSafe null ((fresh, call) :: calls) l := by
  refine ⟨hsafe, fun r₁ l₁ h => ?_⟩
  rw [hcall] at h
  cases h
  exact hcalls

/-- One call. -/
theorem SwPtrList.Holds.perform (h : l.Holds xs) (null : P) {call : Call P} (hsafe : call.Safe fresh l) :
    ∃ l', call.perform null fresh l = .returned ((call.expected null xs).1, l') ∧
      l'.Holds (call.expected null xs).2 := by
  cases call with
  | add node =>
      obtain ⟨l', hadd, hholds⟩ := h.listAdd fresh hsafe node
      exact ⟨l', by rw [Call.perform, hadd]; rfl, hholds⟩
  | insert before node =>
      obtain ⟨l', hinsert, hholds⟩ := h.listInsert hsafe.1 hsafe.2 node
      exact ⟨l', by rw [Call.perform, hinsert]; rfl, hholds⟩
  | delIndex index =>
      obtain ⟨hnonneg, hlt⟩ := hsafe
      obtain ⟨i, rfl⟩ := Int.eq_ofNat_of_zero_le hnonneg
      rw [h.listlen_eq] at hlt
      obtain ⟨l', hdel, hholds⟩ := h.listDelP (Int.ofNat_lt.mp hlt)
      refine ⟨l', by rw [Call.perform, hdel]; rfl, ?_⟩
      rw [Call.expected, if_pos hnonneg, Int.toNat_natCast]
      exact hholds
  | del node =>
      rw [Call.Safe, h.stored_eq] at hsafe
      obtain ⟨l', hdel, hholds⟩ := h.listDelP (List.idxOf_lt_length_iff.mpr hsafe)
      refine ⟨l', by rw [Call.perform, h.getIndex hsafe, Outcome.returned_bind, hdel]; rfl, ?_⟩
      rw [Call.expected, List.erase_eq_eraseIdx_of_idxOf rfl]
      exact hholds
  | get index =>
      exact ⟨l, by rw [Call.perform, h.stores.2 index]; rfl, h⟩

/-- One call after another. -/
theorem SwPtrList.Holds.performAll {calls : List (FreshSlots P × Call P)} (h : l.Holds xs)
    (hsafe : AllSafe null calls l) :
    ∃ l', performAll null calls l = .returned ((expectedAll null calls xs).1, l') ∧
      l'.Holds (expectedAll null calls xs).2 := by
  induction calls generalizing l xs with
  | nil => exact ⟨l, rfl, h⟩
  | cons c calls ih =>
      obtain ⟨fresh, call⟩ := c
      obtain ⟨l₁, hcall, hholds⟩ := h.perform null hsafe.1
      obtain ⟨l', hcalls, hholds'⟩ := ih hholds (hsafe.2 _ _ hcall)
      refine ⟨l', ?_, hholds'⟩
      rw [SwStruct.performAll, hcall, Outcome.returned_bind, hcalls]
      rfl

/-- A list that is used without harm is the list that one expects: every call returns what
it should, and afterwards the pointers are there with `NULL` behind them. -/
theorem run_refines (null : P) (fresh : FreshSlots P) (calls : List (FreshSlots P × Call P))
    (hsafe : AllSafe null calls (newSwPtrList fresh)) :
    ∃ l, performAll null calls (newSwPtrList fresh) =
        .returned ((expectedAll null calls []).1, l) ∧
      Stores null l (expectedAll null calls []).2 := by
  obtain ⟨l, hrun, hholds⟩ := (newSwPtrList_holds fresh).performAll hsafe
  exact ⟨l, hrun, hholds.stores⟩

/-- Slots with `NULL`s in them. -/
def nullSlots : FreshSlots Nat := Vector.replicate 10 0

/-- Two pointers, a third one between them, and the last one deleted. -/
def harmless : List (FreshSlots Nat × Call Nat) :=
  [.add 1, .add 2, .insert 2 3, .del 2, .get 1].map (nullSlots, ·)

theorem run_refines_harmless :
    ∃ l, performAll 0 harmless (newSwPtrList nullSlots) =
        .returned ((expectedAll 0 harmless []).1, l) ∧
      Stores 0 l (expectedAll 0 harmless []).2 := by
  refine run_refines 0 nullSlots harmless ?_
  apply allSafe_cons rfl (by decide)
  apply allSafe_cons rfl (by decide)
  apply allSafe_cons rfl (by decide)
  apply allSafe_cons rfl (by decide)
  exact allSafe_cons rfl (by decide) trivial

/-- A pointer in front of the first one. -/
def insertFirst : List (FreshSlots Nat × Call Nat) :=
  [.add 1, .insert 1 2].map (nullSlots, ·)

/-- The first pointer is never looked at, so that nothing can be inserted in front of it. -/
theorem insertFirst_not_refines :
    ¬ ∃ l, performAll 0 insertFirst (newSwPtrList nullSlots) =
          .returned ((expectedAll 0 insertFirst []).1, l) ∧
        Stores 0 l (expectedAll 0 insertFirst []).2 := by
  rintro ⟨l, hrun, -⟩
  have hreplies : performAll 0 insertFirst (newSwPtrList nullSlots) =
      .returned ([.code 0, .code (-1)], ⟨[1, 0, 0, 0, 0, 0, 0, 0, 0, 0], 1, 10⟩) := rfl
  have hexpected : (expectedAll 0 insertFirst []).1 = [.code 0, .code 0] := rfl
  rw [hreplies, hexpected] at hrun
  cases hrun

end

end Swbis.SwStruct
