import Mathlib.Data.List.InsertIdx
import Mathlib.Data.List.ReduceOption
import Swbis.Lib.Qsort
import Swbis.Misc.Cplob
import Swbis.Misc.DirCompare
import Swbis.Misc.Strob

/-!
# Lists of strings

`STRAR` keeps its strings one behind the other in one block, and the pointers to
them in an array.  The block may be moved when it grows, and then the pointers
are moved with it.

A new string is put behind the string of the last pointer.  This is the end of
what is in use until the pointers are sorted.  Then the last pointer is the one
of the last string in the order, and the new string is written over the strings
that are stored behind it.

`StrarCall.Safe` says which calls do not come to harm by this, and by what is done
with an index out of range and with a list that was reset.  A list that is only used
in this way is the list that one expects (`strar_refines`).
-/

namespace Swbis.Misc

open CLib

/-! ## The code -/

/-- `STRAR`. -/
structure Strar where
  lenM : Int
  nsM : Int
  storageM : Strob
  /-- `strob_str (storageM)`, where the block is. -/
  base : Int
  /-- The pointers, as addresses. -/
  listM : Cplob Int

/-- The largest `int`. -/
def strarIntMax : Int := 2 ^ 31 - 1

/-- `strar_open`, with the block at an address. -/
def strarOpen (base : Int) : Outcome Strar := do
  let listM ← cplobAddNta (cplobOpen Int 10) none
  return ⟨0, 0, strobOpen 132, base, listM⟩

/-- `strar_reset` -/
def strarReset (strar : Strar) : Outcome Strar := do
  let storageM ← strobStrcpyEmpty strar.storageM
  return { strar with lenM := 0, nsM := 0, storageM, listM := cplobShallowReset strar.listM }

/-- `strar_get` -/
def strarGet (strar : Strar) (index : Int) : Outcome (Option Int) :=
  if strar.nsM ≤ index ∨ index < 0 then .returned none else cplobVal strar.listM index.toNat

/-- The loop that moves the pointers from one block to another. -/
def strarRelocate (oldbase base : Int) : Nat → Nat → Cplob Int → Outcome (Cplob Int)
  | 0, _, _ => .outOfFuel
  | fuel + 1, index, listM => do
      match ← cplobVal listM index with
      | none => return listM
      | some p =>
          let listM ← cplobAdditem listM index (some (base + toCInt (p - oldbase)))
          strarRelocate oldbase base fuel (index + 1) listM

/-- `if (base != oldbase)` and the loop. -/
def strarMoved (base : Int) (strar : Strar) : Outcome (Cplob Int) :=
  if base = strar.base then .returned strar.listM
  else strarRelocate strar.base base (strar.listM.nused + 1) 0 strar.listM

/-- The string at a pointer. -/
def Strar.load (strar : Strar) (p : Int) : Outcome CString :=
  loadString strar.storageM.str (p - strar.base)

/-- Where the next string is put: behind the one of the last pointer. -/
def strarLast (strar : Strar) : Outcome Int := do
  match ← (if 0 < strar.listM.nused - 1 then cplobVal strar.listM (strar.listM.nused - 1 - 1)
      else .returned none) with
  | some last => do
      let s ← strar.load last
      return last + s.strlen + 1
  | none => return strar.base

/-- `'_'` -/
def underscore : UInt8 := 95

/-- `memset` in the block, where a negative length is a huge one. -/
def strarMemset (str : Bytes) (off len : Int) (c : UInt8) : Outcome Bytes :=
  if len < 0 then .fault else store str off (List.replicate len.toNat c)

/-- `strar_return_store`.  If the block has to grow, it is moved to `moved`. -/
def strarReturnStore (moved len : Int) (strar : Strar) : Outcome (Int × Strar) :=
  let lenM := strar.lenM + len + 1
  if strarIntMax < lenM ∨ lenM < -strarIntMax then .fault
  else do
    let base := if strar.storageM.reserve < lenM then moved else strar.base
    let storageM := strobSetMemlength strar.storageM lenM
    let listM ← strarMoved base strar
    let strar := { lenM, nsM := strar.nsM + 1, storageM, base, listM : Strar }
    let last ← strarLast strar
    let listM ← cplobAddNta listM (some last)
    let str ← strarMemset storageM.str (last - base) len underscore
    let str ← store str (last - base + len) [0]
    return (last, { strar with storageM := { storageM with str }, listM })

/-- `strar_add` -/
def strarAdd (moved : Int) (src : CString) (strar : Strar) : Outcome (Int × Strar) := do
  let r ← strarReturnStore moved (toCInt src.strlen) strar
  let str ← store r.2.storageM.str (r.1 - r.2.base) (src.bytes ++ [0])
  return (0, { r.2 with storageM := { r.2.storageM with str } })

/-- The string that a slot of the array points to. -/
def Strar.loadSlot (strar : Strar) : Option Int → Outcome CString
  | some p => strar.load p
  | none => .fault

/-- The same as a value, which is the empty string where there is none. -/
def Strar.slotString (strar : Strar) (slot : Option Int) : CString :=
  match strar.loadSlot slot with
  | .returned s => s
  | _ => .empty

/-- A look at the strings of some slots. -/
def Strar.lookAll (strar : Strar) : List (Option Int) → Outcome Unit
  | [] => .returned ()
  | slot :: slots => do
      let _ ← strar.loadSlot slot
      strar.lookAll slots

/-- A comparison of strings, as `strar_qsort` is given one. -/
structure Comparison where
  fComp : CString → CString → Int
  consistent : Consistent fComp

/-- `strar_qsort`, with the sort for `std_quicksort`.  An array that was reset has
`(size_t)0 - 1` pointers to sort.  One pointer is not compared with anything. -/
def strarQsort (stdQuicksort : Qsort) (f : Comparison) (strar : Strar) : Outcome Strar :=
  let slots := strar.listM.list.take (strar.listM.nused - 1)
  if strar.listM.nused = 0 then .fault
  else if slots.length ≤ 1 then .returned strar
  else do
    strar.lookAll slots
    let slots := stdQuicksort.sort
      (fun p q => f.fComp (strar.slotString p) (strar.slotString q)) slots
    let list := slots ++ strar.listM.list.drop (strar.listM.nused - 1)
    return { strar with listM := { strar.listM with list } }

/-- `strar_remove_index` -/
def strarRemoveIndex (index : Int) (strar : Strar) : Outcome Strar := do
  let listM ← cplobRemoveIndex strar.listM index
  return { strar with listM, nsM := strar.nsM - 1 }

/-- A call. -/
inductive StrarCall where
  /-- `strar_add`, and where the block is moved to if it has to grow. -/
  | add (src : CString) (moved : Int)
  | qsort (f : Comparison)
  | removeIndex (index : Int)
  | reset
  | get (index : Int)

/-- What a call returns. -/
inductive StrarReply where
  | code (r : Int)
  | nothing
  /-- The string at the pointer that is returned, or `NULL`. -/
  | string (s : Option CString)
deriving DecidableEq

/-- `strar_get`, and a look at the string. -/
def Strar.look (strar : Strar) (index : Int) : Outcome (Option CString) := do
  match ← strarGet strar index with
  | none => return none
  | some p => do
      let s ← strar.load p
      return some s

/-- A call. -/
def StrarCall.perform (stdQuicksort : Qsort) (strar : Strar) :
    StrarCall → Outcome (StrarReply × Strar)
  | .add src moved => do
      let r ← strarAdd moved src strar
      return (.code r.1, r.2)
  | .qsort f => do
      let strar ← strarQsort stdQuicksort f strar
      return (.nothing, strar)
  | .removeIndex index => do
      let strar ← strarRemoveIndex index strar
      return (.nothing, strar)
  | .reset => do
      let strar ← strarReset strar
      return (.nothing, strar)
  | .get index => do
      let s ← strar.look index
      return (.string s, strar)

/-- One call after another. -/
def strarPerformAll (stdQuicksort : Qsort) :
    List StrarCall → Strar → Outcome (List StrarReply × Strar)
  | [], strar => .returned ([], strar)
  | call :: calls, strar => do
      let r ← call.perform stdQuicksort strar
      let rs ← strarPerformAll stdQuicksort calls r.2
      return (r.1 :: rs.1, rs.2)

/-! ## The list that one expects -/

/-- The string at an index, if there is one. -/
def stringAtIndex (xs : List CString) (index : Int) : Option CString :=
  if 0 ≤ index then xs[index.toNat]? else none

/-- A call on the list. -/
def StrarCall.expected (stdQuicksort : Qsort) (xs : List CString) :
    StrarCall → StrarReply × List CString
  | .add src _ => (.code 0, xs ++ [src])
  | .qsort f => (.nothing, stdQuicksort.sort f.fComp xs)
  | .removeIndex index => (.nothing, if 0 ≤ index then xs.eraseIdx index.toNat else xs)
  | .reset => (.nothing, [])
  | .get index => (.string (stringAtIndex xs index), xs)

/-- One call on the list after another. -/
def strarExpectedAll (stdQuicksort : Qsort) :
    List StrarCall → List CString → List StrarReply × List CString
  | [], xs => ([], xs)
  | call :: calls, xs =>
      let r := call.expected stdQuicksort xs
      let rs := strarExpectedAll stdQuicksort calls r.2
      (r.1 :: rs.1, rs.2)

/-- The list has these strings. -/
def Strar.Contains (strar : Strar) (xs : List CString) : Prop :=
  strar.nsM = xs.length ∧ ∀ index, strar.look index = .returned (stringAtIndex xs index)

/-! ## Calls that come to no harm -/

/-- The pointers of the array. -/
def Strar.pointers (strar : Strar) : List Int :=
  (strar.listM.list.take (strar.listM.nused - 1)).reduceOption

/-- The address behind the string at a pointer. -/
def Strar.behind (strar : Strar) (p : Int) : Int := p + (strar.slotString (some p)).strlen + 1

/-- The address behind the string of the last pointer. -/
def Strar.room (strar : Strar) : Int :=
  match strar.pointers.getLast? with
  | some p => strar.behind p
  | none => strar.base

/-- No string is where the next one is put. -/
def Strar.RoomFree (strar : Strar) (src : CString) : Prop :=
  ∀ p ∈ strar.pointers, strar.behind p ≤ strar.room ∨ strar.room + src.strlen + 1 ≤ p

/-- The call does not come to harm: the lengths of the list can still grow and there is
room behind the last string, the array that is sorted was not just reset, and the index
of what is removed is one of the list. -/
def StrarCall.Safe (strar : Strar) : StrarCall → Prop
  | .add src _ =>
      strar.lenM + src.strlen + 1 ≤ strarIntMax ∧ strar.nsM + 9 ≤ strarIntMax ∧ strar.RoomFree src
  | .qsort _ => strar.listM.nused ≠ 0
  | .removeIndex index => 0 ≤ index ∧ index < strar.nsM
  | .reset => True
  | .get _ => True

/-- No call of a run comes to harm. -/
def StrarAllSafe (stdQuicksort : Qsort) : List StrarCall → Strar → Prop
  | [], _ => True
  | call :: calls, strar =>
      call.Safe strar ∧
        ∀ r strar', call.perform stdQuicksort strar = .returned (r, strar') →
          StrarAllSafe stdQuicksort calls strar'

/-! ## Strings in the block -/

/-- The string at an offset in the block. -/
def Strar.string (strar : Strar) (o : Nat) : CString := CString.ofMem (strar.storageM.str.drop o)

/-- The pointers are those of strings at these offsets, each in the part of the block
that is in use. -/
structure Strar.Packs (strar : Strar) (os : List Nat) : Prop where
  lists : strar.listM.Lists (os.map fun o : Nat => strar.base + (o : Int))
  length_eq : strar.storageM.length = strar.lenM
  lenM_nonneg : 0 ≤ strar.lenM
  lenM_max : strar.lenM ≤ strarIntMax
  lenM_le : strar.lenM ≤ strar.storageM.str.length
  packed : ∀ o ∈ os, ((o + (strar.string o).strlen + 1 : Nat) : Int) ≤ strar.lenM

/-- The offset behind the string of the last pointer. -/
def Strar.roomOffset (strar : Strar) (os : List Nat) : Nat :=
  match os.getLast? with
  | some o => o + (strar.string o).strlen + 1
  | none => 0

section

variable {strar : Strar} {os : List Nat}

theorem Strar.Packs.load_eq (h : strar.Packs os) {o : Nat} (ho : o ∈ os) :
    strar.load (strar.base + (o : Int)) = .returned (strar.string o) := by
  have hle := h.packed o ho
  have hlen := h.lenM_le
  rw [Strar.load, add_sub_cancel_left]
  exact loadString_eq (by rw [Strar.string] at hle; omega)

theorem Strar.Packs.slotString_eq (h : strar.Packs os) {o : Nat} (ho : o ∈ os) :
    strar.slotString (some (strar.base + (o : Int))) = strar.string o := by
  rw [Strar.slotString, Strar.loadSlot, h.load_eq ho]

theorem Strar.Packs.behind_eq (h : strar.Packs os) {o : Nat} (ho : o ∈ os) :
    strar.behind (strar.base + (o : Int)) =
      strar.base + ((o + (strar.string o).strlen + 1 : Nat) : Int) := by
  rw [Strar.behind, h.slotString_eq ho]
  omega

/-- The slots in front of the NULL. -/
theorem Cplob.Lists.take_eq {α : Type} {lob : Cplob α} {xs : List α} (h : lob.Lists xs) :
    lob.list.take (lob.nused - 1) = xs.map some := by
  rcases h with h | ⟨rfl, h⟩
  · obtain ⟨spare, hlist⟩ := h.list_eq
    rw [h.nused_eq, Nat.add_sub_cancel, hlist, List.take_left' (List.length_map _)]
  · rw [h.nused_eq]
    rfl

theorem Strar.Packs.pointers_eq (h : strar.Packs os) :
    strar.pointers = os.map fun o : Nat => strar.base + (o : Int) := by
  rw [Strar.pointers, h.lists.take_eq, List.reduceOption, List.filterMap_map]
  exact List.filterMap_some

theorem Strar.Packs.room_eq (h : strar.Packs os) :
    strar.room = strar.base + (strar.roomOffset os : Nat) := by
  rw [Strar.room, h.pointers_eq, List.getLast?_map, Strar.roomOffset]
  cases hlast : os.getLast? with
  | none => exact (add_zero strar.base).symm
  | some o => exact h.behind_eq (List.mem_of_getLast? hlast)

theorem Strar.Packs.roomOffset_le (h : strar.Packs os) :
    ((strar.roomOffset os : Nat) : Int) ≤ strar.lenM := by
  rw [Strar.roomOffset]
  cases hlast : os.getLast? with
  | none => exact h.lenM_nonneg
  | some o => exact h.packed o (List.mem_of_getLast? hlast)

/-- The next string is put behind the one of the last pointer. -/
theorem Strar.Packs.last_eq (h : strar.Packs os) :
    strarLast strar = .returned (strar.base + (strar.roomOffset os : Nat)) := by
  rw [strarLast, Strar.roomOffset]
  rcases List.eq_nil_or_concat' os with rfl | ⟨init, o, rfl⟩
  · have hused : strar.listM.nused - 1 = 0 := by
      rcases h.lists with hends | ⟨-, hcleared⟩
      · rw [hends.nused_eq]
        rfl
      · rw [hcleared.nused_eq]
    rw [hused, if_neg (Nat.lt_irrefl 0)]
    simp
  · have hends : strar.listM.Ends ((init ++ [o]).map fun o : Nat => strar.base + (o : Int)) := by
      rcases h.lists with hends | ⟨hnil, -⟩
      · exact hends
      · simp at hnil
    have hused : strar.listM.nused - 1 = init.length + 1 := by
      rw [hends.nused_eq, List.length_map, List.length_append]
      rfl
    have hval := hends.val_lt (i := init.length) (by simp)
    rw [hused, if_pos (Nat.succ_pos _), Nat.add_sub_cancel, hval, Outcome.returned_bind]
    simp only [List.getElem_map, List.getElem_append_right (Nat.le_refl _), Nat.sub_self,
      List.getElem_cons_zero, List.getLast?_append, List.getLast?_singleton, Option.some_or]
    rw [h.load_eq (by simp), Outcome.returned_bind]
    simp only [Outcome.pure_eq]
    congr 1
    omega

/-- The pointers from one on are moved to the new block. -/
theorem strarRelocate_eq (oldbase base : Int) {done rest : List Int} {listM : Cplob Int}
    (h : listM.Ends (done ++ rest)) {fuel : Nat} (hfuel : rest.length < fuel) :
    ∃ listM', strarRelocate oldbase base fuel done.length listM = .returned listM' ∧
      listM'.Ends (done ++ rest.map fun p => base + toCInt (p - oldbase)) := by
  induction rest generalizing done listM fuel with
  | nil =>
      obtain ⟨n, rfl⟩ := Nat.exists_eq_succ_of_ne_zero (Nat.ne_of_gt hfuel)
      rw [List.append_nil] at h
      exact ⟨listM, by rw [strarRelocate, h.val_length]; rfl, by rwa [List.map_nil, List.append_nil]⟩
  | cons p rest ih =>
      obtain ⟨n, rfl⟩ := Nat.exists_eq_succ_of_ne_zero (Nat.ne_of_gt (Nat.lt_of_le_of_lt (Nat.zero_le _) hfuel))
      have hlt : done.length < (done ++ p :: rest).length := by simp
      obtain ⟨listM₁, hadd, hends⟩ := h.additem hlt (base + toCInt (p - oldbase))
      have hset : (done ++ p :: rest).set done.length (base + toCInt (p - oldbase)) =
          (done ++ [base + toCInt (p - oldbase)]) ++ rest := by
        rw [List.set_append_right _ _ (Nat.le_refl _), Nat.sub_self, List.set_cons_zero,
          List.append_assoc]
        rfl
      rw [hset] at hends
      obtain ⟨listM', hrest, hends'⟩ := ih hends (Nat.lt_of_succ_lt_succ hfuel)
      rw [List.length_append, List.length_singleton] at hrest
      refine ⟨listM', ?_, by rwa [List.append_assoc] at hends'⟩
      rw [strarRelocate, h.val_lt hlt, Outcome.returned_bind, List.getElem_append_right (Nat.le_refl _)]
      simp only [Nat.sub_self, List.getElem_cons_zero]
      rw [hadd, Outcome.returned_bind, hrest]

/-- The pointers once the block is at another address. -/
theorem Strar.Packs.relocate (h : strar.Packs os) (base : Int) :
    ∃ listM, strarMoved base strar = .returned listM ∧
      listM.Lists (os.map fun o : Nat => base + (o : Int)) := by
  rw [strarMoved]
  by_cases hbase : base = strar.base
  · rw [if_pos hbase, hbase]
    exact ⟨_, rfl, h.lists⟩
  · rw [if_neg hbase]
    rcases h.lists with hends | ⟨hnil, hcleared⟩
    · have hfuel : (os.map fun o : Nat => strar.base + (o : Int)).length < strar.listM.nused + 1 := by
        rw [hends.nused_eq]
        omega
      obtain ⟨listM, hmoved, hends'⟩ := strarRelocate_eq strar.base base
        (show strar.listM.Ends ([] ++ _) from hends) hfuel
      have hmap : (os.map fun o : Nat => strar.base + (o : Int)).map
          (fun p => base + toCInt (p - strar.base)) = os.map fun o : Nat => base + (o : Int) := by
        rw [List.map_map]
        refine List.map_congr_left fun o ho => ?_
        have hle := h.packed o ho
        have hmax := h.lenM_max
        rw [strarIntMax] at hmax
        rw [Function.comp_apply, add_sub_cancel_left, toCInt_of_lt (by omega)]
      rw [List.nil_append, hmap] at hends'
      exact ⟨listM, hmoved, .inl hends'⟩
    · obtain rfl := List.map_eq_nil_iff.mp hnil
      have hval := h.lists.val_length
      refine ⟨strar.listM, ?_, .inr ⟨rfl, hcleared⟩⟩
      rw [hcleared.nused_eq, strarRelocate, show cplobVal strar.listM 0 = _ from hval]
      rfl

/-- The list once there is room for more. -/
theorem Strar.Packs.grow (h : strar.Packs os) {n : Nat} (hn : strar.lenM ≤ n)
    (hmax : (n : Int) ≤ strarIntMax) (nsM : Int) {base : Int} {listM : Cplob Int}
    (hlists : listM.Lists (os.map fun o : Nat => base + (o : Int))) :
    Strar.Packs ⟨n, nsM, strobSetMemlength strar.storageM n, base, listM⟩ os ∧
      ∀ o ∈ os, Strar.string ⟨n, nsM, strobSetMemlength strar.storageM n, base, listM⟩ o =
        strar.string o := by
  obtain ⟨k, hk⟩ := Int.eq_ofNat_of_zero_le h.lenM_nonneg
  have hle := h.lenM_le
  obtain ⟨hsize, hkept⟩ := Strob.setMemlength (n := n) (h.length_eq.trans hk) (by omega) (by omega)
  have hstring : ∀ o ∈ os, Strar.string ⟨n, nsM, strobSetMemlength strar.storageM n, base, listM⟩ o =
      strar.string o := by
    intro o ho
    have hpacked := h.packed o ho
    rw [Strar.string] at hpacked
    refine CString.ofMem_eq_of_take (n := k - o) ?_ (by omega) (by rw [List.length_drop]; omega)
    have hoff : o + (k - o) = k := by omega
    rw [List.take_drop, List.take_drop, hoff, hkept]
  refine ⟨⟨hlists, rfl, Int.natCast_nonneg n, hmax, Int.ofNat_le.mpr hsize, fun o ho => ?_⟩, hstring⟩
  rw [hstring o ho]
  exact (h.packed o ho).trans hn

/-- What is in the block once a string is put into it. -/
def withString (mem : Bytes) (r : Nat) (src : CString) (c : UInt8) : Bytes :=
  overwrite (overwrite (overwrite mem r (List.replicate src.strlen c)) (r + src.strlen) [0]) r
    (src.bytes ++ [0])

section

variable {mem : Bytes} {r : Nat} {src : CString}

theorem length_filled (c : UInt8) (hr : r + src.strlen + 1 ≤ mem.length) :
    (overwrite mem r (List.replicate src.strlen c)).length = mem.length :=
  length_overwrite_of_le (by rw [List.length_replicate]; omega)

theorem length_terminated (c : UInt8) (hr : r + src.strlen + 1 ≤ mem.length) :
    (overwrite (overwrite mem r (List.replicate src.strlen c)) (r + src.strlen) [0]).length =
      mem.length := by
  rw [length_overwrite_of_le, length_filled c hr]
  rw [length_filled c hr]
  exact hr

theorem length_withString (c : UInt8) (hr : r + src.strlen + 1 ≤ mem.length) :
    (withString mem r src c).length = mem.length := by
  rw [withString, length_overwrite_of_le, length_terminated c hr]
  rw [length_terminated c hr, List.length_append]
  exact hr

/-- The other strings are still there. -/
theorem ofMem_withString {o : Nat} (c : UInt8) (hr : r + src.strlen + 1 ≤ mem.length)
    (ho : o + (CString.ofMem (mem.drop o)).strlen + 1 ≤ mem.length)
    (hapart : o + (CString.ofMem (mem.drop o)).strlen + 1 ≤ r ∨ r + src.strlen + 1 ≤ o) :
    CString.ofMem ((withString mem r src c).drop o) = CString.ofMem (mem.drop o) := by
  have hfilled := ofMem_drop_overwrite ho (i := r) (b := List.replicate src.strlen c) (by omega) (by
    rw [List.length_replicate]
    omega)
  have hin₁ : o + (CString.ofMem ((overwrite mem r (List.replicate src.strlen c)).drop o)).strlen + 1 ≤
      (overwrite mem r (List.replicate src.strlen c)).length := by
    rw [hfilled, length_filled c hr]
    exact ho
  have hended := ofMem_drop_overwrite hin₁ (i := r + src.strlen) (b := [0])
    (by rw [length_filled c hr]; omega) (by
      rw [hfilled, List.length_singleton]
      omega)
  have hin₂ : o + (CString.ofMem ((overwrite (overwrite mem r (List.replicate src.strlen c))
      (r + src.strlen) [0]).drop o)).strlen + 1 ≤
      (overwrite (overwrite mem r (List.replicate src.strlen c)) (r + src.strlen) [0]).length := by
    rw [hended, hfilled, length_terminated c hr]
    exact ho
  have hcopied := ofMem_drop_overwrite hin₂ (i := r) (b := src.bytes ++ [0])
    (by rw [length_terminated c hr]; omega) (by
      rw [hended, hfilled, List.length_append]
      exact hapart.imp id id)
  rw [withString, hcopied, hended, hfilled]

/-- The string is where it was put. -/
theorem ofMem_withString_self (c : UInt8) (hr : r + src.strlen + 1 ≤ mem.length) :
    CString.ofMem ((withString mem r src c).drop r) = src :=
  ofMem_drop_overwrite_self (by rw [length_terminated c hr]; omega) src

end

theorem Strar.roomOffset_congr {strar' : Strar}
    (h : ∀ o ∈ os, strar'.string o = strar.string o) :
    strar'.roomOffset os = strar.roomOffset os := by
  rw [Strar.roomOffset, Strar.roomOffset]
  cases hlast : os.getLast? with
  | none => rfl
  | some o => simp only [h o (List.mem_of_getLast? hlast)]

/-- The memory that is returned holds as many bytes as were asked for and a NUL, and is then
filled with the string. -/
theorem store_withString {mem : Bytes} {r : Nat} {src : CString} (base : Int) (c : UInt8)
    (hr : r + src.strlen + 1 ≤ mem.length) :
    ∃ m₁ m₂, strarMemset mem (base + (r : Nat) - base) src.strlen c = .returned m₁ ∧
      store m₁ (base + (r : Nat) - base + src.strlen) [0] = .returned m₂ ∧
        store m₂ (base + (r : Nat) - base) (src.bytes ++ [0]) =
          .returned (withString mem r src c) := by
  have hend : ((r : Nat) : Int) + (src.strlen : Nat) = ((r + src.strlen : Nat) : Int) := rfl
  refine ⟨overwrite mem r (List.replicate src.strlen c),
    overwrite (overwrite mem r (List.replicate src.strlen c)) (r + src.strlen) [0], ?_, ?_, ?_⟩
  · rw [add_sub_cancel_left, strarMemset, if_neg (by omega), Int.toNat_natCast,
      store_eq _ _ _ (by rw [List.length_replicate]; omega)]
  · rw [add_sub_cancel_left, hend, store_eq _ _ _ (by rw [length_filled c hr]; exact hr)]
  · rw [add_sub_cancel_left, store_eq _ _ _ (by
      rw [length_terminated c hr, List.length_append]
      exact hr)]
    rfl

/-- The room for one more string, behind the one of the last pointer. -/
theorem Strar.Packs.returnStore (h : strar.Packs os) {src : CString}
    (hmax : strar.lenM + src.strlen + 1 ≤ strarIntMax) (hcount : os.length + 9 ≤ cplobIntMax)
    (moved : Int) :
    ∃ (grown : Strar) (mem : Bytes) (listM : Cplob Int),
      strarReturnStore moved src.strlen strar =
        .returned (grown.base + (strar.roomOffset os : Nat),
          { grown with storageM := { grown.storageM with str := mem }, listM }) ∧
      grown.Packs os ∧ (∀ o ∈ os, grown.string o = strar.string o) ∧
      grown.nsM = strar.nsM + 1 ∧ grown.lenM = strar.lenM + src.strlen + 1 ∧
      listM.Ends ((os ++ [strar.roomOffset os]).map fun o : Nat => grown.base + (o : Int)) ∧
      ∃ c, store mem (grown.base + (strar.roomOffset os : Nat) - grown.base) (src.bytes ++ [0]) =
        .returned (withString grown.storageM.str (strar.roomOffset os) src c) := by
  have hnonneg := h.lenM_nonneg
  obtain ⟨n, hn⟩ : ∃ n : Nat, strar.lenM + (src.strlen : Int) + 1 = n :=
    Int.eq_ofNat_of_zero_le (by omega)
  have hroom := h.roomOffset_le
  obtain ⟨base, hbase⟩ : ∃ base, (if strar.storageM.reserve < n then moved else strar.base) = base :=
    ⟨_, rfl⟩
  obtain ⟨listM, hmoved, hlists⟩ := h.relocate base
  obtain ⟨hgrown, hstring⟩ := h.grow (n := n) (by omega) (by omega) (strar.nsM + 1) hlists
  have hlast := hgrown.last_eq
  rw [Strar.roomOffset_congr hstring] at hlast
  have hle : (n : Int) ≤ (strobSetMemlength strar.storageM n).str.length := hgrown.lenM_le
  obtain ⟨listM', hadd, hends⟩ := hlists.addNta (base + (strar.roomOffset os : Nat))
    (by rw [List.length_map]; exact hcount)
  have hr : strar.roomOffset os + src.strlen + 1 ≤ (strobSetMemlength strar.storageM n).str.length := by
    omega
  obtain ⟨m₁, m₂, hfill, hend, hcopy⟩ := store_withString base underscore hr
  have hfits : ¬(strarIntMax < (n : Int) ∨ (n : Int) < -strarIntMax) := by
    rw [strarIntMax] at hmax ⊢
    omega
  refine ⟨_, m₂, listM', ?_, hgrown, hstring, rfl, hn.symm, ?_, underscore, ?_⟩
  · simp only [strarReturnStore, hn, if_neg hfits, hbase, hmoved, Outcome.returned_bind, hlast, hadd,
      hfill, hend, Outcome.pure_eq]
  · rw [List.map_append]
    exact hends
  · simp only [hcopy]

/-- One more string. -/
theorem Strar.Packs.add (h : strar.Packs os) {src : CString}
    (hmax : strar.lenM + src.strlen + 1 ≤ strarIntMax) (hcount : os.length + 9 ≤ cplobIntMax)
    (hfree : ∀ o ∈ os, o + (strar.string o).strlen + 1 ≤ strar.roomOffset os ∨
      strar.roomOffset os + src.strlen + 1 ≤ o) (moved : Int) :
    ∃ strar', strarAdd moved src strar = .returned (0, strar') ∧
      strar'.Packs (os ++ [strar.roomOffset os]) ∧ strar'.nsM = strar.nsM + 1 ∧
        (os ++ [strar.roomOffset os]).map strar'.string = os.map strar.string ++ [src] := by
  have hnonneg := h.lenM_nonneg
  have hlen : toCInt src.strlen = src.strlen := toCInt_of_lt (by
    rw [strarIntMax] at hmax
    omega)
  obtain ⟨grown, mem, listM, hstore, hpacks, hstring, hnsM, hlenM, hends, c, hcopy⟩ :=
    h.returnStore hmax hcount moved
  have hroom := h.roomOffset_le
  have hsize := hpacks.lenM_le
  have hr : strar.roomOffset os + src.strlen + 1 ≤ grown.storageM.str.length := by omega
  have hkept : ∀ o ∈ os, CString.ofMem ((withString grown.storageM.str (strar.roomOffset os) src
      c).drop o) = strar.string o := by
    intro o ho
    have hin := hpacks.packed o ho
    have hapart := hfree o ho
    rw [← hstring o ho] at hapart ⊢
    exact ofMem_withString c hr (by rw [Strar.string] at hin; omega) hapart
  have hself := ofMem_withString_self c hr
  refine ⟨{ grown with
      storageM := { grown.storageM with
        str := withString grown.storageM.str (strar.roomOffset os) src c }
      listM }, by rw [strarAdd, hlen, hstore, Outcome.returned_bind, hcopy]; rfl,
    ⟨.inl hends, hpacks.length_eq, hpacks.lenM_nonneg, hpacks.lenM_max, ?_, ?_⟩, hnsM, ?_⟩
  · change grown.lenM ≤ ((withString grown.storageM.str (strar.roomOffset os) src c).length : Int)
    rw [length_withString c hr]
    exact hsize
  · intro o ho
    change ((o + (CString.ofMem ((withString grown.storageM.str (strar.roomOffset os) src
      c).drop o)).strlen + 1 : Nat) : Int) ≤ grown.lenM
    rcases List.mem_append.mp ho with ho | ho
    · have hin := h.packed o ho
      rw [hkept o ho]
      omega
    · rw [List.mem_singleton.mp ho, hself]
      omega
  · rw [List.map_append, List.map_singleton]
    exact congrArg₂ (· ++ ·) (List.map_congr_left hkept) (congrArg (fun s => [s]) hself)

theorem Strar.Packs.lookAll_eq (h : strar.Packs os) {some' : List Nat} (hsub : some' ⊆ os) :
    strar.lookAll (some'.map fun o : Nat => some (strar.base + (o : Int))) = .returned () := by
  induction some' with
  | nil => rfl
  | cons o some' ih =>
      rw [List.map_cons, Strar.lookAll, Strar.loadSlot, h.load_eq (hsub List.mem_cons_self),
        Outcome.returned_bind, ih fun _ hmem => hsub (List.mem_cons_of_mem _ hmem)]

/-- The slots in front of the NULL are filled with as many other pointers. -/
theorem Cplob.Ends.fill {α : Type} {lob : Cplob α} {xs ys : List α} (h : lob.Ends xs)
    (hlen : ys.length = xs.length) :
    Cplob.Ends { lob with list := ys.map some ++ lob.list.drop (lob.nused - 1) } ys := by
  obtain ⟨spare, hlist⟩ := h.list_eq
  have hdrop : lob.list.drop (lob.nused - 1) = none :: spare := by
    rw [h.nused_eq, Nat.add_sub_cancel, hlist, List.drop_left' (List.length_map _)]
  refine ⟨⟨spare, by rw [hdrop]⟩, by rw [hlen]; exact h.nused_eq, h.nused_le, ?_⟩
  have hle := h.nlen_le
  rw [hlist] at hle
  rw [hdrop]
  simpa [hlen] using hle

/-- The pointers are sorted, and with them the strings. -/
theorem Strar.Packs.qsort (h : strar.Packs os) (hused : strar.listM.nused ≠ 0)
    (stdQuicksort : Qsort) (f : Comparison) :
    ∃ strar' os', strarQsort stdQuicksort f strar = .returned strar' ∧ strar'.Packs os' ∧
      strar'.nsM = strar.nsM ∧ os'.length = os.length ∧
        os'.map strar'.string = stdQuicksort.sort f.fComp (os.map strar.string) := by
  have hslots : strar.listM.list.take (strar.listM.nused - 1) =
      os.map fun o : Nat => some (strar.base + (o : Int)) := by
    rw [h.lists.take_eq, List.map_map]
    rfl
  have hends : strar.listM.Ends (os.map fun o : Nat => strar.base + (o : Int)) := by
    rcases h.lists with hends | ⟨-, hcleared⟩
    · exact hends
    · exact absurd hcleared.nused_eq hused
  rw [strarQsort, hslots, if_neg hused]
  by_cases hfew : (os.map fun o : Nat => some (strar.base + (o : Int))).length ≤ 1
  · rw [if_pos hfew]
    rw [List.length_map] at hfew
    exact ⟨strar, os, rfl, h, rfl, rfl,
      (stdQuicksort.sort_of_length_le_one f.consistent (by rwa [List.length_map])).symm⟩
  · let slot (o : Nat) : Option Int := some (strar.base + (o : Int))
    let os' := stdQuicksort.sort
      (fun a b => f.fComp (strar.slotString (slot a)) (strar.slotString (slot b))) os
    have hperm : os'.Perm os := stdQuicksort.perm (f.consistent.comap _) os
    have hsorted : stdQuicksort.sort
        (fun p q => f.fComp (strar.slotString p) (strar.slotString q)) (os.map slot) = os'.map slot :=
      (stdQuicksort.map (f.consistent.comap strar.slotString) slot os).symm
    have hstrings : os'.map strar.string = stdQuicksort.sort f.fComp (os.map strar.string) := by
      have hsame : ∀ o ∈ os, strar.slotString (slot o) = strar.string o := fun o ho =>
        h.slotString_eq ho
      rw [← List.map_congr_left hsame,
        ← List.map_congr_left fun o ho => hsame o (hperm.mem_iff.mp ho)]
      exact stdQuicksort.map f.consistent (fun o => strar.slotString (slot o)) os
    have hlist : stdQuicksort.sort
        (fun p q => f.fComp (strar.slotString p) (strar.slotString q))
          (os.map fun o : Nat => some (strar.base + (o : Int))) =
        (os'.map fun o : Nat => strar.base + (o : Int)).map some := by
      rw [List.map_map]
      exact hsorted
    rw [if_neg hfew, h.lookAll_eq (List.Subset.refl os), Outcome.returned_bind]
    refine ⟨_, os', rfl, ⟨.inl ?_, h.length_eq, h.lenM_nonneg, h.lenM_max, h.lenM_le, fun o ho =>
      h.packed o (hperm.mem_iff.mp ho)⟩, rfl, hperm.length_eq, hstrings⟩
    simp only [hlist]
    exact hends.fill (by simp only [List.length_map, hperm.length_eq])

/-- A string is removed from the list.  The block is not touched. -/
theorem Strar.Packs.removeIndex (h : strar.Packs os) {i : Nat} (hi : i < os.length) :
    ∃ strar', strarRemoveIndex i strar = .returned strar' ∧ strar'.Packs (os.eraseIdx i) ∧
      strar'.nsM = strar.nsM - 1 ∧ strar'.string = strar.string := by
  have hends : strar.listM.Ends (os.map fun o : Nat => strar.base + (o : Int)) := by
    rcases h.lists with hends | ⟨hnil, -⟩
    · exact hends
    · rw [List.map_eq_nil_iff.mp hnil] at hi
      exact absurd hi (Nat.not_lt_zero i)
  obtain ⟨listM, hremove, hends'⟩ := hends.removeIndex (i := i) (by rwa [List.length_map])
  rw [strarRemoveIndex, hremove, Outcome.returned_bind]
  refine ⟨_, rfl, ⟨.inl ?_, h.length_eq, h.lenM_nonneg, h.lenM_max, h.lenM_le, fun o ho =>
    h.packed o (List.mem_of_mem_eraseIdx ho)⟩, rfl, rfl⟩
  rw [List.eraseIdx_map] at hends'
  exact hends'

/-- The list is emptied. -/
theorem Strar.Packs.reset (h : strar.Packs os) :
    ∃ strar', strarReset strar = .returned strar' ∧ strar'.Packs [] ∧ strar'.nsM = 0 := by
  obtain ⟨storageM, hcopy, hholds⟩ := Strob.strcpyEmpty_holds strar.storageM
  rw [strarReset, hcopy, Outcome.returned_bind]
  refine ⟨_, rfl, ⟨.inr ⟨rfl, h.lists.shallowReset⟩, hholds.length_eq, Int.le_refl 0,
    (by decide : (0 : Int) ≤ strarIntMax), Int.natCast_nonneg _, fun o ho => absurd ho List.not_mem_nil⟩, rfl⟩

theorem Strar.Packs.contains (h : strar.Packs os) (hcount : strar.nsM = os.length) :
    strar.Contains (os.map strar.string) := by
  refine ⟨by rw [hcount, List.length_map], fun index => ?_⟩
  rw [Strar.look, strarGet, hcount, stringAtIndex]
  by_cases hneg : index < 0
  · rw [if_pos (.inr hneg), if_neg (Int.not_le.mpr hneg)]
    rfl
  · obtain ⟨i, rfl⟩ := Int.eq_ofNat_of_zero_le (Int.not_lt.mp hneg)
    rw [if_pos (Int.natCast_nonneg i), Int.toNat_natCast]
    rcases Nat.lt_or_ge i os.length with hlt | hge
    · have hends : strar.listM.Ends (os.map fun o : Nat => strar.base + (o : Int)) := by
        rcases h.lists with hends | ⟨hnil, -⟩
        · exact hends
        · rw [List.map_eq_nil_iff.mp hnil] at hlt
          exact absurd hlt (Nat.not_lt_zero i)
      rw [if_neg (by omega), hends.val_lt (by rwa [List.length_map]), List.getElem_map,
        List.getElem?_map, List.getElem?_eq_getElem hlt]
      simp only [Outcome.returned_bind, h.load_eq (List.getElem_mem hlt)]
      rfl
    · rw [if_pos (.inl (by omega)), List.getElem?_eq_none (by rwa [List.length_map])]
      rfl

/-! ## Runs -/

/-- The list contains the strings, and is what its functions take it for. -/
def Strar.Holds (strar : Strar) (xs : List CString) : Prop :=
  ∃ os, strar.Packs os ∧ strar.nsM = os.length ∧ os.map strar.string = xs

/-- The array of a new list has a NULL only. -/
theorem newPointers_ends : Cplob.Ends (⟨List.replicate 10 none, 10, 1⟩ : Cplob Int) [] :=
  ⟨⟨List.replicate 9 none, rfl⟩, rfl, by decide, by decide⟩

theorem strarOpen_eq (base : Int) :
    strarOpen base = .returned ⟨0, 0, strobOpen 132, base, ⟨List.replicate 10 none, 10, 1⟩⟩ :=
  rfl

theorem newStrar_holds (base : Int) :
    Strar.Holds ⟨0, 0, strobOpen 132, base, ⟨List.replicate 10 none, 10, 1⟩⟩ [] :=
  ⟨[], ⟨.inl newPointers_ends, rfl, Int.le_refl 0, (by decide : (0 : Int) ≤ strarIntMax),
    Int.natCast_nonneg _, fun _ ho => absurd ho List.not_mem_nil⟩, rfl, rfl⟩

/-- No string in the way is none at an offset in the way. -/
theorem Strar.Packs.roomFree_iff (h : strar.Packs os) (src : CString) :
    strar.RoomFree src ↔ ∀ o ∈ os, o + (strar.string o).strlen + 1 ≤ strar.roomOffset os ∨
      strar.roomOffset os + src.strlen + 1 ≤ o := by
  rw [Strar.RoomFree, h.pointers_eq, h.room_eq, List.forall_mem_map]
  refine forall₂_congr fun o ho => ?_
  rw [h.behind_eq ho]
  omega

/-- One call. -/
theorem Strar.Holds.perform {xs : List CString} (h : strar.Holds xs) (stdQuicksort : Qsort)
    {call : StrarCall} (hsafe : call.Safe strar) :
    ∃ strar', call.perform stdQuicksort strar =
        .returned ((call.expected stdQuicksort xs).1, strar') ∧
      strar'.Holds (call.expected stdQuicksort xs).2 := by
  obtain ⟨os, hpacks, hcount, rfl⟩ := h
  cases call with
  | add src moved =>
      obtain ⟨hmax, hmany, hfree⟩ := hsafe
      have hroom : os.length + 9 ≤ cplobIntMax := by
        rw [hcount, strarIntMax] at hmany
        rw [cplobIntMax]
        omega
      obtain ⟨strar', hadd, hpacks', hnsM, hstrings⟩ :=
        hpacks.add hmax hroom ((hpacks.roomFree_iff src).mp hfree) moved
      refine ⟨strar', by rw [StrarCall.perform, hadd]; rfl, _, hpacks', ?_, hstrings⟩
      rw [hnsM, hcount, List.length_append]
      rfl
  | qsort f =>
      obtain ⟨strar', os', hsort, hpacks', hnsM, hlen, hstrings⟩ := hpacks.qsort hsafe stdQuicksort f
      exact ⟨strar', by rw [StrarCall.perform, hsort]; rfl, os', hpacks', by rw [hnsM, hcount, hlen],
        hstrings⟩
  | removeIndex index =>
      obtain ⟨hnonneg, hlt⟩ := hsafe
      obtain ⟨i, rfl⟩ := Int.eq_ofNat_of_zero_le hnonneg
      have hi : i < os.length := by omega
      obtain ⟨strar', hremove, hpacks', hnsM, hstrings⟩ := hpacks.removeIndex hi
      refine ⟨strar', by rw [StrarCall.perform, hremove]; rfl, _, hpacks', ?_, ?_⟩
      · rw [hnsM, hcount, List.length_eraseIdx_of_lt hi]
        omega
      · rw [StrarCall.expected, if_pos hnonneg, hstrings, Int.toNat_natCast, List.eraseIdx_map]
  | reset =>
      obtain ⟨strar', hreset, hpacks', hnsM⟩ := hpacks.reset
      exact ⟨strar', by rw [StrarCall.perform, hreset]; rfl, [], hpacks', hnsM, rfl⟩
  | get index =>
      have hlook := (hpacks.contains hcount).2 index
      exact ⟨strar, by rw [StrarCall.perform, hlook]; rfl, os, hpacks, hcount, rfl⟩

/-- One call after another. -/
theorem Strar.Holds.performAll {xs : List CString} (h : strar.Holds xs) (stdQuicksort : Qsort)
    {calls : List StrarCall} (hsafe : StrarAllSafe stdQuicksort calls strar) :
    ∃ strar', strarPerformAll stdQuicksort calls strar =
        .returned ((strarExpectedAll stdQuicksort calls xs).1, strar') ∧
      strar'.Holds (strarExpectedAll stdQuicksort calls xs).2 := by
  induction calls generalizing strar xs with
  | nil => exact ⟨strar, rfl, h⟩
  | cons call calls ih =>
      obtain ⟨strar₁, hcall, hholds⟩ := h.perform stdQuicksort hsafe.1
      obtain ⟨strar', hcalls, hholds'⟩ := ih hholds (hsafe.2 _ _ hcall)
      refine ⟨strar', ?_, hholds'⟩
      rw [strarPerformAll, hcall, Outcome.returned_bind, hcalls]
      rfl

/-- A run from a new list. -/
def strarRun (stdQuicksort : Qsort) (base : Int) (calls : List StrarCall) :
    Outcome (List StrarReply × Strar) := do
  let strar ← strarOpen base
  strarPerformAll stdQuicksort calls strar

/-- No call of a run from a new list comes to harm. -/
def StrarRunSafe (stdQuicksort : Qsort) (base : Int) (calls : List StrarCall) : Prop :=
  ∀ strar, strarOpen base = .returned strar → StrarAllSafe stdQuicksort calls strar

/-- A list that is used without harm is the list that one expects: every call returns what
it should, and afterwards the strings are there. -/
theorem strar_refines (stdQuicksort : Qsort) (base : Int) (calls : List StrarCall)
    (hsafe : StrarRunSafe stdQuicksort base calls) :
    ∃ strar, strarRun stdQuicksort base calls =
        .returned ((strarExpectedAll stdQuicksort calls []).1, strar) ∧
      strar.Contains (strarExpectedAll stdQuicksort calls []).2 := by
  obtain ⟨strar, hrun, os, hpacks, hcount, hstrings⟩ :=
    (newStrar_holds base).performAll stdQuicksort (hsafe _ (strarOpen_eq base))
  refine ⟨strar, by rw [strarRun, strarOpen_eq, Outcome.returned_bind, hrun], ?_⟩
  rw [← hstrings]
  exact hpacks.contains hcount

end

/-! ## `strcmp` as a comparison -/

theorem strcmp_swap (s t : Bytes) : strcmp s t = -strcmp t s := by
  induction s generalizing t with
  | nil =>
      cases t with
      | nil => rfl
      | cons b t => rfl
  | cons a s ih =>
      cases t with
      | nil => exact (neg_neg _).symm
      | cons b t =>
          rw [strcmp, strcmp]
          by_cases hab : a = b
          · rw [if_pos hab, if_pos hab.symm, ih]
          · rw [if_neg hab, if_neg (Ne.symm hab), neg_sub]

theorem strcmp_trans {s t u : Bytes} (hs : 0 ∉ s) (ht : 0 ∉ t) (hst : strcmp s t ≤ 0)
    (htu : strcmp t u ≤ 0) : strcmp s u ≤ 0 := by
  induction s generalizing t u with
  | nil =>
      cases u with
      | nil => exact Int.le_refl 0
      | cons c u =>
          rw [strcmp]
          omega
  | cons a s ih =>
      have ha := toNat_ne_zero hs List.mem_cons_self
      cases t with
      | nil =>
          rw [strcmp] at hst
          omega
      | cons b t =>
          have hb := toNat_ne_zero ht List.mem_cons_self
          cases u with
          | nil =>
              rw [strcmp] at htu
              omega
          | cons c u =>
              rw [strcmp] at hst htu ⊢
              by_cases hab : a = b
              · subst hab
                rw [if_pos rfl] at hst
                by_cases hac : a = c
                · subst hac
                  rw [if_pos rfl] at htu ⊢
                  exact ih (List.not_mem_of_not_mem_cons hs) (List.not_mem_of_not_mem_cons ht) hst htu
                · rwa [if_neg hac] at htu ⊢
              · have hne : a.toNat ≠ b.toNat := fun h => hab (UInt8.toNat_inj.mp h)
                rw [if_neg hab] at hst
                by_cases hbc : b = c
                · subst hbc
                  rwa [if_neg hab]
                · have hne' : b.toNat ≠ c.toNat := fun h => hbc (UInt8.toNat_inj.mp h)
                  rw [if_neg hbc] at htu
                  rw [if_neg (fun hac => by subst hac; omega)]
                  omega

/-- `strar_qsort_strcmp` -/
def strarQsortStrcmp : Comparison where
  fComp s t := strcmp s.bytes t.bytes
  consistent :=
    { flip := fun s t => by
        rw [strcmp_swap s.bytes t.bytes]
        omega
      trans := fun {s t _} hst htu => strcmp_trans s.noNul t.noNul hst htu }

/-! ## Two runs -/

/-- A string that is removed before another one is added. -/
def strarRemoving : List StrarCall :=
  [.add ⟨literal "b", by decide⟩ 0, .add ⟨literal "a", by decide⟩ 0, .removeIndex 0,
    .qsort strarQsortStrcmp, .add ⟨literal "c", by decide⟩ 0, .get 1]

theorem strarAllSafe_cons {stdQuicksort : Qsort} {strar strar' : Strar} {call : StrarCall}
    {calls : List StrarCall} {r : StrarReply}
    (hcall : call.perform stdQuicksort strar = .returned (r, strar')) (hsafe : call.Safe strar)
    (hcalls : StrarAllSafe stdQuicksort calls strar') :
    StrarAllSafe stdQuicksort (call :: calls) strar := by
  refine ⟨hsafe, fun r₁ strar₁ h => ?_⟩
  rw [hcall] at h
  cases h
  exact hcalls

instance (strar : Strar) (src : CString) : Decidable (strar.RoomFree src) :=
  inferInstanceAs (Decidable (∀ p ∈ _, _ ∨ _))

instance (strar : Strar) (call : StrarCall) : Decidable (call.Safe strar) :=
  match call with
  | .add _ _ => inferInstanceAs (Decidable (_ ∧ _ ∧ _))
  | .qsort _ => inferInstanceAs (Decidable (_ ≠ _))
  | .removeIndex _ => inferInstanceAs (Decidable (_ ∧ _))
  | .reset => inferInstanceAs (Decidable True)
  | .get _ => inferInstanceAs (Decidable True)

instance decidableStrarAllSafe (stdQuicksort : Qsort) :
    (calls : List StrarCall) → (strar : Strar) → Decidable (StrarAllSafe stdQuicksort calls strar)
  | [], _ => inferInstanceAs (Decidable True)
  | call :: calls, strar =>
      match hcall : call.perform stdQuicksort strar with
      | .returned (_, strar') =>
          have := decidableStrarAllSafe stdQuicksort calls strar'
          decidable_of_iff (call.Safe strar ∧ StrarAllSafe stdQuicksort calls strar')
            ⟨fun h => strarAllSafe_cons hcall h.1 h.2, fun h => ⟨h.1, h.2 _ _ hcall⟩⟩
      | .exited _ | .fault | .outOfFuel =>
          decidable_of_iff (call.Safe strar)
            ⟨fun h => ⟨h, fun _ _ h' => by rw [hcall] at h'; cases h'⟩, fun h => h.1⟩

theorem strar_refines_removing :
    ∃ strar, strarRun Qsort.insertion 0 strarRemoving =
        .returned ((strarExpectedAll Qsort.insertion strarRemoving []).1, strar) ∧
      strar.Contains (strarExpectedAll Qsort.insertion strarRemoving []).2 := by
  refine strar_refines Qsort.insertion 0 strarRemoving fun strar hopen => ?_
  cases hopen
  decide +kernel

/-- Two strings that change places before another one is added. -/
def strarSorting : List StrarCall :=
  [.add ⟨literal "b", by decide⟩ 0, .add ⟨literal "a", by decide⟩ 0, .qsort strarQsortStrcmp,
    .add ⟨literal "c", by decide⟩ 0, .get 0]

set_option maxRecDepth 4000 in
/-- The string that is added is written over the first one. -/
theorem strarSorting_not_refines :
    ¬ ∃ strar, strarRun Qsort.insertion 0 strarSorting =
          .returned ((strarExpectedAll Qsort.insertion strarSorting []).1, strar) ∧
        strar.Contains (strarExpectedAll Qsort.insertion strarSorting []).2 := by
  rintro ⟨strar, hrun, -⟩
  have hreplies : (strarRun Qsort.insertion 0 strarSorting >>= fun r => .returned r.1) =
      .returned [.code 0, .code 0, .nothing, .code 0, .string (some ⟨literal "c", by decide⟩)] :=
    rfl
  have hexpected : (strarExpectedAll Qsort.insertion strarSorting []).1 =
      [.code 0, .code 0, .nothing, .code 0, .string (some ⟨literal "a", by decide⟩)] :=
    rfl
  have hother : (⟨literal "a", by decide⟩ : CString) ≠ ⟨literal "c", by decide⟩ := by decide
  rw [hrun, hexpected, Outcome.returned_bind] at hreplies
  have hsame := Outcome.returned.inj hreplies
  simp only [List.cons.injEq, StrarReply.string.injEq, Option.some.injEq] at hsame
  exact hother hsame.2.2.2.2.1

end Swbis.Misc
