import Mathlib.Algebra.Group.Int.Defs
import Mathlib.Algebra.Group.Nat.Defs
import Mathlib.Data.List.Basic
import Swbis.Lib.Memory

/-!
# Arrays of pointers

`CPLOB` is an array of pointers that grows.  Its lengths are of type `int`, and
`cplob_additem` asks for eight pointers more than it needs, so a store close to
`INT_MAX` computes a length that does not fit.

`Cplob.Terminated` is an array that ends in a NULL pointer, which is part of it,
in an allocation as the growth by nine pointers leaves it.  `Cplob.Ends` is one
that ends in this way in any allocation.  Of the allocation, `cplob_remove_index`
forgets one slot each time.
-/

namespace Swbis.Misc

open CLib

/-- `CPLOB`.  A NULL pointer is `none`. -/
structure Cplob (α : Type) where
  /-- The pointers of the allocation. -/
  list : List (Option α)
  nlen : Nat
  nused : Nat

/-- The largest `int`. -/
def cplobIntMax : Nat := 2 ^ 31 - 1

/-- `CPLOB_NLENGTHINCR` -/
def cplobNlengthincr : Nat := 8

variable {α : Type}

/-- `cplob_open`, of a positive number of pointers. -/
def cplobOpen (α : Type) (nobj : Nat) : Cplob α := ⟨List.replicate nobj none, nobj, 0⟩

/-- `cplob_reopen`. -/
def cplobReopen (newLength : Nat) (lob : Cplob α) : Cplob α :=
  let newLength := if newLength ≤ 1 then 2 else newLength
  if lob.nlen < newLength then
    { lob with
      list := lob.list.take lob.nlen ++ List.replicate (newLength - lob.nlen) none
      nlen := newLength }
  else lob

/-- The store of `cplob_additem`, and the length behind it. -/
def cplobStore (lob : Cplob α) (index : Nat) (addr : Option α) : Outcome (Cplob α) :=
  if index < lob.list.length then
    .returned { lob with
      list := lob.list.set index addr
      nused := if lob.nused < index + 1 then index + 1 else lob.nused }
  else .fault

/-- `cplob_additem`. -/
def cplobAdditem (lob : Cplob α) (index : Nat) (addr : Option α) : Outcome (Cplob α) :=
  if lob.nlen < index + 1 then
    if cplobIntMax < index + 1 + cplobNlengthincr then .fault
    else cplobStore (cplobReopen (index + 1 + cplobNlengthincr) lob) index addr
  else cplobStore lob index addr

/-- `cplob_val`. -/
def cplobVal (lob : Cplob α) (index : Nat) : Outcome (Option α) :=
  if lob.nused < index then .returned none
  else
    match lob.list[index]? with
    | some p => .returned p
    | none => .fault

/-- `cplob_shallow_reset`. -/
def cplobShallowReset (lob : Cplob α) : Cplob α :=
  { lob with list := overwrite lob.list 0 (List.replicate lob.nlen none), nused := 0 }

/-- `cplob_add_nta`. -/
def cplobAddNta (lob : Cplob α) (addr : Option α) : Outcome (Cplob α) := do
  let nused := if lob.nused = 0 then 1 else lob.nused
  if cplobIntMax < nused + cplobNlengthincr then .fault
  else
    let new ← cplobStore (cplobReopen (nused + cplobNlengthincr) { lob with nused }) (nused - 1) addr
    -- the NULL of an empty array is its own end
    if lob.nused = 0 ∧ addr.isNone then return new else cplobAdditem new new.nused none

/-- `cplob_remove_index`. -/
def cplobRemoveIndex (lob : Cplob α) (i : Int) : Outcome (Cplob α) :=
  if i < 0 ∨ lob.nused ≤ i ∨ lob.nlen = 0 then .returned lob
  else do
    let list ← moveSlots lob.list i (i + 1) (lob.nused - i - 1)
    return { list, nlen := lob.nlen - 1, nused := lob.nused - 1 }

/-! ## Arrays that end in NULL -/

/-- The most pointers that an array holds in front of its NULL. -/
def terminatedMax : Nat := 2 ^ 31 - 4

/-- The array holds the pointers and behind them a NULL. -/
structure Cplob.Terminated (lob : Cplob α) (xs : List α) : Prop where
  list_eq : ∃ spare, lob.list = xs.map some ++ none :: spare
  nlen_eq : lob.nlen = lob.list.length
  nused_eq : lob.nused = xs.length + 1
  /-- The allocation has grown by nine pointers each time, and still fits. -/
  grown : lob.nlen % 9 = 8 ∧ lob.nlen ≤ cplobIntMax

namespace Cplob

variable {lob : Cplob α} {xs : List α}

/-- There is room for the pointers and the NULL. -/
theorem Terminated.lt_nlen (h : lob.Terminated xs) : xs.length < lob.nlen := by
  obtain ⟨spare, hl⟩ := h.list_eq
  rw [h.nlen_eq, hl, List.length_append, List.length_map, List.length_cons]
  omega

theorem Terminated.length_le (h : lob.Terminated xs) : xs.length ≤ terminatedMax := by
  have hlt := h.lt_nlen
  obtain ⟨hmod, hle⟩ := h.grown
  rw [cplobIntMax] at hle
  rw [terminatedMax]
  omega

theorem cplobStore_eq {i : Nat} (addr : Option α) (hi : i < lob.list.length) :
    cplobStore lob i addr = .returned { lob with
      list := lob.list.set i addr
      nused := if lob.nused < i + 1 then i + 1 else lob.nused } := by
  rw [cplobStore, if_pos hi]

/-- A pointer in place of the NULL. -/
theorem Terminated.additem_last (h : lob.Terminated xs) (x : α) :
    cplobAdditem lob (lob.nused - 1) (some x) =
      .returned { lob with list := lob.list.set xs.length (some x) } := by
  have hlt := h.lt_nlen
  rw [h.nused_eq, Nat.add_sub_cancel, cplobAdditem, if_neg (by omega),
    cplobStore_eq _ (by rw [← h.nlen_eq]; exact hlt), h.nused_eq, if_neg (Nat.lt_irrefl _)]

/-- The list of an array once a pointer stands in place of the NULL. -/
theorem Terminated.set_eq (h : lob.Terminated xs) (x : α) :
    ∃ spare, lob.list.set xs.length (some x) = (xs ++ [x]).map some ++ spare ∧
      spare.length + (xs.length + 1) = lob.nlen := by
  obtain ⟨spare, hl⟩ := h.list_eq
  refine ⟨spare, ?_, ?_⟩
  · rw [hl, List.set_append_right _ _ (by rw [List.length_map]), List.length_map, Nat.sub_self,
      List.set_cons_zero, List.map_append, List.append_assoc]
    rfl
  · rw [h.nlen_eq, hl, List.length_append, List.length_map, List.length_cons]
    omega

/-- The new NULL behind it, in the allocation or in a larger one. -/
theorem Terminated.additem_null (h : lob.Terminated xs) (x : α) (hmax : xs.length < terminatedMax) :
    ∃ lob', cplobAdditem { lob with list := lob.list.set xs.length (some x) } lob.nused none =
        .returned lob' ∧ lob'.Terminated (xs ++ [x]) := by
  obtain ⟨spare, hset, hlen⟩ := h.set_eq x
  obtain ⟨hmod, hle⟩ := h.grown
  have hlt := h.lt_nlen
  rw [cplobIntMax] at hle
  rw [terminatedMax] at hmax
  rw [hset, h.nused_eq]
  cases spare with
  | nil =>
      rw [List.length_nil, Nat.zero_add] at hlen
      have hgrow : lob.nlen < xs.length + 1 + 1 := by omega
      have hfits : ¬cplobIntMax < xs.length + 1 + 1 + cplobNlengthincr := by
        rw [cplobIntMax, cplobNlengthincr]
        omega
      rw [cplobAdditem, if_pos hgrow, if_neg hfits]
      have hnew : lob.nlen < xs.length + 1 + 1 + cplobNlengthincr := by omega
      have hne : ¬xs.length + 1 + 1 + cplobNlengthincr ≤ 1 := by omega
      have hadd : xs.length + 1 + 1 + cplobNlengthincr - lob.nlen = 9 := by
        rw [cplobNlengthincr]
        omega
      have hall : ((xs ++ [x]).map some ++ []).take lob.nlen = (xs ++ [x]).map some := by
        rw [List.append_nil, List.take_of_length_le (by simp; omega)]
      simp only [cplobReopen, if_neg hne, if_pos hnew, hadd, hall]
      rw [cplobStore_eq _ (by simp)]
      refine ⟨_, rfl, ⟨⟨List.replicate 8 none, ?_⟩, ?_, ?_, ?_⟩⟩
      · change (((xs ++ [x]).map some) ++ List.replicate 9 none).set (xs.length + 1) none = _
        rw [List.set_append_right _ _ (by simp), List.length_map, List.length_append,
          List.length_singleton, Nat.sub_self]
        rfl
      · simp [cplobNlengthincr]
      · simp
      · change (xs.length + 1 + 1 + 8) % 9 = 8 ∧ xs.length + 1 + 1 + 8 ≤ 2 ^ 31 - 1
        omega
  | cons p spare =>
      rw [List.length_cons] at hlen
      have hroom : ¬lob.nlen < xs.length + 1 + 1 := by omega
      rw [cplobAdditem, if_neg hroom, cplobStore_eq _ (by simp)]
      refine ⟨_, rfl, ⟨⟨spare, ?_⟩, ?_, ?_, ⟨hmod, by rw [cplobIntMax]; exact hle⟩⟩⟩
      · change (((xs ++ [x]).map some) ++ p :: spare).set (xs.length + 1) none = _
        rw [List.set_append_right _ _ (by simp), List.length_map, List.length_append,
          List.length_singleton, Nat.sub_self, List.set_cons_zero]
      · simp
        omega
      · simp

/-- A full array has no room for the new NULL, and no larger allocation is possible. -/
theorem Terminated.additem_null_full (h : lob.Terminated xs) (x : α)
    (hmax : xs.length = terminatedMax) :
    cplobAdditem { lob with list := lob.list.set xs.length (some x) } lob.nused none = .fault := by
  have hlt := h.lt_nlen
  obtain ⟨hmod, hle⟩ := h.grown
  rw [cplobIntMax] at hle
  rw [terminatedMax] at hmax
  rw [h.nused_eq, cplobAdditem, if_pos (show lob.nlen < xs.length + 1 + 1 by omega), if_pos]
  rw [cplobIntMax, cplobNlengthincr]
  omega

/-! ## The same in any allocation -/

/-- The array holds the pointers and behind them a NULL, in slots that it knows of. -/
structure Ends (lob : Cplob α) (xs : List α) : Prop where
  list_eq : ∃ spare, lob.list = xs.map some ++ none :: spare
  nused_eq : lob.nused = xs.length + 1
  nused_le : lob.nused ≤ lob.nlen
  nlen_le : lob.nlen ≤ lob.list.length

/-- The array is as `cplob_shallow_reset` leaves it. -/
structure Cleared (lob : Cplob α) : Prop where
  list_eq : ∃ spare, lob.list = none :: spare
  nused_eq : lob.nused = 0
  nlen_pos : 0 < lob.nlen
  nlen_le : lob.nlen ≤ lob.list.length

/-- The pointers of an array, which may have been reset. -/
def Lists (lob : Cplob α) (xs : List α) : Prop := lob.Ends xs ∨ xs = [] ∧ lob.Cleared

theorem Ends.val_lt (h : lob.Ends xs) {i : Nat} (hi : i < xs.length) :
    cplobVal lob i = .returned (some xs[i]) := by
  obtain ⟨spare, hl⟩ := h.list_eq
  have hle : ¬lob.nused < i := by rw [h.nused_eq]; omega
  rw [cplobVal, if_neg hle, hl, List.getElem?_append_left (by rwa [List.length_map]),
    List.getElem?_map, List.getElem?_eq_getElem hi]
  rfl

theorem Ends.val_length (h : lob.Ends xs) : cplobVal lob xs.length = .returned none := by
  obtain ⟨spare, hl⟩ := h.list_eq
  have hle : ¬lob.nused < xs.length := by rw [h.nused_eq]; omega
  rw [cplobVal, if_neg hle, hl, List.getElem?_append_right (by rw [List.length_map]),
    List.length_map, Nat.sub_self]
  rfl

theorem Terminated.ends (h : lob.Terminated xs) : lob.Ends xs where
  list_eq := h.list_eq
  nused_eq := h.nused_eq
  nused_le := by
    rw [h.nused_eq]
    exact h.lt_nlen
  nlen_le := Nat.le_of_eq h.nlen_eq

theorem Terminated.val_lt (h : lob.Terminated xs) {i : Nat} (hi : i < xs.length) :
    cplobVal lob i = .returned (some xs[i]) := h.ends.val_lt hi

theorem Terminated.val_length (h : lob.Terminated xs) :
    cplobVal lob xs.length = .returned none := h.ends.val_length

theorem Lists.val_length (h : lob.Lists xs) : cplobVal lob xs.length = .returned none := by
  rcases h with h | ⟨rfl, h⟩
  · exact h.val_length
  · obtain ⟨spare, hl⟩ := h.list_eq
    rw [cplobVal, List.length_nil, if_neg (Nat.not_lt_zero _), hl]
    rfl

/-- Another pointer in place of one of them. -/
theorem Ends.additem (h : lob.Ends xs) {i : Nat} (hi : i < xs.length) (x : α) :
    ∃ lob', cplobAdditem lob i (some x) = .returned lob' ∧ lob'.Ends (xs.set i x) := by
  obtain ⟨spare, hl⟩ := h.list_eq
  have hused := h.nused_eq
  have hle := h.nused_le
  have hlen := h.nlen_le
  rw [cplobAdditem, if_neg (by omega), cplobStore_eq _ (by omega), if_neg (by omega)]
  refine ⟨_, rfl, ⟨spare, ?_⟩, ?_, hle, ?_⟩
  · change lob.list.set i (some x) = _
    rw [hl, List.set_append_left _ _ (by rwa [List.length_map]), List.map_set]
  · rw [List.length_set]
    exact hused
  · change lob.nlen ≤ (lob.list.set i (some x)).length
    rw [List.length_set]
    exact hlen

/-- A larger allocation. -/
theorem Ends.reopen (h : lob.Ends xs) {n : Nat} (hn : 1 < n) :
    (cplobReopen n lob).Ends xs ∧ n ≤ (cplobReopen n lob).nlen := by
  obtain ⟨spare, hl⟩ := h.list_eq
  have hused := h.nused_eq
  have hle := h.nused_le
  have hlen := h.nlen_le
  simp only [cplobReopen, if_neg (Nat.not_le.mpr hn)]
  by_cases hgrow : lob.nlen < n
  · rw [if_pos hgrow]
    refine ⟨⟨⟨spare.take (lob.nlen - xs.length - 1) ++ List.replicate (n - lob.nlen) none, ?_⟩,
      hused, hle.trans hgrow.le, ?_⟩, Nat.le_refl n⟩
    · have hsplit : lob.nlen = (xs.map some).length + (lob.nlen - xs.length - 1 + 1) := by
        rw [List.length_map]
        omega
      have htake : (xs.map some ++ none :: spare).take lob.nlen =
          xs.map some ++ none :: spare.take (lob.nlen - xs.length - 1) := by
        conv_lhs => rw [hsplit]
        rw [List.take_length_add_append, List.take_succ_cons]
      change lob.list.take lob.nlen ++ List.replicate (n - lob.nlen) none = _
      rw [hl, htake, List.append_assoc]
      rfl
    · change n ≤ (lob.list.take lob.nlen ++ List.replicate (n - lob.nlen) none).length
      rw [List.length_append, List.length_take_of_le hlen, List.length_replicate]
      omega
  · rw [if_neg hgrow]
    exact ⟨h, Nat.not_lt.mp hgrow⟩

/-- A pointer and a new NULL, where there is room for them. -/
theorem Ends.store_additem (h : lob.Ends xs) (hroom : lob.nused < lob.nlen) (x : α) :
    ∃ new, cplobStore lob xs.length (some x) = .returned new ∧
      ∃ lob', cplobAdditem new new.nused none = .returned lob' ∧ lob'.Ends (xs ++ [x]) := by
  obtain ⟨spare, hl⟩ := h.list_eq
  have hused := h.nused_eq
  have hlen := h.nlen_le
  have hlength : lob.list.length = xs.length + (spare.length + 1) := by
    rw [hl, List.length_append, List.length_map, List.length_cons]
  obtain ⟨y, rest, rfl⟩ : ∃ y rest, spare = y :: rest :=
    List.exists_cons_of_length_pos (by omega)
  have hset : (xs.map some ++ none :: y :: rest).set xs.length (some x) =
      (xs ++ [x]).map some ++ y :: rest := by
    rw [List.set_append_right _ _ (by rw [List.length_map]), List.length_map, Nat.sub_self,
      List.set_cons_zero, List.map_append, List.append_assoc]
    rfl
  have hset' : ((xs ++ [x]).map some ++ y :: rest).set (xs.length + 1) none =
      (xs ++ [x]).map some ++ none :: rest := by
    rw [List.set_append_right _ _ (by simp), List.length_map, List.length_append,
      List.length_singleton, Nat.sub_self, List.set_cons_zero]
  have hlength' : ((xs ++ [x]).map some ++ y :: rest).length = lob.list.length := by
    simp [hlength, Nat.add_comm]
  rw [cplobStore_eq _ (by omega), hl, hset, if_neg (by omega)]
  refine ⟨_, rfl, ?_⟩
  simp only [hused, cplobAdditem]
  rw [if_neg (by omega), cplobStore_eq _ (by simp)]
  simp only [hset']
  refine ⟨_, rfl, ⟨rest, rfl⟩, ?_, ?_, ?_⟩
  · rw [if_pos (by omega), List.length_append, List.length_singleton]
  · rw [if_pos (by omega)]
    change xs.length + 1 + 1 ≤ lob.nlen
    omega
  · change lob.nlen ≤ ((xs ++ [x]).map some ++ none :: rest).length
    rw [List.length_append, List.length_cons] at hlength' ⊢
    omega

/-- One pointer more. -/
theorem Lists.addNta (h : lob.Lists xs) (x : α) (hmax : xs.length + 9 ≤ cplobIntMax) :
    ∃ lob', cplobAddNta lob (some x) = .returned lob' ∧ lob'.Ends (xs ++ [x]) := by
  -- with one slot in use, an array that was reset is one that ends
  obtain ⟨hends, hused⟩ : Ends { lob with nused := if lob.nused = 0 then 1 else lob.nused } xs ∧
      (if lob.nused = 0 then 1 else lob.nused) = xs.length + 1 := by
    rcases h with h | ⟨rfl, h⟩
    · have hne : lob.nused ≠ 0 := by rw [h.nused_eq]; omega
      rw [if_neg hne]
      exact ⟨h, h.nused_eq⟩
    · rw [if_pos h.nused_eq]
      exact ⟨⟨h.list_eq, rfl, h.nlen_pos, h.nlen_le⟩, rfl⟩
  obtain ⟨hroom, hlarge⟩ := hends.reopen (n := xs.length + 1 + cplobNlengthincr) (by
    rw [cplobNlengthincr]
    omega)
  have hlt : (cplobReopen (xs.length + 1 + cplobNlengthincr)
      { lob with nused := if lob.nused = 0 then 1 else lob.nused }).nused <
      (cplobReopen (xs.length + 1 + cplobNlengthincr)
        { lob with nused := if lob.nused = 0 then 1 else lob.nused }).nlen := by
    rw [hroom.nused_eq]
    rw [cplobNlengthincr] at hlarge ⊢
    omega
  obtain ⟨new, hstore, lob', hadd, hends'⟩ := hroom.store_additem hlt x
  have hfits : ¬cplobIntMax < xs.length + 1 + cplobNlengthincr := by
    rw [cplobNlengthincr]
    omega
  rw [hused] at hstore
  refine ⟨lob', ?_, hends'⟩
  simp only [cplobAddNta, hused, if_neg hfits, Nat.add_sub_cancel, hstore, Outcome.returned_bind]
  rw [if_neg (by simp), hadd]

/-- One of the pointers is removed. -/
theorem Ends.removeIndex (h : lob.Ends xs) {i : Nat} (hi : i < xs.length) :
    ∃ lob', cplobRemoveIndex lob i = .returned lob' ∧ lob'.Ends (xs.eraseIdx i) := by
  obtain ⟨spare, hl⟩ := h.list_eq
  have hused := h.nused_eq
  have hle := h.nused_le
  have hlen := h.nlen_le
  obtain ⟨a, x, s, rfl, rfl⟩ : ∃ a x s, xs = a ++ x :: s ∧ a.length = i :=
    ⟨xs.take i, xs[i], xs.drop (i + 1), by rw [List.getElem_cons_drop, List.take_append_drop],
      List.length_take_of_le hi.le⟩
  have herase : (a ++ x :: s).eraseIdx a.length = a ++ s := by
    rw [List.eraseIdx_append_of_length_le (Nat.le_refl _), Nat.sub_self, List.eraseIdx_zero]
    rfl
  rw [List.length_append, List.length_cons] at hused
  have hcount : (lob.nused : Int) - (a.length : Nat) - 1 = ((s.map some ++ [none]).length : Nat) := by
    rw [List.length_append, List.length_map, List.length_singleton]
    omega
  have hshape : lob.list = a.map some ++ some x :: ((s.map some ++ [none]) ++ spare) := by
    rw [hl, List.map_append, List.map_cons, List.append_assoc, List.append_assoc]
    rfl
  obtain ⟨rest, hmove, hrest⟩ := moveSlots_down (a.map some) (some x) (s.map some ++ [none]) spare
  rw [List.length_map] at hmove
  have hin : ¬(((a.length : Nat) : Int) < 0 ∨ (lob.nused : Int) ≤ (a.length : Nat) ∨ lob.nlen = 0) := by
    omega
  rw [herase, cplobRemoveIndex, if_neg hin, hcount, hshape, ← Int.natCast_succ, hmove,
    Outcome.returned_bind]
  refine ⟨_, rfl, ⟨rest, ?_⟩, ?_, ?_, ?_⟩
  · rw [List.map_append, List.append_assoc, List.append_assoc]
    rfl
  · rw [List.length_append]
    change lob.nused - 1 = _
    omega
  · change lob.nused - 1 ≤ lob.nlen - 1
    omega
  · change lob.nlen - 1 ≤ (a.map some ++ (s.map some ++ [none] ++ rest)).length
    rw [hshape] at hlen
    simp only [List.length_append, List.length_cons, List.length_map, List.length_nil, hrest] at hlen ⊢
    omega

/-- All pointers are forgotten. -/
theorem Lists.shallowReset (h : lob.Lists xs) : (cplobShallowReset lob).Cleared := by
  obtain ⟨hpos, hlen⟩ : 0 < lob.nlen ∧ lob.nlen ≤ lob.list.length := by
    rcases h with h | ⟨-, h⟩
    · exact ⟨Nat.lt_of_lt_of_le (by rw [h.nused_eq]; omega) h.nused_le, h.nlen_le⟩
    · exact ⟨h.nlen_pos, h.nlen_le⟩
  obtain ⟨n, hn⟩ := Nat.exists_eq_add_of_lt hpos
  refine ⟨⟨List.replicate n none ++ lob.list.drop lob.nlen, ?_⟩, rfl, hpos, ?_⟩
  · rw [Nat.zero_add] at hn
    change overwrite lob.list 0 (List.replicate lob.nlen none) = _
    rw [overwrite, List.length_replicate, List.take_zero, List.nil_append, Nat.zero_add, hn,
      List.replicate_succ]
    rfl
  · change lob.nlen ≤ (overwrite lob.list 0 (List.replicate lob.nlen none)).length
    rw [length_overwrite (Nat.zero_le _)]
    exact hlen.trans (Nat.le_max_left _ _)

end Cplob

end Swbis.Misc
