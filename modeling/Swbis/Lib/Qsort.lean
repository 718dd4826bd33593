import Mathlib.Data.List.Sort

/-!
# Sorting by a comparison

`qsort` takes a function that says whether one element is less than, equal to or
greater than another one.  The function has to be consistent, and elements that
are equal by it may end up in any order.

`Qsort` is a sort that knows of the elements only what the comparison says, so
that to sort the places of things is to sort the things.
-/

namespace CLib

variable {α β : Type} {cmp : α → α → Int}

/-- The results of a comparison agree with each other. -/
structure Consistent (cmp : α → α → Int) : Prop where
  flip : ∀ a b, cmp a b < 0 ↔ 0 < cmp b a
  trans : ∀ {a b c}, cmp a b ≤ 0 → cmp b c ≤ 0 → cmp a c ≤ 0

theorem Consistent.total (h : Consistent cmp) (a b : α) : cmp a b ≤ 0 ∨ cmp b a ≤ 0 := by
  have hflip := h.flip b a
  omega

/-- Things are compared by what a function says of them. -/
theorem Consistent.comap (h : Consistent cmp) (f : β → α) :
    Consistent fun a b => cmp (f a) (f b) where
  flip a b := h.flip (f a) (f b)
  trans := h.trans

/-- A sort. -/
structure Qsort where
  sort {α : Type} (cmp : α → α → Int) (l : List α) : List α
  perm {α : Type} {cmp : α → α → Int} (h : Consistent cmp) (l : List α) : (sort cmp l).Perm l
  sorted {α : Type} {cmp : α → α → Int} (h : Consistent cmp) (l : List α) :
    (sort cmp l).Pairwise fun a b => cmp a b ≤ 0
  map {α β : Type} {cmp : α → α → Int} (h : Consistent cmp) (f : β → α) (l : List β) :
    (sort (fun a b => cmp (f a) (f b)) l).map f = sort cmp (l.map f)

/-- Fewer than two elements are sorted already. -/
theorem Qsort.sort_of_length_le_one (q : Qsort) (h : Consistent cmp) {l : List α}
    (hl : l.length ≤ 1) : q.sort cmp l = l := by
  have hperm := q.perm h l
  match l, hl with
  | [], _ => exact hperm.eq_nil
  | [_], _ => exact List.perm_singleton.mp hperm

/-- The sort by insertion. -/
def Qsort.insertion : Qsort where
  sort cmp l := l.insertionSort fun a b => cmp a b ≤ 0
  perm _ l := List.perm_insertionSort _ l
  sorted {_ cmp} h l := by
    have := Std.Total.mk (r := fun a b => cmp a b ≤ 0) h.total
    have := IsTrans.mk (r := fun a b => cmp a b ≤ 0) fun _ _ _ => h.trans
    exact List.pairwise_insertionSort _ l
  map _ f l := List.map_insertionSort _ _ f l fun _ _ _ _ => Iff.rfl

end CLib
