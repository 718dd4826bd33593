import Mathlib.Data.List.Basic
import Mathlib.Data.Nat.Basic

/-!
# Arrays of pointers that end with `NULL`

An `ObjList` stands for an array of a fixed length that holds fewer objects than
it has cells, so that `NULL` stands behind them.  A loop over the array reads the
cells until it meets the `NULL`.

*Searches.*  The first object that passes a test is the first one that passes a
stronger test just when none that passes the weak one alone comes too early
(`findIdx?_eq_iff_firstGood`).
-/

namespace CLib

/-! ## The array -/

/-- The objects in an array of `n` cells. -/
structure ObjList (α : Type) (n : Nat) where
  objs : List α
  /-- There is a cell left for `NULL`. -/
  short : objs.length < n

/-- The objects that a loop meets before it meets `NULL`. -/
def untilNull {α : Type} : List (Option α) → List α
  | some o :: cells => o :: untilNull cells
  | none :: _ => []
  | [] => []

/-- Nothing behind the `NULL` is looked at. -/
theorem untilNull_map_some {α : Type} (objs : List α) (behind : List (Option α)) :
    untilNull (objs.map some ++ none :: behind) = objs := by
  induction objs with
  | nil => rfl
  | cons o objs ih =>
      change o :: untilNull (objs.map some ++ none :: behind) = o :: objs
      rw [ih]

/-- What a loop meets in the first cells. -/
theorem untilNull_take {α : Type} (m : Nat) (cells : List (Option α)) :
    untilNull (cells.take m) = (untilNull cells).take m := by
  induction cells generalizing m with
  | nil => rw [List.take_nil, untilNull, List.take_nil]
  | cons cell cells ih =>
      cases m with
      | zero => rfl
      | succ m =>
          cases cell with
          | none => rfl
          | some o => exact congrArg (List.cons o) (ih m)

/-- A loop that meets at most `m` objects looks at no cell behind the next. -/
theorem untilNull_congr {α : Type} {m : Nat} {cells cells' : List (Option α)}
    (hsame : cells'.take (m + 1) = cells.take (m + 1)) (hlen : (untilNull cells).length ≤ m) :
    untilNull cells' = untilNull cells := by
  have htake : (untilNull cells').take (m + 1) = untilNull cells := by
    rw [← untilNull_take, hsame, untilNull_take, List.take_of_length_le (Nat.le_succ_of_le hlen)]
  have hlen' : (untilNull cells').length ≤ m := by
    have hmin := congrArg List.length htake
    rw [List.length_take] at hmin
    omega
  rw [← htake, List.take_of_length_le (Nat.le_succ_of_le hlen')]

namespace ObjList

variable {α : Type} {n : Nat}

/-- The cells of the array. -/
def cells (l : ObjList α n) : List (Option α) :=
  l.objs.map some ++ List.replicate (n - l.objs.length) none

theorem cells_eq (l : ObjList α n) :
    l.cells = l.objs.map some ++ none :: List.replicate (n - l.objs.length - 1) none := by
  have hpos : 0 < n - l.objs.length := Nat.sub_pos_of_lt l.short
  rw [cells, ← List.replicate_succ, Nat.sub_add_cancel hpos]

@[simp] theorem untilNull_cells (l : ObjList α n) : untilNull l.cells = l.objs := by
  rw [cells_eq, untilNull_map_some]

/-- The empty array. -/
def empty (hn : 0 < n) : ObjList α n := ⟨[], hn⟩

/-- One more object, if a cell is left behind it. -/
def add (l : ObjList α n) (p : α) (h : l.objs.length + 1 < n) : ObjList α n :=
  ⟨l.objs ++ [p], by rw [List.length_append]; exact h⟩

end ObjList

/-! ## The first that passes -/

/-- Each one that passes the weak test passes the strong test, or another one
before it does. -/
def FirstGood {α : Type} (strong weak : α → Bool) (xs : List α) : Prop :=
  ∀ before x after, xs = before ++ x :: after → weak x = true →
    ∃ y ∈ before ++ [x], strong y = true

variable {α : Type} {strong weak : α → Bool}

theorem firstGood_cons_of_weak {x : α} {xs : List α} (hx : weak x = true)
    (hfirst : FirstGood strong weak (x :: xs)) : strong x = true := by
  obtain ⟨y, hy, hstrong⟩ := hfirst [] x xs rfl hx
  exact List.mem_singleton.mp hy ▸ hstrong

theorem firstGood_cons_of_strong {x : α} (xs : List α) (hx : strong x = true) :
    FirstGood strong weak (x :: xs) := by
  intro before y after heq _
  cases before with
  | nil =>
      obtain ⟨rfl, rfl⟩ := List.cons.inj heq
      exact ⟨x, List.mem_singleton_self x, hx⟩
  | cons z before =>
      obtain ⟨rfl, rfl⟩ := List.cons.inj heq
      exact ⟨x, List.mem_cons_self, hx⟩

theorem firstGood_cons_of_not_weak {x : α} {xs : List α} (hx : weak x = false)
    (himp : ∀ y, strong y = true → weak y = true) :
    FirstGood strong weak (x :: xs) ↔ FirstGood strong weak xs := by
  constructor
  · intro hfirst before y after heq hy
    obtain ⟨z, hz, hstrong⟩ := hfirst (x :: before) y after (congrArg _ heq) hy
    rcases List.mem_cons.mp hz with rfl | hz
    · exact absurd (himp z hstrong) (by rw [hx]; exact Bool.false_ne_true)
    · exact ⟨z, hz, hstrong⟩
  · intro hfirst before y after heq hy
    cases before with
    | nil =>
        obtain ⟨rfl, rfl⟩ := List.cons.inj heq
        rw [hx] at hy
        exact absurd hy Bool.false_ne_true
    | cons w before =>
        obtain ⟨z, hz, hstrong⟩ := hfirst before y after (List.cons.inj heq).2 hy
        exact ⟨z, List.mem_cons_of_mem _ hz, hstrong⟩

/-- Both searches find the same one just when no other one comes too early. -/
theorem findIdx?_eq_iff_firstGood (himp : ∀ y, strong y = true → weak y = true) (xs : List α) :
    xs.findIdx? weak = xs.findIdx? strong ↔ FirstGood strong weak xs := by
  induction xs with
  | nil =>
      refine iff_of_true rfl fun before x after heq _ => ?_
      exact absurd heq.symm (List.append_ne_nil_of_right_ne_nil _ (List.cons_ne_nil _ _))
  | cons x xs ih =>
      rw [List.findIdx?_cons, List.findIdx?_cons]
      cases hstrong : strong x with
      | true =>
          rw [himp x hstrong]
          exact iff_of_true rfl (firstGood_cons_of_strong xs hstrong)
      | false =>
          cases hweak : weak x with
          | true =>
              refine iff_of_false (fun heq => ?_) fun hfirst => ?_
              · cases hrest : xs.findIdx? strong <;> rw [hrest] at heq <;> simp at heq
              · exact Bool.false_ne_true (hstrong.symm.trans (firstGood_cons_of_weak hweak hfirst))
          | false =>
              rw [firstGood_cons_of_not_weak hweak himp, ← ih]
              exact (Option.map_injective Nat.succ_injective).eq_iff

end CLib
