import Mathlib.Data.List.Basic
import Mathlib.Data.List.Nodup
import Mathlib.Data.List.Perm.Subperm
import Swbis.Lib.CString

/-!
# Singly linked lists on a heap

A node holds a value and a pointer to the next node; a heap is the nodes that
were allocated, and a node's address is its position.  `Seg h p l q` says that
one comes from the pointer `p` over the nodes `l` to the pointer `q`; a list
that ends is a segment to the null pointer.  Such a list goes over no node
twice (`Seg.nodup`), so it is no longer than the heap.
-/

namespace CLib

/-- A node of a list. -/
structure Node (α : Type) where
  val : α
  /-- The next node, or null. -/
  next : Option Nat
deriving DecidableEq

/-- The nodes that were allocated. -/
abbrev Heap (α : Type) := List (Node α)

namespace Heap

variable {α : Type}

/-- A store to the pointer of a node. -/
def setNext (h : Heap α) (a : Nat) (next : Option Nat) : Heap α :=
  h.modify a fun n => { n with next := next }

/-- A new node; its address is the length of the heap before. -/
def alloc (h : Heap α) (v : α) : Heap α := h ++ [⟨v, none⟩]

@[simp] theorem length_setNext (h : Heap α) (a : Nat) (next : Option Nat) :
    (h.setNext a next).length = h.length := by
  simp [setNext]

theorem getElem?_setNext_of_ne (h : Heap α) {a b : Nat} (hne : a ≠ b) (next : Option Nat) :
    (h.setNext a next)[b]? = h[b]? := by
  rw [setNext, List.getElem?_modify_ne _ _ hne]

theorem getElem?_setNext_self (h : Heap α) (a : Nat) (next : Option Nat) :
    (h.setNext a next)[a]? = h[a]?.map fun n => { n with next := next } := by
  rw [setNext, List.getElem?_modify_eq]
  rfl

/-- A store to a pointer keeps the values. -/
@[simp] theorem map_val_setNext (h : Heap α) (a : Nat) (next : Option Nat) :
    (h.setNext a next).map Node.val = h.map Node.val := by
  refine List.ext_getElem? fun b => ?_
  rw [List.getElem?_map, List.getElem?_map]
  by_cases hab : a = b
  · subst hab
    rw [getElem?_setNext_self, Option.map_map]
    rfl
  · rw [getElem?_setNext_of_ne h hab]

@[simp] theorem map_val_alloc (h : Heap α) (v : α) :
    (h.alloc v).map Node.val = h.map Node.val ++ [v] := by
  rw [alloc, List.map_append]
  rfl

theorem getElem?_alloc_of_lt (h : Heap α) (v : α) {a : Nat} (ha : a < h.length) :
    (h.alloc v)[a]? = h[a]? :=
  List.getElem?_append_left ha

@[simp] theorem getElem?_alloc_self (h : Heap α) (v : α) : (h.alloc v)[h.length]? = some ⟨v, none⟩ := by
  simp [alloc]

end Heap

/-- From the pointer `p` over nodes, with their addresses and values, to the pointer `q`. -/
inductive Seg {α : Type} (h : Heap α) : Option Nat → List (Nat × α) → Option Nat → Prop where
  | nil (p : Option Nat) : Seg h p [] p
  | cons {a : Nat} {v : α} {next q : Option Nat} {l : List (Nat × α)} :
      h[a]? = some ⟨v, next⟩ → Seg h next l q → Seg h (some a) ((a, v) :: l) q

namespace Seg

variable {α : Type} {h h' : Heap α} {p q : Option Nat} {l l₁ l₂ : List (Nat × α)} {a : Nat} {v : α}

theorem append_iff :
    Seg h p (l₁ ++ l₂) q ↔ ∃ b, Seg h p l₁ b ∧ Seg h b l₂ q := by
  constructor
  · intro hs
    induction l₁ generalizing p with
    | nil => exact ⟨p, .nil p, hs⟩
    | cons x l ih =>
        cases hs with
        | cons hget hs =>
            obtain ⟨b, h₁, h₂⟩ := ih hs
            exact ⟨b, .cons hget h₁, h₂⟩
  · rintro ⟨b, h₁, h₂⟩
    induction h₁ with
    | nil => exact h₂
    | cons hget _ ih => exact .cons hget (ih h₂)

theorem cons_iff :
    Seg h p ((a, v) :: l) q ↔ p = some a ∧ ∃ next, h[a]? = some ⟨v, next⟩ ∧ Seg h next l q := by
  constructor
  · intro hs
    cases hs with
    | cons hget hs => exact ⟨rfl, _, hget, hs⟩
  · rintro ⟨rfl, next, hget, hs⟩
    exact .cons hget hs

theorem nil_iff : Seg h p [] q ↔ p = q := by
  constructor
  · intro hs
    cases hs
    rfl
  · rintro rfl
    exact .nil p

/-- A segment depends on its own nodes only. -/
theorem congr (hs : Seg h p l q) (hget : ∀ b ∈ l.map Prod.fst, h'[b]? = h[b]?) : Seg h' p l q := by
  induction hs with
  | nil => exact .nil _
  | cons hg _ ih =>
      refine .cons (by rw [hget _ (by simp), hg]) (ih fun b hb => hget b ?_)
      rw [List.map_cons]
      exact List.mem_cons_of_mem _ hb

theorem lt_length (hs : Seg h p l q) : ∀ b ∈ l.map Prod.fst, b < h.length := by
  induction hs with
  | nil => simp
  | cons hg _ ih =>
      intro b hb
      rcases List.mem_cons.mp hb with rfl | hb
      · exact (List.getElem?_eq_some_iff.mp hg).1
      · exact ih b hb

theorem getElem? (hs : Seg h p l q) (hmem : (a, v) ∈ l) : ∃ next, h[a]? = some ⟨v, next⟩ := by
  induction hs with
  | nil => cases hmem
  | cons hg _ ih =>
      rcases List.mem_cons.mp hmem with he | hmem
      · cases he
        exact ⟨_, hg⟩
      · exact ih hmem

/-- A new node is in no segment. -/
theorem alloc (hs : Seg h p l q) (v : α) : Seg (h.alloc v) p l q :=
  hs.congr fun b hb => h.getElem?_alloc_of_lt v (hs.lt_length b hb)

theorem setNext_of_not_mem (hs : Seg h p l q) (ha : a ∉ l.map Prod.fst) (next : Option Nat) :
    Seg (h.setNext a next) p l q :=
  hs.congr fun b hb => h.getElem?_setNext_of_ne (fun he : a = b => ha (he ▸ hb)) next

/-- There is one list that ends behind a pointer. -/
theorem unique (h₁ : Seg h p l₁ none) (h₂ : Seg h p l₂ none) : l₁ = l₂ := by
  induction l₁ generalizing p l₂ with
  | nil =>
      cases h₁
      cases h₂
      rfl
  | cons x l ih =>
      cases h₁ with
      | cons hg hs =>
          cases h₂ with
          | cons hg' hs' =>
              rw [hg] at hg'
              cases hg'
              rw [ih hs hs']

/-- A list that ends goes over no node twice. -/
theorem nodup (hs : Seg h p l none) : (l.map Prod.fst).Nodup := by
  induction l generalizing p with
  | nil => exact List.nodup_nil
  | cons x l ih =>
      obtain ⟨a, v⟩ := x
      have hall := hs
      cases hs with
      | cons hg hs =>
          rw [List.map_cons, List.nodup_cons]
          refine ⟨fun hmem => ?_, ih hs⟩
          obtain ⟨⟨b, w⟩, hbw, hb⟩ := List.mem_map.mp hmem
          obtain ⟨l₁, l₂, rfl⟩ := List.append_of_mem hbw
          obtain ⟨c, -, h₂⟩ := append_iff.mp hs
          have hc : c = some b := (cons_iff.mp h₂).1
          rw [hc, show b = a from hb] at h₂
          have hlen := congrArg List.length (unique hall h₂)
          simp only [List.length_cons, List.length_append] at hlen
          omega

theorem not_mem_of_append (hs : Seg h p (l₁ ++ (a, v) :: l₂) none) :
    a ∉ l₁.map Prod.fst ∧ a ∉ l₂.map Prod.fst := by
  have hnodup := hs.nodup
  rw [List.map_append, List.map_cons, List.nodup_middle, List.nodup_cons, List.mem_append, not_or] at hnodup
  exact hnodup.1

theorem length_le (hs : Seg h p l none) : l.length ≤ h.length := by
  have hsub : l.map Prod.fst ⊆ List.range h.length := fun b hb => List.mem_range.mpr (hs.lt_length b hb)
  have hle := (List.subperm_of_subset hs.nodup hsub).length_le
  rwa [List.length_map, List.length_range] at hle

/-- A store to the pointer of the last node of a segment. -/
theorem setNext_last (hs : Seg h p (l ++ [(a, v)]) q) (ha : a ∉ l.map Prod.fst) (next : Option Nat) :
    Seg (h.setNext a next) p (l ++ [(a, v)]) next := by
  obtain ⟨b, h₁, h₂⟩ := append_iff.mp hs
  obtain ⟨rfl, next', hg, -⟩ := cons_iff.mp h₂
  refine append_iff.mpr ⟨some a, h₁.setNext_of_not_mem ha next, .cons ?_ (.nil next)⟩
  rw [Heap.getElem?_setNext_self, hg]
  rfl

/-- A new node in the place of one that has a node in front. -/
theorem replace {b : Nat} {w : α} {next : Option Nat}
    (hs : Seg h p ((l₁ ++ [(a, v)]) ++ (b, w) :: l₂) none) (hget : h[b]? = some ⟨w, next⟩) (c : α) :
    Seg (((h.alloc c).setNext a (some h.length)).setNext h.length next) p
      ((l₁ ++ [(a, v)]) ++ (h.length, c) :: l₂) none := by
  have hfresh : ∀ {x : Nat × α}, x ∈ (l₁ ++ [(a, v)]) ++ (b, w) :: l₂ → x.1 ≠ h.length := by
    intro x hx he
    exact Nat.lt_irrefl _ (he ▸ hs.lt_length _ (List.mem_map_of_mem hx))
  obtain ⟨q, h₁, h₂⟩ := append_iff.mp hs
  obtain ⟨rfl, next', hget', hnext⟩ := cons_iff.mp h₂
  rw [hget] at hget'
  cases hget'
  rw [List.append_assoc, List.singleton_append] at hs
  have ha := hs.not_mem_of_append
  have hak : a ≠ h.length := hfresh (x := (a, v)) (by simp)
  have hfront : Seg (((h.alloc c).setNext a (some h.length)).setNext h.length next) p
      (l₁ ++ [(a, v)]) (some h.length) := by
    refine ((h₁.alloc c).setNext_last ha.1 (some h.length)).setNext_of_not_mem ?_ next
    intro hmem
    obtain ⟨x, hx, he⟩ := List.mem_map.mp hmem
    exact hfresh (List.mem_append_left _ hx) he
  have hback : Seg (((h.alloc c).setNext a (some h.length)).setNext h.length next) next l₂ none := by
    refine ((hnext.alloc c).setNext_of_not_mem ?_ (some h.length)).setNext_of_not_mem ?_ next
    · rw [List.map_cons, List.mem_cons, not_or] at ha
      exact ha.2.2
    · intro hmem
      obtain ⟨x, hx, he⟩ := List.mem_map.mp hmem
      exact hfresh (List.mem_append_right _ (List.mem_cons_of_mem _ hx)) he
  refine append_iff.mpr ⟨some h.length, hfront, .cons ?_ hback⟩
  rw [Heap.getElem?_setNext_self, Heap.getElem?_setNext_of_ne _ hak, Heap.getElem?_alloc_self]
  rfl

end Seg

end CLib
