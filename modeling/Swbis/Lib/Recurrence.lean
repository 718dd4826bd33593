import Mathlib.Data.List.Basic
import Mathlib.Tactic.Common

/-!
# Sequences in a ring of places

A sequence whose terms come from earlier ones is `terms`, the list of its first
terms.  A program that needs only the last `n` terms keeps them in `n` places and
writes a new one over the oldest.  `InRing` says that the places hold the terms up
to a given one; `InRing.get` reads one of them, `InRing.set` writes the next.
-/

namespace CLib

variable {α : Type}

/-- The first terms of a sequence, each made from the ones before it. -/
def terms (next : List α → α) : Nat → List α
  | 0 => []
  | n + 1 => terms next n ++ [next (terms next n)]

/-- A term of the sequence. -/
def term (next : List α → α) (n : Nat) : α := next (terms next n)

theorem terms_succ (next : List α → α) (n : Nat) :
    terms next (n + 1) = terms next n ++ [term next n] := rfl

@[simp] theorem length_terms (next : List α → α) (n : Nat) : (terms next n).length = n := by
  induction n with
  | zero => rfl
  | succ n ih => rw [terms_succ, List.length_append, ih, List.length_singleton]

theorem getD_terms (next : List α → α) {n i : Nat} (hi : i < n) (d : α) :
    (terms next n).getD i d = term next i := by
  induction n with
  | zero => omega
  | succ n ih =>
      rw [terms_succ, List.getD_eq_getElem?_getD]
      rcases Nat.lt_or_ge i n with hlt | hge
      · rw [List.getElem?_append_left (by rwa [length_terms]), ← List.getD_eq_getElem?_getD, ih hlt]
      · have hlast : i = n := by omega
        rw [List.getElem?_append_right (by rwa [length_terms]), length_terms, hlast, Nat.sub_self]
        rfl

/-- The places hold the `n` terms before the `t`-th. -/
structure InRing (w : Nat → α) (d : α) (n t : Nat) (x : List α) : Prop where
  length_eq : x.length = n
  holds : ∀ j < t, t ≤ j + n → x.getD (j % n) d = w j

namespace InRing

variable {w : Nat → α} {d : α} {n t : Nat} {x : List α}

/-- A term that is not too old. -/
theorem get (h : InRing w d n t x) {k : Nat} (hpos : 0 < k) (hk : k ≤ n) (ht : k ≤ t) :
    x.getD ((t - k) % n) d = w (t - k) :=
  h.holds (t - k) (by omega) (by omega)

/-- The next term takes the place of the oldest. -/
theorem set (h : InRing w d n t x) (hn : 0 < n) : InRing w d n (t + 1) (x.set (t % n) (w t)) where
  length_eq := by rw [List.length_set, h.length_eq]
  holds := by
    intro j hj hle
    rw [List.getD_eq_getElem?_getD]
    rcases Nat.lt_or_ge j t with hlt | hge
    · -- the other places are kept
      have hne : t % n ≠ j % n := by
        intro heq
        have hdvd : n ∣ t - j := Nat.dvd_of_mod_eq_zero (Nat.sub_mod_eq_zero_of_mod_eq heq)
        have := Nat.le_of_dvd (by omega) hdvd
        omega
      rw [List.getElem?_set_ne hne, ← List.getD_eq_getElem?_getD]
      exact h.holds j hlt (by omega)
    · have hlast : j = t := by omega
      rw [hlast, List.getElem?_set_self (by rw [h.length_eq]; exact Nat.mod_lt t hn)]
      rfl

end InRing

end CLib
