import Mathlib.Data.Set.Basic

/-!
# Tables of earlier answers

A table keeps an entry for each query that it could not answer, and answers later
queries from its entries.  It may drop entries at any time.  An entry may answer
queries other than the one it was made for, so a wrong answer can come from a
query asked long before.

`transparent_iff`: the answers are the direct ones, in every sequence of queries
from a set, exactly when they are for every two of them.
-/

namespace CLib

/-- A table of entries. -/
structure Memo (Query Entry Answer : Type) where
  /-- The answer without a table. -/
  direct : Query → Answer
  /-- The entry that is made for a query. -/
  entry : Query → Entry
  /-- The answer from the entries, if there is one. -/
  answer : List Entry → Query → Option Answer
  /-- The entries after one more is kept. -/
  keep : List Entry → Entry → List Entry
  answer_nil : ∀ q, answer [] q = none
  /-- An answer comes from one of the entries. -/
  answer_mem : ∀ {t q a}, answer t q = some a → ∃ e ∈ t, answer [e] q = some a
  keep_nil : ∀ e, keep [] e = [e]
  mem_keep : ∀ {t e x}, x ∈ keep t e → x ∈ t ∨ x = e

namespace Memo

variable {Query Entry Answer : Type} (m : Memo Query Entry Answer)

/-- Answer a query, and the entries after it. -/
def ask (t : List Entry) (q : Query) : Answer × List Entry :=
  match m.answer t q with
  | some a => (a, t)
  | none => (m.direct q, m.keep t (m.entry q))

/-- The answers to a sequence of queries. -/
def askAll (t : List Entry) : List Query → List Answer
  | [] => []
  | q :: qs => (m.ask t q).1 :: askAll (m.ask t q).2 qs

/-- The answers to queries from a set are the direct ones. -/
def Transparent (asked : Set Query) : Prop :=
  ∀ qs, (∀ q ∈ qs, q ∈ asked) → m.askAll [] qs = qs.map m.direct

/-- What the entry of one query answers to another is right. -/
def Compatible (q q' : Query) : Prop :=
  ∀ a, m.answer [m.entry q] q' = some a → a = m.direct q'

variable {m} {asked : Set Query}

/-- Every entry was made for a query of the set. -/
def EntriesOf (m : Memo Query Entry Answer) (asked : Set Query) (t : List Entry) : Prop :=
  ∀ e ∈ t, ∃ q ∈ asked, e = m.entry q

theorem ask_hit {t : List Entry} {q : Query} {a : Answer} (h : m.answer t q = some a) :
    m.ask t q = (a, t) := by
  rw [ask, h]

theorem ask_miss {t : List Entry} {q : Query} (h : m.answer t q = none) :
    m.ask t q = (m.direct q, m.keep t (m.entry q)) := by
  rw [ask, h]

theorem ask_of_compatible (hcompat : ∀ q ∈ asked, ∀ q' ∈ asked, m.Compatible q q')
    {t : List Entry} (ht : m.EntriesOf asked t) {q : Query} (hq : q ∈ asked) :
    (m.ask t q).1 = m.direct q ∧ m.EntriesOf asked (m.ask t q).2 := by
  cases hans : m.answer t q with
  | some a =>
      obtain ⟨e, he, hhit⟩ := m.answer_mem hans
      obtain ⟨q', hq', rfl⟩ := ht e he
      rw [ask_hit hans]
      exact ⟨hcompat q' hq' q hq a hhit, ht⟩
  | none =>
      rw [ask_miss hans]
      refine ⟨rfl, fun e he => ?_⟩
      rcases m.mem_keep he with hold | hnew
      · exact ht e hold
      · exact ⟨q, hq, hnew⟩

theorem askAll_of_compatible (hcompat : ∀ q ∈ asked, ∀ q' ∈ asked, m.Compatible q q')
    {t : List Entry} (ht : m.EntriesOf asked t) {qs : List Query} (hqs : ∀ q ∈ qs, q ∈ asked) :
    m.askAll t qs = qs.map m.direct := by
  induction qs generalizing t with
  | nil => rfl
  | cons q qs ih =>
      obtain ⟨hans, ht'⟩ := ask_of_compatible hcompat ht (hqs q List.mem_cons_self)
      rw [askAll, hans, ih ht' fun q hq => hqs q (List.mem_cons_of_mem _ hq)]
      rfl

/-- Two queries are enough to see a wrong answer. -/
theorem transparent_iff :
    m.Transparent asked ↔ ∀ q ∈ asked, ∀ q' ∈ asked, m.Compatible q q' := by
  constructor
  · intro htrans q hq q' hq' a hhit
    have hrun := htrans [q, q'] (by
      intro x hx
      rcases List.mem_cons.mp hx with rfl | hx
      · exact hq
      · rw [List.mem_singleton.mp hx]
        exact hq')
    rw [askAll, ask_miss (m.answer_nil q), m.keep_nil, askAll, ask_hit hhit] at hrun
    exact (List.cons.inj (List.cons.inj hrun).2).1
  · intro hcompat qs hqs
    exact askAll_of_compatible hcompat (fun e he => absurd he List.not_mem_nil) hqs

end Memo

end CLib
