import Mathlib.Data.List.Dedup
import Mathlib.Data.List.Perm.Basic
import Mathlib.Data.List.Induction
import Mathlib.Tactic.Common

/-!
# Handing out numbers

A request asks for a number, either for a key or for no key.  A request for a
key that has a number already gets this number again; every other request gets
the next number that was not used yet.

`Numbering.pairwise_assignAll` says when two requests get the same number, and
`Numbering.next_assignAll` how many numbers are used.
-/

namespace CLib

/-- The numbers that were handed out. -/
structure Numbering (κ : Type) where
  /-- The next number. -/
  next : Nat
  /-- The keys with their numbers, the oldest first. -/
  known : List (κ × Nat)

namespace Numbering

variable {κ : Type} [DecidableEq κ]

/-- No number was handed out. -/
def empty : Numbering κ := ⟨0, []⟩

/-- The number of a key. -/
def numberIn (l : List (κ × Nat)) (k : κ) : Option Nat := l.lookup k

/-- One request. -/
def assign (s : Numbering κ) : Option κ → Nat × Numbering κ
  | none => (s.next, { s with next := s.next + 1 })
  | some k =>
      match numberIn s.known k with
      | some n => (n, s)
      | none => (s.next, ⟨s.next + 1, s.known ++ [(k, s.next)]⟩)

/-- Requests one after another. -/
def assignAll (s : Numbering κ) : List (Option κ) → List Nat × Numbering κ
  | [] => ([], s)
  | q :: qs => ((s.assign q).1 :: ((s.assign q).2.assignAll qs).1, ((s.assign q).2.assignAll qs).2)

/-- The keys that requests ask for. -/
def keys (qs : List (Option κ)) : List κ := (qs.filterMap id).dedup

/-- How many numbers requests need. -/
def needed (qs : List (Option κ)) : Nat := qs.countP Option.isNone + (keys qs).length

/-! ## One request -/

theorem assign_none (s : Numbering κ) :
    s.assign none = (s.next, { s with next := s.next + 1 }) := rfl

theorem assign_known {s : Numbering κ} {k : κ} {n : Nat} (h : numberIn s.known k = some n) :
    s.assign (some k) = (n, s) := by
  rw [assign, h]

theorem assign_fresh {s : Numbering κ} {k : κ} (h : numberIn s.known k = none) :
    s.assign (some k) = (s.next, ⟨s.next + 1, s.known ++ [(k, s.next)]⟩) := by
  rw [assign, h]

theorem numberIn_cons (e : κ × Nat) (l : List (κ × Nat)) (k : κ) :
    numberIn (e :: l) k = if k = e.1 then some e.2 else numberIn l k := by
  rw [numberIn, List.lookup_cons]
  split
  · next hk => rw [if_pos (beq_iff_eq.mp hk)]
  · next hk => rw [if_neg (beq_eq_false_iff_ne.mp hk), numberIn]

theorem numberIn_concat_of_some {l : List (κ × Nat)} {k : κ} {n : Nat} (h : numberIn l k = some n)
    (x : κ × Nat) : numberIn (l ++ [x]) k = some n := by
  rw [numberIn] at h ⊢
  rw [List.lookup_append, h, Option.some_or]

theorem numberIn_concat_of_none {l : List (κ × Nat)} {k : κ} (h : numberIn l k = none)
    (x : κ × Nat) : numberIn (l ++ [x]) k = if k = x.1 then some x.2 else none := by
  rw [numberIn] at h ⊢
  rw [List.lookup_append, h, Option.none_or, ← numberIn, numberIn_cons]
  rfl

/-- The numbers of keys were handed out, to one key each. -/
structure Sound (s : Numbering κ) : Prop where
  lt : ∀ k n, numberIn s.known k = some n → n < s.next
  inj : ∀ k k' n, numberIn s.known k = some n → numberIn s.known k' = some n → k = k'

theorem sound_empty : (empty : Numbering κ).Sound where
  lt := nofun
  inj := nofun

/-- The key that was new has the newest number, every other one its old number. -/
theorem numberIn_fresh {s : Numbering κ} {k k' : κ} {n : Nat} (hk : numberIn s.known k = none) :
    numberIn (s.known ++ [(k, s.next)]) k' = some n ↔
      numberIn s.known k' = some n ∨ (k' = k ∧ n = s.next) := by
  cases h : numberIn s.known k' with
  | none =>
      rw [numberIn_concat_of_none h]
      split
      · next he => simp [he, eq_comm]
      · next he => simp [he]
  | some m =>
      rw [numberIn_concat_of_some h]
      have hne : k' ≠ k := by
        rintro rfl
        rw [hk] at h
        cases h
      simp [hne]

theorem Sound.assign {s : Numbering κ} (hs : s.Sound) (q : Option κ) : (s.assign q).2.Sound := by
  cases q with
  | none => exact ⟨fun k n h => Nat.lt_succ_of_lt (hs.lt k n h), hs.inj⟩
  | some k =>
      cases h : numberIn s.known k with
      | some n =>
          rw [assign_known h]
          exact hs
      | none =>
          rw [assign_fresh h]
          constructor
          · intro k' n hn
            rcases (numberIn_fresh h).mp hn with hold | ⟨-, rfl⟩
            · exact Nat.lt_succ_of_lt (hs.lt k' n hold)
            · exact Nat.lt_succ_self _
          · intro k₁ k₂ n h₁ h₂
            rcases (numberIn_fresh h).mp h₁ with hold₁ | ⟨rfl, rfl⟩
            · rcases (numberIn_fresh h).mp h₂ with hold₂ | ⟨rfl, rfl⟩
              · exact hs.inj k₁ k₂ n hold₁ hold₂
              · exact absurd (hs.lt k₁ _ hold₁) (Nat.lt_irrefl _)
            · rcases (numberIn_fresh h).mp h₂ with hold₂ | ⟨rfl, -⟩
              · exact absurd (hs.lt k₂ _ hold₂) (Nat.lt_irrefl _)
              · rfl

/-- A key keeps its number. -/
theorem assign_keeps {s : Numbering κ} {k : κ} {n : Nat} (h : numberIn s.known k = some n)
    (q : Option κ) : numberIn (s.assign q).2.known k = some n := by
  cases q with
  | none => exact h
  | some k' =>
      cases h' : numberIn s.known k' with
      | some m =>
          rw [assign_known h']
          exact h
      | none =>
          rw [assign_fresh h']
          exact numberIn_concat_of_some h _

theorem next_le_assign (s : Numbering κ) (q : Option κ) : s.next ≤ (s.assign q).2.next := by
  cases q with
  | none => exact Nat.le_succ _
  | some k =>
      cases h : numberIn s.known k with
      | some n => exact Nat.le_of_eq (by rw [assign_known h])
      | none =>
          rw [assign_fresh h]
          exact Nat.le_succ _

/-- A request leaves the keys as they are, or adds one. -/
theorem assign_cases (s : Numbering κ) (q : Option κ) :
    (s.assign q).2.known = s.known ∨ ∃ x, (s.assign q).2.known = s.known ++ [x] := by
  cases q with
  | none => exact .inl rfl
  | some k =>
      cases h : numberIn s.known k with
      | some n => exact .inl (by rw [assign_known h])
      | none => exact .inr ⟨_, by rw [assign_fresh h]⟩

/-- What a request leaves to be said of its number: it is the next one or that of its key, and
its key, if it has one, has it from then on. -/
theorem assign_spec (s : Numbering κ) (q : Option κ) :
    ((s.assign q).1 = s.next ∧ s.next < (s.assign q).2.next ∧
        ∀ k, q = some k → numberIn s.known k = none) ∨
      ∃ k, q = some k ∧ numberIn s.known k = some (s.assign q).1 ∧ (s.assign q).2 = s := by
  cases q with
  | none => exact .inl ⟨rfl, Nat.lt_succ_self _, nofun⟩
  | some k =>
      cases h : numberIn s.known k with
      | some n =>
          rw [assign_known h]
          exact .inr ⟨k, rfl, h, rfl⟩
      | none =>
          rw [assign_fresh h]
          refine .inl ⟨rfl, Nat.lt_succ_self _, ?_⟩
          rintro k' ⟨⟩
          exact h

/-- After a request for a key, the key has the number that was handed out. -/
theorem numberIn_assign_self (s : Numbering κ) (k : κ) :
    numberIn (s.assign (some k)).2.known k = some (s.assign (some k)).1 := by
  cases h : numberIn s.known k with
  | some n =>
      rw [assign_known h]
      exact h
  | none =>
      rw [assign_fresh h, numberIn_concat_of_none h, if_pos rfl]

/-! ## All requests -/

theorem length_assignAll (s : Numbering κ) (qs : List (Option κ)) :
    (s.assignAll qs).1.length = qs.length := by
  induction qs generalizing s with
  | nil => rfl
  | cons q qs ih => rw [assignAll, List.length_cons, List.length_cons, ih]

/-- A request for a key that has a number gets this number. -/
theorem of_numberIn {s : Numbering κ} {k : κ} {n m : Nat} {qs : List (Option κ)}
    (hk : numberIn s.known k = some n) (hmem : (some k, m) ∈ qs.zip (s.assignAll qs).1) : m = n := by
  induction qs generalizing s with
  | nil => cases hmem
  | cons q qs ih =>
      rw [assignAll, List.zip_cons_cons] at hmem
      rcases List.mem_cons.mp hmem with he | hmem
      · cases he
        rw [assign_known hk]
      · exact ih (assign_keeps hk q) hmem

/-- An old number is only handed out to its key. -/
theorem numberIn_of_lt {s : Numbering κ} {q : Option κ} {n : Nat} {qs : List (Option κ)}
    (hs : s.Sound) (hmem : (q, n) ∈ qs.zip (s.assignAll qs).1) (hn : n < s.next) :
    ∃ k, q = some k ∧ numberIn s.known k = some n := by
  induction qs generalizing s with
  | nil => cases hmem
  | cons p qs ih =>
      rw [assignAll, List.zip_cons_cons] at hmem
      rcases List.mem_cons.mp hmem with he | hmem
      · cases he
        rcases s.assign_spec q with ⟨hnew, -, -⟩ | ⟨k, hk, hold, -⟩
        · exact absurd hn (by rw [hnew]; exact Nat.lt_irrefl _)
        · exact ⟨k, hk, hold⟩
      · obtain ⟨k, hk, hlook⟩ := ih (hs.assign p) hmem (Nat.lt_of_lt_of_le hn (s.next_le_assign p))
        refine ⟨k, hk, ?_⟩
        cases p with
        | none => exact hlook
        | some k' =>
            cases h' : numberIn s.known k' with
            | some m =>
                rw [assign_known h'] at hlook
                exact hlook
            | none =>
                rw [assign_fresh h'] at hlook
                rcases (numberIn_fresh h').mp hlook with hold | ⟨-, rfl⟩
                · exact hold
                · exact absurd hn (Nat.lt_irrefl _)

/-- Two requests get the same number exactly when they are for the same key. -/
theorem pairwise_assignAll {s : Numbering κ} (hs : s.Sound) (qs : List (Option κ)) :
    (qs.zip (s.assignAll qs).1).Pairwise fun x y => x.2 = y.2 ↔ ∃ k, x.1 = some k ∧ y.1 = some k := by
  induction qs generalizing s with
  | nil => exact .nil
  | cons q qs ih =>
      rw [assignAll, List.zip_cons_cons]
      refine .cons ?_ (ih (hs.assign q))
      rintro ⟨q', n⟩ hmem
      constructor
      · intro he
        replace he : (s.assign q).1 = n := he
        have hlt : n < (s.assign q).2.next := by
          rw [← he]
          rcases s.assign_spec q with ⟨hnew, hlt, -⟩ | ⟨k, -, hold, hsame⟩
          · rwa [hnew]
          · rw [hsame]
            exact hs.lt k _ hold
        obtain ⟨k', rfl, hlook'⟩ := numberIn_of_lt (hs.assign q) hmem hlt
        cases q with
        | none =>
            have hold := hs.lt k' n hlook'
            rw [← he] at hold
            exact absurd hold (Nat.lt_irrefl _)
        | some k =>
            have hlook := s.numberIn_assign_self k
            rw [he] at hlook
            exact ⟨k, rfl, congrArg some ((hs.assign (some k)).inj k' k n hlook' hlook)⟩
      · rintro ⟨k, rfl, hk⟩
        cases hk
        exact (of_numberIn (s.numberIn_assign_self k) hmem).symm

theorem next_le_assignAll (s : Numbering κ) (qs : List (Option κ)) :
    s.next ≤ (s.assignAll qs).2.next := by
  induction qs generalizing s with
  | nil => exact Nat.le_refl _
  | cons q qs ih => exact Nat.le_trans (s.next_le_assign q) (ih (s.assign q).2)

/-- The numbers that were handed out are below the next one. -/
theorem lt_next_of_mem {s : Numbering κ} {n : Nat} {qs : List (Option κ)} (hs : s.Sound)
    (hmem : n ∈ (s.assignAll qs).1) : n < (s.assignAll qs).2.next := by
  induction qs generalizing s with
  | nil => cases hmem
  | cons q qs ih =>
      rw [assignAll] at hmem ⊢
      rcases List.mem_cons.mp hmem with rfl | hmem
      · refine Nat.lt_of_lt_of_le ?_ (next_le_assignAll (s.assign q).2 qs)
        rcases s.assign_spec q with ⟨hnew, hlt, -⟩ | ⟨k, -, hold, hsame⟩
        · rwa [hnew]
        · rw [hsame]
          exact hs.lt k _ hold
      · exact ih (hs.assign q) hmem

/-- No key is forgotten. -/
theorem length_known_le (s : Numbering κ) (qs : List (Option κ)) :
    s.known.length ≤ (s.assignAll qs).2.known.length := by
  induction qs generalizing s with
  | nil => exact Nat.le_refl _
  | cons q qs ih =>
      refine Nat.le_trans ?_ (ih (s.assign q).2)
      rcases s.assign_cases q with h | ⟨x, h⟩
      · exact Nat.le_of_eq (congrArg List.length h.symm)
      · rw [h, List.length_append]
        exact Nat.le_add_right _ _

/-! ## How many numbers are used -/

theorem assignAll_concat (s : Numbering κ) (qs : List (Option κ)) (q : Option κ) :
    (s.assignAll (qs ++ [q])).2 = ((s.assignAll qs).2.assign q).2 := by
  induction qs generalizing s with
  | nil => rfl
  | cons p qs ih =>
      rw [List.cons_append, assignAll, assignAll]
      exact ih _

/-- What was handed out for requests. -/
structure Serves (s : Numbering κ) (qs : List (Option κ)) : Prop where
  next_eq : s.next = qs.countP Option.isNone + s.known.length
  nodup : (s.known.map Prod.fst).Nodup
  mem_iff : ∀ k, k ∈ s.known.map Prod.fst ↔ some k ∈ qs

theorem numberIn_eq_none_iff {l : List (κ × Nat)} {k : κ} :
    numberIn l k = none ↔ k ∉ l.map Prod.fst := by
  rw [numberIn, List.lookup_eq_none_iff]
  simp only [List.mem_map, not_exists, not_and]
  constructor
  · intro h x hx he
    exact absurd he.symm (bne_iff_ne.mp (h x hx))
  · intro h x hx
    exact bne_iff_ne.mpr fun he => h x hx he.symm

theorem Serves.assign {s : Numbering κ} {qs : List (Option κ)} (hs : s.Serves qs) (q : Option κ) :
    (s.assign q).2.Serves (qs ++ [q]) := by
  cases q with
  | none =>
      refine ⟨?_, hs.nodup, fun k => ?_⟩
      · rw [assign_none, List.countP_append, hs.next_eq]
        simp only [List.countP_singleton, Option.isNone_none, if_true]
        omega
      · rw [assign_none, hs.mem_iff k]
        simp
  | some k =>
      cases h : numberIn s.known k with
      | some n =>
          have hmem : k ∈ s.known.map Prod.fst := by
            by_contra hno
            rw [numberIn_eq_none_iff.mpr hno] at h
            cases h
          rw [assign_known h]
          refine ⟨?_, hs.nodup, fun k' => ?_⟩
          · rw [List.countP_append, hs.next_eq]
            rfl
          · rw [hs.mem_iff k', List.mem_append, List.mem_singleton]
            refine ⟨.inl, ?_⟩
            rintro (hold | he)
            · exact hold
            · cases he
              exact (hs.mem_iff k).mp hmem
      | none =>
          rw [assign_fresh h]
          refine ⟨?_, ?_, fun k' => ?_⟩
          · rw [List.countP_append, hs.next_eq, List.length_append, List.length_singleton]
            rfl
          · rw [List.map_append, List.map_singleton, List.nodup_append]
            refine ⟨hs.nodup, List.nodup_singleton _, ?_⟩
            rintro a ha b hb rfl
            rw [List.mem_singleton.mp hb] at ha
            exact numberIn_eq_none_iff.mp h ha
          · rw [List.map_append, List.map_singleton, List.mem_append, List.mem_append, hs.mem_iff k']
            simp

theorem serves_assignAll (qs : List (Option κ)) : ((empty : Numbering κ).assignAll qs).2.Serves qs := by
  induction qs using List.reverseRecOn with
  | nil => exact ⟨rfl, List.nodup_nil, fun k => ⟨nofun, nofun⟩⟩
  | append_singleton qs q ih =>
      rw [assignAll_concat]
      exact ih.assign q

theorem Serves.length_known {s : Numbering κ} {qs : List (Option κ)} (hs : s.Serves qs) :
    s.known.length = (keys qs).length := by
  have hperm : (s.known.map Prod.fst).Perm (keys qs) := by
    refine (List.perm_ext_iff_of_nodup hs.nodup (List.nodup_dedup _)).mpr fun k => ?_
    rw [hs.mem_iff k, List.mem_dedup, List.mem_filterMap]
    simp
  rw [← hperm.length_eq, List.length_map]

/-- As many numbers are used as the requests need. -/
theorem next_assignAll (qs : List (Option κ)) :
    ((empty : Numbering κ).assignAll qs).2.next = needed qs := by
  have hs := serves_assignAll qs
  rw [hs.next_eq, hs.length_known, needed]

end Numbering

end CLib
