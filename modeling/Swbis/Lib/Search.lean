import Swbis.Lib.CString

/-!
# Searching a list for a sublist, and `strstr`

`findSub needle hay` is the index of the first place where `needle` occurs in
`hay`.  `strstr` is the same search in the C string at a pointer, so it never
looks behind the first NUL.
-/

namespace CLib

/-- What does not contain a separator does not reach over it. -/
theorem prefix_of_prefix_append_sep {α : Type} {needle : List α} (line : List α) {rest : List α} {c : α}
    (hc : c ∉ needle) (h : needle <+: line ++ c :: rest) : needle <+: line := by
  rcases Nat.lt_or_ge line.length needle.length with hlong | hshort
  · have hsep : line ++ [c] <+: needle := by
      refine List.prefix_of_prefix_length_le ?_ h ?_
      · rw [List.append_cons line c rest]
        exact List.prefix_append _ _
      · rw [List.length_append, List.length_singleton]
        exact hlong
    exact absurd (hsep.subset (List.mem_append_right _ (List.mem_singleton_self c))) hc
  · exact List.prefix_of_prefix_length_le h (List.prefix_append _ _) hshort

/-- What occurs in a line of two parts and does not contain the separator occurs in
one of them. -/
theorem infix_append_sep_iff {α : Type} {needle line rest : List α} {c : α} (hc : c ∉ needle) :
    needle <:+: line ++ c :: rest ↔ needle <:+: line ∨ needle <:+: rest := by
  constructor
  · intro h
    induction line with
    | nil =>
        rcases List.infix_cons_iff.mp h with hp | hin
        · exact .inl (prefix_of_prefix_append_sep [] hc hp).isInfix
        · exact .inr hin
    | cons x line ih =>
        rcases List.infix_cons_iff.mp h with hp | hin
        · exact .inl (prefix_of_prefix_append_sep (x :: line) hc hp).isInfix
        · exact (ih hin).imp_left List.infix_cons
  · rintro (h | h)
    · exact h.trans (List.infix_append' [] line (c :: rest))
    · refine h.trans ?_
      rw [List.append_cons]
      exact (List.suffix_append _ rest).isInfix

section

variable {α : Type} [DecidableEq α]

/-- The index of the first occurrence. -/
def findSub (needle : List α) : List α → Option Nat
  | [] => if needle = [] then some 0 else none
  | x :: hay =>
      if needle.isPrefixOf (x :: hay) then some 0 else (findSub needle hay).map (· + 1)

/-- It is found at the start exactly when it stands there. -/
theorem findSub_eq_zero {needle hay : List α} : findSub needle hay = some 0 ↔ needle <+: hay := by
  cases hay with
  | nil =>
      rw [findSub, List.prefix_nil]
      split
      next hn => simp [hn]
      next hn => simp [hn]
  | cons x hay =>
      rw [findSub, ← List.isPrefixOf_iff_prefix]
      split
      next hp => simp [hp]
      next hp => simp [hp]

/-- Where it is found, it occurs. -/
theorem findSub_eq_some {needle hay : List α} {i : Nat} (h : findSub needle hay = some i) :
    needle <+: hay.drop i := by
  induction hay generalizing i with
  | nil =>
      simp only [findSub] at h
      split at h
      next hn =>
        rw [hn]
        exact List.nil_prefix
      next => cases h
  | cons x hay ih =>
      simp only [findSub] at h
      split at h
      next hp =>
        cases h
        exact List.isPrefixOf_iff_prefix.mp hp
      next =>
        obtain ⟨j, hj, rfl⟩ := Option.map_eq_some_iff.mp h
        exact ih hj

/-- It does not occur before. -/
theorem findSub_minimal {needle hay : List α} {i : Nat} (h : findSub needle hay = some i)
    {j : Nat} (hj : j < i) : ¬ needle <+: hay.drop j := by
  induction hay generalizing i j with
  | nil =>
      rw [findSub] at h
      split at h
      next =>
        cases h
        omega
      next => cases h
  | cons x hay ih =>
      rw [findSub] at h
      split at h
      next =>
        cases h
        omega
      next hp =>
        obtain ⟨k, hk, rfl⟩ := Option.map_eq_some_iff.mp h
        cases j with
        | zero =>
            intro hpre
            exact hp (List.isPrefixOf_iff_prefix.mpr hpre)
        | succ j => exact ih hk (by omega)

/-- An occurrence lies inside the list. -/
theorem findSub_add_length_le {needle hay : List α} {i : Nat} (h : findSub needle hay = some i)
    (hne : needle ≠ []) : i + needle.length ≤ hay.length := by
  have hle := (findSub_eq_some h).length_le
  have hpos := List.length_pos_iff.mpr hne
  rw [List.length_drop] at hle
  omega

/-- It is found exactly when it occurs. -/
theorem findSub_isSome {needle hay : List α} :
    (findSub needle hay).isSome = true ↔ needle <:+: hay := by
  induction hay with
  | nil =>
      simp only [findSub]
      split
      next hn => simp [hn]
      next hn => simpa using hn
  | cons x hay ih =>
      simp only [findSub]
      rw [List.infix_cons_iff]
      split
      next hp => simp [List.isPrefixOf_iff_prefix.mp hp]
      next hp =>
        have hnp : ¬ needle <+: x :: hay := fun h => hp (List.isPrefixOf_iff_prefix.mpr h)
        simp [hnp, ih]

theorem findSub_eq_none {needle hay : List α} :
    findSub needle hay = none ↔ ¬ needle <:+: hay := by
  rw [← findSub_isSome, Option.not_isSome_iff_eq_none]

/-- An occurrence in front bounds the place where it is found. -/
theorem findSub_le_of_infix {needle xs ys : List α} {k : Nat}
    (h : findSub needle (xs ++ ys) = some k) (hxs : needle <:+: xs) :
    k + needle.length ≤ xs.length := by
  obtain ⟨a, b, rfl⟩ := hxs
  have hk : k ≤ a.length := by
    by_contra hlt
    refine findSub_minimal h (Nat.not_le.mp hlt) ?_
    rw [List.append_assoc, List.append_assoc, List.drop_left]
    exact List.prefix_append _ _
  rw [List.length_append, List.length_append]
  omega

/-- An occurrence in front is found whatever follows. -/
theorem findSub_append_of_some {needle xs : List α} {i : Nat} (h : findSub needle xs = some i)
    (hne : needle ≠ []) (ys : List α) : findSub needle (xs ++ ys) = some i := by
  induction xs generalizing i with
  | nil =>
      rw [findSub, if_neg hne] at h
      cases h
  | cons x xs ih =>
      rw [findSub] at h
      rw [List.cons_append, findSub]
      split at h
      next hp =>
        have hlong : needle <+: x :: (xs ++ ys) :=
          (List.isPrefixOf_iff_prefix.mp hp).trans (List.prefix_append (x :: xs) ys)
        rw [if_pos (List.isPrefixOf_iff_prefix.mpr hlong)]
        exact h
      next hp =>
        obtain ⟨j, hj, rfl⟩ := Option.map_eq_some_iff.mp h
        have hnot : ¬needle.isPrefixOf (x :: (xs ++ ys)) = true := by
          intro hq
          have hle := findSub_add_length_le hj hne
          refine hp (List.isPrefixOf_iff_prefix.mpr ?_)
          refine List.prefix_of_prefix_length_le (List.isPrefixOf_iff_prefix.mp hq)
            (List.prefix_append (x :: xs) ys) ?_
          rw [List.length_cons]
          omega
        rw [if_neg hnot, ih hj]
        rfl

/-- A line without it is passed over. -/
theorem findSub_append_sep {needle line rest : List α} {c : α} (hc : c ∉ needle)
    (h : ¬needle <:+: line) :
    findSub needle (line ++ c :: rest) = (findSub needle rest).map (· + (line.length + 1)) := by
  have hstep : ∀ (x : α) (xs : List α), ¬needle <+: x :: xs →
      findSub needle (x :: xs) = (findSub needle xs).map (· + 1) := by
    intro x xs hp
    rw [findSub, if_neg (mt List.isPrefixOf_iff_prefix.mp hp)]
  induction line with
  | nil =>
      refine hstep c rest fun hp => h ?_
      exact (prefix_of_prefix_append_sep [] hc hp).isInfix
  | cons x line ih =>
      have hline : ¬needle <:+: line := fun hin => h (List.infix_cons hin)
      have hp : ¬needle <+: x :: (line ++ c :: rest) := fun hp =>
        h (prefix_of_prefix_append_sep (x :: line) hc hp).isInfix
      rw [List.cons_append, hstep _ _ hp, ih hline, Option.map_map]
      rfl

end

/-- `strstr (s, needle)`, as an index from `s` on. -/
def strstr (s : Bytes) (needle : Bytes) : Option Nat := findSub needle (CString.ofMem s).bytes

end CLib
