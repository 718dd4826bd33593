import Swbis.Lib.Strtok

/-!
# Cleaning the slashes of a path

The routines that squash slashes in a path, and what they do to its components.
A component is a run between slashes, so empty ones do not count.  The routines
keep the components; only a leading `.` may go.
-/

namespace Swbis.Misc

open CLib

/-- `'/'` -/
def slash : UInt8 := 47

/-- `'.'` -/
def dot : UInt8 := 46

/-! ## The code -/

/-- `squash_trailing_char` -/
def squashTrailingChar (path : Bytes) (ch : UInt8) (minLen : Nat) : Bytes :=
  if minLen < path.length ∧ path.getLast? = some ch then path.dropLast else path

/-- `swlib_squash_trailing_slash` -/
def swlibSquashTrailingSlash (path : Bytes) : Bytes := squashTrailingChar path slash 1

/-- `swlib_squash_leading_dot_slash` -/
def swlibSquashLeadingDotSlash (path : Bytes) : Bytes :=
  if 3 ≤ path.length ∧ path.take 2 = [dot, slash] then path.drop 2 else path

/-- `swlib_squash_leading_slash` -/
def swlibSquashLeadingSlash (path : Bytes) : Bytes :=
  if path.head? = some slash then path.drop 1 else path

/-- `swlib_squash_double_slash` -/
def swlibSquashDoubleSlash : Bytes → Bytes
  | [] => []
  | [c] => [c]
  | c :: d :: path =>
      if c = slash ∧ d = slash then swlibSquashDoubleSlash (d :: path)
      else c :: swlibSquashDoubleSlash (d :: path)

/-- `swlib_slashclean` -/
def swlibSlashclean (path : Bytes) : Bytes :=
  swlibSquashTrailingSlash (swlibSquashLeadingDotSlash (swlibSquashDoubleSlash path))

/-- `swlib_unix_dircat` -/
def swlibUnixDircat (dest dirname : Bytes) : Bytes :=
  if dirname = [] then dest
  else
    let sep := if dest ≠ [] ∧ dest.getLast? ≠ some slash then dest ++ [slash] else dest
    let newp := if sep ≠ [] then swlibSquashLeadingDotSlash dirname else dirname
    swlibSquashDoubleSlash (sep ++ newp)

/-! ## Components -/

/-- The components of a path. -/
def components (path : Bytes) : List Bytes := tokens (· == slash) path

@[simp] theorem components_nil : components [] = [] := rfl

theorem components_slash (path : Bytes) : components (slash :: path) = components path :=
  tokens_cons_of_sep rfl path

/-- A component in front of a slash. -/
theorem components_run {c : Bytes} (hne : c ≠ []) (hc : slash ∉ c) (path : Bytes) :
    components (c ++ slash :: path) = c :: components path := by
  rw [components, tokens_run hne, tokens_cons_of_sep rfl]
  · rfl
  · intro x hx
    exact beq_eq_false_iff_ne.mpr fun he => hc (he ▸ hx)
  · intro y hy
    rw [List.head?_cons, Option.mem_some_iff] at hy
    rw [← hy]
    rfl

theorem components_cons_of_ne {b : UInt8} (hb : b ≠ slash) (path : Bytes) :
    ∃ c cs, components (b :: path) = c :: cs :=
  @tokens_cons_of_not_sep _ (· == slash) b (fun h => hb (beq_iff_eq.mp h)) path

/-- The components on both sides of a slash. -/
theorem components_append (p q : Bytes) :
    components (p ++ slash :: q) = components p ++ components q :=
  tokens_append rfl p q

/-- A single component. -/
theorem components_self {c : Bytes} (hne : c ≠ []) (hc : slash ∉ c) : components c = [c] := by
  have hrun := components_run hne hc []
  rwa [components_append, components_nil, List.append_nil] at hrun

/-- A path starts with a run of bytes that ends at its first slash. -/
theorem exists_run (path : Bytes) :
    ∃ run rest, path = run ++ rest ∧ slash ∉ run ∧ (rest = [] ∨ ∃ behind, rest = slash :: behind) := by
  induction path with
  | nil => exact ⟨[], [], rfl, List.not_mem_nil, .inl rfl⟩
  | cons b path ih =>
      by_cases hb : b = slash
      · exact ⟨[], b :: path, rfl, List.not_mem_nil, .inr ⟨path, by rw [hb]⟩⟩
      · obtain ⟨run, rest, rfl, hrun, hrest⟩ := ih
        refine ⟨b :: run, rest, rfl, ?_, hrest⟩
        intro hm
        rcases List.mem_cons.mp hm with he | hm
        · exact hb he.symm
        · exact hrun hm

/-- A relative path starts with its first component. -/
theorem components_eq_cons {path c : Bytes} {cs : List Bytes} (h : components path = c :: cs)
    (hrel : path.head? ≠ some slash) :
    path = c ∧ cs = [] ∨ ∃ rest, path = c ++ slash :: rest ∧ components rest = cs := by
  obtain ⟨run, rest, rfl, hrun, hrest⟩ := exists_run path
  have hne : run ≠ [] := by
    rintro rfl
    rcases hrest with rfl | ⟨behind, rfl⟩
    · cases h
    · exact hrel rfl
  rcases hrest with rfl | ⟨behind, rfl⟩
  · rw [List.append_nil, components_self hne hrun] at h
    obtain ⟨rfl, rfl⟩ := List.cons.inj h
    exact .inl ⟨List.append_nil _, rfl⟩
  · rw [components_run hne hrun] at h
    obtain ⟨rfl, rfl⟩ := List.cons.inj h
    exact .inr ⟨behind, rfl, rfl⟩

theorem infix_of_mem_components {path c : Bytes} (h : c ∈ components path) : c <:+: path :=
  infix_of_mem_tokens h

/-! ## The trailing slash -/

theorem squashTrailingSlash_concat {s : Bytes} (h : s ≠ []) :
    swlibSquashTrailingSlash (s ++ [slash]) = s := by
  have hlen := List.length_pos_iff.mpr h
  rw [swlibSquashTrailingSlash, squashTrailingChar, if_pos, List.dropLast_concat]
  exact ⟨by simpa using hlen, List.getLast?_concat⟩

theorem squashTrailingSlash_cases (s : Bytes) :
    swlibSquashTrailingSlash s = s ∨
      swlibSquashTrailingSlash s ≠ [] ∧ s = swlibSquashTrailingSlash s ++ [slash] := by
  by_cases h : 1 < s.length ∧ s.getLast? = some slash
  · obtain ⟨p, rfl⟩ := List.getLast?_eq_some_iff.mp h.2
    rw [List.length_append, List.length_singleton] at h
    have hne : p ≠ [] := List.ne_nil_of_length_pos (by omega)
    rw [squashTrailingSlash_concat hne]
    exact .inr ⟨hne, rfl⟩
  · exact .inl (if_neg h)

/-! ## Cleaning keeps the components -/

theorem components_squashTrailingSlash (path : Bytes) :
    components (swlibSquashTrailingSlash path) = components path := by
  rw [swlibSquashTrailingSlash, squashTrailingChar]
  split
  next h =>
    obtain ⟨p, rfl⟩ := List.getLast?_eq_some_iff.mp h.2
    rw [List.dropLast_concat, components_append, components_nil, List.append_nil]
  next => rfl

theorem components_squashLeadingSlash (path : Bytes) :
    components (swlibSquashLeadingSlash path) = components path := by
  rw [swlibSquashLeadingSlash]
  split
  next h =>
    cases path with
    | nil => rfl
    | cons c path =>
        rw [List.head?_cons, Option.some_inj] at h
        rw [h, List.drop_one, List.tail_cons, components_slash]
  next => rfl

theorem head?_squashDoubleSlash (path : Bytes) :
    (swlibSquashDoubleSlash path).head? = path.head? := by
  fun_induction swlibSquashDoubleSlash path with
  | case1 => rfl
  | case2 c => rfl
  | case3 c d path h ih => rw [ih, h.1, h.2, List.head?_cons, List.head?_cons]
  | case4 c d path h ih => rfl

theorem components_squashDoubleSlash (path : Bytes) :
    components (swlibSquashDoubleSlash path) = components path := by
  fun_induction swlibSquashDoubleSlash path with
  | case1 => rfl
  | case2 c => rfl
  | case3 c d path h ih => rw [ih, h.1, components_slash]
  | case4 c d path h ih =>
      have hhead := head?_squashDoubleSlash (d :: path)
      rw [components] at ih ⊢
      rw [components, tokens, tokens, hhead, ih]
      rfl

/-- Only a leading `.` goes. -/
theorem components_squashLeadingDotSlash (path : Bytes) :
    components (swlibSquashLeadingDotSlash path) = components path ∨
      components path = [dot] :: components (swlibSquashLeadingDotSlash path) := by
  rw [swlibSquashLeadingDotSlash]
  split
  next h =>
    obtain ⟨rest, hrest⟩ : ∃ rest, path = dot :: slash :: rest :=
      ⟨path.drop 2, by rw [← List.take_append_drop 2 path, h.2]; rfl⟩
    right
    rw [hrest]
    exact components_run (c := [dot]) nofun (by decide) rest
  next => exact .inl rfl

theorem components_swlibSlashclean (path : Bytes) :
    components (swlibSlashclean path) = components path ∨
      components path = [dot] :: components (swlibSlashclean path) := by
  rw [swlibSlashclean, components_squashTrailingSlash, ← components_squashDoubleSlash path]
  exact components_squashLeadingDotSlash _

/-- Squashing leaves no double slash. -/
theorem noDouble_squashDoubleSlash (path : Bytes) :
    ¬[slash, slash] <:+: swlibSquashDoubleSlash path := by
  fun_induction swlibSquashDoubleSlash path with
  | case1 => simp
  | case2 c =>
      intro h
      have hle := h.length_le
      simp at hle
  | case3 c d path h ih => exact ih
  | case4 c d path h ih =>
      intro hinfix
      rcases List.infix_cons_iff.mp hinfix with hpre | hrest
      · obtain ⟨hc, hpre⟩ := List.cons_prefix_cons.mp hpre
        have hhead := head?_squashDoubleSlash (d :: path)
        obtain ⟨rest, hrest⟩ := hpre
        rw [← hrest] at hhead
        exact h ⟨hc.symm, (Option.some.inj hhead).symm⟩
      · exact ih hrest

theorem squashLeadingDotSlash_suffix (path : Bytes) : swlibSquashLeadingDotSlash path <:+ path := by
  rw [swlibSquashLeadingDotSlash]
  split
  next => exact List.drop_suffix 2 path
  next => exact List.suffix_rfl

theorem squashLeadingSlash_suffix (path : Bytes) : swlibSquashLeadingSlash path <:+ path := by
  rw [swlibSquashLeadingSlash]
  split
  next => exact List.drop_suffix 1 path
  next => exact List.suffix_rfl

theorem squashTrailingSlash_initial (path : Bytes) : swlibSquashTrailingSlash path <+: path := by
  rw [swlibSquashTrailingSlash, squashTrailingChar]
  split
  next => exact List.dropLast_prefix path
  next => exact List.prefix_rfl

theorem head?_squashTrailingSlash (path : Bytes) :
    (swlibSquashTrailingSlash path).head? = path.head? := by
  rw [swlibSquashTrailingSlash, squashTrailingChar]
  split
  next h =>
    cases path with
    | nil => rfl
    | cons b path =>
        cases path with
        | nil => exact absurd h.1 (Nat.lt_irrefl 1)
        | cons b' path => rfl
  next => rfl

end Swbis.Misc
