import Swbis.Misc.Slash

/-!
# Cleaning a path twice

A cleaned path should stay as it is when it is cleaned again, start with a slash
exactly when the path did, and lose no component but `.`.

`swlib_slashclean` and `swlib_squash_all_dot_slash` both squash a leading `./`
once.  A second one is left for the next call, and in front of another slash it
is the leading slash of the result that is left.
-/

namespace Swbis.Misc

open CLib

/-! ## The code -/

/-- `"/./"` -/
def slashDotSlash : Bytes := [slash, dot, slash]

/-- `swlib_squash_embedded_dot_slash` -/
def swlibSquashEmbeddedDotSlash (path : Bytes) : Bytes :=
  match findSub slashDotSlash path with
  | some p1 => path.take (p1 + 1) ++ path.drop (p1 + 3)
  | none => path

theorem length_squashEmbeddedDotSlash_lt {path : Bytes}
    (h : (findSub slashDotSlash path).isSome = true) :
    (swlibSquashEmbeddedDotSlash path).length < path.length := by
  obtain ⟨p1, hp1⟩ := Option.isSome_iff_exists.mp h
  have hle := findSub_add_length_le hp1 (List.cons_ne_nil _ _)
  have hthree : slashDotSlash.length = 3 := rfl
  simp only [swlibSquashEmbeddedDotSlash, hp1]
  rw [List.length_append, List.length_take, List.length_drop]
  omega

/-- The loop of `swlib_squash_all_dot_slash`. -/
def squashEmbeddedLoop (path : Bytes) : Bytes :=
  if _h : (findSub slashDotSlash path).isSome = true then
    squashEmbeddedLoop (swlibSquashEmbeddedDotSlash path)
  else path
termination_by path.length
decreasing_by exact length_squashEmbeddedDotSlash_lt _h

/-- `swlib_squash_all_dot_slash` -/
def swlibSquashAllDotSlash (path : Bytes) : Bytes :=
  squashEmbeddedLoop (swlibSquashLeadingDotSlash path)

/-! ## What cleaning is for -/

/-- The path starts with a slash. -/
def IsAbsolute (path : Bytes) : Prop := path.head? = some slash

instance (path : Bytes) : Decidable (IsAbsolute path) := inferInstanceAs (Decidable (_ = _))

/-- The components other than `.`. -/
def ordinary (path : Bytes) : List Bytes := (components path).filter fun c => c ≠ [dot]

/-- `clean` does to the path all that it is to do the first time, and keeps what
the path means. -/
def Cleans (clean : Bytes → Bytes) (path : Bytes) : Prop :=
  clean (clean path) = clean path ∧ (IsAbsolute (clean path) ↔ IsAbsolute path) ∧
    ordinary (clean path) = ordinary path

/-- What stands in front decides. -/
theorem isAbsolute_append {p : Bytes} (h : p ≠ []) (q : Bytes) :
    IsAbsolute (p ++ q) ↔ IsAbsolute p := by
  cases p with
  | nil => exact absurd rfl h
  | cons b p => exact Iff.rfl

/-! ## Components other than `.` -/

theorem ordinary_append (p q : Bytes) : ordinary (p ++ slash :: q) = ordinary p ++ ordinary q := by
  rw [ordinary, components_append, List.filter_append, ordinary, ordinary]

theorem ordinary_slash (path : Bytes) : ordinary (slash :: path) = ordinary path := by
  rw [ordinary, components_slash, ordinary]

@[simp] theorem ordinary_nil : ordinary [] = [] := rfl

theorem components_dot_slash (path : Bytes) :
    components (dot :: slash :: path) = [dot] :: components path :=
  components_run (c := [dot]) nofun (by decide) path

theorem ordinary_dot_slash (path : Bytes) : ordinary (dot :: slash :: path) = ordinary path := by
  rw [ordinary, components_dot_slash, List.filter_cons_of_neg (by decide), ordinary]

theorem ordinary_of_components {p q : Bytes}
    (h : components p = components q ∨ components q = [dot] :: components p) :
    ordinary p = ordinary q := by
  rcases h with h | h
  · rw [ordinary, ordinary, h]
  · rw [ordinary, ordinary, h, List.filter_cons_of_neg (by decide)]

/-- A last slash stands behind the components. -/
theorem ordinary_concat_slash (path : Bytes) : ordinary (path ++ [slash]) = ordinary path := by
  rw [ordinary_append, ordinary_nil, List.append_nil]

theorem ordinary_squashTrailingSlash (path : Bytes) :
    ordinary (swlibSquashTrailingSlash path) = ordinary path := by
  rw [ordinary, components_squashTrailingSlash, ordinary]

theorem ordinary_squashLeadingSlash (path : Bytes) :
    ordinary (swlibSquashLeadingSlash path) = ordinary path := by
  rw [ordinary, components_squashLeadingSlash, ordinary]

theorem ordinary_squashDoubleSlash (path : Bytes) :
    ordinary (swlibSquashDoubleSlash path) = ordinary path := by
  rw [ordinary, components_squashDoubleSlash, ordinary]

theorem ordinary_squashLeadingDotSlash (path : Bytes) :
    ordinary (swlibSquashLeadingDotSlash path) = ordinary path :=
  ordinary_of_components (components_squashLeadingDotSlash path)

/-! ## The embedded `/./` -/

/-- One is squashed, or there is none. -/
theorem squashEmbedded_cases (path : Bytes) :
    ((findSub slashDotSlash path).isSome = false ∧ swlibSquashEmbeddedDotSlash path = path) ∨
      ∃ pre post, path = pre ++ slash :: dot :: slash :: post ∧
        swlibSquashEmbeddedDotSlash path = pre ++ slash :: post := by
  cases hf : findSub slashDotSlash path with
  | none =>
      left
      refine ⟨rfl, ?_⟩
      rw [swlibSquashEmbeddedDotSlash, hf]
  | some p1 =>
      right
      obtain ⟨post, hpost⟩ := findSub_eq_some hf
      have hle := findSub_add_length_le hf (List.cons_ne_nil _ _)
      have hlen : (path.take p1).length = p1 := List.length_take_of_le (by omega)
      have hpath : path = path.take p1 ++ slash :: dot :: slash :: post := by
        conv_lhs => rw [← List.take_append_drop p1 path, ← hpost]
        rfl
      refine ⟨path.take p1, post, hpath, ?_⟩
      simp only [swlibSquashEmbeddedDotSlash, hf]
      generalize path.take p1 = pre at hpath hlen
      subst hpath hlen
      rw [List.take_length_add_append, List.drop_length_add_append]
      simp

theorem ordinary_squashEmbedded (path : Bytes) :
    ordinary (swlibSquashEmbeddedDotSlash path) = ordinary path := by
  rcases squashEmbedded_cases path with ⟨-, h⟩ | ⟨pre, post, rfl, h⟩
  · rw [h]
  · rw [h, ordinary_append, ordinary_append, ordinary_dot_slash]

theorem head?_squashEmbedded (path : Bytes) :
    (swlibSquashEmbeddedDotSlash path).head? = path.head? := by
  rcases squashEmbedded_cases path with ⟨-, h⟩ | ⟨pre, post, rfl, h⟩
  · rw [h]
  · rw [h]
    cases pre with
    | nil => rfl
    | cons b pre => rfl

/-- What does not start with a slash is passed over. -/
theorem squashEmbedded_cons {c : UInt8} (hc : c ≠ slash) (path : Bytes) :
    (findSub slashDotSlash (c :: path)).isSome = (findSub slashDotSlash path).isSome ∧
      swlibSquashEmbeddedDotSlash (c :: path) = c :: swlibSquashEmbeddedDotSlash path := by
  have hpre : ¬ slashDotSlash.isPrefixOf (c :: path) = true := by
    rw [List.isPrefixOf_iff_prefix]
    intro h
    exact hc (List.cons_prefix_cons.mp h).1.symm
  have hfind : findSub slashDotSlash (c :: path) = (findSub slashDotSlash path).map (· + 1) := by
    rw [findSub, if_neg hpre]
  simp only [swlibSquashEmbeddedDotSlash, hfind]
  cases findSub slashDotSlash path with
  | none => exact ⟨rfl, rfl⟩
  | some p1 => exact ⟨rfl, rfl⟩

/-- A `/./` at the front is the one that is squashed. -/
theorem squashEmbedded_front (path : Bytes) :
    swlibSquashEmbeddedDotSlash (slash :: dot :: slash :: path) = slash :: path := by
  have hfind : findSub slashDotSlash (slash :: dot :: slash :: path) = some 0 :=
    findSub_eq_zero.mpr ⟨path, rfl⟩
  simp only [swlibSquashEmbeddedDotSlash, hfind]
  rfl

/-! ## The loop -/

/-- What holds of a path when none is left, and of one when it holds of the path
with one squashed, holds of every path. -/
theorem squashEmbedded_induction {P : Bytes → Prop}
    (done : ∀ path, (findSub slashDotSlash path).isSome = false → P path)
    (step : ∀ path, (findSub slashDotSlash path).isSome = true →
      P (swlibSquashEmbeddedDotSlash path) → P path) (path : Bytes) : P path := by
  induction hn : path.length using Nat.strongRecOn generalizing path with
  | ind n ih =>
      cases hf : (findSub slashDotSlash path).isSome with
      | false => exact done path hf
      | true =>
          have hlt := length_squashEmbeddedDotSlash_lt hf
          exact step path hf (ih _ (by omega) _ rfl)

theorem squashEmbeddedLoop_done {path : Bytes} (h : (findSub slashDotSlash path).isSome = false) :
    squashEmbeddedLoop path = path := by
  rw [squashEmbeddedLoop, dif_neg (by simp [h])]

theorem squashEmbeddedLoop_step {path : Bytes} (h : (findSub slashDotSlash path).isSome = true) :
    squashEmbeddedLoop path = squashEmbeddedLoop (swlibSquashEmbeddedDotSlash path) := by
  rw [squashEmbeddedLoop, dif_pos h]

theorem ordinary_squashEmbeddedLoop (path : Bytes) :
    ordinary (squashEmbeddedLoop path) = ordinary path := by
  induction path using squashEmbedded_induction with
  | done path h => rw [squashEmbeddedLoop_done h]
  | step path h ih => rw [squashEmbeddedLoop_step h, ih, ordinary_squashEmbedded]

theorem head?_squashEmbeddedLoop (path : Bytes) :
    (squashEmbeddedLoop path).head? = path.head? := by
  induction path using squashEmbedded_induction with
  | done path h => rw [squashEmbeddedLoop_done h]
  | step path h ih => rw [squashEmbeddedLoop_step h, ih, head?_squashEmbedded]

theorem squashEmbeddedLoop_clean (path : Bytes) :
    (findSub slashDotSlash (squashEmbeddedLoop path)).isSome = false := by
  induction path using squashEmbedded_induction with
  | done path h => rw [squashEmbeddedLoop_done h, h]
  | step path h ih => rw [squashEmbeddedLoop_step h, ih]

theorem squashEmbeddedLoop_cons {c : UInt8} (hc : c ≠ slash) (path : Bytes) :
    squashEmbeddedLoop (c :: path) = c :: squashEmbeddedLoop path := by
  induction path using squashEmbedded_induction with
  | done path h =>
      rw [squashEmbeddedLoop_done h, squashEmbeddedLoop_done]
      rw [(squashEmbedded_cons hc path).1, h]
  | step path h ih =>
      rw [squashEmbeddedLoop_step h, ← ih, ← (squashEmbedded_cons hc path).2,
        ← squashEmbeddedLoop_step]
      rw [(squashEmbedded_cons hc path).1, h]

/-- `n` times `./`. -/
def dotSlashes : Nat → Bytes
  | 0 => []
  | n + 1 => dot :: slash :: dotSlashes n

/-- A `./` put behind a slash among such is one more of them. -/
theorem dotSlashes_insert {pre post : Bytes} {n : Nat}
    (h : slash :: dotSlashes n = pre ++ slash :: post) :
    pre ++ slash :: dot :: slash :: post = slash :: dotSlashes (n + 1) := by
  induction n generalizing pre with
  | zero =>
      cases pre with
      | nil =>
          cases h
          rfl
      | cons b pre =>
          obtain ⟨-, htail⟩ := List.cons.inj h
          cases pre with
          | nil => cases htail
          | cons b' pre => cases htail
  | succ n ih =>
      cases pre with
      | nil =>
          cases h
          rfl
      | cons b pre =>
          obtain ⟨rfl, htail⟩ := List.cons.inj h
          cases pre with
          | nil => cases htail
          | cons b' pre =>
              obtain ⟨rfl, hrest⟩ := List.cons.inj htail
              rw [List.cons_append, List.cons_append, ih hrest]
              rfl

/-- Only a row of `./` is squashed down to the slash in front of it. -/
theorem squashEmbeddedLoop_eq_slash {path : Bytes} :
    squashEmbeddedLoop (slash :: path) = [slash] ↔ ∃ n, path = dotSlashes n := by
  constructor
  · have hall : ∀ p, squashEmbeddedLoop p = [slash] → ∃ n, p = slash :: dotSlashes n := by
      intro p
      induction p using squashEmbedded_induction with
      | done p h =>
          rw [squashEmbeddedLoop_done h]
          rintro rfl
          exact ⟨0, rfl⟩
      | step p h ih =>
          rw [squashEmbeddedLoop_step h]
          intro heq
          obtain ⟨n, hn⟩ := ih heq
          rcases squashEmbedded_cases p with ⟨hnone, -⟩ | ⟨pre, post, rfl, hsq⟩
          · rw [h] at hnone
            cases hnone
          · rw [hsq] at hn
            exact ⟨n + 1, dotSlashes_insert hn.symm⟩
    intro h
    obtain ⟨n, hn⟩ := hall _ h
    exact ⟨n, (List.cons.inj hn).2⟩
  · rintro ⟨n, rfl⟩
    induction n with
    | zero =>
        rw [squashEmbeddedLoop_done]
        · rfl
        · rfl
    | succ n ih =>
        rw [squashEmbeddedLoop_step]
        · rw [dotSlashes, squashEmbedded_front, ih]
        · have hfront : slashDotSlash <+: slash :: dotSlashes (n + 1) := ⟨dotSlashes n, rfl⟩
          rw [findSub_eq_zero.mpr hfront]
          rfl

theorem length_squashEmbeddedLoop_le (path : Bytes) :
    (squashEmbeddedLoop path).length ≤ path.length := by
  induction path using squashEmbedded_induction with
  | done path h => rw [squashEmbeddedLoop_done h]
  | step path h ih =>
      have hlt := length_squashEmbeddedDotSlash_lt h
      rw [squashEmbeddedLoop_step h]
      omega

/-! ## A leading `./` -/

/-- The path has a `./` in front that is squashed. -/
def HasLeadingDotSlash (path : Bytes) : Prop := ∃ rest, rest ≠ [] ∧ path = dot :: slash :: rest

theorem squashLeadingDotSlash_front {rest : Bytes} (h : rest ≠ []) :
    swlibSquashLeadingDotSlash (dot :: slash :: rest) = rest := by
  rw [swlibSquashLeadingDotSlash, if_pos]
  · rfl
  · have hpos := List.length_pos_iff.mpr h
    rw [List.length_cons, List.length_cons]
    exact ⟨by omega, rfl⟩

theorem squashLeadingDotSlash_other {path : Bytes} (h : ¬ HasLeadingDotSlash path) :
    swlibSquashLeadingDotSlash path = path := by
  rw [swlibSquashLeadingDotSlash, if_neg]
  rintro ⟨hlen, htake⟩
  refine h ⟨path.drop 2, ?_, ?_⟩
  · apply List.ne_nil_of_length_pos
    rw [List.length_drop]
    omega
  · conv_lhs => rw [← List.take_append_drop 2 path, htake]
    rfl

/-! ## `swlib_squash_all_dot_slash` -/

/-- A `./` is left in front exactly when two stood there, and more behind them
than further ones. -/
theorem hasLeadingDotSlash_squashAll {path : Bytes} :
    HasLeadingDotSlash (swlibSquashAllDotSlash path) ↔
      ∃ rest, path = dot :: slash :: dot :: slash :: rest ∧ ∀ n, rest ≠ dotSlashes n := by
  have hloop : ∀ p, HasLeadingDotSlash (squashEmbeddedLoop p) ↔
      ∃ rest, p = dot :: slash :: rest ∧ ∀ n, rest ≠ dotSlashes n := by
    intro p
    constructor
    · rintro ⟨rest, hne, hrest⟩
      have hhead := head?_squashEmbeddedLoop p
      rw [hrest] at hhead
      obtain ⟨p, rfl⟩ := List.head?_eq_some_iff.mp hhead.symm
      rw [squashEmbeddedLoop_cons (by decide)] at hrest
      obtain ⟨-, hrest⟩ := List.cons.inj hrest
      have hhead := head?_squashEmbeddedLoop p
      rw [hrest] at hhead
      obtain ⟨p, rfl⟩ := List.head?_eq_some_iff.mp hhead.symm
      refine ⟨p, rfl, fun n hn => hne ?_⟩
      rw [squashEmbeddedLoop_eq_slash.mpr ⟨n, hn⟩] at hrest
      exact (List.cons.inj hrest).2.symm
    · rintro ⟨rest, rfl, hall⟩
      have hhead := head?_squashEmbeddedLoop (slash :: rest)
      obtain ⟨left, hleft⟩ := List.head?_eq_some_iff.mp hhead
      refine ⟨left, ?_, ?_⟩
      · rintro rfl
        obtain ⟨n, hn⟩ := squashEmbeddedLoop_eq_slash.mp hleft
        exact hall n hn
      · rw [squashEmbeddedLoop_cons (by decide), hleft]
  rw [swlibSquashAllDotSlash, hloop]
  by_cases hlead : HasLeadingDotSlash path
  · obtain ⟨rest, hne, rfl⟩ := hlead
    rw [squashLeadingDotSlash_front hne]
    constructor
    · rintro ⟨rest', rfl, hall⟩
      exact ⟨rest', rfl, hall⟩
    · rintro ⟨rest', heq, hall⟩
      cases heq
      exact ⟨rest', rfl, hall⟩
  · rw [squashLeadingDotSlash_other hlead]
    constructor
    · rintro ⟨rest, rfl, hall⟩
      exact absurd ⟨rest, hall 0, rfl⟩ hlead
    · rintro ⟨rest, rfl, hall⟩
      exact absurd ⟨_, List.cons_ne_nil _ _, rfl⟩ hlead

theorem squashAllDotSlash_again (path : Bytes) :
    swlibSquashAllDotSlash (swlibSquashAllDotSlash path) = swlibSquashAllDotSlash path ↔
      ¬ HasLeadingDotSlash (swlibSquashAllDotSlash path) := by
  constructor
  · rintro heq ⟨rest, hne, hrest⟩
    have hle := length_squashEmbeddedLoop_le rest
    have hlen := congrArg List.length heq
    rw [hrest, swlibSquashAllDotSlash, squashLeadingDotSlash_front hne, List.length_cons,
      List.length_cons] at hlen
    omega
  · intro hlead
    rw [swlibSquashAllDotSlash, squashLeadingDotSlash_other hlead]
    exact squashEmbeddedLoop_done (squashEmbeddedLoop_clean _)

theorem isAbsolute_squashAllDotSlash (path : Bytes) :
    (IsAbsolute (swlibSquashAllDotSlash path) ↔ IsAbsolute path) ↔
      ¬ [dot, slash, slash] <+: path := by
  rw [swlibSquashAllDotSlash, IsAbsolute, head?_squashEmbeddedLoop]
  by_cases hlead : HasLeadingDotSlash path
  · obtain ⟨rest, hne, rfl⟩ := hlead
    have hrel : ¬ IsAbsolute (dot :: slash :: rest) := by
      intro h
      cases h
    have hfront : [dot, slash, slash] <+: dot :: slash :: rest ↔ rest.head? = some slash := by
      rw [List.cons_prefix_cons, List.cons_prefix_cons, List.head?_eq_some_iff]
      constructor
      · rintro ⟨-, -, after, hafter⟩
        exact ⟨after, hafter.symm⟩
      · rintro ⟨after, hafter⟩
        exact ⟨rfl, rfl, after, hafter.symm⟩
    rw [squashLeadingDotSlash_front hne, hfront]
    exact ⟨fun h habs => hrel (h.mp habs), fun h => iff_of_false h hrel⟩
  · rw [squashLeadingDotSlash_other hlead]
    refine iff_of_true Iff.rfl ?_
    rintro ⟨rest, rfl⟩
    exact hlead ⟨slash :: rest, List.cons_ne_nil _ _, rfl⟩

theorem cleans_squashAllDotSlash (path : Bytes) :
    Cleans swlibSquashAllDotSlash path ↔
      ¬ [dot, slash, slash] <+: path ∧
        ∀ rest, path = dot :: slash :: dot :: slash :: rest → ∃ n, rest = dotSlashes n := by
  have hord : ordinary (swlibSquashAllDotSlash path) = ordinary path := by
    rw [swlibSquashAllDotSlash, ordinary_squashEmbeddedLoop]
    exact ordinary_of_components (components_squashLeadingDotSlash path)
  have hagain : (∀ rest, path = dot :: slash :: dot :: slash :: rest → ∃ n, rest = dotSlashes n) ↔
      ¬ HasLeadingDotSlash (swlibSquashAllDotSlash path) := by
    rw [hasLeadingDotSlash_squashAll]
    push Not
    rfl
  rw [Cleans, squashAllDotSlash_again, isAbsolute_squashAllDotSlash, hagain]
  exact ⟨fun ⟨hidem, habs, _⟩ => ⟨habs, hidem⟩, fun ⟨habs, hidem⟩ => ⟨hidem, habs, hord⟩⟩

/-! ## `swlib_slashclean` -/

theorem squashDoubleSlash_of_noDouble {path : Bytes} (h : ¬ [slash, slash] <:+: path) :
    swlibSquashDoubleSlash path = path := by
  fun_induction swlibSquashDoubleSlash path with
  | case1 => rfl
  | case2 c => rfl
  | case3 c d path hcd ih =>
      refine absurd ?_ h
      rw [hcd.1, hcd.2]
      exact (List.prefix_append [slash, slash] path).isInfix
  | case4 c d path hcd ih => rw [ih fun hin => h (List.infix_cons hin)]

/-- Without a double slash no slash stands in front of the trailing one. -/
theorem squashTrailingSlash_again {path : Bytes} (h : ¬ [slash, slash] <:+: path) :
    swlibSquashTrailingSlash (swlibSquashTrailingSlash path) = swlibSquashTrailingSlash path := by
  by_cases hlast : 1 < path.length ∧ path.getLast? = some slash
  · have hsq : swlibSquashTrailingSlash path = path.dropLast := if_pos hlast
    rw [hsq, swlibSquashTrailingSlash, squashTrailingChar, if_neg]
    rintro ⟨-, hagain⟩
    obtain ⟨p, rfl⟩ := List.getLast?_eq_some_iff.mp hlast.2
    rw [List.dropLast_concat] at hagain
    obtain ⟨p, rfl⟩ := List.getLast?_eq_some_iff.mp hagain
    refine h ⟨p, [], ?_⟩
    rw [List.append_nil, List.append_assoc]
    rfl
  · have hsq : swlibSquashTrailingSlash path = path := if_neg hlast
    rw [hsq, hsq]

theorem noDouble_slashclean (path : Bytes) : ¬ [slash, slash] <:+: swlibSlashclean path := by
  intro h
  refine noDouble_squashDoubleSlash path (h.trans ?_)
  exact (squashTrailingSlash_initial _).isInfix.trans (squashLeadingDotSlash_suffix _).isInfix

theorem slashclean_again (path : Bytes) :
    swlibSlashclean (swlibSlashclean path) = swlibSlashclean path ↔
      ¬ HasLeadingDotSlash (swlibSlashclean path) := by
  have hdouble := squashDoubleSlash_of_noDouble (noDouble_slashclean path)
  constructor
  · rintro heq ⟨rest, hne, hrest⟩
    have hle := (squashTrailingSlash_initial rest).length_le
    rw [swlibSlashclean, hdouble] at heq
    have hlen := congrArg List.length heq
    rw [hrest, squashLeadingDotSlash_front hne, List.length_cons, List.length_cons] at hlen
    omega
  · intro hlead
    rw [swlibSlashclean, hdouble, squashLeadingDotSlash_other hlead, swlibSlashclean]
    refine squashTrailingSlash_again fun h => noDouble_squashDoubleSlash path (h.trans ?_)
    exact (squashLeadingDotSlash_suffix _).isInfix

/-- A `./` is left in front exactly when the path is relative, its first two
components are `.`, and there is another. -/
theorem hasLeadingDotSlash_slashclean {path : Bytes} :
    HasLeadingDotSlash (swlibSlashclean path) ↔
      ¬ IsAbsolute path ∧ ∃ c cs, components path = [dot] :: [dot] :: c :: cs := by
  have hno := noDouble_squashDoubleSlash path
  have hclean := noDouble_slashclean path
  have hhead := head?_squashDoubleSlash path
  rw [← components_squashDoubleSlash, IsAbsolute, ← hhead]
  rw [swlibSlashclean] at hclean ⊢
  generalize swlibSquashDoubleSlash path = q at hno hclean
  constructor
  · rintro ⟨rest, hne, hrest⟩
    have hcomps := components_squashTrailingSlash (swlibSquashLeadingDotSlash q)
    have hinit := squashTrailingSlash_initial (swlibSquashLeadingDotSlash q)
    rw [hrest] at hcomps hinit hclean
    rw [components_dot_slash] at hcomps
    -- behind the `./` another component starts
    obtain ⟨b, rest, rfl⟩ := List.exists_cons_of_ne_nil hne
    have hb : b ≠ slash := by
      rintro rfl
      exact hclean ⟨[dot], rest, rfl⟩
    obtain ⟨c, cs, hcs⟩ := components_cons_of_ne hb rest
    by_cases hlead : HasLeadingDotSlash q
    · obtain ⟨z, hz, rfl⟩ := hlead
      rw [squashLeadingDotSlash_front hz] at hcomps
      refine ⟨(fun h => by cases h), c, cs, ?_⟩
      rw [components_dot_slash, ← hcomps, hcs]
    · rw [squashLeadingDotSlash_other hlead] at hinit
      obtain ⟨behind, rfl⟩ := hinit
      exact absurd ⟨_, List.cons_ne_nil _ _, rfl⟩ hlead
  · rintro ⟨hrel, c, cs, hcs⟩
    rcases components_eq_cons hcs hrel with ⟨-, hnil⟩ | ⟨z, rfl, hz⟩
    · cases hnil
    · have hzne : z ≠ [] := by
        rintro rfl
        cases hz
      have hzrel : z.head? ≠ some slash := by
        intro h
        obtain ⟨z, rfl⟩ := List.head?_eq_some_iff.mp h
        exact hno ⟨[dot], z, rfl⟩
      have hfront : swlibSquashLeadingDotSlash ([dot] ++ slash :: z) = z :=
        squashLeadingDotSlash_front hzne
      rw [hfront]
      rw [← components_squashTrailingSlash] at hz
      rw [← head?_squashTrailingSlash] at hzrel
      rcases components_eq_cons hz hzrel with ⟨-, hnil⟩ | ⟨rest, hrest, hcomps⟩
      · cases hnil
      · refine ⟨rest, ?_, hrest⟩
        rintro rfl
        cases hcomps

theorem isAbsolute_slashclean (path : Bytes) :
    IsAbsolute (swlibSlashclean path) ↔ IsAbsolute path := by
  have hno := noDouble_squashDoubleSlash path
  rw [IsAbsolute, IsAbsolute, ← head?_squashDoubleSlash path, swlibSlashclean,
    head?_squashTrailingSlash]
  generalize swlibSquashDoubleSlash path = q at hno
  by_cases hlead : HasLeadingDotSlash q
  · obtain ⟨z, hz, rfl⟩ := hlead
    rw [squashLeadingDotSlash_front hz]
    refine iff_of_false (fun h => ?_) (fun h => by cases h)
    obtain ⟨z, rfl⟩ := List.head?_eq_some_iff.mp h
    exact hno ⟨[dot], z, rfl⟩
  · rw [squashLeadingDotSlash_other hlead]

theorem cleans_slashclean (path : Bytes) :
    Cleans swlibSlashclean path ↔
      ¬ (¬ IsAbsolute path ∧ ∃ c cs, components path = [dot] :: [dot] :: c :: cs) := by
  have hord := ordinary_of_components (components_swlibSlashclean path)
  rw [Cleans, slashclean_again, hasLeadingDotSlash_slashclean]
  exact ⟨fun h => h.1, fun h => ⟨h, isAbsolute_slashclean path, hord⟩⟩

/-- Both routines clean a path exactly when it is not a relative one that starts
with two `.` components and has another, nor one that starts with `./` and
another slash, nor one that starts with two `./` and more than further ones. -/
theorem cleans_iff (path : Bytes) :
    Cleans swlibSlashclean path ∧ Cleans swlibSquashAllDotSlash path ↔
      ¬ (¬ IsAbsolute path ∧ ∃ c cs, components path = [dot] :: [dot] :: c :: cs) ∧
        ¬ [dot, slash, slash] <+: path ∧
        ∀ rest, path = dot :: slash :: dot :: slash :: rest → ∃ n, rest = dotSlashes n := by
  rw [cleans_slashclean, cleans_squashAllDotSlash]

/-- `.//a` becomes absolute, and `././a` is cleaned in two steps. -/
theorem dotSlash_not_cleaned :
    ¬ Cleans swlibSquashAllDotSlash (chars ['.', '/', '/', 'a']) ∧
      ¬ Cleans swlibSlashclean (chars ['.', '/', '.', '/', 'a']) := by
  constructor
  · rw [cleans_squashAllDotSlash]
    rintro ⟨hno, -⟩
    exact hno ⟨[97], rfl⟩
  · rw [cleans_slashclean]
    intro hno
    exact hno ⟨nofun, [97], [], rfl⟩

end Swbis.Misc
