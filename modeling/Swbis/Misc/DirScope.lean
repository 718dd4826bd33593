import Swbis.Misc.Fnmatch
import Swbis.Misc.SwvarfsName

/-!
# The scope of a directory

`set_dirscope` makes a pattern of a directory by putting `/*` behind it, and
`is_name_in_scope` asks whether a name is the directory or below it.

A name that is a piece of the pattern and long enough is taken for the directory:
`bc/`, `c/*` and `*` are in the scope of `abc`, and not only `abc`, `abc/` and
`abc/*`.  All other names are matched with the pattern, so that the characters of
the directory that stand for others do so here.

`isNameInScope_iff` says for which names the answer is right.  A directory without
such characters matches as it stands, so that only the pieces of its pattern are told
wrong.
-/

namespace Swbis.Misc

open CLib

/-! ## What the scope is for -/

/-- A directory without a leading `./` and a trailing `/`.  Of `.//` this is `./`. -/
def plainDir (d : Bytes) : Bytes := toggleLeadingDotslash (swlibSquashTrailingSlash d)

/-- A name without a leading `./` and a trailing `/`.  Of `.//` this is `/`. -/
def plainName (name : Bytes) : Bytes := swlibSquashTrailingSlash (toggleLeadingDotslash name)

/-- A relative directory. -/
def RelativeDir (d : Bytes) : Prop := d ≠ [] ∧ (plainDir d).head? ≠ some slash

/-- The name is the directory or below it.  Every name is below `.`. -/
def InScope (d name : Bytes) : Prop :=
  plainDir d = [dot] ∨ plainName name = plainDir d ∨ plainDir d ++ [slash] <+: plainName name

/-! ## When it is told -/

/-- `"/*"` -/
def scopeTail : Bytes := [slash, 42]

/-- The name is long enough for the directory, and is a piece of the pattern. -/
def PieceOfScope (d name : Bytes) : Prop :=
  toggleLeadingDotslash name <:+: plainDir d ++ scopeTail ∧
    (plainDir d).length ≤ (toggleLeadingDotslash name).length

instance (d name : Bytes) : Decidable (PieceOfScope d name) :=
  inferInstanceAs (Decidable (_ ∧ _))

/-- The pattern matches the name if and only if the name begins with the directory. -/
def MatchesAsItStands (d name : Bytes) : Prop :=
  let pattern := plainDir d ++ scopeTail
  let name1 := toggleLeadingDotslash name
  fnmatch pattern (if pattern.take 2 = dotSlash then dotSlash ++ name1 else name1) = true ↔
    plainDir d ++ [slash] <+: name1

/-- Every character of the directory stands for itself in the pattern: none is `*`, `?`, `[`
or a backslash, and it does not begin with `./`. -/
structure StandsForItself (d : Bytes) : Prop where
  glob : ∀ c ∈ plainDir d, isGlobChar c = false
  noNul : 0 ∉ plainDir d
  noDots : (plainDir d ++ scopeTail).take 2 ≠ dotSlash

/-- Whether a name is in the scope of a directory is told right. -/
def ScopeTold (d name : Bytes) : Prop :=
  plainDir d = [dot] ∨ (toggleLeadingDotslash name).length + 2 < (plainDir d).length ∨
    plainName name = plainDir d ∨ toggleLeadingDotslash name = plainDir d ++ scopeTail ∨
      ¬PieceOfScope d name ∧ MatchesAsItStands d name

/-! ## The two forms -/

variable {d name : Bytes}

theorem toggleLeadingDotslash_ne_nil (h : name ≠ []) : toggleLeadingDotslash name ≠ [] := by
  rw [toggleLeadingDotslash]
  split
  next hlong => exact List.ne_nil_of_length_pos (by rw [List.length_drop]; omega)
  next => exact h

theorem squashLeadingDotSlash_eq_toggle (path : Bytes) :
    swlibSquashLeadingDotSlash path = toggleLeadingDotslash path := by
  rw [swlibSquashLeadingDotSlash, toggleLeadingDotslash]
  exact if_congr ⟨fun h => ⟨h.2, h.1⟩, fun h => ⟨h.2, h.1⟩⟩ rfl rfl

theorem RelativeDir.plainDir_ne_nil (h : RelativeDir d) : plainDir d ≠ [] := by
  refine toggleLeadingDotslash_ne_nil ?_
  rcases squashTrailingSlash_cases d with hsame | ⟨hne, -⟩
  · rw [hsame]
    exact h.1
  · exact hne

/-- The pattern is the directory and `/*`. -/
theorem RelativeDir.setDirscope_eq (h : RelativeDir d) :
    setDirscope d = plainDir d ++ scopeTail := by
  have hplain : swlibSquashLeadingDotSlash (swlibSquashTrailingSlash d) = plainDir d :=
    squashLeadingDotSlash_eq_toggle _
  have hslash : plainDir d ≠ [slash] := fun hs => h.2 (by rw [hs]; rfl)
  have htail : (plainDir d).take 2 ≠ chars ['/', '*'] := by
    intro ht
    refine h.2 ?_
    rw [← List.take_append_drop 2 (plainDir d), ht]
    rfl
  rw [setDirscope]
  simp only [hplain]
  rw [if_pos ⟨hslash, htail⟩]
  rfl

/-- A name that is long enough is a piece of the pattern or matched with it. -/
theorem RelativeDir.isNameInScope_eq (h : RelativeDir d) (fnmatch : Bytes → Bytes → Bool)
    (name : Bytes) :
    isNameInScope fnmatch (setDirscope d) name =
      if (toggleLeadingDotslash name).length + 2 < (plainDir d).length then false
      else if PieceOfScope d name then true
      else fnmatch (plainDir d ++ scopeTail)
        (if (plainDir d ++ scopeTail).take 2 = dotSlash then dotSlash ++ toggleLeadingDotslash name
          else toggleLeadingDotslash name) := by
  have hpos := List.length_pos_iff.mpr h.plainDir_ne_nil
  have hlen : (plainDir d ++ scopeTail).length = (plainDir d).length + 2 := List.length_append
  have hscope : ¬(plainDir d ++ scopeTail = [] ∨ plainDir d ++ scopeTail = [slash]) := by
    rintro (he | he)
    · rw [he] at hlen
      exact absurd hlen (Nat.succ_ne_zero _).symm
    · rw [he, List.length_singleton] at hlen
      omega
  have htail : chars ['/', '*'] <:+: plainDir d ++ scopeTail := List.infix_append' _ _ []
  rw [h.setDirscope_eq, isNameInScope, if_neg hscope]
  simp only [hlen, if_pos htail, Nat.add_sub_cancel]
  refine ite_congr (by simp only [eq_iff_iff]; omega) (fun _ => rfl) fun _ => ?_
  refine ite_congr ?_ (fun _ => rfl) fun _ => rfl
  simp only [eq_iff_iff, PieceOfScope]
  exact and_congr_right fun _ => ⟨fun h => h.2, fun h => ⟨by omega, h⟩⟩

/-! ## The names in the scope -/

theorem plainName_isPrefix_toggle (name : Bytes) :
    plainName name <+: toggleLeadingDotslash name := by
  rw [plainName]
  rcases squashTrailingSlash_cases (toggleLeadingDotslash name) with hsame | ⟨-, hslash⟩
  · simp only [hsame, List.prefix_refl]
  · conv_rhs => rw [hslash]
    exact List.prefix_append _ _

theorem length_le_of_inScope (hdot : plainDir d ≠ [dot]) (h : InScope d name) :
    (plainDir d).length ≤ (toggleLeadingDotslash name).length := by
  have hle := (plainName_isPrefix_toggle name).length_le
  rcases h with h | h | h
  · exact absurd h hdot
  · rwa [h] at hle
  · have hlen := h.length_le
    rw [List.length_append] at hlen
    omega

/-- Without its trailing `/` the name is the directory: it is a piece of the pattern. -/
theorem pieceOfScope_of_plainName (h : plainName name = plainDir d) : PieceOfScope d name := by
  rw [plainName] at h
  rcases squashTrailingSlash_cases (toggleLeadingDotslash name) with hsame | ⟨-, hslash⟩
  · have hname : toggleLeadingDotslash name = plainDir d := hsame.symm.trans h
    rw [PieceOfScope, hname]
    exact ⟨List.infix_append' [] _ _, Nat.le_refl _⟩
  · rw [h] at hslash
    rw [PieceOfScope, hslash]
    refine ⟨⟨[], [42], ?_⟩, ?_⟩
    · rw [List.nil_append, List.append_assoc]
      rfl
    · rw [List.length_append]
      omega

theorem pieceOfScope_pattern (h : toggleLeadingDotslash name = plainDir d ++ scopeTail) :
    PieceOfScope d name := by
  rw [PieceOfScope, h]
  exact ⟨List.infix_refl _, by rw [List.length_append]; omega⟩

/-- A piece of the pattern that is below the directory is all of it. -/
theorem piece_below (hne : plainDir d ≠ [])
    (hpiece : toggleLeadingDotslash name <:+: plainDir d ++ scopeTail)
    (hbelow : plainDir d ++ [slash] <+: plainName name) :
    toggleLeadingDotslash name = plainDir d ++ scopeTail := by
  have hlen : (plainDir d ++ scopeTail).length = (plainDir d).length + 2 := List.length_append
  have hle := hpiece.length_le
  have hlong := hbelow.length_le
  rw [List.length_append, List.length_singleton] at hlong
  refine hpiece.eq_of_length (Nat.le_antisymm hle ?_)
  rcases squashTrailingSlash_cases (toggleLeadingDotslash name) with hsame | ⟨-, hslash⟩
  · have hplain : plainName name = toggleLeadingDotslash name := hsame
    refine Nat.not_lt.mp fun hlt => ?_
    rw [hplain] at hlong hbelow
    have hexact : plainDir d ++ [slash] = toggleLeadingDotslash name :=
      hbelow.eq_of_length (by rw [List.length_append, List.length_singleton]; omega)
    -- the directory and a slash would have lost the slash
    rw [← hexact, squashTrailingSlash_concat hne] at hsame
    exact absurd (congrArg List.length hsame) (by
      rw [List.length_append, List.length_singleton]
      omega)
  · have hplain : (toggleLeadingDotslash name).length = (plainName name).length + 1 := by
      conv_lhs => rw [hslash]
      exact List.length_append
    omega

/-- Of the pieces of the pattern, the directory and the pattern itself are in the scope. -/
theorem inScope_iff_of_piece (hd : RelativeDir d) (hdot : plainDir d ≠ [dot])
    (hpiece : PieceOfScope d name) :
    InScope d name ↔ plainName name = plainDir d ∨ toggleLeadingDotslash name = plainDir d ++ scopeTail := by
  constructor
  · rintro (h | h | h)
    · exact absurd h hdot
    · exact .inl h
    · exact .inr (piece_below hd.plainDir_ne_nil hpiece.1 h)
  · rintro (h | h)
    · exact .inr (.inl h)
    · refine .inr (.inr ?_)
      have hlast : plainDir d ++ scopeTail = plainDir d ++ [slash] ++ [42] := by
        rw [List.append_assoc]
        rfl
      have hplain : plainName name = plainDir d ++ [slash] ++ [42] := by
        rw [plainName, h, hlast, swlibSquashTrailingSlash, squashTrailingChar, if_neg]
        rw [List.getLast?_concat]
        exact fun hs => absurd hs.2 (by decide)
      rw [hplain]
      exact List.prefix_append _ _

/-- Of the other names, those that begin with the directory and a slash are in the scope. -/
theorem inScope_iff_of_not_piece (hdot : plainDir d ≠ [dot]) (hpiece : ¬PieceOfScope d name) :
    InScope d name ↔ plainDir d ++ [slash] <+: toggleLeadingDotslash name := by
  constructor
  · rintro (h | h | h)
    · exact absurd h hdot
    · exact absurd (pieceOfScope_of_plainName h) hpiece
    · exact h.trans (plainName_isPrefix_toggle name)
  · intro h
    rcases squashTrailingSlash_cases (toggleLeadingDotslash name) with hsame | ⟨-, hslash⟩
    · refine .inr (.inr ?_)
      rw [plainName, hsame]
      exact h
    · rw [hslash] at h
      rcases List.prefix_concat_iff.mp h with heq | hlt
      · exact .inr (.inl (List.append_cancel_right heq).symm)
      · exact .inr (.inr hlt)

/-- `.` has every name in its scope. -/
theorem isNameInScope_dot (hd : RelativeDir d) (hdot : plainDir d = [dot]) (name : Bytes) :
    isNameInScope fnmatch (setDirscope d) name = true := by
  rw [hd.isNameInScope_eq fnmatch, hdot, if_neg (by rw [List.length_singleton]; omega)]
  split
  next => rfl
  next =>
    have hglob : ∀ c ∈ [dot, slash], isGlobChar c = false :=
      List.forall_mem_cons.mpr ⟨by decide, List.forall_mem_singleton.mpr (by decide)⟩
    rw [if_pos (by decide)]
    exact (fnmatch_literal_star hglob (by decide) _).mpr (List.prefix_append _ _)

/-- A directory whose characters all stand for themselves. -/
theorem matchesAsItStands_of_plain (h : StandsForItself d) (name : Bytes) :
    MatchesAsItStands d name := by
  obtain ⟨hglob, hnul, hdots⟩ := h
  have hpattern : plainDir d ++ scopeTail = (plainDir d ++ [slash]) ++ [42] := by
    rw [List.append_assoc]
    rfl
  rw [MatchesAsItStands]
  simp only [if_neg hdots]
  rw [hpattern]
  refine fnmatch_literal_star (fun c hc => ?_) (fun h => ?_) _
  · rcases List.mem_append.mp hc with hc | hc
    · exact hglob c hc
    · rw [List.mem_singleton.mp hc]
      rfl
  · rcases List.mem_append.mp h with h | h
    · exact hnul h
    · exact absurd (List.mem_singleton.mp h) (by decide)

/-- Of a directory whose characters stand for themselves only a piece is told wrong. -/
theorem scopeTold_iff_of_plain (h : StandsForItself d) (name : Bytes) :
    ScopeTold d name ↔
      plainDir d = [dot] ∨ (toggleLeadingDotslash name).length + 2 < (plainDir d).length ∨
        plainName name = plainDir d ∨ toggleLeadingDotslash name = plainDir d ++ scopeTail ∨
          ¬PieceOfScope d name := by
  rw [ScopeTold, and_iff_left (matchesAsItStands_of_plain h name)]

/-- Whether a name is in the scope of a directory is told right in these cases and no
others. -/
theorem scopeTold_iff (d name : Bytes) (hd : RelativeDir d) :
    (isNameInScope fnmatch (setDirscope d) name = true ↔ InScope d name) ↔ ScopeTold d name := by
  by_cases hdot : plainDir d = [dot]
  · exact iff_of_true (iff_of_true (isNameInScope_dot hd hdot name) (.inl hdot)) (.inl hdot)
  · rw [hd.isNameInScope_eq fnmatch]
    by_cases hshort : (toggleLeadingDotslash name).length + 2 < (plainDir d).length
    · rw [if_pos hshort]
      refine iff_of_true (iff_of_false Bool.false_ne_true fun h => ?_) (.inr (.inl hshort))
      have hle := length_le_of_inScope hdot h
      omega
    · rw [if_neg hshort]
      by_cases hpiece : PieceOfScope d name
      · rw [if_pos hpiece, inScope_iff_of_piece hd hdot hpiece]
        simp only [true_iff]
        rw [ScopeTold]
        simp only [hdot, hshort, hpiece, not_true_eq_false, false_and, or_false, false_or]
      · have hname : plainName name ≠ plainDir d := fun h => hpiece (pieceOfScope_of_plainName h)
        have hpattern : toggleLeadingDotslash name ≠ plainDir d ++ scopeTail := fun h =>
          hpiece (pieceOfScope_pattern h)
        rw [if_neg hpiece, inScope_iff_of_not_piece hdot hpiece, ScopeTold]
        simp only [hdot, hshort, hname, hpattern, hpiece, not_false_eq_true, true_and, false_or]
        rfl

/-- Whether a name is in the scope of a directory is told right in these cases and no
others; and if the characters of the directory stand for themselves, the pattern does not
matter. -/
theorem isNameInScope_iff (d name : Bytes) (hd : RelativeDir d) :
    ((isNameInScope fnmatch (setDirscope d) name = true ↔ InScope d name) ↔ ScopeTold d name) ∧
      (StandsForItself d →
        (ScopeTold d name ↔
          plainDir d = [dot] ∨ (toggleLeadingDotslash name).length + 2 < (plainDir d).length ∨
            plainName name = plainDir d ∨ toggleLeadingDotslash name = plainDir d ++ scopeTail ∨
              ¬PieceOfScope d name)) :=
  ⟨scopeTold_iff d name hd, fun h => scopeTold_iff_of_plain h name⟩

instance (d : Bytes) : Decidable (RelativeDir d) := inferInstanceAs (Decidable (_ ∧ _))

instance (d name : Bytes) : Decidable (InScope d name) := inferInstanceAs (Decidable (_ ∨ _ ∨ _))

/-- `a/b` has no character that a pattern does not take as it stands. -/
theorem standsForItself_below : StandsForItself (literal "./a/b/") := by
  have hdir : plainDir (literal "./a/b/") = literal "a/b" := by decide
  constructor
  all_goals rw [hdir]
  · exact List.forall_mem_cons.mpr
      ⟨rfl, List.forall_mem_cons.mpr ⟨rfl, List.forall_mem_singleton.mpr rfl⟩⟩
  · decide
  · decide

/-- A name below a directory is in its scope. -/
theorem isNameInScope_below :
    isNameInScope fnmatch (setDirscope (literal "./a/b/")) (literal "a/b/c") = true ↔
      InScope (literal "./a/b/") (literal "a/b/c") := by
  obtain ⟨hiff, hplain⟩ :=
    isNameInScope_iff (literal "./a/b/") (literal "a/b/c") (show RelativeDir _ by decide)
  refine hiff.mpr ((hplain standsForItself_below).mpr (.inr (.inr (.inr (.inr ?_)))))
  decide

/-- `bc/` is a piece of `abc/*`, and `axb/c` is matched by `a*b/*`. -/
theorem isNameInScope_strange :
    (RelativeDir (literal "abc") ∧
      isNameInScope fnmatch (setDirscope (literal "abc")) (literal "bc/") = true ∧
        ¬InScope (literal "abc") (literal "bc/")) ∧
    (RelativeDir (literal "a*b") ∧
      isNameInScope fnmatch (setDirscope (literal "a*b")) (literal "axb/c") = true ∧
        ¬InScope (literal "a*b") (literal "axb/c")) := by
  decide

end Swbis.Misc
