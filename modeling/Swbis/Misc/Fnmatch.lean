import Mathlib.Data.List.Basic
import Swbis.Lib.CString

/-!
# Matching a name with a pattern

`fnmatch`, with no flags.  In a pattern `*` stands for any run of characters, `?`
for any one, and a bracket for one of some characters, and a backslash takes the
meaning off the next one.  A `/` and a leading `.` are characters like others.

A pattern without any of these that ends in `*` matches the names that begin with
it (`fnmatch_literal_star`).
-/

namespace Swbis.Misc

open CLib

/-! ## The code -/

/-- A `char`, which is negative from 128 on. -/
def signedChar (c : UInt8) : Int := if c < 128 then c.toNat else c.toNat - 256

/-- `c = *p++`, which stays at the NUL. -/
def nextChar (p : Bytes) : UInt8 × Bytes := (p.headD 0, p.drop 1)

/-- The loop over the members of a bracket, with `c` the last character read and `ch` the
one of the name.  It returns whether one of them matched, the last character read and the
rest, or nothing if the bracket does not end. -/
def bracketLoop (ch : UInt8) : Nat → UInt8 → Bytes → Option (Bool × UInt8 × Bytes)
  | 0, _, _ => none
  | fuel + 1, c, p =>
      let (cstart, p) := if c = 92 then nextChar p else (c, p)
      if c = 0 then none
      else
        let (c, p) := nextChar p
        let range := c = 45 ∧ p.head? ≠ some 93
        let (cend, p) := if range then nextChar p else (cstart, p)
        let (cend, p) := if range ∧ cend = 92 then nextChar p else (cend, p)
        if range ∧ cend = 0 then none
        else
          let (c, p) := if range then nextChar p else (c, p)
          if signedChar cstart ≤ signedChar ch ∧ signedChar ch ≤ signedChar cend then
            some (true, c, p)
          else if c = 93 then some (false, c, p)
          else bracketLoop ch fuel c p

/-- The rest of a bracket that matched, up to its end. -/
def bracketSkip : Nat → UInt8 → Bytes → Option Bytes
  | 0, _, _ => none
  | fuel + 1, c, p =>
      if c = 93 then some p
      else if c = 0 then none
      else
        let (c, p) := nextChar p
        bracketSkip fuel c (if c = 92 then p.drop 1 else p)

/-- A bracket and a character of the name: the rest of the pattern if it matches. -/
def fnmatchBracket (ch : UInt8) (p : Bytes) : Option Bytes :=
  let not := p.head? = some 33 ∨ p.head? = some 94
  let (c, p) := nextChar (if not then p.drop 1 else p)
  match bracketLoop ch (p.length + 2) c p with
  | none => none
  | some (false, _, p) => if not then some p else none
  | some (true, c, p) =>
      match bracketSkip (p.length + 2) c p with
      | none => none
      | some p => if not then none else some p

/-- The loop over the `*` and `?` behind a `*`: the rest of the pattern and of the name.
It takes a character of the name for each of them. -/
def skipStars : Bytes → Bytes → Option (Bytes × Bytes)
  | [], n => some ([], n)
  | c :: p, n =>
      if c = 63 then if n = [] then none else skipStars p (n.drop 1)
      else if c = 42 then skipStars p (n.drop 1)
      else some (c :: p, n)

/-- The loop of `fnmatch` over the pattern. -/
def fnmatchLoop : Nat → Bytes → Bytes → Bool
  | 0, _, _ => false
  | _ + 1, [], n => n.isEmpty
  | fuel + 1, c :: p, n =>
      if c = 63 then
        if n = [] then false else fnmatchLoop fuel p (n.drop 1)
      else if c = 92 then
        let (c, p) := nextChar p
        if n.headD 0 = c then fnmatchLoop fuel p (n.drop 1) else false
      else if c = 42 then
        match skipStars p n with
        | none => false
        | some ([], _) => true
        | some (c :: q, n) =>
            let c1 := if c = 92 then q.headD 0 else c
            n.tails.any fun t => t.head?.any (fun x => c = 91 || x = c1) && fnmatchLoop fuel (c :: q) t
      else if c = 91 then
        match n with
        | [] => false
        | ch :: n =>
            match fnmatchBracket ch p with
            | none => false
            | some p => fnmatchLoop fuel p n
      else if n.headD 0 = c then fnmatchLoop fuel p (n.drop 1)
      else false

/-- `fnmatch (pattern, string, 0)` -/
def fnmatch (pattern string : Bytes) : Bool := fnmatchLoop (pattern.length + 1) pattern string

/-! ## Patterns with one `*` at the end -/

/-- The characters that stand for others, or for the next one. -/
def isGlobChar (c : UInt8) : Bool := c = 42 || c = 63 || c = 91 || c = 92

/-- An ordinary character matches itself. -/
theorem fnmatchLoop_ordinary {c : UInt8} (hc : isGlobChar c = false) (fuel : Nat) (p n : Bytes) :
    fnmatchLoop (fuel + 1) (c :: p) n =
      if n.headD 0 = c then fnmatchLoop fuel p (n.drop 1) else false := by
  simp only [isGlobChar, Bool.or_eq_false_iff, decide_eq_false_iff_not] at hc
  obtain ⟨⟨⟨hstar, hquestion⟩, hbracket⟩, hescape⟩ := hc
  rw [fnmatchLoop.eq_def]
  simp only [if_neg hquestion, if_neg hescape, if_neg hstar, if_neg hbracket]

/-- A pattern with one `*`, at its end, is a test for how a name begins. -/
theorem fnmatch_literal_star {p : Bytes} (hp : ∀ c ∈ p, isGlobChar c = false) (hnul : 0 ∉ p)
    (n : Bytes) : fnmatch (p ++ [42]) n = true ↔ p <+: n := by
  have hloop : ∀ (fuel : Nat) (n : Bytes), (p ++ [42]).length < fuel →
      (fnmatchLoop fuel (p ++ [42]) n = true ↔ p <+: n) := by
    induction p with
    | nil =>
        intro fuel n hfuel
        obtain ⟨m, rfl⟩ := Nat.exists_eq_succ_of_ne_zero (Nat.ne_of_gt (Nat.lt_of_le_of_lt (Nat.zero_le _) hfuel))
        exact iff_of_true rfl (List.nil_prefix)
    | cons c p ih =>
        intro fuel n hfuel
        obtain ⟨m, rfl⟩ := Nat.exists_eq_succ_of_ne_zero (Nat.ne_of_gt (Nat.lt_of_le_of_lt (Nat.zero_le _) hfuel))
        have hrest := ih (fun d hd => hp d (List.mem_cons_of_mem _ hd))
          (fun h => hnul (List.mem_cons_of_mem _ h)) m
        rw [List.cons_append, fnmatchLoop_ordinary (hp c List.mem_cons_self)]
        cases n with
        | nil =>
            have hne : ([] : Bytes).headD 0 ≠ c := fun h => hnul (h ▸ List.mem_cons_self)
            rw [if_neg hne, List.prefix_nil]
            exact iff_of_false Bool.false_ne_true (List.cons_ne_nil c p)
        | cons x n =>
            rw [List.cons_prefix_cons, List.headD_cons, List.drop_succ_cons, List.drop_zero]
            by_cases hx : x = c
            · rw [if_pos hx, hrest n (Nat.lt_of_succ_lt_succ hfuel)]
              exact ⟨fun h => ⟨hx.symm, h⟩, fun h => h.2⟩
            · rw [if_neg hx]
              exact iff_of_false Bool.false_ne_true fun h => hx h.1.symm
  exact hloop _ n (Nat.lt_succ_self _)

example : fnmatch (literal "a[!b-d]*.c") (literal "axx.c") = true := by decide

end Swbis.Misc
