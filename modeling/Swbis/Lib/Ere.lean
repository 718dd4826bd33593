import Mathlib.Algebra.GroupWithZero.Nat
import Swbis.Lib.CString

/-!
# Extended regular expressions

`Ere` is an extended regular expression, and `Ere.Matches` says which part of a string it
matches: the anchors look at what is in front of the part and behind it.  What a bracket
expression is for depends on the locale, and is a parameter.

`Ere.ofText` reads the text of an expression, byte by byte.  It reads what all programs read
alike, and not a parenthesis without its partner or a backslash before a byte that is not
special.  Programs differ in a brace.  Some take it as itself, and for the others, where it is
to begin an interval, the text is not read.

`Ere.width` counts the bytes that cannot be left out.  `Matches.exists_short` leaves the others
out of a match, and `ParseState.width` is the same count while the text is read.
-/

namespace CLib

/-- An extended regular expression. -/
inductive Ere where
  | eps
  | char (c : UInt8)
  | any
  /-- A bracket expression, with what is between the brackets. -/
  | set (content : Bytes)
  | bol
  | eol
  | cat (r s : Ere)
  | alt (r s : Ere)
  | star (r : Ere)
  | plus (r : Ere)
  | opt (r : Ere)
deriving DecidableEq

namespace Ere

/-! ## Matching -/

/-- `r.Matches has before u after`: in the string `before ++ u ++ after` the part `u` is matched. -/
inductive Matches (has : Bytes → UInt8 → Prop) : Ere → Bytes → Bytes → Bytes → Prop where
  | eps {before after : Bytes} : Matches has .eps before [] after
  | char {c : UInt8} {before after : Bytes} : Matches has (.char c) before [c] after
  | any {c : UInt8} {before after : Bytes} : Matches has .any before [c] after
  | set {content : Bytes} {c : UInt8} {before after : Bytes} (h : has content c) :
      Matches has (.set content) before [c] after
  | bol {after : Bytes} : Matches has .bol [] [] after
  | eol {before : Bytes} : Matches has .eol before [] []
  | cat {r s : Ere} {before u v after : Bytes} (hr : Matches has r before u (v ++ after))
      (hs : Matches has s (before ++ u) v after) : Matches has (.cat r s) before (u ++ v) after
  | altLeft {r s : Ere} {before u after : Bytes} (hr : Matches has r before u after) :
      Matches has (.alt r s) before u after
  | altRight {r s : Ere} {before u after : Bytes} (hs : Matches has s before u after) :
      Matches has (.alt r s) before u after
  | starNil {r : Ere} {before after : Bytes} : Matches has (.star r) before [] after
  | starCons {r : Ere} {before u v after : Bytes} (hr : Matches has r before u (v ++ after))
      (hs : Matches has (.star r) (before ++ u) v after) :
      Matches has (.star r) before (u ++ v) after
  | plus {r : Ere} {before u v after : Bytes} (hr : Matches has r before u (v ++ after))
      (hs : Matches has (.star r) (before ++ u) v after) :
      Matches has (.plus r) before (u ++ v) after
  | optNil {r : Ere} {before after : Bytes} : Matches has (.opt r) before [] after
  | optSome {r : Ere} {before u after : Bytes} (hr : Matches has r before u after) :
      Matches has (.opt r) before u after

/-- Some part of a string is matched. -/
def Search (has : Bytes → UInt8 → Prop) (r : Ere) (s : Bytes) : Prop :=
  ∃ before u after, s = before ++ (u ++ after) ∧ r.Matches has before u after

/-- The number of bytes that a match cannot leave out, at most. -/
def width : Ere → Nat
  | eps => 0
  | char _ => 1
  | any => 1
  | set _ => 1
  | bol => 0
  | eol => 0
  | cat r s => r.width + s.width
  | alt r s => max r.width s.width
  | star _ => 0
  | plus r => r.width
  | opt _ => 0

variable {has : Bytes → UInt8 → Prop}

/-- The bytes of a match that can be left out are left out, also between less text. -/
theorem Matches.exists_short {r : Ere} {before u after : Bytes} (h : r.Matches has before u after) :
    ∃ u', u'.Sublist u ∧ u'.length ≤ r.width ∧ ∀ before' after' : Bytes,
      (before = [] → before' = []) → (after = [] → after' = []) →
        r.Matches has before' u' after' := by
  induction h with
  | eps => exact ⟨[], .refl _, Nat.le_refl _, fun _ _ _ _ => .eps⟩
  | char => exact ⟨_, .refl _, Nat.le_refl _, fun _ _ _ _ => .char⟩
  | any => exact ⟨_, .refl _, Nat.le_refl _, fun _ _ _ _ => .any⟩
  | set h => exact ⟨_, .refl _, Nat.le_refl _, fun _ _ _ _ => .set h⟩
  | bol =>
      refine ⟨[], .refl _, Nat.le_refl _, fun before' _ hbefore _ => ?_⟩
      rw [hbefore rfl]
      exact .bol
  | eol =>
      refine ⟨[], .refl _, Nat.le_refl _, fun _ after' _ hafter => ?_⟩
      rw [hafter rfl]
      exact .eol
  | @cat r s before u v after _ _ ihr ihs =>
      obtain ⟨u', hu, hwu, hr⟩ := ihr
      obtain ⟨v', hv, hwv, hs⟩ := ihs
      refine ⟨u' ++ v', hu.append hv, ?_, fun before' after' hbefore hafter => ?_⟩
      · rw [List.length_append]
        exact Nat.add_le_add hwu hwv
      · refine .cat (hr before' (v' ++ after') hbefore fun hnil => ?_)
          (hs (before' ++ u') after' (fun hnil => ?_) hafter)
        · obtain ⟨rfl, hnil⟩ := List.append_eq_nil_iff.mp hnil
          rw [List.sublist_nil.mp hv, hafter hnil]
          rfl
        · obtain ⟨hnil, hu'⟩ := List.append_eq_nil_iff.mp hnil
          rw [hu'] at hu
          rw [List.sublist_nil.mp hu, hbefore hnil]
          rfl
  | altLeft _ ih =>
      obtain ⟨u', hu, hw, hr⟩ := ih
      exact ⟨u', hu, Nat.le_trans hw (Nat.le_max_left _ _), fun before' after' hbefore hafter =>
        .altLeft (hr before' after' hbefore hafter)⟩
  | altRight _ ih =>
      obtain ⟨u', hu, hw, hs⟩ := ih
      exact ⟨u', hu, Nat.le_trans hw (Nat.le_max_right _ _), fun before' after' hbefore hafter =>
        .altRight (hs before' after' hbefore hafter)⟩
  | starNil => exact ⟨[], .refl _, Nat.le_refl _, fun _ _ _ _ => .starNil⟩
  | starCons => exact ⟨[], List.nil_sublist _, Nat.le_refl _, fun _ _ _ _ => .starNil⟩
  | @plus r before u v after _ _ ihr _ =>
      obtain ⟨u', hu, hw, hr⟩ := ihr
      refine ⟨u', hu.trans (List.sublist_append_left _ _), hw, fun before' after' hbefore hafter => ?_⟩
      rw [← List.append_nil u']
      refine .plus (hr before' ([] ++ after') hbefore fun hnil => ?_) .starNil
      exact hafter (List.append_eq_nil_iff.mp hnil).2
  | optNil => exact ⟨[], .refl _, Nat.le_refl _, fun _ _ _ _ => .optNil⟩
  | optSome => exact ⟨[], List.nil_sublist _, Nat.zero_le _, fun _ _ _ _ => .optNil⟩

/-- What is matched somewhere is matched in a string of the bytes that cannot be left out. -/
theorem Search.exists_short {r : Ere} {s : Bytes} (h : r.Search has s) :
    ∃ s', s'.Sublist s ∧ s'.length ≤ r.width ∧ r.Search has s' := by
  obtain ⟨before, u, after, rfl, hmatch⟩ := h
  obtain ⟨u', hu, hw, hshort⟩ := hmatch.exists_short
  refine ⟨u', ?_, hw, [], u', [], (List.append_nil u').symm, hshort [] [] (fun _ => rfl) fun _ => rfl⟩
  exact (hu.trans (List.sublist_append_left _ _)).trans (List.sublist_append_right _ _)

/-! ## Sequences -/

/-- A sequence. -/
def catList (rs : List Ere) : Ere := rs.foldr cat eps

@[simp] theorem catList_nil : catList [] = eps := rfl

@[simp] theorem catList_cons (r : Ere) (rs : List Ere) : catList (r :: rs) = cat r (catList rs) := rfl

theorem width_catList (rs : List Ere) : (catList rs).width = (rs.map width).sum := by
  induction rs with
  | nil => rfl
  | cons r rs ih => rw [catList_cons, width, ih, List.map_cons, List.sum_cons]

theorem matches_cat {r s : Ere} {before u after : Bytes} :
    (cat r s).Matches has before u after ↔ ∃ v w, u = v ++ w ∧
      r.Matches has before v (w ++ after) ∧ s.Matches has (before ++ v) w after := by
  constructor
  · rintro (_ | _ | _ | _ | _ | _ | ⟨hr, hs⟩)
    exact ⟨_, _, rfl, hr, hs⟩
  · rintro ⟨v, w, rfl, hr, hs⟩
    exact .cat hr hs

theorem matches_char {c : UInt8} {before u after : Bytes} :
    (char c).Matches has before u after ↔ u = [c] := by
  constructor
  · rintro ⟨⟩
    rfl
  · rintro rfl
    exact .char

theorem matches_any {before u after : Bytes} :
    any.Matches has before u after ↔ ∃ c, u = [c] := by
  constructor
  · rintro ⟨⟩
    exact ⟨_, rfl⟩
  · rintro ⟨c, rfl⟩
    exact .any

theorem matches_star_any {u : Bytes} (before after : Bytes) :
    (star any).Matches has before u after := by
  induction u generalizing before with
  | nil => exact .starNil
  | cons c u ih =>
      exact .starCons (u := [c]) .any (ih (before ++ [c]))

theorem matches_eol_eps {before u after : Bytes} :
    (cat eol eps).Matches has before u after ↔ u = [] ∧ after = [] := by
  constructor
  · intro h
    obtain ⟨v, w, rfl, heol, heps⟩ := matches_cat.mp h
    cases heps
    rw [List.nil_append] at heol
    cases heol
    exact ⟨rfl, rfl⟩
  · rintro ⟨rfl, rfl⟩
    exact .cat (u := []) .eol .eps

/-- What begins with the anchor is matched at the beginning. -/
theorem search_bol {r : Ere} {s : Bytes} :
    (cat bol r).Search has s ↔ ∃ u after, s = u ++ after ∧ r.Matches has [] u after := by
  constructor
  · rintro ⟨before, u, after, rfl, h⟩
    obtain ⟨v, w, rfl, hbol, hr⟩ := matches_cat.mp h
    cases hbol
    exact ⟨w, after, rfl, hr⟩
  · rintro ⟨u, after, rfl, hr⟩
    exact ⟨[], u, after, rfl, .cat (u := []) .bol hr⟩

/-! ## Reading the text -/

/-- Where a bracket expression is. -/
inductive BracketState where
  | first
  | caret
  | inside
  | escaped
  | opened
  | inClass (d : UInt8)
  | classEnd (d : UInt8)
deriving DecidableEq

/-- The next state, or none where the bracket expression ends.  A bracket in front is no end,
nor is one behind a backslash or in a class. -/
def BracketState.next (b : BracketState) (c : UInt8) : Option BracketState :=
  let other := if c = 92 then .escaped else if c = 91 then .opened else .inside
  match b with
  | .first => some (if c = 94 then .caret else other)
  | .caret => some other
  | .inside => if c = 93 then none else some other
  | .escaped => some .inside
  | .opened => if c = 58 ∨ c = 46 ∨ c = 61 then some (.inClass c) else if c = 93 then none else some other
  | .inClass d => some (if c = d then .classEnd d else .inClass d)
  | .classEnd d => some (if c = 93 then .inside else if c = d then .classEnd d else .inClass d)

/-- Where the text is. -/
inductive Mode where
  | plain
  | escaped
  | bracket (b : BracketState) (content : Bytes)
deriving DecidableEq

/-- The alternatives and the branch that have been read, the last first. -/
structure Frame where
  alts : List Ere
  branch : List Ere
deriving DecidableEq

namespace Frame

/-- One more in the branch. -/
def push (f : Frame) (r : Ere) : Frame := { f with branch := r :: f.branch }

/-- The branch is an alternative. -/
def nextBranch (f : Frame) : Frame := ⟨catList f.branch.reverse :: f.alts, []⟩

/-- The last one is repeated. -/
def repeatLast (f : Frame) (op : Ere → Ere) : Option Frame :=
  match f.branch with
  | [] => none
  | r :: rs => some { f with branch := op r :: rs }

/-- The expression that has been read. -/
def close (f : Frame) : Ere := f.alts.foldl (fun r a => alt a r) (catList f.branch.reverse)

/-- The bytes that cannot be left out of any branch. -/
def width (f : Frame) : Nat := (f.alts.map Ere.width).sum + (f.branch.map Ere.width).sum

end Frame

/-- What has been read, with the frames of the parentheses that are open. -/
structure ParseState where
  mode : Mode
  frame : Frame
  outer : List Frame
deriving DecidableEq

/-- The bytes that a backslash makes ordinary: `^ . [ $ ( ) | * + ? {` and the backslash. -/
def isSpecial (c : UInt8) : Bool := [94, 46, 91, 36, 40, 41, 124, 42, 43, 63, 123, 92].contains c

/-- What a byte is that opens, closes or repeats nothing. -/
def piece (c : UInt8) : Ere :=
  if c = 46 then .any else if c = 94 then .bol else if c = 36 then .eol else .char c

namespace ParseState

/-- Reading one byte, where a brace is itself or is not read. -/
def step (brace : Bool) (st : ParseState) (c : UInt8) : Option ParseState :=
  match st.mode with
  | .escaped =>
      if isSpecial c then some { st with mode := .plain, frame := st.frame.push (.char c) } else none
  | .bracket b content =>
      match b.next c with
      | some b => some { st with mode := .bracket b (content ++ [c]) }
      | none => some { st with mode := .plain, frame := st.frame.push (.set content) }
  | .plain =>
      if c = 92 then some { st with mode := .escaped }
      else if c = 91 then some { st with mode := .bracket .first [] }
      else if c = 40 then some { st with frame := ⟨[], []⟩, outer := st.frame :: st.outer }
      else if c = 41 then
        match st.outer with
        | [] => none
        | f :: outer => some { st with frame := f.push st.frame.close, outer := outer }
      else if c = 124 then some { st with frame := st.frame.nextBranch }
      else if c = 42 then (st.frame.repeatLast .star).map fun f => { st with frame := f }
      else if c = 43 then (st.frame.repeatLast .plus).map fun f => { st with frame := f }
      else if c = 63 then (st.frame.repeatLast .opt).map fun f => { st with frame := f }
      else if c = 123 ∧ brace = false then none
      else some { st with frame := st.frame.push (piece c) }

/-- Reading a text. -/
def run (brace : Bool) (st : ParseState) (text : Bytes) : Option ParseState :=
  text.foldlM (step brace) st

/-- The bytes that cannot be left out of what has been read, with the one that is escaped. -/
def width (st : ParseState) : Nat :=
  st.frame.width + (st.outer.map Frame.width).sum + if st.mode = .escaped then 1 else 0

end ParseState

/-- The expression that a text is. -/
def ofText (brace : Bool) (text : Bytes) : Option Ere :=
  match ParseState.run brace ⟨.plain, ⟨[], []⟩, []⟩ text with
  | some ⟨.plain, f, []⟩ => some f.close
  | _ => none

/-! ## The width of what has been read -/

@[simp] theorem Frame.width_push (f : Frame) (r : Ere) : (f.push r).width = f.width + r.width := by
  simp only [Frame.width, Frame.push, List.map_cons, List.sum_cons]
  omega

theorem Frame.width_nextBranch (f : Frame) : f.nextBranch.width = f.width := by
  simp only [Frame.width, Frame.nextBranch, List.map_cons, List.map_nil, List.sum_cons, List.sum_nil,
    width_catList, List.map_reverse, List.sum_reverse]
  omega

theorem width_foldl_alt (alts : List Ere) (r : Ere) :
    (alts.foldl (fun r a => alt a r) r).width ≤ (alts.map width).sum + r.width := by
  induction alts generalizing r with
  | nil => exact Nat.le_of_eq (Nat.zero_add _).symm
  | cons a alts ih =>
      refine Nat.le_trans (ih (alt a r)) ?_
      rw [List.map_cons, List.sum_cons, width]
      omega

/-- An expression is no wider than its branches together. -/
theorem Frame.width_close (f : Frame) : f.close.width ≤ f.width := by
  refine Nat.le_trans (width_foldl_alt _ _) ?_
  rw [width_catList, Frame.width, List.map_reverse, List.sum_reverse]

/-- Only a bracket ends a bracket expression. -/
theorem BracketState.eq_of_next {b : BracketState} {c : UInt8} (h : b.next c = none) : c = 93 := by
  cases b with
  | inside =>
      rw [next] at h
      split at h
      next hc => exact hc
      next => cases h
  | opened =>
      rw [next] at h
      split at h
      next => cases h
      next =>
        split at h
        next hc => exact hc
        next => cases h
  | _ => cases h

namespace ParseState

variable {brace : Bool} {st st' : ParseState} {c : UInt8}

theorem run_cons (st : ParseState) (c : UInt8) (text : Bytes) :
    run brace st (c :: text) = (step brace st c).bind fun st => run brace st text :=
  List.foldlM_cons

theorem run_singleton (st : ParseState) (c : UInt8) : run brace st [c] = step brace st c := by
  rw [run_cons]
  exact Option.bind_fun_some _

theorem run_append (st : ParseState) (text text' : Bytes) :
    run brace st (text ++ text') = (run brace st text).bind fun st => run brace st text' :=
  List.foldlM_append

theorem width_eq (hmode : st.mode ≠ .escaped) :
    st.width = st.frame.width + (st.outer.map Frame.width).sum := by
  rw [width, if_neg hmode]
  rfl

/-- Behind a backslash a byte takes the place that the backslash has kept. -/
theorem step_escaped (hmode : st.mode = .escaped) (h : step brace st c = some st') :
    st' = { st with mode := .plain, frame := st.frame.push (.char c) } ∧ st'.width = st.width := by
  rw [step, hmode] at h
  dsimp only at h
  split at h
  next =>
    cases h
    refine ⟨rfl, ?_⟩
    rw [width, width, if_pos hmode, if_neg (by simp), Frame.width_push, Ere.width]
    dsimp only
    omega
  next => cases h

/-- A bracket expression is one byte wide once it has ended. -/
theorem step_bracket {b : BracketState} {content : Bytes} (hmode : st.mode = .bracket b content)
    (h : step brace st c = some st') :
    st'.mode ≠ .escaped ∧ st'.width ≤ st.width + (if c = 93 then 1 else 0) ∧
      (c ≠ 93 → ∃ b content, st'.mode = .bracket b content) := by
  have hescaped : st.mode ≠ .escaped := by
    rw [hmode]
    exact fun h => nomatch h
  rw [step, hmode] at h
  dsimp only at h
  cases hnext : b.next c with
  | some b' =>
      rw [hnext] at h
      cases h
      refine ⟨fun h => (nomatch h), ?_, fun _ => ⟨_, _, rfl⟩⟩
      rw [width_eq hescaped, width_eq (by simp)]
      exact Nat.le_add_right _ _
  | none =>
      have hc := BracketState.eq_of_next hnext
      rw [hnext] at h
      cases h
      refine ⟨fun h => (nomatch h), ?_, fun hne => absurd hc hne⟩
      rw [width_eq hescaped, width_eq (by simp), if_pos hc]
      dsimp only
      rw [Frame.width_push, Ere.width]
      omega

theorem width_plain (f : Frame) (outer : List Frame) :
    width ⟨.plain, f, outer⟩ = f.width + (outer.map Frame.width).sum :=
  width_eq (by simp)

theorem width_open (f : Frame) (outer : List Frame) :
    width ⟨.plain, ⟨[], []⟩, f :: outer⟩ = width ⟨.plain, f, outer⟩ := by
  simp only [width_plain, Frame.width, List.map_nil, List.map_cons, List.sum_nil, List.sum_cons]
  omega

theorem width_close (f g : Frame) (outer : List Frame) :
    width ⟨.plain, g.push f.close, outer⟩ ≤ width ⟨.plain, f, g :: outer⟩ := by
  have hle := f.width_close
  rw [width_plain, width_plain, List.map_cons, List.sum_cons, Frame.width_push]
  omega

theorem width_repeatLast {f : Frame} {outer : List Frame} {op : Ere → Ere}
    (hop : ∀ r, (op r).width ≤ r.width)
    (h : (f.repeatLast op).map (fun f => ParseState.mk .plain f outer) = some st') :
    st'.width ≤ width ⟨.plain, f, outer⟩ := by
  obtain ⟨f', hf, rfl⟩ := Option.map_eq_some_iff.mp h
  rw [Frame.repeatLast.eq_def] at hf
  split at hf
  next => cases hf
  next r rs hbranch =>
    cases hf
    have hr := hop r
    simp only [width_plain, Frame.width, hbranch, List.map_cons, List.sum_cons]
    omega

/-- The bytes that match nothing themselves: parentheses, anchors, the bar and the repetitions,
and the bracket that opens. -/
def isOperator (c : UInt8) : Bool := [91, 40, 41, 124, 42, 43, 63, 94, 36].contains c

theorem width_piece (hc : c ∉ [91, 40, 41, 124, 42, 43, 63]) :
    (piece c).width = if isOperator c then 0 else 1 := by
  rw [piece]
  by_cases hany : c = 46
  · rw [if_pos hany, hany]
    rfl
  rw [if_neg hany]
  by_cases hbol : c = 94
  · rw [if_pos hbol, hbol]
    rfl
  rw [if_neg hbol]
  by_cases heol : c = 36
  · rw [if_pos heol, heol]
    rfl
  have hoperator : isOperator c = false := by
    rw [isOperator, List.contains_eq_mem, decide_eq_false_iff_not]
    simpa [hbol, heol] using hc
  rw [if_neg heol, hoperator]
  rfl

/-- A byte that opens, closes or repeats nothing is one more in the branch. -/
theorem step_piece (hmode : st.mode = .plain) (hc : c ∉ [92, 91, 40, 41, 124, 42, 43, 63])
    (hbrace : c = 123 → brace = true) :
    step brace st c = some { st with frame := st.frame.push (piece c) } := by
  simp only [List.mem_cons, List.not_mem_nil, or_false, not_or] at hc
  obtain ⟨hescape, hset, hopen, hclose, halt, hstar, hplus, hopt⟩ := hc
  have hread : ¬(c = 123 ∧ brace = false) := fun h => by
    rw [hbrace h.1] at h
    exact absurd h.2 (by decide)
  rw [step, hmode]
  dsimp only
  rw [if_neg hescape, if_neg hset, if_neg hopen, if_neg hclose, if_neg halt, if_neg hstar,
    if_neg hplus, if_neg hopt, if_neg hread]

theorem step_backslash (hmode : st.mode = .plain) :
    step brace st 92 = some { st with mode := .escaped } := by
  rw [step, hmode]
  rfl

theorem step_star {r : Ere} (hmode : st.mode = .plain) :
    step brace { st with frame := st.frame.push r } 42 =
      some { st with frame := st.frame.push (.star r) } := by
  rw [step]
  dsimp only
  rw [hmode]
  rfl

theorem step_brace (hmode : st.mode = .plain) : step false st 123 = none := by
  rw [step, hmode]
  rfl

/-- Otherwise an operator adds nothing, and another byte one. -/
theorem step_plain (hmode : st.mode = .plain) (h : step brace st c = some st') :
    st'.width ≤ st.width + (if isOperator c then 0 else 1) := by
  obtain ⟨mode, f, outer⟩ := st
  cases hmode
  have hnothing : ∀ {n : Nat}, n ≤ width ⟨.plain, f, outer⟩ →
      n ≤ width ⟨.plain, f, outer⟩ + (if isOperator c then 0 else 1) :=
    fun hn => Nat.le_trans hn (Nat.le_add_right _ _)
  rw [step] at h
  dsimp only at h
  by_cases hc : c = 92
  · rw [if_pos hc] at h
    cases h
    rw [hc, width_plain]
    exact Nat.le_refl _
  rw [if_neg hc] at h
  by_cases hset : c = 91
  · rw [if_pos hset] at h
    cases h
    refine hnothing ?_
    rw [width_plain, width_eq (by simp)]
  rw [if_neg hset] at h
  by_cases hopen : c = 40
  · rw [if_pos hopen] at h
    cases h
    exact hnothing (Nat.le_of_eq (width_open f outer))
  rw [if_neg hopen] at h
  by_cases hclose : c = 41
  · rw [if_pos hclose] at h
    cases outer with
    | nil => cases h
    | cons g outer =>
        cases h
        exact hnothing (width_close f g outer)
  rw [if_neg hclose] at h
  by_cases halt : c = 124
  · rw [if_pos halt] at h
    cases h
    refine hnothing ?_
    rw [width_plain, width_plain, Frame.width_nextBranch]
  rw [if_neg halt] at h
  by_cases hstar : c = 42
  · rw [if_pos hstar] at h
    exact hnothing (width_repeatLast (fun _ => Nat.zero_le _) h)
  rw [if_neg hstar] at h
  by_cases hplus : c = 43
  · rw [if_pos hplus] at h
    have hself : ∀ r, (plus r).width ≤ r.width := fun r => Nat.le_refl _
    exact hnothing (width_repeatLast hself h)
  rw [if_neg hplus] at h
  by_cases hopt : c = 63
  · rw [if_pos hopt] at h
    exact hnothing (width_repeatLast (fun _ => Nat.zero_le _) h)
  rw [if_neg hopt] at h
  by_cases hbrace : c = 123 ∧ brace = false
  · rw [if_pos hbrace] at h
    cases h
  rw [if_neg hbrace] at h
  cases h
  have hpiece : (piece c).width = if isOperator c then 0 else 1 :=
    width_piece (by simp [hset, hopen, hclose, halt, hstar, hplus, hopt])
  rw [width_plain, width_plain, Frame.width_push, hpiece, Nat.add_right_comm]

/-- The expression that is read is no wider than what has been read. -/
theorem width_ofText {text : Bytes} {r : Ere} (h : ofText brace text = some r) :
    ∃ f, run brace ⟨.plain, ⟨[], []⟩, []⟩ text = some ⟨.plain, f, []⟩ ∧ r.width ≤ f.width := by
  rw [ofText] at h
  split at h
  next f hrun =>
    cases h
    exact ⟨f, hrun, f.width_close⟩
  next => cases h

end ParseState

end Ere

end CLib
