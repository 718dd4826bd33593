import Swbis.Lib.Ere

/-!
# Shell patterns as regular expressions

`shpat_to_regex` writes a shell pattern as an extended regular expression, by which the
catalog is searched.  There is an anchor at each end, a `?` is written as `.`, a `*` as
`.*` and a `+` as `\+`, and every other byte as it is.

A shell pattern matches a string that is divided into a part for each byte of the pattern
(`ShellMatches`).  `translatesShpat_iff` says that the expression matches the same strings
for the patterns with no byte that is special in an expression.  A `.` matches what the
pattern does not match.  Each of the others takes a byte out of what is to be matched, and
the expression matches a string that is too short for the pattern (`width_lt`), except for
a backslash at the end, which makes the anchor a byte.
-/

namespace Swbis.Misc

open CLib CLib.Ere

/-! ## The code -/

/-- `strob_chr_index`, in the text of a string object. -/
def strobChrIndex (text : Bytes) (index : Nat) (ch : UInt8) : Bytes :=
  text.take index ++ List.replicate (index - text.length) 0 ++ ch :: text.drop (index + 1)

/-- `buf`, and the index `i` at which the next byte is written. -/
structure RegexBuf where
  buf : Bytes
  i : Nat
deriving DecidableEq

/-- `strob_chr_index(buf, i++, ch)` -/
def RegexBuf.put (b : RegexBuf) (ch : UInt8) : RegexBuf :=
  ⟨strobChrIndex b.buf b.i ch, b.i + 1⟩

/-- The loop of `shpat_to_regex`, at one byte. -/
def shpatByte (b : RegexBuf) (c : UInt8) : RegexBuf :=
  if c = 63 then b.put 46
  else if c = 43 then (b.put 92).put 43
  else if c = 42 then (b.put 46).put 42
  else b.put c

/-- `shpat_to_regex`, with what is then in `buf`. -/
def shpatToRegex (shellPattern : CString) : Bytes :=
  let b := RegexBuf.put ⟨[], 0⟩ 94
  let b := shellPattern.bytes.foldl shpatByte b
  (b.put 36).buf

/-! ## What a shell pattern matches -/

/-- The part that is matched by one byte of a pattern: any run by `*`, one byte by `?`, and
itself by every other. -/
def ShellByte (c : UInt8) (part : Bytes) : Prop :=
  if c = 42 then True else if c = 63 then part.length = 1 else part = [c]

/-- A string is matched if it is divided into a part for each byte of the pattern. -/
def ShellMatches : Bytes → Bytes → Prop
  | [], s => s = []
  | c :: pattern, s =>
      ∃ part rest, s = part ++ rest ∧ ShellByte c part ∧ ShellMatches pattern rest

/-- The text is a regular expression, and it matches the strings that the pattern matches.
Where a brace is not itself and the text has one, it is none. -/
def TranslatesShpat (brace : Bool) (has : Bytes → UInt8 → Prop) (shellPattern : CString) : Prop :=
  ∃ re, ofText brace (shpatToRegex shellPattern) = some re ∧
    ∀ s : CString, re.Search has s.bytes ↔ ShellMatches shellPattern.bytes s.bytes

/-- What has a meaning of its own in an expression, besides `.` and what the loop writes for:
`[ \ ( ) | ^ $` and a brace that is not itself. -/
def isReserved (brace : Bool) (c : UInt8) : Bool :=
  [91, 92, 40, 41, 124, 94, 36].contains c || (c == 123 && !brace)

/-- The bytes that are special in an expression and are not escaped. -/
def isUnescaped (brace : Bool) (c : UInt8) : Bool := c == 46 || isReserved brace c

/-! ## The text -/

/-- What is written for one byte. -/
def regexOf (c : UInt8) : Bytes :=
  if c = 63 then [46] else if c = 43 then [92, 43] else if c = 42 then [46, 42] else [c]

theorem regexOf_of_ne {c : UInt8} (hq : c ≠ 63) (hplus : c ≠ 43) (hstar : c ≠ 42) :
    regexOf c = [c] := by
  rw [regexOf, if_neg hq, if_neg hplus, if_neg hstar]

theorem put_end (text : Bytes) (ch : UInt8) :
    RegexBuf.put ⟨text, text.length⟩ ch = ⟨text ++ [ch], (text ++ [ch]).length⟩ := by
  rw [RegexBuf.put, strobChrIndex, List.take_length, Nat.sub_self, List.drop_of_length_le (by simp),
    List.length_append]
  simp

theorem shpatByte_end (text : Bytes) (c : UInt8) :
    shpatByte ⟨text, text.length⟩ c = ⟨text ++ regexOf c, (text ++ regexOf c).length⟩ := by
  rw [shpatByte, regexOf]
  split_ifs
  · exact put_end text 46
  · rw [put_end, put_end, List.append_assoc]
    rfl
  · rw [put_end, put_end, List.append_assoc]
    rfl
  · exact put_end text c

theorem foldl_shpatByte (pattern text : Bytes) :
    pattern.foldl shpatByte ⟨text, text.length⟩ =
      ⟨text ++ pattern.flatMap regexOf, (text ++ pattern.flatMap regexOf).length⟩ := by
  induction pattern generalizing text with
  | nil => simp
  | cons c pattern ih =>
      rw [List.foldl_cons, shpatByte_end, ih, List.flatMap_cons, List.append_assoc]

theorem shpatToRegex_eq (shellPattern : CString) :
    shpatToRegex shellPattern = 94 :: (shellPattern.bytes.flatMap regexOf ++ [36]) := by
  have hloop := foldl_shpatByte shellPattern.bytes [94]
  have hbol : RegexBuf.put ⟨[], 0⟩ 94 = ⟨[94], [(94 : UInt8)].length⟩ := put_end [] 94
  rw [shpatToRegex, hbol, hloop, put_end]
  simp

/-! ## Patterns without reserved bytes -/

/-- What is read for a byte that is not reserved. -/
def tokenOf (c : UInt8) : Ere :=
  if c = 63 ∨ c = 46 then .any else if c = 42 then .star .any else .char c

section Read

variable {brace : Bool} {has : Bytes → UInt8 → Prop} {st st' : ParseState} {c : UInt8}

theorem not_mem_of_not_isReserved (hc : isReserved brace c = false) :
    c ∉ [91, 92, 40, 41, 124, 94, 36] ∧ (c = 123 → brace = true) := by
  rw [isReserved, Bool.or_eq_false_iff] at hc
  obtain ⟨hlist, hbrace⟩ := hc
  refine ⟨?_, ?_⟩
  · simpa using hlist
  · rintro rfl
    simpa using hbrace

theorem piece_eq_tokenOf (hc : isReserved brace c = false) (hq : c ≠ 63) (hstar : c ≠ 42) :
    piece c = tokenOf c := by
  obtain ⟨hlist, -⟩ := not_mem_of_not_isReserved hc
  have hbol : c ≠ 94 := fun h => hlist (by simp [h])
  have heol : c ≠ 36 := fun h => hlist (by simp [h])
  rw [piece, tokenOf, if_neg hbol, if_neg heol]
  by_cases hdot : c = 46
  · rw [if_pos hdot, if_pos (.inr hdot)]
  · rw [if_neg hdot, if_neg (not_or_intro hq hdot), if_neg hstar]

/-- A byte that is not reserved is read as its token. -/
theorem run_regexOf (hmode : st.mode = .plain) (hc : isReserved brace c = false) :
    ParseState.run brace st (regexOf c) =
      some { st with frame := st.frame.push (tokenOf c) } := by
  have hdot : ParseState.step brace st 46 = some { st with frame := st.frame.push .any } :=
    ParseState.step_piece hmode (by decide) fun h => absurd h (by decide)
  by_cases hq : c = 63
  · rw [hq]
    exact (ParseState.run_singleton st 46).trans hdot
  by_cases hplus : c = 43
  · rw [hplus]
    calc ParseState.run brace st [92, 43]
        = ParseState.run brace { st with mode := .escaped } [43] := by
          rw [ParseState.run_cons, ParseState.step_backslash hmode]
          rfl
      _ = some { st with mode := .plain, frame := st.frame.push (.char 43) } := rfl
      _ = some { st with frame := st.frame.push (.char 43) } := by rw [hmode]
  by_cases hstar : c = 42
  · rw [hstar]
    calc ParseState.run brace st [46, 42]
        = ParseState.run brace { st with frame := st.frame.push .any } [42] := by
          rw [ParseState.run_cons, hdot]
          rfl
      _ = some { st with frame := st.frame.push (.star .any) } :=
          (ParseState.run_singleton _ 42).trans (ParseState.step_star hmode)
  obtain ⟨hlist, hbrace⟩ := not_mem_of_not_isReserved hc
  rw [regexOf_of_ne hq hplus hstar, ParseState.run_singleton, ← piece_eq_tokenOf hc hq hstar]
  refine ParseState.step_piece hmode ?_ hbrace
  simp only [List.mem_cons, List.not_mem_nil, or_false, not_or] at hlist ⊢
  exact ⟨hlist.2.1, hlist.1, hlist.2.2.1, hlist.2.2.2.1, hlist.2.2.2.2.1, hstar, hplus, hq⟩

/-- A pattern without reserved bytes is read as its tokens. -/
theorem run_tokens {u : Bytes} (hmode : st.mode = .plain) (hu : ∀ c ∈ u, isReserved brace c = false) :
    ParseState.run brace st (u.flatMap regexOf) =
      some { st with
        frame := { st.frame with branch := (u.map tokenOf).reverse ++ st.frame.branch } } := by
  induction u generalizing st with
  | nil => rfl
  | cons c u ih =>
      have htail := @ih { st with frame := st.frame.push (tokenOf c) } hmode fun d hd =>
        hu d (List.mem_cons_of_mem _ hd)
      rw [List.flatMap_cons, ParseState.run_append, run_regexOf hmode (hu c List.mem_cons_self),
        Option.bind_some, htail]
      simp [Frame.push]

/-- The anchor and a pattern without reserved bytes. -/
theorem run_front {u : Bytes} (hu : ∀ c ∈ u, isReserved brace c = false) :
    ParseState.run brace ⟨.plain, ⟨[], []⟩, []⟩ (94 :: u.flatMap regexOf) =
      some ⟨.plain, ⟨[], (u.map tokenOf).reverse ++ [.bol]⟩, []⟩ := by
  have hbol : ParseState.step brace ⟨.plain, ⟨[], []⟩, []⟩ 94 = some ⟨.plain, ⟨[], [.bol]⟩, []⟩ := rfl
  rw [ParseState.run_cons, hbol]
  exact run_tokens rfl hu

theorem run_eol {alts branch : List Ere} :
    ParseState.step brace ⟨.plain, ⟨alts, branch⟩, []⟩ 36 =
      some ⟨.plain, ⟨alts, .eol :: branch⟩, []⟩ := rfl

theorem close_reverse (rs : List Ere) : Frame.close ⟨[], rs.reverse⟩ = catList rs := by
  rw [Frame.close, List.reverse_reverse]
  rfl

theorem ofText_of_run {text : Bytes} {rs : List Ere}
    (h : ParseState.run brace ⟨.plain, ⟨[], []⟩, []⟩ text = some ⟨.plain, ⟨[], rs.reverse⟩, []⟩) :
    ofText brace text = some (catList rs) := by
  rw [ofText, h, ← close_reverse]

/-- Without reserved bytes the expression is the tokens between the anchors. -/
theorem ofText_tokens {u : Bytes} (hu : ∀ c ∈ u, isReserved brace c = false) :
    ofText brace (94 :: (u.flatMap regexOf ++ [36])) =
      some (catList (.bol :: (u.map tokenOf ++ [.eol]))) := by
  refine ofText_of_run ?_
  rw [← List.cons_append, ParseState.run_append, run_front hu, Option.bind_some,
    ParseState.run_singleton, run_eol]
  simp

/-- A backslash at the end makes the anchor a byte. -/
theorem ofText_backslash {u : Bytes} (hu : ∀ c ∈ u, isReserved brace c = false) :
    ofText brace (94 :: ((u ++ [92]).flatMap regexOf ++ [36])) =
      some (catList (.bol :: (u.map tokenOf ++ [.char 36]))) := by
  have htail : ∀ frame : Frame, ParseState.run brace ⟨.plain, frame, []⟩ [92, 36] =
      some ⟨.plain, frame.push (.char 36), []⟩ := fun frame => rfl
  refine ofText_of_run ?_
  rw [List.flatMap_append, List.append_assoc, ← List.cons_append, ParseState.run_append,
    run_front hu, Option.bind_some]
  refine (htail _).trans ?_
  simp [Frame.push]

/-- A brace that is not itself is not read. -/
theorem ofText_brace {u v : Bytes} (hu : ∀ c ∈ u, isReserved false c = false) :
    ofText false (94 :: ((u ++ 123 :: v).flatMap regexOf ++ [36])) = none := by
  have hnone : ParseState.run false ⟨.plain, ⟨[], []⟩, []⟩
      (94 :: ((u ++ 123 :: v).flatMap regexOf ++ [36])) = none := by
    rw [List.flatMap_append, List.append_assoc, ← List.cons_append, ParseState.run_append,
      run_front hu, Option.bind_some]
    exact (ParseState.run_cons _ 123 _).trans (by rw [ParseState.step_brace rfl]; rfl)
  rw [ofText, hnone]

/-! ## The bytes that are to be matched -/

/-- The bytes that a byte of a pattern matches, at least. -/
def weight (c : UInt8) : Nat := if c = 42 then 0 else 1

theorem weight_of_ne (hstar : c ≠ 42) : weight c = 1 := if_neg hstar

/-- Behind a backslash a byte takes one away. -/
theorem width_regexOf_escaped (hmode : st.mode = .escaped)
    (h : ParseState.run brace st (regexOf c) = some st') : st'.width + 1 ≤ st.width + weight c := by
  by_cases hq : c = 63
  · rw [hq, show regexOf 63 = [46] from rfl, ParseState.run_singleton] at h
    have hwidth := (ParseState.step_escaped hmode h).2
    rw [hwidth, hq]
    exact Nat.le_refl _
  by_cases hplus : c = 43
  · rw [hplus, show regexOf 43 = [92, 43] from rfl, ParseState.run_cons] at h
    obtain ⟨mid, hmid, h⟩ := Option.bind_eq_some_iff.mp h
    obtain ⟨hmid, hwidth⟩ := ParseState.step_escaped hmode hmid
    have hle := ParseState.step_plain (by rw [hmid]) ((ParseState.run_singleton mid 43).symm.trans h)
    rw [hplus, ← hwidth]
    exact Nat.succ_le_succ hle
  by_cases hstar : c = 42
  · rw [hstar, show regexOf 42 = [46, 42] from rfl, ParseState.run_cons] at h
    obtain ⟨mid, hmid, h⟩ := Option.bind_eq_some_iff.mp h
    obtain ⟨hmid, hwidth⟩ := ParseState.step_escaped hmode hmid
    have hrun : ParseState.run brace mid [42] =
        some ⟨.plain, st.frame.push (.star (.char 46)), st.outer⟩ := by
      rw [ParseState.run_singleton, hmid]
      rfl
    rw [hrun] at h
    cases h
    rw [hstar, ← hwidth, hmid, ParseState.width_eq (by simp), ParseState.width_eq (by simp)]
    simp only [Frame.width_push, Ere.width, weight]
    omega
  rw [regexOf_of_ne hq hplus hstar, ParseState.run_singleton] at h
  rw [(ParseState.step_escaped hmode h).2, weight_of_ne hstar]

theorem width_regexOf_bracket {b : BracketState} {content : Bytes}
    (hmode : st.mode = .bracket b content) (h : ParseState.run brace st (regexOf c) = some st') :
    st'.width ≤ st.width + weight c := by
  have hinside : ∀ d e : UInt8, d ≠ 93 → e ≠ 93 →
      ParseState.run brace st [d, e] = some st' → st'.width ≤ st.width := by
    intro d e hd he h
    rw [ParseState.run_cons] at h
    obtain ⟨mid, hmid, h⟩ := Option.bind_eq_some_iff.mp h
    rw [ParseState.run_singleton] at h
    obtain ⟨-, hwidth, hmode⟩ := ParseState.step_bracket hmode hmid
    obtain ⟨b', content', hmode⟩ := hmode hd
    have hwidth' := (ParseState.step_bracket hmode h).2.1
    rw [if_neg hd] at hwidth
    rw [if_neg he] at hwidth'
    exact Nat.le_trans hwidth' hwidth
  by_cases hplus : c = 43
  · rw [hplus] at h ⊢
    exact Nat.le_trans (hinside 92 43 (by decide) (by decide) h) (Nat.le_add_right _ _)
  by_cases hstar : c = 42
  · rw [hstar] at h ⊢
    exact hinside 46 42 (by decide) (by decide) h
  have hsingle : ∃ d, regexOf c = [d] := by
    by_cases hq : c = 63
    · rw [hq]
      exact ⟨46, rfl⟩
    · exact ⟨c, regexOf_of_ne hq hplus hstar⟩
  obtain ⟨d, hd⟩ := hsingle
  rw [hd, ParseState.run_singleton] at h
  have hwidth := (ParseState.step_bracket hmode h).2.1
  rw [weight_of_ne hstar]
  split_ifs at hwidth <;> omega

theorem width_tokenOf (hc : isReserved brace c = false) : (tokenOf c).width = weight c := by
  rw [tokenOf, weight]
  split_ifs with hany hstar hstar
  · subst hstar
    exact absurd hany (by decide)
  · rfl
  · rfl
  · rfl

theorem width_regexOf_plain (hmode : st.mode = .plain)
    (h : ParseState.run brace st (regexOf c) = some st') :
    st'.width ≤ st.width + if ParseState.isOperator c ∧ isReserved brace c then 0 else weight c := by
  cases hc : isReserved brace c with
  | false =>
      rw [run_regexOf hmode hc] at h
      cases h
      rw [if_neg (by simp), ParseState.width_eq (by rw [hmode]; simp),
        ParseState.width_eq (by rw [hmode]; simp)]
      simp only [Frame.width_push, width_tokenOf hc]
      omega
  | true =>
      have hne : c ≠ 63 ∧ c ≠ 43 ∧ c ≠ 42 := by
        refine ⟨?_, ?_, ?_⟩ <;> rintro rfl <;> cases brace <;> exact absurd hc (by decide)
      rw [regexOf_of_ne hne.1 hne.2.1 hne.2.2, ParseState.run_singleton] at h
      have hwidth := ParseState.step_plain hmode h
      rw [weight_of_ne hne.2.2]
      simpa using hwidth

/-- What is written for a byte is no wider than what the byte matches at least. -/
theorem width_regexOf (h : ParseState.run brace st (regexOf c) = some st') :
    st'.width ≤ st.width + weight c := by
  cases hmode : st.mode with
  | plain =>
      have hwidth := width_regexOf_plain hmode h
      split_ifs at hwidth
      · exact Nat.le_trans hwidth (Nat.le_add_right _ _)
      · exact hwidth
  | escaped => exact Nat.le_of_succ_le (width_regexOf_escaped hmode h)
  | bracket b content => exact width_regexOf_bracket hmode h

theorem width_flatMap_regexOf {u : Bytes}
    (h : ParseState.run brace st (u.flatMap regexOf) = some st') :
    st'.width ≤ st.width + (u.map weight).sum := by
  induction u generalizing st with
  | nil =>
      cases h
      exact Nat.le_refl _
  | cons c u ih =>
      rw [List.flatMap_cons, ParseState.run_append] at h
      obtain ⟨mid, hmid, h⟩ := Option.bind_eq_some_iff.mp h
      have hhead := width_regexOf hmid
      have htail := ih h
      rw [List.map_cons, List.sum_cons]
      omega

/-- The anchor at the end is no wider, where the text ends with it. -/
theorem width_eol (hmode : st'.mode = .plain) (h : ParseState.step brace st 36 = some st') :
    st'.width ≤ st.width := by
  cases hst : st.mode with
  | plain => exact ParseState.step_plain hst h
  | escaped => exact Nat.le_of_eq (ParseState.step_escaped hst h).2
  | bracket b content =>
      obtain ⟨b', content', hbracket⟩ := (ParseState.step_bracket hst h).2.2 (by decide)
      rw [hmode] at hbracket
      cases hbracket

/-- The state before a reserved byte. -/
theorem run_before {u v : Bytes} {re : Ere} (hu : ∀ c ∈ u, isReserved brace c = false)
    (h : ofText brace (94 :: ((u ++ c :: v).flatMap regexOf ++ [36])) = some re) :
    ∃ st mid st' : ParseState, st.mode = .plain ∧ st.width ≤ (u.map weight).sum ∧
      ParseState.run brace st (regexOf c) = some mid ∧
      ParseState.run brace mid (v.flatMap regexOf) = some st' ∧ re.width ≤ st'.width := by
  obtain ⟨f, hrun, hclose⟩ := ParseState.width_ofText h
  rw [List.flatMap_append, List.flatMap_cons, List.append_assoc, ← List.cons_append,
    ParseState.run_append, run_front hu, Option.bind_some, List.append_assoc,
    ParseState.run_append] at hrun
  obtain ⟨mid, hmid, hrun⟩ := Option.bind_eq_some_iff.mp hrun
  rw [ParseState.run_append] at hrun
  obtain ⟨st', hst', hrun⟩ := Option.bind_eq_some_iff.mp hrun
  rw [ParseState.run_singleton] at hrun
  refine ⟨_, mid, st', rfl, ?_, hmid, hst', ?_⟩
  · have hwidth : ∀ w : Bytes, (∀ c ∈ w, isReserved brace c = false) →
        ((w.map tokenOf).map Ere.width).sum = (w.map weight).sum := by
      intro w hw
      rw [List.map_map]
      exact congrArg List.sum (List.map_congr_left fun c hc => width_tokenOf (hw c hc))
    rw [ParseState.width_eq (by simp), Frame.width, ← hwidth u hu]
    simp [List.sum_reverse, Ere.width]
  · have heol := width_eol rfl hrun
    rw [ParseState.width_eq (by simp), List.map_nil, List.sum_nil] at heol
    exact Nat.le_trans hclose heol

theorem width_setEscaped (hmode : st.mode = .plain) :
    ParseState.width { st with mode := .escaped } = st.width + 1 := by
  have hplain : st.mode ≠ .escaped := by
    rw [hmode]
    exact fun h => nomatch h
  rw [ParseState.width_eq hplain]
  rfl

theorem isOperator_of_isReserved (hc : isReserved brace c = true) (hescape : c ≠ 92)
    (hbrace : c ≠ 123) : ParseState.isOperator c = true := by
  simp only [isReserved, ParseState.isOperator, List.contains_eq_mem, Bool.or_eq_true,
    decide_eq_true_eq, Bool.and_eq_true, beq_iff_eq, hbrace, false_and, or_false, List.mem_cons,
    List.not_mem_nil, hescape, false_or] at hc ⊢
  rcases hc with h | h | h | h | h | h <;> simp [h]

/-- The expression has less to match where there is a reserved byte, unless it is a backslash
at the end. -/
theorem width_lt {u v : Bytes} {re : Ere} (hu : ∀ c ∈ u, isReserved brace c = false)
    (hc : isReserved brace c = true) (hv : c = 92 → v ≠ [])
    (h : ofText brace (94 :: ((u ++ c :: v).flatMap regexOf ++ [36])) = some re) :
    re.width < ((u ++ c :: v).map weight).sum := by
  obtain ⟨st, mid, st', hmode, hst, hmid, hst', hre⟩ := run_before hu h
  have hstar : c ≠ 42 := by
    rintro rfl
    cases brace <;> exact absurd hc (by decide)
  have hbrace : c ≠ 123 := by
    rintro rfl
    cases brace with
    | true => exact absurd hc (by decide)
    | false =>
        rw [ofText_brace hu] at h
        cases h
  rw [List.map_append, List.sum_append, List.map_cons, List.sum_cons, weight_of_ne hstar]
  by_cases hescape : c = 92
  · cases v with
    | nil => exact absurd rfl (hv hescape)
    | cons d v =>
        rw [hescape, show regexOf 92 = [92] from rfl, ParseState.run_singleton,
          ParseState.step_backslash hmode] at hmid
        cases hmid
        rw [List.flatMap_cons, ParseState.run_append] at hst'
        obtain ⟨mid, hmid, hst'⟩ := Option.bind_eq_some_iff.mp hst'
        have hhead := width_regexOf_escaped rfl hmid
        have htail := width_flatMap_regexOf hst'
        rw [width_setEscaped hmode] at hhead
        rw [List.map_cons, List.sum_cons]
        omega
  · have hoperator := isOperator_of_isReserved hc hescape hbrace
    have hhead := width_regexOf_plain hmode hmid
    have htail := width_flatMap_regexOf hst'
    rw [if_pos ⟨hoperator, hc⟩] at hhead
    omega

/-! ## What the pattern matches, and what its tokens match -/

theorem weight_le_length {part : Bytes} (h : ShellByte c part) : weight c ≤ part.length := by
  rw [ShellByte] at h
  split_ifs at h with hstar hq
  · rw [weight, if_pos hstar]
    exact Nat.zero_le _
  · rw [weight_of_ne hstar, h]
  · rw [weight_of_ne hstar, h]
    exact Nat.le_refl _

/-- A string that is matched is not shorter than what the bytes of the pattern match at least. -/
theorem sum_weight_le {pattern s : Bytes} (h : ShellMatches pattern s) :
    (pattern.map weight).sum ≤ s.length := by
  induction pattern generalizing s with
  | nil => exact Nat.zero_le _
  | cons c pattern ih =>
      obtain ⟨part, rest, rfl, hpart, hrest⟩ := h
      rw [List.map_cons, List.sum_cons, List.length_append]
      exact Nat.add_le_add (weight_le_length hpart) (ih hrest)

/-- A byte that stands for itself is in every string that is matched. -/
theorem mem_of_shellMatches {pattern s : Bytes} (h : ShellMatches pattern s) (hc : c ∈ pattern)
    (hstar : c ≠ 42) (hq : c ≠ 63) : c ∈ s := by
  induction pattern generalizing s with
  | nil => cases hc
  | cons d pattern ih =>
      obtain ⟨part, rest, rfl, hpart, hrest⟩ := h
      rcases List.mem_cons.mp hc with rfl | hc
      · rw [ShellByte, if_neg hstar, if_neg hq] at hpart
        rw [hpart]
        exact List.mem_cons_self
      · exact List.mem_append_right _ (ih hrest hc)

/-- The shortest string that a pattern matches, where a `?` stands for itself. -/
def shortest (pattern : Bytes) : Bytes := pattern.filter (· != 42)

theorem shellMatches_shortest (pattern : Bytes) : ShellMatches pattern (shortest pattern) := by
  induction pattern with
  | nil => rfl
  | cons c pattern ih =>
      refine ⟨shortest [c], shortest pattern, ?_, ?_, ih⟩
      · exact List.filter_append [c] pattern
      · by_cases hstar : c = 42
        · rw [ShellByte, if_pos hstar]
          trivial
        · have hself : shortest [c] = [c] := by simp [shortest, hstar]
          rw [hself, ShellByte, if_neg hstar]
          split_ifs
          · rfl
          · rfl

/-- A `.` is read as `?` is. -/
def dotAsAny (c : UInt8) : UInt8 := if c = 46 then 63 else c

theorem matches_tokenOf {before part after : Bytes} :
    (tokenOf c).Matches has before part after ↔ ShellByte (dotAsAny c) part := by
  rw [tokenOf, ShellByte, dotAsAny]
  by_cases hany : c = 63 ∨ c = 46
  · have hq : (if c = 46 then 63 else c) = 63 := by
      rcases hany with hany | hany <;> simp [hany]
    rw [if_pos hany, hq, if_neg (by decide), if_pos rfl, matches_any, List.length_eq_one_iff]
  · obtain ⟨hq, hdot⟩ := not_or.mp hany
    rw [if_neg hany, if_neg hdot]
    by_cases hstar : c = 42
    · rw [if_pos hstar, if_pos hstar]
      exact iff_of_true (matches_star_any before after) trivial
    · rw [if_neg hstar, if_neg hstar, if_neg hq, matches_char]

/-- Tokens match a part for each of them. -/
theorem matches_tokens {u : Bytes} {rs : List Ere} {before w after : Bytes} :
    (catList (u.map tokenOf ++ rs)).Matches has before w after ↔
      ∃ v rest, w = v ++ rest ∧ ShellMatches (u.map dotAsAny) v ∧
        (catList rs).Matches has (before ++ v) rest after := by
  induction u generalizing before w with
  | nil =>
      constructor
      · intro h
        exact ⟨[], w, rfl, rfl, by rwa [List.append_nil]⟩
      · rintro ⟨v, rest, rfl, rfl, h⟩
        rwa [List.append_nil] at h
  | cons c u ih =>
      rw [List.map_cons, List.cons_append, catList_cons, matches_cat]
      constructor
      · rintro ⟨part, w', rfl, hpart, hw⟩
        obtain ⟨v, rest, rfl, hv, hrest⟩ := ih.mp hw
        refine ⟨part ++ v, rest, (List.append_assoc _ _ _).symm,
          ⟨part, v, rfl, matches_tokenOf.mp hpart, hv⟩, ?_⟩
        rwa [← List.append_assoc]
      · rintro ⟨v, rest, rfl, ⟨part, v, rfl, hpart, hv⟩, hrest⟩
        refine ⟨part, v ++ rest, List.append_assoc _ _ _, matches_tokenOf.mpr hpart,
          ih.mpr ⟨v, rest, rfl, hv, ?_⟩⟩
        rwa [List.append_assoc]

/-- Between the anchors the tokens match the whole string. -/
theorem search_tokens {u s : Bytes} :
    (catList (.bol :: (u.map tokenOf ++ [.eol]))).Search has s ↔
      ShellMatches (u.map dotAsAny) s := by
  rw [catList_cons, search_bol]
  constructor
  · rintro ⟨w, after, rfl, h⟩
    obtain ⟨v, rest, rfl, hv, hrest⟩ := matches_tokens.mp h
    obtain ⟨rfl, rfl⟩ := matches_eol_eps.mp hrest
    rwa [List.append_nil, List.append_nil]
  · intro h
    exact ⟨s, [], (List.append_nil s).symm,
      matches_tokens.mpr ⟨s, [], (List.append_nil s).symm, h, matches_eol_eps.mpr ⟨rfl, rfl⟩⟩⟩

/-! ## When the expression is right -/

/-- In the shortest string for the tokens a `.` of the pattern has become a `?`. -/
theorem mem_of_mem_shortest {u : Bytes} {d : UInt8} (h : d ∈ shortest (u.map dotAsAny))
    (hd : d ≠ 63) : d ∈ u ∧ d ≠ 46 := by
  obtain ⟨c, hc, hdot⟩ := List.mem_map.mp (List.mem_filter.mp h).1
  rw [dotAsAny] at hdot
  split_ifs at hdot with hself
  · exact absurd hdot.symm hd
  · rw [← hdot]
    exact ⟨hc, hself⟩

/-- An expression that has less to match than the pattern matches a string that is too short. -/
theorem not_translatesShpat_of_width_lt {shellPattern : CString}
    (h : ∀ re, ofText brace (shpatToRegex shellPattern) = some re →
      re.width < (shellPattern.bytes.map weight).sum) : ¬TranslatesShpat brace has shellPattern := by
  rintro ⟨re, hre, hiff⟩
  let s : CString := ⟨shortest shellPattern.bytes, fun hmem =>
    shellPattern.noNul (List.mem_filter.mp hmem).1⟩
  obtain ⟨short, hsub, hlen, hsearch⟩ :=
    ((hiff s).mpr (shellMatches_shortest shellPattern.bytes)).exists_short
  have hmatch : ShellMatches shellPattern.bytes short :=
    (hiff ⟨short, fun hmem => s.noNul (hsub.subset hmem)⟩).mp hsearch
  have hle := sum_weight_le hmatch
  have hlt := h re hre
  omega

/-- A string with no `.` is matched where the pattern has a `.`. -/
theorem not_translatesShpat_of_dot {shellPattern : CString}
    (hu : ∀ c ∈ shellPattern.bytes, isReserved brace c = false) (hdot : 46 ∈ shellPattern.bytes) :
    ¬TranslatesShpat brace has shellPattern := by
  rintro ⟨re, hre, hiff⟩
  rw [shpatToRegex_eq, ofText_tokens hu] at hre
  cases hre
  let s : CString := ⟨shortest (shellPattern.bytes.map dotAsAny), fun hmem =>
    shellPattern.noNul (mem_of_mem_shortest hmem (by decide)).1⟩
  have hmatch := (hiff s).mp (search_tokens.mpr (shellMatches_shortest _))
  have hmem := mem_of_shellMatches hmatch hdot (by decide) (by decide)
  exact (mem_of_mem_shortest hmem (by decide)).2 rfl

/-- A `$` is matched where the pattern has a backslash at the end. -/
theorem not_translatesShpat_of_backslash {shellPattern : CString} {u : Bytes}
    (hu : ∀ c ∈ u, isReserved brace c = false) (hpattern : shellPattern.bytes = u ++ [92]) :
    ¬TranslatesShpat brace has shellPattern := by
  rintro ⟨re, hre, hiff⟩
  rw [shpatToRegex_eq, hpattern, ofText_backslash hu] at hre
  cases hre
  have hnul : 0 ∉ u := fun hmem =>
    shellPattern.noNul (by rw [hpattern]; exact List.mem_append_left _ hmem)
  let v := shortest (u.map dotAsAny)
  have hsnul : 0 ∉ v ++ [36] := by
    intro hmem
    rcases List.mem_append.mp hmem with hmem | hmem
    · exact hnul (mem_of_mem_shortest hmem (by decide)).1
    · exact absurd hmem (by decide)
  have hsearch : (catList (.bol :: (u.map tokenOf ++ [.char 36]))).Search has (v ++ [36]) := by
    rw [catList_cons, search_bol]
    exact ⟨v ++ [36], [], (List.append_nil _).symm,
      matches_tokens.mpr ⟨v, [36], rfl, shellMatches_shortest _, .cat (v := []) .char .eps⟩⟩
  have hmatch := (hiff ⟨v ++ [36], hsnul⟩).mp hsearch
  have hmem : 92 ∈ v ++ [36] :=
    mem_of_shellMatches hmatch (by rw [hpattern]; simp) (by decide) (by decide)
  rcases List.mem_append.mp hmem with hmem | hmem
  · have hmem := (mem_of_mem_shortest hmem (by decide)).1
    exact absurd (hu 92 hmem) (by cases brace <;> decide)
  · exact absurd hmem (by decide)

/-- A pattern without reserved bytes, or its first reserved byte. -/
theorem exists_first_reserved (brace : Bool) (pattern : Bytes) :
    (∀ c ∈ pattern, isReserved brace c = false) ∨ ∃ u c v, pattern = u ++ c :: v ∧
      (∀ d ∈ u, isReserved brace d = false) ∧ isReserved brace c = true := by
  cases hfind : pattern.find? (isReserved brace) with
  | none =>
      refine .inl fun c hc => ?_
      rw [← Bool.not_eq_true]
      exact List.find?_eq_none.mp hfind c hc
  | some c =>
      obtain ⟨hc, u, v, rfl, hu⟩ := List.find?_eq_some_iff_append.mp hfind
      exact .inr ⟨u, c, v, rfl, fun d hd => by simpa using hu d hd, hc⟩

end Read

/-- The expression matches the strings that the pattern matches if and only if the pattern has
none of `. [ \ ( ) | ^ $`, nor a brace that is not itself. -/
theorem translatesShpat_iff (brace : Bool) (has : Bytes → UInt8 → Prop) (shellPattern : CString) :
    TranslatesShpat brace has shellPattern ↔
      ∀ c ∈ shellPattern.bytes, isUnescaped brace c = false := by
  constructor
  · intro h
    rcases exists_first_reserved brace shellPattern.bytes with hu | ⟨u, c, v, hpattern, hu, hc⟩
    · intro c hc
      rw [isUnescaped, hu c hc, Bool.or_false, beq_eq_false_iff_ne]
      rintro rfl
      exact not_translatesShpat_of_dot hu hc h
    · refine absurd h ?_
      by_cases hend : c = 92 ∧ v = []
      · obtain ⟨rfl, rfl⟩ := hend
        exact not_translatesShpat_of_backslash hu hpattern
      · refine not_translatesShpat_of_width_lt fun re hre => ?_
        rw [shpatToRegex_eq, hpattern] at hre
        rw [hpattern]
        exact width_lt hu hc (not_and.mp hend) hre
  · intro h
    have hnone : ∀ c ∈ shellPattern.bytes, c ≠ 46 ∧ isReserved brace c = false := by
      intro c hc
      have hc := h c hc
      rw [isUnescaped, Bool.or_eq_false_iff, beq_eq_false_iff_ne] at hc
      exact hc
    have hself : shellPattern.bytes.map dotAsAny = shellPattern.bytes :=
      (List.map_congr_left fun c hc => if_neg (hnone c hc).1).trans (List.map_id _)
    have htext := ofText_tokens fun c hc => (hnone c hc).2
    rw [← shpatToRegex_eq] at htext
    refine ⟨_, htext, fun s => ?_⟩
    rw [search_tokens, hself]

/-- The expression for `a.b` matches `axb`. -/
theorem not_translatesShpat_a_dot_b :
    (∃ re, ofText true (shpatToRegex ⟨literal "a.b", by decide⟩) = some re ∧
      re.Search (fun _ _ => False) (literal "axb") ∧ ¬ShellMatches (literal "a.b") (literal "axb")) ∧
    ¬TranslatesShpat true (fun _ _ => False) ⟨literal "a.b", by decide⟩ := by
  have hall : (literal "a.b").all (fun c => !isReserved true c) = true := by decide
  have hu : ∀ c ∈ literal "a.b", isReserved true c = false := by simpa using hall
  have hsearch : ShellMatches ((literal "a.b").map dotAsAny) (literal "axb") :=
    ⟨[97], [120, 98], rfl, rfl, [120], [98], rfl, rfl, [98], [], rfl, rfl, rfl⟩
  have hnot : ¬ShellMatches (literal "a.b") (literal "axb") := fun h =>
    absurd (mem_of_shellMatches (c := 46) h (by decide) (by decide) (by decide)) (by decide)
  refine ⟨⟨_, ?_, search_tokens.mpr hsearch, hnot⟩, not_translatesShpat_of_dot hu (by decide)⟩
  rw [shpatToRegex_eq]
  exact ofText_tokens hu

end Swbis.Misc
