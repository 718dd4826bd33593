import Swbis.Lib.Search
import Swbis.Lib.Strtol

/-!
# Values in definition files

`swdef_write_value` writes a value in quotes, with escapes, if there is something
in it that needs them, and as it is otherwise.  The scanner reads the two forms
by rules of its own, and `swparse_expand_n` makes the stored value of what it
gives.  A stored value is a sequence of `Token`s: characters, and backslashes
followed by the character they escape; what is written and what is read back
are computed token by token.
-/

namespace Swbis.Misc

open CLib

/-! ## Writing a value -/

/-- `swlib_is_ansi_escape` -/
def swlibIsAnsiEscape (c : UInt8) : Bool :=
  (chars ['n', 't', 'v', 'b', 'r', 'f', 'x', 'a', '\\', '?', '\'', '"']).contains c

/-- `swlib_is_c701_escape` -/
def swlibIsC701Escape (c : UInt8) : Bool := (chars ['"', '#', '\\']).contains c

/-- The bytes that are written by their number. -/
def isHexWritten (c : UInt8) : Bool := (decide (0 < c) && decide (c < 7)) || decide (127 ≤ c)

/-- A digit of `%02X`. -/
def hexDigit (n : Nat) : UInt8 := UInt8.ofNat (if n < 10 then 48 + n else 55 + n)

/-- `\\x%02X` -/
def hexText (c : UInt8) : Bytes := [92, 120, hexDigit (c.toNat / 16), hexDigit (c.toNat % 16)]

/-- A character with a backslash in front of it, unless the output ends with one. -/
def withBackslash (out : Bytes) (c : UInt8) : Bytes := if out.getLast? = some 92 then [c] else [92, c]

/-- The loop of `swlib_expand_escapes`: `count` is the number of backslashes in a row. -/
def expandEscapesLoop (count : Nat) (out : Bytes) : Bytes → Bytes
  | [] => out
  | c :: rest =>
      if c = 92 then
        match rest with
        | [] => out ++ if (count + 1) % 2 = 1 then [92, 92] else [92]
        | d :: more =>
            if (count + 1) % 2 = 1 ∧ d = 110 then expandEscapesLoop 0 (out ++ [10]) more
            else if (count + 1) % 2 = 1 ∧ !swlibIsAnsiEscape d ∧ !swlibIsC701Escape d then
              expandEscapesLoop (count + 1) (out ++ [92, 92]) (d :: more)
            else expandEscapesLoop (count + 1) (out ++ [92]) (d :: more)
      else if isHexWritten c then expandEscapesLoop count (out ++ hexText c) rest
      else if c = 35 ∨ c = 34 then expandEscapesLoop 0 (out ++ withBackslash out c) rest
      else expandEscapesLoop 0 (out ++ [c]) rest

/-- `swlib_expand_escapes` -/
def swlibExpandEscapes (src : Bytes) : Bytes := expandEscapesLoop 0 [] src

/-- The test for the quoted form. -/
def needsQuotes (value : Bytes) : Bool :=
  (findSub [92, 110] value).isSome || value.contains 10 ||
    (value.contains 60 && value.head? != some 60) || value.contains 62 ||
    value.any fun c => c == 35 || c == 34 || c == 92

/-- `swdef_write_value`, for what is in memory at `value`. -/
def swdefWriteValue (mem : Bytes) (valueLength : Int) (quoteOff : Bool) : Bytes :=
  let value := (CString.ofMem mem).bytes
  let text :=
    if 0 < valueLength then mem.take valueLength.toNat
    else if value = [] then [34, 34]
    else
      let value := if valueLength < 0 then value.takeWhile (· != 10) else value
      let newbuf := swlibExpandEscapes value
      let quote := if quoteOff then [] else [34]
      if newbuf = [] then [34, 34]
      else if needsQuotes value then quote ++ newbuf ++ quote
      else value
  text ++ [10]

/-! ## Reading a value -/

/-- The number of backslashes at the end. -/
def trailingBackslashes (s : Bytes) : Nat := (s.reverse.takeWhile (· == 92)).length

/-- `handle_termination`, for what has been gathered so far. -/
def handleTermination (termch : UInt8) (p : Bytes) : Bool :=
  p.length == 1 || (termch == 10 && p.getLast? == some 10) || trailingBackslashes p.dropLast % 2 == 0

/-- `swlex_squash_trailing_white_space` -/
def swlexSquashTrailingWhiteSpace (s : Bytes) : Bytes := (s.reverse.dropWhile isSpace).reverse

/-- The state `QUOTEDSTRING`: the string, and what is behind the quote that ends it.  The rule matches
up to the next quote, again and again until one of them is not escaped. -/
def scanQuoted (acc : Bytes) : Bytes → Option (Bytes × Bytes)
  | [] => none
  | c :: rest =>
      if c = 34 then
        if handleTermination 34 (acc ++ [34]) then some (acc, rest) else scanQuoted (acc ++ [34]) rest
      else scanQuoted (acc ++ [c]) rest

/-- The state `UNQUOTEDSTR`: the string, and what ends it, which is put back.  A rule matches at least
one character, here in `part`, and a newline or a `#`; where none matches, the character is dropped. -/
def scanUnquoted (acc part : Bytes) : Bytes → Option (Bytes × Bytes)
  | [] => none
  | c :: rest =>
      if c = 35 ∨ c = 10 then
        if part = [] then scanUnquoted acc [] rest
        else if handleTermination c (acc ++ part ++ [c]) then
          some (swlexSquashTrailingWhiteSpace (acc ++ part), c :: rest)
        else scanUnquoted (acc ++ part ++ [c]) [] rest
      else scanUnquoted acc (part ++ [c]) rest

/-- What the scanner gives for a value: `SW_SHELL_TOKEN_STRING` with the string, and what is still to
be read; `SW_OK_NEWLINE_STRING`; an input redirection; an error or the end of the file. -/
inductive LexValue where
  | string (strb rest : Bytes)
  | objectNewline
  | inputRedir
  | error
deriving DecidableEq

/-- `nonUTF8_bincharsA` -/
def isBinaryChar (c : UInt8) : Bool := decide (c ≤ 7) || decide (127 ≤ c)

/-- `ws`, behind a keyword -/
def isBlank (c : UInt8) : Bool := c == 32 || c == 9

/-- The scanner behind a keyword and a blank: the state `VALUEWS`, and then `VALUE`. -/
def lexValue (text : Bytes) : LexValue :=
  match text.dropWhile isBlank with
  | [] => .error
  | c :: rest =>
      if c = 10 then .objectNewline
      else if c = 34 then
        match scanQuoted [] rest with
        | none => .error
        | some (strb, rest) => .string (34 :: strb ++ [34]) rest
      else if c = 60 then .inputRedir
      else if c = 35 then .error
      else if isBinaryChar c then .error
      else
        match scanUnquoted [] [] (c :: rest) with
        | none => .error
        | some (strb, rest) => .string strb rest

/-- `de_quote_it` -/
def deQuoteIt (src : Bytes) : Bytes :=
  match src with
  | [] => []
  | c :: rest => if c ≠ 34 ∨ rest = [] then c :: rest else rest.dropLast

/-- The loop of `swparse_expand_n`. -/
def expandNLoop : Bytes → Bytes
  | [] => []
  | c :: rest =>
      if c = 10 then 92 :: 110 :: expandNLoop rest
      else if c = 92 then
        match rest with
        | [] => [92, 92]
        | d :: more =>
            if d = 92 then 92 :: 92 :: expandNLoop more
            else if d = 110 then 92 :: 92 :: 110 :: expandNLoop more
            else if d = 35 then 35 :: expandNLoop more
            else if d = 34 then 34 :: expandNLoop more
            else if !swlibIsAnsiEscape d then 92 :: 92 :: expandNLoop (d :: more)
            else 92 :: expandNLoop (d :: more)
      else c :: expandNLoop rest

/-- `swparse_expand_n` -/
def swparseExpandN (src : Bytes) : Bytes := expandNLoop (deQuoteIt src)

/-! ## Stored values -/

/-- What a backslash stands in front of in a stored value. -/
def storedEscapes : Bytes := chars ['n', 't', 'v', 'b', 'r', 'f', 'x', 'a', '\\', '?', '\'']

/-- A part of a stored value: a character, or a backslash and a character. -/
inductive Token where
  | char (c : UInt8)
  | pair (c : UInt8)
deriving DecidableEq

namespace Token

/-- A character is no NUL, newline or backslash. -/
def Ok : Token → Prop
  | char c => c ≠ 0 ∧ c ≠ 10 ∧ c ≠ 92
  | pair c => c ∈ storedEscapes

/-- The part as it is stored. -/
def text : Token → Bytes
  | char c => [c]
  | pair c => [92, c]

/-- The part as it is written behind some output. -/
def written (out : Bytes) : Token → Bytes
  | char c =>
      if isHexWritten c then hexText c else if c = 35 ∨ c = 34 then withBackslash out c else [c]
  | pair c => if c = 110 then [10] else [92, c]

/-- The part as it is stored after it has been written and read. -/
def readBack : Token → Bytes
  | char c => if isHexWritten c then hexText c else [c]
  | pair c => [92, c]

/-- The part is not written by its number. -/
def Plain : Token → Prop
  | char c => isHexWritten c = false
  | pair _ => True

end Token

/-- A stored value. -/
def storedOf (ts : List Token) : Bytes := ts.flatMap Token.text

/-- What `swlib_expand_escapes` makes of a stored value. -/
def writtenOf (out : Bytes) : List Token → Bytes
  | [] => []
  | t :: ts => t.written out ++ writtenOf (out ++ t.written out) ts

/-- What `swparse_expand_n` makes of that again. -/
def readBackOf (ts : List Token) : Bytes := ts.flatMap Token.readBack

@[simp] theorem storedOf_nil : storedOf [] = [] := rfl

@[simp] theorem storedOf_cons (t : Token) (ts : List Token) : storedOf (t :: ts) = t.text ++ storedOf ts := rfl

@[simp] theorem readBackOf_nil : readBackOf [] = [] := rfl

@[simp] theorem readBackOf_cons (t : Token) (ts : List Token) :
    readBackOf (t :: ts) = t.readBack ++ readBackOf ts := rfl

/-- The characters behind a backslash are ordinary ones otherwise. -/
theorem storedEscapes_plain {c : UInt8} (h : c ∈ storedEscapes) :
    c ≠ 0 ∧ c ≠ 10 ∧ c ≠ 34 ∧ c ≠ 35 ∧ isHexWritten c = false ∧ swlibIsAnsiEscape c = true := by
  have hall : (storedEscapes.all fun c => c != 0 && (c != 10 && (c != 34 && (c != 35 &&
      (!isHexWritten c && swlibIsAnsiEscape c))))) = true := rfl
  have hc := List.all_eq_true.mp hall c h
  simp only [Bool.and_eq_true, bne_iff_ne, Bool.not_eq_true'] at hc
  exact hc

theorem mem_storedEscapes {c : UInt8} (h : swlibIsAnsiEscape c = true) (hquote : c ≠ 34) :
    c ∈ storedEscapes := by
  have hall : ((chars ['n', 't', 'v', 'b', 'r', 'f', 'x', 'a', '\\', '?', '\'', '"']).all fun c =>
      c == 34 || storedEscapes.contains c) = true := rfl
  have hc := List.all_eq_true.mp hall c (List.contains_iff_mem.mp h)
  rcases Bool.or_eq_true _ _ ▸ hc with hc | hc
  · exact absurd (beq_iff_eq.mp hc) hquote
  · exact List.contains_iff_mem.mp hc

theorem expandNLoop_char {c : UInt8} (hnl : c ≠ 10) (hback : c ≠ 92) (s : Bytes) :
    expandNLoop (c :: s) = c :: expandNLoop s := by
  rw [expandNLoop.eq_def]
  dsimp only
  rw [if_neg hnl, if_neg hback]

theorem expandNLoop_plain {s : Bytes} (hs : ∀ c ∈ s, c ≠ 10 ∧ c ≠ 92) : expandNLoop s = s := by
  induction s with
  | nil => rfl
  | cons c s ih =>
      obtain ⟨hc, hrest⟩ := List.forall_mem_cons.mp hs
      rw [expandNLoop_char hc.1 hc.2, ih hrest]

/-- A text that does not begin with a quote, and in which nothing is special. -/
theorem swparseExpandN_of_head {s : Bytes} (hs : ∀ c ∈ s, c ≠ 10 ∧ c ≠ 92)
    (hquote : s.head? ≠ some 34) : swparseExpandN s = s := by
  have hde : deQuoteIt s = s := by
    rw [deQuoteIt.eq_def]
    cases s with
    | nil => rfl
    | cons c rest => exact if_pos (.inl fun hc => hquote (congrArg some hc))
  rw [swparseExpandN, hde, expandNLoop_plain hs]

theorem expandNLoop_newline (s : Bytes) : expandNLoop (10 :: s) = 92 :: 110 :: expandNLoop s := by
  rw [expandNLoop.eq_def]
  dsimp only
  rw [if_pos rfl]

theorem expandNLoop_backslash (s : Bytes) : expandNLoop (92 :: 92 :: s) = 92 :: 92 :: expandNLoop s := by
  rw [expandNLoop, if_neg (by decide), if_pos rfl, if_pos rfl]

theorem expandNLoop_escape {d : UInt8} (hback : d ≠ 92) (hn : d ≠ 110) (hhash : d ≠ 35) (hquote : d ≠ 34)
    (s : Bytes) : expandNLoop (92 :: d :: s) =
      if swlibIsAnsiEscape d then 92 :: expandNLoop (d :: s) else 92 :: 92 :: expandNLoop (d :: s) := by
  rw [expandNLoop, if_neg (by decide), if_pos rfl, if_neg hback, if_neg hn, if_neg hhash, if_neg hquote]
  cases swlibIsAnsiEscape d with
  | false => rfl
  | true => rfl

/-- Everything that `swparse_expand_n` gives is a stored value. -/
theorem exists_tokens_expandNLoop {src : Bytes} (hsrc : 0 ∉ src) :
    ∃ ts, (∀ t ∈ ts, Token.Ok t) ∧ expandNLoop src = storedOf ts := by
  have hcons : ∀ {t : Token} {ts : List Token} {out : Bytes}, t.Ok →
      (∀ t' ∈ ts, Token.Ok t') → out = storedOf ts →
        ∃ ts', (∀ t' ∈ ts', Token.Ok t') ∧ t.text ++ out = storedOf ts' := by
    intro t ts out ht hts hout
    refine ⟨t :: ts, List.forall_mem_cons.mpr ⟨ht, hts⟩, ?_⟩
    rw [hout, storedOf_cons]
  have hn : Token.Ok (.pair 110) := by
    rw [Token.Ok]
    decide
  have hback : Token.Ok (.pair 92) := by
    rw [Token.Ok]
    decide
  have hchar : ∀ {c : UInt8}, c ≠ 0 → c ≠ 10 → c ≠ 92 → Token.Ok (.char c) := fun h₀ h₁ h₂ => ⟨h₀, h₁, h₂⟩
  induction src using expandNLoop.induct with
  | case1 => exact ⟨[], List.forall_mem_nil _, rfl⟩
  | case2 rest ih =>
      obtain ⟨ts, hts, heq⟩ := ih fun h => hsrc (List.mem_cons_of_mem _ h)
      rw [expandNLoop_newline]
      exact hcons hn hts heq
  | case3 => exact ⟨[.pair 92], List.forall_mem_singleton.mpr hback, rfl⟩
  | case4 more _ ih =>
      obtain ⟨ts, hts, heq⟩ := ih fun h => hsrc (List.mem_cons_of_mem _ (List.mem_cons_of_mem _ h))
      rw [expandNLoop_backslash]
      exact hcons hback hts heq
  | case5 more _ _ ih =>
      obtain ⟨ts, hts, heq⟩ := ih fun h => hsrc (List.mem_cons_of_mem _ (List.mem_cons_of_mem _ h))
      obtain ⟨ts', hts', heq'⟩ := hcons (hchar (c := 110) (by decide) (by decide) (by decide)) hts heq
      exact hcons hback hts' heq'
  | case6 more _ _ _ ih =>
      obtain ⟨ts, hts, heq⟩ := ih fun h => hsrc (List.mem_cons_of_mem _ (List.mem_cons_of_mem _ h))
      exact hcons (hchar (c := 35) (by decide) (by decide) (by decide)) hts heq
  | case7 more _ _ _ _ ih =>
      obtain ⟨ts, hts, heq⟩ := ih fun h => hsrc (List.mem_cons_of_mem _ (List.mem_cons_of_mem _ h))
      exact hcons (hchar (c := 34) (by decide) (by decide) (by decide)) hts heq
  | case8 d more h₁ h₂ h₃ h₄ hansi _ ih =>
      obtain ⟨ts, hts, heq⟩ := ih fun h => hsrc (List.mem_cons_of_mem _ h)
      rw [expandNLoop_escape h₁ h₂ h₃ h₄, if_neg (by simpa using hansi)]
      exact hcons hback hts heq
  | case9 d more h₁ h₂ h₃ h₄ hansi _ ih =>
      obtain ⟨ts, hts, heq⟩ := ih fun h => hsrc (List.mem_cons_of_mem _ h)
      have hescape : d ∈ storedEscapes := mem_storedEscapes (by simpa using hansi) h₄
      have hnl := (storedEscapes_plain hescape).2.1
      rw [expandNLoop_escape h₁ h₂ h₃ h₄, if_pos (by simpa using hansi), heq]
      rw [expandNLoop_char hnl h₁] at heq
      -- The character behind the backslash is the first part of what is behind it.
      cases ts with
      | nil => cases heq
      | cons t ts =>
          cases t with
          | pair c =>
              injection heq with heq _
              exact absurd heq h₁
          | char c =>
              injection heq with heq _
              subst heq
              exact ⟨.pair d :: ts, List.forall_mem_cons.mpr ⟨hescape,
                (List.forall_mem_cons.mp hts).2⟩, rfl⟩
  | case10 c rest hnl hne ih =>
      obtain ⟨ts, hts, heq⟩ := ih fun h => hsrc (List.mem_cons_of_mem _ h)
      have hzero : c ≠ 0 := fun h => hsrc (h ▸ List.mem_cons_self)
      rw [expandNLoop_char hnl hne]
      exact hcons (hchar hzero hnl hne) hts heq

theorem expandEscapesLoop_char {c : UInt8} (h : c ≠ 92) (count : Nat) (out s : Bytes) :
    expandEscapesLoop count out (c :: s) =
      if isHexWritten c then expandEscapesLoop count (out ++ hexText c) s
      else if c = 35 ∨ c = 34 then expandEscapesLoop 0 (out ++ withBackslash out c) s
      else expandEscapesLoop 0 (out ++ [c]) s := by
  rw [expandEscapesLoop.eq_def]
  dsimp only
  rw [if_neg h]

/-- What is written for a stored value. -/
theorem expandEscapesLoop_storedOf {ts : List Token} (hts : ∀ t ∈ ts, Token.Ok t) {count : Nat}
    (hcount : count % 2 = 0) (out : Bytes) :
    expandEscapesLoop count out (storedOf ts) = out ++ writtenOf out ts := by
  -- The second of two backslashes is written as it is.
  have hsecond : ∀ (n : Nat) (out s : Bytes), (n + 1) % 2 = 0 →
      expandEscapesLoop n out (92 :: s) = expandEscapesLoop (n + 1) (out ++ [92]) s := by
    intro n out s hn
    cases s with
    | nil =>
        rw [expandEscapesLoop, expandEscapesLoop.eq_def]
        dsimp only
        rw [if_pos rfl, if_neg (by omega)]
    | cons d s => rw [expandEscapesLoop, if_pos rfl, if_neg (fun h => by omega), if_neg (fun h => by omega)]
  induction ts generalizing count out with
  | nil => rw [storedOf_nil, expandEscapesLoop, writtenOf, List.append_nil]
  | cons t ts ih =>
      obtain ⟨ht, hrest⟩ := List.forall_mem_cons.mp hts
      rw [storedOf_cons, writtenOf, ← List.append_assoc]
      cases t with
      | char c =>
          rw [Token.text, Token.written, List.singleton_append, expandEscapesLoop_char ht.2.2]
          split
          next => exact ih hrest hcount _
          next =>
            split
            next => exact ih hrest rfl _
            next => exact ih hrest rfl _
      | pair c =>
          obtain ⟨-, -, hquote, hhash, hhex, hansi⟩ := storedEscapes_plain ht
          have hodd : (count + 1) % 2 = 1 := by omega
          have hfirst : expandEscapesLoop count out (92 :: c :: storedOf ts) =
              if c = 110 then expandEscapesLoop 0 (out ++ [10]) (storedOf ts)
              else expandEscapesLoop (count + 1) (out ++ [92]) (c :: storedOf ts) := by
            rw [expandEscapesLoop, if_pos rfl]
            by_cases hc : c = 110
            · rw [if_pos ⟨hodd, hc⟩, if_pos hc]
            · rw [if_neg (fun h => hc h.2), if_neg hc, if_neg]
              rw [hansi]
              simp
          rw [Token.text, Token.written, List.cons_append, List.singleton_append, hfirst]
          by_cases hn : c = 110
          · rw [if_pos hn, if_pos hn]
            exact ih hrest rfl _
          · rw [if_neg hn, if_neg hn]
            by_cases hback : c = 92
            · rw [hback, hsecond _ _ _ (by omega), ih hrest (by omega), List.append_assoc out]
              rfl
            · rw [expandEscapesLoop_char hback, if_neg (by simp [hhex]), if_neg (by simp [hquote, hhash]),
                ih hrest rfl, List.append_assoc out]
              rfl

end Swbis.Misc
