import Swbis.Misc.Swdef
import Mathlib.Data.List.Induction
import Mathlib.Data.List.DropRight

/-!
# Values through a definition file

A stored value that is written in quotes comes back if no byte of it is written
by its number and no quote of it is behind a backslash (`comesBack_quoted`).
A value that is written as it is comes back if the scanner does not take its
first character for something else and there is no white space around it
(`comesBack_unquoted`).
-/

namespace Swbis.Misc

open CLib

/-! ## Reading the quoted form -/

theorem hexDigit_plain {n : Nat} (h : n < 16) : hexDigit n ≠ 10 ∧ hexDigit n ≠ 34 ∧ hexDigit n ≠ 92 := by
  revert n
  decide

theorem expandNLoop_hexText (c : UInt8) (s : Bytes) :
    expandNLoop (hexText c ++ s) = hexText c ++ expandNLoop s := by
  have hbyte := c.toNat_lt
  have hhigh : c.toNat / 16 < 16 := by
    omega
  obtain ⟨h₁, -, h₂⟩ := hexDigit_plain hhigh
  obtain ⟨h₃, -, h₄⟩ := hexDigit_plain (Nat.mod_lt c.toNat (by decide : 16 > 0))
  simp only [hexText, List.cons_append, List.nil_append]
  rw [expandNLoop_escape (by decide) (by decide) (by decide) (by decide), if_pos (by decide),
    expandNLoop_char (by decide) (by decide), expandNLoop_char h₁ h₂, expandNLoop_char h₃ h₄]

theorem expandNLoop_withBackslash {c : UInt8} (hc : c = 35 ∨ c = 34) (out s : Bytes) :
    expandNLoop (withBackslash out c ++ s) = c :: expandNLoop s := by
  rw [withBackslash]
  rcases hc with rfl | rfl
  · split
    next => exact expandNLoop_char (by decide) (by decide) s
    next => rfl
  · split
    next => exact expandNLoop_char (by decide) (by decide) s
    next => rfl

theorem expandNLoop_written {t : Token} (ht : t.Ok) (out s : Bytes) :
    expandNLoop (t.written out ++ s) = t.readBack ++ expandNLoop s := by
  cases t with
  | char c =>
      rw [Token.written, Token.readBack]
      split
      next => exact expandNLoop_hexText c s
      next =>
        split
        next hc => exact expandNLoop_withBackslash hc out s
        next => exact expandNLoop_char ht.2.1 ht.2.2 s
  | pair c =>
      obtain ⟨-, hnl, hquote, hhash, -, hansi⟩ := storedEscapes_plain ht
      rw [Token.written, Token.readBack]
      by_cases hn : c = 110
      · rw [if_pos hn, hn]
        exact expandNLoop_newline s
      · rw [if_neg hn]
        by_cases hback : c = 92
        · rw [hback]
          exact expandNLoop_backslash s
        · exact (expandNLoop_escape hback hn hhash hquote s).trans
            ((if_pos hansi).trans (congrArg _ (expandNLoop_char hnl hback s)))

/-- What is read of what is written. -/
theorem expandNLoop_writtenOf {ts : List Token} (hts : ∀ t ∈ ts, Token.Ok t) (out : Bytes) :
    expandNLoop (writtenOf out ts) = readBackOf ts := by
  induction ts generalizing out with
  | nil => rfl
  | cons t ts ih =>
      obtain ⟨ht, hrest⟩ := List.forall_mem_cons.mp hts
      rw [writtenOf, expandNLoop_written ht, ih hrest, readBackOf_cons]

/-- A byte that is written by its number does not come back. -/
theorem plain_of_readBackOf {ts : List Token} (hts : ∀ t ∈ ts, Token.Ok t) {x y : Bytes}
    (h : readBackOf ts ++ x = storedOf ts ++ y) : ∀ t ∈ ts, Token.Plain t := by
  induction ts with
  | nil => exact List.forall_mem_nil _
  | cons t ts ih =>
      obtain ⟨ht, hrest⟩ := List.forall_mem_cons.mp hts
      rw [readBackOf_cons, storedOf_cons, List.append_assoc, List.append_assoc] at h
      cases t with
      | char c =>
          rw [Token.readBack] at h
          split at h
          next =>
            injection h with h _
            exact absurd h.symm ht.2.2
          next hhex =>
            injection h with _ h
            exact List.forall_mem_cons.mpr ⟨Bool.eq_false_iff.mpr hhex, ih hrest h⟩
      | pair c =>
          injection h with _ h
          injection h with _ h
          exact List.forall_mem_cons.mpr ⟨trivial, ih hrest h⟩

theorem readBackOf_of_plain {ts : List Token} (h : ∀ t ∈ ts, Token.Plain t) :
    readBackOf ts = storedOf ts := by
  induction ts with
  | nil => rfl
  | cons t ts ih =>
      obtain ⟨ht, hrest⟩ := List.forall_mem_cons.mp h
      rw [readBackOf_cons, storedOf_cons, ih hrest]
      cases t with
      | char c =>
          rw [Token.readBack, if_neg (Bool.eq_false_iff.mp ht)]
          rfl
      | pair c => rfl

theorem trailingBackslashes_concat (s : Bytes) (c : UInt8) :
    trailingBackslashes (s ++ [c]) = if c = 92 then trailingBackslashes s + 1 else 0 := by
  rw [trailingBackslashes, List.reverse_append, List.reverse_singleton, List.singleton_append]
  by_cases hc : c = 92
  · rw [if_pos hc, List.takeWhile_cons_of_pos (by simp [hc]), List.length_cons]
    rfl
  · rw [if_neg hc, List.takeWhile_cons_of_neg (by simp [hc])]
    rfl

theorem trailingBackslashes_eq_zero {s : Bytes} (h : s.getLast? ≠ some 92) :
    trailingBackslashes s = 0 := by
  induction s using List.reverseRecOn with
  | nil => rfl
  | append_singleton s c ih =>
      have hc : c ≠ 92 := by
        rintro rfl
        exact h List.getLast?_concat
      rw [trailingBackslashes_concat, if_neg hc]

theorem scanQuoted_char {c : UInt8} (h : c ≠ 34) (acc s : Bytes) :
    scanQuoted acc (c :: s) = scanQuoted (acc ++ [c]) s := by
  rw [scanQuoted, if_neg h]

theorem scanQuoted_quote (acc s : Bytes) :
    scanQuoted acc (34 :: s) =
      if trailingBackslashes acc % 2 = 0 then some (acc, s) else scanQuoted (acc ++ [34]) s := by
  have hterm : handleTermination 34 (acc ++ [34]) = true ↔ trailingBackslashes acc % 2 = 0 := by
    rw [handleTermination, List.dropLast_concat]
    cases acc with
    | nil => exact iff_of_true rfl rfl
    | cons c acc => simp
  rw [scanQuoted, if_pos rfl, if_congr hterm rfl rfl]

/-- The parts do not put a quote behind a backslash that is part of a pair. -/
def Uncut (out : Bytes) : List Token → Prop
  | [] => True
  | t :: ts => ¬(t = .char 34 ∧ out.getLast? = some 92) ∧ Uncut (out ++ t.written out) ts

/-- The scanner takes a part for what it is. -/
theorem scanQuoted_written {t : Token} (ht : t.Ok) {out : Bytes}
    (heven : trailingBackslashes out % 2 = 0) (hcut : ¬(t = .char 34 ∧ out.getLast? = some 92))
    (s : Bytes) :
    scanQuoted out (t.written out ++ s) = scanQuoted (out ++ t.written out) s ∧
      trailingBackslashes (out ++ t.written out) % 2 = 0 := by
  have hone : ∀ {c : UInt8} (out : Bytes), c ≠ 34 → c ≠ 92 →
      scanQuoted out ([c] ++ s) = scanQuoted (out ++ [c]) s ∧ trailingBackslashes (out ++ [c]) % 2 = 0 := by
    intro c out hquote hback
    rw [trailingBackslashes_concat, if_neg hback]
    exact ⟨scanQuoted_char hquote out s, rfl⟩
  cases t with
  | char c =>
      rw [Token.written]
      split
      next =>
        have hbyte := c.toNat_lt
        have hhigh : c.toNat / 16 < 16 := by
          omega
        obtain ⟨-, h₁, -⟩ := hexDigit_plain hhigh
        obtain ⟨-, h₂, h₃⟩ := hexDigit_plain (Nat.mod_lt c.toNat (by decide : 16 > 0))
        have hlast : out ++ hexText c = out ++ [92, 120, hexDigit (c.toNat / 16)] ++
            [hexDigit (c.toNat % 16)] := by
          rw [List.append_assoc]
          rfl
        rw [hlast, trailingBackslashes_concat, if_neg h₃]
        refine ⟨?_, rfl⟩
        simp only [hexText, List.cons_append, List.nil_append]
        rw [scanQuoted_char (by decide), scanQuoted_char (by decide), scanQuoted_char h₁,
          scanQuoted_char h₂]
        simp
      next =>
        split
        next hc =>
          rw [withBackslash]
          rcases hc with rfl | rfl
          · split
            next => exact hone out (by decide) (by decide)
            next =>
              have htwo := hone (c := 35) (out ++ [92]) (by decide) (by decide)
              rw [List.append_cons out 92 [35]]
              exact ⟨(scanQuoted_char (by decide) out _).trans htwo.1, htwo.2⟩
          · have hlast : out.getLast? ≠ some 92 := fun h => hcut ⟨rfl, h⟩
            rw [if_neg hlast, List.append_cons out 92 [34], trailingBackslashes_concat, if_neg (by decide)]
            refine ⟨?_, rfl⟩
            -- One backslash in front of the quote: the rule goes on.
            have hodd : trailingBackslashes (out ++ [92]) = 1 := by
              rw [trailingBackslashes_concat, if_pos rfl, trailingBackslashes_eq_zero hlast]
            exact (scanQuoted_char (by decide) out _).trans
              ((scanQuoted_quote _ s).trans (if_neg (by rw [hodd]; decide)))
        next hc => exact hone out (fun h => hc (.inr h)) ht.2.2
  | pair c =>
      obtain ⟨-, -, hquote, -⟩ := storedEscapes_plain ht
      rw [Token.written]
      split
      next => exact hone out (by decide) (by decide)
      next =>
        rw [List.append_cons out 92 [c], trailingBackslashes_concat, trailingBackslashes_concat, if_pos rfl]
        refine ⟨?_, ?_⟩
        · rw [List.cons_append, List.singleton_append, scanQuoted_char (by decide), scanQuoted_char hquote]
        · split
          next => omega
          next => rfl

theorem scanQuoted_writtenOf {ts : List Token} (hts : ∀ t ∈ ts, Token.Ok t) {out : Bytes}
    (heven : trailingBackslashes out % 2 = 0) (hcut : Uncut out ts) (rest : Bytes) :
    scanQuoted out (writtenOf out ts ++ 34 :: rest) = some (out ++ writtenOf out ts, rest) := by
  induction ts generalizing out with
  | nil =>
      rw [writtenOf, List.nil_append, scanQuoted_quote, if_pos heven, List.append_nil]
  | cons t ts ih =>
      obtain ⟨ht, hrest⟩ := List.forall_mem_cons.mp hts
      obtain ⟨hscan, heven'⟩ := scanQuoted_written ht heven hcut.1 (writtenOf (out ++ t.written out) ts ++ 34 :: rest)
      rw [writtenOf, List.append_assoc, hscan, ih hrest heven' hcut.2, List.append_assoc]

/-- A quote behind a pair of backslashes ends the string. -/
theorem scanQuoted_cut {ts : List Token} (hts : ∀ t ∈ ts, Token.Ok t) {out : Bytes}
    (heven : trailingBackslashes out % 2 = 0) (hcut : ¬Uncut out ts) (rest : Bytes) :
    ∃ ts₁ ts₂ more, ts = ts₁ ++ .char 34 :: ts₂ ∧
      scanQuoted out (writtenOf out ts ++ rest) = some (out ++ writtenOf out ts₁, more) := by
  induction ts generalizing out with
  | nil => exact absurd trivial hcut
  | cons t ts ih =>
      obtain ⟨ht, hrest⟩ := List.forall_mem_cons.mp hts
      by_cases hquote : t = .char 34 ∧ out.getLast? = some 92
      · obtain ⟨rfl, hlast⟩ := hquote
        refine ⟨[], ts, writtenOf (out ++ [34]) ts ++ rest, rfl, ?_⟩
        have hwritten : Token.written out (.char 34) = [34] := by
          rw [Token.written, if_neg (by decide), if_pos (.inr rfl), withBackslash, if_pos hlast]
        rw [writtenOf, writtenOf, hwritten, List.append_assoc, List.append_nil]
        exact (scanQuoted_quote out _).trans (if_pos heven)
      · obtain ⟨hscan, heven'⟩ := scanQuoted_written ht heven hquote (writtenOf (out ++ t.written out) ts ++ rest)
        obtain ⟨ts₁, ts₂, more, rfl, hmore⟩ := ih hrest heven' fun h => hcut ⟨hquote, h⟩
        refine ⟨t :: ts₁, ts₂, more, rfl, ?_⟩
        rw [writtenOf, List.append_assoc, hscan, hmore, writtenOf, List.append_assoc]

theorem getLast?_written {t : Token} (ht : t.Ok) (out : Bytes) :
    (out ++ t.written out).getLast? = some 92 ↔ t = .pair 92 := by
  have hone : ∀ (s : Bytes) (c : UInt8), c ≠ 92 → t ≠ .pair 92 →
      ((s ++ [c]).getLast? = some 92 ↔ t = .pair 92) := by
    intro s c hc hne
    rw [List.getLast?_concat, Option.some_inj]
    exact iff_of_false hc hne
  cases t with
  | char c =>
      rw [Token.written]
      split
      next =>
        obtain ⟨-, -, h⟩ := hexDigit_plain (Nat.mod_lt c.toNat (by decide : 16 > 0))
        have hsplit : out ++ hexText c = out ++ [92, 120, hexDigit (c.toNat / 16)] ++
            [hexDigit (c.toNat % 16)] := by
          rw [List.append_assoc]
          rfl
        rw [hsplit]
        exact hone _ _ h (by simp)
      next =>
        split
        next =>
          rw [withBackslash]
          split
          next => exact hone out c ht.2.2 (by simp)
          next =>
            rw [List.append_cons]
            exact hone _ c ht.2.2 (by simp)
        next => exact hone out c ht.2.2 (by simp)
  | pair c =>
      rw [Token.written]
      split
      next hn =>
        refine hone out 10 (by decide) ?_
        rw [hn]
        decide
      next =>
        rw [List.append_cons, List.getLast?_concat, Option.some_inj, Token.pair.injEq]

theorem infix_cons (a : UInt8) (l : Bytes) :
    [92, 34] <:+: a :: l ↔ (a = 92 ∧ l.head? = some 34) ∨ [92, 34] <:+: l := by
  have hhead : [34] <+: l ↔ l.head? = some 34 := by
    cases l with
    | nil => simp
    | cons b l => simp [List.cons_prefix_cons, eq_comm]
  rw [List.infix_cons_iff, List.cons_prefix_cons, hhead, eq_comm (a := a)]

/-- In the value itself: no quote is behind a backslash. -/
theorem uncut_iff {ts : List Token} (hts : ∀ t ∈ ts, Token.Ok t) (out : Bytes) :
    Uncut out ts ↔ ¬[92, 34] <:+: (if out.getLast? = some 92 then [92] else []) ++ storedOf ts := by
  induction ts generalizing out with
  | nil =>
      refine iff_of_true trivial fun h => ?_
      have hlen := h.length_le
      split at hlen
      next => exact absurd hlen (by decide)
      next => exact absurd hlen (by decide)
  | cons t ts ih =>
      obtain ⟨ht, hrest⟩ := List.forall_mem_cons.mp hts
      have hlast := getLast?_written ht out
      rw [Uncut, ih hrest, storedOf_cons, if_congr hlast rfl rfl]
      cases t with
      | char c =>
          rw [if_neg (by simp), List.nil_append, Token.text, List.singleton_append]
          have hback := ht.2.2
          split
          next h => simp [infix_cons, h, hback]
          next h => simp [infix_cons, h, hback]
      | pair c =>
          obtain ⟨-, -, hquote, -⟩ := storedEscapes_plain ht
          rw [Token.text]
          by_cases hback : c = 92
          · subst hback
            rw [if_pos rfl]
            split
            next h => simp [infix_cons]
            next h => simp [infix_cons]
          · rw [if_neg (by simpa using hback)]
            split
            next h => simp [infix_cons, hback, hquote]
            next h => simp [infix_cons, hback, hquote]

/-- The parts are not written by their number. -/
theorem plain_iff {ts : List Token} (hts : ∀ t ∈ ts, Token.Ok t) :
    (∀ t ∈ ts, Token.Plain t) ↔ ∀ c ∈ storedOf ts, isHexWritten c = false := by
  induction ts with
  | nil => exact iff_of_true (List.forall_mem_nil _) (List.forall_mem_nil _)
  | cons t ts ih =>
      obtain ⟨ht, hrest⟩ := List.forall_mem_cons.mp hts
      have hone : Token.Plain t ↔ ∀ c ∈ t.text, isHexWritten c = false := by
        cases t with
        | char c => exact (List.forall_mem_singleton (p := (isHexWritten · = false))).symm
        | pair c =>
            obtain ⟨-, -, -, -, hhex, -⟩ := storedEscapes_plain ht
            exact iff_of_true trivial
              (List.forall_mem_cons.mpr ⟨by decide, List.forall_mem_singleton.mpr hhex⟩)
      rw [List.forall_mem_cons, ih hrest, hone, storedOf_cons, List.forall_mem_append]

/-! ## The text that is read -/

/-- There is no NUL and no newline in a stored value. -/
theorem storedOf_plain {ts : List Token} (hts : ∀ t ∈ ts, Token.Ok t) : ∀ c ∈ storedOf ts, c ≠ 0 ∧ c ≠ 10 := by
  induction ts with
  | nil => exact List.forall_mem_nil _
  | cons t ts ih =>
      obtain ⟨ht, hrest⟩ := List.forall_mem_cons.mp hts
      rw [storedOf_cons, List.forall_mem_append]
      refine ⟨?_, ih hrest⟩
      cases t with
      | char c => exact List.forall_mem_singleton.mpr ⟨ht.1, ht.2.1⟩
      | pair c =>
          obtain ⟨hzero, hnl, -⟩ := storedEscapes_plain ht
          exact List.forall_mem_cons.mpr ⟨by decide, List.forall_mem_singleton.mpr ⟨hzero, hnl⟩⟩

theorem writtenOf_ne_nil (out : Bytes) (t : Token) (ts : List Token) : writtenOf out (t :: ts) ≠ [] := by
  rw [writtenOf]
  refine List.append_ne_nil_of_left_ne_nil ?_ _
  cases t with
  | char c =>
      rw [Token.written, withBackslash]
      split
      next => exact List.cons_ne_nil _ _
      next =>
        split
        next =>
          split
          next => exact List.cons_ne_nil _ _
          next => exact List.cons_ne_nil _ _
        next => exact List.cons_ne_nil _ _
  | pair c =>
      rw [Token.written]
      split
      next => exact List.cons_ne_nil _ _
      next => exact List.cons_ne_nil _ _

/-- What `swdef_write_value` writes for a stored value that is not empty. -/
theorem swdefWriteValue_storedOf {t : Token} {ts : List Token} (hts : ∀ t' ∈ t :: ts, Token.Ok t') :
    swdefWriteValue (storedOf (t :: ts) ++ [0]) (-1) false =
      (if needsQuotes (storedOf (t :: ts)) then 34 :: writtenOf [] (t :: ts) ++ [34]
        else storedOf (t :: ts)) ++ [10] := by
  have hplain := storedOf_plain hts
  have hzero : (0 : UInt8) ∉ storedOf (t :: ts) := fun h => (hplain 0 h).1 rfl
  have hmem : (CString.ofMem (storedOf (t :: ts) ++ [0])).bytes = storedOf (t :: ts) :=
    congrArg CString.bytes (CString.ofMem_append_nul ⟨storedOf (t :: ts), hzero⟩ [])
  have hline : (storedOf (t :: ts)).takeWhile (· != 10) = storedOf (t :: ts) :=
    List.takeWhile_eq_self_iff.mpr fun c hc => bne_iff_ne.mpr (hplain c hc).2
  have hwritten : swlibExpandEscapes (storedOf (t :: ts)) = writtenOf [] (t :: ts) :=
    expandEscapesLoop_storedOf hts rfl []
  have hne : storedOf (t :: ts) ≠ [] := by
    cases t with
    | char c => exact List.cons_ne_nil _ _
    | pair c => exact List.cons_ne_nil _ _
  rw [swdefWriteValue, hmem]
  dsimp only
  rw [if_neg (by decide), if_neg hne, if_pos (show (-1 : Int) < 0 by decide), hline, hwritten,
    if_neg (writtenOf_ne_nil [] t ts)]
  rfl

/-- What is written for `value`, with `more` behind it, is read as one string up to the newline, and this
is stored as `value`. -/
def ComesBack (value more : Bytes) : Prop :=
  ∃ strb, lexValue (swdefWriteValue (value ++ [0]) (-1) false ++ more) = .string strb (10 :: more) ∧
    swparseExpandN strb = value

/-! ## The quoted form -/

theorem lexValue_quote {text strb rest : Bytes} (h : scanQuoted [] text = some (strb, rest)) :
    lexValue (34 :: text) = .string (34 :: strb ++ [34]) rest := by
  rw [lexValue, List.dropWhile_cons_of_neg (by decide)]
  dsimp only
  rw [if_neg (by decide), if_pos rfl, h]

theorem swparseExpandN_quoted (s : Bytes) : swparseExpandN (34 :: s ++ [34]) = expandNLoop s := by
  rw [swparseExpandN, List.cons_append, deQuoteIt, if_neg, List.dropLast_concat]
  rintro (h | h)
  · exact h rfl
  · exact List.append_ne_nil_of_right_ne_nil s (List.cons_ne_nil 34 []) h

theorem comesBack_quoted {t : Token} {ts : List Token} (hts : ∀ t' ∈ t :: ts, Token.Ok t')
    (hneeds : needsQuotes (storedOf (t :: ts)) = true) (more : Bytes) :
    ComesBack (storedOf (t :: ts)) more ↔
      (∀ c ∈ storedOf (t :: ts), isHexWritten c = false) ∧ ¬[92, 34] <:+: storedOf (t :: ts) := by
  rw [ComesBack, swdefWriteValue_storedOf hts, if_pos hneeds]
  have htext : 34 :: writtenOf [] (t :: ts) ++ [34] ++ [10] ++ more =
      34 :: (writtenOf [] (t :: ts) ++ 34 :: 10 :: more) := by
    simp
  have huncut := uncut_iff hts []
  rw [htext, ← plain_iff hts]
  rw [if_neg (by decide), List.nil_append] at huncut
  rw [← huncut]
  constructor
  · rintro ⟨strb, hlex, hback⟩
    by_cases hcut : Uncut [] (t :: ts)
    · rw [lexValue_quote (scanQuoted_writtenOf hts rfl hcut _)] at hlex
      injection hlex with hstrb _
      rw [← hstrb, swparseExpandN_quoted, List.nil_append, expandNLoop_writtenOf hts] at hback
      refine ⟨plain_of_readBackOf (x := []) (y := []) hts ?_, hcut⟩
      rw [hback]
    · -- The string ends at a quote: what is in front of it would have to be the whole value.
      obtain ⟨ts₁, ts₂, rest, heq, hscan⟩ := scanQuoted_cut hts rfl hcut (34 :: 10 :: more)
      rw [lexValue_quote hscan] at hlex
      injection hlex with hstrb _
      rw [heq] at hts
      have hts₁ : ∀ t ∈ ts₁, Token.Ok t := fun t ht => hts t (List.mem_append_left _ ht)
      rw [← hstrb, swparseExpandN_quoted, List.nil_append, expandNLoop_writtenOf hts₁, heq, storedOf,
        List.flatMap_append, List.flatMap_cons] at hback
      have hplain := plain_of_readBackOf (x := []) hts₁ ((List.append_nil _).trans hback)
      rw [readBackOf_of_plain hplain] at hback
      exact absurd (List.self_eq_append_right.mp hback) (List.cons_ne_nil _ _)
  · rintro ⟨hplain, hcut⟩
    refine ⟨34 :: writtenOf [] (t :: ts) ++ [34], ?_, ?_⟩
    · exact lexValue_quote (scanQuoted_writtenOf hts rfl hcut _)
    · rw [swparseExpandN_quoted, expandNLoop_writtenOf hts, readBackOf_of_plain hplain]

/-! ## The unquoted form -/

/-- There is nothing to read up to the newline but plain characters. -/
theorem scanUnquoted_line {s : Bytes} (hs : ∀ c ∈ s, c ≠ 35 ∧ c ≠ 10) {part : Bytes} (hpart : part ≠ [])
    (more : Bytes) :
    scanUnquoted [] part (s ++ 10 :: more) =
      some (swlexSquashTrailingWhiteSpace (part ++ s), 10 :: more) := by
  induction s generalizing part with
  | nil =>
      have hterm : handleTermination 10 ([] ++ part ++ [10]) = true := by
        rw [handleTermination, List.getLast?_concat]
        simp
      rw [List.nil_append, scanUnquoted, if_pos (.inr rfl), if_neg hpart, if_pos hterm, List.append_nil,
        List.nil_append]
  | cons c s ih =>
      obtain ⟨hc, hrest⟩ := List.forall_mem_cons.mp hs
      have hword : ¬(c = 35 ∨ c = 10) := fun h => h.elim hc.1 hc.2
      rw [List.cons_append, scanUnquoted, if_neg hword,
        ih hrest (List.append_ne_nil_of_right_ne_nil part (List.cons_ne_nil c [])), List.append_assoc,
        List.singleton_append]

theorem squash_eq_self_iff (s : Bytes) :
    swlexSquashTrailingWhiteSpace s = s ↔ ∀ c ∈ s.getLast?, isSpace c = false := by
  induction s using List.reverseRecOn with
  | nil => exact iff_of_true rfl fun c hc => by cases hc
  | append_singleton s c _ =>
      have hiff := List.rdropWhile_eq_self_iff (p := isSpace) (l := s ++ [c])
      rw [List.getLast?_concat]
      exact hiff.trans (by simp)

theorem length_squash_le (s : Bytes) : (swlexSquashTrailingWhiteSpace s).length ≤ s.length :=
  (List.rdropWhile_prefix isSpace (l := s)).length_le

theorem swparseExpandN_plain {s : Bytes} (hs : ∀ c ∈ s, c ≠ 10 ∧ c ≠ 34 ∧ c ≠ 92) :
    swparseExpandN s = s := by
  refine swparseExpandN_of_head (fun c hc => ⟨(hs c hc).1, (hs c hc).2.2⟩) fun hquote => ?_
  exact (hs 34 (List.mem_of_mem_head? hquote)).2.1 rfl

/-- How the scanner reads a line in which nothing is special. -/
theorem lexValue_plain {d : UInt8} {s : Bytes} (hs : ∀ c ∈ d :: s, c ≠ 10 ∧ c ≠ 34 ∧ c ≠ 35 ∧ c ≠ 92)
    (hd : isBlank d = false) (more : Bytes) :
    lexValue (d :: s ++ 10 :: more) =
      if d = 60 then .inputRedir
      else if isBinaryChar d then .error
      else .string (swlexSquashTrailingWhiteSpace (d :: s)) (10 :: more) := by
  obtain ⟨⟨hnl, hquote, hhash, -⟩, hrest⟩ := List.forall_mem_cons.mp hs
  have hscan : scanUnquoted [] [] (d :: (s ++ 10 :: more)) =
      some (swlexSquashTrailingWhiteSpace (d :: s), 10 :: more) := by
    rw [scanUnquoted, if_neg (fun h => h.elim hhash hnl)]
    exact scanUnquoted_line (fun c hc => ⟨(hrest c hc).2.2.1, (hrest c hc).1⟩) (List.cons_ne_nil d []) more
  rw [List.cons_append, lexValue, List.dropWhile_cons_of_neg (Bool.eq_false_iff.mp hd)]
  dsimp only
  rw [if_neg hnl, if_neg hquote, if_neg hhash, hscan]

theorem lexValue_blank {c : UInt8} (h : isBlank c = true) (text : Bytes) :
    lexValue (c :: text) = lexValue text := by
  rw [lexValue, List.dropWhile_cons_of_pos h]
  rfl

theorem swparseExpandN_squash {s : Bytes} (hs : ∀ c ∈ s, c ≠ 10 ∧ c ≠ 34 ∧ c ≠ 35 ∧ c ≠ 92) :
    swparseExpandN (swlexSquashTrailingWhiteSpace s) = swlexSquashTrailingWhiteSpace s := by
  refine swparseExpandN_plain fun c hc => ?_
  obtain ⟨hnl, hquote, -, hback⟩ := hs c ((List.rdropWhile_prefix isSpace (l := s)).subset hc)
  exact ⟨hnl, hquote, hback⟩

/-- Nothing is stored that is not in the line. -/
theorem length_le_of_lexValue {s : Bytes} (hs : ∀ c ∈ s, c ≠ 10 ∧ c ≠ 34 ∧ c ≠ 35 ∧ c ≠ 92) {more : Bytes}
    {strb rest : Bytes} (h : lexValue (s ++ 10 :: more) = .string strb rest) :
    (swparseExpandN strb).length ≤ s.length := by
  induction s with
  | nil => cases h
  | cons c s ih =>
      cases hc : isBlank c with
      | true =>
          rw [List.cons_append, lexValue_blank hc] at h
          exact (ih (List.forall_mem_cons.mp hs).2 h).trans (Nat.le_succ _)
      | false =>
          rw [lexValue_plain hs hc] at h
          split at h
          next => cases h
          next =>
            split at h
            next => cases h
            next =>
              injection h with hstrb _
              rw [← hstrb, swparseExpandN_squash hs]
              exact length_squash_le _

/-- A value that is written as it is. -/
theorem comesBack_line {c : UInt8} {s : Bytes} (hs : ∀ c' ∈ c :: s, c' ≠ 10 ∧ c' ≠ 34 ∧ c' ≠ 35 ∧ c' ≠ 92)
    (more : Bytes) :
    (∃ strb, lexValue (c :: s ++ 10 :: more) = .string strb (10 :: more) ∧ swparseExpandN strb = c :: s) ↔
      (isBlank c = false ∧ c ≠ 60 ∧ isBinaryChar c = false) ∧
        ∀ c' ∈ (c :: s).getLast?, isSpace c' = false := by
  cases hc : isBlank c with
  | true =>
      refine iff_of_false ?_ fun h => by cases h.1.1
      rintro ⟨strb, hlex, hback⟩
      rw [List.cons_append, lexValue_blank hc] at hlex
      have hlen := length_le_of_lexValue (List.forall_mem_cons.mp hs).2 hlex
      rw [hback, List.length_cons] at hlen
      omega
  | false =>
      rw [lexValue_plain hs hc]
      split
      next h => exact iff_of_false (fun ⟨_, hlex, _⟩ => by cases hlex) fun hok => hok.1.2.1 h
      next hredir =>
        split
        next h => exact iff_of_false (fun ⟨_, hlex, _⟩ => by cases hlex) fun hok => by simp [h] at hok
        next hbinary =>
          rw [← squash_eq_self_iff]
          constructor
          · rintro ⟨strb, hlex, hback⟩
            injection hlex with hstrb _
            rw [← hstrb, swparseExpandN_squash hs] at hback
            exact ⟨⟨rfl, hredir, Bool.eq_false_iff.mpr hbinary⟩, hback⟩
          · rintro ⟨-, hsquash⟩
            exact ⟨_, rfl, (swparseExpandN_squash hs).trans hsquash⟩

theorem comesBack_unquoted {t : Token} {ts : List Token} (hts : ∀ t' ∈ t :: ts, Token.Ok t')
    (hneeds : needsQuotes (storedOf (t :: ts)) = false) (more : Bytes) :
    ComesBack (storedOf (t :: ts)) more ↔
      (∀ c ∈ (storedOf (t :: ts)).head?, isBlank c = false ∧ c ≠ 60 ∧ isBinaryChar c = false) ∧
        ∀ c ∈ (storedOf (t :: ts)).getLast?, isSpace c = false := by
  have hnl := storedOf_plain hts
  have hspecial : ∀ c ∈ storedOf (t :: ts), c ≠ 10 ∧ c ≠ 34 ∧ c ≠ 35 ∧ c ≠ 92 := by
    intro c hc
    rw [needsQuotes, Bool.or_eq_false_iff] at hneeds
    have hall := List.any_eq_false.mp hneeds.2 c hc
    simp only [Bool.or_eq_true, beq_iff_eq, not_or] at hall
    exact ⟨(hnl c hc).2, hall.1.2, hall.1.1, hall.2⟩
  rw [ComesBack, swdefWriteValue_storedOf hts, if_neg (Bool.eq_false_iff.mp hneeds), List.append_assoc,
    List.singleton_append]
  obtain ⟨c, s, heq⟩ : ∃ c s, storedOf (t :: ts) = c :: s := by
    cases t with
    | char c => exact ⟨c, storedOf ts, rfl⟩
    | pair c => exact ⟨92, c :: storedOf ts, rfl⟩
  rw [heq] at hspecial ⊢
  rw [comesBack_line hspecial more]
  simp

/-- The empty value is written as two quotes. -/
theorem comesBack_nil (more : Bytes) : ComesBack [] more := ⟨[34, 34], rfl, rfl⟩

/-! ## All stored values -/

theorem zero_notMem_deQuoteIt {src : Bytes} (h : 0 ∉ src) : 0 ∉ deQuoteIt src := by
  rw [deQuoteIt.eq_def]
  split
  next => exact h
  next c rest =>
    split
    next => exact h
    next => exact fun hmem => h (List.mem_cons_of_mem _ ((List.dropLast_subset rest) hmem))

/-- Which of the values that `swparse_expand_n` gives come back from a definition file. -/
theorem comesBack_iff (src : CString) (more : Bytes) :
    ComesBack (swparseExpandN src.bytes) more ↔
      if needsQuotes (swparseExpandN src.bytes) then
        (∀ c ∈ swparseExpandN src.bytes, isHexWritten c = false) ∧
          ¬[92, 34] <:+: swparseExpandN src.bytes
      else
        (∀ c ∈ (swparseExpandN src.bytes).head?, isBlank c = false ∧ c ≠ 60 ∧ isBinaryChar c = false) ∧
          ∀ c ∈ (swparseExpandN src.bytes).getLast?, isSpace c = false := by
  obtain ⟨ts, hts, heq⟩ := exists_tokens_expandNLoop (zero_notMem_deQuoteIt src.noNul)
  rw [swparseExpandN, heq]
  cases ts with
  | nil =>
      rw [if_neg (by decide)]
      exact iff_of_true (comesBack_nil more) ⟨fun c hc => (by cases hc), fun c hc => (by cases hc)⟩
  | cons t ts =>
      split
      next hneeds => exact comesBack_quoted hts hneeds more
      next hneeds => exact comesBack_unquoted hts (Bool.eq_false_iff.mpr hneeds) more

/-- A blank in front of the value is lost. -/
theorem blank_is_lost :
    ¬∀ (src : CString) (more : Bytes), ComesBack (swparseExpandN src.bytes) more := by
  intro h
  have hvalue : ComesBack [32, 97] [] := h ⟨[32, 97], by decide⟩ []
  obtain ⟨strb, hlex, hback⟩ := hvalue
  injection hlex with hstrb _
  rw [← hstrb] at hback
  exact absurd hback (by decide)

end Swbis.Misc
