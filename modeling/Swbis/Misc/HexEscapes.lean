import Swbis.Misc.Swdef
import Swbis.Taru.Name

/-!
# Which hexadecimal escapes are decoded

`process_all_hex_escapes` goes from one escape to the next.  It looks for the
next `\x`, and stops when that one is malformed or has a backslash in front of
it.  An escape behind it is then not decoded.

`decodeHexEscapes` decodes all of them.  The two agree exactly when every `\x` in
front of an escape is one itself, as in what `swlib_expand_escapes` writes.
-/

namespace Swbis.Misc

open CLib Swbis.Taru

/-! ## Decoding all escapes -/

/-- The value of an escape at the front, and what is behind it. -/
def hexEscapeAt : Bytes → Option (UInt8 × Bytes)
  | 92 :: 120 :: d1 :: d2 :: rest => (convertHexSeq d1 d2).map fun value => (value, rest)
  | _ => none

theorem hexEscapeAt_eq_some {s rest : Bytes} {value : UInt8}
    (h : hexEscapeAt s = some (value, rest)) :
    ∃ d1 d2, s = 92 :: 120 :: d1 :: d2 :: rest ∧ convertHexSeq d1 d2 = some value := by
  rw [hexEscapeAt.eq_def] at h
  split at h
  next d1 d2 rest' =>
    obtain ⟨v, hv, heq⟩ := Option.map_eq_some_iff.mp h
    cases heq
    exact ⟨d1, d2, rfl, hv⟩
  next => cases h

/-- Decodes every escape without a backslash in front of it.  `escaped` says that
one stands in front of the string. -/
def decodeHexEscapes (escaped : Bool) (s : Bytes) : Bytes :=
  match s with
  | [] => []
  | c :: s' =>
      match _h : if escaped then none else hexEscapeAt (c :: s') with
      | some (value, rest) => value :: decodeHexEscapes false rest
      | none => c :: decodeHexEscapes (c == 92) s'
termination_by s.length
decreasing_by
  · cases escaped with
    | true => cases _h
    | false =>
        obtain ⟨d1, d2, heq, -⟩ := hexEscapeAt_eq_some _h
        rw [heq]
        simp only [List.length_cons]
        omega
  · exact Nat.lt_succ_self _

/-- A `\x` stands at index `i`. -/
def MarkAt (s : Bytes) (i : Nat) : Prop := [92, 120] <+: s.drop i

/-- An escape stands at index `i`, with no backslash in front of it. -/
def EscapeAt (escaped : Bool) (s : Bytes) (i : Nat) : Prop :=
  (hexEscapeAt (s.drop i)).isSome = true ∧
    match i with
    | 0 => escaped = false
    | k + 1 => s[k]? ≠ some 92

/-- Every `\x` in front of an escape is one. -/
def EscapesLead (s : Bytes) : Prop :=
  ∀ i j, i < j → EscapeAt false s j → MarkAt s i → EscapeAt false s i

/-! ## One step of decoding -/

theorem markAt_of_escapeAt {escaped : Bool} {s : Bytes} {i : Nat} (h : EscapeAt escaped s i) :
    MarkAt s i := by
  obtain ⟨⟨value, rest⟩, hsome⟩ := Option.isSome_iff_exists.mp h.1
  obtain ⟨d1, d2, heq, -⟩ := hexEscapeAt_eq_some hsome
  rw [MarkAt, heq]
  exact ⟨d1 :: d2 :: rest, rfl⟩

/-- Behind the first byte, the indices are those of the rest. -/
theorem escapeAt_succ {escaped : Bool} {c : UInt8} {s : Bytes} {i : Nat} :
    EscapeAt escaped (c :: s) (i + 1) ↔ EscapeAt (c == 92) s i := by
  unfold EscapeAt
  rw [List.drop_succ_cons]
  refine and_congr_right fun _ => ?_
  cases i with
  | zero => simp
  | succ k => rfl

theorem decodeHexEscapes_escape {s rest : Bytes} {value : UInt8}
    (h : hexEscapeAt s = some (value, rest)) :
    decodeHexEscapes false s = value :: decodeHexEscapes false rest := by
  obtain ⟨d1, d2, rfl, -⟩ := hexEscapeAt_eq_some h
  rw [decodeHexEscapes]
  split
  next v r heq =>
    rw [if_neg Bool.false_ne_true, h] at heq
    cases heq
    rfl
  next heq =>
    rw [if_neg Bool.false_ne_true, h] at heq
    cases heq

theorem decodeHexEscapes_char {escaped : Bool} {c : UInt8} {s : Bytes}
    (h : ¬ EscapeAt escaped (c :: s) 0) :
    decodeHexEscapes escaped (c :: s) = c :: decodeHexEscapes (c == 92) s := by
  rw [decodeHexEscapes]
  split
  next v r heq =>
    cases escaped with
    | true => cases heq
    | false =>
        refine absurd ⟨?_, rfl⟩ h
        rw [if_neg Bool.false_ne_true] at heq
        rw [List.drop_zero, heq]
        rfl
  next heq => rfl

theorem length_decodeHexEscapes_le (escaped : Bool) (s : Bytes) :
    (decodeHexEscapes escaped s).length ≤ s.length := by
  fun_induction decodeHexEscapes escaped s with
  | case1 => exact Nat.le_refl _
  | case2 escaped c s value rest h ih =>
      have hlt : rest.length < (c :: s).length := by
        cases escaped with
        | true => cases h
        | false =>
            obtain ⟨d1, d2, heq, -⟩ := hexEscapeAt_eq_some h
            rw [heq]
            simp only [List.length_cons]
            omega
      rw [List.length_cons]
      omega
  | case3 escaped c s h ih =>
      rw [List.length_cons, List.length_cons]
      omega

/-- A string without escapes is left as it is, and no other. -/
theorem decodeHexEscapes_eq_self {escaped : Bool} {s : Bytes} :
    decodeHexEscapes escaped s = s ↔ ∀ i, ¬ EscapeAt escaped s i := by
  induction s generalizing escaped with
  | nil =>
      refine iff_of_true (by rw [decodeHexEscapes]) fun i h => ?_
      have hmark := markAt_of_escapeAt h
      rw [MarkAt, List.drop_nil] at hmark
      exact absurd hmark.length_le (by decide)
  | cons c s ih =>
      by_cases hzero : EscapeAt escaped (c :: s) 0
      · refine iff_of_false (fun heq => ?_) fun hall => hall 0 hzero
        obtain ⟨hsome, rfl⟩ := hzero
        obtain ⟨⟨value, rest⟩, hsome⟩ := Option.isSome_iff_exists.mp hsome
        rw [List.drop_zero] at hsome
        obtain ⟨d1, d2, hcs, -⟩ := hexEscapeAt_eq_some hsome
        have hle := length_decodeHexEscapes_le false rest
        have hlen := congrArg List.length heq
        rw [decodeHexEscapes_escape hsome, hcs] at hlen
        simp only [List.length_cons] at hlen
        omega
      · rw [decodeHexEscapes_char hzero, List.cons_inj_right, ih]
        constructor
        · intro hall i
          cases i with
          | zero => exact hzero
          | succ i =>
              rw [escapeAt_succ]
              exact hall i
        · intro hall i
          rw [← @escapeAt_succ escaped]
          exact hall (i + 1)

/-! ## Behind a first part -/

/-- A backslash stands in front of what comes behind. -/
def afterRun : Bool → Bytes → Bool
  | escaped, [] => escaped
  | _, c :: before => afterRun (c == 92) before

theorem afterRun_append (escaped : Bool) (p q : Bytes) :
    afterRun escaped (p ++ q) = afterRun (afterRun escaped p) q := by
  induction p generalizing escaped with
  | nil => rfl
  | cons c p ih => exact ih (c == 92)

theorem afterRun_eq_false {before : Bytes} :
    afterRun false before = false ↔ before.getLast? ≠ some 92 := by
  rcases List.eq_nil_or_concat before with rfl | ⟨p, c, rfl⟩
  · exact iff_of_true rfl nofun
  · rw [List.concat_eq_append, afterRun_append, List.getLast?_concat]
    simp [afterRun]

theorem escapeAt_append (escaped : Bool) (p t : Bytes) (j : Nat) :
    EscapeAt escaped (p ++ t) (p.length + j) ↔ EscapeAt (afterRun escaped p) t j := by
  induction p generalizing escaped with
  | nil => rw [List.nil_append, List.length_nil, Nat.zero_add, afterRun]
  | cons c p ih =>
      rw [List.cons_append, List.length_cons, Nat.add_right_comm, escapeAt_succ, ih, afterRun]

theorem markAt_append (p t : Bytes) (j : Nat) : MarkAt (p ++ t) (p.length + j) ↔ MarkAt t j := by
  rw [MarkAt, List.drop_length_add_append, MarkAt]

/-- Without a `\x` the first part is left as it is. -/
theorem decodeHexEscapes_run {escaped : Bool} {p t : Bytes}
    (h : ∀ i < p.length, ¬ MarkAt (p ++ t) i) :
    decodeHexEscapes escaped (p ++ t) = p ++ decodeHexEscapes (afterRun escaped p) t := by
  induction p generalizing escaped with
  | nil => rfl
  | cons c p ih =>
      have hzero : ¬ EscapeAt escaped (c :: (p ++ t)) 0 := fun hesc =>
        h 0 (Nat.succ_pos _) (markAt_of_escapeAt hesc)
      rw [List.cons_append, decodeHexEscapes_char hzero, afterRun, ih, List.cons_append]
      intro i hi hmark
      refine h (i + 1) (Nat.succ_lt_succ hi) ?_
      rw [MarkAt, List.cons_append, List.drop_succ_cons]
      exact hmark

/-! ## What the scan finds -/

theorem markAt_zero {b : UInt8} {s : Bytes} :
    MarkAt (b :: s) 0 ↔ b = 92 ∧ s.head? = some 120 := by
  rw [MarkAt, List.drop_zero, List.cons_prefix_cons, eq_comm]
  refine and_congr_right fun _ => ?_
  cases s with
  | nil => exact iff_of_false (fun h => absurd h.length_le (by decide)) nofun
  | cons c s =>
      rw [List.cons_prefix_cons, and_iff_left List.nil_prefix, List.head?_cons, Option.some_inj,
        eq_comm]

theorem markAt_succ {b : UInt8} {s : Bytes} {i : Nat} : MarkAt (b :: s) (i + 1) ↔ MarkAt s i := by
  rw [MarkAt, List.drop_succ_cons, MarkAt]

/-- `strstr` finds the first `\x`. -/
theorem strstrHexEscape_some {s before t : Bytes} (h : strstrHexEscape s = some (before, t)) :
    [92, 120] <+: t ∧ ∀ i < before.length, ¬ MarkAt s i := by
  induction s generalizing before with
  | nil => cases h
  | cons b s ih =>
      rw [strstrHexEscape] at h
      split at h
      next hmark =>
        cases h
        refine ⟨?_, fun i hi => absurd hi (Nat.not_lt_zero i)⟩
        exact markAt_zero.mpr hmark
      next hmark =>
        obtain ⟨⟨before', t'⟩, hs, heq⟩ := Option.map_eq_some_iff.mp h
        cases heq
        obtain ⟨ht, hno⟩ := ih hs
        refine ⟨ht, fun i hi => ?_⟩
        cases i with
        | zero => exact fun h0 => hmark (markAt_zero.mp h0)
        | succ i =>
            rw [markAt_succ]
            exact hno i (Nat.lt_of_succ_lt_succ hi)

theorem strstrHexEscape_none {s : Bytes} (h : strstrHexEscape s = none) (i : Nat) :
    ¬ MarkAt s i := by
  induction s generalizing i with
  | nil =>
      rw [MarkAt, List.drop_nil]
      exact fun hpre => absurd hpre.length_le (by decide)
  | cons b s ih =>
      rw [strstrHexEscape] at h
      split at h
      next => cases h
      next hmark =>
        have hs := Option.map_eq_none_iff.mp h
        cases i with
        | zero => exact fun h0 => hmark (markAt_zero.mp h0)
        | succ i =>
            rw [markAt_succ]
            exact ih hs i

/-- What the scan makes of the first `\x`. -/
theorem doesHaveHexEscape_eq {s before t : Bytes} (h : strstrHexEscape s = some (before, t)) :
    doesHaveHexEscape s =
      if before.getLast? = some 92 then none
      else (hexEscapeAt t).map fun found => (before, found.1, found.2) := by
  obtain ⟨⟨tail, rfl⟩, -⟩ := strstrHexEscape_some h
  simp only [doesHaveHexEscape, h]
  split
  next => rfl
  next =>
    rcases tail with _ | ⟨d1, _ | ⟨d2, rest⟩⟩
    · rfl
    · rfl
    · simp only [List.cons_append, List.nil_append, hexEscapeAt, Option.map_map]
      rfl

theorem doesHaveHexEscape_some {s before rest : Bytes} {value : UInt8}
    (h : doesHaveHexEscape s = some (before, value, rest)) :
    ∃ t, s = before ++ t ∧ hexEscapeAt t = some (value, rest) ∧ before.getLast? ≠ some 92 ∧
      ∀ i < before.length, ¬ MarkAt s i := by
  cases hs : strstrHexEscape s with
  | none =>
      rw [doesHaveHexEscape, hs] at h
      cases h
  | some p =>
      obtain ⟨before', t⟩ := p
      rw [doesHaveHexEscape_eq hs] at h
      split at h
      next => cases h
      next hlast =>
        obtain ⟨⟨v, r⟩, hsome, heq⟩ := Option.map_eq_some_iff.mp h
        cases heq
        exact ⟨t, strstrHexEscape_append hs, hsome, hlast, (strstrHexEscape_some hs).2⟩

/-- When it finds no escape, there is no `\x`, or the first one is none. -/
theorem doesHaveHexEscape_none {s : Bytes} (h : doesHaveHexEscape s = none) :
    (∀ i, ¬ MarkAt s i) ∨
      ∃ i, MarkAt s i ∧ ¬ EscapeAt false s i ∧ ∀ k < i, ¬ MarkAt s k := by
  cases hs : strstrHexEscape s with
  | none => exact .inl (strstrHexEscape_none hs)
  | some p =>
      obtain ⟨before, t⟩ := p
      obtain ⟨hmark, hno⟩ := strstrHexEscape_some hs
      have happend := strstrHexEscape_append hs
      rw [doesHaveHexEscape_eq hs] at h
      right
      refine ⟨before.length, ?_, ?_, hno⟩
      · rw [happend, ← Nat.add_zero before.length, markAt_append]
        exact hmark
      · rw [happend, ← Nat.add_zero before.length, escapeAt_append]
        rintro ⟨hsome, hafter⟩
        rw [if_neg (afterRun_eq_false.mp hafter), Option.map_eq_none_iff] at h
        rw [List.drop_zero, h] at hsome
        cases hsome

/-! ## When all escapes are decoded -/

/-- Where the scan stops, nothing is decoded, and that is right when no escape is
left. -/
theorem decodes_stopped {s : Bytes} (h : doesHaveHexEscape s = none) :
    s = decodeHexEscapes false s ↔ EscapesLead s := by
  rw [eq_comm, decodeHexEscapes_eq_self]
  constructor
  · intro hall i j _ hj
    exact absurd hj (hall j)
  · intro hlead j hj
    rcases doesHaveHexEscape_none h with hno | ⟨i, hmark, hnot, hfirst⟩
    · exact hno j (markAt_of_escapeAt hj)
    · rcases Nat.lt_trichotomy j i with hlt | rfl | hgt
      · exact hfirst j hlt (markAt_of_escapeAt hj)
      · exact hnot hj
      · exact hnot (hlead i j hgt hj hmark)

/-- No digit is a backslash. -/
theorem convertHexSeq_ne {d1 d2 value : UInt8} (h : convertHexSeq d1 d2 = some value) :
    d1 ≠ 92 ∧ d2 ≠ 92 := by
  have hnone : CLib.hexDigit 92 = none := rfl
  constructor
  · rintro rfl
    cases h
  · rintro rfl
    rw [convertHexSeq, hnone] at h
    cases hd : CLib.hexDigit d1 with
    | none => simp [hd] at h
    | some v => simp [hd] at h

/-- In an escape no other `\x` stands. -/
theorem not_markAt_inside {d1 d2 : UInt8} {rest : Bytes} (h1 : d1 ≠ 92) (h2 : d2 ≠ 92) {k : Nat}
    (hk : k < 3) : ¬ MarkAt (92 :: 120 :: d1 :: d2 :: rest) (k + 1) := by
  rw [markAt_succ]
  rcases k with _ | _ | _ | k
  · rw [markAt_zero]
    exact fun h => absurd h.1 (by decide)
  · rw [markAt_succ, markAt_zero]
    exact fun h => h1 h.1
  · rw [markAt_succ, markAt_succ, markAt_zero]
    exact fun h => h2 h.1
  · omega

/-- Behind the first escape the others are the same. -/
theorem escapesLead_rest {before t rest : Bytes} {value : UInt8}
    (ht : hexEscapeAt t = some (value, rest)) (hlast : before.getLast? ≠ some 92)
    (hno : ∀ i < before.length, ¬ MarkAt (before ++ t) i) :
    EscapesLead (before ++ t) ↔ EscapesLead rest := by
  obtain ⟨d1, d2, rfl, hvalue⟩ := hexEscapeAt_eq_some ht
  obtain ⟨h1, h2⟩ := convertHexSeq_ne hvalue
  have hafter := afterRun_eq_false.mpr hlast
  have hend : afterRun false (before ++ [92, 120, d1, d2]) = false := by
    rw [afterRun_append, hafter]
    exact beq_false_of_ne h2
  have hfirst : EscapeAt false (before ++ 92 :: 120 :: d1 :: d2 :: rest) before.length := by
    rw [← Nat.add_zero before.length, escapeAt_append, hafter]
    refine ⟨?_, rfl⟩
    rw [List.drop_zero, ht]
    rfl
  have hsplit : before ++ 92 :: 120 :: d1 :: d2 :: rest =
      (before ++ [92, 120, d1, d2]) ++ rest := by
    rw [List.append_assoc]
    rfl
  have hlen : (before ++ [92, 120, d1, d2]).length = before.length + 4 := List.length_append
  -- up to the end of the escape it is the only one
  have honly : ∀ i < before.length + 4,
      MarkAt (before ++ 92 :: 120 :: d1 :: d2 :: rest) i → i = before.length := by
    intro i hi hmark
    rcases Nat.lt_trichotomy i before.length with hlt | heq | hgt
    · exact absurd hmark (hno i hlt)
    · exact heq
    · obtain ⟨k, rfl⟩ := Nat.exists_eq_add_of_lt hgt
      rw [Nat.add_assoc, markAt_append] at hmark
      exact absurd hmark (not_markAt_inside h1 h2 (by omega))
  constructor
  · intro hlead i j hij hj hmark
    rw [hsplit] at hlead
    have hshift := hlead ((before ++ [92, 120, d1, d2]).length + i)
      ((before ++ [92, 120, d1, d2]).length + j) (by omega)
    rw [escapeAt_append, escapeAt_append, markAt_append, hend] at hshift
    exact hshift hj hmark
  · intro hlead i j hij hj hmark
    by_cases hi : i < before.length + 4
    · rw [honly i hi hmark]
      exact hfirst
    · obtain ⟨i, rfl⟩ := Nat.exists_eq_add_of_le (Nat.not_lt.mp hi)
      obtain ⟨j, rfl⟩ := Nat.exists_eq_add_of_le (show before.length + 4 ≤ j by omega)
      rw [hsplit, ← hlen, escapeAt_append, hend] at hj ⊢
      rw [hsplit, ← hlen, markAt_append] at hmark
      exact hlead i j (by omega) hj hmark

/-- All escapes are decoded exactly when every `\x` in front of one is one. -/
theorem processAllHexEscapes_iff {n : Nat} {s : Bytes} (hn : s.length ≤ n) :
    processAllHexEscapes n s = decodeHexEscapes false s ↔ EscapesLead s := by
  induction n generalizing s with
  | zero =>
      obtain rfl := List.length_eq_zero_iff.mp (Nat.le_zero.mp hn)
      exact decodes_stopped rfl
  | succ n ih =>
      rw [processAllHexEscapes]
      cases hs : doesHaveHexEscape s with
      | none => exact decodes_stopped hs
      | some p =>
          obtain ⟨before, value, rest⟩ := p
          have hshort := length_of_doesHaveHexEscape hs
          obtain ⟨t, rfl, ht, hlast, hno⟩ := doesHaveHexEscape_some hs
          rw [escapesLead_rest ht hlast hno, ← ih (by omega), decodeHexEscapes_run hno,
            afterRun_eq_false.mpr hlast, decodeHexEscapes_escape ht]
          dsimp only
          rw [List.append_cancel_left_eq, List.cons_inj_right]

/-! ## Decoding what `swlib_expand_escapes` writes -/

/-- A file name without the characters that are escaped by a backslash. -/
structure PlainName where
  /-- The name. -/
  bytes : Bytes
  /-- None of these characters is in it. -/
  plain : ∀ c ∈ bytes, c ≠ 0 ∧ c ≠ 92 ∧ c ≠ 10 ∧ c ≠ 34 ∧ c ≠ 35

/-- What is written for one byte of it. -/
def expandByte (c : UInt8) : Bytes := if isHexWritten c then hexText c else [c]

theorem expandEscapesLoop_plain {s : Bytes} (h : ∀ c ∈ s, c ≠ 0 ∧ c ≠ 92 ∧ c ≠ 10 ∧ c ≠ 34 ∧ c ≠ 35)
    (out : Bytes) : expandEscapesLoop 0 out s = out ++ s.flatMap expandByte := by
  induction s generalizing out with
  | nil => rw [expandEscapesLoop, List.flatMap_nil, List.append_nil]
  | cons c s ih =>
      obtain ⟨⟨-, hback, -, hquote, hhash⟩, hrest⟩ := List.forall_mem_cons.mp h
      rw [expandEscapesLoop_char hback, if_neg (show ¬ (c = 35 ∨ c = 34) by tauto), ih hrest, ih hrest,
        List.flatMap_cons, expandByte]
      split
      next => rw [List.append_assoc]
      next => rw [List.append_assoc]

theorem hexDigit_hexDigit {n : Nat} (h : n < 16) : CLib.hexDigit (hexDigit n) = some n := by
  revert n
  decide

theorem convertHexSeq_hexText (c : UInt8) :
    convertHexSeq (hexDigit (c.toNat / 16)) (hexDigit (c.toNat % 16)) = some c := by
  have hbyte := c.toNat_lt
  have hlow := Nat.mod_lt c.toNat (show 16 > 0 by decide)
  rw [convertHexSeq, hexDigit_hexDigit (show c.toNat / 16 < 16 by omega), hexDigit_hexDigit hlow]
  dsimp only
  rw [Nat.div_add_mod, UInt8.ofNat_toNat]

theorem hexEscapeAt_hexText (c : UInt8) (t : Bytes) : hexEscapeAt (hexText c ++ t) = some (c, t) := by
  simp only [hexText, List.cons_append, List.nil_append, hexEscapeAt, convertHexSeq_hexText]
  rfl

/-- A byte is read back from what is written for it. -/
theorem decodeHexEscapes_expandByte {c : UInt8} (hc : c ≠ 92) (t : Bytes) :
    decodeHexEscapes false (expandByte c ++ t) = c :: decodeHexEscapes false t := by
  rw [expandByte]
  split
  next => exact decodeHexEscapes_escape (hexEscapeAt_hexText c t)
  next =>
    have hzero : ¬ EscapeAt false (c :: t) 0 := fun hesc =>
      hc (markAt_zero.mp (markAt_of_escapeAt hesc)).1
    rw [List.singleton_append, decodeHexEscapes_char hzero, beq_false_of_ne hc]

theorem decodeHexEscapes_flatMap {s : Bytes} (h : (92 : UInt8) ∉ s) :
    decodeHexEscapes false (s.flatMap expandByte) = s := by
  induction s with
  | nil => rw [List.flatMap_nil, decodeHexEscapes]
  | cons c s ih =>
      have hc : c ≠ 92 := fun he => h (he ▸ List.mem_cons_self)
      rw [List.flatMap_cons, decodeHexEscapes_expandByte hc,
        ih fun hm => h (List.mem_cons_of_mem _ hm)]

/-- The only `\x` in what is written for a byte is an escape at its front. -/
theorem expandByte_marks {c : UInt8} (hc : c ≠ 92) (t : Bytes) :
    afterRun false (expandByte c) = false ∧
      ∀ i < (expandByte c).length, MarkAt (expandByte c ++ t) i →
        EscapeAt false (expandByte c ++ t) i := by
  rw [expandByte]
  split
  next =>
    obtain ⟨h1, h2⟩ := convertHexSeq_ne (convertHexSeq_hexText c)
    refine ⟨beq_false_of_ne h2, fun i hi hmark => ?_⟩
    cases i with
    | zero =>
        refine ⟨?_, rfl⟩
        rw [List.drop_zero, hexEscapeAt_hexText]
        rfl
    | succ k => exact absurd hmark (not_markAt_inside h1 h2 (Nat.lt_of_succ_lt_succ hi))
  next =>
    refine ⟨beq_false_of_ne hc, fun i hi hmark => ?_⟩
    obtain rfl := Nat.lt_one_iff.mp hi
    exact absurd (markAt_zero.mp hmark).1 hc

theorem flatMap_marks {s : Bytes} (h : (92 : UInt8) ∉ s) {i : Nat}
    (hmark : MarkAt (s.flatMap expandByte) i) : EscapeAt false (s.flatMap expandByte) i := by
  induction s generalizing i with
  | nil =>
      rw [List.flatMap_nil, MarkAt, List.drop_nil] at hmark
      exact absurd hmark.length_le (by decide)
  | cons c s ih =>
      have hc : c ≠ 92 := fun he => h (he ▸ List.mem_cons_self)
      have hs : (92 : UInt8) ∉ s := fun hm => h (List.mem_cons_of_mem _ hm)
      obtain ⟨hafter, hfront⟩ := expandByte_marks hc (s.flatMap expandByte)
      rw [List.flatMap_cons] at hmark ⊢
      by_cases hi : i < (expandByte c).length
      · exact hfront i hi hmark
      · obtain ⟨i, rfl⟩ := Nat.exists_eq_add_of_le (Nat.not_lt.mp hi)
        rw [markAt_append] at hmark
        rw [escapeAt_append, hafter]
        exact ih hs hmark

theorem ne_zero_expandByte {c : UInt8} (hc : c ≠ 0) : ∀ b ∈ expandByte c, (b != 0) = true := by
  have hdigit : ∀ n, n < 16 → (hexDigit n != 0) = true := by decide
  have hbyte := c.toNat_lt
  have hlow := Nat.mod_lt c.toNat (show 16 > 0 by decide)
  rw [expandByte]
  split
  next =>
    exact List.forall_mem_cons.mpr ⟨rfl, List.forall_mem_cons.mpr ⟨rfl,
      List.forall_mem_cons.mpr ⟨hdigit _ (by omega), List.forall_mem_singleton.mpr (hdigit _ hlow)⟩⟩⟩
  next =>
    intro b hb
    rw [List.mem_singleton.mp hb]
    exact bne_iff_ne.mpr hc

/-- A file name comes back from what is written for it. -/
theorem PlainName.comesBack (name : PlainName) :
    swlibProcessHexEscapes (.ofMem (swlibExpandEscapes name.bytes)) = .ofMem name.bytes := by
  have hback : (92 : UInt8) ∉ name.bytes := fun hm => (name.plain 92 hm).2.1 rfl
  have htext : swlibExpandEscapes name.bytes = name.bytes.flatMap expandByte :=
    expandEscapesLoop_plain name.plain []
  have hmem : (CString.ofMem (swlibExpandEscapes name.bytes)).bytes =
      name.bytes.flatMap expandByte := by
    rw [htext]
    refine List.takeWhile_eq_self_iff.mpr fun b hb => ?_
    obtain ⟨c, hc, hb⟩ := List.mem_flatMap.mp hb
    exact ne_zero_expandByte (name.plain c hc).1 b hb
  have hlead : EscapesLead (name.bytes.flatMap expandByte) :=
    fun i _ _ _ hmark => flatMap_marks hback hmark
  rw [swlibProcessHexEscapes, CString.strlen, hmem,
    (processAllHexEscapes_iff (Nat.le_refl _)).mpr hlead, decodeHexEscapes_flatMap hback]

/-- All escapes of a string are decoded exactly when every `\x` in front of one is
one, and a plain file name comes back from what is written for it. -/
theorem decodesAll_iff (s : CString) :
    (processAllHexEscapes s.strlen s.bytes = decodeHexEscapes false s.bytes ↔
      EscapesLead s.bytes) ∧
    ∀ name : PlainName,
      swlibProcessHexEscapes (.ofMem (swlibExpandEscapes name.bytes)) = .ofMem name.bytes :=
  ⟨processAllHexEscapes_iff (Nat.le_refl _), PlainName.comesBack⟩

/-- `\xZZ\x41`: behind a malformed escape nothing is decoded. -/
theorem malformed_not_decoded :
    processAllHexEscapes 8 (chars ['\\', 'x', 'Z', 'Z', '\\', 'x', '4', '1']) ≠
      decodeHexEscapes false (chars ['\\', 'x', 'Z', 'Z', '\\', 'x', '4', '1']) := by
  rw [Ne, processAllHexEscapes_iff (Nat.le_refl 8)]
  intro hlead
  have hbehind : EscapeAt false (chars ['\\', 'x', 'Z', 'Z', '\\', 'x', '4', '1']) 4 :=
    ⟨rfl, by decide⟩
  have hfirst := (hlead 0 4 (by decide) hbehind ⟨_, rfl⟩).1
  cases hfirst

end Swbis.Misc
