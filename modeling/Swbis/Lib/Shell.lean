import Swbis.Lib.CString

/-!
# How a POSIX shell reads backslashes and assignments

Outside quotes a backslash quotes the character behind it, and both go on as
that character; a backslash in front of a newline goes, with the newline.  What
a backslash at the very end does is left open, so `removeBackslashes` gives
nothing there.  `exposed` are the characters that no backslash quotes: these
are the ones that act as special characters.

A text in which every special character stands behind `2 * k + 1` backslashes
is read as the same text with `k` backslashes each, and exposes none of them
(`removeBackslashes_guarded`).  Conversely, reading a text that exposes none
takes at least half of its backslashes and special characters away
(`count_removeBackslashes_le`).

A script of assignments is read by `assignments`, which gives nothing for a
script that does something else.  A text between double quotes is assigned as it
is if and only if it is `Literal` (`word_quoted`, `literal_of_word`).
-/

namespace CLib

/-- `'\\'` -/
def backslash : UInt8 := 92

/-- `'\n'` -/
def newline : UInt8 := 10

/-- Backslash removal outside quotes. -/
def removeBackslashes : Bytes → Option Bytes
  | [] => some []
  | c :: s =>
      if c = backslash then
        match s with
        | [] => none
        | d :: s =>
            if d = newline then removeBackslashes s
            else (removeBackslashes s).map fun t => d :: t
      else (removeBackslashes s).map fun t => c :: t

/-- The characters that are not quoted by a backslash. -/
def exposed : Bytes → Bytes
  | [] => []
  | c :: s =>
      if c = backslash then
        match s with
        | [] => []
        | _ :: s => exposed s
      else c :: exposed s

section

variable {special : UInt8 → Bool}

/-- Every special character behind `k` backslashes. -/
def guarded (special : UInt8 → Bool) (k : Nat) (s : Bytes) : Bytes :=
  s.flatMap fun c => if special c then List.replicate k backslash ++ [c] else [c]

@[simp] theorem guarded_zero (s : Bytes) : guarded special 0 s = s := by
  induction s with
  | nil => rfl
  | cons c s ih =>
      rw [guarded] at ih ⊢
      rw [List.flatMap_cons, ih]
      cases special c with
      | true => rfl
      | false => rfl

theorem count_guarded (hback : special backslash = false) (k : Nat) (s : Bytes) :
    (guarded special k s).count backslash = s.count backslash + k * s.countP special ∧
      (guarded special k s).countP special = s.countP special := by
  induction s with
  | nil => exact ⟨rfl, rfl⟩
  | cons c s ih =>
      obtain ⟨hcount, hspecial⟩ := ih
      rw [guarded] at hcount hspecial ⊢
      rw [List.flatMap_cons]
      cases hc : special c with
      | true =>
          have hne : c ≠ backslash := by
            rintro rfl
            rw [hback] at hc
            cases hc
          have hrun : (List.replicate k backslash).countP special = 0 :=
            List.countP_eq_zero.mpr fun d hd => by simp [(List.mem_replicate.mp hd).2, hback]
          rw [if_pos rfl, List.count_append, List.count_append, List.countP_append,
            List.countP_append, hcount, hspecial, hrun, List.count_replicate_self,
            List.countP_cons_of_pos hc, List.count_cons_of_ne hne]
          simp only [List.countP_cons, hc, List.countP_nil, List.count_cons_of_ne hne, List.count_nil,
            if_true, Nat.mul_add]
          omega
      | false =>
          rw [if_neg Bool.false_ne_true, List.count_append, List.countP_append, hcount, hspecial,
            List.countP_cons_of_neg (by simp [hc]), List.count_cons, List.count_cons]
          simp only [List.countP_cons, hc, List.countP_nil, List.count_nil, Bool.false_eq_true, if_false]
          omega

theorem removeBackslashes_cons {c : UInt8} (hc : c ≠ backslash) (s : Bytes) :
    removeBackslashes (c :: s) = (removeBackslashes s).map fun t => c :: t := by
  rw [removeBackslashes.eq_def]
  exact if_neg hc

theorem removeBackslashes_pair {c : UInt8} (hc : c ≠ newline) (s : Bytes) :
    removeBackslashes (backslash :: c :: s) = (removeBackslashes s).map fun t => c :: t := by
  rw [removeBackslashes.eq_def]
  exact (if_pos rfl).trans (if_neg hc)

theorem exposed_cons {c : UInt8} (hc : c ≠ backslash) (s : Bytes) :
    exposed (c :: s) = c :: exposed s := by
  rw [exposed.eq_def]
  exact if_neg hc

theorem exposed_pair (c : UInt8) (s : Bytes) : exposed (backslash :: c :: s) = exposed s := by
  rw [exposed.eq_def]
  exact if_pos rfl

/-- A run of an odd number of backslashes quotes the character behind it. -/
theorem removeBackslashes_run {c : UInt8} (hc : c ≠ newline) (k : Nat) (s : Bytes) :
    removeBackslashes (List.replicate (2 * k + 1) backslash ++ c :: s) =
      (removeBackslashes s).map fun t => List.replicate k backslash ++ c :: t := by
  induction k with
  | zero => exact removeBackslashes_pair hc s
  | succ k ih =>
      have hpair : List.replicate (2 * (k + 1) + 1) backslash =
          backslash :: backslash :: List.replicate (2 * k + 1) backslash := rfl
      rw [hpair, List.cons_append, List.cons_append, removeBackslashes_pair (by decide), ih,
        Option.map_map]
      rfl

theorem exposed_run (c : UInt8) (k : Nat) (s : Bytes) :
    exposed (List.replicate (2 * k + 1) backslash ++ c :: s) = exposed s := by
  induction k with
  | zero => exact exposed_pair c s
  | succ k ih =>
      have hpair : List.replicate (2 * (k + 1) + 1) backslash =
          backslash :: backslash :: List.replicate (2 * k + 1) backslash := rfl
      rw [hpair, List.cons_append, List.cons_append, exposed_pair, ih]

/-- One level takes `k + 1` backslashes of `2 * k + 1` away, and exposes no special character. -/
theorem removeBackslashes_guarded (hnew : special newline = false) {s : Bytes}
    (hs : backslash ∉ s) (k : Nat) :
    removeBackslashes (guarded special (2 * k + 1) s) = some (guarded special k s) ∧
      ∀ c ∈ exposed (guarded special (2 * k + 1) s), special c = false := by
  induction s with
  | nil => exact ⟨rfl, by simp [guarded, exposed]⟩
  | cons c s ih =>
      rw [List.mem_cons, not_or] at hs
      obtain ⟨hread, hexposed⟩ := ih hs.2
      rw [guarded] at hread hexposed ⊢
      rw [List.flatMap_cons]
      cases hc : special c with
      | true =>
          have hne : c ≠ newline := by
            rintro rfl
            rw [hnew] at hc
            cases hc
          rw [if_pos rfl, List.append_assoc, List.singleton_append, removeBackslashes_run hne, hread,
            exposed_run]
          refine ⟨?_, hexposed⟩
          simp [guarded, hc]
      | false =>
          rw [if_neg Bool.false_ne_true, List.singleton_append, removeBackslashes_cons (Ne.symm hs.1),
            hread, exposed_cons (Ne.symm hs.1)]
          refine ⟨by simp [guarded, hc], fun d hd => ?_⟩
          rcases List.mem_cons.mp hd with rfl | hd
          · exact hc
          · exact hexposed d hd

/-- Reading a text that exposes no special character takes half of what it has away. -/
theorem count_removeBackslashes_le (hback : special backslash = false) {s t : Bytes}
    (h : removeBackslashes s = some t) (hs : ∀ c ∈ exposed s, special c = false) :
    2 * (t.count backslash + t.countP special) ≤ s.count backslash + s.countP special := by
  fun_induction removeBackslashes s generalizing t with
  | case1 =>
      cases h
      simp
  | case2 => cases h
  | case3 s ih =>
      rw [exposed_pair] at hs
      have hle := ih h hs
      simp only [List.count_cons, List.countP_cons]
      omega
  | case4 d s hd ih =>
      obtain ⟨t', ht', rfl⟩ := Option.map_eq_some_iff.mp h
      rw [exposed_pair] at hs
      have hle := ih ht' hs
      by_cases hb : d = backslash
      · subst hb
        simp only [List.count_cons_self, List.countP_cons, hback, Bool.false_eq_true, if_false]
        omega
      · rw [List.count_cons_self, List.count_cons_of_ne hb, List.count_cons_of_ne hb]
        cases hd' : special d with
        | true =>
            simp only [List.countP_cons, hback, hd', Bool.false_eq_true, if_false, if_true]
            omega
        | false =>
            simp only [List.countP_cons, hback, hd', Bool.false_eq_true, if_false]
            omega
  | case5 c s hc ih =>
      obtain ⟨t', ht', rfl⟩ := Option.map_eq_some_iff.mp h
      rw [exposed_cons hc] at hs
      have hle := ih ht' fun d hd => hs d (List.mem_cons_of_mem _ hd)
      rw [List.count_cons_of_ne hc, List.count_cons_of_ne hc,
        List.countP_cons_of_neg (by simp [hs c List.mem_cons_self]),
        List.countP_cons_of_neg (by simp [hs c List.mem_cons_self])]
      exact hle

end

/-! ## Assignments -/

/-- `'"'` -/
def doubleQuote : UInt8 := 34

/-- Between double quotes a backslash quotes these, and the newline. -/
def quotedSpecial (c : UInt8) : Bool :=
  c == doubleQuote || c == backslash || c == 36 || c == 96

/-- Bytes that stand for themselves outside quotes. -/
def isPlainByte (c : UInt8) : Bool :=
  decide (48 ≤ c) && decide (c ≤ 57) || decide (65 ≤ c) && decide (c ≤ 90) ||
    decide (97 ≤ c) && decide (c ≤ 122) || c == 95 || c == 46 || c == 47 || c == 45

/-- The rest of a word, from inside double quotes or outside: its value, and what follows the
newline at its end.  Nothing is said about a word with an expansion, about one that another word or
an operator follows, and about one that does not end. -/
def word : Bool → Bytes → Option (Bytes × Bytes)
  | _, [] => none
  | quoted, c :: s =>
      if c = doubleQuote then word (!quoted) s
      else if c = backslash then
        match s with
        | [] => none
        | d :: s =>
            if d = newline then word quoted s
            else if quoted = true ∧ quotedSpecial d = false then
              (word quoted s).map fun p => (c :: d :: p.1, p.2)
            else (word quoted s).map fun p => (d :: p.1, p.2)
      else if quoted then
        if quotedSpecial c then none else (word quoted s).map fun p => (c :: p.1, p.2)
      else if c = newline then some ([], s)
      else if isPlainByte c then (word quoted s).map fun p => (c :: p.1, p.2)
      else none

/-- A letter or an underscore, or a digit. -/
def isNameByte (c : UInt8) : Bool :=
  decide (48 ≤ c) && decide (c ≤ 57) || decide (65 ≤ c) && decide (c ≤ 90) ||
    decide (97 ≤ c) && decide (c ≤ 122) || c == 95

/-- A name: it does not start with a digit. -/
def isName (s : Bytes) : Bool :=
  s.all isNameByte && s.head?.any fun c => !(decide (48 ≤ c) && decide (c ≤ 57))

/-- One assignment: the name, the value, and what follows. -/
def assignment (s : Bytes) : Option (Bytes × Bytes × Bytes) :=
  let name := s.takeWhile isNameByte
  if isName name then
    match s.drop name.length with
    | [] => none
    | c :: s => if c = 61 then (word false s).map fun p => (name, p) else none
  else none

/-- So many assignments and nothing else. -/
def assignmentsUpTo : Nat → Bytes → Option (List (Bytes × Bytes))
  | 0, s => if s = [] then some [] else none
  | n + 1, s =>
      if s = [] then some []
      else
        match assignment s with
        | none => none
        | some (name, value, s) => (assignmentsUpTo n s).map fun l => (name, value) :: l

/-- The assignments of a script that does nothing else. -/
def assignments (s : Bytes) : Option (List (Bytes × Bytes)) := assignmentsUpTo s.length s

/-- Every backslash stands in front of a byte that it does not quote between double quotes. -/
def Literal : Bytes → Prop
  | [] => True
  | c :: s => (c = backslash → ∃ d ∈ s.head?, quotedSpecial d = false ∧ d ≠ newline) ∧ Literal s

theorem literal_of_not_mem {s : Bytes} (h : backslash ∉ s) : Literal s := by
  induction s with
  | nil => trivial
  | cons c s ih =>
      rw [List.mem_cons, not_or] at h
      exact ⟨fun hc => absurd hc.symm h.1, ih h.2⟩

theorem word_doubleQuote (quoted : Bool) (s : Bytes) :
    word quoted (doubleQuote :: s) = word (!quoted) s := by
  rw [word.eq_def]
  exact if_pos rfl

theorem word_newline (s : Bytes) : word false (newline :: s) = some ([], s) := by
  rw [word.eq_def]
  rfl

theorem ne_of_quotedSpecial {c : UInt8} (h : quotedSpecial c = false) :
    c ≠ doubleQuote ∧ c ≠ backslash := by
  rw [quotedSpecial] at h
  simp only [Bool.or_eq_false_iff, beq_eq_false_iff_ne] at h
  exact h.1.1

theorem word_plain {c : UInt8} (h : quotedSpecial c = false) (s : Bytes) :
    word true (c :: s) = (word true s).map fun p => (c :: p.1, p.2) := by
  obtain ⟨hquote, hback⟩ := ne_of_quotedSpecial h
  rw [word.eq_def]
  simp only [hquote, hback, h, if_true, if_false, Bool.false_eq_true]

theorem word_backslash {d : UInt8} (hnew : d ≠ newline) (s : Bytes) :
    word true (backslash :: d :: s) = (word true s).map fun p =>
      (if quotedSpecial d then d :: p.1 else backslash :: d :: p.1, p.2) := by
  have hquote : ¬backslash = doubleQuote := by decide
  rw [word.eq_def]
  simp only [hquote, hnew, if_true, if_false, true_and]
  cases quotedSpecial d with
  | true => rfl
  | false => rfl

theorem word_expansion {c : UInt8} (hquote : c ≠ doubleQuote) (hback : c ≠ backslash)
    (h : quotedSpecial c = true) (s : Bytes) : word true (c :: s) = none := by
  rw [word.eq_def]
  simp only [hquote, hback, h, if_true, if_false]

theorem word_backslash_newline (s : Bytes) : word true (backslash :: newline :: s) = word true s := by
  rw [word.eq_def]
  rfl

/-- A literal text between double quotes is read as it is. -/
theorem word_quoted {s : Bytes} (hs : ∀ c ∈ s, c ≠ backslash → quotedSpecial c = false)
    (hliteral : Literal s) (rest : Bytes) :
    word true (s ++ doubleQuote :: newline :: rest) = some (s, rest) := by
  induction hn : s.length using Nat.strongRecOn generalizing s with
  | ind n ih =>
      cases s with
      | nil =>
          rw [List.nil_append, word_doubleQuote, Bool.not_true, word_newline]
      | cons c s =>
          obtain ⟨hfirst, hrest⟩ := hliteral
          rw [List.length_cons] at hn
          have htail : ∀ d ∈ s, d ≠ backslash → quotedSpecial d = false :=
            fun d hd => hs d (List.mem_cons_of_mem _ hd)
          by_cases hc : c = backslash
          · obtain ⟨d, hd, hspecial, hnew⟩ := hfirst hc
            cases s with
            | nil => cases hd
            | cons e s =>
                obtain rfl : e = d := Option.some.inj hd
                have hread := ih s.length (by rw [List.length_cons] at hn; omega)
                  (fun d hd => htail d (List.mem_cons_of_mem _ hd)) hrest.2 rfl
                rw [hc, List.cons_append, List.cons_append, word_backslash hnew, hread, hspecial]
                rfl
          · have hread := ih s.length (by omega) htail hrest rfl
            rw [List.cons_append, word_plain (hs c List.mem_cons_self hc), hread]
            rfl

/-- A text that comes out at its full length, without a quote in it, is literal. -/
theorem literal_of_word {s t rest rest' : Bytes} (hs : doubleQuote ∉ s)
    (h : word true (s ++ doubleQuote :: newline :: rest) = some (t, rest'))
    (ht : doubleQuote ∉ t) :
    rest' = rest ∧ t.length ≤ s.length ∧ (t.length = s.length → Literal s) := by
  induction hn : s.length using Nat.strongRecOn generalizing s t with
  | ind n ih =>
      cases s with
      | nil =>
          rw [List.nil_append, word_doubleQuote, Bool.not_true, word_newline] at h
          cases h
          exact ⟨rfl, Nat.zero_le _, fun _ => trivial⟩
      | cons c s =>
          rw [List.length_cons] at hn
          rw [List.mem_cons, not_or] at hs
          by_cases hc : c = backslash
          · subst hc
            cases s with
            | nil =>
                rw [List.singleton_append, word_backslash (by decide)] at h
                obtain ⟨p, -, hp⟩ := Option.map_eq_some_iff.mp h
                rw [if_pos (by decide)] at hp
                cases hp
                exact absurd List.mem_cons_self ht
            | cons d s =>
                rw [List.length_cons] at hn
                have hs' : doubleQuote ∉ s := fun hmem => hs.2 (List.mem_cons_of_mem _ hmem)
                rw [List.cons_append, List.cons_append] at h
                by_cases hnew : d = newline
                · rw [hnew, word_backslash_newline] at h
                  obtain ⟨hrest, hle, -⟩ := ih s.length (by omega) hs' h ht rfl
                  exact ⟨hrest, by omega, fun _ => by omega⟩
                · rw [word_backslash hnew] at h
                  obtain ⟨p, hp, hpair⟩ := Option.map_eq_some_iff.mp h
                  cases hspecial : quotedSpecial d with
                  | true =>
                      rw [hspecial, if_pos rfl] at hpair
                      cases hpair
                      have hpt : doubleQuote ∉ p.1 := fun hmem => ht (List.mem_cons_of_mem _ hmem)
                      obtain ⟨hrest, hle, -⟩ := ih s.length (by omega) hs' hp hpt rfl
                      rw [List.length_cons]
                      exact ⟨hrest, by omega, fun _ => by omega⟩
                  | false =>
                      rw [hspecial, if_neg Bool.false_ne_true] at hpair
                      cases hpair
                      have hpt : doubleQuote ∉ p.1 :=
                        fun hmem => ht (List.mem_cons_of_mem _ (List.mem_cons_of_mem _ hmem))
                      obtain ⟨hrest, hle, hliteral⟩ := ih s.length (by omega) hs' hp hpt rfl
                      rw [List.length_cons, List.length_cons]
                      refine ⟨hrest, by omega, fun hlen => ?_⟩
                      have hback : d ≠ backslash := (ne_of_quotedSpecial hspecial).2
                      exact ⟨fun _ => ⟨d, rfl, hspecial, hnew⟩, fun hd => absurd hd hback,
                        hliteral (by omega)⟩
          · cases hspecial : quotedSpecial c with
            | true =>
                rw [List.cons_append, word_expansion (Ne.symm hs.1) hc hspecial] at h
                cases h
            | false =>
                rw [List.cons_append, word_plain hspecial] at h
                obtain ⟨p, hp, hpair⟩ := Option.map_eq_some_iff.mp h
                cases hpair
                have hpt : doubleQuote ∉ p.1 := fun hmem => ht (List.mem_cons_of_mem _ hmem)
                obtain ⟨hrest, hle, hliteral⟩ := ih s.length (by omega) hs.2 hp hpt rfl
                rw [List.length_cons]
                exact ⟨hrest, by omega, fun hlen => ⟨fun h => absurd h hc, hliteral (by omega)⟩⟩

/-- `NAME="value"` -/
def assignLine (p : Bytes × Bytes) : Bytes :=
  p.1 ++ 61 :: doubleQuote :: (p.2 ++ [doubleQuote, newline])

theorem assignment_quoted {name : Bytes} (hname : isName name = true) (s : Bytes) :
    assignment (name ++ 61 :: doubleQuote :: s) = (word true s).map fun p => (name, p) := by
  have hbytes : ∀ c ∈ name, isNameByte c = true := by
    rw [isName, Bool.and_eq_true, List.all_eq_true] at hname
    exact hname.1
  rw [assignment, takeWhile_append_stop hbytes (by decide), if_pos hname, List.drop_left]
  dsimp only
  rw [if_pos rfl, word_doubleQuote]
  rfl

theorem doubleQuote_not_mem {s : Bytes} (h : ∀ c ∈ s, c ≠ backslash → quotedSpecial c = false) :
    doubleQuote ∉ s := by
  intro hmem
  exact absurd (h doubleQuote hmem (by decide)) (by decide)

/-- The first line of a script of quoted assignments. -/
theorem assignmentsUpTo_cons {n : Nat} {p : Bytes × Bytes} (hname : isName p.1 = true)
    (hvalue : ∀ c ∈ p.2, c ≠ backslash → quotedSpecial c = false) (rest : Bytes)
    (l : List (Bytes × Bytes)) :
    assignmentsUpTo (n + 1) (assignLine p ++ rest) = some (p :: l) ↔
      Literal p.2 ∧ assignmentsUpTo n rest = some l := by
  have hline : assignLine p ++ rest =
      p.1 ++ 61 :: doubleQuote :: (p.2 ++ doubleQuote :: newline :: rest) := by
    simp [assignLine]
  have hne : assignLine p ++ rest ≠ [] := by
    rw [hline]
    simp
  rw [assignmentsUpTo, if_neg hne, hline, assignment_quoted hname]
  constructor
  · intro h
    cases hword : word true (p.2 ++ doubleQuote :: newline :: rest) with
    | none =>
        rw [hword] at h
        cases h
    | some q =>
        rw [hword] at h
        obtain ⟨l', hl', hcons⟩ := Option.map_eq_some_iff.mp h
        injection hcons with hpair hrest
        have hquote := doubleQuote_not_mem hvalue
        have htext : q.1 = p.2 := congrArg Prod.snd hpair
        obtain ⟨hq, -, hliteral⟩ := literal_of_word hquote hword (htext ▸ hquote)
        rw [← hq, ← hrest]
        exact ⟨hliteral (by rw [htext]), hl'⟩
  · rintro ⟨hliteral, hrest⟩
    rw [word_quoted hvalue hliteral]
    dsimp only [Option.map_some]
    rw [hrest]
    rfl

/-- A script of quoted assignments assigns what stands between the quotes if and only if all of
that is literal. -/
theorem assignments_lines {l : List (Bytes × Bytes)} (hname : ∀ p ∈ l, isName p.1 = true)
    (hvalue : ∀ p ∈ l, ∀ c ∈ p.2, c ≠ backslash → quotedSpecial c = false) :
    assignments (l.flatMap assignLine) = some l ↔ ∀ p ∈ l, Literal p.2 := by
  have hrun : ∀ n, l.length ≤ n →
      (assignmentsUpTo n (l.flatMap assignLine) = some l ↔ ∀ p ∈ l, Literal p.2) := by
    induction l with
    | nil =>
        intro n _
        refine iff_of_true ?_ (by simp)
        cases n with
        | zero => rfl
        | succ n => rfl
    | cons p l ih =>
        intro n hn
        obtain ⟨n, rfl⟩ := Nat.exists_eq_succ_of_ne_zero (Nat.ne_of_gt (Nat.lt_of_lt_of_le
          (Nat.zero_lt_succ _) hn))
        rw [List.flatMap_cons, assignmentsUpTo_cons (hname p List.mem_cons_self)
          (hvalue p List.mem_cons_self), List.forall_mem_cons]
        exact and_congr_right fun _ => ih (fun q hq => hname q (List.mem_cons_of_mem _ hq))
          (fun q hq => hvalue q (List.mem_cons_of_mem _ hq)) n (Nat.le_of_succ_le_succ hn)
  refine hrun _ ?_
  clear hname hvalue hrun
  induction l with
  | nil => exact Nat.le_refl _
  | cons p l ih =>
      rw [List.flatMap_cons, List.length_append, assignLine, List.length_append, List.length_cons,
        List.length_cons, List.length_cons]
      omega

end CLib
