import Mathlib.Data.List.Basic
import Swbis.Lib.CString

/-!
# The input of the lexer

`swlex_input` gives the scanner the bytes of one read of the metadata.  It takes
off a carriage return in front of a newline, and replaces octets that UTF-8 does
not have, or fails because of them.

The two bytes of a line end need not come with the same read.  A carriage return
at the end of a read stays, whatever the next read begins with.  `CutsCrlf` says
that a stream is cut there.
-/

namespace Swbis.SwParse

open CLib

/-! ## The code -/

/-- `SWLEX_INPUT_UTF_FATAL` -/
def swlexInputUtfFatal : Int := 0

/-- `SWLEX_INPUT_UTF_TR` -/
def swlexInputUtfTr : Int := 1

/-- `SWLEX_INPUT_UTF_ALLOW` -/
def swlexInputUtfAllow : Int := 2

/-- The rough range check for octets that are not valid UTF-8. -/
def nonUtf8 (c : UInt8) : Bool := 245 ≤ c || c == 192 || c == 193 || c == 0

/-- `'\r'` -/
def cr : UInt8 := 13

/-- `'\n'` -/
def nl : UInt8 := 10

/-- What the loop leaves of a buffer. -/
structure SwlexBuf where
  bytes : Bytes
  /-- How many newlines it has counted. -/
  lines : Nat
  /-- It has met an octet that is fatal. -/
  fatal : Bool

/-- The loop steps over a byte. -/
def SwlexBuf.cons (c : UInt8) (b : SwlexBuf) : SwlexBuf :=
  ⟨c :: b.bytes, if c = nl then b.lines + 1 else b.lines, b.fatal⟩

/-- The loop of `swlex_input` over a buffer, for a value of `utf8_enforce`. -/
def swlexScan (utf8Enforce : Int) : Bytes → SwlexBuf
  | [] => ⟨[], 0, false⟩
  | c :: rest =>
      if utf8Enforce ≠ swlexInputUtfAllow ∧ nonUtf8 c then
        if utf8Enforce = swlexInputUtfFatal then ⟨[], 0, true⟩
        else (swlexScan utf8Enforce rest).cons 126
      -- the newline is moved to the place of the carriage return
      else if c = cr ∧ rest.head? = some nl then swlexScan utf8Enforce rest
      else (swlexScan utf8Enforce rest).cons c

/-- The variables of the lexer that `swlex_input` uses. -/
structure SwlexState where
  psfiFirstRead : Bool
  linenumber : Nat
  errorcode : Int

/-- A call of `swlex_input`: what it returns, what it leaves in the buffer, and
the reads that are left. -/
structure SwlexCall where
  r : Int
  buf : Bytes
  reads : List Bytes
  st : SwlexState

/-- `swlex_input`.  `psfIncl` says that the definition file is `SW_PSF_INCL`, and
`reads` is what `uxfio_sfread` returns from now on, until the end of the file. -/
def swlexInput (utf8Enforce : Int) (psfIncl : Bool) (st : SwlexState) (reads : List Bytes) :
    SwlexCall :=
  if st.psfiFirstRead ∧ psfIncl then
    ⟨5, chars ['f', 'i', 'l', 'e', '\n'], reads, { st with psfiFirstRead := false }⟩
  else
    match reads with
    | [] => ⟨0, [], [], st⟩
    | read :: reads =>
        let b := swlexScan utf8Enforce read
        if b.fatal then
          ⟨-1, [], reads, { st with linenumber := st.linenumber + b.lines, errorcode := 1 }⟩
        else
          ⟨b.bytes.length, b.bytes, reads, { st with linenumber := st.linenumber + b.lines }⟩

/-- The bytes that `n` calls hand to the scanner. -/
def swlexCalls (utf8Enforce : Int) (psfIncl : Bool) : Nat → SwlexState → List Bytes → Bytes
  | 0, _, _ => []
  | n + 1, st, reads =>
      let call := swlexInput utf8Enforce psfIncl st reads
      call.buf ++ swlexCalls utf8Enforce psfIncl n call.st call.reads

/-- The bytes that are handed to the scanner until the end of the file: one call
for each read, and one that does not read. -/
def handed (utf8Enforce : Int) (psfIncl : Bool) (st : SwlexState) (reads : List Bytes) : Bytes :=
  swlexCalls utf8Enforce psfIncl (reads.length + 1) st reads

/-! ## One read -/

section

variable {u : Int} {s t : Bytes}

/-- An octet that the check has to do with. -/
abbrev Checked (u : Int) (c : UInt8) : Prop := u ≠ swlexInputUtfAllow ∧ nonUtf8 c = true

/-- An octet that makes the call fail. -/
def Fatal (u : Int) (s : Bytes) : Prop := u = swlexInputUtfFatal ∧ ∃ c ∈ s, nonUtf8 c = true

theorem not_nonUtf8_cr : ¬nonUtf8 cr = true := by decide

/-- A buffer with an octet that is replaced. -/
theorem swlexScan_checked (hu : u ≠ swlexInputUtfFatal) {c : UInt8} (hc : Checked u c) (s : Bytes) :
    swlexScan u (c :: s) = (swlexScan u s).cons 126 := by
  rw [swlexScan, if_pos hc, if_neg hu]

/-- A carriage return in front of a newline. -/
theorem swlexScan_crlf (hs : s.head? = some nl) : swlexScan u (cr :: s) = swlexScan u s := by
  rw [swlexScan, if_neg fun h => not_nonUtf8_cr h.2, if_pos ⟨rfl, hs⟩]

/-- Any other byte. -/
theorem swlexScan_plain {c : UInt8} (hc : ¬Checked u c) (hs : ¬(c = cr ∧ s.head? = some nl)) :
    swlexScan u (c :: s) = (swlexScan u s).cons c := by
  rw [swlexScan, if_neg hc, if_neg hs]

theorem fatal_cons (c : UInt8) (s : Bytes) :
    Fatal u (c :: s) ↔ u = swlexInputUtfFatal ∧ nonUtf8 c = true ∨ Fatal u s := by
  simp only [Fatal, List.mem_cons, exists_eq_or_imp, and_or_left]

theorem fatal_iff (u : Int) (s : Bytes) : (swlexScan u s).fatal = true ↔ Fatal u s := by
  induction s with
  | nil => exact iff_of_false Bool.false_ne_true fun h => by simp [Fatal] at h
  | cons c s ih =>
      rw [fatal_cons]
      by_cases hc : Checked u c
      · by_cases hu : u = swlexInputUtfFatal
        · rw [swlexScan, if_pos hc, if_pos hu]
          exact iff_of_true rfl (.inl ⟨hu, hc.2⟩)
        · rw [swlexScan_checked hu hc]
          exact ih.trans (or_iff_right fun h => hu h.1).symm
      · have hnot : ¬(u = swlexInputUtfFatal ∧ nonUtf8 c = true) := by
          rintro ⟨rfl, hn⟩
          exact hc ⟨by decide, hn⟩
        rw [or_iff_right hnot]
        by_cases hs : c = cr ∧ s.head? = some nl
        · obtain ⟨rfl, hs⟩ := hs
          rw [swlexScan_crlf hs]
          exact ih
        · rw [swlexScan_plain hc hs]
          exact ih

/-- Two buffers between which no line end is cut. -/
theorem swlexScan_append (hs : ¬Fatal u s) (h : ¬(s.getLast? = some cr ∧ t.head? = some nl)) :
    (swlexScan u (s ++ t)).bytes = (swlexScan u s).bytes ++ (swlexScan u t).bytes := by
  induction s with
  | nil => rfl
  | cons c s ih =>
      have hs' : ¬Fatal u s := fun hf => hs ((fatal_cons c s).mpr (.inr hf))
      have hrest : ¬(s.getLast? = some cr ∧ t.head? = some nl) := by
        rintro ⟨hlast, hhead⟩
        obtain ⟨init, rfl⟩ := List.getLast?_eq_some_iff.mp hlast
        exact h ⟨by rw [← List.cons_append, List.getLast?_concat], hhead⟩
      rw [List.cons_append]
      by_cases hc : Checked u c
      · have hu : u ≠ swlexInputUtfFatal := fun hu => hs ((fatal_cons c s).mpr (.inl ⟨hu, hc.2⟩))
        rw [swlexScan_checked hu hc, swlexScan_checked hu hc]
        exact congrArg (126 :: ·) (ih hs' hrest)
      · cases s with
        | nil =>
            have hends : ¬(c = cr ∧ t.head? = some nl) := fun hn => h ⟨by rw [hn.1]; rfl, hn.2⟩
            have hlone : ¬(c = cr ∧ ([] : Bytes).head? = some nl) := fun hn => nomatch hn.2
            rw [List.nil_append, swlexScan_plain hc hends, swlexScan_plain hc hlone]
            rfl
        | cons d s =>
            by_cases hd : c = cr ∧ d = nl
            · obtain ⟨rfl, rfl⟩ := hd
              rw [swlexScan_crlf rfl, swlexScan_crlf rfl]
              exact ih hs' hrest
            · have hplain : ∀ r : Bytes, ¬(c = cr ∧ (d :: r).head? = some nl) := fun r hn =>
                hd ⟨hn.1, Option.some.inj hn.2⟩
              rw [List.cons_append, swlexScan_plain hc (hplain _), swlexScan_plain hc (hplain _)]
              exact congrArg (c :: ·) (ih hs' hrest)

/-- Between the two bytes of a line end. -/
theorem swlexScan_cut (hs : ¬Fatal u s) (hlast : s.getLast? = some cr) (hhead : t.head? = some nl) :
    (swlexScan u (s ++ t)).bytes.length + 1 =
      (swlexScan u s).bytes.length + (swlexScan u t).bytes.length := by
  obtain ⟨init, rfl⟩ := List.getLast?_eq_some_iff.mp hlast
  have hinit : ¬Fatal u init := by
    rintro ⟨hu, c, hc, hn⟩
    exact hs ⟨hu, c, List.mem_append_left _ hc, hn⟩
  have hplain : ¬Checked u cr := fun h => not_nonUtf8_cr h.2
  have hne : cr ≠ nl := by decide
  have hone : ∀ r : Bytes, ¬(init.getLast? = some cr ∧ (cr :: r).head? = some nl) := fun r hn =>
    hne (Option.some.inj hn.2)
  have hlone : ¬(cr = cr ∧ ([] : Bytes).head? = some nl) := fun hn => nomatch hn.2
  rw [List.append_assoc, List.singleton_append, swlexScan_append hinit (hone t),
    swlexScan_append hinit (hone []), swlexScan_crlf hhead,
    swlexScan_plain hplain hlone]
  simp only [List.length_append, SwlexBuf.cons, List.length_cons]
  have hnil : (swlexScan u []).bytes.length = 0 := rfl
  omega

end

/-! ## All of the reads -/

/-- The bytes that are handed over of one read. -/
def handedOf (u : Int) (read : Bytes) : Bytes :=
  if (swlexScan u read).fatal then [] else (swlexScan u read).bytes

section

variable {u : Int} {psfIncl : Bool} {st : SwlexState} {reads : List Bytes}

/-- What is handed over before the first read. -/
def handedBefore (psfIncl : Bool) (st : SwlexState) : Bytes :=
  if st.psfiFirstRead ∧ psfIncl then chars ['f', 'i', 'l', 'e', '\n'] else []

/-- A call that reads. -/
theorem swlexCalls_cons (h : ¬(st.psfiFirstRead = true ∧ psfIncl = true)) (n : Nat) (read : Bytes)
    (reads : List Bytes) :
    ∃ st', ¬(st'.psfiFirstRead = true ∧ psfIncl = true) ∧
      swlexCalls u psfIncl (n + 1) st (read :: reads) =
        handedOf u read ++ swlexCalls u psfIncl n st' reads := by
  rw [swlexCalls, swlexInput, if_neg h, handedOf]
  dsimp only
  split
  next =>
    exact ⟨{ st with
      linenumber := st.linenumber + (swlexScan u read).lines
      errorcode := 1 }, h, rfl⟩
  next => exact ⟨{ st with linenumber := st.linenumber + (swlexScan u read).lines }, h, rfl⟩

/-- After the first call there is one for each read. -/
theorem swlexCalls_eq (h : ¬(st.psfiFirstRead = true ∧ psfIncl = true)) {n : Nat}
    (hn : reads.length ≤ n) : swlexCalls u psfIncl n st reads = reads.flatMap (handedOf u) := by
  induction reads generalizing n st with
  | nil =>
      induction n with
      | zero => rfl
      | succ n ih =>
          rw [swlexCalls, swlexInput, if_neg h]
          exact ih (Nat.zero_le n)
  | cons read reads ih =>
      obtain ⟨m, rfl⟩ : ∃ m, n = m + 1 := Nat.exists_eq_succ_of_ne_zero (Nat.ne_of_gt (by
        rw [List.length_cons] at hn
        omega))
      obtain ⟨st', h', hcall⟩ := swlexCalls_cons (u := u) h m read reads
      rw [hcall, ih h' (Nat.le_of_succ_le_succ hn), List.flatMap_cons]

theorem handed_eq (u : Int) (psfIncl : Bool) (st : SwlexState) (reads : List Bytes) :
    handed u psfIncl st reads = handedBefore psfIncl st ++ reads.flatMap (handedOf u) := by
  rw [handed, handedBefore]
  by_cases h : st.psfiFirstRead = true ∧ psfIncl = true
  · rw [if_pos h, swlexCalls, swlexInput.eq_def, if_pos h]
    exact congrArg _ (swlexCalls_eq (fun hf => Bool.false_ne_true hf.1) (Nat.le_refl _))
  · rw [if_neg h]
    exact swlexCalls_eq h (Nat.le_succ _)

end

/-! ## Cuts -/

/-- The stream is cut between a carriage return and a newline. -/
def CutsCrlf (reads : List Bytes) : Prop :=
  ∃ before behind, reads = before ++ behind ∧ before.flatten.getLast? = some cr ∧
    behind.flatten.head? = some nl

theorem cutsCrlf_cons (read : Bytes) (reads : List Bytes) :
    CutsCrlf (read :: reads) ↔
      read.getLast? = some cr ∧ reads.flatten.head? = some nl ∨ CutsCrlf reads := by
  constructor
  · rintro ⟨before, behind, heq, hlast, hhead⟩
    cases before with
    | nil => exact nomatch hlast
    | cons first before =>
        obtain ⟨rfl, hreads⟩ := List.cons.inj heq
        rw [List.flatten_cons] at hlast
        by_cases hnil : before.flatten = []
        · rw [hnil, List.append_nil] at hlast
          refine .inl ⟨hlast, ?_⟩
          rw [hreads, List.append_eq, List.flatten_append, hnil]
          exact hhead
        · rw [List.getLast?_append_of_ne_nil _ hnil] at hlast
          exact .inr ⟨before, behind, hreads, hlast, hhead⟩
  · rintro (⟨hlast, hhead⟩ | ⟨before, behind, rfl, hlast, hhead⟩)
    · exact ⟨[read], reads, rfl, by rw [List.flatten_singleton]; exact hlast, hhead⟩
    · refine ⟨read :: before, behind, rfl, ?_, hhead⟩
      have hne : before.flatten ≠ [] := by
        intro hnil
        rw [hnil] at hlast
        exact nomatch hlast
      rw [List.flatten_cons, List.getLast?_append_of_ne_nil _ hne]
      exact hlast

section

variable {u : Int} {reads : List Bytes}

theorem handedOf_of_not_fatal {read : Bytes} (h : ¬Fatal u read) :
    handedOf u read = (swlexScan u read).bytes := by
  rw [handedOf, if_neg (mt (fatal_iff u read).mp h)]

theorem handedOf_of_fatal {read : Bytes} (h : Fatal u read) : handedOf u read = [] := by
  rw [handedOf, if_pos ((fatal_iff u read).mpr h)]

/-- The reads hand over at least as much as the stream at once: just as much if no
line end is cut, and more if one is. -/
theorem handedOf_flatten (h : ¬Fatal u reads.flatten) :
    (¬CutsCrlf reads → reads.flatMap (handedOf u) = handedOf u reads.flatten) ∧
      (CutsCrlf reads →
        (handedOf u reads.flatten).length < (reads.flatMap (handedOf u)).length) := by
  induction reads with
  | nil =>
      refine ⟨fun _ => (handedOf_of_not_fatal h).symm, ?_⟩
      rintro ⟨before, behind, heq, hlast, -⟩
      rw [(List.nil_eq_append_iff.mp heq).1] at hlast
      exact nomatch hlast
  | cons read reads ih =>
      rw [List.flatten_cons] at h
      have hread : ¬Fatal u read := by
        rintro ⟨hu, c, hc, hn⟩
        exact h ⟨hu, c, List.mem_append_left _ hc, hn⟩
      have hreads : ¬Fatal u reads.flatten := by
        rintro ⟨hu, c, hc, hn⟩
        exact h ⟨hu, c, List.mem_append_right _ hc, hn⟩
      obtain ⟨hsame, hmore⟩ := ih hreads
      rw [cutsCrlf_cons, List.flatten_cons, List.flatMap_cons, handedOf_of_not_fatal h,
        handedOf_of_not_fatal hread]
      rw [handedOf_of_not_fatal hreads] at hsame hmore
      by_cases hcut : read.getLast? = some cr ∧ reads.flatten.head? = some nl
      · have hlen := swlexScan_cut hread hcut.1 hcut.2
        refine ⟨fun hn => absurd (.inl hcut) hn, fun _ => ?_⟩
        rw [List.length_append]
        by_cases hrest : CutsCrlf reads
        · have := hmore hrest
          omega
        · rw [hsame hrest]
          omega
      · rw [swlexScan_append hread hcut, or_iff_right hcut]
        refine ⟨fun hn => by rw [hsame hn], fun hn => ?_⟩
        rw [List.length_append, List.length_append]
        exact Nat.add_lt_add_left (hmore hn) _

/-- A read that fails or is empty hands nothing over. -/
theorem handedOf_eq_nil_iff (u : Int) (read : Bytes) :
    handedOf u read = [] ↔ read = [] ∨ Fatal u read := by
  by_cases hf : Fatal u read
  · exact iff_of_true (handedOf_of_fatal hf) (.inr hf)
  · rw [handedOf_of_not_fatal hf, or_iff_left hf]
    induction read with
    | nil => exact iff_of_true rfl rfl
    | cons c s ih =>
        refine iff_of_false ?_ (List.cons_ne_nil c s)
        have hs' : ¬Fatal u s := fun h => hf ((fatal_cons c s).mpr (.inr h))
        by_cases hc : Checked u c
        · have hu : u ≠ swlexInputUtfFatal := fun hu => hf ((fatal_cons c s).mpr (.inl ⟨hu, hc.2⟩))
          rw [swlexScan_checked hu hc]
          exact List.cons_ne_nil _ _
        · by_cases hs : c = cr ∧ s.head? = some nl
          · obtain ⟨rfl, hs⟩ := hs
            rw [swlexScan_crlf hs]
            intro hnil
            rw [(ih hs').mp hnil] at hs
            exact nomatch hs
          · rw [swlexScan_plain hc hs]
            exact List.cons_ne_nil _ _

/-- What is handed over does not depend on the reads if no line end is cut, and no
octet is fatal; if one is, then only if each read has one. -/
theorem handed_cut_iff (u : Int) (psfIncl : Bool) (st : SwlexState) (reads : List Bytes) :
    handed u psfIncl st reads = handed u psfIncl st [reads.flatten] ↔
      if u = swlexInputUtfFatal ∧ ∃ c ∈ reads.flatten, nonUtf8 c = true then
        ∀ read ∈ reads, read ≠ [] → ∃ c ∈ read, nonUtf8 c = true
      else ¬CutsCrlf reads := by
  rw [handed_eq, handed_eq, List.append_cancel_left_eq, List.flatMap_singleton]
  split
  next hf =>
    rw [handedOf_of_fatal hf, List.flatMap_eq_nil_iff]
    refine forall₂_congr fun read _ => ?_
    rw [handedOf_eq_nil_iff, Fatal, and_iff_right hf.1, or_iff_not_imp_left]
  next hf =>
    obtain ⟨hsame, hmore⟩ := handedOf_flatten hf
    refine ⟨fun he hcut => ?_, hsame⟩
    have hlt := hmore hcut
    rw [he] at hlt
    exact Nat.lt_irrefl _ hlt

/-- A line end that is cut. -/
theorem handed_cut_crlf :
    ¬∀ (u : Int) (psfIncl : Bool) (st : SwlexState) (reads : List Bytes),
      handed u psfIncl st reads = handed u psfIncl st [reads.flatten] := by
  intro h
  have hcut := h swlexInputUtfTr false ⟨true, 0, 0⟩ [[97, cr], [nl]]
  exact absurd hcut (by decide)

end

end Swbis.SwParse
