import Mathlib.Data.List.Induction
import Swbis.Misc.Swicat

/-!
# Dependency queries and their verdicts

A `QueryText` is made of blocks, each a query and its responses.  The analysis
takes the line behind a query for its response whatever it is, so it may take the
next query.  `reading` follows it over the blocks: queries without responses are
read in pairs.

`reached_reading` connects that to the chunks of the analysis, and
`analyzeRight_iff` says for which texts the verdicts are right, and which
malformed lines are found.
-/

namespace Swbis.Misc

open CLib

/-! ## The texts -/

/-- A byte that may stand in a line. -/
def InLine (b : UInt8) : Prop := b ≠ 0 ∧ isLineEnd b = false

/-- The digits of a number that is an `int`. -/
structure QueryNumber where
  digits : Bytes
  ne_nil : digits ≠ []
  isDigit : ∀ b ∈ digits, decimal.isDigit b = true
  small : decimal.value digits < 2 ^ 31

namespace QueryNumber

def value (n : QueryNumber) : Nat := decimal.value n.digits

end QueryNumber

/-- A query `Q<n>:{P|C|E}:<spec>`. -/
structure Query where
  number : QueryNumber
  type : ReqType
  spec : Bytes
  inLine : ∀ b ∈ spec, InLine b

/-- The line of a query. -/
def Query.line (q : Query) : Bytes :=
  81 :: (q.number.digits ++ 58 :: q.type.byte :: 58 :: q.spec)

/-- A response `R<n>:...`. -/
structure Response where
  number : QueryNumber
  rest : Bytes
  inLine : ∀ b ∈ rest, InLine b

/-- The line of a response. -/
def Response.line (r : Response) : Bytes := 82 :: (r.number.digits ++ 58 :: r.rest)

/-- A query and the responses to it. -/
structure Block where
  query : Query
  responses : List Response
  numbered : ∀ r ∈ responses, r.number.value = query.number.value

namespace Block

def responseLines (b : Block) : List Bytes := b.responses.map Response.line

def lines (b : Block) : List Bytes := b.query.line :: b.responseLines

/-- The chunk that a block should be. -/
def chunk (b : Block) : Chunk := ⟨b.query.line, b.query.type, b.query.spec, b.responseLines⟩

end Block

/-- A text of queries with distinct numbers. -/
structure QueryText where
  blocks : List Block
  distinct : (blocks.map fun b => b.query.number.value).Nodup

def QueryText.lines (t : QueryText) : List Bytes := t.blocks.flatMap Block.lines

/-- A line that stands behind the blocks of a text where a query should, and that
is neither a query nor a response to the last one. -/
structure MalformedLine (t : QueryText) where
  line : Bytes
  ne_nil : line ≠ []
  inLine : ∀ b ∈ line, InLine b
  noQuery : ∀ (digits : Bytes) (type : ReqType) (spec : Bytes), digits ≠ [] →
    (∀ b ∈ digits, decimal.isDigit b = true) →
    line ≠ 81 :: (digits ++ 58 :: type.byte :: 58 :: spec)
  noResponse : ∀ b ∈ t.blocks.getLast?, ∀ r : Response,
    r.number.value = b.query.number.value → line ≠ r.line

/-! ## The property -/

/-- The responses are recorded under their queries, and the results are set as
they should be. -/
structure VerdictRight (blocks : List Block) (want : Bool) (st : QueryState) : Prop where
  sl : st.sl = if want then some (blocks.map fun b => b.chunk.toSc) else none
  preSetArray : st.req.preSetArray = blocks.flatMap fun b => b.chunk.sets .pre
  exSetArray : st.req.exSetArray = blocks.flatMap fun b => b.chunk.sets .ex
  pre : st.req.preResult ≠ 0 ↔ ∃ b ∈ blocks, b.query.type = .pre ∧
    (b.responses = [] ∨ ∃ line ∈ b.responseLines, EmptyResponse line)
  co : st.req.coResult ≠ 0 ↔ ∃ b ∈ blocks, b.query.type = .co ∧
    (b.responses = [] ∨ ∃ line ∈ b.responseLines, EmptyResponse line)
  ex : st.req.exResult ≠ 0 ↔ ∃ b ∈ blocks, b.query.type = .ex ∧
    ∃ line ∈ b.responseLines, ¬ EmptyResponse line

/-- Without a malformed line the verdicts are right if the analysis succeeds.  A
malformed line makes it fail, whatever follows. -/
def AnalyzeRight (erange : Bool) (t : QueryText) : Option (MalformedLine t) → Prop
  | none => ∀ (want : Bool) (text : CString), queryLines text = t.lines →
      (swicatReqAnalyze erange want text).1 = 0 →
      VerdictRight t.blocks want (swicatReqAnalyze erange want text).2
  | some l => ∀ (want : Bool) (text : CString) (more : List Bytes),
      queryLines text = t.lines ++ l.line :: more → (swicatReqAnalyze erange want text).1 ≠ 0

/-! ## How blocks are read -/

/-- Where the analysis is behind a block. -/
inductive Reading where
  /-- The next line is a response to the query, or else a query. -/
  | behind (q : Option Query)
  /-- The next line is taken for a response to the query. -/
  | first (q : Query)
  /-- A response stands where a query should. -/
  | stray

/-- One more block. -/
def Reading.step : Reading → Block → Reading
  | behind _, b => if b.responses = [] then first b.query else behind (some b.query)
  | first q, b => if b.responses = [] then behind (some q) else stray
  | stray, _ => stray

/-- Where the analysis is behind the blocks. -/
def reading (blocks : List Block) : Reading := blocks.foldl Reading.step (.behind none)

/-- Only the last query may be without responses, and then its verdict is that of
an exrequisite, or one that is there already. -/
structure VerdictsClear (blocks : List Block) : Prop where
  answered : ∀ before b after, blocks = before ++ b :: after → b.responses = [] → after = []
  last : ∀ before b, blocks = before ++ [b] → b.responses = [] → b.query.type = .ex ∨
    ∃ x ∈ before, x.query.type = b.query.type ∧ ∃ line ∈ x.responseLines, EmptyResponse line

/-- The line is not taken for a query. -/
abbrev NoQueryRead (erange : Bool) (line : Bytes) : Prop :=
  ∀ type spec, ¬ ReadsQuery erange line type spec

/-- The texts that are analyzed right. -/
def TextClear (erange : Bool) (t : QueryText) : Option (MalformedLine t) → Prop
  | none => reading t.blocks = .stray ∨ VerdictsClear t.blocks
  | some l =>
      match reading t.blocks with
      | .behind none => NoQueryRead erange l.line
      | .behind (some q) =>
          hasNumber erange q.number.value l.line = false ∧ NoQueryRead erange l.line
      | .first _ => False
      | .stray => True

/-! ## Lines -/

theorem swlibAtoi_digits (n : QueryNumber) (s : Bytes) :
    swlibAtoi (n.digits ++ 58 :: s) = n.value := by
  have hsmall := n.small
  have hmin : min (2 ^ 63 - 1) (decimal.value n.digits : Int) = decimal.value n.digits := by omega
  rw [swlibAtoi, strtol_digits n.ne_nil n.isDigit (by decide), hmin]
  exact toCInt_of_lt hsmall

theorem swlibAtoiStatus_digits (erange : Bool) (n : QueryNumber) (s : Bytes) :
    swlibAtoiStatus erange (n.digits ++ 58 :: s) = false := by
  have hsmall := n.small
  have hmin : min (2 ^ 63 - 1) (decimal.value n.digits : Int) = decimal.value n.digits := by omega
  have hend : (58 :: s == n.digits ++ 58 :: s) = false := by
    rw [beq_eq_false_iff_ne]
    intro heq
    have hlen := congrArg List.length heq
    rw [List.length_append] at hlen
    exact n.ne_nil (List.length_eq_zero_iff.mp (by omega))
  have hlow : ((decimal.value n.digits : Int) == -2 ^ 63) = false := by
    rw [beq_eq_false_iff_ne]
    omega
  have hhigh : ((decimal.value n.digits : Int) == 2 ^ 63 - 1) = false := by
    rw [beq_eq_false_iff_ne]
    omega
  rw [swlibAtoiStatus, strtol_digits n.ne_nil n.isDigit (by decide), hmin]
  simp only [hend, hlow, hhigh, Bool.false_and, Bool.or_self]

/-- Digits are none of the other characters. -/
theorem ne_of_isDigit {b c : UInt8} (h : decimal.isDigit b = true) (hc : decimal.isDigit c = false) :
    b ≠ c := by
  rintro rfl
  exact Bool.noConfusion (h.symm.trans hc)

theorem afterColon_digits {c : UInt8} (hc : c ≠ 58) (n : QueryNumber) (s : Bytes) :
    afterColon (c :: (n.digits ++ 58 :: s)) = some s := by
  have hdigits : ∀ b ∈ c :: n.digits, (b != 58) = true := by
    intro b hb
    rw [bne_iff_ne]
    rcases List.mem_cons.mp hb with rfl | hb
    · exact hc
    · exact ne_of_isDigit (n.isDigit b hb) (by decide)
  rw [afterColon, ← List.cons_append, List.dropWhile_append_of_pos hdigits,
    List.dropWhile_cons_of_neg (by decide)]

theorem ofByte_byte (type : ReqType) : ReqType.ofByte type.byte = some type := by
  cases type <;> rfl

/-- A query is read as what it is. -/
theorem readsQuery_line (erange : Bool) (q : Query) : ReadsQuery erange q.line q.type q.spec where
  head := rfl
  number := swlibAtoiStatus_digits erange q.number _
  type_eq := by
    rw [Query.line, afterColon_digits (by decide)]
    exact ofByte_byte q.type
  spec_eq := by
    rw [Query.line, afterColon_digits (by decide), Option.bind_some]
    cases q.type <;> rfl

theorem hasNumber_digits {erange : Bool} (num : Nat) (c : UInt8) (n : QueryNumber) (s : Bytes) :
    hasNumber erange num (c :: (n.digits ++ 58 :: s)) = decide (n.value = num) := by
  rw [hasNumber, List.drop_succ_cons, List.drop_zero, swlibAtoi_digits, swlibAtoiStatus_digits]
  rw [Bool.not_false, Bool.and_true, Bool.eq_iff_iff, beq_iff_eq, decide_eq_true_iff]
  exact Int.ofNat_inj

theorem hasNumber_query {erange : Bool} (num : Nat) (q : Query) :
    hasNumber erange num q.line = decide (q.number.value = num) := hasNumber_digits num 81 _ _

theorem hasNumber_response {erange : Bool} (num : Nat) (r : Response) :
    hasNumber erange num r.line = decide (r.number.value = num) := hasNumber_digits num 82 _ _

/-! ### Texts with given lines -/

theorem inLine_digits (n : QueryNumber) {b : UInt8} (hb : b ∈ n.digits) : InLine b := by
  have hdec := n.isDigit b hb
  refine ⟨ne_of_isDigit hdec (by decide), ?_⟩
  rw [isLineEnd, Bool.or_eq_false_iff, beq_eq_false_iff_ne, beq_eq_false_iff_ne]
  exact ⟨ne_of_isDigit hdec (by decide), ne_of_isDigit hdec (by decide)⟩

theorem inLine_query (q : Query) : ∀ b ∈ q.line, InLine b := by
  intro b hb
  rcases List.mem_cons.mp hb with rfl | hb
  · exact ⟨by decide, rfl⟩
  · rcases List.mem_append.mp hb with hb | hb
    · exact inLine_digits q.number hb
    · rcases List.mem_cons.mp hb with rfl | hb
      · exact ⟨by decide, rfl⟩
      · rcases List.mem_cons.mp hb with rfl | hb
        · cases q.type <;> exact ⟨by decide, rfl⟩
        · rcases List.mem_cons.mp hb with rfl | hb
          · exact ⟨by decide, rfl⟩
          · exact q.inLine b hb

theorem inLine_response (r : Response) : ∀ b ∈ r.line, InLine b := by
  intro b hb
  rcases List.mem_cons.mp hb with rfl | hb
  · exact ⟨by decide, rfl⟩
  · rcases List.mem_append.mp hb with hb | hb
    · exact inLine_digits r.number hb
    · rcases List.mem_cons.mp hb with rfl | hb
      · exact ⟨by decide, rfl⟩
      · exact r.inLine b hb

theorem QueryText.inLine_lines (t : QueryText) : ∀ line ∈ t.lines, line ≠ [] ∧ ∀ b ∈ line, InLine b := by
  intro line hline
  obtain ⟨b, _, hline⟩ := List.mem_flatMap.mp hline
  rcases List.mem_cons.mp hline with rfl | hline
  · exact ⟨List.cons_ne_nil _ _, inLine_query b.query⟩
  · obtain ⟨r, _, rfl⟩ := List.mem_map.mp hline
    exact ⟨List.cons_ne_nil _ _, inLine_response r⟩

/-- Lines are those of some text. -/
theorem exists_text {lines : List Bytes} (h : ∀ line ∈ lines, line ≠ [] ∧ ∀ b ∈ line, InLine b) :
    ∃ text : CString, queryLines text = lines := by
  have hnul : (0 : UInt8) ∉ lines.flatMap fun line => line ++ [10] := by
    intro hmem
    obtain ⟨line, hline, hmem⟩ := List.mem_flatMap.mp hmem
    rcases List.mem_append.mp hmem with hmem | hmem
    · exact ((h line hline).2 0 hmem).1 rfl
    · exact absurd (List.mem_singleton.mp hmem) (by decide)
  refine ⟨⟨_, hnul⟩, tokens_flatMap (by decide) fun line hline => ?_⟩
  exact ⟨(h line hline).1, fun b hb => ((h line hline).2 b hb).2⟩

/-! ## The chunks of the analysis -/

variable {erange : Bool}

/-- A chunk that a query has begun and that another line with its number goes on. -/
structure Chunk.Open (erange : Bool) (c : Chunk) (q : Query) : Prop where
  line_eq : c.line = q.line
  query : ReadsQuery erange c.line c.type c.spec
  same : ∀ line ∈ c.responses.tail, hasNumber erange q.number.value line = true
  answered : c.responses ≠ []

theorem num_of_line {c : Chunk} {q : Query} (h : c.line = q.line) : c.num = q.number.value := by
  rw [Chunk.num, h]
  exact swlibAtoi_digits q.number _

theorem Chunk.Open.taken {c : Chunk} {q : Query} (h : c.Open erange q) {rest : List Bytes}
    (hrest : ∀ line ∈ rest.head?, hasNumber erange q.number.value line = false) :
    c.Taken erange rest where
  query := h.query
  same := by
    rw [num_of_line h.line_eq]
    exact h.same
  last hnone := absurd hnone h.answered
  next := by
    rw [num_of_line h.line_eq]
    exact hrest

/-- One more line with the number of the query. -/
theorem Chunk.Open.more {c : Chunk} {q : Query} (h : c.Open erange q) {line : Bytes}
    (hline : hasNumber erange q.number.value line = true) :
    Chunk.Open erange ⟨c.line, c.type, c.spec, c.responses ++ [line]⟩ q where
  line_eq := h.line_eq
  query := h.query
  same := by
    intro l hl
    rw [List.tail_append_of_ne_nil h.answered] at hl
    rcases List.mem_append.mp hl with hl | hl
    · exact h.same l hl
    · rw [List.mem_singleton.mp hl]
      exact hline
  answered := List.append_ne_nil_of_right_ne_nil _ (List.cons_ne_nil _ _)

theorem open_chunk {b : Block} (h : b.responses ≠ []) : b.chunk.Open erange b.query where
  line_eq := rfl
  query := readsQuery_line erange b.query
  same := by
    intro line hline
    obtain ⟨r, hr, rfl⟩ := List.mem_map.mp (List.mem_of_mem_tail hline)
    rw [hasNumber_response, decide_eq_true_iff]
    exact b.numbered r hr
  answered := fun hnil => h (List.map_eq_nil_iff.mp hnil)

/-- A query that has taken one line. -/
theorem open_first (q : Query) (line : Bytes) :
    Chunk.Open erange ⟨q.line, q.type, q.spec, [line]⟩ q where
  line_eq := rfl
  query := readsQuery_line erange q
  same := fun _ h => nomatch h
  answered := List.cons_ne_nil _ _

/-- A line that is read as a query and that nothing follows. -/
theorem taken_alone {line : Bytes} {type : ReqType} {spec : Bytes}
    (h : ReadsQuery erange line type spec) : Chunk.Taken erange ⟨line, type, spec, []⟩ [] where
  query := h
  same := fun _ h => nomatch h
  last _ := rfl
  next := fun _ h => nomatch h

/-- What the analysis has taken where it is behind the blocks. -/
def Reached (erange : Bool) (blocks : List Block) : Reading → Prop
  | .behind none => blocks = []
  | .behind (some q) => (∃ b ∈ blocks, b.query = q) ∧ ∃ (cs : List Chunk) (c : Chunk),
      blocks.flatMap Block.lines = cs.flatMap Chunk.lines ++ c.lines ∧ c.Open erange q ∧
        ∀ tail, Readable erange cs (c.lines ++ tail)
  | .first q => (∃ b ∈ blocks, b.query = q) ∧ ∃ cs : List Chunk,
      blocks.flatMap Block.lines = cs.flatMap Chunk.lines ++ [q.line] ∧
        ∀ tail, Readable erange cs (q.line :: tail)
  | .stray => ∃ (cs : List Chunk) (r : Response) (rest : List Bytes),
      blocks.flatMap Block.lines = cs.flatMap Chunk.lines ++ r.line :: rest ∧
        ∀ tail, Readable erange cs (r.line :: (rest ++ tail))

theorem lines_concat (blocks : List Block) (b : Block) :
    (blocks ++ [b]).flatMap Block.lines = blocks.flatMap Block.lines ++ b.lines := by
  rw [List.flatMap_append, List.flatMap_singleton]

/-- One more block. -/
theorem Reached.step {blocks : List Block} {b : Block} {s : Reading}
    (hdistinct : ∀ x ∈ blocks, x.query.number.value ≠ b.query.number.value)
    (h : Reached erange blocks s) : Reached erange (blocks ++ [b]) (s.step b) := by
  have hmem : ∃ x ∈ blocks ++ [b], x.query = b.query :=
    ⟨b, List.mem_append_right _ (List.mem_singleton_self b), rfl⟩
  cases s with
  | behind last =>
      have hprev : ∃ cs, blocks.flatMap Block.lines = cs.flatMap Chunk.lines ∧
          ∀ tail, Readable erange cs (b.query.line :: tail) := by
        cases last with
        | none =>
            obtain rfl : blocks = [] := h
            exact ⟨[], rfl, fun tail => .nil _⟩
        | some q =>
            obtain ⟨⟨x, hx, rfl⟩, cs, c, hlines, hopen, hread⟩ := h
            refine ⟨cs ++ [c], ?_, fun tail => (hread _).concat (hopen.taken ?_)⟩
            · rw [hlines, List.flatMap_append, List.flatMap_singleton]
            · intro line hline
              rw [← Option.some.inj hline, hasNumber_query, decide_eq_false_iff_not]
              exact (hdistinct x hx).symm
      obtain ⟨cs, hlines, hread⟩ := hprev
      rw [Reading.step]
      split
      · next hnone =>
          refine ⟨hmem, cs, ?_, hread⟩
          rw [lines_concat, hlines, Block.lines, Block.responseLines, hnone, List.map_nil]
      · next hsome =>
          refine ⟨hmem, cs, b.chunk, ?_, open_chunk hsome, fun tail => hread _⟩
          rw [lines_concat, hlines]
          rfl
  | first q =>
      obtain ⟨⟨x, hx, rfl⟩, cs, hlines, hread⟩ := h
      rw [Reading.step]
      split
      · next hnone =>
          refine ⟨⟨x, List.mem_append_left _ hx, rfl⟩, cs,
            ⟨x.query.line, x.query.type, x.query.spec, [b.query.line]⟩, ?_,
            open_first _ _, fun tail => hread _⟩
          rw [lines_concat, hlines, List.append_assoc, Block.lines, Block.responseLines, hnone]
          rfl
      · next hsome =>
          cases hresp : b.responses with
          | nil => exact absurd hresp hsome
          | cons r rs =>
              refine ⟨cs ++ [⟨x.query.line, x.query.type, x.query.spec, [b.query.line]⟩], r,
                rs.map Response.line, ?_, fun tail => (hread _).concat ((open_first _ _).taken ?_)⟩
              · rw [lines_concat, hlines, List.flatMap_append, Block.lines, Block.responseLines,
                  hresp, List.append_assoc, List.append_assoc]
                rfl
              · intro line hline
                rw [← Option.some.inj hline, hasNumber_response, decide_eq_false_iff_not,
                  b.numbered r (hresp ▸ List.mem_cons_self)]
                exact (hdistinct x hx).symm
  | stray =>
      obtain ⟨cs, r, rest, hlines, hread⟩ := h
      refine ⟨cs, r, rest ++ b.lines, ?_, fun tail => ?_⟩
      · rw [lines_concat, hlines, List.append_assoc]
        rfl
      · rw [List.append_assoc]
        exact hread _

/-- What the analysis takes of the blocks. -/
theorem reached_reading (erange : Bool) {blocks : List Block}
    (hdistinct : (blocks.map fun b => b.query.number.value).Nodup) :
    Reached erange blocks (reading blocks) := by
  induction blocks using List.reverseRecOn with
  | nil => exact rfl
  | append_singleton blocks b ih =>
      rw [List.map_append, List.nodup_append] at hdistinct
      rw [reading, List.foldl_append]
      refine Reached.step (fun x hx => ?_) (ih hdistinct.1)
      exact hdistinct.2.2 _ (List.mem_map_of_mem hx) _ (List.mem_singleton_self _)

/-! ## The verdicts of a text -/

variable {t : QueryText}

theorem noQueryRead_response (r : Response) : NoQueryRead erange r.line :=
  fun _ _ hread => absurd hread.head (by rw [Response.line, List.head?_cons]; decide)

/-- A text that is not read astray is taken in chunks to its end. -/
theorem exists_chunks (erange : Bool) (h : reading t.blocks ≠ .stray) :
    ∃ cs, t.lines = cs.flatMap Chunk.lines ∧ Readable erange cs [] := by
  have hreached := reached_reading erange t.distinct
  cases hread : reading t.blocks with
  | behind last =>
      rw [hread] at hreached
      cases last with
      | none =>
          have hnil : t.blocks = [] := hreached
          refine ⟨[], ?_, .nil []⟩
          rw [QueryText.lines, hnil]
          rfl
      | some q =>
          obtain ⟨_, cs, c, hlines, hopen, hcs⟩ := hreached
          refine ⟨cs ++ [c], ?_, (hcs []).concat (hopen.taken fun _ hl => nomatch hl)⟩
          rw [QueryText.lines, hlines, List.flatMap_append, List.flatMap_singleton]
  | first q =>
      rw [hread] at hreached
      obtain ⟨_, cs, hlines, hcs⟩ := hreached
      refine ⟨cs ++ [⟨q.line, q.type, q.spec, []⟩], ?_,
        (hcs []).concat (taken_alone (readsQuery_line erange q))⟩
      rw [QueryText.lines, hlines, List.flatMap_append, List.flatMap_singleton]
      rfl
  | stray => exact absurd hread h

/-- A text that is read astray is an error, whatever follows. -/
theorem ret_of_stray (h : reading t.blocks = .stray) (want : Bool) {text : CString}
    {more : List Bytes} (htext : queryLines text = t.lines ++ more) :
    (swicatReqAnalyze erange want text).1 ≠ 0 := by
  have hreached := reached_reading erange t.distinct
  rw [h] at hreached
  obtain ⟨cs, r, rest, hlines, hcs⟩ := hreached
  refine swicatReqAnalyze_stray want (hcs more) ?_ (noQueryRead_response r)
  rw [htext, QueryText.lines, hlines, List.append_assoc, List.cons_append]

/-- Chunks of queries with the same lines are the same. -/
theorem chunks_eq_of_toSc (erange : Bool) {cs ds : List Chunk}
    (hcs : ∀ c ∈ cs, ReadsQuery erange c.line c.type c.spec)
    (hds : ∀ d ∈ ds, ReadsQuery erange d.line d.type d.spec)
    (h : cs.map Chunk.toSc = ds.map Chunk.toSc) : cs = ds := by
  induction cs generalizing ds with
  | nil => exact (List.map_eq_nil_iff.mp h.symm).symm
  | cons c cs ih =>
      cases ds with
      | nil => exact nomatch h
      | cons d ds =>
          obtain ⟨hhead, htail⟩ := List.cons.inj h
          have hrest := ih (fun c hc => hcs c (List.mem_cons_of_mem _ hc))
            (fun d hd => hds d (List.mem_cons_of_mem _ hd)) htail
          obtain ⟨cline, ctype, cspec, cresponses⟩ := c
          obtain ⟨dline, dtype, dspec, dresponses⟩ := d
          obtain ⟨rfl, rfl⟩ : cline = dline ∧ cresponses = dresponses :=
            ⟨congrArg SwicatSc.sq hhead, congrArg SwicatSc.sr hhead⟩
          have hc := hcs _ List.mem_cons_self
          have hd := hds _ List.mem_cons_self
          obtain ⟨rfl, rfl⟩ := hc.unique hd
          rw [hrest]

/-- The chunks that the blocks should be are taken if only the last is unanswered. -/
theorem readable_blocks (erange : Bool) {blocks : List Block}
    (hdistinct : (blocks.map fun b => b.query.number.value).Nodup)
    (hanswered : ∀ before b after, blocks = before ++ b :: after → b.responses = [] → after = []) :
    Readable erange (blocks.map Block.chunk) [] := by
  induction blocks with
  | nil => exact .nil []
  | cons b blocks ih =>
      have hrest := ih (List.nodup_cons.mp hdistinct).2 fun before x after heq =>
        hanswered (b :: before) x after (congrArg _ heq)
      refine .cons ?_ hrest
      cases hresp : b.responses with
      | nil =>
          rw [hanswered [] b blocks rfl hresp, Block.chunk, Block.responseLines, hresp]
          exact taken_alone (readsQuery_line erange b.query)
      | cons r rs =>
          have hne : b.responses ≠ [] := by
            rw [hresp]
            exact List.cons_ne_nil _ _
          refine (open_chunk hne).taken fun line hline => ?_
          cases blocks with
          | nil => exact nomatch hline
          | cons x blocks =>
              rw [← Option.some.inj hline]
              change hasNumber erange _ x.query.line = false
              rw [hasNumber_query, decide_eq_false_iff_not]
              intro heq
              refine (List.nodup_cons.mp hdistinct).1 ?_
              exact List.mem_map.mpr ⟨x, List.mem_cons_self, heq⟩

theorem lines_map_chunk (blocks : List Block) :
    (blocks.map Block.chunk).flatMap Chunk.lines = blocks.flatMap Block.lines := by
  rw [List.flatMap_map]
  rfl

theorem exists_chunk {blocks : List Block} {p : Chunk → Prop} :
    (∃ c ∈ blocks.map Block.chunk, p c) ↔ ∃ b ∈ blocks, p b.chunk := by
  simp only [List.mem_map, exists_exists_and_eq_and]

/-- The verdicts are right when they are clear. -/
theorem verdictRight_of_clear (hclear : VerdictsClear t.blocks) (want : Bool) {text : CString}
    (htext : queryLines text = t.lines) :
    VerdictRight t.blocks want (swicatReqAnalyze erange want text).2 := by
  have hchunks : queryLines text = (t.blocks.map Block.chunk).flatMap Chunk.lines := by
    rw [htext, lines_map_chunk]
    rfl
  have hrec := (swicatReqAnalyze_chunks want
    (readable_blocks erange t.distinct hclear.answered) hchunks).2
  -- An unanswered query is the last, so its result is set already.
  have hset : ∀ type : ReqType, type ≠ .ex →
      ((∃ c ∈ t.blocks.map Block.chunk, c.type = type ∧
          ∃ line ∈ c.responses, EmptyResponse line) ↔
        ∃ b ∈ t.blocks, b.query.type = type ∧
          (b.responses = [] ∨ ∃ line ∈ b.responseLines, EmptyResponse line)) := by
    intro type htype
    rw [exists_chunk]
    constructor
    · rintro ⟨b, hb, hbtype, hempty⟩
      exact ⟨b, hb, hbtype, .inr hempty⟩
    · rintro ⟨b, hb, hbtype, hnone | hempty⟩
      · obtain ⟨before, after, heq⟩ := List.append_of_mem hb
        have hafter := hclear.answered before b after heq hnone
        rw [hafter] at heq
        rcases hclear.last before b heq hnone with hex | ⟨x, hx, hxtype, hempty⟩
        · exact absurd (hbtype.symm.trans hex) htype
        · refine ⟨x, ?_, hxtype.trans hbtype, hempty⟩
          rw [heq]
          exact List.mem_append_left _ hx
      · exact ⟨b, hb, hbtype, hempty⟩
  refine ⟨?_, ?_, ?_, hrec.pre.trans (hset .pre (by decide)),
    hrec.co.trans (hset .co (by decide)), hrec.ex.trans ?_⟩
  · rw [hrec.sl, List.map_map]
    rfl
  · rw [hrec.preSetArray, List.flatMap_map]
  · rw [hrec.exSetArray, List.flatMap_map]
  · rw [exists_chunk]
    exact Iff.rfl

/-- The verdicts are clear when they are right. -/
theorem clear_of_verdictRight (hstray : reading t.blocks ≠ .stray) (h : AnalyzeRight erange t none) :
    VerdictsClear t.blocks := by
  obtain ⟨cs, hlines, hcs⟩ := exists_chunks erange hstray
  obtain ⟨text, htext⟩ := exists_text t.inLine_lines
  obtain ⟨hret, hrec⟩ := swicatReqAnalyze_chunks true hcs (htext.trans hlines)
  have hright := h true text htext hret
  have heq : cs = t.blocks.map Block.chunk := by
    refine chunks_eq_of_toSc erange (fun c hc => ?_) (fun d hd => ?_) ?_
    · obtain ⟨before, after, hsplit⟩ := List.append_of_mem hc
      exact (hcs.taken hsplit).query
    · obtain ⟨b, _, rfl⟩ := List.mem_map.mp hd
      exact readsQuery_line erange b.query
    · rw [List.map_map]
      exact Option.some.inj (hrec.sl.symm.trans hright.sl)
  subst heq
  refine ⟨fun before b after hsplit hnone => ?_, fun before b hsplit hnone => ?_⟩
  · have hchunks : t.blocks.map Block.chunk =
        before.map Block.chunk ++ b.chunk :: after.map Block.chunk := by
      rw [hsplit, List.map_append, List.map_cons]
    have hrest := (hcs.taken hchunks).last (by rw [Block.chunk, Block.responseLines, hnone]; rfl)
    rw [List.append_nil, lines_map_chunk] at hrest
    cases after with
    | nil => rfl
    | cons x after => exact absurd hrest (List.cons_ne_nil _ _)
  · -- The result that the missing response asks for comes from an empty one.
    have hmem : b ∈ t.blocks := by
      rw [hsplit]
      exact List.mem_append_right _ (List.mem_singleton_self b)
    have hother : ∀ type, (∃ c ∈ t.blocks.map Block.chunk, c.type = type ∧
        ∃ line ∈ c.responses, EmptyResponse line) →
          ∃ x ∈ before, x.query.type = type ∧ ∃ line ∈ x.responseLines, EmptyResponse line := by
      intro type hex
      rw [exists_chunk] at hex
      obtain ⟨x, hx, hxtype, line, hline, hempty⟩ := hex
      rw [hsplit] at hx
      rcases List.mem_append.mp hx with hx | hx
      · exact ⟨x, hx, hxtype, line, hline, hempty⟩
      · rw [List.mem_singleton.mp hx, Block.chunk, Block.responseLines, hnone] at hline
        exact nomatch hline
    cases htype : b.query.type with
    | pre => exact .inr (hother .pre (hrec.pre.mp (hright.pre.mpr ⟨b, hmem, htype, .inl hnone⟩)))
    | co => exact .inr (hother .co (hrec.co.mp (hright.co.mpr ⟨b, hmem, htype, .inl hnone⟩)))
    | ex => exact .inl rfl

theorem verdicts_iff :
    AnalyzeRight erange t none ↔ reading t.blocks = .stray ∨ VerdictsClear t.blocks := by
  constructor
  · intro h
    by_cases hstray : reading t.blocks = .stray
    · exact .inl hstray
    · exact .inr (clear_of_verdictRight hstray h)
  · rintro (hstray | hclear) want text htext hret
    · refine absurd hret (ret_of_stray hstray want (htext.trans (List.append_nil _).symm))
    · exact verdictRight_of_clear hclear want htext

/-! ## A malformed line -/

/-- A text and a malformed line that are taken in chunks to their end are no error. -/
theorem not_caught {l : MalformedLine t} {cs : List Chunk} (hcs : Readable erange cs [])
    (hlines : t.lines ++ [l.line] = cs.flatMap Chunk.lines) :
    ¬ AnalyzeRight erange t (some l) := by
  intro h
  obtain ⟨text, htext⟩ := exists_text fun line hline =>
    (List.mem_append.mp hline).elim (t.inLine_lines line) fun hl =>
      List.mem_singleton.mp hl ▸ ⟨l.ne_nil, l.inLine⟩
  exact h false text [] htext (swicatReqAnalyze_chunks false hcs (htext.trans hlines)).1

theorem caught_iff (l : MalformedLine t) :
    AnalyzeRight erange t (some l) ↔ TextClear erange t (some l) := by
  have hreached := reached_reading erange t.distinct
  rw [TextClear]
  cases hread : reading t.blocks with
  | behind last =>
      rw [hread] at hreached
      cases last with
      | none =>
          have hnil : t.lines = [] := by
            rw [QueryText.lines, show t.blocks = [] from hreached]
            rfl
          constructor
          · intro h type spec hquery
            exact not_caught (.cons (taken_alone hquery) (.nil [])) (by rw [hnil]; rfl) h
          · intro h want text more htext
            exact swicatReqAnalyze_stray want (.nil _) (by rw [htext, hnil]; rfl) h
      | some q =>
          obtain ⟨_, cs, c, hlines, hopen, hcs⟩ := hreached
          have htlines : t.lines = (cs ++ [c]).flatMap Chunk.lines := by
            rw [QueryText.lines, hlines, List.flatMap_append, List.flatMap_singleton]
          have hbehind : hasNumber erange q.number.value l.line = false →
              ∀ more, Readable erange (cs ++ [c]) (l.line :: more) := by
            refine fun hnumber more => (hcs _).concat (hopen.taken fun line hline => ?_)
            rw [← Option.some.inj hline]
            exact hnumber
          constructor
          · intro h
            have hnumber : hasNumber erange q.number.value l.line = false := by
              by_contra hsame
              have hmore := hopen.more (Bool.not_eq_false _ ▸ hsame)
              have hlast : Readable erange cs
                  (Chunk.lines ⟨c.line, c.type, c.spec, c.responses ++ [l.line]⟩ ++ []) := by
                rw [List.append_nil]
                exact hcs [l.line]
              refine not_caught (hlast.concat (hmore.taken fun _ hl => nomatch hl)) ?_ h
              rw [htlines, List.flatMap_append, List.flatMap_append, List.flatMap_singleton,
                List.flatMap_singleton, List.append_assoc]
              rfl
            refine ⟨hnumber, fun type spec hquery => ?_⟩
            have hlast : Readable erange (cs ++ [c])
                (Chunk.lines ⟨l.line, type, spec, []⟩ ++ []) := hbehind hnumber []
            refine not_caught (hlast.concat (taken_alone hquery)) ?_ h
            rw [htlines, List.flatMap_append, List.flatMap_append, List.flatMap_append,
              List.flatMap_singleton, List.flatMap_singleton]
            rfl
          · intro h want text more htext
            refine swicatReqAnalyze_stray want (hbehind h.1 more) ?_ h.2
            rw [htext, htlines]
  | first q =>
      rw [hread] at hreached
      obtain ⟨_, cs, hlines, hcs⟩ := hreached
      have hlast : Readable erange cs
          (Chunk.lines ⟨q.line, q.type, q.spec, [l.line]⟩ ++ []) := hcs [l.line]
      refine iff_of_false (not_caught (hlast.concat
        ((open_first q l.line).taken fun _ hl => nomatch hl)) ?_) id
      rw [QueryText.lines, hlines, List.flatMap_append, List.flatMap_singleton, List.append_assoc]
      rfl
  | stray => exact iff_of_true (fun want text more htext => ret_of_stray hread want htext) trivial

/-- The analysis is right for the clear texts. -/
theorem analyzeRight_iff (erange : Bool) (t : QueryText) (l : Option (MalformedLine t)) :
    AnalyzeRight erange t l ↔ TextClear erange t l := by
  cases l with
  | none => exact verdicts_iff
  | some l => exact caught_iff l

/-- The text `Q0:P:a` with no response. -/
def unansweredText : QueryText where
  blocks := [{
    query := ⟨⟨[48], by decide, List.forall_mem_singleton.mpr (by decide), by decide⟩, .pre, [97], by
      intro b hb
      rw [List.mem_singleton.mp hb]
      exact ⟨by decide, rfl⟩⟩
    responses := []
    numbered := fun _ h => nomatch h }]
  distinct := by decide

/-- A prerequisite without a response is no failed one. -/
theorem not_analyzeRight_unanswered : ¬ AnalyzeRight false unansweredText none := by
  intro h
  have htext : queryLines ⟨chars ['Q', '0', ':', 'P', ':', 'a', '\n'], by decide⟩ =
      unansweredText.lines := by decide
  have hright := h false _ htext (by decide)
  have hset := hright.pre.mpr ⟨_, List.mem_singleton_self _, rfl, .inl rfl⟩
  exact hset (by decide)

end Swbis.Misc
