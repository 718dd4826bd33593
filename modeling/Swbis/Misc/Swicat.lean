import Mathlib.Data.List.ModifyLast
import Swbis.Misc.Swgpg
import Swbis.Misc.Swssh

/-!
# Answers to dependency queries

The target answers dependency queries with a text of lines.  A query line
`Q0:P:sddf*,r>3` is followed by its response lines `R0:P:BP.:abiword:abiword`, or
by the empty response `R0:P:...:`.  `swicat_req_analyze` reads a query line,
`evaluate_query` reads its responses and returns the first line of the next
query.

The first part is the code.  A `Chunk` is what one call of `evaluate_query` takes
from the text: the query line, the line behind it whatever that is, and the lines
after it with the number of the query.  `analyze_chunks` says what the analysis
of chunks does.
-/

namespace Swbis.Misc

open CLib

/-! ## The code -/

/-- The letters `P`, `C` and `E` of prerequisites, corequisites and exrequisites. -/
inductive ReqType where
  | pre
  | co
  | ex
deriving DecidableEq

/-- The letter of a type. -/
def ReqType.byte : ReqType → UInt8
  | pre => 80
  | co => 67
  | ex => 69

/-- `switch (*type)` -/
def ReqType.ofByte (c : UInt8) : Option ReqType :=
  if c = 80 then some pre else if c = 69 then some ex else if c = 67 then some co else none

/-- `SWICAT_PRE_SET` and `SWICAT_EX_SET`: a specification, and the responses to it. -/
structure SwicatSet where
  /-- `preM`, `exM` -/
  spec : Bytes
  /-- `pre_fullfilledM`, `ex_violatedM` -/
  responses : List Bytes := []
deriving DecidableEq

/-- `SWICAT_REQ`, as `swicat_req_create` makes it. -/
structure SwicatReq where
  preResult : Int := 0
  exResult : Int := 0
  coResult : Int := 0
  failedPre : List Bytes := []
  failedCo : List Bytes := []
  passedEx : List Bytes := []
  exSetArray : List SwicatSet := []
  preSetArray : List SwicatSet := []

/-- `SWICAT_SC`: the line of a query and the lines of its responses. -/
structure SwicatSc where
  sq : Bytes
  sr : List Bytes := []
deriving DecidableEq

/-- What the analysis writes to; the list is kept if the caller asks for it. -/
structure QueryState where
  req : SwicatReq
  sl : Option (List SwicatSc)

/-- `strchr (s, ':')`, and one byte further. -/
def afterColon (s : Bytes) : Option Bytes :=
  match s.dropWhile (· != 58) with
  | [] => none
  | _ :: t => some t

/-- `get_req_type` -/
def getReqType (line : Bytes) : Option Bytes := afterColon line

/-- `check_requisite_response` -/
def checkRequisiteResponse (line : Bytes) : Option Bytes :=
  (((afterColon line).bind afterColon).bind afterColon).bind afterColon

/-- `swlib_atoi (s, NULL)` -/
def swlibAtoi (s : Bytes) : Int := toCInt (strtol s).1

/-- `swlib_atoi (line + 1, &ret) == num && ret == 0` -/
def hasNumber (erange : Bool) (num : Int) (line : Bytes) : Bool :=
  swlibAtoi (line.drop 1) == num && !swlibAtoiStatus erange (line.drop 1)

/-- The sets that are opened for a query. -/
def openSet (type : ReqType) (spec : Bytes) (req : SwicatReq) : SwicatReq :=
  match type with
  | .pre => { req with preSetArray := req.preSetArray ++ [{ spec := spec }] }
  | .ex => { req with exSetArray := req.exSetArray ++ [{ spec := spec }] }
  | .co => req

/-- `strar_add` to the set that was opened last. -/
def addToSet (sets : List SwicatSet) (resp : Bytes) : List SwicatSet :=
  sets.modifyLast fun s => { s with responses := s.responses ++ [resp] }

/-- The second `switch (*type)` of `evaluate_query`. -/
def recordReq (type : ReqType) (spec : Bytes) (req : SwicatReq) (line : Bytes) : SwicatReq :=
  match type with
  | .pre =>
      match checkRequisiteResponse line with
      | none => { req with failedPre := req.failedPre ++ [spec], preResult := 1 }
      | some resp => { req with preSetArray := addToSet req.preSetArray resp }
  | .ex =>
      match checkRequisiteResponse line with
      | some resp => { req with exSetArray := addToSet req.exSetArray resp, exResult := 1 }
      | none => { req with passedEx := req.passedEx ++ [spec] }
  | .co =>
      match checkRequisiteResponse line with
      | none => { req with failedCo := req.failedCo ++ [spec], coResult := 1 }
      | some _ => req

/-- `swicat_sc_add_sr`, to the query that was added last. -/
def recordSr (sl : List SwicatSc) (line : Bytes) : List SwicatSc :=
  sl.modifyLast fun sc => { sc with sr := sc.sr ++ [line] }

/-- What is done with a line that is taken for a response. -/
def record (type : ReqType) (spec : Bytes) (st : QueryState) (line : Bytes) : QueryState where
  req := recordReq type spec st.req line
  sl := st.sl.map fun sl => recordSr sl line

/-- The loop of `evaluate_query`, from a line on: the first line is not looked at. -/
def responseLoop (erange : Bool) (num : Int) (type : ReqType) (spec : Bytes) :
    QueryState → List Bytes → QueryState × List Bytes
  | st, [] => (st, [])
  | st, [line] => (record type spec st line, [])
  | st, line :: next :: lines =>
      if hasNumber erange num next then
        responseLoop erange num type spec (record type spec st line) (next :: lines)
      else (record type spec st line, next :: lines)

/-- `evaluate_query`: whether there is an error, and the lines that are left. -/
def evaluateQuery (erange : Bool) (st : QueryState) (spec firstLine : Bytes) (lines : List Bytes) :
    Bool × QueryState × List Bytes :=
  if swlibAtoiStatus erange (firstLine.drop 1) then (true, st, [])
  else
    let st := { st with sl := st.sl.map (· ++ [{ sq := firstLine }]) }
    match getReqType firstLine with
    | none => (true, st, [])
    | some type =>
        match type.head?.bind ReqType.ofByte with
        | none => (true, st, [])
        | some type =>
            let st := { st with req := openSet type spec st.req }
            (false, responseLoop erange (swlibAtoi (firstLine.drop 1)) type spec st lines)

/-- The loop of `swicat_req_analyze`, for at most so many queries. -/
def analyzeLoop (erange : Bool) : Nat → QueryState → List Bytes → Int × QueryState
  | _, st, [] => (0, st)
  | 0, st, _ :: _ => (0, st)
  | n + 1, st, line :: lines =>
      if line.head? ≠ some 81 then (-1, st)
      else
        match (afterColon line).bind afterColon with
        | none => (-1, st)
        | some spec =>
            match evaluateQuery erange st spec line lines with
            | (true, st, _) => (1, st)
            | (false, st, lines) => analyzeLoop erange n st lines

/-- The analysis of lines.  Each query takes one line at least. -/
def analyze (erange : Bool) (st : QueryState) (lines : List Bytes) : Int × QueryState :=
  analyzeLoop erange lines.length st lines

/-- `strob_strtok` with `"\r\n"`. -/
def queryLines (queryText : CString) : List Bytes := tokens isLineEnd queryText.bytes

/-- `swicat_req_analyze`, with `errno` at `ERANGE` or not, and with a list to be
made or not: the value returned, and what is written. -/
def swicatReqAnalyze (erange want : Bool) (queryText : CString) : Int × QueryState :=
  let (ret, st) := analyze erange ⟨{}, if want then some [] else none⟩ (queryLines queryText)
  if ret = 0 then (0, st) else (ret, { st with sl := none })

/-! ## The loops -/

theorem length_responseLoop_le (erange : Bool) (num : Int) (type : ReqType) (spec : Bytes)
    (st : QueryState) (lines : List Bytes) :
    (responseLoop erange num type spec st lines).2.length ≤ lines.length := by
  induction lines generalizing st with
  | nil => exact Nat.le_refl _
  | cons line lines ih =>
      cases lines with
      | nil => exact Nat.zero_le _
      | cons next lines =>
          rw [responseLoop]
          split
          · exact Nat.le_succ_of_le (ih _)
          · exact Nat.le_succ _

theorem length_evaluateQuery_le (erange : Bool) (st : QueryState) (spec firstLine : Bytes)
    (lines : List Bytes) :
    (evaluateQuery erange st spec firstLine lines).2.2.length ≤ lines.length := by
  rw [evaluateQuery]
  split
  · exact Nat.zero_le _
  · dsimp only
    split
    · exact Nat.zero_le _
    · split
      · exact Nat.zero_le _
      · exact length_responseLoop_le _ _ _ _ _ _

/-- More queries than lines are never read. -/
theorem analyzeLoop_eq (erange : Bool) {n : Nat} {lines : List Bytes} (h : lines.length ≤ n)
    (st : QueryState) : analyzeLoop erange n st lines = analyze erange st lines := by
  induction n using Nat.strongRecOn generalizing lines st with
  | ind n ih =>
      cases lines with
      | nil =>
          rw [analyze]
          cases n <;> rfl
      | cons line lines =>
          obtain ⟨n, rfl⟩ := Nat.exists_eq_succ_of_ne_zero (Nat.ne_zero_of_lt h)
          have hle : lines.length ≤ n := Nat.le_of_succ_le_succ h
          rw [analyze, List.length_cons, analyzeLoop, analyzeLoop]
          split
          · rfl
          · split
            · rfl
            · next spec _ =>
                have hrest := length_evaluateQuery_le erange st spec line lines
                split
                · rfl
                · next st' lines' heq =>
                    rw [heq] at hrest
                    have hsmall : lines'.length ≤ lines.length := hrest
                    rw [ih n (Nat.lt_succ_self n) (Nat.le_trans hsmall hle)]
                    rcases Nat.lt_or_eq_of_le hle with hlt | heqn
                    · exact (ih lines.length (Nat.lt_succ_of_lt hlt) hsmall st').symm
                    · rw [heqn]
                      exact (ih n (Nat.lt_succ_self n) (Nat.le_trans hsmall hle) st').symm

theorem analyze_nil (erange : Bool) (st : QueryState) : analyze erange st [] = (0, st) := rfl

/-! ## What a call of `evaluate_query` takes -/

/-- A query line and the lines that are charged to it. -/
structure Chunk where
  line : Bytes
  type : ReqType
  spec : Bytes
  responses : List Bytes

namespace Chunk

/-- The lines of a chunk. -/
def lines (c : Chunk) : List Bytes := c.line :: c.responses

/-- The number of the query. -/
def num (c : Chunk) : Int := swlibAtoi (c.line.drop 1)

/-- The entry of a chunk in the list that is made. -/
def toSc (c : Chunk) : SwicatSc := ⟨c.line, c.responses⟩

end Chunk

/-- The line is read as a query of a type for a specification. -/
structure ReadsQuery (erange : Bool) (line : Bytes) (type : ReqType) (spec : Bytes) : Prop where
  head : line.head? = some 81
  number : swlibAtoiStatus erange (line.drop 1) = false
  type_eq : ((afterColon line).bind List.head?).bind ReqType.ofByte = some type
  spec_eq : (afterColon line).bind afterColon = some spec

/-- A call of `evaluate_query` takes the chunk and leaves the rest. -/
structure Chunk.Taken (erange : Bool) (c : Chunk) (rest : List Bytes) : Prop where
  query : ReadsQuery erange c.line c.type c.spec
  same : ∀ line ∈ c.responses.tail, hasNumber erange c.num line = true
  /-- The line behind a query is taken whatever it is. -/
  last : c.responses = [] → rest = []
  next : ∀ line ∈ rest.head?, hasNumber erange c.num line = false

/-- The calls take these chunks and leave a tail. -/
inductive Readable (erange : Bool) : List Chunk → List Bytes → Prop where
  | nil (tail : List Bytes) : Readable erange [] tail
  | cons {c : Chunk} {cs : List Chunk} {tail : List Bytes} :
      c.Taken erange (cs.flatMap Chunk.lines ++ tail) → Readable erange cs tail →
      Readable erange (c :: cs) tail

/-- What a chunk leaves behind. -/
def processed (st : QueryState) (c : Chunk) : QueryState :=
  c.responses.foldl (record c.type c.spec)
    ⟨openSet c.type c.spec st.req, st.sl.map (· ++ [{ sq := c.line }])⟩

variable {erange : Bool}

theorem responseLoop_eq {num : Int} (type : ReqType) (spec : Bytes) (st : QueryState)
    (line : Bytes) {lines rest : List Bytes}
    (hsame : ∀ line ∈ lines, hasNumber erange num line = true)
    (hnext : ∀ line ∈ rest.head?, hasNumber erange num line = false) :
    responseLoop erange num type spec st (line :: (lines ++ rest)) =
      ((line :: lines).foldl (record type spec) st, rest) := by
  induction lines generalizing st line with
  | nil =>
      cases rest with
      | nil => rfl
      | cons next rest =>
          have hnot : ¬ hasNumber erange num next = true := by
            rw [hnext next rfl]
            exact Bool.false_ne_true
          exact if_neg hnot
  | cons next lines ih =>
      rw [List.cons_append, responseLoop, if_pos (hsame next List.mem_cons_self),
        ih _ _ fun l hl => hsame l (List.mem_cons_of_mem _ hl)]
      rfl

theorem evaluateQuery_chunk {c : Chunk} {rest : List Bytes} (h : c.Taken erange rest)
    (st : QueryState) :
    evaluateQuery erange st c.spec c.line (c.responses ++ rest) =
      (false, processed st c, rest) := by
  have htype := h.query.type_eq
  rw [evaluateQuery, h.query.number, if_neg Bool.false_ne_true, getReqType]
  cases hcolon : afterColon c.line with
  | none =>
      rw [hcolon] at htype
      exact nomatch htype
  | some type =>
      rw [hcolon] at htype
      dsimp only
      rw [show type.head?.bind ReqType.ofByte = some c.type from htype]
      cases hresp : c.responses with
      | nil =>
          rw [h.last hresp, processed, hresp]
          rfl
      | cons line lines =>
          have hsame := h.same
          rw [hresp, List.tail_cons] at hsame
          dsimp only
          rw [List.cons_append, ← Chunk.num, responseLoop_eq _ _ _ _ hsame h.next, processed, hresp]

/-- One chunk of the analysis. -/
theorem analyze_chunk {c : Chunk} {rest : List Bytes} (h : c.Taken erange rest)
    (st : QueryState) :
    analyze erange st (c.lines ++ rest) = analyze erange (processed st c) rest := by
  rw [analyze, Chunk.lines, List.cons_append, List.length_cons, analyzeLoop,
    if_neg (not_not_intro h.query.head), h.query.spec_eq]
  dsimp only
  rw [evaluateQuery_chunk h]
  refine analyzeLoop_eq erange ?_ _
  rw [List.length_append]
  exact Nat.le_add_left _ _

/-- The analysis of chunks. -/
theorem analyze_chunks {cs : List Chunk} {tail : List Bytes} (h : Readable erange cs tail)
    (st : QueryState) :
    analyze erange st (cs.flatMap Chunk.lines ++ tail) =
      analyze erange (cs.foldl processed st) tail := by
  induction h generalizing st with
  | nil tail => rfl
  | cons htaken _ ih =>
      rw [List.flatMap_cons, List.append_assoc, analyze_chunk htaken, ih]
      rfl

/-- One more chunk. -/
theorem Readable.concat {cs : List Chunk} {c : Chunk} {tail : List Bytes}
    (h : Readable erange cs (c.lines ++ tail)) (hc : c.Taken erange tail) :
    Readable erange (cs ++ [c]) tail := by
  generalize hall : c.lines ++ tail = all at h
  induction h with
  | nil => exact .cons hc (.nil tail)
  | cons htaken _ ih =>
      subst hall
      refine .cons ?_ (ih rfl)
      rw [List.append_eq, List.flatMap_append, List.append_assoc, List.flatMap_singleton]
      exact htaken

theorem Readable.taken {cs before after : List Chunk} {c : Chunk} {tail : List Bytes}
    (h : Readable erange cs tail) (heq : cs = before ++ c :: after) :
    c.Taken erange (after.flatMap Chunk.lines ++ tail) := by
  induction h generalizing before with
  | nil => exact absurd heq.symm (List.append_ne_nil_of_right_ne_nil _ (List.cons_ne_nil _ _))
  | cons htaken _ ih =>
      cases before with
      | nil =>
          obtain ⟨rfl, rfl⟩ := List.cons.inj heq
          exact htaken
      | cons d before => exact ih (List.cons.inj heq).2

/-- A line is read as one query only. -/
theorem ReadsQuery.unique {line : Bytes} {type type' : ReqType} {spec spec' : Bytes}
    (h : ReadsQuery erange line type spec) (h' : ReadsQuery erange line type' spec') :
    type = type' ∧ spec = spec' :=
  ⟨Option.some.inj (h.type_eq.symm.trans h'.type_eq),
    Option.some.inj (h.spec_eq.symm.trans h'.spec_eq)⟩

/-- A line that is not read as a query is an error. -/
theorem analyze_ne_zero {line : Bytes} (h : ∀ type spec, ¬ ReadsQuery erange line type spec)
    (st : QueryState) (lines : List Bytes) : (analyze erange st (line :: lines)).1 ≠ 0 := by
  rw [analyze, List.length_cons, analyzeLoop]
  split
  · exact (by decide : (-1 : Int) ≠ 0)
  · next hhead =>
      cases hspec : (afterColon line).bind afterColon with
      | none => exact (by decide : (-1 : Int) ≠ 0)
      | some spec =>
          dsimp only
          cases hstatus : swlibAtoiStatus erange (line.drop 1) with
          | true =>
              rw [evaluateQuery, if_pos hstatus]
              exact (by decide : (1 : Int) ≠ 0)
          | false =>
              rw [evaluateQuery, hstatus, if_neg Bool.false_ne_true, getReqType]
              cases hcolon : afterColon line with
              | none => exact (by decide : (1 : Int) ≠ 0)
              | some rest =>
                  dsimp only
                  cases htype : rest.head?.bind ReqType.ofByte with
                  | none => exact (by decide : (1 : Int) ≠ 0)
                  | some type =>
                      refine absurd ⟨not_not.mp hhead, hstatus, ?_, hspec⟩ (h type spec)
                      rw [hcolon]
                      exact htype

/-! ## What is recorded -/

/-- A property that each step adds to is one of the start or of one of the steps. -/
theorem foldl_or {α β : Type} {f : β → α → β} {p : β → Prop} {q : α → Prop}
    (hstep : ∀ b a, p (f b a) ↔ p b ∨ q a) (as : List α) (b : β) :
    p (as.foldl f b) ↔ p b ∨ ∃ a ∈ as, q a := by
  induction as generalizing b with
  | nil => simp
  | cons a as ih =>
      rw [List.foldl_cons, ih, hstep, or_assoc]
      simp

/-- A list that each step appends to. -/
theorem foldl_append_eq {α β γ : Type} {f : β → α → β} {p : β → List γ} {q : α → List γ}
    (hstep : ∀ b a, p (f b a) = p b ++ q a) (as : List α) (b : β) :
    p (as.foldl f b) = p b ++ as.flatMap q := by
  induction as generalizing b with
  | nil => simp
  | cons a as ih => rw [List.foldl_cons, ih, hstep, List.flatMap_cons, List.append_assoc]

/-- A response without a fifth field: with fewer than four colons. -/
def EmptyResponse (line : Bytes) : Prop := line.count 58 < 4

theorem count_of_afterColon_none {s : Bytes} (h : afterColon s = none) : s.count 58 = 0 := by
  rw [afterColon] at h
  cases hdrop : s.dropWhile (· != 58) with
  | nil =>
      rw [List.dropWhile_eq_nil_iff] at hdrop
      refine List.count_eq_zero.mpr fun hmem => ?_
      exact absurd (hdrop 58 hmem) (by decide)
  | cons b t =>
      rw [hdrop] at h
      exact nomatch h

theorem count_of_afterColon_some {s t : Bytes} (h : afterColon s = some t) :
    s.count 58 = t.count 58 + 1 := by
  have hfront : (s.takeWhile (· != 58)).count 58 = 0 := by
    refine List.count_eq_zero.mpr fun hmem => ?_
    exact absurd (List.mem_takeWhile_imp hmem) (by decide)
  rw [afterColon] at h
  cases hdrop : s.dropWhile (· != 58) with
  | nil =>
      rw [hdrop] at h
      exact nomatch h
  | cons b u =>
      have hhead := List.head?_dropWhile_not (· != 58) s
      rw [hdrop] at h hhead
      obtain rfl : u = t := Option.some.inj h
      have hb : b = 58 := by simpa using hhead
      rw [← List.takeWhile_append_dropWhile (l := s), hdrop, List.count_append, hfront, hb,
        List.count_cons_self, Nat.zero_add]

/-- A response is empty just when nothing is found behind four colons. -/
theorem checkRequisiteResponse_eq_none {line : Bytes} :
    checkRequisiteResponse line = none ↔ EmptyResponse line := by
  rw [checkRequisiteResponse, EmptyResponse]
  cases h1 : afterColon line with
  | none =>
      rw [count_of_afterColon_none h1]
      exact iff_of_true rfl (by decide)
  | some s1 =>
      rw [count_of_afterColon_some h1, Option.bind_some]
      cases h2 : afterColon s1 with
      | none =>
          rw [count_of_afterColon_none h2]
          exact iff_of_true rfl (by decide)
      | some s2 =>
          rw [count_of_afterColon_some h2, Option.bind_some]
          cases h3 : afterColon s2 with
          | none =>
              rw [count_of_afterColon_none h3]
              exact iff_of_true rfl (by decide)
          | some s3 =>
              rw [count_of_afterColon_some h3, Option.bind_some]
              cases h4 : afterColon s3 with
              | none =>
                  rw [count_of_afterColon_none h4]
                  exact iff_of_true rfl (by decide)
              | some s4 =>
                  rw [count_of_afterColon_some h4]
                  exact iff_of_false (fun h => nomatch h) (by omega)

/-! ### One response -/

variable {type : ReqType} {spec : Bytes}

theorem record_pre_iff (st : QueryState) (line : Bytes) :
    (record type spec st line).req.preResult ≠ 0 ↔
      st.req.preResult ≠ 0 ∨ (type = .pre ∧ EmptyResponse line) := by
  rw [← checkRequisiteResponse_eq_none]
  cases type <;> cases h : checkRequisiteResponse line <;> simp [record, recordReq, h]

theorem record_co_iff (st : QueryState) (line : Bytes) :
    (record type spec st line).req.coResult ≠ 0 ↔
      st.req.coResult ≠ 0 ∨ (type = .co ∧ EmptyResponse line) := by
  rw [← checkRequisiteResponse_eq_none]
  cases type <;> cases h : checkRequisiteResponse line <;> simp [record, recordReq, h]

theorem record_ex_iff (st : QueryState) (line : Bytes) :
    (record type spec st line).req.exResult ≠ 0 ↔
      st.req.exResult ≠ 0 ∨ (type = .ex ∧ ¬ EmptyResponse line) := by
  rw [← checkRequisiteResponse_eq_none]
  cases type <;> cases h : checkRequisiteResponse line <;> simp [record, recordReq, h]

/-- The set that was opened last gets the responses that are not empty. -/
theorem foldl_addToSet (sets : List SwicatSet) (s : SwicatSet) (resps : List Bytes) :
    resps.foldl addToSet (sets ++ [s]) =
      sets ++ [{ s with responses := s.responses ++ resps }] := by
  induction resps generalizing s with
  | nil => rw [List.foldl_nil, List.append_nil]
  | cons resp resps ih =>
      rw [List.foldl_cons, addToSet, List.modifyLast_concat, ih, List.append_assoc]
      rfl

theorem foldl_recordSr (sl : List SwicatSc) (sc : SwicatSc) (lines : List Bytes) :
    lines.foldl recordSr (sl ++ [sc]) = sl ++ [{ sc with sr := sc.sr ++ lines }] := by
  induction lines generalizing sc with
  | nil => rw [List.foldl_nil, List.append_nil]
  | cons line lines ih =>
      rw [List.foldl_cons, recordSr, List.modifyLast_concat, ih, List.append_assoc]
      rfl

theorem foldl_record_sl (st : QueryState) (lines : List Bytes) :
    (lines.foldl (record type spec) st).sl = st.sl.map fun sl => lines.foldl recordSr sl := by
  induction lines generalizing st with
  | nil => exact Option.map_id'.symm
  | cons line lines ih =>
      rw [List.foldl_cons, ih, record, Option.map_map]
      rfl

/-- Sets that get each response of one type get the responses of that type. -/
theorem foldl_record_sets {sets : QueryState → List SwicatSet} {t : ReqType}
    (hstep : ∀ st line, sets (record type spec st line) =
      if type = t then (checkRequisiteResponse line).toList.foldl addToSet (sets st) else sets st)
    (st : QueryState) (lines : List Bytes) :
    sets (lines.foldl (record type spec) st) =
      if type = t then (lines.filterMap checkRequisiteResponse).foldl addToSet (sets st)
      else sets st := by
  induction lines generalizing st with
  | nil =>
      rw [List.foldl_nil, List.filterMap_nil, List.foldl_nil, ite_self]
  | cons line lines ih =>
      rw [List.foldl_cons, ih, hstep]
      by_cases ht : type = t
      · rw [if_pos ht, if_pos ht, if_pos ht]
        cases h : checkRequisiteResponse line with
        | none => rw [List.filterMap_cons_none h]; rfl
        | some resp => rw [List.filterMap_cons_some h]; rfl
      · rw [if_neg ht, if_neg ht, if_neg ht]

theorem foldl_record_preSetArray (st : QueryState) (lines : List Bytes) :
    (lines.foldl (record type spec) st).req.preSetArray =
      if type = .pre then
        (lines.filterMap checkRequisiteResponse).foldl addToSet st.req.preSetArray
      else st.req.preSetArray := by
  refine @foldl_record_sets _ _ (fun st => st.req.preSetArray) _ (fun st line => ?_) st lines
  cases type <;> cases h : checkRequisiteResponse line <;> simp [record, recordReq, h]

theorem foldl_record_exSetArray (st : QueryState) (lines : List Bytes) :
    (lines.foldl (record type spec) st).req.exSetArray =
      if type = .ex then
        (lines.filterMap checkRequisiteResponse).foldl addToSet st.req.exSetArray
      else st.req.exSetArray := by
  refine @foldl_record_sets _ _ (fun st => st.req.exSetArray) _ (fun st line => ?_) st lines
  cases type <;> cases h : checkRequisiteResponse line <;> simp [record, recordReq, h]

/-! ### One chunk -/

/-- The set of a chunk of a type. -/
def Chunk.sets (type : ReqType) (c : Chunk) : List SwicatSet :=
  if c.type = type then [⟨c.spec, c.responses.filterMap checkRequisiteResponse⟩] else []

theorem processed_sl (st : QueryState) (c : Chunk) :
    (processed st c).sl = st.sl.map (· ++ [c.toSc]) := by
  rw [processed, foldl_record_sl, Option.map_map]
  refine congrArg (fun f => Option.map f st.sl) (funext fun sl => ?_)
  exact foldl_recordSr sl _ c.responses

theorem processed_preSetArray (st : QueryState) (c : Chunk) :
    (processed st c).req.preSetArray = st.req.preSetArray ++ c.sets .pre := by
  rw [processed, foldl_record_preSetArray, Chunk.sets]
  cases htype : c.type with
  | pre =>
      simp only [openSet, if_true]
      exact foldl_addToSet _ _ _
  | co => simp [openSet]
  | ex => simp [openSet]

theorem processed_exSetArray (st : QueryState) (c : Chunk) :
    (processed st c).req.exSetArray = st.req.exSetArray ++ c.sets .ex := by
  rw [processed, foldl_record_exSetArray, Chunk.sets]
  cases htype : c.type with
  | ex =>
      simp only [openSet, if_true]
      exact foldl_addToSet _ _ _
  | co => simp [openSet]
  | pre => simp [openSet]

theorem openSet_results (type : ReqType) (spec : Bytes) (req : SwicatReq) :
    (openSet type spec req).preResult = req.preResult ∧
      (openSet type spec req).coResult = req.coResult ∧
      (openSet type spec req).exResult = req.exResult := by
  cases type <;> exact ⟨rfl, rfl, rfl⟩

theorem processed_pre_iff (st : QueryState) (c : Chunk) :
    (processed st c).req.preResult ≠ 0 ↔
      st.req.preResult ≠ 0 ∨ (c.type = .pre ∧ ∃ line ∈ c.responses, EmptyResponse line) := by
  rw [processed, foldl_or (p := fun st : QueryState => st.req.preResult ≠ 0) record_pre_iff]
  simp only [(openSet_results c.type c.spec st.req).1, exists_and_left, and_left_comm]

theorem processed_co_iff (st : QueryState) (c : Chunk) :
    (processed st c).req.coResult ≠ 0 ↔
      st.req.coResult ≠ 0 ∨ (c.type = .co ∧ ∃ line ∈ c.responses, EmptyResponse line) := by
  rw [processed, foldl_or (p := fun st : QueryState => st.req.coResult ≠ 0) record_co_iff]
  simp only [(openSet_results c.type c.spec st.req).2.1, exists_and_left, and_left_comm]

theorem processed_ex_iff (st : QueryState) (c : Chunk) :
    (processed st c).req.exResult ≠ 0 ↔
      st.req.exResult ≠ 0 ∨ (c.type = .ex ∧ ∃ line ∈ c.responses, ¬ EmptyResponse line) := by
  rw [processed, foldl_or (p := fun st : QueryState => st.req.exResult ≠ 0) record_ex_iff]
  simp only [(openSet_results c.type c.spec st.req).2.2, exists_and_left, and_left_comm]

/-! ### All chunks -/

theorem foldl_processed_sl (st : QueryState) (cs : List Chunk) :
    (cs.foldl processed st).sl = st.sl.map (· ++ cs.map Chunk.toSc) := by
  induction cs generalizing st with
  | nil => simp
  | cons c cs ih =>
      rw [List.foldl_cons, ih, processed_sl, Option.map_map]
      refine congrArg (fun f => Option.map f st.sl) (funext fun sl => ?_)
      exact List.append_assoc sl _ _

/-- What the analysis of chunks has written. -/
structure Recorded (cs : List Chunk) (want : Bool) (st : QueryState) : Prop where
  sl : st.sl = if want then some (cs.map Chunk.toSc) else none
  preSetArray : st.req.preSetArray = cs.flatMap (Chunk.sets .pre)
  exSetArray : st.req.exSetArray = cs.flatMap (Chunk.sets .ex)
  pre : st.req.preResult ≠ 0 ↔
    ∃ c ∈ cs, c.type = .pre ∧ ∃ line ∈ c.responses, EmptyResponse line
  co : st.req.coResult ≠ 0 ↔
    ∃ c ∈ cs, c.type = .co ∧ ∃ line ∈ c.responses, EmptyResponse line
  ex : st.req.exResult ≠ 0 ↔
    ∃ c ∈ cs, c.type = .ex ∧ ∃ line ∈ c.responses, ¬ EmptyResponse line

theorem recorded_foldl (cs : List Chunk) (want : Bool) :
    Recorded cs want (cs.foldl processed ⟨{}, if want then some [] else none⟩) where
  sl := by
    rw [foldl_processed_sl]
    cases want <;> rfl
  preSetArray :=
    foldl_append_eq (p := fun st : QueryState => st.req.preSetArray) processed_preSetArray cs _
  exSetArray :=
    foldl_append_eq (p := fun st : QueryState => st.req.exSetArray) processed_exSetArray cs _
  pre := by
    rw [foldl_or (p := fun st : QueryState => st.req.preResult ≠ 0) processed_pre_iff]
    exact or_iff_right (not_not_intro rfl)
  co := by
    rw [foldl_or (p := fun st : QueryState => st.req.coResult ≠ 0) processed_co_iff]
    exact or_iff_right (not_not_intro rfl)
  ex := by
    rw [foldl_or (p := fun st : QueryState => st.req.exResult ≠ 0) processed_ex_iff]
    exact or_iff_right (not_not_intro rfl)

/-- A text that is taken in chunks to its end is analyzed, and they are recorded. -/
theorem swicatReqAnalyze_chunks {cs : List Chunk} {text : CString} (want : Bool)
    (h : Readable erange cs []) (htext : queryLines text = cs.flatMap Chunk.lines) :
    (swicatReqAnalyze erange want text).1 = 0 ∧
      Recorded cs want (swicatReqAnalyze erange want text).2 := by
  have hrun : analyze erange ⟨{}, if want then some [] else none⟩ (queryLines text) =
      (0, cs.foldl processed ⟨{}, if want then some [] else none⟩) := by
    rw [htext, ← List.append_nil (cs.flatMap Chunk.lines), analyze_chunks h, analyze_nil]
  rw [swicatReqAnalyze, hrun]
  exact ⟨rfl, recorded_foldl cs want⟩

/-- A text that is taken in chunks up to a line that is no query is an error. -/
theorem swicatReqAnalyze_stray {cs : List Chunk} {text : CString} {line : Bytes}
    {rest : List Bytes} (want : Bool) (h : Readable erange cs (line :: rest))
    (htext : queryLines text = cs.flatMap Chunk.lines ++ line :: rest)
    (hline : ∀ type spec, ¬ ReadsQuery erange line type spec) :
    (swicatReqAnalyze erange want text).1 ≠ 0 := by
  have hne := analyze_ne_zero hline
  rw [swicatReqAnalyze, htext, analyze_chunks h]
  dsimp only
  rw [if_neg (hne _ _)]
  exact hne _ _

end Swbis.Misc
