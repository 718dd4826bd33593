import Mathlib.Data.List.Infix
import Swbis.Lib.ObjList
import Swbis.Misc.Swicol

/-!
# Events by their code

The lines of the events are kept in a list, `<code>:<text>` each, with a newline
between what belongs to one task and the next.  `swicol_rpsh_get_event_message`
looks for the text of the first event with a code, from an index on.

It takes a line for one with the code if the code and a colon are anywhere in the
line.  That is right as long as the first such line is one with the code.
-/

namespace Swbis.Misc

open CLib

/-! ## The code -/

/-- `%d:` -/
def eventTag (eventValue : Int) : Bytes :=
  (if eventValue < 0 then [45] else []) ++ decimal.render eventValue.natAbs ++ [58]

/-- `strar_get`, on the strings of the list. -/
def strarGetString (eventList : List Bytes) (ix : Int) : Option Bytes :=
  if ix < 0 then none else eventList[ix.toNat]?

/-- What `swicol_rpsh_get_event_message` returns, and what it stores at `p_index`. -/
structure EventMessage where
  retval : Option Bytes
  pIndex : Option Int
deriving DecidableEq

/-- The loop of `swicol_rpsh_get_event_message`, at the line of an index.  The fuel is
the number of lines. -/
def getEventMessageLoop (eventList : List Bytes) (tmp : Bytes) : Nat → Int → EventMessage
  | 0, ix => ⟨none, some ix⟩
  | fuel + 1, ix =>
      match strarGetString eventList ix with
      | none => ⟨none, some ix⟩
      | some s =>
          if tmp <:+: s then
            if 58 ∈ s then ⟨some ((s.dropWhile (· != 58)).drop 1), some ix⟩ else ⟨none, none⟩
          else getEventMessageLoop eventList tmp fuel (ix + 1)

/-- `set_selected_index` -/
def setSelectedIndex (eventIndexM firstCurrentEvent : Int) : Int :=
  if firstCurrentEvent < 0 then eventIndexM else firstCurrentEvent

/-- `swicol_rpsh_get_event_message` -/
def swicolRpshGetEventMessage (eventList : List Bytes) (eventIndexM eventValue
    firstCurrentEvent : Int) : EventMessage :=
  getEventMessageLoop eventList (eventTag eventValue) (eventList.length + 1)
    (setSelectedIndex eventIndexM firstCurrentEvent)

/-! ## What it is for -/

/-- The code of a line, up to its first colon, is the value. -/
def HasCode (eventValue : Int) (line : Bytes) : Bool := (eventTag eventValue).isPrefixOf line

/-- The code and a colon are in the line. -/
def HasTag (eventValue : Int) (line : Bytes) : Bool := decide (eventTag eventValue <:+: line)

/-- The result is the text of the first line with the code, from an index on, and
its index. -/
def FindsEvent (eventList : List Bytes) (start eventValue : Int) (m : EventMessage) : Prop :=
  match (eventList.drop start.toNat).findIdx? (HasCode eventValue) with
  | none => m.retval = none
  | some k =>
      m.retval = (eventList[start.toNat + k]?).map (fun line => (line.dropWhile (· != 58)).drop 1) ∧
        m.pIndex = some (start.toNat + k : Nat)

/-! ## The loop -/

section

variable {eventList : List Bytes} {eventValue : Int}

theorem colon_mem_of_hasTag {line : Bytes} (h : eventTag eventValue <:+: line) : 58 ∈ line :=
  h.subset (List.mem_append_right _ List.mem_cons_self)

/-- From an index on, the loop finds the first line with the tag. -/
theorem getEventMessageLoop_eq (n : Nat) :
    ∀ i : Nat, eventList.length < i + n →
      getEventMessageLoop eventList (eventTag eventValue) n i =
        match (eventList.drop i).findIdx? (HasTag eventValue) with
        | none => ⟨none, some (max i eventList.length : Nat)⟩
        | some k =>
            ⟨(eventList[i + k]?).map (fun line => (line.dropWhile (· != 58)).drop 1),
              some (i + k : Nat)⟩ := by
  induction n with
  | zero =>
      intro i hi
      rw [List.drop_of_length_le (by omega), List.findIdx?_nil]
      simp only [getEventMessageLoop, Nat.max_eq_left (show eventList.length ≤ i by omega)]
  | succ n ih =>
      intro i hi
      have hget : strarGetString eventList i = eventList[i]? := by
        rw [strarGetString, if_neg (by omega)]
        rfl
      rw [getEventMessageLoop, hget]
      rcases Nat.lt_or_ge i eventList.length with hlt | hge
      · rw [List.getElem?_eq_getElem hlt, List.drop_eq_getElem_cons hlt, List.findIdx?_cons]
        by_cases htag : eventTag eventValue <:+: eventList[i]
        · have hhas : HasTag eventValue eventList[i] = true := decide_eq_true htag
          simp only [if_pos htag, if_pos (colon_mem_of_hasTag htag), hhas, if_true, Nat.add_zero,
            List.getElem?_eq_getElem hlt, Option.map_some]
        · have hhas : HasTag eventValue eventList[i] = false := decide_eq_false htag
          have hnext := ih (i + 1) (by omega)
          rw [Int.natCast_succ] at hnext
          simp only [if_neg htag, hhas, hnext, Bool.false_eq_true, if_false]
          cases (eventList.drop (i + 1)).findIdx? (HasTag eventValue) with
          | none => simp only [Option.map_none, Nat.max_eq_right (show i + 1 ≤ eventList.length from hlt),
              Nat.max_eq_right hlt.le]
          | some k =>
              simp only [Option.map_some, show i + 1 + k = i + (k + 1) by omega]
      · rw [List.getElem?_eq_none hge, List.drop_of_length_le hge, List.findIdx?_nil]
        simp only [Nat.max_eq_left hge]

theorem hasTag_of_hasCode {line : Bytes} (h : HasCode eventValue line = true) :
    HasTag eventValue line = true :=
  decide_eq_true (List.isPrefixOf_iff_prefix.mp h).isInfix

end

/-! ## The event that is found -/

/-- The first line with the tag, from the start on, has the code.  A start in front of
the list finds nothing. -/
def EventFindable (eventList : List Bytes) (start eventValue : Int) : Prop :=
  if start < 0 then ∀ line ∈ eventList, HasCode eventValue line = false
  else FirstGood (HasCode eventValue) (HasTag eventValue) (eventList.drop start.toNat)

section

variable {eventList : List Bytes} {start eventValue : Int}

/-- A start in front of the list. -/
theorem getEventMessage_negative (h : start < 0) (n : Nat) :
    getEventMessageLoop eventList (eventTag eventValue) (n + 1) start = ⟨none, some start⟩ := by
  rw [getEventMessageLoop, strarGetString, if_pos h]

theorem findsEvent_negative (h : start < 0) :
    FindsEvent eventList start eventValue ⟨none, some start⟩ ↔
      ∀ line ∈ eventList, HasCode eventValue line = false := by
  have hzero : start.toNat = 0 := Int.toNat_of_nonpos h.le
  rw [FindsEvent, hzero, List.drop_zero, ← List.findIdx?_eq_none_iff]
  cases hfind : eventList.findIdx? (HasCode eventValue) with
  | none => exact iff_of_true rfl rfl
  | some k =>
      refine iff_of_false ?_ (by simp)
      rintro ⟨-, hindex⟩
      have hk := Option.some.inj hindex
      omega

/-- The first line with the tag is the one to find if it is the first one with the
code. -/
theorem findsEvent_iff_findIdx? {i : Nat} {m : EventMessage}
    (hm : m = match (eventList.drop i).findIdx? (HasTag eventValue) with
      | none => ⟨none, some (max i eventList.length : Nat)⟩
      | some k =>
          ⟨(eventList[i + k]?).map (fun line => (line.dropWhile (· != 58)).drop 1),
            some (i + k : Nat)⟩) :
    FindsEvent eventList i eventValue m ↔
      (eventList.drop i).findIdx? (HasTag eventValue) =
        (eventList.drop i).findIdx? (HasCode eventValue) := by
  rw [FindsEvent, Int.toNat_natCast, hm]
  cases hcode : (eventList.drop i).findIdx? (HasCode eventValue) with
  | none =>
      cases htag : (eventList.drop i).findIdx? (HasTag eventValue) with
      | none => exact iff_of_true rfl rfl
      | some k =>
          obtain ⟨hk, -⟩ := List.findIdx?_eq_some_iff_getElem.mp htag
          rw [List.length_drop] at hk
          refine iff_of_false ?_ (Option.some_ne_none k)
          simp only [List.getElem?_eq_getElem (show i + k < eventList.length by omega),
            Option.map_some]
          exact Option.some_ne_none _
  | some j =>
      cases htag : (eventList.drop i).findIdx? (HasTag eventValue) with
      | none =>
          obtain ⟨hj, hhas, -⟩ := List.findIdx?_eq_some_iff_getElem.mp hcode
          have hnot := List.findIdx?_eq_none_iff.mp htag _ (List.getElem_mem hj)
          rw [hasTag_of_hasCode hhas] at hnot
          cases hnot
      | some k =>
          constructor
          · rintro ⟨-, hindex⟩
            have hk := Option.some.inj hindex
            congr 1
            omega
          · intro hkj
            rw [Option.some.inj hkj]
            exact ⟨rfl, rfl⟩

end

/-- For the lines of any text, behind any list: the first event with a code is found
if no line in front of it has the code and a colon elsewhere. -/
theorem findsEvent_iff (eventString : Bytes) (events : List Bytes) (eventIndexM eventValue
    firstCurrentEvent : Int) :
    let eventList := (convertResultToEventList eventString events).1
    let start := setSelectedIndex eventIndexM firstCurrentEvent
    FindsEvent eventList start eventValue
        (swicolRpshGetEventMessage eventList eventIndexM eventValue firstCurrentEvent) ↔
      EventFindable eventList start eventValue := by
  intro eventList start
  change FindsEvent eventList start eventValue
    (getEventMessageLoop eventList (eventTag eventValue) (eventList.length + 1) start) ↔ _
  rw [EventFindable]
  by_cases hneg : start < 0
  · rw [if_pos hneg, getEventMessage_negative hneg]
    exact findsEvent_negative hneg
  · obtain ⟨i, hi⟩ := Int.eq_ofNat_of_zero_le (Int.not_lt.mp hneg)
    rw [if_neg hneg, hi, Int.toNat_natCast, ← findIdx?_eq_iff_firstGood fun _ => hasTag_of_hasCode]
    exact findsEvent_iff_findIdx? (getEventMessageLoop_eq _ i (by omega))

/-- The line of the event 1305 is taken for the one of the event 305. -/
theorem event_taken_for_other :
    ¬∀ (eventString : Bytes) (events : List Bytes) (eventIndexM eventValue firstCurrentEvent : Int),
      let eventList := (convertResultToEventList eventString events).1
      FindsEvent eventList (setSelectedIndex eventIndexM firstCurrentEvent) eventValue
        (swicolRpshGetEventMessage eventList eventIndexM eventValue firstCurrentEvent) := by
  intro h
  have hfinds := h (literal "1305:a\n305:0\n") [] 0 305 0
  have hindex : (swicolRpshGetEventMessage [literal "1305:a", literal "305:0", [10]] 0 305 0).pIndex =
      some 1 := hfinds.2
  exact absurd hindex (by decide)

end Swbis.Misc
