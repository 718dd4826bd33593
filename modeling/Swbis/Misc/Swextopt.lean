import Swbis.Lib.Search
import Swbis.Misc.StrobStrtok
import Swbis.Misc.Swheader
import Swbis.Misc.Swssh

/-!
# Extended options

The table of extended options is filled from the command line first, and then
from defaults files.  A line of a defaults file is qualified with the name of a
utility or it is global; `precedence` says which line decides an option, and
`optionPrecedence_iff` when the table comes to hold that value.

The table is sent to other hosts as a shell script, one assignment for each
option; `writeExtendedOptions_iff` says when the shell assigns the values.
-/

namespace Swbis.Misc

open CLib

/-! ## The table -/

/-- `struct extendedOptions` -/
structure ExtendedOption where
  optionSet : Bool
  utilSet : Bool
  optionName : CString
  defaultValue : Option CString
  value : Option CString
  appFlags : Nat
deriving DecidableEq

/-- What `getExtendedOption` returns, and what it says through its pointers. -/
structure OptionLookup where
  value : Option CString
  /-- Not written when there is no such option. -/
  isSet : Option Bool
  isOptSet : Bool
  isUtilSet : Bool
deriving DecidableEq

/-- `getExtendedOption` -/
def getExtendedOption (optionname : CString) : List ExtendedOption → OptionLookup
  | [] => ⟨none, none, false, false⟩
  | eop :: rest =>
      if eop.optionName = optionname then
        match eop.value with
        | some v => ⟨some v, some true, eop.optionSet, eop.utilSet⟩
        | none => ⟨eop.defaultValue, some false, eop.optionSet, eop.utilSet⟩
      else getExtendedOption optionname rest

/-- `setExtendedOption` -/
def setExtendedOption (optionname : CString) (value : Option CString) (optSet isUtilOption : Bool) :
    List ExtendedOption → Int × List ExtendedOption
  | [] => (-1, [])
  | eop :: rest =>
      if eop.optionName = optionname then
        if eop.utilSet = true ∧ isUtilOption = false then (0, eop :: rest)
        else if optSet = true ∧ eop.optionSet = true then (0, eop :: rest)
        else (0, { eop with utilSet := eop.utilSet || isUtilOption, value := value } :: rest)
      else
        let (code, rest) := setExtendedOption optionname value optSet isUtilOption rest
        (code, eop :: rest)

/-! ## Reading a defaults file -/

/-- `strob_strtok`, on a buffer that is to be scanned from `tok` on: where the token is, the buffer,
and where the next call goes on. -/
def strobStrtok (delim : UInt8 → Bool) (buf : Bytes) (tok : Nat) : Option (Nat × Bytes × Nat) :=
  let start := tok + ((buf.drop tok).takeWhile delim).length
  let s := (CString.ofMem (buf.drop start)).bytes
  if s = [] then none
  else
    match s.findIdx? delim with
    | none => some (start, buf, start + s.length)
    | some p =>
        let buf := buf.set (start + p) 0
        let m := start + p + 1
        some (start, buf, m + ((buf.drop m).takeWhile delim).length)

/-- The token is in what stands behind the delimiters. -/
theorem strobStrtok_eq {delim : CString} {s : Bytes} (hs : 0 ∉ s) (front spare : Bytes) :
    strobStrtok (isDelim delim) (front ++ (s ++ 0 :: spare)) front.length =
      let skipped := front ++ s.takeWhile (isDelim delim)
      let v := s.dropWhile (isDelim delim)
      if v = [] then none
      else
        match v.findIdx? (isDelim delim) with
        | none => some (skipped.length, skipped ++ (v ++ 0 :: spare), skipped.length + v.length)
        | some p => some (skipped.length,
            skipped ++ (v.take p ++ 0 :: (v.drop (p + 1) ++ 0 :: spare)),
            skipped.length + p + 1 + ((v.drop (p + 1)).takeWhile (isDelim delim)).length) := by
  have hv : 0 ∉ s.dropWhile (isDelim delim) := fun h => hs (List.dropWhile_suffix _ |>.subset h)
  have hstart : front.length + (((front ++ (s ++ 0 :: spare)).drop front.length).takeWhile
      (isDelim delim)).length = (front ++ s.takeWhile (isDelim delim)).length := by
    rw [List.drop_left, takeWhile_append_nul, List.length_append]
  have hmem : (CString.ofMem ((front ++ (s ++ 0 :: spare)).drop
      (front ++ s.takeWhile (isDelim delim)).length)).bytes = s.dropWhile (isDelim delim) := by
    rw [StrtokBuf.block_split (isDelim delim) front s spare, List.drop_left]
    exact congrArg CString.bytes (CString.ofMem_append_nul ⟨_, hv⟩ spare)
  rw [strobStrtok]
  simp only [hstart, hmem]
  rw [StrtokBuf.block_split (isDelim delim) front s spare]
  generalize front ++ s.takeWhile (isDelim delim) = skipped
  generalize s.dropWhile (isDelim delim) = v at hv
  cases hfind : v.findIdx? (isDelim delim) with
  | none => rfl
  | some p =>
      obtain ⟨hp, -, -⟩ := List.findIdx?_eq_some_iff_getElem.mp hfind
      have hlen : (v.take p).length = p := List.length_take_of_le hp.le
      have hset : (skipped ++ (v ++ 0 :: spare)).set (skipped.length + p) 0 =
          skipped ++ (v.take p ++ 0 :: (v.drop (p + 1) ++ 0 :: spare)) := by
        rw [List.set_append_right _ _ (Nat.le_add_right _ _), Nat.add_sub_cancel_left,
          List.set_append_left _ _ hp, List.set_eq_take_append_cons_drop, if_pos hp, List.append_assoc,
          List.cons_append]
      have hdrop : (skipped ++ (v.take p ++ 0 :: (v.drop (p + 1) ++ 0 :: spare))).drop
          (skipped.length + p + 1) = v.drop (p + 1) ++ 0 :: spare := by
        rw [Nat.add_assoc, List.drop_length_add_append, List.drop_append, hlen, Nat.add_sub_cancel_left,
          List.drop_of_length_le (by omega)]
        rfl
      dsimp only
      rw [hset, hdrop, takeWhile_append_nul]

/-- It is the call on a block with a string at `tok_`. -/
theorem strobStrtok_call {delim : CString} {buf : StrtokBuf} {s : Bytes} (h : buf.Rest s) :
    ∃ buf', buf.strobStrtok .null delim =
        .returned ((strobStrtok (isDelim delim) buf.str buf.tok).map Prod.fst, buf') ∧
      ∀ next, strobStrtok (isDelim delim) buf.str buf.tok = some next →
        next.2 = (buf'.str, buf'.tok) := by
  obtain ⟨str, tok⟩ := buf
  obtain ⟨hs, front, spare, hstr, htok⟩ := h
  dsimp only at hstr htok
  subst hstr htok
  rw [strobStrtok_eq hs]
  by_cases hne : s = []
  · subst hne
    rw [List.nil_append, StrtokBuf.strobStrtok_end]
    exact ⟨_, rfl, nofun⟩
  have hv : 0 ∉ s.dropWhile (isDelim delim) := fun h => hs (List.dropWhile_suffix _ |>.subset h)
  have hhead := List.head?_dropWhile_not (isDelim delim) s
  rw [StrtokBuf.strobStrtok_skip front hs hne]
  generalize front ++ s.takeWhile (isDelim delim) = skipped
  generalize s.dropWhile (isDelim delim) = v at hv hhead
  dsimp only
  by_cases hvne : v = []
  · subst hvne
    have hend := endToken_none skipped .empty spare
    rw [CString.bytes_empty, CString.strlen_empty, Nat.add_zero, List.nil_append] at hend
    rw [List.findIdx?_nil, Option.map_none, List.nil_append, hend, Outcome.returned_bind,
      StrtokBuf.leaveToken_nil, if_pos rfl]
    exact ⟨_, rfl, nofun⟩
  rw [if_neg hvne]
  cases hfind : v.findIdx? (isDelim delim) with
  | none =>
      rw [Option.map_none, endToken_none skipped ⟨v, hv⟩, Outcome.returned_bind,
        StrtokBuf.leaveToken_last skipped hvne]
      exact ⟨_, rfl, fun next h => by cases h; rfl⟩
  | some p =>
      obtain ⟨hp, hd, -⟩ := List.findIdx?_eq_some_iff_getElem.mp hfind
      have ht : v.take p ≠ [] := by
        intro h
        rcases List.take_eq_nil_iff.mp h with rfl | h
        · obtain ⟨c, l, rfl⟩ := List.exists_cons_of_ne_nil hvne
          exact absurd hd (by simpa using hhead)
        · exact hvne h
      have hlen : (v.take p).length = p := List.length_take_of_le hp.le
      have hw : 0 ∉ v.drop (p + 1) := fun h => hv (List.mem_of_mem_drop h)
      have hblock : v ++ 0 :: spare = v.take p ++ v[p] :: (v.drop (p + 1) ++ 0 :: spare) := by
        rw [← List.cons_append, ← List.drop_eq_getElem_cons hp, ← List.append_assoc,
          List.take_append_drop]
      have hended := endToken_some skipped (t := (⟨v, hv⟩ : CString).take p) ht v[p]
        ⟨v.drop (p + 1), hw⟩ spare
      have hleft := StrtokBuf.leaveToken_ended delim skipped
        (t := (⟨v, hv⟩ : CString).take p) ht ⟨v.drop (p + 1), hw⟩ spare
      simp only [CString.strlen, CString.bytes_take, hlen] at hended hleft
      rw [hblock, Option.map_some, hended, Outcome.returned_bind, hleft]
      exact ⟨_, rfl, fun next h => by cases h; rfl⟩

/-- Which option a keyword is about, for the utility that runs. -/
inductive Scope where
  | util (option : CString)
  | global (option : CString)
  | other
deriving DecidableEq

/-- The tests for a qualified and for a global keyword. -/
def keywordScope (utilityName option : CString) : Scope :=
  if findSub utilityName.bytes option.bytes = some 0 ∧
      option.bytes.getD utilityName.strlen 0 = 46 then
    .util (option.drop (utilityName.strlen + 1))
  else if 46 ∉ option.bytes then .global option
  else .other

/-- The option line of `parseDefaultsFile`: the table, or none if the option is not recognized. -/
def setFromLine (option : CString) (value : Option CString) (isUtilOption doPreserve : Bool)
    (options : List ExtendedOption) : Option (List ExtendedOption) :=
  let found := getExtendedOption option options
  match found.value with
  | none => none
  | some _ =>
      if (found.isUtilSet = false ∧ isUtilOption = false ∧ found.isOptSet = false) ∨
          ((isUtilOption = true ∨ found.isSet = some false) ∧ found.isOptSet = false) then
        some (setExtendedOption option value doPreserve isUtilOption options).2
      else some options

/-- A line of a defaults file. -/
def applyOption (utilityName : CString) (doPreserve : Bool) (option : CString)
    (value : Option CString) (options : List ExtendedOption) : Option (List ExtendedOption) :=
  match keywordScope utilityName option with
  | .util option => setFromLine option value true doPreserve options
  | .global option => setFromLine option value false doPreserve options
  | .other => some options

/-- The loop over the lines of the parsed file. -/
def parseLines (utilityName : CString) (doPreserve : Bool) : Nat → (UInt8 → Bool) → Bytes → Nat →
    List ExtendedOption → Outcome (Int × List ExtendedOption)
  | 0, _, _, _, _ => .outOfFuel
  | fuel + 1, delim, tmp, tok, options =>
      match strobStrtok delim tmp tok with
      | none => .returned (0, options)
      | some (start, tmp, tok) =>
          match swheaderlineGetKeyword (tmp.drop start) with
          | none => .fault
          | some (keyword, line) => do
              let option := CString.ofMem (line.drop keyword)
              let value ← getValue true line
              let line := match value with
                | some (_, _, line) => line
                | none => line
              match applyOption utilityName doPreserve option
                  (value.map fun v => CString.ofMem (line.drop v.1)) options with
              | none => .returned (1, options)
              | some options =>
                  -- Only the first line is looked for with a carriage return.
                  parseLines utilityName doPreserve fuel (· == 10) (tmp.take start ++ line) tok options

/-- `parseDefaultsFile`, from the output of the parser on. -/
def parseDefaultsFile (utilityName : CString) (buf : Bytes) (doPreserve : Bool)
    (options : List ExtendedOption) : Outcome (Int × List ExtendedOption) :=
  let tmp := (CString.ofMem buf).bytes
  parseLines utilityName doPreserve (tmp.length + 1) (fun c => c == 13 || c == 10) tmp 0 options

/-! ## The lines of a parsed file -/

/-- A line of a defaults file. -/
structure OptionLine where
  line : MdLine
  att : line.content.type = .att
deriving DecidableEq

namespace OptionLine

/-- The keyword. -/
def option (l : OptionLine) : CString := l.line.keyword.str

/-- The value, as the parser writes it. -/
def value (l : OptionLine) : CString := l.line.content.value

theorem type_ne_obj (l : OptionLine) : l.line.content.type ≠ .obj := by
  rw [l.att]
  decide

end OptionLine

/-- The effect of the lines of a file: the code, and the table. -/
def applyLines (utilityName : CString) (doPreserve : Bool) : List OptionLine →
    List ExtendedOption → Int × List ExtendedOption
  | [], options => (0, options)
  | l :: ls, options =>
      match applyOption utilityName doPreserve l.option (some l.value) options with
      | none => (1, options)
      | some options => applyLines utilityName doPreserve ls options

/-- A byte from the blank on ends no line. -/
theorem le_of_mem_lineHead {n level : Nat} {type : MdType} {c : UInt8}
    (h : c ∈ lineHead n type level) : 32 ≤ c.toNat := by
  have hdigit : ∀ {d : UInt8}, decimal.isDigit d = true → 32 ≤ d.toNat := by
    intro d hd
    change (decDigit 10 d).isSome = true at hd
    rw [decDigit] at hd
    split at hd
    next hrange => omega
    next => cases hd
  rw [lineHead, lenField] at h
  rcases List.mem_append.mp h with h | h
  · rcases List.mem_append.mp h with h | h
    · rcases List.mem_append.mp h with h | h
      · rcases List.mem_append.mp h with h | h
        · exact hdigit (decimal.isDigit_of_mem_render n c h)
        · rw [(List.mem_replicate.mp h).2]
          decide
      · rcases List.mem_cons.mp h with rfl | h
        · decide
        · rw [List.mem_singleton.mp h]
          cases type <;> decide
    · exact hdigit (decimal.isDigit_of_mem_fixed 2 level c h)
  · rw [List.mem_singleton.mp h]
    decide

section

variable {delim : UInt8 → Bool}

/-- In front of the newline of a line there is no line end. -/
theorem plain_front (hdelim : ∀ c, delim c = true → c = 10 ∨ c = 13) (l : OptionLine)
    (hvalue : ∀ c ∈ l.value.bytes, delim c = false) :
    ∀ c ∈ l.line.head ++ (l.line.keyword.bytes ++ 32 :: l.value.bytes), c ≠ 0 ∧ delim c = false := by
  have hlow : ∀ {c : UInt8}, 32 ≤ c.toNat → c ≠ 0 ∧ delim c = false := by
    intro c hc
    refine ⟨?_, Bool.eq_false_iff.mpr fun hd => ?_⟩
    · rintro rfl
      exact absurd hc (by decide)
    · rcases hdelim c hd with rfl | rfl
      · exact absurd hc (by decide)
      · exact absurd hc (by decide)
  intro c hc
  rcases List.mem_append.mp hc with hc | hc
  · exact hlow (le_of_mem_lineHead hc)
  rcases List.mem_append.mp hc with hc | hc
  · have hplain := (l.line.keyword.mem_plain c hc).1
    rw [Bool.and_eq_true, bne_iff_ne, Bool.not_eq_true'] at hplain
    refine ⟨hplain.1, Bool.eq_false_iff.mpr fun hd => ?_⟩
    rcases hdelim c hd with rfl | rfl
    · exact absurd hplain.2 (by decide)
    · exact absurd hplain.2 (by decide)
  rcases List.mem_cons.mp hc with rfl | hc
  · exact hlow (by decide)
  · refine ⟨?_, hvalue c hc⟩
    rintro rfl
    exact l.value.noNul hc

/-- One call of `strob_strtok` ends a line at its newline. -/
theorem strobStrtok_line (hnewline : delim 10 = true) (hdelim : ∀ c, delim c = true → c = 10 ∨ c = 13)
    (front : Bytes) (l : OptionLine) (back : Bytes) (hvalue : ∀ c ∈ l.value.bytes, delim c = false)
    (hback : delim (back.getD 0 0) = false) :
    strobStrtok delim (front ++ (l.line.image ⟨false, false⟩ ++ back)) front.length =
      some (front.length, front ++ (l.line.image ⟨false, true⟩ ++ back),
        front.length + l.line.size) := by
  have hsplit : ∀ cut, l.line.image ⟨false, cut⟩ =
      (l.line.head ++ (l.line.keyword.bytes ++ 32 :: l.value.bytes)) ++ [if cut then 0 else 10] := by
    intro cut
    rw [MdLine.image, l.line.tail_of_type_ne_obj _ l.type_ne_obj, OptionLine.value]
    simp
  have hsize : l.line.size =
      (l.line.head ++ (l.line.keyword.bytes ++ 32 :: l.value.bytes)).length + 1 := by
    rw [MdLine.size, hsplit, List.length_append, List.length_singleton]
  have hpre := plain_front hdelim l hvalue
  have hne : l.line.head ++ (l.line.keyword.bytes ++ 32 :: l.value.bytes) ≠ [] := by
    simp
  rw [hsize, hsplit, hsplit]
  generalize l.line.head ++ (l.line.keyword.bytes ++ 32 :: l.value.bytes) = pre at hpre hne
  simp only [Bool.false_eq_true, if_false, if_true, List.append_assoc, List.singleton_append]
  have hstart : (pre ++ 10 :: back).takeWhile delim = [] := by
    obtain ⟨c, more, rfl⟩ := List.exists_cons_of_ne_nil hne
    exact List.takeWhile_cons_of_neg (by simp [(hpre c List.mem_cons_self).2])
  have hstr : (CString.ofMem (pre ++ 10 :: back)).bytes = pre ++ 10 :: (CString.ofMem back).bytes := by
    have hnul : ∀ c ∈ pre, (c != 0) = true := fun c hc => by simp [(hpre c hc).1]
    change (pre ++ 10 :: back).takeWhile (· != 0) = _
    rw [List.takeWhile_append_of_pos hnul, List.takeWhile_cons_of_pos (by decide)]
    rfl
  have hfind : (pre ++ 10 :: (CString.ofMem back).bytes).findIdx? delim = some pre.length := by
    have hnone : pre.findIdx? delim = none :=
      List.findIdx?_eq_none_iff.mpr fun c hc => (hpre c hc).2
    rw [List.findIdx?_append, hnone, List.findIdx?_cons, hnewline]
    simp
  have hback' : back.takeWhile delim = [] := by
    cases back with
    | nil => rfl
    | cons c back => exact List.takeWhile_cons_of_neg (by simpa using hback)
  have hdrop : (front ++ (pre ++ 0 :: back)).drop (front.length + pre.length + 1) = back := by
    rw [← List.append_assoc, ← List.length_append, List.drop_length_add_append]
    rfl
  have hmem : (CString.ofMem ((front ++ (pre ++ 10 :: back)).drop
      (front.length + ([] : Bytes).length))).bytes = pre ++ 10 :: (CString.ofMem back).bytes := by
    rw [List.length_nil, Nat.add_zero, List.drop_left, hstr]
  have hfull : ¬(CString.ofMem ((front ++ (pre ++ 10 :: back)).drop
      (front.length + ([] : Bytes).length))).bytes = [] := by
    rw [hmem]
    simp
  rw [strobStrtok, List.drop_left, hstart]
  dsimp only
  rw [if_neg hfull, hmem, hfind]
  dsimp only [List.length_nil, Nat.add_zero]
  rw [List.set_append_right _ _ (Nat.le_add_right _ _), Nat.add_sub_cancel_left,
    List.set_append_right _ _ (Nat.le_refl _), Nat.sub_self, List.set_cons_zero, hdrop, hback']
  rfl

end

/-- The lines of a file, as the parser writes them. -/
def optionsImage (ls : List OptionLine) : Bytes := linesImage (ls.map fun l => unread l.line)

theorem getD_optionsImage (ls : List OptionLine) :
    (optionsImage ls).getD 0 0 ≠ 10 ∧ (optionsImage ls).getD 0 0 ≠ 13 := by
  cases ls with
  | nil => decide
  | cons l ls =>
      have hdigit : decimal.isDigit ((optionsImage (l :: ls)).getD 0 0) = true :=
        isDigit_image l.line ⟨false, false⟩ (optionsImage ls)
      constructor
      · intro h
        rw [h] at hdigit
        exact absurd hdigit (by decide)
      · intro h
        rw [h] at hdigit
        exact absurd hdigit (by decide)

/-- The loop over the lines of a file applies one line after the other. -/
theorem parseLines_eq (utilityName : CString) (doPreserve : Bool) (delim : UInt8 → Bool)
    (hnewline : delim 10 = true) (hdelim : ∀ c, delim c = true → c = 10 ∨ c = 13) {fuel : Nat}
    {ls : List OptionLine} (hfuel : ls.length < fuel)
    (hplain : ∀ l ∈ ls, (10 : UInt8) ∉ l.value.bytes)
    (hfirst : ∀ l ∈ ls.head?, ∀ c ∈ l.value.bytes, delim c = false) (front : Bytes)
    (options : List ExtendedOption) :
    parseLines utilityName doPreserve fuel delim (front ++ optionsImage ls) front.length options =
      .returned (applyLines utilityName doPreserve ls options) := by
  induction ls generalizing fuel delim front options with
  | nil =>
      obtain ⟨fuel, rfl⟩ := Nat.exists_eq_succ_of_ne_zero (Nat.ne_of_gt (Nat.zero_lt_of_lt hfuel))
      have hnone : strobStrtok delim (front ++ optionsImage []) front.length = none := by
        rw [strobStrtok, List.drop_left]
        exact if_pos (by simp [optionsImage, linesImage])
      rw [parseLines, hnone]
      rfl
  | cons l ls ih =>
      obtain ⟨fuel, rfl⟩ := Nat.exists_eq_succ_of_ne_zero (Nat.ne_of_gt (Nat.zero_lt_of_lt hfuel))
      have hback : delim ((optionsImage ls).getD 0 0) = false := by
        refine Bool.eq_false_iff.mpr fun h => ?_
        rcases hdelim _ h with h | h
        · exact (getD_optionsImage ls).1 h
        · exact (getD_optionsImage ls).2 h
      have htok := strobStrtok_line hnewline hdelim front l (optionsImage ls)
        (hfirst l (by simp)) hback
      have himage : optionsImage (l :: ls) = l.line.image ⟨false, false⟩ ++ optionsImage ls := rfl
      rw [himage, parseLines, htok]
      dsimp only
      rw [List.drop_left, l.line.getKeyword_image]
      dsimp only
      rw [l.line.keyword_image _ _ rfl, l.line.getValue_image, Outcome.returned_bind]
      dsimp only [Option.map_some]
      rw [Bool.or_true, l.line.value_image, applyLines, OptionLine.option, OptionLine.value]
      cases happly : applyOption utilityName doPreserve l.line.keyword.str
          (some l.line.content.value) options with
      | none => rfl
      | some options' =>
          have hfirst' : ∀ l ∈ ls.head?, ∀ c ∈ l.value.bytes, (c == 10) = false := by
            intro m hm c hc
            have hmem := List.mem_cons_of_mem l (List.mem_of_mem_head? hm)
            refine Bool.eq_false_iff.mpr fun h10 => hplain m hmem ?_
            rwa [← beq_iff_eq.mp h10]
          have hrest := ih (· == 10) (by decide) (fun c hc => .inl (by simpa using hc))
            (Nat.lt_of_succ_lt_succ hfuel) (fun m hm => hplain m (List.mem_cons_of_mem _ hm)) hfirst'
            (front ++ l.line.image ⟨true, true⟩) options'
          rw [List.length_append, l.line.length_image, List.append_assoc] at hrest
          dsimp only
          rw [List.take_left]
          exact hrest

theorem zero_not_mem_optionsImage (ls : List OptionLine) : (0 : UInt8) ∉ optionsImage ls := by
  induction ls with
  | nil => exact List.not_mem_nil
  | cons l ls ih =>
      intro h
      have himage : l.line.image ⟨false, false⟩ =
          (l.line.head ++ (l.line.keyword.bytes ++ 32 :: l.value.bytes)) ++ [10] := by
        rw [MdLine.image, l.line.tail_of_type_ne_obj _ l.type_ne_obj, OptionLine.value]
        simp
      have hplain : ∀ c ∈ l.line.head ++ (l.line.keyword.bytes ++ 32 :: l.value.bytes), c ≠ 0 :=
        fun c hc => (@plain_front (fun _ => false) (fun _ h => absurd h Bool.false_ne_true) l
          (fun _ _ => rfl) c hc).1
      rcases List.mem_append.mp (show (0 : UInt8) ∈ l.line.image ⟨false, false⟩ ++ optionsImage ls from h)
        with h | h
      · rw [himage] at h
        rcases List.mem_append.mp h with h | h
        · exact hplain 0 h rfl
        · exact absurd (List.mem_singleton.mp h) (by decide)
      · exact ih h

/-- The values of a file hold no newline, and the first of them no carriage return. -/
structure PlainValues (ls : List OptionLine) : Prop where
  newline : ∀ l ∈ ls, (10 : UInt8) ∉ l.value.bytes
  first : ∀ l ∈ ls.head?, (13 : UInt8) ∉ l.value.bytes

/-- The output of the parser, as `parseDefaultsFile` finds it. -/
def parserOutput (ls : List OptionLine) : Bytes := emittedImage (ls.map OptionLine.line) []

/-- A file of plain values is read line by line. -/
theorem parseDefaultsFile_eq (utilityName : CString) (doPreserve : Bool) {ls : List OptionLine}
    (hplain : PlainValues ls) (options : List ExtendedOption) :
    parseDefaultsFile utilityName (parserOutput ls) doPreserve options =
      .returned (applyLines utilityName doPreserve ls options) := by
  have hbuf : parserOutput ls = (⟨optionsImage ls, zero_not_mem_optionsImage ls⟩ : CString).bytes ++ [0] := by
    rw [parserOutput, emittedImage_eq, List.map_map]
    rfl
  have hlen : ls.length < (optionsImage ls).length + 1 := by
    refine Nat.lt_succ_of_le ?_
    clear hplain hbuf
    induction ls with
    | nil => exact Nat.le_refl _
    | cons l ls ih =>
        have himage : optionsImage (l :: ls) = l.line.image ⟨false, false⟩ ++ optionsImage ls := rfl
        have hsize := l.line.size_eq
        rw [himage, List.length_append, l.line.length_image, List.length_cons]
        omega
  have hdelim : ∀ c : UInt8, (c == 13 || c == 10) = true → c = 10 ∨ c = 13 := by
    intro c hc
    rw [Bool.or_eq_true, beq_iff_eq, beq_iff_eq] at hc
    exact hc.symm
  have hfirst : ∀ l ∈ ls.head?, ∀ c ∈ l.value.bytes, (c == 13 || c == 10) = false := by
    intro l hl c hc
    refine Bool.eq_false_iff.mpr fun h => ?_
    rcases hdelim c h with rfl | rfl
    · exact hplain.newline l (List.mem_of_mem_head? hl) hc
    · exact hplain.first l hl hc
  have hrun := parseLines_eq utilityName doPreserve (fun c => c == 13 || c == 10) (by decide) hdelim
    hlen hplain.newline hfirst [] options
  rw [parseDefaultsFile, hbuf, CString.ofMem_append_nul]
  exact hrun

/-! ## What a line does to an option -/

namespace ExtendedOption

/-- The value that `getExtendedOption` returns for an option. -/
def current (o : ExtendedOption) : Option CString := o.value.or o.defaultValue

/-- The option after a line about it. -/
def setFrom (isUtilOption : Bool) (value : CString) (o : ExtendedOption) : ExtendedOption :=
  if o.optionSet = true ∨ (o.utilSet = true ∧ isUtilOption = false) then o
  else { o with utilSet := o.utilSet || isUtilOption, value := some value }

@[simp] theorem optionName_setFrom (isUtilOption : Bool) (value : CString) (o : ExtendedOption) :
    (o.setFrom isUtilOption value).optionName = o.optionName := by
  rw [setFrom]
  split
  next => rfl
  next => rfl

end ExtendedOption

/-- The entry for a name. -/
def entry (name : CString) (options : List ExtendedOption) : Option ExtendedOption :=
  options.find? (·.optionName = name)

theorem entry_name {name : CString} {options : List ExtendedOption} {o : ExtendedOption}
    (h : entry name options = some o) : o.optionName = name := by
  simpa using List.find?_some h

theorem getExtendedOption_eq (name : CString) (options : List ExtendedOption) :
    getExtendedOption name options =
      match entry name options with
      | none => ⟨none, none, false, false⟩
      | some o => ⟨o.current, some o.value.isSome, o.optionSet, o.utilSet⟩ := by
  induction options with
  | nil => rfl
  | cons o options ih =>
      rw [getExtendedOption, entry, List.find?_cons]
      by_cases hname : o.optionName = name
      · rw [if_pos hname]
        simp only [hname, decide_true]
        rw [ExtendedOption.current]
        cases o.value with
        | none => rfl
        | some v => rfl
      · rw [if_neg hname, ih]
        simp only [hname, decide_false]
        rfl

theorem entry_cons (name : CString) (o : ExtendedOption) (options : List ExtendedOption) :
    entry name (o :: options) = if o.optionName = name then some o else entry name options := by
  rw [entry, List.find?_cons]
  by_cases hname : o.optionName = name
  · rw [if_pos hname]
    simp only [hname, decide_true]
  · rw [if_neg hname]
    simp only [hname, decide_false]
    rfl

section

variable {name name' : CString} {value : Option CString} {optSet isUtilOption : Bool}
  {options : List ExtendedOption}

theorem entry_set_self {o : ExtendedOption} (h : entry name options = some o) :
    entry name (setExtendedOption name value optSet isUtilOption options).2 =
      some (if o.utilSet = true ∧ isUtilOption = false then o
        else if optSet = true ∧ o.optionSet = true then o
        else { o with utilSet := o.utilSet || isUtilOption, value := value }) := by
  induction options with
  | nil => cases h
  | cons o' options ih =>
      rw [entry_cons] at h
      rw [setExtendedOption]
      split at h
      next hname =>
        cases h
        rw [if_pos hname]
        split
        next => rw [entry_cons, if_pos hname]
        next =>
          split
          next => rw [entry_cons, if_pos hname]
          next => rw [entry_cons, if_pos hname]
      next hname =>
        rw [if_neg hname]
        dsimp only
        rw [entry_cons, if_neg hname]
        exact ih h

theorem entry_set_of_ne (hne : name' ≠ name) :
    entry name' (setExtendedOption name value optSet isUtilOption options).2 = entry name' options := by
  induction options with
  | nil => rfl
  | cons o options ih =>
      rw [setExtendedOption]
      split
      next hname =>
        have hother : ¬o.optionName = name' := fun h => hne (h ▸ hname)
        split
        next => rfl
        next =>
          split
          next => rfl
          next => rw [entry_cons, entry_cons, if_neg hother, if_neg hother]
      next hname =>
        dsimp only
        rw [entry_cons, entry_cons, ih]

/-- A line about an option is refused if the option has no value at all, and otherwise does to its
entry what `setFrom` says. -/
theorem setFromLine_eq {value : CString} {options' : List ExtendedOption}
    (h : setFromLine name (some value) isUtilOption optSet options = some options') :
    ∃ o, entry name options = some o ∧ o.current.isSome = true ∧
      entry name options' = some (o.setFrom isUtilOption value) ∧
      ∀ name', name' ≠ name → entry name' options' = entry name' options := by
  rw [setFromLine, getExtendedOption_eq] at h
  cases ho : entry name options with
  | none =>
      rw [ho] at h
      cases h
  | some o =>
      rw [ho] at h
      dsimp only at h
      split at h
      next => cases h
      next v hv =>
        refine ⟨o, rfl, by rw [hv]; rfl, ?_⟩
        rw [ExtendedOption.setFrom]
        split at h
        next hcond =>
          cases h
          refine ⟨?_, fun name' hne => entry_set_of_ne hne⟩
          have hopt : o.optionSet = false := by
            rcases hcond with hc | hc
            · exact hc.2.2
            · exact hc.2
          rw [entry_set_self ho, hopt]
          simp
        next hcond =>
          cases h
          refine ⟨?_, fun name' _ => rfl⟩
          have hsame : o.optionSet = true ∨ (o.utilSet = true ∧ isUtilOption = false) := by
            cases hopt : o.optionSet with
            | true => exact .inl rfl
            | false =>
                refine .inr ⟨?_, ?_⟩
                · cases hutil : o.utilSet with
                  | true => rfl
                  | false =>
                      refine absurd ?_ hcond
                      cases isUtilOption with
                      | true => exact .inr ⟨.inl rfl, hopt⟩
                      | false => exact .inl ⟨hutil, rfl, hopt⟩
                · cases hutil : isUtilOption with
                  | false => rfl
                  | true => exact absurd (.inr ⟨.inl hutil, hopt⟩) hcond
          rw [if_pos hsame, ho]

/-- What a line about an option does to all entries. -/
theorem setFromLine_entry {value : CString} {options' : List ExtendedOption}
    (h : setFromLine name (some value) isUtilOption optSet options = some options')
    (name' : CString) :
    entry name' options' = (entry name' options).map fun o =>
      if name = o.optionName then o.setFrom isUtilOption value else o := by
  obtain ⟨o, ho, -, hself, hne⟩ := setFromLine_eq h
  by_cases hname : name' = name
  · subst hname
    rw [hself, ho, Option.map_some, if_pos (entry_name ho).symm]
  · rw [hne name' hname]
    cases hentry : entry name' options with
    | none => rfl
    | some o' =>
        have hother : ¬name = o'.optionName := fun h => hname (by rw [h, entry_name hentry])
        rw [Option.map_some, if_neg hother]

theorem setFromLine_eq_none {value : CString} :
    setFromLine name (some value) isUtilOption optSet options = none ↔
      (entry name options).bind ExtendedOption.current = none := by
  rw [setFromLine, getExtendedOption_eq]
  cases entry name options with
  | none => simp
  | some o =>
      dsimp only [Option.bind_some]
      cases o.current with
      | none => simp
      | some v =>
          dsimp only
          split
          next => simp
          next => simp

end

/-! ## Which line decides -/

namespace ExtendedOption

/-- The option after a line of a defaults file. -/
def after (utilityName : CString) (o : ExtendedOption) (l : OptionLine) : ExtendedOption :=
  match keywordScope utilityName l.option with
  | .util option => if option = o.optionName then o.setFrom true l.value else o
  | .global option => if option = o.optionName then o.setFrom false l.value else o
  | .other => o

end ExtendedOption

/-- A line qualified with the name of the utility, for an option. -/
def isUtilLine (utilityName name : CString) (l : OptionLine) : Bool :=
  keywordScope utilityName l.option = .util name

/-- A global line, for an option. -/
def isGlobalLine (utilityName name : CString) (l : OptionLine) : Bool :=
  keywordScope utilityName l.option = .global name

/-- The value of the last line that passes a test. -/
def lastValue (p : OptionLine → Bool) (ls : List OptionLine) : Option CString :=
  (ls.filter p).getLast?.map OptionLine.value

/-- The value that an option is to have: from the command line, else from the last line qualified
with the name of the utility, else from the last global line, else the default. -/
def precedence (utilityName : CString) (o : ExtendedOption) (ls : List OptionLine) : Option CString :=
  if o.optionSet = true then o.current
  else
    (lastValue (isUtilLine utilityName o.optionName) ls).or
      ((lastValue (isGlobalLine utilityName o.optionName) ls).or o.defaultValue)

theorem applyOption_entry {utilityName : CString} {doPreserve : Bool} {l : OptionLine}
    {options options' : List ExtendedOption}
    (h : applyOption utilityName doPreserve l.option (some l.value) options = some options')
    (name : CString) :
    entry name options' = (entry name options).map (·.after utilityName l) := by
  rw [applyOption] at h
  simp only [ExtendedOption.after]
  cases hscope : keywordScope utilityName l.option with
  | util option =>
      rw [hscope] at h
      exact setFromLine_entry h name
  | global option =>
      rw [hscope] at h
      exact setFromLine_entry h name
  | other =>
      rw [hscope] at h
      cases h
      exact Option.map_id'.symm

/-- The line names an option of the table that has a value or a default. -/
def Settable (utilityName : CString) (options : List ExtendedOption) (l : OptionLine) : Prop :=
  match keywordScope utilityName l.option with
  | .util option => ((entry option options).bind ExtendedOption.current).isSome = true
  | .global option => ((entry option options).bind ExtendedOption.current).isSome = true
  | .other => True

theorem applyOption_isSome {utilityName : CString} (doPreserve : Bool) {l : OptionLine}
    {options : List ExtendedOption} :
    (applyOption utilityName doPreserve l.option (some l.value) options).isSome = true ↔
      Settable utilityName options l := by
  have hline : ∀ {name : CString} {isUtilOption : Bool},
      (setFromLine name (some l.value) isUtilOption doPreserve options).isSome = true ↔
        ((entry name options).bind ExtendedOption.current).isSome = true := by
    intro name isUtilOption
    rw [Option.isSome_iff_ne_none, Option.isSome_iff_ne_none, ne_eq, ne_eq, setFromLine_eq_none]
  rw [applyOption, Settable]
  cases keywordScope utilityName l.option with
  | util option => exact hline
  | global option => exact hline
  | other => exact iff_of_true rfl trivial

/-- A line takes no value away. -/
theorem current_setFrom {o : ExtendedOption} (isUtilOption : Bool) (value : CString)
    (h : o.current.isSome = true) : (o.setFrom isUtilOption value).current.isSome = true := by
  rw [ExtendedOption.setFrom]
  split
  next => exact h
  next => rfl

theorem current_after {o : ExtendedOption} (utilityName : CString) (l : OptionLine)
    (h : o.current.isSome = true) : (o.after utilityName l).current.isSome = true := by
  rw [ExtendedOption.after]
  split
  next =>
    split
    next => exact current_setFrom _ _ h
    next => exact h
  next =>
    split
    next => exact current_setFrom _ _ h
    next => exact h
  next => exact h

theorem settable_of_applyOption {utilityName : CString} {doPreserve : Bool} {l m : OptionLine}
    {options options' : List ExtendedOption}
    (happly : applyOption utilityName doPreserve l.option (some l.value) options = some options')
    (h : Settable utilityName options m) : Settable utilityName options' m := by
  have hentry : ∀ name : CString, ((entry name options).bind ExtendedOption.current).isSome = true →
      ((entry name options').bind ExtendedOption.current).isSome = true := by
    intro name hcurrent
    rw [applyOption_entry happly]
    cases ho : entry name options with
    | none =>
        rw [ho] at hcurrent
        cases hcurrent
    | some o =>
        rw [ho] at hcurrent
        exact current_after utilityName l hcurrent
  rw [Settable] at h ⊢
  split
  next option hscope =>
    rw [hscope] at h
    exact hentry option h
  next option hscope =>
    rw [hscope] at h
    exact hentry option h
  next => trivial

/-- If all lines can be applied, each option sees all of them. -/
theorem applyLines_entry {utilityName : CString} (doPreserve : Bool) {ls : List OptionLine}
    {options : List ExtendedOption} (h : ∀ l ∈ ls, Settable utilityName options l) (name : CString) :
    entry name (applyLines utilityName doPreserve ls options).2 =
      (entry name options).map (ls.foldl (·.after utilityName ·)) := by
  induction ls generalizing options with
  | nil => exact Option.map_id'.symm
  | cons l ls ih =>
      obtain ⟨options', happly⟩ := Option.isSome_iff_exists.mp
        ((applyOption_isSome doPreserve).mpr (h l List.mem_cons_self))
      have hrest := ih fun m hm => settable_of_applyOption happly (h m (List.mem_cons_of_mem _ hm))
      rw [applyLines, happly]
      dsimp only
      rw [hrest, applyOption_entry happly, Option.map_map]
      rfl

theorem settable_of_applyLines {utilityName : CString} (doPreserve : Bool) (ls : List OptionLine)
    {options : List ExtendedOption} {m : OptionLine} (h : Settable utilityName options m) :
    Settable utilityName (applyLines utilityName doPreserve ls options).2 m := by
  induction ls generalizing options with
  | nil => exact h
  | cons l ls ih =>
      rw [applyLines]
      split
      next => exact h
      next options' happly => exact ih (settable_of_applyOption happly h)

/-- `parseDefaultsFile` on one file after the other. -/
def parseDefaultsFiles (utilityName : CString) (doPreserve : Bool) :
    List Bytes → List ExtendedOption → Outcome (List ExtendedOption)
  | [], options => .returned options
  | buf :: bufs, options => do
      let (_, options) ← parseDefaultsFile utilityName buf doPreserve options
      parseDefaultsFiles utilityName doPreserve bufs options

/-- The effect of the files. -/
def applyFiles (utilityName : CString) (doPreserve : Bool) (files : List (List OptionLine))
    (options : List ExtendedOption) : List ExtendedOption :=
  files.foldl (fun options ls => (applyLines utilityName doPreserve ls options).2) options

theorem parseDefaultsFiles_eq (utilityName : CString) (doPreserve : Bool)
    {files : List (List OptionLine)} (hplain : ∀ ls ∈ files, PlainValues ls)
    (options : List ExtendedOption) :
    parseDefaultsFiles utilityName doPreserve (files.map parserOutput) options =
      .returned (applyFiles utilityName doPreserve files options) := by
  induction files generalizing options with
  | nil => rfl
  | cons ls files ih =>
      rw [List.map_cons, parseDefaultsFiles,
        parseDefaultsFile_eq utilityName doPreserve (hplain ls List.mem_cons_self),
        Outcome.returned_bind]
      exact ih (fun ls hls => hplain ls (List.mem_cons_of_mem _ hls)) _

theorem applyFiles_entry {utilityName : CString} (doPreserve : Bool) {files : List (List OptionLine)}
    {options : List ExtendedOption}
    (h : ∀ ls ∈ files, ∀ l ∈ ls, Settable utilityName options l) (name : CString) :
    entry name (applyFiles utilityName doPreserve files options) =
      (entry name options).map (files.flatten.foldl (·.after utilityName ·)) := by
  induction files generalizing options with
  | nil => exact Option.map_id'.symm
  | cons ls files ih =>
      have hrest := ih fun ls' hls' l hl =>
        settable_of_applyLines doPreserve ls (h ls' (List.mem_cons_of_mem _ hls') l hl)
      have hfirst := applyLines_entry doPreserve (h ls List.mem_cons_self) name
      change entry name (applyFiles utilityName doPreserve files
        (applyLines utilityName doPreserve ls options).2) = _
      rw [hrest, hfirst, Option.map_map, List.flatten_cons]
      refine congrArg (fun f => (entry name options).map f) (funext fun o => ?_)
      exact (List.foldl_append).symm

/-- An option of the command line keeps its value. -/
theorem foldl_after_of_optionSet (utilityName : CString) {o : ExtendedOption}
    (h : o.optionSet = true) (ls : List OptionLine) :
    ls.foldl (·.after utilityName ·) o = o := by
  have hsame : ∀ (isUtilOption : Bool) (value : CString), o.setFrom isUtilOption value = o :=
    fun isUtilOption value => if_pos (.inl h)
  induction ls with
  | nil => rfl
  | cons l ls ih =>
      have hafter : o.after utilityName l = o := by
        rw [ExtendedOption.after]
        split
        next => rw [hsame, ite_self]
        next => rw [hsame, ite_self]
        next => rfl
      rw [List.foldl_cons, hafter, ih]

/-- An option that is not set yet. -/
structure ExtendedOption.Fresh (o : ExtendedOption) : Prop where
  optionSet : o.optionSet = false
  utilSet : o.utilSet = false
  value : o.value = none

/-- What the lines so far have made of an option. -/
theorem foldl_after {utilityName : CString} {o : ExtendedOption} (h : o.Fresh)
    (ls : List OptionLine) :
    ls.foldl (·.after utilityName ·) o =
      { o with
        utilSet := (lastValue (isUtilLine utilityName o.optionName) ls).isSome
        value := (lastValue (isUtilLine utilityName o.optionName) ls).or
          (lastValue (isGlobalLine utilityName o.optionName) ls) } := by
  induction ls using List.reverseRecOn with
  | nil =>
      cases o
      obtain ⟨rfl, rfl, rfl⟩ := h
      rfl
  | append_singleton ls l ih =>
      rw [List.foldl_append, ih, List.foldl_cons, List.foldl_nil]
      have hlast : ∀ p : OptionLine → Bool, lastValue p (ls ++ [l]) =
          if p l then some l.value else lastValue p ls := by
        intro p
        rw [lastValue, lastValue, List.filter_append]
        cases hp : p l with
        | true => simp [hp]
        | false => simp [hp]
      rw [hlast, hlast, isUtilLine, isGlobalLine, ExtendedOption.after]
      cases hscope : keywordScope utilityName l.option with
      | util option =>
          by_cases hname : option = o.optionName
          · simp [hname, ExtendedOption.setFrom, h.optionSet]
          · simp [hname]
      | global option =>
          by_cases hname : option = o.optionName
          · cases hutil : lastValue (isUtilLine utilityName o.optionName) ls with
            | none => simp [hname, ExtendedOption.setFrom, h.optionSet]
            | some v => simp [hname, ExtendedOption.setFrom]
          · simp [hname]
      | other => simp

/-- An option without any value stays so: the file is given up at a line about it. -/
theorem applyLines_entry_none {utilityName : CString} (doPreserve : Bool) {ls : List OptionLine}
    {options : List ExtendedOption} {name : CString} {o : ExtendedOption}
    (ho : entry name options = some o) (hnone : o.current = none) :
    entry name (applyLines utilityName doPreserve ls options).2 = some o := by
  induction ls generalizing options with
  | nil => exact ho
  | cons l ls ih =>
      rw [applyLines]
      split
      next => exact ho
      next options' happly =>
        refine ih ?_
        have hsettable : Settable utilityName options l :=
          (applyOption_isSome doPreserve).mp (by rw [happly]; rfl)
        have hother : ∀ option, option = o.optionName →
            ((entry option options).bind ExtendedOption.current).isSome = true → False := by
          intro option hname hsome
          rw [hname, entry_name ho, ho, Option.bind_some, hnone] at hsome
          cases hsome
        have hafter : o.after utilityName l = o := by
          rw [Settable] at hsettable
          rw [ExtendedOption.after]
          split
          next option hscope =>
            rw [hscope] at hsettable
            exact if_neg fun hname => hother option hname hsettable
          next option hscope =>
            rw [hscope] at hsettable
            exact if_neg fun hname => hother option hname hsettable
          next => rfl
        rw [applyOption_entry happly, ho, Option.map_some, hafter]

theorem applyFiles_entry_none (utilityName : CString) (doPreserve : Bool)
    (files : List (List OptionLine)) {options : List ExtendedOption} {name : CString}
    {o : ExtendedOption} (ho : entry name options = some o) (hnone : o.current = none) :
    entry name (applyFiles utilityName doPreserve files options) = some o := by
  induction files generalizing options with
  | nil => exact ho
  | cons ls files ih => exact ih (applyLines_entry_none doPreserve ho hnone)

/-! ## Precedence -/

/-- The table after the command line: the options that are set there have a value, and the others
have none. -/
structure CommandLineTable where
  options : List ExtendedOption
  nodup : (options.map ExtendedOption.optionName).Nodup
  commandLine : ∀ o ∈ options, o.utilSet = false ∧ o.value.isSome = o.optionSet

theorem CommandLineTable.entry_of_mem (table : CommandLineTable) {o : ExtendedOption}
    (h : o ∈ table.options) : entry o.optionName table.options = some o := by
  have hnodup := table.nodup
  generalize table.options = options at h hnodup
  induction options with
  | nil => exact absurd h List.not_mem_nil
  | cons o' options ih =>
      rw [List.map_cons, List.nodup_cons] at hnodup
      rw [entry_cons]
      rcases List.mem_cons.mp h with rfl | h
      · rw [if_pos rfl]
      · have hne : ¬o'.optionName = o.optionName :=
          fun hname => hnodup.1 (hname ▸ List.mem_map_of_mem h)
        rw [if_neg hne]
        exact ih h hnodup.2

/-- A line about another utility, or about an option of the table. -/
def Recognised (utilityName : CString) (options : List ExtendedOption) (l : OptionLine) : Prop :=
  match keywordScope utilityName l.option with
  | .util option => (entry option options).isSome = true
  | .global option => (entry option options).isSome = true
  | .other => True

/-- After all files each option has the value that precedence gives it. -/
def Precedes (utilityName : CString) (doPreserve : Bool) (table : CommandLineTable)
    (files : List (List OptionLine)) : Prop :=
  ∃ options, parseDefaultsFiles utilityName doPreserve (files.map parserOutput) table.options =
      .returned options ∧
    ∀ o ∈ table.options,
      (getExtendedOption o.optionName options).value = precedence utilityName o files.flatten

theorem lastValue_isSome {p : OptionLine → Bool} {ls : List OptionLine} {l : OptionLine} (hl : l ∈ ls)
    (hp : p l = true) : (lastValue p ls).isSome = true := by
  rw [lastValue, Option.isSome_map, List.getLast?_isSome]
  exact List.ne_nil_of_mem (List.mem_filter.mpr ⟨hl, hp⟩)

/-- Precedence decides all options if and only if each line of the utility, and each global line,
is about an option that has a default or is set on the command line. -/
theorem optionPrecedence_iff (utilityName : CString) (doPreserve : Bool) (table : CommandLineTable)
    (files : List (List OptionLine)) (hplain : ∀ ls ∈ files, PlainValues ls)
    (hrecognised : ∀ ls ∈ files, ∀ l ∈ ls, Recognised utilityName table.options l) :
    Precedes utilityName doPreserve table files ↔
      ∀ ls ∈ files, ∀ l ∈ ls, Settable utilityName table.options l := by
  rw [Precedes, parseDefaultsFiles_eq utilityName doPreserve hplain]
  constructor
  · rintro ⟨options, hrun, hvalues⟩ ls hls l hl
    cases hrun
    have hmem : l ∈ files.flatten := List.mem_flatten.mpr ⟨ls, hls, hl⟩
    have hcurrent : ∀ name : CString, (entry name table.options).isSome = true →
        (isUtilLine utilityName name l = true ∨ isGlobalLine utilityName name l = true) →
          ((entry name table.options).bind ExtendedOption.current).isSome = true := by
      intro name hentry hline
      obtain ⟨o, ho⟩ := Option.isSome_iff_exists.mp hentry
      rw [ho, Option.bind_some, Option.isSome_iff_ne_none]
      intro hnone
      have ho' : o ∈ table.options := List.mem_of_find?_eq_some ho
      have hvalue := hvalues o ho'
      have hopt : o.optionSet = false := by
        rw [← (table.commandLine o ho').2, Option.isSome_eq_false_iff, Option.isNone_iff_eq_none]
        rw [ExtendedOption.current, Option.or_eq_none_iff] at hnone
        exact hnone.1
      have hset : ¬o.optionSet = true := by
        rw [hopt]
        exact Bool.false_ne_true
      rw [entry_name ho, getExtendedOption_eq, applyFiles_entry_none utilityName doPreserve files ho hnone,
        precedence, if_neg hset, entry_name ho] at hvalue
      dsimp only at hvalue
      rw [hnone] at hvalue
      have hsome : ((lastValue (isUtilLine utilityName name) files.flatten).or
          ((lastValue (isGlobalLine utilityName name) files.flatten).or o.defaultValue)).isSome = true := by
        rw [Option.isSome_or, Option.isSome_or, Bool.or_eq_true, Bool.or_eq_true]
        rcases hline with hline | hline
        · exact .inl (lastValue_isSome hmem hline)
        · exact .inr (.inl (lastValue_isSome hmem hline))
      rw [← hvalue] at hsome
      cases hsome
    have hrec := hrecognised ls hls l hl
    rw [Recognised] at hrec
    rw [Settable]
    split
    next option hscope =>
      rw [hscope] at hrec
      exact hcurrent option hrec (.inl (by rw [isUtilLine, hscope]; exact decide_eq_true rfl))
    next option hscope =>
      rw [hscope] at hrec
      exact hcurrent option hrec (.inr (by rw [isGlobalLine, hscope]; exact decide_eq_true rfl))
    next => trivial
  · intro hsettable
    refine ⟨_, rfl, fun o ho => ?_⟩
    have hentry := applyFiles_entry doPreserve hsettable o.optionName
    rw [table.entry_of_mem ho, Option.map_some] at hentry
    rw [getExtendedOption_eq, hentry]
    dsimp only
    rw [precedence]
    by_cases hopt : o.optionSet = true
    · rw [if_pos hopt, foldl_after_of_optionSet utilityName hopt]
    · obtain ⟨hutil, hvalue⟩ := table.commandLine o ho
      rw [Bool.not_eq_true] at hopt
      have hfresh : o.Fresh := by
        refine ⟨hopt, hutil, ?_⟩
        rw [hopt, Option.isSome_eq_false_iff, Option.isNone_iff_eq_none] at hvalue
        exact hvalue
      rw [if_neg (by rw [hopt]; exact Bool.false_ne_true), foldl_after hfresh, ExtendedOption.current,
        Option.or_assoc]

/-- `swcopy.verbose=2` and then `verbose=3`, for `swcopy`. -/
theorem optionPrecedence_verbose :
    Precedes ⟨chars ['s', 'w', 'c', 'o', 'p', 'y'], by decide⟩ true
      { options := [{
          optionSet := false, utilSet := false
          optionName := ⟨chars ['v', 'e', 'r', 'b', 'o', 's', 'e'], by decide⟩
          defaultValue := some ⟨chars ['1'], by decide⟩, value := none, appFlags := 0 }]
        nodup := by decide
        commandLine := fun o ho => by
          rw [List.mem_singleton.mp ho]
          exact ⟨rfl, rfl⟩ }
      [[⟨{ content := .att ⟨chars ['2'], by decide⟩, level := 1
           keyword := ⟨chars ['s', 'w', 'c', 'o', 'p', 'y', '.', 'v', 'e', 'r', 'b', 'o', 's', 'e'],
             by decide, by decide⟩
           level_le := by decide, length_lt := by decide }, rfl⟩,
        ⟨{ content := .att ⟨chars ['3'], by decide⟩, level := 1
           keyword := ⟨chars ['v', 'e', 'r', 'b', 'o', 's', 'e'], by decide, by decide⟩
           level_le := by decide, length_lt := by decide }, rfl⟩]] := by
  refine (optionPrecedence_iff _ _ _ _ ?_ ?_).mpr ?_
  · intro ls hls
    rw [List.mem_singleton.mp hls]
    refine ⟨fun l hl => ?_, fun l hl => ?_⟩
    · rcases List.mem_cons.mp hl with rfl | hl
      · decide
      · rw [List.mem_singleton.mp hl]
        decide
    · rw [← Option.some.inj hl]
      decide
  · intro ls hls l hl
    rw [List.mem_singleton.mp hls] at hl
    rcases List.mem_cons.mp hl with rfl | hl
    · exact show Option.isSome _ = true from rfl
    · rw [List.mem_singleton.mp hl]
      exact show Option.isSome _ = true from rfl
  · intro ls hls l hl
    rw [List.mem_singleton.mp hls] at hl
    rcases List.mem_cons.mp hl with rfl | hl
    · exact show Option.isSome _ = true from rfl
    · rw [List.mem_singleton.mp hl]
      exact show Option.isSome _ = true from rfl

/-- The option `files` has no default, so `files=x` is not recognized. -/
theorem filesOption_not_recognized :
    ¬Precedes ⟨chars ['s', 'w', 'c', 'o', 'p', 'y'], by decide⟩ true
      { options := [{
          optionSet := false, utilSet := false
          optionName := ⟨chars ['f', 'i', 'l', 'e', 's'], by decide⟩
          defaultValue := none, value := none, appFlags := 0 }]
        nodup := by decide
        commandLine := fun o ho => by
          rw [List.mem_singleton.mp ho]
          exact ⟨rfl, rfl⟩ }
      [[⟨{ content := .att ⟨chars ['x'], by decide⟩, level := 1
           keyword := ⟨chars ['f', 'i', 'l', 'e', 's'], by decide, by decide⟩
           level_le := by decide, length_lt := by decide }, rfl⟩]] := by
  rintro ⟨options, hrun, hvalues⟩
  rw [parseDefaultsFiles_eq] at hrun
  · cases hrun
    exact absurd (hvalues _ (List.mem_singleton_self _)) (by decide)
  · intro ls hls
    rw [List.mem_singleton.mp hls]
    refine ⟨fun l hl => ?_, fun l hl => ?_⟩
    · rw [List.mem_singleton.mp hl]
      decide
    · rw [← Option.some.inj hl]
      decide

/-! ## The table as a shell script -/

/-- `swextopt_writeExtendedOptions_strob`: what is appended to the buffer. -/
def writeExtendedOptionsStrob (swcFlag : Nat) (doShellProtect : Bool) :
    List ExtendedOption → Outcome Bytes
  | [] => .returned []
  | eop :: rest =>
      if swcFlag = 0 ∨ swcFlag &&& eop.appFlags ≠ 0 then
        let s := ((getExtendedOption eop.optionName (eop :: rest)).value.getD .empty).bytes
        if doShellProtect = false then do
          let out ← writeExtendedOptionsStrob swcFlag doShellProtect rest
          .returned (eop.optionName.bytes ++ 61 :: (s ++ [newline]) ++ out)
        else if swlibIsShTaintedString s = true then .exited 252
        else do
          let out ← writeExtendedOptionsStrob swcFlag doShellProtect rest
          .returned (eop.optionName.bytes ++ 61 :: doubleQuote :: (s ++ [doubleQuote, newline]) ++ out)
      else writeExtendedOptionsStrob swcFlag doShellProtect rest

/-- The names and the values of the options for a utility. -/
def selectedOptions (swcFlag : Nat) (options : List ExtendedOption) : List (Bytes × Bytes) :=
  (options.filter fun o => swcFlag = 0 ∨ swcFlag &&& o.appFlags ≠ 0).map fun o =>
    (o.optionName.bytes, (o.current.getD .empty).bytes)

/-- With shell protection, each option is an assignment of a value that is not tainted. -/
theorem writeExtendedOptionsStrob_eq {swcFlag : Nat} {options : List ExtendedOption} {out : Bytes}
    (h : writeExtendedOptionsStrob swcFlag true options = .returned out) :
    out = (selectedOptions swcFlag options).flatMap assignLine ∧
      ∀ p ∈ selectedOptions swcFlag options, swlibIsShTaintedString p.2 = false := by
  induction options generalizing out with
  | nil =>
      cases h
      exact ⟨rfl, by simp [selectedOptions]⟩
  | cons o options ih =>
      rw [writeExtendedOptionsStrob] at h
      rw [selectedOptions, List.filter_cons]
      have hvalue : (getExtendedOption o.optionName (o :: options)).value = o.current := by
        rw [getExtendedOption_eq, entry_cons, if_pos rfl]
      split at h
      next hflag =>
        dsimp only at h
        rw [if_neg (by decide), hvalue] at h
        split at h
        next => cases h
        next htaint =>
          obtain ⟨rest, hrest, h⟩ := Outcome.bind_eq_returned.mp h
          cases h
          obtain ⟨hout, hclean⟩ := ih hrest
          rw [if_pos (decide_eq_true hflag), List.map_cons, List.flatMap_cons, hout]
          refine ⟨rfl, fun p hp => ?_⟩
          rcases List.mem_cons.mp hp with rfl | hp
          · exact Bool.eq_false_iff.mpr htaint
          · exact hclean p hp
      next hflag =>
        rw [if_neg (by simpa using hflag)]
        exact ih h

theorem quotedSpecial_of_not_tainted {s : Bytes} (h : swlibIsShTaintedString s = false) :
    ∀ c ∈ s, c ≠ backslash → quotedSpecial c = false := by
  intro c hc hback
  have htaint := List.any_eq_false.mp h c hc
  refine Bool.eq_false_iff.mpr fun hspecial => htaint ?_
  rw [quotedSpecial] at hspecial
  simp only [Bool.or_eq_true, beq_iff_eq] at hspecial
  rcases hspecial with ((rfl | rfl) | rfl) | rfl
  · decide
  · exact absurd rfl hback
  · decide
  · decide

/-- A shell that reads the script assigns to each option its value, and does nothing else, if and
only if every backslash in a value is in front of a byte that double quotes let it stand before. -/
theorem writeExtendedOptions_iff {swcFlag : Nat} {options : List ExtendedOption} {out : Bytes}
    (hnames : ∀ o ∈ options, isName o.optionName.bytes = true)
    (h : writeExtendedOptionsStrob swcFlag true options = .returned out) :
    assignments out = some (selectedOptions swcFlag options) ↔
      ∀ p ∈ selectedOptions swcFlag options, Literal p.2 := by
  obtain ⟨hout, hclean⟩ := writeExtendedOptionsStrob_eq h
  rw [hout]
  refine assignments_lines (fun p hp => ?_) fun p hp => quotedSpecial_of_not_tainted (hclean p hp)
  obtain ⟨o, ho, rfl⟩ := List.mem_map.mp hp
  exact hnames o (List.mem_filter.mp ho).1

/-- A default, a value that is set and has a backslash in it, an option for another utility, and
one without a value. -/
def fourOptions : List ExtendedOption :=
  [{ optionSet := false, utilSet := false
     optionName := ⟨chars ['l', 'o', 'g', 'l', 'e', 'v', 'e', 'l'], by decide⟩
     defaultValue := some ⟨chars ['1'], by decide⟩, value := none, appFlags := 4 },
   { optionSet := true, utilSet := false
     optionName := ⟨chars ['l', 'o', 'g', 'f', 'i', 'l', 'e'], by decide⟩
     defaultValue := some ⟨chars ['/', 'l', 'o', 'g'], by decide⟩
     value := some ⟨chars ['a', '\\', 'b', ' ', '#'], by decide⟩, appFlags := 6 },
   { optionSet := false, utilSet := false
     optionName := ⟨chars ['f', 'o', 'l', 'l', 'o', 'w'], by decide⟩
     defaultValue := some ⟨chars ['t'], by decide⟩, value := none, appFlags := 2 },
   { optionSet := false, utilSet := false
     optionName := ⟨chars ['s', 'i', 't', 'e'], by decide⟩
     defaultValue := none, value := none, appFlags := 4 }]

/-- The script for one utility, with three assignments. -/
theorem writeExtendedOptions_fourOptions :
    assignments ([(chars ['l', 'o', 'g', 'l', 'e', 'v', 'e', 'l'], chars ['1']),
        (chars ['l', 'o', 'g', 'f', 'i', 'l', 'e'], chars ['a', '\\', 'b', ' ', '#']),
        (chars ['s', 'i', 't', 'e'], [])].flatMap assignLine) =
      some (selectedOptions 4 fourOptions) := by
  refine (writeExtendedOptions_iff (by decide) rfl).mpr ?_
  intro p hp
  have hmem : p ∈ [(chars ['l', 'o', 'g', 'l', 'e', 'v', 'e', 'l'], chars ['1']),
      (chars ['l', 'o', 'g', 'f', 'i', 'l', 'e'], chars ['a', '\\', 'b', ' ', '#']),
      (chars ['s', 'i', 't', 'e'], [])] := hp
  simp only [List.mem_cons, List.not_mem_nil, or_false] at hmem
  obtain rfl | rfl | rfl := hmem
  · exact literal_of_not_mem (by decide)
  · -- the backslash stands in front of a `b`
    exact ⟨fun h => absurd h (by decide), fun _ => ⟨98, rfl, by decide⟩,
      literal_of_not_mem (by decide)⟩
  · exact literal_of_not_mem (by decide)

/-- A value that ends in a backslash takes the closing quote with it, and the next line becomes
part of the value. -/
theorem trailingBackslash_misread :
    ∃ out, writeExtendedOptionsStrob 0 true [{
          optionSet := true, utilSet := false
          optionName := ⟨chars ['a'], by decide⟩
          defaultValue := none, value := some ⟨[backslash], by decide⟩, appFlags := 4 }, {
          optionSet := false, utilSet := false
          optionName := ⟨chars ['b'], by decide⟩
          defaultValue := none, value := none, appFlags := 4 }] = .returned out ∧
      assignments out ≠ some [(chars ['a'], [backslash]), (chars ['b'], [])] :=
  ⟨_, rfl, by decide⟩

end Swbis.Misc
