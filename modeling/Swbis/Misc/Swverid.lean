import Mathlib.Data.List.Forall2
import Swbis.Misc.Slash

/-!
# Software specifications

A software specification is a text such as `bash.bash-doc,r==3.3,l=/opt`: tags
joined by dots, then version ids, all joined by commas.  Several of them are
alternates, joined by bars.  A version id is an id letter with at most one
qualifier letter in front of it, a relation operator, and a value.

The first part is the code, from one version id up to `swverid_open` and
`swverid_print`.  Behind it stands what a parsed version id looks like
(`createVersionId_eq_some`), and that a printed specification is parsed back.
-/

namespace Swbis.Misc

open CLib

/-! ## Letters and operators -/

/-- `isalpha` -/
def isalpha (c : UInt8) : Bool := (65 ≤ c && c ≤ 90) || (97 ≤ c && c ≤ 122)

/-- `SWVERID_RELOP_NEQ` -/
def swveridRelopNeq : Bytes := chars ['!', '=']

/-- `SWVERID_RELOP_LT` -/
def swveridRelopLt : Bytes := chars ['<']

/-- `SWVERID_RELOP_LTE` -/
def swveridRelopLte : Bytes := chars ['<', '=']

/-- `SWVERID_RELOP_EQ2` -/
def swveridRelopEq2 : Bytes := chars ['=']

/-- `SWVERID_RELOP_EQ` -/
def swveridRelopEq : Bytes := chars ['=', '=']

/-- `SWVERID_RELOP_GTE` -/
def swveridRelopGte : Bytes := chars ['>', '=']

/-- `SWVERID_RELOP_GT` -/
def swveridRelopGt : Bytes := chars ['>']

/-- `rel_op_array`.  The index of an operator is its code. -/
def relOpArray : List Bytes :=
  [swveridRelopNeq, swveridRelopLt, swveridRelopLte, swveridRelopEq2, swveridRelopEq,
    swveridRelopGte, swveridRelopGt]

/-- `SWVERID_CMP_EQ2` -/
def swveridCmpEq2 : Nat := 3

/-- `SWVERID_CMP_EQ` -/
def swveridCmpEq : Nat := 4

/-- `SWVERID_VERIDS_POSIX SWVERID_VERIDS_SWBIS` -/
def swveridVerids : Bytes := chars ['r', 'a', 'v', 'l', 'q', 'i', 'g']

/-- `SWVERID_QUALIFIER` -/
def swveridQualifier : Bytes := chars ['b', 'p', 'f']

/-- `SWVERID_VERIDS_REVISION` -/
def swveridVeridsRevision : Bytes := chars ['r']

/-- `SWVERID_VERIDS_LOCATION` -/
def swveridVeridsLocation : Bytes := chars ['l']

/-- The characters that `create_version_id` reads as an operator. -/
def isRelOpChar (c : UInt8) : Bool := c == 61 || c == 124 || c == 60 || c == 62

/-- `strpbrk` with all the operators: the characters that no tag has. -/
def isTagBreak (c : UInt8) : Bool := relOpArray.flatten.contains c

/-! ## One version id -/

/-- `struct VER_ID` -/
structure VerId where
  /-- `ver_idM`: the qualifier and the id. -/
  verId : Bytes
  /-- `idM`: the letter of the id. -/
  id : Bytes
  /-- `vqM`: the letter of the qualifier, or nothing. -/
  vq : Bytes
  /-- `rel_opM` -/
  relOp : Bytes
  /-- `rel_op_codeM` -/
  relOpCode : Nat
  /-- `valueM` -/
  value : Bytes
deriving DecidableEq

/-- `determine_rel_op_code` -/
def determineRelOpCode (relOp : Bytes) : Option Nat := relOpArray.findIdx? (· == relOp)

/-- What becomes of the text of a value: the value of a location is an absolute path. -/
def storedValue (id text : Bytes) : Bytes :=
  if text = [] then []
  else if id = swveridVeridsLocation then
    let s := swlibSquashTrailingSlash text
    if s.head? = some slash then s else slash :: s
  else text

/-- `create_version_id` -/
def createVersionId (versionIdString : Bytes) : Option VerId :=
  let letters := versionIdString.takeWhile isalpha
  let s := versionIdString.dropWhile isalpha
  if letters.length = 0 ∨ 2 < letters.length then none
  else
    -- If two chars long, the first char is a qualifier.
    let vq := if letters.length = 2 then letters.take 1 else []
    let id := if letters.length = 2 then letters.drop 1 else letters
    if vq.any (fun c => !swveridQualifier.contains c) then none
    else if id.any (fun c => !swveridVerids.contains c) then none
    else
      let relOp := (s.takeWhile isRelOpChar).take 3
      if relOp.length = 0 ∨ 2 < relOp.length then none
      else
        match determineRelOpCode relOp with
        | none => none
        | some code =>
            -- The revision has every operator but `=`, the other ids only that one.
            if id = swveridVeridsRevision ∧ code = swveridCmpEq2 then none
            else if id ≠ swveridVeridsRevision ∧ code ≠ swveridCmpEq2 then none
            else
              some {
                verId := letters, id := id, vq := vq, relOp := relOp, relOpCode := code,
                value := storedValue id (s.drop relOp.length) }

/-- One id, as `swverid_print_ver_id` and `copy_construct_version_id` write it. -/
def VerId.text (v : VerId) : Bytes := v.vq ++ v.id ++ v.relOp ++ v.value

/-- `copy_construct_version_id` -/
def copyConstructVersionId (v : VerId) : Option VerId := createVersionId v.text

/-- `swverid_print_ver_id` -/
def swveridPrintVerId (ids : List VerId) : Bytes :=
  List.intercalate (chars [',']) (ids.map VerId.text)

/-! ## Specifications -/

/-- `SWVERID_NS_NA` -/
def swveridNsNa : Int := -1

/-- `SWVERID_NS_TOP` -/
def swveridNsTop : Int := 1

/-- `SWVERID_NS_MID` -/
def swveridNsMid : Int := 2

/-- `SWVERID_NS_LOW` -/
def swveridNsLow : Int := 3

/-- `strncmp (s, t, n) == 0` -/
def strncmpEq (s t : Bytes) (n : Nat) : Bool := s.take n == t.take n

/-- `classify_namespace` -/
def classifyNamespace : Option Bytes → Int
  | none => swveridNsNa
  | some objectKw =>
      if strncmpEq (chars ['f', 'i', 'l', 'e', 's', 'e', 't']) objectKw 7 then swveridNsMid
      else if strncmpEq (chars ['c', 'o', 'n', 't', 'r', 'o', 'l', '_', 'f', 'i', 'l', 'e'])
        objectKw 11 then swveridNsMid
      else if strncmpEq (chars ['s', 'u', 'b', 'p', 'r', 'o', 'd', 'u', 'c', 't']) objectKw 10 then
        swveridNsMid
      else if strncmpEq (chars ['p', 'r', 'o', 'd', 'u', 'c', 't']) objectKw 7 then swveridNsTop
      else if strncmpEq (chars ['b', 'u', 'n', 'd', 'l', 'e']) objectKw 6 then swveridNsTop
      else if strncmpEq (chars ['f', 'i', 'l', 'e']) objectKw 4 then swveridNsLow
      else swveridNsNa

/-- `SWVERID`, without the alternates behind it. -/
structure Swverid where
  objectName : Bytes
  /-- `source_copyM` -/
  sourceCopy : Option Bytes
  catalog : Bytes
  usePathCompare : Bool
  /-- `taglistM` -/
  taglist : List Bytes
  namespaceCode : Int
  comparisonCode : Nat
  /-- `ver_id_listM` -/
  verIdList : List VerId
  /-- `alter_uuidM` -/
  alterUuid : Nat
deriving DecidableEq

/-- `parse_version_ids_string`: the ids behind those that are there. -/
def parseVersionIdsString (verIdList : List VerId) (veridString : Bytes) : Option (List VerId) :=
  (tokens (· == 44) veridString).foldlM
    (fun ids s => (createVersionId s).map fun verid => ids ++ [verid]) verIdList

/-- `"*"` -/
def star : Bytes := chars ['*']

/-- The loop of `parse_swspec_string` over the version ids. -/
def parseVerids (verIdList : List VerId) (verids : List Bytes) : Option (List VerId) :=
  verids.foldlM
    (fun ids verid => if verid = star then some ids else parseVersionIdsString ids verid) verIdList

/-- `parse_swspec_string`: the code and, if that is 0, the specification. -/
def parseSwspecString (swverid : Swverid) : Except Int Swverid :=
  match swverid.sourceCopy with
  | none => .error (-2)
  | some source =>
      if source = [] then .error (-2)
      else
        match strtok (· == 44) source with
        | none => .error (-1)
        | some (tags, tmp) =>
            match strtok (· == 46) tags with
            | none => .error (-1)
            | some (tag, tagTmp2) =>
                -- With no tags given the tag is `*`.
                let spliced := star ++ chars [','] ++ source
                let tags' := if tag.any isTagBreak then
                    (strtok (· == 44) spliced).map fun t => tokens (· == 46) t.1
                  else some (tag :: tokens (· == 46) tagTmp2)
                let tmp' := if tag.any isTagBreak then
                    (strtok (· == 44) spliced).map Prod.snd
                  else some tmp
                match tags', tmp' with
                | some taglist, some verids =>
                    match parseVerids swverid.verIdList (tokens (· == 44) verids) with
                    | none => .error (-1)
                    | some ids => .ok { swverid with taglist := taglist, verIdList := ids }
                | _, _ => .error (-1)

/-- `swverid_i_open` -/
def swveridIOpen (objectKeyword swversionString : Option Bytes) : Option Swverid :=
  let swverid : Swverid := {
    objectName := objectKeyword.getD [], sourceCopy := swversionString, catalog := [],
    usePathCompare := false, taglist := [], namespaceCode := classifyNamespace objectKeyword,
    comparisonCode := swveridCmpEq, verIdList := [], alterUuid := 0 }
  match swversionString with
  | none => some swverid
  | some _ => (parseSwspecString swverid).toOption

/-- The separators between alternates. -/
def isAlternateSep (c : UInt8) : Bool := c == 124 || c == 10 || c == 13

/-- `swverid_open`: the specification with its alternates behind it, and the next number for an
alternation group. -/
def swveridOpen (uuid : Nat) (objectKeyword swversionString : Option Bytes) :
    Option (List Swverid) × Nat :=
  match swversionString with
  | none =>
      match swveridIOpen objectKeyword none with
      | none => (none, uuid)
      | some parent => (some [{ parent with alterUuid := uuid }], uuid + 1)
  | some s =>
      match (tokens isAlternateSep s).mapM fun t => swveridIOpen objectKeyword (some t) with
      | none => (none, uuid)
      | some [] => (none, uuid)
      | some (parent :: alternates) =>
          let own := if uuid = 0 then uuid + 1 else uuid
          (some ((parent :: alternates).map fun swverid => { swverid with alterUuid := own }), own + 1)

/-- `swverid_i_print`: what it appends. -/
def swveridIPrint (swverid : Swverid) : Bytes :=
  let version := swveridPrintVerId swverid.verIdList
  List.intercalate (chars ['.']) swverid.taglist ++
    (if 0 < version.length then chars [','] ++ version else [])

/-- `swverid_print` -/
def swveridPrint (group : List Swverid) : Bytes :=
  List.intercalate (chars ['|']) (group.map swveridIPrint)

/-! ## What a version id looks like -/

/-- The part of a version id in front of its value is as `create_version_id` wants it. -/
structure VerId.Front (v : VerId) : Prop where
  vq : v.vq = [] ∨ ∃ c ∈ swveridQualifier, v.vq = [c]
  id : ∃ c ∈ swveridVerids, v.id = [c]
  verId : v.verId = v.vq ++ v.id
  relOp : ∀ c ∈ v.relOp, isRelOpChar c = true
  relOpLength : v.relOp.length = 1 ∨ v.relOp.length = 2
  code : determineRelOpCode v.relOp = some v.relOpCode
  revision : v.id = swveridVeridsRevision ↔ v.relOpCode ≠ swveridCmpEq2

theorem isalpha_qualifier {c : UInt8} (h : c ∈ swveridQualifier) : isalpha c = true := by
  have hall : swveridQualifier.all isalpha = true := by decide
  exact List.all_eq_true.mp hall c h

theorem isalpha_verids {c : UInt8} (h : c ∈ swveridVerids) : isalpha c = true := by
  have hall : swveridVerids.all isalpha = true := by decide
  exact List.all_eq_true.mp hall c h

theorem isalpha_of_isRelOpChar {c : UInt8} (h : isRelOpChar c = true) : isalpha c = false := by
  simp only [isRelOpChar, Bool.or_eq_true, beq_iff_eq] at h
  rcases h with ((rfl | rfl) | rfl) | rfl <;> rfl

/-- The operator at the front of a text that goes on without operator characters. -/
theorem takeWhile_relOp {relOp text : Bytes} (h : ∀ c ∈ relOp, isRelOpChar c = true)
    (ht : ∀ c ∈ text.head?, isRelOpChar c = false) :
    (relOp ++ text).takeWhile isRelOpChar = relOp := by
  cases text with
  | nil =>
      rw [List.append_nil]
      exact List.takeWhile_eq_self_iff.mpr h
  | cons c text => exact takeWhile_append_stop h (ht c (by simp)) text

namespace VerId.Front

variable {v : VerId}

theorem letters_alpha (h : v.Front) : ∀ c ∈ v.vq ++ v.id, isalpha c = true := by
  intro c hc
  obtain ⟨i, hi, hid⟩ := h.id
  rcases List.mem_append.mp hc with hq | hc
  · rcases h.vq with hvq | ⟨q, hq', hvq⟩
    · rw [hvq] at hq
      cases hq
    · rw [hvq, List.mem_singleton] at hq
      exact hq ▸ isalpha_qualifier hq'
  · rw [hid, List.mem_singleton] at hc
    exact hc ▸ isalpha_verids hi

theorem exists_relOp_cons (h : v.Front) : ∃ c l, v.relOp = c :: l ∧ isalpha c = false := by
  have hlen := h.relOpLength
  cases hop : v.relOp with
  | nil =>
      rw [hop] at hlen
      simp at hlen
  | cons c l => exact ⟨c, l, rfl, isalpha_of_isRelOpChar (h.relOp c (by simp [hop]))⟩

theorem takeWhile_letters (h : v.Front) (text : Bytes) :
    (v.vq ++ v.id ++ v.relOp ++ text).takeWhile isalpha = v.vq ++ v.id := by
  obtain ⟨c, l, hop, hc⟩ := h.exists_relOp_cons
  rw [hop, List.append_assoc _ _ text, List.cons_append]
  exact takeWhile_append_stop h.letters_alpha hc (l ++ text)

theorem dropWhile_letters (h : v.Front) (text : Bytes) :
    (v.vq ++ v.id ++ v.relOp ++ text).dropWhile isalpha = v.relOp ++ text := by
  obtain ⟨c, l, hop, hc⟩ := h.exists_relOp_cons
  rw [hop, List.append_assoc _ _ text, List.cons_append]
  exact dropWhile_append_stop h.letters_alpha hc (l ++ text)

/-- Such a front with any value behind it is a version id. -/
theorem createVersionId_append (h : v.Front) {text : Bytes}
    (ht : ∀ c ∈ text.head?, isRelOpChar c = false) :
    createVersionId (v.vq ++ v.id ++ v.relOp ++ text) =
      some { v with value := storedValue v.id text } := by
  obtain ⟨i, hi, hid⟩ := h.id
  have htake : ((v.relOp ++ text).takeWhile isRelOpChar).take 3 = v.relOp := by
    rw [takeWhile_relOp h.relOp ht]
    exact List.take_of_length_le (by have := h.relOpLength; omega)
  have hidok : v.id.any (fun c => !swveridVerids.contains c) = false := by
    simpa [hid] using hi
  have hvqok : v.vq.any (fun c => !swveridQualifier.contains c) = false := by
    rcases h.vq with hvq | ⟨q, hq, hvq⟩
    · rw [hvq]
      rfl
    · simpa [hvq] using hq
  have hlen : ¬((v.vq ++ v.id).length = 0 ∨ 2 < (v.vq ++ v.id).length) := by
    rcases h.vq with hvq | ⟨q, -, hvq⟩ <;> simp [hvq, hid]
  have hvq : (if (v.vq ++ v.id).length = 2 then (v.vq ++ v.id).take 1 else []) = v.vq := by
    rcases h.vq with hvq | ⟨q, -, hvq⟩ <;> simp [hvq, hid]
  have hid' : (if (v.vq ++ v.id).length = 2 then (v.vq ++ v.id).drop 1 else v.vq ++ v.id) = v.id := by
    rcases h.vq with hvq | ⟨q, -, hvq⟩ <;> simp [hvq, hid]
  have hop : ¬(v.relOp.length = 0 ∨ 2 < v.relOp.length) := by
    have := h.relOpLength
    omega
  rw [createVersionId, h.takeWhile_letters, h.dropWhile_letters]
  dsimp only
  rw [if_neg hlen, hvq, hid', hvqok, hidok, htake, if_neg Bool.false_ne_true,
    if_neg Bool.false_ne_true, if_neg hop, h.code]
  dsimp only
  rw [if_neg fun hc => h.revision.mp hc.1 hc.2, if_neg fun hc => hc.1 (h.revision.mpr hc.2),
    List.drop_left, ← h.verId]

end VerId.Front

/-- An operator that is short enough is all the operator characters there are. -/
theorem take_takeWhile_of_lt {p : UInt8 → Bool} {s : Bytes} {k : Nat}
    (h : ((s.takeWhile p).take k).length < k) : (s.takeWhile p).take k = s.takeWhile p := by
  rw [List.length_take] at h
  exact List.take_of_length_le (by omega)

theorem drop_takeWhile (p : UInt8 → Bool) (s : Bytes) :
    s.drop (s.takeWhile p).length = s.dropWhile p := by
  have hs : (s.takeWhile p ++ s.dropWhile p).drop (s.takeWhile p).length = s.dropWhile p :=
    List.drop_left
  rwa [List.takeWhile_append_dropWhile] at hs

/-- The letters are one id letter, or a qualifier letter and an id letter. -/
theorem letters_cases {letters vq id : Bytes} (hlen : ¬(letters.length = 0 ∨ 2 < letters.length))
    (hvq : (if letters.length = 2 then letters.take 1 else []) = vq)
    (hid : (if letters.length = 2 then letters.drop 1 else letters) = id) :
    letters = vq ++ id ∧ (vq = [] ∨ ∃ q, vq = [q]) ∧ ∃ i, id = [i] := by
  match letters with
  | [] => simp at hlen
  | [i] => exact ⟨by simpa using hid ▸ hvq ▸ rfl, .inl (by simpa using hvq.symm), i, by simpa using hid.symm⟩
  | [q, i] =>
      exact ⟨by simpa using hid ▸ hvq ▸ rfl, .inr ⟨q, by simpa using hvq.symm⟩, i, by simpa using hid.symm⟩
  | _ :: _ :: _ :: _ => simp at hlen

/-- What `create_version_id` accepts: a front, and a value that does not go on as an operator. -/
theorem createVersionId_eq_some {s : Bytes} {v : VerId} :
    createVersionId s = some v ↔
      ∃ text, s = v.vq ++ v.id ++ v.relOp ++ text ∧ (∀ c ∈ text.head?, isRelOpChar c = false) ∧
        v.Front ∧ v.value = storedValue v.id text := by
  constructor
  · intro h
    rw [createVersionId] at h
    dsimp only at h
    generalize hvq : (if (s.takeWhile isalpha).length = 2 then (s.takeWhile isalpha).take 1 else []) = vq at h
    generalize hid : (if (s.takeWhile isalpha).length = 2 then (s.takeWhile isalpha).drop 1
      else s.takeWhile isalpha) = id at h
    generalize hop : ((s.dropWhile isalpha).takeWhile isRelOpChar).take 3 = relOp at h
    split at h
    next => cases h
    next hlen =>
      split at h
      next => cases h
      next hvqok =>
        split at h
        next => cases h
        next hidok =>
          split at h
          next => cases h
          next hoplen =>
            split at h
            next => cases h
            next code hcode =>
              split at h
              next => cases h
              next hrev =>
                split at h
                next => cases h
                next hnotrev =>
                  cases h
                  obtain ⟨hletters, hq, hi⟩ := letters_cases hlen hvq hid
                  have hall : (s.dropWhile isalpha).takeWhile isRelOpChar = relOp := by
                    rw [← hop]
                    exact (take_takeWhile_of_lt (by rw [hop]; omega)).symm
                  have hrest : (s.dropWhile isalpha).drop relOp.length =
                      (s.dropWhile isalpha).dropWhile isRelOpChar := by
                    rw [← hall, drop_takeWhile]
                  refine ⟨(s.dropWhile isalpha).dropWhile isRelOpChar, ?_, ?_, ⟨?_, ?_, hletters, ?_, ?_, hcode, ?_⟩, ?_⟩
                  · rw [← hletters, ← hall, List.append_assoc, List.takeWhile_append_dropWhile,
                      List.takeWhile_append_dropWhile]
                  · intro c hc
                    have hhead := List.head?_dropWhile_not isRelOpChar (s.dropWhile isalpha)
                    rw [Option.mem_def.mp hc] at hhead
                    simpa using hhead
                  · rcases hq with hq | ⟨q, hq⟩
                    · exact .inl hq
                    · exact .inr ⟨q, by simpa [hq] using hvqok, hq⟩
                  · obtain ⟨i, hi⟩ := hi
                    exact ⟨i, by simpa [hi] using hidok, hi⟩
                  · intro c hc
                    rw [← hall] at hc
                    exact List.mem_takeWhile_imp hc
                  · dsimp only
                    omega
                  · dsimp only
                    tauto
                  · rw [hrest]
  · rintro ⟨text, rfl, ht, hfront, hvalue⟩
    rw [hfront.createVersionId_append ht, ← hvalue]

/-! ## Values -/

/-- A location that is stored again loses the slash it still ends in. -/
def LocationSlash (id value : Bytes) : Prop :=
  id = swveridVeridsLocation ∧ 1 < value.length ∧ value.getLast? = some slash

theorem squashTrailingSlash_of_le {s : Bytes} (h : s.length ≤ 1) : swlibSquashTrailingSlash s = s :=
  if_neg fun hc => by omega

theorem storedValue_nil (id : Bytes) : storedValue id [] = [] := rfl

theorem storedValue_of_not_location {id : Bytes} (h : id ≠ swveridVeridsLocation) (text : Bytes) :
    storedValue id text = text := by
  rw [storedValue]
  split
  next ht => exact ht.symm
  next => rfl

/-- A stored value does not go on as an operator if its text does not. -/
theorem head?_storedValue {id text : Bytes} (ht : ∀ c ∈ text.head?, isRelOpChar c = false) :
    ∀ c ∈ (storedValue id text).head?, isRelOpChar c = false := by
  intro c hc
  rw [storedValue] at hc
  split at hc
  next => cases hc
  next =>
    split at hc
    next =>
      dsimp only at hc
      split at hc
      next => exact ht c (by rwa [head?_squashTrailingSlash] at hc)
      next =>
        rw [List.head?_cons, Option.mem_some_iff] at hc
        exact hc ▸ rfl
    next => exact ht c hc

/-- What a stored value is made of. -/
theorem mem_storedValue {id text : Bytes} {c : UInt8} (h : c ∈ storedValue id text) :
    c ∈ text ∨ c = slash := by
  rw [storedValue] at h
  split at h
  next => cases h
  next =>
    split at h
    next =>
      have hsub : ∀ d ∈ swlibSquashTrailingSlash text, d ∈ text := by
        intro d hd
        rw [swlibSquashTrailingSlash, squashTrailingChar] at hd
        split at hd
        next => exact List.dropLast_subset _ hd
        next => exact hd
      dsimp only at h
      split at h
      next => exact .inl (hsub c h)
      next =>
        rcases List.mem_cons.mp h with hc | hc
        · exact .inr hc
        · exact .inl (hsub c hc)
    next => exact .inl h

/-- A value that is absolute, or of no location, is stored as it is, but for its last slash. -/
theorem storedValue_eq_self_iff {id value : Bytes}
    (h : id = swveridVeridsLocation → value ≠ [] → value.head? = some slash) :
    storedValue id value = value ↔ ¬LocationSlash id value := by
  by_cases hid : id = swveridVeridsLocation
  · by_cases hne : value = []
    · simp [hne, LocationSlash, storedValue_nil]
    · rw [storedValue, if_neg hne, if_pos hid]
      dsimp only
      rw [if_pos (by rw [head?_squashTrailingSlash, h hid hne]), swlibSquashTrailingSlash,
        squashTrailingChar, LocationSlash]
      split
      next hs =>
        have hlen : value.dropLast ≠ value := fun he => by
          have := congrArg List.length he
          rw [List.length_dropLast] at this
          omega
        simp [hlen, hid, hs]
      next hs => simp [hid, hs]
  · simp [storedValue_of_not_location hid, LocationSlash, hid]

theorem storedValue_location {text : Bytes} (h : text ≠ []) :
    (storedValue swveridVeridsLocation text).head? = some slash := by
  rw [storedValue, if_neg h, if_pos rfl]
  dsimp only
  split
  next hs => exact hs
  next => rfl

theorem storedValue_location_of_squash {text : Bytes} (h : text ≠ []) :
    storedValue swveridVeridsLocation text = swlibSquashTrailingSlash text ∧
        text.head? = some slash ∨
      storedValue swveridVeridsLocation text = slash :: swlibSquashTrailingSlash text ∧
        text.head? ≠ some slash := by
  rw [storedValue, if_neg h, if_pos rfl]
  dsimp only
  rw [head?_squashTrailingSlash]
  by_cases hs : text.head? = some slash
  · exact .inl ⟨if_pos hs, hs⟩
  · exact .inr ⟨if_neg hs, hs⟩

theorem suffix_slashes_concat {s : Bytes} {c : UInt8} :
    [slash, slash] <:+ s ++ [c] ↔ c = slash ∧ s.getLast? = some slash := by
  constructor
  · rintro ⟨r, hr⟩
    have hsplit : (r ++ [slash]) ++ [slash] = s ++ [c] := by simpa using hr
    obtain ⟨hs, hc⟩ := List.append_inj' hsplit rfl
    exact ⟨(List.cons.inj hc).1.symm, by rw [← hs, List.getLast?_concat]⟩
  · rintro ⟨rfl, hs⟩
    obtain ⟨r, rfl⟩ := List.getLast?_eq_some_iff.mp hs
    exact ⟨r, by simp⟩

/-- A location whose text ends in two slashes is stored with one of them. -/
theorem locationSlash_storedValue {id text : Bytes} :
    LocationSlash id (storedValue id text) ↔
      id = swveridVeridsLocation ∧ 2 < text.length ∧ [slash, slash] <:+ text := by
  by_cases hid : id = swveridVeridsLocation
  · subst hid
    rcases List.eq_nil_or_concat text with rfl | ⟨s, c, rfl⟩
    · simp [LocationSlash, storedValue_nil]
    · rw [List.concat_eq_append, suffix_slashes_concat, LocationSlash, List.length_append]
      by_cases hs : s = []
      · subst hs
        rw [List.nil_append]
        rcases storedValue_location_of_squash (List.cons_ne_nil c []) with ⟨he, -⟩ | ⟨he, hc⟩
        · simp [he, squashTrailingSlash_of_le]
        · have hne : c ≠ slash := fun h => hc (by simp [h])
          simp [he, squashTrailingSlash_of_le, hne]
      · have hlen := List.length_pos_iff.mpr hs
        by_cases hc : c = slash
        · subst hc
          rcases storedValue_location_of_squash (List.append_ne_nil_of_right_ne_nil s (List.cons_ne_nil slash []))
            with ⟨he, -⟩ | ⟨he, hhead⟩
          · rw [he, squashTrailingSlash_concat hs]
            have hlt : 1 < s.length ↔ 2 < s.length + [slash].length := by
              rw [List.length_singleton]
              omega
            rw [hlt]
            simp
          · rw [he, squashTrailingSlash_concat hs, List.getLast?_cons_of_ne_nil hs]
            have hlt : s.getLast? = some slash → 1 < s.length := by
              intro hlast
              match s with
              | [] => simp at hlen
              | [d] => exact absurd (by simpa using hlast) hhead
              | _ :: _ :: _ => simp
            have hlong : 1 < (slash :: s).length := by simpa using hlen
            constructor
            · rintro ⟨-, -, hlast⟩
              exact ⟨rfl, Nat.succ_lt_succ (hlt hlast), rfl, hlast⟩
            · rintro ⟨-, -, -, hlast⟩
              exact ⟨rfl, hlong, hlast⟩
        · have hsquash : swlibSquashTrailingSlash (s ++ [c]) = s ++ [c] :=
            if_neg fun hlast => hc (by simpa using hlast.2)
          rcases storedValue_location_of_squash (List.append_ne_nil_of_right_ne_nil s (List.cons_ne_nil c []))
            with ⟨he, -⟩ | ⟨he, -⟩
          · rw [he, hsquash]
            simp [hc]
          · rw [he, hsquash, ← List.cons_append, List.getLast?_concat]
            simp [hc]
  · simp [LocationSlash, hid]

/-! ## Parsing by tokens -/

/-- The tags and the version ids that a specification is split into. -/
def specParts (source : Bytes) : Option (List Bytes × List Bytes) :=
  match tokens (· == 44) source with
  | [] => none
  | tags :: verids =>
      match tokens (· == 46) tags with
      | [] => none
      | tag :: rest =>
          if tag.any isTagBreak then some ([star], tags :: verids) else some (tag :: rest, verids)

/-- The texts that `create_version_id` is called with. -/
def veridTexts (source : Bytes) : List Bytes :=
  ((specParts source).map fun p => p.2.filter (· ≠ star)).getD []

theorem tokens_of_not_mem {d : UInt8} {t : Bytes} (hne : t ≠ []) (ht : d ∉ t) :
    tokens (· == d) t = [t] := by
  have hrun : tokens (· == d) (t ++ []) = t :: tokens (· == d) [] :=
    tokens_run hne (fun x hx => by simpa using fun he : x = d => ht (he ▸ hx)) (by simp)
  rwa [List.append_nil] at hrun

/-- The loop over the version ids collects what is created of each but `*`. -/
theorem parseVerids_eq {verids : List Bytes} (h : ∀ t ∈ verids, t ≠ [] ∧ (44 : UInt8) ∉ t)
    (ids : List VerId) :
    parseVerids ids verids =
      ((verids.filter (· ≠ star)).mapM createVersionId).map fun new => ids ++ new := by
  induction verids generalizing ids with
  | nil => simp [parseVerids]
  | cons t verids ih =>
      have hrest := ih fun u hu => h u (List.mem_cons_of_mem _ hu)
      obtain ⟨hne, hcomma⟩ := h t List.mem_cons_self
      rw [parseVerids, List.foldlM_cons]
      by_cases ht : t = star
      · rw [if_pos ht, List.filter_cons_of_neg (by simp [ht])]
        exact hrest ids
      · rw [if_neg ht, parseVersionIdsString, tokens_of_not_mem hne hcomma,
          List.filter_cons_of_pos (by simp [ht]), List.mapM_cons]
        cases hv : createVersionId t with
        | none => simp [hv]
        | some v =>
            have hnext := hrest (ids ++ [v])
            rw [parseVerids] at hnext
            simp only [List.foldlM_cons, List.foldlM_nil, hv, Option.map_some, Option.pure_def,
              Option.bind_eq_bind, Option.bind_some]
            rw [hnext]
            cases (verids.filter (· ≠ star)).mapM createVersionId with
            | none => rfl
            | some new => simp

theorem tokens_star_spliced (source : Bytes) :
    strtok (· == 44) (star ++ chars [','] ++ source) = some (star, source.dropWhile (· == 44)) := by
  rfl

theorem tokens_star : tokens (· == 46) star = [star] := by decide

/-- The end of `parse_swspec_string`, with the parts at hand. -/
theorem parseVerids_eq_ok {swverid swverid' : Swverid} {taglist verids : List Bytes}
    (h : ∀ t ∈ verids, t ≠ [] ∧ (44 : UInt8) ∉ t) :
    (match parseVerids swverid.verIdList verids with
      | none => Except.error (-1 : Int)
      | some ids => .ok { swverid with taglist := taglist, verIdList := ids }) = .ok swverid' ↔
      ∃ ids, (verids.filter (· ≠ star)).mapM createVersionId = some ids ∧
        swverid' = { swverid with taglist := taglist, verIdList := swverid.verIdList ++ ids } := by
  rw [parseVerids_eq h]
  cases (verids.filter (· ≠ star)).mapM createVersionId with
  | none => simp
  | some ids => simp [eq_comm]

/-- `parse_swspec_string` by tokens. -/
theorem parseSwspecString_eq_ok {swverid swverid' : Swverid} {source : Bytes}
    (hsource : swverid.sourceCopy = some source) :
    parseSwspecString swverid = .ok swverid' ↔
      ∃ taglist verids ids, specParts source = some (taglist, verids) ∧
        (verids.filter (· ≠ star)).mapM createVersionId = some ids ∧
        swverid' = { swverid with taglist := taglist, verIdList := swverid.verIdList ++ ids } := by
  have hcomma : ∀ {s : Bytes}, ∀ t ∈ tokens (· == 44) s, t ≠ [] ∧ (44 : UInt8) ∉ t := fun t ht =>
    ⟨(mem_tokens ht).1, fun hmem => by simpa using ((mem_tokens ht).2 44 hmem).1⟩
  rw [parseSwspecString, hsource, specParts]
  dsimp only
  by_cases hne : source = []
  · subst hne
    simp [tokens]
  · rw [if_neg hne]
    cases hs : strtok (· == 44) source with
    | none => simp [tokens_eq source, hs]
    | some p =>
        obtain ⟨tags, tmp⟩ := p
        have hsplit : tokens (· == 44) source = tags :: tokens (· == 44) tmp := by
          rw [tokens_eq, hs]
        rw [hsplit]
        dsimp only
        cases ht : strtok (· == 46) tags with
        | none => simp [tokens_eq tags, ht]
        | some q =>
            obtain ⟨tag, tagTmp2⟩ := q
            have htags : tokens (· == 46) tags = tag :: tokens (· == 46) tagTmp2 := by
              rw [tokens_eq, ht]
            rw [htags]
            dsimp only
            cases hbreak : tag.any isTagBreak with
            | true =>
                rw [if_pos rfl, if_pos rfl, if_pos rfl, tokens_star_spliced]
                simp only [Option.map_some, tokens_dropWhile, tokens_star]
                have hend := @parseVerids_eq_ok swverid swverid' [star] _ (@hcomma source)
                rw [hsource] at hend
                rw [hend, hsplit]
                simp
            | false =>
                rw [if_neg Bool.false_ne_true, if_neg Bool.false_ne_true, if_neg Bool.false_ne_true]
                have hend := @parseVerids_eq_ok swverid swverid' (tag :: tokens (· == 46) tagTmp2) _
                  (@hcomma tmp)
                rw [hsource] at hend
                dsimp only
                rw [hend]
                simp

/-! ## Parsing what is printed -/

/-- The tags and the version ids of a specification. -/
def Swverid.parts (swverid : Swverid) : List Bytes × List VerId := (swverid.taglist, swverid.verIdList)

/-- What a specification is parsed to. -/
def parseParts (source : Bytes) : Option (List Bytes × List VerId) :=
  (specParts source).bind fun p =>
    ((p.2.filter (· ≠ star)).mapM createVersionId).map fun ids => (p.1, ids)

theorem swveridIOpen_parts (objectKeyword : Option Bytes) (source : Bytes) :
    (swveridIOpen objectKeyword (some source)).map Swverid.parts = parseParts source := by
  rw [swveridIOpen]
  generalize hbase : ({
    objectName := objectKeyword.getD [], sourceCopy := some source, catalog := [],
    usePathCompare := false, taglist := [], namespaceCode := classifyNamespace objectKeyword,
    comparisonCode := swveridCmpEq, verIdList := [], alterUuid := 0 } : Swverid) = base
  have hsource : base.sourceCopy = some source := by rw [← hbase]
  have hnil : base.verIdList = [] := by rw [← hbase]
  have hiff := fun sw => @parseSwspecString_eq_ok base sw source hsource
  cases hparse : parseSwspecString base with
  | ok sw =>
      obtain ⟨taglist, verids, ids, hparts, hids, rfl⟩ := (hiff sw).mp hparse
      rw [parseParts, hparts, Option.bind_some, hids, Except.toOption, Option.map_some, Swverid.parts, hnil]
      rfl
  | error e =>
      rw [Except.toOption, Option.map_none, parseParts]
      cases hparts : specParts source with
      | none => rfl
      | some p =>
          cases hids : (p.2.filter (· ≠ star)).mapM createVersionId with
          | none => rw [Option.bind_some, hids, Option.map_none]
          | some ids =>
              have hok := (hiff _).mpr ⟨p.1, p.2, ids, hparts, hids, rfl⟩
              rw [hparse] at hok
              cases hok

/-- The alternates are parsed each on its own. -/
theorem swveridOpen_parts (uuid : Nat) (objectKeyword : Option Bytes) (s : Bytes) :
    (swveridOpen uuid objectKeyword (some s)).1.map (List.map Swverid.parts) =
      ((tokens isAlternateSep s).mapM parseParts).filter (· ≠ []) := by
  have hmap : ((tokens isAlternateSep s).mapM fun t => swveridIOpen objectKeyword (some t)).map
      (List.map Swverid.parts) = (tokens isAlternateSep s).mapM parseParts := by
    induction tokens isAlternateSep s with
    | nil => rfl
    | cons t ts ih =>
        rw [List.mapM_cons, List.mapM_cons, ← ih, ← swveridIOpen_parts objectKeyword t]
        cases swveridIOpen objectKeyword (some t) with
        | none => rfl
        | some sw =>
            cases ts.mapM fun t => swveridIOpen objectKeyword (some t) with
            | none => rfl
            | some g => rfl
  rw [← hmap, swveridOpen]
  dsimp only
  cases (tokens isAlternateSep s).mapM fun t => swveridIOpen objectKeyword (some t) with
  | none => rfl
  | some g =>
      cases g with
      | nil => rfl
      | cons parent alternates => simp [Swverid.parts, Function.comp_def, Option.filter]

/-- What `swverid_i_print` prints of the parts. -/
def printParts (p : List Bytes × List VerId) : Bytes :=
  List.intercalate (chars ['.']) p.1 ++
    (if 0 < (swveridPrintVerId p.2).length then chars [','] ++ swveridPrintVerId p.2 else [])

/-- A character that separates neither alternates nor version ids. -/
def isPlain (c : UInt8) : Bool := c != 44 && !isAlternateSep c

/-- A version id whose text is read as the id it is. -/
structure VerId.Formed (v : VerId) : Prop extends v.Front where
  value : ∀ c ∈ v.value.head?, isRelOpChar c = false

/-- A version id that is written as one field. -/
structure VerId.Printable (v : VerId) : Prop extends v.Formed where
  plain : ∀ c ∈ v.value, isPlain c = true

/-- Parts that are written with all their separators apart. -/
structure PrintableParts (p : List Bytes × List VerId) : Prop where
  ne_nil : p.1 ≠ []
  tag : ∀ t ∈ p.1, t ≠ [] ∧ ∀ c ∈ t, isPlain c = true ∧ c ≠ 46
  first : ∀ t ∈ p.1.head?, t.any isTagBreak = false
  ids : ∀ v ∈ p.2, v.Printable

theorem isPlain_of_isalpha {c : UInt8} (h : isalpha c = true) : isPlain c = true := by
  cases hc : isPlain c with
  | true => rfl
  | false =>
      have hsep : c = 44 ∨ c = 124 ∨ c = 10 ∨ c = 13 := by
        simpa [isPlain, isAlternateSep, or_assoc, imp_iff_not_or] using hc
      rcases hsep with rfl | rfl | rfl | rfl <;> cases h

theorem relOp_mem {relOp : Bytes} {code : Nat} (h : determineRelOpCode relOp = some code) :
    relOp ∈ relOpArray := by
  obtain ⟨_, ⟨hget, _⟩⟩ := List.findIdx?_eq_some_iff_getElem.mp h
  rw [← beq_iff_eq.mp hget]
  exact List.getElem_mem _

theorem isPlain_of_mem_relOp {relOp : Bytes} (h : relOp ∈ relOpArray) {c : UInt8} (hc : c ∈ relOp) :
    isPlain c = true := by
  have hall : relOpArray.all (fun op => op.all isPlain) = true := by decide
  exact List.all_eq_true.mp (List.all_eq_true.mp hall relOp h) c hc

theorem VerId.Printable.text_plain {v : VerId} (h : v.Printable) : ∀ c ∈ v.text, isPlain c = true := by
  intro c hc
  rw [VerId.text] at hc
  rcases List.mem_append.mp hc with hc | hc
  · rcases List.mem_append.mp hc with hc | hc
    · exact isPlain_of_isalpha (h.letters_alpha c hc)
    · exact isPlain_of_mem_relOp (relOp_mem h.code) hc
  · exact h.plain c hc

/-- `create_version_id` reads a written id as that id, with its value stored again. -/
theorem VerId.Formed.createVersionId_text {v : VerId} (h : v.Formed) :
    createVersionId v.text = some { v with value := storedValue v.id v.value } :=
  h.createVersionId_append h.value

theorem mapM_some_of_forall {α β : Type} {f : α → Option β} {g : α → β} {l : List α}
    (h : ∀ x ∈ l, f x = some (g x)) : l.mapM f = some (l.map g) := by
  induction l with
  | nil => rfl
  | cons x l ih =>
      rw [List.mapM_cons, h x List.mem_cons_self, ih fun y hy => h y (List.mem_cons_of_mem _ hy)]
      rfl

theorem mem_of_mapM {α β : Type} {f : α → Option β} {l : List α} {r : List β}
    (h : l.mapM f = some r) {y : β} (hy : y ∈ r) : ∃ x ∈ l, f x = some y := by
  induction l generalizing r with
  | nil =>
      cases h
      cases hy
  | cons x l ih =>
      rw [List.mapM_cons] at h
      cases hx : f x with
      | none => simp [hx] at h
      | some z =>
          cases hl : l.mapM f with
          | none => simp [hx, hl] at h
          | some rest =>
              have hr : z :: rest = r := by simpa [hx, hl] using h
              subst hr
              rcases List.mem_cons.mp hy with rfl | hy
              · exact ⟨x, List.mem_cons_self, hx⟩
              · obtain ⟨w, hw, hfw⟩ := ih hl hy
                exact ⟨w, List.mem_cons_of_mem _ hw, hfw⟩

/-- An id that is created is well formed. -/
theorem formed_of_createVersionId {t : Bytes} {v : VerId} (h : createVersionId t = some v) :
    v.Formed := by
  obtain ⟨text, -, hhead, hfront, hvalue⟩ := createVersionId_eq_some.mp h
  refine ⟨hfront, ?_⟩
  rw [hvalue]
  exact head?_storedValue hhead

/-- An id that is created of a plain text is printable. -/
theorem printable_of_createVersionId {t : Bytes} (ht : ∀ c ∈ t, isPlain c = true) {v : VerId}
    (h : createVersionId t = some v) : v.Printable := by
  obtain ⟨text, rfl, -, -, hvalue⟩ := createVersionId_eq_some.mp h
  refine ⟨formed_of_createVersionId h, fun c hc => ?_⟩
  rw [hvalue] at hc
  rcases mem_storedValue hc with hc | rfl
  · exact ht c (List.mem_append_right _ hc)
  · rfl

/-- What is parsed out of one alternate is printable. -/
theorem printableParts_of_parse {source : Bytes} (hsep : ∀ c ∈ source, isAlternateSep c = false)
    {p : List Bytes × List VerId} (h : parseParts source = some p) : PrintableParts p := by
  have hfield : ∀ t ∈ tokens (· == 44) source, ∀ c ∈ t, isPlain c = true := by
    intro t ht c hc
    obtain ⟨hcomma, hmem⟩ := (mem_tokens ht).2 c hc
    simpa [isPlain, hsep c hmem] using hcomma
  rw [parseParts, specParts] at h
  cases htoks : tokens (· == 44) source with
  | nil => simp [htoks] at h
  | cons tags verids =>
      rw [htoks] at h hfield
      have htags := hfield tags List.mem_cons_self
      dsimp only at h
      cases hdots : tokens (· == 46) tags with
      | nil => simp [hdots] at h
      | cons tag rest =>
          have hids : ∀ {fields : List Bytes}, (∀ t ∈ fields, ∀ c ∈ t, isPlain c = true) →
              ∀ {ids}, (fields.filter (· ≠ star)).mapM createVersionId = some ids →
                ∀ v ∈ ids, v.Printable := by
            intro fields hfields ids hmap v hv
            obtain ⟨t, ht, hcreate⟩ := mem_of_mapM hmap hv
            exact printable_of_createVersionId (hfields t (List.mem_filter.mp ht).1) hcreate
          have hdot : ∀ t ∈ tag :: rest, t ≠ [] ∧ ∀ c ∈ t, isPlain c = true ∧ c ≠ 46 := by
            intro t ht
            rw [← hdots] at ht
            refine ⟨(mem_tokens ht).1, fun c hc => ?_⟩
            obtain ⟨hne, hmem⟩ := (mem_tokens ht).2 c hc
            exact ⟨htags c hmem, by simpa using hne⟩
          rw [hdots] at h
          dsimp only at h
          cases hbreak : tag.any isTagBreak with
          | true =>
              rw [hbreak, if_pos rfl, Option.bind_some, Option.map_eq_some_iff] at h
              obtain ⟨ids, hmap, rfl⟩ := h
              have hstar : ∀ t ∈ [star], t ≠ [] ∧ ∀ c ∈ t, isPlain c = true ∧ c ≠ 46 := by
                intro t ht
                rw [List.mem_singleton.mp ht]
                refine ⟨List.cons_ne_nil _ _, fun c hc => ?_⟩
                rw [show c = 42 from List.mem_singleton.mp hc]
                decide
              exact ⟨List.cons_ne_nil _ _, hstar, fun t ht => by cases ht; rfl, hids hfield hmap⟩
          | false =>
              rw [hbreak, if_neg Bool.false_ne_true, Option.bind_some, Option.map_eq_some_iff] at h
              obtain ⟨ids, hmap, rfl⟩ := h
              refine ⟨List.cons_ne_nil _ _, hdot, ?_,
                hids (fun t ht => hfield t (List.mem_cons_of_mem _ ht)) hmap⟩
              intro t ht
              rw [List.head?_cons, Option.mem_some_iff] at ht
              exact ht ▸ hbreak

theorem VerId.Printable.text_ne {v : VerId} (h : v.Printable) : v.text ≠ [] ∧ v.text ≠ star := by
  obtain ⟨i, -, hid⟩ := h.id
  obtain ⟨c, l, hop, -⟩ := h.exists_relOp_cons
  have hlen : 2 ≤ v.text.length := by
    simp only [VerId.text, hid, hop, List.length_append, List.length_cons]
    omega
  constructor
  · intro he
    simp [he] at hlen
  · intro he
    rw [he] at hlen
    exact absurd hlen (by decide)

theorem mem_intercalate {α : Type} {d x : α} {ts : List (List α)}
    (h : x ∈ List.intercalate [d] ts) : x = d ∨ ∃ t ∈ ts, x ∈ t := by
  induction ts with
  | nil => cases h
  | cons t ts ih =>
      by_cases hts : ts = []
      · subst hts
        rw [List.intercalate_singleton] at h
        exact .inr ⟨t, List.mem_cons_self, h⟩
      · rw [List.intercalate_cons_of_ne_nil hts] at h
        rcases List.mem_append.mp h with h | h
        · rcases List.mem_append.mp h with h | h
          · exact .inr ⟨t, List.mem_cons_self, h⟩
          · exact .inl (List.mem_singleton.mp h)
        · rcases ih h with hd | ⟨u, hu, hx⟩
          · exact .inl hd
          · exact .inr ⟨u, List.mem_cons_of_mem _ hu, hx⟩

theorem intercalate_ne_nil {α : Type} {d : α} {ts : List (List α)} (hne : ts ≠ [])
    (h : ∀ t ∈ ts, t ≠ []) : List.intercalate [d] ts ≠ [] := by
  cases ts with
  | nil => exact absurd rfl hne
  | cons t ts =>
      have ht := h t List.mem_cons_self
      by_cases hts : ts = []
      · subst hts
        rwa [List.intercalate_singleton]
      · rw [List.intercalate_cons_of_ne_nil hts]
        simp [ht]

namespace PrintableParts

variable {p : List Bytes × List VerId}

/-- The tags come as one more field in front of the version ids. -/
theorem printParts_eq (h : PrintableParts p) :
    printParts p = List.intercalate (chars [','])
      (List.intercalate (chars ['.']) p.1 :: p.2.map VerId.text) := by
  rw [printParts, swveridPrintVerId]
  by_cases hids : p.2 = []
  · rw [hids, List.map_nil, List.intercalate_singleton, List.intercalate_nil]
    simp
  · have htexts : p.2.map VerId.text ≠ [] := by simpa using hids
    have hne : List.intercalate (chars [',']) (p.2.map VerId.text) ≠ [] := by
      refine intercalate_ne_nil htexts fun t ht => ?_
      obtain ⟨v, hv, rfl⟩ := List.mem_map.mp ht
      exact (h.ids v hv).text_ne.1
    rw [if_pos (List.length_pos_iff.mpr hne), List.intercalate_cons_of_ne_nil htexts,
      List.append_assoc]

theorem tags_plain (h : PrintableParts p) :
    ∀ c ∈ List.intercalate (chars ['.']) p.1, isPlain c = true := by
  intro c hc
  rcases mem_intercalate hc with rfl | ⟨t, ht, hc⟩
  · rfl
  · exact ((h.tag t ht).2 c hc).1

theorem tags_ne_nil (h : PrintableParts p) : List.intercalate (chars ['.']) p.1 ≠ [] :=
  intercalate_ne_nil h.ne_nil fun t ht => (h.tag t ht).1

/-- Each field is a plain text. -/
theorem field (h : PrintableParts p) :
    ∀ t ∈ List.intercalate (chars ['.']) p.1 :: p.2.map VerId.text,
      t ≠ [] ∧ ∀ c ∈ t, isPlain c = true := by
  intro t ht
  rcases List.mem_cons.mp ht with rfl | ht
  · exact ⟨h.tags_ne_nil, h.tags_plain⟩
  · obtain ⟨v, hv, rfl⟩ := List.mem_map.mp ht
    exact ⟨(h.ids v hv).text_ne.1, (h.ids v hv).text_plain⟩

theorem comma_of_isPlain {c : UInt8} (h : isPlain c = true) : (c == 44) = false := by
  cases hc : c == 44 with
  | false => rfl
  | true => simp [isPlain, beq_iff_eq.mp hc] at h

theorem sep_of_isPlain {c : UInt8} (h : isPlain c = true) : isAlternateSep c = false := by
  cases hc : isAlternateSep c with
  | false => rfl
  | true => simp [isPlain, hc] at h

/-- No separator of alternates is printed. -/
theorem printParts_sep (h : PrintableParts p) :
    printParts p ≠ [] ∧ ∀ c ∈ printParts p, isAlternateSep c = false := by
  rw [h.printParts_eq]
  refine ⟨intercalate_ne_nil (List.cons_ne_nil _ _) fun t ht => (h.field t ht).1, fun c hc => ?_⟩
  rcases mem_intercalate hc with rfl | ⟨t, ht, hc⟩
  · rfl
  · exact sep_of_isPlain ((h.field t ht).2 c hc)

/-- What is printed is parsed back, with the values stored again. -/
theorem parseParts_printParts (h : PrintableParts p) :
    parseParts (printParts p) =
      some (p.1, p.2.map fun v => { v with value := storedValue v.id v.value }) := by
  have hfields : tokens (· == 44) (printParts p) =
      List.intercalate (chars ['.']) p.1 :: p.2.map VerId.text := by
    rw [h.printParts_eq]
    exact tokens_intercalate rfl fun t ht =>
      ⟨(h.field t ht).1, fun c hc => comma_of_isPlain ((h.field t ht).2 c hc)⟩
  have htags : tokens (· == 46) (List.intercalate (chars ['.']) p.1) = p.1 :=
    tokens_intercalate rfl fun t ht =>
      ⟨(h.tag t ht).1, fun c hc => by simpa using ((h.tag t ht).2 c hc).2⟩
  have hparts : specParts (printParts p) = some (p.1, p.2.map VerId.text) := by
    rw [specParts, hfields]
    dsimp only
    rw [htags]
    cases htl : p.1 with
    | nil => exact absurd htl h.ne_nil
    | cons tag rest =>
        have hfirst := h.first tag (by rw [htl]; rfl)
        dsimp only
        rw [hfirst, if_neg Bool.false_ne_true]
  have hfilter : (p.2.map VerId.text).filter (· ≠ star) = p.2.map VerId.text := by
    refine List.filter_eq_self.mpr fun t ht => ?_
    obtain ⟨v, hv, rfl⟩ := List.mem_map.mp ht
    exact decide_eq_true (h.ids v hv).text_ne.2
  have hids : p.2.mapM (createVersionId ∘ VerId.text) =
      some (p.2.map fun v => { v with value := storedValue v.id v.value }) :=
    mapM_some_of_forall fun v hv => (h.ids v hv).createVersionId_text
  rw [parseParts, hparts, Option.bind_some, hfilter, List.mapM_map, hids]
  rfl

end PrintableParts

/-- The alternates that are printed are parsed back, with the values stored again. -/
theorem swveridOpen_swveridPrint {group : List Swverid} (hne : group ≠ [])
    (h : ∀ swverid ∈ group, PrintableParts swverid.parts) (uuid : Nat)
    (objectKeyword : Option Bytes) :
    (swveridOpen uuid objectKeyword (some (swveridPrint group))).1.map (List.map Swverid.parts) =
      some (group.map fun swverid => (swverid.taglist,
        swverid.verIdList.map fun v => { v with value := storedValue v.id v.value })) := by
  have htoks : tokens isAlternateSep (swveridPrint group) = group.map swveridIPrint := by
    refine tokens_intercalate rfl fun t ht => ?_
    obtain ⟨sw, hsw, rfl⟩ := List.mem_map.mp ht
    exact (h sw hsw).printParts_sep
  have hparts : group.mapM (parseParts ∘ swveridIPrint) =
      some (group.map fun swverid => (swverid.taglist,
        swverid.verIdList.map fun v => { v with value := storedValue v.id v.value })) :=
    mapM_some_of_forall fun sw hsw => (h sw hsw).parseParts_printParts
  rw [swveridOpen_parts, htoks, List.mapM_map, hparts]
  cases group with
  | nil => exact absurd rfl hne
  | cons sw group => rfl

/-! ## The round trip -/

/-- Two version ids agree in qualifier, id, operator and value. -/
def SameVerId (v w : VerId) : Prop := v.vq = w.vq ∧ v.id = w.id ∧ v.relOp = w.relOp ∧ v.value = w.value

/-- Two specifications agree in their tags and version ids. -/
def SameSpec (a b : Swverid) : Prop :=
  a.taglist = b.taglist ∧ List.Forall₂ SameVerId a.verIdList b.verIdList

/-- What is printed of a specification is opened as the same alternates. -/
def RoundTrips (uuid : Nat) (objectKeyword : Option Bytes) (group : List Swverid) : Prop :=
  ∃ group', (swveridOpen uuid objectKeyword (some (swveridPrint group))).1 = some group' ∧
    List.Forall₂ SameSpec group group'

/-- A location whose text ends in two slashes, and is more than these. -/
def DoubleSlashLocation (t : Bytes) : Prop :=
  ∃ q text, t = q ++ chars ['l', '='] ++ text ∧ q.length ≤ 1 ∧ 2 < text.length ∧
    [slash, slash] <:+ text

theorem exists_of_mem_mapM {α β : Type} {f : α → Option β} {l : List α} {r : List β}
    (h : l.mapM f = some r) {x : α} (hx : x ∈ l) : ∃ y ∈ r, f x = some y := by
  induction l generalizing r with
  | nil => cases hx
  | cons a l ih =>
      rw [List.mapM_cons] at h
      cases ha : f a with
      | none => simp [ha] at h
      | some z =>
          cases hl : l.mapM f with
          | none => simp [ha, hl] at h
          | some rest =>
              have hr : z :: rest = r := by simpa [ha, hl] using h
              subst hr
              rcases List.mem_cons.mp hx with rfl | hx
              · exact ⟨z, List.mem_cons_self, ha⟩
              · obtain ⟨y, hy, hfy⟩ := ih hl hx
                exact ⟨y, List.mem_cons_of_mem _ hy, hfy⟩

/-- A statement about the results of a loop is one about what it reads. -/
theorem forall_mapM_iff {α β : Type} {f : α → Option β} {l : List α} {r : List β}
    (h : l.mapM f = some r) {P : α → Prop} {Q : β → Prop}
    (hPQ : ∀ x ∈ l, ∀ y, f x = some y → (Q y ↔ P x)) : (∀ y ∈ r, Q y) ↔ ∀ x ∈ l, P x := by
  constructor
  · intro hQ x hx
    obtain ⟨y, hy, hfx⟩ := exists_of_mem_mapM h hx
    exact (hPQ x hx y hfx).mp (hQ y hy)
  · intro hP y hy
    obtain ⟨x, hx, hfx⟩ := mem_of_mapM h hy
    exact (hPQ x hx y hfx).mpr (hP x hx)

theorem VerId.Front.relOp_of_location {v : VerId} (h : v.Front) (hid : v.id = swveridVeridsLocation) :
    v.relOp = swveridRelopEq2 := by
  have hne : v.id ≠ swveridVeridsRevision := by
    rw [hid]
    decide
  have hcode : v.relOpCode = swveridCmpEq2 := not_not.mp fun hc => hne (h.revision.mpr hc)
  have hfind := h.code
  rw [hcode] at hfind
  obtain ⟨_, ⟨hget, _⟩⟩ := List.findIdx?_eq_some_iff_getElem.mp hfind
  exact (beq_iff_eq.mp hget).symm

/-- The location ids that are stored with a slash at their end, by their texts. -/
theorem locationSlash_iff_of_createVersionId {t : Bytes} {v : VerId} (h : createVersionId t = some v) :
    LocationSlash v.id v.value ↔ DoubleSlashLocation t := by
  obtain ⟨text, rfl, hhead, hfront, hvalue⟩ := createVersionId_eq_some.mp h
  rw [hvalue, locationSlash_storedValue]
  constructor
  · rintro ⟨hid, hlen, hslashes⟩
    refine ⟨v.vq, text, ?_, ?_, hlen, hslashes⟩
    · rw [hfront.relOp_of_location hid, hid, List.append_assoc v.vq]
      rfl
    · rcases hfront.vq with hvq | ⟨q, -, hvq⟩ <;> simp [hvq]
  · rintro ⟨q, text', heq, hq, hlen, hslashes⟩
    have htake := hfront.takeWhile_letters text
    have hdrop := hfront.dropWhile_letters text
    rw [heq, List.append_assoc] at htake hdrop
    have hletters : q ++ chars ['l'] = v.vq ++ v.id ∧ chars ['='] ++ text' = v.relOp ++ text := by
      match q with
      | [] => exact ⟨htake, hdrop⟩
      | [x] =>
          rw [List.singleton_append] at htake hdrop
          by_cases hx : isalpha x = true
          · rw [List.takeWhile_cons_of_pos hx] at htake
            rw [List.dropWhile_cons_of_pos hx] at hdrop
            exact ⟨htake, hdrop⟩
          · rw [List.takeWhile_cons_of_neg hx] at htake
            obtain ⟨i, -, hi⟩ := hfront.id
            simp [hi] at htake
      | _ :: _ :: _ => simp at hq
    obtain ⟨i, -, hi⟩ := hfront.id
    have hid : v.id = swveridVeridsLocation := by
      rw [hi] at hletters
      rw [hi]
      exact (List.append_inj' hletters.1 rfl).2.symm
    rw [hfront.relOp_of_location hid] at hletters
    rw [← List.append_cancel_left hletters.2]
    exact ⟨hid, hlen, hslashes⟩

theorem storedValue_eq_self_of_createVersionId {t : Bytes} {v : VerId}
    (h : createVersionId t = some v) :
    storedValue v.id v.value = v.value ↔ ¬LocationSlash v.id v.value := by
  obtain ⟨text, -, -, -, hvalue⟩ := createVersionId_eq_some.mp h
  refine storedValue_eq_self_iff fun hid hne => ?_
  rw [hvalue, hid] at hne ⊢
  refine storedValue_location fun ht => hne ?_
  rw [ht, storedValue_nil]

/-- What is parsed of one alternate is stored again as it is if no location ends in two
slashes. -/
theorem storedValues_iff {source : Bytes} {p : List Bytes × List VerId}
    (h : parseParts source = some p) :
    (∀ v ∈ p.2, storedValue v.id v.value = v.value) ↔
      ∀ t ∈ veridTexts source, ¬DoubleSlashLocation t := by
  rw [parseParts] at h
  cases hparts : specParts source with
  | none => simp [hparts] at h
  | some parts =>
      rw [hparts, Option.bind_some, Option.map_eq_some_iff] at h
      obtain ⟨ids, hids, rfl⟩ := h
      rw [veridTexts, hparts, Option.map_some, Option.getD_some]
      exact forall_mapM_iff hids fun t _ v hv => by
        rw [storedValue_eq_self_of_createVersionId hv, locationSlash_iff_of_createVersionId hv]

/-- A specification round-trips if its values are stored again as they are. -/
theorem roundTrips_iff_storedValues {group : List Swverid} (hne : group ≠ [])
    (h : ∀ swverid ∈ group, PrintableParts swverid.parts) (uuid : Nat)
    (objectKeyword : Option Bytes) :
    RoundTrips uuid objectKeyword group ↔
      ∀ swverid ∈ group, ∀ v ∈ swverid.verIdList, storedValue v.id v.value = v.value := by
  have hprint := swveridOpen_swveridPrint hne h uuid objectKeyword
  rw [RoundTrips]
  cases hopen : (swveridOpen uuid objectKeyword (some (swveridPrint group))).1 with
  | none => simp [hopen] at hprint
  | some group' =>
      rw [hopen, Option.map_some, Option.some_inj] at hprint
      have hsame : List.Forall₂ SameSpec group group' ↔
          ∀ swverid ∈ group, List.Forall₂ SameVerId swverid.verIdList
            (swverid.verIdList.map fun v => { v with value := storedValue v.id v.value }) := by
        have hparts : List.Forall₂ SameSpec group group' ↔
            List.Forall₂ (fun a p => a.taglist = p.1 ∧ List.Forall₂ SameVerId a.verIdList p.2) group
              (group'.map Swverid.parts) := by
          rw [List.forall₂_map_right_iff]
          rfl
        rw [hparts, hprint, List.forall₂_map_right_iff, List.forall₂_same]
        simp
      simp only [Option.some_inj, exists_eq_left', hsame, List.forall₂_map_right_iff,
        List.forall₂_same, SameVerId, true_and, eq_comm]

theorem relOp_of_ne : ∀ op ∈ relOpArray, op ≠ swveridRelopEq2 → op ≠ swveridRelopNeq →
    op.all isRelOpChar = true ∧ (op.length = 1 ∨ op.length = 2) ∧
      (determineRelOpCode op).any (fun code => code != swveridCmpEq2) = true := by
  decide

/-- The revision has every operator but two: `=`, which is refused, and `!=`, which is no
operator to `create_version_id`. -/
theorem createVersionId_revision_isSome {vq op value : Bytes}
    (hvq : vq = [] ∨ ∃ c ∈ swveridQualifier, vq = [c]) (hop : op ∈ relOpArray)
    (hne : op ≠ swveridRelopEq2) (hvalue : ∀ c ∈ value.head?, isRelOpChar c = false) :
    (createVersionId (vq ++ swveridVeridsRevision ++ op ++ value)).isSome = true ↔
      op ≠ swveridRelopNeq := by
  constructor
  · rintro hsome rfl
    obtain ⟨v, hv⟩ := Option.isSome_iff_exists.mp hsome
    obtain ⟨text, heq, -, hfront, -⟩ := createVersionId_eq_some.mp hv
    have hdrop := hfront.dropWhile_letters text
    have halpha : ∀ c ∈ vq ++ swveridVeridsRevision, isalpha c = true := by
      intro c hc
      rcases List.mem_append.mp hc with hc | hc
      · rcases hvq with rfl | ⟨q, hq, rfl⟩
        · cases hc
        · exact List.mem_singleton.mp hc ▸ isalpha_qualifier hq
      · exact List.mem_singleton.mp hc ▸ rfl
    have hmark : (vq ++ swveridVeridsRevision ++ swveridRelopNeq ++ value).dropWhile isalpha =
        swveridRelopNeq ++ value := by
      rw [List.append_assoc _ swveridRelopNeq]
      exact dropWhile_append_stop halpha rfl (chars ['='] ++ value)
    rw [← heq, hmark] at hdrop
    obtain ⟨c, l, hrel, -⟩ := hfront.exists_relOp_cons
    rw [hrel] at hdrop
    have hc := hfront.relOp c (by simp [hrel])
    rw [← (List.cons.inj hdrop).1] at hc
    cases hc
  · intro hneq
    obtain ⟨hchars, hlen, hany⟩ := relOp_of_ne op hop hne hneq
    obtain ⟨code, hcode, hrev⟩ := Option.any_eq_true _ _ |>.mp hany
    let v : VerId := {
      verId := vq ++ swveridVeridsRevision, id := swveridVeridsRevision, vq := vq, relOp := op,
      relOpCode := code, value := value }
    have hfront : v.Front := by
      refine ⟨hvq, ⟨114, by decide, rfl⟩, rfl, List.all_eq_true.mp hchars, hlen, hcode, ?_⟩
      exact ⟨fun _ => by simpa using hrev, fun _ => rfl⟩
    have hcreate := hfront.createVersionId_append hvalue
    rw [hcreate]
    rfl

/-- Opening what is printed gives the specification back if and only if no location's text ends
in two slashes; and of the operators the revision has, only `!=` is refused. -/
theorem swverid_roundTrip_iff (uuid : Nat) (objectKeyword : Option Bytes) (s : Bytes)
    (group : List Swverid) (hopen : (swveridOpen uuid objectKeyword (some s)).1 = some group) :
    (∀ uuid' objectKeyword', RoundTrips uuid' objectKeyword' group ↔
        ∀ source ∈ tokens isAlternateSep s, ∀ t ∈ veridTexts source, ¬DoubleSlashLocation t) ∧
      ∀ op ∈ relOpArray, op ≠ swveridRelopEq2 →
        ∀ vq value, (vq = [] ∨ ∃ c ∈ swveridQualifier, vq = [c]) →
          (∀ c ∈ value.head?, isRelOpChar c = false) →
            ((createVersionId (vq ++ swveridVeridsRevision ++ op ++ value)).isSome = true ↔
              op ≠ swveridRelopNeq) := by
  refine ⟨?_, fun op hop hne vq value hvq hvalue => createVersionId_revision_isSome hvq hop hne hvalue⟩
  intro uuid' objectKeyword'
  have hparts := swveridOpen_parts uuid objectKeyword s
  rw [hopen, Option.map_some, eq_comm, Option.filter_eq_some_iff] at hparts
  obtain ⟨hmap, hne⟩ := hparts
  have hne' : group ≠ [] := by simpa using hne
  have hprintable : ∀ swverid ∈ group, PrintableParts swverid.parts := by
    intro swverid hsw
    obtain ⟨source, hsource, hparse⟩ := mem_of_mapM hmap (List.mem_map_of_mem hsw)
    exact printableParts_of_parse (fun c hc => ((mem_tokens hsource).2 c hc).1) hparse
  rw [roundTrips_iff_storedValues hne' hprintable, ← forall_mapM_iff hmap fun source _ p hp => storedValues_iff hp]
  simp [Swverid.parts]

/-- `a,l=/b` -/
def locationSpec : Bytes := chars ['a', ',', 'l', '=', '/', 'b']

/-- `a,l=/b` as it is opened with a value for the location. -/
def locationGroup (spec value : Bytes) : List Swverid :=
  [{
    objectName := [], sourceCopy := some spec, catalog := [], usePathCompare := false,
    taglist := [chars ['a']], namespaceCode := swveridNsNa, comparisonCode := swveridCmpEq,
    verIdList := [{
      verId := chars ['l'], id := chars ['l'], vq := [], relOp := chars ['='], relOpCode := 3,
      value := value }]
    alterUuid := 1 }]

theorem swverid_roundTrip_location :
    RoundTrips 0 none (locationGroup locationSpec (chars ['/', 'b'])) ∧
      (createVersionId (chars ['r', '<', '1'])).isSome = true := by
  obtain ⟨hround, hop⟩ := swverid_roundTrip_iff 0 none locationSpec
    (locationGroup locationSpec (chars ['/', 'b'])) (by decide)
  constructor
  · refine (hround 0 none).mpr ?_
    have hsources : tokens isAlternateSep locationSpec = [locationSpec] := by decide
    have htexts : veridTexts locationSpec = [chars ['l', '=', '/', 'b']] := by decide
    rw [hsources]
    intro source hsource t ht
    rw [List.mem_singleton.mp hsource, htexts] at ht
    rw [List.mem_singleton.mp ht]
    rintro ⟨q, text, heq, -, hlen, -⟩
    have hlength := congrArg List.length heq
    simp only [List.length_append, length_chars, List.length_cons, List.length_nil] at hlength
    omega
  · have hdigit : ∀ c ∈ (chars ['1']).head?, isRelOpChar c = false := by
      intro c hc
      cases hc
      rfl
    exact (hop swveridRelopLt (by decide) (by decide) [] (chars ['1'])
      (.inl rfl) hdigit).mpr (by decide)

/-- `r!=1` is refused, and `a,l=/b//` is not printed as what it was. -/
theorem swverid_notEqual_refused :
    swveridRelopNeq ∈ relOpArray ∧ swveridRelopNeq ≠ swveridRelopEq2 ∧
      createVersionId (swveridVeridsRevision ++ swveridRelopNeq ++ chars ['1']) = none ∧
      ∃ group, (swveridOpen 0 none (some (locationSpec ++ chars ['/', '/']))).1 = some group ∧
        ¬RoundTrips 0 none group := by
  refine ⟨by decide, by decide, by decide,
    locationGroup (locationSpec ++ chars ['/', '/']) (chars ['/', 'b', '/']), by decide, ?_⟩
  rintro ⟨group', hopen, hsame⟩
  have hagain : (swveridOpen 0 none (some (swveridPrint
      (locationGroup (locationSpec ++ chars ['/', '/']) (chars ['/', 'b', '/']))))).1 =
        some (locationGroup (locationSpec ++ chars ['/']) (chars ['/', 'b'])) := by decide
  rw [hagain, Option.some_inj] at hopen
  subst hopen
  obtain ⟨⟨-, hids⟩, -⟩ := List.forall₂_cons.mp hsame
  obtain ⟨⟨-, -, -, hvalue⟩, -⟩ := List.forall₂_cons.mp hids
  exact absurd hvalue (by decide)

end Swbis.Misc
