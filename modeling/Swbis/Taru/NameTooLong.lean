import Mathlib.Data.List.Basic
import Swbis.Lib.Strtol
import Swbis.Taru.Arfcopy
import Swbis.Taru.Name

/-!
# The test for names that are too long

`taru_is_tar_filename_too_long` writes a NUL over a trailing slash and puts the
slash back at the end.  Its lengths are of type `int`.  Names shorter than the
name field fit; for the others it looks for a slash where they can be split.

It does not do what the comment in front of it says: a name that just fills the
name field is treated as a long one, a prefix that just fills the prefix field
is not accepted, and the name behind the slash may be empty.
`nameTestRight_iff` says for which names the answer is right all the same.
-/

namespace Swbis.Taru

open CLib

/-! ## The code -/

/-- The search for a slash: the number of bytes behind it is an `int`. -/
def hasGoodSplitInt (tarnamesize : Int) : Nat → Bytes → Bool
  | _, [] => false
  | off, b :: p =>
      if b = slash ∧ off < prefixFieldSize ∧ toCInt p.length ≤ tarnamesize ∧ off ≠ 0 then true
      else hasGoodSplitInt tarnamesize (off + 1) p

/-- `taru_is_tar_filename_too_long`, of the string at the start of memory: whether
the name is too long, whether it needs a GNU long name, and the memory after it. -/
def taruIsTarFilenameTooLongIn (mem : Bytes) (flags : TarFlags) (isDir : Bool) :
    Bool × Bool × Bytes :=
  let n := (CString.ofMem mem).strlen
  let didSquash : Bool := 1 < n ∧ mem[n - 1]? = some slash
  let mem := if didSquash then mem.set (n - 1) 0 else mem
  let tarnamesize : Int := tarnamesizeOf flags - if isDir then 1 else 0
  let name := CString.ofMem mem
  let wholeNameLen := toCInt name.strlen
  let retval :=
    if wholeNameLen < tarnamesize then false
    else if tarnamesize + prefixFieldSize + 1 < wholeNameLen ∧
        flags.gnuLongLinks = false ∧ flags.paxexthdr = false then true
    else !hasGoodSplitInt tarnamesize 0 name.bytes
  let r :=
    if retval then
      if flags.gnuLongLinks then
        if (tarRecordSize : Int) ≤ wholeNameLen then (true, false)
        else if tarnamesize < wholeNameLen then (false, true)
        else (false, false)
      else if flags.paxexthdr then (false, false)
      else (true, false)
    else (false, false)
  (r.1, r.2, if didSquash then mem.set name.strlen slash else mem)

/-! ## The trailing slash -/

/-- The last byte of a string in memory. -/
theorem getElem?_last {mem : Bytes} (h : 1 < (CString.ofMem mem).strlen) :
    mem[(CString.ofMem mem).strlen - 1]? = (CString.ofMem mem).bytes.getLast? := by
  obtain ⟨rest, hrest⟩ : (CString.ofMem mem).bytes <+: mem := List.takeWhile_prefix _
  generalize CString.ofMem mem = s at h hrest ⊢
  have hlen : s.bytes.length = s.strlen := rfl
  rw [← hrest, List.getElem?_append_left (by omega), List.getLast?_eq_getElem?, hlen]

/-- The memory at a string of more than one byte whose last byte is a slash. -/
theorem exists_trailing_slash {mem : Bytes} (hlen : 1 < (CString.ofMem mem).strlen)
    (hlast : (CString.ofMem mem).bytes.getLast? = some slash) :
    ∃ (name : CString) (rest : Bytes), mem = name.bytes ++ slash :: rest ∧
      (CString.ofMem mem).bytes = name.bytes ++ [slash] ∧
      squashTrailingSlash (CString.ofMem mem) = name := by
  obtain ⟨rest, hrest⟩ : (CString.ofMem mem).bytes <+: mem := List.takeWhile_prefix _
  generalize CString.ofMem mem = s at hlen hlast hrest ⊢
  have hsplit : s.bytes = (s.take (s.strlen - 1)).bytes ++ [slash] := by
    rw [CString.bytes_take, CString.strlen, ← List.dropLast_eq_take,
      List.dropLast_append_getLast? slash hlast]
  refine ⟨s.take (s.strlen - 1), rest, ?_, hsplit, if_pos ⟨hlen, hlast⟩⟩
  rw [← hrest]
  conv_lhs => rw [hsplit]
  rw [List.append_assoc]
  rfl

/-- `tarnamesize`, one less for a directory. -/
def tarnamesizeFor (flags : TarFlags) (isDir : Bool) : Int :=
  tarnamesizeOf flags - if isDir then 1 else 0

/-- The answer for the string with its trailing slash squashed: whether it is too
long, and whether it needs a GNU long name. -/
def nameTest (name : CString) (flags : TarFlags) (tarnamesize : Int) : Bool × Bool :=
  let wholeNameLen := toCInt name.strlen
  let retval :=
    if wholeNameLen < tarnamesize then false
    else if tarnamesize + prefixFieldSize + 1 < wholeNameLen ∧
        flags.gnuLongLinks = false ∧ flags.paxexthdr = false then true
    else !hasGoodSplitInt tarnamesize 0 name.bytes
  if retval then
    if flags.gnuLongLinks then
      if (tarRecordSize : Int) ≤ wholeNameLen then (true, false)
      else if tarnamesize < wholeNameLen then (false, true)
      else (false, false)
    else if flags.paxexthdr then (false, false)
    else (true, false)
  else (false, false)

/-- The memory is left as it was, on every path. -/
theorem taruIsTarFilenameTooLongIn_eq (mem : Bytes) (flags : TarFlags) (isDir : Bool) :
    taruIsTarFilenameTooLongIn mem flags isDir =
      ((nameTest (squashTrailingSlash (CString.ofMem mem)) flags (tarnamesizeFor flags isDir)).1,
        (nameTest (squashTrailingSlash (CString.ofMem mem)) flags (tarnamesizeFor flags isDir)).2,
        mem) := by
  rcases Classical.em (1 < (CString.ofMem mem).strlen ∧
    mem[(CString.ofMem mem).strlen - 1]? = some slash) with hslash | hnone
  · obtain ⟨name, rest, hmem, hbytes, hsquash⟩ :=
      exists_trailing_slash hslash.1 ((getElem?_last hslash.1).symm.trans hslash.2)
    have hlen : (CString.ofMem mem).strlen - 1 = name.bytes.length := by
      rw [CString.strlen, hbytes, List.length_append, List.length_singleton, Nat.add_sub_cancel]
    have hnul : mem.set name.bytes.length 0 = name.bytes ++ 0 :: rest := by
      rw [hmem, List.set_append_right _ _ (Nat.le_refl _), Nat.sub_self, List.set_cons_zero]
    have hback : (name.bytes ++ 0 :: rest).set name.bytes.length slash = mem := by
      rw [hmem, List.set_append_right _ _ (Nat.le_refl _), Nat.sub_self, List.set_cons_zero]
    rw [hsquash]
    simp only [taruIsTarFilenameTooLongIn, decide_eq_true hslash, if_true]
    rw [hlen, hnul, CString.ofMem_append_nul]
    exact Prod.ext rfl (Prod.ext rfl hback)
  · have hsquash : squashTrailingSlash (CString.ofMem mem) = CString.ofMem mem :=
      if_neg fun h => hnone ⟨h.1, (getElem?_last h.1).trans h.2⟩
    rw [hsquash]
    simp only [taruIsTarFilenameTooLongIn, decide_eq_false hnone, Bool.false_eq_true, if_false]
    rfl

/-! ## The search -/

theorem hasGoodSplitInt_iff {tarnamesize : Int} {off : Nat} {s : Bytes} :
    hasGoodSplitInt tarnamesize off s = true ↔
      ∃ i, s[i]? = some slash ∧ 0 < off + i ∧ off + i < prefixFieldSize ∧
        toCInt (s.length - i - 1 : Nat) ≤ tarnamesize := by
  induction s generalizing off with
  | nil => exact iff_of_false Bool.false_ne_true (by rintro ⟨i, hi, -⟩; cases hi)
  | cons b p ih =>
      rw [hasGoodSplitInt]
      split
      · next hgood =>
          obtain ⟨hslash, hoff, hsize, hne⟩ := hgood
          refine iff_of_true rfl ⟨0, ?_, by omega, hoff, hsize⟩
          rw [List.getElem?_cons_zero, hslash]
      · next hbad =>
          rw [ih]
          constructor
          · rintro ⟨i, hi, hpos, hlt, hsize⟩
            refine ⟨i + 1, hi, by omega, by omega, ?_⟩
            rwa [List.length_cons, Nat.add_sub_add_right]
          · rintro ⟨i, hi, hpos, hlt, hsize⟩
            cases i with
            | zero =>
                rw [List.getElem?_cons_zero, Option.some_inj] at hi
                exact absurd ⟨hi, hlt, hsize, by omega⟩ hbad
            | succ i =>
                rw [List.length_cons, Nat.add_sub_add_right] at hsize
                exact ⟨i, hi, by omega, by omega, hsize⟩

/-- There is a slash at an index. -/
def SlashAt (name : CString) (i : Nat) : Prop := name.bytes[i]? = some slash

theorem SlashAt.lt {name : CString} {i : Nat} (h : SlashAt name i) : i < name.strlen :=
  (List.getElem?_eq_some_iff.mp h).1

/-- No GNU long names and no extended headers. -/
structure TarFlags.NoLongNames (flags : TarFlags) : Prop where
  gnuLongLinks : flags.gnuLongLinks = false
  gnuOldgnutar : flags.gnuOldgnutar = false
  paxexthdr : flags.paxexthdr = false

/-- The number of bytes for the name that is counted with: one less for a directory. -/
def nameSize (isDir : Bool) : Nat := if isDir then 99 else 100

theorem TarFlags.NoLongNames.tarnamesize {flags : TarFlags} (h : flags.NoLongNames) (isDir : Bool) :
    tarnamesizeFor flags isDir = nameSize isDir := by
  have hsize : tarnamesizeOf flags = tarNameSize := by
    rw [tarnamesizeOf, if_neg]
    rw [h.gnuLongLinks, h.gnuOldgnutar]
    exact fun hor => hor.elim (fun hand => Bool.false_ne_true hand.1) Bool.false_ne_true
  rw [tarnamesizeFor, hsize]
  cases isDir with
  | false => rfl
  | true => rfl

/-- A slash that the search accepts, for a length that was made an `int`. -/
def GoodSplit (isDir : Bool) (name : CString) (i : Nat) : Prop :=
  SlashAt name i ∧ 0 < i ∧ i < prefixFieldSize ∧ toCInt name.strlen ≤ nameSize isDir + 1 + i

/-- The number of bytes behind a slash, as an `int`. -/
theorem toCInt_behind {name : CString} {i : Nat} (hi : i < name.strlen)
    (hlt : i < prefixFieldSize) (hlen : 0 ≤ toCInt name.strlen) :
    toCInt (name.bytes.length - i - 1 : Nat) = toCInt name.strlen - i - 1 := by
  have hn : name.bytes.length = name.strlen := rfl
  have hwhole := toCInt_cases name.strlen
  have hbehind := toCInt_cases (name.bytes.length - i - 1 : Nat)
  rw [prefixFieldSize] at hlt
  omega

/-- A name fits if it is short, or if the search accepts a slash. -/
theorem nameTest_fits_iff {flags : TarFlags} (h : flags.NoLongNames) (isDir : Bool)
    (name : CString) :
    (nameTest name flags (tarnamesizeFor flags isDir)).1 = false ↔
      toCInt name.strlen < nameSize isDir ∨ ∃ i, GoodSplit isDir name i := by
  have hp : prefixFieldSize = 155 := rfl
  simp only [nameTest, h.tarnamesize, h.gnuLongLinks, h.paxexthdr, and_true, Bool.false_eq_true,
    if_false]
  rcases lt_or_ge (toCInt name.strlen) (nameSize isDir) with hshort | hlong
  · rw [if_pos hshort]
    exact iff_of_true rfl (.inl hshort)
  · rw [if_neg (not_lt.mpr hlong), or_iff_right (not_lt.mpr hlong)]
    rcases lt_or_ge ((nameSize isDir : Int) + prefixFieldSize + 1) (toCInt name.strlen)
      with hover | hmax
    · rw [if_pos hover]
      refine iff_of_false Bool.true_eq_false.mp ?_
      rintro ⟨i, -, -, hlt, hle⟩
      omega
    · rw [if_neg (not_lt.mpr hmax)]
      have hgood : hasGoodSplitInt (nameSize isDir) 0 name.bytes = true ↔
          ∃ i, GoodSplit isDir name i := by
        rw [hasGoodSplitInt_iff]
        refine exists_congr fun i => and_congr_right fun hslash => ?_
        have hi := SlashAt.lt hslash
        rw [Nat.zero_add]
        refine and_congr_right fun _ => and_congr_right fun hlt => ?_
        rw [toCInt_behind hi hlt (by omega)]
        omega
      rw [← hgood]
      cases hasGoodSplitInt (nameSize isDir) 0 name.bytes with
      | false => exact iff_of_false Bool.true_eq_false.mp Bool.false_ne_true
      | true => exact iff_of_true rfl rfl

/-! ## Names whose length is an `int` -/

/-- For an `int` the search is the one without it. -/
theorem hasGoodSplitInt_eq {tarnamesize off : Nat} {s : Bytes} (h : s.length < 2 ^ 31) :
    hasGoodSplitInt tarnamesize off s = hasGoodSplit tarnamesize off s := by
  induction s generalizing off with
  | nil => rfl
  | cons b p ih =>
      have hlen : p.length < 2 ^ 31 := Nat.lt_of_succ_lt h
      have hint : toCInt p.length = p.length := toCInt_of_lt hlen
      rw [hasGoodSplitInt, hasGoodSplit, ih hlen, hint]
      simp only [Nat.cast_le]

/-- The test for the two values of `is_dir`, of a name whose length is an `int`. -/
theorem nameTest_eq (name : CString) (flags : TarFlags) (h : name.strlen < 2 ^ 31) :
    nameTest (squashTrailingSlash name) flags (tarnamesizeFor flags false) =
        taruIsTarFilenameTooLong name flags ∧
      nameTest (squashTrailingSlash name) flags (tarnamesizeFor flags true) =
        taruIsTarDirnameTooLong name flags := by
  have hle : (squashTrailingSlash name).strlen ≤ name.strlen := strlen_squashTrailingSlash_le name
  have hlt : (squashTrailingSlash name).strlen < 2 ^ 31 := hle.trans_lt h
  have hint : toCInt (squashTrailingSlash name).strlen = (squashTrailingSlash name).strlen :=
    toCInt_of_lt hlt
  have hfile : tarnamesizeFor flags false = tarnamesizeOf flags := Int.sub_zero _
  have hdir : tarnamesizeFor flags true = (tarnamesizeOf flags - 1 : Nat) := by
    have hpos : 0 < tarnamesizeOf flags := by
      rw [tarnamesizeOf]
      split <;> decide
    rw [tarnamesizeFor, if_pos rfl]
    omega
  have hover (t : Nat) : (t : Int) + prefixFieldSize + 1 < (squashTrailingSlash name).strlen ↔
      t + prefixFieldSize + 1 < (squashTrailingSlash name).strlen := by omega
  rw [hfile, hdir]
  constructor
  · simp only [nameTest, taruIsTarFilenameTooLong, hint, hover, hasGoodSplitInt_eq hlt, Nat.cast_lt,
      Nat.cast_le]
  · simp only [nameTest, taruIsTarDirnameTooLong, hint, hover, hasGoodSplitInt_eq hlt, Nat.cast_lt,
      Nat.cast_le]

/-! ## The answer and the comment -/

/-- What the comment says: a name of at most 100 bytes fits, and a longer one that
can be cut at a slash into a prefix of at most 155 bytes and a name of at most 100
bytes, neither of them empty. -/
def FitsHeader (name : CString) : Prop :=
  name.strlen ≤ tarNameSize ∨
    ∃ before behind, name.bytes = before ++ slash :: behind ∧ before ≠ [] ∧
      before.length ≤ prefixFieldSize ∧ behind ≠ [] ∧ behind.length ≤ tarNameSize

/-- A slash at which a name can be cut. -/
def Cuttable (name : CString) (i : Nat) : Prop :=
  SlashAt name i ∧ 0 < i ∧ i ≤ prefixFieldSize ∧ i + 2 ≤ name.strlen ∧
    name.strlen ≤ tarNameSize + 1 + i

theorem fitsHeader_iff (name : CString) :
    FitsHeader name ↔ name.strlen ≤ tarNameSize ∨ ∃ i, Cuttable name i := by
  refine or_congr_right ?_
  constructor
  · rintro ⟨before, behind, hname, hbefore, hp, hbehind, hn⟩
    have hlen : name.strlen = before.length + (behind.length + 1) := by
      rw [CString.strlen, hname, List.length_append, List.length_cons]
    have hpos := List.length_pos_iff.mpr hbefore
    have hpos' := List.length_pos_iff.mpr hbehind
    refine ⟨before.length, ?_, hpos, hp, by omega, by omega⟩
    rw [SlashAt, hname, List.getElem?_append_right (Nat.le_refl _), Nat.sub_self,
      List.getElem?_cons_zero]
  · rintro ⟨i, hslash, hpos, hp, hbehind, hn⟩
    obtain ⟨hlt, hget⟩ := List.getElem?_eq_some_iff.mp hslash
    have hlen : name.bytes.length = name.strlen := rfl
    refine ⟨name.bytes.take i, name.bytes.drop (i + 1), ?_, ?_, ?_, ?_, ?_⟩
    · rw [← hget, ← List.drop_eq_getElem_cons hlt, List.take_append_drop]
    · rw [← List.length_pos_iff, List.length_take]
      omega
    · rw [List.length_take]
      omega
    · rw [← List.length_pos_iff, List.length_drop]
      omega
    · rw [List.length_drop]
      omega

/-- The answer is what the comment says, for the name without one trailing slash,
and the caller's string is as it was. -/
def NameTestRight (flags : TarFlags) (isDir : Bool) (mem : Bytes) : Prop :=
  ((taruIsTarFilenameTooLongIn mem flags isDir).1 = false ↔
    FitsHeader (squashTrailingSlash (CString.ofMem mem))) ∧
  (taruIsTarFilenameTooLongIn mem flags isDir).2.2 = mem

/-- When the answer is right.  The name is shorter than its field; or it is not
longer than the field and has a slash behind its first byte; or it is longer, and
the search and the comment accept the same slash, or the search accepts the last
byte just when the comment accepts a slash that the search does not: one at 155,
or for a directory one with 100 bytes behind it.  For a length that is no `int`
the search must accept none. -/
def NameTestOk (isDir : Bool) (name : CString) : Prop :=
  if name.strlen < 2 ^ 31 then
    name.strlen < nameSize isDir ∨
    (name.strlen ≤ tarNameSize ∧ ∃ i, SlashAt name i ∧ 0 < i) ∨
    (tarNameSize < name.strlen ∧
      ((∃ i, Cuttable name i ∧ i ≠ prefixFieldSize ∧ i + nameSize isDir + 1 ≥ name.strlen) ∨
        (SlashAt name (name.strlen - 1) ∧ name.strlen ≤ prefixFieldSize ↔
          ∃ i, Cuttable name i ∧ (i = prefixFieldSize ∨ i + nameSize isDir + 1 < name.strlen))))
  else (nameSize isDir : Int) ≤ toCInt name.strlen ∧ ¬∃ i, GoodSplit isDir name i

/-- Two properties hold somewhere together, or each of them only apart from the other. -/
theorem exists_iff_exists {α : Type} {p q : α → Prop} :
    ((∃ x, p x) ↔ ∃ x, q x) ↔
      (∃ x, q x ∧ p x) ∨ ((∃ x, p x ∧ ¬q x) ↔ ∃ x, q x ∧ ¬p x) := by
  rcases Classical.em (∃ x, q x ∧ p x) with hboth | hnone
  · obtain ⟨x, hq, hp⟩ := hboth
    exact iff_of_true (iff_of_true ⟨x, hp⟩ ⟨x, hq⟩) (.inl ⟨x, hq, hp⟩)
  · have happart : ∀ x, p x → ¬q x := fun x hp hq => hnone ⟨x, hq, hp⟩
    have hleft : (∃ x, p x ∧ ¬q x) ↔ ∃ x, p x :=
      exists_congr fun x => and_iff_left_of_imp (happart x)
    have hright : (∃ x, q x ∧ ¬p x) ↔ ∃ x, q x :=
      exists_congr fun x => and_iff_left_of_imp fun hq hp => happart x hp hq
    rw [or_iff_right hnone, hleft, hright]

variable {isDir : Bool} {name : CString}

theorem nameSize_le (isDir : Bool) : 99 ≤ nameSize isDir ∧ nameSize isDir ≤ 100 := by
  cases isDir with
  | false => exact ⟨by decide, by decide⟩
  | true => exact ⟨by decide, by decide⟩

/-- The answers for a name that is longer than its field. -/
theorem splits_iff_long (hmax : name.strlen < 2 ^ 31) (hlong : tarNameSize < name.strlen) :
    ((∃ i, GoodSplit isDir name i) ↔ ∃ i, Cuttable name i) ↔
      (∃ i, Cuttable name i ∧ i ≠ prefixFieldSize ∧ i + nameSize isDir + 1 ≥ name.strlen) ∨
        (SlashAt name (name.strlen - 1) ∧ name.strlen ≤ prefixFieldSize ↔
          ∃ i, Cuttable name i ∧ (i = prefixFieldSize ∨ i + nameSize isDir + 1 < name.strlen)) := by
  have hint : toCInt name.strlen = name.strlen := toCInt_of_lt hmax
  obtain ⟨hmin, hsize⟩ := nameSize_le isDir
  have hp : prefixFieldSize = 155 := rfl
  have ht : tarNameSize = 100 := rfl
  have hboth : ∀ i, Cuttable name i ∧ GoodSplit isDir name i ↔
      Cuttable name i ∧ i ≠ prefixFieldSize ∧ i + nameSize isDir + 1 ≥ name.strlen := by
    refine fun i => and_congr_right fun hcut => ?_
    obtain ⟨hslash, hpos, hle, -, -⟩ := hcut
    rw [GoodSplit, hint, and_iff_right hslash, and_iff_right hpos]
    omega
  -- only the last byte is accepted by the search alone
  have hleft : (∃ i, GoodSplit isDir name i ∧ ¬Cuttable name i) ↔
      SlashAt name (name.strlen - 1) ∧ name.strlen ≤ prefixFieldSize := by
    constructor
    · rintro ⟨i, ⟨hslash, hpos, hlt, hle⟩, hnot⟩
      have hi := hslash.lt
      rw [hint] at hle
      rw [Cuttable, not_and] at hnot
      have hbad := hnot hslash
      have hlast : i = name.strlen - 1 := by omega
      rw [hlast] at hslash
      exact ⟨hslash, by omega⟩
    · rintro ⟨hslash, hle⟩
      refine ⟨name.strlen - 1, ⟨hslash, by omega, by omega, by rw [hint]; omega⟩, ?_⟩
      rintro ⟨-, -, -, hbehind, -⟩
      omega
  have hright : ∀ i, Cuttable name i ∧ ¬GoodSplit isDir name i ↔
      Cuttable name i ∧ (i = prefixFieldSize ∨ i + nameSize isDir + 1 < name.strlen) := by
    refine fun i => and_congr_right fun hcut => ?_
    obtain ⟨hslash, hpos, hle, -, -⟩ := hcut
    rw [GoodSplit, hint, and_iff_right hslash, and_iff_right hpos]
    omega
  rw [exists_iff_exists, exists_congr hboth, hleft, exists_congr hright]

/-- The answers for a name whose length is an `int`. -/
theorem splits_iff_int (hmax : name.strlen < 2 ^ 31) :
    ((name.strlen < nameSize isDir ∨ ∃ i, GoodSplit isDir name i) ↔
        name.strlen ≤ tarNameSize ∨ ∃ i, Cuttable name i) ↔
      name.strlen < nameSize isDir ∨
      (name.strlen ≤ tarNameSize ∧ ∃ i, SlashAt name i ∧ 0 < i) ∨
      (tarNameSize < name.strlen ∧
        ((∃ i, Cuttable name i ∧ i ≠ prefixFieldSize ∧ i + nameSize isDir + 1 ≥ name.strlen) ∨
          (SlashAt name (name.strlen - 1) ∧ name.strlen ≤ prefixFieldSize ↔
            ∃ i, Cuttable name i ∧
              (i = prefixFieldSize ∨ i + nameSize isDir + 1 < name.strlen)))) := by
  have hint : toCInt name.strlen = name.strlen := toCInt_of_lt hmax
  obtain ⟨hmin, hsize⟩ := nameSize_le isDir
  have hp : prefixFieldSize = 155 := rfl
  have ht : tarNameSize = 100 := rfl
  rcases lt_or_ge tarNameSize name.strlen with hlong | hshort
  · rw [or_iff_right (show ¬name.strlen < nameSize isDir by omega),
      or_iff_right (show ¬name.strlen ≤ tarNameSize by omega),
      or_iff_right (show ¬name.strlen < nameSize isDir by omega),
      or_iff_right (fun h => absurd h.1 (not_le.mpr hlong)), and_iff_right hlong]
    exact splits_iff_long hmax hlong
  · have hgood : (∃ i, GoodSplit isDir name i) ↔ ∃ i, SlashAt name i ∧ 0 < i := by
      refine exists_congr fun i => and_congr_right fun hslash => ?_
      have hi := hslash.lt
      rw [hint]
      omega
    have hnot : ¬tarNameSize < name.strlen := not_lt.mpr hshort
    have hfits : name.strlen ≤ tarNameSize ∨ ∃ i, Cuttable name i := .inl hshort
    rw [iff_true_right hfits, hgood, and_iff_right hshort]
    exact or_congr_right (or_iff_left fun h => hnot h.1).symm

/-- The answers for a name whose length is no `int`: by the comment it does not fit. -/
theorem splits_iff_large (hmin : 2 ^ 31 ≤ name.strlen) :
    ((toCInt name.strlen < nameSize isDir ∨ ∃ i, GoodSplit isDir name i) ↔
        name.strlen ≤ tarNameSize ∨ ∃ i, Cuttable name i) ↔
      (nameSize isDir : Int) ≤ toCInt name.strlen ∧ ¬∃ i, GoodSplit isDir name i := by
  have hp : prefixFieldSize = 155 := rfl
  have ht : tarNameSize = 100 := rfl
  have hno : ¬(name.strlen ≤ tarNameSize ∨ ∃ i, Cuttable name i) := by
    rintro (hshort | ⟨i, -, -, hle, -, hlen⟩)
    · omega
    · omega
  rw [iff_false_right hno, not_or, not_lt]

/-- `taru_is_tar_filename_too_long` agrees with the comment in exactly these cases. -/
theorem nameTestRight_iff {flags : TarFlags} (h : flags.NoLongNames) (isDir : Bool) (mem : Bytes) :
    NameTestRight flags isDir mem ↔
      NameTestOk isDir (squashTrailingSlash (CString.ofMem mem)) := by
  rw [NameTestRight, taruIsTarFilenameTooLongIn_eq, and_iff_left rfl, nameTest_fits_iff h,
    fitsHeader_iff, NameTestOk]
  generalize squashTrailingSlash (CString.ofMem mem) = name
  split
  · next hmax =>
      rw [toCInt_of_lt hmax, Nat.cast_lt]
      exact splits_iff_int hmax
  · next hmin => exact splits_iff_large (not_lt.mp hmin)

/-- A name of one hundred bytes without a slash. -/
def hundred : Bytes := List.replicate 100 97

/-- A name of 161 bytes with a slash in the middle. -/
def splitName : CString :=
  ⟨List.replicate 80 97 ++ slash :: List.replicate 80 98, by decide⟩

theorem strlen_splitName : splitName.strlen = 161 := by
  rw [CString.strlen, splitName, List.length_append, List.length_cons, List.length_replicate,
    List.length_replicate]

theorem cuttable_splitName : Cuttable splitName 80 := by
  refine ⟨rfl, by decide, by decide, ?_, ?_⟩
  · rw [strlen_splitName]
    decide
  · rw [strlen_splitName]
    decide

/-- The test is right for a name that is split. -/
theorem nameTestRight_split : NameTestRight {} false splitName.bytes := by
  refine (nameTestRight_iff ⟨rfl, rfl, rfl⟩ false _).mpr ?_
  have hsquash : squashTrailingSlash (CString.ofMem splitName.bytes) = splitName := by
    decide +kernel
  rw [hsquash, NameTestOk, strlen_splitName, if_pos (by decide)]
  exact .inr (.inr ⟨by decide, .inl ⟨80, cuttable_splitName, by decide, by decide⟩⟩)

/-- A name of one hundred bytes fits its field, but is called too long. -/
theorem not_nameTestRight_hundred : ¬NameTestRight {} false hundred := by
  intro h
  have hfits : FitsHeader (squashTrailingSlash (CString.ofMem hundred)) := .inl (by decide)
  exact absurd (h.1.mpr hfits) (by decide)

end Swbis.Taru
