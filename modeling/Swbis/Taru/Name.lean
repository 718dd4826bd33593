import Swbis.Taru.Header

/-!
# Names in the tar record

A path of up to 100 bytes stands in the name field.  A longer one is split at a
slash between the prefix and the name field, and the reader joins the two.
Before that, the writer replaces hexadecimal escapes in the path.

`taruDupTarName_setNewName` says which path the reader finds, for every path
the writer accepts.  `storedName_eq_iff` says when it is the path itself.
-/

namespace Swbis.Taru

open CLib

/-! ## Hexadecimal escapes -/

/-- `strstr (src, "\\x")`: what is before the first `\x`, and the memory from
it on. -/
def strstrHexEscape : Bytes → Option (Bytes × Bytes)
  | [] => none
  | b :: s =>
      if b = 92 ∧ s.head? = some 120 then some ([], b :: s)
      else (strstrHexEscape s).map fun p => (b :: p.1, p.2)

/-- `convert_hex_seq`, of two digits of either case. -/
def convertHexSeq (d1 d2 : UInt8) : Option UInt8 :=
  match hexDigit d1, hexDigit d2 with
  | some v1, some v2 => some (UInt8.ofNat (16 * v1 + v2))
  | _, _ => none

/-- `does_have_hex_escape`: what is before the escape, its value, and what is
after it. -/
def doesHaveHexEscape (src : Bytes) : Option (Bytes × UInt8 × Bytes) :=
  match strstrHexEscape src with
  | none => none
  | some (before, t) =>
      if before.getLast? = some 92 then none
      else
        match t with
        | _ :: _ :: d1 :: d2 :: rest =>
            (convertHexSeq d1 d2).map fun value => (before, value, rest)
        | _ => none

/-- `process_all_hex_escapes`, for at most `n` escapes. -/
def processAllHexEscapes : Nat → Bytes → Bytes
  | 0, s => s
  | n + 1, s =>
      match doesHaveHexEscape s with
      | none => s
      | some (before, value, rest) => before ++ value :: processAllHexEscapes n rest

/-- `swlib_process_hex_escapes`.  An escape of NUL ends the string. -/
def swlibProcessHexEscapes (s : CString) : CString :=
  .ofMem (processAllHexEscapes s.strlen s.bytes)

theorem strstrHexEscape_append {s before t : Bytes} (h : strstrHexEscape s = some (before, t)) :
    s = before ++ t := by
  induction s generalizing before with
  | nil => cases h
  | cons b s ih =>
      rw [strstrHexEscape] at h
      split at h
      · cases h
        rfl
      · cases hs : strstrHexEscape s with
        | none => rw [hs] at h; cases h
        | some p =>
            rw [hs] at h
            cases h
            rw [List.cons_append, ← ih hs]

/-- An escape is four bytes long. -/
theorem length_of_doesHaveHexEscape {s before rest : Bytes} {value : UInt8}
    (h : doesHaveHexEscape s = some (before, value, rest)) :
    s.length = before.length + rest.length + 4 := by
  rw [doesHaveHexEscape] at h
  split at h
  · cases h
  · next before' t hs =>
      split at h
      · cases h
      · split at h
        · next d1 d2 rest' =>
            cases hv : convertHexSeq d1 d2 with
            | none => rw [hv] at h; cases h
            | some v =>
                rw [hv] at h
                cases h
                rw [strstrHexEscape_append hs]
                simp
                omega
        · cases h

theorem length_processAllHexEscapes_le (n : Nat) (s : Bytes) :
    (processAllHexEscapes n s).length ≤ s.length := by
  induction n generalizing s with
  | zero => exact Nat.le_refl _
  | succ n ih =>
      rw [processAllHexEscapes]
      split
      · exact Nat.le_refl _
      · next before value rest h =>
          have hl := length_of_doesHaveHexEscape h
          have := ih rest
          simp
          omega

/-- An escape is replaced by one byte, so a string is left as it is or comes out
shorter by at least three. -/
theorem swlibProcessHexEscapes_eq_or_lt (s : CString) :
    swlibProcessHexEscapes s = s ∨ (swlibProcessHexEscapes s).strlen + 3 ≤ s.strlen := by
  cases hs : s.strlen with
  | zero =>
      left
      rw [swlibProcessHexEscapes, hs]
      exact CString.ofMem_bytes s
  | succ n =>
      rw [swlibProcessHexEscapes, hs, processAllHexEscapes]
      split
      · exact Or.inl (CString.ofMem_bytes s)
      · next before value rest h =>
          right
          have hl := length_of_doesHaveHexEscape h
          have hp := length_processAllHexEscapes_le n rest
          have hle := CString.length_ofMem_le (before ++ value :: processAllHexEscapes n rest)
          rw [CString.strlen] at hs
          simp only [List.length_append, List.length_cons] at hle
          omega

theorem strlen_swlibProcessHexEscapes_le (s : CString) :
    (swlibProcessHexEscapes s).strlen ≤ s.strlen := by
  rcases swlibProcessHexEscapes_eq_or_lt s with h | h
  · rw [h]
  · exact Nat.le_of_add_right_le h

/-! ## The split of a long name -/

/-- The largest index `i` of a slash in `1..n`, or zero. -/
def splitLongNameFrom (name : Bytes) : Nat → Nat
  | 0 => 0
  | i + 1 => if name[i + 1]? = some slash then i + 1 else splitLongNameFrom name i

/-- `split_long_name`. -/
def splitLongName (name : Bytes) (length : Nat) : Nat :=
  let length := if prefixFieldSize < length then prefixFieldSize + 1 else length
  splitLongNameFrom name (length - 1)

theorem splitLongNameFrom_le (name : Bytes) (n : Nat) : splitLongNameFrom name n ≤ n := by
  induction n with
  | zero => exact Nat.le_refl 0
  | succ n ih =>
      rw [splitLongNameFrom]
      split
      · exact Nat.le_refl _
      · omega

theorem getElem?_splitLongNameFrom (name : Bytes) {n : Nat} (h : 0 < splitLongNameFrom name n) :
    name[splitLongNameFrom name n]? = some slash := by
  induction n with
  | zero => exact absurd h (Nat.lt_irrefl 0)
  | succ n ih =>
      rw [splitLongNameFrom] at h ⊢
      split
      · next hs => exact hs
      · next hs =>
          rw [if_neg hs] at h
          exact ih h

theorem splitLongName_le (name : Bytes) (length : Nat) :
    splitLongName name length ≤ prefixFieldSize := by
  have h := splitLongNameFrom_le name
    ((if prefixFieldSize < length then prefixFieldSize + 1 else length) - 1)
  rw [splitLongName]
  split at h
  · next hl => simpa [hl] using h
  · next hl =>
      simp only [if_neg hl]
      omega

theorem splitLongName_lt (name : Bytes) (length : Nat) (h : 0 < length) :
    splitLongName name length < length := by
  have hl := splitLongNameFrom_le name
    ((if prefixFieldSize < length then prefixFieldSize + 1 else length) - 1)
  rw [splitLongName]
  split at hl
  · next hp =>
      simp only [if_pos hp]
      omega
  · next hp =>
      simp only [if_neg hp]
      omega

/-- At the split there is a slash. -/
theorem take_splitLongName {name : Bytes} {length : Nat} (h : 0 < splitLongName name length) :
    name = name.take (splitLongName name length) ++
      slash :: name.drop (splitLongName name length + 1) := by
  have hs := getElem?_splitLongNameFrom name h
  rw [← splitLongName] at hs
  obtain ⟨hlt, hget⟩ := List.getElem?_eq_some_iff.mp hs
  rw [← hget, ← List.drop_eq_getElem_cons hlt, List.take_append_drop]

/-! ## Writing and reading the name -/

/-- `taru_split_name_ustar`. -/
def taruSplitNameUstar (h : TarHeader) (name : CString) : Except Int TarHeader :=
  let length := name.strlen
  let h := { h with name := .zero 100, prefixField := .zero 155 }
  if prefixFieldSize + nameFieldSize + 1 < length then .error (-1)
  else
    let i := splitLongName name.bytes length
    if nameFieldSize < length - i - 1 then .error (-1)
    else if i = 0 then .ok h
    else .ok { h with
      name := .strncpy 100 (name.bytes.drop (i + 1))
      prefixField := .strncpy 155 (name.bytes.take i) }

/-- `taru_set_new_name`.  The checksum it stores is left out: the caller
computes it again when the record is complete. -/
def taruSetNewName (h : TarHeader) (fpname : CString) : Except Int TarHeader :=
  let name := swlibProcessHexEscapes fpname
  if name.strlen ≤ tarNameSize then .ok { h with name := .strncpy 100 name.bytes }
  else taruSplitNameUstar h name

/-- `TMAGIC`, the five bytes that are compared. -/
def tmagic : Bytes := chars ['u', 's', 't', 'a', 'r']

/-- `stash_tar_filename`: the memory at the prefix, if there is one, and at the
name. -/
def stashTarFilename (prefixMem : Option Bytes) (nameMem : Bytes) : CString :=
  match prefixMem with
  | none => .ofMem (nameMem.take tarNameSize)
  | some p =>
      if p.head? = some 0 ∨ p = [] then .ofMem (nameMem.take tarNameSize)
      else
        ((CString.ofMem (p.take prefixFieldSize)).append
          ((⟨[slash], slash_noNul⟩ : CString).append (.ofMem (nameMem.take tarNameSize)))).take
          (prefixFieldSize + tarNameSize)

/-- `taru_dup_tar_name`, of the record at the start of memory. -/
def taruDupTarName (mem : Bytes) : CString :=
  if (mem.drop 257).take 5 ≠ tmagic then stashTarFilename none mem
  else stashTarFilename (some (mem.drop 345)) mem

/-! ## The name that is read back -/

/-- The path the record holds after `taru_set_new_name` has accepted `name`,
the path with its escapes replaced. -/
def storedName (name : CString) : CString :=
  if name.strlen ≤ tarNameSize then name
  else if splitLongName name.bytes name.strlen = 0 then .empty
  else name.take (prefixFieldSize + tarNameSize)

/-- The parts of a record that `taru_set_new_name` writes. -/
structure TarHeader.NameStored (h : TarHeader) (name : CString) : Prop where
  /-- The name was accepted into a blank record. -/
  accepted : ∃ h', taruSetNewName .zero name = .ok h' ∧
    h.name = h'.name ∧ h.prefixField = h'.prefixField

/-- A prefix that starts with NUL is ignored. -/
theorem stashTarFilename_zero (mem nameMem : Bytes) :
    stashTarFilename (some ((CField.zero 155).bytes ++ mem)) nameMem =
      .ofMem (nameMem.take tarNameSize) := by
  rw [stashTarFilename, if_pos]
  left
  rfl

/-- A prefix and a name that fill their fields are joined at a slash. -/
theorem stashTarFilename_join (pre name : CString) (h0 : 0 < pre.strlen)
    (hp : pre.strlen ≤ prefixFieldSize) (hn : name.strlen ≤ tarNameSize) (mem mem' : Bytes) :
    (stashTarFilename (some ((CField.strncpy 155 pre.bytes).bytes ++ mem))
        ((CField.strncpy 100 name.bytes).bytes ++ mem')).bytes =
      (pre.bytes ++ slash :: name.bytes).take (prefixFieldSize + tarNameSize) := by
  obtain ⟨b, bs, hbs⟩ : ∃ b bs, pre.bytes = b :: bs :=
    List.exists_cons_of_ne_nil (List.ne_nil_of_length_pos h0)
  have hb : b ≠ 0 := by
    rintro rfl
    exact pre.noNul (by rw [hbs]; simp)
  have hhead : ¬ (((CField.strncpy 155 pre.bytes).bytes ++ mem).head? = some 0 ∨
      (CField.strncpy 155 pre.bytes).bytes ++ mem = []) := by
    simp [CField.bytes_strncpy, hbs, hb]
  have hpre : CString.ofMem (((CField.strncpy 155 pre.bytes).bytes ++ mem).take prefixFieldSize) =
      pre := (CString.ofMem_take_strncpy 155 pre mem).trans (CString.take_of_strlen_le hp)
  have hname : CString.ofMem (((CField.strncpy 100 name.bytes).bytes ++ mem').take tarNameSize) =
      name := (CString.ofMem_take_strncpy 100 name mem').trans (CString.take_of_strlen_le hn)
  rw [stashTarFilename, if_neg hhead, hpre, hname]
  simp

/-- The path that the reader finds in a record is the one that was stored. -/
theorem taruDupTarName_setNewName {h : TarHeader} {name : CString} (hn : h.NameStored name)
    (hmagic : h.magic.bytes.take 5 = tmagic) (mem : Bytes) :
    taruDupTarName (h.bytes ++ mem) = storedName (swlibProcessHexEscapes name) := by
  obtain ⟨h', hok, hname, hpfx⟩ := hn.accepted
  have hm : ((h.bytes ++ mem).drop 257).take 5 = tmagic := by
    rw [TarHeader.drop_magic, TarHeader.fromMagic, List.take_append_of_le_length (by simp), hmagic]
  have hnm : h.bytes ++ mem = h'.name.bytes ++ h.fromMode mem := by
    rw [← TarHeader.fromName_eq, TarHeader.fromName, hname]
  rw [taruDupTarName, if_neg (not_ne_iff.mpr hm), TarHeader.drop_prefix, TarHeader.fromPrefix,
    hpfx, hnm]
  rw [taruSetNewName] at hok
  generalize swlibProcessHexEscapes name = p at hok ⊢
  generalize h.fromMode mem = mem₁
  generalize h.fromPad mem = mem₂
  simp only [storedName]
  split at hok
  · next hshort =>
      cases hok
      rw [if_pos hshort]
      refine (stashTarFilename_zero mem₂ _).trans ?_
      exact (CString.ofMem_take_strncpy 100 p mem₁).trans (CString.take_of_strlen_le hshort)
  · next hlong =>
      rw [if_neg hlong]
      simp only [taruSplitNameUstar] at hok
      split at hok
      · cases hok
      · split at hok
        · cases hok
        · next hfit =>
            split at hok
            · next hi =>
                cases hok
                rw [if_pos hi]
                exact stashTarFilename_zero mem₂ _
            · next hi =>
                cases hok
                rw [if_neg hi]
                have hle := splitLongName_le p.bytes p.strlen
                have hlt := splitLongName_lt p.bytes p.strlen (by omega)
                ext1
                refine (stashTarFilename_join (p.take (splitLongName p.bytes p.strlen))
                  (p.drop (splitLongName p.bytes p.strlen + 1)) ?_ ?_ ?_ mem₂ mem₁).trans ?_
                · rw [CString.strlen_take]
                  omega
                · rw [CString.strlen_take]
                  omega
                · rw [CString.strlen_drop]
                  simp only [nameFieldSize, tarNameSize] at hfit ⊢
                  omega
                · rw [CString.bytes_take, CString.bytes_drop,
                    ← take_splitLongName (by omega), CString.bytes_take]

/-- A path is stored as it is when it fits the name field, or when a slash
splits it and the joined path is at most 255 bytes long. -/
theorem storedName_eq_iff (name : CString) :
    storedName name = name ↔
      name.strlen ≤ tarNameSize ∨
        (splitLongName name.bytes name.strlen ≠ 0 ∧ name.strlen ≤ prefixFieldSize + tarNameSize) := by
  rw [storedName]
  split
  · next h => simp [h]
  · next h =>
      split
      · next hi =>
          have hne : CString.empty ≠ name := by
            rintro rfl
            simp at h
          simp [h, hi, hne]
      · next hi =>
          simp only [h, hi, false_or, ne_eq, not_false_eq_true, true_and]
          constructor
          · intro he
            by_contra hlt
            exact CString.take_ne_of_lt (by omega) he
          · exact CString.take_of_strlen_le

/-! ## Lengths the tar formats accept -/

/-- `taru_is_tar_linkname_too_long`: whether the link name is too long, and
whether it needs a GNU long link. -/
def taruIsTarLinknameTooLong (name : CString) (flags : TarFlags) : Bool × Bool :=
  if name.strlen ≤ tarLinknameSize then (false, false)
  else if flags.gnuLongLinks then
    if name.strlen < tarRecordSize then (false, true) else (true, false)
  else if flags.paxexthdr then (false, false)
  else (true, false)

/-- The search for a slash that leaves at most `tarnamesize` bytes behind it
and fewer than 155, and at least one, before it. -/
def hasGoodSplit (tarnamesize : Nat) : Nat → Bytes → Bool
  | _, [] => false
  | off, b :: p =>
      if b = slash ∧ off < prefixFieldSize ∧ p.length ≤ tarnamesize ∧ off ≠ 0 then true
      else hasGoodSplit tarnamesize (off + 1) p

/-- The size of the name field that `taru_is_tar_filename_too_long` counts
with. -/
def tarnamesizeOf (flags : TarFlags) : Nat :=
  if (flags.gnuLongLinks ∧ flags.namesize99) ∨ flags.gnuOldgnutar then tarNameSize - 1
  else tarNameSize

/-- A name without its trailing slash, unless it is the only byte. -/
def squashTrailingSlash (name : CString) : CString :=
  if 1 < name.strlen ∧ name.bytes.getLast? = some slash then name.take (name.strlen - 1) else name

/-- A path is not shorter than without its trailing slash. -/
theorem strlen_squashTrailingSlash_le (name : CString) :
    (squashTrailingSlash name).strlen ≤ name.strlen := by
  rw [squashTrailingSlash]
  split
  · rw [CString.strlen_take]
    omega
  · exact Nat.le_refl _

/-- `taru_is_tar_filename_too_long` with `is_dir` zero: whether the name is too
long, and whether it needs a GNU long name. -/
def taruIsTarFilenameTooLong (name : CString) (flags : TarFlags) : Bool × Bool :=
  let name := squashTrailingSlash name
  let tarnamesize := tarnamesizeOf flags
  let tooLong :=
    if name.strlen < tarnamesize then false
    else if tarnamesize + prefixFieldSize + 1 < name.strlen ∧
        flags.gnuLongLinks = false ∧ flags.paxexthdr = false then true
    else !hasGoodSplit tarnamesize 0 name.bytes
  if tooLong then
    if flags.gnuLongLinks then
      if tarRecordSize ≤ name.strlen then (true, false)
      else if tarnamesize < name.strlen then (false, true)
      else (false, false)
    else if flags.paxexthdr then (false, false)
    else (true, false)
  else (false, false)

end Swbis.Taru
