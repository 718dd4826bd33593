import Swbis.Taru.NameTooLong
import Swbis.Taru.RecordName

/-!
# Names that fit and the record

`taru_is_tar_filename_too_long` says that a name fits, `taru_set_new_name`
stores it and `taru_dup_tar_name` reads it back.  The test looks at the name
without one trailing slash, the writer at the whole name, and takes the last
slash that it can; for a directory of up to 156 bytes that is the trailing one,
and the name field stays empty.

`nameRoundTrips_iff` says which of the names that fit are stored and read back.
-/

namespace Swbis.Taru

open CLib

/-! ## The slash of the split -/

/-- The split is not before any slash it could be at. -/
theorem le_splitLongNameFrom {name : Bytes} {k n : Nat} (hk : 0 < k) (hn : k ≤ n)
    (hslash : name[k]? = some slash) : k ≤ splitLongNameFrom name n := by
  induction n with
  | zero => omega
  | succ n ih =>
      rw [splitLongNameFrom]
      split
      · exact hn
      · next hno =>
          rcases Nat.lt_or_eq_of_le hn with hlt | heq
          · exact ih (Nat.le_of_lt_succ hlt)
          · rw [heq] at hslash
            exact absurd hslash hno

/-- The split of a name: no slash, or the last one of the first 156 bytes. -/
theorem le_splitLongName {name : CString} {k : Nat} (hk : 0 < k) (hp : k ≤ prefixFieldSize)
    (hslash : SlashAt name k) : k ≤ splitLongName name.bytes name.strlen := by
  have hlt := hslash.lt
  refine le_splitLongNameFrom hk ?_ hslash
  split
  · omega
  · omega

theorem slashAt_splitLongName (name : CString) (h : 0 < splitLongName name.bytes name.strlen) :
    SlashAt name (splitLongName name.bytes name.strlen) :=
  getElem?_splitLongNameFrom name.bytes h

/-! ## The name field -/

theorem head?_strncpy {n : Nat} (hn : 0 < n) (s : CString) :
    (CField.strncpy n s.bytes).bytes.head? ≠ some 0 ↔ 0 < s.strlen := by
  obtain ⟨m, rfl⟩ := Nat.exists_eq_succ_of_ne_zero hn.ne'
  rw [CField.bytes_strncpy, CString.strlen]
  cases hs : s.bytes with
  | nil => exact iff_of_false (fun h => h rfl) (Nat.lt_irrefl 0)
  | cons b bs =>
      refine iff_of_true ?_ (Nat.succ_pos _)
      rw [List.take_succ_cons, List.cons_append, List.head?_cons, Ne, Option.some_inj]
      exact fun hb => s.noNul (by rw [hs, hb]; exact List.mem_cons_self)

/-- What is stored in the name field is not empty. -/
theorem nameField_iff {name : CString} {h : TarHeader}
    (hhex : swlibProcessHexEscapes name = name) (hok : taruSetNewName .zero name = .ok h) :
    h.name.bytes.head? ≠ some 0 ↔
      if name.strlen ≤ tarNameSize then 0 < name.strlen
      else splitLongName name.bytes name.strlen ≠ 0 ∧
        splitLongName name.bytes name.strlen + 1 < name.strlen := by
  rw [taruSetNewName, hhex] at hok
  simp only [taruSplitNameUstar] at hok
  split at hok
  · next hshort =>
      cases hok
      rw [if_pos hshort]
      exact head?_strncpy (by decide) name
  · next hlong =>
      rw [if_neg hlong]
      split at hok
      · cases hok
      · split at hok
        · cases hok
        · split at hok
          · next hzero =>
              cases hok
              exact iff_of_false (fun h => h rfl) fun h => h.1 hzero
          · next hsplit =>
              cases hok
              rw [and_iff_right hsplit]
              have hfield := head?_strncpy (show 0 < 100 by decide)
                (name.drop (splitLongName name.bytes name.strlen + 1))
              rw [CString.strlen_drop] at hfield
              exact hfield.trans Nat.sub_pos_iff_lt

/-! ## The round trip -/

/-- The name is accepted into a blank header, the name field is not empty, and the
name is read back from every record with these names and the magic, whatever is
in the memory behind it. -/
def NameRoundTrips (name : CString) : Prop :=
  ∃ h, taruSetNewName .zero name = .ok h ∧ h.name.bytes.head? ≠ some 0 ∧
    ∀ (h' : TarHeader) (mem : Bytes), h'.name = h.name → h'.prefixField = h.prefixField →
      h'.magic.bytes.take 5 = tmagic → taruDupTarName (h'.bytes ++ mem) = name

/-- The names that are stored and read back, of those that fit.  There is no
hexadecimal escape, and the name is not empty; it has at most 100 bytes, or no
trailing slash, or it has 157 to 255 bytes with the trailing slash, and a slash
that leaves at most 100 bytes behind it. -/
def NameKept (name : CString) : Prop :=
  swlibProcessHexEscapes name = name ∧ 0 < name.strlen ∧
    (name.strlen ≤ tarNameSize ∨
      (name.bytes.getLast? ≠ some slash ∧ name.strlen < 2 ^ 31) ∨
      (name.bytes.getLast? = some slash ∧ prefixFieldSize + 2 ≤ name.strlen ∧
        name.strlen ≤ prefixFieldSize + tarNameSize ∧
        ∃ i, SlashAt name i ∧ i ≤ prefixFieldSize ∧ name.strlen ≤ i + tarNameSize + 1))

/-- The test says that the name fits. -/
def NameFits (flags : TarFlags) (isDir : Bool) (name : CString) : Prop :=
  (taruIsTarFilenameTooLongIn name.bytes flags isDir).1 = false

instance (flags : TarFlags) (isDir : Bool) (name : CString) : Decidable (NameFits flags isDir name) :=
  inferInstanceAs (Decidable (_ = _))

/-- A header with the magic of the format. -/
def withMagic (h : TarHeader) : TarHeader := { h with magic := .strncpy 6 tmagic }

/-- The name is stored and read back. -/
theorem nameRoundTrips_iff_held {name : CString} :
    NameRoundTrips name ↔ HeldByRecord name ∧
      (if name.strlen ≤ tarNameSize then 0 < name.strlen
        else splitLongName name.bytes name.strlen ≠ 0 ∧
          splitLongName name.bytes name.strlen + 1 < name.strlen) := by
  constructor
  · rintro ⟨h, hok, hfield, hread⟩
    have hstored := hread (withMagic h) [] rfl rfl rfl
    have hname : (withMagic h).NameStored name := ⟨h, hok, rfl, rfl⟩
    rw [taruDupTarName_setNewName hname rfl] at hstored
    have hheld := heldByRecord_iff.mp ⟨⟨h, hok⟩, hstored⟩
    exact ⟨hheld, (nameField_iff hheld.1 hok).mp hfield⟩
  · rintro ⟨hheld, hfield⟩
    obtain ⟨⟨h, hok⟩, hstored⟩ := heldByRecord_iff.mpr hheld
    refine ⟨h, hok, (nameField_iff hheld.1 hok).mpr hfield, fun h' mem hn hp hmagic => ?_⟩
    rw [taruDupTarName_setNewName ⟨h, hok, hn, hp⟩ hmagic, hstored]

/-! ## Names of more than one hundred bytes -/

theorem slashAt_last_iff {name : CString} :
    SlashAt name (name.strlen - 1) ↔ name.bytes.getLast? = some slash := by
  rw [SlashAt, List.getLast?_eq_getElem?]
  rfl

/-- A long name without a trailing slash that fits is split where something is left. -/
theorem split_of_fits {flags : TarFlags} (hflags : flags.NoLongNames) {isDir : Bool}
    {name : CString} (hfits : NameFits flags isDir name) (hlong : tarNameSize < name.strlen)
    (hmax : name.strlen < 2 ^ 31) (hlast : name.bytes.getLast? ≠ some slash) :
    (splitLongName name.bytes name.strlen ≠ 0 ∧
      name.strlen - splitLongName name.bytes name.strlen - 1 ≤ nameFieldSize ∧
      name.strlen ≤ prefixFieldSize + tarNameSize) ∧
    splitLongName name.bytes name.strlen + 1 < name.strlen := by
  have hsquash : squashTrailingSlash name = name := if_neg fun h => hlast h.2
  have hint : toCInt name.strlen = name.strlen := toCInt_of_lt hmax
  have hp : prefixFieldSize = 155 := rfl
  have ht : tarNameSize = 100 := rfl
  have hf : nameFieldSize = 100 := rfl
  obtain ⟨-, hsize⟩ := nameSize_le isDir
  rw [NameFits, taruIsTarFilenameTooLongIn_eq, CString.ofMem_bytes, hsquash,
    nameTest_fits_iff hflags, hint] at hfits
  rcases hfits with hshort | ⟨i, hslash, hpos, hlt, hle⟩
  · omega
  · have hsplit := le_splitLongName hpos hlt.le hslash
    have hmaxsplit := splitLongName_le name.bytes name.strlen
    have hat := slashAt_splitLongName name (by omega)
    have hbound := hat.lt
    have hne : splitLongName name.bytes name.strlen ≠ name.strlen - 1 := by
      intro heq
      rw [heq] at hat
      exact hlast (slashAt_last_iff.mp hat)
    rw [hint] at hle
    omega

/-- A long name with a trailing slash is split where something is left. -/
theorem split_of_trailing_slash {name : CString} (hlong : tarNameSize < name.strlen)
    (hlast : name.bytes.getLast? = some slash) :
    ((splitLongName name.bytes name.strlen ≠ 0 ∧
        name.strlen - splitLongName name.bytes name.strlen - 1 ≤ nameFieldSize ∧
        name.strlen ≤ prefixFieldSize + tarNameSize) ∧
      splitLongName name.bytes name.strlen + 1 < name.strlen) ↔
      prefixFieldSize + 2 ≤ name.strlen ∧ name.strlen ≤ prefixFieldSize + tarNameSize ∧
        ∃ i, SlashAt name i ∧ i ≤ prefixFieldSize ∧ name.strlen ≤ i + tarNameSize + 1 := by
  have hp : prefixFieldSize = 155 := rfl
  have ht : tarNameSize = 100 := rfl
  have hf : nameFieldSize = 100 := rfl
  have hmaxsplit := splitLongName_le name.bytes name.strlen
  constructor
  · rintro ⟨⟨hne, hfield, hlen⟩, hbehind⟩
    have hat := slashAt_splitLongName name (Nat.pos_of_ne_zero hne)
    refine ⟨Nat.le_of_not_lt fun hshort => ?_, hlen, _, hat, hmaxsplit, by omega⟩
    -- the trailing slash would be the last one
    have hle := le_splitLongName (k := name.strlen - 1) (by omega) (by omega)
      (slashAt_last_iff.mpr hlast)
    omega
  · rintro ⟨hmin, hlen, i, hslash, hi, hfield⟩
    have hsplit := le_splitLongName (by omega) hi hslash
    omega

/-- Of the names that fit, exactly these are stored and read back. -/
theorem nameRoundTrips_iff {flags : TarFlags} (hflags : flags.NoLongNames) {isDir : Bool}
    {name : CString} (hfits : NameFits flags isDir name) :
    NameRoundTrips name ↔ NameKept name := by
  rw [nameRoundTrips_iff_held, HeldByRecord, NameKept, and_assoc]
  refine and_congr_right fun _ => ?_
  rcases Nat.lt_or_ge tarNameSize name.strlen with hlong | hshort
  · have hnot : ¬name.strlen ≤ tarNameSize := Nat.not_le.mpr hlong
    rw [if_neg hnot, or_iff_right hnot, or_iff_right hnot, and_iff_right (Nat.zero_lt_of_lt hlong)]
    rcases Classical.em (name.bytes.getLast? = some slash) with hlast | hlast
    · rw [or_iff_right fun h => h.1 hlast, and_iff_right hlast, ← split_of_trailing_slash hlong hlast]
      exact and_congr_right fun h => and_iff_right h.1
    · rw [or_iff_left fun h => hlast h.1, and_iff_right hlast]
      constructor
      · rintro ⟨⟨-, -, hlen⟩, -⟩
        exact hlen.trans_lt (by decide)
      · intro hmax
        obtain ⟨hheld, hbehind⟩ := split_of_fits hflags hfits hlong hmax hlast
        exact ⟨hheld, hheld.1, hbehind⟩
  · rw [if_pos hshort, and_iff_right (.inl hshort), iff_self_and]
    exact fun _ => .inl hshort

/-- A name that is split comes back. -/
theorem nameRoundTrips_split : NameRoundTrips splitName := by
  have hfits : NameFits {} false splitName := by decide +kernel
  refine (nameRoundTrips_iff ⟨rfl, rfl, rfl⟩ hfits).mpr
    ⟨by decide +kernel, ?_, .inr (.inl ⟨?_, ?_⟩)⟩
  · rw [strlen_splitName]
    decide
  · decide +kernel
  · rw [strlen_splitName]
    decide

/-- A directory of 101 bytes: `d`, a slash, 98 bytes, and the trailing slash. -/
def directory101 : CString := ⟨100 :: slash :: List.replicate 98 97 ++ [slash], by decide⟩

/-- It fits, but it is split at the trailing slash and the name field is empty. -/
theorem not_nameRoundTrips_directory101 :
    NameFits {} true directory101 ∧ ¬NameRoundTrips directory101 := by
  refine ⟨by decide, ?_⟩
  rw [nameRoundTrips_iff_held, if_neg (by decide)]
  rintro ⟨-, -, hbehind⟩
  exact absurd hbehind (by decide)

end Swbis.Taru
