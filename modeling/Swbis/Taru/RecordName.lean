import Swbis.Taru.MemberRead

/-!
# Paths that a record holds

A path that the writer of a record accepts need not be the path that is read
from it: escapes are replaced, and what does not fit is lost.
`heldByRecord_iff` and `directoryHeld_iff` say for which paths it is.
-/

namespace Swbis.Taru

open CLib

/-! ## Paths of files -/

/-- The fields of a record hold the path as it is: it has no hexadecimal escape,
and it fits the name field or is split at a slash. -/
def HeldByRecord (name : CString) : Prop :=
  swlibProcessHexEscapes name = name ∧ (name.strlen ≤ tarNameSize ∨
    (splitLongName name.bytes name.strlen ≠ 0 ∧
      name.strlen - splitLongName name.bytes name.strlen - 1 ≤ nameFieldSize ∧
      name.strlen ≤ prefixFieldSize + tarNameSize))

/-- What a path without escapes needs to be accepted. -/
theorem nameAccepted_iff {name : CString} (hhex : swlibProcessHexEscapes name = name) :
    NameAccepted name ↔ name.strlen ≤ tarNameSize ∨
      (name.strlen ≤ prefixFieldSize + nameFieldSize + 1 ∧
        name.strlen - splitLongName name.bytes name.strlen - 1 ≤ nameFieldSize) := by
  rw [NameAccepted, taruSetNewName, hhex]
  by_cases hshort : name.strlen ≤ tarNameSize
  · simp only [hshort, if_true, true_or, iff_true]
    exact ⟨_, rfl⟩
  · simp only [hshort, if_false, false_or, taruSplitNameUstar]
    by_cases hlong : prefixFieldSize + nameFieldSize + 1 < name.strlen
    · simp only [if_pos hlong, Nat.not_le.mpr hlong, false_and, iff_false]
      rintro ⟨h, hok⟩
      cases hok
    · rw [if_neg hlong]
      by_cases hfield : nameFieldSize < name.strlen - splitLongName name.bytes name.strlen - 1
      · simp only [if_pos hfield, Nat.not_le.mpr hfield, and_false, iff_false]
        rintro ⟨h, hok⟩
        cases hok
      · simp only [if_neg hfield, Nat.le_of_not_lt hlong, Nat.le_of_not_lt hfield, and_self,
          iff_true]
        split
        · exact ⟨_, rfl⟩
        · exact ⟨_, rfl⟩

theorem strlen_storedName_le (name : CString) : (storedName name).strlen ≤ name.strlen := by
  rw [storedName]
  split
  · exact Nat.le_refl _
  · split
    · exact Nat.zero_le _
    · rw [CString.strlen_take]
      omega

/-- A path that comes out as it was had no escape. -/
theorem hex_eq_of_storedName (name : CString)
    (h : name.strlen ≤ (storedName (swlibProcessHexEscapes name)).strlen + 2) :
    swlibProcessHexEscapes name = name := by
  rcases swlibProcessHexEscapes_eq_or_lt name with heq | hlt
  · exact heq
  · have := strlen_storedName_le (swlibProcessHexEscapes name)
    omega

/-- A path that is accepted comes out as it was when the record holds it. -/
theorem heldByRecord_iff {name : CString} :
    NameAccepted name ∧ storedName (swlibProcessHexEscapes name) = name ↔ HeldByRecord name := by
  constructor
  · rintro ⟨haccept, hstored⟩
    have hhex := hex_eq_of_storedName name (by rw [hstored]; omega)
    rw [hhex, storedName_eq_iff] at hstored
    rw [nameAccepted_iff hhex] at haccept
    refine ⟨hhex, ?_⟩
    rcases hstored with hshort | ⟨hsplit, hlen⟩
    · exact .inl hshort
    · rcases haccept with hshort | ⟨-, hfield⟩
      · exact .inl hshort
      · exact .inr ⟨hsplit, hfield, hlen⟩
  · rintro ⟨hhex, hfits⟩
    rw [hhex, nameAccepted_iff hhex, storedName_eq_iff]
    rcases hfits with hshort | ⟨hsplit, hfield, hlen⟩
    · exact ⟨.inl hshort, .inl hshort⟩
    · refine ⟨.inr ⟨?_, hfield⟩, .inr ⟨hsplit, hlen⟩⟩
      simp only [prefixFieldSize, nameFieldSize, tarNameSize] at hlen ⊢
      omega

/-! ## Paths of directories -/

/-- The slash of a directory is one byte. -/
theorem strlen_uNameBuffer_le (hdr : FileHdr) (flags : TarFlags) :
    (uNameBuffer hdr flags).strlen ≤ hdr.cName.strlen + 1 := by
  rw [uNameBuffer]
  split
  · rw [CString.strlen_append]
    exact Nat.le_refl _
  · exact Nat.le_succ _

/-- The path with a slash at its end. -/
def withSlash (name : CString) : CString :=
  if name.bytes.getLast? = some slash then name else name.append ⟨[slash], slash_noNul⟩

theorem strlen_withSlash_le (name : CString) :
    name.strlen ≤ (withSlash name).strlen ∧ (withSlash name).strlen ≤ name.strlen + 1 := by
  rw [withSlash]
  split
  · omega
  · rw [CString.strlen_append]
    exact ⟨Nat.le_add_right _ _, Nat.le_refl _⟩

theorem getLast?_withSlash (name : CString) : (withSlash name).bytes.getLast? = some slash := by
  rw [withSlash]
  split
  · next h => exact h
  · rw [CString.bytes_append, List.getLast?_concat]

@[simp] theorem withSlash_withSlash (name : CString) : withSlash (withSlash name) = withSlash name := by
  rw [withSlash, if_pos (getLast?_withSlash name)]

/-- The fields of a record hold the path of a directory, up to its trailing
slash: the last byte of 256 is not read back, and may be the slash. -/
def DirectoryHeld (name : CString) : Prop :=
  HeldByRecord name ∨
    (swlibProcessHexEscapes name = name ∧
      name.strlen = prefixFieldSize + tarNameSize + 1 ∧
      splitLongName name.bytes name.strlen = prefixFieldSize ∧
      withSlash (name.take (prefixFieldSize + tarNameSize)) = withSlash name)

theorem directoryHeld_iff {name : CString} :
    NameAccepted name ∧ withSlash (storedName (swlibProcessHexEscapes name)) = withSlash name ↔
      DirectoryHeld name := by
  constructor
  · rintro ⟨haccept, hstored⟩
    have hle := (strlen_withSlash_le name).1
    have hle' := (strlen_withSlash_le (storedName (swlibProcessHexEscapes name))).2
    rw [hstored] at hle'
    have hhex := hex_eq_of_storedName name (by omega)
    rw [hhex] at hstored hle'
    have haccept' := haccept
    rw [nameAccepted_iff hhex] at haccept'
    by_cases heq : storedName name = name
    · exact .inl (heldByRecord_iff.mp ⟨haccept, by rw [hhex]; exact heq⟩)
    · rw [storedName] at hstored heq hle'
      split at heq
      · exact absurd rfl heq
      · next hlong =>
          rw [if_neg hlong] at hstored hle'
          have hacc := haccept'.resolve_left hlong
          simp only [prefixFieldSize, nameFieldSize, tarNameSize] at hacc hlong
          split at heq
          · next hsplit =>
              rw [if_pos hsplit, CString.strlen_empty] at hle'
              omega
          · next hsplit =>
              rw [if_neg hsplit] at hstored
              have hgt : prefixFieldSize + tarNameSize < name.strlen := by
                refine Nat.lt_of_not_le fun hshort => heq ?_
                exact CString.take_of_strlen_le hshort
              have hle'' := splitLongName_le name.bytes name.strlen
              simp only [prefixFieldSize, tarNameSize] at hgt hle''
              refine .inr ⟨hhex, ?_, ?_, hstored⟩
              · simp only [prefixFieldSize, tarNameSize]
                omega
              · simp only [prefixFieldSize]
                omega
  · rintro (hheld | ⟨hhex, hlen, hsplit, htake⟩)
    · obtain ⟨haccept, hstored⟩ := heldByRecord_iff.mpr hheld
      exact ⟨haccept, by rw [hstored]⟩
    · rw [hhex, nameAccepted_iff hhex, storedName, if_neg (by rw [hlen]; decide), if_neg
        (by rw [hsplit]; decide), hsplit, hlen]
      exact ⟨.inr (by decide), htake⟩

end Swbis.Taru
