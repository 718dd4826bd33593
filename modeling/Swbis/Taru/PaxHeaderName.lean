import Swbis.Taru.Member
import Swbis.Taru.NameRoundTrip

/-!
# The name of a pax header

A pax header is called `./PaxHeaders.` with the number of the process and the last part of the
path of its member.  A record holds this name for every path that fits the record or was cut to
fit it: the last part has at most 100 bytes, and the slash in front of it is one at which the
name can be split.  So the exit for a name that is too long is never taken
(`paxHeader_eq`).
-/

namespace Swbis.Taru

open CLib

/-! ## Escapes behind a text without backslashes -/

section Escapes

variable {front : Bytes} (hfront : (92 : UInt8) ∉ front)
include hfront

theorem strstrHexEscape_front (s : Bytes) :
    strstrHexEscape (front ++ s) = (strstrHexEscape s).map fun p => (front ++ p.1, p.2) := by
  induction front with
  | nil =>
      rw [List.nil_append]
      cases strstrHexEscape s with
      | none => rfl
      | some p => rfl
  | cons b front ih =>
      have hb : b ≠ 92 := fun h => hfront (h ▸ List.mem_cons_self)
      rw [List.cons_append, strstrHexEscape, if_neg (fun h => hb h.1),
        ih (fun h => hfront (List.mem_cons_of_mem b h))]
      cases strstrHexEscape s with
      | none => rfl
      | some p => rfl

theorem doesHaveHexEscape_front (s : Bytes) :
    doesHaveHexEscape (front ++ s) =
      (doesHaveHexEscape s).map fun p => (front ++ p.1, p.2) := by
  rw [doesHaveHexEscape, doesHaveHexEscape, strstrHexEscape_front hfront]
  cases strstrHexEscape s with
  | none => rfl
  | some p =>
      obtain ⟨before, t⟩ := p
      have hlast : (front ++ before).getLast? = some 92 ↔ before.getLast? = some 92 := by
        rw [List.getLast?_append]
        cases hb : before.getLast? with
        | none => exact iff_of_false (fun h => hfront (List.mem_of_getLast? h)) (by simp)
        | some b => rfl
      simp only [Option.map_some, hlast]
      split
      · rfl
      · -- A backslash, an `x` and two digits are looked at.
        rcases t with _ | ⟨_, _ | ⟨_, _ | ⟨d1, _ | ⟨d2, rest⟩⟩⟩⟩
        · rfl
        · rfl
        · rfl
        · rfl
        · simp only [Option.map_map]
          rfl

theorem processAllHexEscapes_front (n : Nat) (s : Bytes) :
    processAllHexEscapes n (front ++ s) = front ++ processAllHexEscapes n s := by
  cases n with
  | zero => rfl
  | succ n =>
      rw [processAllHexEscapes, processAllHexEscapes, doesHaveHexEscape_front hfront]
      cases doesHaveHexEscape s with
      | none => rfl
      | some p => exact List.append_assoc _ _ _

/-- The text in front stays, and what is behind it does not get longer. -/
theorem swlibProcessHexEscapes_front {name base : CString}
    (hname : name.bytes = front ++ base.bytes) :
    ∃ base' : CString, (swlibProcessHexEscapes name).bytes = front ++ base'.bytes ∧
      base'.strlen ≤ base.strlen := by
  have hplain : ∀ b ∈ front, (b != 0) = true := by
    intro b hb
    exact name.ne_zero_of_mem b (by rw [hname]; exact List.mem_append_left _ hb)
  refine ⟨.ofMem (processAllHexEscapes name.strlen base.bytes), ?_, ?_⟩
  · rw [swlibProcessHexEscapes, hname, processAllHexEscapes_front hfront]
    exact List.takeWhile_append_of_pos hplain
  · exact (CString.length_ofMem_le _).trans (length_processAllHexEscapes_le _ _)

end Escapes

/-! ## The last part of a path -/

/-- A run ends in front of a byte that stops it. -/
theorem length_takeWhile_le {p : UInt8 → Bool} {x : UInt8} (hx : p x = false) (l r : Bytes) :
    ((l ++ x :: r).takeWhile p).length ≤ l.length := by
  induction l with
  | nil => rw [List.nil_append, List.takeWhile_cons_of_neg (by simp [hx])]
  | cons b l ih =>
      rw [List.cons_append, List.takeWhile_cons]
      split
      · exact Nat.succ_le_succ ih
      · exact Nat.zero_le _

/-- A split that the test accepts has few bytes behind it. -/
theorem exists_of_hasGoodSplit {n off : Nat} {s : Bytes} (h : hasGoodSplit n off s = true) :
    ∃ a b, s = a ++ slash :: b ∧ b.length ≤ n := by
  induction s generalizing off with
  | nil => cases h
  | cons c s ih =>
      rw [hasGoodSplit] at h
      split at h
      · next hc => exact ⟨[], s, by rw [hc.1]; rfl, hc.2.2.1⟩
      · obtain ⟨a, b, rfl, hb⟩ := ih h
        exact ⟨c :: a, b, rfl, hb⟩

/-- The last part is not longer than what stands behind a slash. -/
theorem strlen_swlibBasename_le {name : CString} {n : Nat} (hn : 0 < n)
    (h : name.strlen ≤ n ∨ ∃ a b, name.bytes = a ++ slash :: b ∧ b.length ≤ n) :
    (swlibBasename name).strlen ≤ n := by
  have hrun : ∀ a b, name.bytes = a ++ slash :: b →
      (name.bytes.reverse.takeWhile (· != slash)).length ≤ b.length := by
    intro a b hab
    rw [hab, List.reverse_append, List.reverse_cons, List.append_assoc, List.singleton_append]
    exact (length_takeWhile_le (by simp) _ _).trans (List.length_reverse).le
  have hlen : (name.bytes.reverse.takeWhile (· != slash)).length ≤ name.strlen :=
    (List.takeWhile_prefix _).length_le.trans (List.length_reverse).le
  simp only [swlibBasename]
  split
  · next hmem =>
      obtain ⟨a, b, hab⟩ := List.append_of_mem hmem
      have hpos : 0 < name.strlen := by
        rw [CString.strlen, hab, List.length_append, List.length_cons]
        omega
      split
      · rw [CString.strlen_drop]
        omega
      · rw [CString.strlen_drop]
        rcases h with hle | ⟨a', b', hab', hb'⟩
        · omega
        · have := hrun a' b' hab'
          omega
  · next hmem =>
      rcases h with hle | ⟨a, b, hab, -⟩
      · exact hle
      · exact absurd (by rw [hab]; simp) hmem

/-- The last part of a path that fits the record. -/
theorem strlen_swlibBasename_of_fits {name : CString}
    (hfits : (taruIsTarFilenameTooLong name {}).1 = false) :
    (swlibBasename name).strlen ≤ tarNameSize := by
  refine strlen_swlibBasename_le (by decide) ?_
  by_cases hlast : name.bytes.getLast? = some slash
  · obtain ⟨a, ha⟩ := List.getLast?_eq_some_iff.mp hlast
    exact .inr ⟨a, [], ha, Nat.zero_le _⟩
  · have hsquash : squashTrailingSlash name = name := by
      rw [squashTrailingSlash, if_neg (fun h => hlast h.2)]
    have hsize : tarnamesizeOf {} = tarNameSize := rfl
    simp only [taruIsTarFilenameTooLong, hsquash, hsize, Bool.false_eq_true, if_false] at hfits
    by_cases hshort : name.strlen < tarNameSize
    · exact .inl hshort.le
    · rw [if_neg hshort] at hfits
      split at hfits
      · next htoo => cases hfits
      · next htoo =>
          cases hgood : hasGoodSplit tarNameSize 0 name.bytes with
          | false =>
              rw [hgood] at hfits
              cases hfits
          | true => exact .inr (exists_of_hasGoodSplit hgood)

/-! ## The name is accepted -/

/-- What stands before the last part. -/
def paxHeaderFront (pid : Nat) : Bytes :=
  chars ['.', '/', 'P', 'a', 'x', 'H', 'e', 'a', 'd', 'e', 'r', 's', '.'] ++
    (decimal.render pid ++ [slash])

theorem paxHeaderName_eq (pid : Nat) (name : CString) :
    paxHeaderName pid name = paxHeaderFront pid ++ (swlibBasename name).bytes := by
  simp [paxHeaderName, paxHeaderFront]

theorem not_mem_paxHeaderFront (pid : Nat) {b : UInt8} (hb : decimal.isDigit b = false)
    (hb' : b ∉ chars ['.', '/', 'P', 'a', 'x', 'H', 'e', 'a', 'd', 'e', 'r', 's', '.'])
    (hslash : b ≠ slash) : b ∉ paxHeaderFront pid := by
  intro h
  rcases List.mem_append.mp h with h | h
  · exact hb' h
  · rcases List.mem_append.mp h with h | h
    · rw [decimal.isDigit_of_mem_render pid b h] at hb
      cases hb
    · exact hslash (List.mem_singleton.mp h)

theorem length_paxHeaderFront {pid : Nat} (h : pid < 2 ^ 31) :
    0 < (paxHeaderFront pid).length ∧ (paxHeaderFront pid).length ≤ 24 := by
  have hdigits : (decimal.render pid).length ≤ 9 + 1 := by
    rw [decimal.length_render_le_iff, decimal_base]
    omega
  simp only [paxHeaderFront, List.length_append, length_chars, List.length_cons, List.length_nil]
  omega

/-- The slash in front of the last part splits the name. -/
theorem taruSetNewName_paxHeader (h : TarHeader) {pid : Nat} (hpid : pid < 2 ^ 31) {name : CString}
    (hbase : (swlibBasename name).strlen ≤ tarNameSize) :
    ∃ h', taruSetNewName h (.ofMem (paxHeaderName pid name)) = .ok h' := by
  obtain ⟨hpos, hfront⟩ := length_paxHeaderFront hpid
  have hnul : (0 : UInt8) ∉ paxHeaderName pid name := by
    rw [paxHeaderName_eq, List.mem_append, not_or]
    exact ⟨not_mem_paxHeaderFront pid (by decide) (by decide) (by decide),
      (swlibBasename name).noNul⟩
  have hmem : (CString.ofMem (paxHeaderName pid name)).bytes =
      paxHeaderFront pid ++ (swlibBasename name).bytes := by
    rw [← paxHeaderName_eq]
    exact congrArg CString.bytes (CString.ofMem_bytes ⟨_, hnul⟩)
  obtain ⟨base, hescaped, hle⟩ := swlibProcessHexEscapes_front
    (not_mem_paxHeaderFront pid (by decide) (by decide) (by decide)) hmem
  rw [taruSetNewName]
  generalize swlibProcessHexEscapes (.ofMem (paxHeaderName pid name)) = p at hescaped
  have hlen : p.strlen = (paxHeaderFront pid).length + base.strlen := by
    rw [CString.strlen, hescaped, List.length_append]
    rfl
  by_cases hlong : p.strlen ≤ tarNameSize
  · exact ⟨_, if_pos hlong⟩
  · rw [if_neg hlong]
    simp only [tarNameSize] at hbase hlong
    have hslash : SlashAt p ((paxHeaderFront pid).length - 1) := by
      have hsplit : paxHeaderFront pid =
          (chars ['.', '/', 'P', 'a', 'x', 'H', 'e', 'a', 'd', 'e', 'r', 's', '.'] ++
            decimal.render pid) ++ [slash] := by
        rw [List.append_assoc]
        rfl
      rw [SlashAt, hescaped, hsplit, List.append_assoc, List.length_append, List.length_singleton,
        Nat.add_sub_cancel, List.getElem?_append_right (Nat.le_refl _), Nat.sub_self]
      rfl
    have hge : 2 ≤ (paxHeaderFront pid).length := by
      rw [paxHeaderFront, List.length_append]
      exact Nat.le_add_right_of_le (by decide)
    have hi := le_splitLongName (show 0 < (paxHeaderFront pid).length - 1 by omega)
      (show (paxHeaderFront pid).length - 1 ≤ prefixFieldSize by
        simp only [prefixFieldSize]; omega) hslash
    simp only [taruSplitNameUstar, prefixFieldSize, nameFieldSize]
    rw [if_neg (by omega), if_neg (by omega)]
    by_cases hi0 : splitLongName p.bytes p.strlen = 0
    · exact ⟨_, if_pos hi0⟩
    · exact ⟨_, if_neg hi0⟩

/-- The type flag and the size are left alone. -/
theorem taruSetNewName_fields {h h' : TarHeader} {name : CString}
    (hok : taruSetNewName h name = .ok h') : h'.typeflag = h.typeflag ∧ h'.size = h.size := by
  rw [taruSetNewName] at hok
  split at hok
  · cases hok
    exact ⟨rfl, rfl⟩
  · simp only [taruSplitNameUstar] at hok
    split at hok
    · cases hok
    · split at hok
      · cases hok
      · split at hok
        · cases hok
          exact ⟨rfl, rfl⟩
        · cases hok
          exact ⟨rfl, rfl⟩

theorem taruSetTarHeaderSum_fields (h : TarHeader) (flags : TarFlags) :
    (taruSetTarHeaderSum h flags).typeflag = h.typeflag ∧
      (taruSetTarHeaderSum h flags).size = h.size :=
  ⟨rfl, rfl⟩

/-- **There is a pax header for every path whose last part fits the record.** -/
theorem paxHeader_eq (env : WriteEnv) {name : CString}
    (hbase : (swlibBasename name).strlen ≤ tarNameSize) (size : Nat) :
    ∃ h, paxHeader env name size = .returned h ∧ h.typeflag = xhdType ∧
      h.size = offToChars (UInt64.ofNat (size % 2 ^ 32)) (.zero 12) .posix 0 := by
  obtain ⟨h, hok⟩ := taruSetNewName_paxHeader (etarHdr env size) env.paxHeaderPid_lt hbase
  obtain ⟨htype, hsize⟩ := taruSetNewName_fields hok
  obtain ⟨htype', hsize'⟩ := taruSetTarHeaderSum_fields h env.taruTarheaderflags
  have hetarSize : (etarHdr env size).size =
      offToChars (UInt64.ofNat (size % 2 ^ 32)) (.zero 12) .posix 0 := by rw [etarHdr]
  have hetarType : (etarHdr env size).typeflag = xhdType := by rw [etarHdr]
  have hreturned : paxHeader env name size =
      .returned (taruSetTarHeaderSum h env.taruTarheaderflags) := by
    unfold paxHeader
    rw [hok]
  exact ⟨_, hreturned, htype'.trans (htype.trans hetarType), hsize'.trans (hsize.trans hetarSize)⟩

end Swbis.Taru
