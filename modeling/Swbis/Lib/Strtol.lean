import Swbis.Lib.Numeral

/-!
# Character classes and `strtol`

The character classes of the C locale, and the two conversions of a decimal
string to a number: `strtol`, which stops at the largest and smallest values of
a 64-bit word, and `strtoul`, which reports an overflow and otherwise negates
modulo the word size.  Both say where in memory they stopped.
-/

namespace CLib

/-! ## Character classes -/

/-- `isspace`. -/
def isSpace (b : UInt8) : Bool := b == 32 || (decide (9 ≤ b) && decide (b ≤ 13))

/-- `isupper`. -/
def isUpper (b : UInt8) : Bool := decide (65 ≤ b) && decide (b ≤ 90)

/-- `islower`. -/
def isLower (b : UInt8) : Bool := decide (97 ≤ b) && decide (b ≤ 122)

/-- A digit is no space. -/
theorem isSpace_of_isDigit {b : UInt8} (h : decimal.isDigit b = true) : isSpace b = false := by
  have h48 : 48 ≤ b.toNat := by
    by_contra hlt
    have : ¬ (48 ≤ b.toNat ∧ b.toNat < 48 + 10) := fun hc => hlt hc.1
    simp [Radix.isDigit, decimal, decDigit, this] at h
  have h32 : b ≠ 32 := by
    rintro rfl
    exact absurd h48 (by decide)
  have h13 : ¬ b ≤ 13 := by
    intro hle
    have := UInt8.le_iff_toNat_le.mp hle
    simp at this
    omega
  simp [isSpace, h32, h13]

/-! ## Conversions -/

/-- An optional sign: whether it is a minus, and what follows. -/
def signOf : Bytes → Bool × Bytes
  | 45 :: s => (true, s)
  | 43 :: s => (false, s)
  | s => (false, s)

/-- `strtol (s, &end, 10)`: the value, and the memory from `end` on. -/
def strtol (s : Bytes) : Int × Bytes :=
  let (negative, t) := signOf (s.dropWhile isSpace)
  let ds := decimal.run t
  if ds = [] then (0, s)
  else
    let v : Int := decimal.value ds
    (if negative then max (-2 ^ 63) (-v) else min (2 ^ 63 - 1) v, t.drop ds.length)

/-- `strtoul (s, &end, 10)`: the value, whether it overflowed, and the memory
from `end` on. -/
def strtoul (s : Bytes) : UInt64 × Bool × Bytes :=
  let (negative, t) := signOf (s.dropWhile isSpace)
  let ds := decimal.run t
  if ds = [] then (0, false, s)
  else
    let v := decimal.value ds
    if v < 2 ^ 64 then
      (if negative then -UInt64.ofNat v else UInt64.ofNat v, false, t.drop ds.length)
    else (18446744073709551615, true, t.drop ds.length)

/-- The `int` that a wider value is converted to. -/
def toCInt (v : Int) : Int := v.bmod (2 ^ 32)

theorem toCInt_of_range {v : Int} (hle : -2 ^ 31 ≤ v) (hlt : v < 2 ^ 31) : toCInt v = v := by
  rw [toCInt]
  exact Int.bmod_eq_of_le (by omega) (by omega)

theorem toCInt_of_lt {v : Nat} (h : v < 2 ^ 31) : toCInt v = v :=
  toCInt_of_range (by omega) (by omega)

/-- A sum that wraps where its first part has wrapped already. -/
theorem toCInt_toCInt_add (v w : Int) : toCInt (toCInt v + w) = toCInt (v + w) := Int.bmod_add_bmod

theorem toCInt_toCInt_sub (v w : Int) : toCInt (toCInt v - w) = toCInt (v - w) := Int.bmod_sub_bmod

/-- The low half of the words stands for itself, the high half for what is below zero. -/
theorem toCInt_cases (v : Int) :
    (v % 2 ^ 32 < 2 ^ 31 ∧ toCInt v = v % 2 ^ 32) ∨
      (2 ^ 31 ≤ v % 2 ^ 32 ∧ toCInt v = v % 2 ^ 32 - 2 ^ 32) := by
  rw [toCInt, Int.bmod_def]
  split
  · next h => exact .inl ⟨h, rfl⟩
  · next h => exact .inr ⟨Int.not_lt.mp h, rfl⟩

theorem toCInt_lt (v : Int) : toCInt v < 2 ^ 31 := by
  rcases toCInt_cases v with ⟨h, he⟩ | ⟨-, he⟩
  · rwa [he]
  · omega

theorem neg_le_toCInt (v : Int) : -2 ^ 31 ≤ toCInt v := by
  rcases toCInt_cases v with ⟨h, he⟩ | ⟨h, he⟩
  · omega
  · omega

/-- An `int` is no larger than the count that it is made of. -/
theorem toCInt_le (n : Nat) : toCInt n ≤ n := by
  rcases toCInt_cases n with ⟨-, hint⟩ | ⟨-, hint⟩
  · omega
  · omega

/-! ## Digits that are followed by something else -/

/-- A byte that is no sign is left alone. -/
theorem signOf_of_ne {b : UInt8} (h45 : b ≠ 45) (h43 : b ≠ 43) (s : Bytes) :
    signOf (b :: s) = (false, b :: s) := by
  rw [signOf]
  · rintro s' ⟨⟩
    exact h45 rfl
  · rintro s' ⟨⟩
    exact h43 rfl

/-- Digits are neither space nor sign. -/
theorem signOf_digits {ds : Bytes} (hne : ds ≠ []) (hd : ∀ b ∈ ds, decimal.isDigit b = true)
    (s : Bytes) : signOf ((ds ++ s).dropWhile isSpace) = (false, ds ++ s) := by
  cases ds with
  | nil => exact absurd rfl hne
  | cons d ds =>
      have hdig : decimal.isDigit d = true := hd d (by simp)
      have hsp := isSpace_of_isDigit hdig
      have h45 : d ≠ 45 := by
        rintro rfl
        exact absurd hdig (by decide)
      have h43 : d ≠ 43 := by
        rintro rfl
        exact absurd hdig (by decide)
      rw [List.cons_append, List.dropWhile_cons_of_neg (by simp [hsp]), signOf_of_ne h45 h43]

theorem strtol_digits {ds : Bytes} (hne : ds ≠ []) (hd : ∀ b ∈ ds, decimal.isDigit b = true)
    {b : UInt8} (hb : decimal.isDigit b = false) (s : Bytes) :
    strtol (ds ++ b :: s) = (min (2 ^ 63 - 1) (decimal.value ds : Int), b :: s) := by
  rw [strtol, signOf_digits hne hd]
  simp only [decimal.run_append_stop hd hb, if_neg hne, Bool.false_eq_true, if_false,
    List.drop_left]

/-- What a conversion leaves is a part of the memory. -/
theorem length_strtol_le (s : Bytes) : (strtol s).2.length ≤ s.length := by
  have hsign : ∀ t : Bytes, (signOf t).2.length ≤ t.length := by
    intro t
    unfold signOf
    split
    · exact Nat.le_succ _
    · exact Nat.le_succ _
    · exact Nat.le_refl _
  have hspace : (s.dropWhile isSpace).length ≤ s.length := (List.dropWhile_sublist _).length_le
  have htail := hsign (s.dropWhile isSpace)
  rw [strtol]
  simp only
  split
  · exact Nat.le_refl _
  · simp only [List.length_drop]
    omega

/-! ## A NUL behind the memory -/

theorem signOf_append_nul (s rest : Bytes) :
    signOf (s ++ 0 :: rest) = ((signOf s).1, (signOf s).2 ++ 0 :: rest) := by
  cases s with
  | nil => rfl
  | cons b s =>
      rw [List.cons_append]
      by_cases h45 : b = 45
      · rw [h45]
        rfl
      · by_cases h43 : b = 43
        · rw [h43]
          rfl
        · rw [signOf_of_ne h45 h43, signOf_of_ne h45 h43, List.cons_append]

/-- A conversion stops at the end of the memory as it does at a NUL. -/
theorem strtol_append_nul (s rest : Bytes) :
    strtol (s ++ 0 :: rest) = ((strtol s).1, (strtol s).2 ++ 0 :: rest) := by
  have hrun : ∀ t : Bytes, decimal.run (t ++ 0 :: rest) = decimal.run t :=
    fun t => takeWhile_append_end (by decide) t rest
  have hle : ∀ t : Bytes, (decimal.run t).length ≤ t.length :=
    fun t => (List.takeWhile_sublist _).length_le
  rw [strtol, strtol, dropWhile_append_end (show isSpace 0 = false by decide), signOf_append_nul]
  simp only [hrun]
  split
  · rfl
  · rw [List.drop_append_of_le_length (hle _)]

/-! ## Rendered numbers -/

/-- A rendered number at the end of memory is read back. -/
theorem strtoul_render_nil {v : Nat} (h : v < 2 ^ 64) :
    strtoul (decimal.render v) = (UInt64.ofNat v, false, []) := by
  have hd := decimal.isDigit_of_mem_render v
  have hrun : decimal.run (decimal.render v) = decimal.render v := List.takeWhile_eq_self_iff.mpr hd
  have hs := signOf_digits (decimal.render_ne_nil v) hd []
  rw [List.append_nil] at hs
  rw [strtoul, hs]
  simp only [hrun, if_neg (decimal.render_ne_nil v), decimal.value_render, if_pos h,
    Bool.false_eq_true, if_false, List.drop_length]

end CLib
