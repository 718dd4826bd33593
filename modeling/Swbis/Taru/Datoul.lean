import Mathlib.Data.FinEnum
import Swbis.Lib.Numeral

/-!
# Decimal numbers

`taru_datoul` reads a decimal number into an unsigned word.  It does not look at
the number before it multiplies, but at two values that follow each other: it
stops when the number goes down, and takes a number that has not grown ten times
for one that has gone over the end of the word.

A number that is not too large grows ten times at least with each digit.  One
that is too large is a remainder, and with a further digit it is too large again,
or it has gone down.
-/

namespace Swbis.Taru

open CLib

/-! ## The code -/

/-- The two values of the loop. -/
structure DatoulVals where
  oldval : UInt64
  val : UInt64

/-- `oldval = val; val = 10 * val + *s++ - '0'`. -/
def DatoulVals.next (v : DatoulVals) (c : UInt8) : DatoulVals :=
  ⟨v.val, 10 * v.val + c.toUInt64 - 48⟩

/-- The loop of `taru_datoul` over the digits: the values, and what is behind the
digits it has taken. -/
def datoulDigits : Bytes → DatoulVals → DatoulVals × Bytes
  | [], v => (v, [])
  | c :: s, v =>
      if decimal.isDigit c ∧ v.oldval ≤ v.val then datoulDigits s (v.next c) else (v, c :: s)

/-- What `taru_datoul` returns, and what it stores at `n`. -/
structure Datoul where
  ret : Int
  n : Option UInt64
deriving DecidableEq

/-- `taru_datoul` -/
def taruDatoul (s : CString) : Datoul :=
  let r := datoulDigits (s.bytes.dropWhile (· == 32)) ⟨0, 0⟩
  if r.1.oldval ≠ 0 ∧ r.1.val / r.1.oldval < 10 then ⟨2, none⟩
  else ⟨if r.2.dropWhile (· == 32) = [] then 0 else 1, some r.1.val⟩

/-! ## The loop -/

theorem toNat_of_isDigit {c : UInt8} (h : decimal.isDigit c = true) :
    48 ≤ c.toNat ∧ c.toNat < 58 ∧ (decimal.dec c).getD 0 = c.toNat - 48 := by
  by_cases hc : 48 ≤ c.toNat ∧ c.toNat < 48 + 10
  · exact ⟨hc.1, hc.2, by simp [decimal, decDigit, hc]⟩
  · simp [Radix.isDigit, decimal, decDigit, hc] at h

/-- A digit at the end of a number. -/
theorem decimal_snoc (k : Nat) {c : UInt8} (h : decimal.isDigit c = true) :
    decimal.snoc k c = 10 * k + (c.toNat - 48) := by
  rw [Radix.snoc, (toNat_of_isDigit h).2.2, decimal_base]

/-- The word wraps around. -/
theorem toNat_next (v : DatoulVals) {c : UInt8} (h : decimal.isDigit c = true) :
    (v.next c).val.toNat = (10 * v.val.toNat + (c.toNat - 48)) % 2 ^ 64 := by
  obtain ⟨hlow, hhigh, -⟩ := toNat_of_isDigit h
  have hten : (10 : UInt64).toNat = 10 := rfl
  have hzero : (48 : UInt64).toNat = 48 := rfl
  rw [DatoulVals.next, UInt64.toNat_sub, UInt64.toNat_add, UInt64.toNat_mul, UInt8.toNat_toUInt64,
    hten, hzero]
  omega

/-- The values after some digits whose number is `k`. -/
inductive Reads (k : Nat) (v : DatoulVals) : Prop where
  /-- The number fits the word, and has grown ten times. -/
  | exact (hval : v.val.toNat = k) (hgrown : 10 * v.oldval.toNat ≤ k)
  /-- The number does not fit, and neither did ten times the value before. -/
  | wrapped (d : Nat) (hd : d < 10) (hover : 2 ^ 64 ≤ 10 * v.oldval.toNat + d)
      (hval : v.val.toNat = (10 * v.oldval.toNat + d) % 2 ^ 64) (hk : 2 ^ 64 ≤ k)

variable {k : Nat} {v : DatoulVals}

/-- One more digit. -/
theorem Reads.next (h : Reads k v) {c : UInt8} (hc : decimal.isDigit c = true)
    (hle : v.oldval ≤ v.val) : Reads (decimal.snoc k c) (v.next c) := by
  obtain ⟨hlow, hhigh, -⟩ := toNat_of_isDigit hc
  have hnext := toNat_next v hc
  have hold : (v.next c).oldval = v.val := rfl
  rw [decimal_snoc k hc]
  cases h with
  | exact hval hgrown =>
      by_cases hfits : 10 * k + (c.toNat - 48) < 2 ^ 64
      · refine .exact ?_ ?_
        · rw [hnext, hval, Nat.mod_eq_of_lt hfits]
        · rw [hold, hval]
          exact Nat.le_add_right _ _
      · refine .wrapped (c.toNat - 48) (by omega) ?_ ?_ (Nat.le_of_not_lt hfits)
        · rw [hold, hval]
          exact Nat.le_of_not_lt hfits
        · rw [hold, hnext]
  | wrapped d hd hover hval hk =>
      have hle' : v.oldval.toNat ≤ v.val.toNat := UInt64.le_iff_toNat_le.mp hle
      refine .wrapped (c.toNat - 48) (by omega) ?_ ?_ (by omega)
      · -- the value cannot be the one before: nine of them do not reach a multiple of `2 ^ 64`
        rw [hold]
        omega
      · rw [hold, hnext]

/-- A number that does not fit, if all of it is read or the loop has stopped for it. -/
theorem Reads.overflow_iff (h : Reads k v) :
    (v.oldval ≠ 0 ∧ v.val / v.oldval < 10) ↔ 2 ^ 64 ≤ k := by
  have hten : (10 : UInt64).toNat = 10 := rfl
  have hlt := v.val.toNat_lt
  have hne : v.oldval ≠ 0 ↔ 0 < v.oldval.toNat := by
    rw [Nat.pos_iff_ne_zero, Ne, Ne, ← UInt64.toNat_inj]
    rfl
  rw [hne, UInt64.lt_iff_toNat_lt, UInt64.toNat_div, hten]
  cases h with
  | exact hval hgrown =>
      refine iff_of_false ?_ (by omega)
      rintro ⟨hpos, hdiv⟩
      rw [Nat.div_lt_iff_lt_mul hpos] at hdiv
      omega
  | wrapped d hd hover hval hk =>
      have hpos : 0 < v.oldval.toNat := by omega
      refine iff_of_true ⟨hpos, ?_⟩ hk
      rw [Nat.div_lt_iff_lt_mul hpos]
      omega

theorem le_foldl_snoc (ds : Bytes) (k : Nat) : k ≤ ds.foldl decimal.snoc k := by
  induction ds generalizing k with
  | nil => exact Nat.le_refl k
  | cons c ds ih =>
      have hstep : k ≤ decimal.snoc k c := by
        rw [Radix.snoc, decimal_base]
        omega
      exact hstep.trans (ih _)

/-- The loop takes all of the digits, or leaves some of them because the number
does not fit. -/
theorem datoulDigits_reads (h : Reads k v) (s : Bytes) :
    Reads ((decimal.run s).foldl decimal.snoc k) (datoulDigits s v).1 ∧
      ((datoulDigits s v).2 = s.dropWhile decimal.isDigit ∨
        2 ^ 64 ≤ (decimal.run s).foldl decimal.snoc k) := by
  induction s generalizing k v with
  | nil => exact ⟨h, .inl rfl⟩
  | cons c s ih =>
      rw [datoulDigits]
      by_cases hc : decimal.isDigit c = true
      · have hrun : decimal.run (c :: s) = c :: decimal.run s := List.takeWhile_cons_of_pos hc
        have hdrop : (c :: s).dropWhile decimal.isDigit = s.dropWhile decimal.isDigit :=
          List.dropWhile_cons_of_pos hc
        rw [hrun, hdrop, List.foldl_cons]
        by_cases hle : v.oldval ≤ v.val
        · rw [if_pos ⟨hc, hle⟩]
          exact ih (h.next hc hle)
        · rw [if_neg fun hn => hle hn.2]
          have hlt : v.val.toNat < v.oldval.toNat := UInt64.lt_iff_toNat_lt.mp (by
            rw [← UInt64.not_le]
            exact hle)
          have hlarge := le_foldl_snoc (decimal.run s) (decimal.snoc k c)
          have hstep : k ≤ decimal.snoc k c := by
            rw [Radix.snoc, decimal_base]
            omega
          cases h with
          | exact hval hgrown => omega
          | wrapped d hd hover hval hk =>
              exact ⟨.wrapped d hd hover hval (by omega), .inr (by omega)⟩
      · have hrun : decimal.run (c :: s) = [] := List.takeWhile_cons_of_neg hc
        have hdrop : (c :: s).dropWhile decimal.isDigit = c :: s := List.dropWhile_cons_of_neg hc
        rw [if_neg fun hn => hc hn.1, hrun, hdrop]
        exact ⟨h, .inl rfl⟩

/-! ## The number -/

/-- The decimal number behind the blanks. -/
def decimalNumber (s : Bytes) : Nat := decimal.value (decimal.run (s.dropWhile (· == 32)))

/-- What is behind the number. -/
def behindNumber (s : Bytes) : Bytes := (s.dropWhile (· == 32)).dropWhile decimal.isDigit

/-- A number that fits the word is stored, and otherwise the overflow is noticed:
2 is returned for a number from `2 ^ 64` on and for no other one, 0 for one with
only blanks behind it, and 1 for one with something else behind it. -/
theorem taruDatoul_exact (s : CString) :
    ((taruDatoul s).ret =
        if 2 ^ 64 ≤ decimalNumber s.bytes then 2
        else if ∀ c ∈ behindNumber s.bytes, c = 32 then 0 else 1) ∧
      (taruDatoul s).n.map UInt64.toNat =
        if 2 ^ 64 ≤ decimalNumber s.bytes then none else some (decimalNumber s.bytes) := by
  have hstart : Reads 0 ⟨0, 0⟩ := .exact rfl (Nat.zero_le 0)
  obtain ⟨hreads, hrest⟩ := datoulDigits_reads hstart (s.bytes.dropWhile (· == 32))
  change Reads (decimalNumber s.bytes) _ at hreads
  change _ ∨ 2 ^ 64 ≤ decimalNumber s.bytes at hrest
  have hover := hreads.overflow_iff
  dsimp only [taruDatoul]
  by_cases hlarge : 2 ^ 64 ≤ decimalNumber s.bytes
  · rw [if_pos (hover.mpr hlarge), if_pos hlarge, if_pos hlarge]
    exact ⟨rfl, rfl⟩
  · have hbehind := hrest.resolve_right hlarge
    have hval : (datoulDigits (s.bytes.dropWhile (· == 32)) ⟨0, 0⟩).1.val.toNat =
        decimalNumber s.bytes := by
      cases hreads with
      | exact hval hgrown => exact hval
      | wrapped d hd hover hval hk => exact absurd hk hlarge
    have hblank : (behindNumber s.bytes).dropWhile (· == 32) = [] ↔
        ∀ c ∈ behindNumber s.bytes, c = 32 := by
      rw [List.dropWhile_eq_nil_iff]
      simp only [beq_iff_eq]
    rw [if_neg (mt hover.mp hlarge), if_neg hlarge, if_neg hlarge, hbehind]
    refine ⟨if_congr hblank rfl rfl, ?_⟩
    rw [Option.map_some, hval]

end Swbis.Taru
