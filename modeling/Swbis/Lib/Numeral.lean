import Swbis.Lib.CString
import Mathlib.Tactic.Ring

/-!
# Positional numerals

A `Radix` is a base with a written digit for every value below it, and a reader
of digits that undoes the writer.  `Radix.fixed w v` writes `v` with exactly
`w` digits, most significant first, dropping what does not fit.
`Radix.render v` writes `v` with as many digits as it needs and at least one.
`Radix.value` reads a run of digits.

Both writers are undone by the reader (`Radix.value_fixed`,
`Radix.value_render`), and both write digits only, so a reader that stops at
the first byte that is no digit stops exactly where the numeral ends
(`Radix.run_append_stop`).
-/

namespace CLib

/-- A base and its digits. -/
structure Radix where
  /-- The base. -/
  base : Nat
  /-- There are at least two digits. -/
  one_lt : 1 < base
  /-- The digit of a value below the base. -/
  enc : Nat → UInt8
  /-- The value of a digit. -/
  dec : UInt8 → Option Nat
  /-- Reading undoes writing. -/
  dec_enc : ∀ d < base, dec (enc d) = some d

namespace Radix

variable (r : Radix)

/-- Whether a byte is a digit. -/
def isDigit (b : UInt8) : Bool := (r.dec b).isSome

/-- One more digit at the end of a numeral. -/
def snoc (v : Nat) (b : UInt8) : Nat := r.base * v + (r.dec b).getD 0

/-- The value of a run of digits. -/
def value (ds : Bytes) : Nat := ds.foldl r.snoc 0

/-- Exactly `w` digits of `v`, the most significant of them first. -/
def fixed : Nat → Nat → Bytes
  | 0, _ => []
  | w + 1, v => fixed w (v / r.base) ++ [r.enc (v % r.base)]

/-- `render` with a bound on the number of digits. -/
def renderUpTo : Nat → Nat → Bytes
  | 0, _ => []
  | k + 1, v =>
      (if v < r.base then [] else renderUpTo k (v / r.base)) ++ [r.enc (v % r.base)]

/-- The digits of `v`, at least one and no leading zeros. -/
def render (v : Nat) : Bytes := r.renderUpTo (v + 1) v

/-! ## Values -/

@[simp] theorem value_nil : r.value [] = 0 := rfl

theorem value_append_singleton (ds : Bytes) (b : UInt8) :
    r.value (ds ++ [b]) = r.snoc (r.value ds) b := by
  simp [value]

theorem base_pos : 0 < r.base := Nat.lt_trans Nat.zero_lt_one r.one_lt

theorem isDigit_enc {d : Nat} (h : d < r.base) : r.isDigit (r.enc d) = true := by
  simp [isDigit, r.dec_enc d h]

theorem snoc_enc (v : Nat) {d : Nat} (h : d < r.base) : r.snoc v (r.enc d) = r.base * v + d := by
  simp [snoc, r.dec_enc d h]

/-- Digits that are below the base read to less than the power with their number. -/
theorem value_lt (hdec : ∀ {b d}, r.dec b = some d → d < r.base) {ds : Bytes}
    (h : ∀ b ∈ ds, r.isDigit b = true) : r.value ds < r.base ^ ds.length := by
  have hrun : ∀ v, ds.foldl r.snoc v < r.base ^ ds.length * (v + 1) := by
    induction ds with
    | nil => simp
    | cons b ds ih =>
        intro v
        obtain ⟨d, hd⟩ := Option.isSome_iff_exists.mp (h b List.mem_cons_self)
        have hlt := hdec hd
        have hsnoc : r.snoc v b + 1 ≤ r.base * (v + 1) := by
          rw [snoc, hd, Option.getD_some, Nat.mul_succ]
          omega
        calc ds.foldl r.snoc (r.snoc v b)
            < r.base ^ ds.length * (r.snoc v b + 1) :=
              ih (fun c hc => h c (List.mem_cons_of_mem b hc)) _
          _ ≤ r.base ^ ds.length * (r.base * (v + 1)) := Nat.mul_le_mul_left _ hsnoc
          _ = r.base ^ (ds.length + 1) * (v + 1) := by rw [Nat.pow_succ, Nat.mul_assoc]
  simpa [value] using hrun 0

/-! ## Fixed width -/

@[simp] theorem length_fixed (w v : Nat) : (r.fixed w v).length = w := by
  induction w generalizing v with
  | zero => rfl
  | succ w ih => simp [fixed, ih]

theorem isDigit_of_mem_fixed (w v : Nat) : ∀ b ∈ r.fixed w v, r.isDigit b = true := by
  induction w generalizing v with
  | zero => simp [fixed]
  | succ w ih =>
      intro b hb
      rcases List.mem_append.mp hb with h | h
      · exact ih _ b h
      · rw [List.mem_singleton.mp h]
        exact r.isDigit_enc (Nat.mod_lt _ r.base_pos)

/-- A numeral that fits its width is read back. -/
theorem value_fixed {w v : Nat} (h : v < r.base ^ w) : r.value (r.fixed w v) = v := by
  induction w generalizing v with
  | zero =>
      have : v = 0 := by simpa using h
      simp [fixed, this]
  | succ w ih =>
      have hd : v / r.base < r.base ^ w :=
        Nat.div_lt_of_lt_mul (by rw [Nat.pow_succ, Nat.mul_comm] at h; exact h)
      rw [fixed, value_append_singleton, ih hd, snoc_enc _ _ (Nat.mod_lt _ r.base_pos)]
      exact Nat.div_add_mod v r.base

/-! ## As many digits as needed -/

theorem renderUpTo_eq {k v : Nat} (h : v < k) (j : Nat) (hj : v < j) :
    r.renderUpTo k v = r.renderUpTo j v := by
  induction k generalizing v j with
  | zero => omega
  | succ k ih =>
      cases j with
      | zero => omega
      | succ j =>
          rw [renderUpTo, renderUpTo]
          by_cases hv : v < r.base
          · simp [hv]
          · have hlt : v / r.base < v := Nat.div_lt_self (by have := r.one_lt; omega) r.one_lt
            rw [if_neg hv, if_neg hv, ih (by omega) j (by omega)]

theorem render_eq (v : Nat) :
    r.render v = (if v < r.base then [] else r.render (v / r.base)) ++ [r.enc (v % r.base)] := by
  rw [render, renderUpTo]
  by_cases hv : v < r.base
  · simp [hv]
  · have hlt : v / r.base < v := Nat.div_lt_self (by have := r.one_lt; omega) r.one_lt
    rw [if_neg hv, if_neg hv, render, r.renderUpTo_eq hlt _ (Nat.lt_succ_self _)]

theorem render_ne_nil (v : Nat) : r.render v ≠ [] := by
  rw [render_eq]
  simp

theorem isDigit_of_mem_render (v : Nat) : ∀ b ∈ r.render v, r.isDigit b = true := by
  induction v using Nat.strong_induction_on with
  | _ v ih =>
      intro b hb
      rw [render_eq] at hb
      rcases List.mem_append.mp hb with h | h
      · split at h
        · simp at h
        · next hv =>
            have hlt : v / r.base < v := Nat.div_lt_self (by have := r.one_lt; omega) r.one_lt
            exact ih _ hlt b h
      · rw [List.mem_singleton.mp h]
        exact r.isDigit_enc (Nat.mod_lt _ r.base_pos)

/-- Every rendered numeral is read back. -/
theorem value_render (v : Nat) : r.value (r.render v) = v := by
  induction v using Nat.strong_induction_on with
  | _ v ih =>
      rw [render_eq, value_append_singleton, snoc_enc _ _ (Nat.mod_lt _ r.base_pos)]
      split
      · next hv => rw [value_nil, Nat.mul_zero, Nat.zero_add, Nat.mod_eq_of_lt hv]
      · next hv =>
          have hlt : v / r.base < v := Nat.div_lt_self (by have := r.one_lt; omega) r.one_lt
          rw [ih _ hlt]
          exact Nat.div_add_mod v r.base

/-- One digit more for every factor of the base. -/
theorem length_render (v : Nat) :
    (r.render v).length = if v < r.base then 1 else (r.render (v / r.base)).length + 1 := by
  rw [render_eq]
  split <;> simp

/-- A numeral has `k + 1` digits or fewer exactly below `base ^ (k + 1)`. -/
theorem length_render_le_iff (k v : Nat) : (r.render v).length ≤ k + 1 ↔ v < r.base ^ (k + 1) := by
  induction k generalizing v with
  | zero =>
      rw [length_render, Nat.zero_add, Nat.pow_one]
      split
      · next hv => simp [hv]
      · next hv =>
          have := List.length_pos_iff.mpr (r.render_ne_nil (v / r.base))
          omega
  | succ k ih =>
      rw [length_render]
      split
      · next hv =>
          have hle : r.base ^ 1 ≤ r.base ^ (k + 1 + 1) :=
            Nat.pow_le_pow_right r.base_pos (by omega)
          rw [Nat.pow_one] at hle
          constructor
          · intro _; omega
          · intro _; omega
      · rw [Nat.add_le_add_iff_right, ih, Nat.div_lt_iff_lt_mul r.base_pos, ← Nat.pow_succ]

/-! ## Runs of digits -/

/-- The digits at the front of memory. -/
def run (mem : Bytes) : Bytes := mem.takeWhile r.isDigit

/-- A numeral followed by a byte that is no digit is the whole run. -/
theorem run_append_stop {ds : Bytes} (h : ∀ b ∈ ds, r.isDigit b = true) {b : UInt8}
    (hb : r.isDigit b = false) (mem : Bytes) : r.run (ds ++ b :: mem) = ds :=
  takeWhile_append_stop h hb mem

end Radix

/-! ## The three bases -/

/-- A decimal digit character, or none. -/
def decDigit (base : Nat) (b : UInt8) : Option Nat :=
  if 48 ≤ b.toNat ∧ b.toNat < 48 + base then some (b.toNat - 48) else none

theorem decDigit_ofNat {base d : Nat} (hb : base ≤ 10) (h : d < base) :
    decDigit base (UInt8.ofNat (48 + d)) = some d := by
  have hto : (UInt8.ofNat (48 + d)).toNat = 48 + d := UInt8.toNat_ofNat_of_lt' (by
    simp only [UInt8.size]; omega)
  rw [decDigit, hto, if_pos (by omega)]
  simp

theorem decDigit_lt {base : Nat} {b : UInt8} {d : Nat} (h : decDigit base b = some d) :
    d < base := by
  rw [decDigit] at h
  split at h
  · next hb =>
      have hd := Option.some.inj h
      omega
  · exact absurd h.symm (Option.some_ne_none d)

/-- Base eight. -/
def octal : Radix where
  base := 8
  one_lt := by decide
  enc d := UInt8.ofNat (48 + d)
  dec := decDigit 8
  dec_enc _ h := decDigit_ofNat (by decide) h

/-- Base ten. -/
def decimal : Radix where
  base := 10
  one_lt := by decide
  enc d := UInt8.ofNat (48 + d)
  dec := decDigit 10
  dec_enc _ h := decDigit_ofNat (by decide) h

/-- A hexadecimal digit character of either case, or none. -/
def hexDigit (b : UInt8) : Option Nat :=
  if 48 ≤ b.toNat ∧ b.toNat ≤ 57 then some (b.toNat - 48)
  else if 97 ≤ b.toNat ∧ b.toNat ≤ 102 then some (b.toNat - 87)
  else if 65 ≤ b.toNat ∧ b.toNat ≤ 70 then some (b.toNat - 55)
  else none

/-- Base sixteen, written in lower case. -/
def hexadecimal : Radix where
  base := 16
  one_lt := by decide
  enc d := if d < 10 then UInt8.ofNat (48 + d) else UInt8.ofNat (87 + d)
  dec := hexDigit
  dec_enc := by decide

@[simp] theorem octal_base : octal.base = 8 := rfl

@[simp] theorem decimal_base : decimal.base = 10 := rfl

@[simp] theorem hexadecimal_base : hexadecimal.base = 16 := rfl

end CLib
