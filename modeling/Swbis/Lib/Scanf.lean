import Swbis.Lib.Strtol

/-!
# Fields of digits: `sprintf` and `sscanf`

`Radix.padded` is the conversion that fills up with zeros on the left, such as
`%08lx`; a number that needs more digits than the field has makes the field
longer.  `scanULong` is the conversion of `sscanf` into an `unsigned long` with
a bound on the number of characters, such as `%8lx`, and `scanULongs` a row of
them, which ends at the first one that fails.

A row of numbers that fit their fields is read back (`scanULongs_fieldsText`).
-/

namespace CLib

/-! ## Writing -/

namespace Radix

variable (r : Radix)

/-- `%0<w>lx` and `%0<w>lo`. -/
def padded (w v : Nat) : Bytes :=
  List.replicate (w - (r.render v).length) (r.enc 0) ++ r.render v

theorem fixed_zero (w : Nat) : r.fixed w 0 = List.replicate w (r.enc 0) := by
  induction w with
  | zero => rfl
  | succ w ih => rw [fixed, Nat.zero_div, Nat.zero_mod, ih, List.replicate_succ']

/-- A number that fits fills its field. -/
theorem padded_eq_fixed {w v : Nat} (hw : 0 < w) (h : v < r.base ^ w) :
    r.padded w v = r.fixed w v := by
  unfold padded
  induction w generalizing v with
  | zero => omega
  | succ w ih =>
      by_cases hv : v < r.base
      · have hrender : r.render v = [r.enc v] := by
          rw [render_eq, if_pos hv, List.nil_append, Nat.mod_eq_of_lt hv]
        rw [fixed, Nat.div_eq_of_lt hv, fixed_zero, Nat.mod_eq_of_lt hv, hrender]
        rfl
      · have hd : v / r.base < r.base ^ w :=
          Nat.div_lt_of_lt_mul (by rw [Nat.pow_succ, Nat.mul_comm] at h; exact h)
        have hpos : 0 < w := by
          rcases Nat.eq_zero_or_pos w with rfl | hpos
          · rw [Nat.zero_add, Nat.pow_one] at h
            exact absurd h hv
          · exact hpos
        have hrender : r.render v = r.render (v / r.base) ++ [r.enc (v % r.base)] := by
          rw [render_eq, if_neg hv]
        rw [fixed, ← ih hpos hd, hrender, List.length_append, List.length_singleton,
          Nat.add_sub_add_right, List.append_assoc]

end Radix

/-- The text of a row of numbers, each in a field of its own width. -/
def fieldsText (r : Radix) (fields : List (Nat × Nat)) : Bytes :=
  fields.flatMap fun f => r.fixed f.1 f.2

@[simp] theorem length_fieldsText (r : Radix) (fields : List (Nat × Nat)) :
    (fieldsText r fields).length = (fields.map Prod.fst).sum := by
  induction fields with
  | nil => rfl
  | cons f fields ih =>
      rw [fieldsText, List.flatMap_cons, List.length_append, r.length_fixed, List.map_cons,
        List.sum_cons, ← ih]
      rfl

/-! ## Reading -/

/-- What stands behind `0x`, when a hexadecimal digit does. -/
def dropHexPrefix : Bytes → Bytes
  | 48 :: x :: d :: s =>
      if (x = 120 ∨ x = 88) ∧ hexadecimal.isDigit d = true then d :: s else 48 :: x :: d :: s
  | s => s

/-- One conversion: the value, and what it leaves, or nothing when it fails. -/
def scanULong (r : Radix) (w : Nat) (s : Bytes) : Option (UInt64 × Bytes) :=
  let t := s.dropWhile isSpace
  let item := t.take w
  let (negative, u) := signOf item
  let u := if r.base = 16 then dropHexPrefix u else u
  let ds := r.run u
  if ds = [] then none
  else
    let v := UInt64.ofNat (r.value ds)
    some (if negative then -v else v, t.drop (item.length - u.length + ds.length))

/-- A row of conversions: the values up to the first one that fails. -/
def scanULongs (r : Radix) : List Nat → Bytes → List UInt64
  | [], _ => []
  | w :: ws, s =>
      match scanULong r w s with
      | none => []
      | some (v, s) => v :: scanULongs r ws s

/-! ## Numbers that fit are read back -/

/-- No digit is a space, a sign or the letter of `0x`. -/
structure Radix.Plain (r : Radix) : Prop where
  /-- No digit is a space. -/
  space : ∀ {b}, r.isDigit b = true → isSpace b = false
  /-- Nor a sign. -/
  sign : ∀ {b}, r.isDigit b = true → b ≠ 45 ∧ b ≠ 43
  /-- Nor an `x`. -/
  letter : ∀ {b}, r.isDigit b = true → b ≠ 120 ∧ b ≠ 88

/-- Digits and the letters up to `f` are nothing else. -/
theorem plain_of_range {r : Radix} (h : ∀ {b}, r.isDigit b = true →
    48 ≤ b.toNat ∧ b.toNat ≤ 57 ∨ 97 ≤ b.toNat ∧ b.toNat ≤ 102 ∨
      65 ≤ b.toNat ∧ b.toNat ≤ 70) : r.Plain := by
  have hne {b c : UInt8} (hb : r.isDigit b = true) (hc : ¬(48 ≤ c.toNat ∧ c.toNat ≤ 57 ∨
      97 ≤ c.toNat ∧ c.toNat ≤ 102 ∨ 65 ≤ c.toNat ∧ c.toNat ≤ 70)) : b ≠ c := by
    rintro rfl
    exact hc (h hb)
  refine ⟨fun {b} hb => ?_, fun hb => ⟨hne hb (by decide), hne hb (by decide)⟩,
    fun hb => ⟨hne hb (by decide), hne hb (by decide)⟩⟩
  have h13 : ¬ b ≤ 13 := by
    intro hle
    have hle' := UInt8.le_iff_toNat_le.mp hle
    have hr := h hb
    simp at hle'
    omega
  simp [isSpace, hne hb (show ¬(48 ≤ (32 : UInt8).toNat ∧ _ ∨ _) by decide), h13]

theorem octal_plain : octal.Plain := by
  refine plain_of_range fun {b} hb => .inl ?_
  by_contra hn
  have : ¬(48 ≤ b.toNat ∧ b.toNat < 48 + 8) := by omega
  simp [Radix.isDigit, octal, decDigit, this] at hb

theorem hexadecimal_plain : hexadecimal.Plain := by
  refine plain_of_range fun {b} hb => ?_
  by_contra hn
  have h1 : ¬(48 ≤ b.toNat ∧ b.toNat ≤ 57) := by omega
  have h2 : ¬(97 ≤ b.toNat ∧ b.toNat ≤ 102) := by omega
  have h3 : ¬(65 ≤ b.toNat ∧ b.toNat ≤ 70) := by omega
  simp [Radix.isDigit, hexadecimal, hexDigit, h1, h2, h3] at hb

section

variable {r : Radix} (hr : r.Plain)
include hr

theorem signOf_plain {ds : Bytes} (hd : ∀ b ∈ ds, r.isDigit b = true) : signOf ds = (false, ds) := by
  cases ds with
  | nil => rfl
  | cons d ds =>
      obtain ⟨h45, h43⟩ := hr.sign (hd d List.mem_cons_self)
      exact signOf_of_ne h45 h43 ds

theorem dropHexPrefix_plain {ds : Bytes} (hd : ∀ b ∈ ds, r.isDigit b = true) :
    dropHexPrefix ds = ds := by
  unfold dropHexPrefix
  split
  · next x d s =>
    obtain ⟨h120, h88⟩ := hr.letter (hd x (List.mem_cons_of_mem _ List.mem_cons_self))
    rw [if_neg fun h => h.1.elim h120 h88]
  · rfl

/-- A number that fits its field is read back. -/
theorem scanULong_fixed {w v : Nat} (hw : 0 < w) (h : v < r.base ^ w) (s : Bytes) :
    scanULong r w (r.fixed w v ++ s) = some (UInt64.ofNat v, s) := by
  have hd := r.isDigit_of_mem_fixed w v
  have hlen := r.length_fixed w v
  have hne : r.fixed w v ≠ [] := List.ne_nil_of_length_pos (by omega)
  have hspace : (r.fixed w v ++ s).dropWhile isSpace = r.fixed w v ++ s := by
    obtain ⟨d, ds, hds⟩ := List.exists_cons_of_ne_nil hne
    rw [hds, List.cons_append, List.dropWhile_cons_of_neg]
    rw [hr.space (hd d (by rw [hds]; exact List.mem_cons_self))]
    exact Bool.false_ne_true
  have htake : (r.fixed w v ++ s).take w = r.fixed w v := by
    rw [List.take_append_of_le_length hlen.ge, List.take_of_length_le hlen.le]
  have hprefix : (if r.base = 16 then dropHexPrefix (r.fixed w v) else r.fixed w v) =
      r.fixed w v := by
    split
    · exact dropHexPrefix_plain hr hd
    · rfl
  have hrun : r.run (r.fixed w v) = r.fixed w v := List.takeWhile_eq_self_iff.mpr hd
  unfold scanULong
  simp only [hspace, htake, signOf_plain hr hd, hprefix, hrun, if_neg hne, Nat.sub_self,
    Nat.zero_add, List.drop_left, r.value_fixed h, Bool.false_eq_true, if_false]

/-- A row of numbers that fit their fields is read back. -/
theorem scanULongs_fieldsText {fields : List (Nat × Nat)}
    (h : ∀ f ∈ fields, 0 < f.1 ∧ f.2 < r.base ^ f.1) (s : Bytes) :
    scanULongs r (fields.map Prod.fst) (fieldsText r fields ++ s) =
      fields.map fun f => UInt64.ofNat f.2 := by
  induction fields with
  | nil => rfl
  | cons f fields ih =>
      obtain ⟨hw, hf⟩ := h f List.mem_cons_self
      rw [List.map_cons, fieldsText, List.flatMap_cons, List.append_assoc, scanULongs,
        scanULong_fixed hr hw hf]
      simp only [List.map_cons, List.cons.injEq, true_and]
      exact ih fun g hg => h g (List.mem_cons_of_mem _ hg)

end

end CLib
