import Mathlib.Data.Nat.Digits.Lemmas
import Mathlib.Order.Bounds.Basic
import Swbis.Lib.Numeral

/-!
# Records that state their own size

A self-sized record is a numeral followed by a body, and the numeral is the
number of bytes of the whole record, its own digits included.
`Radix.sizeWith k` is that number for a body of `k` bytes: a fixed point of
`n = k + (number of digits of n)`, which one correction of the first guess
finds, and the least one (`Radix.isLeast_sizeWith`).

Self-sized records whose bodies do not start with a digit are prefix-free
(`Radix.selfSized_append_inj`), so a concatenation of them determines the
bodies (`Radix.flatten_selfSized_inj`).
-/

namespace CLib

namespace Radix

variable (r : Radix)

/-- The size of a record with a body of `k` bytes. -/
def sizeWith (k : Nat) : Nat :=
  let d := (r.render k).length
  if (r.render (k + d)).length = d then k + d else k + d + 1

theorem length_render_pos (v : Nat) : 0 < (r.render v).length :=
  List.length_pos_iff.mpr (r.render_ne_nil v)

/-- A number is below the power of the base with its number of digits. -/
theorem lt_pow_length_render (v : Nat) : v < r.base ^ (r.render v).length := by
  obtain ⟨d, hd⟩ : ∃ d, (r.render v).length = d + 1 :=
    ⟨(r.render v).length - 1, by have := r.length_render_pos v; omega⟩
  rw [hd]
  exact (r.length_render_le_iff d v).mp (by omega)

/-- One more than the digits of a number is not enough to add a digit twice. -/
theorem length_render_add_le (k : Nat) :
    (r.render (k + (r.render k).length + 1)).length ≤ (r.render k).length + 1 := by
  rw [length_render_le_iff, Nat.pow_succ]
  have hk := r.lt_pow_length_render k
  have hd : (r.render k).length < r.base ^ (r.render k).length := Nat.lt_pow_self r.one_lt
  have hb : r.base ^ (r.render k).length * 2 ≤ r.base ^ (r.render k).length * r.base :=
    Nat.mul_le_mul_left _ r.one_lt
  omega

theorem length_render_mono {v w : Nat} (h : v ≤ w) :
    (r.render v).length ≤ (r.render w).length := by
  obtain ⟨d, hd⟩ : ∃ d, (r.render w).length = d + 1 :=
    ⟨(r.render w).length - 1, by have := r.length_render_pos w; omega⟩
  rw [hd, length_render_le_iff]
  have := r.lt_pow_length_render w
  rw [hd] at this
  omega

/-- The size is a fixed point: it counts its own digits. -/
theorem sizeWith_eq (k : Nat) : r.sizeWith k = k + (r.render (r.sizeWith k)).length := by
  simp only [sizeWith]
  split
  · next h => rw [h]
  · next h =>
      have h1 : (r.render k).length ≤ (r.render (k + (r.render k).length)).length :=
        r.length_render_mono (by omega)
      have h2 : (r.render (k + (r.render k).length)).length ≤
          (r.render (k + (r.render k).length + 1)).length := r.length_render_mono (by omega)
      have h3 := r.length_render_add_le k
      omega

/-- The first guess is too small by one at most. -/
theorem sizeWith_le (k : Nat) : r.sizeWith k ≤ k + (r.render k).length + 1 := by
  simp only [sizeWith]
  split
  next => exact Nat.le_succ _
  next => exact Nat.le_refl _

/-- No smaller number is a fixed point. -/
theorem isLeast_sizeWith (k : Nat) : IsLeast {m | m = k + (r.render m).length} (r.sizeWith k) := by
  refine ⟨r.sizeWith_eq k, fun m hm => ?_⟩
  have hfix : m = k + (r.render m).length := hm
  have hmono : (r.render k).length ≤ (r.render m).length := r.length_render_mono (by omega)
  simp only [sizeWith]
  split
  next => omega
  next hfirst =>
    have hne : m ≠ k + (r.render k).length := by
      intro he
      rw [← he] at hfirst
      omega
    omega

/-- A numeral has the digits of its number. -/
theorem length_render_eq_digits {v : Nat} (h : v ≠ 0) :
    (r.render v).length = (Nat.digits r.base v).length := by
  induction v using Nat.strongRecOn with
  | ind v ih =>
      rw [length_render, Nat.digits_def' r.one_lt (Nat.pos_of_ne_zero h), List.length_cons]
      split
      next hlt => rw [Nat.div_eq_of_lt hlt, Nat.digits_zero, List.length_nil]
      next hge =>
        have hpos : v / r.base ≠ 0 := (Nat.div_pos (Nat.le_of_not_lt hge) r.base_pos).ne'
        rw [ih (v / r.base) (Nat.div_lt_self (Nat.pos_of_ne_zero h) r.one_lt) hpos]

/-- A body with its size in front. -/
def selfSized (body : Bytes) : Bytes := r.render (r.sizeWith body.length) ++ body

@[simp] theorem length_selfSized (body : Bytes) :
    (r.selfSized body).length = r.sizeWith body.length := by
  rw [selfSized, List.length_append]
  have := r.sizeWith_eq body.length
  omega

/-- A body that does not start with a digit. -/
def StartsPlain (body : Bytes) : Prop := ∃ b s, body = b :: s ∧ r.isDigit b = false

/-- Self-sized records are prefix-free. -/
theorem selfSized_append_inj {body body' mem mem' : Bytes} (hb : r.StartsPlain body)
    (hb' : r.StartsPlain body') (h : r.selfSized body ++ mem = r.selfSized body' ++ mem') :
    body = body' ∧ mem = mem' := by
  obtain ⟨b, s, rfl, hd⟩ := hb
  obtain ⟨b', s', rfl, hd'⟩ := hb'
  have hrun : ∀ {n : Nat} {c : UInt8} {t u : Bytes}, r.isDigit c = false →
      r.run (r.render n ++ c :: t ++ u) = r.render n := by
    intro n c t u hc
    rw [List.append_assoc, List.cons_append]
    exact r.run_append_stop (r.isDigit_of_mem_render n) hc _
  have hdigits := congrArg r.run h
  rw [selfSized, selfSized, hrun hd, hrun hd'] at hdigits
  have hsize : r.sizeWith (b :: s).length = r.sizeWith (b' :: s').length := by
    have := congrArg r.value hdigits
    rwa [value_render, value_render] at this
  have hinj := List.append_inj h (by rw [length_selfSized, length_selfSized, hsize])
  refine ⟨?_, hinj.2⟩
  have hrec := hinj.1
  rw [selfSized, selfSized, hsize] at hrec
  exact List.append_cancel_left hrec

/-- A sequence of records determines their bodies. -/
theorem flatten_selfSized_inj {bodies bodies' : List Bytes}
    (hb : ∀ body ∈ bodies, r.StartsPlain body) (hb' : ∀ body ∈ bodies', r.StartsPlain body)
    (h : (bodies.map r.selfSized).flatten = (bodies'.map r.selfSized).flatten) :
    bodies = bodies' := by
  have hne : ∀ body : Bytes, r.selfSized body ≠ [] := by
    intro body he
    have := List.append_eq_nil_iff.mp he
    exact r.render_ne_nil _ this.1
  induction bodies generalizing bodies' with
  | nil =>
      cases bodies' with
      | nil => rfl
      | cons body' bodies' =>
          simp only [List.map_cons, List.flatten_cons, List.map_nil, List.flatten_nil] at h
          exact absurd (List.append_eq_nil_iff.mp h.symm).1 (hne body')
  | cons body bodies ih =>
      cases bodies' with
      | nil =>
          simp only [List.map_cons, List.flatten_cons, List.map_nil, List.flatten_nil] at h
          exact absurd (List.append_eq_nil_iff.mp h).1 (hne body)
      | cons body' bodies' =>
          simp only [List.map_cons, List.flatten_cons] at h
          obtain ⟨rfl, hrest⟩ :=
            r.selfSized_append_inj (hb body (by simp)) (hb' body' (by simp)) h
          rw [ih (fun b hm => hb b (by simp [hm])) (fun b hm => hb' b (by simp [hm])) hrest]

end Radix

end CLib
