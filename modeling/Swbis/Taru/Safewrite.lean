import Swbis.Lib.Descriptor
import Swbis.Lib.Outcome
import Swbis.Lib.Strtol

/-!
# Writing all of a buffer

`taru_safewrite` writes a buffer with as many writes as it takes.  It counts
down the amount that it returns, so after a short write the amount is what was
left, also when the rest was written then; and a write that takes nothing ends
the loop with the amount unchanged.

`safewriteLoop_small` says how the loop ends for an amount that fits an `int`,
`safewriteLoop_large` what is left to be said of larger ones.
`allOrError_iff` is the result for every buffer and every pattern of writes.
-/

namespace Swbis.Taru

open CLib

/-- How `taru_safewrite` ends. -/
structure SafewriteEnd where
  /-- The bytes that were written. -/
  out : Bytes
  /-- The result of the last write. -/
  rc : Int
  /-- The value returned. -/
  ret : Int
deriving DecidableEq

/-- The rest of `taru_safewrite` from the `k`-th write on, with the buffer from
`buf` on; there `amount` is the number of its bytes. -/
def safewriteLoop (w : WritePattern) : Nat → Nat → Bytes → Outcome SafewriteEnd
  | 0, _, _ => .outOfFuel
  | fuel + 1, k, buf =>
      let amount := toCInt buf.length
      let rc := w.write k buf
      if rc < amount ∧ 0 < rc then
        safewriteLoop w fuel (k + 1) (buf.drop rc.toNat) >>= fun e =>
          .returned { e with out := buf.take rc.toNat ++ e.out }
      else
        .returned ⟨buf.take rc.toNat, rc, if rc < 0 then toCInt (-amount) else amount⟩

/-- `taru_safewrite`.  Each round takes a byte at least. -/
def taruSafewrite (w : WritePattern) (buf : Bytes) : Outcome SafewriteEnd :=
  if buf.length = 0 then .returned ⟨[], 0, 0⟩ else safewriteLoop w buf.length 0 buf

/-! ## One round -/

variable {w : WritePattern}

/-- A write that takes a part, and the loop goes on. -/
theorem safewriteLoop_part {fuel k : Nat} {buf : Bytes} (hfuel : fuel ≠ 0) (hpos : 0 < w.takes k)
    (hlt : w.takes k < toCInt buf.length) (hle : w.takes k ≤ buf.length) :
    safewriteLoop w fuel k buf =
      (safewriteLoop w (fuel - 1) (k + 1) (buf.drop (w.takes k).toNat) >>= fun e =>
        .returned { e with out := buf.take (w.takes k).toNat ++ e.out }) := by
  have hrc : w.write k buf = w.takes k := min_eq_left hle
  obtain ⟨fuel, rfl⟩ := Nat.exists_eq_succ_of_ne_zero hfuel
  simp only [safewriteLoop, hrc]
  rw [if_pos ⟨hlt, hpos⟩]
  rfl

/-- A write after which the loop ends. -/
theorem safewriteLoop_last {fuel k : Nat} {buf : Bytes} (hfuel : fuel ≠ 0)
    (h : w.takes k ≤ 0 ∨ toCInt buf.length ≤ w.write k buf) :
    safewriteLoop w fuel k buf = .returned ⟨buf.take (w.write k buf).toNat,
      w.write k buf,
      if w.write k buf < 0 then toCInt (-toCInt buf.length) else toCInt buf.length⟩ := by
  have hle : w.write k buf ≤ w.takes k := min_le_left _ _
  obtain ⟨fuel, rfl⟩ := Nat.exists_eq_succ_of_ne_zero hfuel
  simp only [safewriteLoop]
  rw [if_neg]
  rintro ⟨hlt, hpos⟩
  rcases h with h | h
  · exact absurd (hpos.trans_le hle) (not_lt.mpr h)
  · exact absurd hlt (not_lt.mpr h)

theorem length_drop_toNat {buf : Bytes} {n : Int} (hpos : 0 < n) (hlt : n ≤ buf.length) :
    ((buf.drop n.toNat).length : Int) = buf.length - n := by
  rw [List.length_drop]
  omega

/-! ## The loop -/

/-- How the loop ends for an amount that fits an `int`: either the writes stall,
and a part was written, or they do not, and all was written.  Either way the
value returned is within the amount. -/
theorem safewriteLoop_small {fuel k : Nat} {buf : Bytes} (hpos : 0 < buf.length)
    (hmax : buf.length < 2 ^ 31) (hfuel : buf.length ≤ fuel) :
    ∃ e, safewriteLoop w fuel k buf = .returned e ∧ -buf.length ≤ e.ret ∧ e.ret ≤ buf.length ∧
      ((w.Stalls k buf.length ∧ e.out.length < buf.length ∧ (e.rc < 0 → e.ret < 0)) ∨
        (¬w.Stalls k buf.length ∧ e.out = buf ∧ 0 ≤ e.rc)) := by
  induction fuel generalizing k buf with
  | zero => omega
  | succ fuel ih =>
      have hint : toCInt buf.length = buf.length := toCInt_of_lt hmax
      rcases lt_or_ge 0 (w.takes k) with htakes | hnone
      · rcases lt_or_ge (w.takes k) buf.length with hpart | hall
        · -- a part is taken
          have hlen := length_drop_toNat htakes hpart.le
          have htake : (buf.take (w.takes k).toNat).length = (w.takes k).toNat := by
            rw [List.length_take]
            omega
          rw [safewriteLoop_part (by omega) htakes (by rwa [hint]) hpart.le, w.stalls_iff htakes hpart]
          obtain ⟨e, he, hge, hle, hcase⟩ := @ih (k + 1) (buf.drop (w.takes k).toNat)
            (by omega) (by omega) (by omega)
          rw [Nat.add_sub_cancel, he]
          refine ⟨_, rfl, (by omega : -(buf.length : Int) ≤ e.ret),
            (by omega : e.ret ≤ (buf.length : Int)), ?_⟩
          rw [hlen] at hcase
          rcases hcase with ⟨hstalls, hout, hneg⟩ | ⟨hno, hout, hrc⟩
          · refine .inl ⟨hstalls, ?_, hneg⟩
            rw [List.length_append, htake]
            omega
          · refine .inr ⟨hno, ?_, hrc⟩
            change buf.take (w.takes k).toNat ++ e.out = buf
            rw [hout, List.take_append_drop]
        · -- everything is taken
          have hrc : w.write k buf = buf.length := min_eq_right hall
          rw [safewriteLoop_last (by omega) (.inr (by rw [hrc, hint])), hrc, hint, if_neg (by omega)]
          refine ⟨_, rfl, by change -(buf.length : Int) ≤ buf.length; omega, le_refl _, .inr ⟨?_, ?_, ?_⟩⟩
          · exact w.not_stalls (by omega) hall
          · exact List.take_of_length_le (by omega)
          · exact Int.natCast_nonneg _
      · -- nothing is taken
        have hrc : w.write k buf = w.takes k := min_eq_left (by omega)
        have hneg : toCInt (-(buf.length : Int)) = -buf.length :=
          Int.bmod_eq_of_le (by omega) (by omega)
        rw [safewriteLoop_last (by omega) (.inl hnone), hrc, hint, hneg, Int.toNat_of_nonpos hnone]
        refine ⟨_, rfl, ?_, ?_, .inl ⟨.now hnone, hpos, ?_⟩⟩
        · change -(buf.length : Int) ≤ if w.takes k < 0 then _ else _
          split <;> omega
        · change (if w.takes k < 0 then _ else _) ≤ (buf.length : Int)
          split <;> omega
        · intro hlt
          replace hlt : w.takes k < 0 := hlt
          change (if w.takes k < 0 then _ else _) < (0 : Int)
          rw [if_pos hlt]
          omega

/-- The value that is returned after the last write is an `int`. -/
theorem ite_toCInt_lt (c : Prop) [Decidable c] (v v' : Int) :
    (if c then toCInt v else toCInt v') < 2 ^ 31 := by
  split
  · exact toCInt_lt v
  · exact toCInt_lt v'

/-- A positive `int` is negative with the other sign. -/
theorem toCInt_neg_lt {v : Int} (h : 0 < toCInt v) : toCInt (-toCInt v) < 0 := by
  have hlt := toCInt_lt v
  rcases toCInt_cases (-toCInt v) with ⟨h', he⟩ | ⟨h', he⟩
  · omega
  · omega

/-- What is left to be said of an amount from 2^32 on whose `int` is positive:
not everything is written, the value is negative after a failure, and it is an
`int`. -/
theorem safewriteLoop_large {fuel k : Nat} {buf : Bytes} (hmin : 2 ^ 32 ≤ buf.length)
    (hint : 0 < toCInt buf.length) (hfuel : buf.length ≤ fuel) :
    ∃ e, safewriteLoop w fuel k buf = .returned e ∧ e.ret < 2 ^ 31 ∧ e.out.length < buf.length ∧
      (e.rc < 0 → e.ret < 0) := by
  induction fuel generalizing k buf with
  | zero => omega
  | succ fuel ih =>
      have hmax := w.takes_lt k
      have hrc : w.write k buf = w.takes k := min_eq_left (by omega)
      rcases lt_or_ge 0 (w.takes k) with htakes | hnone
      · rcases lt_or_ge (w.takes k) (toCInt buf.length) with hpart | hrest
        · -- the `int` of the amount goes down with the amount and stays positive
          have hlen : ((buf.drop (w.takes k).toNat).length : Int) = buf.length - w.takes k :=
            length_drop_toNat htakes (by omega)
          have hword := toCInt_cases buf.length
          have hword' := toCInt_cases (buf.drop (w.takes k).toNat).length
          rw [safewriteLoop_part (by omega) htakes hpart (by omega)]
          obtain ⟨e, he, hret, hout, hneg⟩ :=
            @ih (k + 1) (buf.drop (w.takes k).toNat) (by omega) (by omega) (by omega)
          rw [Nat.add_sub_cancel, he]
          refine ⟨_, rfl, hret, ?_, hneg⟩
          rw [List.length_append, List.length_take]
          omega
        · rw [safewriteLoop_last (by omega) (.inr (by rwa [hrc])), hrc]
          refine ⟨_, rfl, ite_toCInt_lt _ _ _, ?_, fun h => absurd h (not_lt.mpr htakes.le)⟩
          rw [List.length_take]
          omega
      · rw [safewriteLoop_last (by omega) (.inl hnone), hrc, Int.toNat_of_nonpos hnone]
        refine ⟨_, rfl, ite_toCInt_lt _ _ _, by change 0 < buf.length; omega, ?_⟩
        intro hlt
        replace hlt : w.takes k < 0 := hlt
        change (if w.takes k < 0 then _ else _) < (0 : Int)
        rw [if_pos hlt]
        exact toCInt_neg_lt hint

/-! ## All of it or an error -/

/-- The value returned is the amount exactly when every byte was written, in
order and once, and a failed write makes it negative. -/
def AllOrError (w : WritePattern) (buf : Bytes) : Prop :=
  ∃ e, taruSafewrite w buf = .returned e ∧ (e.ret = buf.length ↔ e.out = buf) ∧
    (e.out ≠ buf → e.rc < 0 → e.ret < 0)

/-- When the value is right.  For an amount that fits an `int` either the first
write takes everything or fails, or it takes a part and a later one takes
nothing or fails before everything is taken.  A larger amount is no `int`, so it
is never returned; then the first write must not fail when the `int` of the
amount is not positive (for 2^31 itself the sign changes nothing). -/
def SafewriteOk (w : WritePattern) (n : Nat) : Prop :=
  if n = 0 then True
  else if n < 2 ^ 31 then
    n ≤ w.takes 0 ∨ w.takes 0 < 0 ∨ (0 < w.takes 0 ∧ w.Stalls 0 n)
  else 0 ≤ w.takes 0 ∨ (n % 2 ^ 32 ≠ 0 ∧ n % 2 ^ 32 ≤ 2 ^ 31)

theorem out_ne_of_length_lt {out buf : Bytes} (h : out.length < buf.length) : out ≠ buf := by
  rintro rfl
  exact lt_irrefl _ h

/-- The amounts that fit an `int`. -/
theorem allOrError_small {buf : Bytes} (hpos : 0 < buf.length) (hmax : buf.length < 2 ^ 31) :
    AllOrError w buf ↔
      buf.length ≤ w.takes 0 ∨ w.takes 0 < 0 ∨ (0 < w.takes 0 ∧ w.Stalls 0 buf.length) := by
  have hint : toCInt buf.length = buf.length := toCInt_of_lt hmax
  rw [AllOrError, taruSafewrite, if_neg hpos.ne']
  rcases lt_or_ge (w.takes 0) buf.length with hpart | hall
  · rcases lt_trichotomy (w.takes 0) 0 with hneg | hzero | htakes
    · -- the first write fails
      obtain ⟨e, he, -, -, hcase⟩ := safewriteLoop_small (w := w) (k := 0) hpos hmax (le_refl _)
      refine ⟨fun _ => .inr (.inl hneg), fun _ => ⟨e, he, ?_⟩⟩
      rw [safewriteLoop_last (by omega) (.inl hneg.le),
        show w.write 0 buf = w.takes 0 from min_eq_left hpart.le] at he
      cases he
      rcases hcase with ⟨-, hout, hsign⟩ | ⟨-, -, hrc⟩
      · have hret := hsign hneg
        refine ⟨iff_of_false (fun h => ?_) (out_ne_of_length_lt hout), fun _ => hsign⟩
        rw [h] at hret
        omega
      · exact absurd hneg (not_lt.mpr hrc)
    · -- it takes nothing, and the amount is returned
      constructor
      · rintro ⟨e, he, hiff, -⟩
        rw [safewriteLoop_last (by omega) (.inl hzero.le),
          show w.write 0 buf = 0 from (min_eq_left hpart.le).trans hzero, hint] at he
        cases he
        have hout := congrArg List.length (hiff.mp rfl)
        rw [Int.toNat_zero, List.take_zero, List.length_nil] at hout
        exact absurd hout hpos.ne
      · rintro (h | h | ⟨h, -⟩)
        · exact absurd hpart (not_lt.mpr h)
        · exact absurd h (by rw [hzero]; exact lt_irrefl 0)
        · exact absurd h (by rw [hzero]; exact lt_irrefl 0)
    · -- it takes a part, and the value is at most what was left
      have hlen := length_drop_toNat htakes hpart.le
      obtain ⟨e, he, -, hle, hcase⟩ := @safewriteLoop_small w
        (buf.length - 1) 1 (buf.drop (w.takes 0).toNat) (by omega) (by omega) (by omega)
      have hne : e.ret ≠ buf.length := by omega
      rw [hlen] at hcase
      rw [safewriteLoop_part (by omega) htakes (by rwa [hint]) hpart.le, he, Outcome.returned_bind]
      constructor
      · rintro ⟨e', he', hiff, -⟩
        cases he'
        rcases hcase with ⟨hstalls, -, -⟩ | ⟨-, hout, -⟩
        · exact .inr (.inr ⟨htakes, (w.stalls_iff htakes hpart).mpr hstalls⟩)
        · refine absurd (hiff.mpr ?_) hne
          change buf.take (w.takes 0).toNat ++ e.out = buf
          rw [hout, List.take_append_drop]
      · rintro (h | h | ⟨-, h⟩)
        · exact absurd hpart (not_lt.mpr h)
        · exact absurd h (not_lt.mpr htakes.le)
        · rcases hcase with ⟨-, hout, hsign⟩ | ⟨hno, -, -⟩
          · refine ⟨_, rfl, iff_of_false hne (out_ne_of_length_lt ?_), fun _ => hsign⟩
            rw [List.length_append, List.length_take]
            omega
          · exact absurd ((w.stalls_iff htakes hpart).mp h) hno
  · -- the first write takes everything
    refine ⟨fun _ => .inl hall, fun _ => ?_⟩
    have hrc : w.write 0 buf = buf.length := min_eq_right hall
    rw [safewriteLoop_last (by omega) (.inr (by rw [hrc, hint])), hrc, hint, if_neg (by omega)]
    have htake : buf.take (buf.length : Int).toNat = buf := List.take_of_length_le (by omega)
    exact ⟨_, rfl, ⟨fun _ => htake, fun _ => rfl⟩, fun h => absurd htake h⟩

/-- The amounts that are no `int`. -/
theorem allOrError_large {buf : Bytes} (hmin : 2 ^ 31 ≤ buf.length) :
    AllOrError w buf ↔
      0 ≤ w.takes 0 ∨ (buf.length % 2 ^ 32 ≠ 0 ∧ buf.length % 2 ^ 32 ≤ 2 ^ 31) := by
  have hmax := w.takes_lt 0
  have hword := toCInt_cases buf.length
  have hrc : w.write 0 buf = w.takes 0 := min_eq_left (by omega)
  rw [AllOrError, taruSafewrite, if_neg (by omega)]
  rcases lt_or_ge 0 (toCInt buf.length) with hint | hint
  · obtain ⟨e, he, hret, hout, hneg⟩ := @safewriteLoop_large w buf.length 0 buf
      (by omega) hint (le_refl _)
    refine ⟨fun _ => .inr (by omega), fun _ => ⟨e, he, ?_, fun _ => hneg⟩⟩
    exact iff_of_false (by omega) (out_ne_of_length_lt hout)
  · -- no result is below the amount, so the first write is the last
    have hlast : safewriteLoop w buf.length 0 buf = .returned ⟨buf.take (w.takes 0).toNat, w.takes 0,
        if w.takes 0 < 0 then toCInt (-toCInt buf.length) else toCInt buf.length⟩ := by
      have hall : w.takes 0 ≤ 0 ∨ toCInt buf.length ≤ w.write 0 buf := by omega
      rw [safewriteLoop_last (by omega) hall, hrc]
    have hout : buf.take (w.takes 0).toNat ≠ buf := by
      refine out_ne_of_length_lt ?_
      rw [List.length_take]
      omega
    have hword' := toCInt_cases (-toCInt buf.length)
    rw [hlast]
    constructor
    · rintro ⟨e, he, -, hneg⟩
      cases he
      rcases lt_or_ge (w.takes 0) 0 with hlt | hge
      · have hret : (if w.takes 0 < 0 then toCInt (-toCInt buf.length) else toCInt buf.length) < 0 :=
          hneg hout hlt
        rw [if_pos hlt] at hret
        exact .inr (by omega)
      · exact .inl hge
    · intro h
      have hret := ite_toCInt_lt (w.takes 0 < 0) (-toCInt buf.length) buf.length
      refine ⟨_, rfl, iff_of_false ?_ hout, fun _ hlt => ?_⟩
      · change (if w.takes 0 < 0 then _ else _) ≠ (buf.length : Int)
        omega
      · replace hlt : w.takes 0 < 0 := hlt
        change (if w.takes 0 < 0 then _ else _) < (0 : Int)
        rw [if_pos hlt]
        omega

/-- `taru_safewrite` writes all or returns an error in exactly these cases, for
every buffer and every pattern of writes. -/
theorem allOrError_iff (w : WritePattern) (buf : Bytes) :
    AllOrError w buf ↔ SafewriteOk w buf.length := by
  rw [SafewriteOk]
  split
  · next hzero =>
      have hnil : [] = buf := (List.length_eq_zero_iff.mp hzero).symm
      refine iff_of_true ⟨⟨[], 0, 0⟩, if_pos hzero, ?_, fun h => absurd hnil h⟩ trivial
      rw [hzero]
      exact ⟨fun _ => hnil, fun _ => rfl⟩
  · next hne =>
      split
      · next hmax => exact allOrError_small (Nat.pos_of_ne_zero hne) hmax
      · next hmin => exact allOrError_large (Nat.le_of_not_lt hmin)

/-- Two bytes in one write each. -/
def bytewise : WritePattern := ⟨fun _ => 1, fun _ => by omega⟩

/-- Everything is written, but the value is the amount that the last write was
given. -/
theorem not_allOrError_bytewise : ¬AllOrError bytewise [97, 98] := by
  have hrun : taruSafewrite bytewise [97, 98] = .returned ⟨[97, 98], 1, 1⟩ := by decide
  rintro ⟨e, he, hiff, -⟩
  rw [hrun] at he
  cases he
  exact absurd (hiff.mpr rfl) (by decide)

end Swbis.Taru
