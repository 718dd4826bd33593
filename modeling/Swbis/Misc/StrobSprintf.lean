import Swbis.Misc.Strob

/-!
# Text and bytes at an offset of a string object

`strob_vsprintf_at` writes a text at an offset, and makes the block larger until the text
fits.  It leaves the length in use 156 bytes below the size of a block that has grown, so the
end of the text can stand behind it.  A block that grows again is cleared from the length in
use on: `memcpyAt_eq` says what `strob_memcpy_at` then keeps.

`sprintfSize` is the size of the block after `strob_vsprintf_at`, and `sprintfLength` the length
in use; `memcpySize` is the size after `strob_memcpy_at`.
-/

namespace Swbis.Misc

open CLib

/-! ## The code -/

/-- `vsnprintf(start, len, ..)`, of a text that has been formatted.  A negative length is a huge
one. -/
def vsnprintfAt (str : Bytes) (start len : Int) (text : CString) : Outcome Bytes :=
  if len < 0 then .fault
  else if len = 0 then .returned str
  else store str start (text.bytes.take (len - 1).toNat ++ [0])

/-- The loop of `strob_vsprintf_at`.  In every turn but the first `oldend` is not NULL. -/
def vsprintfLoop (atOffset : Int) (text : CString) : Nat → Bool → Int → Strob → Outcome Strob
  | 0, _, _, _ => .outOfFuel
  | fuel + 1, oldend, addedAmount, sb => do
      let str ← if oldend then store sb.str atOffset [0] else pure sb.str
      let sb := strobSetMemlength { sb with str } (sb.reserve + addedAmount)
      let len := sb.reserve - atOffset
      let str ← vsnprintfAt sb.str atOffset len text
      let sb := { sb with str }
      if len ≤ text.strlen then vsprintfLoop atOffset text fuel true (addedAmount + 128) sb
      else return sb

/-- `strob_vsprintf_at`, which is `strob_sprintf_at`. -/
def strobVsprintfAt (sb : Strob) (atOffset : Int) (text : CString) : Outcome (Nat × Strob) := do
  let sb := if sb.reserve < atOffset then strobSetMemlength sb (atOffset + 128) else sb
  let sb ← vsprintfLoop atOffset text (atOffset.toNat + text.strlen + 2) false 0 sb
  return (text.strlen, sb)

/-! ## Sizes -/

/-- The size of a block that is made larger until a text ends in it before `stop`. -/
def grownSize (stop : Nat) : Nat → Nat → Nat → Nat
  | 0, _, size => size
  | fuel + 1, added, size =>
      if stop < size + added + 156 then size + added + 156
      else grownSize stop fuel (added + 128) (size + added + 156)

/-- The size of the block after `strob_vsprintf_at`. -/
def sprintfSize (stop size : Nat) : Nat :=
  if stop < size then size else grownSize stop (stop + 1) 128 size

/-- The length in use after `strob_vsprintf_at`. -/
def sprintfLength (stop size : Nat) : Nat :=
  if stop < size then size else sprintfSize stop size - 156

theorem lt_grownSize {stop fuel added size : Nat} (h : stop < size + fuel) :
    stop < grownSize stop fuel added size := by
  induction fuel generalizing added size with
  | zero => exact h
  | succ fuel ih =>
      rw [grownSize]
      split
      next hlt => exact hlt
      next => exact ih (by omega)

/-- The blocks get larger and larger, but the last step is below a megabyte: the square of a
step is about the size. -/
theorem grownSize_le {stop fuel added size : Nat} (hstop : stop < 2 ^ 31) (hsize : size ≤ stop)
    (hadded : added * added ≤ 256 * size + 16384) :
    grownSize stop fuel added size ≤ stop + 2 ^ 20 + 156 := by
  induction fuel generalizing added size with
  | zero =>
      rw [grownSize]
      omega
  | succ fuel ih =>
      have hstep : added < 2 ^ 20 := by
        refine Nat.lt_of_not_le fun hle => ?_
        have hsquare := Nat.mul_le_mul hle hle
        omega
      rw [grownSize]
      split
      next => omega
      next hge =>
        refine ih (by omega) ?_
        have hsquare : (added + 128) * (added + 128) = added * added + 256 * added + 16384 := by ring
        omega

theorem lt_sprintfSize (stop size : Nat) : stop < sprintfSize stop size := by
  rw [sprintfSize]
  split
  next h => exact h
  next => exact lt_grownSize (by omega)

theorem sprintfSize_le (stop size : Nat) (hstop : stop < 2 ^ 31) (hpos : 0 < size) :
    sprintfSize stop size ≤ max size (stop + 2 ^ 20 + 156) := by
  rw [sprintfSize]
  split
  next => exact Nat.le_max_left _ _
  next hge => exact Nat.le_trans (grownSize_le hstop (by omega) (by omega)) (Nat.le_max_right _ _)

theorem le_grownSize {stop fuel added size : Nat} (h : size ≤ stop) (hlt : stop < size + fuel) :
    size + added + 156 ≤ grownSize stop fuel added size := by
  cases fuel with
  | zero => omega
  | succ fuel =>
      rw [grownSize]
      split
      next => exact Nat.le_refl _
      next hge =>
        have hend : stop < grownSize stop fuel (added + 128) (size + added + 156) :=
          lt_grownSize (by omega)
        omega

/-- A block that has grown has 128 bytes more in use. -/
theorem le_sprintfLength {stop size : Nat} (h : size ≤ stop) :
    size + 128 ≤ sprintfLength stop size := by
  have hle : size + 128 + 156 ≤ grownSize stop (stop + 1) 128 size := le_grownSize h (by omega)
  rw [sprintfLength, if_neg (by omega), sprintfSize, if_neg (by omega)]
  omega

theorem size_le_sprintfLength (stop size : Nat) : size ≤ sprintfLength stop size := by
  by_cases h : stop < size
  · rw [sprintfLength, if_pos h]
  · have hgrown := le_sprintfLength (Nat.le_of_not_lt h)
    omega

theorem sprintfLength_le (stop size : Nat) : sprintfLength stop size ≤ sprintfSize stop size := by
  rw [sprintfLength]
  split
  next h => rw [sprintfSize, if_pos h]
  next => exact Nat.sub_le _ _

/-- The size of the block after `strob_memcpy_at` of bytes that end before `stop`. -/
def memcpySize (stop size : Nat) : Nat := if stop < size then size else stop + 157

theorem lt_memcpySize (stop size : Nat) : stop < memcpySize stop size := by
  rw [memcpySize]
  split
  next h => exact h
  next => omega

theorem size_le_memcpySize (stop size : Nat) : size ≤ memcpySize stop size := by
  rw [memcpySize]
  split
  next => exact Nat.le_refl _
  next => omega

theorem memcpySize_le (stop size : Nat) : memcpySize stop size ≤ max size (stop + 157) := by
  rw [memcpySize]
  split
  next => exact Nat.le_max_left _ _
  next => exact Nat.le_max_right _ _

/-! ## The block -/

namespace Strob

variable {sb : Strob} {k : Nat}

/-- A larger block keeps what is in use, and is cleared behind it. -/
theorem str_reopen (hlen : sb.length = (k : Nat)) (hk : k ≤ sb.str.length) {n : Nat} (hkn : k < n)
    (hpos : 1 < n) (hmax : n < 2 ^ 31) :
    (strobReopen sb n).str = sb.str.take k ++ List.replicate (n - k) 0 := by
  have hkept : ((sb.str ++ List.replicate n 0).take n).take k = sb.str.take k := by
    rw [List.take_take, Nat.min_eq_left hkn.le, List.take_append_of_le_length hk]
  have hsize : ((sb.str ++ List.replicate n 0).take n).length = n := by
    rw [List.length_take, List.length_append, List.length_replicate]
    omega
  have hfill : ((k : Nat) : Int) < toCInt n := by
    rw [toCInt_of_lt hmax]
    omega
  have hclear : overwrite ((sb.str ++ List.replicate n 0).take n) k (List.replicate (n - k) 0) =
      sb.str.take k ++ List.replicate (n - k) 0 := by
    have hend := take_overwrite_end ((sb.str ++ List.replicate n 0).take n) k
      (List.replicate (n - k) (0 : UInt8)) (by omega)
    rw [hkept, List.length_replicate, Nat.add_sub_cancel' hkn.le, List.take_of_length_le] at hend
    · exact hend
    · rw [length_overwrite (by omega), hsize, List.length_replicate]
      omega
  obtain ⟨m, hm⟩ := Nat.exists_eq_add_of_lt hkn
  have hlast : n - 1 = (sb.str.take k ++ List.replicate m 0).length := by
    rw [List.length_append, List.length_take_of_le hk, List.length_replicate]
    omega
  have hsplit : sb.str.take k ++ List.replicate (n - k) 0 =
      (sb.str.take k ++ List.replicate m 0) ++ [0] := by
    rw [show n - k = m + 1 by omega, List.replicate_succ', List.append_assoc]
  have hover := overwrite_append (sb.str.take k ++ List.replicate m 0) [0] 0 [0]
  rw [Nat.add_zero] at hover
  simp only [strobReopen, if_neg (Nat.not_le.mpr hpos), hlen, if_pos hfill, Int.toNat_natCast, hclear]
  rw [hsplit, hlast, hover]
  rfl

theorem reopen_length (sb : Strob) (n : Nat) : (strobReopen sb n).length = sb.length := rfl

variable (sb) in
theorem setMemlength_fits {n : Nat} (h : n ≤ sb.str.length) (hmax : sb.str.length < 2 ^ 31) :
    strobSetMemlength sb n = { sb with length := n } := by
  rw [strobSetMemlength, strobReopenIf, reserve, toCInt_of_lt hmax, if_neg (by omega)]

theorem setMemlength_grow (hlen : sb.length = (k : Nat)) (hk : k ≤ sb.str.length) {n : Nat}
    (h : sb.str.length < n) (hmax : n + 156 < 2 ^ 31) :
    strobSetMemlength sb n = ⟨sb.str.take k ++ List.replicate (n + 156 - k) 0, n⟩ := by
  have hn : ((n : Int) + strobLengthincr).toNat = n + 156 := by
    rw [strobLengthincr]
    omega
  rw [strobSetMemlength, strobReopenIf, reserve, toCInt_of_lt (by omega), if_pos (by omega), hn,
    ← str_reopen hlen hk (by omega) (by omega) hmax]

/-- What fits of a text is written behind the bytes before the offset. -/
theorem vsnprintfAt_eq (str : Bytes) {off : Nat} (hoff : off < str.length) (text : CString) :
    ∃ str', vsnprintfAt str off ((str.length : Int) - off) text = .returned str' ∧
      str'.length = str.length ∧ str'.take off = str.take off ∧
      (off + text.strlen < str.length → ∃ spare, str' = str.take off ++ (text.bytes ++ 0 :: spare)) := by
  have hfits : (text.bytes.take ((str.length : Int) - off - 1).toNat ++ [(0 : UInt8)]).length + off ≤
      str.length := by
    rw [List.length_append, List.length_take, List.length_singleton]
    omega
  refine ⟨overwrite str off (text.bytes.take ((str.length : Int) - off - 1).toNat ++ [0]),
    ?_, ?_, ?_, ?_⟩
  · rw [vsnprintfAt, if_neg (by omega), if_neg (by omega), store_eq _ _ _ (by omega)]
  · exact length_overwrite_of_le (by omega)
  · exact take_overwrite_of_le (Nat.le_refl off) (by omega)
  · intro hlt
    rw [CString.strlen] at hlt
    rw [List.take_of_length_le (l := text.bytes) (by omega), overwrite]
    exact ⟨_, by rw [List.append_assoc, List.append_assoc]; rfl⟩

/-- What a turn leaves: the bytes before the offset, and the text if the block is large enough. -/
structure Turn (sb : Strob) (off : Nat) (text : CString) (k size : Nat) (sb' : Strob) : Prop where
  length_eq : sb'.length = (k : Nat)
  size_eq : sb'.str.length = size
  front_eq : sb'.str.take off = sb.str.take off
  text_eq : off + text.strlen < size →
    ∃ spare, sb'.str = sb.str.take off ++ (text.bytes ++ 0 :: spare)

/-- The first turn does not make the block larger. -/
theorem vsprintfLoop_first {off : Nat} (hin : off < sb.str.length) (hmax : sb.str.length < 2 ^ 31)
    (text : CString) (fuel : Nat) :
    ∃ sb', Turn sb off text sb.str.length sb.str.length sb' ∧
      vsprintfLoop off text (fuel + 1) false 0 sb =
        if off + text.strlen < sb.str.length then .returned sb'
        else vsprintfLoop off text fuel true 128 sb' := by
  obtain ⟨str', hwrite, hsize, hfront, htext⟩ := vsnprintfAt_eq sb.str hin text
  have hset := sb.setMemlength_fits (Nat.le_refl sb.str.length) hmax
  refine ⟨⟨str', sb.str.length⟩, ⟨rfl, hsize, hfront, htext⟩, ?_⟩
  simp -implicitDefEqProofs only [vsprintfLoop, Bool.false_eq_true, if_false, Outcome.pure_eq, Outcome.returned_bind,
    Int.add_zero, reserve, toCInt_of_lt hmax, hset, hwrite]
  by_cases hlt : off + text.strlen < sb.str.length
  · rw [if_pos hlt, if_neg (by omega)]
  · rw [if_neg hlt, if_pos (by omega), Int.zero_add]

/-- Every other turn makes the block larger. -/
theorem vsprintfLoop_again {off : Nat} (hlen : sb.length = (k : Nat)) (hk : k ≤ sb.str.length)
    (hoff : off ≤ k) (hin : off < sb.str.length) {added : Nat} (hadded : 0 < added)
    (hmax : sb.str.length + added + 156 < 2 ^ 31) (text : CString) (fuel : Nat) :
    ∃ sb', Turn sb off text (sb.str.length + added) (sb.str.length + added + 156) sb' ∧
      vsprintfLoop off text (fuel + 1) true added sb =
        if off + text.strlen < sb.str.length + added + 156 then .returned sb'
        else vsprintfLoop off text fuel true (added + 128 : Nat) sb' := by
  have hstore := store_eq sb.str off [0] (by rw [List.length_singleton]; omega)
  have hended : (overwrite sb.str off [0]).length = sb.str.length :=
    length_overwrite_of_le (by rw [List.length_singleton]; omega)
  have hlen' : ({ sb with str := overwrite sb.str off [0] } : Strob).length = (k : Nat) := hlen
  have hset := setMemlength_grow hlen'
    (by rw [hended]; exact hk) (n := sb.str.length + added) (by rw [hended]; omega) hmax
  have hgrown : ((overwrite sb.str off [0]).take k ++
      List.replicate (sb.str.length + added + 156 - k) 0).length = sb.str.length + added + 156 := by
    rw [List.length_append, List.length_take, hended, List.length_replicate]
    omega
  have hkept : ((overwrite sb.str off [0]).take k ++
      List.replicate (sb.str.length + added + 156 - k) 0).take off = sb.str.take off := by
    rw [List.take_append_of_le_length (by rw [List.length_take, hended]; omega), List.take_take,
      Nat.min_eq_left hoff, take_overwrite_of_le (Nat.le_refl off) hin.le]
  obtain ⟨str', hwrite, hsize, hfront, htext⟩ := vsnprintfAt_eq
    ((overwrite sb.str off [0]).take k ++ List.replicate (sb.str.length + added + 156 - k) 0)
    (show off < _ by rw [hgrown]; omega) text
  rw [hgrown] at hsize htext hwrite
  rw [hkept] at hfront htext
  refine ⟨⟨str', (sb.str.length + added : Nat)⟩, ⟨rfl, hsize, hfront, htext⟩, ?_⟩
  have hreserve : sb.reserve = sb.str.length := by rw [reserve, toCInt_of_lt (by omega)]
  rw [Int.natCast_add] at hset
  rw [Int.natCast_add added]
  simp -implicitDefEqProofs only [vsprintfLoop, if_true, hstore, Outcome.returned_bind, hreserve, hset]
  simp -implicitDefEqProofs only [reserve, hgrown, toCInt_of_lt hmax, hwrite, Outcome.returned_bind]
  by_cases hlt : off + text.strlen < sb.str.length + added + 156
  · rw [if_pos hlt, if_neg (by omega), Int.natCast_add]
    rfl
  · rw [if_neg hlt, if_pos (by omega), Int.natCast_add]
    rfl

theorem Turn.trans {off : Nat} {text : CString} {k₁ n₁ k₂ n₂ : Nat} {sb₁ sb₂ : Strob}
    (h₁ : Turn sb off text k₁ n₁ sb₁) (h₂ : Turn sb₁ off text k₂ n₂ sb₂) :
    Turn sb off text k₂ n₂ sb₂ where
  length_eq := h₂.length_eq
  size_eq := h₂.size_eq
  front_eq := h₂.front_eq.trans h₁.front_eq
  text_eq := fun hlt => h₁.front_eq ▸ h₂.text_eq hlt

/-- The turns that make the block larger. -/
theorem vsprintfLoop_grown {off : Nat} {text : CString} {fuel added : Nat}
    (hlen : sb.length = (k : Nat)) (hk : k ≤ sb.str.length) (hoff : off ≤ k)
    (hin : off < sb.str.length) (hadded : 0 < added)
    (hstop : sb.str.length ≤ off + text.strlen) (hfuel : off + text.strlen < sb.str.length + fuel)
    (hmax : grownSize (off + text.strlen) fuel added sb.str.length < 2 ^ 31) :
    ∃ sb', Turn sb off text (grownSize (off + text.strlen) fuel added sb.str.length - 156)
        (grownSize (off + text.strlen) fuel added sb.str.length) sb' ∧
      vsprintfLoop off text fuel true added sb = .returned sb' := by
  induction fuel generalizing added k sb with
  | zero => omega
  | succ fuel ih =>
      have hle : sb.str.length + added + 156 ≤
          grownSize (off + text.strlen) (fuel + 1) added sb.str.length := le_grownSize hstop hfuel
      obtain ⟨sb₁, hturn, hloop⟩ := vsprintfLoop_again hlen hk hoff hin hadded (by omega) text fuel
      rw [hloop]
      rw [grownSize] at hmax ⊢
      split
      next hlt =>
        rw [Nat.add_sub_cancel]
        exact ⟨sb₁, hturn, rfl⟩
      next hge =>
        have hsize := hturn.size_eq
        rw [if_neg hge, ← hsize] at hmax
        rw [← hsize]
        obtain ⟨sb₂, hrest, hreturned⟩ := ih hturn.length_eq (by omega)
          (by omega) (by omega) (by omega) (by omega) (by omega) hmax
        exact ⟨sb₂, hturn.trans hrest, hreturned⟩

/-- The text stands at the offset, behind what stood there before. -/
theorem strobVsprintfAt_eq {off : Nat} (hin : off < sb.str.length) (text : CString)
    (hmax : sprintfSize (off + text.strlen) sb.str.length < 2 ^ 31) :
    ∃ sb', Turn sb off text (sprintfLength (off + text.strlen) sb.str.length)
        (sprintfSize (off + text.strlen) sb.str.length) sb' ∧
      strobVsprintfAt sb off text = .returned (text.strlen, sb') := by
  have hsize : sb.str.length < 2 ^ 31 := by
    by_cases hlt : off + text.strlen < sb.str.length
    · rwa [sprintfSize, if_pos hlt] at hmax
    · have hend := lt_sprintfSize (off + text.strlen) sb.str.length
      omega
  have hreserve : ¬sb.reserve < off := by
    rw [reserve, toCInt_of_lt hsize]
    omega
  obtain ⟨sb₁, hfirst, hloop⟩ := vsprintfLoop_first hin hsize text (off + text.strlen + 1)
  rw [strobVsprintfAt, if_neg hreserve, Int.toNat_natCast, hloop]
  rw [sprintfLength]
  rw [sprintfSize] at hmax ⊢
  by_cases hlt : off + text.strlen < sb.str.length
  · simp only [if_pos hlt]
    exact ⟨sb₁, hfirst, rfl⟩
  · simp only [if_neg hlt] at hmax ⊢
    rw [← hfirst.size_eq] at hmax ⊢
    obtain ⟨sb₂, hrest, hreturned⟩ := vsprintfLoop_grown hfirst.length_eq
      hfirst.size_eq.ge hin.le (by rw [hfirst.size_eq]; exact hin) (by omega)
      (by rw [hfirst.size_eq]; omega) (by rw [hfirst.size_eq]; omega) hmax
    refine ⟨sb₂, hfirst.trans hrest, ?_⟩
    rw [show (128 : Int) = ((128 : Nat) : Int) from rfl, hreturned]
    rfl

/-! ## Bytes at an offset -/

/-- Bytes that are kept up to `k`, and cleared behind it. -/
def keptTo (k : Nat) (bs : Bytes) : Bytes := bs.take k ++ List.replicate (bs.length - k) 0

theorem length_keptTo (k : Nat) (bs : Bytes) : (keptTo k bs).length = bs.length := by
  rw [keptTo, List.length_append, List.length_take, List.length_replicate]
  omega

theorem keptTo_of_le {bs : Bytes} (h : bs.length ≤ k) : keptTo k bs = bs := by
  rw [keptTo, List.take_of_length_le h, Nat.sub_eq_zero_of_le h]
  exact List.append_nil bs

/-- What stands before `k` is kept. -/
theorem keptTo_append {front : Bytes} (h : front.length ≤ k) (bs : Bytes) :
    keptTo k (front ++ bs) = front ++ keptTo (k - front.length) bs := by
  rw [keptTo, keptTo, List.take_append, List.take_of_length_le h, List.append_assoc,
    List.length_append]
  congr 3
  omega

/-- The NUL that `strob_set_up` stores, if the length in use grows. -/
theorem setUp_nul (hlen : sb.length = (k : Nat)) {n : Nat} (hn : n < sb.str.length) :
    ∃ str', (if sb.length < n then store sb.str n [0] >>= fun str =>
        .returned { sb with str, length := (n : Int) } else .returned sb) =
        .returned ⟨str', (max k n : Nat)⟩ ∧
      str'.length = sb.str.length ∧ str'.take n = sb.str.take n := by
  by_cases hlt : k < n
  · refine ⟨overwrite sb.str n [0], ?_, ?_, take_overwrite_of_le (Nat.le_refl n) hn.le⟩
    · rw [hlen, if_pos (by omega), store_eq _ _ _ (by rw [List.length_singleton]; omega),
        Outcome.returned_bind, Nat.max_eq_right hlt.le]
    · exact length_overwrite_of_le (by rw [List.length_singleton]; omega)
  · refine ⟨sb.str, ?_, rfl, rfl⟩
    rw [if_neg (by rw [hlen]; omega), Nat.max_eq_left (by omega), ← hlen]

theorem reopenIf_eq (n : Nat) (hsize : sb.str.length < 2 ^ 31) :
    strobReopenIf sb ((n : Int) + 1) =
      if n < sb.str.length then sb else strobReopen sb (n + 157) := by
  have hn : ((n : Int) + 1 + strobLengthincr).toNat = n + 157 := by
    rw [strobLengthincr]
    omega
  rw [strobReopenIf, reserve, toCInt_of_lt hsize, hn]
  split
  next => rw [if_neg (by omega)]
  next => rw [if_pos (by omega)]

/-- `strob_set_up` in a block that may have to grow. -/
theorem setUp_eq (hlen : sb.length = (k : Nat)) (hk : k ≤ sb.str.length) {n : Nat}
    (hmax : n + 157 < 2 ^ 31) (hsize : sb.str.length < 2 ^ 31) :
    ∃ str', strobSetUp sb n = .returned ⟨str', (max k n : Nat)⟩ ∧
      str'.length = memcpySize n sb.str.length ∧
      str'.take n = if n < sb.str.length then sb.str.take n
        else sb.str.take k ++ List.replicate (n - k) 0 := by
  have hfits : ¬strobIntMax < (n : Int) + 1 := by
    rw [strobIntMax]
    omega
  simp only [strobSetUp, if_neg hfits, reopenIf_eq n hsize, memcpySize]
  by_cases hlt : n < sb.str.length
  · simp only [if_pos hlt]
    exact setUp_nul hlen hlt
  · have hkn : k ≤ n := by omega
    have hstr := str_reopen hlen hk (n := n + 157) (by omega) (by omega) hmax
    have hgrown : (strobReopen sb (n + 157)).str.length = n + 157 := length_reopen sb (by omega)
    have hlen' := (reopen_length sb (n + 157)).trans hlen
    simp only [if_neg hlt]
    generalize strobReopen sb (n + 157) = grown at hstr hgrown hlen' ⊢
    obtain ⟨str', hreturned, hlength, htake⟩ := setUp_nul hlen' (n := n) (by omega)
    have hbegin : (sb.str.take k ++ List.replicate (n - k) (0 : UInt8)).length = n := by
      rw [List.length_append, List.length_take_of_le hk, List.length_replicate, Nat.add_sub_cancel' hkn]
    refine ⟨str', hreturned, hlength.trans hgrown, ?_⟩
    rw [htake, hstr, Nat.sub_add_comm hkn, ← List.replicate_append_replicate, ← List.append_assoc,
      List.take_left' hbegin]

/-- Bytes are copied behind those that stand before the offset, as far as these are kept. -/
theorem memcpyAt_eq (hlen : sb.length = (k : Nat)) (hk : k ≤ sb.str.length) (off : Nat)
    (ct : Bytes) (hoff : off ≤ sb.str.length) (hmax : off + ct.length + 157 < 2 ^ 31)
    (hsize : sb.str.length < 2 ^ 31) :
    ∃ sb', strobMemcpyAt sb off ct = .returned sb' ∧
      sb'.length = (max k (off + ct.length) : Nat) ∧
      sb'.str.length = memcpySize (off + ct.length) sb.str.length ∧
      sb'.str.take (off + ct.length) =
        (if off + ct.length < sb.str.length then sb.str.take off else keptTo k (sb.str.take off)) ++
          ct := by
  have hn : toCInt ct.length + toCInt off = ((off + ct.length : Nat) : Int) := by
    rw [toCInt_of_lt (by omega), toCInt_of_lt (by omega)]
    omega
  obtain ⟨str', hup, hlength, htake⟩ := setUp_eq hlen hk hmax hsize
  have hroom : off + ct.length ≤ str'.length := by
    rw [hlength]
    exact (lt_memcpySize _ _).le
  have hfront : str'.take off = if off + ct.length < sb.str.length then sb.str.take off
      else keptTo k (sb.str.take off) := by
    have hshort := congrArg (List.take off) htake
    rw [List.take_take, Nat.min_eq_left (Nat.le_add_right _ _)] at hshort
    rw [hshort]
    split
    next => rw [List.take_take, Nat.min_eq_left (Nat.le_add_right _ _)]
    next hge =>
      have hkept : (sb.str.take k).length = k := List.length_take_of_le hk
      have hbefore : (sb.str.take off).length = off := List.length_take_of_le hoff
      have hclear : min (off - k) (off + ct.length - k) = off - k :=
        Nat.min_eq_left (Nat.sub_le_sub_right (Nat.le_add_right off ct.length) k)
      rw [keptTo, List.take_append, List.take_replicate, hkept, hbefore, hclear, List.take_take,
        List.take_take, Nat.min_comm]
  refine ⟨⟨overwrite str' off ct, (max k (off + ct.length) : Nat)⟩, ?_, rfl, ?_, ?_⟩
  · rw [strobMemcpyAt, hn, hup, Outcome.returned_bind, store_eq _ _ _ hroom, Outcome.returned_bind]
  · rw [← hlength]
    exact length_overwrite_of_le hroom
  · rw [← hfront]
    exact take_overwrite_end str' off ct (by omega)

end Strob

end Swbis.Misc
