import Swbis.Lib.Memory
import Swbis.Lib.Strtol

/-!
# String objects

`STROB` is a block of memory that grows, with the length in use.  Both lengths
are of type `int`.  `strob_memcpy_at` copies bytes to an offset in the block,
and needs one byte behind them.

`Strob.Holds` says which bytes are in use.  An object that holds bytes takes more
of them at its end until their number and the byte behind them are no `int`.
-/

namespace Swbis.Misc

open CLib

/-- `STROB`. -/
structure Strob where
  /-- `str_`, the whole block. -/
  str : Bytes
  length : Int

/-- `reserve_`, the size of the block as an `int`. -/
def Strob.reserve (strb : Strob) : Int := toCInt strb.str.length

/-- The largest `int`. -/
def strobIntMax : Int := 2 ^ 31 - 1

/-- `STROB_LENGTHINCR`, which is `extra_`. -/
def strobLengthincr : Int := 156

/-- `strob_reopen`.  The bytes that `realloc` adds are 0 here. -/
def strobReopen (strb : Strob) (newLength : Nat) : Strob :=
  let newLength := if newLength ≤ 1 then 2 else newLength
  let str := (strb.str ++ List.replicate newLength 0).take newLength
  let str :=
    if strb.length < toCInt newLength then
      overwrite str strb.length.toNat (List.replicate (newLength - strb.length.toNat) 0)
    else str
  { strb with str := overwrite str (newLength - 1) [0] }

/-- `strob_reopen_if`. -/
def strobReopenIf (strb : Strob) (reqdLength : Int) : Strob :=
  if strb.reserve < reqdLength then strobReopen strb (reqdLength + strobLengthincr).toNat else strb

/-- `strob_open`, of a positive size. -/
def strobOpen (initialSize : Nat) : Strob := strobReopen ⟨[], 0⟩ (initialSize + 1)

/-- `strob_set_memlength`. -/
def strobSetMemlength (strb : Strob) (len : Int) : Strob :=
  { strobReopenIf strb len with length := len }

/-- `strob_set_up`.  The length asked for is one more than `n`. -/
def strobSetUp (strb : Strob) (n : Int) : Outcome Strob :=
  if strobIntMax < n + 1 then .fault
  else
    let strb := strobReopenIf strb (n + 1)
    if strb.length < n then
      store strb.str n [0] >>= fun str => .returned { strb with str, length := n }
    else .returned strb

/-- `strob_strcpy`, of the empty string. -/
def strobStrcpyEmpty (strb : Strob) : Outcome Strob :=
  let strb := strobReopenIf strb 1
  store strb.str 0 [0] >>= fun str => .returned { strb with str, length := 0 }

/-- `strob_append_hidden_null`. -/
def strobAppendHiddenNull (strb : Strob) : Outcome Strob :=
  strobSetUp strb (strb.length + 1) >>= fun strb =>
    store strb.str strb.length [0] >>= fun str => .returned { strb with str }

/-- `strob_memcpy_at`. -/
def strobMemcpyAt (strb : Strob) (offset : Int) (ct : Bytes) : Outcome Strob :=
  strobSetUp strb (toCInt ct.length + toCInt offset) >>= fun strb =>
    store strb.str offset ct >>= fun str => .returned { strb with str }

/-! ## The bytes in use -/

/-- The bytes in use, and the NUL behind them. -/
structure Strob.Holds (strb : Strob) (bs : Bytes) : Prop where
  length_eq : strb.length = bs.length
  str_eq : ∃ spare, strb.str = bs ++ 0 :: spare

/-- The most bytes that an object holds with a hidden NUL behind them. -/
def strobMax : Nat := 2 ^ 31 - 3

namespace Strob

variable {strb : Strob} {bs : Bytes}

theorem Holds.length_lt (h : strb.Holds bs) : bs.length < strb.str.length := by
  obtain ⟨spare, hstr⟩ := h.str_eq
  rw [hstr, List.length_append, List.length_cons]
  omega

/-- The block has the length asked for. -/
theorem length_reopen (strb : Strob) {n : Nat} (hn : 1 < n) :
    (strobReopen strb n).str.length = n := by
  have hgrown : ((strb.str ++ List.replicate n 0).take n).length = n := by
    rw [List.length_take, List.length_append, List.length_replicate]
    omega
  have hfilled : (if strb.length < toCInt n then
      overwrite ((strb.str ++ List.replicate n 0).take n) strb.length.toNat
        (List.replicate (n - strb.length.toNat) 0)
      else (strb.str ++ List.replicate n 0).take n).length = n := by
    split
    · have hle := toCInt_le n
      rw [length_overwrite (by omega), hgrown, List.length_replicate]
      omega
    · exact hgrown
  simp only [strobReopen, if_neg (Nat.not_le.mpr hn)]
  rw [length_overwrite (by rw [hfilled]; omega), hfilled, List.length_singleton]
  omega

/-- A larger block begins with the bytes in use. -/
theorem take_reopen {strb : Strob} {k n : Nat} (hlen : strb.length = (k : Nat))
    (hk : k ≤ strb.str.length) (hkn : k < n) (hn : 1 < n) :
    (strobReopen strb n).str.take k = strb.str.take k := by
  have hgrown : ((strb.str ++ List.replicate n 0).take n).take k = strb.str.take k := by
    rw [List.take_take, Nat.min_eq_left hkn.le, List.take_append_of_le_length hk]
  have hsize : ((strb.str ++ List.replicate n 0).take n).length = n := by
    rw [List.length_take, List.length_append, List.length_replicate]
    omega
  simp only [strobReopen, if_neg (Nat.not_le.mpr hn), hlen, Int.toNat_natCast]
  by_cases hfill : ((k : Nat) : Int) < toCInt n
  · rw [if_pos hfill, take_overwrite_of_le (by omega), take_overwrite_of_le (Nat.le_refl k), hgrown]
    · omega
    · rw [length_overwrite (by omega), hsize]
      omega
  · rw [if_neg hfill, take_overwrite_of_le (by omega) (by omega), hgrown]

/-- The length in use grows, and so does the block if it has to. -/
theorem setMemlength {strb : Strob} {k n : Nat} (hlen : strb.length = (k : Nat))
    (hk : k ≤ strb.str.length) (hkn : k ≤ n) :
    n ≤ (strobSetMemlength strb n).str.length ∧
      (strobSetMemlength strb n).str.take k = strb.str.take k := by
  rw [strobSetMemlength, strobReopenIf, Strob.reserve]
  by_cases hgrow : toCInt strb.str.length < n
  · have hsize : ((n : Int) + strobLengthincr).toNat = n + 156 := by
      rw [strobLengthincr]
      omega
    rw [if_pos hgrow, hsize]
    refine ⟨?_, take_reopen hlen hk (by omega) (by omega)⟩
    change n ≤ (strobReopen strb (n + 156)).str.length
    rw [length_reopen strb (by omega)]
    omega
  · have hle := toCInt_le strb.str.length
    rw [if_neg hgrow]
    refine ⟨?_, rfl⟩
    change n ≤ strb.str.length
    omega

/-- A larger block holds the same bytes. -/
theorem Holds.reopen (h : strb.Holds bs) {n : Nat} (hn : bs.length + 2 ≤ n) :
    (strobReopen strb n).Holds bs := by
  obtain ⟨spare, hstr⟩ := h.str_eq
  have hgrown : ∃ s, (strb.str ++ List.replicate n 0).take n = bs ++ 0 :: s := by
    have hsplit : n = bs.length + ((n - bs.length - 1) + 1) := by omega
    refine ⟨(spare ++ List.replicate n 0).take (n - bs.length - 1), ?_⟩
    rw [hstr, List.append_assoc, List.cons_append]
    conv_lhs => rw [hsplit]
    rw [List.take_length_add_append, List.take_succ_cons, ← hsplit]
  obtain ⟨s, hs⟩ := hgrown
  have hfilled : ∃ s', (if strb.length < toCInt n then
      overwrite (bs ++ 0 :: s) strb.length.toNat (List.replicate (n - strb.length.toNat) 0)
      else bs ++ 0 :: s) = bs ++ 0 :: s' := by
    rw [h.length_eq, Int.toNat_natCast]
    split
    · obtain ⟨m, hm⟩ := Nat.exists_eq_add_of_lt (show bs.length < n by omega)
      refine ⟨List.replicate m 0 ++ (0 :: s).drop (m + 1), ?_⟩
      have hover := overwrite_append bs (0 :: s) 0 (List.replicate (m + 1) 0)
      rw [Nat.add_zero] at hover
      rw [hm, Nat.add_assoc, Nat.add_sub_cancel_left, hover, overwrite, List.length_replicate,
        Nat.zero_add, List.take_zero, List.nil_append]
      rfl
    · exact ⟨s, rfl⟩
  obtain ⟨s', hs'⟩ := hfilled
  have hlast : n - 1 = bs.length + ((n - 2 - bs.length) + 1) := by omega
  refine ⟨h.length_eq, overwrite s' (n - 2 - bs.length) [0], ?_⟩
  simp only [strobReopen, if_neg (show ¬n ≤ 1 by omega)]
  rw [hs, hs', hlast, overwrite_append, overwrite_cons_succ]

/-- The block has room for a length, perhaps after growing. -/
theorem Holds.reopenIf (h : strb.Holds bs) {n : Nat} (hn : bs.length < n) :
    (strobReopenIf strb (n + 1)).Holds bs ∧ n < (strobReopenIf strb (n + 1)).str.length := by
  rw [strobReopenIf, Strob.reserve]
  split
  · have hsize : ((n : Int) + 1 + strobLengthincr).toNat = n + 157 := by
      rw [strobLengthincr]
      omega
    rw [hsize, length_reopen strb (by omega)]
    exact ⟨h.reopen (by omega), by omega⟩
  · next hroom =>
      have hle := toCInt_le strb.str.length
      exact ⟨h, by omega⟩

/-- `strob_set_up` for a larger length. -/
theorem Holds.setUp (h : strb.Holds bs) {c : Nat} (hmax : bs.length + c < 2 ^ 31 - 2) :
    ∃ mid spare, strobSetUp strb ((bs.length + (c + 1) : Nat) : Int) =
      .returned ⟨bs ++ (0 :: mid) ++ 0 :: spare, (bs.length + (c + 1) : Nat)⟩ ∧ mid.length = c := by
  have hfits : ¬strobIntMax < ((bs.length + (c + 1) : Nat) : Int) + 1 := by
    rw [strobIntMax]
    omega
  obtain ⟨hholds, hroom⟩ := h.reopenIf (n := bs.length + (c + 1)) (by omega)
  obtain ⟨spare, hstr⟩ := hholds.str_eq
  have hc : c < spare.length := by
    rw [hstr, List.length_append, List.length_cons] at hroom
    omega
  have hgrow : (strobReopenIf strb (((bs.length + (c + 1) : Nat) : Int) + 1)).length <
      ((bs.length + (c + 1) : Nat) : Int) := by
    rw [hholds.length_eq]
    omega
  simp only [strobSetUp, if_neg hfits, if_pos hgrow]
  rw [store_eq _ _ _ hroom, hstr, overwrite_append, overwrite_cons_succ, Outcome.returned_bind]
  refine ⟨spare.take c, spare.drop (c + 1), ?_, List.length_take_of_le hc.le⟩
  rw [overwrite]
  simp only [List.append_assoc, List.cons_append, List.nil_append, List.length_singleton]

/-- A length that is no `int`. -/
theorem setUp_fault {n : Int} (h : strobIntMax < n + 1) : strobSetUp strb n = .fault := by
  rw [strobSetUp, if_pos h]

/-- The NUL of the empty string. -/
theorem store_empty {str : Bytes} (hpos : 0 < str.length) :
    ∃ spare, store str 0 [0] = .returned (0 :: spare) := by
  cases str with
  | nil => exact absurd hpos (Nat.lt_irrefl 0)
  | cons b str =>
      have hstore := store_eq (b :: str) 0 [0] (by simp)
      rw [Int.natCast_zero] at hstore
      exact ⟨str, hstore⟩

theorem reopenIf_pos (strb : Strob) : 0 < (strobReopenIf strb 1).str.length := by
  rw [strobReopenIf]
  split
  · rw [length_reopen strb (by decide)]
    decide
  · next hroom =>
      have hle := toCInt_le strb.str.length
      rw [Strob.reserve] at hroom
      omega

/-- The empty string is copied whatever is in the object. -/
theorem strcpyEmpty_holds (strb : Strob) :
    ∃ strb', strobStrcpyEmpty strb = .returned strb' ∧ strb'.Holds [] := by
  obtain ⟨spare, hstore⟩ := store_empty (reopenIf_pos strb)
  simp only [strobStrcpyEmpty, hstore, Outcome.returned_bind]
  exact ⟨_, rfl, rfl, spare, rfl⟩

/-- Bytes are appended while their number allows it. -/
theorem Holds.memcpyAt (h : strb.Holds bs) {ct : Bytes} (hne : ct ≠ [])
    (hmax : bs.length + ct.length < 2 ^ 31 - 1) :
    ∃ strb', strobMemcpyAt strb bs.length ct = .returned strb' ∧ strb'.Holds (bs ++ ct) := by
  obtain ⟨c, hc⟩ := Nat.exists_eq_succ_of_ne_zero (List.length_pos_iff.mpr hne).ne'
  obtain ⟨mid, spare, hup, hmid⟩ := h.setUp (c := c) (by omega)
  have hn : toCInt ct.length + toCInt bs.length = ((bs.length + (c + 1) : Nat) : Int) := by
    rw [toCInt_of_lt (by omega), toCInt_of_lt (by omega), hc]
    omega
  have hover := overwrite_append bs (0 :: mid ++ 0 :: spare) 0 ct
  rw [Nat.add_zero] at hover
  rw [strobMemcpyAt, hn, hup, Outcome.returned_bind]
  rw [List.append_assoc, store_eq _ _ _ (by simp; omega), Outcome.returned_bind, hover]
  refine ⟨_, rfl, ?_, spare, ?_⟩
  · rw [List.length_append, hc]
  · have hdrop : (0 :: mid ++ 0 :: spare).drop ct.length = 0 :: spare := by
      rw [List.drop_left' (by rw [List.length_cons, hmid, hc])]
    rw [overwrite, List.take_zero, List.nil_append, Nat.zero_add, hdrop, List.append_assoc]

theorem memcpyAt_fault {ct : Bytes} (hbs : bs.length < 2 ^ 31)
    (hct : ct.length < 2 ^ 31) (hmax : 2 ^ 31 - 1 ≤ bs.length + ct.length) :
    strobMemcpyAt strb bs.length ct = .fault := by
  have hover : strobIntMax < toCInt ct.length + toCInt bs.length + 1 := by
    rw [toCInt_of_lt hct, toCInt_of_lt hbs, strobIntMax]
    omega
  rw [strobMemcpyAt, setUp_fault hover, Outcome.fault_bind]

/-- The hidden NUL is one more byte. -/
theorem Holds.appendHiddenNull (h : strb.Holds bs) (hmax : bs.length ≤ strobMax) :
    ∃ strb', strobAppendHiddenNull strb = .returned strb' ∧ strb'.Holds (bs ++ [0]) := by
  rw [strobMax] at hmax
  obtain ⟨mid, spare, hup, hmid⟩ := h.setUp (c := 0) (by omega)
  rw [List.length_eq_zero_iff] at hmid
  subst hmid
  have hlen : strb.length + 1 = ((bs.length + (0 + 1) : Nat) : Int) := by
    rw [h.length_eq]
    omega
  rw [strobAppendHiddenNull, hlen, hup, Outcome.returned_bind]
  have hover := overwrite_append (bs ++ [0]) (0 :: spare) 0 [0]
  rw [Nat.add_zero, List.length_append, List.length_singleton] at hover
  change ∃ strb', (store (bs ++ [0] ++ 0 :: spare) ((bs.length + 1 : Nat) : Int) [0] >>= _) = _ ∧ _
  have hroom : bs.length + 1 + [(0 : UInt8)].length ≤ (bs ++ [0] ++ 0 :: spare).length := by
    simp only [List.length_append, List.length_cons, List.length_nil]
    omega
  rw [store_eq _ _ _ hroom, Outcome.returned_bind, hover]
  refine ⟨_, rfl, ?_, spare, rfl⟩
  rw [List.length_append, List.length_singleton]

theorem Holds.appendHiddenNull_fault (h : strb.Holds bs) (hmax : strobMax < bs.length) :
    strobAppendHiddenNull strb = .fault := by
  have hover : strobIntMax < strb.length + 1 + 1 := by
    rw [strobMax] at hmax
    rw [h.length_eq, strobIntMax]
    omega
  rw [strobAppendHiddenNull, setUp_fault hover, Outcome.fault_bind]

end Strob

end Swbis.Misc
