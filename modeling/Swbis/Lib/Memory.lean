import Swbis.Lib.Outcome

/-!
# Loads and stores in a block of memory

`overwrite l i xs` is the list `l` with `xs` written over it at `i`.  It serves
twice: `store` is an overwrite of a block of memory, which must lie inside the
block, and a write to a file is an overwrite of its content, which may go past
the end.  `take_overwrite` joins the two.

`loadString` reads a string in a block.  `loadSlot`, `storeSlot` and `moveSlots`
are the loads, stores and moves in an array of values of any type.
-/

namespace CLib

section

variable {α : Type}

/-- The list with `xs` written over it from index `i` on. -/
def overwrite (l : List α) (i : Nat) (xs : List α) : List α :=
  l.take i ++ xs ++ l.drop (i + xs.length)

theorem length_overwrite {l : List α} {i : Nat} {xs : List α} (h : i ≤ l.length) :
    (overwrite l i xs).length = max l.length (i + xs.length) := by
  simp only [overwrite, List.length_append, List.length_take, List.length_drop]
  omega

/-- An overwrite inside a list. -/
theorem length_overwrite_of_le {l : List α} {i : Nat} {xs : List α} (h : i + xs.length ≤ l.length) :
    (overwrite l i xs).length = l.length := by
  rw [length_overwrite (by omega), Nat.max_eq_left h]

@[simp] theorem overwrite_nil (l : List α) (i : Nat) : overwrite l i [] = l := by
  simp [overwrite]

/-- Behind a beginning an overwrite is one of the rest. -/
theorem overwrite_append (l₁ l₂ : List α) (i : Nat) (xs : List α) :
    overwrite (l₁ ++ l₂) (l₁.length + i) xs = l₁ ++ overwrite l₂ i xs := by
  rw [overwrite, overwrite, Nat.add_assoc, List.take_length_add_append,
    List.drop_length_add_append]
  simp only [List.append_assoc]

/-- An overwrite of a beginning. -/
theorem overwrite_append_left {l₁ : List α} (l₂ : List α) {i : Nat} {xs : List α}
    (h : i + xs.length ≤ l₁.length) : overwrite (l₁ ++ l₂) i xs = overwrite l₁ i xs ++ l₂ := by
  rw [overwrite, overwrite, List.take_append_of_le_length (by omega),
    List.drop_append_of_le_length h, List.append_assoc, List.append_assoc, List.append_assoc]

theorem overwrite_cons_succ (a : α) (l : List α) (i : Nat) (xs : List α) :
    overwrite (a :: l) (i + 1) xs = a :: overwrite l i xs := by
  rw [Nat.add_comm i 1]
  exact overwrite_append [a] l i xs

/-- What stands before the index is kept. -/
theorem take_overwrite_of_le {l : List α} {i k : Nat} {xs : List α} (hk : k ≤ i)
    (hi : i ≤ l.length) : (overwrite l i xs).take k = l.take k := by
  rw [overwrite, List.append_assoc, List.take_append_of_le_length (by rw [List.length_take]; omega),
    List.take_take, Nat.min_eq_left hk]

/-- Up to the end of what was written, an overwrite appends. -/
theorem take_overwrite_end (l : List α) (i : Nat) (xs : List α) (hi : i ≤ l.length) :
    (overwrite l i xs).take (i + xs.length) = l.take i ++ xs := by
  have hlen : (l.take i ++ xs).length = i + xs.length := by
    rw [List.length_append, List.length_take]
    omega
  rw [overwrite, ← hlen, List.take_left]

/-- Behind what was written, everything is kept. -/
theorem drop_overwrite_end (l : List α) (i : Nat) (xs : List α) (hi : i ≤ l.length) :
    (overwrite l i xs).drop (i + xs.length) = l.drop (i + xs.length) := by
  have hlen : (l.take i ++ xs).length = i + xs.length := by
    rw [List.length_append, List.length_take]
    omega
  rw [overwrite, ← hlen, List.drop_left]

/-- What was written stands at the index. -/
theorem take_drop_overwrite (l : List α) (i : Nat) (xs : List α) (hi : i ≤ l.length) :
    ((overwrite l i xs).drop i).take xs.length = xs := by
  have hlen : (l.take i).length = i := by
    rw [List.length_take]
    omega
  rw [overwrite, List.append_assoc, List.drop_append_of_le_length (by omega),
    List.drop_of_length_le (by omega), List.nil_append, List.take_left]

/-- The valid part of a block after an overwrite is the overwritten valid part. -/
theorem take_overwrite {l : List α} {i e : Nat} {xs : List α} (hi : i ≤ e) (he : e ≤ l.length) :
    (overwrite l i xs).take (max e (i + xs.length)) = overwrite (l.take e) i xs := by
  have hlen : (l.take i ++ xs).length = i + xs.length := by
    rw [List.length_append, List.length_take]
    omega
  rw [overwrite, overwrite, List.take_append, List.take_of_length_le (by omega), hlen,
    List.take_take, Nat.min_eq_left hi, List.drop_take]
  congr 2
  omega

end

/-- The bytes of a block from `off` on, `n` of them. -/
def load (mem : Bytes) (off n : Int) : Outcome Bytes :=
  if 0 ≤ off ∧ 0 ≤ n ∧ off + n ≤ mem.length then
    .returned ((mem.drop off.toNat).take n.toNat)
  else .fault

/-- The block with bytes stored at `off`. -/
def store (mem : Bytes) (off : Int) (bs : Bytes) : Outcome Bytes :=
  if 0 ≤ off ∧ off + bs.length ≤ mem.length then .returned (overwrite mem off.toNat bs)
  else .fault

theorem load_eq (mem : Bytes) (off n : Nat) (h : off + n ≤ mem.length) :
    load mem off n = .returned ((mem.drop off).take n) := by
  rw [load, if_pos ⟨by omega, by omega, by omega⟩]
  rfl

theorem store_eq (mem : Bytes) (off : Nat) (bs : Bytes) (h : off + bs.length ≤ mem.length) :
    store mem off bs = .returned (overwrite mem off bs) := by
  rw [store, if_pos ⟨by omega, by omega⟩]
  rfl

/-- A load of bytes of the block returns so many. -/
theorem exists_load {mem : Bytes} {off n : Int} (h0 : 0 ≤ off) (hn : 0 ≤ n)
    (h : off + n ≤ mem.length) : ∃ bs, load mem off n = .returned bs ∧ (bs.length : Int) = n := by
  refine ⟨(mem.drop off.toNat).take n.toNat, by rw [load, if_pos ⟨h0, hn, h⟩], ?_⟩
  rw [List.length_take, List.length_drop]
  omega

/-- A store into the block returns a block of the same length. -/
theorem exists_store {mem bs : Bytes} {off : Int} (h0 : 0 ≤ off)
    (h : off + bs.length ≤ mem.length) :
    ∃ mem', store mem off bs = .returned mem' ∧ mem'.length = mem.length := by
  exact ⟨overwrite mem off.toNat bs, by rw [store, if_pos ⟨h0, h⟩],
    length_overwrite_of_le (by omega)⟩

/-- A load that returns is one of bytes of the block. -/
theorem of_load_returned {mem bs : Bytes} {off n : Int} (h : load mem off n = .returned bs) :
    (0 ≤ off ∧ 0 ≤ n ∧ off + n ≤ mem.length) ∧ (bs.length : Int) = n := by
  rw [load] at h
  split at h
  next hin =>
    have hbs := Outcome.returned.inj h
    rw [← hbs, List.length_take, List.length_drop]
    exact ⟨hin, by omega⟩
  next => cases h

/-- A store that returns is one into the block. -/
theorem of_store_returned {mem mem' bs : Bytes} {off : Int}
    (h : store mem off bs = .returned mem') : 0 ≤ off ∧ off + bs.length ≤ mem.length := by
  rw [store] at h
  split at h
  next hin => exact hin
  next => cases h

/-! ## Strings in a block -/

/-- The string at an offset of a block, which has to end in the block. -/
def loadString (mem : Bytes) (off : Int) : Outcome CString :=
  if 0 ≤ off ∧ (0 : UInt8) ∈ mem.drop off.toNat then
    .returned (CString.ofMem (mem.drop off.toNat))
  else .fault

/-- A string that ends in the memory has its NUL there. -/
theorem CString.exists_nul {mem : Bytes} (h : (CString.ofMem mem).strlen < mem.length) :
    ∃ rest, mem = (CString.ofMem mem).bytes ++ 0 :: rest := by
  induction mem with
  | nil => exact absurd h (Nat.not_lt_zero _)
  | cons b mem ih =>
      by_cases hb : b = 0
      · subst hb
        exact ⟨mem, rfl⟩
      · have hcons : (CString.ofMem (b :: mem)).bytes = b :: (CString.ofMem mem).bytes := by
          simp only [CString.ofMem]
          exact List.takeWhile_cons_of_pos (by simpa using hb)
        rw [CString.strlen, hcons, List.length_cons, List.length_cons] at h
        obtain ⟨rest, hrest⟩ := ih (Nat.lt_of_succ_lt_succ h)
        refine ⟨rest, ?_⟩
        rw [hcons, List.cons_append, ← hrest]

/-- A string is what stands before its NUL. -/
theorem CString.ofMem_eq_of_take {mem mem' : Bytes} {n : Nat} (htake : mem'.take n = mem.take n)
    (hlt : (CString.ofMem mem).strlen < n) (hn : n ≤ mem.length) :
    CString.ofMem mem' = CString.ofMem mem := by
  obtain ⟨rest, hrest⟩ := CString.exists_nul (Nat.lt_of_lt_of_le hlt hn)
  obtain ⟨m, hm⟩ := Nat.exists_eq_add_of_lt hlt
  have hbegin : mem.take n = (CString.ofMem mem).bytes ++ 0 :: rest.take m := by
    conv_lhs => rw [hrest, hm, Nat.add_assoc, CString.strlen]
    rw [List.take_length_add_append, List.take_succ_cons]
  rw [← List.take_append_drop n mem', htake, hbegin, List.append_assoc, List.cons_append,
    CString.ofMem_append_nul]

theorem loadString_eq {mem : Bytes} {off : Nat}
    (h : off + (CString.ofMem (mem.drop off)).strlen + 1 ≤ mem.length) :
    loadString mem off = .returned (CString.ofMem (mem.drop off)) := by
  have hlt : (CString.ofMem (mem.drop off)).strlen < (mem.drop off).length := by
    rw [List.length_drop]
    omega
  obtain ⟨rest, hrest⟩ := CString.exists_nul hlt
  have hnul : (0 : UInt8) ∈ mem.drop off := by
    rw [hrest]
    exact List.mem_append_right _ List.mem_cons_self
  rw [loadString, Int.toNat_natCast, if_pos ⟨Int.natCast_nonneg off, hnul⟩]

/-- A string that stands in a block with its NUL. -/
theorem loadString_append (front : Bytes) (s : CString) (spare : Bytes) :
    loadString (front ++ (s.bytes ++ 0 :: spare)) front.length = .returned s := by
  have hnul : (0 : UInt8) ∈ s.bytes ++ 0 :: spare := List.mem_append_right _ List.mem_cons_self
  rw [loadString, Int.toNat_natCast, List.drop_left, if_pos ⟨Int.natCast_nonneg _, hnul⟩,
    CString.ofMem_append_nul]

/-- A string is not changed by what is stored before it or behind it. -/
theorem ofMem_drop_overwrite {mem : Bytes} {off : Nat}
    (hin : off + (CString.ofMem (mem.drop off)).strlen + 1 ≤ mem.length) {i : Nat} {b : Bytes}
    (hi : i ≤ mem.length)
    (hapart : off + (CString.ofMem (mem.drop off)).strlen + 1 ≤ i ∨ i + b.length ≤ off) :
    CString.ofMem ((overwrite mem i b).drop off) = CString.ofMem (mem.drop off) := by
  rcases hapart with hle | hle
  · refine CString.ofMem_eq_of_take (n := i - off) ?_ (by omega) (by rw [List.length_drop]; omega)
    have hoff : off + (i - off) = i := by omega
    rw [List.take_drop, List.take_drop, hoff, take_overwrite_of_le (Nat.le_refl i) hi]
  · obtain ⟨k, rfl⟩ := Nat.exists_eq_add_of_le hle
    rw [← List.drop_drop, drop_overwrite_end mem i b hi, List.drop_drop]

/-- The string that is stored with its NUL. -/
theorem ofMem_drop_overwrite_self {mem : Bytes} {i : Nat} (hi : i ≤ mem.length) (s : CString) :
    CString.ofMem ((overwrite mem i (s.bytes ++ [0])).drop i) = s := by
  have hlen : (mem.take i).length = i := List.length_take_of_le hi
  rw [overwrite, List.append_assoc, List.append_assoc, List.drop_left' hlen]
  exact CString.ofMem_append_nul s _

/-! ## Arrays of values -/

section

variable {α : Type}

/-- The value in a slot of an array. -/
def loadSlot (mem : List α) (i : Int) : Outcome α :=
  if 0 ≤ i then
    match mem[i.toNat]? with
    | some a => .returned a
    | none => .fault
  else .fault

/-- The array with a value stored in a slot. -/
def storeSlot (mem : List α) (i : Int) (a : α) : Outcome (List α) :=
  if 0 ≤ i ∧ i < mem.length then .returned (mem.set i.toNat a) else .fault

/-- `memmove` of `n` slots in an array.  A negative length is a huge one. -/
def moveSlots (mem : List α) (dst src n : Int) : Outcome (List α) :=
  if n = 0 then .returned mem
  else if 0 < n ∧ 0 ≤ dst ∧ dst + n ≤ mem.length ∧ 0 ≤ src ∧ src + n ≤ mem.length then
    .returned (overwrite mem dst.toNat ((mem.drop src.toNat).take n.toNat))
  else .fault

theorem loadSlot_append {a : List α} {i : Nat} (hi : a.length = i) (x : α) (b : List α) :
    loadSlot (a ++ x :: b) i = .returned x := by
  have hget : (a ++ x :: b)[i]? = some x := by
    rw [List.getElem?_append_right hi.le, hi, Nat.sub_self]
    rfl
  rw [loadSlot, if_pos (Int.natCast_nonneg i), Int.toNat_natCast, hget]

theorem storeSlot_append {a : List α} {i : Nat} (hi : a.length = i) (x y : α) (b : List α) :
    storeSlot (a ++ x :: b) i y = .returned (a ++ y :: b) := by
  have hlt : ((i : Nat) : Int) < ((a ++ x :: b).length : Int) := by
    rw [List.length_append, List.length_cons]
    omega
  rw [storeSlot, if_pos ⟨Int.natCast_nonneg i, hlt⟩, Int.toNat_natCast,
    List.set_append_right _ _ hi.le, hi, Nat.sub_self, List.set_cons_zero]

/-- The slots behind one are moved over it. -/
theorem moveSlots_down (a : List α) (x : α) (s b : List α) :
    ∃ rest, moveSlots (a ++ x :: (s ++ b)) a.length (a.length + 1 : Nat) s.length =
      .returned (a ++ (s ++ rest)) ∧ rest.length = b.length + 1 := by
  cases s with
  | nil => exact ⟨x :: b, rfl, rfl⟩
  | cons y s =>
      have hlen : (a ++ x :: (y :: s ++ b)).length = a.length + (1 + ((y :: s).length + b.length)) := by
        rw [List.length_append, List.length_cons, List.length_append]
        omega
      have hpos : 0 < (y :: s).length := Nat.succ_pos _
      have hmoved : (((a ++ x :: (y :: s ++ b)).drop (a.length + 1)).take (y :: s).length) = y :: s := by
        rw [List.drop_length_add_append, List.drop_succ_cons, List.drop_zero, List.take_left]
      have hover := overwrite_append a (x :: (y :: s ++ b)) 0 (y :: s)
      rw [Nat.add_zero] at hover
      refine ⟨(x :: (y :: s ++ b)).drop (y :: s).length, ?_, ?_⟩
      · rw [moveSlots, if_neg (by omega), if_pos (by rw [hlen]; omega), Int.toNat_natCast,
          Int.toNat_natCast, Int.toNat_natCast, hmoved, hover, overwrite, List.take_zero,
          List.nil_append, Nat.zero_add]
      · rw [List.length_drop, List.length_cons, List.length_append]
        omega

end

/-- An array with bytes stored at `off`. -/
def CField.store {n : Nat} (f : CField n) (off : Int) (bs : Bytes) : Outcome (CField n) :=
  if h : 0 ≤ off ∧ off + bs.length ≤ n then
    .returned ⟨overwrite f.bytes off.toNat bs, by
      rw [length_overwrite (by rw [f.size_eq]; omega), f.size_eq]
      omega⟩
  else .fault

theorem CField.store_bytes {n : Nat} (f : CField n) (off : Nat) (bs : Bytes)
    (h : off + bs.length ≤ n) :
    ∃ g, f.store off bs = .returned g ∧ g.bytes = overwrite f.bytes off bs := by
  rw [CField.store, dif_pos ⟨by omega, by omega⟩]
  exact ⟨_, rfl, rfl⟩

end CLib
