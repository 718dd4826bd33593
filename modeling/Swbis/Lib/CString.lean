import Mathlib.Data.List.TakeWhile
import Mathlib.Tactic.Common

/-!
# Memory, NUL-terminated strings and fixed-width fields

A pointer is modelled by the bytes of memory from the pointer on, so a pointer
moved by `n` is `mem.drop n`.  Reading a C string at a pointer takes the bytes
up to the first NUL.  The end of the list stands for a NUL.

A `CString` carries the proof that it holds no NUL, and a `CField n` the proof
that it holds exactly `n` bytes.  `CField.strncpy` is `strncpy` into a field,
and `CString.ofMem_strncpy_of_lt` and `CString.ofMem_strncpy_of_le` say what a
string read at such a field is.
-/

namespace CLib

/-- Bytes of memory, from a pointer on. -/
abbrev Bytes := List UInt8

/-- The bytes of a spelled-out text. -/
def chars (cs : List Char) : Bytes := cs.map fun c => UInt8.ofNat c.toNat

@[simp] theorem length_chars (cs : List Char) : (chars cs).length = cs.length := by
  simp [chars]

/-- The bytes of a string literal. -/
def literal (s : String) : Bytes := chars s.toList

/-! ## Runs that satisfy a test -/

theorem takeWhile_append_stop {α : Type} {p : α → Bool} {l : List α} (h : ∀ x ∈ l, p x = true)
    {y : α} (hy : p y = false) (r : List α) : (l ++ y :: r).takeWhile p = l := by
  rw [List.takeWhile_append_of_pos h, List.takeWhile_cons_of_neg (by simp [hy]), List.append_nil]

/-- What ends a run ends it wherever the run stops before. -/
theorem takeWhile_append_end {α : Type} {p : α → Bool} {y : α} (hy : p y = false)
    (xs rest : List α) : (xs ++ y :: rest).takeWhile p = xs.takeWhile p := by
  induction xs with
  | nil => exact List.takeWhile_cons_of_neg (by simp [hy])
  | cons x xs ih => simp only [List.cons_append, List.takeWhile_cons, ih]

theorem dropWhile_append_end {α : Type} {p : α → Bool} {y : α} (hy : p y = false)
    (xs rest : List α) : (xs ++ y :: rest).dropWhile p = xs.dropWhile p ++ y :: rest := by
  induction xs with
  | nil => exact List.dropWhile_cons_of_neg (by simp [hy])
  | cons x xs ih =>
      simp only [List.cons_append, List.dropWhile_cons, ih]
      split
      · rfl
      · rfl

theorem dropWhile_append_stop {α : Type} {p : α → Bool} {l : List α} (h : ∀ x ∈ l, p x = true)
    {y : α} (hy : p y = false) (r : List α) : (l ++ y :: r).dropWhile p = y :: r := by
  rw [List.dropWhile_append_of_pos h, List.dropWhile_cons_of_neg (by simp [hy])]

/-! ## C strings -/

/-- The bytes of a NUL-terminated string, without the terminator. -/
structure CString where
  /-- The bytes before the terminator. -/
  bytes : Bytes
  /-- None of them is the terminator. -/
  noNul : (0 : UInt8) ∉ bytes
deriving DecidableEq

namespace CString

@[ext] theorem ext {s t : CString} (h : s.bytes = t.bytes) : s = t := by
  cases s; cases t; cases h; rfl

/-- The string that starts at a pointer. -/
def ofMem (mem : Bytes) : CString where
  bytes := mem.takeWhile (· != 0)
  noNul := by
    intro h
    have := List.mem_takeWhile_imp h
    simp at this

/-- `""`. -/
def empty : CString := ⟨[], by simp⟩

instance : Inhabited CString := ⟨empty⟩

/-- `strlen`. -/
def strlen (s : CString) : Nat := s.bytes.length

@[simp] theorem bytes_empty : empty.bytes = [] := rfl

@[simp] theorem strlen_empty : empty.strlen = 0 := rfl

theorem strlen_eq_zero {s : CString} : s.strlen = 0 ↔ s = empty := by
  constructor
  · intro h
    exact ext (List.length_eq_zero_iff.mp h)
  · rintro rfl
    rfl

theorem ne_zero_of_mem (s : CString) : ∀ b ∈ s.bytes, (b != 0) = true := by
  intro b hb
  have : b ≠ 0 := fun h => s.noNul (h ▸ hb)
  simpa using this

/-- A string followed by more memory reads on into it. -/
theorem ofMem_append (s : CString) (mem : Bytes) :
    (ofMem (s.bytes ++ mem)).bytes = s.bytes ++ (ofMem mem).bytes :=
  List.takeWhile_append_of_pos s.ne_zero_of_mem

@[simp] theorem ofMem_append_nul (s : CString) (mem : Bytes) :
    ofMem (s.bytes ++ 0 :: mem) = s :=
  ext (takeWhile_append_stop s.ne_zero_of_mem (by decide) mem)

@[simp] theorem ofMem_bytes (s : CString) : ofMem s.bytes = s := by
  have h := ofMem_append s []
  simp only [List.append_nil] at h
  exact ext (by rw [h]; simp [ofMem])

@[simp] theorem ofMem_nil : ofMem [] = empty := rfl

@[simp] theorem ofMem_nul (mem : Bytes) : ofMem (0 :: mem) = empty := rfl

theorem length_ofMem_le (mem : Bytes) : (ofMem mem).strlen ≤ mem.length :=
  (List.takeWhile_prefix _).length_le

/-- The first `n` bytes of a string, as a string: writing a NUL at index `n`. -/
def take (n : Nat) (s : CString) : CString :=
  ⟨s.bytes.take n, fun h => s.noNul (List.mem_of_mem_take h)⟩

@[simp] theorem bytes_take (n : Nat) (s : CString) : (s.take n).bytes = s.bytes.take n := rfl

theorem strlen_take (n : Nat) (s : CString) : (s.take n).strlen = min n s.strlen := by
  simp [strlen]

theorem strlen_take_le (n : Nat) (s : CString) : (s.take n).strlen ≤ n := by
  rw [strlen_take]
  exact Nat.min_le_left _ _

theorem take_of_strlen_le {n : Nat} {s : CString} (h : s.strlen ≤ n) : s.take n = s :=
  ext (List.take_of_length_le h)

theorem take_ne_of_lt {n : Nat} {s : CString} (h : n < s.strlen) : s.take n ≠ s := by
  intro he
  have := strlen_take_le n s
  rw [he] at this
  omega

/-- A string ends at a NUL behind it, if it has not ended before. -/
theorem ofMem_append_end (mem rest : Bytes) : ofMem (mem ++ 0 :: rest) = ofMem mem :=
  ext (takeWhile_append_end (by decide) mem rest)

/-- Behind the end there may be more NULs. -/
theorem ofMem_append_nuls (mem : Bytes) (j : Nat) :
    ofMem (mem ++ List.replicate j 0) = ofMem mem := by
  induction mem with
  | nil =>
      cases j with
      | zero => rfl
      | succ j => rfl
  | cons b mem ih =>
      apply ext
      simp only [ofMem, CString.mk.injEq] at ih
      simp only [ofMem, List.cons_append, List.takeWhile_cons, ih]

/-- Up to its end a string is what stands in the memory. -/
theorem bytes_take_ofMem {mem : Bytes} {n : Nat} (hn : n ≤ (ofMem mem).strlen) :
    ((ofMem mem).take n).bytes = mem.take n := by
  obtain ⟨rest, hrest⟩ : (ofMem mem).bytes <+: mem := List.takeWhile_prefix _
  rw [bytes_take]
  conv_rhs => rw [← hrest]
  exact (List.take_append_of_le_length hn).symm

/-- A NUL written into a string ends it there. -/
theorem ofMem_set_nul {mem : Bytes} {n : Nat} (hn : n ≤ (ofMem mem).strlen)
    (hlt : n < mem.length) : ofMem (mem.set n 0) = (ofMem mem).take n := by
  rw [List.set_eq_take_append_cons_drop, if_pos hlt, ← bytes_take_ofMem hn, ofMem_append_nul]

/-- The string from index `n` on. -/
def drop (n : Nat) (s : CString) : CString :=
  ⟨s.bytes.drop n, fun h => s.noNul (List.mem_of_mem_drop h)⟩

@[simp] theorem bytes_drop (n : Nat) (s : CString) : (s.drop n).bytes = s.bytes.drop n := rfl

theorem strlen_drop (n : Nat) (s : CString) : (s.drop n).strlen = s.strlen - n := by
  simp [strlen]

/-- Two strings one after the other. -/
def append (s t : CString) : CString :=
  ⟨s.bytes ++ t.bytes, fun h => by
    rcases List.mem_append.mp h with hs | ht
    · exact s.noNul hs
    · exact t.noNul ht⟩

@[simp] theorem bytes_append (s t : CString) : (s.append t).bytes = s.bytes ++ t.bytes := rfl

@[simp] theorem strlen_append (s t : CString) :
    (s.append t).strlen = s.strlen + t.strlen := by
  simp [strlen]

end CString

/-! ## Fixed-width fields -/

/-- An array of exactly `n` bytes. -/
structure CField (n : Nat) where
  /-- The bytes. -/
  bytes : Bytes
  /-- There are `n` of them. -/
  size_eq : bytes.length = n
deriving DecidableEq

namespace CField

attribute [simp] CField.size_eq

@[ext] theorem ext {n : Nat} {f g : CField n} (h : f.bytes = g.bytes) : f = g := by
  cases f; cases g; cases h; rfl

/-- `memset (f, 0, n)`. -/
def zero (n : Nat) : CField n := ⟨List.replicate n 0, by simp⟩

/-- `strncpy (f, s, n)`: at most `n` bytes, padded with NULs. -/
def strncpy (n : Nat) (s : Bytes) : CField n :=
  ⟨s.take n ++ List.replicate (n - s.length) 0, by simp; omega⟩

/-- `strncpy (f, s, n)` followed by `f[n] = 0`, into a field of `n + 1` bytes. -/
def strncpyTerm (n : Nat) (s : Bytes) : CField (n + 1) :=
  ⟨(strncpy n s).bytes ++ [0], by simp⟩

@[simp] theorem bytes_zero (n : Nat) : (zero n).bytes = List.replicate n 0 := rfl

theorem bytes_strncpy (n : Nat) (s : Bytes) :
    (strncpy n s).bytes = s.take n ++ List.replicate (n - s.length) 0 := rfl

/-- What follows a field in memory is reached by stepping over its size. -/
theorem drop_append {n : Nat} (f : CField n) (k : Nat) (mem : Bytes) :
    (f.bytes ++ mem).drop (n + k) = mem.drop k := by
  rw [List.drop_append, List.drop_of_length_le (by simp)]
  simp

end CField

/-- A string shorter than its field is read back whole. -/
theorem CString.ofMem_strncpy_of_lt {n : Nat} {s : CString} (h : s.strlen < n) (mem : Bytes) :
    CString.ofMem ((CField.strncpy n s.bytes).bytes ++ mem) = s := by
  obtain ⟨k, hk⟩ : ∃ k, n - s.bytes.length = k + 1 := ⟨n - s.strlen - 1, by unfold strlen at *; omega⟩
  have ht : s.bytes.take n = s.bytes := List.take_of_length_le (by unfold strlen at h; omega)
  rw [CField.bytes_strncpy, hk, ht, List.replicate_succ]
  simp

/-- A string that fills its field is followed by whatever is behind the field. -/
theorem CString.ofMem_strncpy_of_le {n : Nat} {s : CString} (h : n ≤ s.strlen) (mem : Bytes) :
    (CString.ofMem ((CField.strncpy n s.bytes).bytes ++ mem)).bytes =
      s.bytes.take n ++ (CString.ofMem mem).bytes := by
  have hz : n - s.bytes.length = 0 := by unfold strlen at h; omega
  rw [CField.bytes_strncpy, hz, List.replicate_zero, List.append_nil]
  exact CString.ofMem_append (s.take n) mem

/-- `strncpy` out of a field, bounded by the size of the field. -/
theorem CString.ofMem_take_strncpy (n : Nat) (s : CString) (mem : Bytes) :
    CString.ofMem (((CField.strncpy n s.bytes).bytes ++ mem).take n) = s.take n := by
  rw [List.take_left' (by simp)]
  by_cases h : s.strlen < n
  · have := CString.ofMem_strncpy_of_lt h []
    rw [List.append_nil] at this
    rw [this, take_of_strlen_le (by omega)]
  · have := CString.ofMem_strncpy_of_le (s := s) (n := n) (by omega) []
    rw [List.append_nil] at this
    exact ext (by simpa using this)

/-- A string that fits its field is what the field holds. -/
theorem CString.ofMem_strncpy {n : Nat} {s : CString} (h : s.strlen ≤ n) :
    CString.ofMem (CField.strncpy n s.bytes).bytes = s := by
  have hread := CString.ofMem_take_strncpy n s []
  rw [List.append_nil, List.take_of_length_le (CField.size_eq _).le] at hread
  exact hread.trans (take_of_strlen_le h)

end CLib
