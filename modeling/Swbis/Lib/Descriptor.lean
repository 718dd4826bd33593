import Mathlib.Algebra.Group.Int.Defs
import Swbis.Lib.CString

/-!
# Descriptors with short reads and short writes

What the reads and the writes of a run report is a pattern, one result for each
call.  A `Source` is a descriptor that is read, a `Sink` one that is written.

`ReadPattern.chunks` are the pieces in which reads of one size give some data.
A run that moves them ends at the first piece that a write takes only in part:
`upToShort` are the pieces until then.
-/

namespace CLib

/-- What the underlying writes report, one after another.  A negative result is
an error; a write takes no more than `INT_MAX` bytes. -/
structure WritePattern where
  /-- The number of bytes that a write takes if it is given so many. -/
  takes : Nat → Int
  takes_lt : ∀ k, takes k < 2 ^ 31

/-- The `k`-th write: the value returned.  No more is taken than given. -/
def WritePattern.write (w : WritePattern) (k : Nat) (buf : Bytes) : Int :=
  min (w.takes k) buf.length

/-- What the underlying reads report, one after another.  A negative result is
an error; a read gives nothing only at the end of the data. -/
structure ReadPattern where
  /-- The number of bytes that a read gives if it is asked for so many. -/
  gives : Nat → Int
  gives_ne : ∀ k, gives k ≠ 0

/-- The result of the `k`-th read, of `size` bytes at most. -/
def ReadPattern.read (r : ReadPattern) (k size : Nat) (data : Bytes) : Int :=
  min (r.gives k) (min size data.length : Nat)

/-- A descriptor that is read. -/
structure Source where
  pattern : ReadPattern
  /-- The number of reads so far. -/
  reads : Nat
  /-- What is still to be read. -/
  rest : Bytes
  /-- A read has failed. -/
  failed : Bool

/-- A read: the value returned, the bytes, and the descriptor after it. -/
def Source.read (s : Source) (size : Nat) : Int × Bytes × Source :=
  let n := s.pattern.read s.reads size s.rest
  (n, s.rest.take n.toNat,
    { s with reads := s.reads + 1, rest := s.rest.drop n.toNat, failed := s.failed || n < 0 })

/-- A descriptor that is written. -/
structure Sink where
  pattern : WritePattern
  /-- The number of writes so far. -/
  writes : Nat
  out : Bytes

/-- A write: the value returned, and the descriptor after it. -/
def Sink.write (s : Sink) (buf : Bytes) : Int × Sink :=
  let n := s.pattern.write s.writes buf
  (n, { s with writes := s.writes + 1, out := s.out ++ buf.take n.toNat })

/-- A descriptor opened for reading. -/
def Source.opened (pattern : ReadPattern) (data : Bytes) : Source := ⟨pattern, 0, data, false⟩

/-- A descriptor opened for writing. -/
def Sink.opened (pattern : WritePattern) : Sink := ⟨pattern, 0, []⟩

/-! ## Writes of one amount -/

/-- The writes from the `k`-th on take bytes, but one of them takes none before
`n` bytes are taken. -/
inductive WritePattern.Stalls (w : WritePattern) : Nat → Int → Prop where
  | now {k : Nat} {n : Int} : w.takes k ≤ 0 → w.Stalls k n
  | later {k : Nat} {n : Int} : 0 < w.takes k → w.takes k < n → w.Stalls (k + 1) (n - w.takes k) →
      w.Stalls k n

namespace WritePattern

variable {w : WritePattern}

/-- After a write that takes a part, the rest decides. -/
theorem stalls_iff {k : Nat} {n : Int} (hpos : 0 < w.takes k) (hlt : w.takes k < n) :
    w.Stalls k n ↔ w.Stalls (k + 1) (n - w.takes k) := by
  constructor
  · intro h
    cases h with
    | now hle => omega
    | later _ _ h => exact h
  · exact .later hpos hlt

/-- A write that takes everything does not stall. -/
theorem not_stalls {k : Nat} {n : Int} (hn : 0 < n) (hle : n ≤ w.takes k) :
    ¬w.Stalls k n := by
  intro h
  cases h with
  | now h => omega
  | later _ h _ => omega

end WritePattern

/-! ## Pieces -/

/-- The pieces of the data that reads of `size` bytes give, from the `k`-th read
on, up to the end or a read that fails. -/
def ReadPattern.chunks (r : ReadPattern) (size k : Nat) (data : Bytes) : List Bytes :=
  if 0 < r.read k size data then
    data.take (r.read k size data).toNat ::
      r.chunks size (k + 1) (data.drop (r.read k size data).toNat)
  else []
termination_by data.length
decreasing_by
  rw [List.length_drop]
  rw [ReadPattern.read] at *
  omega

namespace ReadPattern

variable {r : ReadPattern} {size k : Nat} {data : Bytes}

theorem chunks_of_pos (h : 0 < r.read k size data) :
    r.chunks size k data = data.take (r.read k size data).toNat ::
      r.chunks size (k + 1) (data.drop (r.read k size data).toNat) := by
  rw [chunks, if_pos h]

theorem chunks_of_nonpos (h : r.read k size data ≤ 0) : r.chunks size k data = [] := by
  rw [chunks, if_neg (Int.not_lt.mpr h)]

theorem read_le_length (r : ReadPattern) (k size : Nat) (data : Bytes) :
    r.read k size data ≤ data.length := by
  rw [read]
  omega

/-- A read that does not fail gives nothing at the end only. -/
theorem read_pos_iff (hsize : 0 < size) : 0 < r.read k size data ↔ 0 < r.gives k ∧ data ≠ [] := by
  rw [read, ← List.length_pos_iff]
  omega

/-- No piece is empty. -/
theorem ne_nil_of_mem_chunks {c : Bytes} (h : c ∈ r.chunks size k data) : c ≠ [] := by
  induction k, data using chunks.induct r size with
  | case1 k data hpos ih =>
      have hle := r.read_le_length k size data
      rw [chunks_of_pos hpos] at h
      rcases List.mem_cons.mp h with heq | hmem
      · rw [heq, ← List.length_pos_iff, List.length_take]
        omega
      · exact ih hmem
  | case2 k data hnone =>
      rw [chunks_of_nonpos (by omega)] at h
      exact absurd h List.not_mem_nil

/-- A piece is no longer than what is asked for. -/
theorem length_le_of_mem_chunks {c : Bytes} (h : c ∈ r.chunks size k data) : c.length ≤ size := by
  induction k, data using chunks.induct r size with
  | case1 k data hpos ih =>
      rw [chunks_of_pos hpos] at h
      rcases List.mem_cons.mp h with heq | hmem
      · have hle : r.read k size data ≤ size := by
          rw [read]
          omega
        rw [heq, List.length_take]
        omega
      · exact ih hmem
  | case2 k data hnone =>
      rw [chunks_of_nonpos (by omega)] at h
      exact absurd h List.not_mem_nil

/-- The pieces make up a beginning of the data. -/
theorem flatten_chunks (r : ReadPattern) (size k : Nat) (data : Bytes) :
    (r.chunks size k data).flatten = data.take (r.chunks size k data).flatten.length := by
  induction k, data using chunks.induct r size with
  | case1 k data h ih =>
      have hle := r.read_le_length k size data
      rw [chunks_of_pos h, List.flatten_cons, List.length_append, List.length_take,
        Nat.min_eq_left (by omega), List.take_add, ← ih]
  | case2 k data h => rw [chunks_of_nonpos (by omega), List.flatten_nil, List.length_nil, List.take_zero]

/-- Without an error at their end the pieces make up the data. -/
theorem flatten_chunks_of_pos (hsize : 0 < size)
    (h : 0 < r.gives (k + (r.chunks size k data).length)) :
    (r.chunks size k data).flatten = data := by
  induction k, data using chunks.induct r size with
  | case1 k data hpos ih =>
      rw [chunks_of_pos hpos, List.length_cons, ← Nat.add_assoc, Nat.add_right_comm] at h
      rw [chunks_of_pos hpos, List.flatten_cons, ih h, List.take_append_drop]
  | case2 k data hnone =>
      rw [chunks_of_nonpos (by omega)] at h ⊢
      rw [read_pos_iff hsize, not_and, not_not] at hnone
      rw [hnone h, List.flatten_nil]

end ReadPattern

/-! ## Pieces that a write takes only in part -/

/-- The `k`-th write does not take all of the bytes. -/
def WritePattern.Short (w : WritePattern) (k : Nat) (c : Bytes) : Prop := w.takes k < c.length

instance (w : WritePattern) (k : Nat) (c : Bytes) : Decidable (w.Short k c) :=
  inferInstanceAs (Decidable (_ < _))

section

variable (short : Nat → Bytes → Prop)

/-- One of the pieces is taken in part, the first one being the `k`-th. -/
def AnyShort : Nat → List Bytes → Prop
  | _, [] => False
  | k, c :: cs => short k c ∨ AnyShort (k + 1) cs

/-- The pieces up to the first one that is taken in part. -/
def upToShort [∀ k c, Decidable (short k c)] : Nat → List Bytes → List Bytes
  | _, [] => []
  | k, c :: cs => if short k c then [c] else c :: upToShort (k + 1) cs

variable {short}

theorem upToShort_of_not_anyShort [∀ k c, Decidable (short k c)] {k : Nat} {cs : List Bytes}
    (h : ¬AnyShort short k cs) : upToShort short k cs = cs := by
  induction cs generalizing k with
  | nil => rfl
  | cons c cs ih =>
      rw [AnyShort, not_or] at h
      rw [upToShort, if_neg h.1, ih h.2]

theorem mem_upToShort [∀ k c, Decidable (short k c)] {k : Nat} {cs : List Bytes} {c : Bytes}
    (h : c ∈ upToShort short k cs) : c ∈ cs := by
  induction cs generalizing k with
  | nil => exact h
  | cons c' cs ih =>
      rw [upToShort] at h
      split at h
      · rw [List.mem_singleton.mp h]
        exact List.mem_cons_self
      · rcases List.mem_cons.mp h with heq | hmem
        · rw [heq]
          exact List.mem_cons_self
        · exact List.mem_cons_of_mem _ (ih hmem)

theorem not_anyShort_false (k : Nat) (cs : List Bytes) : ¬AnyShort (fun _ _ => False) k cs := by
  induction cs generalizing k with
  | nil => exact id
  | cons c cs ih =>
      rw [AnyShort, not_or]
      exact ⟨id, ih (k + 1)⟩

theorem AnyShort.mono {short' : Nat → Bytes → Prop} (h : ∀ k c, short k c → short' k c) {k : Nat}
    {cs : List Bytes} (hany : AnyShort short k cs) : AnyShort short' k cs := by
  induction cs generalizing k with
  | nil => exact hany
  | cons c cs ih =>
      rcases hany with hc | hcs
      · exact .inl (h k c hc)
      · exact .inr (ih hcs)

end

namespace Sink

variable {fd : Sink}

/-- A write returns the number of bytes exactly when it is not short. -/
theorem write_fst_eq_iff (buf : Bytes) :
    (fd.write buf).1 = buf.length ↔ ¬fd.pattern.Short fd.writes buf := by
  change min (fd.pattern.takes fd.writes) (buf.length : Int) = buf.length ↔
    ¬fd.pattern.takes fd.writes < buf.length
  omega

/-- Write the pieces one after another. -/
def writeAll (fd : Sink) (cs : List Bytes) : Sink := cs.foldl (fun fd c => (fd.write c).2) fd

@[simp] theorem writeAll_nil : fd.writeAll [] = fd := rfl

@[simp] theorem writeAll_cons (c : Bytes) (cs : List Bytes) :
    fd.writeAll (c :: cs) = (fd.write c).2.writeAll cs := rfl

@[simp] theorem write_writes (c : Bytes) : (fd.write c).2.writes = fd.writes + 1 := rfl

@[simp] theorem write_pattern (c : Bytes) : (fd.write c).2.pattern = fd.pattern := rfl

theorem write_out (c : Bytes) :
    (fd.write c).2.out = fd.out ++ c.take (fd.pattern.write fd.writes c).toNat := rfl

theorem write_out_of_not_short {c : Bytes} (h : ¬fd.pattern.Short fd.writes c) :
    (fd.write c).2.out = fd.out ++ c := by
  have hall : fd.pattern.write fd.writes c = c.length := (write_fst_eq_iff c).mpr h
  rw [write_out, hall, Int.toNat_natCast, List.take_length]

/-- No more is written than given. -/
theorem length_writeAll_out_le (fd : Sink) (cs : List Bytes) :
    (fd.writeAll cs).out.length ≤ fd.out.length + cs.flatten.length := by
  induction cs generalizing fd with
  | nil => exact Nat.le_refl _
  | cons c cs ih =>
      have h := ih (fd.write c).2
      rw [write_out, List.length_append, List.length_take] at h
      rw [writeAll_cons, List.flatten_cons, List.length_append]
      omega

/-- The pieces arrive exactly when no write is short. -/
theorem writeAll_out_eq_iff {cs : List Bytes} (hne : ∀ c ∈ cs, c ≠ []) :
    (fd.writeAll cs).out = fd.out ++ cs.flatten ↔ ¬AnyShort fd.pattern.Short fd.writes cs := by
  induction cs generalizing fd with
  | nil => exact iff_of_true (List.append_nil _).symm id
  | cons c cs ih =>
      rw [writeAll_cons, List.flatten_cons, AnyShort, not_or]
      rcases Classical.em (fd.pattern.Short fd.writes c) with hshort | hfull
      · -- what one write leaves out no later write makes up for
        refine iff_of_false (fun h => ?_) (fun h => h.1 hshort)
        have hle := (fd.write c).2.length_writeAll_out_le cs
        have hlen := congrArg List.length h
        rw [write_out, List.length_append, List.length_take] at hle
        rw [List.length_append, List.length_append] at hlen
        have hpos : 0 < c.length := List.length_pos_iff.mpr (hne c List.mem_cons_self)
        have htook : fd.pattern.write fd.writes c < c.length := by
          rw [WritePattern.Short] at hshort
          rw [WritePattern.write]
          omega
        omega
      · have h := @ih (fd.write c).2 (fun c h => hne c (List.mem_cons_of_mem _ h))
        rw [write_out_of_not_short hfull, List.append_assoc] at h
        rw [h]
        exact (and_iff_right hfull).symm

end Sink

end CLib
