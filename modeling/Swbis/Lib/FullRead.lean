import Swbis.Lib.Descriptor

/-!
# Reads until a buffer is full

A read can give less than it is asked for.  `Source.fill` reads on until there are
as many bytes as wanted, or until a read gives none.  If no read fails it has the next
bytes, all that are wanted or all there are, however the reads cut them; that is
`Source.fill_cases`.

A `FullReader` is anything that is read in this way.  The kinds differ in what they
give when there are fewer bytes than wanted: all of them, or none.
-/

namespace CLib

namespace Source

theorem length_read {fd : Source} {size : Nat} (h : 0 < (fd.read size).1) :
    ((fd.read size).2.1.length : Int) = (fd.read size).1 ∧
      (fd.read size).2.2.rest.length < fd.rest.length := by
  have hle := fd.pattern.read_le_length fd.reads size fd.rest
  change ((fd.rest.take _).length : Int) = fd.pattern.read fd.reads size fd.rest ∧
    (fd.rest.drop _).length < fd.rest.length
  change 0 < fd.pattern.read fd.reads size fd.rest at h
  rw [List.length_take, List.length_drop]
  omega

/-- Read until there are `size` bytes or a read gives none, with the bytes `got`
already there: the result of the last read, the bytes, and the descriptor. -/
def fill (size : Nat) (fd : Source) (got : Bytes) : Int × Bytes × Source :=
  let r := fd.read (size - got.length)
  if (got ++ r.2.1).length < size ∧ 0 < r.1 then fill size r.2.2 (got ++ r.2.1)
  else (r.1, got ++ r.2.1, r.2.2)
termination_by fd.rest.length
decreasing_by
  next h => exact (length_read h.2).2

theorem length_rest_read_le (fd : Source) (size : Nat) :
    (fd.read size).2.2.rest.length ≤ fd.rest.length := by
  change (fd.rest.drop _).length ≤ fd.rest.length
  rw [List.length_drop]
  exact Nat.sub_le _ _

theorem length_rest_fill_le (size : Nat) (fd : Source) (got : Bytes) :
    (fill size fd got).2.2.rest.length ≤ fd.rest.length := by
  induction fd, got using fill.induct size with
  | case1 fd got r hmore ih =>
      rw [fill, if_pos hmore]
      exact Nat.le_trans ih (length_rest_read_le fd _)
  | case2 fd got r hdone =>
      rw [fill, if_neg hdone]
      exact length_rest_read_le fd _

/-- If the last read gives some bytes there are fewer left. -/
theorem length_rest_fill_lt {size : Nat} {fd : Source} {got : Bytes}
    (h : 0 < (fill size fd got).1) : (fill size fd got).2.2.rest.length < fd.rest.length := by
  rw [fill] at h ⊢
  split at h
  next hmore =>
    rw [if_pos hmore]
    exact Nat.lt_of_le_of_lt (length_rest_fill_le _ _ _) (length_read hmore.2).2
  next hdone =>
    rw [if_neg hdone]
    exact (length_read h).2

/-- A read fails, or it gives some of the bytes; it gives none only if there are
none. -/
theorem read_cases (fd : Source) (size : Nat) :
    (fd.read size).1 < 0 ∨ ∃ n : Nat, n ≤ size ∧ n ≤ fd.rest.length ∧
      (n = 0 → size = 0 ∨ fd.rest = []) ∧ (fd.read size).1 = n ∧
      (fd.read size).2.1 = fd.rest.take n ∧ (fd.read size).2.2.rest = fd.rest.drop n := by
  have hne := fd.pattern.gives_ne fd.reads
  have hread : fd.pattern.read fd.reads size fd.rest =
      min (fd.pattern.gives fd.reads) (min size fd.rest.length : Nat) := rfl
  by_cases hneg : (fd.read size).1 < 0
  · exact .inl hneg
  · change ¬fd.pattern.read fd.reads size fd.rest < 0 at hneg
    refine .inr ⟨(fd.pattern.read fd.reads size fd.rest).toNat, by omega, by omega, ?_, ?_, rfl,
      rfl⟩
    · intro hzero
      rw [← List.length_eq_zero_iff]
      omega
    · change fd.pattern.read fd.reads size fd.rest = _
      omega

/-- A read fails, or the next bytes are read, all that are wanted or all there are.
Then the last read gives some exactly if all that are wanted are there. -/
theorem fill_cases {fd : Source} {size : Nat} {got : Bytes} (hlt : got.length < size) :
    (fill size fd got).1 < 0 ∨
      ∃ n fd', fill size fd got = (n, got ++ fd.rest.take (size - got.length), fd') ∧ 0 ≤ n ∧
        (0 < n ↔ size ≤ got.length + fd.rest.length) ∧
        fd'.rest = fd.rest.drop (size - got.length) := by
  rw [fill]
  rcases read_cases fd (size - got.length) with hneg |
    ⟨n, hsize, hlen, hzero, hret, hbytes, hrest⟩
  · rw [if_neg (by omega)]
    exact .inl hneg
  have htake : (fd.rest.take n).length = n := by
    rw [List.length_take]
    omega
  rw [hret, hbytes]
  split
  next hmore =>
    -- a part has been read
    have hpos : 0 < n := by omega
    have hgot : (got ++ fd.rest.take n).length = got.length + n := by
      rw [List.length_append, htake]
    rcases fill_cases hmore.1 with hneg | ⟨m, fd', hfill, hnonneg, hiff, hdrop⟩
    · exact .inl hneg
    have hwant : size - (got.length + n) = size - got.length - n := by omega
    have hall : size - got.length = n + (size - got.length - n) := by omega
    rw [hgot, hrest] at hiff hdrop hfill
    rw [List.length_drop] at hiff
    refine .inr ⟨m, fd', ?_, hnonneg, by omega, ?_⟩
    · rw [hfill, hwant, List.append_assoc, ← List.take_add, ← hall]
    · rw [hdrop, hwant, List.drop_drop, ← hall]
  next hdone =>
    rw [List.length_append, htake] at hdone
    have hcut : fd.rest.take n = fd.rest.take (size - got.length) ∧
        fd.rest.drop n = fd.rest.drop (size - got.length) := by
      rcases Nat.lt_or_ge n (size - got.length) with hshort | hfull
      · have hnil : fd.rest = [] := by
          rcases hzero (by omega) with hnone | hnil
          · omega
          · exact hnil
        rw [hnil]
        simp
      · have heq : n = size - got.length := by omega
        rw [heq]
        exact ⟨rfl, rfl⟩
    refine .inr ⟨n, _, by rw [hcut.1], by omega, ?_, by rw [hrest, hcut.2]⟩
    constructor
    · intro hpos
      omega
    · intro hle
      by_contra hnone
      rcases hzero (by omega) with hsome | hnil
      · omega
      · rw [hnil, List.length_nil] at hle
        omega
termination_by fd.rest.length
decreasing_by
  rw [hrest, List.length_drop]
  omega

theorem failed_read (fd : Source) (size : Nat) :
    (fd.read size).2.2.failed = (fd.failed || decide ((fd.read size).1 < 0)) := rfl

/-- Only the last of the reads can fail. -/
theorem failed_fill (size : Nat) (fd : Source) (got : Bytes) :
    (fill size fd got).2.2.failed = (fd.failed || decide ((fill size fd got).1 < 0)) := by
  induction fd, got using fill.induct size with
  | case1 fd got r hmore ih =>
      have hfine : r.2.2.failed = fd.failed := by
        change (fd.failed || decide ((fd.read (size - got.length)).1 < 0)) = _
        rw [decide_eq_false (Int.not_lt.mpr (Int.le_of_lt hmore.2)), Bool.or_false]
      rw [fill, if_pos hmore, ih, hfine]
  | case2 fd got r hdone =>
      rw [fill, if_neg hdone]
      exact failed_read fd _

/-- No read fails. -/
def Reliable (fd : Source) : Prop := ∀ k, 0 < fd.pattern.gives k

theorem Reliable.read_nonneg {fd : Source} (h : fd.Reliable) (size : Nat) :
    0 ≤ (fd.read size).1 := by
  have hgives := h fd.reads
  change 0 ≤ min (fd.pattern.gives fd.reads) (min size fd.rest.length : Nat)
  omega

theorem Reliable.fill {fd : Source} (h : fd.Reliable) (size : Nat) (got : Bytes) :
    0 ≤ (fill size fd got).1 ∧ (Source.fill size fd got).2.2.Reliable := by
  induction fd, got using fill.induct size with
  | case1 fd got r hmore ih =>
      rw [Source.fill, if_pos hmore]
      exact ih h
  | case2 fd got r hdone =>
      rw [Source.fill, if_neg hdone]
      exact ⟨h.read_nonneg _, h⟩

/-- What is read from a descriptor whose reads do not fail. -/
theorem fill_spec {fd : Source} {size : Nat} {got : Bytes} (h : fd.Reliable)
    (hlt : got.length < size) :
    ∃ n fd', fill size fd got = (n, got ++ fd.rest.take (size - got.length), fd') ∧ 0 ≤ n ∧
      (0 < n ↔ size ≤ got.length + fd.rest.length) ∧
      fd'.rest = fd.rest.drop (size - got.length) ∧ fd'.Reliable := by
  obtain ⟨hnonneg, hrel⟩ := h.fill size got
  rcases @fill_cases fd size got hlt with hneg | ⟨n, fd', hfill, hn, hiff, hrest⟩
  · omega
  · rw [hfill] at hrel
    exact ⟨n, fd', hfill, hn, hiff, hrest, hrel⟩

end Source

/-! ## Readers that give all that is wanted -/

/-- What a read of `n` bytes gives.  If there are fewer, they are kept or lost. -/
def given (keeps : Bool) (n : Nat) (data : Bytes) : Bytes :=
  if n ≤ data.length ∨ keeps then data.take n else []

theorem length_given_le (keeps : Bool) (n : Nat) (data : Bytes) :
    (given keeps n data).length ≤ n ∧ (given keeps n data).length ≤ data.length := by
  rw [given]
  split
  · rw [List.length_take]
    omega
  · exact ⟨Nat.zero_le _, Nat.zero_le _⟩

/-- What reads of `size` bytes give until one gives none, or `want` bytes in all. -/
def delivered (keeps : Bool) (size : Nat) (want : Option Nat) (data : Bytes) : Bytes :=
  let whole := if keeps then data else data.take (data.length / size * size)
  match want with
  | none => whole
  | some w => if w ≤ data.length then data.take w else whole

/-- The data behind what is delivered. -/
def undelivered (want : Option Nat) (data : Bytes) : Bytes :=
  match want with
  | none => []
  | some w => data.drop w

section

variable {keeps : Bool} {size : Nat} {want : Option Nat} {data : Bytes}

theorem delivered_nil (keeps : Bool) (size : Nat) (want : Option Nat) :
    delivered keeps size want [] = [] := by
  cases want <;> simp [delivered]

/-- Whole pieces are all delivered. -/
theorem delivered_whole (hwhole : data.length % size = 0) :
    delivered keeps size none data = data := by
  rw [delivered]
  split
  · rfl
  · exact List.take_of_length_le (Nat.le_of_eq (Nat.div_mul_cancel
      (Nat.dvd_of_mod_eq_zero hwhole)).symm)

/-- The last of the bytes that are wanted. -/
theorem delivered_last {w : Nat} (hle : w ≤ data.length) :
    delivered keeps size (some w) data = given keeps w data := by
  rw [given, if_pos (.inl hle)]
  exact if_pos hle

/-- Fewer bytes than a read is asked for. -/
theorem delivered_short (hshort : data.length < size) (hwant : ∀ w ∈ want, data.length < w)
    (n : Nat) (hn : data.length < n) : delivered keeps size want data = given keeps n data := by
  have hwhole : (if keeps then data else data.take (data.length / size * size)) =
      given keeps n data := by
    rw [Nat.div_eq_of_lt hshort, Nat.zero_mul, List.take_zero, given]
    cases keeps with
    | false => rw [if_neg (by decide), if_neg (by simpa using hn)]
    | true => rw [if_pos rfl, if_pos (.inr rfl), List.take_of_length_le (by omega)]
  rw [← hwhole]
  cases want with
  | none => rfl
  | some w => exact if_neg (Nat.not_le.mpr (hwant w rfl))

/-- A full read, and what the next ones give. -/
theorem delivered_full (hpos : 0 < size) (hle : size ≤ data.length)
    (hwant : ∀ w ∈ want, size ≤ w) :
    delivered keeps size want data =
      data.take size ++ delivered keeps size (want.map (· - size)) (data.drop size) := by
  have hwhole : (if keeps then data else data.take (data.length / size * size)) =
      data.take size ++ if keeps then data.drop size
        else (data.drop size).take ((data.drop size).length / size * size) := by
    cases keeps with
    | false =>
        have hdiv : data.length / size * size = size + (data.length - size) / size * size := by
          have hone := Nat.div_eq_sub_div hpos hle
          rw [hone, Nat.succ_mul, Nat.add_comm]
        rw [if_neg (by decide), if_neg (by decide), List.length_drop, hdiv, List.take_add]
    | true => rw [if_pos rfl, if_pos rfl, List.take_append_drop]
  cases want with
  | none => exact hwhole
  | some w =>
      have hw := hwant w rfl
      rw [Option.map_some, delivered, delivered, List.length_drop]
      by_cases hall : w ≤ data.length
      · have hsplit : w = size + (w - size) := by omega
        rw [if_pos hall, if_pos (by omega), hsplit, List.take_add, Nat.add_sub_cancel_left]
      · have hmore : ¬w - size ≤ data.length - size := by omega
        rw [if_neg hall, if_neg hmore, hwhole, List.length_drop]

end

/-- A reader with the data behind it. -/
structure FullReader (σ : Type) where
  /-- A read: the value returned, the bytes, and the state after it. -/
  read : σ → Nat → Int × Bytes × σ
  /-- What is still to be read. -/
  rest : σ → Bytes
  /-- Whether a read gives the bytes there are if they are fewer than wanted. -/
  keeps : σ → Bool
  /-- No read fails. -/
  Sound : σ → Prop
  read_cases : ∀ s n, (read s n).1 < 0 ∧ ¬Sound s ∨
    (read s n).1 = (given (keeps s) n (rest s)).length ∧
      (read s n).2.1 = given (keeps s) n (rest s) ∧
      rest (read s n).2.2 = (rest s).drop n ∧ keeps (read s n).2.2 = keeps s ∧
      (Sound s → Sound (read s n).2.2)

/-- If a read gives some bytes there are fewer left. -/
theorem FullReader.length_rest_lt {σ : Type} (R : FullReader σ) {s : σ} {n : Nat}
    (h : 0 < (R.read s n).1) : (R.rest (R.read s n).2.2).length < (R.rest s).length := by
  rcases R.read_cases s n with ⟨hneg, -⟩ | ⟨hret, -, hrest, -⟩
  · omega
  · obtain ⟨hle, hlen⟩ := length_given_le (R.keeps s) n (R.rest s)
    rw [hrest, List.length_drop]
    omega

end CLib
