import Mathlib.Order.Lattice
import Swbis.Lib.FullRead
import Swbis.Taru.ReadTar

/-!
# The reads of a pump

`swlib_i_pipe_pump` is given the function that reads, `uxfio_read` or
`taru_tape_buffered_read`.  They differ in what they make of a short read.
`uxfio_read` gives what one read gives.  `taru_tape_buffered_read` reads until there
are as many bytes as wanted.  If they are not there it gives what there is on a
descriptor of uxfio, but on a plain descriptor `atomicio` returns 0 and they are lost.

`readRun` are the reads that a loop makes if no write ends it.  If none of them fails
then their pieces make up all that is wanted and there, except for the lost bytes;
that is `readRun_delivers`.
-/

namespace Swbis.Misc

open CLib

/-- `SWLIB_PIPE_BUF` -/
def swlibPipeBuf : Nat := 512

/-! ## The functions that read -/

/-- `atomicio (read, fd, buf, nbyte)`.  No more is wanted than it reads at once. -/
def uxfioUnixAtomicRead (fd : Source) (nbyte : Nat) : Int × Bytes × Source :=
  if nbyte = 0 then (0, [], fd)
  else
    let r := fd.fill nbyte []
    if r.1 < 0 then (-1, [], r.2.2)
    else if r.1 = 0 then (0, [], r.2.2)
    else (r.2.1.length, r.2)

/-- `uxfio_common_safe_read` -/
def uxfioCommonSafeRead (fd : Source) (nbyte : Nat) : Int × Bytes × Source :=
  if nbyte = 0 then (0, [], fd)
  else
    let r := fd.fill nbyte []
    if r.1 < 0 then (r.1, [], r.2.2) else (r.2.1.length, r.2)

/-- What is passed as `thisfpread`. -/
inductive FpRead where
  | uxfioRead
  /-- The kind is that of the descriptor that is read. -/
  | taruTapeBufferedRead (kind : Taru.FdKind)

namespace FpRead

/-- `(*thisfpread)(fd, buf, nbyte)` -/
def read (f : FpRead) (fd : Source) (nbyte : Nat) : Int × Bytes × Source :=
  match f with
  | .uxfioRead => fd.read nbyte
  | .taruTapeBufferedRead .unix => uxfioUnixAtomicRead fd nbyte
  | .taruTapeBufferedRead .uxfio => uxfioCommonSafeRead fd nbyte

/-- Bytes that are fewer than wanted are given, and not lost. -/
def keeps : FpRead → Bool
  | .uxfioRead => true
  | .taruTapeBufferedRead kind => kind = .uxfio

end FpRead

/-- What a read with the result `n` gives of the bytes `rest`. -/
structure ReadGives (keeps : Bool) (size : Nat) (rest : Bytes) (n : Nat) (buf after : Bytes) :
    Prop where
  le_size : n ≤ size
  le_length : n ≤ rest.length
  buf : buf = rest.take n
  after : 0 < n → after = rest.drop n
  /-- Nothing is given only if nothing is there, or not enough. -/
  nothing : n = 0 → 0 < size → rest.length < size ∧ (keeps → rest = [])
  whole : ¬keeps → 0 < n → n = size

section

variable {fd : Source} {size : Nat}

/-- Nothing is wanted. -/
theorem readGives_zero (keeps : Bool) (rest : Bytes) : ReadGives keeps 0 rest 0 [] rest where
  le_size := le_refl 0
  le_length := Nat.zero_le _
  buf := rfl
  after h := absurd h (lt_irrefl 0)
  nothing _ h := absurd h (lt_irrefl 0)
  whole _ h := absurd h (lt_irrefl 0)

/-- One read. -/
theorem read_gives (fd : Source) (size : Nat) :
    (fd.read size).1 < 0 ∨ ∃ n : Nat, (fd.read size).1 = n ∧
      ReadGives true size fd.rest n (fd.read size).2.1 (fd.read size).2.2.rest := by
  rcases fd.read_cases size with hneg | ⟨n, hsize, hlen, hzero, hret, hbytes, hrest⟩
  · exact .inl hneg
  refine .inr ⟨n, hret, hsize, hlen, hbytes, fun _ => hrest, fun hn hpos => ?_,
    fun h => absurd rfl h⟩
  have hnil : fd.rest = [] := (hzero hn).resolve_left (Nat.pos_iff_ne_zero.mp hpos)
  rw [hnil]
  exact ⟨hpos, fun _ => rfl⟩

/-- Reads until there is enough, and the bytes are lost if there is not. -/
theorem uxfioUnixAtomicRead_gives (fd : Source) (size : Nat) :
    (uxfioUnixAtomicRead fd size).1 < 0 ∨ ∃ n : Nat, (uxfioUnixAtomicRead fd size).1 = n ∧
      ReadGives false size fd.rest n (uxfioUnixAtomicRead fd size).2.1
        (uxfioUnixAtomicRead fd size).2.2.rest := by
  rcases Nat.eq_zero_or_pos size with hzero | hpos
  · rw [uxfioUnixAtomicRead, if_pos hzero, hzero]
    exact .inr ⟨0, rfl, readGives_zero false fd.rest⟩
  rw [uxfioUnixAtomicRead, if_neg (Nat.pos_iff_ne_zero.mp hpos)]
  rcases @Source.fill_cases fd size [] hpos with hneg | ⟨m, fd', hfill, hm, hiff, hrest⟩
  · refine .inl ?_
    dsimp only
    rw [if_pos hneg]
    exact Int.negSucc_lt_zero 0
  rw [List.length_nil, Nat.sub_zero, List.nil_append] at hfill
  rw [List.length_nil, Nat.zero_add] at hiff
  rw [hfill]
  dsimp only
  rw [if_neg (not_lt.mpr hm)]
  split
  next hnone =>
    -- not enough
    refine .inr ⟨0, rfl, Nat.zero_le _, Nat.zero_le _, rfl, fun h => absurd h (lt_irrefl 0),
      fun _ _ => ⟨?_, nofun⟩, fun _ h => absurd h (lt_irrefl 0)⟩
    by_contra hle
    have hsome := hiff.mpr (not_lt.mp hle)
    omega
  next hsome =>
    have hle : size ≤ fd.rest.length := hiff.mp (by omega)
    have hlen : (fd.rest.take size).length = size := List.length_take_of_le hle
    rw [hlen]
    exact .inr ⟨size, rfl, le_refl _, hle, rfl, fun _ => hrest, fun h => by omega, fun _ _ => rfl⟩

/-- Reads until there is enough, or nothing more. -/
theorem uxfioCommonSafeRead_gives (fd : Source) (size : Nat) :
    (uxfioCommonSafeRead fd size).1 < 0 ∨ ∃ n : Nat, (uxfioCommonSafeRead fd size).1 = n ∧
      ReadGives true size fd.rest n (uxfioCommonSafeRead fd size).2.1
        (uxfioCommonSafeRead fd size).2.2.rest := by
  rcases Nat.eq_zero_or_pos size with hzero | hpos
  · rw [uxfioCommonSafeRead, if_pos hzero, hzero]
    exact .inr ⟨0, rfl, readGives_zero true fd.rest⟩
  rw [uxfioCommonSafeRead, if_neg (Nat.pos_iff_ne_zero.mp hpos)]
  rcases @Source.fill_cases fd size [] hpos with hneg | ⟨m, fd', hfill, hm, -, hrest⟩
  · refine .inl ?_
    dsimp only
    rw [if_pos hneg]
    exact hneg
  rw [List.length_nil, Nat.sub_zero, List.nil_append] at hfill
  rw [List.length_nil, Nat.sub_zero] at hrest
  rw [hfill]
  dsimp only
  rw [if_neg (not_lt.mpr hm)]
  have hlen : (fd.rest.take size).length = min size fd.rest.length := List.length_take
  refine .inr ⟨_, rfl, ?_, ?_, ?_, fun _ => ?_, fun hnone hsize => ?_, fun h => absurd rfl h⟩
  · omega
  · omega
  · rw [List.take_eq_take_iff]
    omega
  · rw [hrest, List.drop_eq_drop_iff]
    omega
  · have hnil : fd.rest = [] := List.length_eq_zero_iff.mp (by omega)
    rw [hnil]
    exact ⟨hsize, fun _ => rfl⟩

/-- Whatever function reads, a read fails or gives the next bytes. -/
theorem FpRead.read_gives (f : FpRead) (fd : Source) (size : Nat) :
    (f.read fd size).1 < 0 ∨ ∃ n : Nat, (f.read fd size).1 = n ∧
      ReadGives f.keeps size fd.rest n (f.read fd size).2.1 (f.read fd size).2.2.rest := by
  cases f with
  | uxfioRead => exact Misc.read_gives fd size
  | taruTapeBufferedRead kind =>
      cases kind with
      | unix => exact uxfioUnixAtomicRead_gives fd size
      | uxfio => exact uxfioCommonSafeRead_gives fd size

theorem failed_uxfioUnixAtomicRead (fd : Source) (size : Nat) :
    (uxfioUnixAtomicRead fd size).2.2.failed =
      (fd.failed || decide ((uxfioUnixAtomicRead fd size).1 < 0)) := by
  rw [uxfioUnixAtomicRead]
  split
  · exact (Bool.or_false _).symm
  dsimp only
  have hfill := Source.failed_fill size fd []
  split
  next hneg => rw [hfill, decide_eq_true hneg]; rfl
  next hneg =>
    rw [decide_eq_false hneg] at hfill
    split
    · exact hfill
    · rw [decide_eq_false (not_lt.mpr (Int.natCast_nonneg _))]
      exact hfill

theorem failed_uxfioCommonSafeRead (fd : Source) (size : Nat) :
    (uxfioCommonSafeRead fd size).2.2.failed =
      (fd.failed || decide ((uxfioCommonSafeRead fd size).1 < 0)) := by
  rw [uxfioCommonSafeRead]
  split
  · exact (Bool.or_false _).symm
  dsimp only
  have hfill := Source.failed_fill size fd []
  split
  next hneg => exact hfill
  next hneg =>
    rw [decide_eq_false hneg] at hfill
    rw [decide_eq_false (not_lt.mpr (Int.natCast_nonneg _))]
    exact hfill

/-- A read of the descriptor has failed if the result is negative. -/
theorem FpRead.failed_read (f : FpRead) (fd : Source) (size : Nat) :
    (f.read fd size).2.2.failed = (fd.failed || decide ((f.read fd size).1 < 0)) := by
  cases f with
  | uxfioRead => exact Source.failed_read fd size
  | taruTapeBufferedRead kind =>
      cases kind with
      | unix => exact failed_uxfioUnixAtomicRead fd size
      | uxfio => exact failed_uxfioCommonSafeRead fd size

/-- A read that gives bytes. -/
theorem FpRead.read_pos {f : FpRead} (h : 0 < (f.read fd size).1) :
    ((f.read fd size).2.1.length : Int) = (f.read fd size).1 ∧
      (f.read fd size).2.1 = fd.rest.take (f.read fd size).2.1.length ∧
      (f.read fd size).2.2.rest = fd.rest.drop (f.read fd size).2.1.length ∧
      (f.read fd size).2.1.length ≤ size ∧ (f.read fd size).2.1.length ≤ fd.rest.length := by
  rcases f.read_gives fd size with hneg | ⟨n, hret, hgives⟩
  · omega
  have hlen : (f.read fd size).2.1.length = n := by
    rw [hgives.buf]
    exact List.length_take_of_le hgives.le_length
  rw [hlen]
  exact ⟨hret.symm, hgives.buf, hgives.after (by omega), hgives.le_size, hgives.le_length⟩

/-- A read that gives bytes leaves fewer. -/
theorem FpRead.length_rest_lt {f : FpRead} (h : 0 < (f.read fd size).1) :
    (f.read fd size).2.2.rest.length < fd.rest.length := by
  obtain ⟨hlen, -, hrest, -, hle⟩ := FpRead.read_pos h
  rw [hrest, List.length_drop]
  omega

/-- If no read of the descriptor fails, none of the functions does. -/
theorem FpRead.read_reliable (f : FpRead) (h : fd.Reliable) (size : Nat) :
    0 ≤ (f.read fd size).1 ∧ (f.read fd size).2.2.Reliable := by
  have hfill := h.fill size []
  cases f with
  | uxfioRead => exact ⟨h.read_nonneg size, h⟩
  | taruTapeBufferedRead kind =>
      cases kind with
      | unix =>
          change 0 ≤ (uxfioUnixAtomicRead fd size).1 ∧
            (uxfioUnixAtomicRead fd size).2.2.Reliable
          rw [uxfioUnixAtomicRead]
          split
          · exact ⟨le_refl 0, h⟩
          · rw [if_neg (not_lt.mpr hfill.1)]
            split
            · exact ⟨le_refl 0, hfill.2⟩
            · exact ⟨Int.natCast_nonneg _, hfill.2⟩
      | uxfio =>
          change 0 ≤ (uxfioCommonSafeRead fd size).1 ∧
            (uxfioCommonSafeRead fd size).2.2.Reliable
          rw [uxfioCommonSafeRead]
          split
          · exact ⟨le_refl 0, h⟩
          · rw [if_neg (not_lt.mpr hfill.1)]
            exact ⟨Int.natCast_nonneg _, hfill.2⟩

end

/-! ## The reads of a loop -/

/-- The size of a read if `want` bytes are still wanted, or all there are. -/
def askSize : Option Nat → Nat
  | none => swlibPipeBuf
  | some w => min swlibPipeBuf w

/-- What the reads of a loop come to. -/
structure ReadRun where
  pieces : List Bytes
  /-- The result of the read that ends them, 0 if all that are wanted are read. -/
  last : Int
  /-- The descriptor after them. -/
  suction : Source

/-- A piece, and the reads behind it. -/
def ReadRun.cons (buf : Bytes) (r : ReadRun) : ReadRun := { r with pieces := buf :: r.pieces }

/-- The reads of a loop that moves `want` bytes, or all there are. -/
def readRun (f : FpRead) (want : Option Nat) (fd : Source) : ReadRun :=
  let r := f.read fd (askSize want)
  if 0 < r.1 then
    if want = some r.2.1.length then ⟨[r.2.1], 0, r.2.2⟩
    else
      (readRun f (want.map (· - r.2.1.length)) r.2.2).cons r.2.1
  else ⟨[], r.1, r.2.2⟩
termination_by fd.rest.length
decreasing_by
  next h _ => exact FpRead.length_rest_lt h

section

variable {f : FpRead} {want : Option Nat} {fd : Source}

theorem readRun_none (h : (f.read fd (askSize want)).1 ≤ 0) :
    readRun f want fd =
      ⟨[], (f.read fd (askSize want)).1, (f.read fd (askSize want)).2.2⟩ := by
  rw [readRun, if_neg (not_lt.mpr h)]

theorem readRun_last (h : 0 < (f.read fd (askSize want)).1)
    (hall : want = some (f.read fd (askSize want)).2.1.length) :
    readRun f want fd =
      ⟨[(f.read fd (askSize want)).2.1], 0, (f.read fd (askSize want)).2.2⟩ := by
  rw [readRun, if_pos h, if_pos hall]

theorem readRun_more (h : 0 < (f.read fd (askSize want)).1)
    (hmore : want ≠ some (f.read fd (askSize want)).2.1.length) :
    readRun f want fd =
      (readRun f (want.map (· - (f.read fd (askSize want)).2.1.length))
        (f.read fd (askSize want)).2.2).cons (f.read fd (askSize want)).2.1 := by
  rw [readRun, if_pos h, if_neg hmore]

theorem readRun_last_nonpos (f : FpRead) (want : Option Nat) (fd : Source) :
    (readRun f want fd).last ≤ 0 := by
  induction want, fd using readRun.induct f with
  | case1 want fd r hpos hall => rw [readRun_last hpos hall]
  | case2 want fd r hpos hmore ih =>
      rw [readRun_more hpos hmore]
      exact ih
  | case3 want fd r hnone =>
      rw [readRun_none (not_lt.mp hnone)]
      exact not_lt.mp hnone

theorem readRun_last_nonneg (f : FpRead) (want : Option Nat) {fd : Source} (h : fd.Reliable) :
    0 ≤ (readRun f want fd).last := by
  induction want, fd using readRun.induct f with
  | case1 want fd r hpos hall => rw [readRun_last hpos hall]
  | case2 want fd r hpos hmore ih =>
      rw [readRun_more hpos hmore]
      exact ih (f.read_reliable h _).2
  | case3 want fd r hnone =>
      rw [readRun_none (not_lt.mp hnone)]
      exact (f.read_reliable h _).1

/-- The descriptor has failed exactly if the last read did. -/
theorem failed_readRun (f : FpRead) (want : Option Nat) (fd : Source) :
    (readRun f want fd).suction.failed = (fd.failed || decide ((readRun f want fd).last < 0)) := by
  have hfine {want : Option Nat} {fd : Source} (h : 0 < (f.read fd (askSize want)).1) :
      (f.read fd (askSize want)).2.2.failed = fd.failed := by
    rw [f.failed_read, decide_eq_false (not_lt.mpr h.le), Bool.or_false]
  induction want, fd using readRun.induct f with
  | case1 want fd r hpos hall =>
      rw [readRun_last hpos hall]
      exact (hfine hpos).trans (Bool.or_false _).symm
  | case2 want fd r hpos hmore ih =>
      rw [readRun_more hpos hmore, ← hfine hpos]
      exact ih
  | case3 want fd r hnone =>
      rw [readRun_none (not_lt.mp hnone)]
      exact f.failed_read fd _

/-- A piece has a byte at least, and no more than a read is asked for. -/
theorem length_of_mem_pieces {c : Bytes} (h : c ∈ (readRun f want fd).pieces) :
    0 < c.length ∧ c.length ≤ swlibPipeBuf := by
  have hpiece {want : Option Nat} {fd : Source} (hpos : 0 < (f.read fd (askSize want)).1) :
      0 < (f.read fd (askSize want)).2.1.length ∧
        (f.read fd (askSize want)).2.1.length ≤ swlibPipeBuf := by
    obtain ⟨hlen, -, -, hle, -⟩ := FpRead.read_pos hpos
    have hask : askSize want ≤ swlibPipeBuf := by
      cases want with
      | none => exact le_refl _
      | some w => exact Nat.min_le_left _ _
    omega
  induction want, fd using readRun.induct f with
  | case1 want fd r hpos hall =>
      rw [readRun_last hpos hall] at h
      rw [List.mem_singleton.mp h]
      exact hpiece hpos
  | case2 want fd r hpos hmore ih =>
      rw [readRun_more hpos hmore] at h
      rcases List.mem_cons.mp h with heq | hmem
      · rw [heq]
        exact hpiece hpos
      · exact ih hmem
  | case3 want fd r hnone =>
      rw [readRun_none (not_lt.mp hnone)] at h
      exact absurd h List.not_mem_nil

/-- The pieces make up a beginning of the data. -/
theorem flatten_pieces (f : FpRead) (want : Option Nat) (fd : Source) :
    (readRun f want fd).pieces.flatten =
      fd.rest.take (readRun f want fd).pieces.flatten.length := by
  induction want, fd using readRun.induct f with
  | case1 want fd r hpos hall =>
      rw [readRun_last hpos hall, List.flatten_cons, List.flatten_nil, List.append_nil]
      exact (FpRead.read_pos hpos).2.1
  | case2 want fd r hpos hmore ih =>
      obtain ⟨-, hbytes, hrest, -⟩ := FpRead.read_pos hpos
      rw [readRun_more hpos hmore]
      rw [hrest] at ih
      rw [ReadRun.cons, List.flatten_cons, List.length_append, List.take_add, ← ih, ← hbytes]
  | case3 want fd r hnone =>
      rw [readRun_none (not_lt.mp hnone)]
      rfl

end

/-! ## What is delivered -/

section

variable {f : FpRead} {want : Option Nat} {fd : Source}

/-- A read that gives bytes, and what the next ones deliver. -/
theorem delivered_read {n : Nat} {keeps : Bool} {data buf after : Bytes}
    (hgives : ReadGives keeps (askSize want) data n buf after) (hpos : 0 < n)
    (hmore : want ≠ some n) :
    delivered keeps swlibPipeBuf want data =
      buf ++ delivered keeps swlibPipeBuf (want.map (· - n)) after := by
  rw [hgives.buf, hgives.after hpos]
  cases keeps with
  | false =>
      have hsize := hgives.whole Bool.false_ne_true hpos
      have hfull : n = swlibPipeBuf ∧ ∀ w ∈ want, n ≤ w := by
        cases want with
        | none => exact ⟨hsize, nofun⟩
        | some w =>
            have hne : w ≠ n := fun h => hmore (congrArg some h)
            change n = min swlibPipeBuf w at hsize
            refine ⟨by omega, fun v hv => ?_⟩
            cases hv
            omega
      obtain ⟨hbuf, hwant⟩ := hfull
      have hle := hgives.le_length
      rw [hbuf] at hle hwant ⊢
      exact delivered_full (by decide) hle hwant
  | true =>
      have hle := hgives.le_length
      cases want with
      | none => exact (List.take_append_drop n data).symm
      | some w =>
          have hask := hgives.le_size
          change n ≤ min swlibPipeBuf w at hask
          change (if w ≤ data.length then data.take w else data) = _ ++
            if w - n ≤ (data.drop n).length then (data.drop n).take (w - n) else data.drop n
          have hsplit : w = n + (w - n) := by omega
          rw [List.length_drop]
          by_cases hall : w ≤ data.length
          · rw [if_pos hall, if_pos (by omega), ← List.take_add, ← hsplit]
          · rw [if_neg hall, if_neg (by omega), List.take_append_drop]

/-- A read that gives nothing. -/
theorem delivered_nothing {keeps : Bool} {data buf after : Bytes}
    (hgives : ReadGives keeps (askSize want) data 0 buf after) :
    delivered keeps swlibPipeBuf want data = [] := by
  rcases Nat.eq_zero_or_pos (askSize want) with hzero | hpos
  · cases want with
    | none => cases hzero
    | some w =>
        have hw : w = 0 := (Nat.min_eq_zero_iff.mp hzero).resolve_left (by decide)
        rw [hw, delivered_last (Nat.zero_le _), given, if_pos (.inl (Nat.zero_le _)),
          List.take_zero]
  · obtain ⟨hshort, hnil⟩ := hgives.nothing rfl hpos
    have hask : askSize want ≤ swlibPipeBuf ∧ ∀ w ∈ want, askSize want ≤ w := by
      cases want with
      | none => exact ⟨le_refl _, fun w hw => absurd hw (Option.not_mem_none w)⟩
      | some w =>
          refine ⟨Nat.min_le_left _ _, fun v hv => ?_⟩
          cases hv
          exact Nat.min_le_right _ _
    rw [delivered_short (by omega) (fun w hw => by have := hask.2 w hw; omega) _ hshort]
    cases keeps with
    | false => rw [given, if_neg (by simpa using hshort)]
    | true => rw [hnil rfl, given, if_pos (.inr rfl), List.take_nil]

/-- If no read fails the pieces make up what is wanted and there, but for the
bytes that are lost. -/
theorem readRun_delivers (h : 0 ≤ (readRun f want fd).last) :
    (readRun f want fd).pieces.flatten = delivered f.keeps swlibPipeBuf want fd.rest := by
  induction want, fd using readRun.induct f with
  | case1 want fd r hpos hall =>
      obtain ⟨-, hbytes, -, -, hle⟩ := FpRead.read_pos hpos
      have hwanted : ∀ w, want = some w → w ≤ fd.rest.length →
          delivered f.keeps swlibPipeBuf want fd.rest = fd.rest.take w := by
        rintro w rfl hw
        rw [delivered_last hw, given, if_pos (.inl hw)]
      rw [readRun_last hpos hall, hwanted _ hall hle, ← hbytes, List.flatten_cons,
        List.flatten_nil, List.append_nil]
  | case2 want fd r hpos hmore ih =>
      rw [readRun_more hpos hmore] at h ⊢
      replace hpos : 0 < (f.read fd (askSize want)).1 := hpos
      rcases f.read_gives fd (askSize want) with hneg | ⟨n, hret, hgives⟩
      · omega
      have hlen : r.2.1.length = n := by
        change (f.read fd (askSize want)).2.1.length = n
        rw [hgives.buf]
        exact List.length_take_of_le hgives.le_length
      have hrest := ih h
      rw [hlen] at hrest
      rw [delivered_read hgives (by omega) (by rwa [← hlen]), ← hrest, ← hlen]
      rfl
  | case3 want fd r hnone =>
      rw [readRun_none (not_lt.mp hnone)] at h ⊢
      rcases f.read_gives fd (askSize want) with hneg | ⟨n, hret, hgives⟩
      · exact absurd h (not_le.mpr hneg)
      · replace hnone : ¬0 < (f.read fd (askSize want)).1 := hnone
        have hzero : n = 0 := by omega
        rw [hzero] at hgives
        exact (delivered_nothing hgives).symm

end

end Swbis.Misc
