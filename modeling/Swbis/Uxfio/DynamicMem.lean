import Swbis.Lib.Memory
import Swbis.Lib.Strtol

/-!
# Memory files

A UXFIO descriptor of buffer type `UXFIO_BUFTYPE_DYNAMIC_MEM` over the null
descriptor is a file in memory, as `swlib_open_memfd` opens it.  The valid data
is the first `endM` bytes of the buffer, which grows when a write does not fit.

`PosixFile` is the file it stands for: its content and a position.  `Represents`
joins the two.  Each call refines the call on the abstract file, as long as the
byte count fits the `int` that the calls convert it to.

The buffer is active and no virtual end of file is set, so the branches for
other kinds of descriptor are left out.  Memory is never exhausted.
-/

namespace Swbis.Io

open CLib

/-- `UXFIO_LEN`. -/
def uxfioLen : Nat := 1024

/-- `UXFIO_ALLOC_AHEAD`. -/
def uxfioAllocAhead : Int := 20480

/-- `UXFIO_RET_EFAIL`. -/
def uxfioRetEfail : Int := -9999

/-- The fields of a `UXFIO` that a memory file uses. -/
structure Uxfio where
  /-- Pointer in the buffer. -/
  posM : Int
  /-- Offset of the first byte of invalid data. -/
  endM : Int
  /-- Length of the buffer; the block has one byte more. -/
  lenM : Int
  /-- Bytes read on the virtual descriptor. -/
  bytesreadM : Int
  /-- Current offset in the file. -/
  currentOffsetM : Int
  /-- Current offset in the virtual file. -/
  virtualOffsetM : Int
  /-- The buffer. -/
  bufM : Bytes
  /-- Writes insert. -/
  writeInsertM : Bool

/-- `SEEK_SET`, `SEEK_CUR` and `SEEK_END`. -/
inductive Whence where
  | seekSet
  | seekCur
  | seekEnd
deriving DecidableEq

namespace Uxfio

/-- `left` of `bufferstate`. -/
def left (u : Uxfio) : Int := u.posM

/-- `right` of `bufferstate`. -/
def right (u : Uxfio) : Int := u.endM - u.posM

/-- `unused` of `bufferstate`. -/
def unused (u : Uxfio) : Int := u.lenM - u.endM

/-! ## The calls -/

/-- `fix_dynamic_buffer`.  The bytes that `realloc` adds are all set, by the
copy or by the `memset` behind it. -/
def fixDynamicBuffer (u : Uxfio) (totalbytes : Int) (p : Bytes) (totalnewbytes : Int) :
    Outcome Uxfio :=
  if 0 < totalnewbytes then do
    let lenM := u.lenM + (totalnewbytes + uxfioAllocAhead)
    let newbuf := u.bufM ++ List.replicate (totalnewbytes + uxfioAllocAhead).toNat 0
    let newbuf ← store newbuf u.posM p
    let posM := u.posM + totalbytes
    let endM := if posM > u.endM then posM else u.endM
    let newbuf ← store newbuf endM (List.replicate (lenM + 1 - endM).toNat 0)
    pure { u with posM := posM, endM := endM, lenM := lenM, bufM := newbuf }
  else .exited 1

/-- `uxfio_write`: the count returned. -/
def write (u : Uxfio) (buf : Bytes) : Outcome (Int × Uxfio) :=
  let nbyte : Int := buf.length
  if toCInt nbyte > u.right + u.unused then do
    let u ← u.fixDynamicBuffer nbyte buf (nbyte - u.right - u.unused)
    pure (nbyte, u)
  else do
    let (bufM, endM) ←
      if u.writeInsertM then do
        let moved ← load u.bufM u.posM u.right
        let bufM ← store u.bufM (u.posM + nbyte) moved
        pure (bufM, if u.posM + toCInt nbyte + u.right > u.endM then u.posM + nbyte else u.endM)
      else pure (u.bufM, u.endM)
    let bufM ← store bufM u.posM buf
    let posM := u.posM + nbyte
    pure (nbyte,
      { u with
        posM := posM
        endM := if posM > endM then posM else endM
        bytesreadM := u.bytesreadM + nbyte
        currentOffsetM := u.currentOffsetM + nbyte
        virtualOffsetM := u.virtualOffsetM + nbyte
        bufM := bufM })

/-- `uxfio_read`, that is `uxfio_common_read`: the count returned, and the bytes
stored.  The null descriptor never has more bytes. -/
def read (u : Uxfio) (nbyte : Nat) : Outcome (Int × Bytes × Uxfio) :=
  let nbyte := toCInt nbyte
  if u.posM < u.endM then do
    let bufcount := if nbyte ≥ u.right then u.right else nbyte
    let bytes ← load u.bufM u.posM bufcount
    pure (bufcount, bytes,
      { u with
        posM := u.posM + bufcount
        currentOffsetM := u.currentOffsetM + bufcount
        virtualOffsetM := u.virtualOffsetM + bufcount })
  else pure (0, [], u)

/-- `uxfio__read_bytes`. -/
def readBytes : Nat → Uxfio → (amount haveread : Int) → Outcome (Int × Uxfio)
  | 0, _, _, _ => .outOfFuel
  | fuel + 1, u, amount, haveread =>
      if amount = 0 then .returned (haveread, u)
      else do
        let bite := if amount > 4096 then 4096 else amount
        let (n, _, u) ← u.read (bite % 2 ^ 64).toNat
        if n < 0 then pure (-1, u) else readBytes fuel u (amount - n) (haveread + n)

/-- The position moved by `offset`. -/
def move (u : Uxfio) (offset : Int) : Uxfio :=
  { u with
    posM := u.posM + offset
    currentOffsetM := u.currentOffsetM + offset
    virtualOffsetM := u.virtualOffsetM + offset }

/-- The offset from the current position that `uxfio_lseek` works with. -/
def seekOffset (u : Uxfio) (poffset : Int) : Whence → Int
  | .seekCur => poffset
  | .seekSet => poffset - u.posM
  | .seekEnd => u.endM - u.posM + poffset

/-- `uxfio_lseek`: the offset returned. -/
def lseek (fuel : Nat) (u : Uxfio) (poffset : Int) (whence : Whence) : Outcome (Int × Uxfio) :=
  let offset := u.seekOffset poffset whence
  if offset < 0 ∧ -offset ≤ u.left then
    let u := u.move offset
    pure (u.posM, u)
  else if 0 < offset ∧ offset ≤ u.right then
    let u := u.move offset
    pure (u.posM, u)
  else if 0 < offset ∧ u.right < offset then do
    let (n, u) ← readBytes fuel u (toCInt offset) 0
    let u := if n ≠ offset then u.move n else u
    pure (u.posM, u)
  else if offset = 0 then pure (u.posM, u)
  else pure (uxfioRetEfail, u)

/-- `swlib_open_memfd`, over the bytes that `malloc` returns. -/
def openMemfd (mem : CField (uxfioLen + 1)) : Uxfio where
  posM := 0
  endM := 0
  lenM := uxfioLen
  bytesreadM := 0
  currentOffsetM := 0
  virtualOffsetM := 0
  bufM := mem.bytes
  writeInsertM := false

end Uxfio

/-! ## The abstract file -/

/-- A file of the system: its bytes and the position of the descriptor. -/
structure PosixFile where
  /-- The bytes. -/
  content : Bytes
  /-- The position. -/
  pos : Nat
deriving DecidableEq

namespace PosixFile

/-- A file that has just been created. -/
def empty : PosixFile := ⟨[], 0⟩

/-- The bytes a read of `n` yields. -/
def readable (f : PosixFile) (n : Nat) : Bytes := (f.content.drop f.pos).take n

/-- The file after a read of `n`. -/
def afterRead (f : PosixFile) (n : Nat) : PosixFile :=
  { f with pos := f.pos + (f.readable n).length }

/-- The file after a write; a gap before the position is filled with zeros. -/
def afterWrite (f : PosixFile) (bs : Bytes) : PosixFile :=
  ⟨overwrite (f.content ++ List.replicate (f.pos - f.content.length) 0) f.pos bs,
    f.pos + bs.length⟩

/-- The position an `lseek` asks for. -/
def target (f : PosixFile) (offset : Int) : Whence → Int
  | .seekSet => offset
  | .seekCur => f.pos + offset
  | .seekEnd => f.content.length + offset

end PosixFile

/-! ## Calls and runs -/

/-- A call on the descriptor. -/
inductive Call where
  | read (nbyte : Nat)
  | write (buf : Bytes)
  | lseek (offset : Int) (whence : Whence)

/-- What a call gives back. -/
inductive Reply where
  | read (count : Int) (bytes : Bytes)
  | write (count : Int)
  | lseek (offset : Int)
deriving DecidableEq

/-- One call on a memory file. -/
def Uxfio.step (fuel : Nat) (u : Uxfio) : Call → Outcome (Reply × Uxfio)
  | .read nbyte => do
      let (count, bytes, u) ← u.read nbyte
      pure (.read count bytes, u)
  | .write buf => do
      let (count, u) ← u.write buf
      pure (.write count, u)
  | .lseek offset whence => do
      let (ret, u) ← u.lseek fuel offset whence
      pure (.lseek ret, u)

/-- A sequence of calls on a memory file. -/
def Uxfio.run (fuel : Nat) (u : Uxfio) : List Call → Outcome (List Reply × Uxfio)
  | [] => pure ([], u)
  | c :: calls => do
      let (reply, u) ← u.step fuel c
      let (replies, u) ← u.run fuel calls
      pure (reply :: replies, u)

/-- One call on a file of the system. -/
def PosixFile.step (f : PosixFile) : Call → Reply × PosixFile
  | .read nbyte => (.read (f.readable nbyte).length (f.readable nbyte), f.afterRead nbyte)
  | .write buf => (.write buf.length, f.afterWrite buf)
  | .lseek offset whence =>
      if 0 ≤ f.target offset whence then
        (.lseek (f.target offset whence), { f with pos := (f.target offset whence).toNat })
      else (.lseek (-1), f)

/-- A sequence of calls on a file of the system. -/
def PosixFile.run (f : PosixFile) : List Call → List Reply × PosixFile
  | [] => ([], f)
  | c :: calls =>
      let rest := (f.step c).2.run calls
      ((f.step c).1 :: rest.1, rest.2)

/-- Every `lseek` of a run stays within the file. -/
def PosixFile.SeeksWithin (f : PosixFile) : List Call → Prop
  | [] => True
  | c :: calls =>
      (match c with
        | .lseek offset whence => 0 ≤ f.target offset whence ∧
            f.target offset whence ≤ f.content.length
        | _ => True) ∧
      (f.step c).2.SeeksWithin calls

/-- The byte count of a call fits an `int`. -/
def Call.Fits : Call → Prop
  | .read nbyte => nbyte < 2 ^ 31
  | .write buf => buf.length < 2 ^ 31
  | .lseek _ _ => True

/-- The memory file stands for the file. -/
structure Represents (u : Uxfio) (f : PosixFile) : Prop where
  /-- The positions agree. -/
  pos : u.posM = f.pos
  /-- The ends of file agree. -/
  eof : u.endM = f.content.length
  /-- The valid bytes are the content. -/
  content : u.bufM.take f.content.length = f.content
  /-- The position is within the file. -/
  pos_le : f.pos ≤ f.content.length
  /-- The valid bytes are within the buffer. -/
  end_le : u.endM ≤ u.lenM
  /-- The block has one byte more than the buffer. -/
  size : (u.bufM.length : Int) = u.lenM + 1
  /-- Writes do not insert. -/
  insert : u.writeInsertM = false

/-- The calls on the memory file give what they give on the file, and end in a
memory file that stands for the file. -/
def Agrees (fuel : Nat) (u : Uxfio) (f : PosixFile) (calls : List Call) : Prop :=
  ∃ u', u.run fuel calls = .returned ((f.run calls).1, u') ∧ Represents u' (f.run calls).2

/-- The count that `uxfio__read_bytes` asks for survives the conversions. -/
theorem Uxfio.toCInt_bite {bite : Int} (h : -2 ^ 31 ≤ bite) (hle : bite ≤ 4096) :
    toCInt ((bite % 2 ^ 64).toNat : Nat) = bite := by
  rw [Int.toNat_of_nonneg (Int.emod_nonneg _ (by decide))]
  have hmod : bite % 2 ^ 64 % 2 ^ 32 = bite % 2 ^ 32 := Int.emod_emod_of_dvd _ (by decide)
  rcases toCInt_cases (bite % 2 ^ 64) with ⟨h', hint⟩ | ⟨h', hint⟩
  · omega
  · omega

/-! ## The buffer grows -/

/-- The valid bytes. -/
def Uxfio.content (u : Uxfio) : Bytes := u.bufM.take u.endM.toNat

/-- The fields of a memory file fit together.  The position may be behind the end
of file. -/
structure Uxfio.Formed (u : Uxfio) : Prop where
  /-- The position is not negative. -/
  pos_nonneg : 0 ≤ u.posM
  /-- The position is within the buffer. -/
  pos_le : u.posM ≤ u.lenM
  /-- The end of file is not negative. -/
  end_nonneg : 0 ≤ u.endM
  /-- The valid bytes are within the buffer. -/
  end_le : u.endM ≤ u.lenM
  /-- The block has one byte more than the buffer. -/
  size : (u.bufM.length : Int) = u.lenM + 1

/-- The bytes before the position, and then the bytes written. -/
structure Uxfio.Wrote (u : Uxfio) (buf : Bytes) (u' : Uxfio) : Prop where
  pos : u'.posM = u.posM + buf.length
  bytes : u'.bufM.take (u.posM + buf.length).toNat = u.bufM.take u.posM.toNat ++ buf
  insert : u'.writeInsertM = u.writeInsertM
  size : (u'.bufM.length : Int) = u'.lenM + 1

namespace Uxfio

variable {u u' : Uxfio}

theorem Formed.length_content (h : u.Formed) : (u.content.length : Int) = u.endM := by
  have hsize := h.size
  have hend := h.end_le
  have hnonneg := h.end_nonneg
  rw [content, List.length_take]
  omega

/-- A buffer that grows by enough takes the bytes. -/
theorem fixDynamicBuffer_grows (h : u.Formed) (buf : Bytes) (new : Nat) (hnew : 0 < new)
    (hroom : u.posM + buf.length ≤ u.lenM + new) :
    ∃ u', u.fixDynamicBuffer buf.length buf new = .returned u' ∧ Wrote u buf u' ∧
      u'.endM = max u.endM (u.posM + buf.length) ∧ u'.lenM = u.lenM + (new + uxfioAllocAhead) := by
  obtain ⟨p, hp⟩ := Int.eq_ofNat_of_zero_le h.pos_nonneg
  obtain ⟨e, he⟩ : ∃ e : Nat, max u.endM (u.posM + buf.length) = e :=
    ⟨(max u.endM (u.posM + buf.length)).toNat, by omega⟩
  have hsize := h.size
  have hend := h.end_le
  have hple := h.pos_le
  rw [fixDynamicBuffer, if_pos (by omega), uxfioAllocAhead]
  generalize hmem : u.bufM ++ List.replicate ((new : Int) + 20480).toNat 0 = mem
  have hmemlen : mem.length = u.bufM.length + (new + 20480) := by
    rw [← hmem, List.length_append, List.length_replicate]
    omega
  have hlen : (overwrite mem p buf).length = mem.length := by
    rw [length_overwrite (by omega)]
    omega
  obtain ⟨pad, hpad⟩ : ∃ pad : Nat, u.lenM + (new + 20480) + 1 - (e : Int) = pad :=
    ⟨(u.lenM + (new + 20480) + 1 - (e : Int)).toNat, by omega⟩
  have hmax : (if u.posM + buf.length > u.endM then u.posM + (buf.length : Int) else u.endM) = e := by
    split <;> omega
  simp only [hmax, Outcome.pure_eq]
  simp only [hp, store_eq mem p buf (by omega), Outcome.returned_bind]
  rw [hpad, Int.toNat_natCast, store_eq _ _ _ (by rw [hlen, List.length_replicate]; omega)]
  refine ⟨_, rfl, ⟨by rw [hp], ?_, rfl, ?_⟩, by rw [← hp]; exact he.symm, rfl⟩
  · rw [hp, ← Nat.cast_add, Int.toNat_natCast, Int.toNat_natCast,
      take_overwrite_of_le (by omega) (by omega), take_overwrite_end _ _ _ (by omega), ← hmem,
      List.take_append_of_le_length (by omega)]
  · simp only [length_overwrite (show e ≤ (overwrite mem p buf).length by omega),
      hlen, List.length_replicate]
    omega

/-- A write that does not fit ends the file behind what it wrote. -/
theorem fixDynamicBuffer_wrote (h : u.Formed) (buf : Bytes)
    (hgrow : u.lenM < u.posM + buf.length) :
    ∃ u', u.fixDynamicBuffer buf.length buf (buf.length - u.right - u.unused) = .returned u' ∧
      Wrote u buf u' ∧ u'.endM = u.posM + buf.length ∧ u'.endM ≤ u'.lenM := by
  have hend := h.end_le
  obtain ⟨new, hnew⟩ := Int.eq_ofNat_of_zero_le
    (show 0 ≤ (buf.length : Int) - u.right - u.unused by rw [right, unused]; omega)
  have hnew' : (new : Int) = u.posM + buf.length - u.lenM := by
    rw [← hnew, right, unused]
    omega
  obtain ⟨u', hfix, hw, hend', hlen⟩ :=
    fixDynamicBuffer_grows h buf new (by omega) (by omega)
  rw [uxfioAllocAhead] at hlen
  exact ⟨u', by rw [hnew, hfix], hw, by omega, by omega⟩

/-! ## Seeking -/

@[simp] theorem move_posM (u : Uxfio) (offset : Int) :
    (u.move offset).posM = u.posM + offset := rfl

@[simp] theorem move_endM (u : Uxfio) (offset : Int) : (u.move offset).endM = u.endM := rfl

@[simp] theorem move_lenM (u : Uxfio) (offset : Int) : (u.move offset).lenM = u.lenM := rfl

@[simp] theorem move_bufM (u : Uxfio) (offset : Int) : (u.move offset).bufM = u.bufM := rfl

@[simp] theorem move_writeInsertM (u : Uxfio) (offset : Int) :
    (u.move offset).writeInsertM = u.writeInsertM := rfl

@[simp] theorem move_zero (u : Uxfio) : u.move 0 = u := by
  rw [move, Int.add_zero, Int.add_zero, Int.add_zero]

theorem Formed.move (h : u.Formed) {offset : Int} (h0 : 0 ≤ u.posM + offset)
    (hle : u.posM + offset ≤ u.lenM) : (u.move offset).Formed where
  pos_nonneg := h0
  pos_le := hle
  end_nonneg := h.end_nonneg
  end_le := h.end_le
  size := h.size

/-- Back, or forward within the valid bytes, a seek moves the position. -/
theorem lseek_eq_move (fuel : Nat) {poffset offset : Int} {whence : Whence}
    (hoff : u.seekOffset poffset whence = offset) (h0 : 0 ≤ u.posM + offset)
    (hle : u.posM + offset ≤ max u.posM u.endM) :
    u.lseek fuel poffset whence = .returned (u.posM + offset, u.move offset) := by
  rw [lseek, hoff, left, right]
  simp only [Outcome.pure_eq, move_posM]
  split
  next => rfl
  next hback =>
    split
    next => rfl
    next hfwd =>
      have hzero : offset = 0 := by omega
      rw [if_neg (by omega), if_pos hzero, hzero, move_zero, Int.add_zero]

end Uxfio

/-! ## Each call refines the call on the file -/

@[simp] theorem PosixFile.length_readable (f : PosixFile) (n : Nat) :
    (f.readable n).length = min n (f.content.length - f.pos) := by
  simp [PosixFile.readable]

/-- Within the file a write leaves no gap. -/
theorem PosixFile.afterWrite_eq {f : PosixFile} (h : f.pos ≤ f.content.length) (bs : Bytes) :
    f.afterWrite bs = ⟨overwrite f.content f.pos bs, f.pos + bs.length⟩ := by
  rw [PosixFile.afterWrite, Nat.sub_eq_zero_of_le h, List.replicate_zero, List.append_nil]

namespace Represents

variable {u : Uxfio} {f : PosixFile}

theorem length_le (h : Represents u f) : f.content.length < u.bufM.length := by
  have := h.size
  have := h.eof
  have := h.end_le
  omega

/-- Bytes loaded from the valid part are bytes of the content. -/
theorem load_eq (h : Represents u f) (k : Nat) (hk : f.pos + k ≤ f.content.length) :
    load u.bufM u.posM k = .returned (f.readable k) := by
  have hlen := h.length_le
  rw [h.pos, CLib.load_eq _ _ _ (by omega), PosixFile.readable]
  conv_rhs => rw [← h.content, List.drop_take, List.take_take, Nat.min_eq_left (by omega)]

/-- The position moves within the file. -/
theorem move (h : Represents u f) (offset : Int) (p : Nat) (hp : u.posM + offset = p)
    (hle : p ≤ f.content.length) : Represents (u.move offset) { f with pos := p } where
  pos := hp
  eof := h.eof
  content := h.content
  pos_le := hle
  end_le := h.end_le
  size := h.size
  insert := h.insert

/-- A block that starts with the content, written over, starts with the content
written over. -/
theorem take_overwrite (h : Represents u f) {mem : Bytes} (buf : Bytes)
    (hlen : f.content.length ≤ mem.length) (hmem : mem.take f.content.length = f.content) :
    (overwrite mem f.pos buf).take (overwrite f.content f.pos buf).length =
      overwrite f.content f.pos buf := by
  rw [length_overwrite h.pos_le, CLib.take_overwrite h.pos_le hlen, hmem]

end Represents

theorem read_refines {u : Uxfio} {f : PosixFile} (h : Represents u f) {nbyte : Nat}
    (hn : nbyte < 2 ^ 31) :
    ∃ u', u.read nbyte = .returned ((f.readable nbyte).length, f.readable nbyte, u') ∧
      Represents u' (f.afterRead nbyte) := by
  have hpos := h.pos
  have heof := h.eof
  have hle := h.pos_le
  rw [Uxfio.read, toCInt_of_lt hn]
  split
  next hlt =>
    have hlen := PosixFile.length_readable f nbyte
    generalize hk : (f.readable nbyte).length = k at hlen
    have hcount : (if (nbyte : Int) ≥ u.right then u.right else nbyte) = k := by
      rw [Uxfio.right]
      split <;> omega
    have hread : f.readable k = f.readable nbyte := by
      rw [hlen, PosixFile.readable, PosixFile.readable, ← List.length_drop]
      exact List.take_eq_take_min.symm
    have hload := h.load_eq k (by omega)
    have hmove := h.move k (f.pos + k) (by omega) (by omega)
    rw [hread] at hload
    simp only [hcount, hload, Outcome.returned_bind, Outcome.pure_eq, PosixFile.afterRead, hk]
    exact ⟨_, rfl, hmove⟩
  next hge =>
    have hnil : f.readable nbyte = [] := by
      rw [PosixFile.readable, show f.pos = f.content.length by omega, List.drop_length,
        List.take_nil]
    rw [PosixFile.afterRead, hnil]
    exact ⟨u, rfl, h⟩

/-- A memory file that stands for a file is well formed. -/
theorem Represents.formed {u : Uxfio} {f : PosixFile} (h : Represents u f) : u.Formed where
  pos_nonneg := by rw [h.pos]; exact Int.natCast_nonneg _
  pos_le := by
    have hpos := h.pos
    have heof := h.eof
    have hle := h.pos_le
    have hend := h.end_le
    omega
  end_nonneg := by rw [h.eof]; exact Int.natCast_nonneg _
  end_le := h.end_le
  size := h.size

/-- A write that does not fit the buffer makes it grow. -/
theorem fixDynamicBuffer_refines {u : Uxfio} {f : PosixFile} (h : Represents u f) {buf : Bytes}
    (hgrow : u.right + u.unused < buf.length) :
    ∃ u', u.fixDynamicBuffer buf.length buf (buf.length - u.right - u.unused) = .returned u' ∧
      Represents u' (f.afterWrite buf) := by
  have hpos := h.pos
  have heof := h.eof
  have hle := h.pos_le
  have hend := h.end_le
  rw [Uxfio.right, Uxfio.unused] at hgrow
  obtain ⟨u', hfix, hw, hend', hlen'⟩ :=
    Uxfio.fixDynamicBuffer_wrote h.formed buf (by omega)
  have hbytes := hw.bytes
  rw [hpos, ← Nat.cast_add, Int.toNat_natCast, Int.toNat_natCast] at hbytes
  have hover : overwrite f.content f.pos buf = u.bufM.take f.pos ++ buf := by
    rw [overwrite, List.drop_of_length_le (by omega), List.append_nil]
    conv_lhs => rw [← h.content, List.take_take, Nat.min_eq_left hle]
  have hwhole : (overwrite f.content f.pos buf).length = f.pos + buf.length := by
    rw [length_overwrite hle]
    omega
  refine ⟨u', hfix, ?_⟩
  rw [f.afterWrite_eq hle]
  exact {
    pos := by rw [hw.pos, hpos, Nat.cast_add]
    eof := by rw [hwhole, hend', hpos, Nat.cast_add]
    content := by rw [hwhole, hbytes, hover]
    pos_le := by simp only [hwhole, le_refl]
    end_le := hlen'
    size := hw.size
    insert := hw.insert.trans h.insert }

theorem write_refines {u : Uxfio} {f : PosixFile} (h : Represents u f) {buf : Bytes}
    (hn : buf.length < 2 ^ 31) :
    ∃ u', u.write buf = .returned (buf.length, u') ∧ Represents u' (f.afterWrite buf) := by
  have hpos := h.pos
  have heof := h.eof
  have hle := h.pos_le
  have hend := h.end_le
  have hsize := h.size
  have hlen := h.length_le
  simp only [Uxfio.write, toCInt_of_lt hn, h.insert, Bool.false_eq_true, if_false]
  split
  next hgrow =>
    obtain ⟨u', heq, hrep⟩ := fixDynamicBuffer_refines h hgrow
    rw [heq]
    exact ⟨u', rfl, hrep⟩
  next hfits =>
    rw [Uxfio.right, Uxfio.unused] at hfits
    have hstore := store_eq u.bufM f.pos buf (by omega)
    have hwhole : (overwrite f.content f.pos buf).length = max f.content.length (f.pos + buf.length) :=
      length_overwrite hle
    simp only [hpos, hstore, Outcome.pure_eq, Outcome.returned_bind]
    refine ⟨_, rfl, ?_⟩
    rw [f.afterWrite_eq hle]
    exact {
      pos := by simp
      eof := by simp only [hwhole]; split <;> omega
      content := h.take_overwrite buf (by omega) h.content
      pos_le := by simp only [hwhole]; omega
      end_le := by simp only; split <;> omega
      size := by simp only [length_overwrite (show f.pos ≤ u.bufM.length by omega)]; omega
      insert := rfl }

theorem lseek_refines {u : Uxfio} {f : PosixFile} (h : Represents u f) (fuel : Nat)
    {offset : Int} {whence : Whence} (h0 : 0 ≤ f.target offset whence)
    (hle : f.target offset whence ≤ f.content.length) :
    ∃ u', u.lseek fuel offset whence = .returned (f.target offset whence, u') ∧
      Represents u' { f with pos := (f.target offset whence).toNat } := by
  have hpos := h.pos
  have heof := h.eof
  have hoff : u.seekOffset offset whence = f.target offset whence - u.posM := by
    cases whence with
    | seekSet => rfl
    | seekCur => simp only [PosixFile.target, Uxfio.seekOffset]; omega
    | seekEnd => simp only [PosixFile.target, Uxfio.seekOffset]; omega
  obtain ⟨t, ht⟩ := Int.eq_ofNat_of_zero_le h0
  rw [ht] at hoff hle
  have htarget : u.posM + (t - u.posM) = t := by omega
  have hseek := Uxfio.lseek_eq_move fuel hoff (by omega) (by omega)
  rw [htarget] at hseek
  rw [ht, Int.toNat_natCast]
  exact ⟨u.move (t - u.posM), hseek, h.move (t - u.posM) t htarget (by omega)⟩

/-! ## Runs of calls -/

/-- One call whose count fits gives what it gives on the file. -/
theorem step_refines {u : Uxfio} {f : PosixFile} (h : Represents u f) (fuel : Nat) {c : Call}
    (hfits : c.Fits) (hwithin : f.SeeksWithin [c]) :
    ∃ u', u.step fuel c = .returned ((f.step c).1, u') ∧ Represents u' (f.step c).2 := by
  cases c with
  | read nbyte =>
      obtain ⟨u', heq, hrep⟩ := read_refines h hfits
      exact ⟨u', by rw [Uxfio.step, heq]; rfl, hrep⟩
  | write buf =>
      obtain ⟨u', heq, hrep⟩ := write_refines h hfits
      exact ⟨u', by rw [Uxfio.step, heq]; rfl, hrep⟩
  | lseek offset whence =>
      obtain ⟨⟨h0, hle⟩, -⟩ := hwithin
      obtain ⟨u', heq, hrep⟩ := lseek_refines h fuel h0 hle
      rw [PosixFile.step, if_pos h0]
      exact ⟨u', by rw [Uxfio.step, heq]; rfl, hrep⟩

/-- A sequence of calls whose counts fit gives what it gives on the file. -/
theorem agrees_of_represents {u : Uxfio} {f : PosixFile} (h : Represents u f) (fuel : Nat)
    {calls : List Call} (hfits : ∀ c ∈ calls, c.Fits) (hwithin : f.SeeksWithin calls) :
    Agrees fuel u f calls := by
  induction calls generalizing u f with
  | nil => exact ⟨u, rfl, h⟩
  | cons c calls ih =>
      obtain ⟨u₁, hstep, hrep⟩ := step_refines h fuel (hfits c List.mem_cons_self)
        ⟨hwithin.1, trivial⟩
      obtain ⟨u₂, hrun, hrep₂⟩ := ih hrep (fun c hc => hfits c (List.mem_cons_of_mem _ hc)) hwithin.2
      refine ⟨u₂, ?_, hrep₂⟩
      rw [Uxfio.run, hstep]
      simp only [Outcome.returned_bind, hrun, Outcome.pure_eq, PosixFile.run]

/-- A new memory file stands for the empty file. -/
theorem openMemfd_represents (mem : CField (uxfioLen + 1)) :
    Represents (Uxfio.openMemfd mem) PosixFile.empty where
  pos := rfl
  eof := rfl
  content := rfl
  pos_le := le_refl 0
  end_le := by simp [Uxfio.openMemfd]
  size := by simp [Uxfio.openMemfd]
  insert := rfl

/-- From a new memory file, every sequence of calls whose counts fit an `int`
agrees with the same calls on an empty file. -/
theorem openMemfd_agrees (mem : CField (uxfioLen + 1)) (fuel : Nat) (calls : List Call)
    (hwithin : PosixFile.empty.SeeksWithin calls) (hfits : ∀ c ∈ calls, c.Fits) :
    Agrees fuel (Uxfio.openMemfd mem) PosixFile.empty calls :=
  agrees_of_represents (openMemfd_represents mem) fuel hfits hwithin

theorem openMemfd_agrees_seekEnd :
    Agrees 0 (Uxfio.openMemfd (CField.zero _)) PosixFile.empty
      [.write [1, 2], .lseek (-1) .seekEnd, .read 5] :=
  openMemfd_agrees (CField.zero _) 0 _ (by simp [PosixFile.SeeksWithin, PosixFile.step,
    PosixFile.target, PosixFile.afterWrite, PosixFile.empty, overwrite]) (by simp [Call.Fits])

/-- Before the end of file, a read of 2^32 bytes is a read of none. -/
theorem step_wide {u : Uxfio} {f : PosixFile} (h : Represents u f) (fuel : Nat)
    (hlt : f.pos < f.content.length) :
    ∃ u', u.step fuel (.read (2 ^ 32)) = .returned (.read 0 [], u') := by
  have hpos := h.pos
  have heof := h.eof
  have hzero : toCInt ((2 ^ 32 : Nat) : Int) = 0 := by decide
  have hload := h.load_eq 0 (by omega)
  rw [Uxfio.step, Uxfio.read, hzero, if_pos (by omega), if_neg (by rw [Uxfio.right]; omega)]
  rw [Nat.cast_zero] at hload
  simp only [hload, Outcome.returned_bind, Outcome.pure_eq, PosixFile.readable, List.take_zero]
  exact ⟨_, rfl⟩

/-- Write a byte, go back, and read 2^32 bytes. -/
def wideRead : List Call := [.write [65], .lseek 0 .seekSet, .read (2 ^ 32)]

/-- The byte is there, but the read does not give it. -/
theorem wideRead_disagrees :
    ¬ Agrees 0 (Uxfio.openMemfd (CField.zero _)) PosixFile.empty wideRead := by
  rintro ⟨u', hrun, -⟩
  obtain ⟨u₁, hwrite, hrep₁⟩ := step_refines (c := .write [65])
    (openMemfd_represents (CField.zero _)) 0 (by simp [Call.Fits]) ⟨trivial, trivial⟩
  obtain ⟨u₂, hseek, hrep₂⟩ := step_refines (c := .lseek 0 .seekSet) hrep₁ 0 trivial
    ⟨by decide, trivial⟩
  obtain ⟨u₃, hread⟩ := step_wide hrep₂ 0 (by decide)
  simp only [wideRead, Uxfio.run, hwrite, hseek, hread, Outcome.returned_bind, Outcome.pure_eq,
    Outcome.returned.injEq, Prod.mk.injEq] at hrun
  have hreply := hrun.1
  revert hreply
  decide

end Swbis.Io
