import Swbis.Lib.Descriptor
import Swbis.Uxfio.DynamicMem

/-!
# Buffered descriptors

A UXFIO descriptor keeps what it reads from an underlying descriptor in a buffer:
a block of fixed length, a block that grows, or a file.  `fix_buffer` puts what
has been read into it.  A seek forward beyond the buffer reads in bites until it
has read as much as it was asked for.

`available` is what can still be read, and `Ends` says when the bites of a seek
end.  `Sound` is what the fields of a descriptor with an active buffer satisfy.
The last part is about `fix_buffer`: what goes beyond the buffered data leaves
nothing of it behind the position.

The buffer is active and no virtual end of file is set.
-/

namespace Swbis.Io

open CLib

/-- `UXFIO_BUFTYPE_MEM`, `UXFIO_BUFTYPE_DYNAMIC_MEM` and `UXFIO_BUFTYPE_FILE`. -/
inductive BufType where
  | mem
  | dynamicMem
  | file
deriving DecidableEq

/-- The fields of a `UXFIO` over another descriptor. -/
structure BufferedUxfio extends Uxfio where
  /-- The kind of buffer. -/
  buffertypeM : BufType
  /-- The buffer is in use. -/
  bufferActiveM : Bool
  /-- The buffer is to be put out of use at the end of the buffered data. -/
  autoDisableM : Bool
  /-- The buffer file. -/
  buffdM : PosixFile
  /-- The underlying descriptor; `none` is `UXFIO_NULL_FD`. -/
  uxfdM : Option Source

namespace BufferedUxfio

/-! ## The calls -/

/-- A read of the underlying descriptor.  A count that is negative before its
conversion is larger than any that the system takes. -/
def virRead (u : BufferedUxfio) (nbyte : Int) : Int × Bytes × BufferedUxfio :=
  match u.uxfdM with
  | none => (0, [], u)
  | some s =>
      if nbyte < 0 then (-1, [], u)
      else
        let (n, bytes, s) := s.read nbyte.toNat
        (n, bytes, { u with uxfdM := some s })

/-- `uxfio_unix_atomic_read` of the buffer file. -/
def readBuffd (u : BufferedUxfio) (bufcount : Int) : Int × Bytes × BufferedUxfio :=
  if bufcount < 0 then (-1, [], u)
  else
    let bytes := u.buffdM.readable bufcount.toNat
    (if bytes.length = bufcount then bufcount else 0, bytes,
      { u with buffdM := u.buffdM.afterRead bufcount.toNat })

/-- The position and the virtual offset moved by `totalbytes`. -/
def advance (u : BufferedUxfio) (totalbytes : Int) : BufferedUxfio :=
  { u with
    posM := u.posM + totalbytes
    virtualOffsetM := u.virtualOffsetM + totalbytes }

/-- `fix_buffer`, for a buffer file. -/
def fixBufferFile (u : BufferedUxfio) (totalbytes : Int) (p : Bytes) (totalnewbytes : Int) :
    BufferedUxfio :=
  if u.posM + totalnewbytes > u.lenM then u
  else if totalnewbytes ≠ 0 then
    let n := u.buffdM.content.length
    if n ≠ u.endM then { u with buffdM := { u.buffdM with pos := n } }
    else
      let u := u.advance totalbytes
      let buffd : PosixFile := { u.buffdM with pos := n }
      { u with
        buffdM := buffd.afterWrite (p.drop (totalbytes - totalnewbytes).toNat)
        endM := u.posM }
  else u.advance totalbytes

/-- `fix_dynamic_buffer`. -/
def fixDynamic (u : BufferedUxfio) (totalbytes : Int) (p : Bytes) (totalnewbytes : Int) :
    Outcome BufferedUxfio := do
  let v ← u.toUxfio.fixDynamicBuffer totalbytes p totalnewbytes
  pure { u with toUxfio := v }

/-- `fix_buffer`, for a block of memory. -/
def fixBufferMem (u : BufferedUxfio) (totalbytes : Int) (p : Bytes) (totalnewbytes : Int) :
    Outcome BufferedUxfio :=
  if totalnewbytes ≠ 0 then
    if totalbytes ≥ u.lenM then
      if u.buffertypeM = .dynamicMem then u.fixDynamic totalbytes p totalnewbytes
      else do
        let kept ← load p (totalbytes - u.lenM) u.lenM
        let bufM ← store u.bufM 0 kept
        pure { u with posM := u.lenM, virtualOffsetM := u.lenM, endM := u.lenM, bufM := bufM }
    else if totalbytes > u.right + u.unused then
      if u.buffertypeM = .dynamicMem then u.fixDynamic totalbytes p totalnewbytes
      else do
        let kept ← load u.bufM (totalbytes - u.unused - u.right) (u.lenM - totalbytes + u.right)
        let bufM ← store u.bufM 0 kept
        let bufM ← store bufM (u.lenM - totalbytes) p
        pure { u with posM := u.lenM, virtualOffsetM := u.lenM, endM := u.lenM, bufM := bufM }
    else if totalbytes > u.right then do
      let bufM ← store u.bufM u.posM p
      let u := u.advance totalbytes
      pure { u with endM := u.posM, bufM := bufM }
    else pure u
  else pure { u with posM := u.posM + totalbytes }

/-- `fix_buffer`.  The value it returns decides about a message only. -/
def fixBuffer (u : BufferedUxfio) (totalbytes : Int) (p : Bytes) (totalnewbytes : Int) :
    Outcome BufferedUxfio :=
  if u.buffertypeM = .file then .returned (u.fixBufferFile totalbytes p totalnewbytes)
  else u.fixBufferMem totalbytes p totalnewbytes

/-- What has been read is counted. -/
def count (u : BufferedUxfio) (n : Int) : BufferedUxfio :=
  { u with
    bytesreadM := u.bytesreadM + n
    currentOffsetM := u.currentOffsetM + n
    virtualOffsetM := u.virtualOffsetM + n }

/-- `UXFIO_F_SET_BUFACTIVE` with `UXFIO_OFF`; a buffer file is deleted. -/
def setBufactiveOff (u : BufferedUxfio) : BufferedUxfio :=
  if u.buffertypeM = .file ∧ u.bufferActiveM = true ∧ u.posM < u.endM then u
  else { u with bufferActiveM := false }

/-- The bytes that a read takes from the buffer. -/
def takeBuffered (u : BufferedUxfio) (bufcount : Int) : Outcome (Int × Bytes × BufferedUxfio) :=
  if u.buffertypeM = .file then .returned (u.readBuffd bufcount)
  else do
    let bytes ← load u.bufM u.posM bufcount
    pure (bufcount, bytes, u)

/-- What has been taken from the buffer is counted. -/
def countBuffered (u : BufferedUxfio) (bufcount : Int) : BufferedUxfio :=
  { u with
    currentOffsetM := u.currentOffsetM + bufcount
    virtualOffsetM := u.virtualOffsetM + bufcount }

/-- The rest of a read that has taken bytes from the buffer: if there is more to
read, it is read from the underlying descriptor. -/
def readMore (u : BufferedUxfio) (bytes : Bytes) (bufcount nbyte : Int) :
    Outcome (Int × Bytes × BufferedUxfio) :=
  if bufcount < nbyte then
    let (n, more, u) := u.virRead (nbyte - bufcount)
    if n < 0 then .returned (n, [], u)
    else do
      let u ← (u.count n).fixBuffer (bufcount + n) (bytes ++ more) n
      pure (bufcount + n, bytes ++ more, u)
  else do
    let u ← u.fixBuffer bufcount bytes 0
    pure (bufcount, bytes, u)

/-- `uxfio_read`, that is `uxfio_common_read`: the count returned, and the bytes
stored. -/
def read (u : BufferedUxfio) (nbyte : Nat) : Outcome (Int × Bytes × BufferedUxfio) :=
  let nbyte := toCInt nbyte
  if u.bufferActiveM = false then
    if u.uxfdM.isNone then pure (-1, [], u)
    else
      let (n, bytes, u) := u.virRead nbyte
      if n < 0 then pure (n, [], u) else pure (n, bytes, u.count n)
  else if u.posM < u.endM then do
    let bufcount := if nbyte ≥ u.right then u.right else nbyte
    let (n, bytes, u) ← u.takeBuffered bufcount
    if n ≠ bufcount then pure (-1, [], u)
    else (u.countBuffered bufcount).readMore bytes bufcount nbyte
  else do
    let (n, bytes, u) := u.virRead nbyte
    if n < 0 then pure (n, [], u)
    else do
      let u ← (u.count n).fixBuffer n bytes n
      let u := if u.autoDisableM then { u with autoDisableM := false }.setBufactiveOff else u
      pure (n, bytes, u)

/-- `uxfio__read_bytes`. -/
def readBytes : Nat → BufferedUxfio → (amount haveread : Int) → Outcome (Int × BufferedUxfio)
  | 0, _, _, _ => .outOfFuel
  | fuel + 1, u, amount, haveread =>
      if amount = 0 then .returned (haveread, u)
      else do
        let bite := if amount > 4096 then 4096 else amount
        let (n, _, u) ← u.read (bite % 2 ^ 64).toNat
        if n < 0 then pure (-1, u) else readBytes fuel u (amount - n) (haveread + n)

/-- `lseek` of the buffer file from its own offset; one that is deleted has none. -/
def seekBuffd (u : BufferedUxfio) (offset : Int) : Int × BufferedUxfio :=
  if u.bufferActiveM = false ∨ u.buffdM.pos + offset < 0 then (-1, u)
  else
    (u.buffdM.pos + offset,
      { u with buffdM := { u.buffdM with pos := (u.buffdM.pos + offset).toNat } })

/-- How `uxfio_lseek` ends: a buffer file must arrive at the position. -/
def settle (u : BufferedUxfio) (offset : Int) : Int × BufferedUxfio :=
  if u.buffertypeM = .file then
    let (there, u) := u.seekBuffd offset
    (if there ≠ u.posM then -1 else u.posM, u)
  else (u.posM, u)

/-- The position moved by `offset`. -/
def move (u : BufferedUxfio) (offset : Int) : BufferedUxfio :=
  { u with toUxfio := u.toUxfio.move offset }

/-- `uxfio_lseek`: the offset returned. -/
def lseek (fuel : Nat) (u : BufferedUxfio) (poffset : Int) (whence : Whence) :
    Outcome (Int × BufferedUxfio) :=
  let offset := u.seekOffset poffset whence
  if offset < 0 ∧ -offset ≤ u.left then pure ((u.move offset).settle offset)
  else if 0 < offset ∧ offset ≤ u.right then pure ((u.move offset).settle offset)
  else if 0 < offset ∧ u.right < offset then do
    let (n, u) ← readBytes fuel u (toCInt offset) 0
    let u := if n ≠ offset then u.move n else u
    pure (u.settle 0)
  else if offset = 0 then pure (u.settle 0)
  else pure (uxfioRetEfail, u)

/-! ## What can be read -/

/-- What is left of the underlying stream. -/
def rest (u : BufferedUxfio) : Bytes :=
  match u.uxfdM with
  | none => []
  | some s => s.rest

/-- What can still be read, from the buffer and behind it. -/
def available (u : BufferedUxfio) : Int := max u.right 0 + u.rest.length

/-- What the next read of the underlying descriptor gives. -/
def given (u : BufferedUxfio) (nbyte : Nat) : Int :=
  match u.uxfdM with
  | none => 0
  | some s => s.pattern.read s.reads nbyte s.rest

/-- Of the reads of the underlying descriptor that are to come, one fails after
`k` others.  Without an underlying descriptor, a read fails once the buffer is out
of use. -/
def FailsAfter (u : BufferedUxfio) (k : Nat) : Prop :=
  match u.uxfdM with
  | none => if u.bufferActiveM then u.autoDisableM = true ∧ k = 1 else k = 0
  | some s => s.pattern.gives (s.reads + k) < 0

/-- A read of the underlying descriptor is going to fail. -/
def Fails (u : BufferedUxfio) : Prop := ∃ k, u.FailsAfter k

/-- Where the last bite begins that starts within the buffered data. -/
def lastBite (u : BufferedUxfio) : Int := u.posM + 4096 * ((u.right - 1) / 4096)

/-- What the last bite gets from behind the buffered data. -/
def lastGiven (u : BufferedUxfio) : Int :=
  if u.endM - u.lastBite < 4096 then u.given (4096 - (u.endM - u.lastBite)).toNat else 0

/-- The buffer file is too long for what the last bite brings. -/
def Overruns (u : BufferedUxfio) : Prop :=
  u.buffertypeM = .file ∧ 0 < u.right ∧ u.lenM < u.lastBite + u.lastGiven

/-- The bites end. -/
def Ends (u : BufferedUxfio) (amount : Int) : Prop :=
  if amount < 0 then
    if 0 < u.right then u.buffertypeM = .file else u.uxfdM ≠ none ∨ u.autoDisableM = true
  else amount ≤ u.available ∨ u.Fails ∨ u.Overruns

/-- The seek returns the position it has reached, or an error, and what is then
left of the underlying stream is the end of what there was. -/
def Returns (u : BufferedUxfio) (poffset : Int) (whence : Whence) : Prop :=
  ∃ fuel ret u', u.lseek fuel poffset whence = .returned (ret, u') ∧
    (ret = u'.posM ∨ ret < 0) ∧ u'.rest <:+ u.rest

/-- The fields of a descriptor with an active buffer fit together. -/
structure Sound (u : BufferedUxfio) : Prop where
  /-- The buffer is active. -/
  active : u.bufferActiveM = true
  /-- The position is not negative. -/
  pos_nonneg : 0 ≤ u.posM
  /-- Only a memory file may have been cut off below its position. -/
  pos_le_end : u.buffertypeM ≠ .dynamicMem → u.posM ≤ u.endM
  /-- A block of memory is laid out as that of a memory file. -/
  formed : u.buffertypeM ≠ .file → u.toUxfio.Formed
  /-- A buffer file stands at the position. -/
  offset : u.buffertypeM = .file → (u.buffdM.pos : Int) = u.posM
  /-- The valid bytes are the buffer file. -/
  content : u.buffertypeM = .file → (u.buffdM.content.length : Int) = u.endM

/-! ## Reads of the underlying descriptor -/

variable {u u' : BufferedUxfio}

/-- The descriptor after a read of the underlying one. -/
def afterVirRead (u : BufferedUxfio) (nbyte : Nat) : BufferedUxfio :=
  { u with uxfdM := u.uxfdM.map fun s => (s.read nbyte).2.2 }

theorem virRead_eq (u : BufferedUxfio) (nbyte : Nat) :
    u.virRead nbyte = (u.given nbyte, u.rest.take (u.given nbyte).toNat, u.afterVirRead nbyte) := by
  obtain ⟨base, type, active, auto, buffd, fd⟩ := u
  cases fd with
  | none => rfl
  | some s =>
      simp only [virRead, if_neg (show ¬ (nbyte : Int) < 0 by omega)]
      rfl

theorem rest_afterVirRead (u : BufferedUxfio) (nbyte : Nat) :
    (u.afterVirRead nbyte).rest = u.rest.drop (u.given nbyte).toNat := by
  obtain ⟨base, type, active, auto, buffd, fd⟩ := u
  cases fd with
  | none => rfl
  | some s => rfl

theorem given_le (u : BufferedUxfio) (nbyte : Nat) :
    u.given nbyte ≤ nbyte ∧ u.given nbyte ≤ u.rest.length := by
  obtain ⟨base, type, active, auto, buffd, fd⟩ := u
  cases fd with
  | none => simp [given, rest]
  | some s =>
      simp only [given, rest, ReadPattern.read]
      omega

/-- A read gives nothing only at the end of the stream. -/
theorem rest_of_given_zero {nbyte : Nat} (hn : 0 < nbyte) (h : u.given nbyte = 0) :
    u.rest = [] := by
  obtain ⟨base, type, active, auto, buffd, fd⟩ := u
  cases fd with
  | none => rfl
  | some s =>
      have hne := s.pattern.gives_ne s.reads
      simp only [given, rest, ReadPattern.read] at h ⊢
      rw [← List.length_eq_zero_iff]
      omega

/-- What is read is no more than there is, however much is asked for. -/
theorem given_congr {m n : Nat} (hm : u.rest.length ≤ m) (hn : u.rest.length ≤ n) :
    u.given m = u.given n := by
  obtain ⟨base, type, active, auto, buffd, fd⟩ := u
  cases fd with
  | none => rfl
  | some s =>
      simp only [given, rest, ReadPattern.read] at *
      omega

/-- A read that fails is the first of those that are to come. -/
theorem failsAfter_zero {nbyte : Nat} (h : u.given nbyte < 0) : u.FailsAfter 0 := by
  obtain ⟨base, type, active, auto, buffd, fd⟩ := u
  cases fd with
  | none => exact absurd h (by simp [given])
  | some s =>
      simp only [given, ReadPattern.read] at h
      change s.pattern.gives (s.reads + 0) < 0
      rw [Nat.add_zero]
      omega

/-! ## The buffer after a read -/

/-- A buffer that is put out of use when nothing is left in it. -/
theorem setBufactiveOff_of_right (h : u.right ≤ 0) :
    ({ u with autoDisableM := false } : BufferedUxfio).setBufactiveOff =
      { u with autoDisableM := false, bufferActiveM := false } := by
  rw [setBufactiveOff, if_neg]
  rintro ⟨-, -, hlt⟩
  change u.posM < u.endM at hlt
  have hright : u.right = u.endM - u.posM := rfl
  omega

/-- The underlying descriptor and the kind of buffer are the same. -/
structure Alike (u u' : BufferedUxfio) : Prop where
  fd : u'.uxfdM = u.uxfdM
  type : u'.buffertypeM = u.buffertypeM
  active : u'.bufferActiveM = u.bufferActiveM
  auto : u'.autoDisableM = u.autoDisableM

/-- New bytes end the buffered data at the position. -/
theorem fixBufferMem_new (hf : u.toUxfio.Formed) {p : Bytes} {new : Nat} (hnew : 0 < new)
    (hle : u.buffertypeM ≠ .dynamicMem → u.posM ≤ u.endM)
    (hp : (p.length : Int) = max u.right 0 + new) :
    ∃ u', u.fixBufferMem p.length p new = .returned u' ∧ Alike u u' ∧ u'.toUxfio.Formed ∧
      u'.posM = u'.endM := by
  have hpos := hf.pos_nonneg
  have hple := hf.pos_le
  have hend0 := hf.end_nonneg
  have hend := hf.end_le
  have hsize := hf.size
  have hlen0 : 0 ≤ u.lenM := le_trans hend0 hend
  have hright : u.right = u.endM - u.posM := rfl
  have hunused : u.unused = u.lenM - u.endM := rfl
  have hdynamic : ∃ u', u.fixDynamic p.length p new = .returned u' ∧ Alike u u' ∧
      u'.toUxfio.Formed ∧ u'.posM = u'.endM := by
    obtain ⟨v, hfix, hw, hendv, hlenv⟩ :=
      Uxfio.fixDynamicBuffer_grows hf p new hnew (by omega)
    have hposv := hw.pos
    rw [uxfioAllocAhead] at hlenv
    have hv : v.Formed := {
      pos_nonneg := by omega
      pos_le := by omega
      end_nonneg := by omega
      end_le := by omega
      size := hw.size }
    refine ⟨{ u with toUxfio := v }, ?_, ⟨rfl, rfl, rfl, rfl⟩, hv, ?_⟩
    · rw [fixDynamic, hfix]
      rfl
    · change v.posM = v.endM
      omega
  rw [fixBufferMem, if_pos (by omega)]
  split
  next hall =>
    split
    next => exact hdynamic
    next htype =>
      obtain ⟨kept, hload, hkept⟩ := exists_load
        (show 0 ≤ (p.length : Int) - u.lenM by omega) hlen0
        (show p.length - u.lenM + u.lenM ≤ (p.length : Int) by omega)
      obtain ⟨bufM, hstore, hlen⟩ := exists_store (le_refl 0)
        (show 0 + (kept.length : Int) ≤ u.bufM.length by omega)
      simp only [hload, hstore, Outcome.returned_bind, Outcome.pure_eq]
      refine ⟨_, rfl, ⟨rfl, rfl, rfl, rfl⟩, ?_, rfl⟩
      exact ⟨hlen0, le_refl _, hlen0, le_refl _, by simp only [hlen]; exact hsize⟩
  next hnotall =>
    split
    next hshift =>
      split
      next => exact hdynamic
      next htype =>
        have hle' := hle htype
        obtain ⟨kept, hload, hkept⟩ := exists_load
          (show 0 ≤ (p.length : Int) - u.unused - u.right by omega)
          (show 0 ≤ u.lenM - p.length + u.right by omega)
          (show p.length - u.unused - u.right + (u.lenM - p.length + u.right) ≤
            (u.bufM.length : Int) by omega)
        obtain ⟨mem, hstore, hlen⟩ := exists_store (le_refl 0)
          (show 0 + (kept.length : Int) ≤ u.bufM.length by omega)
        obtain ⟨bufM, hstore', hlen'⟩ := exists_store
          (show 0 ≤ u.lenM - p.length by omega)
          (show u.lenM - p.length + (p.length : Int) ≤ mem.length by omega)
        simp only [hload, hstore, hstore', Outcome.returned_bind, Outcome.pure_eq]
        refine ⟨_, rfl, ⟨rfl, rfl, rfl, rfl⟩, ?_, rfl⟩
        exact ⟨hlen0, le_refl _, hlen0, le_refl _, by
          simp only [hlen', hlen]
          exact hsize⟩
    next hfits =>
      rw [if_pos (by omega)]
      obtain ⟨bufM, hstore, hlen⟩ := exists_store hpos
        (show u.posM + (p.length : Int) ≤ u.bufM.length by omega)
      simp only [hstore, Outcome.returned_bind, Outcome.pure_eq]
      refine ⟨_, rfl, ⟨rfl, rfl, rfl, rfl⟩, ?_, rfl⟩
      have hnew' : 0 ≤ u.posM + p.length ∧ u.posM + p.length ≤ u.lenM := by omega
      exact ⟨hnew'.1, hnew'.2, hnew'.1, hnew'.2, by simp only [hlen]; exact hsize⟩

/-- What goes beyond a block of memory leaves nothing of it behind the position. -/
theorem fixBufferMem_beyond (hf : u.toUxfio.Formed) {p : Bytes} {k : Nat}
    (hle : u.buffertypeM ≠ .dynamicMem → u.posM ≤ u.endM)
    (hp : (p.length : Int) = max u.right 0 + k) :
    ∃ u', u.fixBufferMem p.length p k = .returned u' ∧ Alike u u' ∧ u'.toUxfio.Formed ∧
      u'.right ≤ 0 ∧ (u.buffertypeM ≠ .dynamicMem → u'.posM ≤ u'.endM) := by
  have hright : u.right = u.endM - u.posM := rfl
  rcases Nat.eq_zero_or_pos k with rfl | hk
  · have hpos := hf.pos_nonneg
    have hple := hf.pos_le
    have hend := hf.end_le
    refine ⟨{ u with posM := u.posM + p.length }, ?_, ⟨rfl, rfl, rfl, rfl⟩, ?_, ?_, ?_⟩
    · rw [fixBufferMem, if_neg (by simp)]
      rfl
    · have hpos' : 0 ≤ u.posM + p.length ∧ u.posM + p.length ≤ u.lenM := by omega
      exact ⟨hpos'.1, hpos'.2, hf.end_nonneg, hf.end_le, hf.size⟩
    · change u.endM - (u.posM + p.length) ≤ 0
      omega
    · intro htype
      have hle' := hle htype
      change u.posM + p.length ≤ u.endM
      omega
  · obtain ⟨u', hfix, halike, hf', heq⟩ := fixBufferMem_new hf hk hle hp
    refine ⟨u', hfix, halike, hf', ?_, fun _ => le_of_eq heq⟩
    change u'.endM - u'.posM ≤ 0
    omega

/-- What goes beyond a buffer file is appended to it, if the file is not too long. -/
theorem fixBufferFile_beyond {p : Bytes} {k : Nat} (hle : u.posM ≤ u.endM)
    (hcontent : (u.buffdM.content.length : Int) = u.endM) (hoffset : (u.buffdM.pos : Int) = u.endM)
    (hp : (p.length : Int) = u.right + k) (hroom : u.posM + k ≤ u.lenM) :
    Alike u (u.fixBufferFile p.length p k) ∧
      0 ≤ (u.fixBufferFile p.length p k).posM ∧
      (u.fixBufferFile p.length p k).posM = (u.fixBufferFile p.length p k).endM ∧
      ((u.fixBufferFile p.length p k).buffdM.pos : Int) = (u.fixBufferFile p.length p k).posM ∧
      ((u.fixBufferFile p.length p k).buffdM.content.length : Int) =
        (u.fixBufferFile p.length p k).endM := by
  have hright : u.right = u.endM - u.posM := rfl
  rw [fixBufferFile, if_neg (by omega)]
  rcases Nat.eq_zero_or_pos k with rfl | hk
  · rw [if_neg (by simp)]
    have hadv : (u.advance p.length).posM = u.endM := by
      change u.posM + p.length = u.endM
      omega
    exact ⟨⟨rfl, rfl, rfl, rfl⟩, by omega, hadv, by rw [hadv]; exact hoffset, hcontent⟩
  · rw [if_pos (by omega)]
    simp only [if_neg (show ¬ (u.buffdM.content.length : Int) ≠ u.endM by omega)]
    have hadv : (u.advance p.length).posM = u.endM + k := by
      change u.posM + p.length = u.endM + k
      omega
    have hdrop : (p.drop ((p.length : Int) - k).toNat).length = k := by
      rw [List.length_drop]
      omega
    refine ⟨⟨rfl, rfl, rfl, rfl⟩, by simp only [hadv]; omega, trivial, ?_, ?_⟩
    · simp only [PosixFile.afterWrite, advance, hdrop]
      omega
    · rw [PosixFile.afterWrite_eq (by simp [advance])]
      simp only [advance]
      rw [length_overwrite (le_refl _), hdrop]
      omega

end BufferedUxfio

end Swbis.Io
