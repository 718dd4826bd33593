import Swbis.Lib.Memory
import Swbis.Lib.Strtol

/-!
# Output in blocks

A UXFIO descriptor with an output block size collects what is written to it in
a buffer and hands it down in blocks of that size.  What does not fill a block
is carried over to the next call, and is flushed when the descriptor is closed.

The underlying descriptor may take a block in pieces.  `Accepts` is its
behaviour: how many bytes it takes of a request.  The model records the blocks
handed down, next to the bytes that the descriptor has taken.
-/

namespace Swbis.Io

open CLib

/-- How many bytes the descriptor takes, from the number of the request and its
size; 0 and negative numbers are errors. -/
abbrev Accepts := Nat → Nat → Int

/-- The descriptor makes progress on every request. -/
def Accepts.NoErrors (accepts : Accepts) : Prop :=
  ∀ request n : Nat, 0 < n → 1 ≤ accepts request n ∧ accepts request n ≤ n

/-- The underlying descriptor. -/
structure Sink where
  /-- The bytes it has taken. -/
  delivered : Bytes
  /-- The number of requests it has had. -/
  requests : Nat
  /-- The blocks it was handed. -/
  blocks : List Bytes

/-- The fields of a `UXFIO` that block output uses. -/
structure BlockUxfio where
  /-- `output_block_sizeM` -/
  outputBlockSizeM : Int
  /-- The number of bytes carried over. -/
  outputBufferCM : Int
  /-- The block of memory at `output_bufferM`. -/
  outputBufferM : Bytes
  /-- The underlying descriptor. -/
  uxfdM : Sink

section

variable (accepts : Accepts)

/-- The loop that writes one block in pieces, `while (sub_remains > 0)`. -/
def writePieces (sink : Sink) (subP : Bytes) (subRemains writeRet : Int) : Int × Sink :=
  if 0 < subRemains then
    let subWriteRet := accepts sink.requests subRemains.toNat
    let sink := { sink with
      delivered := sink.delivered ++ (subP.take subRemains.toNat).take subWriteRet.toNat
      requests := sink.requests + 1 }
    if 0 < subWriteRet then
      writePieces sink (subP.drop subWriteRet.toNat) (subRemains - subWriteRet)
        (writeRet + subWriteRet)
    else (-1, sink)
  else (writeRet, sink)
termination_by subRemains.toNat

/-- The variables of the loop of `do_buffered_write2`; `bufp` is always `buf`
moved by `initialRemains`. -/
structure Blocking where
  /-- The `UXFIO` that is written to. -/
  uxfio : BlockUxfio
  /-- The user's bytes that are left. -/
  userp : Bytes
  /-- `initial_remains` -/
  initialRemains : Int
  /-- `remains` -/
  remains : Int
  /-- `user_remains` -/
  userRemains : Int

/-- The loop of `do_buffered_write2`, `while (remains >= bs)`, and what follows
it: the value returned is -1 or `nbyte`. -/
def writeBlocks (fuel : Nat) (b : Blocking) (bs nbyte : Int) : Outcome (Int × BlockUxfio) :=
  match fuel with
  | 0 => .outOfFuel
  | fuel + 1 =>
      if b.remains ≥ bs then do
        let udid := toCInt (bs - b.initialRemains)
        let piece ← load b.userp 0 udid
        let buf ← store b.uxfio.outputBufferM b.initialRemains piece
        let block ← load buf 0 bs
        let sink := { b.uxfio.uxfdM with blocks := b.uxfio.uxfdM.blocks ++ [block] }
        let (writeRet, sink) := writePieces accepts sink block bs 0
        let uxfio := { b.uxfio with outputBufferM := buf, uxfdM := sink }
        if writeRet < 0 then pure (-1, uxfio)
        else if writeRet ≠ bs then pure (-1, { uxfio with outputBufferCM := bs })
        else
          writeBlocks fuel
            { uxfio := uxfio
              userp := b.userp.drop udid.toNat
              initialRemains := 0
              remains := b.remains - writeRet
              userRemains := b.userRemains - udid } bs nbyte
      else do
        let piece ← load b.userp 0 b.userRemains
        let buf ← store b.uxfio.outputBufferM b.initialRemains piece
        pure (nbyte, { b.uxfio with outputBufferM := buf, outputBufferCM := b.remains })

/-- `do_buffered_write2`, that is `uxfio_write` on such a descriptor.  The loop
runs at most once for each byte. -/
def doBufferedWrite2 (uxfio : BlockUxfio) (userbuf : Bytes) : Outcome (Int × BlockUxfio) :=
  let nbyte := toCInt userbuf.length
  let remains := toCInt (uxfio.outputBufferCM + nbyte)
  writeBlocks accepts (remains.toNat + 1)
    { uxfio := uxfio
      userp := userbuf
      initialRemains := uxfio.outputBufferCM
      remains := remains
      userRemains := nbyte } uxfio.outputBlockSizeM nbyte

/-- `do_buffered_flush`, which `uxfio_close` calls. -/
def doBufferedFlush (uxfio : BlockUxfio) : Outcome (Int × BlockUxfio) :=
  if uxfio.outputBlockSizeM = 0 ∨ uxfio.outputBufferCM = 0 then .returned (0, uxfio)
  else
    let saveBs := uxfio.outputBlockSizeM
    let remains := uxfio.outputBufferCM
    let uxfio := { uxfio with outputBufferCM := 0, outputBlockSizeM := remains }
    if remains > saveBs then .returned (-1, uxfio)
    else do
      -- the buffer is its own source, so the copy into it changes nothing
      let piece ← load uxfio.outputBufferM 0 remains
      let (writeRet, uxfio) ← doBufferedWrite2 accepts uxfio piece
      let uxfio := { uxfio with outputBlockSizeM := saveBs }
      if writeRet ≠ remains then pure (-1, uxfio)
      else if uxfio.outputBufferCM > 0 then pure (-1, uxfio)
      else pure (0, uxfio)

/-- `UXFIO_F_SET_OUTPUT_BLOCK_SIZE` on a new descriptor.  The block of memory
has one byte more, and there is none when that size does not fit an `int`. -/
def setOutputBlockSize (value : Nat) : BlockUxfio where
  outputBlockSizeM := value
  outputBufferCM := 0
  outputBufferM := List.replicate (toCInt (value + 1)).toNat 0
  uxfdM := ⟨[], 0, []⟩

/-- A sequence of calls of `uxfio_write`: the counts returned. -/
def writeAll (uxfio : BlockUxfio) : List Bytes → Outcome (List Int × BlockUxfio)
  | [] => .returned ([], uxfio)
  | buf :: bufs => do
      let (ret, uxfio) ← doBufferedWrite2 accepts uxfio buf
      let (rets, uxfio) ← writeAll uxfio bufs
      pure (ret :: rets, uxfio)

end

/-! ## What the output is for -/

/-- Of the bytes `written` so far, those that fill blocks of `bs` bytes have been
delivered behind the blocks `earlier`, and the rest is carried over. -/
structure Carries (earlier : List Bytes) (bs : Nat) (u : BlockUxfio) (written : Bytes) :
    Prop where
  /-- The block size is the one that was set. -/
  size : u.outputBlockSizeM = bs
  /-- The memory holds a block and one byte more. -/
  memory : bs < u.outputBufferM.length
  /-- The carried-over count is in range. -/
  carry : 0 ≤ u.outputBufferCM ∧ u.outputBufferCM < bs
  /-- The delivered bytes and the carried-over ones are those written. -/
  bytes : u.uxfdM.delivered ++ u.outputBufferM.take u.outputBufferCM.toNat = written
  /-- The delivered bytes are the blocks. -/
  delivered : u.uxfdM.delivered = u.uxfdM.blocks.flatten
  /-- Every block behind the earlier ones has the block size. -/
  blocks : ∃ now, u.uxfdM.blocks = earlier ++ now ∧ ∀ b ∈ now, b.length = bs

/-- Nothing is lost: every write is taken whole, the blocks and the carried-over
bytes make up what was written, and the close delivers the rest. -/
def Lossless (accepts : Accepts) (bs : Nat) (bufs : List Bytes) : Prop :=
  ∃ u u', writeAll accepts (setOutputBlockSize bs) bufs =
      .returned (bufs.map fun b => (b.length : Int), u) ∧
    Carries [] bs u bufs.flatten ∧
    doBufferedFlush accepts u = .returned (0, u') ∧ u'.uxfdM.delivered = bufs.flatten

/-- The count of each write fits an `int` together with the bytes that are
carried over to it. -/
def CountsFit (bs : Nat) : (carry : Nat) → List Bytes → Prop
  | _, [] => True
  | carry, buf :: bufs =>
      carry + buf.length < 2 ^ 31 ∧ CountsFit bs ((carry + buf.length) % bs) bufs

/-! ## One block -/

section

variable {accepts : Accepts}

/-- A descriptor that makes progress takes a whole block, in however many pieces. -/
theorem writePieces_eq (h : accepts.NoErrors) (sink : Sink) (p : Bytes) (k : Nat) (w : Int) :
    ∃ requests, writePieces accepts sink p k w =
      (w + k, ⟨sink.delivered ++ p.take k, requests, sink.blocks⟩) := by
  induction k using Nat.strong_induction_on generalizing sink p w with
  | _ k ih =>
      rw [writePieces]
      by_cases hk : k = 0
      · subst hk
        exact ⟨sink.requests, by simp⟩
      · obtain ⟨hpos, hle⟩ := h sink.requests k (by omega)
        obtain ⟨r, hr⟩ := Int.eq_ofNat_of_zero_le (show 0 ≤ accepts sink.requests k by omega)
        rw [if_pos (by omega)]
        simp only [Int.toNat_natCast, hr]
        rw [if_pos (by omega), show (k : Int) - (r : Int) = ((k - r : Nat) : Int) by omega]
        obtain ⟨requests, heq⟩ := ih (k - r) (by omega)
          ⟨sink.delivered ++ (p.take k).take r, sink.requests + 1, sink.blocks⟩ (p.drop r) (w + r)
        refine ⟨requests, ?_⟩
        rw [heq]
        have hsplit : (p.take k).take r ++ (p.drop r).take (k - r) = p.take k := by
          rw [← List.drop_take, List.take_append_drop]
        simp only [List.append_assoc, hsplit, Prod.mk.injEq, and_true]
        omega

/-! ## One write -/

section

variable {earlier : List Bytes} {bs i : Nat} {u : BlockUxfio} {written : Bytes}

/-- Bytes that complete a block are delivered with it. -/
theorem Carries.fill (hu : Carries earlier bs { u with outputBufferCM := i } written) {xs : Bytes}
    (hx : i + xs.length = bs) (requests : Nat) :
    (overwrite u.outputBufferM i xs).take bs = u.outputBufferM.take i ++ xs ∧
      Carries earlier bs
        { u with
          outputBufferCM := (0 : Nat)
          outputBufferM := overwrite u.outputBufferM i xs
          uxfdM := ⟨u.uxfdM.delivered ++ (u.outputBufferM.take i ++ xs), requests,
            u.uxfdM.blocks ++ [u.outputBufferM.take i ++ xs]⟩ } (written ++ xs) := by
  have hmem : bs < u.outputBufferM.length := hu.memory
  have hbytes : u.uxfdM.delivered ++ u.outputBufferM.take i = written := hu.bytes
  have hi : (0 : Int) ≤ i ∧ (i : Int) < bs := hu.carry
  have hblock := take_overwrite_end u.outputBufferM i xs (by omega)
  rw [hx] at hblock
  refine ⟨hblock, ?_⟩
  exact {
    size := hu.size
    memory := by
      simp only [length_overwrite (show i ≤ u.outputBufferM.length by omega)]
      omega
    carry := ⟨le_refl _, by simp only; omega⟩
    bytes := by simp [← hbytes]
    delivered := by
      have hdelivered : u.uxfdM.delivered = u.uxfdM.blocks.flatten := hu.delivered
      simp [hdelivered]
    blocks := by
      obtain ⟨now, hnow, hsize⟩ := hu.blocks
      have hnow' : u.uxfdM.blocks = earlier ++ now := hnow
      refine ⟨now ++ [u.outputBufferM.take i ++ xs], by rw [hnow', List.append_assoc], ?_⟩
      intro b hb
      rcases List.mem_append.mp hb with hb | hb
      · exact hsize b hb
      · rw [List.mem_singleton.mp hb, List.length_append, List.length_take]
        omega }

/-- Bytes that do not complete a block are carried over. -/
theorem Carries.keep (hu : Carries earlier bs { u with outputBufferCM := i } written) {xs : Bytes}
    (hx : i + xs.length < bs) :
    Carries earlier bs
      { u with
        outputBufferCM := (i + xs.length : Nat)
        outputBufferM := overwrite u.outputBufferM i xs } (written ++ xs) := by
  have hmem : bs < u.outputBufferM.length := hu.memory
  have hbytes : u.uxfdM.delivered ++ u.outputBufferM.take i = written := hu.bytes
  exact {
    size := hu.size
    memory := by
      simp only [length_overwrite (show i ≤ u.outputBufferM.length by omega)]
      omega
    carry := ⟨by simp only; omega, by simp only; omega⟩
    bytes := by
      simp only [Int.toNat_natCast]
      rw [take_overwrite_end _ _ _ (by omega), ← List.append_assoc, hbytes]
    delivered := hu.delivered
    blocks := hu.blocks }

/-- The loop hands down the blocks that the carried-over bytes and the user's
make up, and carries over the rest. -/
theorem writeBlocks_carries (h : accepts.NoErrors) (hbs : 0 < bs) (hint : bs < 2 ^ 31)
    (nbyte : Int) {fuel : Nat} {userp : Bytes} (c : Int)
    (hu : Carries earlier bs { u with outputBufferCM := i } written) (hfuel : i + userp.length < fuel) :
    ∃ u', writeBlocks accepts fuel ⟨{ u with outputBufferCM := c }, userp, i,
        (i + userp.length : Nat), userp.length⟩ bs nbyte = .returned (nbyte, u') ∧
      Carries earlier bs u' (written ++ userp) ∧
      u'.outputBufferCM = ((i + userp.length) % bs : Nat) := by
  induction fuel generalizing u userp written i c with
  | zero => omega
  | succ fuel ih =>
      have hmem : bs < u.outputBufferM.length := hu.memory
      have hi : (0 : Int) ≤ i ∧ (i : Int) < bs := hu.carry
      rw [writeBlocks]
      by_cases hfull : bs ≤ i + userp.length
      · have hudid : toCInt ((bs : Int) - (i : Int)) = (bs - i : Nat) := by
          rw [show (bs : Int) - (i : Int) = (bs - i : Nat) by omega]
          exact toCInt_of_lt (by omega)
        have hpiece : (userp.take (bs - i)).length = bs - i := by
          rw [List.length_take]
          omega
        have hfill := hu.fill (show i + (userp.take (bs - i)).length = bs by omega)
        have hblock := (hfill 0).1
        have hload := load_eq userp 0 (bs - i) (by omega)
        have hstore := store_eq u.outputBufferM i (userp.take (bs - i)) (by omega)
        have hload' := load_eq (overwrite u.outputBufferM i (userp.take (bs - i))) 0 bs
          (by have := (hfill 0).2.memory; simp only at this; omega)
        rw [List.drop_zero, Nat.cast_zero] at hload hload'
        rw [hblock] at hload'
        obtain ⟨requests, hwrite⟩ := writePieces_eq h
          { u.uxfdM with blocks :=
            u.uxfdM.blocks ++ [u.outputBufferM.take i ++ userp.take (bs - i)] }
          (u.outputBufferM.take i ++ userp.take (bs - i)) bs 0
        rw [if_pos (by simp only; omega)]
        simp only [hudid, hload, hstore, hload', Outcome.returned_bind, hwrite]
        have hwhole : (u.outputBufferM.take i ++ userp.take (bs - i)).take bs =
            u.outputBufferM.take i ++ userp.take (bs - i) :=
          List.take_of_length_le (by rw [List.length_append, List.length_take]; omega)
        have hrest : (userp.drop (bs - i)).length = i + userp.length - bs := by
          rw [List.length_drop]
          omega
        obtain ⟨u', hrun, hcarries, hcount⟩ := @ih 0
          { u with
            outputBufferM := overwrite u.outputBufferM i (userp.take (bs - i))
            uxfdM := ⟨u.uxfdM.delivered ++ (u.outputBufferM.take i ++ userp.take (bs - i)), requests,
              u.uxfdM.blocks ++ [u.outputBufferM.take i ++ userp.take (bs - i)]⟩ }
          _ (userp.drop (bs - i)) c (hfill requests).2 (by omega)
        rw [if_neg (by omega), if_neg (by omega), hwhole]
        refine ⟨u', ?_, ?_, ?_⟩
        · rw [← hrun, hrest]
          congr 2
          · omega
          · omega
        · rwa [List.append_assoc, List.take_append_drop] at hcarries
        · rw [hcount, hrest, Nat.zero_add, ← Nat.mod_eq_sub_mod hfull]
      · have hload := load_eq userp 0 userp.length (by omega)
        have hstore := store_eq u.outputBufferM i userp (by omega)
        rw [List.drop_zero, List.take_length, Nat.cast_zero] at hload
        rw [if_neg (by simp only; omega)]
        simp only [hload, hstore, Outcome.returned_bind, Outcome.pure_eq]
        exact ⟨_, rfl, hu.keep (by omega), by rw [Nat.mod_eq_of_lt (by omega)]⟩

/-- A write whose count fits is taken whole. -/
theorem doBufferedWrite2_carries (h : accepts.NoErrors) (hbs : 0 < bs) (hint : bs < 2 ^ 31)
    {c : Nat} (hc : u.outputBufferCM = c) (hu : Carries earlier bs u written) {userbuf : Bytes}
    (hfit : c + userbuf.length < 2 ^ 31) :
    ∃ u', doBufferedWrite2 accepts u userbuf = .returned (userbuf.length, u') ∧
      Carries earlier bs u' (written ++ userbuf) ∧
      u'.outputBufferCM = ((c + userbuf.length) % bs : Nat) := by
  have hn : toCInt (userbuf.length : Int) = userbuf.length := toCInt_of_lt (by omega)
  have hremains : toCInt ((c : Int) + userbuf.length) = (c + userbuf.length : Nat) := by
    rw [← Nat.cast_add]
    exact toCInt_of_lt hfit
  have hsame : { u with outputBufferCM := (c : Int) } = u := by rw [← hc]
  obtain ⟨u', hrun, hcarries, hcount⟩ := writeBlocks_carries h hbs hint userbuf.length (c : Int)
    (hsame ▸ hu) (Nat.lt_succ_self (c + userbuf.length))
  rw [hsame] at hrun
  refine ⟨u', ?_, hcarries, hcount⟩
  simp only [doBufferedWrite2, hn, hc, hremains, hu.size, Int.toNat_natCast]
  exact hrun

/-- The flush delivers what is carried over. -/
theorem doBufferedFlush_delivers (h : accepts.NoErrors) (hint : bs < 2 ^ 31)
    (hu : Carries earlier bs u written) :
    ∃ u', doBufferedFlush accepts u = .returned (0, u') ∧ u'.uxfdM.delivered = written := by
  obtain ⟨hc0, hlt⟩ := hu.carry
  obtain ⟨c, hc⟩ := Int.eq_ofNat_of_zero_le hc0
  have hbytes := hu.bytes
  have hsize := hu.size
  have hmem := hu.memory
  rw [hc, Int.toNat_natCast] at hbytes
  rw [doBufferedFlush]
  by_cases hzero : c = 0
  · rw [if_pos (.inr (by omega))]
    rw [hzero, List.take_zero, List.append_nil] at hbytes
    exact ⟨u, rfl, hbytes⟩
  · have hpiece : (u.outputBufferM.take c).length = c := by
      rw [List.length_take]
      omega
    have hload := load_eq u.outputBufferM 0 c (by omega)
    rw [List.drop_zero, Nat.cast_zero] at hload
    have hstart : Carries u.uxfdM.blocks c
        { u with outputBufferCM := (0 : Nat), outputBlockSizeM := c } u.uxfdM.delivered := {
      size := rfl
      memory := by simp only; omega
      carry := ⟨le_refl _, by simp only; omega⟩
      bytes := by simp
      delivered := hu.delivered
      blocks := ⟨[], by simp, by simp⟩ }
    have hfit : 0 + (u.outputBufferM.take c).length < 2 ^ 31 := by omega
    obtain ⟨u', hrun, hcarries, hcount⟩ :=
      doBufferedWrite2_carries h (by omega) (by omega) rfl hstart hfit
    rw [hpiece, Nat.zero_add, Nat.mod_self, Nat.cast_zero] at hcount
    rw [hpiece, Nat.cast_zero] at hrun
    have hdone := hcarries.bytes
    rw [hcount, Int.toNat_zero, List.take_zero, List.append_nil, hbytes] at hdone
    refine ⟨{ u' with outputBlockSizeM := u.outputBlockSizeM }, ?_, hdone⟩
    rw [if_neg (by omega), hc, if_neg (by omega), hload, Outcome.returned_bind, hrun,
      Outcome.returned_bind]
    simp only [hcount]
    rw [if_neg (not_not.mpr rfl), if_neg (lt_irrefl (0 : Int))]
    rfl

/-- A sequence of writes whose counts fit is taken whole. -/
theorem writeAll_carries (h : accepts.NoErrors) (hbs : 0 < bs) (hint : bs < 2 ^ 31)
    {c : Nat} (hc : u.outputBufferCM = c) (hu : Carries earlier bs u written) {bufs : List Bytes}
    (hfit : CountsFit bs c bufs) :
    ∃ u', writeAll accepts u bufs = .returned (bufs.map fun b => (b.length : Int), u') ∧
      Carries earlier bs u' (written ++ bufs.flatten) := by
  induction bufs generalizing u written c with
  | nil => exact ⟨u, rfl, by simpa using hu⟩
  | cons buf bufs ih =>
      obtain ⟨u₁, hwrite, hcarries, hcount⟩ := doBufferedWrite2_carries h hbs hint hc hu hfit.1
      obtain ⟨u₂, hrun, hcarries₂⟩ := ih hcount hcarries hfit.2
      refine ⟨u₂, ?_, by simpa using hcarries₂⟩
      rw [writeAll, hwrite]
      simp only [Outcome.returned_bind, hrun, Outcome.pure_eq, List.map_cons]

end

end

/-- A new descriptor has written nothing. -/
theorem setOutputBlockSize_carries {bs : Nat} (hbs : 0 < bs) (hint : bs + 1 < 2 ^ 31) :
    Carries [] bs (setOutputBlockSize bs) [] where
  size := rfl
  memory := by
    have hn : toCInt ((bs : Int) + 1) = (bs + 1 : Nat) := toCInt_of_lt hint
    simp only [setOutputBlockSize, hn, Int.toNat_natCast, List.length_replicate]
    omega
  carry := ⟨le_refl (0 : Int), by simp only [setOutputBlockSize]; omega⟩
  bytes := rfl
  delivered := rfl
  blocks := ⟨[], rfl, by simp⟩

/-- Block output loses nothing when the block size and the counts fit an `int`. -/
theorem blockOutput_lossless (accepts : Accepts) (h : accepts.NoErrors) (bs : Nat) (hbs : 0 < bs)
    (hint : bs + 1 < 2 ^ 31) (bufs : List Bytes) (hfit : CountsFit bs 0 bufs) :
    Lossless accepts bs bufs := by
  obtain ⟨u, hrun, hcarries⟩ := writeAll_carries h hbs (by omega)
    (show (setOutputBlockSize bs).outputBufferCM = ((0 : Nat) : Int) from rfl) (setOutputBlockSize_carries hbs hint) hfit
  rw [List.nil_append] at hcarries
  obtain ⟨u', hflush, hdelivered⟩ := doBufferedFlush_delivers h (by omega) hcarries
  exact ⟨u, u', hrun, hcarries, hflush, hdelivered⟩

theorem blockOutput_lossless_bytewise :
    Lossless (fun _ _ => 1) 4 [[1, 2, 3], [], [4, 5, 6, 7, 8, 9]] :=
  blockOutput_lossless (fun _ _ => 1) (fun _ _ hn => ⟨le_refl 1, Int.ofNat_le.mpr hn⟩) 4 (by decide) (by decide)
    [[1, 2, 3], [], [4, 5, 6, 7, 8, 9]] (by simp [CountsFit])

/-- On a new descriptor a write of 2^32 bytes is a write of none. -/
theorem doBufferedWrite2_wide (accepts : Accepts) {bs : Nat} (hbs : 0 < bs)
    (hint : bs + 1 < 2 ^ 31) {userbuf : Bytes} (hlen : userbuf.length = 2 ^ 32) :
    ∃ u', doBufferedWrite2 accepts (setOutputBlockSize bs) userbuf = .returned (0, u') := by
  have hzero : toCInt (userbuf.length : Int) = 0 := by
    rw [hlen]
    decide
  have hremains : toCInt ((setOutputBlockSize bs).outputBufferCM + 0) = 0 :=
    show toCInt 0 = 0 by decide
  have hmem := (setOutputBlockSize_carries hbs hint).memory
  have hload := load_eq userbuf 0 0 (by omega)
  have hstore := store_eq (setOutputBlockSize bs).outputBufferM 0 [] (by simp)
  rw [List.take_zero, Nat.cast_zero] at hload
  rw [Nat.cast_zero] at hstore
  rw [doBufferedWrite2, hzero, hremains, Int.toNat_zero, writeBlocks, if_neg]
  · rw [hload, Outcome.returned_bind]
    simp only [show (setOutputBlockSize bs).outputBufferCM = 0 from rfl]
    rw [hstore, Outcome.returned_bind]
    exact ⟨_, rfl⟩
  · simp only [setOutputBlockSize]
    omega

/-- A write of 2^32 bytes, to a descriptor that takes every request whole. -/
def wideWrite : List Bytes := [List.replicate (2 ^ 32) 65]

theorem wideWrite_lost : ¬ Lossless (fun _ n => n) 512 wideWrite := by
  rintro ⟨u, u', hrun, -⟩
  obtain ⟨v, hwrite⟩ := doBufferedWrite2_wide (fun _ n => n) (show 0 < 512 by decide) (by decide)
    (List.length_replicate : (List.replicate (2 ^ 32) (65 : UInt8)).length = 2 ^ 32)
  rw [wideWrite, writeAll, hwrite, Outcome.returned_bind] at hrun
  simp only [writeAll, Outcome.returned_bind, Outcome.pure_eq, Outcome.returned.injEq,
    Prod.mk.injEq, List.map_cons, List.cons.injEq, List.length_replicate] at hrun
  exact absurd hrun.1.1 (by decide)

end Swbis.Io
