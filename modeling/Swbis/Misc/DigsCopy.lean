import Swbis.Lib.FullRead
import Swbis.Lib.Numeral
import Swbis.Misc.Md5
import Swbis.Misc.Sha
import Swbis.Misc.Sha512
import Swbis.Taru.ReadTar

/-!
# Copies with digests

`swlib_i_digs_copy` moves bytes in pieces of 512 from a reader to two descriptors,
all of them or a requested amount, and on the way computes the digests that are
enabled and the size.  `sha_block` and `sha512_block` hand a piece of 512 bytes to the
compression function without regard to what is pending, so the digests are right only
because no piece of another length comes before one of 512.

The reader is `swlib_safe_read`, or `taru_tape_buffered_read`, which on a plain
descriptor loses the bytes of a read that cannot be filled.  `swlibDigsCopy_spec` and
`swlibPumpAmount8_spec` say what is moved, and that the digests and the size are those
of what is moved.

The delays and the progress meter are left out.
-/

namespace Swbis.Misc

open CLib

/-! ## Hexadecimal text -/

/-- A digit that `sprintf ("%02x")` prints. -/
def hexLow (n : Nat) : UInt8 := UInt8.ofNat (if n < 10 then 48 + n else 87 + n)

/-- `sprintf ("%02x", b)` -/
def hexByte (b : UInt8) : Bytes := [hexLow (b.toNat / 16), hexLow (b.toNat % 16)]

/-- Some bytes as text. -/
def hexDigits (bs : Bytes) : Bytes := bs.flatMap hexByte

theorem length_hexDigits (bs : Bytes) : (hexDigits bs).length = 2 * bs.length := by
  induction bs with
  | nil => rfl
  | cons b bs ih =>
      rw [hexDigits, List.flatMap_cons, List.length_append, ← hexDigits, ih, List.length_cons]
      change 2 + 2 * bs.length = _
      omega

/-- The loop that prints the bytes one after another, each with a NUL behind it. -/
def sprintfHex {n : Nat} (p : Nat) : Bytes → CField n → Outcome (CField n)
  | [], f => .returned f
  | b :: bs, f => f.store p (hexByte b ++ [0]) >>= fun f => sprintfHex (p + 2) bs f

/-! ## The descriptors -/

/-- The loop of `atomicio (uxfio_write, fd, buf, n)`, with `pos` bytes written. -/
def atomicioFrom (fd : Sink) (buf : Bytes) (pos : Int) : Int × Sink :=
  if 0 < buf.length then
    let r := fd.write (buf.take 512)
    if r.1 < 0 then (-1, r.2)
    else if r.1 = 0 then (0, r.2)
    else atomicioFrom r.2 (buf.drop r.1.toNat) (pos + r.1)
  else (pos, fd)
termination_by buf.length
decreasing_by
  next hpos hneg hzero =>
    rw [List.length_drop]
    change ¬(fd.write (buf.take 512)).1 < 0 at hneg
    change ¬(fd.write (buf.take 512)).1 = 0 at hzero
    omega

/-- `atomicio` -/
def atomicio (fd : Sink) (buf : Bytes) : Int × Sink := atomicioFrom fd buf 0

/-- A piece is written, if there is a descriptor. -/
def writePiece (fd : Option Sink) (buf : Bytes) : Int × Option Sink :=
  match fd with
  | none => (buf.length, none)
  | some fd => ((atomicio fd buf).1, some (atomicio fd buf).2)

/-- `swlib_safe_read` -/
def swlibSafeRead (fd : Source) (nbyte : Nat) : Int × Bytes × Source :=
  if nbyte = 0 then (0, [], fd)
  else
    let r := fd.fill nbyte []
    (if r.1 < 0 then r.1 else r.2.1.length, r.2)

/-- `swlib_safe_read` gives what there is if it is less than wanted. -/
def safeReader : FullReader Source where
  read := swlibSafeRead
  rest := Source.rest
  keeps _ := true
  Sound := Source.Reliable
  read_cases := by
    intro fd n
    have hgiven : given true n fd.rest = fd.rest.take n := if_pos (.inr rfl)
    rw [hgiven]
    by_cases hzero : n = 0
    · rw [swlibSafeRead, if_pos hzero, hzero]
      exact .inr ⟨rfl, rfl, rfl, rfl, id⟩
    have hlt : ([] : Bytes).length < n := Nat.pos_of_ne_zero hzero
    rw [swlibSafeRead, if_neg hzero]
    dsimp only
    rcases @Source.fill_cases fd n [] hlt with hneg | ⟨k, fd', hfill, hnonneg, -, hrest⟩
    · rw [if_pos hneg]
      refine .inl ⟨hneg, fun hrel => ?_⟩
      have hfine := (hrel.fill n []).1
      omega
    · have hrel := fun h : fd.Reliable => (h.fill n []).2
      rw [hfill] at hrel ⊢
      rw [List.length_nil, Nat.sub_zero] at hrest
      dsimp only
      rw [if_neg (Int.not_lt.mpr hnonneg), List.length_nil, Nat.sub_zero, List.nil_append]
      exact .inr ⟨rfl, rfl, hrest, rfl, hrel⟩

/-- A read of the tape. -/
theorem taruTapeBufferedRead_cases (fd : Taru.InDes) (n : Nat) :
    ((Taru.taruTapeBufferedRead fd n).1 : Int) =
        (given (decide (fd.kind = .uxfio)) n fd.data).length ∧
      (Taru.taruTapeBufferedRead fd n).2.1 = given (decide (fd.kind = .uxfio)) n fd.data ∧
      (Taru.taruTapeBufferedRead fd n).2.2.data = fd.data.drop n ∧
      (Taru.taruTapeBufferedRead fd n).2.2.kind = fd.kind := by
  rw [Taru.taruTapeBufferedRead, given]
  by_cases hle : n ≤ fd.data.length
  · rw [if_pos hle, if_pos (.inl hle)]
    refine ⟨?_, rfl, rfl, rfl⟩
    rw [List.length_take, Nat.min_eq_left hle]
  · have hdrop : fd.data.drop n = [] := List.drop_of_length_le (by omega)
    have htake : fd.data.take n = fd.data := List.take_of_length_le (by omega)
    rw [if_neg hle, hdrop, htake]
    cases hkind : fd.kind with
    | unix =>
        rw [if_neg (by simpa using hle)]
        exact ⟨rfl, rfl, rfl, rfl⟩
    | uxfio =>
        rw [if_pos (.inr rfl)]
        exact ⟨rfl, rfl, rfl, rfl⟩

theorem tapeReader_cases (fd : Taru.InDes) (n : Nat) :
    ((Taru.taruTapeBufferedRead fd n).1 : Int) < 0 ∧ ¬True ∨
      ((Taru.taruTapeBufferedRead fd n).1 : Int) =
          (given (decide (fd.kind = .uxfio)) n fd.data).length ∧
        (Taru.taruTapeBufferedRead fd n).2.1 = given (decide (fd.kind = .uxfio)) n fd.data ∧
        (Taru.taruTapeBufferedRead fd n).2.2.data = fd.data.drop n ∧
        decide ((Taru.taruTapeBufferedRead fd n).2.2.kind = .uxfio) =
          decide (fd.kind = .uxfio) ∧ (True → True) := by
  obtain ⟨hret, hbytes, hrest, hkind⟩ := taruTapeBufferedRead_cases fd n
  exact .inr ⟨hret, hbytes, hrest, by rw [hkind], id⟩

/-- `taru_tape_buffered_read` on a plain descriptor gives nothing if there is less
than wanted. -/
def tapeReader : FullReader Taru.InDes where
  read fd n := ((Taru.taruTapeBufferedRead fd n).1, (Taru.taruTapeBufferedRead fd n).2)
  rest := Taru.InDes.data
  keeps fd := fd.kind = .uxfio
  Sound _ := True
  read_cases := tapeReader_cases

/-! ## `swlib_i_digs_copy` -/

/-- A `FILE_DIGS`: each text, and whether it is wanted. -/
structure FileDigs where
  md5 : CField 33
  doMd5 : Int
  sha1 : CField 41
  doSha1 : Int
  sha512 : CField 129
  doSha512 : Int
  size : CField 32
  doSize : Int

/-- `DIGS_ENABLE_ON` -/
def digsEnableOn : Int := 1

/-- `DIGS_ENABLE_OFF` -/
def digsEnableOff : Int := 0

/-- `swlib_imaxtostr` -/
def swlibImaxtostr (i : Int) : Bytes :=
  if i < 0 then 45 :: decimal.render i.natAbs else decimal.render i.toNat

/-- `swlib_md5_from_memblocks`: what is in `digest`, and the context. -/
def swlibMd5FromMemblocks (o : ByteOrder) (ctx : Md5.Md5Context) (digest : CField 33)
    (iblock : Option Bytes) (icount : Int) : Outcome (CField 33 × Md5.Md5Context) :=
  if iblock.isNone ∧ icount < 0 then .returned (digest, Md5.md5Init o ctx false)
  else if 0 < icount then
    match iblock with
    | none => .fault
    | some mem =>
        load mem 0 icount >>= fun buf =>
          Md5.md5Update o ctx buf >>= fun ctx => .returned (digest, ctx)
  else
    Md5.md5Final o ctx >>= fun (bindigest, ctx) =>
      digest.store 0 (hexDigits bindigest ++ [0]) >>= fun digest => .returned (digest, ctx)

/-- The loop that updates the MD5 context, `while (am > 0)`. -/
def md5Pieces (o : ByteOrder) (ctx : Md5.Md5Context) (digest : CField 33) (p5 : Bytes) :
    Outcome (CField 33 × Md5.Md5Context) :=
  if 0 < p5.length then
    swlibMd5FromMemblocks o ctx digest (some p5) (min p5.length 1024) >>= fun (digest, ctx) =>
      md5Pieces o ctx digest (p5.drop 1024)
  else .returned (digest, ctx)
termination_by p5.length
decreasing_by
  rw [List.length_drop]
  omega

/-- What a call of `sha_block` stores in `resblock`. -/
def storeResult {n : Nat} (res : CField n) (resblock : Option Bytes) : Outcome (CField n) :=
  match resblock with
  | none => .returned res
  | some digest => res.store 0 digest

/-- The variables of `swlib_i_digs_copy`.  A descriptor that is not given is `none`. -/
structure DigsCopy where
  digs : Option FileDigs
  md5ctx : Md5.Md5Context
  sha1ctx : Sha.ShaCtx
  resSha1 : CField 21
  sha512ctx : Sha512.Sha512Ctx
  resSha512 : CField 65
  ofd : Option Sink
  adjunctOfd : Option Sink
  retval : Int

/-- A `FILE_DIGS` of NULs. -/
def zeroDigs : FileDigs := ⟨.zero 33, 0, .zero 41, 0, .zero 129, 0, .zero 32, 0⟩

/-- Memory of NULs. -/
def zeroCopy : DigsCopy :=
  ⟨none, ⟨Md5.Regs.start, ⟨0, 0⟩, .zero 64, false⟩,
    ⟨Sha.Regs.start, ⟨0, 0⟩, 0, .zero 128⟩, .zero 21,
    ⟨Sha512.Regs.start512, ⟨0, 0⟩, 0, .zero 256⟩, .zero 65, none, none, 0⟩

/-- Five bytes, two a read. -/
def twoARead : Source := ⟨⟨fun _ => 2, fun _ => by decide⟩, 0, [104, 101, 108, 108, 111], false⟩

namespace DigsCopy

section

variable (o : ByteOrder) (unaligned : Bool)

/-- `if (digs && digs->field == DIGS_ENABLE_ON)` -/
def whenOn (c : DigsCopy) (field : FileDigs → Int) (f : FileDigs → Outcome DigsCopy) :
    Outcome DigsCopy :=
  match c.digs with
  | none => .returned c
  | some digs => if field digs = digsEnableOn then f digs else .returned c

/-- A call of `swlib_md5_from_memblocks` without data. -/
def md5Call (icount : Int) (c : DigsCopy) : Outcome DigsCopy :=
  c.whenOn FileDigs.doMd5 fun digs =>
    swlibMd5FromMemblocks o c.md5ctx digs.md5 none icount >>= fun (md5, md5ctx) =>
      .returned { c with digs := some { digs with md5 }, md5ctx }

/-- The calls of `swlib_md5_from_memblocks` for a piece. -/
def md5Data (buf : Bytes) (c : DigsCopy) : Outcome DigsCopy :=
  c.whenOn FileDigs.doMd5 fun digs =>
    md5Pieces o c.md5ctx digs.md5 buf >>= fun (md5, md5ctx) =>
      .returned { c with digs := some { digs with md5 }, md5ctx }

/-- A call of `sha_block`. -/
def shaCall (iblock : Option Bytes) (icount : Int) (c : DigsCopy) : Outcome DigsCopy :=
  c.whenOn FileDigs.doSha1 fun _ =>
    Sha.shaBlock o c.sha1ctx iblock icount >>= fun (resblock, sha1ctx) =>
      storeResult c.resSha1 resblock >>= fun resSha1 =>
        .returned { c with sha1ctx, resSha1 }

/-- A call of `sha512_block`. -/
def sha512Call (iblock : Option Bytes) (icount : Int) (c : DigsCopy) : Outcome DigsCopy :=
  c.whenOn FileDigs.doSha512 fun _ =>
    Sha512.sha512Block o unaligned c.sha512ctx iblock icount >>= fun (resblock, sha512ctx) =>
      storeResult c.resSha512 resblock >>= fun resSha512 =>
        .returned { c with sha512ctx, resSha512 }

/-- The contexts are set up. -/
def initDigests (c : DigsCopy) : Outcome DigsCopy :=
  c.md5Call o (-1) >>= fun c =>
    c.shaCall o none (-1) >>= fun c => c.sha512Call o unaligned none (-1)

/-- The digests take a piece. -/
def updateDigests (buf : Bytes) (c : DigsCopy) : Outcome DigsCopy :=
  c.md5Data o buf >>= fun c =>
    c.shaCall o (some buf) buf.length >>= fun c =>
      c.sha512Call o unaligned (some buf) buf.length

/-- The writes of a piece, and whether one of them fails. -/
def emit (buf : Bytes) (c : DigsCopy) : Bool × DigsCopy :=
  let wr := writePiece c.ofd buf
  if wr.1 < 0 then (true, { c with ofd := wr.2 })
  else
    let ret := writePiece c.adjunctOfd buf
    (ret.1 < 0, { c with ofd := wr.2, adjunctOfd := ret.2, retval := c.retval + wr.1 })

/-- `readamount` -/
def readamount (count : Int) (c : DigsCopy) : Int :=
  if count ≥ 0 then (if count - c.retval > 512 then 512 else count - c.retval) else 512

variable {σ : Type} (f : FullReader σ)

/-- The loop: whether a call fails, the reader and the variables. -/
def loop (count : Int) (ifd : σ) (c : DigsCopy) : Outcome (Bool × σ × DigsCopy) :=
  let r := f.read ifd (c.readamount count).toNat
  if r.1 < 0 then .returned (true, r.2.2, c)
  else if r.1 = 0 then .returned (false, r.2.2, c)
  else
    c.updateDigests o unaligned r.2.1 >>= fun c =>
      let w := c.emit r.2.1
      if w.1 then .returned (true, r.2.2, w.2)
      else if w.2.retval < count ∨ count < 0 then loop count r.2.2 w.2
      else .returned (false, r.2.2, w.2)
termination_by (f.rest ifd).length
decreasing_by
  next c₀ hneg hzero _ _ =>
    refine f.length_rest_lt ?_
    change ¬(f.read ifd (c₀.readamount count).toNat).1 < 0 at hneg
    change ¬(f.read ifd (c₀.readamount count).toNat).1 = 0 at hzero
    omega

/-- The digests are completed. -/
def finishDigests (c : DigsCopy) : Outcome DigsCopy :=
  c.md5Call o 0 >>= fun c =>
    (c.whenOn FileDigs.doMd5 fun digs =>
      digs.md5.store 32 [0] >>= fun md5 =>
        .returned { c with digs := some { digs with md5 } }) >>= fun c =>
      c.shaCall o none 0 >>= fun c => c.sha512Call o unaligned none 0

/-- The size is stored. -/
def storeSize (c : DigsCopy) : DigsCopy :=
  { c with digs := c.digs.map fun digs =>
      if digs.doSize ≠ 0 then
        { digs with size := CField.strncpyTerm 31 (swlibImaxtostr c.retval) }
      else digs }

/-- The text of the SHA-1 digest is stored. -/
def storeSha1 (c : DigsCopy) : Outcome DigsCopy :=
  c.whenOn FileDigs.doSha1 fun digs =>
    sprintfHex 0 (c.resSha1.bytes.take 20) digs.sha1 >>= fun sha1 =>
      sha1.store 40 [0] >>= fun sha1 =>
        sha1.store 40 [0] >>= fun sha1 =>
          .returned { c with digs := some { digs with sha1 } }

/-- The text of the SHA-512 digest is stored. -/
def storeSha512 (c : DigsCopy) : Outcome DigsCopy :=
  c.whenOn FileDigs.doSha512 fun digs =>
    sprintfHex 0 (c.resSha512.bytes.take 64) digs.sha512 >>= fun sha512 =>
      sha512.store 128 [0] >>= fun sha512 =>
        .returned { c with digs := some { digs with sha512 } }

/-- `swlib_i_digs_copy`: the value returned, the reader and the variables. -/
def swlibIDigsCopy (count : Int) (ifd : σ) (c : DigsCopy) : Outcome (Int × σ × DigsCopy) :=
  { c with retval := 0 }.initDigests o unaligned >>= fun c =>
    c.loop o unaligned f count ifd >>= fun (failed, ifd, c) =>
      if failed then .returned (-1, ifd, c)
      else
        c.finishDigests o unaligned >>= fun c =>
          c.storeSize.storeSha1 >>= fun c =>
            c.storeSha512 >>= fun c => .returned (c.retval, ifd, c)

end

end DigsCopy

/-! ## Text of digests -/

theorem take_sprintfHex {n p : Nat} {bs : Bytes} {f : CField n} (h : p + 2 * bs.length < n) :
    ∃ g, sprintfHex p bs f = .returned g ∧
      g.bytes.take (p + 2 * bs.length) = f.bytes.take p ++ hexDigits bs := by
  induction bs generalizing p f with
  | nil => exact ⟨f, rfl, (List.append_nil _).symm⟩
  | cons b bs ih =>
      rw [List.length_cons] at h ⊢
      obtain ⟨f₁, hstore, hf⟩ := f.store_bytes p (hexByte b ++ [0]) (by change p + 3 ≤ n; omega)
      obtain ⟨g, hret, hg⟩ := @ih (p + 2) f₁ (by omega)
      have hlen : p + 2 * (bs.length + 1) = p + 2 + 2 * bs.length := by omega
      have hsize := f.size_eq
      have hle : p + (hexByte b).length ≤ f.bytes.length := by
        change p + 2 ≤ f.bytes.length
        omega
      have hfront : f₁.bytes.take (p + 2) = f.bytes.take p ++ hexByte b := by
        have hover := take_overwrite_end f.bytes p (hexByte b ++ [0]) (by omega)
        rw [← hf] at hover
        have hcut := congrArg (List.take (p + 2)) hover
        rw [List.take_take, ← List.append_assoc, List.take_left' (by
          rw [List.length_append, List.length_take]
          change min p f.bytes.length + 2 = p + 2
          omega)] at hcut
        change f₁.bytes.take (min (p + 2) (p + 3)) = _ at hcut
        rwa [Nat.min_eq_left (by omega)] at hcut
      refine ⟨g, ?_, ?_⟩
      · rw [sprintfHex, hstore, Outcome.returned_bind, hret]
      · rw [hlen, hg, hfront, List.append_assoc]
        rfl

/-- A NUL in the last byte of a field. -/
theorem store_last {n : Nat} (f : CField (n + 1)) :
    ∃ g, f.store n [0] = .returned g ∧ g.bytes = f.bytes.take n ++ [0] := by
  have hsize := f.size_eq
  obtain ⟨g, hstore, hg⟩ := f.store_bytes n [0] (Nat.le_refl _)
  refine ⟨g, hstore, ?_⟩
  rw [hg, overwrite, List.drop_of_length_le (by rw [hsize]; exact Nat.le_refl _), List.append_nil]

theorem length_md5 (msg : Bytes) : (Md5.md5 msg).length = 16 := by
  rw [Md5.md5, Md5.Regs.bytes]
  simp only [List.length_append, length_bytesLE]

theorem length_sha1 (msg : Bytes) : (Sha.sha1 msg).length = 20 := by
  rw [Sha.sha1, Sha.Regs.bytes]
  simp only [List.length_append, ByteOrder.length_bytes]

theorem length_sha512 (msg : Bytes) : (Sha512.sha512 msg).length = 64 := by
  rw [Sha512.sha512, Sha512.Regs.bytes512, Sha512.Regs.bytes384]
  simp only [List.length_append, ByteOrder.length_bytes]

/-! ## The writes -/

/-- A descriptor takes some bytes at every write, or reports an error. -/
def NeverStalls (fd : Option Sink) : Prop := ∀ s ∈ fd, ∀ k, s.pattern.takes k ≠ 0

/-- No write fails. -/
def NeverFails (fd : Option Sink) : Prop := ∀ s ∈ fd, ∀ k, 0 < s.pattern.takes k

theorem NeverFails.neverStalls {fd : Option Sink} (h : NeverFails fd) : NeverStalls fd := by
  intro s hs k
  exact Int.ne_of_gt (h s hs k)

theorem neverStalls_none : NeverStalls none := fun s hs => absurd hs (Option.not_mem_none s)

theorem neverFails_none : NeverFails none := fun s hs => absurd hs (Option.not_mem_none s)

/-- Some bytes have gone to a descriptor, if there is one. -/
inductive Wrote : Option Sink → Option Sink → Bytes → Prop where
  | none {bs : Bytes} : Wrote none none bs
  | some {s s' : Sink} {bs : Bytes} : s'.pattern = s.pattern → s'.out = s.out ++ bs →
      Wrote (some s) (some s') bs

namespace Wrote

variable {fd fd' fd'' : Option Sink} {bs cs : Bytes}

theorem refl (fd : Option Sink) : Wrote fd fd [] := by
  cases fd with
  | none => exact .none
  | some s => exact .some rfl (List.append_nil _).symm

theorem trans (h : Wrote fd fd' bs) (h' : Wrote fd' fd'' cs) : Wrote fd fd'' (bs ++ cs) := by
  cases h with
  | none =>
      cases h'
      exact .none
  | some hpat hout =>
      cases h' with
      | some hpat' hout' =>
          refine .some (hpat'.trans hpat) ?_
          rw [hout', hout, List.append_assoc]

theorem neverStalls (h : Wrote fd fd' bs) (hstall : NeverStalls fd) : NeverStalls fd' := by
  cases h with
  | none => exact hstall
  | @some s s' _ hpat hout =>
      intro t ht k
      rw [← Option.some.inj ht, hpat]
      exact hstall s rfl k

theorem neverFails (h : Wrote fd fd' bs) (hfail : NeverFails fd) : NeverFails fd' := by
  cases h with
  | none => exact hfail
  | @some s s' _ hpat hout =>
      intro t ht k
      rw [← Option.some.inj ht, hpat]
      exact hfail s rfl k

theorem isSome_eq (h : Wrote fd fd' bs) : fd'.isSome = fd.isSome := by
  cases h with
  | none => rfl
  | some hpat hout => rfl

end Wrote

/-- `atomicio` fails, or everything is written. -/
theorem atomicioFrom_cases {fd : Sink} {buf : Bytes} {pos : Int} (hne : NeverStalls (some fd)) :
    (atomicioFrom fd buf pos).1 = -1 ∧ ¬NeverFails (some fd) ∨
      (atomicioFrom fd buf pos).1 = pos + buf.length ∧
        Wrote (some fd) (some (atomicioFrom fd buf pos).2) buf := by
  induction hn : buf.length using Nat.strong_induction_on generalizing fd buf pos with
  | _ n ih =>
      rw [atomicioFrom]
      by_cases hpos : 0 < buf.length
      · have htakes := hne fd rfl fd.writes
        have hret : (fd.write (buf.take 512)).1 =
          min (fd.pattern.takes fd.writes) (buf.take 512).length := rfl
        have hlen : (buf.take 512).length = min 512 buf.length := List.length_take
        rw [if_pos hpos]
        dsimp only
        by_cases hneg : (fd.write (buf.take 512)).1 < 0
        · rw [if_pos hneg]
          refine .inl ⟨rfl, fun hfine => ?_⟩
          have hok := hfine fd rfl fd.writes
          omega
        · have hzero : (fd.write (buf.take 512)).1 ≠ 0 := by omega
          rw [if_neg hneg, if_neg hzero]
          -- some bytes are written, and the rest by induction
          obtain ⟨k, hk⟩ : ∃ k : Nat, (fd.write (buf.take 512)).1 = k :=
            ⟨(fd.write (buf.take 512)).1.toNat, by omega⟩
          have hwrote : Wrote (some fd) (some (fd.write (buf.take 512)).2) (buf.take k) := by
            refine .some rfl ?_
            change fd.out ++ (buf.take 512).take (fd.write (buf.take 512)).1.toNat = _
            rw [hk, Int.toNat_natCast, List.take_take, Nat.min_eq_left (by omega)]
          rw [hk, Int.toNat_natCast]
          have hdrop : (buf.drop k).length = buf.length - k := List.length_drop
          rcases @ih (buf.length - k) (by omega) _ (buf.drop k) (pos + k)
            (hwrote.neverStalls hne) hdrop with ⟨hret, hfails⟩ | ⟨hret, hrest⟩
          · exact .inl ⟨hret, fun hfine => hfails (hwrote.neverFails hfine)⟩
          · refine .inr ⟨by omega, ?_⟩
            have hall := hwrote.trans hrest
            rwa [List.take_append_drop] at hall
      · have hnil : buf = [] := List.length_eq_zero_iff.mp (by omega)
        rw [if_neg hpos, ← hn, hnil]
        exact .inr ⟨(Int.add_zero pos).symm, .refl _⟩

theorem writePiece_cases {fd : Option Sink} {buf : Bytes} (hne : NeverStalls fd) :
    (writePiece fd buf).1 = -1 ∧ ¬NeverFails fd ∨
      (writePiece fd buf).1 = buf.length ∧ Wrote fd (writePiece fd buf).2 buf := by
  cases fd with
  | none => exact .inr ⟨rfl, .none⟩
  | some fd =>
      have hall := @atomicioFrom_cases fd buf 0 hne
      rwa [Int.zero_add] at hall

/-! ## The digests of what is moved -/

/-- The MD5 context stands for a message, if the digest is wanted. -/
def Md5On (o : ByteOrder) (digs : Option FileDigs) (ctx : Md5.Md5Context) (msg : Bytes) : Prop :=
  ∀ d ∈ digs, d.doMd5 = digsEnableOn → ctx.Holds o msg

/-- The SHA-1 context stands for a message, if the digest is wanted, and nothing is
pending behind whole pieces. -/
def Sha1On (digs : Option FileDigs) (ctx : Sha.ShaCtx) (msg : Bytes) : Prop :=
  ∀ d ∈ digs, d.doSha1 = digsEnableOn →
    ctx.Holds msg ∧ (msg.length % 512 = 0 → ctx.buflen = 0)

/-- The same for SHA-512. -/
def Sha512On (digs : Option FileDigs) (ctx : Sha512.Sha512Ctx) (msg : Bytes) : Prop :=
  ∀ d ∈ digs, d.doSha512 = digsEnableOn →
    ctx.Holds Sha512.Regs.start512 msg ∧ (msg.length % 512 = 0 → ctx.buflen = 0)

/-- The texts that are wanted are those of some bytes, and the others are as before. -/
structure Digested (d d' : FileDigs) (data : Bytes) : Prop where
  md5 : d'.md5.bytes =
    if d.doMd5 = digsEnableOn then hexDigits (Md5.md5 data) ++ [0] else d.md5.bytes
  sha1 : d'.sha1.bytes =
    if d.doSha1 = digsEnableOn then hexDigits (Sha.sha1 data) ++ [0] else d.sha1.bytes
  sha512 : d'.sha512.bytes =
    if d.doSha512 = digsEnableOn then hexDigits (Sha512.sha512 data) ++ [0] else d.sha512.bytes
  size : d'.size =
    if d.doSize ≠ 0 then CField.strncpyTerm 31 (decimal.render data.length) else d.size

section

variable {o : ByteOrder} {msg buf : Bytes}

theorem swlibMd5FromMemblocks_data {ctx : Md5.Md5Context} (digest : CField 33) {k : Nat}
    (h : ctx.Holds o msg) (hpos : 0 < k) (hle : k ≤ buf.length) (hlt : k < 2 ^ 32) :
    ∃ ctx', swlibMd5FromMemblocks o ctx digest (some buf) k = .returned (digest, ctx') ∧
      ctx'.Holds o (msg ++ buf.take k) := by
  have hload := load_eq buf 0 k (by omega)
  rw [List.drop_zero] at hload
  have hlen : (buf.take k).length = k := by
    rw [List.length_take, Nat.min_eq_left hle]
  obtain ⟨ctx', hret, hholds⟩ := Md5.md5Update_spec h (show (buf.take k).length < 2 ^ 32 by omega)
  refine ⟨ctx', ?_, hholds⟩
  rw [swlibMd5FromMemblocks, if_neg (by rintro ⟨hnone, -⟩; cases hnone), if_pos (by omega)]
  change load buf (0 : Nat) k >>= _ = _
  rw [hload, Outcome.returned_bind, hret]
  rfl

theorem md5Pieces_spec {ctx : Md5.Md5Context} (digest : CField 33) (h : ctx.Holds o msg) :
    ∃ ctx', md5Pieces o ctx digest buf = .returned (digest, ctx') ∧ ctx'.Holds o (msg ++ buf) := by
  induction hn : buf.length using Nat.strong_induction_on generalizing ctx msg buf with
  | _ n ih =>
      rw [md5Pieces]
      by_cases hpos : 0 < buf.length
      · obtain ⟨ctx₁, hret, hholds⟩ := @swlibMd5FromMemblocks_data o msg buf ctx digest
          (min buf.length 1024) h (by omega) (Nat.min_le_left _ _) (by omega)
        have hcut : buf.take (min buf.length 1024) = buf.take 1024 := by
          rw [Nat.min_comm, ← List.take_take, List.take_length]
        rw [hcut] at hholds
        have hdrop : (buf.drop 1024).length = buf.length - 1024 := List.length_drop
        obtain ⟨ctx₂, hrest, hall⟩ := ih _ (by omega) hholds hdrop
        rw [List.append_assoc, List.take_append_drop] at hall
        have hcast : min (buf.length : Int) 1024 = (min buf.length 1024 : Nat) := by omega
        rw [if_pos hpos, hcast, hret]
        exact ⟨ctx₂, hrest, hall⟩
      · have hnil : buf = [] := List.length_eq_zero_iff.mp (by omega)
        rw [if_neg hpos, hnil, List.append_nil]
        exact ⟨ctx, rfl, h⟩

end

namespace DigsCopy

section

variable {o : ByteOrder} {c : DigsCopy} {msg buf : Bytes}

/-- What is so after the calls if the digest is wanted, and before if it is not. -/
theorem whenOn_spec {field : FileDigs → Int} {f : FileDigs → Outcome DigsCopy}
    {P : DigsCopy → Prop}
    (hon : ∀ d, c.digs = some d → field d = digsEnableOn → ∃ c', f d = .returned c' ∧ P c')
    (hoff : (∀ d ∈ c.digs, field d ≠ digsEnableOn) → P c) :
    ∃ c', c.whenOn field f = .returned c' ∧ P c' := by
  rw [whenOn]
  cases hdigs : c.digs with
  | none =>
      refine ⟨c, rfl, hoff fun d hd => ?_⟩
      rw [hdigs] at hd
      cases hd
  | some d =>
      dsimp only
      by_cases hfield : field d = digsEnableOn
      · rw [if_pos hfield]
        exact hon d hdigs hfield
      · rw [if_neg hfield]
        refine ⟨c, rfl, hoff fun d' hd => ?_⟩
        rw [hdigs] at hd
        rwa [← Option.some.inj hd]

theorem md5Data_spec (h : Md5On o c.digs c.md5ctx msg) :
    ∃ c', c.md5Data o buf = .returned c' ∧
      ∃ m, c' = { c with md5ctx := m } ∧ Md5On o c.digs m (msg ++ buf) := by
  refine whenOn_spec (fun d hd hon => ?_) fun hoff => ⟨c.md5ctx, rfl, fun d hd hon => ?_⟩
  · obtain ⟨m, hret, hholds⟩ := @md5Pieces_spec o msg buf c.md5ctx d.md5 (h d hd hon)
    refine ⟨_, by rw [hret]; rfl, m, ?_, fun _ _ _ => hholds⟩
    rw [← hd]
  · exact absurd hon (hoff d hd)

theorem shaData_spec (h : Sha1On c.digs c.sha1ctx msg) (hmod : msg.length % 512 = 0)
    (hpos : 0 < buf.length) (hle : buf.length ≤ 512) :
    ∃ c', c.shaCall o (some buf) buf.length = .returned c' ∧
      ∃ s, c' = { c with sha1ctx := s } ∧ Sha1On c.digs s (msg ++ buf) := by
  refine whenOn_spec (fun d hd hon => ?_) fun hoff => ⟨c.sha1ctx, rfl, fun d hd hon => ?_⟩
  · obtain ⟨hholds, hzero⟩ := h d hd hon
    by_cases hfull : buf.length = 512
    · obtain ⟨s, hret, hnext, hbuflen⟩ := Sha.shaBlock_full (o := o) hholds (hzero hmod) hfull
      exact ⟨_, by rw [hret]; rfl, s, rfl, fun _ _ _ => ⟨hnext, fun _ => hbuflen⟩⟩
    · obtain ⟨s, hret, hnext⟩ := Sha.shaBlock_bytes (o := o) hholds
        (show buf.length < 2 ^ 31 by omega) hfull
      refine ⟨_, by rw [hret]; rfl, s, rfl, fun _ _ _ => ⟨hnext, fun hwhole => ?_⟩⟩
      rw [List.length_append] at hwhole
      omega
  · exact absurd hon (hoff d hd)

theorem sha512Data_spec (unaligned : Bool) (h : Sha512On c.digs c.sha512ctx msg)
    (hmod : msg.length % 512 = 0) (hpos : 0 < buf.length) (hle : buf.length ≤ 512) :
    ∃ c', c.sha512Call o unaligned (some buf) buf.length = .returned c' ∧
      ∃ t, c' = { c with sha512ctx := t } ∧ Sha512On c.digs t (msg ++ buf) := by
  refine whenOn_spec (fun d hd hon => ?_) fun hoff => ⟨c.sha512ctx, rfl, fun d hd hon => ?_⟩
  · obtain ⟨hholds, hzero⟩ := h d hd hon
    by_cases hfull : buf.length = 512
    · obtain ⟨t, hret, hnext, hbuflen⟩ :=
        Sha512.sha512Block_full (o := o) unaligned hholds (hzero hmod) hfull
      exact ⟨_, by rw [hret]; rfl, t, rfl, fun _ _ _ => ⟨hnext, fun _ => hbuflen⟩⟩
    · obtain ⟨t, hret, hnext⟩ := Sha512.sha512Block_bytes (o := o) unaligned hholds (hzero hmod)
        (show buf.length < 512 by omega)
      refine ⟨_, by rw [hret]; rfl, t, rfl, fun _ _ _ => ⟨hnext, fun hwhole => ?_⟩⟩
      rw [List.length_append] at hwhole
      omega
  · exact absurd hon (hoff d hd)

/-- The contexts stand for a message. -/
structure Digests (o : ByteOrder) (c : DigsCopy) (msg : Bytes) : Prop where
  md5 : Md5On o c.digs c.md5ctx msg
  sha1 : Sha1On c.digs c.sha1ctx msg
  sha512 : Sha512On c.digs c.sha512ctx msg

/-- What the calls for the digests leave as it is. -/
def Keeps (c c' : DigsCopy) : Prop :=
  ∃ m s t, c' = { c with md5ctx := m, sha1ctx := s, sha512ctx := t }

/-- A piece behind whole pieces. -/
theorem updateDigests_spec (unaligned : Bool) (h : c.Digests o msg) (hmod : msg.length % 512 = 0)
    (hpos : 0 < buf.length) (hle : buf.length ≤ 512) :
    ∃ c', c.updateDigests o unaligned buf = .returned c' ∧ c.Keeps c' ∧
      c'.Digests o (msg ++ buf) := by
  obtain ⟨_, hmd5, m, rfl, hm⟩ := @md5Data_spec o c msg buf h.md5
  obtain ⟨_, hsha, s, rfl, hs⟩ :=
    @shaData_spec o { c with md5ctx := m } msg buf h.sha1 hmod hpos hle
  obtain ⟨_, hsha512, t, rfl, ht⟩ :=
    @sha512Data_spec o { c with md5ctx := m, sha1ctx := s } msg buf unaligned h.sha512 hmod hpos hle
  refine ⟨_, ?_, ⟨m, s, t, rfl⟩, ⟨hm, hs, ht⟩⟩
  rw [updateDigests, hmd5, Outcome.returned_bind, hsha, Outcome.returned_bind, hsha512]

/-- The contexts that are set up. -/
theorem initDigests_spec (o : ByteOrder) (unaligned : Bool) (c : DigsCopy) :
    ∃ c', c.initDigests o unaligned = .returned c' ∧ c.Keeps c' ∧ c'.Digests o [] := by
  have hmd5 : ∃ c', c.md5Call o (-1) = .returned c' ∧
      ∃ m, c' = { c with md5ctx := m } ∧ Md5On o c.digs m [] := by
    refine whenOn_spec (fun d hd hon => ?_) fun hoff => ⟨c.md5ctx, rfl, fun d hd hon => ?_⟩
    · refine ⟨_, rfl, Md5.md5Init o c.md5ctx false, ?_, fun _ _ _ => Md5.holds_md5Init o _⟩
      rw [← hd]
    · exact absurd hon (hoff d hd)
  obtain ⟨_, hmd5, m, rfl, hm⟩ := hmd5
  have hsha : ∃ c', { c with md5ctx := m }.shaCall o none (-1) = .returned c' ∧
      ∃ s, c' = { c with md5ctx := m, sha1ctx := s } ∧ Sha1On c.digs s [] := by
    refine whenOn_spec (fun d hd hon => ?_) fun hoff => ⟨c.sha1ctx, rfl, fun d hd hon => ?_⟩
    · exact ⟨_, rfl, Sha.shaInitCtx c.sha1ctx, rfl,
        fun _ _ _ => ⟨Sha.holds_shaInitCtx _, fun _ => rfl⟩⟩
    · exact absurd hon (hoff d hd)
  obtain ⟨_, hsha, s, rfl, hs⟩ := hsha
  have hsha512 : ∃ c', { c with md5ctx := m, sha1ctx := s }.sha512Call o unaligned none (-1) =
      .returned c' ∧
      ∃ t, c' = { c with md5ctx := m, sha1ctx := s, sha512ctx := t } ∧ Sha512On c.digs t [] := by
    refine whenOn_spec (fun d hd hon => ?_) fun hoff => ⟨c.sha512ctx, rfl, fun d hd hon => ?_⟩
    · exact ⟨_, rfl, Sha512.initCtx Sha512.Regs.start512 c.sha512ctx, rfl,
        fun _ _ _ => ⟨Sha512.holds_initCtx _ _, fun _ => rfl⟩⟩
    · exact absurd hon (hoff d hd)
  obtain ⟨_, hsha512, t, rfl, ht⟩ := hsha512
  refine ⟨_, ?_, ⟨m, s, t, rfl⟩, ⟨hm, hs, ht⟩⟩
  rw [initDigests, hmd5, Outcome.returned_bind, hsha, Outcome.returned_bind, hsha512]

/-- A write fails, or the piece has gone to both descriptors and is counted. -/
theorem emit_cases (hofd : NeverStalls c.ofd) (hadj : NeverStalls c.adjunctOfd) :
    (c.emit buf).1 = true ∧ ¬(NeverFails c.ofd ∧ NeverFails c.adjunctOfd) ∨
      (c.emit buf).1 = false ∧
        ∃ ofd adj, (c.emit buf).2 =
            { c with ofd := ofd, adjunctOfd := adj, retval := c.retval + buf.length } ∧
          Wrote c.ofd ofd buf ∧ Wrote c.adjunctOfd adj buf := by
  rw [emit]
  rcases @writePiece_cases c.ofd buf hofd with ⟨hret, hfails⟩ | ⟨hret, hofd'⟩
  · rw [hret, if_pos (by decide)]
    exact .inl ⟨rfl, fun hfine => hfails hfine.1⟩
  rcases @writePiece_cases c.adjunctOfd buf hadj with ⟨hadjret, hfails⟩ | ⟨hadjret, hadj'⟩
  · rw [hret, if_neg (by omega)]
    dsimp only
    rw [hadjret]
    exact .inl ⟨rfl, fun hfine => hfails hfine.2⟩
  · rw [hret, if_neg (by omega)]
    dsimp only
    rw [hadjret]
    exact .inr ⟨decide_eq_false (by omega), _, _, rfl, hofd', hadj'⟩

/-! ## The loop -/

/-- Some bytes have been moved behind a message. -/
structure Moved (o : ByteOrder) (c c' : DigsCopy) (msg more : Bytes) : Prop where
  digs : c'.digs = c.digs
  digests : c'.Digests o (msg ++ more)
  retval : c'.retval = (msg ++ more).length
  ofd : Wrote c.ofd c'.ofd more
  adjunctOfd : Wrote c.adjunctOfd c'.adjunctOfd more

theorem Moved.trans {c' c'' : DigsCopy} {more rest : Bytes} (h : Moved o c c' msg more)
    (h' : Moved o c' c'' (msg ++ more) rest) : Moved o c c'' msg (more ++ rest) where
  digs := h'.digs.trans h.digs
  digests := by
    rw [← List.append_assoc]
    exact h'.digests
  retval := by
    rw [← List.append_assoc]
    exact h'.retval
  ofd := h.ofd.trans h'.ofd
  adjunctOfd := h.adjunctOfd.trans h'.adjunctOfd

/-- A piece is handed to the digests and to the descriptors, or a write fails. -/
theorem move_cases (unaligned : Bool) (h : c.Digests o msg) (hret : c.retval = msg.length)
    (hmod : msg.length % 512 = 0) (hpos : 0 < buf.length) (hle : buf.length ≤ 512)
    (hofd : NeverStalls c.ofd) (hadj : NeverStalls c.adjunctOfd) :
    ∃ c', c.updateDigests o unaligned buf = .returned c' ∧
      ((c'.emit buf).1 = true ∧ ¬(NeverFails c.ofd ∧ NeverFails c.adjunctOfd) ∨
        (c'.emit buf).1 = false ∧ Moved o c (c'.emit buf).2 msg buf) := by
  obtain ⟨_, hupdate, ⟨m, s, t, rfl⟩, hnext⟩ := updateDigests_spec unaligned h hmod hpos hle
  refine ⟨_, hupdate, ?_⟩
  rcases @emit_cases { c with md5ctx := m, sha1ctx := s, sha512ctx := t } buf hofd hadj with
    hfails | ⟨hfine, ofd, adj, hemit, hwrote, hadjunct⟩
  · exact .inl hfails
  · rw [hemit]
    refine .inr ⟨hfine, rfl, ⟨hnext.md5, hnext.sha1, hnext.sha512⟩, ?_, hwrote, hadjunct⟩
    change c.retval + buf.length = _
    rw [hret, List.length_append, Int.natCast_add]

/-- How many bytes are wanted behind those that have been moved. -/
def wanted (count : Int) (done : Nat) : Option Nat :=
  if count < 0 then none else some (count.toNat - done)

theorem wanted_add (count : Int) (done n : Nat) :
    wanted count (done + n) = (wanted count done).map (· - n) := by
  rw [wanted, wanted]
  split
  · rfl
  · rw [Option.map_some, Nat.sub_sub]

/-- What the loop reads next. -/
theorem readamount_cases {count : Int} (hret : c.retval = msg.length) :
    (c.readamount count).toNat ≤ 512 ∧
      (∀ w ∈ wanted count msg.length, (c.readamount count).toNat ≤ w) ∧
      ((c.readamount count).toNat = 512 ∨
        wanted count msg.length = some (c.readamount count).toNat) := by
  rw [readamount, wanted, hret]
  by_cases hneg : count < 0
  · rw [if_neg (by omega), if_pos hneg]
    exact ⟨Nat.le_refl _, fun w hw => absurd hw (Option.not_mem_none w), .inl rfl⟩
  · rw [if_pos (by omega), if_neg hneg]
    by_cases hmore : count - msg.length > 512
    · rw [if_pos hmore]
      refine ⟨Nat.le_refl _, fun w hw => ?_, .inl rfl⟩
      rw [← Option.some.inj hw]
      change 512 ≤ _
      omega
    · rw [if_neg hmore]
      refine ⟨by omega, fun w hw => ?_, .inr ?_⟩
      · rw [← Option.some.inj hw]
        omega
      · rw [Int.toNat_sub']

variable {σ : Type} {f : FullReader σ}

/-- The loop ends because a call fails, or it moves what the reader delivers. -/
theorem loop_spec (unaligned : Bool) {count : Int} {ifd : σ} (h : c.Digests o msg)
    (hret : c.retval = msg.length) (hwhole : msg.length % 512 = 0 ∨ f.rest ifd = [])
    (hle : count < 0 ∨ msg.length ≤ count) (hofd : NeverStalls c.ofd)
    (hadj : NeverStalls c.adjunctOfd) :
    (∃ e, c.loop o unaligned f count ifd = .returned (true, e) ∧
        ¬(f.Sound ifd ∧ NeverFails c.ofd ∧ NeverFails c.adjunctOfd)) ∨
      ∃ ifd' c', c.loop o unaligned f count ifd = .returned (false, ifd', c') ∧
        f.rest ifd' = undelivered (wanted count msg.length) (f.rest ifd) ∧
        Moved o c c' msg
          (delivered (f.keeps ifd) 512 (wanted count msg.length) (f.rest ifd)) := by
  induction hn : (f.rest ifd).length using Nat.strong_induction_on generalizing ifd c msg with
  | _ len ih =>
      obtain ⟨hmax, hwant, hfull⟩ := @readamount_cases c msg count hret
      rw [loop]
      dsimp only
      generalize (c.readamount count).toNat = n at hmax hwant hfull ⊢
      rcases f.read_cases ifd n with ⟨hneg, hunsound⟩ | ⟨hval, hbytes, hrest, hkeeps, hsound⟩
      · rw [if_pos hneg]
        exact .inl ⟨_, rfl, fun hfine => hunsound hfine.1⟩
      obtain ⟨hgot, hgotLe⟩ := length_given_le (f.keeps ifd) n (f.rest ifd)
      generalize hg : given (f.keeps ifd) n (f.rest ifd) = g at hval hbytes hgot hgotLe
      -- a read that is the last one gives what is still to be delivered
      have hlast : n > (f.rest ifd).length ∨ wanted count msg.length = some n →
          delivered (f.keeps ifd) 512 (wanted count msg.length) (f.rest ifd) = g ∧
            undelivered (wanted count msg.length) (f.rest ifd) = (f.rest ifd).drop n := by
        intro hend
        rw [← hg]
        by_cases hshort : n > (f.rest ifd).length
        · refine ⟨delivered_short (by omega) (fun w hw => ?_) n hshort, ?_⟩
          · exact Nat.lt_of_lt_of_le hshort (hwant w hw)
          · rw [List.drop_of_length_le (by omega)]
            cases hw : wanted count msg.length with
            | none => rfl
            | some w => exact List.drop_of_length_le (Nat.le_trans (by omega) (hwant w hw))
        · rw [hend.resolve_left hshort]
          exact ⟨delivered_last (by omega), rfl⟩
      have hgiven : n ≤ (f.rest ifd).length → g = (f.rest ifd).take n ∧ g.length = n := by
        intro hn
        rw [← hg, given, if_pos (.inl hn), List.length_take, Nat.min_eq_left hn]
        exact ⟨rfl, rfl⟩
      rw [hval, if_neg (by omega)]
      by_cases hzero : g.length = 0
      · have hnil := List.length_eq_zero_iff.mp hzero
        have hend : n > (f.rest ifd).length ∨ wanted count msg.length = some n := by
          by_cases hshort : n > (f.rest ifd).length
          · exact .inl hshort
          · have hlen := (hgiven (by omega)).2
            exact .inr (hfull.resolve_left (by omega))
        rw [if_pos (by omega), (hlast hend).1, (hlast hend).2, hnil]
        refine .inr ⟨_, c, rfl, hrest, rfl, ?_, ?_, .refl _, .refl _⟩
        · rwa [List.append_nil]
        · rwa [List.append_nil]
      have hmod : msg.length % 512 = 0 := by
        rcases hwhole with hmod | hnil
        · exact hmod
        · rw [hnil, List.length_nil] at hgotLe
          exact absurd (Nat.le_zero.mp hgotLe) hzero
      rw [if_neg (by omega), hbytes]
      obtain ⟨c₁, hupdate, hmoved⟩ := move_cases unaligned h hret hmod (Nat.pos_of_ne_zero hzero)
        (Nat.le_trans hgot hmax) hofd hadj
      rw [hupdate, Outcome.returned_bind]
      rcases hmoved with ⟨hfailed, hfails⟩ | ⟨hfine, hmoved⟩
      · rw [if_pos hfailed]
        exact .inl ⟨_, rfl, fun hok => hfails hok.2⟩
      rw [if_neg (by rw [hfine]; decide)]
      have hret₁ := hmoved.retval
      rw [List.length_append] at hret₁
      split
      next hagain =>
        -- a full piece, or a short one with nothing behind it
        have hsplit : ((msg ++ g).length % 512 = 0 ∨ (f.rest ifd).drop n = []) ∧
            delivered (f.keeps ifd) 512 (wanted count msg.length) (f.rest ifd) =
              g ++ delivered (f.keeps ifd) 512 ((wanted count msg.length).map (· - g.length))
                ((f.rest ifd).drop n) ∧
            undelivered (wanted count msg.length) (f.rest ifd) =
              undelivered ((wanted count msg.length).map (· - g.length))
                ((f.rest ifd).drop n) := by
          by_cases hshort : n > (f.rest ifd).length
          · have hdrop : (f.rest ifd).drop n = [] := List.drop_of_length_le (by omega)
            refine ⟨.inr hdrop, ?_, ?_⟩
            · rw [hdrop, delivered_nil, List.append_nil]
              exact (hlast (.inl hshort)).1
            · rw [(hlast (.inl hshort)).2, hdrop]
              cases wanted count msg.length with
              | none => rfl
              | some w => exact List.drop_nil.symm
          · obtain ⟨htake, hlen⟩ := hgiven (by omega)
            have hn512 : n = 512 := by
              rcases hfull with hn512 | hw
              · exact hn512
              · rw [wanted] at hw
                split at hw
                · cases hw
                · have hw' := Option.some.inj hw
                  omega
            rw [htake, hn512] at hlen
            rw [hn512] at hwant hshort
            rw [htake, hn512, hlen]
            refine ⟨.inl ?_, delivered_full (by decide) (by omega) hwant, ?_⟩
            · rw [List.length_append, hlen]
              omega
            · cases hw : wanted count msg.length with
              | none => rfl
              | some w =>
                  have hle := hwant w hw
                  rw [Option.map_some, undelivered, undelivered, List.drop_drop,
                    Nat.add_sub_cancel' hle]
        obtain ⟨hwhole', hdeliv, hleft⟩ := hsplit
        rw [hdeliv, hleft, ← wanted_add, ← List.length_append, ← hkeeps, ← hrest]
        rw [← hrest] at hwhole'
        have hshrink : (f.rest (f.read ifd n).2.2).length < len := by
          rw [← hn]
          exact f.length_rest_lt (by omega)
        rcases ih _ hshrink hmoved.digests hmoved.retval hwhole'
            (by rw [List.length_append]; omega) (hmoved.ofd.neverStalls hofd)
            (hmoved.adjunctOfd.neverStalls hadj) rfl with
          ⟨e, hloop, hfails⟩ | ⟨ifd', c', hloop, hrest', hmore⟩
        · refine .inl ⟨e, hloop, fun hok => hfails ⟨hsound hok.1, ?_, ?_⟩⟩
          · exact hmoved.ofd.neverFails hok.2.1
          · exact hmoved.adjunctOfd.neverFails hok.2.2
        · exact .inr ⟨ifd', c', hloop, hrest', hmoved.trans hmore⟩
      next hdone =>
        have hend : wanted count msg.length = some n := by
          have hw := hwant (count.toNat - msg.length) (by rw [wanted, if_neg (by omega)]; rfl)
          rw [wanted, if_neg (by omega)]
          congr 1
          omega
        obtain ⟨hdeliv, hleft⟩ := hlast (.inr hend)
        rw [hdeliv, hleft]
        exact .inr ⟨_, _, rfl, hrest, hmoved⟩

/-! ## The end -/

/-- The text of a digest, in a field that it fills with a NUL behind it. -/
theorem hexField_spec {n k : Nat} {res : Bytes} {g : CField (n + 1)} (hn : n = 2 * k)
    (hres : res.length = k) :
    ∃ g₁, sprintfHex 0 res g = .returned g₁ ∧
      ∃ g₂, g₁.store n [0] = .returned g₂ ∧ g₂.bytes = hexDigits res ++ [0] := by
  obtain ⟨g₁, hprint, hg₁⟩ := @take_sprintfHex (n + 1) 0 res g (by omega)
  obtain ⟨g₂, hstore, hg₂⟩ := store_last g₁
  refine ⟨g₁, hprint, g₂, hstore, ?_⟩
  rw [Nat.zero_add, hres, ← hn, List.take_zero, List.nil_append] at hg₁
  rw [hg₂, hg₁]

/-- The result of a digest, in a field with room for it. -/
theorem storeResult_some {n : Nat} (res : CField n) {digest : Bytes} (hle : digest.length ≤ n) :
    ∃ r, storeResult res (some digest) = .returned r ∧ r.bytes.take digest.length = digest := by
  have hsize := res.size_eq
  obtain ⟨r, hstore, hr⟩ := res.store_bytes 0 digest (by omega)
  refine ⟨r, hstore, ?_⟩
  have htake := take_overwrite_end res.bytes 0 digest (Nat.zero_le _)
  rwa [← hr, Nat.zero_add, List.take_zero, List.nil_append] at htake

theorem swlibMd5FromMemblocks_end {ctx : Md5.Md5Context} (digest : CField 33)
    (h : ctx.Holds o msg) :
    ∃ ctx' g, swlibMd5FromMemblocks o ctx digest none 0 = .returned (g, ctx') ∧
      g.bytes = hexDigits (Md5.md5 msg) ++ [0] := by
  have hlen : (hexDigits (Md5.md5 msg) ++ [0]).length = 33 := by
    rw [List.length_append, length_hexDigits, length_md5]
    rfl
  obtain ⟨ctx', hfinal⟩ := Md5.md5Final_spec h
  obtain ⟨g, hstore, hg⟩ := digest.store_bytes 0 (hexDigits (Md5.md5 msg) ++ [0]) (by omega)
  have hsize := digest.size_eq
  refine ⟨ctx', g, ?_, ?_⟩
  · rw [swlibMd5FromMemblocks, if_neg (by rintro ⟨-, hneg⟩; omega), if_neg (by omega), hfinal,
      Outcome.returned_bind]
    change digest.store (0 : Nat) _ >>= _ = _
    rw [hstore]
    rfl
  · rw [hg, overwrite, List.take_zero, List.drop_of_length_le (by omega), List.append_nil,
      List.nil_append]

variable {d : FileDigs}

/-- The MD5 digest is completed. -/
theorem finishMd5_spec (hd : c.digs = some d) (h : Md5On o c.digs c.md5ctx msg) :
    ∃ g ctx, (c.md5Call o 0 >>= fun c => c.whenOn FileDigs.doMd5 fun digs =>
        digs.md5.store 32 [0] >>= fun md5 =>
          .returned { c with digs := some { digs with md5 } }) =
        .returned { c with digs := some { d with md5 := g }, md5ctx := ctx } ∧
      g.bytes =
        if d.doMd5 = digsEnableOn then hexDigits (Md5.md5 msg) ++ [0] else d.md5.bytes := by
  by_cases hon : d.doMd5 = digsEnableOn
  · obtain ⟨ctx, g, hend, hg⟩ := swlibMd5FromMemblocks_end (o := o) d.md5 (h d hd hon)
    obtain ⟨g', hstore, hg'⟩ := store_last g
    have hlen : (hexDigits (Md5.md5 msg)).length = 32 := by
      rw [length_hexDigits, length_md5]
    refine ⟨g', ctx, ?_, ?_⟩
    · rw [md5Call, whenOn, hd]
      dsimp only
      rw [if_pos hon, hend, Outcome.returned_bind]
      dsimp only
      rw [Outcome.returned_bind, whenOn]
      dsimp only
      rw [if_pos hon]
      change g.store (32 : Nat) [0] >>= _ = _
      rw [hstore]
      rfl
    · rw [if_pos hon, hg', hg, List.take_left' hlen]
  · refine ⟨d.md5, c.md5ctx, ?_, by rw [if_neg hon]⟩
    rw [md5Call, whenOn, hd]
    dsimp only
    rw [if_neg hon, Outcome.returned_bind, whenOn, hd]
    dsimp only
    rw [if_neg hon, ← hd]

/-- The SHA-1 digest is completed. -/
theorem finishSha1_spec (hd : c.digs = some d) (h : Sha1On c.digs c.sha1ctx msg) :
    ∃ s res, c.shaCall o none 0 = .returned { c with sha1ctx := s, resSha1 := res } ∧
      (d.doSha1 = digsEnableOn → res.bytes.take 20 = Sha.sha1 msg) := by
  rw [shaCall, whenOn, hd]
  dsimp only
  by_cases hon : d.doSha1 = digsEnableOn
  · obtain ⟨s, hfinish⟩ := Sha.shaFinishCtx_spec (o := o) (h d hd hon).1
    obtain ⟨res, hstore, hres⟩ := storeResult_some c.resSha1
      (show (Sha.sha1 msg).length ≤ 21 by rw [length_sha1]; omega)
    rw [length_sha1] at hres
    refine ⟨s, res, ?_, fun _ => hres⟩
    rw [if_pos hon, Sha.shaBlock]
    dsimp only
    rw [if_neg (by omega), if_neg (by omega), hfinish, Outcome.returned_bind,
      Outcome.returned_bind]
    change storeResult c.resSha1 (some (Sha.sha1 msg)) >>= _ = _
    rw [hstore]
    rfl
  · rw [if_neg hon]
    exact ⟨c.sha1ctx, c.resSha1, by rw [← hd], fun h => absurd h hon⟩

/-- The SHA-512 digest is completed. -/
theorem finishSha512_spec (unaligned : Bool) (hd : c.digs = some d)
    (h : Sha512On c.digs c.sha512ctx msg) :
    ∃ t res, c.sha512Call o unaligned none 0 =
        .returned { c with sha512ctx := t, resSha512 := res } ∧
      (d.doSha512 = digsEnableOn → res.bytes.take 64 = Sha512.sha512 msg) := by
  rw [sha512Call, whenOn, hd]
  dsimp only
  by_cases hon : d.doSha512 = digsEnableOn
  · obtain ⟨t, hfinish⟩ := Sha512.sha512FinishCtx_spec (o := o) (h d hd hon).1
    obtain ⟨res, hstore, hres⟩ := storeResult_some c.resSha512
      (show (Sha512.sha512 msg).length ≤ 65 by rw [length_sha512]; omega)
    rw [length_sha512] at hres
    refine ⟨t, res, ?_, fun _ => hres⟩
    rw [if_pos hon, Sha512.sha512Block]
    dsimp only
    rw [if_neg (by omega), if_neg (by omega), hfinish, Outcome.returned_bind,
      Outcome.returned_bind]
    change storeResult c.resSha512 (some (Sha512.sha512 msg)) >>= _ = _
    rw [hstore]
    rfl
  · rw [if_neg hon]
    exact ⟨c.sha512ctx, c.resSha512, by rw [← hd], fun h => absurd h hon⟩

theorem storeSha1_spec (hd : c.digs = some d) :
    ∃ g, c.storeSha1 = .returned { c with digs := some { d with sha1 := g } } ∧
      g.bytes = if d.doSha1 = digsEnableOn then hexDigits (c.resSha1.bytes.take 20) ++ [0]
        else d.sha1.bytes := by
  rw [storeSha1, whenOn, hd]
  dsimp only
  by_cases hon : d.doSha1 = digsEnableOn
  · have hsize := c.resSha1.size_eq
    have hlen : (c.resSha1.bytes.take 20).length = 20 := by
      rw [List.length_take, Nat.min_eq_left (by omega)]
    obtain ⟨g₁, hprint, g₂, hstore, hg₂⟩ := @hexField_spec 40 20 _ d.sha1 rfl hlen
    obtain ⟨g₃, hagain, hg₃⟩ := store_last g₂
    refine ⟨g₃, ?_, ?_⟩
    · rw [if_pos hon, hprint, Outcome.returned_bind]
      change g₁.store (40 : Nat) [0] >>= _ = _
      rw [hstore, Outcome.returned_bind]
      change g₂.store (40 : Nat) [0] >>= _ = _
      rw [hagain]
      rfl
    · rw [if_pos hon, hg₃, hg₂, List.take_left' (by rw [length_hexDigits, hlen])]
  · rw [if_neg hon, if_neg hon]
    exact ⟨d.sha1, by rw [← hd], rfl⟩

theorem storeSha512_spec (hd : c.digs = some d) :
    ∃ g, c.storeSha512 = .returned { c with digs := some { d with sha512 := g } } ∧
      g.bytes = if d.doSha512 = digsEnableOn then hexDigits (c.resSha512.bytes.take 64) ++ [0]
        else d.sha512.bytes := by
  rw [storeSha512, whenOn, hd]
  dsimp only
  by_cases hon : d.doSha512 = digsEnableOn
  · have hsize := c.resSha512.size_eq
    have hlen : (c.resSha512.bytes.take 64).length = 64 := by
      rw [List.length_take, Nat.min_eq_left (by omega)]
    obtain ⟨g₁, hprint, g₂, hstore, hg₂⟩ := @hexField_spec 128 64 _ d.sha512 rfl hlen
    refine ⟨g₂, ?_, ?_⟩
    · rw [if_pos hon, hprint, Outcome.returned_bind]
      change g₁.store (128 : Nat) [0] >>= _ = _
      rw [hstore]
      rfl
    · rw [if_pos hon, hg₂]
  · rw [if_neg hon, if_neg hon]
    exact ⟨d.sha512, by rw [← hd], rfl⟩

/-- The texts that are wanted are completed. -/
theorem finish_spec (unaligned : Bool) (h : c.Digests o msg) (hret : c.retval = msg.length) :
    ∃ c' : DigsCopy, (c.finishDigests o unaligned >>= fun c =>
        c.storeSize.storeSha1 >>= fun c => c.storeSha512) = .returned c' ∧
      c'.retval = c.retval ∧ c'.ofd = c.ofd ∧ c'.adjunctOfd = c.adjunctOfd ∧
      ∀ d, c.digs = some d → ∃ d', c'.digs = some d' ∧ Digested d d' msg := by
  cases hdigs : c.digs with
  | none =>
      refine ⟨c, ?_, rfl, rfl, rfl, fun d hd => by cases hd⟩
      obtain ⟨digs, md5ctx, sha1ctx, resSha1, sha512ctx, resSha512, ofd, adj, retval⟩ := c
      subst hdigs
      rfl
  | some d =>
      obtain ⟨m, ctx, hmd5, hm⟩ := finishMd5_spec hdigs h.md5
      -- each call completes one text and leaves the others
      obtain ⟨s, res₁, hsha1, hres₁⟩ := @finishSha1_spec o
        { c with digs := some { d with md5 := m }, md5ctx := ctx } msg { d with md5 := m } rfl
        (fun d' hd' hon => h.sha1 d hdigs (by rw [← Option.some.inj hd'] at hon; exact hon))
      obtain ⟨t, res₂, hsha512, hres₂⟩ := @finishSha512_spec o
        { c with digs := some { d with md5 := m }, md5ctx := ctx, sha1ctx := s, resSha1 := res₁ }
        msg { d with md5 := m } unaligned rfl
        (fun d' hd' hon => h.sha512 d hdigs (by rw [← Option.some.inj hd'] at hon; exact hon))
      have hsize : swlibImaxtostr c.retval = decimal.render msg.length := by
        rw [hret, swlibImaxtostr, if_neg (by omega), Int.toNat_natCast]
      obtain ⟨size, hsize'⟩ : ∃ size, (if d.doSize ≠ 0 then
          CField.strncpyTerm 31 (decimal.render msg.length) else d.size) = size := ⟨_, rfl⟩
      obtain ⟨g₁, hstore₁, hg₁⟩ := @storeSha1_spec
        { c with
          digs := some { d with md5 := m, size := size }
          md5ctx := ctx, sha1ctx := s, resSha1 := res₁, sha512ctx := t, resSha512 := res₂ }
        { d with md5 := m, size := size } rfl
      obtain ⟨g₂, hstore₂, hg₂⟩ := @storeSha512_spec
        { c with
          digs := some { d with md5 := m, size := size, sha1 := g₁ }
          md5ctx := ctx, sha1ctx := s, resSha1 := res₁, sha512ctx := t, resSha512 := res₂ }
        { d with md5 := m, size := size, sha1 := g₁ } rfl
      have hfinish : c.finishDigests o unaligned = .returned
          { c with
            digs := some { d with md5 := m }
            md5ctx := ctx, sha1ctx := s, resSha1 := res₁, sha512ctx := t, resSha512 := res₂ } := by
        rw [finishDigests, ← Outcome.bind_assoc, hmd5, Outcome.returned_bind, hsha1,
          Outcome.returned_bind, hsha512]
      have hsized : ({ c with
          digs := some { d with md5 := m }
          md5ctx := ctx, sha1ctx := s, resSha1 := res₁, sha512ctx := t, resSha512 := res₂ } :
            DigsCopy).storeSize =
          { c with
            digs := some { d with md5 := m, size := size }
            md5ctx := ctx, sha1ctx := s, resSha1 := res₁, sha512ctx := t, resSha512 := res₂ } := by
        rw [storeSize, ← hsize', Option.map_some]
        dsimp only
        rw [hsize]
        split <;> rfl
      refine ⟨{ c with
          digs := some { d with md5 := m, size := size, sha1 := g₁, sha512 := g₂ }
          md5ctx := ctx, sha1ctx := s, resSha1 := res₁, sha512ctx := t, resSha512 := res₂ },
        ?_, rfl, rfl, rfl, fun d' hd' => ?_⟩
      · rw [hfinish, Outcome.returned_bind, hsized, hstore₁, Outcome.returned_bind, hstore₂]
      · rw [← Option.some.inj hd']
        refine ⟨_, rfl, hm, ?_, ?_, hsize'.symm⟩
        · rw [hg₁]
          split
          next hon => rw [hres₁ hon]
          next hoff => rfl
        · rw [hg₂]
          split
          next hon => rw [hres₂ hon]
          next hoff => rfl

/-! ## What is copied -/

/-- What is copied of the data behind a reader. -/
def copied (f : FullReader σ) (count : Int) (ifd : σ) : Bytes :=
  delivered (f.keeps ifd) 512 (wanted count 0) (f.rest ifd)

/-- A call fails, or what is copied has gone to both descriptors, its number of bytes
is returned, and its digests and its size are the texts that were wanted.  The reader
stands behind what it was asked for. -/
theorem swlibIDigsCopy_cases (o : ByteOrder) (unaligned : Bool) (f : FullReader σ) (count : Int)
    (ifd : σ) (c : DigsCopy) (hofd : NeverStalls c.ofd) (hadj : NeverStalls c.adjunctOfd) :
    (∃ e, c.swlibIDigsCopy o unaligned f count ifd = .returned (-1, e) ∧
        ¬(f.Sound ifd ∧ NeverFails c.ofd ∧ NeverFails c.adjunctOfd)) ∨
      ∃ ifd' c', c.swlibIDigsCopy o unaligned f count ifd =
          .returned ((copied f count ifd).length, ifd', c') ∧
        f.rest ifd' = undelivered (wanted count 0) (f.rest ifd) ∧
        Wrote c.ofd c'.ofd (copied f count ifd) ∧
        Wrote c.adjunctOfd c'.adjunctOfd (copied f count ifd) ∧
        ∀ d, c.digs = some d → ∃ d', c'.digs = some d' ∧ Digested d d' (copied f count ifd) := by
  obtain ⟨_, hinit, ⟨m, s, t, rfl⟩, hdigests⟩ :=
    initDigests_spec o unaligned { c with retval := 0 }
  rw [swlibIDigsCopy, hinit, Outcome.returned_bind]
  have hcount : count < 0 ∨ (([] : Bytes).length : Int) ≤ count := by
    change count < 0 ∨ 0 ≤ count
    omega
  rcases @loop_spec o { c with retval := 0, md5ctx := m, sha1ctx := s, sha512ctx := t } [] σ f
      unaligned count ifd hdigests rfl (.inl rfl) hcount hofd hadj with
    ⟨e, hloop, hfails⟩ | ⟨ifd', c₁, hloop, hrest, hmoved⟩
  · rw [hloop]
    exact .inl ⟨e, rfl, hfails⟩
  · rw [hloop, Outcome.returned_bind]
    dsimp only
    have hnext := hmoved.digests
    have hret := hmoved.retval
    rw [List.nil_append] at hnext hret
    obtain ⟨c₂, hfinish, hretval, hofd₂, hadj₂, htexts⟩ := finish_spec unaligned hnext hret
    have hcalls : (c₁.finishDigests o unaligned >>= fun c => c.storeSize.storeSha1 >>= fun c =>
        c.storeSha512 >>= fun c => Outcome.returned (c.retval, ifd', c)) =
        ((c₁.finishDigests o unaligned >>= fun c => c.storeSize.storeSha1 >>= fun c =>
          c.storeSha512) >>= fun c => Outcome.returned (c.retval, ifd', c)) := by
      simp only [Outcome.bind_assoc]
    rw [if_neg (by decide), hcalls, hfinish, Outcome.returned_bind, hretval, hret]
    refine .inr ⟨ifd', c₂, rfl, hrest, ?_, ?_, fun d hd => htexts d ?_⟩
    · rw [hofd₂]
      exact hmoved.ofd
    · rw [hadj₂]
      exact hmoved.adjunctOfd
    · rw [hmoved.digs]
      exact hd

end

end DigsCopy

/-! ## The callers -/

section

variable (o : ByteOrder) (unaligned : Bool)

/-- `swlib_digs_copy` -/
def swlibDigsCopy (count : Int) (ifd : Source) (c : DigsCopy) : Outcome (Int × Source × DigsCopy) :=
  c.swlibIDigsCopy o unaligned safeReader count ifd

/-- `swlib_pump_amount8` -/
def swlibPumpAmount8 (amount : Int) (ifd : Taru.InDes) (c : DigsCopy) :
    Outcome (Int × Taru.InDes × DigsCopy) :=
  c.swlibIDigsCopy o unaligned tapeReader amount ifd

/-- What `swlib_digs_copy` copies: what is asked for, or all there is. -/
def copyData (count : Int) (data : Bytes) : Bytes :=
  if count < 0 then data else data.take count.toNat

/-- What `swlib_pump_amount8` copies.  Where there is less than is asked for, a plain
descriptor loses the last piece unless it is full. -/
def pumpData (amount : Int) (ifd : Taru.InDes) : Bytes :=
  if 0 ≤ amount ∧ amount ≤ ifd.data.length then ifd.data.take amount.toNat
  else if ifd.kind = .uxfio then ifd.data
  else ifd.data.take (ifd.data.length / 512 * 512)

/-- `taru_digs_init` -/
def taruDigsInit (digs : FileDigs) (enable : Int) : Outcome FileDigs :=
  digs.md5.store 0 [0] >>= fun md5 =>
    digs.sha1.store 0 [0] >>= fun sha1 =>
      digs.sha512.store 0 [0] >>= fun sha512 =>
        digs.size.store 0 [0] >>= fun size =>
          let digs := { digs with md5, sha1, sha512, size }
          if enable ≥ 0 then
            .returned { digs with
              doMd5 := enable, doSha1 := enable, doSha512 := enable, doSize := enable }
          else .returned digs

/-- The texts that `swlib_digests` wants. -/
def FileDigs.enable (digs : FileDigs) (md5 sha1 size sha512 : Bool) : FileDigs :=
  let digs := if md5 then { digs with doMd5 := digsEnableOn } else digs
  let digs := if sha1 then { digs with doSha1 := digsEnableOn } else digs
  let digs := if sha512 then { digs with doSha512 := digsEnableOn } else digs
  if size then { digs with doSize := digsEnableOn } else digs

/-- What `swlib_digests` stores. -/
structure DigestTexts where
  md5 : Option CString
  sha1 : Option CString
  size : Option CString
  sha512 : Option CString

/-- `swlib_digests`: the value returned, and what is stored where there is a pointer.
`mem` is the new object, and `c` the memory of the copy. -/
def swlibDigests (md5 sha1 size sha512 : Bool) (ifd : Source) (mem : FileDigs) (c : DigsCopy) :
    Outcome (Int × DigestTexts) :=
  taruDigsInit mem digsEnableOff >>= fun digs =>
    let digs := digs.enable md5 sha1 size sha512
    swlibDigsCopy o unaligned (-1) ifd { c with digs := some digs, ofd := none, adjunctOfd := none }
        >>= fun (im, _, c) =>
      let text := fun (wanted : Bool) (field : FileDigs → Bytes) =>
        if wanted then c.digs.map fun digs => CString.ofMem (field digs) else none
      .returned (if im ≥ 0 then 0 else -1,
        { md5 := text md5 (·.md5.bytes)
          sha1 := text sha1 (·.sha1.bytes)
          size := text size (·.size.bytes)
          sha512 := text sha512 (·.sha512.bytes) })

/-- `swlib_md5_copy`: the value returned, what is in `md5`, and the descriptors. -/
def swlibMd5Copy (count : Int) (ifd : Source) (ofd : Option Sink) (mem : FileDigs) (c : DigsCopy) :
    Outcome (Int × Option CString × Source × Option Sink) :=
  taruDigsInit mem digsEnableOff >>= fun digs =>
    swlibDigsCopy o unaligned count ifd { c with digs := some digs, ofd := ofd, adjunctOfd := none }
        >>= fun (im, ifd, c) =>
      .returned (im, c.digs.map fun digs => CString.ofMem digs.md5.bytes, ifd, c.ofd)

/-- The loop of `domd5`. -/
def domd5Loop (fd : Source) (ctx : Md5.Md5Context) : Outcome Md5.Md5Context :=
  let r := fd.read 1024
  if 0 < r.1 then Md5.md5Update o ctx r.2.1 >>= fun ctx => domd5Loop r.2.2 ctx
  else .returned ctx
termination_by fd.rest.length
decreasing_by
  next h => exact (Source.length_read h).2

/-- `swlib_md5`: the value returned, and the memory at `bindigest`. -/
def swlibMd5 (fd : Source) (bindigest : CField 33) (doAscii : Bool) (ctx : Md5.Md5Context) :
    Outcome (Int × CField 33) :=
  domd5Loop o fd (Md5.md5Init o ctx false) >>= fun ctx =>
    Md5.md5Final o ctx >>= fun (bin, _) =>
      bindigest.store 0 (if doAscii then hexDigits bin ++ [0] else bin) >>= fun digest =>
        digest.store 32 [0] >>= fun digest => .returned (0, digest)

/-- `swlib_sha1`: the value returned, and the memory at `digest`. -/
def swlibSha1 (fd : Source) (digest : CField 41) (ctx : Sha.ShaCtx) (resblock : CField 21) :
    Outcome (Int × CField 41) :=
  Sha.shaStream o fd ctx >>= fun stored =>
    storeResult resblock stored >>= fun resblock =>
      sprintfHex 0 (resblock.bytes.take 20) digest >>= fun digest =>
        digest.store 40 [0] >>= fun digest =>
          .returned (if stored.isSome then 0 else 1, digest)

/-! ### The copies -/

theorem undelivered_wanted (count : Int) (data : Bytes) :
    undelivered (DigsCopy.wanted count 0) data =
      if count < 0 then [] else data.drop count.toNat := by
  rw [DigsCopy.wanted]
  split
  · rfl
  · rfl

theorem copied_safeReader (count : Int) (ifd : Source) :
    DigsCopy.copied safeReader count ifd = copyData count ifd.rest := by
  rw [DigsCopy.copied, DigsCopy.wanted, copyData]
  split
  next hneg => rfl
  next hpos =>
    change (if count.toNat - 0 ≤ ifd.rest.length then ifd.rest.take (count.toNat - 0)
      else if true = true then ifd.rest else _) = _
    rw [Nat.sub_zero, if_pos rfl]
    split
    next hle => rfl
    next hmore => exact (List.take_of_length_le (by omega)).symm

theorem copied_tapeReader (amount : Int) (ifd : Taru.InDes) :
    DigsCopy.copied tapeReader amount ifd = pumpData amount ifd := by
  have hall : (if tapeReader.keeps ifd then ifd.data
        else ifd.data.take (ifd.data.length / 512 * 512)) =
      if ifd.kind = .uxfio then ifd.data else ifd.data.take (ifd.data.length / 512 * 512) :=
    if_congr decide_eq_true_iff rfl rfl
  rw [DigsCopy.copied, DigsCopy.wanted, pumpData]
  split
  next hneg =>
    rw [if_neg (by omega)]
    exact hall
  next hpos =>
    rw [delivered, Nat.sub_zero]
    change (if amount.toNat ≤ ifd.data.length then ifd.data.take amount.toNat else _) = _
    by_cases hle : amount.toNat ≤ ifd.data.length
    · rw [if_pos hle, if_pos (by omega)]
    · rw [if_neg hle, if_neg (show ¬(0 ≤ amount ∧ amount ≤ ifd.data.length) by omega)]
      exact hall

/-- `swlib_digs_copy` returns -1 only if a call fails.  Else what is asked for, or all
there is, has gone to both descriptors, however the reads and the writes cut it, and
the texts that are wanted are its digests and its size. -/
theorem swlibDigsCopy_spec (count : Int) (ifd : Source) {c : DigsCopy} (hofd : NeverStalls c.ofd)
    (hadj : NeverStalls c.adjunctOfd) :
    (∃ e, swlibDigsCopy o unaligned count ifd c = .returned (-1, e) ∧
        ¬(ifd.Reliable ∧ NeverFails c.ofd ∧ NeverFails c.adjunctOfd)) ∨
      ∃ ifd' c', swlibDigsCopy o unaligned count ifd c =
          .returned ((copyData count ifd.rest).length, ifd', c') ∧
        ifd'.rest = (if count < 0 then [] else ifd.rest.drop count.toNat) ∧
        Wrote c.ofd c'.ofd (copyData count ifd.rest) ∧
        Wrote c.adjunctOfd c'.adjunctOfd (copyData count ifd.rest) ∧
        ∀ d, c.digs = some d → ∃ d', c'.digs = some d' ∧
          Digested d d' (copyData count ifd.rest) := by
  have hcases := DigsCopy.swlibIDigsCopy_cases o unaligned safeReader count ifd c hofd hadj
  rw [copied_safeReader, undelivered_wanted] at hcases
  exact hcases

/-- Five bytes, and their MD5 digest. -/
theorem swlibDigsCopy_spec_five :
    ∃ ifd' c', swlibDigsCopy .little false (-1) twoARead
        { zeroCopy with digs := some { zeroDigs with doMd5 := 1 } } = .returned (5, ifd', c') ∧
      ∃ d', c'.digs = some d' ∧
        Digested { zeroDigs with doMd5 := 1 } d' [104, 101, 108, 108, 111] := by
  rcases swlibDigsCopy_spec .little false (-1) twoARead
      (c := { zeroCopy with digs := some { zeroDigs with doMd5 := 1 } }) neverStalls_none
      neverStalls_none with ⟨_, -, hfails⟩ | ⟨ifd', c', hcopy, -, -, -, htexts⟩
  · exact absurd ⟨fun _ => (by decide : (0 : Int) < 2), neverFails_none, neverFails_none⟩ hfails
  · exact ⟨ifd', c', hcopy, htexts _ rfl⟩

/-- `swlib_pump_amount8` returns -1 only if a write fails.  Else it has copied what
`pumpData` says, and the texts that are wanted are its digests and its size; the input
stands behind what was asked for, whatever was copied. -/
theorem swlibPumpAmount8_spec (amount : Int) (ifd : Taru.InDes) {c : DigsCopy}
    (hofd : NeverStalls c.ofd) (hadj : NeverStalls c.adjunctOfd) :
    (∃ e, swlibPumpAmount8 o unaligned amount ifd c = .returned (-1, e) ∧
        ¬(NeverFails c.ofd ∧ NeverFails c.adjunctOfd)) ∨
      ∃ ifd' c', swlibPumpAmount8 o unaligned amount ifd c =
          .returned ((pumpData amount ifd).length, ifd', c') ∧
        ifd'.data = (if amount < 0 then [] else ifd.data.drop amount.toNat) ∧
        Wrote c.ofd c'.ofd (pumpData amount ifd) ∧
        Wrote c.adjunctOfd c'.adjunctOfd (pumpData amount ifd) ∧
        ∀ d, c.digs = some d → ∃ d', c'.digs = some d' ∧ Digested d d' (pumpData amount ifd) := by
  have hcases := DigsCopy.swlibIDigsCopy_cases o unaligned tapeReader amount ifd c hofd hadj
  rw [copied_tapeReader, undelivered_wanted] at hcases
  rcases hcases with ⟨e, hret, hfails⟩ | hcopied
  · exact .inl ⟨e, hret, fun hfine => hfails ⟨trivial, hfine⟩⟩
  · exact .inr hcopied

/-- 600 bytes are asked for and 513 are there: a plain descriptor gives 512. -/
theorem swlibPumpAmount8_spec_short :
    ∃ ifd' c', swlibPumpAmount8 .little false 600 ⟨.unix, List.replicate 513 7⟩ zeroCopy =
        .returned (512, ifd', c') ∧ ifd'.data = [] := by
  have hdata : pumpData 600 ⟨.unix, List.replicate 513 7⟩ = List.replicate 512 7 := by
    rw [pumpData, List.length_replicate, if_neg (by decide), if_neg (by decide),
      List.take_replicate, show min (513 / 512 * 512) 513 = 512 by decide]
  have hnone : (List.replicate 513 (7 : UInt8)).drop (600 : Int).toNat = [] := by
    rw [List.drop_replicate]
    rfl
  rcases swlibPumpAmount8_spec .little false 600 ⟨.unix, List.replicate 513 7⟩ neverStalls_none
      neverStalls_none (c := zeroCopy) with ⟨_, -, hfails⟩ | ⟨ifd', c', hcopy, hrest, -⟩
  · exact absurd ⟨neverFails_none, neverFails_none⟩ hfails
  · rw [hdata, List.length_replicate] at hcopy
    rw [if_neg (by decide), hnone] at hrest
    exact ⟨ifd', c', hcopy, hrest⟩

/-! ### The texts -/

theorem nul_not_mem_hexDigits (bs : Bytes) : (0 : UInt8) ∉ hexDigits bs := by
  have hlow : ∀ n < 16, hexLow n ≠ 0 := by decide
  rw [hexDigits, List.mem_flatMap]
  rintro ⟨b, -, hb⟩
  have hlt := b.toNat_lt
  rw [hexByte, List.mem_pair] at hb
  rcases hb with hhigh | hlast
  · exact hlow _ (by omega) hhigh.symm
  · exact hlow _ (by omega) hlast.symm

/-- The text of a digest as a string. -/
def hexStr (bs : Bytes) : CString := ⟨hexDigits bs, nul_not_mem_hexDigits bs⟩

theorem ofMem_hexDigits (bs : Bytes) : CString.ofMem (hexDigits bs ++ [0]) = hexStr bs :=
  CString.ofMem_append_nul (hexStr bs) []

/-- The decimal text of a size. -/
def sizeStr (n : Nat) : CString :=
  ⟨decimal.render n, fun h => absurd (decimal.isDigit_of_mem_render n 0 h) (by decide)⟩

/-- The field has room for the size of a file. -/
theorem ofMem_sizeField {n : Nat} (hlt : n < 2 ^ 63) :
    CString.ofMem (CField.strncpyTerm 31 (decimal.render n)).bytes = sizeStr n := by
  have hlen : (decimal.render n).length ≤ 18 + 1 :=
    (decimal.length_render_le_iff 18 n).mpr (Nat.lt_trans hlt (by decide))
  exact CString.ofMem_strncpy_of_lt (show (sizeStr n).strlen < 31 by
    change (decimal.render n).length < 31
    omega) [0]

/-- Every text is made empty, and what is asked for is set. -/
theorem taruDigsInit_spec (digs : FileDigs) (enable : Int) :
    ∃ d, taruDigsInit digs enable = .returned d ∧ CString.ofMem d.md5.bytes = CString.empty ∧
      (0 ≤ enable → d.doMd5 = enable ∧ d.doSha1 = enable ∧ d.doSha512 = enable ∧
        d.doSize = enable) := by
  obtain ⟨a, ha, hmem⟩ := digs.md5.store_bytes 0 [0] (by decide)
  obtain ⟨b, hb, -⟩ := digs.sha1.store_bytes 0 [0] (by decide)
  obtain ⟨e, he, -⟩ := digs.sha512.store_bytes 0 [0] (by decide)
  obtain ⟨g, hg, -⟩ := digs.size.store_bytes 0 [0] (by decide)
  have hempty : CString.ofMem a.bytes = CString.empty := by
    rw [hmem]
    rfl
  have hcalls : taruDigsInit digs enable =
      if enable ≥ 0 then .returned ⟨a, enable, b, enable, e, enable, g, enable⟩
      else .returned ⟨a, digs.doMd5, b, digs.doSha1, e, digs.doSha512, g, digs.doSize⟩ := by
    rw [taruDigsInit]
    change digs.md5.store (0 : Nat) [0] >>= _ = _
    rw [ha, Outcome.returned_bind]
    change digs.sha1.store (0 : Nat) [0] >>= _ = _
    rw [hb, Outcome.returned_bind]
    change digs.sha512.store (0 : Nat) [0] >>= _ = _
    rw [he, Outcome.returned_bind]
    change digs.size.store (0 : Nat) [0] >>= _ = _
    rw [hg, Outcome.returned_bind]
  rw [hcalls]
  split
  next hset => exact ⟨_, rfl, hempty, fun _ => ⟨rfl, rfl, rfl, rfl⟩⟩
  next hclear => exact ⟨_, rfl, hempty, fun hset => absurd hset hclear⟩

theorem FileDigs.enable_flags {d : FileDigs} (md5 sha1 size sha512 : Bool) (h₁ : d.doMd5 = 0)
    (h₂ : d.doSha1 = 0) (h₃ : d.doSha512 = 0) (h₄ : d.doSize = 0) :
    (d.enable md5 sha1 size sha512).doMd5 = (if md5 then digsEnableOn else 0) ∧
      (d.enable md5 sha1 size sha512).doSha1 = (if sha1 then digsEnableOn else 0) ∧
      (d.enable md5 sha1 size sha512).doSha512 = (if sha512 then digsEnableOn else 0) ∧
      (d.enable md5 sha1 size sha512).doSize = (if size then digsEnableOn else 0) := by
  cases md5 <;> cases sha1 <;> cases size <;> cases sha512 <;>
    simp [FileDigs.enable, h₁, h₂, h₃, h₄]

/-- The digests of a descriptor, whatever its reads give: those of all of its bytes. -/
theorem swlibDigests_eq (md5 sha1 size sha512 : Bool) {ifd : Source} (mem : FileDigs) (c : DigsCopy)
    (hrel : ifd.Reliable) (hlt : ifd.rest.length < 2 ^ 63) :
    swlibDigests o unaligned md5 sha1 size sha512 ifd mem c = .returned (0,
      { md5 := if md5 then some (hexStr (Md5.md5 ifd.rest)) else none
        sha1 := if sha1 then some (hexStr (Sha.sha1 ifd.rest)) else none
        size := if size then some (sizeStr ifd.rest.length) else none
        sha512 := if sha512 then some (hexStr (Sha512.sha512 ifd.rest)) else none }) := by
  obtain ⟨d, hinit, -, hset⟩ := taruDigsInit_spec mem digsEnableOff
  obtain ⟨hd₁, hd₂, hd₃, hd₄⟩ := hset (Int.le_refl 0)
  obtain ⟨h₁, h₂, h₃, h₄⟩ := d.enable_flags md5 sha1 size sha512 hd₁ hd₂ hd₃ hd₄
  rw [swlibDigests, hinit, Outcome.returned_bind]
  dsimp only
  generalize d.enable md5 sha1 size sha512 = d₁ at h₁ h₂ h₃ h₄ ⊢
  rcases DigsCopy.swlibIDigsCopy_cases o unaligned safeReader (-1) ifd
      { c with digs := some d₁, ofd := none, adjunctOfd := none } neverStalls_none
      neverStalls_none with ⟨_, -, hfails⟩ | ⟨ifd', c', hcopy, -, -, -, htexts⟩
  · exact absurd ⟨hrel, neverFails_none, neverFails_none⟩ hfails
  obtain ⟨d', hd', hmd5, hsha1, hsha512, hsize⟩ := htexts d₁ rfl
  have hall : DigsCopy.copied safeReader (-1) ifd = ifd.rest := rfl
  rw [hall] at hcopy hmd5 hsha1 hsha512 hsize
  have hmd5' : md5 = true → CString.ofMem d'.md5.bytes = hexStr (Md5.md5 ifd.rest) := by
    intro hon
    rw [hmd5, h₁, hon, if_pos rfl, if_pos rfl, ofMem_hexDigits]
  have hsha1' : sha1 = true → CString.ofMem d'.sha1.bytes = hexStr (Sha.sha1 ifd.rest) := by
    intro hon
    rw [hsha1, h₂, hon, if_pos rfl, if_pos rfl, ofMem_hexDigits]
  have hsha512' : sha512 = true → CString.ofMem d'.sha512.bytes =
      hexStr (Sha512.sha512 ifd.rest) := by
    intro hon
    rw [hsha512, h₃, hon, if_pos rfl, if_pos rfl, ofMem_hexDigits]
  have hsize' : size = true → CString.ofMem d'.size.bytes = sizeStr ifd.rest.length := by
    intro hon
    rw [hsize, h₄, hon, if_pos rfl, if_pos (by decide), ofMem_sizeField hlt]
  rw [swlibDigsCopy, hcopy, Outcome.returned_bind, if_pos (by omega), hd']
  dsimp only [Option.map_some]
  congr 3
  · split
    next hon => rw [hmd5' hon]
    next hoff => rfl
  · split
    next hon => rw [hsha1' hon]
    next hoff => rfl
  · split
    next hon => rw [hsize' hon]
    next hoff => rfl
  · split
    next hon => rw [hsha512' hon]
    next hoff => rfl

/-- Five bytes, two a read, and all the texts. -/
theorem swlibDigests_eq_five :
    swlibDigests .little false true true true true twoARead zeroDigs zeroCopy = .returned (0,
      { md5 := some (hexStr (Md5.md5 [104, 101, 108, 108, 111]))
        sha1 := some (hexStr (Sha.sha1 [104, 101, 108, 108, 111]))
        size := some (sizeStr 5)
        sha512 := some (hexStr (Sha512.sha512 [104, 101, 108, 108, 111])) }) :=
  swlibDigests_eq .little false true true true true zeroDigs zeroCopy
    (fun _ => (by decide : (0 : Int) < 2)) (by decide)

/-- `swlib_md5_copy` copies, but it does not ask for the digest: there is no text. -/
theorem swlibMd5Copy_empty (count : Int) (ifd : Source) {ofd : Option Sink} (mem : FileDigs)
    (c : DigsCopy) (hofd : NeverStalls ofd) (hrel : ifd.Reliable) (hfine : NeverFails ofd) :
    ∃ ifd' ofd', swlibMd5Copy o unaligned count ifd ofd mem c =
        .returned ((DigsCopy.copied safeReader count ifd).length, some CString.empty, ifd', ofd') ∧
      Wrote ofd ofd' (DigsCopy.copied safeReader count ifd) := by
  obtain ⟨d, hinit, hempty, hset⟩ := taruDigsInit_spec mem digsEnableOff
  rw [swlibMd5Copy, hinit, Outcome.returned_bind]
  rcases DigsCopy.swlibIDigsCopy_cases o unaligned safeReader count ifd
      { c with digs := some d, ofd := ofd, adjunctOfd := none } hofd neverStalls_none with
    ⟨_, -, hfails⟩ | ⟨ifd', c', hcopy, -, hwrote, -, htexts⟩
  · exact absurd ⟨hrel, hfine, neverFails_none⟩ hfails
  obtain ⟨d', hd', hmd5, -⟩ := htexts d rfl
  refine ⟨ifd', c'.ofd, ?_, hwrote⟩
  rw [swlibDigsCopy, hcopy, Outcome.returned_bind]
  dsimp only
  rw [hd', Option.map_some, hmd5, (hset (Int.le_refl 0)).1, if_neg (by decide), hempty]

/-- Five bytes, and no digest. -/
theorem swlibMd5Copy_empty_five :
    ∃ ifd' ofd', swlibMd5Copy .little false (-1) twoARead none zeroDigs zeroCopy =
        .returned ((DigsCopy.copied safeReader (-1) twoARead).length, some CString.empty, ifd',
          ofd') ∧
      Wrote none ofd' (DigsCopy.copied safeReader (-1) twoARead) :=
  swlibMd5Copy_empty .little false (-1) twoARead zeroDigs zeroCopy neverStalls_none
    (fun _ => (by decide : (0 : Int) < 2)) neverFails_none

/-- `domd5` ignores a read that fails: the digest is the one of the bytes before it. -/
theorem domd5Loop_spec {o : ByteOrder} {fd : Source} {ctx : Md5.Md5Context} {msg : Bytes}
    (h : ctx.Holds o msg) :
    ∃ ctx', domd5Loop o fd ctx = .returned ctx' ∧
      ctx'.Holds o (msg ++ (fd.pattern.chunks 1024 fd.reads fd.rest).flatten) := by
  induction hn : fd.rest.length using Nat.strong_induction_on generalizing fd ctx msg with
  | _ n ih =>
      rw [domd5Loop]
      have hread : (fd.read 1024).1 = fd.pattern.read fd.reads 1024 fd.rest := rfl
      by_cases hpos : 0 < fd.pattern.read fd.reads 1024 fd.rest
      · have hle : fd.pattern.read fd.reads 1024 fd.rest ≤ 1024 := by
          rw [ReadPattern.read]
          omega
        have hlen : (fd.read 1024).2.1.length < 2 ^ 32 := by
          change (fd.rest.take _).length < _
          rw [List.length_take]
          omega
        obtain ⟨ctx₁, hret, hholds⟩ := Md5.md5Update_spec h hlen
        obtain ⟨ctx₂, hloop, hall⟩ := ih (fd.read 1024).2.2.rest.length (by
          rw [← hn]
          exact (Source.length_read (hread ▸ hpos)).2) hholds rfl
        rw [if_pos (hread ▸ hpos), hret, Outcome.returned_bind,
          ReadPattern.chunks_of_pos hpos, List.flatten_cons, ← List.append_assoc]
        exact ⟨ctx₂, hloop, hall⟩
      · rw [if_neg (hread ▸ hpos), ReadPattern.chunks_of_nonpos (Int.not_lt.mp hpos),
          List.flatten_nil, List.append_nil]
        exact ⟨ctx, rfl, h⟩

/-- `swlib_md5` gives the digest of the bytes before a read that fails. -/
theorem swlibMd5_eq (fd : Source) (bindigest : CField 33) (ctx : Md5.Md5Context) :
    ∃ g, swlibMd5 o fd bindigest true ctx = .returned (0, g) ∧
      CString.ofMem g.bytes =
        hexStr (Md5.md5 (fd.pattern.chunks 1024 fd.reads fd.rest).flatten) := by
  obtain ⟨ctx₁, hloop, hholds⟩ := @domd5Loop_spec o fd _ _ (Md5.holds_md5Init o ctx)
  rw [List.nil_append] at hholds
  generalize (fd.pattern.chunks 1024 fd.reads fd.rest).flatten = msg at hholds ⊢
  obtain ⟨ctx₂, hfinal⟩ := Md5.md5Final_spec hholds
  have hlen : (hexDigits (Md5.md5 msg)).length = 32 := by
    rw [length_hexDigits, length_md5]
  have hsize := bindigest.size_eq
  obtain ⟨g₁, hstore, hg₁⟩ := bindigest.store_bytes 0 (hexDigits (Md5.md5 msg) ++ [0])
    (by rw [List.length_append, hlen]; decide)
  obtain ⟨g₂, hlast, hg₂⟩ := store_last g₁
  have hcut : g₁.bytes.take 32 = hexDigits (Md5.md5 msg) := by
    rw [hg₁, overwrite, List.take_zero, List.nil_append, List.append_assoc, List.take_left' hlen]
  refine ⟨g₂, ?_, ?_⟩
  · rw [swlibMd5, hloop, Outcome.returned_bind, hfinal, Outcome.returned_bind]
    change bindigest.store (0 : Nat) (hexDigits (Md5.md5 msg) ++ [0]) >>= _ = _
    rw [hstore, Outcome.returned_bind]
    change g₁.store (32 : Nat) [0] >>= _ = _
    rw [hlast]
    rfl
  · rw [hg₂, hcut, ofMem_hexDigits]

/-- `swlib_sha1` gives the digest of all of the bytes. -/
theorem swlibSha1_eq {fd : Source} (digest : CField 41) (ctx : Sha.ShaCtx) (resblock : CField 21)
    (hrel : fd.Reliable) :
    ∃ g, swlibSha1 o fd digest ctx resblock = .returned (0, g) ∧
      CString.ofMem g.bytes = hexStr (Sha.sha1 fd.rest) := by
  obtain ⟨res, hres, htake⟩ := DigsCopy.storeResult_some resblock
    (show (Sha.sha1 fd.rest).length ≤ 21 by rw [length_sha1]; omega)
  rw [length_sha1] at htake
  obtain ⟨g₁, hprint, g₂, hstore, hg₂⟩ :=
    @DigsCopy.hexField_spec 40 20 _ digest rfl (length_sha1 fd.rest)
  refine ⟨g₂, ?_, by rw [hg₂, ofMem_hexDigits]⟩
  rw [swlibSha1, Sha.shaStream, Sha.shaStreamLoop_spec hrel (Sha.holds_shaInitCtx ctx) rfl,
    List.nil_append, Outcome.returned_bind, hres, Outcome.returned_bind, htake, hprint,
    Outcome.returned_bind]
  change g₁.store (40 : Nat) [0] >>= _ = _
  rw [hstore]
  rfl

/-- Five bytes, two a read. -/
theorem swlibSha1_eq_five :
    ∃ g, swlibSha1 .little twoARead (.zero 41) ⟨Sha.Regs.start, ⟨0, 0⟩, 0, .zero 128⟩
        (.zero 21) = .returned (0, g) ∧
      CString.ofMem g.bytes = hexStr (Sha.sha1 [104, 101, 108, 108, 111]) :=
  swlibSha1_eq .little (.zero 41) _ (.zero 21) (fun _ => (by decide : (0 : Int) < 2))

end

end Swbis.Misc
