import Swbis.Lib.Memory
import Swbis.Lib.Strtol

/-!
# The pass-through buffer

While an archive is read, `taru_tape_buffered_read` keeps a copy of what it
reads in the taruib buffer.  When the copy no longer fits the nominal reserve,
the buffer is written to the taruib descriptor and starts over.
`taruib_unread` takes bytes back from the end, and `taruib_clear_buffer` writes
the buffer out.

The copy is conserved when the bytes written, followed by those in the buffer,
are the bytes read and not taken back.  `StepOk` says of a state and a call when
the call conserves it.
-/

namespace Swbis.Taru

open CLib

/-- `TARU_BUFSIZ_RES`, the size of the buffer. -/
def taruBufsizRes : Nat := 8192 + 512

/-- `taruib_get_reserve`. -/
def taruibGetReserve : Int := taruBufsizRes

/-- `taruib_get_nominal_reserve`. -/
def taruibGetNominalReserve : Int := taruibGetReserve - 512

/-- The state of the module, and what its descriptor has taken. -/
structure Taruib where
  /-- `g_taruib_gst_overflow_releaseM` -/
  overflowReleaseM : Int
  /-- `g_taruib_gst_fdM` -/
  fdM : Int
  /-- `g_taruib_gst_lenM` -/
  lenM : Int
  /-- `g_taruib_gst_bufferM` -/
  bufferM : CField taruBufsizRes
  /-- The bytes that the descriptor has taken. -/
  out : Bytes
  /-- The number of writes to the descriptor. -/
  writes : Nat

/-- A read of the archive: the count asked for, and the bytes it gives, or none
when it fails. -/
structure TapeRead where
  /-- The count asked for. -/
  pcount : Nat
  /-- What the read gives. -/
  got : Option Bytes
  /-- It never gives more. -/
  got_le : ∀ buf, got = some buf → buf.length ≤ pcount

/-- A call that reads or changes the buffer. -/
inductive TaruibCall where
  | read (r : TapeRead)
  | unread (n : Int)
  | clearBuffer

section

variable (accepts : Nat → Nat → Int)

/-- `uxfio_write` to the taruib descriptor: it takes `accepts` bytes, and a
negative number is an error. -/
def Taruib.uxfioWrite (t : Taruib) (bs : Bytes) : Int × Taruib :=
  let ret := accepts t.writes bs.length
  (ret, { t with out := t.out ++ bs.take ret.toNat, writes := t.writes + 1 })

/-- What `taru_tape_buffered_read` does with the buffer: the count returned. -/
def Taruib.tapeBufferedRead (t : Taruib) (r : TapeRead) : Outcome (Int × Taruib) :=
  match r.got with
  | none => pure (-1, t)
  | some buf =>
      let count := toCInt buf.length
      if t.fdM > 0 ∧ count > 0 then
        let dataLen := t.lenM
        let bufferReserve := toCInt (taruibGetNominalReserve - dataLen)
        if bufferReserve < count ∧ t.overflowReleaseM = 0 then do
          let t := { t with lenM := count }
          let old ← load t.bufferM.bytes 0 dataLen
          let (_, t) := t.uxfioWrite accepts old
          let bufferM ← t.bufferM.store 0 (buf.take count.toNat)
          pure (count, { t with bufferM := bufferM })
        else if toCInt (dataLen + toCInt r.pcount) > taruibGetReserve then .exited 2
        else do
          let bufferM ← t.bufferM.store dataLen (buf.take count.toNat)
          pure (count, { t with lenM := toCInt (dataLen + count), bufferM := bufferM })
      else pure (count, t)

/-- `taruib_unread`. -/
def Taruib.unread (t : Taruib) (n : Int) : Taruib :=
  if n > t.lenM then { t with lenM := 0 } else { t with lenM := toCInt (t.lenM - n) }

/-- `taruib_clear_buffer`: the value returned. -/
def Taruib.clearBuffer (t : Taruib) : Outcome (Int × Taruib) := do
  let bs ← load t.bufferM.bytes 0 t.lenM
  let (ret, t) := t.uxfioWrite accepts bs
  if ret < 0 then .exited 14
  else
    let t := { t with lenM := toCInt (t.lenM - ret) }
    if t.lenM > 0 then pure (-ret, t) else pure (ret, t)

/-- One call. -/
def Taruib.step (t : Taruib) : TaruibCall → Outcome Taruib
  | .read r => do
      let (_, t) ← t.tapeBufferedRead accepts r
      pure t
  | .unread n => pure (t.unread n)
  | .clearBuffer => do
      let (_, t) ← t.clearBuffer accepts
      pure t

/-- A sequence of calls. -/
def Taruib.run (t : Taruib) : List TaruibCall → Outcome Taruib
  | [] => pure t
  | c :: calls => do
      let t ← t.step accepts c
      t.run calls

end

/-! ## Conservation -/

/-- The bytes read and not taken back, after one more call. -/
def TaruibCall.stream (stream : Bytes) : TaruibCall → Bytes
  | .read r => stream ++ r.got.getD []
  | .unread n => stream.take (stream.length - n.toNat)
  | .clearBuffer => stream

/-- What is written and what is in the buffer make up the stream. -/
structure Conserved (t : Taruib) (stream : Bytes) : Prop where
  /-- There is a descriptor. -/
  fd : 0 < t.fdM
  /-- The stored length is within the buffer. -/
  len : 0 ≤ t.lenM ∧ t.lenM ≤ taruBufsizRes
  /-- The bytes are those of the stream. -/
  bytes : t.out ++ t.bufferM.bytes.take t.lenM.toNat = stream

/-- A sequence of calls never oversteps the buffer, and when it returns the copy
is conserved. -/
def Conserves (accepts : Nat → Nat → Int) (t : Taruib) (stream : Bytes)
    (calls : List TaruibCall) : Prop :=
  t.run accepts calls ≠ .fault ∧
    ∀ t', t.run accepts calls = .returned t' →
      Conserved t' (calls.foldl TaruibCall.stream stream)

/-- The buffer is written out and starts over at a read of `n` bytes. -/
def StartsOver (t : Taruib) (n : Nat) : Prop :=
  taruibGetNominalReserve - t.lenM < n ∧ t.overflowReleaseM = 0

/-- One call conserves the copy. -/
def StepConserves (accepts : Nat → Nat → Int) (t : Taruib) (stream : Bytes) (c : TaruibCall) :
    Prop :=
  t.step accepts c ≠ .fault ∧ ∀ t', t.step accepts c = .returned t' → Conserved t' (c.stream stream)

/-- When a call conserves the copy. -/
def StepOk (accepts : Nat → Nat → Int) (t : Taruib) : TaruibCall → Prop
  | .read r => ∀ buf, r.got = some buf → buf.length < 2 ^ 31 ∧
      (StartsOver t buf.length →
        buf.length ≤ taruBufsizRes ∧ accepts t.writes t.lenM.toNat = t.lenM) ∧
      (¬ StartsOver t buf.length →
        t.lenM + r.pcount < 2 ^ 31 ∨ t.lenM + buf.length ≤ taruBufsizRes)
  | .unread n => 0 ≤ n ∧ (n ≤ t.lenM ∨ t.out = [])
  | .clearBuffer => accepts t.writes t.lenM.toNat ≤ 0 ∨
      accepts t.writes t.lenM.toNat = t.lenM

/-- Every call of a sequence is one that conserves the copy. -/
def RunOk (accepts : Nat → Nat → Int) (t : Taruib) : List TaruibCall → Prop
  | [] => True
  | c :: calls => StepOk accepts t c ∧ ∀ t', t.step accepts c = .returned t' → RunOk accepts t' calls

section

variable {accepts : Nat → Nat → Int} {t : Taruib} {stream : Bytes}

/-- A call that returns conserves the copy when the state it returns does. -/
theorem StepConserves.of_returned {c : TaruibCall} {t' : Taruib}
    (hstep : t.step accepts c = .returned t') (h : Conserved t' (c.stream stream)) :
    StepConserves accepts t stream c := by
  refine ⟨by rw [hstep]; exact nofun, fun t'' ht'' => ?_⟩
  rw [hstep] at ht''
  cases ht''
  exact h

/-- A number that stands in the buffer fits an `int`. -/
theorem Conserved.toCInt_eq (h : Conserved t stream) {v : Int} (hle : v ≤ t.lenM)
    (hneg : -taruBufsizRes ≤ v) : toCInt v = v := by
  have hcap := h.len.2
  rw [taruBufsizRes] at hcap hneg
  exact toCInt_of_range (by omega) (by omega)

/-- The nominal reserve that is left. -/
theorem Conserved.reserve_eq (h : Conserved t stream) :
    toCInt (taruibGetNominalReserve - t.lenM) = taruibGetNominalReserve - t.lenM := by
  have hlen := h.len
  rw [taruBufsizRes] at hlen
  rw [taruibGetNominalReserve, taruibGetReserve, taruBufsizRes]
  exact toCInt_of_range (by omega) (by omega)

/-- The bytes in the buffer are loaded. -/
theorem Conserved.load_eq (h : Conserved t stream) :
    load t.bufferM.bytes 0 t.lenM = .returned (t.bufferM.bytes.take t.lenM.toNat) := by
  obtain ⟨l, hl⟩ := Int.eq_ofNat_of_zero_le h.len.1
  have hle := h.len.2
  have hload := CLib.load_eq t.bufferM.bytes 0 l (by rw [t.bufferM.size_eq]; omega)
  rw [List.drop_zero, Nat.cast_zero, ← hl] at hload
  rw [hload, hl, Int.toNat_natCast]

theorem Conserved.length_take (h : Conserved t stream) :
    (t.bufferM.bytes.take t.lenM.toNat).length = t.lenM.toNat := by
  have hle := h.len.2
  rw [List.length_take, t.bufferM.size_eq]
  omega

/-- A read that the buffer has no room for starts the buffer over. -/
theorem read_startsOver (h : Conserved t stream) {r : TapeRead} {buf : Bytes} (hgot : r.got = some buf)
    (hpos : 0 < buf.length) (hint : buf.length < 2 ^ 31) (hover : StartsOver t buf.length)
    (hfit : buf.length ≤ taruBufsizRes) (htakes : accepts t.writes t.lenM.toNat = t.lenM) :
    StepConserves accepts t stream (.read r) := by
  obtain ⟨g, hstore, hbytes⟩ := t.bufferM.store_bytes 0 buf (by omega)
  rw [Nat.cast_zero] at hstore
  have hout : t.out ++ (t.bufferM.bytes.take t.lenM.toNat).take t.lenM.toNat = stream := by
    rw [List.take_take, Nat.min_self]
    exact h.bytes
  have hfd := h.fd
  have hcount : toCInt (buf.length : Int) = buf.length := toCInt_of_lt hint
  unfold StartsOver at hover
  refine .of_returned (?_ : t.step accepts (.read r) =
    .returned ⟨t.overflowReleaseM, t.fdM, buf.length, g, stream, t.writes + 1⟩) ?_
  · rw [Taruib.step, Taruib.tapeBufferedRead, hgot]
    simp only [hcount, Int.toNat_natCast, List.take_length, h.reserve_eq]
    rw [if_pos ⟨hfd, by omega⟩, if_pos hover, h.load_eq, Outcome.returned_bind]
    simp only [Taruib.uxfioWrite, h.length_take, htakes, hstore, Outcome.returned_bind, hout,
      Outcome.pure_eq]
  · refine ⟨hfd, ⟨by simp only; omega, by simp only; omega⟩, ?_⟩
    have htake := take_overwrite_end t.bufferM.bytes 0 buf (Nat.zero_le _)
    rw [Nat.zero_add, List.take_zero, List.nil_append] at htake
    simp only [Int.toNat_natCast, hbytes, TaruibCall.stream, hgot, Option.getD_some, htake]

/-- A read that the buffer has room for is appended to it. -/
theorem read_appends (h : Conserved t stream) {r : TapeRead} {buf : Bytes}
    (hgot : r.got = some buf) (hpos : 0 < buf.length) (hint : buf.length < 2 ^ 31)
    (hover : ¬ StartsOver t buf.length)
    (hfit : t.lenM + r.pcount < 2 ^ 31 ∨ t.lenM + buf.length ≤ taruBufsizRes) :
    StepConserves accepts t stream (.read r) := by
  have hfd := h.fd
  have hcount : toCInt (buf.length : Int) = buf.length := toCInt_of_lt hint
  obtain ⟨l, hl⟩ := Int.eq_ofNat_of_zero_le h.len.1
  unfold StartsOver at hover
  have hstep : t.step accepts (.read r) =
      if toCInt (t.lenM + toCInt r.pcount) > taruibGetReserve then .exited 2
      else t.bufferM.store t.lenM buf >>= fun bufferM =>
        .returned { t with lenM := toCInt (t.lenM + buf.length), bufferM := bufferM } := by
    rw [Taruib.step, Taruib.tapeBufferedRead, hgot]
    simp only [hcount, Int.toNat_natCast, List.take_length, h.reserve_eq]
    rw [if_pos ⟨hfd, by omega⟩, if_neg hover]
    split
    · rfl
    · cases t.bufferM.store t.lenM buf <;> rfl
  by_cases hexit : toCInt (t.lenM + toCInt r.pcount) > taruibGetReserve
  · rw [if_pos hexit] at hstep
    exact ⟨by rw [hstep]; exact nofun, fun t' ht' => by rw [hstep] at ht'; cases ht'⟩
  · have hroom : l + buf.length ≤ taruBufsizRes := by
      rcases hfit with hp | hroom
      · -- the sum does not wrap, so the test for the reserve is right
        have hle := r.got_le buf hgot
        have hpc : toCInt (r.pcount : Int) = r.pcount := toCInt_of_lt (by omega)
        have hsum : toCInt (t.lenM + r.pcount) = t.lenM + r.pcount :=
          toCInt_of_range (by omega) hp
        rw [hpc, hsum, taruibGetReserve] at hexit
        omega
      · omega
    obtain ⟨g, hstore, hbytes⟩ := t.bufferM.store_bytes l buf hroom
    have hlen : toCInt ((l : Int) + buf.length) = l + buf.length := by
      rw [taruBufsizRes] at hroom
      exact toCInt_of_range (by omega) (by omega)
    rw [if_neg hexit, hl, hstore, Outcome.returned_bind, hlen] at hstep
    refine .of_returned hstep ⟨hfd, ⟨by simp only; omega, by simp only; omega⟩, ?_⟩
    have htake := take_overwrite_end t.bufferM.bytes l buf (by rw [t.bufferM.size_eq]; omega)
    have hsum : ((l : Int) + buf.length).toNat = l + buf.length := by omega
    have hstream := h.bytes
    rw [hl, Int.toNat_natCast] at hstream
    simp only [hsum, hbytes, htake, TaruibCall.stream, hgot, Option.getD_some]
    rw [← List.append_assoc, hstream]

theorem read_conserves (h : Conserved t stream) {r : TapeRead} (hok : StepOk accepts t (.read r)) :
    StepConserves accepts t stream (.read r) := by
  cases hgot : r.got with
  | none =>
      refine .of_returned (?_ : t.step accepts (.read r) = .returned t) ?_
      · rw [Taruib.step, Taruib.tapeBufferedRead, hgot]
        rfl
      · simpa [TaruibCall.stream, hgot] using h
  | some buf =>
      obtain ⟨hint, hstart, happend⟩ := hok buf hgot
      by_cases hpos : 0 < buf.length
      · by_cases hover : StartsOver t buf.length
        · exact read_startsOver h hgot hpos hint hover (hstart hover).1 (hstart hover).2
        · exact read_appends h hgot hpos hint hover (happend hover)
      · have hnil : buf = [] := List.length_eq_zero_iff.mp (by omega)
        subst hnil
        refine .of_returned (?_ : t.step accepts (.read r) = .returned t) ?_
        · rw [Taruib.step, Taruib.tapeBufferedRead, hgot]
          simp only [List.length_nil, Nat.cast_zero]
          rw [if_neg (by rw [show toCInt 0 = 0 by decide]; omega)]
          rfl
        · simpa [TaruibCall.stream, hgot] using h

/-- Bytes taken back are taken from the end of the buffer. -/
theorem unread_conserves (h : Conserved t stream) {n : Int} (hok : StepOk accepts t (.unread n)) :
    StepConserves accepts t stream (.unread n) := by
  obtain ⟨hn, hle⟩ := hok
  obtain ⟨k, rfl⟩ := Int.eq_ofNat_of_zero_le hn
  obtain ⟨l, hl⟩ := Int.eq_ofNat_of_zero_le h.len.1
  have hcap := h.len.2
  have hbytes := h.bytes
  have hlen := h.length_take
  rw [hl, Int.toNat_natCast] at hbytes hlen
  have hstream : stream.length = t.out.length + l := by
    rw [← hbytes, List.length_append, hlen]
  refine .of_returned rfl ?_
  rw [Taruib.unread]
  split
  next hgt =>
    have hnil : t.out = [] := hle.resolve_left (by omega)
    rw [hnil, List.length_nil] at hstream
    refine ⟨h.fd, ⟨le_refl _, by simp only; omega⟩, ?_⟩
    simp only [TaruibCall.stream, hnil, Int.toNat_natCast, Int.toNat_zero, List.take_zero,
      List.append_nil]
    rw [show stream.length - k = 0 by omega, List.take_zero]
  next hge =>
    have hback : toCInt ((l : Int) - k) = l - k := h.toCInt_eq (by omega) (by omega)
    refine ⟨h.fd, ⟨by simp only [hl, hback]; omega, by simp only [hl, hback]; omega⟩, ?_⟩
    simp only [TaruibCall.stream, hl, hback, Int.toNat_natCast]
    rw [show ((l : Int) - k).toNat = l - k by omega, hstream, ← hbytes,
      show t.out.length + l - k = t.out.length + (l - k) by omega, List.take_length_add_append,
      List.take_take, Nat.min_eq_left (by omega)]

theorem clearBuffer_step (accepts : Nat → Nat → Int) (h : Conserved t stream) :
    t.step accepts .clearBuffer =
      if accepts t.writes t.lenM.toNat < 0 then .exited 14
      else .returned ⟨t.overflowReleaseM, t.fdM, toCInt (t.lenM - accepts t.writes t.lenM.toNat),
        t.bufferM,
        t.out ++ (t.bufferM.bytes.take t.lenM.toNat).take (accepts t.writes t.lenM.toNat).toNat,
        t.writes + 1⟩ := by
  have hlen := h.length_take
  rw [Taruib.step, Taruib.clearBuffer, h.load_eq]
  simp only [Outcome.returned_bind, Taruib.uxfioWrite, hlen]
  split
  · rfl
  · split <;> rfl

/-- A buffer that is written out whole, or not at all, is conserved. -/
theorem clearBuffer_conserves (h : Conserved t stream) (hok : StepOk accepts t .clearBuffer) :
    StepConserves accepts t stream .clearBuffer := by
  have hbytes := h.bytes
  have hcap := h.len
  have hstep := clearBuffer_step accepts h
  by_cases hneg : accepts t.writes t.lenM.toNat < 0
  · rw [if_pos hneg] at hstep
    exact ⟨by rw [hstep]; exact nofun, fun t' ht' => by rw [hstep] at ht'; cases ht'⟩
  · rw [if_neg hneg] at hstep
    rcases hok with hzero | hall
    · have h0 : accepts t.writes t.lenM.toNat = 0 := by omega
      rw [h0, Int.sub_zero, h.toCInt_eq le_rfl (by omega)] at hstep
      refine .of_returned hstep ⟨h.fd, ⟨by simp only; omega, by simp only; omega⟩, ?_⟩
      simpa [TaruibCall.stream] using hbytes
    · rw [hall, Int.sub_self, h.toCInt_eq hcap.1 (by omega), List.take_take, Nat.min_self] at hstep
      refine .of_returned hstep ⟨h.fd, ⟨by simp only; omega, by simp only; omega⟩, ?_⟩
      simpa [TaruibCall.stream] using hbytes

theorem step_conserves (h : Conserved t stream) {c : TaruibCall} (hok : StepOk accepts t c) :
    StepConserves accepts t stream c := by
  cases c with
  | read r => exact read_conserves h hok
  | unread n => exact unread_conserves h hok
  | clearBuffer => exact clearBuffer_conserves h hok

/-- From a conserved copy, calls that are all fine conserve it. -/
theorem conserves_of_runOk (h : Conserved t stream) {calls : List TaruibCall}
    (hok : RunOk accepts t calls) : Conserves accepts t stream calls := by
  induction calls generalizing t stream with
  | nil =>
      refine ⟨nofun, fun t' ht' => ?_⟩
      cases ht'
      exact h
  | cons c calls ih =>
      obtain ⟨hfault, hnext⟩ := step_conserves h hok.1
      rw [Conserves, Taruib.run]
      cases hstep : t.step accepts c with
      | returned t₁ => exact ih (hnext t₁ hstep) (hok.2 t₁ hstep)
      | exited status => exact ⟨nofun, nofun⟩
      | fault => exact absurd hstep hfault
      | outOfFuel => exact ⟨nofun, nofun⟩

end

/-- The module with a descriptor and nothing in its buffer. -/
def Taruib.opened (overflowRelease fd : Int) (buffer : CField taruBufsizRes) : Taruib :=
  ⟨overflowRelease, fd, 0, buffer, [], 0⟩

theorem opened_conserved {overflowRelease fd : Int} {buffer : CField taruBufsizRes}
    (hfd : 0 < fd) : Conserved (.opened overflowRelease fd buffer) [] where
  fd := hfd
  len := ⟨le_refl (0 : Int), show (0 : Int) ≤ taruBufsizRes by decide⟩
  bytes := rfl

/-- From an empty buffer, a sequence of calls that are all fine conserves the copy. -/
theorem opened_conserves (accepts : Nat → Nat → Int) (overflowRelease fd : Int)
    (buffer : CField taruBufsizRes) (calls : List TaruibCall) (hfd : 0 < fd)
    (hok : RunOk accepts (.opened overflowRelease fd buffer) calls) :
    Conserves accepts (.opened overflowRelease fd buffer) [] calls :=
  conserves_of_runOk (opened_conserved hfd) hok

/-- A read of two bytes. -/
def readTwo : TapeRead := ⟨2, some [97, 98], by simp⟩

theorem step_readTwo (accepts : Nat → Nat → Int) :
    ∃ g, (Taruib.opened 0 1 (.zero _)).step accepts (.read readTwo) = .returned ⟨0, 1, 2, g, [], 0⟩ ∧
      g.bytes.take 2 = [97, 98] := by
  obtain ⟨g, hstore, hbytes⟩ := (CField.zero taruBufsizRes).store_bytes 0 [97, 98] (by decide)
  rw [Nat.cast_zero] at hstore
  refine ⟨g, ?_, ?_⟩
  · rw [Taruib.step, Taruib.tapeBufferedRead, readTwo]
    simp only [Taruib.opened, show toCInt (([97, 98] : Bytes).length : Int) = 2 by decide]
    rw [if_pos (by decide), if_neg (by decide), if_neg (by decide)]
    change ((CField.zero taruBufsizRes).store 0 [97, 98] >>= _) >>= _ = _
    rw [hstore]
    rfl
  · rw [hbytes]
    exact take_overwrite_end _ 0 [97, 98] (Nat.zero_le _)

theorem opened_conserves_readTwo :
    Conserves (fun _ n => n) (.opened 0 1 (.zero _)) [] [.read readTwo, .unread 1, .clearBuffer] := by
  refine opened_conserves (fun _ n => n) 0 1 (.zero _) _ (by decide) ⟨?_, fun t₁ h₁ => ?_⟩
  · intro buf hbuf
    cases hbuf
    exact ⟨by decide, fun hover => absurd hover.1 (by decide), fun _ => .inl (by decide)⟩
  · obtain ⟨g, hstep, -⟩ := step_readTwo fun _ n => n
    rw [hstep] at h₁
    cases h₁
    refine ⟨⟨by decide, .inl (show (1 : Int) ≤ 2 by decide)⟩, fun t₂ h₂ => ?_⟩
    cases h₂
    exact ⟨.inr rfl, fun t₃ _ => trivial⟩

/-- When one byte of two is taken, the buffer keeps the first and not the second. -/
theorem partialClear_not_conserved :
    ¬ Conserves (fun _ _ => 1) (.opened 0 1 (.zero _)) [] [.read readTwo, .clearBuffer] := by
  rintro ⟨-, hrun⟩
  obtain ⟨g, hstep, hg⟩ := step_readTwo fun _ _ => 1
  have h₁ : Conserved ⟨0, 1, 2, g, [], 0⟩ [97, 98] := ⟨show (0 : Int) < 1 by decide,
    ⟨show (0 : Int) ≤ 2 by decide, show (2 : Int) ≤ taruBufsizRes by decide⟩, hg⟩
  have hclear := clearBuffer_step (fun _ _ => 1) h₁
  rw [if_neg (by decide)] at hclear
  have h₂ := hrun _ (by rw [Taruib.run, hstep, Outcome.returned_bind, Taruib.run, hclear]; rfl)
  have hbytes := h₂.bytes
  have hg₁ : g.bytes.take 1 = [97] := by
    rw [← Nat.min_eq_left (show 1 ≤ 2 by decide), ← List.take_take, hg]
    rfl
  simp only [TaruibCall.stream, readTwo, List.foldl_cons, List.foldl_nil, Option.getD_some] at hbytes
  change ([] ++ (g.bytes.take 2).take 1) ++ g.bytes.take 1 = _ at hbytes
  rw [hg, hg₁] at hbytes
  exact absurd hbytes (by decide)

end Swbis.Taru
