import Swbis.Taru.ReadTar

/-!
# A stream with an in-band end

A catalog is sent over a pipe that stays open, so its end is marked in the data:
the text is written in double blocks, each padded with NULs, and a double block
that holds the trailer and NULs stands behind it.

The reader takes one block at a time.  When a block begins like the trailer, it
reads a second one: NULs mean the end, anything else means that both blocks are
data.  A block that is not there counts as the end of the stream, without an
error.  On a plain descriptor a block that is cut off counts as one that is not there,
and its bytes are left in the buffer.
-/

namespace Swbis.Misc

open CLib

/-! ## The code -/

/-- `SWLIB_SYNCT_BLOCKSIZE` -/
def synctBlocksize : Nat := 128

/-- A block. -/
abbrev SynctBlock := CField synctBlocksize

/-- `SWBIS_SYNCT_EOF` -/
def synctEof : Bytes :=
  chars ['T', 'R', 'A', 'I', 'L', 'E', 'R', '!', '!', '!'] ++ [13, 10, 13, 10]

/-- `synct_i_no_null_write`: each round writes up to the next NUL and skips the
NULs that follow.  There are at most as many rounds as bytes. -/
def noNullWriteLoop : Nat → Bytes → Bytes
  | 0, _ => []
  | _ + 1, [] => []
  | rounds + 1, c :: buf =>
      (c :: buf).takeWhile (· != 0) ++
        noNullWriteLoop rounds (((c :: buf).dropWhile (· != 0)).dropWhile (· == 0))

/-- What `synct_i_no_null_write` writes.  Writing succeeds. -/
def synctINoNullWrite (buf : Bytes) : Bytes := noNullWriteLoop buf.length buf

/-- What `synct_i_read_block` returns. -/
inductive BlockRead where
  /-- A block, and the stream behind it. -/
  | full (block : SynctBlock) (stream : Bytes)
  /-- `-ret`, where `ret` is less than a block, and the bytes that are in the buffer. -/
  | short (ret : Int) (got : Bytes)

/-- `synct_i_read_block`.  At the end of the stream `uxfio_sfa_read` returns 0 on a plain
descriptor, whatever it has read. -/
def synctIReadBlock (kind : Taru.FdKind) (stream : Bytes) : BlockRead :=
  if h : synctBlocksize ≤ stream.length then
    .full ⟨stream.take synctBlocksize, by rw [List.length_take, Nat.min_eq_left h]⟩
      (stream.drop synctBlocksize)
  else .short (if kind = .uxfio then -stream.length else 0) stream

/-- A block with bytes over its beginning. -/
def SynctBlock.over (tail : SynctBlock) (got : Bytes) : SynctBlock where
  bytes := (overwrite tail.bytes 0 got).take synctBlocksize
  size_eq := by
    rw [List.length_take, length_overwrite (Nat.zero_le _), tail.size_eq]
    omega

/-- `SYNCT_EOF_CONDITION_0`, `SYNCT_EOF_CONDITION_1` and `SYNCT_EOF_CONDITION_2`. -/
inductive EofCondition where
  | condition0
  | condition1
  | condition2
deriving DecidableEq

/-- The loop of `synct_check_for_possible_eof`, from index `i` on. -/
def checkLoop (i : Nat) : Bytes → Bytes → EofCondition
  | [], _ => .condition1
  | _ :: _, [] => .condition0
  | m :: mt, c :: pos =>
      if c ≠ 0 ∧ c = m then checkLoop (i + 1) mt pos
      else if c = 0 ∧ 11 < i then .condition2
      else .condition0

/-- `synct_check_for_possible_eof` -/
def synctCheckForPossibleEof (buf : SynctBlock) : EofCondition := checkLoop 0 synctEof buf.bytes

/-- What `swlib_synct_read` leaves. -/
structure SynctRead where
  /-- The return value. -/
  ret : Int
  /-- The bytes in `userbuf`. -/
  userbuf : Bytes
  /-- `tailM` -/
  tail : SynctBlock
  /-- The stream behind what was read. -/
  stream : Bytes

/-- `swlib_synct_read`.  Behind a mangled trailer it also reads the rest of the
stream, which nothing reads afterwards. -/
def swlibSynctRead (kind : Taru.FdKind) (tail : SynctBlock) (stream : Bytes) : SynctRead :=
  match synctIReadBlock kind stream with
  | .short ret _ => ⟨if ret < 0 then -1 else 0, [], tail, []⟩
  | .full ibuf stream =>
      if synctCheckForPossibleEof ibuf = .condition0 then
        ⟨synctBlocksize, ibuf.bytes, tail, stream⟩
      else
        match synctIReadBlock kind stream with
        | .short ret got =>
            if ret < 0 then ⟨-2, [], tail.over got, []⟩
            else if tail.over got = .zero synctBlocksize then ⟨0, [], tail.over got, []⟩
            else ⟨2 * synctBlocksize, ibuf.bytes ++ (tail.over got).bytes, tail.over got, []⟩
        | .full tbuf stream =>
            if tbuf = .zero synctBlocksize then ⟨0, [], tbuf, stream⟩
            else ⟨2 * synctBlocksize, ibuf.bytes ++ tbuf.bytes, tbuf, stream⟩

/-- The loop of `swlib_synct_suck`; every round but the last reads a block. -/
def suckLoop (kind : Taru.FdKind) :
    Nat → SynctBlock → Bytes → Int → Bytes → Option (Bytes × Int)
  | 0, _, _, _, _ => none
  | rounds + 1, tail, out, wtotal, stream =>
      let r := swlibSynctRead kind tail stream
      if 0 < r.ret then
        let written := synctINoNullWrite r.userbuf
        suckLoop kind rounds r.tail (out ++ written) (toCInt (wtotal + written.length)) r.stream
      else some (out, if r.ret < 0 then r.ret else wtotal)

/-- `swlib_synct_suck`: what it writes, and what it returns. -/
def swlibSynctSuck (kind : Taru.FdKind) (stream : Bytes) : Option (Bytes × Int) :=
  suckLoop kind (stream.length + 1) (.zero synctBlocksize) [] 0 stream

/-! ## The stream -/

/-- Bytes padded with NULs to a double block. -/
def padded (chunk : Bytes) : Bytes :=
  chunk ++ List.replicate (2 * synctBlocksize - chunk.length) 0

/-- The text in double blocks, and the trailer. -/
def synctStream (chunks : List Bytes) : Bytes := chunks.flatMap padded ++ padded synctEof

/-- The first `n` blocks of a stream. -/
def takeBlocks : Nat → Bytes → List SynctBlock
  | 0, _ => []
  | n + 1, stream => .strncpy synctBlocksize stream :: takeBlocks n (stream.drop synctBlocksize)

/-- The whole blocks of a stream. -/
def blocksOf (stream : Bytes) : List SynctBlock :=
  takeBlocks (stream.length / synctBlocksize) stream

/-- The stream holds the double block of the trailer. -/
def TrailerSeen (stream : Bytes) : Prop :=
  ∃ k, (stream.drop (2 * synctBlocksize * k)).take (2 * synctBlocksize) = padded synctEof

/-- The block begins like the trailer. -/
def LooksLikeTrailer (b : SynctBlock) : Prop := synctCheckForPossibleEof b ≠ .condition0

instance : DecidablePred LooksLikeTrailer := fun b =>
  inferInstanceAs (Decidable (synctCheckForPossibleEof b ≠ .condition0))

/-- No block that begins like the trailer stands before a block of NULs, when the
blocks are scanned in order and the block behind one that begins like the
trailer is passed over with it.  `last` says whether the last block may begin
like the trailer. -/
def NoFalseEnd (last : Prop) : List SynctBlock → Prop
  | [] => True
  | b :: bs =>
      if LooksLikeTrailer b then
        match bs with
        | [] => last
        | t :: bs => t ≠ .zero synctBlocksize ∧ NoFalseEnd last bs
      else NoFalseEnd last bs

theorem noFalseEnd_plain {last : Prop} {b : SynctBlock} (h : ¬LooksLikeTrailer b)
    (bs : List SynctBlock) : NoFalseEnd last (b :: bs) ↔ NoFalseEnd last bs := by
  rw [NoFalseEnd.eq_def]
  exact iff_of_eq (if_neg h)

theorem noFalseEnd_pair {last : Prop} {b : SynctBlock} (h : LooksLikeTrailer b) (t : SynctBlock)
    (bs : List SynctBlock) :
    NoFalseEnd last (b :: t :: bs) ↔ t ≠ .zero synctBlocksize ∧ NoFalseEnd last bs := by
  rw [NoFalseEnd, if_pos h]

/-! ## Writing without NULs -/

theorem filter_dropWhile_nul (buf : Bytes) :
    (buf.dropWhile (· == 0)).filter (· != 0) = buf.filter (· != 0) := by
  induction buf with
  | nil => rfl
  | cons c buf ih =>
      by_cases hc : c = 0
      · rw [List.dropWhile_cons_of_pos (by simp [hc]), ih, List.filter_cons_of_neg (by simp [hc])]
      · rw [List.dropWhile_cons_of_neg (by simp [hc])]

theorem noNullWriteLoop_eq {rounds : Nat} {buf : Bytes} (h : buf.length ≤ rounds) :
    noNullWriteLoop rounds buf = buf.filter (· != 0) := by
  induction rounds generalizing buf with
  | zero =>
      rw [List.length_eq_zero_iff.mp (Nat.le_zero.mp h)]
      rfl
  | succ rounds ih =>
      cases buf with
      | nil => rfl
      | cons c buf =>
          have hrun : ((c :: buf).takeWhile (· != 0)).filter (· != 0) =
              (c :: buf).takeWhile (· != 0) :=
            List.filter_eq_self.mpr fun x hx => List.mem_takeWhile_imp (p := (· != 0)) hx
          rw [noNullWriteLoop, ih, filter_dropWhile_nul]
          · calc _ = ((c :: buf).takeWhile (· != 0)).filter (· != 0) ++
                  ((c :: buf).dropWhile (· != 0)).filter (· != 0) := by rw [hrun]
              _ = _ := by rw [← List.filter_append, List.takeWhile_append_dropWhile]
          · rw [List.length_cons] at h
            by_cases hc : c = 0
            · rw [List.dropWhile_cons_of_neg (by simp [hc]), List.dropWhile_cons_of_pos (by simp [hc])]
              exact (List.dropWhile_suffix _).length_le.trans (by omega)
            · rw [List.dropWhile_cons_of_pos (by simp [hc])]
              exact ((List.dropWhile_suffix _).trans (List.dropWhile_suffix _)).length_le.trans
                (by omega)

/-- The text that a buffer holds. -/
def textOf (buf : Bytes) : Bytes := buf.filter (· != 0)

theorem synctINoNullWrite_eq (buf : Bytes) : synctINoNullWrite buf = textOf buf :=
  noNullWriteLoop_eq le_rfl

theorem textOf_append (xs ys : Bytes) : textOf (xs ++ ys) = textOf xs ++ textOf ys :=
  List.filter_append ..

@[simp] theorem textOf_zeros (n : Nat) : textOf (List.replicate n 0) = [] := by
  simp [textOf]

theorem textOf_of_noNul {text : Bytes} (h : (0 : UInt8) ∉ text) : textOf text = text := by
  refine List.filter_eq_self.mpr fun c hc => ?_
  have hne : c ≠ 0 := fun he => h (he ▸ hc)
  simpa using hne

/-! ## Reading blocks -/

/-- The bytes of blocks and of what stands behind them. -/
def streamOf (blocks : List SynctBlock) (rest : Bytes) : Bytes :=
  blocks.flatMap CField.bytes ++ rest

/-- The end of the stream is an error. -/
def FailsAtEnd (kind : Taru.FdKind) (rest : Bytes) : Prop := kind = .uxfio ∧ rest ≠ []

instance (kind : Taru.FdKind) (rest : Bytes) : Decidable (FailsAtEnd kind rest) :=
  inferInstanceAs (Decidable (_ ∧ _))

/-- What `swlib_synct_suck` writes for blocks, and whether the last
`swlib_synct_read` returns 0, -1 or -2.  `rest` is less than a block. -/
def suckBlocks (kind : Taru.FdKind) (rest : Bytes) (tail : SynctBlock) :
    List SynctBlock → Bytes × Int
  | [] => ([], if FailsAtEnd kind rest then -1 else 0)
  | b :: bs =>
      if LooksLikeTrailer b then
        match bs with
        | [] =>
            if FailsAtEnd kind rest then ([], -2)
            else if tail.over rest = .zero synctBlocksize then ([], 0)
            else (textOf (b.bytes ++ (tail.over rest).bytes), 0)
        | t :: bs =>
            if t = .zero synctBlocksize then ([], 0)
            else
              let r := suckBlocks kind rest t bs
              (textOf (b.bytes ++ t.bytes) ++ r.1, r.2)
      else
        let r := suckBlocks kind rest tail bs
        (textOf b.bytes ++ r.1, r.2)

theorem suckBlocks_plain {b : SynctBlock} (h : ¬LooksLikeTrailer b) (kind : Taru.FdKind)
    (rest : Bytes) (tail : SynctBlock) (bs : List SynctBlock) :
    suckBlocks kind rest tail (b :: bs) =
      (textOf b.bytes ++ (suckBlocks kind rest tail bs).1, (suckBlocks kind rest tail bs).2) := by
  rw [suckBlocks.eq_def]
  exact if_neg h

section

variable {kind : Taru.FdKind} {rest : Bytes}

theorem synctIReadBlock_cons (kind : Taru.FdKind) (b : SynctBlock) (bs : List SynctBlock) :
    synctIReadBlock kind (streamOf (b :: bs) rest) = .full b (streamOf bs rest) := by
  have hlen : b.bytes.length = synctBlocksize := b.size_eq
  have hsplit : streamOf (b :: bs) rest = b.bytes ++ streamOf bs rest := by
    simp [streamOf]
  rw [synctIReadBlock, dif_pos]
  · congr 1
    · ext1
      change (streamOf (b :: bs) rest).take synctBlocksize = b.bytes
      rw [hsplit, List.take_left' hlen]
    · rw [hsplit, List.drop_left' hlen]
  · rw [hsplit, List.length_append, hlen]
    exact Nat.le_add_right _ _

/-- At the end a block is short, and that is an error or not. -/
theorem synctIReadBlock_nil (kind : Taru.FdKind) (hrest : rest.length < synctBlocksize) :
    ∃ ret, synctIReadBlock kind (streamOf [] rest) = .short ret rest ∧
      (ret < 0 ↔ FailsAtEnd kind rest) := by
  have hshort : ¬synctBlocksize ≤ (streamOf [] rest).length := Nat.not_le.mpr hrest
  rw [synctIReadBlock, dif_neg hshort]
  cases kind with
  | unix => exact ⟨0, rfl, iff_of_false (lt_irrefl 0) fun h => nomatch h.1⟩
  | uxfio =>
      refine ⟨_, rfl, ?_⟩
      change -(rest.length : Int) < 0 ↔ _
      rw [FailsAtEnd, and_iff_right rfl, ← List.length_pos_iff]
      omega

theorem swlibSynctRead_nil (kind : Taru.FdKind) (hrest : rest.length < synctBlocksize)
    (tail : SynctBlock) :
    swlibSynctRead kind tail (streamOf [] rest) =
      ⟨if FailsAtEnd kind rest then -1 else 0, [], tail, []⟩ := by
  obtain ⟨ret, hread, hneg⟩ := synctIReadBlock_nil kind hrest
  simp only [swlibSynctRead, hread, hneg]

theorem swlibSynctRead_plain {b : SynctBlock} (hb : ¬LooksLikeTrailer b) (kind : Taru.FdKind)
    (tail : SynctBlock) (bs : List SynctBlock) :
    swlibSynctRead kind tail (streamOf (b :: bs) rest) =
      ⟨synctBlocksize, b.bytes, tail, streamOf bs rest⟩ := by
  simp only [swlibSynctRead, synctIReadBlock_cons]
  exact if_pos (not_not.mp hb)

theorem swlibSynctRead_last {b : SynctBlock} (hb : LooksLikeTrailer b) (kind : Taru.FdKind)
    (hrest : rest.length < synctBlocksize) (tail : SynctBlock) :
    swlibSynctRead kind tail (streamOf [b] rest) =
      if FailsAtEnd kind rest then ⟨-2, [], tail.over rest, []⟩
      else if tail.over rest = .zero synctBlocksize then ⟨0, [], tail.over rest, []⟩
      else ⟨2 * synctBlocksize, b.bytes ++ (tail.over rest).bytes, tail.over rest, []⟩ := by
  obtain ⟨ret, hread, hneg⟩ := synctIReadBlock_nil kind hrest
  simp only [swlibSynctRead, synctIReadBlock_cons, hread, hneg]
  exact if_neg hb

theorem swlibSynctRead_pair {b : SynctBlock} (hb : LooksLikeTrailer b) (kind : Taru.FdKind)
    (tail t : SynctBlock) (bs : List SynctBlock) :
    swlibSynctRead kind tail (streamOf (b :: t :: bs) rest) =
      if t = .zero synctBlocksize then ⟨0, [], t, streamOf bs rest⟩
      else ⟨2 * synctBlocksize, b.bytes ++ t.bytes, t, streamOf bs rest⟩ := by
  simp only [swlibSynctRead, synctIReadBlock_cons]
  exact if_neg hb

/-- A round that reads data. -/
theorem suckLoop_data {rounds : Nat} {tail : SynctBlock} {stream : Bytes} {r : SynctRead}
    (hr : swlibSynctRead kind tail stream = r) (hpos : 0 < r.ret) (out : Bytes) (n : Nat) :
    suckLoop kind (rounds + 1) tail out (toCInt n) stream =
      suckLoop kind rounds r.tail (out ++ textOf r.userbuf)
        (toCInt ((n + (textOf r.userbuf).length : Nat))) r.stream := by
  have hadd : toCInt (toCInt n + (textOf r.userbuf).length) =
      toCInt ((n + (textOf r.userbuf).length : Nat)) := by
    rw [toCInt_toCInt_add, Int.natCast_add]
  simp only [suckLoop, hr, if_pos hpos, synctINoNullWrite_eq, hadd]

/-- The last round. -/
theorem suckLoop_end {rounds : Nat} {tail : SynctBlock} {stream : Bytes} {r : SynctRead}
    (hr : swlibSynctRead kind tail stream = r) (hpos : r.ret ≤ 0) (out : Bytes) (wtotal : Int) :
    suckLoop kind (rounds + 1) tail out wtotal stream =
      some (out, if r.ret < 0 then r.ret else wtotal) := by
  simp only [suckLoop, hr, if_neg (Int.not_lt.mpr hpos)]

/-- What is returned after `n` bytes and those of `r`. -/
def suckReturn (n : Nat) (r : Bytes × Int) : Int :=
  if r.2 < 0 then r.2 else toCInt ((n + r.1.length : Nat))

/-- The loop writes what `suckBlocks` says. -/
theorem suckLoop_eq (kind : Taru.FdKind) (hrest : rest.length < synctBlocksize) {rounds : Nat}
    (tail : SynctBlock) (blocks : List SynctBlock) (hrounds : blocks.length < rounds) (out : Bytes)
    (n : Nat) :
    suckLoop kind rounds tail out (toCInt n) (streamOf blocks rest) =
      some (out ++ (suckBlocks kind rest tail blocks).1,
        suckReturn n (suckBlocks kind rest tail blocks)) := by
  obtain ⟨k, rfl⟩ : ∃ k, rounds = k + 1 := ⟨rounds - 1, by omega⟩
  fun_induction suckBlocks kind rest tail blocks generalizing k out n with
  | case1 tail =>
      rw [suckLoop_end (swlibSynctRead_nil kind hrest tail) (by dsimp only; split <;> decide)]
      simp [suckReturn]
  | case2 tail b hb h =>
      have hread := swlibSynctRead_last hb kind hrest tail
      rw [if_pos h] at hread
      rw [suckLoop_end hread (by dsimp only; decide)]
      simp [suckReturn]
  | case3 tail b hb h h' =>
      have hread := swlibSynctRead_last hb kind hrest tail
      rw [if_neg h, if_pos h'] at hread
      rw [suckLoop_end hread le_rfl]
      simp [suckReturn]
  | case4 tail b hb h h' =>
      have hread := swlibSynctRead_last hb kind hrest tail
      rw [if_neg h, if_neg h'] at hread
      obtain ⟨k, rfl⟩ : ∃ j, k = j + 1 := ⟨k - 1, by simp at hrounds; omega⟩
      -- the bytes of the last block and those behind them are data, and nothing is left
      have hend : swlibSynctRead kind (tail.over rest) (streamOf [] []) = _ :=
        swlibSynctRead_nil kind (by decide) (tail.over rest)
      rw [suckLoop_data hread (by dsimp only; decide)]
      refine (suckLoop_end hend (by dsimp only; split <;> decide) _ _).trans ?_
      have hnone : ¬FailsAtEnd kind [] := fun h => h.2 rfl
      simp [suckReturn, hnone]
  | case5 tail b hb bs =>
      have hread : swlibSynctRead kind tail (streamOf (b :: .zero synctBlocksize :: bs) rest) = _ :=
        swlibSynctRead_pair hb kind tail _ bs
      rw [if_pos rfl] at hread
      rw [suckLoop_end hread le_rfl]
      simp [suckReturn]
  | case6 tail b hb t bs h r =>
      rename_i ih
      have hread : swlibSynctRead kind tail (streamOf (b :: t :: bs) rest) = _ :=
        swlibSynctRead_pair hb kind tail t bs
      rw [if_neg h] at hread
      obtain ⟨k, rfl⟩ : ∃ j, k = j + 1 := ⟨k - 1, by simp at hrounds; omega⟩
      rw [suckLoop_data hread (by dsimp only; decide)]
      refine (ih _ _ k (by simp at hrounds; omega)).trans ?_
      simp [suckReturn, r, Nat.add_assoc]
  | case7 tail b bs h r =>
      rename_i ih
      have hread : swlibSynctRead kind tail (streamOf (b :: bs) rest) = _ :=
        swlibSynctRead_plain h kind tail bs
      obtain ⟨k, rfl⟩ : ∃ j, k = j + 1 := ⟨k - 1, by simp at hrounds; omega⟩
      rw [suckLoop_data hread (by dsimp only; decide)]
      refine (ih _ _ k (by simp at hrounds; omega)).trans ?_
      simp [suckReturn, r, Nat.add_assoc]

end

/-! ## Streams as blocks -/

theorem streamOf_takeBlocks {n : Nat} {stream : Bytes} (h : n * synctBlocksize ≤ stream.length) :
    streamOf (takeBlocks n stream) (stream.drop (n * synctBlocksize)) = stream := by
  induction n generalizing stream with
  | zero => simp [streamOf, takeBlocks]
  | succ n ih =>
      rw [Nat.succ_mul] at h
      have hblock : (CField.strncpy synctBlocksize stream).bytes = stream.take synctBlocksize := by
        rw [CField.bytes_strncpy, Nat.sub_eq_zero_of_le (by omega), List.replicate_zero,
          List.append_nil]
      have hrest := @ih (stream.drop synctBlocksize) (by rw [List.length_drop]; omega)
      rw [List.drop_drop] at hrest
      rw [takeBlocks, streamOf, List.flatMap_cons, List.append_assoc, hblock, Nat.succ_mul,
        Nat.add_comm (n * synctBlocksize)]
      exact (congrArg _ hrest).trans (List.take_append_drop _ _)

/-- A stream is its blocks and what stands behind them. -/
theorem streamOf_blocksOf (stream : Bytes) :
    ∃ rest : Bytes, rest.length = stream.length % synctBlocksize ∧
      streamOf (blocksOf stream) rest = stream := by
  refine ⟨_, ?_, streamOf_takeBlocks (Nat.div_mul_le_self _ _)⟩
  have := Nat.div_add_mod' stream.length synctBlocksize
  rw [List.length_drop]
  omega

theorem length_takeBlocks (n : Nat) (stream : Bytes) : (takeBlocks n stream).length = n := by
  induction n generalizing stream with
  | zero => rfl
  | succ n ih => rw [takeBlocks, List.length_cons, ih]

/-- What `swlib_synct_suck` does with a stream. -/
theorem swlibSynctSuck_eq (kind : Taru.FdKind) (stream : Bytes) :
    ∃ rest : Bytes, rest.length = stream.length % synctBlocksize ∧
      swlibSynctSuck kind stream =
        some ((suckBlocks kind rest (.zero synctBlocksize) (blocksOf stream)).1,
          suckReturn 0 (suckBlocks kind rest (.zero synctBlocksize) (blocksOf stream))) := by
  obtain ⟨rest, hlen, hstream⟩ := streamOf_blocksOf stream
  have hrest : rest.length < synctBlocksize := hlen ▸ Nat.mod_lt _ (by decide)
  have hrounds : (blocksOf stream).length < stream.length + 1 := by
    rw [blocksOf, length_takeBlocks]
    exact Nat.lt_succ_of_le (Nat.div_le_self _ _)
  have hloop := suckLoop_eq kind hrest (.zero synctBlocksize) (blocksOf stream) hrounds [] 0
  rw [hstream] at hloop
  exact ⟨rest, hlen, hloop⟩

/-! ## Streams that end early -/

/-- The last read fails exactly when the end of the stream is an error and no end
was seen before. -/
theorem suckBlocks_negative {kind : Taru.FdKind} {rest : Bytes} {tail : SynctBlock}
    {blocks : List SynctBlock} :
    (suckBlocks kind rest tail blocks).2 < 0 ↔ FailsAtEnd kind rest ∧ NoFalseEnd True blocks := by
  fun_induction suckBlocks kind rest tail blocks with
  | case1 tail =>
      dsimp only
      by_cases hr : FailsAtEnd kind rest <;> simp [hr, NoFalseEnd]
  | case2 tail b hb h => simp [h, NoFalseEnd, hb]
  | case3 tail b hb h h' => simp [h]
  | case4 tail b hb h h' => simp [h]
  | case5 tail b hb bs => simp [NoFalseEnd, hb]
  | case6 tail b hb t bs h r =>
      rename_i ih
      rw [noFalseEnd_pair hb]
      simpa [h] using ih
  | case7 tail b bs h r =>
      rename_i ih
      rw [noFalseEnd_plain h]
      exact ih

theorem length_textOf_le (buf : Bytes) : (textOf buf).length ≤ buf.length := List.length_filter_le ..

theorem length_suckBlocks_le (kind : Taru.FdKind) (rest : Bytes) (tail : SynctBlock)
    (blocks : List SynctBlock) :
    (suckBlocks kind rest tail blocks).1.length ≤ synctBlocksize * (blocks.length + 1) := by
  fun_induction suckBlocks kind rest tail blocks with
  | case1 | case2 | case3 | case5 => exact Nat.zero_le _
  | case4 tail b hb h h' =>
      refine (length_textOf_le _).trans ?_
      simp
      omega
  | case6 tail b hb t bs h r =>
      rename_i ih
      have hlen := length_textOf_le (b.bytes ++ t.bytes)
      simp only [List.length_append, CField.size_eq, List.length_cons, Nat.mul_succ, r] at hlen ih ⊢
      omega
  | case7 tail b bs h r =>
      rename_i ih
      have hlen := length_textOf_le b.bytes
      simp only [List.length_append, CField.size_eq, List.length_cons, Nat.mul_succ, r] at hlen ih ⊢
      omega

/-- The stream is on a descriptor that says how many bytes there were, and it ends inside a
block with no end seen before. -/
def EndsInBlock (kind : Taru.FdKind) (stream : Bytes) : Prop :=
  kind = .uxfio ∧ stream.length % synctBlocksize ≠ 0 ∧ NoFalseEnd True (blocksOf stream)

theorem endsInBlock_iff {kind : Taru.FdKind} {stream rest : Bytes}
    (hlen : rest.length = stream.length % synctBlocksize) (tail : SynctBlock) :
    EndsInBlock kind stream ↔ (suckBlocks kind rest tail (blocksOf stream)).2 < 0 := by
  rw [suckBlocks_negative, EndsInBlock, FailsAtEnd, ← hlen, ← and_assoc, ne_eq, ne_eq,
    List.length_eq_zero_iff]

/-- A stream that ends inside a block is an error, unless an end was seen before. -/
theorem swlibSynctSuck_negative {kind : Taru.FdKind} {stream : Bytes} (h : EndsInBlock kind stream) :
    ∃ out ret, swlibSynctSuck kind stream = some (out, ret) ∧ ret < 0 := by
  obtain ⟨rest, hlen, hsuck⟩ := swlibSynctSuck_eq kind stream
  have hneg := (endsInBlock_iff hlen (.zero synctBlocksize)).mp h
  refine ⟨_, _, hsuck, ?_⟩
  rw [suckReturn, if_pos hneg]
  exact hneg

/-- In a stream whose length fits an `int`, nothing else is an error. -/
theorem swlibSynctSuck_negative_iff {kind : Taru.FdKind} {stream : Bytes}
    (hfits : stream.length + synctBlocksize < 2 ^ 31) :
    (∃ out ret, swlibSynctSuck kind stream = some (out, ret) ∧ ret < 0) ↔
      EndsInBlock kind stream := by
  refine ⟨?_, swlibSynctSuck_negative⟩
  rintro ⟨out, ret, heq, hneg⟩
  obtain ⟨rest, hlen, hsuck⟩ := swlibSynctSuck_eq kind stream
  rw [hsuck] at heq
  obtain ⟨_, rfl⟩ := Prod.mk.inj (Option.some.inj heq)
  rw [suckReturn] at hneg
  split at hneg
  next h => exact (endsInBlock_iff hlen _).mpr h
  next =>
    have hout := length_suckBlocks_le kind rest (.zero synctBlocksize) (blocksOf stream)
    rw [blocksOf, length_takeBlocks, Nat.mul_succ] at hout
    have hdiv := Nat.mul_div_le stream.length synctBlocksize
    rw [Nat.zero_add, toCInt_of_lt (by rw [blocksOf]; omega)] at hneg
    omega

/-! ## Streams that end with the trailer -/

/-- The block of the trailer. -/
def trailerBlock : SynctBlock := .strncpy synctBlocksize synctEof

theorem looksLikeTrailer_trailerBlock : LooksLikeTrailer trailerBlock := by decide

theorem not_looksLikeTrailer_zero : ¬LooksLikeTrailer (.zero synctBlocksize) := by decide

theorem trailerBlock_ne_zero : trailerBlock ≠ .zero synctBlocksize := by decide

/-- A block that begins like the trailer holds text. -/
theorem textOf_ne_nil {b : SynctBlock} (h : LooksLikeTrailer b) : textOf b.bytes ≠ [] := by
  intro hnil
  refine h ?_
  cases hb : b.bytes with
  | nil =>
      rw [synctCheckForPossibleEof, hb]
      rfl
  | cons c pos =>
      have hc : c = 0 := by
        by_contra hne
        rw [hb, textOf, List.filter_cons_of_pos (by simpa using hne)] at hnil
        cases hnil
      rw [synctCheckForPossibleEof, hb, hc]
      rfl

/-- The blocks of a text, and the trailer. -/
def withTrailer (blocks : List SynctBlock) : List SynctBlock :=
  blocks ++ [trailerBlock, .zero synctBlocksize]

theorem suckBlocks_trailer (kind : Taru.FdKind) (tail : SynctBlock) :
    suckBlocks kind [] tail (withTrailer []) = ([], 0) := by
  rw [withTrailer, List.nil_append, suckBlocks, if_pos looksLikeTrailer_trailerBlock, if_pos rfl]

/-- Without a false end the text is written. -/
theorem suckBlocks_of_noFalseEnd {blocks : List SynctBlock} (h : NoFalseEnd False blocks)
    (kind : Taru.FdKind) (tail : SynctBlock) :
    suckBlocks kind [] tail (withTrailer blocks) = (textOf (blocks.flatMap CField.bytes), 0) := by
  fun_induction NoFalseEnd False blocks generalizing tail with
  | case1 => exact suckBlocks_trailer kind tail
  | case2 b hb => exact h.elim
  | case3 b hb t bs ih =>
      rw [withTrailer, List.cons_append, List.cons_append, suckBlocks, if_pos hb, if_neg h.1]
      have hrest := ih h.2 t
      rw [withTrailer] at hrest
      simp [hrest, textOf_append]
  | case4 b bs hb ih =>
      have hrest := ih h tail
      rw [withTrailer] at hrest
      rw [withTrailer, List.cons_append, suckBlocks_plain hb, hrest]
      simp [textOf_append]

/-- With a false end the length is wrong. -/
theorem length_suckBlocks_ne {blocks : List SynctBlock} (h : ¬NoFalseEnd False blocks)
    (kind : Taru.FdKind) (tail : SynctBlock) :
    (suckBlocks kind [] tail (withTrailer blocks)).1.length ≠
      (textOf (blocks.flatMap CField.bytes)).length := by
  fun_induction NoFalseEnd False blocks generalizing tail with
  | case1 => exact absurd trivial h
  | case2 b hb =>
      -- The last block is taken for the trailer, and the trailer is data.
      have hend : suckBlocks kind [] trailerBlock [.zero synctBlocksize] = ([], 0) := by
        rw [suckBlocks_plain not_looksLikeTrailer_zero, suckBlocks, if_neg fun h => h.2 rfl]
        rfl
      have htrailer : (textOf trailerBlock.bytes).length = synctEof.length := by decide
      rw [withTrailer, List.singleton_append, suckBlocks, if_pos hb, if_neg trailerBlock_ne_zero, hend]
      simp only [textOf_append, List.append_nil, List.length_append, htrailer]
      simp [synctEof]
  | case3 b hb t bs ih =>
      rw [withTrailer, List.cons_append, List.cons_append, suckBlocks, if_pos hb]
      by_cases ht : t = .zero synctBlocksize
      · rw [if_pos ht]
        have hpos := List.length_pos_iff.mpr (textOf_ne_nil hb)
        simp only [List.flatMap_cons, textOf_append, List.length_append, List.length_nil]
        omega
      · have hrest := ih (fun hclean => h ⟨ht, hclean⟩) t
        rw [withTrailer] at hrest
        rw [if_neg ht]
        simp only [List.flatMap_cons, textOf_append, List.length_append]
        omega
  | case4 b bs hb ih =>
      have hrest := ih h tail
      rw [withTrailer] at hrest
      rw [withTrailer, List.cons_append, suckBlocks_plain hb]
      simp only [List.flatMap_cons, textOf_append, List.length_append]
      omega

theorem takeBlocks_append {n : Nat} {xs : Bytes} (h : xs.length = n * synctBlocksize) (m : Nat)
    (ys : Bytes) : takeBlocks (n + m) (xs ++ ys) = takeBlocks n xs ++ takeBlocks m ys := by
  induction n generalizing xs with
  | zero =>
      rw [Nat.zero_mul] at h
      rw [List.length_eq_zero_iff.mp h, Nat.zero_add]
      rfl
  | succ n ih =>
      rw [Nat.succ_mul] at h
      have hblock : CField.strncpy synctBlocksize (xs ++ ys) = CField.strncpy synctBlocksize xs := by
        ext1
        rw [CField.bytes_strncpy, CField.bytes_strncpy, List.take_append_of_le_length (by omega),
          List.length_append, Nat.sub_eq_zero_of_le (by omega), Nat.sub_eq_zero_of_le (by omega)]
      rw [Nat.succ_add, takeBlocks, takeBlocks, hblock, List.cons_append,
        List.drop_append_of_le_length (by omega), ih (by rw [List.length_drop]; omega)]

theorem blocksOf_append {xs : Bytes} (h : xs.length % synctBlocksize = 0) (ys : Bytes) :
    blocksOf (xs ++ ys) = blocksOf xs ++ blocksOf ys := by
  have hlen := Nat.div_add_mod' xs.length synctBlocksize
  rw [h, Nat.add_zero] at hlen
  have hdiv : (xs ++ ys).length / synctBlocksize =
      xs.length / synctBlocksize + ys.length / synctBlocksize := by
    obtain ⟨k, hk⟩ := Nat.dvd_of_mod_eq_zero h
    rw [List.length_append, hk, Nat.mul_add_div (by decide), Nat.mul_div_cancel_left _ (by decide)]
  rw [blocksOf, blocksOf, blocksOf, hdiv, takeBlocks_append hlen.symm]

theorem blocksOf_padded_synctEof :
    blocksOf (padded synctEof) = [trailerBlock, .zero synctBlocksize] := by
  decide +kernel

theorem length_padded {chunk : Bytes} (h : chunk.length ≤ 2 * synctBlocksize) :
    (padded chunk).length = 2 * synctBlocksize := by
  rw [padded, List.length_append, List.length_replicate, Nat.add_sub_cancel' h]

/-- Chunks of text that each fit a double block. -/
def Chunks (chunks : List Bytes) : Prop :=
  ∀ chunk ∈ chunks, chunk.length ≤ 2 * synctBlocksize ∧ (0 : UInt8) ∉ chunk

theorem length_flatMap_padded {chunks : List Bytes} (h : Chunks chunks) :
    (chunks.flatMap padded).length % synctBlocksize = 0 := by
  induction chunks with
  | nil => rfl
  | cons chunk chunks ih =>
      have hlen := (h chunk List.mem_cons_self).1
      have hrest := ih fun c hc => h c (List.mem_cons_of_mem _ hc)
      rw [List.flatMap_cons, List.length_append, length_padded hlen, Nat.mul_add_mod_self_right]
      exact hrest

theorem textOf_flatMap_padded {chunks : List Bytes} (h : Chunks chunks) :
    textOf (chunks.flatMap padded) = chunks.flatten := by
  induction chunks with
  | nil => rfl
  | cons chunk chunks ih =>
      rw [List.flatMap_cons, textOf_append, ih fun c hc => h c (List.mem_cons_of_mem _ hc), padded,
        textOf_append, textOf_zeros, textOf_of_noNul (h chunk List.mem_cons_self).2,
        List.append_nil, List.flatten_cons]

/-- Blocks that end where the stream ends are its bytes. -/
theorem flatMap_blocksOf {stream : Bytes} (h : stream.length % synctBlocksize = 0) :
    (blocksOf stream).flatMap CField.bytes = stream := by
  obtain ⟨rest, hlen, hstream⟩ := streamOf_blocksOf stream
  rw [h] at hlen
  rw [List.length_eq_zero_iff.mp hlen, streamOf, List.append_nil] at hstream
  exact hstream

/-- What is done with a text in double blocks. -/
theorem swlibSynctSuck_synctStream (kind : Taru.FdKind) {chunks : List Bytes} (h : Chunks chunks) :
    swlibSynctSuck kind (synctStream chunks) =
      some ((suckBlocks kind [] (.zero synctBlocksize)
          (withTrailer (blocksOf (chunks.flatMap padded)))).1,
        suckReturn 0 (suckBlocks kind [] (.zero synctBlocksize)
          (withTrailer (blocksOf (chunks.flatMap padded))))) := by
  obtain ⟨rest, hlen, hsuck⟩ := swlibSynctSuck_eq kind (synctStream chunks)
  have hmod : (synctStream chunks).length % synctBlocksize = 0 := by
    rw [synctStream, List.length_append, length_padded (by decide), Nat.add_mul_mod_self_right]
    exact length_flatMap_padded h
  rw [hmod] at hlen
  rw [List.length_eq_zero_iff.mp hlen, synctStream, blocksOf_append (length_flatMap_padded h),
    blocksOf_padded_synctEof] at hsuck
  exact hsuck

/-- A text is written, and its length returned, exactly when no block of it makes
a false end and the length fits an `int`. -/
theorem swlibSynctSuck_text_iff (kind : Taru.FdKind) {chunks : List Bytes} (h : Chunks chunks) :
    swlibSynctSuck kind (synctStream chunks) = some (chunks.flatten, (chunks.flatten.length : Int)) ↔
      NoFalseEnd False (blocksOf (chunks.flatMap padded)) ∧ chunks.flatten.length < 2 ^ 31 := by
  have htext : textOf ((blocksOf (chunks.flatMap padded)).flatMap CField.bytes) = chunks.flatten := by
    rw [flatMap_blocksOf (length_flatMap_padded h), textOf_flatMap_padded h]
  rw [swlibSynctSuck_synctStream kind h]
  constructor
  · intro heq
    obtain ⟨hout, hret⟩ := Prod.mk.inj (Option.some.inj heq)
    have hclean : NoFalseEnd False (blocksOf (chunks.flatMap padded)) := by
      by_contra hfalse
      refine length_suckBlocks_ne hfalse kind (.zero synctBlocksize) ?_
      rw [hout, htext]
    refine ⟨hclean, ?_⟩
    rw [suckBlocks_of_noFalseEnd hclean, htext, suckReturn, if_neg (lt_irrefl _), Nat.zero_add,
      toCInt] at hret
    have hlt := Int.bmod_lt (x := (chunks.flatten.length : Int)) (m := 2 ^ 32) (by decide)
    rw [hret] at hlt
    omega
  · rintro ⟨hclean, hlt⟩
    rw [suckBlocks_of_noFalseEnd hclean, htext, suckReturn, if_neg (lt_irrefl _), Nat.zero_add,
      toCInt_of_lt hlt]

/-- A text is written, and its length returned, exactly when no block of it makes
a false end and the length fits an `int`.  A stream that ends inside a block is an error
on a descriptor that says how many bytes there were, if no end was seen before; and if
its length fits an `int` it is one only then. -/
theorem swlibSynctSuck_agrees (kind : Taru.FdKind) (stream : Bytes) {chunks : List Bytes}
    (h : Chunks chunks) :
    (swlibSynctSuck kind (synctStream chunks) =
          some (chunks.flatten, (chunks.flatten.length : Int)) ↔
        NoFalseEnd False (blocksOf (chunks.flatMap padded)) ∧ chunks.flatten.length < 2 ^ 31) ∧
    (EndsInBlock kind stream →
      ∃ out ret, swlibSynctSuck kind stream = some (out, ret) ∧ ret < 0) ∧
    (stream.length + synctBlocksize < 2 ^ 31 →
      ((∃ out ret, swlibSynctSuck kind stream = some (out, ret) ∧ ret < 0) ↔
        EndsInBlock kind stream)) :=
  ⟨swlibSynctSuck_text_iff kind h, swlibSynctSuck_negative, swlibSynctSuck_negative_iff⟩

/-- One chunk of one byte; and one byte without a trailer, on either kind of descriptor. -/
theorem swlibSynctSuck_agrees_one :
    swlibSynctSuck .unix (synctStream [[65]]) = some ([65], 1) ∧
      (∃ out ret, swlibSynctSuck .uxfio [65] = some (out, ret) ∧ ret < 0) ∧
      ¬∃ out ret, swlibSynctSuck .unix [65] = some (out, ret) ∧ ret < 0 := by
  have hchunks : Chunks [[65]] := by
    unfold Chunks
    decide
  have hblocks : blocksOf ([[65]].flatMap padded) =
      [.strncpy synctBlocksize [65], .zero synctBlocksize] := by decide +kernel
  have hinside : EndsInBlock .uxfio [65] := ⟨rfl, by decide, trivial⟩
  refine ⟨(swlibSynctSuck_agrees .unix [] hchunks).1.mpr ⟨?_, by decide⟩,
    (swlibSynctSuck_agrees .uxfio [65] hchunks).2.1 hinside, fun hneg => ?_⟩
  · rw [hblocks, noFalseEnd_plain (by decide), noFalseEnd_plain (by decide)]
    trivial
  · have hends := ((swlibSynctSuck_agrees .unix [65] hchunks).2.2 (by decide)).mp hneg
    exact nomatch hends.1

/-- The trailer as text is lost, and a stream that ends before the trailer is no
error. -/
theorem swlibSynctSuck_false_end :
    swlibSynctSuck .unix (synctStream [synctEof]) ≠ some (synctEof, (synctEof.length : Int)) ∧
      ¬TrailerSeen (padded [65]) ∧
      ¬∃ out ret, swlibSynctSuck .unix (padded [65]) = some (out, ret) ∧ ret < 0 := by
  refine ⟨by decide +kernel, ?_, ?_⟩
  · rintro ⟨k, hk⟩
    cases k with
    | zero => exact absurd hk (by decide +kernel)
    | succ k =>
        rw [List.drop_of_length_le] at hk
        · exact absurd hk (by decide +kernel)
        · rw [length_padded (by decide), Nat.mul_succ]
          exact Nat.le_add_left _ _
  · rintro ⟨out, ret, heq, hneg⟩
    have hsuck : swlibSynctSuck .unix (padded [65]) = some ([65], 1) := by decide +kernel
    rw [hsuck] at heq
    obtain ⟨_, rfl⟩ := Prod.mk.inj (Option.some.inj heq)
    exact absurd hneg (by decide)

end Swbis.Misc
