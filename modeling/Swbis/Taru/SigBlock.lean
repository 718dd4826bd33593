import Mathlib.Data.List.GetD
import Swbis.Lib.Search
import Swbis.Lib.Strtol

/-!
# The signature blocks of a package

A signature file is a run of blocks of `sigsize` bytes.  `doSigSafetyChecks`
looks at the blocks that `whichsig` selects before they are used, and
`writeSelectedSig` writes them out afterwards.  Zero selects the last block, a
positive number the block of that number, and a negative one all blocks.

The two loops of the check share one counter of the bytes looked at, one of the
NULs and one of the characters.  `SigScan` holds them.  The model also collects
the offsets of the bytes that the check looks at.

A block number is multiplied by `sigsize` in `int`.  The product of a number that
the file has no block for can wrap, and then the check looks at a block that the
number does not stand for, or at memory outside of the file.

The writes to the signature descriptor are taken to succeed.
-/

namespace Swbis.Taru

open CLib

/-! ## The safety check -/

/-- `isprint`, in the C locale. -/
def isPrint (b : UInt8) : Bool := decide (32 ≤ b) && decide (b ≤ 126)

/-- A byte the check accepts before the padding. -/
def isSigChar (b : UInt8) : Bool := isPrint b || b == 0x0a || b == 0x0d

/-- The counters of `do_sig_safety_checks`. -/
structure SigScan where
  /-- `cnt` -/
  cnt : Nat
  /-- `foundnull` -/
  foundnull : Nat
  /-- `foundchar` -/
  foundchar : Nat
deriving DecidableEq

/-- The `switch` on one byte. -/
def SigScan.look (st : SigScan) (b : UInt8) : Except (Option Int) SigScan :=
  if b = 0 then
    if st.foundchar = 0 then .error (some 3)
    else .ok { st with foundnull := st.foundnull + 1, cnt := st.cnt + 1 }
  else if st.foundnull ≠ 0 then .error (some 2)
  else if isSigChar b = false then .error (some 1)
  else .ok { st with foundchar := st.foundchar + 1, cnt := st.cnt + 1 }

/-- A looked-at byte is counted. -/
theorem SigScan.cnt_look {st st' : SigScan} {b : UInt8} (h : st.look b = .ok st') :
    st'.cnt = st.cnt + 1 := by
  unfold SigScan.look at h
  split at h
  · split at h
    · cases h
    · cases h; rfl
  · split at h
    · cases h
    · split at h
      · cases h
      · cases h; rfl

/-- The offsets a scan has looked at, and how it ended. -/
structure Scanned (α : Type) where
  /-- The offsets. -/
  inspected : List Nat
  /-- The counters, or the code the check returns.  There is none when the check
  leaves the file or does not end. -/
  result : Except (Option Int) α

/-- `k * sigsize`, computed in `int`.  The length of a file is an `int`, so a
product that the file reaches is what it is. -/
def sigProduct (len sigsize : Nat) (k : Int) : Int :=
  if k * sigsize ≤ len then k * sigsize else toCInt (k * sigsize)

/-- The inner loop, `while (cnt < sigsize)`, from the byte at `off` on. -/
def scanBlock (data : Bytes) (sigsize off : Nat) (st : SigScan) : Scanned SigScan :=
  if st.cnt < sigsize then
    match h : st.look (data.getD off 0) with
    | .error code => ⟨[off], .error code⟩
    | .ok st' =>
        let rest := scanBlock data sigsize (off + 1) st'
        ⟨off :: rest.inspected, rest.result⟩
  else ⟨[], .ok st⟩
termination_by sigsize - st.cnt
decreasing_by
  have := SigScan.cnt_look h
  omega

/-- A block at `off` does not lie in the file. -/
def OutOfFile (data : Bytes) (sigsize : Nat) (off : Int) : Prop :=
  off < 0 ∨ data.length < off + sigsize

instance (data : Bytes) (sigsize : Nat) (off : Int) : Decidable (OutOfFile data sigsize off) :=
  inferInstanceAs (Decidable (_ ∨ _))

/-- The outer loop, `while (start_sig++ <= end_sig)`. -/
def scanBlocks (data : Bytes) (sigsize startSig endSig : Nat) (st : SigScan) : Scanned SigScan :=
  if startSig ≤ endSig then
    let off := sigProduct data.length sigsize ((startSig : Int) - 1)
    if st.cnt < sigsize ∧ OutOfFile data sigsize off then ⟨[], .error none⟩
    else
      let block := scanBlock data sigsize off.toNat st
      match block.result with
      | .error code => ⟨block.inspected, .error code⟩
      | .ok st' =>
          let rest := scanBlocks data sigsize (startSig + 1) endSig st'
          ⟨block.inspected ++ rest.inspected, rest.result⟩
  else ⟨[], .ok st⟩
termination_by endSig + 1 - startSig

/-- `start_sig++` wraps behind the largest `int`, and the loop does not end.  A
file is shorter, so this number is not that of a block. -/
def CounterWraps (data : Bytes) (endSig : Nat) : Prop :=
  data.length < endSig ∧ endSig = 2 ^ 31 - 1

instance (data : Bytes) (endSig : Nat) : Decidable (CounterWraps data endSig) :=
  inferInstanceAs (Decidable (_ ∧ _))

/-- The numbers of the first and the last selected block of `nsig`. -/
def selectedSigs (nsig : Nat) (whichsig : Int) : Nat × Nat :=
  if whichsig = 0 then (nsig, nsig)
  else if 0 < whichsig then (whichsig.toNat, whichsig.toNat)
  else (1, nsig)

/-- `do_sig_safety_checks`: the offsets looked at, and `ok` for a return of 0. -/
def doSigSafetyChecks (data : Bytes) (sigsize : Nat) (whichsig : Int) : Scanned Unit :=
  let len : Int := data.length
  if whichsig = 0 ∧ len < sigsize then ⟨[], .error (some (-3))⟩
  else if 0 < whichsig ∧ len < sigProduct data.length sigsize whichsig then
    ⟨[], .error (some (-4))⟩
  else if data.length % sigsize ≠ 0 then ⟨[], .error (some (-5))⟩
  else
    let nsig := data.length / sigsize
    if nsig < 1 then ⟨[], .error (some (-6))⟩
    else
      let sigs := selectedSigs nsig whichsig
      let scan := scanBlocks data sigsize sigs.1 sigs.2 ⟨0, 0, 0⟩
      ⟨scan.inspected,
        scan.result.bind fun _ => if CounterWraps data sigs.2 then .error none else .ok ()⟩

/-! ## Writing the selected blocks -/

/-- The ten newlines that `write_selected_sig_i` looks for. -/
def tenNewlines : Bytes := List.replicate 10 10

/-- One write to the signature descriptor, and the offset it is taken from. -/
structure SigWrite where
  /-- Where in the memory file the bytes come from. -/
  offset : Nat
  /-- The bytes. -/
  bytes : Bytes

/-- `write_selected_sig_i`: the memory file afterwards, and what was written.
It appends a NUL to the memory file, and cuts the trailing empty lines.  An
offset below zero is one that the check has stopped at. -/
def writeSelectedSigI (mem : Bytes) (whichsig sigsize : Nat) : Bytes × SigWrite :=
  let offset := (sigProduct mem.length sigsize ((whichsig : Int) - 1)).toNat
  let mem := mem ++ [0]
  match strstr (mem.drop offset) tenNewlines with
  | some i =>
      let mem := mem.set (offset + i + 4) 0
      (mem, ⟨offset, (CString.ofMem (mem.drop offset)).bytes⟩)
  | none => (mem, ⟨offset, (mem.drop offset).take sigsize⟩)

/-- The loop of `write_selected_sig`; a block number of 0 is refused. -/
def writeSigs (mem : Bytes) (sigsize startSig endSig : Nat) : List SigWrite :=
  if startSig ≤ endSig then
    if startSig = 0 then []
    else
      let r := writeSelectedSigI mem startSig sigsize
      r.2 :: writeSigs r.1 sigsize (startSig + 1) endSig
  else []
termination_by endSig + 1 - startSig

/-- `write_selected_sig`: everything it writes. -/
def writeSelectedSig (mem : Bytes) (sigsize : Nat) (whichsig : Int) : List SigWrite :=
  let sigs := selectedSigs (mem.length / sigsize) whichsig
  writeSigs mem sigsize sigs.1 sigs.2

/-! ## What the check is for -/

/-- Block `k`, counted from 1. -/
def sigBlock (data : Bytes) (sigsize k : Nat) : Bytes :=
  (data.drop ((k - 1) * sigsize)).take sigsize

/-- Block `k` of `nsig` is one that `whichsig` selects. -/
def Selected (nsig : Nat) (whichsig : Int) (k : Nat) : Prop :=
  1 ≤ k ∧ k ≤ nsig ∧
    (whichsig = 0 ∧ k = nsig ∨ 0 < whichsig ∧ (k : Int) = whichsig ∨ whichsig < 0)

/-- At least one character, and then nothing but padding. -/
def WellFormedSig (b : Bytes) : Prop :=
  ∃ text pad, b = text ++ List.replicate pad 0 ∧ text ≠ [] ∧ ∀ c ∈ text, isSigChar c = true

/-- A write takes the byte at offset `p`. -/
def SigWrite.Takes (w : SigWrite) (p : Nat) : Prop :=
  w.offset ≤ p ∧ p < w.offset + w.bytes.length

/-- The check covers the selected blocks: when it passes, each of them is well
formed, and no byte of one that is written out has gone unseen. -/
def ChecksSelected (data : Bytes) (sigsize : Nat) (whichsig : Int) : Prop :=
  (doSigSafetyChecks data sigsize whichsig).result = .ok () →
    ∀ k, Selected (data.length / sigsize) whichsig k →
      WellFormedSig (sigBlock data sigsize k) ∧
        ∀ w ∈ writeSelectedSig data sigsize whichsig, ∀ p, w.Takes p →
          (k - 1) * sigsize ≤ p → p < k * sigsize →
            p ∈ (doSigSafetyChecks data sigsize whichsig).inspected

/-! ## Products of block numbers -/

/-- The product of a block number of the file. -/
theorem sigProduct_of_le {len sigsize k : Nat} (hle : k * sigsize ≤ len) :
    sigProduct len sigsize k = (k * sigsize : Nat) := by
  have hint : (k : Int) * sigsize ≤ len := by exact_mod_cast hle
  rw [sigProduct, if_pos hint, Nat.cast_mul]

/-- The product is the one of the code, in `int`. -/
theorem sigProduct_eq {len sigsize : Nat} (hlen : len < 2 ^ 31) {k : Int} (hk : 0 ≤ k) :
    sigProduct len sigsize k = toCInt (k * sigsize) := by
  rw [sigProduct]
  split
  next hle =>
    refine (toCInt_of_range ?_ (by omega)).symm
    have hpos : 0 ≤ k * sigsize := Int.mul_nonneg hk (Int.natCast_nonneg _)
    omega
  next hle => rfl

/-- The offset of a block of the file. -/
theorem sigProduct_pred {len sigsize k : Nat} (h1 : 1 ≤ k) (hle : (k - 1) * sigsize ≤ len) :
    sigProduct len sigsize ((k : Int) - 1) = ((k - 1) * sigsize : Nat) := by
  rw [← sigProduct_of_le hle, Nat.cast_sub h1, Nat.cast_one]

/-! ## One block -/

theorem scanBlock_done {data : Bytes} {sigsize off : Nat} {st : SigScan} (h : sigsize ≤ st.cnt) :
    scanBlock data sigsize off st = ⟨[], .ok st⟩ := by
  rw [scanBlock, if_neg (by omega)]

/-- The inner loop looks at the bytes that are left of the block, in order. -/
theorem scanBlock_result (data : Bytes) (sigsize off : Nat) (st : SigScan)
    (hin : off + (sigsize - st.cnt) ≤ data.length) :
    (scanBlock data sigsize off st).result =
      ((data.drop off).take (sigsize - st.cnt)).foldlM SigScan.look st := by
  induction hn : sigsize - st.cnt generalizing off st with
  | zero =>
      rw [scanBlock_done (by omega)]
      rfl
  | succ n ih =>
      have hoff : off < data.length := by omega
      rw [scanBlock, if_pos (by omega), List.drop_eq_getElem_cons hoff, List.take_succ_cons,
        List.foldlM_cons, List.getD_eq_getElem data 0 hoff]
      split
      next code hc => rw [hc]; rfl
      next st' hs =>
        have hcnt := SigScan.cnt_look hs
        rw [hs]
        exact ih (off + 1) st' (by omega) (by omega)

/-- A block that passes has been looked at to its end. -/
theorem scanBlock_inspected {data : Bytes} {sigsize off : Nat} {st st' : SigScan}
    (hok : (scanBlock data sigsize off st).result = .ok st') {p : Nat} (hle : off ≤ p)
    (hlt : p < off + (sigsize - st.cnt)) :
    p ∈ (scanBlock data sigsize off st).inspected := by
  induction hn : sigsize - st.cnt generalizing off st with
  | zero => omega
  | succ n ih =>
      rw [scanBlock, if_pos (by omega)] at hok ⊢
      split at hok
      next code hc => cases hok
      next st₁ hs =>
        have hcnt := SigScan.cnt_look hs
        rcases Nat.eq_or_lt_of_le hle with rfl | hlt'
        · exact List.mem_cons_self
        · exact List.mem_cons_of_mem _ (ih hok hlt' (by omega) (by omega))

/-- The counter of a block that passes stands at the end of the block. -/
theorem scanBlock_cnt {data : Bytes} {sigsize off : Nat} {st st' : SigScan}
    (hok : (scanBlock data sigsize off st).result = .ok st') : sigsize ≤ st'.cnt := by
  induction hn : sigsize - st.cnt generalizing off st with
  | zero =>
      rw [scanBlock_done (by omega)] at hok
      cases hok
      omega
  | succ n ih =>
      rw [scanBlock, if_pos (by omega)] at hok
      split at hok
      next code hc => cases hok
      next st₁ hs =>
        have hcnt := SigScan.cnt_look hs
        exact ih hok (by omega)

/-! ## What the byte checks accept -/

theorem isSigChar_zero : isSigChar 0 = false := by decide

theorem SigScan.look_zero {st : SigScan} (hc : st.foundchar ≠ 0) :
    st.look 0 = .ok { st with foundnull := st.foundnull + 1, cnt := st.cnt + 1 } := by
  rw [SigScan.look, if_pos rfl, if_neg hc]

theorem SigScan.look_char {st : SigScan} {x : UInt8} (hn : st.foundnull = 0)
    (hs : isSigChar x = true) :
    st.look x = .ok { st with foundchar := st.foundchar + 1, cnt := st.cnt + 1 } := by
  have hx : x ≠ 0 := by
    rintro rfl
    rw [isSigChar_zero] at hs
    cases hs
  rw [SigScan.look, if_neg hx, if_neg (by simp [hn]), if_neg (by simp [hs])]

/-- A byte that is neither padding nor a character never passes. -/
theorem SigScan.look_bad {st st' : SigScan} {x : UInt8} (hx : x ≠ 0) (hs : isSigChar x = false) :
    st.look x ≠ .ok st' := by
  rw [SigScan.look, if_neg hx]
  split
  · exact nofun
  · simp

/-- The bytes pass, from the counters `st` on. -/
def SigScan.Passes (st : SigScan) (b : Bytes) : Prop := ∃ st', b.foldlM SigScan.look st = .ok st'

theorem SigScan.passes_nil (st : SigScan) : st.Passes [] := ⟨st, rfl⟩

theorem SigScan.passes_cons {st : SigScan} {x : UInt8} {b : Bytes} :
    st.Passes (x :: b) ↔ ∃ st', st.look x = .ok st' ∧ st'.Passes b := by
  rw [SigScan.Passes, List.foldlM_cons]
  cases hl : st.look x with
  | error code => exact ⟨fun ⟨_, h⟩ => (by cases h), fun ⟨_, h, _⟩ => (by cases h)⟩
  | ok st₁ =>
      refine ⟨fun h => ⟨st₁, rfl, h⟩, ?_⟩
      rintro ⟨st₂, he, h⟩
      cases he
      exact h

/-- Characters, and then nothing but padding. -/
def PaddedText (b : Bytes) : Prop :=
  ∃ text pad, b = text ++ List.replicate pad 0 ∧ ∀ c ∈ text, isSigChar c = true

theorem paddedText_zero {b : Bytes} :
    PaddedText (0 :: b) ↔ b = List.replicate b.length 0 := by
  constructor
  · rintro ⟨text, pad, hb, htext⟩
    cases text with
    | nil =>
        have hlen := congrArg List.length hb
        simp only [List.length_cons, List.nil_append, List.length_replicate] at hlen
        rw [List.nil_append, ← hlen, List.replicate_succ] at hb
        exact (List.cons.inj hb).2
    | cons y text =>
        have hy := htext y List.mem_cons_self
        rw [← (List.cons.inj hb).1, isSigChar_zero] at hy
        cases hy
  · intro hb
    exact ⟨[], b.length + 1, by rw [List.nil_append, List.replicate_succ, ← hb], by simp⟩

theorem paddedText_cons {x : UInt8} {b : Bytes} (hx : x ≠ 0) :
    PaddedText (x :: b) ↔ isSigChar x = true ∧ PaddedText b := by
  constructor
  · rintro ⟨text, pad, hb, htext⟩
    cases text with
    | nil =>
        have hmem : x ∈ List.replicate pad (0 : UInt8) := by
          rw [List.nil_append] at hb
          rw [← hb]
          exact List.mem_cons_self
        exact absurd (List.eq_of_mem_replicate hmem) hx
    | cons y text =>
        obtain ⟨rfl, hrest⟩ := List.cons.inj hb
        exact ⟨htext x List.mem_cons_self, text, pad, hrest,
          fun c hc => htext c (List.mem_cons_of_mem _ hc)⟩
  · rintro ⟨hs, text, pad, rfl, htext⟩
    exact ⟨x :: text, pad, rfl, by simpa [hs] using htext⟩

/-- A block is well formed when it is padded text that starts with a character. -/
theorem wellFormedSig_iff {x : UInt8} {b : Bytes} :
    WellFormedSig (x :: b) ↔ isSigChar x = true ∧ PaddedText b := by
  constructor
  · rintro ⟨text, pad, hb, hne, htext⟩
    cases text with
    | nil => exact absurd rfl hne
    | cons y text =>
        obtain ⟨rfl, hrest⟩ := List.cons.inj hb
        exact ⟨htext x List.mem_cons_self, text, pad, hrest,
          fun c hc => htext c (List.mem_cons_of_mem _ hc)⟩
  · rintro ⟨hs, text, pad, rfl, htext⟩
    exact ⟨x :: text, pad, rfl, by simp, by simpa [hs] using htext⟩

/-- After a NUL only NULs pass. -/
theorem passes_padding {b : Bytes} {st : SigScan} (hn : st.foundnull ≠ 0)
    (hc : st.foundchar ≠ 0) : st.Passes b ↔ b = List.replicate b.length 0 := by
  induction b generalizing st with
  | nil => simp [SigScan.passes_nil]
  | cons x b ih =>
      rw [SigScan.passes_cons, List.length_cons, List.replicate_succ, List.cons.injEq]
      constructor
      · rintro ⟨st', hl, hp⟩
        by_cases hx : x = 0
        · rw [hx, SigScan.look_zero hc] at hl
          obtain rfl := Except.ok.inj hl
          have hn' : st.foundnull + 1 ≠ 0 := Nat.succ_ne_zero _
          exact ⟨hx, (@ih ⟨_, st.foundnull + 1, _⟩ hn' hc).mp hp⟩
        · rw [SigScan.look, if_neg hx, if_pos hn] at hl
          cases hl
      · rintro ⟨rfl, hb⟩
        have hn' : st.foundnull + 1 ≠ 0 := Nat.succ_ne_zero _
        exact ⟨_, SigScan.look_zero hc, (@ih ⟨_, st.foundnull + 1, _⟩ hn' hc).mpr hb⟩

/-- Before a NUL characters pass as well. -/
theorem passes_text {b : Bytes} {st : SigScan} (hn : st.foundnull = 0) (hc : st.foundchar ≠ 0) :
    st.Passes b ↔ PaddedText b := by
  induction b generalizing st with
  | nil => exact ⟨fun _ => ⟨[], 0, rfl, by simp⟩, fun _ => st.passes_nil⟩
  | cons x b ih =>
      rw [SigScan.passes_cons]
      by_cases hx : x = 0
      · subst hx
        rw [paddedText_zero]
        simp only [SigScan.look_zero hc, Except.ok.injEq, exists_eq_left']
        exact passes_padding (Nat.succ_ne_zero _) hc
      · rw [paddedText_cons hx]
        cases hs : isSigChar x with
        | true =>
            simp only [SigScan.look_char hn hs, Except.ok.injEq, exists_eq_left', true_and]
            exact ih hn (Nat.succ_ne_zero _)
        | false =>
            refine ⟨fun ⟨st', hl, _⟩ => absurd hl (SigScan.look_bad hx hs), fun h => ?_⟩
            cases h.1

/-- A block passes exactly when it is well formed. -/
theorem passes_start {b : Bytes} (hne : b ≠ []) :
    SigScan.Passes ⟨0, 0, 0⟩ b ↔ WellFormedSig b := by
  cases b with
  | nil => exact absurd rfl hne
  | cons x b =>
      rw [SigScan.passes_cons, wellFormedSig_iff]
      cases hs : isSigChar x with
      | true =>
          have hl : SigScan.look ⟨0, 0, 0⟩ x = .ok ⟨1, 0, 1⟩ := SigScan.look_char rfl hs
          simp only [hl, Except.ok.injEq, exists_eq_left', true_and]
          exact passes_text rfl (Nat.succ_ne_zero 0)
      | false =>
          refine ⟨?_, fun h => by cases h.1⟩
          rintro ⟨st', hl, -⟩
          by_cases hx : x = 0
          · subst hx
            cases hl
          · exact absurd hl (SigScan.look_bad hx hs)

/-! ## Only the first selected block is looked at -/

/-- Once the counter stands at the end of a block, no later block is looked at. -/
theorem scanBlocks_counted {data : Bytes} {sigsize startSig endSig : Nat} {st : SigScan}
    (h : sigsize ≤ st.cnt) : scanBlocks data sigsize startSig endSig st = ⟨[], .ok st⟩ := by
  induction hn : endSig + 1 - startSig generalizing startSig with
  | zero => rw [scanBlocks, if_neg (by omega)]
  | succ n ih =>
      rw [scanBlocks, if_pos (by omega)]
      simp only
      rw [if_neg (by omega), scanBlock_done h]
      have hrest := ih (show endSig + 1 - (startSig + 1) = n by omega)
      simp only [hrest, List.append_nil]

/-- The outer loop looks at its first block and no other. -/
theorem scanBlocks_eq {data : Bytes} {sigsize startSig endSig : Nat} {st : SigScan}
    (hle : startSig ≤ endSig)
    (hin : ¬ OutOfFile data sigsize (sigProduct data.length sigsize ((startSig : Int) - 1))) :
    scanBlocks data sigsize startSig endSig st =
      scanBlock data sigsize (sigProduct data.length sigsize ((startSig : Int) - 1)).toNat st := by
  rw [scanBlocks, if_pos hle]
  simp only
  rw [if_neg (by tauto)]
  cases hb : scanBlock data sigsize
      (sigProduct data.length sigsize ((startSig : Int) - 1)).toNat st with
  | mk inspected result =>
      cases result with
      | error code => rfl
      | ok st' =>
          have hcnt : sigsize ≤ st'.cnt := by
            have hres := congrArg Scanned.result hb
            exact scanBlock_cnt hres
          simp only [scanBlocks_counted hcnt, List.append_nil]

/-- What the scan of a block looks at lies in the block. -/
theorem scanBlock_inspected_lt {data : Bytes} {sigsize off : Nat} {st : SigScan} {p : Nat}
    (h : p ∈ (scanBlock data sigsize off st).inspected) :
    off ≤ p ∧ p < off + (sigsize - st.cnt) := by
  induction hn : sigsize - st.cnt generalizing off st with
  | zero =>
      rw [scanBlock_done (by omega)] at h
      cases h
  | succ n ih =>
      rw [scanBlock, if_pos (by omega)] at h
      split at h
      next code hc =>
        obtain rfl := List.mem_singleton.mp h
        omega
      next st₁ hs =>
        have hcnt := SigScan.cnt_look hs
        rcases List.mem_cons.mp h with rfl | h
        · omega
        · have := ih h (by omega)
          omega

section

variable {data : Bytes} {sigsize n : Nat} {whichsig : Int}

/-- A selector that the file has a block for. -/
def ValidSelector (n : Nat) (whichsig : Int) : Prop := 1 ≤ n ∧ whichsig ≤ n

theorem selectedSigs_le (h : ValidSelector n whichsig) :
    1 ≤ (selectedSigs n whichsig).1 ∧ (selectedSigs n whichsig).1 ≤ (selectedSigs n whichsig).2 ∧
      (selectedSigs n whichsig).2 ≤ n := by
  obtain ⟨h1, hle⟩ := h
  unfold selectedSigs
  split
  · exact ⟨h1, le_refl _, le_refl _⟩
  · split
    · exact ⟨by omega, le_refl _, by omega⟩
    · exact ⟨le_refl _, h1, le_refl _⟩

/-- A block of the file does not lie outside of it. -/
theorem not_outOfFile {k : Nat} (h1 : 1 ≤ k) (hle : k * sigsize ≤ data.length) :
    sigProduct data.length sigsize ((k : Int) - 1) = ((k - 1) * sigsize : Nat) ∧
      ¬ OutOfFile data sigsize (sigProduct data.length sigsize ((k : Int) - 1)) := by
  have hsucc : (k - 1) * sigsize + sigsize = k * sigsize := by
    rw [← Nat.succ_mul]
    congr 1
    omega
  have hoff := sigProduct_pred h1 (show (k - 1) * sigsize ≤ data.length by omega)
  refine ⟨hoff, ?_⟩
  rw [hoff, OutOfFile]
  omega

/-- The check on a valid selector is the scan of the first selected block. -/
theorem doSigSafetyChecks_eq (hs : 0 < sigsize) (hlen : data.length = n * sigsize)
    (hv : ValidSelector n whichsig) :
    doSigSafetyChecks data sigsize whichsig =
      ⟨(scanBlock data sigsize (((selectedSigs n whichsig).1 - 1) * sigsize) ⟨0, 0, 0⟩).inspected,
        (scanBlock data sigsize (((selectedSigs n whichsig).1 - 1) * sigsize) ⟨0, 0, 0⟩).result.map
          fun _ => ()⟩ := by
  have hdiv : data.length / sigsize = n := by rw [hlen, Nat.mul_div_cancel _ hs]
  have hmod : data.length % sigsize = 0 := by rw [hlen, Nat.mul_mod_left]
  have hge : sigsize ≤ data.length := by
    rw [hlen]
    exact Nat.le_mul_of_pos_left _ hv.1
  have hprod : whichsig * sigsize ≤ data.length := by
    rw [hlen, Int.natCast_mul]
    exact Int.mul_le_mul_of_nonneg_right hv.2 (by omega)
  have hsel : ¬ (data.length : Int) < sigProduct data.length sigsize whichsig := by
    rw [sigProduct, if_pos hprod]
    exact Int.not_lt.mpr hprod
  obtain ⟨h1, hle, hn⟩ := selectedSigs_le hv
  have hfirst : (selectedSigs n whichsig).1 * sigsize ≤ data.length := by
    rw [hlen]
    exact Nat.mul_le_mul_right _ (hle.trans hn)
  have hlast : ¬ CounterWraps data (selectedSigs n whichsig).2 := by
    have hfile : n ≤ data.length := hlen ▸ Nat.le_mul_of_pos_right n hs
    exact fun h => absurd h.1 (by omega)
  obtain ⟨hoff, hin⟩ := not_outOfFile h1 hfirst
  rw [doSigSafetyChecks]
  simp only [hdiv]
  rw [if_neg (by omega), if_neg (by tauto), if_neg (by omega), if_neg (by have := hv.1; omega),
    scanBlocks_eq hle hin, hoff, Int.toNat_natCast, if_neg hlast]
  cases (scanBlock data sigsize (((selectedSigs n whichsig).1 - 1) * sigsize) ⟨0, 0, 0⟩).result with
  | error code => rfl
  | ok st => rfl

/-- A number that the file has no block for, whose product passes the check: it
wraps to the offset of some block of the file. -/
def WrapsToBlock (data : Bytes) (sigsize n : Nat) (whichsig : Int) : Prop :=
  (n : Int) < whichsig ∧
    ¬ OutOfFile data sigsize (sigProduct data.length sigsize (whichsig - 1))

theorem selectedSigs_of_lt (h : (n : Int) < whichsig) :
    selectedSigs n whichsig = (whichsig.toNat, whichsig.toNat) ∧ (whichsig.toNat : Int) = whichsig := by
  refine ⟨?_, Int.toNat_of_nonneg (by omega)⟩
  rw [selectedSigs, if_neg (by omega), if_pos (by omega)]

/-- A selector that passes has a block, or wraps to one. -/
theorem validSelector_or_wraps (hs : 0 < sigsize) (hlen : data.length = n * sigsize)
    (hok : (doSigSafetyChecks data sigsize whichsig).result = .ok ()) :
    1 ≤ n ∧ (ValidSelector n whichsig ∨ WrapsToBlock data sigsize n whichsig) := by
  have hdiv : data.length / sigsize = n := by rw [hlen, Nat.mul_div_cancel _ hs]
  rw [doSigSafetyChecks] at hok
  simp only [hdiv] at hok
  split at hok
  · cases hok
  · split at hok
    · cases hok
    · split at hok
      · cases hok
      · split at hok
        · cases hok
        next h1 =>
          refine ⟨by omega, ?_⟩
          by_cases hle : whichsig ≤ n
          · exact .inl ⟨by omega, hle⟩
          · refine .inr ⟨by omega, fun hout => ?_⟩
            obtain ⟨hsel, hnum⟩ := selectedSigs_of_lt (Int.not_le.mp hle)
            rw [hsel, scanBlocks, if_pos (le_refl _)] at hok
            simp only [hnum] at hok
            rw [if_pos ⟨hs, hout⟩] at hok
            cases hok

/-- The first block that is looked at lies in the file. -/
theorem firstBlock_of_ok (hs : 0 < sigsize) (hlen : data.length = n * sigsize)
    (hok : (doSigSafetyChecks data sigsize whichsig).result = .ok ()) :
    1 ≤ (selectedSigs n whichsig).1 ∧ (selectedSigs n whichsig).1 ≤ (selectedSigs n whichsig).2 ∧
      ∃ off : Nat, sigProduct data.length sigsize (((selectedSigs n whichsig).1 : Int) - 1) = off ∧
        off + sigsize ≤ data.length := by
  have hin : ∀ {off : Int}, ¬ OutOfFile data sigsize off →
      ∃ k : Nat, off = k ∧ k + sigsize ≤ data.length := by
    intro off h
    rw [OutOfFile] at h
    exact ⟨off.toNat, by omega, by omega⟩
  obtain ⟨-, hv | ⟨hlt, hout⟩⟩ := validSelector_or_wraps hs hlen hok
  · obtain ⟨h1, hle, hn⟩ := selectedSigs_le hv
    have hfirst : (selectedSigs n whichsig).1 * sigsize ≤ data.length := by
      rw [hlen]
      exact Nat.mul_le_mul_right _ (hle.trans hn)
    exact ⟨h1, hle, hin (not_outOfFile h1 hfirst).2⟩
  · obtain ⟨hsel, hnum⟩ := selectedSigs_of_lt hlt
    rw [hsel]
    refine ⟨by omega, le_refl _, ?_⟩
    simp only [hnum]
    exact hin hout

/-- A selected block is one that the file has. -/
theorem Selected.validSelector {k : Nat} (h : Selected n whichsig k) : ValidSelector n whichsig := by
  obtain ⟨h1, hle, hcase⟩ := h
  exact ⟨by omega, by omega⟩

/-- The check passes exactly when the first selected block is well formed. -/
theorem doSigSafetyChecks_ok_iff (hs : 0 < sigsize) (hlen : data.length = n * sigsize)
    (hv : ValidSelector n whichsig) :
    (doSigSafetyChecks data sigsize whichsig).result = .ok () ↔
      WellFormedSig (sigBlock data sigsize (selectedSigs n whichsig).1) := by
  obtain ⟨h1, hle, hn⟩ := selectedSigs_le hv
  generalize hk : (selectedSigs n whichsig).1 = k at h1 hle
  have hin : (k - 1) * sigsize + sigsize ≤ data.length := by
    rw [hlen, ← Nat.succ_mul]
    exact Nat.mul_le_mul_right _ (by omega)
  have hne : sigBlock data sigsize k ≠ [] := by
    apply List.ne_nil_of_length_pos
    rw [sigBlock, List.length_take, List.length_drop]
    omega
  rw [doSigSafetyChecks_eq hs hlen hv, hk, scanBlock_result _ _ _ _ (by simpa using hin),
    ← passes_start hne]
  change (((sigBlock data sigsize k).foldlM SigScan.look ⟨0, 0, 0⟩).map fun _ => ()) = .ok () ↔ _
  rw [SigScan.Passes]
  cases (sigBlock data sigsize k).foldlM SigScan.look ⟨0, 0, 0⟩ with
  | error code => exact ⟨fun h => (by cases h), fun ⟨_, h⟩ => (by cases h)⟩
  | ok st => exact ⟨fun _ => ⟨st, rfl⟩, fun _ => rfl⟩

/-- When the check of a valid selector passes, it has looked at the bytes of the
first selected block and at no others. -/
theorem mem_inspected_iff (hs : 0 < sigsize) (hlen : data.length = n * sigsize)
    (hv : ValidSelector n whichsig)
    (hok : (doSigSafetyChecks data sigsize whichsig).result = .ok ()) {p : Nat} :
    p ∈ (doSigSafetyChecks data sigsize whichsig).inspected ↔
      ((selectedSigs n whichsig).1 - 1) * sigsize ≤ p ∧
        p < ((selectedSigs n whichsig).1 - 1) * sigsize + sigsize := by
  rw [doSigSafetyChecks_eq hs hlen hv] at hok ⊢
  constructor
  · intro h
    simpa using scanBlock_inspected_lt h
  · rintro ⟨hle, hlt⟩
    cases hres : (scanBlock data sigsize
        (((selectedSigs n whichsig).1 - 1) * sigsize) ⟨0, 0, 0⟩).result with
    | error code =>
        rw [hres] at hok
        cases hok
    | ok st => exact scanBlock_inspected hres hle (by simpa using hlt)

end

/-! ## Every selected block is written -/

theorem writeSelectedSigI_length (mem : Bytes) (whichsig sigsize : Nat) :
    (writeSelectedSigI mem whichsig sigsize).1.length = mem.length + 1 := by
  simp only [writeSelectedSigI]
  split <;> simp

/-- The first byte of a block is always written. -/
theorem writeSelectedSigI_takes (mem : Bytes) (whichsig : Nat) {sigsize : Nat} (hs : 0 < sigsize)
    {offset : Nat} (ho : sigProduct mem.length sigsize ((whichsig : Int) - 1) = offset)
    (hlt : offset < mem.length) :
    (writeSelectedSigI mem whichsig sigsize).2.Takes offset := by
  have hlt' : offset < (mem ++ [0]).length := by
    rw [List.length_append]
    omega
  simp only [writeSelectedSigI, ho, Int.toNat_natCast]
  split
  next i hi =>
    refine ⟨le_refl _, ?_⟩
    have hfound := findSub_add_length_le hi (by decide)
    rw [List.drop_eq_getElem_cons hlt'] at hfound
    have hx : (mem ++ [0])[offset] ≠ 0 := by
      intro h0
      rw [h0] at hfound
      simp [tenNewlines] at hfound
    have hmem : ((mem ++ [0]).set (offset + i + 4) 0).drop offset =
        (mem ++ [0])[offset] :: ((mem ++ [0]).drop (offset + 1)).set (i + 3) 0 := by
      rw [List.drop_set, if_neg (by omega), List.drop_eq_getElem_cons hlt',
        show offset + i + 4 - offset = i + 3 + 1 by omega, List.set_cons_succ]
    simp only [hmem]
    simp [CString.ofMem, hx]
  next =>
    refine ⟨le_refl _, ?_⟩
    simp only [List.length_take, List.length_drop]
    omega

/-- With a negative selector the second block is written. -/
theorem writeSelectedSig_second {data : Bytes} {sigsize n : Nat} {whichsig : Int}
    (hs : 0 < sigsize) (hlen : data.length = n * sigsize) (hw : whichsig < 0) (hn : 2 ≤ n) :
    ∃ w ∈ writeSelectedSig data sigsize whichsig, w.Takes sigsize := by
  have hdiv : data.length / sigsize = n := by rw [hlen, Nat.mul_div_cancel _ hs]
  have hsel : selectedSigs n whichsig = (1, n) := by
    rw [selectedSigs, if_neg (by omega), if_neg (by omega)]
  have hlt : sigsize < data.length := by
    rw [hlen]
    exact lt_of_lt_of_le (by omega) (Nat.mul_le_mul_right sigsize hn)
  simp only [writeSelectedSig, hdiv, hsel]
  rw [writeSigs, if_pos (by omega), if_neg (by decide)]
  simp only [Nat.reduceAdd]
  rw [writeSigs, if_pos (by omega), if_neg (by decide)]
  refine ⟨_, List.mem_cons_of_mem _ List.mem_cons_self, ?_⟩
  have hlong : sigsize < (writeSelectedSigI data 1 sigsize).1.length := by
    rw [writeSelectedSigI_length]
    omega
  have hoff := sigProduct_pred (k := 2) (by decide)
    (show (2 - 1) * sigsize ≤ (writeSelectedSigI data 1 sigsize).1.length by omega)
  rw [Nat.one_mul] at hoff
  exact writeSelectedSigI_takes (writeSelectedSigI data 1 sigsize).1 2 hs hoff hlong

/-! ## When the check covers the selected blocks -/

section

variable {data : Bytes} {sigsize n : Nat} {whichsig : Int}

/-- A file of several blocks whose first is well formed passes the check for
all blocks, and the second block goes unseen. -/
theorem not_checksSelected (hs : 0 < sigsize) (hlen : data.length = n * sigsize)
    (hw : whichsig < 0) (hn : 2 ≤ n) (hwf : WellFormedSig (sigBlock data sigsize 1)) :
    ¬ ChecksSelected data sigsize whichsig := by
  intro hcov
  have hdiv : data.length / sigsize = n := by rw [hlen, Nat.mul_div_cancel _ hs]
  have hv : ValidSelector n whichsig := ⟨by omega, by omega⟩
  have hsel : (selectedSigs n whichsig).1 = 1 := by
    rw [selectedSigs, if_neg (by omega), if_neg (by omega)]
  have hok := (doSigSafetyChecks_ok_iff hs hlen hv).mpr (by rwa [hsel])
  obtain ⟨w, hmem, htakes⟩ := writeSelectedSig_second hs hlen hw hn
  have hsecond := (hcov hok 2 ⟨by omega, by omega, by omega⟩).2 w hmem sigsize htakes
    (by omega) (by omega)
  rw [mem_inspected_iff hs hlen hv hok, hsel] at hsecond
  omega

/-- When the check passes and only one block is selected, that block is the one
the check has looked at. -/
theorem selected_eq_first (hcond : 0 ≤ whichsig ∨ n ≤ 1) {k : Nat}
    (hk : Selected n whichsig k) : k = (selectedSigs n whichsig).1 := by
  obtain ⟨h1, hkn, hcase⟩ := hk
  unfold selectedSigs
  split
  next h0 => simp only; omega
  next h0 =>
    split
    next hpos => simp only; omega
    next hneg => simp only; omega

theorem checksSelected_of_single (hs : 0 < sigsize) (hlen : data.length = n * sigsize)
    (hcond : 0 ≤ whichsig ∨ n ≤ 1) : ChecksSelected data sigsize whichsig := by
  intro hok k hk
  have hdiv : data.length / sigsize = n := by rw [hlen, Nat.mul_div_cancel _ hs]
  rw [hdiv] at hk
  have hv := hk.validSelector
  have hwf := (doSigSafetyChecks_ok_iff hs hlen hv).mp hok
  rw [← selected_eq_first hcond hk] at hwf
  refine ⟨hwf, fun w _ p _ hle hlt => ?_⟩
  rw [mem_inspected_iff hs hlen hv hok, ← selected_eq_first hcond hk]
  have hsucc : (k - 1) * sigsize + sigsize = k * sigsize := by
    have hk1 := hk.1
    rw [← Nat.succ_mul]
    congr 1
    omega
  exact ⟨hle, by omega⟩

/-- A first block that is not well formed makes the check for all blocks fail. -/
theorem checksSelected_of_rejected (hs : 0 < sigsize) (hlen : data.length = n * sigsize)
    (hw : whichsig < 0) (hwf : ¬ WellFormedSig (sigBlock data sigsize 1)) :
    ChecksSelected data sigsize whichsig := by
  intro hok k hk
  have hdiv : data.length / sigsize = n := by rw [hlen, Nat.mul_div_cancel _ hs]
  rw [hdiv] at hk
  have hfirst := (doSigSafetyChecks_ok_iff hs hlen hk.validSelector).mp hok
  rw [selectedSigs, if_neg (by omega), if_neg (by omega)] at hfirst
  exact absurd hfirst hwf

/-- The check covers the selected blocks exactly when it is asked for one block,
or there is at most one, or it rejects the file at its first block. -/
theorem checksSelected_iff (hs : 0 < sigsize) (hlen : data.length = n * sigsize) :
    ChecksSelected data sigsize whichsig ↔
      0 ≤ whichsig ∨ n ≤ 1 ∨ ¬ WellFormedSig (sigBlock data sigsize 1) := by
  constructor
  · intro hcov
    by_contra hcon
    push Not at hcon
    obtain ⟨hw, hn, hwf⟩ := hcon
    exact not_checksSelected hs hlen (by omega) (by omega) hwf hcov
  · rintro (hw | hn | hwf)
    · exact checksSelected_of_single hs hlen (.inl hw)
    · exact checksSelected_of_single hs hlen (.inr hn)
    · by_cases hw : 0 ≤ whichsig
      · exact checksSelected_of_single hs hlen (.inl hw)
      · exact checksSelected_of_rejected hs hlen (by omega) hwf

end

/-- Two blocks: a signature, and a block of bytes that are not text. -/
def hiddenSig : Bytes := (65 :: List.replicate 511 0) ++ List.replicate 512 1

theorem hiddenSig_length : hiddenSig.length = 2 * 512 := by
  rw [hiddenSig, List.length_append, List.length_cons, List.length_replicate,
    List.length_replicate]

theorem checksSelected_last_hiddenSig : ChecksSelected hiddenSig 512 0 :=
  (checksSelected_iff (by decide) hiddenSig_length).mpr (.inl (by decide))

/-- The check for all blocks passes a file whose second block is not text. -/
theorem hiddenSig_not_checked : ¬ ChecksSelected hiddenSig 512 (-1) := by
  have hfirst : WellFormedSig (sigBlock hiddenSig 512 1) := by
    refine ⟨[65], 511, ?_, List.cons_ne_nil _ _, fun c hc => List.mem_singleton.mp hc ▸ rfl⟩
    rw [sigBlock, hiddenSig, Nat.sub_self, Nat.zero_mul, List.drop_zero]
    have hlen : (65 :: List.replicate 511 0 : Bytes).length = 512 :=
      List.length_cons.trans (congrArg (· + 1) List.length_replicate)
    exact List.take_left' hlen
  exact not_checksSelected (by decide) hiddenSig_length (by decide) (le_refl 2) hfirst

end Swbis.Taru
