import Mathlib.Data.List.Forall2
import Swbis.Taru.SigBlock

/-!
# What is written of the selected signature blocks

`write_selected_sig_i` finds its block by the offset, but the run of newlines
that it cuts it at by `strstr`.  That search starts at the block and ends at the
first NUL, and so it goes on into the next block where the block has none.

The NUL that cuts the string stays in the memory file.  When it comes to stand
on the first byte of the next block, that block is no longer what it was.
-/

namespace Swbis.Taru

open CLib

/-! ## What is to be written -/

/-- A byte of an empty line or of the padding. -/
def IsTrailing (b : UInt8) : Prop := b = 0x0a ∨ b = 0

instance (b : UInt8) : Decidable (IsTrailing b) := inferInstanceAs (Decidable (_ ∨ _))

/-- The write is block `k`, short of nothing but empty lines and padding at its
end. -/
def SigWrite.Trims (data : Bytes) (sigsize k : Nat) (w : SigWrite) : Prop :=
  ∃ rest, sigBlock data sigsize k = w.bytes ++ rest ∧ ∀ b ∈ rest, IsTrailing b

instance (nsig : Nat) (whichsig : Int) (k : Nat) : Decidable (Selected nsig whichsig k) :=
  inferInstanceAs (Decidable (_ ∧ _))

/-- The numbers of the selected blocks, in order. -/
def selectedBlocks (nsig : Nat) (whichsig : Int) : List Nat :=
  (List.range' 1 nsig).filter fun k => Selected nsig whichsig k

/-- One write for each selected block, and nothing else. -/
def WritesSelected (data : Bytes) (sigsize : Nat) (whichsig : Int) : Prop :=
  List.Forall₂ (SigWrite.Trims data sigsize) (selectedBlocks (data.length / sigsize) whichsig)
    (writeSelectedSig data sigsize whichsig)

/-- Where block `k` is cut, the cut lies in the block and leaves only empty
lines and padding. -/
def CutsTrailing (data : Bytes) (sigsize k : Nat) : Prop :=
  ∀ i, strstr (data.drop ((k - 1) * sigsize)) tenNewlines = some i →
    i + 4 ≤ sigsize ∧ ∀ b ∈ (sigBlock data sigsize k).drop (i + 4), IsTrailing b

/-- Block `k` is cut right at its end. -/
def CutsAtEnd (data : Bytes) (sigsize k : Nat) : Prop :=
  ∃ i, strstr (data.drop ((k - 1) * sigsize)) tenNewlines = some i ∧ i + 4 = sigsize

/-! ## The blocks in order -/

/-- The selected blocks are those from the first one to the last. -/
theorem selected_iff {n : Nat} {whichsig : Int} (hv : ValidSelector n whichsig) {k : Nat} :
    Selected n whichsig k ↔ (selectedSigs n whichsig).1 ≤ k ∧ k ≤ (selectedSigs n whichsig).2 := by
  obtain ⟨h1, hle⟩ := hv
  unfold Selected selectedSigs
  split
  next h0 => simp only; omega
  next h0 =>
    split
    next hpos => simp only; omega
    next hneg => simp only; omega

theorem selectedBlocks_eq {n : Nat} {whichsig : Int} (hv : ValidSelector n whichsig) :
    selectedBlocks n whichsig =
      List.range' (selectedSigs n whichsig).1
        ((selectedSigs n whichsig).2 + 1 - (selectedSigs n whichsig).1) := by
  obtain ⟨h1, hle, hn⟩ := selectedSigs_le hv
  have hsel := fun k => selected_iff hv (k := k)
  generalize (selectedSigs n whichsig).1 = first at h1 hle hsel
  generalize (selectedSigs n whichsig).2 = last at hle hn hsel
  have hsplit : List.range' 1 n =
      List.range' 1 (first - 1) ++ List.range' first (last + 1 - first) ++
        List.range' (last + 1) (n - last) := by
    have hfirst : List.range' first (last + 1 - first) =
        List.range' (1 + (first - 1)) (last + 1 - first) := by
      congr 1
      omega
    have hlast : List.range' (last + 1) (n - last) =
        List.range' (1 + (first - 1 + (last + 1 - first))) (n - last) := by
      congr 1
      omega
    rw [hfirst, List.range'_append_1, hlast, List.range'_append_1]
    congr 1
    omega
  have hbefore : (List.range' 1 (first - 1)).filter (fun k => Selected n whichsig k) = [] := by
    rw [List.filter_eq_nil_iff]
    intro k hk
    rw [List.mem_range'_1] at hk
    rw [decide_eq_true_eq, hsel]
    omega
  have hwithin : (List.range' first (last + 1 - first)).filter
      (fun k => Selected n whichsig k) = List.range' first (last + 1 - first) := by
    rw [List.filter_eq_self]
    intro k hk
    rw [List.mem_range'_1] at hk
    rw [decide_eq_true_eq, hsel]
    omega
  have hbehind : (List.range' (last + 1) (n - last)).filter
      (fun k => Selected n whichsig k) = [] := by
    rw [List.filter_eq_nil_iff]
    intro k hk
    rw [List.mem_range'_1] at hk
    rw [decide_eq_true_eq, hsel]
    omega
  rw [selectedBlocks, hsplit, List.filter_append, List.filter_append, hbefore, hwithin, hbehind,
    List.nil_append, List.append_nil]

/-! ## One block -/

/-- From block `k` on the memory file holds the data, and NULs behind it. -/
def Holds (mem data : Bytes) (sigsize k : Nat) : Prop :=
  ∃ j, mem.drop ((k - 1) * sigsize) = data.drop ((k - 1) * sigsize) ++ List.replicate j 0

section

variable {mem data : Bytes} {sigsize k : Nat}

theorem holds_self (data : Bytes) (sigsize k : Nat) : Holds data data sigsize k :=
  ⟨0, (List.append_nil _).symm⟩

/-- The file is long enough for block `k`. -/
def HasBlock (data : Bytes) (sigsize k : Nat) : Prop := 1 ≤ k ∧ k * sigsize ≤ data.length

theorem HasBlock.offset_add (h : HasBlock data sigsize k) :
    (k - 1) * sigsize + sigsize = k * sigsize := by
  obtain ⟨h1, -⟩ := h
  rw [← Nat.succ_mul]
  congr 1
  omega

theorem HasBlock.sigBlock_length (h : HasBlock data sigsize k) :
    (sigBlock data sigsize k).length = sigsize := by
  have hadd := h.offset_add
  have hle := h.2
  rw [sigBlock, List.length_take, List.length_drop]
  omega

/-- The memory file with its NUL appended. -/
theorem Holds.append_nul (h : Holds mem data sigsize k) (hb : HasBlock data sigsize k)
    (hs : 0 < sigsize) :
    ∃ j, (mem ++ [0]).drop ((k - 1) * sigsize) =
      data.drop ((k - 1) * sigsize) ++ List.replicate j 0 := by
  obtain ⟨j, hj⟩ := h
  have hadd := hb.offset_add
  have hle := hb.2
  have hlen := congrArg List.length hj
  rw [List.length_drop, List.length_append, List.length_drop] at hlen
  refine ⟨j + 1, ?_⟩
  rw [List.drop_append_of_le_length (by omega), hj, List.append_assoc, List.replicate_succ']

/-- What is seen of the file at the next block. -/
theorem drop_next (mem' : Bytes) (hb : HasBlock data sigsize k) :
    mem'.drop ((k + 1 - 1) * sigsize) = (mem'.drop ((k - 1) * sigsize)).drop sigsize := by
  rw [List.drop_drop, hb.offset_add, Nat.add_sub_cancel]

/-- The offset that is computed for block `k` is the one where it stands. -/
theorem Holds.offset (h : Holds mem data sigsize k) (hb : HasBlock data sigsize k)
    (hs : 0 < sigsize) :
    (sigProduct mem.length sigsize ((k : Int) - 1)).toNat = (k - 1) * sigsize := by
  obtain ⟨j, hj⟩ := h
  have hadd := hb.offset_add
  have hle := hb.2
  have hlen := congrArg List.length hj
  rw [List.length_drop, List.length_append, List.length_drop] at hlen
  rw [sigProduct_pred hb.1 (by omega), Int.toNat_natCast]

/-- The search at block `k` finds what it finds in the data. -/
theorem Holds.search (h : Holds mem data sigsize k) (hb : HasBlock data sigsize k)
    (hs : 0 < sigsize) :
    strstr ((mem ++ [0]).drop ((k - 1) * sigsize)) tenNewlines =
      strstr (data.drop ((k - 1) * sigsize)) tenNewlines := by
  obtain ⟨j, hj⟩ := h.append_nul hb hs
  rw [hj, strstr, strstr, CString.ofMem_append_nuls]

/-- Without a run of newlines the whole block is written. -/
theorem Holds.writes_whole (h : Holds mem data sigsize k) (hb : HasBlock data sigsize k)
    (hs : 0 < sigsize) (hstr : strstr (data.drop ((k - 1) * sigsize)) tenNewlines = none) :
    (writeSelectedSigI mem k sigsize).2.bytes = sigBlock data sigsize k ∧
      Holds (writeSelectedSigI mem k sigsize).1 data sigsize (k + 1) := by
  have hsearch := (h.search hb hs).trans hstr
  obtain ⟨j, hj⟩ := h.append_nul hb hs
  have hadd := hb.offset_add
  have hle := hb.2
  have hlong : sigsize ≤ (data.drop ((k - 1) * sigsize)).length := by
    rw [List.length_drop]
    omega
  simp only [writeSelectedSigI, h.offset hb hs, hsearch]
  constructor
  · rw [hj, List.take_append_of_le_length hlong, sigBlock]
  · refine ⟨j, ?_⟩
    rw [drop_next _ hb, drop_next _ hb, hj, List.drop_append_of_le_length hlong]

/-- Where a run of newlines is found, all ten of them stand in the data. -/
theorem found_lt {i : Nat} (hstr : strstr data tenNewlines = some i) :
    i + 10 ≤ (CString.ofMem data).strlen ∧ i + 10 ≤ data.length := by
  have hrun := findSub_add_length_le hstr (List.cons_ne_nil _ _)
  have hten : tenNewlines.length = 10 := List.length_replicate
  have hstrlen := CString.length_ofMem_le data
  rw [CString.strlen] at hstrlen ⊢
  omega

/-- With a run of newlines the string is cut behind the fourth, and the NUL that
cuts it stays in the file. -/
theorem Holds.writes_cut (h : Holds mem data sigsize k) (hb : HasBlock data sigsize k)
    (hs : 0 < sigsize) {i : Nat}
    (hstr : strstr (data.drop ((k - 1) * sigsize)) tenNewlines = some i) :
    (writeSelectedSigI mem k sigsize).2.bytes = (data.drop ((k - 1) * sigsize)).take (i + 4) ∧
      ∃ j, (writeSelectedSigI mem k sigsize).1.drop ((k - 1) * sigsize) =
        (data.drop ((k - 1) * sigsize)).set (i + 4) 0 ++ List.replicate j 0 := by
  have hsearch := (h.search hb hs).trans hstr
  obtain ⟨j, hj⟩ := h.append_nul hb hs
  obtain ⟨hin, hcut⟩ := found_lt hstr
  have hmem : ((mem ++ [0]).set ((k - 1) * sigsize + i + 4) 0).drop ((k - 1) * sigsize) =
      (data.drop ((k - 1) * sigsize)).set (i + 4) 0 ++ List.replicate j 0 := by
    rw [List.drop_set, if_neg (by omega), hj, List.set_append_left _ _ (by omega)]
    congr 2
    omega
  simp only [writeSelectedSigI, h.offset hb hs, hsearch]
  constructor
  · rw [hmem, CString.ofMem_append_nuls, CString.ofMem_set_nul (by omega) (by omega),
      CString.bytes_take_ofMem (by omega)]
  · exact ⟨j, hmem⟩

/-- A whole block is trimmed of nothing. -/
theorem trims_whole {w : SigWrite} (hw : w.bytes = sigBlock data sigsize k) :
    w.Trims data sigsize k :=
  ⟨[], by rw [hw, List.append_nil], fun _ hb => by cases hb⟩

/-- A write of the first bytes at a block is the block, trimmed, exactly when it
ends in the block and leaves nothing but empty lines and padding. -/
theorem trims_take_iff {w : SigWrite} {c : Nat} (hb : HasBlock data sigsize k)
    (hc : c ≤ (data.drop ((k - 1) * sigsize)).length)
    (hw : w.bytes = (data.drop ((k - 1) * sigsize)).take c) :
    w.Trims data sigsize k ↔
      c ≤ sigsize ∧ ∀ b ∈ (sigBlock data sigsize k).drop c, IsTrailing b := by
  have hlen : w.bytes.length = c := by
    rw [hw, List.length_take]
    omega
  constructor
  · rintro ⟨rest, hrest, htrail⟩
    have hsum := congrArg List.length hrest
    rw [hb.sigBlock_length, List.length_append, hlen] at hsum
    refine ⟨by omega, ?_⟩
    rw [hrest, ← hlen, List.drop_left]
    exact htrail
  · rintro ⟨hle, htrail⟩
    refine ⟨(sigBlock data sigsize k).drop c, ?_, htrail⟩
    have htake : (sigBlock data sigsize k).take c = w.bytes := by
      rw [sigBlock, List.take_take, Nat.min_eq_left hle, hw]
    rw [← htake, List.take_append_drop]

/-- A cut in front of the block's end leaves the next block as it was. -/
theorem Holds.next_of_cut {mem' : Bytes} (hb : HasBlock data sigsize k) {c j : Nat}
    (hc : c < sigsize)
    (hj : mem'.drop ((k - 1) * sigsize) =
      (data.drop ((k - 1) * sigsize)).set c 0 ++ List.replicate j 0) :
    Holds mem' data sigsize (k + 1) := by
  have hadd := hb.offset_add
  have hle := hb.2
  refine ⟨j, ?_⟩
  rw [drop_next _ hb, drop_next _ hb, hj, List.drop_append_of_le_length, List.drop_set, if_pos hc]
  rw [List.length_set, List.length_drop]
  omega

/-- The byte that is cut at is a newline. -/
theorem found_newline {i : Nat} (hstr : strstr data tenNewlines = some i) :
    data[i + 4]? = some 10 := by
  obtain ⟨mid, hmid⟩ := findSub_eq_some hstr
  obtain ⟨rest, hrest⟩ : (CString.ofMem data).bytes <+: data := List.takeWhile_prefix _
  have hin : i ≤ (CString.ofMem data).bytes.length := by
    have := (found_lt hstr).1
    rw [CString.strlen] at this
    omega
  have hdrop : data.drop i = tenNewlines ++ (mid ++ rest) := by
    rw [← List.append_assoc, hmid, ← List.drop_append_of_le_length hin, hrest]
  rw [← List.getElem?_drop, hdrop]
  rfl

/-- A cut right at the block's end puts the NUL on the next block, and that one
is then not written as it was. -/
theorem not_trims_next {mem' : Bytes} (hb : HasBlock data sigsize k) (hs : 0 < sigsize) {i j : Nat}
    (hstr : strstr (data.drop ((k - 1) * sigsize)) tenNewlines = some i)
    (hi : i + 4 = sigsize)
    (hj : mem'.drop ((k - 1) * sigsize) =
      (data.drop ((k - 1) * sigsize)).set (i + 4) 0 ++ List.replicate j 0) :
    ¬ (writeSelectedSigI mem' (k + 1) sigsize).2.Trims data sigsize (k + 1) := by
  obtain ⟨-, hlong⟩ := found_lt hstr
  -- the next block starts with a newline in the data and with a NUL in the file
  have hdata : (sigBlock data sigsize (k + 1))[0]? = some 10 := by
    have hnew := found_newline hstr
    rw [hi, List.getElem?_drop, hb.offset_add] at hnew
    rw [sigBlock, List.getElem?_take_of_lt hs, List.getElem?_drop]
    exact hnew
  have hlt : (k + 1 - 1) * sigsize < mem'.length := by
    have hlen := congrArg List.length hj
    rw [List.length_drop, List.length_append, List.length_set] at hlen
    have hadd := hb.offset_add
    rw [Nat.add_sub_cancel]
    omega
  have hnext : ∃ mid, (mem' ++ [0]).drop ((k + 1 - 1) * sigsize) = 0 :: mid := by
    have hset : ((data.drop ((k - 1) * sigsize)).set (i + 4) 0 ++ List.replicate j 0).drop sigsize =
        0 :: ((data.drop ((k - 1) * sigsize)).drop (sigsize + 1) ++ List.replicate j 0) := by
      rw [List.set_eq_take_append_cons_drop, if_pos (by omega), List.append_assoc, hi,
        List.drop_left' (List.length_take_of_le (by omega)), List.cons_append]
    have hdrop := drop_next mem' hb
    rw [hj, hset] at hdrop
    rw [List.drop_append_of_le_length (by omega), hdrop, List.cons_append]
    exact ⟨_, rfl⟩
  obtain ⟨mid, hmid⟩ := hnext
  have hoff : (sigProduct mem'.length sigsize (((k + 1 : Nat) : Int) - 1)).toNat =
      (k + 1 - 1) * sigsize := by
    rw [sigProduct_pred (Nat.le_add_left 1 k) hlt.le, Int.toNat_natCast]
  have hsearch : strstr ((mem' ++ [0]).drop ((k + 1 - 1) * sigsize)) tenNewlines = none := by
    rw [hmid]
    rfl
  rintro ⟨rest, hrest, -⟩
  simp only [writeSelectedSigI, hoff, hsearch] at hrest
  rw [hrest, hmid, ← Nat.succ_pred_eq_of_pos hs, List.take_succ_cons] at hdata
  exact absurd (Option.some.inj hdata) (by decide)

/-- Where nothing is found, nothing is cut. -/
theorem cutsTrailing_of_none (hstr : strstr (data.drop ((k - 1) * sigsize)) tenNewlines = none) :
    CutsTrailing data sigsize k ∧ ¬ CutsAtEnd data sigsize k := by
  constructor
  · intro i hi
    rw [hstr] at hi
    cases hi
  · rintro ⟨i, hi, -⟩
    rw [hstr] at hi
    cases hi

theorem cutsTrailing_of_some {i : Nat}
    (hstr : strstr (data.drop ((k - 1) * sigsize)) tenNewlines = some i) :
    (CutsTrailing data sigsize k ↔
      i + 4 ≤ sigsize ∧ ∀ b ∈ (sigBlock data sigsize k).drop (i + 4), IsTrailing b) ∧
    (CutsAtEnd data sigsize k ↔ i + 4 = sigsize) := by
  constructor
  · constructor
    · intro h
      exact h i hstr
    · intro h i' hi'
      rw [hstr] at hi'
      cases hi'
      exact h
  · constructor
    · rintro ⟨i', hi', hend⟩
      rw [hstr] at hi'
      cases hi'
      exact hend
    · intro hend
      exact ⟨i, hstr, hend⟩

end

/-! ## The selected blocks -/

/-- Block `m` is cut in its trailing lines, and not right at its end when
another block is written behind it. -/
def CutsWell (data : Bytes) (sigsize last m : Nat) : Prop :=
  CutsTrailing data sigsize m ∧ (m < last → ¬ CutsAtEnd data sigsize m)

theorem cutsWell_split {data : Bytes} {sigsize last k : Nat} (hle : k ≤ last) :
    (∀ m, k ≤ m → m ≤ last → CutsWell data sigsize last m) ↔
      CutsWell data sigsize last k ∧ ∀ m, k + 1 ≤ m → m ≤ last → CutsWell data sigsize last m := by
  constructor
  · intro hall
    exact ⟨hall k (le_refl _) hle, fun m hm => hall m (by omega)⟩
  · rintro ⟨hk, hrest⟩ m hm hml
    rcases Nat.eq_or_lt_of_le hm with rfl | hlt
    · exact hk
    · exact hrest m hlt hml

/-- Each block from `k` on is written, trimmed, exactly when each is cut well.
The first one that is not is written wrong, or makes the next one wrong. -/
theorem writeSigs_trims_iff {data : Bytes} {sigsize last : Nat} (hs : 0 < sigsize)
    (hlast : last * sigsize ≤ data.length) {mem : Bytes} {k : Nat} (h1 : 1 ≤ k)
    (h : Holds mem data sigsize k) :
    List.Forall₂ (SigWrite.Trims data sigsize) (List.range' k (last + 1 - k))
        (writeSigs mem sigsize k last) ↔
      ∀ m, k ≤ m → m ≤ last → CutsWell data sigsize last m := by
  induction hn : last + 1 - k generalizing mem k with
  | zero =>
      rw [writeSigs, if_neg (by omega), List.range'_zero]
      exact ⟨fun _ m hm hml => by omega, fun _ => .nil⟩
  | succ n ih =>
      have hb : HasBlock data sigsize k :=
        ⟨h1, (Nat.mul_le_mul_right _ (by omega)).trans hlast⟩
      rw [writeSigs, if_pos (by omega), if_neg (by omega), List.range'_succ, List.forall₂_cons,
        cutsWell_split (by omega)]
      cases hstr : strstr (data.drop ((k - 1) * sigsize)) tenNewlines with
      | none =>
          obtain ⟨hw, hnext⟩ := h.writes_whole hb hs hstr
          obtain ⟨htrail, hend⟩ := cutsTrailing_of_none hstr
          have hwell : CutsWell data sigsize last k := ⟨htrail, fun _ => hend⟩
          exact and_congr (iff_of_true (trims_whole hw) hwell) (ih (by omega) hnext (by omega))
      | some i =>
          obtain ⟨hw, j, hj⟩ := h.writes_cut hb hs hstr
          obtain ⟨-, hlong⟩ := found_lt hstr
          obtain ⟨htrail, hend⟩ := cutsTrailing_of_some hstr
          have htrims := (trims_take_iff hb (by omega) hw).trans htrail.symm
          by_cases hlt : i + 4 < sigsize
          · have hwell : CutsWell data sigsize last k ↔ CutsTrailing data sigsize k :=
              and_iff_left fun _ hat => absurd (hend.mp hat) (by omega)
            exact and_congr (htrims.trans hwell.symm)
              (ih (by omega) (Holds.next_of_cut hb hlt hj) (by omega))
          · by_cases hmore : k < last
            · -- the NUL comes to stand on a later block, and neither side holds
              constructor
              · rintro ⟨htr, hrest⟩
                have heq : i + 4 = sigsize := by
                  have := (htrail.mp (htrims.mp htr)).1
                  omega
                obtain ⟨n, rfl⟩ : ∃ n', n = n' + 1 := ⟨n - 1, by omega⟩
                rw [writeSigs, if_pos (by omega), if_neg (by omega), List.range'_succ,
                  List.forall₂_cons] at hrest
                exact absurd hrest.1 (not_trims_next hb hs hstr heq hj)
              · rintro ⟨⟨hct, hnot⟩, -⟩
                have heq : i + 4 = sigsize := by
                  have := (htrail.mp hct).1
                  omega
                exact absurd (hend.mpr heq) (hnot hmore)
            · obtain rfl : n = 0 := by omega
              have hwell : CutsWell data sigsize last k ↔ CutsTrailing data sigsize k :=
                and_iff_left fun hlt => absurd hlt hmore
              refine and_congr (htrims.trans hwell.symm) (iff_of_true ?_ ?_)
              · rw [writeSigs, if_neg (by omega), List.range'_zero]
                exact .nil
              · intro m hm hml
                omega

/-- The selected blocks are written, one by one, exactly when each of them is
cut well. -/
theorem writesSelected_iff_of_valid {data : Bytes} {sigsize n : Nat} {whichsig : Int}
    (hs : 0 < sigsize) (hlen : data.length = n * sigsize) (hv : ValidSelector n whichsig) :
    WritesSelected data sigsize whichsig ↔
      ∀ k, Selected n whichsig k →
        CutsTrailing data sigsize k ∧
          (Selected n whichsig (k + 1) → ¬ CutsAtEnd data sigsize k) := by
  obtain ⟨h1, hle, hn⟩ := selectedSigs_le hv
  have hdiv : data.length / sigsize = n := by rw [hlen, Nat.mul_div_cancel _ hs]
  have hlast : (selectedSigs n whichsig).2 * sigsize ≤ data.length := by
    rw [hlen]
    exact Nat.mul_le_mul_right _ hn
  rw [WritesSelected, hdiv, selectedBlocks_eq hv, writeSelectedSig]
  simp only [hdiv]
  rw [writeSigs_trims_iff hs hlast h1 (holds_self _ _ _)]
  simp only [selected_iff hv]
  constructor
  · rintro hall k ⟨hk, hkl⟩
    obtain ⟨htrail, hend⟩ := hall k hk hkl
    exact ⟨htrail, fun hsucc => hend (by omega)⟩
  · intro hall m hm hml
    obtain ⟨htrail, hend⟩ := hall m ⟨hm, hml⟩
    exact ⟨htrail, fun hlt => hend ⟨by omega, by omega⟩⟩

/-- A number that wraps to a block selects none, and that block is written. -/
theorem not_writesSelected_of_wraps {data : Bytes} {sigsize n : Nat} {whichsig : Int}
    (hs : 0 < sigsize) (hlen : data.length = n * sigsize)
    (hw : WrapsToBlock data sigsize n whichsig) : ¬ WritesSelected data sigsize whichsig := by
  obtain ⟨hlt, -⟩ := hw
  have hdiv : data.length / sigsize = n := by rw [hlen, Nat.mul_div_cancel _ hs]
  have hnone : selectedBlocks n whichsig = [] := by
    rw [selectedBlocks, List.filter_eq_nil_iff]
    intro k _
    rw [decide_eq_true_eq, Selected]
    omega
  rw [WritesSelected, hdiv, hnone, writeSelectedSig]
  simp only [hdiv, (selectedSigs_of_lt hlt).1]
  rw [writeSigs, if_pos (le_refl _), if_neg (by omega)]
  intro htrims
  cases htrims

/-- Of a file that passed the check, the selected blocks are written, trimmed of
nothing but what trails, exactly when the file has a block of that number and
each of them is cut well. -/
theorem writesSelected_iff {data : Bytes} {sigsize n : Nat} {whichsig : Int}
    (hs : 0 < sigsize) (hlen : data.length = n * sigsize)
    (hok : (doSigSafetyChecks data sigsize whichsig).result = .ok ()) :
    WritesSelected data sigsize whichsig ↔
      whichsig ≤ n ∧ ∀ k, Selected n whichsig k →
        CutsTrailing data sigsize k ∧
          (Selected n whichsig (k + 1) → ¬ CutsAtEnd data sigsize k) := by
  obtain ⟨-, hv | hw⟩ := validSelector_or_wraps hs hlen hok
  · rw [writesSelected_iff_of_valid hs hlen hv, and_iff_right hv.2]
  · refine iff_of_false (not_writesSelected_of_wraps hs hlen hw) fun h => ?_
    exact absurd h.1 (Int.not_le.mpr hw.1)

/-- A block of one line, padded, and a block whose line is followed by empty
lines to its end. -/
def trimmedSig : Bytes := ([65, 10] ++ List.replicate 510 0) ++ (66 :: List.replicate 511 10)

theorem trimmedSig_length : trimmedSig.length = 2 * 512 := by
  simp only [trimmedSig, List.length_append, List.length_cons, List.length_replicate,
    List.length_nil]

theorem trimmedSig_first : sigBlock trimmedSig 512 1 = [65, 10] ++ List.replicate 510 0 :=
  List.take_left' (by rw [List.length_append, List.length_replicate]; rfl)

theorem trimmedSig_checked : (doSigSafetyChecks trimmedSig 512 (-1)).result = .ok () := by
  have hwf : WellFormedSig (sigBlock trimmedSig 512 1) := by
    refine ⟨[65, 10], 510, trimmedSig_first, List.cons_ne_nil _ _, ?_⟩
    exact List.forall_mem_cons.mpr ⟨rfl, List.forall_mem_singleton.mpr rfl⟩
  exact (doSigSafetyChecks_ok_iff (by decide) trimmedSig_length ⟨by decide, by decide⟩).mpr hwf

theorem trimmedSig_found : strstr (trimmedSig.drop ((2 - 1) * 512)) tenNewlines = some 1 := by
  decide +kernel

/-- Both blocks are written, the second one without its empty lines. -/
theorem trimmedSig_written : WritesSelected trimmedSig 512 (-1) := by
  refine (writesSelected_iff (by decide) trimmedSig_length trimmedSig_checked).mpr
    ⟨by decide, fun k hk => ?_⟩
  obtain ⟨h1, hle, -⟩ := hk
  rcases (show k = 1 ∨ k = 2 by omega) with rfl | rfl
  · have hnone : strstr (trimmedSig.drop ((1 - 1) * 512)) tenNewlines = none := rfl
    obtain ⟨htrail, hend⟩ := cutsTrailing_of_none hnone
    exact ⟨htrail, fun _ => hend⟩
  · obtain ⟨htrail, hend⟩ := cutsTrailing_of_some trimmedSig_found
    have hlines : ∀ b ∈ (sigBlock trimmedSig 512 2).drop (1 + 4), IsTrailing b := by decide +kernel
    exact ⟨htrail.mpr ⟨by decide, hlines⟩, fun _ h => absurd (hend.mp h) (by decide)⟩

/-- A block that fills its room, and one that ends in a run of newlines. -/
def unpaddedSig : Bytes :=
  List.replicate 512 65 ++ 66 :: (List.replicate 10 10 ++ List.replicate 501 0)

theorem unpaddedSig_length : unpaddedSig.length = 2 * 512 := by
  rw [unpaddedSig, List.length_append, List.length_cons, List.length_append,
    List.length_replicate, List.length_replicate, List.length_replicate]

theorem unpaddedSig_found : strstr unpaddedSig tenNewlines = some 513 := by
  have hno : (66 : UInt8) ∉ tenNewlines := by decide
  have hline : ¬ tenNewlines <:+: List.replicate 512 65 := by
    intro hin
    have hmem : (10 : UInt8) ∈ List.replicate 512 65 := hin.subset List.mem_cons_self
    exact absurd (List.eq_of_mem_replicate hmem) (by decide)
  have hchars : ∀ b ∈ List.replicate 512 65 ++ 66 :: tenNewlines, ((b : UInt8) != 0) = true := by
    intro b hb
    rcases List.mem_append.mp hb with hb | hb
    · rw [List.eq_of_mem_replicate hb]
      rfl
    · rcases List.mem_cons.mp hb with rfl | hb
      · rfl
      · rw [List.eq_of_mem_replicate hb]
        rfl
  have hbytes : (CString.ofMem unpaddedSig).bytes = List.replicate 512 65 ++ 66 :: tenNewlines := by
    rw [unpaddedSig, ← List.cons_append, ← List.append_assoc, CString.ofMem_append_nuls]
    exact List.takeWhile_eq_self_iff.mpr hchars
  rw [strstr, hbytes, findSub_append_sep hno hline, findSub_eq_zero.mpr (List.prefix_refl _),
    List.length_replicate]
  rfl

/-- The first block passes the check, and the second one is written with it. -/
theorem unpaddedSig_runs_on :
    (doSigSafetyChecks unpaddedSig 512 1).result = .ok () ∧
      ¬ WritesSelected unpaddedSig 512 1 := by
  have hv : ValidSelector 2 1 := ⟨by decide, by decide⟩
  constructor
  · refine (doSigSafetyChecks_ok_iff (by decide) unpaddedSig_length hv).mpr ?_
    refine ⟨List.replicate 512 65, 0, ?_, List.cons_ne_nil _ _, ?_⟩
    · rw [List.replicate_zero, List.append_nil]
      exact List.take_left' List.length_replicate
    · intro c hc
      rw [List.eq_of_mem_replicate hc]
      rfl
  · rw [writesSelected_iff_of_valid (by decide) unpaddedSig_length hv]
    intro hall
    have hfound : strstr (unpaddedSig.drop ((1 - 1) * 512)) tenNewlines = some 513 :=
      unpaddedSig_found
    obtain ⟨htrail, -⟩ := hall 1 (by decide)
    exact absurd (htrail 513 hfound).1 (by decide)

end Swbis.Taru
