import Swbis.Uxfio.Insert

/-!
# Setting the length of a memory file

`uxfio_ftruncate` makes a memory file longer by writing zeros at its end, and
shorter by writing zeros over what is cut off.  Both go through `uxfio_lseek` and
`uxfio_write`, so they move the position, and seek back to where it was.

Cutting off below the position keeps it, and leaves it behind the end of file.
Cutting off above it does not: the last seek then moves it up to the new end.  A
position behind the end of file is reached again only when the file has become
long enough.  From there on the seek reads, and a read at the end of file gives
nothing.

`TruncatesAt` is the condition under which content, end and position are what
they should be.
-/

namespace Swbis.Io

open CLib

namespace Uxfio

variable {u u' : Uxfio}

/-! ## The calls -/

/-- `zero_fill`. -/
def zeroFill : Nat → Uxfio → (rem : Int) → Outcome (Int × Uxfio)
  | 0, _, _ => .outOfFuel
  | fuel + 1, u, rem =>
      if 0 < rem then do
        let am := if rem > 512 then 512 else rem
        let (ret, u) ← u.write (List.replicate am.toNat 0)
        if ret < 0 then pure (-1, u) else zeroFill fuel u (rem - ret)
      else pure (0, u)

/-- `uxfio_internal_ftruncate`, for a file that is not a compound one. -/
def ftruncate (fuel : Nat) (u : Uxfio) (nbyte : Int) : Outcome (Int × Uxfio) := do
  let (pos, u) ← u.lseek fuel 0 .seekCur
  if pos < 0 then pure (-1, u)
  else if nbyte > u.endM then do
    let (atEnd, u) ← u.lseek fuel 0 .seekEnd
    if atEnd < 0 then pure (-1, u)
    else do
      let amount := nbyte - u.endM
      let (ret, u) ← zeroFill fuel u (toCInt amount)
      let (back, u) ← u.lseek fuel pos .seekSet
      if back < 0 then pure (-1, u) else pure (ret, u)
  else do
    let amount := u.endM - nbyte
    let (there, u) ← u.lseek fuel nbyte .seekSet
    if there < 0 then pure (-1, u)
    else do
      let (ret, u) ← zeroFill fuel u (toCInt amount)
      let (back, u) ← u.lseek fuel pos .seekSet
      if back < 0 then pure (-1, u)
      else do
        let (_, u) ← if nbyte > u.posM then u.lseek fuel nbyte .seekSet else pure (0, u)
        pure (ret, { u with endM := nbyte })

/-! ## Reading -/

/-- What a read that returns has done. -/
theorem read_cases {nbyte : Nat} {n : Int} {bytes : Bytes}
    (h : u.read nbyte = .returned (n, bytes, u')) :
    (u.posM < u.endM ∧ n = min (toCInt nbyte) u.right ∧ 0 ≤ n ∧ u' = u.move n) ∨
      (u.endM ≤ u.posM ∧ n = 0 ∧ u' = u) := by
  rw [read] at h
  split at h
  next hlt =>
    obtain ⟨bs, hload, hrest⟩ := Outcome.bind_eq_returned.mp h
    obtain ⟨⟨-, hn, -⟩, -⟩ := of_load_returned hload
    have hmin : (if toCInt nbyte ≥ u.right then u.right else toCInt nbyte) =
        min (toCInt nbyte) u.right := by
      split <;> omega
    rw [hmin] at hn hrest
    cases hrest
    exact .inl ⟨hlt, rfl, hn, rfl⟩
  next hge =>
    cases h
    exact .inr ⟨by omega, rfl, rfl⟩

/-- What a sequence of reads that ends has read is what it was asked for, and it
was there. -/
theorem of_readBytes_returned {fuel : Nat} {amount haveread n : Int} (hint : -2 ^ 31 ≤ amount)
    (h : readBytes fuel u amount haveread = .returned (n, u')) :
    n = haveread + amount ∧ u'.posM = u.posM + amount ∧ u'.endM = u.endM ∧
      0 ≤ amount ∧ (amount = 0 ∨ amount ≤ u.right) := by
  induction fuel generalizing u amount haveread with
  | zero => cases h
  | succ fuel ih =>
      rw [readBytes] at h
      split at h
      next hzero =>
        cases h
        exact ⟨by omega, by omega, rfl, by omega, .inl hzero⟩
      next hamount =>
        obtain ⟨⟨k, bytes, v⟩, hread, hrest⟩ := Outcome.bind_eq_returned.mp h
        simp only [Outcome.pure_eq] at hrest
        have hbite : toCInt (((if amount > 4096 then 4096 else amount) % 2 ^ 64).toNat : Nat) =
            if amount > 4096 then 4096 else amount :=
          toCInt_bite (by split <;> omega) (by split <;> omega)
        rcases read_cases hread with ⟨hlt, hk, hk0, hv⟩ | ⟨hge, hk, hv⟩
        · rw [hbite] at hk
          rw [if_neg (by omega)] at hrest
          obtain ⟨hn, hpos, hend, h0, hright⟩ := ih (by split at hk <;> omega) hrest
          rw [hv, move_posM] at hpos
          rw [hv, move_endM] at hend
          rw [hv, right, move_posM, move_endM] at hright
          rw [right] at hk ⊢
          refine ⟨by omega, by omega, hend, ?_, ?_⟩
          · split at hk <;> omega
          · omega
        · rw [hk, hv, if_neg (by omega), Int.sub_zero, Int.add_zero] at hrest
          exact ih hint hrest

/-- Behind the valid bytes no seek arrives, and none goes back. -/
theorem of_lseek_beyond {fuel : Nat} {t ret : Int} (hpos : u.posM < t) (hend : u.endM < t)
    (h : u.lseek fuel t .seekSet = .returned (ret, u')) :
    u.posM ≤ u'.posM ∧ u'.posM ≠ t ∧ u'.endM = u.endM := by
  rw [lseek, seekOffset, right, if_neg (by omega), if_neg (by omega), if_pos (by omega)] at h
  obtain ⟨⟨n, v⟩, hreads, hrest⟩ := Outcome.bind_eq_returned.mp h
  obtain ⟨hn, hposv, hendv, h0, hright⟩ := of_readBytes_returned
    (by rcases toCInt_cases (t - u.posM) with h' | h' <;> omega) hreads
  rw [right] at hright
  simp only [Outcome.pure_eq, Outcome.returned.injEq, Prod.mk.injEq] at hrest
  obtain ⟨-, hu'⟩ := hrest
  split at hu'
  next hne =>
    rw [← hu', move_posM, move_endM]
    rcases toCInt_cases (t - u.posM) with ⟨-, hint⟩ | ⟨-, hint⟩
    · exact ⟨by omega, by omega, hendv⟩
    · omega
  next heq =>
    rw [← hu']
    exact ⟨by omega, by omega, hendv⟩

/-! ## Writing zeros -/

/-- A write that overwrites and fits the buffer. -/
theorem write_over_fits (h : u.Formed) (hins : u.writeInsertM = false) (buf : Bytes)
    (hfits : toCInt buf.length ≤ u.lenM - u.posM) (hroom : u.posM + buf.length ≤ u.lenM) :
    ∃ u', u.write buf = .returned (buf.length, u') ∧ Wrote u buf u' ∧
      u'.endM = max u.endM (u.posM + buf.length) ∧ u'.lenM = u.lenM := by
  obtain ⟨p, hp⟩ := Int.eq_ofNat_of_zero_le h.pos_nonneg
  have hsize := h.size
  have hcap : ¬ toCInt buf.length > u.right + u.unused := by
    rw [right, unused]
    omega
  have hlen : (overwrite u.bufM p buf).length = u.bufM.length := by
    rw [length_overwrite (by omega)]
    omega
  have hwrite : u.write buf = .returned (buf.length,
      { u with
        posM := u.posM + buf.length
        endM := max u.endM (u.posM + buf.length)
        bytesreadM := u.bytesreadM + buf.length
        currentOffsetM := u.currentOffsetM + buf.length
        virtualOffsetM := u.virtualOffsetM + buf.length
        bufM := overwrite u.bufM p buf }) := by
    have hmax : (if (p : Int) + buf.length > u.endM then (p : Int) + buf.length else u.endM) =
        max u.endM (p + buf.length) := by
      split <;> omega
    simp only [write, if_neg hcap, hins, Bool.false_eq_true, if_false, hp,
      store_eq u.bufM p buf (by omega), Outcome.returned_bind, Outcome.pure_eq, hmax]
  refine ⟨_, hwrite, ?_, rfl, rfl⟩
  exact {
    pos := rfl
    bytes := by
      rw [hp, ← Nat.cast_add, Int.toNat_natCast, Int.toNat_natCast,
        take_overwrite_end _ _ _ (by omega)]
    insert := rfl
    size := by simp only [hlen]; exact hsize }

/-- What was written ends at the end of file. -/
theorem Wrote.formed {buf : Bytes} (hw : Wrote u buf u') (h : u.Formed)
    (hend : u'.endM = u.posM + buf.length) (hle : u'.endM ≤ u'.lenM) : u'.Formed := by
  have hpos := h.pos_nonneg
  have hwpos := hw.pos
  exact {
    pos_nonneg := by omega
    pos_le := by omega
    end_nonneg := by omega
    end_le := hle
    size := hw.size }

/-- At the end of file a write appends, in either mode. -/
theorem write_at_end (h : u.Formed) (heof : u.posM = u.endM) {buf : Bytes}
    (hn : buf.length < 2 ^ 31) :
    ∃ u', u.write buf = .returned (buf.length, u') ∧ Wrote u buf u' ∧ u'.Formed ∧
      u'.endM = u.posM + buf.length := by
  have hcap : u.right + u.unused = u.lenM - u.posM := by
    rw [right, unused]
    omega
  have hint := toCInt_of_lt hn
  by_cases hgrow : u.lenM < u.posM + buf.length
  · obtain ⟨u', hfix, hw, hend, hle⟩ := fixDynamicBuffer_wrote h buf hgrow
    refine ⟨u', ?_, hw, hw.formed h hend hle, hend⟩
    simp only [write, hcap, hint, if_pos (show (buf.length : Int) > u.lenM - u.posM by omega), hfix,
      Outcome.returned_bind, Outcome.pure_eq]
  · cases hins : u.writeInsertM with
    | false =>
        obtain ⟨u', hwrite, hw, hend, hlen⟩ :=
          write_over_fits h hins buf (by omega) (by omega)
        rw [max_eq_right (by omega)] at hend
        exact ⟨u', hwrite, hw, hw.formed h hend (by omega), hend⟩
    | true =>
        obtain ⟨u', hwrite, hw, hend, hlen, -⟩ :=
          write_insert_fits h hins buf (by omega) (by omega) (by omega)
        have hend' : u.insertedEnd buf.length = u.posM + buf.length := by
          rw [insertedEnd]
          split <;> split <;> omega
        rw [hend'] at hend
        exact ⟨u', hwrite, hw, hw.formed h hend (by omega), hend⟩

/-- Zeros have been written from the position on. -/
structure Zeroed (u : Uxfio) (r : Nat) (u' : Uxfio) : Prop where
  formed : u'.Formed
  pos : u'.posM = u.posM + r
  pos_le_end : u'.posM ≤ u'.endM
  before : u'.bufM.take u.posM.toNat = u.bufM.take u.posM.toNat
  insert : u'.writeInsertM = u.writeInsertM

/-- A write keeps what stands before the position. -/
theorem Wrote.before (h : u.Formed) {buf : Bytes} (hw : Wrote u buf u') :
    u'.bufM.take u.posM.toNat = u.bufM.take u.posM.toNat := by
  have hpos := h.pos_nonneg
  have hple := h.pos_le
  have hsize := h.size
  have hbytes := congrArg (List.take u.posM.toNat) hw.bytes
  have hlen : (u.bufM.take u.posM.toNat).length = u.posM.toNat := by
    rw [List.length_take]
    omega
  rw [List.take_take, Nat.min_eq_left (by omega)] at hbytes
  rw [hbytes, List.take_append_of_le_length (by omega), List.take_take, Nat.min_self]

/-- One write of zeros, and then the others. -/
theorem Zeroed.of_wrote (h : u.Formed) {v : Uxfio} {r am : Nat} (hle : am ≤ r)
    (hw : Wrote u (List.replicate am 0) v) (hz : Zeroed v (r - am) u') : Zeroed u r u' where
  formed := hz.formed
  pos := by
    have hpos := hw.pos
    have hpos' := hz.pos
    rw [List.length_replicate] at hpos
    omega
  pos_le_end := hz.pos_le_end
  before := by
    have hpos := hw.pos
    have hbefore := congrArg (List.take u.posM.toNat) hz.before
    rw [List.take_take, List.take_take, Nat.min_eq_left (by omega), hw.before h] at hbefore
    exact hbefore
  insert := hz.insert.trans hw.insert

/-- One round of `zero_fill`. -/
theorem zeroFill_succ (fuel : Nat) {r am : Nat} (hr : 0 < r) (ham : am = min r 512)
    (hwrite : u.write (List.replicate am 0) = .returned (am, u')) :
    zeroFill (fuel + 1) u r = zeroFill fuel u' (r - am : Nat) := by
  have hbite : (if (r : Int) > 512 then 512 else (r : Int)).toNat = am := by
    split <;> omega
  rw [zeroFill, if_pos (by omega)]
  simp only [hbite, hwrite, Outcome.returned_bind]
  rw [if_neg (by omega), Nat.cast_sub (by omega)]

/-- At the end of file the zeros are appended. -/
theorem zeroFill_at_end {fuel r : Nat} (h : u.Formed) (heof : u.posM = u.endM) (hfuel : r < fuel) :
    ∃ u', zeroFill fuel u r = .returned (0, u') ∧ Zeroed u r u' ∧ u'.endM = u.endM + r ∧
      u'.content = u.content ++ List.replicate r 0 := by
  induction fuel generalizing u r with
  | zero => omega
  | succ fuel ih =>
      rcases Nat.eq_zero_or_pos r with rfl | hr
      · refine ⟨u, by rw [zeroFill]; rfl, ⟨h, by omega, by omega, rfl, rfl⟩, by omega, by simp⟩
      · obtain ⟨am, ham⟩ : ∃ am, am = min r 512 := ⟨_, rfl⟩
        have hlen : (List.replicate am (0 : UInt8)).length = am := List.length_replicate
        obtain ⟨v, hwrite, hw, hv, hend⟩ := write_at_end h heof
          (show (List.replicate am (0 : UInt8)).length < 2 ^ 31 by omega)
        have hpos := hw.pos
        have hcontent := hw.content_eq hend (by omega)
        have hall : u.content.take u.posM.toNat = u.content := by
          have hlen' := h.length_content
          exact List.take_of_length_le (by omega)
        rw [hlen] at hwrite hend hpos
        obtain ⟨u', hfill, hz, hend', hcontent'⟩ :=
          ih hv (by omega) (show r - am < fuel by omega)
        refine ⟨u', ?_, hz.of_wrote h (by omega) hw, by omega, ?_⟩
        · rw [zeroFill_succ fuel hr ham hwrite, hfill]
        · rw [hcontent', hcontent, hall, List.append_assoc, List.replicate_append_replicate,
            Nat.add_sub_cancel' (by omega)]

/-- Within the file the zeros overwrite. -/
theorem zeroFill_over {fuel r : Nat} (h : u.Formed) (hins : u.writeInsertM = false)
    (hle : u.posM + r ≤ u.endM) (hfuel : r < fuel) :
    ∃ u', zeroFill fuel u r = .returned (0, u') ∧ Zeroed u r u' ∧ u'.endM = u.endM := by
  induction fuel generalizing u r with
  | zero => omega
  | succ fuel ih =>
      have hend := h.end_le
      rcases Nat.eq_zero_or_pos r with rfl | hr
      · exact ⟨u, by rw [zeroFill]; rfl, ⟨h, by omega, by omega, rfl, rfl⟩, rfl⟩
      · obtain ⟨am, ham⟩ : ∃ am, am = min r 512 := ⟨_, rfl⟩
        have hlen : (List.replicate am (0 : UInt8)).length = am := List.length_replicate
        have hint := toCInt_of_lt (show am < 2 ^ 31 by omega)
        obtain ⟨v, hwrite, hw, hendv, hlenv⟩ :=
          write_over_fits h hins (List.replicate am 0) (by rw [hlen]; omega) (by rw [hlen]; omega)
        have hpos := hw.pos
        rw [hlen] at hwrite hendv hpos
        have hv : v.Formed := {
          pos_nonneg := by have := h.pos_nonneg; omega
          pos_le := by omega
          end_nonneg := by have := h.end_nonneg; omega
          end_le := by omega
          size := hw.size }
        obtain ⟨u', hfill, hz, hend'⟩ :=
          ih hv (hw.insert.trans hins) (by omega) (show r - am < fuel by omega)
        refine ⟨u', ?_, hz.of_wrote h (by omega) hw, by omega⟩
        rw [zeroFill_succ fuel hr ham hwrite, hfill]

/-- The first write of zeros in insert mode moves what stands behind the
position, and ends the file there; the others append. -/
theorem zeroFill_insert {fuel r : Nat} (h : u.Formed) (hins : u.writeInsertM = true)
    (hle : u.posM + r ≤ u.endM) (hr : 0 < r) (hroom : u.endM + min r 512 ≤ u.lenM + 1)
    (hfuel : r < fuel) :
    ∃ u', zeroFill fuel u r = .returned (0, u') ∧ Zeroed u r u' ∧ u'.endM = u.posM + r := by
  obtain ⟨fuel, rfl⟩ : ∃ k, fuel = k + 1 := ⟨fuel - 1, by omega⟩
  obtain ⟨am, ham⟩ : ∃ am, am = min r 512 := ⟨_, rfl⟩
  have hend := h.end_le
  have hlen : (List.replicate am (0 : UInt8)).length = am := List.length_replicate
  have hint := toCInt_of_lt (show am < 2 ^ 31 by omega)
  obtain ⟨v, hwrite, hw, hendv, hlenv, -⟩ :=
    write_insert_fits h hins (List.replicate am 0) (by rw [hlen]; omega) (by omega)
      (by rw [hlen]; omega)
  have hend' : u.insertedEnd am = u.posM + am := by
    rw [insertedEnd, hint, right]
    split <;> split <;> omega
  rw [hlen] at hwrite hendv
  rw [hend'] at hendv
  have hv := hw.formed h (by rw [hlen]; exact hendv) (by omega)
  have hpos := hw.pos
  rw [hlen] at hpos
  obtain ⟨u', hfill, hz, hendu, -⟩ :=
    zeroFill_at_end hv (by omega) (show r - am < fuel by omega)
  refine ⟨u', ?_, hz.of_wrote h (by omega) hw, by omega⟩
  rw [zeroFill_succ fuel hr ham hwrite, hfill]

/-- The fuel decides only whether the zeros are written. -/
theorem zeroFill_unique {fuel fuel' : Nat} {rem : Int} {x y : Int × Uxfio}
    (hx : zeroFill fuel u rem = .returned x) (hy : zeroFill fuel' u rem = .returned y) : x = y := by
  induction fuel generalizing u rem fuel' with
  | zero => cases hx
  | succ fuel ih =>
      cases fuel' with
      | zero => cases hy
      | succ fuel' =>
          rw [zeroFill] at hx hy
          split at hx
          next hrem =>
            rw [if_pos hrem] at hy
            obtain ⟨⟨ret, v⟩, hwrite, hrest⟩ := Outcome.bind_eq_returned.mp hx
            obtain ⟨⟨ret', v'⟩, hwrite', hrest'⟩ := Outcome.bind_eq_returned.mp hy
            rw [hwrite] at hwrite'
            cases hwrite'
            simp only at hrest hrest'
            split at hrest
            next hneg =>
              rw [if_pos hneg] at hrest'
              cases hrest
              cases hrest'
              rfl
            next hneg =>
              rw [if_neg hneg] at hrest'
              exact ih hrest hrest'
          next hrem =>
            rw [if_neg hrem] at hy
            cases hx
            cases hy
            rfl

/-- A count below zero is one of none. -/
theorem zeroFill_toNat (fuel : Nat) (u : Uxfio) (rem : Int) :
    zeroFill fuel u rem.toNat = zeroFill fuel u rem := by
  rcases Int.le_total rem 0 with hneg | hpos
  · cases fuel with
    | zero => rfl
    | succ fuel => rw [zeroFill, zeroFill, if_neg (by omega), if_neg (by omega)]
  · rw [Int.toNat_of_nonneg hpos]

/-- In insert mode the first write of zeros needs room for what it moves. -/
def Shifts (u : Uxfio) (r : Nat) : Prop :=
  u.writeInsertM = true → 0 < r → u.endM + min r 512 ≤ u.lenM + 1

/-- The end of file after zeros have been written over the end of it. -/
def zeroedEnd (u : Uxfio) (r : Nat) : Int :=
  if u.writeInsertM = true ∧ 0 < r then u.posM + r else u.endM

/-- Zeros are written within the file. -/
theorem zeroFill_within {fuel r : Nat} (h : u.Formed) (hle : u.posM + r ≤ u.endM)
    (hshift : u.Shifts r) (hfuel : r < fuel) :
    ∃ u', zeroFill fuel u r = .returned (0, u') ∧ Zeroed u r u' ∧ u'.endM = u.zeroedEnd r := by
  cases hins : u.writeInsertM with
  | false =>
      obtain ⟨u', hfill, hz, hend⟩ := zeroFill_over h hins hle hfuel
      refine ⟨u', hfill, hz, ?_⟩
      rw [hend, zeroedEnd, hins, if_neg (by simp)]
  | true =>
      rcases Nat.eq_zero_or_pos r with rfl | hr
      · obtain ⟨fuel, rfl⟩ : ∃ k, fuel = k + 1 := ⟨fuel - 1, by omega⟩
        refine ⟨u, by rw [zeroFill]; rfl, ⟨h, by omega, by omega, rfl, rfl⟩, ?_⟩
        rw [zeroedEnd, if_neg (by simp)]
      · obtain ⟨u', hfill, hz, hend⟩ := zeroFill_insert h hins hle hr (hshift hins hr) hfuel
        refine ⟨u', hfill, hz, ?_⟩
        rw [hend, zeroedEnd, if_pos ⟨hins, hr⟩]

/-- Zeros that have been written within the file had room. -/
theorem shifts_of_zeroFill_returned {fuel r : Nat} {x : Int × Uxfio} (h : u.Formed)
    (hle : u.posM + r ≤ u.endM) (hfill : zeroFill fuel u r = .returned x) : u.Shifts r := by
  intro hins hr
  cases fuel with
  | zero => cases hfill
  | succ fuel =>
      have hend := h.end_le
      obtain ⟨am, ham⟩ : ∃ am, am = min r 512 := ⟨_, rfl⟩
      have hlen : (List.replicate am (0 : UInt8)).length = am := List.length_replicate
      have hint := toCInt_of_lt (show am < 2 ^ 31 by omega)
      have hbite : (if (r : Int) > 512 then 512 else (r : Int)).toNat = am := by
        split <;> omega
      rw [zeroFill, if_pos (by omega)] at hfill
      simp only [hbite] at hfill
      obtain ⟨⟨ret, v⟩, hwrite, -⟩ := Outcome.bind_eq_returned.mp hfill
      rcases write_insert_cases h hins hwrite with ⟨hgrow, -⟩ | ⟨-, hroom, -⟩
      · rw [hlen] at hgrow
        omega
      · rw [hlen] at hroom
        omega

/-! ## The length is set -/

/-- The content is cut off, or filled up with zeros; the end of file is where it
was asked for, and the position where it was. -/
def Truncates (u : Uxfio) (nbyte : Int) : Prop :=
  ∃ fuel u', u.ftruncate fuel nbyte = .returned (0, u') ∧
    u'.content = (u.content ++ List.replicate (nbyte - u.endM).toNat 0).take nbyte.toNat ∧
    u'.endM = nbyte ∧ u'.posM = u.posM

/-- To make the file longer the position must be within the new length, and the
difference must fit an `int`.  To make it shorter the position must be between
the new and the old end of file; in insert mode the zeros must have room, and
reach the position. -/
def TruncatesAt (u : Uxfio) (nbyte : Int) : Prop :=
  if u.endM < nbyte then u.posM ≤ nbyte ∧ nbyte - u.endM < 2 ^ 31
  else nbyte ≤ u.posM ∧
    u.posM ≤ (u.move (nbyte - u.posM)).zeroedEnd (toCInt (u.endM - nbyte)).toNat ∧
    u.Shifts (toCInt (u.endM - nbyte)).toNat

theorem ftruncate_of_lt (h : u.Formed) (fuel : Nat) {nbyte : Int} (hlt : u.endM < nbyte) :
    u.ftruncate fuel nbyte = (do
      let (ret, v) ← zeroFill fuel (u.move (u.endM - u.posM)) (toCInt (nbyte - u.endM)).toNat
      let (back, v) ← v.lseek fuel u.posM .seekSet
      if back < 0 then pure (-1, v) else pure (ret, v)) := by
  have hpos := h.pos_nonneg
  have hend := h.end_nonneg
  have hcur := lseek_eq_move (u := u) fuel (show u.seekOffset 0 .seekCur = 0 from rfl)
    (by omega) (by omega)
  have hseek := lseek_eq_move (u := u) fuel
    (show u.seekOffset 0 .seekEnd = u.endM - u.posM from Int.add_zero _) (by omega) (by omega)
  rw [Int.add_zero, move_zero] at hcur
  rw [ftruncate, hcur]
  simp only [Outcome.returned_bind, if_neg (show ¬ u.posM < 0 by omega), if_pos hlt, hseek,
    move_endM, zeroFill_toNat, if_neg (show ¬ u.posM + (u.endM - u.posM) < 0 by omega)]

theorem ftruncate_of_le (h : u.Formed) (fuel : Nat) {nbyte : Int} (h0 : 0 ≤ nbyte)
    (hle : nbyte ≤ u.endM) :
    u.ftruncate fuel nbyte = (do
      let (ret, v) ← zeroFill fuel (u.move (nbyte - u.posM)) (toCInt (u.endM - nbyte)).toNat
      let (back, v) ← v.lseek fuel u.posM .seekSet
      if back < 0 then pure (-1, v)
      else do
        let (_, v) ← if nbyte > v.posM then v.lseek fuel nbyte .seekSet else pure (0, v)
        pure (ret, { v with endM := nbyte })) := by
  have hpos := h.pos_nonneg
  have hcur := lseek_eq_move (u := u) fuel (show u.seekOffset 0 .seekCur = 0 from rfl)
    (by omega) (by omega)
  have hseek := lseek_eq_move (u := u) fuel
    (show u.seekOffset nbyte .seekSet = nbyte - u.posM from rfl) (by omega) (by omega)
  rw [Int.add_zero, move_zero] at hcur
  rw [ftruncate, hcur]
  simp only [Outcome.returned_bind, if_neg (show ¬ u.posM < 0 by omega),
    if_neg (show ¬ nbyte > u.endM by omega), hseek, zeroFill_toNat,
    if_neg (show ¬ u.posM + (nbyte - u.posM) < 0 by omega)]

/-- The seek back to the position that a call ends with. -/
theorem lseek_back (fuel : Nat) {pos : Int} (h0 : 0 ≤ pos) (hle : pos ≤ max u.posM u.endM) :
    u.lseek fuel pos .seekSet = .returned (pos, u.move (pos - u.posM)) := by
  have hseek := lseek_eq_move (u := u) fuel
    (show u.seekOffset pos .seekSet = pos - u.posM from rfl) (by omega) (by omega)
  rwa [show u.posM + (pos - u.posM) = pos by omega] at hseek

/-- A file becomes longer. -/
theorem truncates_of_lt (h : u.Formed) {nbyte : Int} (hlt : u.endM < nbyte)
    (hpos : u.posM ≤ nbyte) (hfits : nbyte - u.endM < 2 ^ 31) : u.Truncates nbyte := by
  have hpos0 := h.pos_nonneg
  have hend := h.end_le
  have hend0 := h.end_nonneg
  have hlen := h.length_content
  obtain ⟨r, hr⟩ := Int.eq_ofNat_of_zero_le (show 0 ≤ nbyte - u.endM by omega)
  have hint : (toCInt (nbyte - u.endM)).toNat = r := by
    rw [hr, toCInt_of_lt (by omega), Int.toNat_natCast]
  have hm : (u.move (u.endM - u.posM)).Formed := h.move (by omega) (by omega)
  obtain ⟨v, hfill, hz, hendv, hcontent⟩ := zeroFill_at_end hm
    (show u.posM + (u.endM - u.posM) = u.endM by omega) (Nat.lt_succ_self r)
  rw [move_endM] at hendv
  have hback := lseek_back (u := v) (r + 1) hpos0 (by omega)
  refine ⟨r + 1, v.move (u.posM - v.posM), ?_, ?_, by rw [move_endM]; omega,
    by rw [move_posM]; omega⟩
  · rw [ftruncate_of_lt h _ hlt, hint, hfill]
    simp only [Outcome.returned_bind, hback, if_neg (show ¬ u.posM < 0 by omega), Outcome.pure_eq]
  · have hwhole : (u.content ++ List.replicate r 0).length = nbyte.toNat := by
      rw [List.length_append, List.length_replicate]
      omega
    rw [hr, Int.toNat_natCast, ← hwhole, List.take_length]
    exact hcontent

/-- A file becomes shorter. -/
theorem truncates_of_le (h : u.Formed) {nbyte : Int} (h0 : 0 ≤ nbyte) (hle : nbyte ≤ u.endM)
    (hpos : nbyte ≤ u.posM)
    (hpos' : u.posM ≤ (u.move (nbyte - u.posM)).zeroedEnd (toCInt (u.endM - nbyte)).toNat)
    (hshift : u.Shifts (toCInt (u.endM - nbyte)).toNat) : u.Truncates nbyte := by
  obtain ⟨n, rfl⟩ := Int.eq_ofNat_of_zero_le h0
  obtain ⟨amount, hamount⟩ := Int.eq_ofNat_of_zero_le (show 0 ≤ u.endM - (n : Int) by omega)
  have hint := toCInt_le amount
  rw [← hamount] at hint
  generalize hr : (toCInt (u.endM - (n : Int))).toNat = r at hpos' hshift
  have hm : (u.move (n - u.posM)).Formed := h.move (by omega) (by have := h.end_le; omega)
  obtain ⟨v, hfill, hz, hendv⟩ := zeroFill_within hm
    (show u.posM + (n - u.posM) + r ≤ u.endM by omega) hshift (Nat.lt_succ_self r)
  have hback := lseek_back (u := v) (r + 1) (show 0 ≤ u.posM by omega) (by omega)
  have hbefore := hz.before
  rw [move_posM, move_bufM, show u.posM + (n - u.posM) = (n : Int) by omega,
    Int.toNat_natCast] at hbefore
  refine ⟨r + 1, { v.move (u.posM - v.posM) with endM := n }, ?_, ?_, rfl,
    show v.posM + (u.posM - v.posM) = u.posM by omega⟩
  · rw [ftruncate_of_le h _ h0 hle, hr, hfill]
    simp only [Outcome.returned_bind, hback, if_neg (show ¬ u.posM < 0 by omega), Outcome.pure_eq]
    rw [if_neg (by rw [move_posM]; omega)]
  · have hlen := h.length_content
    rw [show ((n : Int) - u.endM).toNat = 0 by omega, List.replicate_zero, List.append_nil,
      Int.toNat_natCast, content, content, Int.toNat_natCast, List.take_take,
      Nat.min_eq_left (by omega)]
    exact hbefore

/-- A file that has become longer. -/
theorem Truncates.of_lt (h : u.Formed) {nbyte : Int} (hlt : u.endM < nbyte)
    (ht : u.Truncates nbyte) : u.posM ≤ nbyte ∧ nbyte - u.endM < 2 ^ 31 := by
  obtain ⟨fuel, u', hcall, -, hend', hpos'⟩ := ht
  have hpos0 := h.pos_nonneg
  have hend := h.end_le
  have hend0 := h.end_nonneg
  obtain ⟨k, hk⟩ := Int.eq_ofNat_of_zero_le (show 0 ≤ nbyte - u.endM by omega)
  have hint := toCInt_lt k
  rw [ftruncate_of_lt h _ hlt, hk] at hcall
  generalize hr : (toCInt (k : Int)).toNat = r at hcall
  have hm : (u.move (u.endM - u.posM)).Formed := h.move (by omega) (by omega)
  obtain ⟨v, hfill, hz, hendv, -⟩ := zeroFill_at_end hm
    (show u.posM + (u.endM - u.posM) = u.endM by omega) (Nat.lt_succ_self r)
  have hposv := hz.pos
  rw [move_posM] at hposv
  rw [move_endM] at hendv
  obtain ⟨⟨ret, w⟩, hfill', hrest⟩ := Outcome.bind_eq_returned.mp hcall
  obtain ⟨⟨back, x⟩, hback, hlast⟩ := Outcome.bind_eq_returned.mp hrest
  cases zeroFill_unique hfill hfill'
  have hx : x = u' := by
    simp only [Outcome.pure_eq] at hlast
    split at hlast
    next => cases hlast
    next => cases hlast; rfl
  subst hx
  have hle : u.posM ≤ v.endM := by
    by_contra hbeyond
    obtain ⟨-, hne, -⟩ := of_lseek_beyond (by omega) (by omega) hback
    exact hne hpos'
  rw [lseek_back fuel hpos0 (by omega)] at hback
  cases hback
  rw [move_endM] at hend'
  exact ⟨by omega, by omega⟩

/-- A file that has become shorter. -/
theorem Truncates.of_le (h : u.Formed) {nbyte : Int} (h0 : 0 ≤ nbyte) (hle : nbyte ≤ u.endM)
    (ht : u.Truncates nbyte) :
    nbyte ≤ u.posM ∧
      u.posM ≤ (u.move (nbyte - u.posM)).zeroedEnd (toCInt (u.endM - nbyte)).toNat ∧
      u.Shifts (toCInt (u.endM - nbyte)).toNat := by
  obtain ⟨fuel, u', hcall, -, hend', hpos'⟩ := ht
  have hpos0 := h.pos_nonneg
  have hend := h.end_le
  obtain ⟨amount, hamount⟩ := Int.eq_ofNat_of_zero_le (show 0 ≤ u.endM - nbyte by omega)
  have hint := toCInt_le amount
  rw [ftruncate_of_le h _ h0 hle] at hcall
  rw [hamount] at hcall ⊢
  generalize hr : (toCInt (amount : Int)).toNat = r at hcall
  have hm : (u.move (nbyte - u.posM)).Formed := h.move (by omega) (by omega)
  have hwithin : u.posM + (nbyte - u.posM) + r ≤ u.endM := by omega
  obtain ⟨⟨ret, v⟩, hfill', hrest⟩ := Outcome.bind_eq_returned.mp hcall
  have hshift := shifts_of_zeroFill_returned hm hwithin hfill'
  obtain ⟨w, hfill, hz, hendv⟩ := zeroFill_within hm hwithin hshift (Nat.lt_succ_self r)
  cases zeroFill_unique hfill hfill'
  have hposv := hz.pos
  have hposle := hz.pos_le_end
  rw [move_posM] at hposv
  obtain ⟨⟨back, x⟩, hback, hlast⟩ := Outcome.bind_eq_returned.mp hrest
  simp only [Outcome.pure_eq] at hlast
  split at hlast
  next => cases hlast
  next =>
    by_cases hbeyond : v.endM < u.posM
    · obtain ⟨hge, hne, -⟩ := of_lseek_beyond (by omega) hbeyond hback
      rw [if_neg (by omega)] at hlast
      cases hlast
      exact absurd hpos' hne
    · rw [lseek_back fuel hpos0 (by omega)] at hback
      cases hback
      refine ⟨?_, by omega, hshift⟩
      by_contra hup
      rw [if_pos (by rw [move_posM]; omega),
        lseek_back fuel h0 (by rw [move_posM, move_endM]; omega)] at hlast
      cases hlast
      simp only [move_posM] at hpos'
      omega

/-- The length is set as it should be exactly when `TruncatesAt` says so. -/
theorem truncates_iff (h : u.Formed) {nbyte : Int} (h0 : 0 ≤ nbyte) :
    u.Truncates nbyte ↔ u.TruncatesAt nbyte := by
  rw [TruncatesAt]
  split
  next hlt =>
    constructor
    · exact Truncates.of_lt h hlt
    · rintro ⟨hpos, hfits⟩
      exact truncates_of_lt h hlt hpos hfits
  next hge =>
    constructor
    · exact Truncates.of_le h h0 (by omega)
    · rintro ⟨hpos, hpos', hshift⟩
      exact truncates_of_le h h0 (by omega) hpos hpos' hshift

end Uxfio

/-! ## A file cut off above the position -/

/-- A memory file that holds two bytes, with the position before them. -/
def rewound : Uxfio where
  posM := 0
  endM := 2
  lenM := uxfioLen
  bytesreadM := 2
  currentOffsetM := 0
  virtualOffsetM := 0
  bufM := 65 :: 66 :: List.replicate (uxfioLen - 1) 0
  writeInsertM := false

theorem rewound_formed : rewound.Formed where
  pos_nonneg := le_refl 0
  pos_le := Int.natCast_nonneg uxfioLen
  end_nonneg := by decide
  end_le := by decide
  size := by
    rw [rewound, List.length_cons, List.length_cons, List.length_replicate]
    rfl

theorem rewound_truncates : rewound.Truncates 3 :=
  (Uxfio.truncates_iff rewound_formed (by decide)).mpr (by
    rw [Uxfio.TruncatesAt, if_pos (by decide)]
    exact ⟨by decide, by decide⟩)

/-- The position moves up to the new end of file. -/
theorem rewound_moves :
    ¬ ∀ u : Uxfio, u.Formed → u.posM ≤ u.endM → ∀ nbyte : Int, 0 ≤ nbyte → u.Truncates nbyte := by
  intro hall
  have ht := hall rewound rewound_formed (by decide) 1 (by decide)
  have hpos := (ht.of_le rewound_formed (by decide) (by decide)).1
  revert hpos
  decide

end Swbis.Io
