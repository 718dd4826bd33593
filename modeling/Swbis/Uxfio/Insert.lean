import Swbis.Uxfio.DynamicMem

/-!
# Writes that insert

`UXFIO_F_WRITE_INSERT` asks that a write keeps the bytes behind the position.
A write that fits the buffer moves them up, and then cuts the end of file down to
the end of what was written.  A write that does not fit copies over them.  Either
way they are lost, so an insert is one only where there is nothing to keep, or
nothing to write.
-/

namespace Swbis.Io

open CLib

/-- The content of the file is the valid part of the buffer. -/
theorem Represents.content_eq {u : Uxfio} {f : PosixFile} (h : Represents u f) :
    u.content = f.content := by
  rw [Uxfio.content, h.eof, Int.toNat_natCast, h.content]

namespace Uxfio

variable {u u' : Uxfio}

/-! ## What one write does -/

/-- The end of file after an inserting write that fits the buffer. -/
def insertedEnd (u : Uxfio) (n : Int) : Int :=
  let moved := if u.posM + toCInt n + u.right > u.endM then u.posM + n else u.endM
  if u.posM + n > moved then u.posM + n else moved

/-- An inserting write that fits the buffer moves the bytes behind the position,
and returns only where they fit as well. -/
theorem write_insert_fits (h : u.Formed) (hins : u.writeInsertM = true) (buf : Bytes)
    (hfits : toCInt buf.length ≤ u.lenM - u.posM) (hright : u.posM ≤ u.endM)
    (hroom : u.endM + buf.length ≤ u.lenM + 1) :
    ∃ u', u.write buf = .returned (buf.length, u') ∧
      Wrote u buf u' ∧ u'.endM = u.insertedEnd buf.length ∧ u'.lenM = u.lenM ∧
      (u'.bufM.drop (u.posM + buf.length).toNat).take u.right.toNat =
        (u.bufM.drop u.posM.toNat).take u.right.toNat := by
  obtain ⟨p, hp⟩ := Int.eq_ofNat_of_zero_le h.pos_nonneg
  obtain ⟨r, hr⟩ := Int.eq_ofNat_of_zero_le (show 0 ≤ u.right by rw [right]; omega)
  have hsize := h.size
  have hend : u.endM = p + r := by rw [← hp, ← hr, right]; omega
  have hload := load_eq u.bufM p r (by omega)
  generalize hmoved : (u.bufM.drop p).take r = moved at hload
  have hmovedlen : moved.length = r := by
    rw [← hmoved, List.length_take, List.length_drop]
    omega
  have hlen₁ : (overwrite u.bufM (p + buf.length) moved).length = u.bufM.length := by
    rw [length_overwrite (by omega)]
    omega
  have hlen₂ : (overwrite (overwrite u.bufM (p + buf.length) moved) p buf).length =
      u.bufM.length := by
    rw [length_overwrite (by omega)]
    omega
  have hcap : ¬ toCInt buf.length > (r : Int) + u.unused := by
    rw [unused]
    omega
  have hwrite : u.write buf = .returned (buf.length,
      { u with
        posM := u.posM + buf.length
        endM := u.insertedEnd buf.length
        bytesreadM := u.bytesreadM + buf.length
        currentOffsetM := u.currentOffsetM + buf.length
        virtualOffsetM := u.virtualOffsetM + buf.length
        bufM := overwrite (overwrite u.bufM (p + buf.length) moved) p buf }) := by
    simp only [write, hins, if_true, hp, hr, hload, ← Nat.cast_add,
      store_eq u.bufM (p + buf.length) moved (by omega), Outcome.returned_bind, Outcome.pure_eq,
      store_eq (overwrite u.bufM (p + buf.length) moved) p buf (by omega), insertedEnd]
    rw [if_neg hcap]
  refine ⟨_, hwrite, ?_, rfl, rfl, ?_⟩
  · exact {
      pos := rfl
      bytes := by
        rw [hp, ← Nat.cast_add, Int.toNat_natCast, Int.toNat_natCast,
          take_overwrite_end _ _ _ (by omega), take_overwrite_of_le (by omega) (by omega)]
      insert := rfl
      size := by simp only [hlen₂]; exact hsize }
  · rw [hp, hr, ← Nat.cast_add, Int.toNat_natCast, Int.toNat_natCast, Int.toNat_natCast,
      drop_overwrite_end _ _ _ (by omega), hmoved, ← hmovedlen,
      take_drop_overwrite _ _ _ (by omega)]

/-- An inserting write that returns did not fit the buffer, or the position was
within the file and the moved bytes fitted as well. -/
theorem write_insert_cases (h : u.Formed) (hins : u.writeInsertM = true) {buf : Bytes} {k : Int}
    (hwrite : u.write buf = .returned (k, u')) :
    (toCInt buf.length > u.lenM - u.posM ∧ Wrote u buf u' ∧ u'.endM = u.posM + buf.length) ∨
      (u.posM ≤ u.endM ∧ u.endM + buf.length ≤ u.lenM + 1 ∧
        u'.endM = u.insertedEnd buf.length) := by
  have hsize := h.size
  have hsum : u.right + u.unused = u.lenM - u.posM := by
    rw [right, unused]
    omega
  by_cases hcap : toCInt buf.length > u.lenM - u.posM
  · have hmod := toCInt_le buf.length
    obtain ⟨v, hfix, hw, hend, -⟩ := fixDynamicBuffer_wrote h buf (by omega)
    simp only [write, hsum, if_pos hcap, hfix, Outcome.returned_bind, Outcome.pure_eq] at hwrite
    cases hwrite
    exact .inl ⟨hcap, hw, hend⟩
  · have hmoves : u.posM ≤ u.endM ∧ u.endM + buf.length ≤ u.lenM + 1 := by
      simp only [write, hins, if_true, hsum, hcap, if_false] at hwrite
      obtain ⟨moved, hload, hmove⟩ := Outcome.bind_eq_returned.mp hwrite
      obtain ⟨stored, hstore, -⟩ := Outcome.bind_eq_returned.mp hmove
      obtain ⟨hin, hlen⟩ := of_load_returned hload
      have hout := of_store_returned hstore
      rw [right] at hin hlen
      omega
    obtain ⟨v, hwrite', -, hend, -⟩ := write_insert_fits h hins buf (by omega) hmoves.1 hmoves.2
    rw [hwrite'] at hwrite
    cases hwrite
    exact .inr ⟨hmoves.1, hmoves.2, hend⟩

/-! ## Inserting writes -/

/-- The write gives the bytes before the position, what was written, and the
bytes that were behind the position; the position is behind what was written. -/
def Inserts (u : Uxfio) (buf : Bytes) : Prop :=
  ∃ u', u.write buf = .returned (buf.length, u') ∧
    u'.content = u.content.take u.posM.toNat ++ buf ++ u.content.drop u.posM.toNat ∧
    u'.posM = u.posM + buf.length

/-- The write makes the buffer grow, or fits it. -/
def Fits (u : Uxfio) (buf : Bytes) : Prop :=
  u.lenM - u.posM < toCInt buf.length ∨ u.posM + buf.length ≤ u.lenM + 1

instance (u : Uxfio) (buf : Bytes) : Decidable (u.Fits buf) := inferInstanceAs (Decidable (_ ∨ _))

/-- After a write that ends the file behind what it wrote, the content is what
stood before the position and what was written. -/
theorem Wrote.content_eq {buf : Bytes} (hw : Wrote u buf u') (hend : u'.endM = u.posM + buf.length)
    (hle : u.posM ≤ u.endM) : u'.content = u.content.take u.posM.toNat ++ buf := by
  rw [content, hend, hw.bytes, content, List.take_take, Nat.min_eq_left (by omega)]

/-- At the end of file a write that fits inserts. -/
theorem inserts_of_atEnd (h : u.Formed) (hins : u.writeInsertM = true) {buf : Bytes}
    (heof : u.posM = u.endM) (hfits : u.Fits buf) : u.Inserts buf := by
  have hdrop : u.content.drop u.posM.toNat = [] := by
    have hlen := h.length_content
    rw [List.drop_eq_nil_iff]
    omega
  have hcap : u.right + u.unused = u.lenM - u.posM := by
    rw [right, unused]
    omega
  rw [Inserts, hdrop, List.append_nil]
  by_cases hgrow : toCInt buf.length > u.lenM - u.posM
  · have hmod := toCInt_le buf.length
    obtain ⟨u', hfix, hw, hend, -⟩ := fixDynamicBuffer_wrote h buf (by omega)
    refine ⟨u', ?_, hw.content_eq hend (le_of_eq heof), hw.pos⟩
    simp only [write, hcap, if_pos hgrow, hfix, Outcome.returned_bind, Outcome.pure_eq]
  · obtain ⟨u', hwrite, hw, hend, -⟩ := write_insert_fits h hins buf (by omega)
      (le_of_eq heof) (by rcases hfits with hgrow' | hfits <;> omega)
    have hend' : u.insertedEnd buf.length = u.posM + buf.length := by
      rw [insertedEnd]
      split <;> split <;> omega
    exact ⟨u', hwrite, hw.content_eq (hend.trans hend') (le_of_eq heof), hw.pos⟩

/-- Within the file a write of nothing inserts nothing. -/
theorem inserts_nil (h : u.Formed) (hins : u.writeInsertM = true) (hle : u.posM ≤ u.endM) :
    u.Inserts [] := by
  have hpos := h.pos_nonneg
  have hend := h.end_le
  have hple := h.pos_le
  have hzero : toCInt (([] : Bytes).length : Nat) = 0 := toCInt_of_lt (by simp)
  obtain ⟨u', hwrite, hw, hend', -, hmoved⟩ := write_insert_fits h hins [] (by omega) hle
    (by rw [List.length_nil]; omega)
  have hend'' : u'.endM = u.endM := by
    rw [hend', insertedEnd, hzero, List.length_nil, Nat.cast_zero, right]
    split <;> split <;> omega
  have hbytes := hw.bytes
  rw [List.length_nil, Nat.cast_zero, Int.add_zero] at hbytes hmoved
  have hsplit : u.endM.toNat = u.posM.toNat + u.right.toNat := by
    rw [right]
    omega
  have hcontent : u'.content = u.content := by
    rw [content, hend'', content, hsplit, List.take_add, List.take_add, hbytes, hmoved,
      List.append_nil]
  refine ⟨u', hwrite, ?_, hw.pos⟩
  rw [List.append_nil, List.take_append_drop, hcontent]

/-- What was written ends the content of a file that ends behind it. -/
theorem Wrote.length_content {buf : Bytes} (hw : Wrote u buf u') (h : u.Formed)
    (hend : u'.endM = u.posM + buf.length) : (u'.content.length : Int) = u.posM + buf.length := by
  have hpos := h.pos_nonneg
  have hple := h.pos_le
  have hsize := h.size
  rw [content, hend, hw.bytes, List.length_append, List.length_take]
  omega

theorem insertedEnd_le (u : Uxfio) (n : Int) : u.insertedEnd n ≤ max u.endM (u.posM + n) := by
  rw [insertedEnd]
  split <;> split <;> omega

/-- Where the write inserts, the content has grown by what was written. -/
theorem length_inserted (u : Uxfio) (buf : Bytes) (p : Nat) :
    (u.content.take p ++ buf ++ u.content.drop p).length = u.content.length + buf.length := by
  rw [List.length_append, List.length_append, List.length_take, List.length_drop]
  omega

/-- A write that inserts has nothing to write, or nothing to keep. -/
theorem Inserts.cases (h : u.Formed) (hins : u.writeInsertM = true) {buf : Bytes}
    (hi : u.Inserts buf) :
    (u.posM ≤ u.endM ∧ buf = []) ∨ (u.posM = u.endM ∧ u.Fits buf) := by
  have heof := h.length_content
  obtain ⟨u', hwrite, hcontent, -⟩ := hi
  have hlen := length_inserted u buf u.posM.toNat
  rw [← hcontent] at hlen
  rcases write_insert_cases h hins hwrite with ⟨hgrow, hw, hend⟩ | ⟨hle, hroom, hend⟩
  · have hlen' := hw.length_content h hend
    exact .inr ⟨by omega, .inl (by omega)⟩
  · have hmax := u.insertedEnd_le buf.length
    have htake : u'.content.length ≤ u'.endM.toNat := List.length_take_le _ _
    rcases List.eq_nil_or_concat buf with hnil | ⟨_, _, hconcat⟩
    · exact .inl ⟨hle, hnil⟩
    · have hposlen : 0 < buf.length := by simp [hconcat]
      exact .inr ⟨by omega, .inr (by omega)⟩

/-- An inserting write is an insertion exactly when it writes nothing and the
position is within the file, or when it writes at the end of file and makes the
buffer grow or fits it. -/
theorem inserts_iff (h : u.Formed) (hins : u.writeInsertM = true) (buf : Bytes) :
    u.Inserts buf ↔ (u.posM ≤ u.endM ∧ buf = []) ∨ (u.posM = u.endM ∧ u.Fits buf) := by
  constructor
  · exact Inserts.cases h hins
  · rintro (⟨hle, rfl⟩ | ⟨hpos, hfits⟩)
    · exact inserts_nil h hins hle
    · exact inserts_of_atEnd h hins hpos hfits

end Uxfio

/-- A memory file that holds one byte, with the position before it, in insert
mode. -/
def insertFile : Uxfio where
  posM := 0
  endM := 1
  lenM := uxfioLen
  bytesreadM := 1
  currentOffsetM := 0
  virtualOffsetM := 0
  bufM := 66 :: List.replicate uxfioLen 0
  writeInsertM := true

theorem insertFile_formed : insertFile.Formed where
  pos_nonneg := le_refl 0
  pos_le := Int.natCast_nonneg uxfioLen
  end_nonneg := Int.one_nonneg
  end_le := by decide
  size := by rw [insertFile, List.length_cons, List.length_replicate, Nat.cast_add, Nat.cast_one]

/-- The file with the position at its end. -/
def appendFile : Uxfio := { insertFile with posM := 1, currentOffsetM := 1, virtualOffsetM := 1 }

theorem appendFile_formed : appendFile.Formed :=
  { insertFile_formed with
    pos_nonneg := Int.one_nonneg
    pos_le := by decide }

/-- Two bytes are written at the end. -/
theorem appendFile_inserts : appendFile.Inserts [65, 67] :=
  (Uxfio.inserts_iff appendFile_formed rfl [65, 67]).mpr (.inr ⟨rfl, .inr (by decide)⟩)

/-- A byte written before the one of the file takes its place. -/
theorem insertFile_loses :
    ¬ ∀ u : Uxfio, u.Formed → u.writeInsertM = true → u.posM ≤ u.endM → ∀ buf : Bytes,
      u.Inserts buf := by
  intro hall
  have hi := hall insertFile insertFile_formed rfl Int.one_nonneg [65]
  rcases hi.cases insertFile_formed rfl with ⟨-, hnil⟩ | ⟨hpos, -⟩
  · cases hnil
  · cases hpos

end Swbis.Io
