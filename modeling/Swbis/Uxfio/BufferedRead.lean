import Swbis.Uxfio.Buffered

/-!
# One read of a buffered descriptor

`Bite` lists what a read of a positive count can do.  It fails because the
underlying descriptor does; it stays within the buffered data, or goes beyond it;
or it gives its bytes but loses the buffer file, which happens when `fix_buffer`
finds the file too long and keeps the position.
-/

namespace Swbis.Io

open CLib

namespace BufferedUxfio

variable {u u' : BufferedUxfio}

/-! ## What a bite can do -/

/-- The buffer is out of use, and nothing is left in it. -/
structure Off (u : BufferedUxfio) : Prop where
  active : u.bufferActiveM = false
  right : u.right ≤ 0

/-- The buffer file no longer stands at the position, or is about to leave it. -/
structure Stale (u : BufferedUxfio) : Prop where
  active : u.bufferActiveM = true
  type : u.buffertypeM = .file
  right : 0 < u.right
  lost : u.lenM < u.posM ∨ u.buffdM.content.length ≤ u.buffdM.pos

/-- What a bite gets from behind the buffered data. -/
def crossing (u : BufferedUxfio) (b : Nat) : Int :=
  if u.right < b then u.given (b - max u.right 0).toNat else 0

/-- A bite that ends within the buffered data. -/
structure Inside (u : BufferedUxfio) (b : Nat) (u' : BufferedUxfio) : Prop where
  sound : Sound u'
  alike : Alike u u'
  pos : u'.posM = u.posM + b
  eof : u'.endM = u.endM
  len : u'.lenM = u.lenM
  room : u.buffertypeM = .file → u.posM ≤ u.lenM

/-- A bite that goes beyond the buffered data. -/
structure Beyond (u : BufferedUxfio) (b : Nat) (u' : BufferedUxfio) : Prop where
  ready : Sound u' ∨ Off u'
  right : u'.right ≤ 0
  fd : u'.uxfdM = (u.afterVirRead (b - max u.right 0).toNat).uxfdM
  room : u.buffertypeM = .file → 0 < u.right → u.posM + u.crossing b ≤ u.lenM
  auto : u.right ≤ 0 → u.autoDisableM = true → u'.bufferActiveM = false
  keeps : 0 < u.right ∨ u.autoDisableM = false →
    u'.autoDisableM = u.autoDisableM ∧ u'.bufferActiveM = u.bufferActiveM
  live : u.uxfdM = none → u.bufferActiveM = true

/-- What one bite does: the count, and the descriptor after it. -/
inductive Bite (u : BufferedUxfio) (b : Nat) : Int → BufferedUxfio → Prop where
  | failed {n : Int} {u' : BufferedUxfio} : n < 0 → u.FailsAfter 0 → Bite u b n u'
  | stale {n : Int} {u' : BufferedUxfio} : 0 < n → n ≤ b → u.buffertypeM = .file → 0 < u.right →
      u.lenM < u.posM + u.crossing b → Stale u' → Bite u b n u'
  | inside {u' : BufferedUxfio} : b ≤ u.right → Inside u b u' → Bite u b b u'
  | beyond {u' : BufferedUxfio} : u.right < b → 0 ≤ u.crossing b → Beyond u b u' →
      Bite u b (max u.right 0 + u.crossing b) u'

/-- Bytes that were in the buffer, and what came with them. -/
theorem length_taken (u : BufferedUxfio) {n : Nat} (h : 0 ≤ u.given n) :
    ((u.rest.take (u.given n).toNat).length : Int) = u.given n := by
  have hle := (u.given_le n).2
  rw [List.length_take]
  omega

/-- A buffer file that is too long is left as it is. -/
theorem fixBuffer_long (htype : u.buffertypeM = .file) {new : Int}
    (hlong : u.lenM < u.posM + new) (total : Int) (p : Bytes) :
    u.fixBuffer total p new = .returned u := by
  rw [fixBuffer, if_pos htype, fixBufferFile, if_pos (by omega)]

/-- The buffer is as it was. -/
structure Kept (u w : BufferedUxfio) : Prop where
  type : w.buffertypeM = u.buffertypeM
  active : w.bufferActiveM = u.bufferActiveM
  auto : w.autoDisableM = u.autoDisableM
  pos : w.posM = u.posM
  eof : w.endM = u.endM
  len : w.lenM = u.lenM
  bytes : w.bufM = u.bufM
  content : w.buffdM.content = u.buffdM.content

theorem Kept.right {w : BufferedUxfio} (hk : Kept u w) : w.right = u.right := by
  change w.endM - w.posM = u.endM - u.posM
  rw [hk.eof, hk.pos]

/-- A descriptor is sound as long as its buffer is kept, wherever a buffer file
stands. -/
structure Laid (u : BufferedUxfio) : Prop where
  active : u.bufferActiveM = true
  pos_nonneg : 0 ≤ u.posM
  pos_le_end : u.buffertypeM ≠ .dynamicMem → u.posM ≤ u.endM
  formed : u.buffertypeM ≠ .file → u.toUxfio.Formed
  content : u.buffertypeM = .file → (u.buffdM.content.length : Int) = u.endM

theorem Sound.laid (h : Sound u) : Laid u where
  active := h.active
  pos_nonneg := h.pos_nonneg
  pos_le_end := h.pos_le_end
  formed := h.formed
  content := h.content

theorem Laid.of_kept (h : Laid u) {w : BufferedUxfio} (hk : Kept u w) : Laid w where
  active := hk.active.trans h.active
  pos_nonneg := by rw [hk.pos]; exact h.pos_nonneg
  pos_le_end := by rw [hk.type, hk.pos, hk.eof]; exact h.pos_le_end
  formed := by
    intro htype
    have hf := h.formed (by rw [← hk.type]; exact htype)
    exact {
      pos_nonneg := by rw [hk.pos]; exact hf.pos_nonneg
      pos_le := by rw [hk.pos, hk.len]; exact hf.pos_le
      end_nonneg := by rw [hk.eof]; exact hf.end_nonneg
      end_le := by rw [hk.eof, hk.len]; exact hf.end_le
      size := by rw [hk.bytes, hk.len]; exact hf.size }
  content := by rw [hk.type, hk.content, hk.eof]; exact h.content

/-- What goes beyond the buffered data, when the buffer takes it. -/
theorem fixBuffer_beyond (h : Laid u) {p : Bytes} {k : Nat}
    (hp : (p.length : Int) = max u.right 0 + k)
    (hbuffd : u.buffertypeM = .file → (u.buffdM.pos : Int) = u.endM)
    (hroom : u.buffertypeM = .file → u.posM + k ≤ u.lenM) :
    ∃ u', u.fixBuffer p.length p k = .returned u' ∧ Alike u u' ∧ Sound u' ∧ u'.right ≤ 0 := by
  rw [fixBuffer]
  split
  next htype =>
    have hle := h.pos_le_end (by simp [htype])
    have hmax : max u.right 0 = u.right := by
      have : u.right = u.endM - u.posM := rfl
      omega
    rw [hmax] at hp
    obtain ⟨halike, hpos, heq, hoffset, hcontent⟩ := fixBufferFile_beyond hle
      (h.content htype) (hbuffd htype) hp (hroom htype)
    refine ⟨_, rfl, halike, ?_, ?_⟩
    · exact {
        active := halike.active.trans h.active
        pos_nonneg := hpos
        pos_le_end := fun _ => le_of_eq heq
        formed := fun hne => absurd (halike.type.trans htype) hne
        offset := fun _ => hoffset
        content := fun _ => hcontent }
    · change (u.fixBufferFile p.length p k).endM - (u.fixBufferFile p.length p k).posM ≤ 0
      omega
  next htype =>
    obtain ⟨u', hfix, halike, hf, hright, hle⟩ :=
      fixBufferMem_beyond (h.formed htype) h.pos_le_end hp
    have htype' : u'.buffertypeM ≠ .file := by
      rw [halike.type]
      exact htype
    refine ⟨u', hfix, halike, ?_, hright⟩
    exact {
      active := halike.active.trans h.active
      pos_nonneg := hf.pos_nonneg
      pos_le_end := fun hne => hle (by rw [← halike.type]; exact hne)
      formed := fun _ => hf
      offset := fun heq => absurd heq htype'
      content := fun heq => absurd heq htype' }

/-- A bite where nothing is left in the buffer. -/
theorem read_streaming (h : Sound u) (hright : u.right ≤ 0) {nbyte b : Nat} (hb : 0 < b)
    (hn : toCInt nbyte = b) :
    ∃ n bytes u', u.read nbyte = .returned (n, bytes, u') ∧ Bite u b n u' := by
  have hactive : ¬ u.bufferActiveM = false := by simp [h.active]
  have hsub : u.right = u.endM - u.posM := rfl
  have hpos : ¬ u.posM < u.endM := by omega
  have hmax : max u.right 0 = 0 := max_eq_right hright
  have hsize : ((b : Int) - max u.right 0).toNat = b := by
    rw [hmax, Int.sub_zero, Int.toNat_natCast]
  have hcross : u.crossing b = u.given b := by rw [crossing, if_pos (by omega), hsize]
  rw [read, hn]
  simp only [if_neg hactive, if_neg hpos, virRead_eq, Outcome.pure_eq]
  split
  next hneg => exact ⟨_, _, _, rfl, .failed hneg (failsAfter_zero hneg)⟩
  next hk =>
    obtain ⟨k, hgiven⟩ := Int.eq_ofNat_of_zero_le (show 0 ≤ u.given b by omega)
    have hlen := u.length_taken (show 0 ≤ u.given b by omega)
    rw [hgiven] at hcross hlen ⊢
    generalize u.rest.take ((k : Int)).toNat = p at hlen ⊢
    have hkept : Kept u ((u.afterVirRead b).count k) := ⟨rfl, rfl, rfl, rfl, rfl, rfl, rfl, rfl⟩
    have hfd : ((u.afterVirRead b).count k).uxfdM = (u.afterVirRead b).uxfdM := rfl
    have hbuffd : ((u.afterVirRead b).count k).buffdM = u.buffdM := rfl
    generalize (u.afterVirRead b).count k = w at hkept hfd hbuffd ⊢
    have hw := h.laid.of_kept hkept
    -- a file that is too long is left as it is
    obtain ⟨v, hfix, halike, hv, hrightv⟩ : ∃ v, w.fixBuffer k p k = .returned v ∧
        Alike w v ∧ Sound v ∧ v.right ≤ 0 := by
      by_cases hlong : w.buffertypeM = .file ∧ w.lenM < w.posM + k
      · have hsound : Sound w := {
          active := hw.active
          pos_nonneg := hw.pos_nonneg
          pos_le_end := hw.pos_le_end
          formed := hw.formed
          offset := by rw [hkept.type, hbuffd, hkept.pos]; exact h.offset
          content := hw.content }
        exact ⟨w, fixBuffer_long hlong.1 hlong.2 k p, ⟨rfl, rfl, rfl, rfl⟩, hsound,
          by rw [hkept.right]; exact hright⟩
      · have hfix := fixBuffer_beyond hw
          (show (p.length : Int) = max w.right 0 + k by rw [hkept.right]; omega)
          (by
            intro htype
            have hoffset := h.offset (hkept.type ▸ htype)
            have hle := hw.pos_le_end (by simp [htype])
            rw [hbuffd, hkept.eof]
            rw [hkept.eof, hkept.pos] at hle
            omega)
          (by
            intro htype
            have := not_and.mp hlong htype
            omega)
        rw [hlen] at hfix
        exact hfix
    have hfdv : v.uxfdM = (u.afterVirRead (b - max u.right 0).toNat).uxfdM := by
      rw [halike.fd, hfd, hsize]
    have hauto : v.autoDisableM = u.autoDisableM := halike.auto.trans hkept.auto
    have hbite := @Bite.beyond u b
    rw [hmax, hcross, zero_add] at hbite
    simp only [hfix, Outcome.returned_bind]
    refine ⟨_, _, _, rfl, hbite (by omega) (by omega) ?_⟩
    have hroom : u.buffertypeM = .file → 0 < u.right → u.posM + u.crossing b ≤ u.lenM :=
      fun _ hlt => absurd hlt (by omega)
    cases hau : u.autoDisableM with
    | false =>
        rw [hau] at hauto
        rw [if_neg (by simp [hauto])]
        exact ⟨.inl hv, hrightv, hfdv, hroom, fun _ ha => absurd ha (by simp [hau]),
          fun _ => ⟨by rw [hauto, hau], by rw [hv.active, h.active]⟩, fun _ => h.active⟩
    | true =>
        rw [hau] at hauto
        rw [if_pos hauto, setBufactiveOff_of_right hrightv]
        exact ⟨.inr ⟨rfl, hrightv⟩, hrightv, hfdv, hroom, fun _ _ => rfl,
          fun hor => hor.elim (fun hlt => absurd hlt (by omega)) (fun ha => absurd ha (by simp [hau])),
          fun _ => h.active⟩

/-- A bite where the buffer is out of use. -/
theorem read_off (h : Off u) {nbyte b : Nat} (hb : 0 < b) (hn : toCInt nbyte = b) :
    ∃ n bytes u', u.read nbyte = .returned (n, bytes, u') ∧ Bite u b n u' := by
  have hright := h.right
  have hmax : max u.right 0 = 0 := max_eq_right hright
  have hsize : ((b : Int) - max u.right 0).toNat = b := by
    rw [hmax, Int.sub_zero, Int.toNat_natCast]
  have hcross : u.crossing b = u.given b := by rw [crossing, if_pos (by omega), hsize]
  rw [read, hn]
  simp only [if_pos h.active, virRead_eq, Outcome.pure_eq]
  split
  next hnone =>
    refine ⟨_, _, _, rfl, .failed (by omega) ?_⟩
    rw [FailsAfter, Option.isNone_iff_eq_none.mp hnone]
    simp [h.active]
  next hsome =>
    split
    next hneg => exact ⟨_, _, _, rfl, .failed hneg (failsAfter_zero hneg)⟩
    next hk =>
      have hbite := @Bite.beyond u b
      rw [hmax, hcross, zero_add] at hbite
      refine ⟨_, _, _, rfl, hbite (by omega) (by omega) ?_⟩
      exact {
        ready := .inr ⟨h.active, h.right⟩
        right := h.right
        fd := by rw [hsize]; rfl
        room := fun _ hlt => absurd hlt (by omega)
        auto := fun _ _ => h.active
        keeps := fun _ => ⟨rfl, rfl⟩
        live := fun hnone => absurd (by rw [hnone]; rfl) hsome }

/-- The bytes of a bite come from the buffer file or from the block. -/
theorem takeBuffered_eq (h : Sound u) {c : Nat} (hc : c ≤ u.right) :
    ∃ bytes w, u.takeBuffered c = .returned (c, bytes, w) ∧ bytes.length = c ∧ Kept u w ∧
      w.uxfdM = u.uxfdM ∧
      (u.buffertypeM = .file → (w.buffdM.pos : Int) = u.posM + c) := by
  have hright : u.right = u.endM - u.posM := rfl
  have hpos := h.pos_nonneg
  rw [takeBuffered]
  split
  next htype =>
    have hoffset := h.offset htype
    have hcontent := h.content htype
    have hlen : (u.buffdM.readable c).length = c := by
      rw [PosixFile.length_readable]
      omega
    refine ⟨u.buffdM.readable c, { u with buffdM := u.buffdM.afterRead c }, ?_, hlen,
      ⟨rfl, rfl, rfl, rfl, rfl, rfl, rfl, rfl⟩, rfl, ?_⟩
    · simp only [readBuffd, if_neg (show ¬ (c : Int) < 0 by omega), Int.toNat_natCast, hlen, if_true]
    · intro
      simp only [PosixFile.afterRead, hlen]
      omega
  next htype =>
    have hf := h.formed htype
    have hend := hf.end_le
    have hsize := hf.size
    obtain ⟨bytes, hload, hlen⟩ := exists_load hpos (Int.natCast_nonneg c)
      (show u.posM + c ≤ u.bufM.length by omega)
    exact ⟨bytes, u, by rw [hload]; rfl, by omega, ⟨rfl, rfl, rfl, rfl, rfl, rfl, rfl, rfl⟩, rfl,
      fun heq => absurd heq htype⟩

/-- Without new bytes the position moves. -/
theorem fixBuffer_zero (h : ¬ (u.buffertypeM = .file ∧ u.lenM < u.posM)) (total : Int) (p : Bytes) :
    ∃ u', u.fixBuffer total p 0 = .returned u' ∧ Alike u u' ∧ u'.posM = u.posM + total ∧
      u'.endM = u.endM ∧ u'.lenM = u.lenM ∧ u'.bufM = u.bufM ∧ u'.buffdM = u.buffdM := by
  rw [fixBuffer]
  split
  next htype =>
    have hlong := not_and.mp h htype
    refine ⟨u.advance total, ?_, ⟨rfl, rfl, rfl, rfl⟩, rfl, rfl, rfl, rfl, rfl⟩
    rw [fixBufferFile, if_neg (by omega), if_neg (by simp)]
  next htype =>
    refine ⟨{ u with posM := u.posM + total }, ?_, ⟨rfl, rfl, rfl, rfl⟩, rfl, rfl, rfl, rfl, rfl⟩
    rw [fixBufferMem, if_neg (by simp)]
    rfl

/-- Without new bytes nothing is wrong with a buffer that returns. -/
theorem fixBuffer_zero_returned (u : BufferedUxfio) (total : Int) (p : Bytes) :
    ∃ u', u.fixBuffer total p 0 = .returned u' ∧ Alike u u' ∧ u'.endM = u.endM ∧
      (u'.posM = u.posM ∨ u'.posM = u.posM + total) := by
  by_cases hlong : u.buffertypeM = .file ∧ u.lenM < u.posM
  · exact ⟨u, fixBuffer_long hlong.1 (by omega) total p, ⟨rfl, rfl, rfl, rfl⟩, rfl, .inl rfl⟩
  · obtain ⟨u', hfix, halike, hpos, heof, -⟩ := fixBuffer_zero hlong total p
    exact ⟨u', hfix, halike, heof, .inr hpos⟩

/-- The end of a bite within the buffered data. -/
theorem readMore_inside (h : Sound u) {w : BufferedUxfio} {b : Nat} {bytes : Bytes}
    (hb : 0 < b) (hle : b ≤ u.right) (hkept : Kept u w) (hfd : w.uxfdM = u.uxfdM)
    (hoffset : u.buffertypeM = .file → (w.buffdM.pos : Int) = u.posM + b) :
    ∃ u', w.readMore bytes b b = .returned (b, bytes, u') ∧ Bite u b b u' := by
  have hlaid := h.laid.of_kept hkept
  have hsub : u.right = u.endM - u.posM := rfl
  have hpos := hkept.pos
  have heof := hkept.eof
  have hlen := hkept.len
  have hcross : u.crossing b = 0 := by rw [crossing, if_neg (by omega)]
  rw [readMore, if_neg (by omega)]
  by_cases hlong : w.buffertypeM = .file ∧ w.lenM < w.posM
  · refine ⟨w, ?_, .stale (by omega) (le_refl _) (hkept.type ▸ hlong.1) (by omega) ?_ ?_⟩
    · rw [fixBuffer_long hlong.1 (by omega)]
      rfl
    · rw [hcross]
      omega
    · exact ⟨hlaid.active, hlong.1, by rw [hkept.right]; omega, .inl hlong.2⟩
  · obtain ⟨u', hfix, halike, hpos', heof', hlen', hbytes', hbuffd'⟩ := fixBuffer_zero hlong b bytes
    have htype' := halike.type.trans hkept.type
    have hsound : Sound u' := {
      active := halike.active.trans hlaid.active
      pos_nonneg := by
        have := hlaid.pos_nonneg
        omega
      pos_le_end := by
        intro htype
        omega
      formed := by
        intro htype
        have hf := h.formed (htype' ▸ htype)
        have hbounds : 0 ≤ u'.posM ∧ u'.posM ≤ u'.lenM ∧ 0 ≤ u'.endM ∧ u'.endM ≤ u'.lenM := by
          have := hf.pos_nonneg
          have := hf.end_le
          omega
        exact ⟨hbounds.1, hbounds.2.1, hbounds.2.2.1, hbounds.2.2.2, by
          rw [hbytes', hkept.bytes, hlen', hlen]
          exact hf.size⟩
      offset := by
        intro htype
        rw [hbuffd', hpos', hpos]
        exact hoffset (htype' ▸ htype)
      content := by
        intro htype
        rw [hbuffd', hkept.content, heof', heof]
        exact h.content (htype' ▸ htype) }
    refine ⟨u', by rw [hfix]; rfl, .inside hle ?_⟩
    exact {
      sound := hsound
      alike := ⟨halike.fd.trans hfd, htype', halike.active.trans hkept.active,
        halike.auto.trans hkept.auto⟩
      pos := by rw [hpos', hpos]
      eof := by rw [heof', heof]
      len := by rw [hlen', hlen]
      room := by
        intro htype
        have := not_and.mp hlong (hkept.type.trans htype)
        omega }

/-- The end of a bite beyond the buffered data. -/
theorem readMore_beyond (h : Sound u) {w : BufferedUxfio} {b c : Nat} {bytes : Bytes}
    (hright : 0 < u.right) (hc : c = u.right) (hlt : u.right < b) (hkept : Kept u w)
    (hfd : w.uxfdM = u.uxfdM) (hbytes : bytes.length = c)
    (hoffset : u.buffertypeM = .file → (w.buffdM.pos : Int) = u.posM + c) :
    ∃ n bytes' u', w.readMore bytes c b = .returned (n, bytes', u') ∧ Bite u b n u' := by
  have hsub : u.right = u.endM - u.posM := rfl
  have hmax : max u.right 0 = c := by omega
  have hsize : ((b : Int) - max u.right 0).toNat = b - c := by omega
  have hcross : u.crossing b = u.given (b - c) := by rw [crossing, if_pos hlt, hsize]
  have hgivenw : w.given (b - c) = u.given (b - c) := by rw [given, given, hfd]
  have hrestw : w.rest = u.rest := by rw [rest, rest, hfd]
  rw [readMore, if_pos (by omega), ← Nat.cast_sub (by omega), virRead_eq, hgivenw, hrestw]
  simp only
  split
  next hneg =>
    refine ⟨_, _, _, rfl, .failed hneg (failsAfter_zero hneg)⟩
  next hk =>
    obtain ⟨k, hgiven⟩ := Int.eq_ofNat_of_zero_le (show 0 ≤ u.given (b - c) by omega)
    have hmore := u.length_taken (show 0 ≤ u.given (b - c) by omega)
    have hgivenle := (u.given_le (b - c)).1
    rw [hgiven] at hcross hmore hgivenle ⊢
    generalize u.rest.take ((k : Int)).toNat = more at hmore ⊢
    have hkept' : Kept u ((w.afterVirRead (b - c)).count k) :=
      ⟨hkept.type, hkept.active, hkept.auto, hkept.pos, hkept.eof, hkept.len, hkept.bytes,
        hkept.content⟩
    have hfd' : ((w.afterVirRead (b - c)).count k).uxfdM = (u.afterVirRead (b - c)).uxfdM := by
      change w.uxfdM.map _ = u.uxfdM.map _
      rw [hfd]
    have hbuffd' : ((w.afterVirRead (b - c)).count k).buffdM = w.buffdM := rfl
    generalize (w.afterVirRead (b - c)).count k = x at hkept' hfd' hbuffd' ⊢
    have hlaid := h.laid.of_kept hkept'
    have hposx := hkept'.pos
    have hlenx := hkept'.len
    by_cases hlong : x.buffertypeM = .file ∧ x.lenM < x.posM + k
    · rw [fixBuffer_long hlong.1 hlong.2]
      have htype : u.buffertypeM = .file := hkept'.type ▸ hlong.1
      refine ⟨_, _, _, rfl, .stale (by omega) (by omega) htype hright (by omega) ?_⟩
      have hcontent := h.content htype
      have hpos := hoffset htype
      exact ⟨hlaid.active, hlong.1, by rw [hkept'.right]; exact hright, .inr (by
        rw [hkept'.content, hbuffd']
        omega)⟩
    · have hlen : ((bytes ++ more).length : Int) = max x.right 0 + k := by
        rw [hkept'.right, hmax, List.length_append]
        omega
      obtain ⟨v, hfix, halike, hv, hrightv⟩ := fixBuffer_beyond hlaid hlen
        (by
          intro htype
          have hpos := hoffset (hkept'.type ▸ htype)
          rw [hbuffd', hkept'.eof]
          omega)
        (by
          intro htype
          have := not_and.mp hlong htype
          omega)
      rw [show ((bytes ++ more).length : Int) = c + k by rw [hlen, hkept'.right, hmax]] at hfix
      simp only [hfix, Outcome.returned_bind]
      have hbite := @Bite.beyond u b
      rw [hmax, hcross] at hbite
      refine ⟨_, _, _, rfl, hbite hlt (by omega) ?_⟩
      exact {
        ready := .inl hv
        right := hrightv
        fd := by rw [halike.fd, hfd', hsize]
        room := by
          intro htype _
          have := not_and.mp hlong (hkept'.type.trans htype)
          omega
        auto := fun hle => absurd hright (by omega)
        keeps := fun _ => ⟨halike.auto.trans hkept'.auto, halike.active.trans hkept'.active⟩
        live := fun _ => h.active }

/-- A bite that starts within the buffered data. -/
theorem read_buffered (h : Sound u) (hright : 0 < u.right) {nbyte b : Nat} (hb : 0 < b)
    (hn : toCInt nbyte = b) :
    ∃ n bytes u', u.read nbyte = .returned (n, bytes, u') ∧ Bite u b n u' := by
  have hactive : ¬ u.bufferActiveM = false := by simp [h.active]
  have hsub : u.right = u.endM - u.posM := rfl
  obtain ⟨c, hc⟩ : ∃ c : Nat, (if (b : Int) ≥ u.right then u.right else (b : Int)) = c :=
    ⟨(min (b : Int) u.right).toNat, by split <;> omega⟩
  have hcmin : (c : Int) = min (b : Int) u.right := by
    rw [← hc]
    split <;> omega
  obtain ⟨bytes, w, htake, hlen, hkept, hfd, hoffset⟩ := takeBuffered_eq h
    (show (c : Int) ≤ u.right by omega)
  have hkept' : Kept u (w.countBuffered c) :=
    ⟨hkept.type, hkept.active, hkept.auto, hkept.pos, hkept.eof, hkept.len, hkept.bytes,
      hkept.content⟩
  rw [read, hn]
  simp only [if_neg hactive, if_pos (show u.posM < u.endM by omega), hc, htake,
    Outcome.returned_bind]
  rw [if_neg (by simp)]
  rcases lt_or_ge u.right (b : Int) with hlt | hle
  · exact readMore_beyond h hright (by omega) hlt hkept' hfd hlen hoffset
  · have hcb : c = b := by omega
    subst hcb
    obtain ⟨u', hmore, hbite⟩ := readMore_inside h hb (by omega) hkept' hfd hoffset
    exact ⟨_, _, _, hmore, hbite⟩

/-- One bite. -/
theorem read_bite (h : Sound u ∨ Off u) {nbyte b : Nat} (hb : 0 < b) (hn : toCInt nbyte = b) :
    ∃ n bytes u', u.read nbyte = .returned (n, bytes, u') ∧ Bite u b n u' := by
  rcases h with hsound | hoff
  · rcases lt_or_ge 0 u.right with hright | hright
    · exact read_buffered hsound hright hb hn
    · exact read_streaming hsound hright hb hn
  · exact read_off hoff hb hn

/-- A bite of a buffer file that is lost fails, or it gives something. -/
theorem Stale.read (h : Stale u) {nbyte b : Nat} (hb : 0 < b) (hn : toCInt nbyte = b) :
    ∃ n bytes u', u.read nbyte = .returned (n, bytes, u') ∧
      (n < 0 ∨ (0 < n ∧ n ≤ b ∧ Stale u')) := by
  have hactive : ¬ u.bufferActiveM = false := by simp [h.active]
  have hright := h.right
  have hsub : u.right = u.endM - u.posM := rfl
  obtain ⟨c, hc⟩ : ∃ c : Nat, (if (b : Int) ≥ u.right then u.right else (b : Int)) = c :=
    ⟨(min (b : Int) u.right).toNat, by split <;> omega⟩
  have hcmin : (c : Int) = min (b : Int) u.right := by
    rw [← hc]
    split <;> omega
  rw [BufferedUxfio.read, hn]
  simp only [if_neg hactive, if_pos (show u.posM < u.endM by omega), hc, takeBuffered,
    if_pos h.type, readBuffd, if_neg (show ¬ (c : Int) < 0 by omega), Int.toNat_natCast,
    Outcome.returned_bind]
  by_cases hfull : ((u.buffdM.readable c).length : Int) = c
  · -- the file goes on, so it is too long
    have hlong : u.lenM < u.posM := by
      rcases h.lost with hlong | hend
      · exact hlong
      · rw [PosixFile.length_readable] at hfull
        omega
    rw [if_pos hfull, if_neg (by simp)]
    generalize hw : BufferedUxfio.countBuffered _ _ = w
    have hstale : ∀ n m : Int, Stale ((w.afterVirRead n.toNat).count m) := by
      intro n m
      rw [← hw]
      exact ⟨h.active, h.type, hright, .inl hlong⟩
    have hstale' : Stale w := by
      rw [← hw]
      exact ⟨h.active, h.type, hright, .inl hlong⟩
    have hwpos : w.posM = u.posM := by rw [← hw]; rfl
    have hwlen : w.lenM = u.lenM := by rw [← hw]; rfl
    rw [readMore]
    split
    next hlt =>
      rw [← Nat.cast_sub (by omega), virRead_eq]
      simp only
      have hle := (w.given_le (b - c)).1
      split
      next hneg => exact ⟨_, _, _, rfl, .inl hneg⟩
      next hk =>
        have hx := hstale ((b - c : Nat) : Int) (w.given (b - c))
        rw [Int.toNat_natCast] at hx
        rw [fixBuffer_long hx.type
          (show w.lenM < w.posM + w.given (b - c) by omega)]
        exact ⟨_, _, _, rfl, .inr ⟨by omega, by omega, hx⟩⟩
    next hge =>
      rw [fixBuffer_long hstale'.type (by omega)]
      exact ⟨_, _, _, rfl, .inr ⟨by omega, by omega, hstale'⟩⟩
  · rw [if_neg hfull, if_pos (by omega)]
    exact ⟨_, _, _, rfl, .inl (by omega)⟩

end BufferedUxfio

end Swbis.Io
