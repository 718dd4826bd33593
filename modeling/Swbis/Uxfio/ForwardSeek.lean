import Swbis.Uxfio.BufferedRead

/-!
# Seeking forward

A seek forward beyond the buffer reads, in bites of 4096 bytes, until it has read
as much as it was asked for.  A read at the end of the underlying stream gives
nothing, and the loop of `uxfio__read_bytes` does not notice.

The loop ends if what can be read is enough, if a read of the underlying
descriptor fails, or if the buffer file loses its position: then a later read of
it comes up short.  `returns_iff` says that it ends in no other case.
-/

namespace Swbis.Io

open CLib

namespace BufferedUxfio

variable {u u' : BufferedUxfio}

/-! ## What a bite leaves -/

theorem Inside.available {b : Nat} (h : Inside u b u') (hle : b ≤ u.right) :
    u'.available = u.available - b := by
  have hpos := h.pos
  have heof := h.eof
  have hsub : u.right = u.endM - u.posM := rfl
  have hsub' : u'.right = u'.endM - u'.posM := rfl
  rw [BufferedUxfio.available, BufferedUxfio.available, rest, rest, h.alike.fd]
  omega

theorem Beyond.available {b : Nat} (h : Beyond u b u') (hlt : u.right < b)
    (hk : 0 ≤ u.crossing b) :
    u'.available = u.available - (max u.right 0 + u.crossing b) := by
  have hright := h.right
  rw [crossing, if_pos hlt] at hk ⊢
  have hrest : u'.rest = u.rest.drop (u.given (b - max u.right 0).toNat).toNat := by
    rw [← rest_afterVirRead, rest, rest, h.fd]
  have hle := (u.given_le (b - max u.right 0).toNat).2
  rw [BufferedUxfio.available, BufferedUxfio.available, hrest, List.length_drop]
  omega

theorem Inside.failsAfter_iff {b : Nat} (h : Inside u b u') (k : Nat) :
    u'.FailsAfter k ↔ u.FailsAfter k := by
  rw [FailsAfter, FailsAfter, h.alike.fd, h.alike.active, h.alike.auto]

/-- Beyond the buffered data one of the reads that are to come has been made. -/
theorem Beyond.failsAfter {b k : Nat} (h : Beyond u b u') (hfails : u.FailsAfter k)
    (hk : 0 ≤ u.crossing b) (hlt : u.right < b) :
    ∃ k', u'.FailsAfter k' ∧ (k' < k ∨ (k' = k ∧ 0 < u.right)) := by
  have hfd := h.fd
  rw [crossing, if_pos hlt] at hk
  cases hs : u.uxfdM with
  | none =>
      have hactive := h.live hs
      have hnone : u'.uxfdM = none := by rw [hfd, afterVirRead, hs]; rfl
      rw [FailsAfter, hs] at hfails
      simp only [hactive, if_true] at hfails
      obtain ⟨hauto, rfl⟩ := hfails
      rcases lt_or_ge 0 u.right with hright | hright
      · obtain ⟨hauto', hactive'⟩ := h.keeps (.inl hright)
        refine ⟨1, ?_, .inr ⟨rfl, hright⟩⟩
        rw [FailsAfter, hnone]
        simp only [hactive', hactive, hauto', hauto, if_true, and_self]
      · refine ⟨0, ?_, .inl (by omega)⟩
        rw [FailsAfter, hnone]
        simp [h.auto hright hauto]
  | some s =>
      have hsome : u'.uxfdM = some (s.read (b - max u.right 0).toNat).2.2 := by
        rw [hfd, afterVirRead, hs]
        rfl
      rw [FailsAfter, hs] at hfails
      rw [given, hs] at hk
      have hk0 : k ≠ 0 := by
        rintro rfl
        simp only [Nat.add_zero, ReadPattern.read] at hfails hk
        omega
      refine ⟨k - 1, ?_, .inl (by omega)⟩
      rw [FailsAfter, hsome]
      change s.pattern.gives (s.reads + 1 + (k - 1)) < 0
      rwa [show s.reads + 1 + (k - 1) = s.reads + k by omega]

/-- Nothing that fails later has been hidden. -/
theorem Beyond.fails {b : Nat} (h : Beyond u b u') (hfails : u'.Fails) : u.Fails := by
  obtain ⟨k, hk⟩ := hfails
  have hfd := h.fd
  cases hs : u.uxfdM with
  | none =>
      have hactive := h.live hs
      have hnone : u'.uxfdM = none := by rw [hfd, afterVirRead, hs]; rfl
      cases hauto : u.autoDisableM with
      | true =>
          refine ⟨1, ?_⟩
          rw [FailsAfter, hs]
          simp [hactive, hauto]
      | false =>
          obtain ⟨hauto', hactive'⟩ := h.keeps (.inr hauto)
          rw [FailsAfter, hnone] at hk
          simp [hactive', hactive, hauto', hauto] at hk
  | some s =>
      have hsome : u'.uxfdM = some (s.read (b - max u.right 0).toNat).2.2 := by
        rw [hfd, afterVirRead, hs]
        rfl
      rw [FailsAfter, hsome] at hk
      change s.pattern.gives (s.reads + 1 + k) < 0 at hk
      refine ⟨k + 1, ?_⟩
      rw [FailsAfter, hs]
      change s.pattern.gives (s.reads + (k + 1)) < 0
      rwa [show s.reads + (k + 1) = s.reads + 1 + k by omega]

/-- After a whole bite the last one is the same. -/
theorem Inside.overruns_iff (h : Inside u 4096 u') (hlt : 4096 < u.right) :
    u'.Overruns ↔ u.Overruns := by
  have hpos := h.pos
  have heof := h.eof
  have hsub : u.right = u.endM - u.posM := rfl
  have hsub' : u'.right = u'.endM - u'.posM := rfl
  have hlast : u'.lastBite = u.lastBite := by
    rw [lastBite, lastBite]
    omega
  have hgiven : u'.lastGiven = u.lastGiven := by
    rw [lastGiven, lastGiven, heof, hlast, given, given, h.alike.fd]
  rw [Overruns, Overruns, h.alike.type, h.len, hlast, hgiven]
  constructor
  · rintro ⟨htype, -, hlen⟩
    exact ⟨htype, by omega, hlen⟩
  · rintro ⟨htype, -, hlen⟩
    exact ⟨htype, by omega, hlen⟩

/-- The last bite gets what it would get if it were whole, when more is asked for
than there is. -/
theorem lastGiven_eq {b : Nat} {amount : Int} (hright : 0 < u.right) (hlt : u.right < b)
    (hb : (b : Int) = min amount 4096) (hmore : u.available < amount) :
    u.lastBite = u.posM ∧ u.lastGiven = u.crossing b := by
  have hsub : u.right = u.endM - u.posM := rfl
  have hmax : max u.right 0 = u.right := max_eq_left (by omega)
  have hlast : u.lastBite = u.posM := by
    rw [lastBite]
    omega
  refine ⟨hlast, ?_⟩
  rw [available, hmax] at hmore
  rw [lastGiven, hlast, if_pos (by omega), crossing, if_pos hlt, hmax]
  rcases Nat.lt_or_ge b 4096 with hsmall | hbig
  · exact given_congr (by omega) (by omega)
  · congr 1
    omega

/-! ## The loop -/

/-- The bites of `uxfio__read_bytes`. -/
def bite (amount : Int) : Nat := ((if amount > 4096 then 4096 else amount) % 2 ^ 64).toNat

theorem toCInt_bite_amount {amount : Int} (h : -2 ^ 31 ≤ amount) :
    toCInt (bite amount : Nat) = if amount > 4096 then 4096 else amount :=
  Uxfio.toCInt_bite (by split <;> omega) (by split <;> omega)

/-- A loop in which every bite fails or comes closer ends. -/
theorem readBytes_returns {P : Nat → BufferedUxfio → Int → Prop}
    (hstep : ∀ m u amount, P m u amount → 0 < amount →
      ∃ n bytes u', u.read (bite amount) = .returned (n, bytes, u') ∧
        (n < 0 ∨ (n ≤ amount ∧ ∃ m' < m, P m' u' (amount - n))))
    {m : Nat} {amount : Int} (h : P m u amount) (h0 : 0 ≤ amount) (fuel : Nat) (hfuel : m < fuel)
    (haveread : Int) : ∃ r, readBytes fuel u amount haveread = .returned r := by
  induction fuel generalizing m u amount haveread with
  | zero => omega
  | succ fuel ih =>
      rw [readBytes]
      split
      next => exact ⟨_, rfl⟩
      next hne =>
        obtain ⟨n, bytes, u', hread, hn⟩ := hstep m u amount h (by omega)
        rw [bite] at hread
        simp only [hread, Outcome.returned_bind]
        split
        next => exact ⟨_, rfl⟩
        next hpos =>
          rcases hn with hneg | ⟨hle, m', hm', hP⟩
          · exact absurd hneg hpos
          · exact ih hP (by omega) (by omega) (haveread + n)

/-- A loop in which no bite fails or brings the amount down to nothing does not end. -/
theorem not_readBytes_returned {Q : BufferedUxfio → Int → Prop}
    (hstep : ∀ u amount, Q u amount → amount ≠ 0 ∧ ∀ n bytes u',
      u.read (bite amount) = .returned (n, bytes, u') → 0 ≤ n ∧ Q u' (amount - n))
    {amount : Int} (h : Q u amount) (fuel : Nat) (haveread : Int) (r : Int × BufferedUxfio) :
    readBytes fuel u amount haveread ≠ .returned r := by
  induction fuel generalizing u amount haveread with
  | zero => exact nofun
  | succ fuel ih =>
      obtain ⟨hne, hbite⟩ := hstep u amount h
      intro hcall
      rw [readBytes, if_neg hne] at hcall
      obtain ⟨⟨n, bytes, u'⟩, hread, hrest⟩ := Outcome.bind_eq_returned.mp hcall
      obtain ⟨h0, hQ⟩ := hbite n bytes u' hread
      simp only [if_neg (show ¬ n < 0 by omega)] at hrest
      exact ih hQ (haveread + n) hrest

/-! ## When the bites end -/

/-- The bites end within `m` steps: the buffer file is lost, what is asked for is
there, a read fails, or the buffer file is about to be lost. -/
inductive Ending : Nat → BufferedUxfio → Int → Prop where
  | stale {u : BufferedUxfio} {amount : Int} : Stale u → Ending amount.toNat u amount
  | enough {u : BufferedUxfio} {amount : Int} : Sound u ∨ Off u → amount ≤ u.available →
      Ending amount.toNat u amount
  | fails {u : BufferedUxfio} {amount : Int} {k : Nat} : Sound u ∨ Off u → u.FailsAfter k →
      Ending (amount.toNat + k + u.right.toNat) u amount
  | overruns {u : BufferedUxfio} {amount : Int} : Sound u ∨ Off u → u.available < amount →
      u.Overruns → Ending amount.toNat u amount

theorem bite_eq {amount : Int} (h : 0 < amount) (hint : amount < 2 ^ 31) :
    toCInt (bite amount : Nat) = (min amount 4096).toNat := by
  rw [toCInt_bite_amount (by omega)]
  split <;> omega

/-- The file gives at most what a bite still lacks. -/
theorem crossing_le {b : Nat} (hlt : u.right < b) : u.crossing b ≤ b - max u.right 0 := by
  rw [crossing, if_pos hlt]
  have hgiven := (u.given_le (b - max u.right 0).toNat).1
  omega

/-- A bite that goes beyond nothing gives nothing only if nothing is left. -/
theorem available_of_beyond_zero {b : Nat} (hb : 0 < b) (hlt : u.right < b)
    (hzero : max u.right 0 + u.crossing b = 0) (hk : 0 ≤ u.crossing b) : u.available = 0 := by
  have hcross : u.crossing b = 0 := by omega
  rw [crossing, if_pos hlt] at hcross
  have hrest := rest_of_given_zero (by omega) hcross
  rw [available, hrest, List.length_nil]
  omega

/-- Every bite fails, or comes closer to the end. -/
theorem Ending.step {m : Nat} {amount : Int} (h : Ending m u amount) (h0 : 0 < amount)
    (hint : amount < 2 ^ 31) :
    ∃ n bytes u', u.read (bite amount) = .returned (n, bytes, u') ∧
      (n < 0 ∨ (n ≤ amount ∧ ∃ m' < m, Ending m' u' (amount - n))) := by
  obtain ⟨b, hb⟩ : ∃ b : Nat, (min amount 4096).toNat = b := ⟨_, rfl⟩
  have hn := bite_eq h0 hint
  rw [hb] at hn
  cases h with
  | stale hstale =>
      obtain ⟨n, bytes, u', hread, hres⟩ := hstale.read (show 0 < b by omega) hn
      refine ⟨n, bytes, u', hread, ?_⟩
      rcases hres with hneg | ⟨hpos, hle, hstale'⟩
      · exact .inl hneg
      · exact .inr ⟨by omega, _, by omega, .stale hstale'⟩
  | enough hready hle =>
      obtain ⟨n, bytes, u', hread, hbite⟩ := read_bite hready (show 0 < b by omega) hn
      refine ⟨n, bytes, u', hread, ?_⟩
      cases hbite with
      | failed hneg _ => exact .inl hneg
      | stale hpos hnb _ _ _ hstale' => exact .inr ⟨by omega, _, by omega, .stale hstale'⟩
      | inside hin hinside =>
          have havail := hinside.available hin
          exact .inr ⟨by omega, _, by omega, .enough (.inl hinside.sound) (by omega)⟩
      | beyond hlt hk hbeyond =>
          have havail := hbeyond.available hlt hk
          have hcross := crossing_le hlt
          have hsome : 0 < max u.right 0 + u.crossing b := by
            by_contra hzero
            have := available_of_beyond_zero (show 0 < b by omega) hlt (by omega) hk
            omega
          exact .inr ⟨by omega, _, by omega, .enough hbeyond.ready (by omega)⟩
  | fails hready hfails =>
      obtain ⟨n, bytes, u', hread, hbite⟩ := read_bite hready (show 0 < b by omega) hn
      refine ⟨n, bytes, u', hread, ?_⟩
      cases hbite with
      | failed hneg _ => exact .inl hneg
      | stale hpos hnb _ _ _ hstale' => exact .inr ⟨by omega, _, by omega, .stale hstale'⟩
      | inside hin hinside =>
          have hright : u'.right = u.right - b := by
            have hpos := hinside.pos
            have heof := hinside.eof
            change u'.endM - u'.posM = u.endM - u.posM - b
            omega
          exact .inr ⟨by omega, _, by omega,
            .fails (.inl hinside.sound) ((hinside.failsAfter_iff _).mpr hfails)⟩
      | beyond hlt hk hbeyond =>
          have hright := hbeyond.right
          have hcross := crossing_le hlt
          obtain ⟨k', hk', hless⟩ := hbeyond.failsAfter hfails hk hlt
          exact .inr ⟨by omega, _, by omega, .fails hbeyond.ready hk'⟩
  | overruns hready hmore hover =>
      obtain ⟨n, bytes, u', hread, hbite⟩ := read_bite hready (show 0 < b by omega) hn
      refine ⟨n, bytes, u', hread, ?_⟩
      obtain ⟨htype, hright, hlen⟩ := hover
      have hmax : max u.right 0 = u.right := max_eq_left (by omega)
      cases hbite with
      | failed hneg _ => exact .inl hneg
      | stale hpos hnb _ _ _ hstale' => exact .inr ⟨by omega, _, by omega, .stale hstale'⟩
      | inside hin hinside =>
          have hwhole : b = 4096 := by
            have : u.right ≤ u.available := by
              rw [available]
              omega
            omega
          subst hwhole
          have havail := hinside.available hin
          have hroom := hinside.room htype
          have hlt : 4096 < u.right := by
            by_contra hexact
            have hlast : u.lastBite = u.posM := by
              rw [lastBite]
              omega
            have hsub : u.right = u.endM - u.posM := rfl
            rw [lastGiven, hlast, if_neg (by omega)] at hlen
            omega
          exact .inr ⟨by omega, _, by omega, .overruns (.inl hinside.sound) (by omega)
            ((hinside.overruns_iff hlt).mpr ⟨htype, hright, hlen⟩)⟩
      | beyond hlt hk hbeyond =>
          have hroom := hbeyond.room htype hright
          obtain ⟨hlast, hgiven⟩ := lastGiven_eq hright hlt (by omega) hmore
          rw [hlast, hgiven] at hlen
          omega

/-- The bites go on for ever. -/
structure Endless (u : BufferedUxfio) (amount : Int) : Prop where
  ready : Sound u ∨ Off u
  more : u.available < amount
  fails : ¬u.Fails
  overruns : ¬u.Overruns

/-- A bite that loses the buffer file is one before it overruns. -/
theorem overruns_of_stale {b : Nat} {amount : Int} (hb : (b : Int) = min amount 4096)
    (hmore : u.available < amount) (hfails : ¬u.Fails) (htype : u.buffertypeM = .file)
    (hright : 0 < u.right) (hlong : u.lenM < u.posM + u.crossing b) : u.Overruns := by
  refine ⟨htype, hright, ?_⟩
  rcases lt_or_ge u.right (b : Int) with hlt | hle
  · obtain ⟨hlast, hgiven⟩ := lastGiven_eq hright hlt hb hmore
    rw [hlast, hgiven]
    exact hlong
  · have hlast : u.posM ≤ u.lastBite := by
      rw [lastBite]
      omega
    have hgiven : 0 ≤ u.lastGiven := by
      rw [lastGiven]
      split
      · by_contra hneg
        exact hfails ⟨0, failsAfter_zero (Int.not_le.mp hneg)⟩
      · exact le_refl _
    rw [crossing, if_neg (by omega)] at hlong
    omega

/-- No bite brings an end. -/
theorem Endless.step {amount : Int} (h : Endless u amount) (hint : amount < 2 ^ 31) :
    amount ≠ 0 ∧ ∀ n bytes u', u.read (bite amount) = .returned (n, bytes, u') →
      0 ≤ n ∧ Endless u' (amount - n) := by
  have hmore := h.more
  have havail : u.right ≤ u.available ∧ 0 ≤ u.available := by
    rw [available]
    omega
  refine ⟨by omega, ?_⟩
  intro n bytes u' hcall
  obtain ⟨b, hb⟩ : ∃ b : Nat, (min amount 4096).toNat = b := ⟨_, rfl⟩
  have hn := bite_eq (show 0 < amount by omega) hint
  rw [hb] at hn
  obtain ⟨n', bytes', v, hread, hbite⟩ := read_bite h.ready (show 0 < b by omega) hn
  rw [hread] at hcall
  cases hcall
  cases hbite with
  | failed _ hfails => exact absurd ⟨0, hfails⟩ h.fails
  | stale _ _ htype hright hlong _ =>
      exact absurd (overruns_of_stale (by omega) hmore h.fails htype hright hlong) h.overruns
  | inside hin hinside =>
      have hwhole : b = 4096 := by omega
      subst hwhole
      have havail' := hinside.available hin
      refine ⟨by omega, .inl hinside.sound, by omega, ?_, ?_⟩
      · rintro ⟨k, hk⟩
        exact h.fails ⟨k, (hinside.failsAfter_iff k).mp hk⟩
      · intro hover
        have hright := hover.2.1
        have hpos := hinside.pos
        have heof := hinside.eof
        have hlt : (4096 : Int) < u.right := by
          change 0 < u'.endM - u'.posM at hright
          change 4096 < u.endM - u.posM
          omega
        exact h.overruns ((hinside.overruns_iff hlt).mp hover)
  | beyond hlt hk hbeyond =>
      have havail' := hbeyond.available hlt hk
      have hright := hbeyond.right
      exact ⟨by omega, hbeyond.ready, by omega, fun hf => h.fails (hbeyond.fails hf),
        fun hover => absurd hover.2.1 (by omega)⟩

/-! ## Negative counts -/

/-- A negative count fails in a buffer file. -/
theorem read_negative_file (h : Sound u) (htype : u.buffertypeM = .file) (hright : 0 < u.right)
    {nbyte : Nat} {amount : Int} (hn : toCInt nbyte = amount) (h0 : amount < 0) :
    ∃ n bytes u', u.read nbyte = .returned (n, bytes, u') ∧ n < 0 := by
  have hactive : ¬ u.bufferActiveM = false := by simp [h.active]
  have hsub : u.right = u.endM - u.posM := rfl
  rw [read, hn]
  simp only [if_neg hactive, if_pos (show u.posM < u.endM by omega),
    if_neg (show ¬ amount ≥ u.right by omega), takeBuffered, if_pos htype, readBuffd,
    if_pos h0, Outcome.returned_bind]
  split
  next => exact ⟨_, _, _, rfl, by omega⟩
  next =>
    obtain ⟨u', hfix, -⟩ :=
      (u.countBuffered amount).fixBuffer_zero_returned amount []
    rw [readMore, if_neg (by omega), hfix]
    exact ⟨_, _, _, rfl, h0⟩

/-- A negative count is no count for a copy from the block. -/
theorem read_negative_mem (h : Sound u) (htype : u.buffertypeM ≠ .file) (hright : 0 < u.right)
    {nbyte : Nat} {amount : Int} (hn : toCInt nbyte = amount) (h0 : amount < 0) :
    u.read nbyte = .fault := by
  have hactive : ¬ u.bufferActiveM = false := by simp [h.active]
  have hsub : u.right = u.endM - u.posM := rfl
  rw [read, hn]
  simp only [if_neg hactive, if_pos (show u.posM < u.endM by omega),
    if_neg (show ¬ amount ≥ u.right by omega), takeBuffered, if_neg htype, load]
  rw [if_neg (by omega)]
  rfl

/-- A negative count is too large for the underlying descriptor. -/
theorem read_negative_some (h : Sound u) (hright : u.right ≤ 0) (hs : u.uxfdM ≠ none)
    {nbyte : Nat} {amount : Int} (hn : toCInt nbyte = amount) (h0 : amount < 0) :
    u.read nbyte = .returned (-1, [], u) := by
  have hactive : ¬ u.bufferActiveM = false := by simp [h.active]
  have hsub : u.right = u.endM - u.posM := rfl
  obtain ⟨s, hs⟩ := Option.ne_none_iff_exists'.mp hs
  rw [read, hn]
  simp only [if_neg hactive, if_neg (show ¬ u.posM < u.endM by omega), virRead, hs, if_pos h0]
  rfl

/-- Nothing is left, and nothing is going to come. -/
structure Idle (u : BufferedUxfio) : Prop where
  active : u.bufferActiveM = true
  fd : u.uxfdM = none
  right : u.right ≤ 0

/-- Without an underlying descriptor a negative count gives nothing. -/
theorem Idle.read (h : Idle u) (nbyte : Nat) :
    ∃ u', u.read nbyte = .returned (0, [], u') ∧ u'.uxfdM = none ∧ u'.right ≤ 0 ∧
      u'.bufferActiveM = !u.autoDisableM ∧ u'.autoDisableM = false := by
  have hactive : ¬ u.bufferActiveM = false := by simp [h.active]
  have hsub : u.right = u.endM - u.posM := rfl
  have hright := h.right
  obtain ⟨v, hfix, hfd, hact, hauto, hrightv⟩ : ∃ v, (u.count 0).fixBuffer 0 [] 0 = .returned v ∧
      v.uxfdM = none ∧ v.bufferActiveM = true ∧ v.autoDisableM = u.autoDisableM ∧ v.right ≤ 0 := by
    obtain ⟨v, hfix, halike, heof, hpos⟩ := (u.count 0).fixBuffer_zero_returned 0 []
    refine ⟨v, hfix, halike.fd.trans h.fd, halike.active.trans h.active, halike.auto, ?_⟩
    have heof' : v.endM = u.endM := heof
    have hpos' : v.posM = u.posM := hpos.elim id fun heq => heq.trans (Int.add_zero _)
    change v.endM - v.posM ≤ 0
    omega
  have hvir : u.virRead (toCInt nbyte) = (0, [], u) := by rw [virRead, h.fd]
  have hread : u.read nbyte = .returned (0, [],
      if v.autoDisableM then { v with autoDisableM := false }.setBufactiveOff else v) := by
    rw [BufferedUxfio.read]
    simp only [if_neg hactive, if_neg (show ¬ u.posM < u.endM by omega), hvir, lt_irrefl, if_false,
      hfix, Outcome.returned_bind, Outcome.pure_eq]
  refine ⟨_, hread, ?_⟩
  cases hau : u.autoDisableM with
  | false =>
      rw [hau] at hauto
      rw [if_neg (by simp [hauto])]
      exact ⟨hfd, hrightv, hact, hauto⟩
  | true =>
      rw [hau] at hauto
      rw [if_pos hauto, setBufactiveOff_of_right hrightv]
      exact ⟨hfd, hrightv, rfl, rfl⟩

theorem bite_negative {amount : Int} (hint : -2 ^ 31 ≤ amount) (h0 : amount < 0) :
    toCInt (bite amount : Nat) = amount := by
  rw [toCInt_bite_amount hint, if_neg (by omega)]

/-- The bites of a negative amount. -/
theorem readBytes_negative_iff (h : Sound u) {amount : Int} (hint : -2 ^ 31 ≤ amount)
    (h0 : amount < 0) :
    (∃ fuel r, readBytes fuel u amount 0 = .returned r) ↔
      if 0 < u.right then u.buffertypeM = .file else u.uxfdM ≠ none ∨ u.autoDisableM = true := by
  have hn := bite_negative hint h0
  have hone : ∀ {n bytes u'}, u.read (bite amount) = .returned (n, bytes, u') → n < 0 →
      ∃ fuel r, readBytes fuel u amount 0 = .returned r := by
    intro n bytes u' hread hneg
    rw [bite] at hread
    refine ⟨1, (-1, u'), ?_⟩
    rw [readBytes, if_neg (by omega)]
    simp only [hread, Outcome.returned_bind, if_pos hneg]
    rfl
  split
  next hright =>
    constructor
    · rintro ⟨fuel, r, hcall⟩
      by_contra htype
      have hfault := read_negative_mem h htype hright hn h0
      rw [bite] at hfault
      cases fuel with
      | zero => cases hcall
      | succ fuel =>
          rw [readBytes, if_neg (by omega)] at hcall
          simp only [hfault] at hcall
          cases hcall
    · intro htype
      obtain ⟨n, bytes, u', hread, hneg⟩ := read_negative_file h htype hright hn h0
      exact hone hread hneg
  next hright =>
    constructor
    · rintro ⟨fuel, r, hcall⟩
      by_contra hnot
      rw [not_or, not_not] at hnot
      have hidle : Idle u := ⟨h.active, hnot.1, by omega⟩
      refine not_readBytes_returned (Q := fun v a => a = amount ∧ Idle v ∧ v.autoDisableM = false)
        ?_ ⟨rfl, hidle, Bool.eq_false_iff.mpr hnot.2⟩ fuel 0 r hcall
      rintro v a ⟨rfl, hv, hauto⟩
      refine ⟨by omega, ?_⟩
      intro n bytes v' hread
      obtain ⟨w, hread', hfd, hrightw, hact, hauto'⟩ := hv.read (bite a)
      rw [hread'] at hread
      cases hread
      rw [hauto] at hact
      exact ⟨le_refl 0, by omega, ⟨hact, hfd, hrightw⟩, hauto'⟩
    · intro hor
      cases hs : u.uxfdM with
      | some s =>
          exact hone (read_negative_some h (by omega) (by simp [hs]) hn h0) (by omega)
      | none =>
          -- the first read puts the buffer out of use, and the second one fails
          have hauto : u.autoDisableM = true := hor.resolve_left (by simp [hs])
          obtain ⟨v, hread, hfd, hrightv, hact, hauto'⟩ :=
            Idle.read ⟨h.active, hs, by omega⟩ (bite amount)
          have hoff : v.bufferActiveM = false := by
            rw [hact, hauto]
            rfl
          have hfail : v.read (bite amount) = .returned (-1, [], v) := by
            rw [read, if_pos hoff, hfd]
            rfl
          rw [bite] at hread hfail
          refine ⟨2, (-1, v), ?_⟩
          rw [readBytes, if_neg (by omega)]
          simp only [hread, Outcome.returned_bind, lt_irrefl, if_false, Int.sub_zero, Int.add_zero]
          rw [readBytes, if_neg (by omega)]
          simp only [hfail, Outcome.returned_bind]
          rfl

/-- The bites end exactly when `Ends` says so. -/
theorem readBytes_returns_iff (h : Sound u) {amount : Int} (hlow : -2 ^ 31 ≤ amount)
    (hhigh : amount < 2 ^ 31) :
    (∃ fuel r, readBytes fuel u amount 0 = .returned r) ↔ u.Ends amount := by
  rw [Ends]
  split
  next hneg => exact readBytes_negative_iff h hlow hneg
  next hpos =>
    constructor
    · rintro ⟨fuel, r, hcall⟩
      by_contra hends
      rw [not_or, not_or] at hends
      refine not_readBytes_returned (Q := fun v a => Endless v a ∧ a < 2 ^ 31) ?_
        ⟨⟨.inl h, by omega, hends.2.1, hends.2.2⟩, hhigh⟩ fuel 0 r hcall
      rintro v a ⟨hendless, hint⟩
      obtain ⟨hne, hstep⟩ := hendless.step hint
      refine ⟨hne, ?_⟩
      intro n bytes v' hread
      obtain ⟨hn, hendless'⟩ := hstep n bytes v' hread
      exact ⟨hn, hendless', by omega⟩
    · intro hends
      have hending : ∃ m, Ending m u amount := by
        by_cases henough : amount ≤ u.available
        · exact ⟨_, .enough (.inl h) henough⟩
        · rcases hends with hle | ⟨k, hfails⟩ | hover
          · exact absurd hle henough
          · exact ⟨_, .fails (.inl h) hfails⟩
          · exact ⟨_, .overruns (.inl h) (by omega) hover⟩
      obtain ⟨m, hm⟩ := hending
      obtain ⟨r, hcall⟩ := readBytes_returns (P := fun m v a => Ending m v a ∧ a < 2 ^ 31)
        (by
          rintro m v a ⟨hending, hint⟩ ha
          obtain ⟨n, bytes, v', hread, hres⟩ := hending.step ha hint
          refine ⟨n, bytes, v', hread, ?_⟩
          rcases hres with hneg | ⟨hle, m', hm', hending'⟩
          · exact .inl hneg
          · rcases Int.lt_or_le n 0 with hneg | hn
            · exact .inl hneg
            · exact .inr ⟨hle, m', hm', hending', by omega⟩)
        ⟨hm, hhigh⟩ (by omega) (m + 1) (by omega) 0
      exact ⟨m + 1, r, hcall⟩

/-! ## What has been read of the stream -/

theorem fixBufferFile_fd (u : BufferedUxfio) (total : Int) (p : Bytes) (new : Int) :
    (u.fixBufferFile total p new).uxfdM = u.uxfdM := by
  rw [fixBufferFile]
  split
  · rfl
  · split
    · simp only
      split
      · rfl
      · rfl
    · rfl

theorem fixDynamic_fd {total new : Int} {p : Bytes} (h : u.fixDynamic total p new = .returned u') :
    u'.uxfdM = u.uxfdM := by
  obtain ⟨v, -, hv⟩ := Outcome.bind_eq_returned.mp h
  cases hv
  rfl

theorem fixBufferMem_fd {total new : Int} {p : Bytes}
    (h : u.fixBufferMem total p new = .returned u') : u'.uxfdM = u.uxfdM := by
  rw [fixBufferMem] at h
  split at h
  next =>
    split at h
    next =>
      split at h
      next => exact fixDynamic_fd h
      next =>
        obtain ⟨kept, -, h⟩ := Outcome.bind_eq_returned.mp h
        obtain ⟨bufM, -, h⟩ := Outcome.bind_eq_returned.mp h
        cases h
        rfl
    next =>
      split at h
      next =>
        split at h
        next => exact fixDynamic_fd h
        next =>
          obtain ⟨kept, -, h⟩ := Outcome.bind_eq_returned.mp h
          obtain ⟨mem, -, h⟩ := Outcome.bind_eq_returned.mp h
          obtain ⟨bufM, -, h⟩ := Outcome.bind_eq_returned.mp h
          cases h
          rfl
      next =>
        split at h
        next =>
          obtain ⟨bufM, -, h⟩ := Outcome.bind_eq_returned.mp h
          cases h
          rfl
        next =>
          cases h
          rfl
  next =>
    cases h
    rfl

/-- The buffer is fixed without the underlying descriptor. -/
theorem fixBuffer_fd {total new : Int} {p : Bytes} (h : u.fixBuffer total p new = .returned u') :
    u'.uxfdM = u.uxfdM := by
  rw [fixBuffer] at h
  split at h
  next =>
    cases h
    exact fixBufferFile_fd u total p new
  next => exact fixBufferMem_fd h

theorem rest_congr (h : u'.uxfdM = u.uxfdM) : u'.rest = u.rest := by
  rw [rest, rest, h]

theorem suffix_of_rest_eq (h : u'.rest = u.rest) : u'.rest <:+ u.rest :=
  h ▸ List.suffix_refl _

/-- A read of the underlying descriptor leaves an end of the stream. -/
theorem virRead_suffix (u : BufferedUxfio) (n : Int) : (u.virRead n).2.2.rest <:+ u.rest := by
  rcases lt_or_ge n 0 with hneg | hpos
  · obtain ⟨base, type, active, auto, buffd, fd⟩ := u
    cases fd with
    | none => exact List.suffix_refl _
    | some s =>
        simp only [virRead, if_pos hneg]
        exact List.suffix_refl _
  · obtain ⟨k, rfl⟩ := Int.eq_ofNat_of_zero_le hpos
    rw [virRead_eq, rest_afterVirRead]
    exact List.drop_suffix _ _

theorem takeBuffered_fd {c n : Int} {bytes : Bytes}
    (h : u.takeBuffered c = .returned (n, bytes, u')) : u'.uxfdM = u.uxfdM := by
  rw [takeBuffered] at h
  split at h
  next =>
    have heq := Outcome.returned.inj h
    rw [readBuffd] at heq
    split at heq
    next => cases heq; rfl
    next => cases heq; rfl
  next =>
    obtain ⟨bs, -, h⟩ := Outcome.bind_eq_returned.mp h
    cases h
    rfl

theorem readMore_suffix {bytes bytes' : Bytes} {c b n : Int}
    (h : u.readMore bytes c b = .returned (n, bytes', u')) : u'.rest <:+ u.rest := by
  rw [readMore] at h
  split at h
  next =>
    have hvir := u.virRead_suffix (b - c)
    obtain ⟨k, more, w⟩ := u.virRead (b - c)
    simp only at h hvir
    split at h
    next =>
      cases h
      exact hvir
    next =>
      obtain ⟨v, hfix, h⟩ := Outcome.bind_eq_returned.mp h
      cases h
      rw [rest_congr (fixBuffer_fd hfix)]
      exact hvir
  next =>
    obtain ⟨v, hfix, h⟩ := Outcome.bind_eq_returned.mp h
    cases h
    exact suffix_of_rest_eq (rest_congr (fixBuffer_fd hfix))

theorem rest_setBufactiveOff (u : BufferedUxfio) : u.setBufactiveOff.rest = u.rest := by
  rw [setBufactiveOff]
  split
  next => rfl
  next => rfl

/-- A read leaves an end of the stream. -/
theorem read_suffix {nbyte : Nat} {n : Int} {bytes : Bytes}
    (h : u.read nbyte = .returned (n, bytes, u')) : u'.rest <:+ u.rest := by
  obtain ⟨amount, hn⟩ : ∃ amount, toCInt nbyte = amount := ⟨_, rfl⟩
  rw [read, hn] at h
  have hvir := u.virRead_suffix amount
  split at h
  next =>
    split at h
    next =>
      cases h
      exact List.suffix_refl _
    next =>
      obtain ⟨k, more, w⟩ := u.virRead amount
      simp only at h hvir
      split at h
      next =>
        cases h
        exact hvir
      next =>
        cases h
        exact hvir
  next =>
    split at h
    next =>
      simp only at h
      generalize (if amount ≥ u.right then u.right else amount) = c at h
      obtain ⟨⟨k, taken, w⟩, htake, h⟩ := Outcome.bind_eq_returned.mp h
      have hfd := rest_congr (takeBuffered_fd htake)
      simp only at h
      split at h
      next =>
        cases h
        exact suffix_of_rest_eq hfd
      next =>
        have hmore := readMore_suffix h
        change u'.rest <:+ w.rest at hmore
        rwa [hfd] at hmore
    next =>
      obtain ⟨k, more, w⟩ := u.virRead amount
      simp only at h hvir
      split at h
      next =>
        cases h
        exact hvir
      next =>
        obtain ⟨v, hfix, h⟩ := Outcome.bind_eq_returned.mp h
        have hfd := rest_congr (fixBuffer_fd hfix)
        have hu := (Prod.mk.inj (Prod.mk.inj (Outcome.returned.inj h)).2).2
        have hsame : u'.rest = v.rest := by
          rw [← hu]
          split
          next => exact rest_setBufactiveOff _
          next => rfl
        rw [hsame, hfd]
        exact hvir

theorem readBytes_suffix {fuel : Nat} {amount haveread n : Int}
    (h : readBytes fuel u amount haveread = .returned (n, u')) : u'.rest <:+ u.rest := by
  induction fuel generalizing u amount haveread with
  | zero => cases h
  | succ fuel ih =>
      rw [readBytes] at h
      split at h
      next =>
        cases h
        exact List.suffix_refl _
      next =>
        obtain ⟨⟨k, bytes, w⟩, hread, h⟩ := Outcome.bind_eq_returned.mp h
        have hsuffix := read_suffix hread
        simp only at h
        split at h
        next =>
          cases h
          exact hsuffix
        next => exact (ih h).trans hsuffix

/-! ## The seek -/

/-- How a seek ends: at the position, or with an error. -/
theorem settle_spec (u : BufferedUxfio) (offset : Int) :
    ((u.settle offset).1 = (u.settle offset).2.posM ∨ (u.settle offset).1 < 0) ∧
      (u.settle offset).2.rest = u.rest := by
  rw [settle]
  split
  next =>
    have hseek : (u.seekBuffd offset).2.posM = u.posM ∧ (u.seekBuffd offset).2.rest = u.rest := by
      rw [seekBuffd]
      split
      next => exact ⟨rfl, rfl⟩
      next => exact ⟨rfl, rfl⟩
    generalize u.seekBuffd offset = r at hseek
    obtain ⟨there, w⟩ := r
    obtain ⟨hpos, hrest⟩ := hseek
    refine ⟨?_, hrest⟩
    simp only
    split
    next => exact .inr (by omega)
    next => exact .inl rfl
  next => exact ⟨.inl rfl, rfl⟩

theorem rest_move (u : BufferedUxfio) (offset : Int) : (u.move offset).rest = u.rest := rfl

/-- A seek forward that does not stay within the buffer reads. -/
theorem lseek_forward {poffset : Int} {whence : Whence} {offset : Int}
    (hoff : u.seekOffset poffset whence = offset) (hforward : 0 < offset) (fuel : Nat) :
    u.lseek fuel poffset whence =
      if offset ≤ u.right then .returned ((u.move offset).settle offset)
      else (do
        let (n, u) ← readBytes fuel u (toCInt offset) 0
        let u := if n ≠ offset then u.move n else u
        pure (u.settle 0)) := by
  rw [lseek, hoff, if_neg (by omega)]
  by_cases hle : offset ≤ u.right
  · rw [if_pos ⟨hforward, hle⟩, if_pos hle]
    rfl
  · rw [if_neg (by omega), if_pos (by omega), if_neg hle]

/-- The bites of a seek that returns end. -/
theorem Returns.ends (h : Sound u) {poffset : Int} {whence : Whence}
    (hforward : 0 < u.seekOffset poffset whence) (hr : u.Returns poffset whence) :
    u.seekOffset poffset whence ≤ u.right ∨ u.Ends (toCInt (u.seekOffset poffset whence)) := by
  obtain ⟨fuel, ret, u', hseek, -⟩ := hr
  rw [lseek_forward rfl hforward] at hseek
  split at hseek
  next hle => exact .inl hle
  next hgt =>
    obtain ⟨r, hread, -⟩ := Outcome.bind_eq_returned.mp hseek
    exact .inr ((readBytes_returns_iff h (neg_le_toCInt _) (toCInt_lt _)).mp ⟨fuel, r, hread⟩)

/-- A seek forward returns, with the position it has reached or an error, exactly
when it stays within the buffer or its bites end. -/
theorem returns_iff (h : Sound u) {poffset : Int} {whence : Whence}
    (hforward : 0 < u.seekOffset poffset whence) :
    u.Returns poffset whence ↔
      u.seekOffset poffset whence ≤ u.right ∨ u.Ends (toCInt (u.seekOffset poffset whence)) := by
  refine ⟨Returns.ends h hforward, ?_⟩
  have hcall := lseek_forward (rfl : u.seekOffset poffset whence = _) hforward
  generalize u.seekOffset poffset whence = offset at hforward hcall ⊢
  intro hends
  by_cases hle : offset ≤ u.right
  · obtain ⟨hret, hrest⟩ := (u.move offset).settle_spec offset
    exact ⟨0, _, _, by rw [hcall, if_pos hle], hret, suffix_of_rest_eq (hrest.trans (rest_move u _))⟩
  · obtain ⟨fuel, ⟨n, w⟩, hread⟩ := (readBytes_returns_iff h (neg_le_toCInt _)
      (toCInt_lt _)).mpr (hends.resolve_left hle)
    obtain ⟨hret, hrest⟩ := (if n ≠ offset then w.move n else w).settle_spec 0
    refine ⟨fuel, _, _, by rw [hcall, if_neg hle, hread]; rfl, hret, ?_⟩
    have hsame : (if n ≠ offset then w.move n else w).rest = w.rest := by
      split
      next => rfl
      next => rfl
    rw [hrest, hsame]
    exact readBytes_suffix hread

end BufferedUxfio

/-! ## A stream that ends -/

/-- A descriptor with a memory buffer over a stream, as it is opened. -/
def openBuffered (stream : Option Source) : BufferedUxfio where
  toUxfio := Uxfio.openMemfd (CField.zero _)
  buffertypeM := .mem
  bufferActiveM := true
  autoDisableM := false
  buffdM := PosixFile.empty
  uxfdM := stream

theorem openBuffered_sound (stream : Option Source) : (openBuffered stream).Sound where
  active := rfl
  pos_nonneg := le_refl 0
  pos_le_end := fun _ => le_refl 0
  formed := fun _ => (openMemfd_represents (CField.zero _)).formed
  offset := nofun
  content := nofun

/-- A stream of one byte, of which each read gives one. -/
def oneByte : Source := .opened ⟨fun _ => 1, fun _ => by decide⟩ [65]

/-- A seek to the end of the stream returns. -/
theorem oneByte_returns : (openBuffered (some oneByte)).Returns 1 .seekSet :=
  (BufferedUxfio.returns_iff (openBuffered_sound _) (by decide)).mpr (.inr (.inl (by decide)))

/-- A seek to behind the end of the stream does not. -/
theorem oneByte_endless :
    ¬ ∀ u : BufferedUxfio, u.Sound → ∀ (poffset : Int) (whence : Whence),
      0 < u.seekOffset poffset whence → u.Returns poffset whence := by
  intro hall
  have hr := hall _ (openBuffered_sound (some oneByte)) 2 .seekSet (by decide)
  rcases hr.ends (openBuffered_sound _) (by decide) with hle | hle | ⟨k, hk⟩ | hover
  · revert hle
    decide
  · revert hle
    decide
  · revert hk
    change ¬ ((1 : Int) < 0)
    decide
  · cases hover.1

end Swbis.Io
