import Swbis.Misc.FpRead
import Swbis.Misc.Strob

/-!
# Pumping bytes from one descriptor to others

`swlib_i_pipe_pump` reads bytes in pieces of 512, all of them or a requested
amount, and copies each piece to a discharge descriptor, to an adjunct
descriptor and to memory, where these are given.  The value stored for the
amount is the number of bytes moved.

Its two loops treat errors differently.  The loop for all of the bytes adds the
result of a read that fails to the amount.  The loop for an amount writes to the
adjunct descriptor only if there is a discharge descriptor, and then keeps only
the result of the adjunct write, so a short write to the discharge descriptor
goes unnoticed.  And `taru_tape_buffered_read` ends a pump of a plain descriptor before
the end if what is left does not fill a read.  `pumpRight_iff` says when the amount and
the copies are right.
-/

namespace Swbis.Misc

open CLib

/-- The variables of `swlib_i_pipe_pump`, and the descriptors.  A descriptor that
is not given is `none`. -/
structure Pump where
  suction : Source
  discharge : Option Sink
  adjunct : Option Sink
  obuf : Option Strob
  byteswritten : Int
  remains : Int
  commandFailed : Int
  pumpDead : Bool

/-- How `swlib_i_pipe_pump` ends. -/
structure PumpEnd where
  /-- The value returned. -/
  ret : Int
  /-- The value stored in `*amount`. -/
  amount : Int
  suction : Source
  discharge : Option Sink
  adjunct : Option Sink
  obuf : Option Strob

/-! ## The rounds -/

/-- `strob_memcpy_at`, if there is an object. -/
def copyTo (obuf : Option Strob) (offset : Int) (buf : Bytes) : Outcome (Option Strob) :=
  match obuf with
  | none => .returned none
  | some strb => strobMemcpyAt strb offset buf >>= fun strb => .returned (some strb)

namespace Pump

/-- The write to the discharge descriptor when everything is moved. -/
def drainDischarge (s : Pump) (buf : Bytes) : Pump :=
  match s.discharge with
  | none => s
  | some fd =>
      if (fd.write buf).1 ≠ buf.length then
        { s with discharge := some (fd.write buf).2, commandFailed := 2, pumpDead := true }
      else { s with discharge := some (fd.write buf).2 }

/-- The write to the adjunct descriptor when everything is moved. -/
def drainAdjunct (s : Pump) (buf : Bytes) : Pump :=
  match s.adjunct with
  | none => s
  | some fd =>
      if (fd.write buf).1 ≠ buf.length then
        { s with adjunct := some (fd.write buf).2, commandFailed := 3, pumpDead := true }
      else { s with adjunct := some (fd.write buf).2 }

/-- The writes when an amount is moved, and `ibytes`. -/
def boundedWrites (s : Pump) (buf : Bytes) : Int × Pump :=
  match s.discharge with
  | none => (buf.length, s)
  | some fd =>
      let s := { s with discharge := some (fd.write buf).2 }
      match s.adjunct with
      | none => ((fd.write buf).1, s)
      | some ad => ((ad.write buf).1, { s with adjunct := some (ad.write buf).2 })

section

variable (thisfpread : FpRead)

/-- A round of the loop that moves everything. -/
def drainRound (s : Pump) : Outcome Pump :=
  let (bytes, buf, suction) := thisfpread.read s.suction swlibPipeBuf
  let s := { s with suction }
  if bytes < 0 then
    .returned { s with
      commandFailed := 1, pumpDead := true, byteswritten := s.byteswritten + bytes }
  else if bytes = 0 then .returned { s with pumpDead := true }
  else
    let s := (s.drainDischarge buf).drainAdjunct buf
    copyTo s.obuf s.byteswritten buf >>= fun obuf =>
      .returned { s with obuf, byteswritten := s.byteswritten + bytes }

/-- `remains` after bytes were moved. -/
def nextRemains (amount byteswritten remains : Int) : Int :=
  if amount - byteswritten < remains then
    if (swlibPipeBuf : Int) < amount - byteswritten then swlibPipeBuf else amount - byteswritten
  else remains

/-- A round of the loop that moves an amount. -/
def boundedRound (amount : Int) (s : Pump) : Outcome Pump :=
  let (bytes, buf, suction) := thisfpread.read s.suction s.remains.toNat
  let s := { s with suction }
  if bytes < 0 then .returned { s with commandFailed := 1, pumpDead := true }
  else if bytes = 0 then .returned { s with pumpDead := true }
  else
    let (ibytes, s) := s.boundedWrites buf
    copyTo s.obuf s.byteswritten buf >>= fun obuf =>
      let s := { s with obuf }
      if ibytes ≠ bytes then .returned { s with commandFailed := 2, pumpDead := true }
      else
        .returned { s with
          byteswritten := s.byteswritten + bytes
          remains := nextRemains amount (s.byteswritten + bytes) s.remains }

/-- The loop that moves everything. -/
def drain : Nat → Pump → Outcome Pump
  | 0, _ => .outOfFuel
  | fuel + 1, s =>
      s.drainRound thisfpread >>= fun s => if s.pumpDead then .returned s else drain fuel s

/-- The loop that moves an amount. -/
def transfer (amount : Int) : Nat → Pump → Outcome Pump
  | 0, _ => .outOfFuel
  | fuel + 1, s =>
      s.boundedRound thisfpread amount >>= fun s =>
        if s.pumpDead ∨ s.remains = 0 then .returned s else transfer amount fuel s

end

/-- The end of `swlib_i_pipe_pump`. -/
def finish (s : Pump) : Outcome PumpEnd :=
  match s.obuf with
  | none =>
      .returned ⟨s.commandFailed, s.byteswritten, s.suction, s.discharge, s.adjunct, none⟩
  | some strb =>
      strobAppendHiddenNull strb >>= fun strb =>
        .returned ⟨s.commandFailed, s.byteswritten, s.suction, s.discharge, s.adjunct, some strb⟩

end Pump

/-- `strob_strcpy (obuf, "")`, if there is an object. -/
def emptyObuf : Option Strob → Outcome (Option Strob)
  | none => .returned none
  | some strb => strobStrcpyEmpty strb >>= fun strb => .returned (some strb)

/-- `swlib_i_pipe_pump`.  Each round but the last moves a byte at least. -/
def swlibIPipePump (suction : Source) (discharge : Option Sink) (amount : Int)
    (adjunct : Option Sink) (obuf : Option Strob) (thisfpread : FpRead) : Outcome PumpEnd :=
  emptyObuf obuf >>= fun obuf =>
    if amount < 0 then
      Pump.drain thisfpread (suction.rest.length + 1)
        ⟨suction, discharge, adjunct, obuf, 0, 0, 0, false⟩ >>= Pump.finish
    else
      let remains : Int := if amount < swlibPipeBuf then amount else swlibPipeBuf
      Pump.transfer thisfpread amount (suction.rest.length + 1)
        ⟨suction, discharge, adjunct, obuf, 0, remains, 0, false⟩ >>= Pump.finish

/-- `taru_pump_amount2` of a descriptor of the given kind. -/
def taruPumpAmount2 (kind : Taru.FdKind) (discharge : Option Sink) (suction : Source)
    (amount : Int) (adjunct : Option Sink) : Outcome Int :=
  swlibIPipePump suction discharge amount adjunct none (.taruTapeBufferedRead kind) >>= fun e =>
    .returned (if e.ret ≠ 0 then -1 else e.amount)

/-- `taru_read_amount`. -/
def taruReadAmount (kind : Taru.FdKind) (suction : Source) (amount : Int) : Outcome Int :=
  taruPumpAmount2 kind none suction amount none

/-! ## The copy in memory -/

/-- Copy the pieces one after another. -/
def copyAll (obuf : Option Strob) (offset : Int) : List Bytes → Outcome (Option Strob)
  | [] => .returned obuf
  | c :: cs => copyTo obuf offset c >>= fun obuf => copyAll obuf (offset + c.length) cs

theorem copyAll_none (offset : Int) (cs : List Bytes) : copyAll none offset cs = .returned none := by
  induction cs generalizing offset with
  | nil => rfl
  | cons c cs ih => exact ih (offset + c.length)

/-- The pieces are appended while their number allows it. -/
theorem copyAll_holds {strb : Strob} {bs : Bytes} (h : strb.Holds bs) {cs : List Bytes}
    (hne : ∀ c ∈ cs, c ≠ []) (hmax : bs.length + cs.flatten.length < 2 ^ 31 - 1) :
    ∃ strb', copyAll (some strb) bs.length cs = .returned (some strb') ∧
      strb'.Holds (bs ++ cs.flatten) := by
  induction cs generalizing strb bs with
  | nil => exact ⟨strb, rfl, by rwa [List.flatten_nil, List.append_nil]⟩
  | cons c cs ih =>
      rw [List.flatten_cons, List.length_append] at hmax
      obtain ⟨strb', hcopy, hholds⟩ := h.memcpyAt (hne c List.mem_cons_self) (by omega)
      obtain ⟨strb'', hall, hholds'⟩ := ih hholds (fun c h => hne c (List.mem_cons_of_mem _ h))
        (by rw [List.length_append]; omega)
      rw [List.length_append, Int.natCast_add] at hall
      rw [List.append_assoc, ← List.flatten_cons] at hholds'
      refine ⟨strb'', ?_, hholds'⟩
      rw [copyAll, copyTo, hcopy, Outcome.returned_bind, Outcome.returned_bind, hall]

theorem copyAll_fault {strb : Strob} {bs : Bytes} (h : strb.Holds bs) {cs : List Bytes}
    (hne : ∀ c ∈ cs, c ≠ []) (hsize : ∀ c ∈ cs, c.length ≤ swlibPipeBuf)
    (hbs : bs.length < 2 ^ 31 - 1) (hmax : 2 ^ 31 - 1 ≤ bs.length + cs.flatten.length) :
    copyAll (some strb) bs.length cs = .fault := by
  induction cs generalizing strb bs with
  | nil =>
      rw [List.flatten_nil, List.length_nil] at hmax
      omega
  | cons c cs ih =>
      have hc := hsize c List.mem_cons_self
      rw [swlibPipeBuf] at hc
      rw [List.flatten_cons, List.length_append] at hmax
      rw [copyAll, copyTo]
      rcases Nat.lt_or_ge (bs.length + c.length) (2 ^ 31 - 1) with hfits | hover
      · obtain ⟨strb', hcopy, hholds⟩ := h.memcpyAt (hne c List.mem_cons_self) hfits
        have hrest := ih hholds (fun c h => hne c (List.mem_cons_of_mem _ h))
          (fun c h => hsize c (List.mem_cons_of_mem _ h)) (by rw [List.length_append]; exact hfits)
          (by rw [List.length_append]; omega)
        rw [List.length_append, Int.natCast_add] at hrest
        rw [hcopy, Outcome.returned_bind, Outcome.returned_bind, hrest]
      · rw [Strob.memcpyAt_fault (by omega) (by omega) hover, Outcome.fault_bind, Outcome.fault_bind]

/-- The end with the copy of the pieces: it returns if their number allows the
hidden NUL. -/
theorem finish_copyAll {obuf : Option Strob} (hobuf : ∀ strb, obuf = some strb → strb.Holds [])
    (cs : List Bytes) (hne : ∀ c ∈ cs, c ≠ []) (hsize : ∀ c ∈ cs, c.length ≤ swlibPipeBuf)
    (e : Pump) :
    ((obuf.isSome → cs.flatten.length ≤ strobMax) ∧
      ∃ obuf', ((copyAll obuf 0 cs >>= fun obuf => .returned { e with obuf }) >>= Pump.finish) =
          .returned ⟨e.commandFailed, e.byteswritten, e.suction, e.discharge, e.adjunct, obuf'⟩ ∧
        ∀ strb, obuf' = some strb → strb.Holds (cs.flatten ++ [0])) ∨
    (¬(obuf.isSome → cs.flatten.length ≤ strobMax) ∧
      ((copyAll obuf 0 cs >>= fun obuf => .returned { e with obuf }) >>= Pump.finish) = .fault) := by
  cases obuf with
  | none =>
      refine .inl ⟨nofun, none, ?_, nofun⟩
      rw [copyAll_none]
      rfl
  | some strb =>
      have hholds := hobuf strb rfl
      have hmax : strobMax = 2 ^ 31 - 3 := rfl
      rcases Nat.lt_or_ge cs.flatten.length (2 ^ 31 - 1) with hlt | hge
      · obtain ⟨strb', hcopy, hholds'⟩ := copyAll_holds hholds hne
          (by rw [List.length_nil, Nat.zero_add]; exact hlt)
        rw [List.nil_append] at hholds'
        have hcopied : copyAll (some strb) 0 cs = .returned (some strb') := hcopy
        rw [hcopied, Outcome.returned_bind, Outcome.returned_bind, Pump.finish]
        rcases Nat.lt_or_ge strobMax cs.flatten.length with hlong | hfits
        · refine .inr ⟨fun h => absurd (h rfl) (Nat.not_le.mpr hlong), ?_⟩
          change (strobAppendHiddenNull strb' >>= _) = _
          rw [hholds'.appendHiddenNull_fault hlong, Outcome.fault_bind]
        · obtain ⟨strb'', hnull, hholds''⟩ := hholds'.appendHiddenNull hfits
          refine .inl ⟨fun _ => hfits, some strb'', ?_, fun s h => ?_⟩
          · change (strobAppendHiddenNull strb' >>= _) = _
            rw [hnull, Outcome.returned_bind]
          · cases h
            exact hholds''
      · have hfault : copyAll (some strb) 0 cs = .fault :=
          copyAll_fault hholds hne hsize (by rw [List.length_nil]; omega)
            (by rw [List.length_nil, Nat.zero_add]; exact hge)
        refine .inr ⟨fun h => ?_, by rw [hfault, Outcome.fault_bind, Outcome.fault_bind]⟩
        have hle := h rfl
        omega

/-! ## The loop that moves everything -/

/-- A write to a descriptor that may not be given is short. -/
def ShortOn (w : Option WritePattern) (k : Nat) (c : Bytes) : Prop :=
  match w with
  | none => False
  | some w => w.Short k c

instance (w : Option WritePattern) (k : Nat) (c : Bytes) : Decidable (ShortOn w k c) :=
  match w with
  | none => inferInstanceAs (Decidable False)
  | some w => inferInstanceAs (Decidable (w.Short k c))

/-- The loop that moves everything ends at a short write to either descriptor. -/
def drainShort (discharge adjunct : Option WritePattern) (k : Nat) (c : Bytes) : Prop :=
  ShortOn discharge k c ∨ ShortOn adjunct k c

instance (discharge adjunct : Option WritePattern) (k : Nat) (c : Bytes) :
    Decidable (drainShort discharge adjunct k c) :=
  inferInstanceAs (Decidable (_ ∨ _))

namespace Pump

/-- The loop is running, and the descriptors were written `k` times. -/
structure Running (k : Nat) (s : Pump) : Prop where
  commandFailed : s.commandFailed = 0
  pumpDead : s.pumpDead = false
  failed : s.suction.failed = false
  discharge : ∀ fd, s.discharge = some fd → fd.writes = k
  adjunct : ∀ fd, s.adjunct = some fd → fd.writes = k

/-- The write pattern of the discharge descriptor. -/
def dischargePattern (s : Pump) : Option WritePattern := s.discharge.map (·.pattern)

/-- The write pattern of the adjunct descriptor. -/
def adjunctPattern (s : Pump) : Option WritePattern := s.adjunct.map (·.pattern)

variable {s : Pump} {f : FpRead} {k : Nat}

theorem drainDischarge_full {buf : Bytes}
    (hk : ∀ fd, s.discharge = some fd → fd.writes = k) (hfull : ¬ShortOn s.dischargePattern k buf) :
    s.drainDischarge buf = { s with discharge := s.discharge.map fun fd => (fd.write buf).2 } := by
  obtain ⟨suction, discharge, adjunct, obuf, byteswritten, remains, commandFailed, pumpDead⟩ := s
  cases discharge with
  | none => rfl
  | some fd =>
      rw [← hk fd rfl] at hfull
      exact if_neg (not_not.mpr ((fd.write_fst_eq_iff buf).mpr hfull))

theorem drainDischarge_short {buf : Bytes}
    (hk : ∀ fd, s.discharge = some fd → fd.writes = k) (hshort : ShortOn s.dischargePattern k buf) :
    s.drainDischarge buf = { s with
      discharge := s.discharge.map fun fd => (fd.write buf).2
      commandFailed := 2
      pumpDead := true } := by
  obtain ⟨suction, discharge, adjunct, obuf, byteswritten, remains, commandFailed, pumpDead⟩ := s
  cases discharge with
  | none => exact absurd hshort id
  | some fd =>
      rw [← hk fd rfl] at hshort
      exact if_pos fun h => (fd.write_fst_eq_iff buf).mp h hshort

theorem drainAdjunct_full {buf : Bytes}
    (hk : ∀ fd, s.adjunct = some fd → fd.writes = k) (hfull : ¬ShortOn s.adjunctPattern k buf) :
    s.drainAdjunct buf = { s with adjunct := s.adjunct.map fun fd => (fd.write buf).2 } := by
  obtain ⟨suction, discharge, adjunct, obuf, byteswritten, remains, commandFailed, pumpDead⟩ := s
  cases adjunct with
  | none => rfl
  | some fd =>
      rw [← hk fd rfl] at hfull
      exact if_neg (not_not.mpr ((fd.write_fst_eq_iff buf).mpr hfull))

theorem drainAdjunct_short {buf : Bytes}
    (hk : ∀ fd, s.adjunct = some fd → fd.writes = k) (hshort : ShortOn s.adjunctPattern k buf) :
    s.drainAdjunct buf = { s with
      adjunct := s.adjunct.map fun fd => (fd.write buf).2
      commandFailed := 3
      pumpDead := true } := by
  obtain ⟨suction, discharge, adjunct, obuf, byteswritten, remains, commandFailed, pumpDead⟩ := s
  cases adjunct with
  | none => exact absurd hshort id
  | some fd =>
      rw [← hk fd rfl] at hshort
      exact if_pos fun h => (fd.write_fst_eq_iff buf).mp h hshort

/-- The writes of a round when both are complete. -/
theorem drainWrites_full {buf : Bytes}
    (hd : ∀ fd, s.discharge = some fd → fd.writes = k)
    (ha : ∀ fd, s.adjunct = some fd → fd.writes = k)
    (hfull : ¬drainShort s.dischargePattern s.adjunctPattern k buf) :
    (s.drainDischarge buf).drainAdjunct buf =
      { s with
        discharge := s.discharge.map fun fd => (fd.write buf).2
        adjunct := s.adjunct.map fun fd => (fd.write buf).2 } := by
  rw [drainShort, not_or] at hfull
  rw [drainDischarge_full hd hfull.1]
  exact drainAdjunct_full (s := { s with discharge := s.discharge.map fun fd => (fd.write buf).2 })
    ha hfull.2

/-- The writes of a round when one of them is short. -/
theorem drainWrites_short {buf : Bytes}
    (hd : ∀ fd, s.discharge = some fd → fd.writes = k)
    (ha : ∀ fd, s.adjunct = some fd → fd.writes = k)
    (hshort : drainShort s.dischargePattern s.adjunctPattern k buf) :
    (s.drainDischarge buf).drainAdjunct buf = { s with
      discharge := s.discharge.map fun fd => (fd.write buf).2
      adjunct := s.adjunct.map fun fd => (fd.write buf).2
      commandFailed := if ShortOn s.adjunctPattern k buf then 3 else 2
      pumpDead := true } := by
  rcases Classical.em (ShortOn s.dischargePattern k buf) with hdis | hdis
  · rw [drainDischarge_short hd hdis]
    have hstep (t : Pump) (ht : t.adjunct = s.adjunct) (hcode : t.commandFailed = 2)
        (hdead : t.pumpDead = true) :
        t.drainAdjunct buf = { t with
          adjunct := s.adjunct.map fun fd => (fd.write buf).2
          commandFailed := if ShortOn s.adjunctPattern k buf then 3 else 2
          pumpDead := true } := by
      have hk : ∀ fd, t.adjunct = some fd → fd.writes = k := by rwa [ht]
      have hpat : t.adjunctPattern = s.adjunctPattern := by rw [adjunctPattern, ht, adjunctPattern]
      rw [← hpat, ← ht]
      split
      · next hadj => exact drainAdjunct_short hk hadj
      · next hadj =>
          rw [drainAdjunct_full hk hadj, ← hcode, ← hdead]
    exact hstep _ rfl rfl rfl
  · have hadj : ShortOn s.adjunctPattern k buf := hshort.resolve_left hdis
    rw [drainDischarge_full hd hdis, if_pos hadj]
    exact drainAdjunct_short (s := { s with discharge := s.discharge.map fun fd => (fd.write buf).2 })
      ha hadj

/-- The result of the next read. -/
def nextRead (f : FpRead) (s : Pump) (size : Nat) : Int := (f.read s.suction size).1

/-- The bytes of the next read. -/
def nextBytes (f : FpRead) (s : Pump) (size : Nat) : Bytes := (f.read s.suction size).2.1

/-- The source after the next read. -/
def nextSuction (f : FpRead) (s : Pump) (size : Nat) : Source := (f.read s.suction size).2.2

/-- A round that moves nothing ends the loop. -/
theorem drainRound_none (h : s.Running k) (hn : nextRead f s swlibPipeBuf ≤ 0) :
    s.drainRound f = .returned { s with
      suction := nextSuction f s swlibPipeBuf
      byteswritten := s.byteswritten + nextRead f s swlibPipeBuf
      commandFailed := if nextRead f s swlibPipeBuf < 0 then 1 else 0
      pumpDead := true } := by
  have hfst : (f.read s.suction swlibPipeBuf).1 = nextRead f s swlibPipeBuf := rfl
  simp only [drainRound]
  rcases lt_or_eq_of_le hn with hneg | hzero
  · rw [hfst, if_pos hneg, if_pos hneg]
    rfl
  · rw [hfst, hzero, if_neg (lt_irrefl 0), if_pos rfl, if_neg (lt_irrefl 0), Int.add_zero,
      ← h.commandFailed]
    rfl

/-- A round that reads bytes writes them and appends them to the buffer. -/
theorem drainRound_pos (hn : 0 < nextRead f s swlibPipeBuf) :
    s.drainRound f =
      let written := ({ s with suction := nextSuction f s swlibPipeBuf }.drainDischarge
        (nextBytes f s swlibPipeBuf)).drainAdjunct (nextBytes f s swlibPipeBuf)
      copyTo written.obuf written.byteswritten (nextBytes f s swlibPipeBuf) >>= fun obuf =>
        .returned { written with
          obuf, byteswritten := written.byteswritten + nextRead f s swlibPipeBuf } := by
  have hfst : (f.read s.suction swlibPipeBuf).1 = nextRead f s swlibPipeBuf := rfl
  have hbuf : (f.read s.suction swlibPipeBuf).2.1 = nextBytes f s swlibPipeBuf := rfl
  have hsuction : (f.read s.suction swlibPipeBuf).2.2 = nextSuction f s swlibPipeBuf := rfl
  simp only [drainRound]
  rw [hfst, hbuf, hsuction, if_neg (not_lt.mpr hn.le), if_neg hn.ne']

/-- A round that moves bytes to every descriptor. -/
theorem drainRound_full (h : s.Running k) (hn : 0 < nextRead f s swlibPipeBuf)
    (hfull : ¬drainShort s.dischargePattern s.adjunctPattern k (nextBytes f s swlibPipeBuf)) :
    s.drainRound f =
      (copyTo s.obuf s.byteswritten (nextBytes f s swlibPipeBuf) >>= fun obuf =>
        .returned { s with
          suction := nextSuction f s swlibPipeBuf
          discharge := s.discharge.map fun fd => (fd.write (nextBytes f s swlibPipeBuf)).2
          adjunct := s.adjunct.map fun fd => (fd.write (nextBytes f s swlibPipeBuf)).2
          obuf
          byteswritten := s.byteswritten + nextRead f s swlibPipeBuf }) := by
  rw [drainRound_pos hn,
    drainWrites_full (s := { s with suction := nextSuction f s swlibPipeBuf }) h.discharge h.adjunct
      hfull]

/-- A round with a short write ends the loop. -/
theorem drainRound_short (h : s.Running k) (hn : 0 < nextRead f s swlibPipeBuf)
    (hshort : drainShort s.dischargePattern s.adjunctPattern k (nextBytes f s swlibPipeBuf)) :
    s.drainRound f =
      (copyTo s.obuf s.byteswritten (nextBytes f s swlibPipeBuf) >>= fun obuf =>
        .returned { s with
          suction := nextSuction f s swlibPipeBuf
          discharge := s.discharge.map fun fd => (fd.write (nextBytes f s swlibPipeBuf)).2
          adjunct := s.adjunct.map fun fd => (fd.write (nextBytes f s swlibPipeBuf)).2
          obuf
          byteswritten := s.byteswritten + nextRead f s swlibPipeBuf
          commandFailed :=
            if ShortOn s.adjunctPattern k (nextBytes f s swlibPipeBuf) then 3 else 2
          pumpDead := true }) := by
  rw [drainRound_pos hn,
    drainWrites_short (s := { s with suction := nextSuction f s swlibPipeBuf }) h.discharge
      h.adjunct hshort]
  rfl

/-- How the loop that moves everything ends if no write is short. -/
structure Drained (s e : Pump) (r : ReadRun) : Prop where
  suction : e.suction = r.suction
  discharge : e.discharge = s.discharge.map (·.writeAll r.pieces)
  adjunct : e.adjunct = s.adjunct.map (·.writeAll r.pieces)
  commandFailed : e.commandFailed = if r.last < 0 then 1 else 0
  /-- The result of the last read is added. -/
  byteswritten : e.byteswritten = s.byteswritten + r.pieces.flatten.length + r.last

/-- How a loop ends at a short write. -/
structure Cut (e : Pump) : Prop where
  failed : e.suction.failed = false
  commandFailed : 1 < e.commandFailed

/-- The state after a round that moves bytes to every descriptor. -/
def afterFull (f : FpRead) (s : Pump) : Pump :=
  { s with
    suction := nextSuction f s swlibPipeBuf
    discharge := s.discharge.map fun fd => (fd.write (nextBytes f s swlibPipeBuf)).2
    adjunct := s.adjunct.map fun fd => (fd.write (nextBytes f s swlibPipeBuf)).2
    byteswritten := s.byteswritten + nextRead f s swlibPipeBuf }

theorem nextBytes_length {size : Nat} (hn : 0 < nextRead f s size) :
    ((nextBytes f s size).length : Int) = nextRead f s size :=
  (FpRead.read_pos hn).1

/-- A read that gives bytes has not failed. -/
theorem nextSuction_failed {size : Nat} (hfine : s.suction.failed = false)
    (hn : 0 < nextRead f s size) : (nextSuction f s size).failed = false := by
  rw [nextSuction, f.failed_read, hfine, Bool.false_or]
  exact decide_eq_false (not_lt.mpr hn.le)

theorem running_afterFull (h : s.Running k) (hn : 0 < nextRead f s swlibPipeBuf) :
    (s.afterFull f).Running (k + 1) where
  commandFailed := h.commandFailed
  pumpDead := h.pumpDead
  failed := nextSuction_failed h.failed hn
  discharge := by
    intro fd hfd
    obtain ⟨fd', hfd', rfl⟩ := Option.map_eq_some_iff.mp hfd
    exact congrArg (· + 1) (h.discharge fd' hfd')
  adjunct := by
    intro fd hfd
    obtain ⟨fd', hfd', rfl⟩ := Option.map_eq_some_iff.mp hfd
    exact congrArg (· + 1) (h.adjunct fd' hfd')

theorem dischargePattern_afterFull : (s.afterFull f).dischargePattern = s.dischargePattern := by
  rw [dischargePattern, dischargePattern, afterFull, Option.map_map]
  rfl

theorem adjunctPattern_afterFull : (s.afterFull f).adjunctPattern = s.adjunctPattern := by
  rw [adjunctPattern, adjunctPattern, afterFull, Option.map_map]
  rfl

/-- A piece and the pieces behind it. -/
theorem Drained.cons {e : Pump} {r : ReadRun} (hn : 0 < nextRead f s swlibPipeBuf)
    (h : (s.afterFull f).Drained e r) : s.Drained e (r.cons (nextBytes f s swlibPipeBuf)) where
  suction := h.suction
  discharge := by
    rw [h.discharge, afterFull, Option.map_map]
    rfl
  adjunct := by
    rw [h.adjunct, afterFull, Option.map_map]
    rfl
  commandFailed := h.commandFailed
  byteswritten := by
    have hlen := nextBytes_length hn
    have hbytes := h.byteswritten
    change e.byteswritten = s.byteswritten + nextRead f s swlibPipeBuf + _ + _ at hbytes
    change e.byteswritten =
      s.byteswritten + (nextBytes f s swlibPipeBuf :: r.pieces).flatten.length + r.last
    rw [List.flatten_cons, List.length_append]
    omega

theorem Running.setObuf (h : s.Running k) (obuf : Option Strob) :
    ({ s with obuf } : Pump).Running k :=
  ⟨h.commandFailed, h.pumpDead, h.failed, h.discharge, h.adjunct⟩

/-- The loop after a round that moves nothing. -/
theorem drain_none (fuel : Nat) (h : s.Running k) (hn : nextRead f s swlibPipeBuf ≤ 0) :
    ∃ e, (∀ obuf, drain f (fuel + 1) { s with obuf } = .returned { e with obuf }) ∧
      s.Drained e ⟨[], nextRead f s swlibPipeBuf, nextSuction f s swlibPipeBuf⟩ := by
  refine ⟨{ s with
      suction := nextSuction f s swlibPipeBuf
      byteswritten := s.byteswritten + nextRead f s swlibPipeBuf
      commandFailed := if nextRead f s swlibPipeBuf < 0 then 1 else 0
      pumpDead := true }, fun obuf => ?_, rfl, ?_, ?_, rfl, ?_⟩
  · rw [drain, drainRound_none (h.setObuf obuf) hn]
    rfl
  · exact (congrFun Option.map_id _).symm
  · exact (congrFun Option.map_id _).symm
  · exact congrArg (· + _) (Int.add_zero _).symm

/-- The loop after a round with a short write. -/
theorem drain_short (fuel : Nat) (h : s.Running k) (hn : 0 < nextRead f s swlibPipeBuf)
    (hshort : drainShort s.dischargePattern s.adjunctPattern k (nextBytes f s swlibPipeBuf)) :
    ∃ e : Pump, (∀ obuf, drain f (fuel + 1) { s with obuf } =
        (copyTo obuf s.byteswritten (nextBytes f s swlibPipeBuf) >>= fun obuf =>
          .returned { e with obuf })) ∧ e.Cut := by
  refine ⟨{ s with
      suction := nextSuction f s swlibPipeBuf
      discharge := s.discharge.map fun fd => (fd.write (nextBytes f s swlibPipeBuf)).2
      adjunct := s.adjunct.map fun fd => (fd.write (nextBytes f s swlibPipeBuf)).2
      byteswritten := s.byteswritten + nextRead f s swlibPipeBuf
      commandFailed :=
        if ShortOn s.adjunctPattern k (nextBytes f s swlibPipeBuf) then 3 else 2
      pumpDead := true }, fun obuf => ?_, nextSuction_failed h.failed hn, ?_⟩
  · rw [drain, drainRound_short (h.setObuf obuf) hn hshort, Outcome.bind_assoc]
    rfl
  · change (1 : Int) < if _ then 3 else 2
    split <;> decide

/-- The loop after a round that moves bytes to every descriptor. -/
theorem drain_full {fuel : Nat} (h : s.Running k) (hn : 0 < nextRead f s swlibPipeBuf)
    (hfull : ¬drainShort s.dischargePattern s.adjunctPattern k (nextBytes f s swlibPipeBuf))
    (obuf : Option Strob) :
    drain f (fuel + 1) { s with obuf } =
      (copyTo obuf s.byteswritten (nextBytes f s swlibPipeBuf) >>= fun obuf =>
        drain f fuel { s.afterFull f with obuf }) := by
  have hrun := (running_afterFull h hn).pumpDead
  rw [drain, drainRound_full (h.setObuf obuf) hn hfull, Outcome.bind_assoc]
  congr 1
  ext obuf'
  rw [Outcome.returned_bind]
  exact if_neg (Bool.eq_false_iff.mp hrun)

/-- The loop that moves everything. -/
theorem drain_eq {fuel : Nat} (hfuel : s.suction.rest.length < fuel) (h : s.Running k) :
    ∃ e, (∀ obuf, drain f fuel { s with obuf } =
        (copyAll obuf s.byteswritten
          (upToShort (drainShort s.dischargePattern s.adjunctPattern) k
            (readRun f none s.suction).pieces) >>= fun obuf => .returned { e with obuf })) ∧
      ((AnyShort (drainShort s.dischargePattern s.adjunctPattern) k
          (readRun f none s.suction).pieces ∧ e.Cut) ∨
        (¬AnyShort (drainShort s.dischargePattern s.adjunctPattern) k
          (readRun f none s.suction).pieces ∧ s.Drained e (readRun f none s.suction))) := by
  induction fuel generalizing s k with
  | zero => exact absurd hfuel (Nat.not_lt_zero _)
  | succ fuel ih =>
      rcases lt_or_ge 0 (nextRead f s swlibPipeBuf) with hn | hn
      · have hreading : readRun f none s.suction =
            (readRun f none (s.afterFull f).suction).cons (nextBytes f s swlibPipeBuf) :=
          readRun_more hn nofun
        rw [hreading, ReadRun.cons, upToShort, AnyShort, ← ReadRun.cons]
        rcases Classical.em (drainShort s.dischargePattern s.adjunctPattern k
          (nextBytes f s swlibPipeBuf)) with hshort | hfull
        · obtain ⟨e, hrun, hcut⟩ := drain_short fuel h hn hshort
          refine ⟨e, fun obuf => ?_, .inl ⟨.inl hshort, hcut⟩⟩
          rw [hrun, if_pos hshort, copyAll, Outcome.bind_assoc]
          rfl
        · have hdec : (s.afterFull f).suction.rest.length < fuel := by
            have hless := FpRead.length_rest_lt hn
            change (f.read s.suction swlibPipeBuf).2.2.rest.length < fuel
            omega
          obtain ⟨e, hrun, hcase⟩ := ih hdec (running_afterFull h hn)
          rw [dischargePattern_afterFull, adjunctPattern_afterFull] at hrun hcase
          refine ⟨e, fun obuf => ?_, ?_⟩
          · rw [drain_full h hn hfull, if_neg hfull, copyAll, Outcome.bind_assoc,
              nextBytes_length hn]
            congr 1
            ext obuf'
            exact hrun obuf'
          · rcases hcase with ⟨hany, hcut⟩ | ⟨hnone, hdrained⟩
            · exact .inl ⟨.inr hany, hcut⟩
            · exact .inr ⟨not_or.mpr ⟨hfull, hnone⟩, hdrained.cons hn⟩
      · obtain ⟨e, hrun, hdrained⟩ := drain_none fuel h hn
        have hreading : readRun f none s.suction =
            ⟨[], nextRead f s swlibPipeBuf, nextSuction f s swlibPipeBuf⟩ := readRun_none hn
        rw [hreading]
        exact ⟨e, hrun, .inr ⟨id, hdrained⟩⟩

end Pump

/-! ## The loop that moves an amount -/

/-- The loop that moves an amount ends at a write that is short, where the last
one counts.  Without a discharge descriptor there is none. -/
def boundedShort (discharge adjunct : Option WritePattern) (k : Nat) (c : Bytes) : Prop :=
  match discharge, adjunct with
  | none, _ => False
  | some w, none => w.Short k c
  | some _, some w => w.Short k c

instance (discharge adjunct : Option WritePattern) (k : Nat) (c : Bytes) :
    Decidable (boundedShort discharge adjunct k c) :=
  match discharge, adjunct with
  | none, _ => inferInstanceAs (Decidable False)
  | some w, none => inferInstanceAs (Decidable (w.Short k c))
  | some _, some w => inferInstanceAs (Decidable (w.Short k c))

namespace Pump

/-- The loop that moves an amount is running, and the descriptors were written `k`
times. -/
structure Moving (amount : Int) (k : Nat) (s : Pump) : Prop where
  commandFailed : s.commandFailed = 0
  pumpDead : s.pumpDead = false
  failed : s.suction.failed = false
  discharge : ∀ fd, s.discharge = some fd → fd.writes = k
  adjunct : s.discharge.isSome → ∀ fd, s.adjunct = some fd → fd.writes = k
  le_amount : s.byteswritten ≤ amount
  remains : s.remains = min (swlibPipeBuf : Int) (amount - s.byteswritten)

/-- The adjunct descriptor after pieces were written, if there is a discharge descriptor. -/
def writtenAdjunct (s : Pump) (cs : List Bytes) : Option Sink :=
  if s.discharge.isSome then s.adjunct.map (·.writeAll cs) else s.adjunct

theorem writtenAdjunct_nil {s : Pump} : s.writtenAdjunct [] = s.adjunct := by
  rw [writtenAdjunct]
  split
  · exact congrFun Option.map_id _
  · rfl

/-- The state after the writes of a round. -/
def afterWrites (s : Pump) (buf : Bytes) : Pump :=
  { s with
    discharge := s.discharge.map fun fd => (fd.write buf).2
    adjunct := s.writtenAdjunct [buf] }

variable {s : Pump} {amount : Int} {f : FpRead} {k : Nat}

theorem boundedWrites_snd (buf : Bytes) : (s.boundedWrites buf).2 = s.afterWrites buf := by
  obtain ⟨suction, discharge, adjunct, obuf, byteswritten, remains, commandFailed, pumpDead⟩ := s
  cases discharge with
  | none => rfl
  | some fd =>
      cases adjunct with
      | none => rfl
      | some ad => rfl

theorem boundedWrites_fst (buf : Bytes) (hd : ∀ fd, s.discharge = some fd → fd.writes = k)
    (ha : s.discharge.isSome → ∀ fd, s.adjunct = some fd → fd.writes = k) :
    (s.boundedWrites buf).1 = buf.length ↔
      ¬boundedShort s.dischargePattern s.adjunctPattern k buf := by
  obtain ⟨suction, discharge, adjunct, obuf, byteswritten, remains, commandFailed, pumpDead⟩ := s
  cases discharge with
  | none => exact iff_of_true rfl id
  | some fd =>
      cases adjunct with
      | none =>
          rw [← hd fd rfl]
          exact fd.write_fst_eq_iff buf
      | some ad =>
          rw [← ha rfl ad rfl]
          exact ad.write_fst_eq_iff buf

/-- The size of the next read. -/
def askFor (s : Pump) : Nat := s.remains.toNat

/-- The bytes that are still wanted. -/
def wanted (amount : Int) (s : Pump) : Option Nat := some (amount - s.byteswritten).toNat

theorem Moving.askSize_eq (h : s.Moving amount k) : askSize (wanted amount s) = s.askFor := by
  have hrem := h.remains
  have hamount := h.le_amount
  change min swlibPipeBuf (amount - s.byteswritten).toNat = s.remains.toNat
  omega

/-- A round that moves nothing ends the loop. -/
theorem boundedRound_none (h : s.Moving amount k) (hn : nextRead f s s.askFor ≤ 0) :
    s.boundedRound f amount = .returned { s with
      suction := nextSuction f s s.askFor
      commandFailed := if nextRead f s s.askFor < 0 then 1 else 0
      pumpDead := true } := by
  have hfst : (f.read s.suction s.remains.toNat).1 = nextRead f s s.askFor := rfl
  simp only [boundedRound]
  rcases lt_or_eq_of_le hn with hneg | hzero
  · rw [hfst, if_pos hneg, if_pos hneg]
    rfl
  · rw [hfst, hzero, if_neg (lt_irrefl 0), if_pos rfl, if_neg (lt_irrefl 0), ← h.commandFailed]
    rfl

/-- The state after a round with a short write that counts. -/
def afterCut (f : FpRead) (s : Pump) : Pump :=
  { s.afterWrites (nextBytes f s s.askFor) with
    suction := nextSuction f s s.askFor
    commandFailed := 2
    pumpDead := true }

/-- The state after a round that moves bytes. -/
def afterMove (f : FpRead) (amount : Int) (s : Pump) : Pump :=
  { s.afterWrites (nextBytes f s s.askFor) with
    suction := nextSuction f s s.askFor
    byteswritten := s.byteswritten + nextRead f s s.askFor
    remains := nextRemains amount (s.byteswritten + nextRead f s s.askFor) s.remains }

/-- The writes of a round count as complete. -/
theorem boundedWrites_next (h : s.Moving amount k) (hn : 0 < nextRead f s s.askFor) :
    ({ s with suction := nextSuction f s s.askFor }.boundedWrites (nextBytes f s s.askFor)).1 =
        nextRead f s s.askFor ↔
      ¬boundedShort s.dischargePattern s.adjunctPattern k (nextBytes f s s.askFor) := by
  rw [← nextBytes_length hn]
  exact boundedWrites_fst (s := { s with suction := nextSuction f s s.askFor })
    (nextBytes f s s.askFor) h.discharge h.adjunct

/-- A round that reads bytes moves them, or ends the loop at a short write that
counts. -/
theorem boundedRound_pos (hn : 0 < nextRead f s s.askFor) :
    s.boundedRound f amount =
      (copyTo s.obuf s.byteswritten (nextBytes f s s.askFor) >>= fun obuf =>
        if ({ s with suction := nextSuction f s s.askFor }.boundedWrites
            (nextBytes f s s.askFor)).1 ≠ nextRead f s s.askFor then
          .returned { s.afterCut f with obuf }
        else .returned { s.afterMove f amount with obuf }) := by
  have hfst : (f.read s.suction s.remains.toNat).1 = nextRead f s s.askFor := rfl
  have hbuf : (f.read s.suction s.remains.toNat).2.1 = nextBytes f s s.askFor := rfl
  have hsuction : (f.read s.suction s.remains.toNat).2.2 = nextSuction f s s.askFor := rfl
  simp only [boundedRound]
  rw [hfst, hbuf, hsuction, if_neg (not_lt.mpr hn.le), if_neg hn.ne', boundedWrites_snd]
  rfl

/-- A round with a short write that counts ends the loop. -/
theorem boundedRound_short (h : s.Moving amount k) (hn : 0 < nextRead f s s.askFor)
    (hshort : boundedShort s.dischargePattern s.adjunctPattern k (nextBytes f s s.askFor)) :
    s.boundedRound f amount =
      (copyTo s.obuf s.byteswritten (nextBytes f s s.askFor) >>= fun obuf =>
        .returned { s.afterCut f with obuf }) := by
  rw [boundedRound_pos hn]
  simp only [if_pos fun heq => (boundedWrites_next h hn).mp heq hshort]

/-- A round that moves bytes. -/
theorem boundedRound_full (h : s.Moving amount k) (hn : 0 < nextRead f s s.askFor)
    (hfull : ¬boundedShort s.dischargePattern s.adjunctPattern k (nextBytes f s s.askFor)) :
    s.boundedRound f amount =
      (copyTo s.obuf s.byteswritten (nextBytes f s s.askFor) >>= fun obuf =>
        .returned { s.afterMove f amount with obuf }) := by
  rw [boundedRound_pos hn]
  simp only [if_neg (not_not.mpr ((boundedWrites_next h hn).mpr hfull))]

/-- How the loop that moves an amount ends if no write that counts is short. -/
structure Moved (s e : Pump) (r : ReadRun) : Prop where
  suction : e.suction = r.suction
  discharge : e.discharge = s.discharge.map (·.writeAll r.pieces)
  adjunct : e.adjunct = s.writtenAdjunct r.pieces
  commandFailed : e.commandFailed = if r.last < 0 then 1 else 0
  byteswritten : e.byteswritten = s.byteswritten + r.pieces.flatten.length

/-- What is read in a round is no more than what remains. -/
theorem nextRead_le (hn : 0 < nextRead f s s.askFor) : nextRead f s s.askFor ≤ s.askFor := by
  obtain ⟨hlen, -, -, hle, -⟩ := FpRead.read_pos hn
  rw [nextRead]
  omega

theorem moving_afterMove (h : s.Moving amount k) (hn : 0 < nextRead f s s.askFor) :
    (s.afterMove f amount).Moving amount (k + 1) where
  commandFailed := h.commandFailed
  pumpDead := h.pumpDead
  failed := nextSuction_failed h.failed hn
  discharge := by
    intro fd hfd
    obtain ⟨fd', hfd', rfl⟩ := Option.map_eq_some_iff.mp hfd
    exact congrArg (· + 1) (h.discharge fd' hfd')
  adjunct := by
    intro hsome fd hfd
    replace hsome : s.discharge.isSome := (Option.isSome_map).symm.trans hsome
    replace hfd : s.writtenAdjunct [nextBytes f s s.askFor] = some fd := hfd
    rw [writtenAdjunct, if_pos hsome] at hfd
    obtain ⟨fd', hfd', rfl⟩ := Option.map_eq_some_iff.mp hfd
    exact congrArg (· + 1) (h.adjunct hsome fd' hfd')
  le_amount := by
    have hle := nextRead_le hn
    have hrem := h.remains
    have hamount := h.le_amount
    change s.byteswritten + nextRead f s s.askFor ≤ amount
    rw [askFor] at *
    omega
  remains := by
    have hrem := h.remains
    have hamount := h.le_amount
    change nextRemains amount (s.byteswritten + nextRead f s s.askFor) s.remains =
      min (swlibPipeBuf : Int) (amount - (s.byteswritten + nextRead f s s.askFor))
    rw [nextRemains]
    split
    · split
      · omega
      · omega
    · omega

theorem dischargePattern_afterMove :
    (s.afterMove f amount).dischargePattern = s.dischargePattern := by
  rw [dischargePattern, dischargePattern, afterMove, afterWrites, Option.map_map]
  rfl

theorem adjunctPattern_afterMove :
    (s.afterMove f amount).adjunctPattern = s.adjunctPattern := by
  change (s.writtenAdjunct [nextBytes f s s.askFor]).map _ = _
  rw [writtenAdjunct, adjunctPattern]
  split
  · rw [Option.map_map]
    rfl
  · rfl

/-- The bytes that are wanted after a round are fewer by what it moved. -/
theorem wanted_afterMove (h : s.Moving amount k) (hn : 0 < nextRead f s s.askFor) :
    wanted amount (s.afterMove f amount) =
      (wanted amount s).map (· - (nextBytes f s s.askFor).length) := by
  have hlen := nextBytes_length hn
  have hle := (moving_afterMove h hn).le_amount
  change s.byteswritten + nextRead f s s.askFor ≤ amount at hle
  change some (amount - (s.byteswritten + nextRead f s s.askFor)).toNat =
    some ((amount - s.byteswritten).toNat - (nextBytes f s s.askFor).length)
  congr 1
  omega

/-- A round moves the last of the bytes exactly if nothing remains. -/
theorem wanted_eq_iff (h : s.Moving amount k) (hn : 0 < nextRead f s s.askFor) :
    wanted amount s = some (nextBytes f s s.askFor).length ↔
      (s.afterMove f amount).remains = 0 := by
  have hlen := nextBytes_length hn
  have hle := (moving_afterMove h hn).le_amount
  have hrem := (moving_afterMove h hn).remains
  change s.byteswritten + nextRead f s s.askFor ≤ amount at hle
  change (s.afterMove f amount).remains =
    min (swlibPipeBuf : Int) (amount - (s.byteswritten + nextRead f s s.askFor)) at hrem
  rw [wanted, Option.some_inj, hrem, swlibPipeBuf]
  omega

theorem Moving.setObuf (h : s.Moving amount k) (obuf : Option Strob) :
    ({ s with obuf } : Pump).Moving amount k :=
  ⟨h.commandFailed, h.pumpDead, h.failed, h.discharge, h.adjunct, h.le_amount, h.remains⟩

/-- The loop after a round that moves nothing. -/
theorem transfer_none (fuel : Nat) (h : s.Moving amount k) (hn : nextRead f s s.askFor ≤ 0) :
    ∃ e, (∀ obuf, transfer f amount (fuel + 1) { s with obuf } = .returned { e with obuf }) ∧
      s.Moved e ⟨[], nextRead f s s.askFor, nextSuction f s s.askFor⟩ := by
  refine ⟨{ s with
      suction := nextSuction f s s.askFor
      commandFailed := if nextRead f s s.askFor < 0 then 1 else 0
      pumpDead := true }, fun obuf => ?_, rfl, ?_, writtenAdjunct_nil.symm, rfl, ?_⟩
  · rw [transfer, boundedRound_none (h.setObuf obuf) hn, Outcome.returned_bind]
    exact if_pos (.inl rfl)
  · exact (congrFun Option.map_id _).symm
  · exact (Int.add_zero _).symm

theorem cut_afterCut (h : s.Moving amount k) (hn : 0 < nextRead f s s.askFor) :
    (s.afterCut f).Cut where
  failed := nextSuction_failed h.failed hn
  commandFailed := by
    change (1 : Int) < 2
    decide

/-- The loop after a round with a short write that counts. -/
theorem transfer_short {fuel : Nat} (h : s.Moving amount k) (hn : 0 < nextRead f s s.askFor)
    (hshort : boundedShort s.dischargePattern s.adjunctPattern k (nextBytes f s s.askFor))
    (obuf : Option Strob) :
    transfer f amount (fuel + 1) { s with obuf } =
      (copyTo obuf s.byteswritten (nextBytes f s s.askFor) >>= fun obuf =>
        .returned { s.afterCut f with obuf }) := by
  rw [transfer, boundedRound_short (h.setObuf obuf) hn hshort, Outcome.bind_assoc]
  rfl

/-- The loop after a round that moves the last bytes. -/
theorem transfer_last {fuel : Nat} (h : s.Moving amount k) (hn : 0 < nextRead f s s.askFor)
    (hfull : ¬boundedShort s.dischargePattern s.adjunctPattern k (nextBytes f s s.askFor))
    (hlast : (s.afterMove f amount).remains = 0) (obuf : Option Strob) :
    transfer f amount (fuel + 1) { s with obuf } =
      (copyTo obuf s.byteswritten (nextBytes f s s.askFor) >>= fun obuf =>
        .returned { s.afterMove f amount with obuf }) := by
  rw [transfer, boundedRound_full (h.setObuf obuf) hn hfull, Outcome.bind_assoc]
  congr 1
  ext obuf'
  rw [Outcome.returned_bind]
  exact if_pos (.inr hlast)

/-- The loop after a round that moves bytes, but not the last ones. -/
theorem transfer_more {fuel : Nat} (h : s.Moving amount k) (hn : 0 < nextRead f s s.askFor)
    (hfull : ¬boundedShort s.dischargePattern s.adjunctPattern k (nextBytes f s s.askFor))
    (hmore : (s.afterMove f amount).remains ≠ 0) (obuf : Option Strob) :
    transfer f amount (fuel + 1) { s with obuf } =
      (copyTo obuf s.byteswritten (nextBytes f s s.askFor) >>= fun obuf =>
        transfer f amount fuel { s.afterMove f amount with obuf }) := by
  have hrun := (moving_afterMove h hn).pumpDead
  rw [transfer, boundedRound_full (h.setObuf obuf) hn hfull, Outcome.bind_assoc]
  congr 1
  ext obuf'
  rw [Outcome.returned_bind]
  exact if_neg (not_or.mpr ⟨Bool.eq_false_iff.mp hrun, hmore⟩)

/-- A piece and the pieces behind it. -/
theorem Moved.cons {e : Pump} {r : ReadRun} (hn : 0 < nextRead f s s.askFor)
    (hmoved : (s.afterMove f amount).Moved e r) : s.Moved e (r.cons (nextBytes f s s.askFor)) where
  suction := hmoved.suction
  discharge := by
    rw [hmoved.discharge, afterMove, afterWrites, Option.map_map]
    rfl
  adjunct := by
    have hsome : (s.afterMove f amount).discharge.isSome = s.discharge.isSome := Option.isSome_map
    rw [hmoved.adjunct, writtenAdjunct, hsome]
    change (if _ then (s.writtenAdjunct [nextBytes f s s.askFor]).map _
      else s.writtenAdjunct [nextBytes f s s.askFor]) = _
    rw [writtenAdjunct, writtenAdjunct]
    split
    · rw [Option.map_map]
      rfl
    · rfl
  commandFailed := hmoved.commandFailed
  byteswritten := by
    have hlen := nextBytes_length hn
    have hbytes := hmoved.byteswritten
    change e.byteswritten = s.byteswritten + nextRead f s s.askFor + _ at hbytes
    change e.byteswritten =
      s.byteswritten + (nextBytes f s s.askFor :: r.pieces).flatten.length
    rw [List.flatten_cons, List.length_append]
    omega

/-- The last piece. -/
theorem moved_last (h : s.Moving amount k) (hn : 0 < nextRead f s s.askFor) :
    s.Moved (s.afterMove f amount)
      ⟨[nextBytes f s s.askFor], 0, nextSuction f s s.askFor⟩ where
  suction := rfl
  discharge := rfl
  adjunct := rfl
  commandFailed := h.commandFailed
  byteswritten := by
    rw [List.flatten_cons, List.flatten_nil, List.append_nil, nextBytes_length hn]
    rfl

/-- The loop that moves an amount. -/
theorem transfer_eq {fuel : Nat} (hfuel : s.suction.rest.length < fuel) (h : s.Moving amount k) :
    ∃ e, (∀ obuf, transfer f amount fuel { s with obuf } =
        (copyAll obuf s.byteswritten
          (upToShort (boundedShort s.dischargePattern s.adjunctPattern) k
            (readRun f (wanted amount s) s.suction).pieces) >>= fun obuf =>
          .returned { e with obuf })) ∧
      ((AnyShort (boundedShort s.dischargePattern s.adjunctPattern) k
          (readRun f (wanted amount s) s.suction).pieces ∧ e.Cut) ∨
        (¬AnyShort (boundedShort s.dischargePattern s.adjunctPattern) k
          (readRun f (wanted amount s) s.suction).pieces ∧
          s.Moved e (readRun f (wanted amount s) s.suction))) := by
  induction fuel generalizing s k with
  | zero => exact absurd hfuel (Nat.not_lt_zero _)
  | succ fuel ih =>
      have hask : (f.read s.suction (askSize (wanted amount s))) = f.read s.suction s.askFor := by
        rw [h.askSize_eq]
      rcases lt_or_ge 0 (nextRead f s s.askFor) with hn | hn
      · have hpos : 0 < (f.read s.suction (askSize (wanted amount s))).1 := by rwa [hask]
        have hmoving := moving_afterMove h hn
        rcases Classical.em ((s.afterMove f amount).remains = 0) with hlast | hmore
        · have hreading : readRun f (wanted amount s) s.suction =
              ⟨[nextBytes f s s.askFor], 0, nextSuction f s s.askFor⟩ := by
            have hall := (wanted_eq_iff h hn).mpr hlast
            rw [readRun_last hpos (by rwa [hask]), hask]
            rfl
          rw [hreading, upToShort, AnyShort]
          rcases Classical.em (boundedShort s.dischargePattern s.adjunctPattern k
            (nextBytes f s s.askFor)) with hshort | hfull
          · refine ⟨s.afterCut f, fun obuf => ?_, .inl ⟨.inl hshort, cut_afterCut h hn⟩⟩
            rw [transfer_short h hn hshort, if_pos hshort, copyAll, Outcome.bind_assoc]
            rfl
          · refine ⟨s.afterMove f amount, fun obuf => ?_,
              .inr ⟨not_or.mpr ⟨hfull, id⟩, moved_last h hn⟩⟩
            rw [transfer_last h hn hfull hlast, if_neg hfull, upToShort, copyAll,
              Outcome.bind_assoc]
            rfl
        · have hreading : readRun f (wanted amount s) s.suction =
              (readRun f (wanted amount (s.afterMove f amount))
                (s.afterMove f amount).suction).cons (nextBytes f s s.askFor) := by
            have hless := fun hall => hmore ((wanted_eq_iff h hn).mp hall)
            rw [readRun_more hpos (by rwa [hask]), hask, wanted_afterMove h hn]
            rfl
          rw [hreading, ReadRun.cons, upToShort, AnyShort, ← ReadRun.cons]
          rcases Classical.em (boundedShort s.dischargePattern s.adjunctPattern k
            (nextBytes f s s.askFor)) with hshort | hfull
          · refine ⟨s.afterCut f, fun obuf => ?_, .inl ⟨.inl hshort, cut_afterCut h hn⟩⟩
            rw [transfer_short h hn hshort, if_pos hshort, copyAll, Outcome.bind_assoc]
            rfl
          · have hdec : (s.afterMove f amount).suction.rest.length < fuel := by
              have hless := FpRead.length_rest_lt hn
              change (f.read s.suction s.askFor).2.2.rest.length < fuel
              omega
            obtain ⟨e, hrun, hcase⟩ := ih hdec hmoving
            rw [dischargePattern_afterMove, adjunctPattern_afterMove] at hrun hcase
            refine ⟨e, fun obuf => ?_, ?_⟩
            · rw [transfer_more h hn hfull hmore, if_neg hfull, copyAll, Outcome.bind_assoc,
                nextBytes_length hn]
              congr 1
              ext obuf'
              exact hrun obuf'
            · rcases hcase with ⟨hany, hcut⟩ | ⟨hnone, hmoved⟩
              · exact .inl ⟨.inr hany, hcut⟩
              · exact .inr ⟨not_or.mpr ⟨hfull, hnone⟩, hmoved.cons hn⟩
      · obtain ⟨e, hrun, hmoved⟩ := transfer_none fuel h hn
        have hreading : readRun f (wanted amount s) s.suction =
            ⟨[], nextRead f s s.askFor, nextSuction f s s.askFor⟩ := by
          rw [readRun_none (by rwa [hask]), hask]
          rfl
        rw [hreading]
        exact ⟨e, hrun, .inr ⟨id, hmoved⟩⟩

end Pump

/-! ## What is reported and what is moved -/

/-- A call of `swlib_i_pipe_pump` with descriptors that were just opened. -/
structure PumpCall where
  reads : ReadPattern
  input : Bytes
  amount : Int
  discharge : Option WritePattern
  adjunct : Option WritePattern
  obuf : Option Strob
  thisfpread : FpRead

namespace PumpCall

/-- The call. -/
def run (p : PumpCall) : Outcome PumpEnd :=
  swlibIPipePump (.opened p.reads p.input) (p.discharge.map .opened) p.amount
    (p.adjunct.map .opened) p.obuf p.thisfpread

/-- The bytes that are requested, as far as they are available. -/
def requested (p : PumpCall) : Bytes :=
  if p.amount < 0 then p.input else p.input.take p.amount.toNat

/-- The number of bytes that are wanted, if not everything is. -/
def want (p : PumpCall) : Option Nat := if p.amount < 0 then none else some p.amount.toNat

/-- The reads that are made if no write ends them. -/
def readRun (p : PumpCall) : ReadRun := Misc.readRun p.thisfpread p.want (.opened p.reads p.input)

/-- The pieces that they give. -/
def chunks (p : PumpCall) : List Bytes := p.readRun.pieces

/-- The reads lose no bytes: they keep a short read, or the amount is there, or the
input ends with a full read. -/
def Whole (p : PumpCall) : Prop :=
  p.thisfpread.keeps ∨ (0 ≤ p.amount ∧ p.amount ≤ p.input.length) ∨
    p.input.length % swlibPipeBuf = 0

end PumpCall

/-- The amount is `n`, and what is given received the first `n` bytes.  In memory
the hidden NUL follows them. -/
structure PumpEnd.Moves (e : PumpEnd) (input : Bytes) (n : Nat) : Prop where
  amount : e.amount = n
  discharge : ∀ fd, e.discharge = some fd → fd.out = input.take n
  adjunct : ∀ fd, e.adjunct = some fd → fd.out = input.take n
  obuf : ∀ strb, e.obuf = some strb → strb.Holds (input.take n ++ [0])

/-- The call returns.  If it returns 0 then the amount is the number of the bytes
requested and available, if a read fails then the number of the bytes that the reads
before gave, and what is given received these bytes. -/
def PumpRight (p : PumpCall) : Prop :=
  ∃ e, p.run = .returned e ∧ (e.ret = 0 → e.Moves p.input p.requested.length) ∧
    (e.suction.failed = true → e.Moves p.input p.chunks.flatten.length)

/-- When everything is moved: no read fails and no bytes are lost, unless a write is
short before; and the copy in memory has a length that fits an `int`. -/
def DrainOk (p : PumpCall) : Prop :=
  (p.obuf.isSome →
    (upToShort (drainShort p.discharge p.adjunct) 0 p.chunks).flatten.length ≤ strobMax) ∧
  ((0 ≤ p.readRun.last ∧ p.Whole) ∨ AnyShort (drainShort p.discharge p.adjunct) 0 p.chunks)

/-- The copies of the pieces, if no write that counts is short: with two descriptors
no write to the discharge descriptor is short, and for an adjunct descriptor alone
there is nothing to move. -/
def BoundedCopies (p : PumpCall) : Prop :=
  match p.discharge, p.adjunct with
  | some w, some _ => ¬AnyShort w.Short 0 p.chunks
  | none, some _ => p.chunks = []
  | _, none => True

/-- When an amount is moved: a read fails or no bytes are lost, and the copies are
complete, unless a write that counts is short; and the copy in memory has a length that
fits an `int`. -/
def BoundedOk (p : PumpCall) : Prop :=
  (p.obuf.isSome →
    (upToShort (boundedShort p.discharge p.adjunct) 0 p.chunks).flatten.length ≤ strobMax) ∧
  (((0 ≤ p.readRun.last → p.Whole) ∧ BoundedCopies p) ∨
    AnyShort (boundedShort p.discharge p.adjunct) 0 p.chunks)

/-- When the amount is right. -/
def PumpOk (p : PumpCall) : Prop := if p.amount < 0 then DrainOk p else BoundedOk p

variable {p : PumpCall}

theorem emptyObuf_holds (obuf : Option Strob) :
    ∃ obuf', emptyObuf obuf = .returned obuf' ∧ obuf'.isSome = obuf.isSome ∧
      ∀ strb, obuf' = some strb → strb.Holds [] := by
  cases obuf with
  | none => exact ⟨none, rfl, rfl, nofun⟩
  | some strb =>
      obtain ⟨strb', hempty, hholds⟩ := strb.strcpyEmpty_holds
      refine ⟨some strb', ?_, rfl, fun s h => ?_⟩
      · rw [emptyObuf, hempty, Outcome.returned_bind]
      · cases h
        exact hholds

/-- The call was right or not once it is known how it ends. -/
theorem pumpRight_of_run {e : PumpEnd} (h : p.run = .returned e) :
    PumpRight p ↔ (e.ret = 0 → e.Moves p.input p.requested.length) ∧
      (e.suction.failed = true → e.Moves p.input p.chunks.flatten.length) := by
  constructor
  · rintro ⟨e', he', hright⟩
    rw [h] at he'
    cases he'
    exact hright
  · exact fun hright => ⟨e, h, hright⟩

theorem not_pumpRight_of_fault (h : p.run = .fault) : ¬PumpRight p := by
  rintro ⟨e, he, -⟩
  rw [h] at he
  cases he

/-- A descriptor that was just opened received the pieces exactly when no write
to it is short. -/
theorem delivered_iff {w : Option WritePattern} {cs : List Bytes} (hne : ∀ c ∈ cs, c ≠ []) :
    (∀ fd, (w.map Sink.opened).map (·.writeAll cs) = some fd → fd.out = cs.flatten) ↔
      ¬AnyShort (ShortOn w) 0 cs := by
  cases w with
  | none => exact iff_of_true (fun fd h => by cases h) (not_anyShort_false 0 cs)
  | some w =>
      have hall := (Sink.opened w).writeAll_out_eq_iff hne
      change ((Sink.opened w).writeAll cs).out = [] ++ cs.flatten ↔ ¬AnyShort w.Short 0 cs at hall
      rw [List.nil_append] at hall
      constructor
      · exact fun h => hall.mp (h _ rfl)
      · intro hfull fd hfd
        cases hfd
        exact hall.mpr hfull

theorem pattern_opened (w : Option WritePattern) : (w.map Sink.opened).map (·.pattern) = w := by
  rw [Option.map_map]
  exact congrFun Option.map_id w

theorem opened_writes {w : Option WritePattern} {fd : Sink} (h : w.map Sink.opened = some fd) :
    fd.writes = 0 := by
  obtain ⟨w', -, rfl⟩ := Option.map_eq_some_iff.mp h
  rfl

theorem PumpCall.ne_nil_of_mem_chunks {c : Bytes} (h : c ∈ p.chunks) : c ≠ [] :=
  List.length_pos_iff.mp (length_of_mem_pieces h).1

theorem PumpCall.length_le_of_mem_chunks {c : Bytes} (h : c ∈ p.chunks) : c.length ≤ swlibPipeBuf :=
  (length_of_mem_pieces h).2

/-- The pieces make up a beginning of the input. -/
theorem PumpCall.flatten_chunks (p : PumpCall) :
    p.chunks.flatten = p.input.take p.chunks.flatten.length :=
  flatten_pieces p.thisfpread p.want (.opened p.reads p.input)

/-- If no read fails, the pieces are all that is wanted and there exactly if no bytes
are lost. -/
theorem PumpCall.whole_iff (h : 0 ≤ p.readRun.last) :
    p.chunks.flatten.length = p.requested.length ↔ p.Whole := by
  have hall : p.chunks.flatten = delivered p.thisfpread.keeps swlibPipeBuf p.want p.input :=
    readRun_delivers h
  have hdiv := Nat.div_add_mod p.input.length swlibPipeBuf
  have hmod := Nat.mod_lt p.input.length (show 0 < swlibPipeBuf by decide)
  rw [Nat.mul_comm] at hdiv
  have hwhole : (if p.thisfpread.keeps then p.input
      else p.input.take (p.input.length / swlibPipeBuf * swlibPipeBuf)).length = p.input.length ↔
        p.thisfpread.keeps ∨ p.input.length % swlibPipeBuf = 0 := by
    split
    next hkeeps => exact iff_of_true rfl (.inl hkeeps)
    next hkeeps =>
      rw [List.length_take, or_iff_right hkeeps]
      omega
  rw [hall, PumpCall.want, PumpCall.requested, PumpCall.Whole]
  by_cases hamount : p.amount < 0
  · have hno : ¬(0 ≤ p.amount ∧ p.amount ≤ p.input.length) := by omega
    rw [if_pos hamount, if_pos hamount, or_iff_right hno]
    exact hwhole
  · have hdel : delivered p.thisfpread.keeps swlibPipeBuf (some p.amount.toNat) p.input =
        if p.amount.toNat ≤ p.input.length then p.input.take p.amount.toNat
        else if p.thisfpread.keeps then p.input
          else p.input.take (p.input.length / swlibPipeBuf * swlibPipeBuf) := rfl
    rw [if_neg hamount, if_neg hamount, hdel]
    split
    next hle =>
      refine iff_of_true rfl (.inr (.inl ?_))
      omega
    next hlt =>
      have hno : ¬(0 ≤ p.amount ∧ p.amount ≤ p.input.length) := by omega
      have htake : p.input.take p.amount.toNat = p.input := List.take_of_length_le (by omega)
      rw [or_iff_right hno, htake]
      exact hwhole

/-- A read has failed exactly if the result of the last one is negative. -/
theorem PumpCall.failed_suction (p : PumpCall) :
    p.readRun.suction.failed = decide (p.readRun.last < 0) :=
  (failed_readRun p.thisfpread p.want (.opened p.reads p.input)).trans (Bool.false_or _)

/-- The state in which a loop starts. -/
def PumpCall.start (p : PumpCall) (remains : Int) : Pump :=
  ⟨.opened p.reads p.input, p.discharge.map .opened, p.adjunct.map .opened, none, 0, remains, 0,
    false⟩

theorem PumpCall.dischargePattern_start (remains : Int) :
    (p.start remains).dischargePattern = p.discharge := pattern_opened p.discharge

theorem PumpCall.adjunctPattern_start (remains : Int) :
    (p.start remains).adjunctPattern = p.adjunct := pattern_opened p.adjunct

/-- The call that moves everything. -/
theorem run_of_drain (hamount : p.amount < 0) :
    ∃ obuf e, obuf.isSome = p.obuf.isSome ∧ (∀ strb, obuf = some strb → strb.Holds []) ∧
      p.run = ((copyAll obuf 0 (upToShort (drainShort p.discharge p.adjunct) 0 p.chunks) >>=
        fun obuf => .returned { e with obuf }) >>= Pump.finish) ∧
      ((AnyShort (drainShort p.discharge p.adjunct) 0 p.chunks ∧ e.Cut) ∨
        (¬AnyShort (drainShort p.discharge p.adjunct) 0 p.chunks ∧
          (p.start 0).Drained e p.readRun)) := by
  obtain ⟨obuf, hempty, hsome, hholds⟩ := emptyObuf_holds p.obuf
  have hreading : Misc.readRun p.thisfpread none (p.start 0).suction = p.readRun := by
    rw [PumpCall.readRun, PumpCall.want, if_pos hamount]
    rfl
  obtain ⟨e, hloop, hcase⟩ := Pump.drain_eq (f := p.thisfpread) (s := p.start 0)
    (Nat.lt_succ_self p.input.length)
    ⟨rfl, rfl, rfl, fun fd h => opened_writes h, fun fd h => opened_writes h⟩
  rw [p.dischargePattern_start, p.adjunctPattern_start, hreading] at hloop hcase
  refine ⟨obuf, e, hsome, hholds, ?_, hcase⟩
  have hrun := hloop obuf
  rw [PumpCall.run, swlibIPipePump, hempty, Outcome.returned_bind, if_pos hamount]
  exact congrArg (· >>= Pump.finish) hrun

/-- The call that moves an amount. -/
theorem run_of_transfer (hamount : 0 ≤ p.amount) :
    ∃ obuf e remains, obuf.isSome = p.obuf.isSome ∧ (∀ strb, obuf = some strb → strb.Holds []) ∧
      p.run = ((copyAll obuf 0 (upToShort (boundedShort p.discharge p.adjunct) 0 p.chunks) >>=
        fun obuf => .returned { e with obuf }) >>= Pump.finish) ∧
      ((AnyShort (boundedShort p.discharge p.adjunct) 0 p.chunks ∧ e.Cut) ∨
        (¬AnyShort (boundedShort p.discharge p.adjunct) 0 p.chunks ∧
          (p.start remains).Moved e p.readRun)) := by
  obtain ⟨obuf, hempty, hsome, hholds⟩ := emptyObuf_holds p.obuf
  let remains : Int := if p.amount < swlibPipeBuf then p.amount else swlibPipeBuf
  have hreading : Misc.readRun p.thisfpread (Pump.wanted p.amount (p.start remains))
      (p.start remains).suction = p.readRun := by
    rw [PumpCall.readRun, PumpCall.want, if_neg (not_lt.mpr hamount), Pump.wanted]
    change Misc.readRun _ (some (p.amount - 0).toNat) _ = _
    rw [Int.sub_zero]
    rfl
  have hremains : remains = min (swlibPipeBuf : Int) (p.amount - 0) := by
    change (if p.amount < swlibPipeBuf then p.amount else swlibPipeBuf) = _
    split <;> omega
  obtain ⟨e, hloop, hcase⟩ := Pump.transfer_eq (f := p.thisfpread) (s := p.start remains)
    (Nat.lt_succ_self p.input.length)
    ⟨rfl, rfl, rfl, fun fd h => opened_writes h, fun _ fd h => opened_writes h, hamount, hremains⟩
  rw [p.dischargePattern_start, p.adjunctPattern_start, hreading] at hloop hcase
  refine ⟨obuf, e, remains, hsome, hholds, ?_, hcase⟩
  have hrun := hloop obuf
  rw [PumpCall.run, swlibIPipePump, hempty, Outcome.returned_bind, if_neg (not_lt.mpr hamount)]
  exact congrArg (· >>= Pump.finish) hrun

/-- What is given received the pieces, and they are counted. -/
theorem moves_of_delivered {e : Pump} {obuf : Option Strob}
    (hbytes : e.byteswritten = p.chunks.flatten.length)
    (hdischarge : ∀ fd, e.discharge = some fd → fd.out = p.chunks.flatten)
    (hadjunct : ∀ fd, e.adjunct = some fd → fd.out = p.chunks.flatten)
    (hobuf : ∀ strb, obuf = some strb → strb.Holds (p.chunks.flatten ++ [0])) :
    PumpEnd.Moves ⟨e.commandFailed, e.byteswritten, e.suction, e.discharge, e.adjunct, obuf⟩ p.input
      p.chunks.flatten.length where
  amount := hbytes
  discharge := by rwa [← p.flatten_chunks]
  adjunct := by rwa [← p.flatten_chunks]
  obuf := by rwa [← p.flatten_chunks]

/-- No write to either descriptor is short. -/
theorem not_anyShort_of_drainShort {discharge adjunct : Option WritePattern} {k : Nat}
    {cs : List Bytes} (h : ¬AnyShort (drainShort discharge adjunct) k cs) :
    ¬AnyShort (ShortOn discharge) k cs ∧ ¬AnyShort (ShortOn adjunct) k cs :=
  ⟨fun hany => h (hany.mono fun _ _ => .inl), fun hany => h (hany.mono fun _ _ => .inr)⟩

/-- Everything is moved: when the amount is right. -/
theorem run_drain (hamount : p.amount < 0) : PumpRight p ↔ DrainOk p := by
  obtain ⟨obuf, e, hsome, hholds, hrun, hcase⟩ := run_of_drain hamount
  rw [DrainOk, ← hsome]
  rcases finish_copyAll hholds (upToShort (drainShort p.discharge p.adjunct) 0 p.chunks)
    (fun c h => p.ne_nil_of_mem_chunks (mem_upToShort h))
    (fun c h => p.length_le_of_mem_chunks (mem_upToShort h)) e with
    ⟨hfits, obuf', hend, hobuf⟩ | ⟨hlong, hfault⟩
  · rw [hend] at hrun
    rw [pumpRight_of_run hrun]
    rcases hcase with ⟨hany, hcut⟩ | ⟨hnone, hdrained⟩
    · -- a short write is reported
      have hcode := hcut.commandFailed
      refine iff_of_true ⟨fun hret => ?_, fun hfailed => ?_⟩ ⟨hfits, .inr hany⟩
      · replace hret : e.commandFailed = 0 := hret
        omega
      · replace hfailed : e.suction.failed = true := hfailed
        rw [hcut.failed] at hfailed
        cases hfailed
    · rw [upToShort_of_not_anyShort hnone] at hobuf
      have hfailed : e.suction.failed = decide (p.readRun.last < 0) :=
        (congrArg Source.failed hdrained.suction).trans p.failed_suction
      have hcode := hdrained.commandFailed
      have hbytes : e.byteswritten = 0 + p.chunks.flatten.length + p.readRun.last :=
        hdrained.byteswritten
      rcases lt_or_ge p.readRun.last 0 with hneg | hge
      · -- a read that fails, and its result is added
        refine iff_of_false (fun hright => ?_) fun hok => ?_
        · have hamount : e.byteswritten = p.chunks.flatten.length :=
            (hright.2 (hfailed.trans (decide_eq_true hneg))).amount
          omega
        · exact hok.2.elim (fun h => absurd h.1 (not_le.mpr hneg)) hnone
      · -- nothing more is read
        have hlast : p.readRun.last = 0 := le_antisymm (readRun_last_nonpos _ _ _) hge
        have hdelivered : PumpEnd.Moves
            ⟨e.commandFailed, e.byteswritten, e.suction, e.discharge, e.adjunct, obuf'⟩ p.input
            p.chunks.flatten.length := by
          obtain ⟨hdis, hadj⟩ := not_anyShort_of_drainShort hnone
          refine moves_of_delivered (by omega) ?_ ?_ hobuf
          · rw [hdrained.discharge]
            exact (delivered_iff fun c => p.ne_nil_of_mem_chunks).mpr hdis
          · rw [hdrained.adjunct]
            exact (delivered_iff fun c => p.ne_nil_of_mem_chunks).mpr hadj
        rw [and_iff_right hfits, or_iff_left hnone, and_iff_right hge, ← p.whole_iff hge]
        constructor
        · intro hright
          rw [if_neg (not_lt.mpr hge)] at hcode
          have hamount : e.byteswritten = p.requested.length := (hright.1 hcode).amount
          omega
        · intro hwhole
          refine ⟨fun _ => ?_, fun _ => hdelivered⟩
          rw [← hwhole]
          exact hdelivered
  · rw [hfault] at hrun
    exact iff_of_false (not_pumpRight_of_fault hrun) fun h => hlong h.1

/-- No piece is empty, so there are none if they have no bytes. -/
theorem PumpCall.chunks_eq_nil (h : p.chunks.flatten = []) : p.chunks = [] := by
  cases hc : p.chunks with
  | nil => rfl
  | cons c cs =>
      have hmem : c ∈ p.chunks := by
        rw [hc]
        exact List.mem_cons_self
      exact absurd (List.flatten_eq_nil_iff.mp h c hmem) (p.ne_nil_of_mem_chunks hmem)

/-- What the descriptors received when no write that counts is short. -/
theorem moves_iff_of_moved {e : Pump} {remains : Int} {obuf : Option Strob}
    (hnone : ¬AnyShort (boundedShort p.discharge p.adjunct) 0 p.chunks)
    (hmoved : (p.start remains).Moved e p.readRun)
    (hobuf : ∀ strb, obuf = some strb → strb.Holds (p.chunks.flatten ++ [0])) :
    PumpEnd.Moves ⟨e.commandFailed, e.byteswritten, e.suction, e.discharge, e.adjunct, obuf⟩ p.input
        p.chunks.flatten.length ↔ BoundedCopies p := by
  have hbytes : e.byteswritten = p.chunks.flatten.length :=
    hmoved.byteswritten.trans (Int.zero_add _)
  have hdis : e.discharge = (p.discharge.map Sink.opened).map (·.writeAll p.chunks) :=
    hmoved.discharge
  have hadj : e.adjunct = if (p.discharge.map Sink.opened).isSome then
      (p.adjunct.map Sink.opened).map (·.writeAll p.chunks) else p.adjunct.map Sink.opened :=
    hmoved.adjunct
  have hdelivered := fun w => delivered_iff (w := w) fun c => p.ne_nil_of_mem_chunks
  rw [BoundedCopies]
  cases hd : p.discharge with
  | none =>
      rw [hd] at hdis hadj
      replace hadj : e.adjunct = p.adjunct.map Sink.opened := hadj
      cases ha : p.adjunct with
      | none =>
          rw [ha] at hadj
          refine iff_of_true (moves_of_delivered hbytes ?_ ?_ hobuf) trivial
          · rw [hdis]
            exact fun fd h => by cases h
          · rw [hadj]
            exact fun fd h => by cases h
      | some w' =>
          -- nothing is written to the adjunct descriptor
          rw [ha] at hadj
          constructor
          · intro hmoves
            refine p.chunks_eq_nil ?_
            rw [p.flatten_chunks]
            exact (hmoves.adjunct _ hadj).symm
          · intro hnil
            refine moves_of_delivered hbytes ?_ ?_ hobuf
            · rw [hdis]
              exact fun fd h => by cases h
            · rw [hadj, hnil]
              intro fd hfd
              cases hfd
              rfl
  | some w =>
      rw [hd] at hdis hadj hnone
      replace hadj : e.adjunct = (p.adjunct.map Sink.opened).map (·.writeAll p.chunks) := hadj
      cases ha : p.adjunct with
      | none =>
          rw [ha] at hadj hnone
          refine iff_of_true (moves_of_delivered hbytes ?_ ?_ hobuf) trivial
          · rw [hdis]
            exact (hdelivered (some w)).mpr hnone
          · rw [hadj]
            exact fun fd h => by cases h
      | some w' =>
          rw [ha] at hadj hnone
          constructor
          · intro hmoves
            refine (hdelivered (some w)).mp fun fd hfd => ?_
            rw [p.flatten_chunks]
            exact hmoves.discharge fd (hdis.trans hfd)
          · intro hok
            refine moves_of_delivered hbytes ?_ ?_ hobuf
            · rw [hdis]
              exact (hdelivered (some w)).mpr hok
            · rw [hadj]
              exact (hdelivered (some w')).mpr hnone

/-- An amount is moved: when it is right. -/
theorem run_transfer (hamount : 0 ≤ p.amount) : PumpRight p ↔ BoundedOk p := by
  obtain ⟨obuf, e, remains, hsome, hholds, hrun, hcase⟩ := run_of_transfer hamount
  rw [BoundedOk, ← hsome]
  rcases finish_copyAll hholds (upToShort (boundedShort p.discharge p.adjunct) 0 p.chunks)
    (fun c h => p.ne_nil_of_mem_chunks (mem_upToShort h))
    (fun c h => p.length_le_of_mem_chunks (mem_upToShort h)) e with
    ⟨hfits, obuf', hend, hobuf⟩ | ⟨hlong, hfault⟩
  · rw [hend] at hrun
    rw [pumpRight_of_run hrun]
    rcases hcase with ⟨hany, hcut⟩ | ⟨hnone, hmoved⟩
    · -- a short write is reported
      have hcode := hcut.commandFailed
      refine iff_of_true ⟨fun hret => ?_, fun hfailed => ?_⟩ ⟨hfits, .inr hany⟩
      · replace hret : e.commandFailed = 0 := hret
        omega
      · replace hfailed : e.suction.failed = true := hfailed
        rw [hcut.failed] at hfailed
        cases hfailed
    · rw [upToShort_of_not_anyShort hnone] at hobuf
      have hcopies := moves_iff_of_moved hnone hmoved hobuf
      have hfailed : e.suction.failed = decide (p.readRun.last < 0) :=
        (congrArg Source.failed hmoved.suction).trans p.failed_suction
      have hcode := hmoved.commandFailed
      rw [and_iff_right hfits, or_iff_left hnone, ← hcopies]
      rcases lt_or_ge p.readRun.last 0 with hneg | hge
      · -- a read that fails
        rw [if_pos hneg] at hcode
        constructor
        · intro hright
          exact ⟨fun hge => absurd hge (not_le.mpr hneg),
            hright.2 (hfailed.trans (decide_eq_true hneg))⟩
        · rintro ⟨-, hmoves⟩
          refine ⟨fun hret => ?_, fun _ => hmoves⟩
          replace hret : e.commandFailed = 0 := hret
          omega
      · -- the amount is reached, or nothing more is read
        rw [if_neg (not_lt.mpr hge)] at hcode
        have hbytes : e.byteswritten = 0 + p.chunks.flatten.length := hmoved.byteswritten
        rw [← p.whole_iff hge]
        constructor
        · intro hright
          have hmoves := hright.1 hcode
          have hamount : e.byteswritten = p.requested.length := hmoves.amount
          have hwhole : p.chunks.flatten.length = p.requested.length := by omega
          exact ⟨fun _ => hwhole, by rwa [hwhole]⟩
        · rintro ⟨hwhole, hmoves⟩
          exact ⟨fun _ => by rwa [← hwhole hge], fun _ => hmoves⟩
  · rw [hfault] at hrun
    exact iff_of_false (not_pumpRight_of_fault hrun) fun h => hlong h.1

/-- If no read fails `taru_read_amount` returns the number of the bytes that are
delivered, on a plain descriptor only full reads of 512 bytes if the amount is not
there. -/
theorem taruReadAmount_eq {r : ReadPattern} (hreads : ∀ k, 0 < r.gives k) (kind : Taru.FdKind)
    (input : Bytes) {amount : Int} (hamount : 0 ≤ amount) :
    taruReadAmount kind (.opened r input) amount =
      .returned (delivered (kind = .uxfio) swlibPipeBuf (some amount.toNat) input).length := by
  obtain ⟨obuf, e, remains, hsome, -, hrun, hcase⟩ := run_of_transfer
    (p := ⟨r, input, amount, none, none, none, .taruTapeBufferedRead kind⟩) hamount
  rw [Option.isSome_none, Option.isSome_eq_false_iff, Option.isNone_iff_eq_none] at hsome
  rw [hsome, copyAll_none, Outcome.returned_bind] at hrun
  change swlibIPipePump (.opened r input) none amount none none (.taruTapeBufferedRead kind) = _
    at hrun
  rw [taruReadAmount, taruPumpAmount2, hrun]
  rcases hcase with ⟨hany, -⟩ | ⟨-, hmoved⟩
  · exact absurd hany (not_anyShort_false 0 _)
  · have hfine : 0 ≤ (readRun (.taruTapeBufferedRead kind) (some amount.toNat)
        (.opened r input)).last := readRun_last_nonneg _ _ hreads
    have hwant : (if amount < 0 then none else some amount.toNat) = some amount.toNat :=
      if_neg (not_lt.mpr hamount)
    have hcode := hmoved.commandFailed
    have hbytes := hmoved.byteswritten
    rw [PumpCall.readRun, PumpCall.want, hwant] at hcode hbytes
    rw [if_neg (not_lt.mpr hfine)] at hcode
    rw [readRun_delivers hfine] at hbytes
    change (Outcome.returned (if e.commandFailed ≠ 0 then -1 else e.byteswritten)) = _
    rw [if_neg (not_not.mpr hcode), hbytes]
    exact congrArg Outcome.returned (Int.zero_add _)

/-- On a plain descriptor three bytes are lost if four are wanted. -/
example : taruReadAmount .unix (.opened ⟨fun _ => 2, fun _ => by decide⟩ [97, 98, 99]) 4 =
    .returned 0 :=
  taruReadAmount_eq (fun _ => (by decide : (0 : Int) < 2)) .unix _ (by decide)

/-- The amount that `swlib_i_pipe_pump` reports is right in exactly these cases. -/
theorem pumpRight_iff (p : PumpCall) : PumpRight p ↔ PumpOk p := by
  rw [PumpOk]
  split
  · next h => exact run_drain h
  · next h => exact run_transfer (not_lt.mp h)

/-- Two bytes are read, and the next read fails. -/
def brokenCall : PumpCall where
  reads := ⟨fun k => if k = 0 then 2 else -1, fun k => by split <;> decide⟩
  input := [97, 98]
  amount := -1
  discharge := some ⟨fun _ => 512, fun _ => by decide⟩
  adjunct := none
  obuf := none
  thisfpread := .uxfioRead

theorem chunks_brokenCall : brokenCall.chunks = [[97, 98]] := by
  rw [PumpCall.chunks, PumpCall.readRun, readRun_more (by decide) (by decide),
    readRun_none (by decide)]
  rfl

/-- Both bytes are written, but the amount is 1. -/
theorem not_pumpRight_brokenCall : ¬PumpRight brokenCall := by
  rintro ⟨e, he, -, hfailed⟩
  rw [chunks_brokenCall] at hfailed
  cases he
  exact absurd (hfailed rfl).amount (by decide)

end Swbis.Misc
