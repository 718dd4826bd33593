import Swbis.Taru.BufferSource
import Swbis.Taru.Xattr

/-!
# Attribute slots across headers

One file header is filled by one header read after another, and its attribute
slots are used again.  `taru_exattlist_init` should mark every slot as free, but
compares instead of assigning, and the override step looks at every slot that
holds a POSIX name, in use or not.  So an attribute of an earlier member can
stay in use and can be applied again.

The read buffer is used again too.  A record that is longer than its data blocks
takes the bytes behind them into its value, and an earlier member may have left
them there.

`Overlays old fresh hdr` is the invariant of a read that starts with free slots:
the slots are the ones the same read fills in an empty list, and behind them the
old slots that have not been reached.  `noLeak_of_readRun` is about runs: no
attribute leaks in a run if before every read no slot is in use, no slot that
the read does not reach holds a POSIX name, and no record that is read goes on
behind its data blocks.
-/

namespace Swbis.Taru

open CLib

/-- The slots of a file header. -/
def FileHdr.slots (hdr : FileHdr) : List Exatt := hdr.extattlist.getD []

/-! ## Slots over old slots -/

/-- Putting an attribute into a list over free old slots does what it does to
the list alone. -/
theorem putFree_over {old fresh : List Exatt} (hold : ∀ p ∈ old, p.isInUse = false)
    (new : Exatt) :
    putFree new (fresh ++ old.drop fresh.length) =
      putFree new fresh ++ old.drop (putFree new fresh).length := by
  induction fresh generalizing old with
  | nil =>
      cases old with
      | nil => rfl
      | cons q old =>
          have hq := hold q (by simp)
          simp only [List.length_nil, List.drop_zero, List.nil_append, putFree, hq,
            Bool.false_eq_true, if_false, List.length_singleton, List.drop_succ_cons,
            List.singleton_append]
  | cons p fresh ih =>
      cases hp : p.isInUse with
      | true =>
          have hdrop : ∀ n, old.drop (n + 1) = (old.drop 1).drop n := fun n => by
            rw [List.drop_drop, Nat.add_comm]
          have h := ih (fun q hq => hold q (List.mem_of_mem_drop (i := 1) hq))
          rw [List.cons_append, putFree, putFree, if_pos hp, if_pos hp, List.length_cons,
            List.length_cons, hdrop fresh.length, hdrop (putFree new fresh).length, h,
            List.cons_append]
      | false =>
          simp only [List.cons_append, putFree, hp, Bool.false_eq_true, if_false, List.length_cons]

theorem taruExattlistGetFree_over {old : List Exatt} (hold : ∀ p ∈ old, p.isInUse = false)
    {slots fresh : Option (List Exatt)}
    (hover : slots.getD [] = fresh.getD [] ++ old.drop (fresh.getD []).length) (new : Exatt) :
    (taruExattlistGetFree new slots).getD [] = (taruExattlistGetFree new fresh).getD [] ++
      old.drop ((taruExattlistGetFree new fresh).getD []).length := by
  simp only [taruExattlistGetFree, Option.getD_some, hover]
  exact putFree_over hold new

/-- An attribute that is put into a list is one more in use. -/
theorem length_inUse_putFree {new : Exatt} (hnew : new.isInUse = true) (slots : List Exatt) :
    (inUse (putFree new slots)).length = (inUse slots).length + 1 := by
  induction slots with
  | nil => simp [putFree, inUse_cons, hnew]
  | cons p ps ih =>
      cases hp : p.isInUse with
      | true => simp [putFree, inUse_cons, hp, ih]
      | false => simp [putFree, inUse_cons, hp, hnew]

/-- A rejected attribute takes nothing out of use. -/
theorem length_inUse_putFree_le (new : Exatt) (slots : List Exatt) :
    (inUse slots).length ≤ (inUse (putFree new slots)).length := by
  induction slots with
  | nil => simp
  | cons p ps ih =>
      cases hp : p.isInUse with
      | true =>
          simp only [putFree, inUse_cons, hp, if_true, List.length_cons]
          omega
      | false =>
          simp only [putFree, inUse_cons, hp, Bool.false_eq_true, if_false]
          split
          · simp
          · exact Nat.le_refl _

/-! ## Reading records -/

/-- The number of records that are accepted in a block, from `off` on, and
whether a record behind them is rejected. -/
def acceptedFrom (data : Bytes) (len : Int) : Nat → Nat → Nat × Bool
  | 0, _ => (0, false)
  | fuel + 1, off =>
      if (off : Int) < len then
        match scanExtHeaderRecord (data.drop off) with
        | .error _ => (0, true)
        | .ok s =>
            if KeywordOk (s.attr (data.drop off)) then
              let (accepted, rejected) := acceptedFrom data len fuel (off + s.total)
              (accepted + 1, rejected)
            else (0, true)
      else (0, false)

/-- Two reads of the same records, one over old slots. -/
structure ReadOver (old : List Exatt) (r r₀ : ReadAll) : Prop where
  ret : r.ret = r₀.ret
  slots : r.extattlist.getD [] =
    r₀.extattlist.getD [] ++ old.drop (r₀.extattlist.getD []).length

/-- Reading records does the same over old slots, and as many slots come into
use as records are accepted. -/
theorem readAllFrom_over {old : List Exatt} (hold : ∀ p ∈ old, p.isInUse = false) {data : Bytes}
    {len : Int} {fuel : Nat} {slots fresh : Option (List Exatt)}
    (hover : slots.getD [] = fresh.getD [] ++ old.drop (fresh.getD []).length)
    {taken : List (Nat × Nat)} {off num : Nat} {r : ReadAll}
    (h : readAllFrom data len fuel slots taken off num = .returned r) :
    ∃ r₀, readAllFrom data len fuel fresh taken off num = .returned r₀ ∧ ReadOver old r r₀ ∧
      (inUse (fresh.getD [])).length + (acceptedFrom data len fuel off).1 ≤
        (inUse (r₀.extattlist.getD [])).length ∧
      (r₀.ret < 0 ↔ (acceptedFrom data len fuel off).2 = true ∧
        0 < num + (acceptedFrom data len fuel off).1) := by
  have hends : ∀ n : Nat, (n : Int) < 0 ↔ false = true ∧ 0 < n + 0 := fun n =>
    iff_of_false (Int.not_lt.mpr (Int.natCast_nonneg n)) fun h => Bool.false_ne_true h.1
  have hstops : ∀ n : Nat, -(n : Int) < 0 ↔ true = true ∧ 0 < n + 0 := fun n => by simp
  induction fuel generalizing slots fresh taken off num with
  | zero =>
      cases h
      exact ⟨_, rfl, ⟨rfl, hover⟩, Nat.le_refl _, hends num⟩
  | succ fuel ih =>
      rw [readAllFrom] at h ⊢
      rw [acceptedFrom]
      split at h
      · next hoff =>
          rw [if_pos hoff, if_pos hoff]
          rw [taruReadExtHeaderRecord] at h ⊢
          cases hscan : scanExtHeaderRecord (data.drop off) with
          | error code =>
              rw [hscan] at h
              cases h
              exact ⟨_, rfl, ⟨rfl, hover⟩, Nat.le_refl _, hstops num⟩
          | ok s =>
              rw [hscan] at h
              simp only at h ⊢
              split at h
              · next hkw =>
                  split at h
                  · next hmem =>
                      rw [if_pos hkw, if_pos hkw, if_pos hmem]
                      obtain ⟨r₀, hr₀, hro, hcount, hret⟩ := ih
                        (taruExattlistGetFree_over hold hover (s.exatt (data.drop off))) h
                      refine ⟨r₀, hr₀, hro, ?_, ?_⟩
                      · rw [taruExattlistGetFree, Option.getD_some,
                          length_inUse_putFree (show (s.exatt (data.drop off)).isInUse = true
                            from rfl)] at hcount
                        simp only
                        omega
                      · rw [hret, Nat.add_right_comm, Nat.add_assoc]
                  · cases h
              · next hkw =>
                  cases h
                  rw [if_neg hkw, if_neg hkw]
                  refine ⟨_, rfl, ⟨rfl, taruExattlistGetFree_over hold hover _⟩, ?_, hstops num⟩
                  exact length_inUse_putFree_le (parsedExatt (s.attr (data.drop off))).1
                    (fresh.getD [])
      · next hoff =>
          cases h
          rw [if_neg hoff, if_neg hoff]
          exact ⟨_, rfl, ⟨rfl, hover⟩, Nat.le_refl _, hends num⟩

/-- Whether a call returns. -/
def isReturned {α : Type} (x : Outcome α) : Bool := x.returnedWith fun _ => true

/-- Whether the records leave the data does not depend on the slots. -/
theorem readAllFrom_returned_of_returned {data : Bytes} {len : Int} {fuel : Nat}
    {slots : Option (List Exatt)} {taken : List (Nat × Nat)} {off num : Nat} {r : ReadAll}
    (h : readAllFrom data len fuel slots taken off num = .returned r)
    (slots' : Option (List Exatt)) (taken' : List (Nat × Nat)) (num' : Nat) :
    ∃ r', readAllFrom data len fuel slots' taken' off num' = .returned r' := by
  induction fuel generalizing slots taken off num slots' taken' num' with
  | zero => exact ⟨_, rfl⟩
  | succ fuel ih =>
      rw [readAllFrom] at h ⊢
      split at h
      · next hoff =>
          rw [if_pos hoff]
          rw [taruReadExtHeaderRecord] at h ⊢
          cases hscan : scanExtHeaderRecord (data.drop off) with
          | error code => exact ⟨_, rfl⟩
          | ok s =>
              rw [hscan] at h
              simp only at h ⊢
              split at h
              · next hkw =>
                  rw [if_pos hkw]
                  split at h
                  · next hmem =>
                      rw [if_pos hmem]
                      exact ih h _ _ _
                  · cases h
              · next hkw =>
                  rw [if_neg hkw]
                  exact ⟨_, rfl⟩
      · next hoff =>
          rw [if_neg hoff]
          exact ⟨_, rfl⟩

/-! ## Reading a header -/

/-- The records of an extended header end in its data blocks: they can be read
when nothing stands behind the data. -/
def recordsInside (typeflag : UInt8) (size : UInt64) (data : Bytes) : Bool :=
  let len := size.toUInt32.toInt32.toInt
  typeflag != xhdType || isReturned (readAllFrom data len len.toNat none [] 0 0)

/-- A file header over old slots: what it would be with an empty list, and the
old slots that have not been reached. -/
def Overlays (old : List Exatt) (fresh hdr : FileHdr) : Prop :=
  ∃ extattlist, hdr = { fresh with extattlist := extattlist } ∧
    extattlist.getD [] = fresh.slots ++ old.drop fresh.slots.length

/-- The records that are accepted in an extended header, and whether the header
is rejected.  A record that is rejected as the first one is no error. -/
def extAccepted (typeflag : UInt8) (size : UInt64) (data : Bytes) : Nat × Bool :=
  if typeflag = xhdType then
    let len := size.toUInt32.toInt32.toInt
    let (accepted, rejected) := acceptedFrom data len len.toNat 0
    (accepted, rejected && decide (0 < accepted))
  else (0, false)

/-- The number of records that are accepted in front of the record that is
tested. -/
def recordsBefore : Nat → ReadPos → Nat
  | 0, _ => 0
  | n + 1, pos =>
      match fetch pos with
      | .returned (.ext typeflag size data next) =>
          let (accepted, rejected) := extAccepted typeflag size data
          accepted + if rejected then 0 else recordsBefore n next
      | _ => 0

/-- Within `n` headers the extended headers in front of the record that is tested
end, and their records end in their data blocks. -/
def recordsInsideBefore : Nat → ReadPos → Bool
  | 0, _ => false
  | n + 1, pos =>
      match fetch pos with
      | .returned (.ext typeflag size data next) =>
          recordsInside typeflag size data &&
            ((extAccepted typeflag size data).2 || recordsInsideBefore n next)
      | _ => true

/-- The result of extended header data, and of the same data over old slots. -/
inductive AppliedOver (old : List Exatt) :
    Except (Int × FileHdr) FileHdr → Except (Int × FileHdr) FileHdr → Prop where
  | error (ret : Int) {fresh hdr : FileHdr} (hover : Overlays old fresh hdr) :
      AppliedOver old (.error (ret, hdr)) (.error (ret, fresh))
  | ok {fresh hdr : FileHdr} (hover : Overlays old fresh hdr) :
      AppliedOver old (.ok hdr) (.ok fresh)

/-- The file header in a result. -/
def appliedHdr : Except (Int × FileHdr) FileHdr → FileHdr
  | .error (_, hdr) => hdr
  | .ok hdr => hdr

/-- The data blocks of an extended header hold as many bytes as its size says. -/
theorem le_length_paxDataBlocks {src src' : Source} {size : UInt64} {data : Bytes}
    (h : taruReadPaxDataBlocks src (nBlocksToRead size.toUInt32.toInt32).toNat =
      .returned (some (data, src'))) :
    size.toUInt32.toInt32.toInt ≤ data.length := by
  have hlen : data.length = (nBlocksToRead size.toUInt32.toInt32).toNat * tarRecordSize := by
    cases src with
    | inDes fd =>
        rw [taruReadPaxDataBlocks, Outcome.returned.injEq] at h
        obtain ⟨⟨data', fd'⟩, hblocks, hp⟩ := Option.map_eq_some_iff.mp h
        cases hp
        exact (readDataBlocks_eq_some hblocks).2.1
    | buffer mem fsource len =>
        rw [taruReadPaxDataBlocks] at h
        split at h
        · cases h
          rw [List.length_take_of_le]
          rw [List.length_drop]
          omega
        · cases h
  rw [hlen]
  generalize size.toUInt32.toInt32 = len
  by_cases hpos : 0 ≤ len.toInt
  · simp only [nBlocksToRead, Int.tdiv_eq_ediv_of_nonneg hpos, Int.tmod_eq_emod_of_nonneg hpos,
      tarRecordSize, Nat.cast_ofNat]
    split
    · omega
    · omega
  · omega

/-- Extended header data do the same over old slots, and in another buffer if
the records end in the data. -/
theorem applyExtHeader_over {old : List Exatt} (hold : ∀ p ∈ old, p.isInUse = false)
    {fresh hdr : FileHdr} (h : Overlays old fresh hdr) {typeflag : UInt8}
    (htype : isExtHeaderType typeflag = true) {data : Bytes}
    (hlen : fresh.cFilesize.toUInt32.toInt32.toInt ≤ data.length)
    (hinside : recordsInside typeflag fresh.cFilesize data = true) {rest : Bytes}
    {x : Except (Int × FileHdr) FileHdr}
    (happly : applyExtHeader typeflag data rest hdr = .returned x) (rest₀ : Bytes) :
    ∃ x₀, applyExtHeader typeflag data rest₀ fresh = .returned x₀ ∧ AppliedOver old x x₀ ∧
      (inUse fresh.slots).length + (extAccepted typeflag fresh.cFilesize data).1 ≤
        (inUse (appliedHdr x₀).slots).length ∧
      (x₀.isOk = false ↔ (extAccepted typeflag fresh.cFilesize data).2 = true) := by
  obtain ⟨e, rfl, hslots⟩ := h
  rw [applyExtHeader] at happly ⊢
  rw [extAccepted]
  split at happly
  · next hL =>
      cases happly
      rw [if_pos hL, if_neg (by rw [hL]; decide)]
      exact ⟨_, rfl, .ok ⟨e, rfl, hslots⟩, Nat.le_refl _,
        iff_of_false Bool.noConfusion Bool.noConfusion⟩
  · next hL =>
      split at happly
      · next hK =>
          cases happly
          rw [if_neg hL, if_pos hK, if_neg (by rw [hK]; decide)]
          exact ⟨_, rfl, .ok ⟨e, rfl, hslots⟩, Nat.le_refl _,
            iff_of_false Bool.noConfusion Bool.noConfusion⟩
      · next hK =>
          split at happly
          · cases happly
          · next hg =>
              have hx : typeflag = xhdType := by
                simp only [isExtHeaderType, Bool.or_eq_true, beq_iff_eq] at htype
                simpa [hL, hK, hg] using htype
              rw [if_neg hL, if_neg hK, if_neg hg, if_pos hx]
              obtain ⟨⟨hdr', r⟩, hread, hret⟩ := Outcome.bind_eq_returned.mp happly
              obtain ⟨hr, rfl⟩ := taruReadAllExtHeaderRecords_eq_returned.mp hread
              -- What is read with memory behind the data is what is read without it.
              obtain ⟨_, hnone, -⟩ := Outcome.exists_of_returnedWith
                (show isReturned _ = true by simpa [recordsInside, hx] using hinside)
              obtain ⟨r', hr'⟩ := readAllFrom_returned_of_returned hnone e [] 0
              cases hr.symm.trans (readAllFrom_append_nul hlen hr' rest)
              obtain ⟨r₀, hr₀, hro, hcount, hneg⟩ := readAllFrom_over hold hslots hr'
              rw [Nat.zero_add, ← decide_eq_true_iff (p := 0 < _), ← Bool.and_eq_true] at hneg
              have hread₀ : taruReadAllExtHeaderRecords fresh (data ++ 0 :: rest₀)
                  fresh.cFilesize.toUInt32.toInt32 = .returned (_, r₀) :=
                taruReadAllExtHeaderRecords_eq_returned.mpr
                  ⟨readAllFrom_append_nul hlen hr₀ rest₀, rfl⟩
              rw [hread₀]
              simp only [Outcome.pure_eq, Outcome.returned_bind, Outcome.returned.injEq,
                hro.ret] at hret ⊢
              split at hret
              · next hlt =>
                  cases hret
                  rw [if_pos hlt]
                  exact ⟨_, rfl, .error (-11) ⟨r.extattlist, rfl, hro.slots⟩, hcount,
                    iff_of_true rfl (hneg.mp hlt)⟩
              · next hlt =>
                  cases hret
                  rw [if_neg hlt]
                  exact ⟨_, rfl, .ok ⟨r.extattlist, rfl, hro.slots⟩, hcount,
                    iff_of_false Bool.noConfusion fun h => hlt (hneg.mpr h)⟩

/-- The same answers, and a read buffer of NULs. -/
def SysDb.freshBuffer (db : SysDb) : SysDb :=
  { db with
    readBufferRest := SysDb.blank.readBufferRest
    le_readBufferRest := SysDb.blank.le_readBufferRest }

/-- The last part of the reader does not look at the slots, nor behind the data. -/
theorem readInRecord_over {old : List Exatt} {fresh hdr : FileHdr} (h : Overlays old fresh hdr)
    {db : SysDb} {flags : TarFlags} {fuel : Nat} {mem : Bytes} {next : ReadPos} {r : ReadHeader}
    (hread : readInRecord db flags fuel mem next hdr = .returned r) :
    ∃ fresh', readInRecord db.freshBuffer flags fuel mem next fresh =
        .returned { r with hdr := fresh' } ∧
      Overlays old fresh' r.hdr ∧ fresh'.slots = fresh.slots ∧
      fresh'.extHeaderUsageMask = fresh.extHeaderUsageMask := by
  obtain ⟨e, rfl, hslots⟩ := h
  obtain ⟨⟨result, src⟩, hloop, hread⟩ := Outcome.bind_eq_returned.mp hread
  rw [readInRecord, hloop]
  cases result with
  | error code =>
      cases hread
      exact ⟨_, rfl, ⟨e, rfl, hslots⟩, rfl, rfl⟩
  | ok bytesSkipped =>
      simp only [Outcome.returned_bind] at hread ⊢
      split at hread
      · next hskip =>
          cases hread
          rw [if_pos hskip]
          exact ⟨_, rfl, ⟨e, rfl, hslots⟩, rfl, rfl⟩
      · next hskip =>
          cases hread
          rw [if_neg hskip]
          exact ⟨_, rfl, ⟨e, rfl, hslots⟩, rfl, rfl⟩

/-- Whether an extended header stands at the source. -/
def ExtHeaderAt (pos : ReadPos) : Prop :=
  ∃ typeflag size data next, fetch pos = .returned (.ext typeflag size data next)

/-- Whether an extended header was fetched. -/
def Fetched.isExt : Fetched → Bool
  | .ext .. => true
  | _ => false

theorem extHeaderAt_iff {pos : ReadPos} :
    (fetch pos).returnedWith Fetched.isExt = true ↔ ExtHeaderAt pos := by
  constructor
  · intro h
    obtain ⟨f, hfetch, hext⟩ := Outcome.exists_of_returnedWith h
    cases f with
    | ext typeflag size data next => exact ⟨typeflag, size, data, next, hfetch⟩
    | ends ret src => cases hext
    | trailer ret src => cases hext
    | record mem next => cases hext
  · rintro ⟨typeflag, size, data, next, hfetch⟩
    rw [hfetch]
    rfl

instance (pos : ReadPos) : Decidable (ExtHeaderAt pos) := decidable_of_iff _ extHeaderAt_iff

theorem recordsBefore_of_not_ext {pos : ReadPos} (h : ¬ ExtHeaderAt pos) (m : Nat) :
    recordsBefore m pos = 0 := by
  cases m with
  | zero => rfl
  | succ m =>
      rw [recordsBefore]
      split
      · next typeflag size data next hfetch =>
          exact absurd ⟨typeflag, size, data, next, hfetch⟩ h
      · rfl

theorem recordsBefore_ext {pos next : ReadPos} {typeflag : UInt8} {size : UInt64} {data : Bytes}
    (h : fetch pos = .returned (.ext typeflag size data next)) (m : Nat) :
    recordsBefore m pos ≤ (extAccepted typeflag size data).1 +
      if (extAccepted typeflag size data).2 then 0 else recordsBefore (m - 1) next := by
  cases m with
  | zero => exact Nat.zero_le _
  | succ m =>
      rw [recordsBefore, h]
      exact Nat.le_refl _

/-- A header read does the same over old slots, and every record that is
accepted takes a slot. -/
theorem iTaruReadInTarHeader2_over {old : List Exatt} (hold : ∀ p ∈ old, p.isInUse = false)
    {db : SysDb} {flags : TarFlags} {n : Nat} {pos : ReadPos} {fresh hdr : FileHdr}
    (h : Overlays old fresh hdr) {r : ReadHeader}
    (hread : iTaruReadInTarHeader2 db flags n pos hdr = .returned r) {k : Nat}
    (hinside : recordsInsideBefore k pos = true) (m : Nat) :
    ∃ fresh', iTaruReadInTarHeader2 db.freshBuffer flags n pos fresh =
        .returned { r with hdr := fresh' } ∧
      Overlays old fresh' r.hdr ∧
      (inUse fresh.slots).length + recordsBefore m pos ≤ (inUse fresh'.slots).length := by
  induction n generalizing pos fresh hdr k m with
  | zero => cases hread
  | succ n ih =>
      obtain ⟨f, hfetch, hread⟩ := Outcome.bind_eq_returned.mp hread
      have hnone : (∀ typeflag size data next, f ≠ .ext typeflag size data next) →
          recordsBefore m pos = 0 := by
        intro hne
        refine recordsBefore_of_not_ext ?_ m
        rintro ⟨typeflag, size, data, next, hext⟩
        rw [hfetch] at hext
        exact hne typeflag size data next (Outcome.returned.inj hext)
      rw [iTaruReadInTarHeader2, hfetch]
      cases f with
      | ends ret src =>
          cases hread
          obtain ⟨e, rfl, hslots⟩ := h
          have hzero : recordsBefore m pos = 0 := hnone fun _ _ _ _ h => by cases h
          exact ⟨_, rfl, ⟨e, rfl, hslots⟩, Nat.le_of_eq (congrArg _ hzero)⟩
      | trailer ret src =>
          cases hread
          obtain ⟨e, rfl, hslots⟩ := h
          have hzero : recordsBefore m pos = 0 := hnone fun _ _ _ _ h => by cases h
          exact ⟨_, rfl, ⟨e, rfl, hslots⟩, Nat.le_of_eq (congrArg _ hzero)⟩
      | ext typeflag size data next =>
          obtain ⟨htype, hlen⟩ : isExtHeaderType typeflag = true ∧
              size.toUInt32.toInt32.toInt ≤ data.length := by
            cases fetch_cases hfetch with
            | ext _ _ _ _ _ _ _ htype hdata => exact ⟨htype, le_length_paxDataBlocks hdata⟩
          obtain ⟨k, rfl⟩ : ∃ j, k = j + 1 := by
            cases k with
            | zero => cases hinside
            | succ j => exact ⟨j, rfl⟩
          rw [recordsInsideBefore, hfetch, Bool.and_eq_true, Bool.or_eq_true] at hinside
          obtain ⟨hrecords, hrest⟩ := hinside
          obtain ⟨e, rfl, hslots⟩ := h
          obtain ⟨x, happly, hread⟩ := Outcome.bind_eq_returned.mp hread
          have hover₀ : Overlays old { fresh with cFilesize := size }
              { fresh with cFilesize := size, extattlist := e } := ⟨e, rfl, hslots⟩
          obtain ⟨x₀, happly₀, hover, hcount, herror⟩ :=
            applyExtHeader_over hold hover₀ htype hlen hrecords happly
              (db.freshBuffer.readBufferRest next.readBufferPos)
          have hbefore := recordsBefore_ext hfetch m
          simp only [Outcome.returned_bind, happly₀]
          cases hover with
          | error ret hover =>
              cases hread
              rw [if_pos (herror.mp rfl)] at hbefore
              exact ⟨_, rfl, hover, Nat.le_trans (Nat.add_le_add_left hbefore _) hcount⟩
          | ok hover =>
              have hnext : recordsInsideBefore k next = true :=
                hrest.resolve_left fun hrejected => Bool.false_ne_true (herror.mpr hrejected).symm
              obtain ⟨fresh', hread₀, hover', hcount'⟩ := ih hover hread hnext (m - 1)
              refine ⟨fresh', hread₀, hover', ?_⟩
              refine Nat.le_trans ?_ (Nat.le_trans (Nat.add_le_add_right hcount _) hcount')
              split at hbefore
              · exact Nat.le_trans (Nat.add_le_add_left hbefore _) (by simp [FileHdr.slots])
              · rw [Nat.add_assoc]
                exact Nat.add_le_add_left hbefore _
      | record mem next =>
          obtain ⟨fresh', hread₀, hover, hslots, -⟩ := readInRecord_over h hread
          have hzero : recordsBefore m pos = 0 := hnone fun _ _ _ _ h => by cases h
          refine ⟨fresh', hread₀, hover, ?_⟩
          rw [hzero, hslots]
          exact Nat.le_refl _

/-- Without extended headers the usage mask is left alone. -/
theorem usageMask_of_not_ext {pos : ReadPos} (h : ¬ ExtHeaderAt pos) {db : SysDb}
    {flags : TarFlags} {n : Nat} {hdr : FileHdr} {r : ReadHeader}
    (hread : iTaruReadInTarHeader2 db flags n pos hdr = .returned r) :
    r.hdr.extHeaderUsageMask = hdr.extHeaderUsageMask := by
  cases n with
  | zero => cases hread
  | succ n =>
      obtain ⟨f, hfetch, hread⟩ := Outcome.bind_eq_returned.mp hread
      cases f with
      | ends ret src =>
          cases hread
          rfl
      | trailer ret src =>
          cases hread
          rfl
      | ext typeflag size data next => exact absurd ⟨_, _, _, _, hfetch⟩ h
      | record mem next =>
          have hself : Overlays [] hdr hdr := ⟨hdr.extattlist, rfl, by simp [FileHdr.slots]⟩
          obtain ⟨fresh', hread₀, -, -, hmask⟩ := readInRecord_over hself hread
          have hread' : readInRecord db.freshBuffer flags (n + 1) mem next hdr = .returned r :=
            hread
          rw [hread'] at hread₀
          rw [← hmask]
          exact congrArg (fun x => x.hdr.extHeaderUsageMask) (Outcome.returned.inj hread₀)

/-! ## The override over old slots -/

/-- The override of one slot does not look at the slots. -/
theorem overrideField_extattlist (erange : Bool) (hdr : FileHdr) (attr value : CString)
    (e : Option (List Exatt)) :
    overrideField erange { hdr with extattlist := e } attr value =
      (overrideField erange hdr attr value).map
        fun q => ({ q.1 with extattlist := e }, q.2) := by
  simp only [overrideField, apply_ite (Option.map _)]
  rfl

theorem taruExattOverrideUstar_extattlist (erange : Bool) (hdr : FileHdr) (p : Exatt)
    (e : Option (List Exatt)) :
    taruExattOverrideUstar erange { hdr with extattlist := e } p =
      ({ (taruExattOverrideUstar erange hdr p).1 with extattlist := e },
        (taruExattOverrideUstar erange hdr p).2) := by
  rw [taruExattOverrideUstar, taruExattOverrideUstar, overrideField_extattlist]
  split
  · cases overrideField erange hdr p.attrname (.ofMem p.attrvalue) with
    | none => rfl
    | some q => rfl
  · rfl

theorem overrideAll_extattlist (erange : Bool) (hdr : FileHdr) (slots : List Exatt)
    (e : Option (List Exatt)) :
    overrideAll erange { hdr with extattlist := e } slots =
      ({ (overrideAll erange hdr slots).1 with extattlist := e },
        (overrideAll erange hdr slots).2) := by
  induction slots generalizing erange hdr with
  | nil => rfl
  | cons p ps ih =>
      rw [overrideAll, overrideAll, taruExattOverrideUstar_extattlist]
      simp only [ih]

/-- The override step moves the slots it finds. -/
theorem overrideUstar_of_mask {hdr : FileHdr} (h : hdr.extHeaderUsageMask ≠ .zero)
    (erange : Bool) :
    (overrideUstar erange hdr).slots = (overrideAll erange hdr hdr.slots).2.1 ∧
      { overrideUstar erange hdr with extattlist := none } =
        { (overrideAll erange hdr hdr.slots).1 with extattlist := none } := by
  rw [overrideUstar, if_neg h]
  cases he : hdr.extattlist with
  | none =>
      have hs : hdr.slots = [] := by rw [FileHdr.slots, he, Option.getD_none]
      rw [hs]
      exact ⟨rfl, rfl⟩
  | some slots =>
      have hs : hdr.slots = slots := by rw [FileHdr.slots, he, Option.getD_some]
      rw [hs]
      exact ⟨rfl, rfl⟩

/-- Two file headers with the same attributes in use, and the same contents. -/
structure SameAttributes (hdr hdr' : FileHdr) : Prop where
  inUse_eq : inUse hdr.slots = inUse hdr'.slots
  hdr_eq : { hdr with extattlist := none } = { hdr' with extattlist := none }

theorem inUse_append_free {slots rest : List Exatt} (h : ∀ p ∈ rest, p.isInUse = false) :
    inUse (slots ++ rest) = inUse slots := by
  have hnil : rest.filter (·.isInUse) = [] := by
    refine List.filter_eq_nil_iff.mpr fun p hp => ?_
    simp [h p hp]
  rw [inUse, List.filter_append, hnil, List.append_nil]
  rfl

/-- The override step over old slots that are free and hold no POSIX name, if
it looks at them at all. -/
theorem overrideUstar_over {old : List Exatt} (hold : ∀ p ∈ old, p.isInUse = false)
    {fresh hdr : FileHdr} (h : Overlays old fresh hdr)
    (hstale : fresh.extHeaderUsageMask = .zero ∨
      ∀ p ∈ old.drop fresh.slots.length, p.isPosix = false) (erange : Bool) :
    SameAttributes (overrideUstar erange hdr) (overrideUstar erange fresh) := by
  obtain ⟨e, rfl, hslots⟩ := h
  have hfree : ∀ p ∈ old.drop fresh.slots.length, p.isInUse = false := fun p hp =>
    hold p (List.mem_of_mem_drop hp)
  by_cases hmask : fresh.extHeaderUsageMask = .zero
  · rw [overrideUstar, if_pos hmask, overrideUstar, if_pos hmask]
    refine ⟨?_, rfl⟩
    rw [FileHdr.slots, hslots, inUse_append_free hfree]
  · have hmask' : ({ fresh with extattlist := e } : FileHdr).extHeaderUsageMask ≠ .zero := hmask
    obtain ⟨hs, hh⟩ := overrideUstar_of_mask hmask' erange
    obtain ⟨hs₀, hh₀⟩ := overrideUstar_of_mask hmask erange
    have hall : overrideAll erange { fresh with extattlist := e }
        ({ fresh with extattlist := e } : FileHdr).slots =
          ({ (overrideAll erange fresh fresh.slots).1 with extattlist := e },
            (overrideAll erange fresh fresh.slots).2.1 ++ old.drop fresh.slots.length,
            (overrideAll erange fresh fresh.slots).2.2) := by
      rw [overrideAll_extattlist, FileHdr.slots, hslots, overrideAll_append]
      simp only [overrideAll_of_not_posix (hstale.resolve_left hmask)]
    rw [hall] at hs hh
    refine ⟨?_, hh.trans hh₀.symm⟩
    rw [hs, hs₀, inUse_append_free hfree]

/-! ## Runs -/

/-- One call of `taru_read_in_tar_header2`: what it is given, and what it leaves
behind. -/
structure ReadCall where
  db : SysDb
  flags : TarFlags
  erange : Bool
  src : Source
  before : FileHdr
  result : ReadHeader

namespace ReadCall

/-- The call returns its result. -/
def Returns (c : ReadCall) : Prop :=
  ∃ fuel, taruReadInTarHeader2 c.db c.flags fuel c.erange c.before c.src = .returned c.result

/-- The number of bytes at the source. -/
def inputSize (c : ReadCall) : Nat :=
  match c.src with
  | .inDes fd => fd.data.length
  | .buffer mem _ _ => mem.length

/-- The attributes in use afterwards, and the ones that were applied, are the
ones that the same call finds with an empty slot list and a read buffer that was
not used before. -/
def NoLeak (c : ReadCall) : Prop :=
  ∃ fuel r, taruReadInTarHeader2 c.db.freshBuffer c.flags fuel c.erange
      { c.before with extattlist := none } c.src = .returned r ∧
    r.ret = c.result.ret ∧ SameAttributes c.result.hdr r.hdr

/-- Before the call no slot is in use.  If there is an extended header, no slot
behind those that its records take holds a POSIX name, and no record goes on
behind its data blocks. -/
structure Clean (c : ReadCall) : Prop where
  free : ∀ p ∈ c.before.slots, p.isInUse = false
  stale : ExtHeaderAt { src := c.src } →
    ∀ p ∈ c.before.slots.drop (recordsBefore c.inputSize { src := c.src }), p.isPosix = false
  inside : ∃ n, recordsInsideBefore n { src := c.src } = true

/-- A call that is clean does not leak. -/
theorem noLeak_of_clean {c : ReadCall} (hc : c.Returns) (hclean : c.Clean) : c.NoLeak := by
  obtain ⟨fuel, hread⟩ := hc
  obtain ⟨hfree, hstale, k, hinside⟩ := hclean
  obtain ⟨r, hread, hr⟩ := Outcome.bind_eq_returned.mp hread
  have hr := Outcome.returned.inj hr
  have hover : Overlays c.before.slots (beginHeader { c.before with extattlist := none })
      (beginHeader c.before) := ⟨some c.before.slots, rfl, rfl⟩
  obtain ⟨fresh, hread₀, hover', hcount⟩ :=
    iTaruReadInTarHeader2_over hfree hover hread hinside c.inputSize
  refine ⟨fuel, { r with hdr := overrideUstar c.erange fresh }, ?_, ?_, ?_⟩
  · rw [taruReadInTarHeader2, hread₀]
    rfl
  · rw [← hr]
  · rw [← hr]
    refine overrideUstar_over hfree hover' ?_ c.erange
    by_cases hext : ExtHeaderAt { src := c.src }
    · right
      intro p hp
      refine hstale hext p ?_
      have hle : recordsBefore c.inputSize { src := c.src } ≤ fresh.slots.length :=
        Nat.le_trans (Nat.le_trans (Nat.le_add_left _ _) hcount) (List.length_filter_le _ _)
      obtain ⟨k, hk⟩ := Nat.exists_eq_add_of_le hle
      rw [hk, ← List.drop_drop] at hp
      exact List.mem_of_mem_drop hp
    · left
      exact usageMask_of_not_ext hext hread₀

end ReadCall

/-- Calls one after another into the same file header. -/
inductive ReadRun : FileHdr → List ReadCall → Prop where
  | nil (hdr : FileHdr) : ReadRun hdr []
  | cons {c : ReadCall} {rest : List ReadCall} (hc : c.Returns)
      (hrest : ReadRun c.result.hdr rest) : ReadRun c.before (c :: rest)

/-- No attribute leaks in a run whose calls are all clean. -/
theorem noLeak_of_readRun {hdr : FileHdr} {run : List ReadCall} (hrun : ReadRun hdr run)
    (hclean : ∀ c ∈ run, c.Clean) : ∀ c ∈ run, c.NoLeak := by
  induction hrun with
  | nil hdr => simp
  | cons hc _ ih =>
      intro c hmem
      rcases List.mem_cons.mp hmem with rfl | hmem
      · exact ReadCall.noLeak_of_clean hc (hclean c (by simp))
      · exact ih (fun c hc => hclean c (by simp [hc])) c hmem

/-! ## Slots that are used again -/

/-- A call on a descriptor with a given input. -/
def readInput (before : FileHdr) (fuel : Nat) (input : Bytes) : ReadCall where
  db := .blank
  flags := {}
  erange := false
  src := .inDes ⟨.unix, input⟩
  before := before
  result :=
    match taruReadInTarHeader2 .blank {} fuel false before (.inDes ⟨.unix, input⟩) with
    | .returned r => r
    | _ => ⟨0, 0, before, .inDes ⟨.unix, input⟩⟩

theorem returns_readInput {before : FileHdr} {fuel : Nat} {input : Bytes}
    (h : isReturned (taruReadInTarHeader2 .blank {} fuel false before (.inDes ⟨.unix, input⟩)) =
      true) : (readInput before fuel input).Returns := by
  refine ⟨fuel, ?_⟩
  rw [readInput]
  cases hread : taruReadInTarHeader2 .blank {} fuel false before (.inDes ⟨.unix, input⟩) with
  | returned r => rfl
  | exited status => rw [hread] at h; cases h
  | fault => rw [hread] at h; cases h
  | outOfFuel => rw [hread] at h; cases h

/-- The record of a file alone. -/
def plainCall (before : FileHdr) : ReadCall := readInput before 1 fileRecord.bytes

theorem returns_plainCall (before : FileHdr) : (plainCall before).Returns := by
  obtain ⟨src, h⟩ := taruReadInTarHeader2_file (TarHeader.length_bytes _)
    (show nullBlock fileRecord.bytes = false by decide +kernel) (by decide +kernel)
    (by decide +kernel) .blank {} false before (.inr ⟨.unix, rfl⟩)
  refine returns_readInput ?_
  rw [h 0]
  rfl

theorem readRun_plainCall (before : FileHdr) : ReadRun before [plainCall before] :=
  .cons (returns_plainCall before) (.nil _)

/-- Calls on one input after the other, into the same file header. -/
def readInputs : FileHdr → List Bytes → List ReadCall
  | _, [] => []
  | before, input :: inputs =>
      let c := readInput before 2 input
      c :: readInputs c.result.hdr inputs

theorem readRun_readInputs {before : FileHdr} {inputs : List Bytes}
    (h : ∀ c ∈ readInputs before inputs, c.Returns) : ReadRun before (readInputs before inputs) := by
  induction inputs generalizing before with
  | nil => exact .nil before
  | cons input inputs ih =>
      exact .cons (c := readInput before 2 input) (h _ (List.mem_cons_self ..))
        (ih fun c hc => h c (List.mem_cons_of_mem _ hc))

/-- A file with an extended header that holds `records`. -/
def recordsInput (records : Bytes) : Bytes :=
  let h : TarHeader :=
    { size := octalField 11 (UInt64.ofNat records.length) 0, typeflag := xhdType }
  h.bytes ++ ((CField.strncpy tarRecordSize records).bytes ++ fileRecord.bytes)

/-- Two files with attributes, the second one's in the slots of the first one's,
and a file without. -/
def threeCalls : List ReadCall :=
  readInputs {} [recordsInput (literal "13 uname=abc\n13 gname=abc\n"),
    recordsInput (literal "13 gname=xyz\n10 uid=77\n"), fileRecord.bytes]

theorem noLeak_threeCalls :
    threeCalls.map (·.result.hdr.cUsername) = [.ofMem (literal "abc"), .empty, .empty] ∧
      ∀ c ∈ threeCalls, c.NoLeak := by
  have hreturned : ∀ c ∈ threeCalls, (taruReadInTarHeader2 c.db c.flags 2 c.erange c.before
      c.src).returnedWith (fun r => decide (r = c.result)) = true := by decide +kernel
  have hfree : ∀ c ∈ threeCalls, ∀ p ∈ c.before.slots, p.isInUse = false := by decide +kernel
  have hstale : ∀ c ∈ threeCalls, ExtHeaderAt { src := c.src } →
      ∀ p ∈ c.before.slots.drop (recordsBefore c.inputSize { src := c.src }),
        p.isPosix = false := by decide +kernel
  have hinside : ∀ c ∈ threeCalls, recordsInsideBefore 2 { src := c.src } = true := by
    decide +kernel
  have hrun : ReadRun {} threeCalls := by
    refine readRun_readInputs fun c hc => ?_
    obtain ⟨r, hr, hresult⟩ := Outcome.exists_of_returnedWith (hreturned c hc)
    exact ⟨2, hr.trans (congrArg Outcome.returned (of_decide_eq_true hresult))⟩
  exact ⟨by decide +kernel,
    noLeak_of_readRun hrun fun c hc => ⟨hfree c hc, hstale c hc, 2, hinside c hc⟩⟩

/-! ## A vendor attribute that stays in use -/

/-- A file record alone leaves nothing in use unless something leaks. -/
theorem inUse_plainCall {before : FileHdr} (h : (plainCall before).NoLeak) :
    inUse (plainCall before).result.hdr.slots = [] := by
  obtain ⟨fuel, r, hread, -, hsame⟩ := h
  obtain ⟨src, hfile⟩ := taruReadInTarHeader2_file (TarHeader.length_bytes _)
    (show nullBlock fileRecord.bytes = false by decide +kernel) (by decide +kernel)
    (by decide +kernel) .blank {} false { before with extattlist := none } (.inr ⟨.unix, rfl⟩)
  cases fuel with
  | zero => cases hread
  | succ n =>
      cases (hfile n).symm.trans hread
      exact hsame.inUse_eq

/-- The record of an extended header with one vendor attribute. -/
def vendorRecord : TarHeader where
  size := octalField 11 9 0
  typeflag := xhdType

/-- A file with a vendor attribute. -/
def vendorInput : Bytes :=
  vendorRecord.bytes ++ ((CField.strncpy 512 shortRecord).bytes ++ fileRecord.bytes)

/-- The vendor attribute of the first file is in use for the second one. -/
theorem leak_vendor :
    ReadRun {} [readInput {} 2 vendorInput, plainCall (readInput {} 2 vendorInput).result.hdr] ∧
      ¬ (plainCall (readInput {} 2 vendorInput).result.hdr).NoLeak := by
  constructor
  · exact .cons (returns_readInput (by decide +kernel)) (readRun_plainCall _)
  · intro h
    have hkept : inUse (plainCall (readInput {} 2 vendorInput).result.hdr).result.hdr.slots ≠
        [] := by decide +kernel
    exact hkept (inUse_plainCall h)

end Swbis.Taru
