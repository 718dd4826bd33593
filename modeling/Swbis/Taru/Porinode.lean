import Swbis.Lib.Numbering
import Swbis.Misc.Cplob

/-!
# Virtual inodes

The cpio formats have sixteen bits for a device and an inode.
`porinode_make_next_inode` hands out virtual ones.  A file with more links gets
the pair its inode got before, which a hard link list remembers; every other
file gets the next pair.

The pairs run through the inodes of one device and then through those of the
next (`vinodeAt`), so the code serves requests as `Numbering` does.  That holds
as long as the hard link list can grow: its array has lengths of type `int` and
takes 2^31 - 4 records, fewer than there are virtual inodes.
`virtualInodes_iff` is the result for every sequence of calls.
-/

namespace Swbis.Taru

open CLib Swbis.Misc

/-- `hllist_entry`, with the virtual device and inode. -/
structure Porinode.HllistEntry where
  path : CString
  dev : UInt64
  ino : UInt64
  vDev : Nat
  vIno : Nat
deriving DecidableEq

/-- `HLLIST`. -/
structure Porinode.Hllist where
  disableFind : Bool
  disableAdd : Bool
  list : Cplob Porinode.HllistEntry

/-- `PORINODE`. -/
structure Porinode where
  currentInode : Nat
  currentDevice : Nat
  maxInode : Nat
  maxDevice : Nat
  hllist : Porinode.Hllist

namespace Porinode

/-! ## The hard link list -/

/-- `hllist_open`. -/
def hllistOpen : Outcome Hllist := do
  let list ← cplobAdditem (cplobOpen HllistEntry 8) 0 none
  pure ⟨false, false, list⟩

/-- `hllist_add_vrecord`. -/
def hllistAddVrecord (hllist : Hllist) (path : CString) (dev ino : UInt64) (vDev vIno : Nat) :
    Outcome Hllist :=
  if hllist.disableAdd then pure hllist
  else do
    let lob ← cplobAdditem hllist.list (hllist.list.nused - 1) (some ⟨path, dev, ino, vDev, vIno⟩)
    let lob ← cplobAdditem lob lob.nused none
    pure { hllist with list := lob }

/-- The loop of `hllist_find_file_entry`: the entry and `*nfound`. -/
def hllistFindLoop (list : Cplob HllistEntry) (dev ino : UInt64) (occurance : Nat) :
    Nat → Nat → Nat → Outcome (Option HllistEntry × Nat)
  | 0, _, _ => .outOfFuel
  | fuel + 1, i, nfound =>
      cplobVal list i >>= fun en =>
        match en with
        | none => .returned (none, nfound)
        | some en =>
            if en.ino = ino ∧ en.dev = dev then
              if 0 < occurance ∧ nfound + 1 = occurance then .returned (some en, nfound + 1)
              else hllistFindLoop list dev ino occurance fuel (i + 1) (nfound + 1)
            else hllistFindLoop list dev ino occurance fuel (i + 1) nfound

/-- `hllist_find_file_entry`, with `*nfound` zero before.  Past `nused` the loop
finds NULL, so `nused + 2` rounds are enough. -/
def hllistFindFileEntry (hllist : Hllist) (dev ino : UInt64) (occurance : Nat) :
    Outcome (Option HllistEntry × Nat) :=
  if hllist.disableFind then .returned (none, 0)
  else hllistFindLoop hllist.list dev ino occurance (hllist.list.nused + 2) 0 0

/-! ## Handing out virtual inodes -/

/-- `PORINODE_MAX` -/
def porinodeMax : Nat := 0xFFFF - 1

/-- `porinode_open`. -/
def porinodeOpen : Outcome Porinode := do
  let hllist ← hllistOpen
  pure ⟨1, 1, porinodeMax, porinodeMax, hllist⟩

/-- The first half of `porinode_i_get_next_vinode`: behind the last inode of a
device comes the next device. -/
def rollOver (porinode : Porinode) : Porinode :=
  if porinode.maxInode - 1 ≤ porinode.currentInode then
    -- "virtual inode space overflow" is printed and the inode counts on
    if porinode.maxDevice ≤ porinode.currentDevice then porinode
    else { porinode with currentDevice := porinode.currentDevice + 1, currentInode := 0 }
  else porinode

/-- `porinode_i_get_next_vinode`: the device and the inode. -/
def porinodeIGetNextVinode (porinode : Porinode) : (Nat × Nat) × Porinode :=
  let porinode := rollOver porinode
  let porinode := { porinode with currentInode := porinode.currentInode + 1 }
  ((porinode.currentDevice, porinode.currentInode), porinode)

/-- `porinode_make_next_inode`. -/
def porinodeMakeNextInode (porinode : Porinode) (nlinks : Int) (dev ino : UInt64) :
    Outcome ((Nat × Nat) × Porinode) :=
  if nlinks < 2 then .returned (porinodeIGetNextVinode porinode)
  else
    hllistFindFileEntry porinode.hllist dev ino 1 >>= fun found =>
      if found.2 = 0 then
        let next := porinodeIGetNextVinode porinode
        hllistAddVrecord next.2.hllist .empty dev ino next.1.1 next.1.2 >>= fun hllist =>
          .returned (next.1, { next.2 with hllist := hllist })
      else
        match found.1 with
        | some en => .returned ((en.vDev, en.vIno), porinode)
        | none => .fault

/-- What a call is asked for. -/
structure Call where
  nlinks : Int
  dev : UInt64
  ino : UInt64
deriving DecidableEq

/-- Calls one after another. -/
def makeAll (porinode : Porinode) : List Call → Outcome (List (Nat × Nat) × Porinode)
  | [] => .returned ([], porinode)
  | c :: calls =>
      porinodeMakeNextInode porinode c.nlinks c.dev c.ino >>= fun first =>
        makeAll first.2 calls >>= fun rest => .returned (first.1 :: rest.1, rest.2)

/-! ## The calls as requests for numbers -/

/-- The inode whose number a call asks for, if it has more links. -/
def Call.key (c : Call) : Option (UInt64 × UInt64) :=
  if c.nlinks < 2 then none else some (c.dev, c.ino)

/-- The different inodes with more links. -/
def linkedInodes (calls : List Call) : List (UInt64 × UInt64) := CLib.Numbering.keys (calls.map Call.key)

/-- How many virtual inodes calls need. -/
def vinodesNeeded (calls : List Call) : Nat := CLib.Numbering.needed (calls.map Call.key)

/-- How many virtual inodes there are: the devices 1 to 65534 with the inodes 1
to 65533, without the pair that is there at the start. -/
def capacity : Nat := 65534 * 65533 - 1

/-- The virtual inode with a number. -/
def vinodeAt (n : Nat) : Nat × Nat := (1 + (n + 1) / 65533, 1 + (n + 1) % 65533)

/-- The record of an inode with its number. -/
def recordOf (e : (UInt64 × UInt64) × Nat) : HllistEntry :=
  ⟨.empty, e.1.1, e.1.2, (vinodeAt e.2).1, (vinodeAt e.2).2⟩

theorem vinodeAt_inj {n m : Nat} : vinodeAt n = vinodeAt m ↔ n = m := by
  constructor
  · intro h
    obtain ⟨h₁, h₂⟩ := Prod.mk.inj h
    omega
  · rintro rfl
    rfl

/-- Below the capacity both numbers are positive and have sixteen bits. -/
theorem vinodeAt_bounds {n : Nat} (h : n < capacity) :
    (0 < (vinodeAt n).1 ∧ (vinodeAt n).1 < 2 ^ 16) ∧ 0 < (vinodeAt n).2 ∧ (vinodeAt n).2 < 2 ^ 16 := by
  simp only [vinodeAt, capacity] at h ⊢
  omega

/-- The object holds what was handed out. -/
structure Tracks (s : CLib.Numbering (UInt64 × UInt64)) (p : Porinode) : Prop where
  inode : p.currentInode = 1 + s.next % 65533
  device : p.currentDevice = 1 + s.next / 65533
  maxInode : p.maxInode = porinodeMax
  maxDevice : p.maxDevice = porinodeMax
  finds : p.hllist.disableFind = false
  adds : p.hllist.disableAdd = false
  list : p.hllist.list.Terminated (s.known.map recordOf)

theorem porinodeOpen_tracks : ∃ p, porinodeOpen = .returned p ∧ Tracks .empty p :=
  ⟨_, rfl, ⟨rfl, rfl, rfl, rfl, rfl, rfl, ⟨⟨_, rfl⟩, rfl, rfl, by decide⟩⟩⟩

/-! ## One call -/

/-- The loop finds the first record of the inode. -/
theorem hllistFindLoop_eq {lob : Cplob HllistEntry} {es : List HllistEntry} (h : lob.Terminated es)
    (dev ino : UInt64) (fuel i : Nat) (hi : i ≤ es.length) (hfuel : es.length - i < fuel) :
    hllistFindLoop lob dev ino 1 fuel i 0 =
      match (es.drop i).find? fun en => en.ino = ino ∧ en.dev = dev with
      | some en => .returned (some en, 1)
      | none => .returned (none, 0) := by
  induction fuel generalizing i with
  | zero => exact absurd hfuel (Nat.not_lt_zero _)
  | succ fuel ih =>
      rw [hllistFindLoop]
      rcases Nat.lt_or_eq_of_le hi with hlt | rfl
      · rw [h.val_lt hlt, Outcome.returned_bind, List.drop_eq_getElem_cons hlt, List.find?_cons]
        by_cases hmatch : es[i].ino = ino ∧ es[i].dev = dev
        · simp [hmatch]
        · simp only [hmatch, if_false, decide_false]
          exact ih (i + 1) hlt (by omega)
      · rw [h.val_length, Outcome.returned_bind, List.drop_length]
        rfl

/-- A record is found exactly for an inode that has a number. -/
theorem find?_recordOf (l : List ((UInt64 × UInt64) × Nat)) (dev ino : UInt64) :
    ((l.map recordOf).find? fun en => en.ino = ino ∧ en.dev = dev) =
      (CLib.Numbering.numberIn l (dev, ino)).map fun n => recordOf ((dev, ino), n) := by
  induction l with
  | nil => rfl
  | cons e l ih =>
      obtain ⟨⟨d, i⟩, n⟩ := e
      rw [List.map_cons, List.find?_cons, CLib.Numbering.numberIn_cons, ih]
      cases hk : decide (i = ino ∧ d = dev) with
      | true =>
          obtain ⟨rfl, rfl⟩ := of_decide_eq_true hk
          simp [recordOf]
      | false =>
          have hne : ¬(dev, ino) = (d, i) := fun he =>
            of_decide_eq_false hk ⟨(congrArg Prod.snd he).symm, (congrArg Prod.fst he).symm⟩
          rw [if_neg hne]
          change (match decide (i = ino ∧ d = dev) with | true => _ | false => _) = _
          rw [hk]

theorem Tracks.find {s : CLib.Numbering (UInt64 × UInt64)} {p : Porinode} (h : Tracks s p)
    (dev ino : UInt64) : hllistFindFileEntry p.hllist dev ino 1 =
      match CLib.Numbering.numberIn s.known (dev, ino) with
      | some n => .returned (some (recordOf ((dev, ino), n)), 1)
      | none => .returned (none, 0) := by
  rw [hllistFindFileEntry, h.finds, if_neg Bool.false_ne_true,
    hllistFindLoop_eq h.list dev ino _ 0 (Nat.zero_le _) (by rw [h.list.nused_eq]; omega),
    List.drop_zero, find?_recordOf]
  cases CLib.Numbering.numberIn s.known (dev, ino) with
  | none => rfl
  | some n => rfl

/-- Where the counters stand before the inode is counted. -/
theorem Tracks.rollOver {s : CLib.Numbering (UInt64 × UInt64)} {p : Porinode} (h : Tracks s p)
    (hcap : s.next < capacity) :
    (rollOver p).currentDevice = 1 + (s.next + 1) / 65533 ∧
      (rollOver p).currentInode = (s.next + 1) % 65533 ∧
      (rollOver p).maxInode = p.maxInode ∧ (rollOver p).maxDevice = p.maxDevice ∧
      (rollOver p).hllist = p.hllist := by
  have hdevice := h.device
  have hinode := h.inode
  have hmaxI : p.maxInode - 1 = 65533 := by rw [h.maxInode, porinodeMax]
  have hmaxD : p.maxDevice = 65534 := h.maxDevice
  rw [capacity] at hcap
  rw [Porinode.rollOver, hmaxI]
  rcases Nat.lt_or_ge p.currentInode 65533 with hroom | hfull
  · rw [if_neg (Nat.not_le.mpr hroom)]
    exact ⟨by omega, by omega, rfl, rfl, rfl⟩
  · -- the inodes of the device are used up; below the capacity there is another device
    have hdev : ¬p.maxDevice ≤ p.currentDevice := by omega
    rw [if_pos hfull, if_neg hdev]
    exact ⟨by change p.currentDevice + 1 = _; omega, by change 0 = _; omega, rfl, rfl, rfl⟩

/-- The next pair is the one with the next number, and the counters stand behind it. -/
theorem Tracks.getNext {s : CLib.Numbering (UInt64 × UInt64)} {p : Porinode} (h : Tracks s p)
    (hcap : s.next < capacity) :
    (porinodeIGetNextVinode p).1 = vinodeAt s.next ∧
      Tracks { s with next := s.next + 1 } (porinodeIGetNextVinode p).2 := by
  obtain ⟨hdevice, hinode, hmaxI, hmaxD, hlist⟩ := h.rollOver hcap
  have hvino : (Porinode.rollOver p).currentInode + 1 = 1 + (s.next + 1) % 65533 := by
    rw [hinode, Nat.add_comm]
  refine ⟨Prod.ext hdevice hvino, ⟨hvino, hdevice, hmaxI.trans h.maxInode, hmaxD.trans h.maxDevice,
    ?_, ?_, ?_⟩⟩
  · exact (congrArg Hllist.disableFind hlist).trans h.finds
  · exact (congrArg Hllist.disableAdd hlist).trans h.adds
  · change (Porinode.rollOver p).hllist.list.Terminated _
    rw [hlist]
    exact h.list

/-- A record is added behind the others. -/
theorem hllistAddVrecord_eq {hllist : Hllist} {es : List HllistEntry}
    (h : hllist.list.Terminated es) (hadds : hllist.disableAdd = false)
    (hmax : es.length < terminatedMax) (path : CString) (dev ino : UInt64) (vDev vIno : Nat) :
    ∃ lob, hllistAddVrecord hllist path dev ino vDev vIno =
        .returned { hllist with list := lob } ∧
      lob.Terminated (es ++ [⟨path, dev, ino, vDev, vIno⟩]) := by
  obtain ⟨lob, hadd, hterm⟩ := h.additem_null ⟨path, dev, ino, vDev, vIno⟩ hmax
  refine ⟨lob, ?_, hterm⟩
  rw [hllistAddVrecord, hadds, if_neg Bool.false_ne_true, h.additem_last, Outcome.returned_bind]
  change cplobAdditem { hllist.list with list := hllist.list.list.set es.length (some _) }
    hllist.list.nused none >>= _ = _
  rw [hadd]
  rfl

/-- A full list takes no record. -/
theorem hllistAddVrecord_full {hllist : Hllist} {es : List HllistEntry}
    (h : hllist.list.Terminated es) (hadds : hllist.disableAdd = false)
    (hmax : es.length = terminatedMax) (path : CString) (dev ino : UInt64) (vDev vIno : Nat) :
    hllistAddVrecord hllist path dev ino vDev vIno = .fault := by
  rw [hllistAddVrecord, hadds, if_neg Bool.false_ne_true, h.additem_last, Outcome.returned_bind]
  change cplobAdditem { hllist.list with list := hllist.list.list.set es.length (some _) }
    hllist.list.nused none >>= _ = _
  rw [h.additem_null_full _ hmax]
  rfl

/-- What a call does: it hands out the number of `Numbering.assign`, unless the
list has to take a record and is full. -/
theorem Tracks.step {s : CLib.Numbering (UInt64 × UInt64)} {p : Porinode} (h : Tracks s p) (c : Call)
    (hcap : (s.assign c.key).2.next ≤ capacity) :
    ((s.assign c.key).2.known.length ≤ terminatedMax ∧
        ∃ p', porinodeMakeNextInode p c.nlinks c.dev c.ino =
            .returned (vinodeAt (s.assign c.key).1, p') ∧ Tracks (s.assign c.key).2 p') ∨
      (terminatedMax < (s.assign c.key).2.known.length ∧
        porinodeMakeNextInode p c.nlinks c.dev c.ino = .fault) := by
  have hle := h.list.length_le
  rw [List.length_map] at hle
  rw [porinodeMakeNextInode]
  rcases Int.lt_or_le c.nlinks 2 with hlt | hge
  · rw [Call.key, if_pos hlt, CLib.Numbering.assign_none] at hcap ⊢
    obtain ⟨hv, hp⟩ := h.getNext hcap
    refine .inl ⟨hle, _, ?_, hp⟩
    rw [if_pos hlt, ← hv]
  · rw [Call.key, if_neg (Int.not_lt.mpr hge)] at hcap ⊢
    rw [if_neg (Int.not_lt.mpr hge), h.find]
    cases hk : CLib.Numbering.numberIn s.known (c.dev, c.ino) with
    | some n =>
        rw [CLib.Numbering.assign_known hk]
        exact .inl ⟨hle, p, rfl, h⟩
    | none =>
        rw [CLib.Numbering.assign_fresh hk] at hcap ⊢
        obtain ⟨hv, hp⟩ := h.getNext hcap
        simp only [Outcome.returned_bind, if_true, hv]
        rw [List.length_append, List.length_singleton]
        rcases Nat.lt_or_eq_of_le hle with hlt | hfull
        · obtain ⟨lob, hadd, hterm⟩ := hllistAddVrecord_eq hp.list hp.adds
            (by rwa [List.length_map]) .empty c.dev c.ino (vinodeAt s.next).1 (vinodeAt s.next).2
          refine .inl ⟨hlt, _, by rw [hadd]; rfl, ?_⟩
          refine ⟨hp.inode, hp.device, hp.maxInode, hp.maxDevice, hp.finds, hp.adds, ?_⟩
          rw [List.map_append]
          exact hterm
        · have hadd := hllistAddVrecord_full hp.list hp.adds
            (by rw [List.length_map, hfull]) .empty c.dev c.ino (vinodeAt s.next).1
            (vinodeAt s.next).2
          refine .inr ⟨by rw [hfull]; exact Nat.lt_succ_self _, ?_⟩
          rw [hadd]
          rfl

/-! ## All calls -/

/-- What the calls do: they hand out the numbers of `Numbering.assignAll`, unless
the list gets too long. -/
theorem Tracks.run {s : CLib.Numbering (UInt64 × UInt64)} {p : Porinode} (h : Tracks s p)
    (calls : List Call) (hcap : (s.assignAll (calls.map Call.key)).2.next ≤ capacity) :
    ((s.assignAll (calls.map Call.key)).2.known.length ≤ terminatedMax ∧
        ∃ p', makeAll p calls =
          .returned ((s.assignAll (calls.map Call.key)).1.map vinodeAt, p')) ∨
      (terminatedMax < (s.assignAll (calls.map Call.key)).2.known.length ∧
        makeAll p calls = .fault) := by
  induction calls generalizing s p with
  | nil =>
      have hle := h.list.length_le
      rw [List.length_map] at hle
      exact .inl ⟨hle, p, rfl⟩
  | cons c calls ih =>
      rw [List.map_cons, CLib.Numbering.assignAll] at hcap ⊢
      have hle := CLib.Numbering.next_le_assignAll (s.assign c.key).2 (calls.map Call.key)
      rw [makeAll]
      rcases h.step c (hle.trans hcap) with ⟨-, p', hstep, htracks⟩ | ⟨hfull, hstep⟩
      · rw [hstep, Outcome.returned_bind]
        rcases ih htracks hcap with ⟨hroom, p'', hrun⟩ | ⟨hfull, hrun⟩
        · refine .inl ⟨hroom, p'', ?_⟩
          rw [hrun]
          rfl
        · refine .inr ⟨hfull, ?_⟩
          rw [hrun]
          rfl
      · refine .inr ⟨Nat.lt_of_lt_of_le hfull (CLib.Numbering.length_known_le _ _), ?_⟩
        rw [hstep]
        rfl

/-- Two calls get the same pair exactly when both are for one inode with more
links, and every number is positive and has sixteen bits. -/
def VirtualInodes (calls : List Call) (out : List (Nat × Nat)) : Prop :=
  out.length = calls.length ∧
    ((calls.zip out).Pairwise fun x y =>
      x.2 = y.2 ↔ (1 < x.1.nlinks ∧ 1 < y.1.nlinks) ∧ x.1.dev = y.1.dev ∧ x.1.ino = y.1.ino) ∧
    ∀ v ∈ out, (0 < v.1 ∧ v.1 < 2 ^ 16) ∧ 0 < v.2 ∧ v.2 < 2 ^ 16

/-- The calls on a new object hand out virtual inodes. -/
def HandsOut (calls : List Call) : Prop :=
  ∃ out p, (porinodeOpen >>= fun porinode => makeAll porinode calls) = .returned (out, p) ∧
    VirtualInodes calls out

theorem key_eq_iff (c d : Call) : (∃ k, c.key = some k ∧ d.key = some k) ↔
    (1 < c.nlinks ∧ 1 < d.nlinks) ∧ c.dev = d.dev ∧ c.ino = d.ino := by
  rw [Call.key, Call.key]
  rcases Int.lt_or_le c.nlinks 2 with hc | hc
  · rw [if_pos hc]
    constructor
    · rintro ⟨k, hk, -⟩
      cases hk
    · rintro ⟨⟨hlt, -⟩, -⟩
      omega
  · rw [if_neg (Int.not_lt.mpr hc)]
    rcases Int.lt_or_le d.nlinks 2 with hd | hd
    · rw [if_pos hd]
      constructor
      · rintro ⟨k, -, hk⟩
        cases hk
      · rintro ⟨⟨-, hlt⟩, -⟩
        omega
    · rw [if_neg (Int.not_lt.mpr hd)]
      constructor
      · rintro ⟨k, hk, hk'⟩
        have he := Option.some.inj (hk.trans hk'.symm)
        exact ⟨⟨by omega, by omega⟩, congrArg Prod.fst he, congrArg Prod.snd he⟩
      · rintro ⟨-, hdev, hino⟩
        exact ⟨(c.dev, c.ino), rfl, by rw [hdev, hino]⟩

/-- The pairs with the numbers that were handed out. -/
theorem virtualInodes_assignAll (calls : List Call) (hcap : vinodesNeeded calls ≤ capacity) :
    VirtualInodes calls
      (((CLib.Numbering.empty.assignAll (calls.map Call.key)).1).map vinodeAt) := by
  have hlen := CLib.Numbering.length_assignAll .empty (calls.map Call.key)
  rw [List.length_map] at hlen
  refine ⟨by rw [List.length_map, hlen], ?_, ?_⟩
  · have hpair := CLib.Numbering.pairwise_assignAll CLib.Numbering.sound_empty (calls.map Call.key)
    rw [List.zip_map_left, List.pairwise_map] at hpair
    rw [List.zip_map_right, List.pairwise_map]
    refine hpair.imp fun {x y} hxy => ?_
    exact vinodeAt_inj.trans (hxy.trans (key_eq_iff x.1 y.1))
  · intro v hv
    obtain ⟨n, hn, rfl⟩ := List.mem_map.mp hv
    refine vinodeAt_bounds (Nat.lt_of_lt_of_le ?_ hcap)
    rw [vinodesNeeded, ← CLib.Numbering.next_assignAll]
    exact CLib.Numbering.lt_next_of_mem CLib.Numbering.sound_empty hn

/-- On a new object the calls hand out the pairs, unless there are too many
different inodes with more links. -/
theorem open_run (calls : List Call) (hcap : vinodesNeeded calls ≤ capacity) :
    ((linkedInodes calls).length ≤ terminatedMax ∧ ∃ p,
        (porinodeOpen >>= fun porinode => makeAll porinode calls) = .returned
          (((CLib.Numbering.empty.assignAll (calls.map Call.key)).1).map vinodeAt, p)) ∨
      (terminatedMax < (linkedInodes calls).length ∧
        (porinodeOpen >>= fun porinode => makeAll porinode calls) = .fault) := by
  obtain ⟨p, hopen, htracks⟩ := porinodeOpen_tracks
  rw [linkedInodes, ← (CLib.Numbering.serves_assignAll _).length_known, hopen]
  exact htracks.run calls (by rw [CLib.Numbering.next_assignAll]; exact hcap)

/-- Below the capacity of the virtual space the calls hand out virtual inodes as
they should if and only if the hard link list can hold the different inodes with
more links. -/
theorem virtualInodes_iff (calls : List Call) (hcap : vinodesNeeded calls ≤ capacity) :
    HandsOut calls ↔ (linkedInodes calls).length ≤ 2 ^ 31 - 4 := by
  rcases open_run calls hcap with ⟨hroom, p, hrun⟩ | ⟨hfull, hrun⟩
  · exact ⟨fun _ => hroom, fun _ => ⟨_, p, hrun, virtualInodes_assignAll calls hcap⟩⟩
  · constructor
    · rintro ⟨out, p, hreturned, -⟩
      rw [hrun] at hreturned
      cases hreturned
    · intro hle
      exact absurd hfull (Nat.not_lt.mpr hle)

/-- Three files, two of them links to one inode. -/
theorem virtualInodes_links :
    vinodesNeeded [⟨2, 8, 5⟩, ⟨1, 8, 6⟩, ⟨2, 8, 5⟩] ≤ capacity ∧
      HandsOut [⟨2, 8, 5⟩, ⟨1, 8, 6⟩, ⟨2, 8, 5⟩] :=
  ⟨by decide, (virtualInodes_iff [⟨2, 8, 5⟩, ⟨1, 8, 6⟩, ⟨2, 8, 5⟩] (by decide)).mpr (by decide)⟩

/-- Files with two links each, all with inodes of their own. -/
def manyLinks (n : Nat) : List Call := (List.range n).map fun i => ⟨2, 0, UInt64.ofNat i⟩

theorem map_key_manyLinks (n : Nat) :
    (manyLinks n).map Call.key = (List.range n).map fun i => some (0, UInt64.ofNat i) := by
  rw [manyLinks, List.map_map]
  rfl

theorem length_linkedInodes_manyLinks {n : Nat} (hn : n ≤ 2 ^ 64) :
    (linkedInodes (manyLinks n)).length = n := by
  have hnodup : ((List.range n).map fun i => ((0 : UInt64), UInt64.ofNat i)).Nodup := by
    refine List.Nodup.map_on ?_ List.nodup_range
    intro i hi j hj he
    have hval := congrArg UInt64.toNat (congrArg Prod.snd he)
    rw [List.mem_range] at hi hj
    simp only [UInt64.toNat_ofNat'] at hval
    rwa [Nat.mod_eq_of_lt (by omega), Nat.mod_eq_of_lt (by omega)] at hval
  rw [linkedInodes, map_key_manyLinks, CLib.Numbering.keys, List.filterMap_map]
  change ((List.range n).filterMap fun i => some ((0 : UInt64), UInt64.ofNat i)).dedup.length = n
  have hmap : ((List.range n).filterMap fun i => some ((0 : UInt64), UInt64.ofNat i)) =
      (List.range n).map fun i => (0, UInt64.ofNat i) := by
    rw [← List.filterMap_eq_map]
    rfl
  rw [hmap, List.dedup_eq_self.mpr hnodup, List.length_map, List.length_range]

theorem vinodesNeeded_manyLinks {n : Nat} (hn : n ≤ 2 ^ 64) : vinodesNeeded (manyLinks n) = n := by
  have hcount : ((manyLinks n).map Call.key).countP Option.isNone = 0 := by
    rw [map_key_manyLinks, List.countP_eq_zero]
    simp
  have hlen := length_linkedInodes_manyLinks hn
  rw [linkedInodes] at hlen
  rw [vinodesNeeded, CLib.Numbering.needed, hcount, hlen, Nat.zero_add]

/-- One inode with more links too many: the length of the list overflows, where
the virtual space is not half used. -/
theorem manyLinks_overflow :
    ¬(vinodesNeeded (manyLinks (2 ^ 31 - 3)) ≤ capacity → HandsOut (manyLinks (2 ^ 31 - 3))) := by
  have hcap : vinodesNeeded (manyLinks (2 ^ 31 - 3)) ≤ capacity := by
    rw [vinodesNeeded_manyLinks (by omega), capacity]
    omega
  intro h
  obtain ⟨out, p, hreturned, -⟩ := h hcap
  rcases open_run _ hcap with ⟨hroom, -⟩ | ⟨-, hrun⟩
  · rw [length_linkedInodes_manyLinks (by omega), terminatedMax] at hroom
    omega
  · rw [hrun] at hreturned
    cases hreturned

end Porinode

end Swbis.Taru
