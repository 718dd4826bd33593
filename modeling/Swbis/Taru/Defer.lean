import Mathlib.Data.List.Basic
import Swbis.Lib.Strtol
import Swbis.Taru.Member

/-!
# Deferred hard links

In a cpio archive the data of a file with several links stands behind the last
of them.  The writer defers the headers of the links until the last one comes:
then the deferred ones are written with length zero, and the last one with the
data.  When the archive is finished, the groups that are still incomplete are
written out, the last deferred link of each with the data.

A *batch* is what one such event writes.  Links belong to one group when they
have the same device and inode.  The code compares these as `int`.

Headers are always written; whether the data of a file can be read is a
parameter.
-/

namespace Swbis.Taru

open CLib

/-- A header that was written, and whether the data were written behind it. -/
structure Emission where
  /-- The header. -/
  hdr : FileHdr
  /-- The data follow. -/
  data : Bool
deriving DecidableEq

/-! ## Deferring -/

/-- `def_create_deferment`: the header with no link name. -/
def defCreateDeferment (hdr : FileHdr) : FileHdr :=
  { taruFilehdr2filehdr hdr with cTarLinkname := .empty }

/-- The inode and the device. -/
def devIno (hdr : FileHdr) : UInt64 × UInt64 × UInt64 := (hdr.cIno, hdr.cDevMaj, hdr.cDevMin)

/-- An inode and a device as the code compares them, each converted to `int`. -/
def intKey (g : UInt64 × UInt64 × UInt64) : Int × Int × Int :=
  (toCInt g.1.toNat, toCInt g.2.1.toNat, toCInt g.2.2.toNat)

/-- The `ino`, `maj` and `min` of a header. -/
def intDevIno (hdr : FileHdr) : Int × Int × Int := intKey (devIno hdr)

/-- `def_count_defered_links_to_dev_ino`. -/
def defCountDeferedLinksToDevIno (deferouts : List FileHdr) (hdr : FileHdr) : Nat :=
  deferouts.countP fun d => intDevIno d = intDevIno hdr

section

variable (readable : FileHdr → Bool)

/-- `taru_write_archive_member_data`: the data of a header without a link name. -/
def writeMemberData (hdr : FileHdr) : Bool := decide (hdr.cTarLinkname.strlen = 0) && readable hdr

/-- The loop of `def_writeout_defers`: `kept` are the deferments it has passed.
The batch it writes, and the deferments afterwards. -/
def writeoutLoop (hdr : FileHdr) (isFinal : Bool) (kept : List FileHdr) :
    List FileHdr → List Emission × List FileHdr
  | [] => ([], kept)
  | d :: rest =>
      if intDevIno d = intDevIno hdr then
        let remainingLinks := defCountDeferedLinksToDevIno (kept ++ d :: rest) d
        let written :=
          if isFinal = false ∨ 1 < remainingLinks then [⟨{ d with cFilesize := 0 }, false⟩]
          else if remainingLinks = 1 then [⟨d, writeMemberData readable d⟩]
          else []
        let r := writeoutLoop hdr isFinal kept rest
        (written ++ r.1, r.2)
      else writeoutLoop hdr isFinal (kept ++ [d]) rest

/-- `def_writeout_defers`. -/
def defWriteoutDefers (deferouts : List FileHdr) (hdr : FileHdr) (isFinal : Bool) :
    List Emission × List FileHdr :=
  writeoutLoop readable hdr isFinal [] deferouts

/-- `defer_is_last_link`. -/
def deferIsLastLink (deferouts : List FileHdr) (hdr : FileHdr) : Bool :=
  toCInt hdr.cNlink.toNat = defCountDeferedLinksToDevIno deferouts hdr + 1

/-- The deferments, and the batches written so far. -/
structure Deferring where
  /-- `deferoutsM` -/
  deferouts : List FileHdr
  /-- The batches. -/
  batches : List (List Emission)

/-- A regular file with several links, in `taru_write_archive_member_header` and
its caller. -/
def Deferring.writeMember (st : Deferring) (hdr : FileHdr) : Deferring :=
  if deferIsLastLink st.deferouts hdr then
    let r := defWriteoutDefers readable st.deferouts hdr false
    ⟨r.2, st.batches ++ [r.1 ++ [⟨hdr, writeMemberData readable hdr⟩]]⟩
  else ⟨st.deferouts ++ [defCreateDeferment hdr], st.batches⟩

/-- `defer_writeout_final_defers`: each round removes the first deferment, so
there are at most as many rounds as deferments. -/
def deferWriteoutFinalDefers : Nat → List FileHdr → List (List Emission) × List FileHdr
  | 0, deferouts => ([], deferouts)
  | _ + 1, [] => ([], [])
  | rounds + 1, d :: deferouts =>
      let r := defWriteoutDefers readable (d :: deferouts) d true
      let rest := deferWriteoutFinalDefers rounds r.2
      (r.1 :: rest.1, rest.2)

/-- The members of an archive in order, and its end. -/
def writeArchiveLinks (members : List FileHdr) : Deferring :=
  let st := members.foldl (Deferring.writeMember readable) ⟨[], []⟩
  let r := deferWriteoutFinalDefers readable st.deferouts.length st.deferouts
  ⟨r.2, st.batches ++ r.1⟩

end

/-! ## What deferring is for -/

/-- The header belongs to the group. -/
def inGroup (g : UInt64 × UInt64 × UInt64) (hdr : FileHdr) : Bool := devIno hdr == g

/-- A header without what deferring changes: its length and its link name. -/
def linkHeader (hdr : FileHdr) : FileHdr :=
  { defCreateDeferment hdr with cFilesize := 0 }

/-- What is written of a group. -/
def emittedOf (g : UInt64 × UInt64 × UInt64) (batches : List (List Emission)) : List Emission :=
  batches.flatten.filter fun e => inGroup g e.hdr

/-- Every link is written once and each group has its data once. -/
structure GroupsWritten (members : List FileHdr) (st : Deferring) : Prop where
  /-- No link stays deferred. -/
  noneLeft : st.deferouts = []
  /-- The links of each group are written in order, each once. -/
  once : ∀ g, (emittedOf g st.batches).map (fun e => linkHeader e.hdr) =
    (members.filter (inGroup g)).map linkHeader
  /-- The data of each group are written once. -/
  data : ∀ m ∈ members, ((emittedOf (devIno m) st.batches).filter (·.data)).length = 1
  /-- The data are written behind the header of a member, with its length. -/
  dataHeader : ∀ e ∈ st.batches.flatten, e.data = true →
    ∃ m ∈ members, e.hdr = m ∨ e.hdr = defCreateDeferment m
  /-- Every other header has length zero. -/
  noData : ∀ e ∈ st.batches.flatten, e.data = false → e.hdr.cFilesize = 0
  /-- A batch is of one group. -/
  apart : ∀ b ∈ st.batches, ∀ e ∈ b, ∀ e' ∈ b, devIno e.hdr = devIno e'.hdr

/-- One of the members of a group is the last of as many links as it has: the group is
complete with it. -/
def isComplete (group : List FileHdr) : Bool :=
  group.zipIdx.any fun s => s.2 + 1 = s.1.cNlink.toNat

/-- After the members `seen`, the next member is one that is deferred correctly. -/
structure Deferrable (readable : FileHdr → Bool) (seen : List FileHdr) (m : FileHdr) : Prop where
  /-- It has several links, and their number fits an `int`. -/
  nlink : 1 < m.cNlink.toNat ∧ m.cNlink.toNat < 2 ^ 31
  /-- A member of an incomplete group whose device and inode are the same as
  `int` is of the same group. -/
  apart : ∀ s ∈ seen, isComplete (seen.filter (inGroup (devIno s))) = false →
    intDevIno s = intDevIno m → devIno s = devIno m
  /-- Its group is not complete yet. -/
  room : isComplete (seen.filter (inGroup (devIno m))) = false
  /-- If it completes the group, it has no link name and its data can be read. -/
  data : (seen.filter (inGroup (devIno m))).length + 1 = m.cNlink.toNat →
    writeMemberData readable m = true

/-- Every member of a sequence is deferred correctly. -/
def AllDeferrable (readable : FileHdr → Bool) (seen : List FileHdr) : List FileHdr → Prop
  | [] => True
  | m :: members => Deferrable readable seen m ∧ AllDeferrable readable (seen ++ [m]) members

/-- The data of the last member of an incomplete group can be read when the
archive is finished. -/
def Finishable (readable : FileHdr → Bool) (members : List FileHdr) : Prop :=
  ∀ before m after, members = before ++ m :: after → (∀ m' ∈ after, devIno m' ≠ devIno m) →
    isComplete (members.filter (inGroup (devIno m))) = false →
      readable (defCreateDeferment m) = true

/-! ## Writing a group out -/

@[simp] theorem devIno_defCreateDeferment (m : FileHdr) :
    devIno (defCreateDeferment m) = devIno m := rfl

@[simp] theorem intDevIno_defCreateDeferment (m : FileHdr) :
    intDevIno (defCreateDeferment m) = intDevIno m := rfl

@[simp] theorem inGroup_iff {g : UInt64 × UInt64 × UInt64} {m : FileHdr} :
    inGroup g m = true ↔ devIno m = g := by
  rw [inGroup, beq_iff_eq]

theorem isComplete_concat (group : List FileHdr) (m : FileHdr) :
    isComplete (group ++ [m]) =
      (isComplete group || decide (group.length + 1 = m.cNlink.toNat)) := by
  rw [isComplete, List.zipIdx_append, List.any_append, isComplete]
  simp

theorem intDevIno_eq_of_devIno_eq {a b : FileHdr} (h : devIno a = devIno b) :
    intDevIno a = intDevIno b :=
  congrArg intKey h

/-- The code takes the members of a list for those of one group exactly when
they are. -/
def Separated (deferouts : List FileHdr) (hdr : FileHdr) : Prop :=
  ∀ d ∈ deferouts, intDevIno d = intDevIno hdr → devIno d = devIno hdr

section

variable {readable : FileHdr → Bool} {deferouts : List FileHdr} {hdr : FileHdr}

theorem Separated.iff (h : Separated deferouts hdr) {d : FileHdr} (hd : d ∈ deferouts) :
    intDevIno d = intDevIno hdr ↔ inGroup (devIno hdr) d = true := by
  rw [inGroup_iff]
  exact ⟨h d hd, intDevIno_eq_of_devIno_eq⟩

theorem Separated.of_cons {d : FileHdr} (h : Separated (d :: deferouts) hdr) :
    Separated deferouts hdr := fun e he => h e (List.mem_cons_of_mem _ he)

theorem Separated.count (h : Separated deferouts hdr) :
    defCountDeferedLinksToDevIno deferouts hdr =
      (deferouts.filter (inGroup (devIno hdr))).length := by
  rw [defCountDeferedLinksToDevIno, List.countP_eq_length_filter]
  refine congrArg List.length (List.filter_congr fun d hd => ?_)
  rw [Bool.eq_iff_iff, decide_eq_true_iff]
  exact h.iff hd

/-- A deferment written with length zero. -/
def zeroLength (d : FileHdr) : Emission := ⟨{ d with cFilesize := 0 }, false⟩

/-- What is written of an incomplete group: the last link has the data. -/
def incompleteGroup (readable : FileHdr → Bool) : List FileHdr → List Emission
  | [] => []
  | [d] => [⟨d, writeMemberData readable d⟩]
  | d :: ds => zeroLength d :: incompleteGroup readable ds

theorem incompleteGroup_cons_cons (d d' : FileHdr) (ds : List FileHdr) :
    incompleteGroup readable (d :: d' :: ds) =
      zeroLength d :: incompleteGroup readable (d' :: ds) := rfl

/-- Before the end of the archive a group is written with length zero. -/
theorem writeoutLoop_zero (h : Separated deferouts hdr) (kept : List FileHdr) :
    writeoutLoop readable hdr false kept deferouts =
      ((deferouts.filter (inGroup (devIno hdr))).map zeroLength,
        kept ++ deferouts.filter fun d => !inGroup (devIno hdr) d) := by
  induction deferouts generalizing kept with
  | nil => simp [writeoutLoop]
  | cons d rest ih =>
      have hiff := h.iff List.mem_cons_self
      rw [writeoutLoop]
      by_cases hd : inGroup (devIno hdr) d = true
      · rw [if_pos (hiff.mpr hd), List.filter_cons_of_pos hd, List.filter_cons_of_neg (by simp [hd])]
        simp only [true_or, if_true, ih h.of_cons]
        rfl
      · rw [if_neg (fun he => hd (hiff.mp he)), List.filter_cons_of_neg hd,
          List.filter_cons_of_pos (by simp [hd]), ih h.of_cons]
        simp

/-- At the end of the archive the last link of a group is written with the data. -/
theorem writeoutLoop_final (h : Separated deferouts hdr) {kept : List FileHdr}
    (hkept : ∀ k ∈ kept, intDevIno k ≠ intDevIno hdr) :
    writeoutLoop readable hdr true kept deferouts =
      (incompleteGroup readable (deferouts.filter (inGroup (devIno hdr))),
        kept ++ deferouts.filter fun d => !inGroup (devIno hdr) d) := by
  induction deferouts generalizing kept with
  | nil => simp [writeoutLoop, incompleteGroup]
  | cons d rest ih =>
      have hiff := h.iff List.mem_cons_self
      rw [writeoutLoop]
      by_cases hd : inGroup (devIno hdr) d = true
      · have hint := hiff.mpr hd
        have hcount : defCountDeferedLinksToDevIno (kept ++ d :: rest) d =
            (rest.filter (inGroup (devIno hdr))).length + 1 := by
          have hrest := h.of_cons.count
          rw [defCountDeferedLinksToDevIno] at hrest ⊢
          rw [hint, List.countP_append, List.countP_cons_of_pos (by simpa using hint), hrest,
            List.countP_eq_zero.mpr (by simpa using hkept), Nat.zero_add]
        rw [if_pos hint, List.filter_cons_of_pos hd, List.filter_cons_of_neg (by simp [hd]),
          ih h.of_cons hkept]
        simp only [hcount]
        cases hr : rest.filter (inGroup (devIno hdr)) with
        | nil => simp [incompleteGroup]
        | cons d' ds => simp [incompleteGroup, zeroLength]
      · have hint : intDevIno d ≠ intDevIno hdr := fun he => hd (hiff.mp he)
        rw [if_neg hint, List.filter_cons_of_neg hd, List.filter_cons_of_pos (by simp [hd]),
          ih h.of_cons]
        · simp
        · intro k hk
          rcases List.mem_append.mp hk with hk | hk
          · exact hkept k hk
          · rw [List.mem_singleton.mp hk]
            exact hint

theorem incompleteGroup_concat (ds : List FileHdr) (d : FileHdr) :
    incompleteGroup readable (ds ++ [d]) =
      ds.map zeroLength ++ [⟨d, writeMemberData readable d⟩] := by
  induction ds with
  | nil => rfl
  | cons d' ds ih =>
      cases hds : ds ++ [d] with
      | nil => simp at hds
      | cons d'' rest =>
          rw [hds] at ih
          rw [List.cons_append, hds, incompleteGroup_cons_cons, ih, List.map_cons,
            List.cons_append]

/-! ## What is known of one group -/

theorem emittedOf_append (g : UInt64 × UInt64 × UInt64) (bs bs' : List (List Emission)) :
    emittedOf g (bs ++ bs') = emittedOf g bs ++ emittedOf g bs' := by
  simp [emittedOf]

theorem emittedOf_cons (g : UInt64 × UInt64 × UInt64) (b : List Emission)
    (bs : List (List Emission)) :
    emittedOf g (b :: bs) = (b.filter fun e => inGroup g e.hdr) ++ emittedOf g bs := by
  simp [emittedOf]

/-- A group of which not all links have come: `seen` are its members so far,
`deferred` its deferments and `emitted` what is written of it. -/
structure OpenGroup (seen deferred : List FileHdr) (emitted : List Emission) : Prop where
  /-- All of its links are deferred. -/
  deferred_eq : deferred = seen.map defCreateDeferment
  /-- None is written. -/
  emitted_eq : emitted = []
  /-- No link was the last. -/
  room : isComplete seen = false

/-- A group of which all links have come. -/
structure ClosedGroup (seen deferred : List FileHdr) (emitted : List Emission) : Prop where
  /-- No link is deferred. -/
  deferred_eq : deferred = []
  /-- Its links are written in order. -/
  once : emitted.map (fun e => linkHeader e.hdr) = seen.map linkHeader
  /-- Its data are written once. -/
  data : (emitted.filter (·.data)).length = 1
  /-- One link was the last. -/
  full : isComplete seen = true

/-- What is known of the batches, whatever the groups. -/
structure BatchesOk (seen : List FileHdr) (batches : List (List Emission)) : Prop where
  dataHeader : ∀ e ∈ batches.flatten, e.data = true →
    ∃ m ∈ seen, e.hdr = m ∨ e.hdr = defCreateDeferment m
  noData : ∀ e ∈ batches.flatten, e.data = false → e.hdr.cFilesize = 0
  apart : ∀ b ∈ batches, ∀ e ∈ b, ∀ e' ∈ b, devIno e.hdr = devIno e'.hdr

/-- The state after the members `seen`. -/
structure Tracks (seen : List FileHdr) (st : Deferring) : Prop where
  /-- The code tells the incomplete groups apart. -/
  apart : ∀ a ∈ st.deferouts, ∀ b ∈ st.deferouts, intDevIno a = intDevIno b → devIno a = devIno b
  /-- Every deferment is of a member. -/
  source : ∀ d ∈ st.deferouts, ∃ m ∈ seen, d = defCreateDeferment m
  /-- Every group is open or closed. -/
  group : ∀ g, OpenGroup (seen.filter (inGroup g)) (st.deferouts.filter (inGroup g))
      (emittedOf g st.batches) ∨
    ClosedGroup (seen.filter (inGroup g)) (st.deferouts.filter (inGroup g)) (emittedOf g st.batches)
  /-- The batches are as they should be. -/
  batches : BatchesOk seen st.batches

theorem tracks_nil : Tracks [] ⟨[], []⟩ where
  apart := by simp
  source := by simp
  group g := .inl ⟨rfl, rfl, rfl⟩
  batches := ⟨by simp, by simp, by simp⟩

section

variable {seen : List FileHdr} {st : Deferring} {m : FileHdr}

/-- The group of a member that is deferred correctly is open. -/
theorem Tracks.open_of_deferrable (h : Tracks seen st) (hm : Deferrable readable seen m) :
    OpenGroup (seen.filter (inGroup (devIno m))) (st.deferouts.filter (inGroup (devIno m)))
      (emittedOf (devIno m) st.batches) := by
  refine (h.group (devIno m)).resolve_right fun hclosed => ?_
  have hfull := hclosed.full
  rw [hm.room] at hfull
  cases hfull

/-- The group of a deferment is open. -/
theorem Tracks.open_of_mem (h : Tracks seen st) {d : FileHdr} (hd : d ∈ st.deferouts) :
    OpenGroup (seen.filter (inGroup (devIno d))) (st.deferouts.filter (inGroup (devIno d)))
      (emittedOf (devIno d) st.batches) := by
  refine (h.group (devIno d)).resolve_right fun hclosed => ?_
  have hmem : d ∈ st.deferouts.filter (inGroup (devIno d)) :=
    List.mem_filter.mpr ⟨hd, inGroup_iff.mpr rfl⟩
  rw [hclosed.deferred_eq] at hmem
  cases hmem

theorem Tracks.separated (h : Tracks seen st) (hm : Deferrable readable seen m) :
    Separated st.deferouts m := by
  intro d hd hint
  have hopen := h.open_of_mem hd
  obtain ⟨s, hs, rfl⟩ := h.source d hd
  exact hm.apart s hs hopen.room hint

/-- The last link is the one that makes the group complete. -/
theorem Tracks.isLastLink_iff (h : Tracks seen st) (hm : Deferrable readable seen m) :
    deferIsLastLink st.deferouts m = true ↔
      (seen.filter (inGroup (devIno m))).length + 1 = m.cNlink.toNat := by
  have hcount := (h.separated hm).count
  rw [(h.open_of_deferrable hm).deferred_eq, List.length_map] at hcount
  rw [deferIsLastLink, hcount, toCInt_of_lt hm.nlink.2, decide_eq_true_iff]
  omega

theorem filter_concat_of_ne (seen : List FileHdr) {m : FileHdr} {g : UInt64 × UInt64 × UInt64}
    (hg : devIno m ≠ g) :
    (seen ++ [m]).filter (inGroup g) = seen.filter (inGroup g) := by
  simp [inGroup, hg]

theorem filter_concat_self (seen : List FileHdr) (m : FileHdr) :
    (seen ++ [m]).filter (inGroup (devIno m)) = seen.filter (inGroup (devIno m)) ++ [m] := by
  simp [inGroup]

theorem Tracks.apart_concat (h : Tracks seen st) (hm : Deferrable readable seen m) :
    ∀ a ∈ st.deferouts ++ [defCreateDeferment m], ∀ b ∈ st.deferouts ++ [defCreateDeferment m],
      intDevIno a = intDevIno b → devIno a = devIno b := by
  have hsep := h.separated hm
  intro a ha b hb heq
  rcases List.mem_append.mp ha with ha | ha
  · rcases List.mem_append.mp hb with hb | hb
    · exact h.apart a ha b hb heq
    · rw [List.mem_singleton.mp hb] at heq ⊢
      exact hsep a ha heq
  · rw [List.mem_singleton.mp ha] at heq ⊢
    rcases List.mem_append.mp hb with hb | hb
    · exact (hsep b hb heq.symm).symm
    · rw [List.mem_singleton.mp hb]

theorem BatchesOk.concat_seen (h : BatchesOk seen st.batches) : BatchesOk (seen ++ [m]) st.batches where
  dataHeader e he hd := by
    obtain ⟨s, hs, hcase⟩ := h.dataHeader e he hd
    exact ⟨s, List.mem_append_left _ hs, hcase⟩
  noData := h.noData
  apart := h.apart

/-- A link that is not the last is deferred. -/
theorem Tracks.defer (h : Tracks seen st) (hm : Deferrable readable seen m)
    (hlast : deferIsLastLink st.deferouts m = false) :
    Tracks (seen ++ [m]) ⟨st.deferouts ++ [defCreateDeferment m], st.batches⟩ where
  apart := h.apart_concat hm
  source := by
    intro d hd
    rcases List.mem_append.mp hd with hd | hd
    · obtain ⟨s, hs, rfl⟩ := h.source d hd
      exact ⟨s, List.mem_append_left _ hs, rfl⟩
    · exact ⟨m, List.mem_append_right _ List.mem_cons_self, List.mem_singleton.mp hd⟩
  group := by
    intro g
    by_cases hg : devIno m = g
    · subst hg
      have hopen := h.open_of_deferrable hm
      have hnot := (h.isLastLink_iff hm).not.mp (by rw [hlast]; exact nofun)
      refine .inl ⟨?_, hopen.emitted_eq, ?_⟩
      · rw [filter_concat_self, List.map_append, ← hopen.deferred_eq]
        exact filter_concat_self st.deferouts (defCreateDeferment m)
      · rw [filter_concat_self, isComplete_concat, hm.room, decide_eq_false hnot]
        rfl
    · rw [filter_concat_of_ne seen hg, filter_concat_of_ne st.deferouts (m := defCreateDeferment m) hg]
      exact h.group g
  batches := h.batches.concat_seen

/-- What the last link of a group writes. -/
def lastLinkBatch (deferouts : List FileHdr) (m : FileHdr) : List Emission :=
  (deferouts.filter (inGroup (devIno m))).map zeroLength ++ [⟨m, true⟩]

theorem devIno_of_mem_lastLinkBatch {deferouts : List FileHdr} {e : Emission}
    (he : e ∈ lastLinkBatch deferouts m) : devIno e.hdr = devIno m := by
  rcases List.mem_append.mp he with he | he
  · obtain ⟨d, hd, rfl⟩ := List.mem_map.mp he
    have hin : inGroup (devIno m) d = true := List.of_mem_filter hd
    exact inGroup_iff.mp hin
  · rw [List.mem_singleton.mp he]

/-- A batch of one group. -/
theorem filter_batch {g : UInt64 × UInt64 × UInt64} {b : List Emission}
    (hb : ∀ e ∈ b, devIno e.hdr = g) (g' : UInt64 × UInt64 × UInt64) :
    (b.filter fun e => inGroup g' e.hdr) = if g = g' then b else [] := by
  split
  next h =>
    refine List.filter_eq_self.mpr fun e he => inGroup_iff.mpr ?_
    rw [hb e he, h]
  next h =>
    refine List.filter_eq_nil_iff.mpr fun e he hin => h ?_
    rw [← hb e he, inGroup_iff.mp hin]

/-- What the deferments of one group are once those of another are gone. -/
theorem filter_filter_not {g g' : UInt64 × UInt64 × UInt64} (ds : List FileHdr) :
    (ds.filter fun d => !inGroup g d).filter (inGroup g') =
      if g = g' then [] else ds.filter (inGroup g') := by
  rw [List.filter_filter]
  split
  next h =>
    subst h
    simp
  next h =>
    refine List.filter_congr fun d _ => ?_
    simp only [inGroup, Bool.and_eq_left_iff_imp, beq_iff_eq, Bool.not_eq_true', beq_eq_false_iff_ne]
    intro hd hd'
    exact h (hd'.symm.trans hd)

theorem BatchesOk.complete (h : Tracks seen st) :
    BatchesOk (seen ++ [m]) (st.batches ++ [lastLinkBatch st.deferouts m]) where
  dataHeader := by
    intro e he hdata
    rw [List.flatten_append, List.flatten_singleton, List.mem_append] at he
    rcases he with he | he
    · exact h.batches.concat_seen.dataHeader e he hdata
    rcases List.mem_append.mp he with he | he
    · obtain ⟨d, _, rfl⟩ := List.mem_map.mp he
      cases hdata
    · rw [List.mem_singleton.mp he]
      exact ⟨m, List.mem_append_right _ List.mem_cons_self, .inl rfl⟩
  noData := by
    intro e he hdata
    rw [List.flatten_append, List.flatten_singleton, List.mem_append] at he
    rcases he with he | he
    · exact h.batches.noData e he hdata
    rcases List.mem_append.mp he with he | he
    · obtain ⟨d, _, rfl⟩ := List.mem_map.mp he
      rfl
    · rw [List.mem_singleton.mp he] at hdata
      cases hdata
  apart := by
    intro b hb e he e' he'
    rcases List.mem_append.mp hb with hb | hb
    · exact h.batches.apart b hb e he e' he'
    · rw [List.mem_singleton.mp hb] at he he'
      rw [devIno_of_mem_lastLinkBatch he, devIno_of_mem_lastLinkBatch he']

/-- The last link closes its group. -/
theorem Tracks.complete (h : Tracks seen st) (hm : Deferrable readable seen m)
    (hlast : deferIsLastLink st.deferouts m = true) :
    Tracks (seen ++ [m]) ⟨st.deferouts.filter (fun d => !inGroup (devIno m) d),
      st.batches ++ [lastLinkBatch st.deferouts m]⟩ where
  apart a ha b hb := h.apart a (List.mem_of_mem_filter ha) b (List.mem_of_mem_filter hb)
  source := by
    intro d hd
    obtain ⟨s, hs, rfl⟩ := h.source d (List.mem_of_mem_filter hd)
    exact ⟨s, List.mem_append_left _ hs, rfl⟩
  group := by
    intro g
    have hbatch : emittedOf g [lastLinkBatch st.deferouts m] =
        if devIno m = g then lastLinkBatch st.deferouts m else [] := by
      rw [emittedOf, List.flatten_singleton]
      exact filter_batch (fun e he => devIno_of_mem_lastLinkBatch he) g
    rw [emittedOf_append, hbatch, filter_filter_not]
    by_cases hg : devIno m = g
    · subst hg
      have hopen := h.open_of_deferrable hm
      have hfull := (h.isLastLink_iff hm).mp hlast
      rw [if_pos rfl, if_pos rfl, filter_concat_self, hopen.emitted_eq, List.nil_append,
        lastLinkBatch, hopen.deferred_eq]
      refine .inr ⟨rfl, ?_, ?_, ?_⟩
      · rw [List.map_append, List.map_append, List.map_map, List.map_map]
        rfl
      · rw [List.filter_append, List.filter_eq_nil_iff.mpr]
        · rfl
        · intro e he
          obtain ⟨d, _, rfl⟩ := List.mem_map.mp he
          exact nofun
      · rw [isComplete_concat, decide_eq_true hfull, Bool.or_true]
    · rw [if_neg hg, if_neg hg, filter_concat_of_ne seen hg, List.append_nil]
      exact h.group g
  batches := BatchesOk.complete h

/-- One member. -/
theorem Tracks.step (h : Tracks seen st) (hm : Deferrable readable seen m) :
    Tracks (seen ++ [m]) (st.writeMember readable m) := by
  rw [Deferring.writeMember]
  cases hlast : deferIsLastLink st.deferouts m with
  | false => exact h.defer hm hlast
  | true =>
      have hzero := @writeoutLoop_zero readable _ _ (h.separated hm) []
      have hdata := hm.data ((h.isLastLink_iff hm).mp hlast)
      simp only [if_true, defWriteoutDefers, hzero, hdata, List.nil_append]
      exact h.complete hm hlast

end

/-- The members of an archive. -/
theorem Tracks.run {seen members : List FileHdr} {st : Deferring} (h : Tracks seen st)
    (hall : AllDeferrable readable seen members) :
    Tracks (seen ++ members) (members.foldl (Deferring.writeMember readable) st) := by
  induction members generalizing seen st with
  | nil =>
      rw [List.append_nil]
      exact h
  | cons m members ih =>
      rw [List.foldl_cons, List.append_cons]
      exact ih (h.step hall.1) hall.2

/-! ## The end of the archive -/

theorem devIno_of_mem_incompleteGroup {ds : List FileHdr} {e : Emission}
    (he : e ∈ incompleteGroup readable ds) : ∃ d ∈ ds, devIno e.hdr = devIno d := by
  induction ds with
  | nil => cases he
  | cons d rest ih =>
      cases rest with
      | nil =>
          rw [incompleteGroup, List.mem_singleton] at he
          exact ⟨d, List.mem_cons_self, by rw [he]⟩
      | cons d' rest =>
          rw [incompleteGroup_cons_cons, List.mem_cons] at he
          rcases he with he | he
          · exact ⟨d, List.mem_cons_self, by rw [he]; rfl⟩
          · obtain ⟨d'', hd'', heq⟩ := ih he
            exact ⟨d'', List.mem_cons_of_mem _ hd'', heq⟩

/-- The end of the archive writes each group that is incomplete. -/
theorem deferWriteoutFinalDefers_spec {rounds : Nat}
    (hapart : ∀ a ∈ deferouts, ∀ b ∈ deferouts, intDevIno a = intDevIno b → devIno a = devIno b)
    (hrounds : deferouts.length ≤ rounds) :
    (deferWriteoutFinalDefers readable rounds deferouts).2 = [] ∧
    (∀ g, emittedOf g (deferWriteoutFinalDefers readable rounds deferouts).1 =
      incompleteGroup readable (deferouts.filter (inGroup g))) ∧
    ∀ b ∈ (deferWriteoutFinalDefers readable rounds deferouts).1, ∀ e ∈ b, ∀ e' ∈ b,
      devIno e.hdr = devIno e'.hdr := by
  induction rounds generalizing deferouts with
  | zero =>
      rw [List.length_eq_zero_iff.mp (Nat.le_zero.mp hrounds), deferWriteoutFinalDefers]
      exact ⟨rfl, fun g => rfl, nofun⟩
  | succ rounds ih =>
      cases deferouts with
      | nil =>
          rw [deferWriteoutFinalDefers]
          exact ⟨rfl, fun g => rfl, nofun⟩
      | cons d rest =>
          have hsep : Separated (d :: rest) d := fun a ha => hapart a ha d List.mem_cons_self
          have hbatch : ∀ e ∈ incompleteGroup readable ((d :: rest).filter (inGroup (devIno d))),
              devIno e.hdr = devIno d := by
            intro e he
            obtain ⟨d', hd', heq⟩ := devIno_of_mem_incompleteGroup he
            rw [heq]
            exact inGroup_iff.mp (List.of_mem_filter hd')
          have hmem : ∀ a ∈ (d :: rest).filter (fun a => !inGroup (devIno d) a), a ∈ d :: rest :=
            fun a ha => List.mem_of_mem_filter ha
          have hlen : ((d :: rest).filter fun a => !inGroup (devIno d) a).length ≤ rounds := by
            have hle := List.length_filter_le (fun a => !inGroup (devIno d) a) rest
            rw [List.length_cons] at hrounds
            rw [List.filter_cons_of_neg (by simp)]
            omega
          obtain ⟨hnil, hgroup, hone⟩ :=
            ih (fun a ha b hb => hapart a (hmem a ha) b (hmem b hb)) hlen
          rw [deferWriteoutFinalDefers, defWriteoutDefers, writeoutLoop_final hsep (by simp)]
          refine ⟨hnil, ?_, ?_⟩
          · intro g
            dsimp only
            rw [List.nil_append, emittedOf_cons, hgroup, filter_filter_not, filter_batch hbatch]
            by_cases hg : devIno d = g
            · rw [if_pos hg, if_pos hg, hg, incompleteGroup, List.append_nil]
            · rw [if_neg hg, if_neg hg, List.nil_append]
          · intro b hb e he e' he'
            rcases List.mem_cons.mp hb with hb | hb
            · rw [hb] at he he'
              rw [hbatch e he, hbatch e' he']
            · exact hone b hb e he e' he'

/-- What is written of one group of an archive. -/
structure GroupWritten (members : List FileHdr) (emitted : List Emission) : Prop where
  once : emitted.map (fun e => linkHeader e.hdr) = members.map linkHeader
  data : members ≠ [] → (emitted.filter (·.data)).length = 1
  dataHeader : ∀ e ∈ emitted, e.data = true →
    ∃ m ∈ members, e.hdr = m ∨ e.hdr = defCreateDeferment m
  noData : ∀ e ∈ emitted, e.data = false → e.hdr.cFilesize = 0

theorem groupWritten_nil : GroupWritten [] [] where
  once := rfl
  data hne := absurd rfl hne
  dataHeader := by simp
  noData := by simp

/-- The deferments of an incomplete group, the last with its data. -/
theorem incompleteGroup_written {ms : List FileHdr} {m : FileHdr}
    (hm : readable (defCreateDeferment m) = true) :
    incompleteGroup readable ((ms ++ [m]).map defCreateDeferment) =
      (ms.map defCreateDeferment).map zeroLength ++ [⟨defCreateDeferment m, true⟩] := by
  have hdata : writeMemberData readable (defCreateDeferment m) = true := by
    rw [writeMemberData, hm]
    rfl
  rw [List.map_append, List.map_singleton, incompleteGroup_concat, hdata]

theorem groupWritten_incomplete {ms : List FileHdr} {m : FileHdr}
    (hm : readable (defCreateDeferment m) = true) :
    GroupWritten (ms ++ [m])
      (incompleteGroup readable ((ms ++ [m]).map defCreateDeferment)) where
  once := by
    rw [incompleteGroup_written hm, List.map_append, List.map_append, List.map_map, List.map_map]
    rfl
  data := by
    intro _
    rw [incompleteGroup_written hm, List.filter_append, List.filter_eq_nil_iff.mpr]
    · rfl
    · intro e he
      obtain ⟨d, _, rfl⟩ := List.mem_map.mp he
      exact nofun
  dataHeader := by
    rw [incompleteGroup_written hm]
    intro e he hdata
    rcases List.mem_append.mp he with he | he
    · obtain ⟨d, _, rfl⟩ := List.mem_map.mp he
      cases hdata
    · rw [List.mem_singleton.mp he]
      exact ⟨m, List.mem_append_right _ List.mem_cons_self, .inr rfl⟩
  noData := by
    rw [incompleteGroup_written hm]
    intro e he hdata
    rcases List.mem_append.mp he with he | he
    · obtain ⟨d, _, rfl⟩ := List.mem_map.mp he
      rfl
    · rw [List.mem_singleton.mp he] at hdata
      cases hdata

/-- The last member of a group. -/
theorem last_of_filter {g : UInt64 × UInt64 × UInt64} {members ms : List FileHdr} {m : FileHdr}
    (h : members.filter (inGroup g) = ms ++ [m]) :
    ∃ before after, members = before ++ m :: after ∧ devIno m = g ∧
      ∀ m' ∈ after, devIno m' ≠ devIno m := by
  obtain ⟨l₁, l₂, rfl, _, h₂⟩ := List.filter_eq_append_iff.mp h
  obtain ⟨l₃, after, rfl, _, hm, hafter⟩ := List.filter_eq_cons_iff.mp h₂
  rw [inGroup_iff] at hm
  refine ⟨l₁ ++ l₃, after, by rw [List.append_assoc], hm, fun m' hm' heq => ?_⟩
  exact List.filter_eq_nil_iff.mp hafter m' hm' (inGroup_iff.mpr (heq.trans hm))

theorem mem_emittedOf {g : UInt64 × UInt64 × UInt64} {bs : List (List Emission)} {e : Emission} :
    e ∈ emittedOf g bs ↔ e ∈ bs.flatten ∧ devIno e.hdr = g := by
  rw [emittedOf, List.mem_filter, inGroup_iff]

theorem groupWritten_closed {members : List FileHdr} {st : Deferring} (h : Tracks members st)
    {g : UInt64 × UInt64 × UInt64}
    (hclosed : ClosedGroup (members.filter (inGroup g)) (st.deferouts.filter (inGroup g))
      (emittedOf g st.batches)) :
    GroupWritten (members.filter (inGroup g)) (emittedOf g st.batches) where
  once := hclosed.once
  data _ := hclosed.data
  dataHeader e he hdata := by
    obtain ⟨hflat, hg⟩ := mem_emittedOf.mp he
    obtain ⟨m, hm, hcase⟩ := h.batches.dataHeader e hflat hdata
    have hmg : devIno m = g := by
      rcases hcase with hcase | hcase
      · rw [← hg, hcase]
      · rw [← hg, hcase, devIno_defCreateDeferment]
    exact ⟨m, List.mem_filter.mpr ⟨hm, inGroup_iff.mpr hmg⟩, hcase⟩
  noData e he hdata := h.batches.noData e (mem_emittedOf.mp he).1 hdata

/-- The end of the archive writes every group that is still open. -/
theorem Tracks.group_written {members : List FileHdr} {st : Deferring} (h : Tracks members st)
    (hfin : Finishable readable members) (g : UInt64 × UInt64 × UInt64) :
    GroupWritten (members.filter (inGroup g))
      (emittedOf g st.batches ++ incompleteGroup readable (st.deferouts.filter (inGroup g))) := by
  rcases h.group g with hopen | hclosed
  · rw [hopen.emitted_eq, List.nil_append, hopen.deferred_eq]
    rcases List.eq_nil_or_concat (members.filter (inGroup g)) with hnil | ⟨ms, m, hms⟩
    · rw [hnil]
      exact groupWritten_nil
    · rw [List.concat_eq_append] at hms
      obtain ⟨before, after, hsplit, hm, hafter⟩ := last_of_filter hms
      rw [hms]
      refine groupWritten_incomplete (hfin before m after hsplit hafter ?_)
      rw [hm]
      exact hopen.room
  · rw [hclosed.deferred_eq, incompleteGroup, List.append_nil]
    exact groupWritten_closed h hclosed

end

/-! ## The archive -/

/-- A file with two links. -/
def linkOf (ino : UInt64) : FileHdr := { cIno := ino, cNlink := 2 }

end Swbis.Taru
